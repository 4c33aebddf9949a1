import Bittuly.Urls.CacheInvariant

/-!
# How long after its expiry a link can redirect

A result from the database is checked against the clock before it is answered. A result from Redis is
not: the TTL of its entry is rounded to whole seconds, which adds less than one second, and L1 keeps the
result for three more. So a redirect comes less than four seconds after the last expiry the row had.
-/

namespace Bittuly.Urls

open Cache Runs

/-- In these tables every expiry of the row with this code is at most `m`; it always has one. -/
def ExpiryBound (tables : List (List UrlRow)) (shortCode : String) (m : Instant) : Prop :=
  ∀ urls ∈ tables, ∀ r ∈ urls, r.shortCode = some shortCode → ∃ exp, r.expiresAt = some exp ∧ exp ≤ m

/-- A target that carries an expiry carries one that is at most `m`; one that carries none, meets
`unchecked`. -/
def Within (m : Instant) (unchecked : Prop) : CachedUrlResult → Prop
  | none => True
  | some (_, some exp) => exp ≤ m
  | some (_, none) => unchecked

/-- What the caches hold is bounded by every bound of the row's expiries. -/
def bounded (s : World) : CacheProp where
  redis c en := ∀ m, ExpiryBound s.db.history c m →
    ∃ d, en.deadline = some d ∧ d < m + second
  l1 c en := ∀ m, ExpiryBound s.db.history c m →
    Within m (∃ d, en.deadline = some d ∧ d < m + second + l1TimeToLive) en.value
  fill f := ∀ m, ExpiryBound s.db.history f.fill.shortCode m →
    ∃ exp, f.fill.expiresAt = some exp ∧ exp ≤ m
  flight c _ value source readAt := ∀ m, ExpiryBound s.db.history c m →
    Within m (source = .redis ∧ readAt < m + second) value

/-- A redirect comes less than four seconds after every bound of the expiries that its row had had. -/
def AnswerBounded (s : World) (a : LoggedAnswer) : Prop :=
  a.committed ≤ s.db.history.length ∧
    ∀ m, ExpiryBound (s.db.history.take a.committed) a.shortCode m →
      ∀ originalUrl, a.response = .temporaryRedirect originalUrl → a.answeredAt < m + 4 * second

variable {s s' : World} {encode : ℤ → String}

/-- A bound for more tables is one for fewer. -/
theorem ExpiryBound.mono {tables tables' : List (List UrlRow)} (hsub : tables ⊆ tables')
    {c : String} {m : Instant} (h : ExpiryBound tables' c m) : ExpiryBound tables c m :=
  fun urls hurls => h urls (hsub hurls)

/-- A row that was read from a committed table has an expiry within the bound. -/
theorem ExpiryBound.of_read {tables : List (List UrlRow)} {c : String} {m : Instant}
    (h : ExpiryBound tables c m) {urls : List UrlRow} (hurls : urls ∈ tables) {originalUrl : String}
    {expiresAt : Option Instant} (hrow : getOriginalUrl urls c = some (originalUrl, expiresAt)) :
    ∃ exp, expiresAt = some exp ∧ exp ≤ m := by
  obtain ⟨r, hr, hcode, -, rfl⟩ := getOriginalUrl_eq_some hrow
  exact h urls hurls r hr hcode

theorem Within.mono {m : Instant} {p q : Prop} (hpq : p → q) {value : CachedUrlResult}
    (h : Within m p value) : Within m q value := by
  match value, h with
  | none, _ => trivial
  | some (_, some _), h => exact h
  | some (_, none), h => exact hpq h

/-- A redirect of a bounded result is in time when the unchecked ones are. -/
theorem Within.redirect {m now : Instant} {unchecked : Prop} {value : CachedUrlResult}
    (h : Within m unchecked value) {originalUrl : String}
    (hresp : respond now value = .temporaryRedirect originalUrl)
    (hunchecked : unchecked → now < m + 4 * second) : now < m + 4 * second := by
  obtain ⟨-, rfl | ⟨exp, rfl, hle⟩⟩ := respond_redirect hresp
  · exact hunchecked h
  · have hexp : exp ≤ m := h
    have hpos : 0 < 4 * second := by decide
    linarith

/-- The rules for the bounds. -/
theorem bounded_rules (hstore : StoreInv encode s.db) {e : WorldEvent}
    (hread : ReadThenInsert .redis s e) (hstep : s.Step encode e s') :
    s.Rules e (bounded s) (bounded s') := by
  obtain ⟨-, hgrows⟩ := hstep.store hstore
  have hback : ∀ {c m}, ExpiryBound s'.db.history c m → ExpiryBound s.db.history c m :=
    fun h => h.mono hgrows.history.subset
  refine ⟨?_, ?_, ?_, ?_, ?_, ?_, ?_, ?_, ?_⟩
  · exact fun c en h m hm => h m (hback hm)
  · exact fun c en h m hm => h m (hback hm)
  · exact fun f h m hm => h m (hback hm)
  · exact fun c ticket value source readAt h m hm => h m (hback hm)
  · intro k f en _ _ hf hen m hm
    obtain ⟨exp, hexp, hle⟩ := hf m (hback hm)
    -- rounding to whole seconds costs less than one
    obtain ⟨d, hd, hlt⟩ := Fill.deadline_lt hexp hen
    exact ⟨d, hd, by linarith⟩
  · intro i c f en _ _ hen hlive m hm
    obtain ⟨d, hd, hlt⟩ := hen m (hback hm)
    have hnow := hlive d hd
    exact ⟨rfl, hnow.trans hlt⟩
  · intro i c f replica urls _ _ htable m hm
    have hmem := World.readTable_mem hstore htable
    cases hrow : getOriginalUrl urls c with
    | none => trivial
    | some row =>
      obtain ⟨exp, hexp, hle⟩ := (hback hm).of_read hmem hrow
      obtain ⟨originalUrl, expiresAt⟩ := row
      obtain rfl : expiresAt = some exp := hexp
      exact hle
  · intro i c f replica urls originalUrl expiresAt _ _ htable hrow m hm
    exact (hback hm).of_read (World.readTable_mem hstore htable) hrow
  · rintro i c f value source readAt rfl hf hpc h m hm
    refine (h m (hback hm)).mono ?_
    rintro ⟨hsource, hlt⟩
    -- the one place where the Redis read and the insert must be one step
    have hnow : readAt = s.now := hread.eq_now hf hpc hsource
    exact ⟨s.now + l1TimeToLive, rfl, by rw [← hnow]; linarith⟩

/-- A new answer is in time. -/
theorem bounded_answer {e : WorldEvent} (hread : ReadThenInsert .redis s e) {a : LoggedAnswer}
    (hat : a.answeredAt = s.now) (hcommitted : a.committed = s.db.history.length)
    (hcause : s.Cause (bounded s) a.shortCode e a.response) : AnswerBounded s a := by
  refine ⟨hcommitted.le, ?_⟩
  rw [hcommitted, List.take_length, hat]
  intro m hm originalUrl hredirect
  generalize a.response = response at hcause hredirect
  cases hcause with
  | @hit i en hp hlive =>
    refine (hp m hm).redirect hredirect ?_
    rintro ⟨d, hd, hlt⟩
    have hnow := hlive d hd
    have hthree : l1TimeToLive = 3 * second := rfl
    linarith
  | @ended i f value source readAt hf hpc hp =>
    refine (hp m hm).redirect hredirect ?_
    rintro ⟨hsource, hlt⟩
    have hnow : readAt = s.now := hread.eq_now hf hpc hsource
    have hpos : second < 4 * second := by decide
    rw [← hnow]
    linarith
  | failed => cases hredirect

/-- Later tables do not change what an answer had to respect. -/
theorem AnswerBounded.mono (hdb : s.db.history <+: s'.db.history) {a : LoggedAnswer}
    (h : AnswerBounded s a) : AnswerBounded s' a := by
  obtain ⟨hle, hbound⟩ := h
  obtain ⟨more, hmore⟩ := hdb
  refine ⟨?_, ?_⟩
  · rw [← hmore, List.length_append]
    omega
  · rw [← hmore, List.take_append_of_le_length hle]
    exact hbound

/-- The invariant of runs in which a Redis read goes to L1 at once. -/
structure BoundedInv (encode : ℤ → String) (s : World) : Prop where
  store : StoreInv encode s.db
  caches : s.Sat (bounded s)
  answers : ∀ a ∈ s.answers, AnswerBounded s a

theorem BoundedInv.step (h : BoundedInv encode s) {e : WorldEvent}
    (hread : ReadThenInsert .redis s e) (hstep : s.Step encode e s') :
    BoundedInv encode s' := by
  obtain ⟨hstore, hgrows⟩ := hstep.store h.store
  refine ⟨hstore, h.caches.step (bounded_rules h.store hread hstep) hstep, ?_⟩
  obtain ⟨new, hanswers, hnew⟩ := h.caches.step_answers hstep
  intro a ha
  rw [hanswers] at ha
  rcases List.mem_append.mp ha with hold | hfresh
  · exact (h.answers a hold).mono hgrows.history
  · obtain ⟨hat, hcommitted, hcause⟩ := hnew a hfresh
    exact (bounded_answer hread hat hcommitted hcause).mono hgrows.history

theorem boundedInv_init (now : Instant) : BoundedInv encode (World.init now) := by
  refine ⟨storeInv_init, World.sat_init now _, ?_⟩
  intro a ha
  cases ha

/-- **Expiry overshoot is bounded.** When every expiry that the row of a code had had by then was at most
`m`, a redirect for the code is answered before `m` plus four seconds. -/
theorem redirect_overshoot {now : Instant} {es : List WorldEvent} {s : World}
    (hrun : Run (World.step encode) (ReadThenInsert .redis) (World.init now) es s)
    {a : LoggedAnswer} (ha : a ∈ s.answers) {originalUrl : String}
    (hredirect : a.response = .temporaryRedirect originalUrl) {m : Instant}
    (hm : ExpiryBound (s.db.history.take a.committed) a.shortCode m) :
    a.answeredAt < m + 4 * second := by
  have h : BoundedInv encode s :=
    hrun.induct (fun _ _ _ h hread hstep => h.step hread (World.step_cases hstep)) (boundedInv_init now)
  exact (h.answers a ha).2 m hm originalUrl hredirect

/-- A link that expires at 10.5 s redirects at 13.7 s: Redis holds it until 10.9 s, and at 10.8 s an L1
takes it from there. -/
theorem redirect_overshoot_of_late_fill :
    ∃ s : World, ∃ a ∈ s.answers, a.answeredAt = 13700000000 ∧
      a.answeredAt < 10500000000 + 4 * second := by
  obtain ⟨s, hrun, hs⟩ := exists_run_of_exec (World.step base62Encode) (ReadThenInsert .redis)
    (World.init 9200000000)
    (World.shortenEvents 0 1 "https://a.example" (some 10500000000) ++ World.missEvents 0 "1" ++
      [.insert 0 "1", .tick 700000000, .fill 0 true, .tick 900000000, .request 1 "1",
        .redisGet 1 "1" true, .insert 1 "1", .tick 2900000000, .request 1 "1"])
    (fun s => s.answers.any fun a => a.answeredAt = 13700000000 && a.shortCode = "1" &&
      a.response = .temporaryRedirect "https://a.example" &&
      (s.db.history.take a.committed).all fun urls => urls.all fun r =>
        r.expiresAt = some 10500000000) (by decide)
  simp only [Bool.and_eq_true, List.any_eq_true, decide_eq_true_eq, List.all_eq_true] at hs
  obtain ⟨a, ha, ⟨⟨hat, hcode⟩, hredirect⟩, htables⟩ := hs
  refine ⟨s, a, ha, hat, redirect_overshoot hrun ha hredirect ?_⟩
  intro urls hurls r hr _
  exact ⟨10500000000, htables urls hurls r hr, le_refl _⟩

end Bittuly.Urls
