import Bittuly.Urls.CacheInvariant

/-!
# Every redirect answer is explained by the database

Targets only come from committed rows, and a code names one row for ever, so a redirect can only lead to
the target of that row. A result "unknown code" only comes from a database read; it is served from L1
for three seconds, so a 404 is at most that old. This needs that a database read goes to L1 at once.
-/

namespace Bittuly.Urls

open Cache Runs

/-- A row with this code and target has been committed. -/
def Committed (db : Db) (shortCode originalUrl : String) : Prop :=
  ∃ urls ∈ db.history, ∃ r ∈ urls, r.shortCode = some shortCode ∧ r.originalUrl = originalUrl

/-- The log has a read at this time, of a committed table without the code. -/
def ReadMissing (s : World) (shortCode : String) (readAt : Instant) : Prop :=
  ∃ read ∈ s.reads, read.shortCode = shortCode ∧ read.readAt = readAt ∧ read.urls ∈ s.db.history ∧
    getOriginalUrl read.urls shortCode = none

/-- A result that is explained: its target was committed, or the code was missing when it was read. -/
def ValueExplained (s : World) (shortCode : String) (readAt : Instant) : CachedUrlResult → Prop
  | some (originalUrl, _) => Committed s.db shortCode originalUrl
  | none => ReadMissing s shortCode readAt

/-- What the caches hold is explained. -/
def explained (s : World) : CacheProp where
  redis c en := Committed s.db c en.value
  l1 c en := ∃ readAt, en.deadline = some (readAt + l1TimeToLive) ∧ ValueExplained s c readAt en.value
  fill f := Committed s.db f.fill.shortCode f.fill.originalUrl
  flight c _ value source readAt := ValueExplained s c readAt value ∧ (value = none → source = .database)

/-- An answer is explained: a redirect by a committed row, a 404 by a read of the last three seconds. -/
def AnswerExplained (s : World) (a : LoggedAnswer) : Prop :=
  (∀ originalUrl, a.response = .temporaryRedirect originalUrl →
      Committed s.db a.shortCode originalUrl) ∧
    (a.response = .notFound →
      ∃ readAt, a.answeredAt - l1TimeToLive ≤ readAt ∧ ReadMissing s a.shortCode readAt)

/-! ## Explanations last -/

variable {s s' : World} {encode : ℤ → String}

theorem Committed.mono {db db' : Db} (hdb : db.history <+: db'.history) {c originalUrl : String}
    (h : Committed db c originalUrl) : Committed db' c originalUrl := by
  obtain ⟨urls, hurls, hr⟩ := h
  exact ⟨urls, hdb.subset hurls, hr⟩

theorem ReadMissing.mono (hdb : s.db.history <+: s'.db.history) (hreads : s.reads <+: s'.reads)
    {c : String} {readAt : Instant} (h : ReadMissing s c readAt) : ReadMissing s' c readAt := by
  obtain ⟨read, hread, hcode, hat, hurls, hnone⟩ := h
  exact ⟨read, hreads.subset hread, hcode, hat, hdb.subset hurls, hnone⟩

theorem ValueExplained.mono (hdb : s.db.history <+: s'.db.history) (hreads : s.reads <+: s'.reads)
    {c : String} {readAt : Instant} {value : CachedUrlResult} (h : ValueExplained s c readAt value) :
    ValueExplained s' c readAt value := by
  cases value with
  | none => exact ReadMissing.mono hdb hreads h
  | some p => exact Committed.mono hdb h

theorem AnswerExplained.mono (hdb : s.db.history <+: s'.db.history) (hreads : s.reads <+: s'.reads)
    {a : LoggedAnswer} (h : AnswerExplained s a) : AnswerExplained s' a := by
  refine ⟨fun originalUrl hresp => (h.1 originalUrl hresp).mono hdb, fun hresp => ?_⟩
  obtain ⟨readAt, hle, hread⟩ := h.2 hresp
  exact ⟨readAt, hle, hread.mono hdb hreads⟩

/-- A table row read by a redirect was committed. -/
theorem Committed.of_read {db : Db} {urls : List UrlRow} (hurls : urls ∈ db.history)
    {c originalUrl : String} {expiresAt : Option Instant}
    (h : getOriginalUrl urls c = some (originalUrl, expiresAt)) : Committed db c originalUrl := by
  obtain ⟨r, hr, hcode, horiginal, -⟩ := getOriginalUrl_eq_some h
  exact ⟨urls, hurls, r, hr, hcode, horiginal⟩

/-! ## One step -/

/-- The rules for explanations. -/
theorem explained_rules (hstore : StoreInv encode s.db) {e : WorldEvent}
    (hread : ReadThenInsert .database s e) (hstep : s.Step encode e s') :
    s.Rules e (explained s) (explained s') := by
  obtain ⟨-, hgrows⟩ := hstep.store hstore
  have hreads := hstep.reads_prefix
  have hdb := hgrows.history
  refine ⟨?_, ?_, ?_, ?_, ?_, ?_, ?_, ?_, ?_⟩
  · exact fun c en h => Committed.mono hdb h
  · rintro c en ⟨readAt, hdeadline, hvalue⟩
    exact ⟨readAt, hdeadline, hvalue.mono hdb hreads⟩
  · exact fun f h => Committed.mono hdb h
  · rintro c ticket value source readAt ⟨hvalue, hsource⟩
    exact ⟨hvalue.mono hdb hreads, hsource⟩
  · intro k f en _ _ hf hen
    show Committed s'.db f.fill.shortCode en.value
    rw [Fill.entry_value hen]
    exact Committed.mono hdb hf
  · intro i c f en _ _ hen _
    refine ⟨Committed.mono hdb hen, ?_⟩
    intro hnone
    cases hnone
  · rintro i c f replica urls rfl - htable
    have hmem := hdb.subset (World.readTable_mem hstore htable)
    refine ⟨?_, fun _ => rfl⟩
    cases hrow : getOriginalUrl urls c with
    | none =>
      exact ⟨_, hstep.read_logged htable, rfl, rfl, hmem, hrow⟩
    | some row => exact Committed.of_read hmem hrow
  · rintro i c f replica urls originalUrl expiresAt - - htable hrow
    exact Committed.of_read (hdb.subset (World.readTable_mem hstore htable)) hrow
  · rintro i c f value source readAt rfl hf hpc ⟨hvalue, hsource⟩
    refine ⟨s.now, rfl, ?_⟩
    cases value with
    | some row => exact Committed.mono hdb hvalue
    | none =>
      -- the one place where the read and the insert must be one step
      have hnow : readAt = s.now := hread.eq_now hf hpc (hsource rfl)
      rw [← hnow]
      exact ReadMissing.mono hdb hreads hvalue

/-- A new answer is explained. -/
theorem explained_answer {e : WorldEvent} (hread : ReadThenInsert .database s e)
    {a : LoggedAnswer} (hat : a.answeredAt = s.now)
    (hcause : s.Cause (explained s) a.shortCode e a.response) : AnswerExplained s a := by
  have hvalue : ∀ value readAt, ValueExplained s a.shortCode readAt value →
      a.response = respond s.now value → (value = none → s.now - l1TimeToLive ≤ readAt) →
      AnswerExplained s a := by
    intro value readAt hvalue hresp hage
    constructor
    · intro originalUrl hredirect
      rw [hresp] at hredirect
      obtain ⟨-, rfl | ⟨exp, rfl, -⟩⟩ := respond_redirect hredirect
      · exact hvalue
      · exact hvalue
    · intro hnotFound
      rw [hresp] at hnotFound
      obtain rfl := respond_notFound hnotFound
      rw [hat]
      exact ⟨readAt, hage rfl, hvalue⟩
  generalize hresponse : a.response = response at hcause
  cases hcause with
  | @hit i en hp hlive =>
    obtain ⟨readAt, hdeadline, hexplained⟩ := hp
    refine hvalue en.value readAt hexplained hresponse fun _ => ?_
    have hlt := hlive _ hdeadline
    linarith
  | @ended i f value source readAt hf hpc hp =>
    obtain ⟨hexplained, hsource⟩ := hp
    refine hvalue value readAt hexplained hresponse ?_
    rintro rfl
    rw [hread.eq_now hf hpc (hsource rfl)]
    have hpos : 0 ≤ l1TimeToLive := by decide
    linarith
  | failed =>
    constructor
    · intro originalUrl hredirect
      rw [hresponse] at hredirect
      cases hredirect
    · intro hnotFound
      rw [hresponse] at hnotFound
      cases hnotFound

/-! ## Runs -/

/-- The invariant of runs in which a database read goes to L1 at once. -/
structure ExplainedInv (encode : ℤ → String) (s : World) : Prop where
  store : StoreInv encode s.db
  caches : s.Sat (explained s)
  answers : ∀ a ∈ s.answers, AnswerExplained s a

theorem ExplainedInv.step (h : ExplainedInv encode s) {e : WorldEvent}
    (hread : ReadThenInsert .database s e) (hstep : s.Step encode e s') :
    ExplainedInv encode s' := by
  obtain ⟨hstore, hgrows⟩ := hstep.store h.store
  have hreads := hstep.reads_prefix
  refine ⟨hstore, h.caches.step (explained_rules h.store hread hstep) hstep, ?_⟩
  obtain ⟨new, hanswers, hnew⟩ := h.caches.step_answers hstep
  intro a ha
  rw [hanswers] at ha
  rcases List.mem_append.mp ha with hold | hfresh
  · exact (h.answers a hold).mono hgrows.history hreads
  · obtain ⟨hat, -, hcause⟩ := hnew a hfresh
    exact (explained_answer hread hat hcause).mono hgrows.history hreads

theorem explainedInv_init (now : Instant) : ExplainedInv encode (World.init now) := by
  refine ⟨storeInv_init, World.sat_init now _, ?_⟩
  intro a ha
  cases ha

/-- The only row that ever carried a code: its id, and its target in every committed table. -/
def TheRow (db : Db) (shortCode originalUrl : String) : Prop :=
  ∃ urlId, (∃ urls ∈ db.history, ∃ r ∈ urls, r.shortCode = some shortCode ∧ r.urlId = urlId) ∧
    ∀ urls ∈ db.history, ∀ r ∈ urls, r.shortCode = some shortCode →
      r.urlId = urlId ∧ r.originalUrl = originalUrl

theorem Committed.theRow (hencode : Set.InjOn encode (Set.Ioo 0 (2 ^ 63))) {db : Db}
    (hstore : StoreInv encode db) {c originalUrl : String} (h : Committed db c originalUrl) :
    TheRow db c originalUrl := by
  obtain ⟨urls, hurls, r, hr, hcode, rfl⟩ := h
  refine ⟨r.urlId, ⟨urls, hurls, r, hr, hcode, rfl⟩, ?_⟩
  intro urls' hurls' r' hr' hcode'
  have hid : r'.urlId = r.urlId :=
    hstore.id_eq_of_code hencode hurls' hr' hurls hr (hcode'.trans hcode.symm)
  have hissue := hstore.issue_eq_of_id hurls' hr' hurls hr hid
  exact ⟨hid, congrArg Issue.originalUrl hissue⟩

/-- **Every redirect answer is explained by the database.** A 307 carries the target of the one row that
was ever committed under its code, and a 404 has behind it a database read of the last three seconds
that found no row. -/
theorem answers_explained (hencode : Set.InjOn encode (Set.Ioo 0 (2 ^ 63))) {now : Instant}
    {es : List WorldEvent} {s : World}
    (hrun : Run (World.step encode) (ReadThenInsert .database) (World.init now) es s) :
    ∀ a ∈ s.answers,
      (∀ originalUrl, a.response = .temporaryRedirect originalUrl →
        TheRow s.db a.shortCode originalUrl) ∧
      (a.response = .notFound → ∃ read ∈ s.reads, read.shortCode = a.shortCode ∧
        a.answeredAt - l1TimeToLive ≤ read.readAt ∧ read.urls ∈ s.db.history ∧
        getOriginalUrl read.urls a.shortCode = none) := by
  have h : ExplainedInv encode s :=
    hrun.induct (fun _ _ _ h hread hstep => h.step hread (World.step_cases hstep)) (explainedInv_init now)
  intro a ha
  obtain ⟨hredirect, hmissing⟩ := h.answers a ha
  refine ⟨fun originalUrl hresp => (hredirect originalUrl hresp).theRow hencode h.store, ?_⟩
  intro hresp
  obtain ⟨readAt, hle, read, hread, hcode, rfl, hurls, hnone⟩ := hmissing hresp
  exact ⟨read, hread, hcode, hle, hurls, hnone⟩

/-- A redirect on instance 0, then a 404 from the L1 of instance 1 two seconds after it was read. -/
theorem answers_explained_of_two_requests :
    ∃ s : World, (∃ a ∈ s.answers, a.shortCode = "1" ∧
        TheRow s.db a.shortCode "https://a.example") ∧
      ∃ a ∈ s.answers, a.shortCode = "zz" ∧ ∃ read ∈ s.reads, read.shortCode = a.shortCode ∧
        a.answeredAt - l1TimeToLive ≤ read.readAt ∧ read.urls ∈ s.db.history ∧
        getOriginalUrl read.urls a.shortCode = none := by
  obtain ⟨s, hrun, hs⟩ := exists_run_of_exec (World.step base62Encode) (ReadThenInsert .database)
    (World.init 0) (World.shortenEvents 0 1 "https://a.example" none ++ World.missEvents 0 "1" ++
      [.insert 0 "1"] ++ World.missEvents 1 "zz" ++ [.insert 1 "zz", .tick 2000000000, .request 1 "zz"])
    (fun s => (s.answers.any fun a => a.shortCode = "1" &&
        a.response = .temporaryRedirect "https://a.example") &&
      s.answers.any fun a => a.shortCode = "zz" && a.response = .notFound) (by decide)
  simp only [Bool.and_eq_true, List.any_eq_true, decide_eq_true_eq] at hs
  obtain ⟨⟨a, ha, hcode, hredirect⟩, b, hb, hcode', hmissing⟩ := hs
  exact ⟨s, ⟨a, ha, hcode, (answers_explained base62Encode_injOn hrun a ha).1 _ hredirect⟩,
    b, hb, hcode', (answers_explained base62Encode_injOn hrun b hb).2 hmissing⟩

end Bittuly.Urls
