import Bittuly.Urls.System

/-!
# Properties of everything the caches hold

Values flow from the database through flights, fills and Redis into the L1s and the answers. A
`CacheProp` is a property of each of these; `World.Sat` says that everything held at the moment has it.
`Rules` lists what has to be shown of a step: the four places where a value moves on, and that nothing
else is affected. `Sat.step` is the step lemma that follows, `step_answers` what a new answer is.
-/

namespace Bittuly.Urls

open Cache Runs

/-- A property of Redis entries, L1 entries, fills and results of flights. -/
structure CacheProp where
  redis : String → Entry Instant String → Prop
  l1 : String → Entry Instant CachedUrlResult → Prop
  fill : PendingFill → Prop
  flight : String → ℕ → CachedUrlResult → Source → Instant → Prop

namespace World

/-- Everything the caches, fills and flights hold has the property. -/
structure Sat (s : World) (p : CacheProp) : Prop where
  redis : TtlMap.All p.redis s.redis
  l1 : ∀ i, TtlMap.All p.l1 (s.l1 i)
  fills : ∀ f ∈ s.fills, p.fill f
  flights : ∀ i c f, s.flights i c = some f → ∀ value source readAt,
    f.pc = .insert value source readAt → p.flight c f.ticket value source readAt

/-- What has to be shown for a step from `s` to lead from one property to another. -/
structure Rules (s : World) (e : WorldEvent) (p q : CacheProp) : Prop where
  redis_mono : ∀ c en, p.redis c en → q.redis c en
  l1_mono : ∀ c en, p.l1 c en → q.l1 c en
  fill_mono : ∀ f, p.fill f → q.fill f
  flight_mono : ∀ c ticket value source readAt,
    p.flight c ticket value source readAt → q.flight c ticket value source readAt
  /-- A fill writes to Redis. -/
  fill : ∀ k f en, e = .fill k true → s.fills[k]? = some f → p.fill f →
    f.fill.entry s.now = some en → q.redis f.fill.shortCode en
  /-- A flight takes a live entry of Redis. -/
  redisGet : ∀ i c f en, e = .redisGet i c true → s.flights i c = some f → p.redis c en →
    en.Live s.now → q.flight c f.ticket (some (en.value, none)) .redis s.now
  /-- A flight takes what it read from a committed table. -/
  dbSelect : ∀ i c f replica urls, e = .dbSelect i c replica → s.flights i c = some f →
    s.readTable replica = some urls →
    q.flight c f.ticket (getOriginalUrl urls c) .database s.now
  /-- A row that was read is to be written to Redis. -/
  spawn : ∀ i c f replica urls originalUrl expiresAt, e = .dbSelect i c replica →
    s.flights i c = some f → s.readTable replica = some urls →
    getOriginalUrl urls c = some (originalUrl, expiresAt) →
    q.fill { ticket := s.ticket, fill := { shortCode := c, originalUrl, expiresAt } }
  /-- A result goes to L1. -/
  insert : ∀ i c f value source readAt, e = .insert i c → s.flights i c = some f →
    f.pc = .insert value source readAt → p.flight c f.ticket value source readAt →
    q.l1 c { value, deadline := some (s.now + l1TimeToLive) }

/-- Why a request for a code was answered. -/
inductive Cause (s : World) (p : CacheProp) (c : String) : WorldEvent → Response → Prop
  /-- From a live L1 entry. -/
  | hit {i : ℕ} {en : Entry Instant CachedUrlResult} (hp : p.l1 c en) (hlive : en.Live s.now) :
      Cause s p c (.request i c) (respond s.now en.value)
  /-- With the result of a flight. -/
  | ended {i : ℕ} {f : Flight} {value : CachedUrlResult} {source : Source} {readAt : Instant}
      (hf : s.flights i c = some f) (hpc : f.pc = .insert value source readAt)
      (hp : p.flight c f.ticket value source readAt) :
      Cause s p c (.insert i c) (respond s.now value)
  /-- Its flight met a database error. -/
  | failed {i : ℕ} : Cause s p c (.dbSelect i c .error) .serviceUnavailable

variable {s : World} {p q : CacheProp}

namespace Sat

/-- Everything that has a property has any weaker one. -/
theorem weaken (h : s.Sat p) {e : WorldEvent} (hr : s.Rules e p q) : s.Sat q where
  redis := h.redis.mono hr.redis_mono
  l1 := fun i => (h.l1 i).mono hr.l1_mono
  fills := fun f hf => hr.fill_mono f (h.fills f hf)
  flights := fun i c f hf value source readAt hpc =>
    hr.flight_mono c f.ticket value source readAt (h.flights i c f hf value source readAt hpc)

theorem setL1 (h : s.Sat p) (i : ℕ) {l1 : L1Cache} (hl1 : TtlMap.All p.l1 l1) :
    (s.setL1 i l1).Sat p := by
  refine ⟨h.redis, ?_, h.fills, h.flights⟩
  intro j
  by_cases hj : j = i
  · subst hj
    simpa [World.setL1] using hl1
  · simpa [World.setL1, Function.update_of_ne hj] using h.l1 j

theorem setFlight (h : s.Sat p) (i : ℕ) (c : String) {f : Option Flight}
    (hf : ∀ g, f = some g → ∀ value source readAt, g.pc = .insert value source readAt →
      p.flight c g.ticket value source readAt) : (s.setFlight i c f).Sat p := by
  refine ⟨h.redis, h.l1, h.fills, ?_⟩
  intro j d g hg value source readAt hpc
  rcases setFlight_flights hg with ⟨-, rfl, hnew⟩ | hold
  · exact hf g hnew value source readAt hpc
  · exact h.flights j d g hold value source readAt hpc

theorem clearFlight (h : s.Sat p) (i : ℕ) (c : String) : (s.setFlight i c none).Sat p := by
  refine h.setFlight i c ?_
  intro g hg
  cases hg

/-- A flight starts or advances. -/
theorem putFlight (h : s.Sat p) (i : ℕ) (c : String) {f : Flight}
    (hf : ∀ value source readAt, f.pc = .insert value source readAt →
      p.flight c f.ticket value source readAt) : (s.setFlight i c (some f)).Sat p := by
  refine h.setFlight i c ?_
  intro g hg
  obtain rfl := Option.some.inj hg
  exact hf

theorem answer (h : s.Sat p) (callers : ℕ) (c : String) (response : Response) :
    (s.answer callers c response).Sat p :=
  ⟨h.redis, h.l1, h.fills, h.flights⟩

theorem answerWith (h : s.Sat p) (i callers : ℕ) (c : String) (value : CachedUrlResult) :
    (s.answerWith i callers c value).Sat p :=
  (h.setL1 i (L1Cache.afterResponse_all (h.l1 i) c _)).answer callers c _

/-- More reads, fills or tickets. -/
theorem log (h : s.Sat p) {t : World} (hredis : t.redis = s.redis) (hl1 : t.l1 = s.l1)
    (hfills : ∀ f ∈ t.fills, p.fill f) (hflights : t.flights = s.flights) : t.Sat p := by
  refine ⟨?_, ?_, hfills, ?_⟩
  · rw [hredis]
    exact h.redis
  · rw [hl1]
    exact h.l1
  · rw [hflights]
    exact h.flights

/-- A flight that now has a result. -/
theorem result (h : s.Sat p) (i : ℕ) (c : String) {f : Flight} {value : CachedUrlResult}
    {source : Source} {readAt : Instant} (hp : p.flight c f.ticket value source readAt) :
    (s.setFlight i c (some { f with pc := .insert value source readAt })).Sat p := by
  refine h.putFlight i c ?_
  intro value' source' readAt' hpc
  obtain ⟨rfl, rfl, rfl⟩ := FlightPc.insert.inj hpc
  exact hp

end Sat

variable {encode : ℤ → String}

/-- **The step lemma.** A step that meets the rules leads from one property to the other. -/
theorem Sat.step (h : s.Sat p) {e : WorldEvent} (hr : s.Rules e p q) {s' : World}
    (hstep : s.Step encode e s') : s'.Sat q := by
  have h' : s.Sat q := h.weaken hr
  cases hstep with
  | tick nanos => exact h'.log rfl rfl h'.fills rfl
  | db hdb => exact h'.log rfl rfl h'.fills rfl
  | del ok hd =>
    refine ⟨?_, h'.l1, h'.fills, h'.flights⟩
    cases ok with
    | false => exact h'.redis
    | true => exact h'.redis.remove _
  | dropDel k => exact h'.log rfl rfl h'.fills rfl
  | hit hen hlive => exact h'.answerWith _ 1 _ _
  | @join i c f hf =>
    refine h'.putFlight i c ?_
    exact h'.flights i c f hf
  | start i c =>
    have hticket : ({ s with ticket := s.ticket + 1 } : World).Sat q := h'.log rfl rfl h'.fills rfl
    refine hticket.putFlight i c ?_
    intro value source readAt hpc
    cases hpc
  | @redisGet i c ok f hf =>
    refine h'.putFlight i c ?_
    intro value source readAt hpc
    simp only [World.afterRedisGet] at hpc
    split at hpc
    · rename_i originalUrl hget
      obtain ⟨rfl, rfl, rfl⟩ := FlightPc.insert.inj hpc
      cases ok with
      | false => simp at hget
      | true =>
        obtain ⟨en, hen, rfl, hlive⟩ := TtlMap.get_eq_some hget
        exact hr.redisGet i c f en rfl hf (h.redis c en hen) hlive
    · cases hpc
  | @dbError i c f hf => exact (h'.answer _ _ _).clearFlight i c
  | @dbMissing i c f replica urls hf htable hrow =>
    have hvalue := hr.dbSelect i c f replica urls rfl hf htable
    rw [hrow] at hvalue
    apply Sat.result ?_ i c hvalue
    exact h'.log rfl rfl h'.fills rfl
  | @dbRow i c f replica urls originalUrl expiresAt hf htable hrow =>
    have hvalue := hr.dbSelect i c f replica urls rfl hf htable
    rw [hrow] at hvalue
    apply Sat.result ?_ i c hvalue
    refine h'.log rfl rfl ?_ rfl
    intro g hg
    rcases List.mem_append.mp hg with hold | hnew
    · exact h'.fills g hold
    · rw [List.mem_singleton.mp hnew]
      exact hr.spawn i c f replica urls originalUrl expiresAt rfl hf htable hrow
  | @insert i c f value source readAt hf hpc =>
    have hentry := hr.insert i c f value source readAt rfl hf hpc
      (h.flights i c f hf value source readAt hpc)
    have hl1 := h'.setL1 i (L1Cache.insert_all (h'.l1 i) hentry)
    exact (hl1.answerWith i f.callers c value).clearFlight i c
  | abandon i c => exact h'.clearFlight i c
  | @fill k ok f hf =>
    refine ⟨?_, h'.l1, fun g hg => h'.fills g (List.mem_of_mem_eraseIdx hg), h'.flights⟩
    cases ok with
    | false => exact h'.redis
    | true =>
      apply Fill.run_all h'.redis
      intro en hen
      exact hr.fill k f en rfl hf (h.fills f (List.mem_of_getElem? hf)) hen
  | evictL1 i c => exact h'.setL1 i ((h'.l1 i).remove c)
  | evictRedis c => exact ⟨h'.redis.remove c, h'.l1, h'.fills, h'.flights⟩

/-! ## What a step does to the rest -/

variable {s' : World} {e : WorldEvent}

/-- The clock does not go back. -/
theorem Step.now_le (hstep : s.Step encode e s') : s.now ≤ s'.now := by
  cases hstep with
  | tick nanos => exact le_add_of_nonneg_right (Int.natCast_nonneg nanos)
  | _ => exact le_refl _

/-- An instance without flights has none until it gets a request. -/
theorem Step.idle (hstep : s.Step encode e s') {i : ℕ} (hidle : ∀ c, s.flights i c = none)
    (hrequest : ∀ c, e ≠ .request i c) : ∀ c, s'.flights i c = none := by
  -- a flight that a step sets belongs to an instance that had one, or gets a request
  have hset : ∀ (t : World) (j : ℕ) (d : String) (f : Option Flight), t.flights = s.flights →
      (j = i → f = none) → ∀ c, (t.setFlight j d f).flights i c = none := by
    intro t j d f ht hf c
    cases hg : (t.setFlight j d f).flights i c with
    | none => rfl
    | some g =>
      rcases setFlight_flights hg with ⟨hij, -, hnew⟩ | hold
      · rw [hf hij.symm] at hnew
        cases hnew
      · rw [ht, hidle c] at hold
        cases hold
  have hbusy : ∀ {j : ℕ} {d : String} {f g : Flight}, s.flights j d = some f → j = i →
      (some g : Option Flight) = none := by
    rintro j d f g hf rfl
    rw [hidle d] at hf
    cases hf
  cases hstep with
  | join hf => exact hset s _ _ _ rfl (hbusy hf)
  | start j d => exact hset _ j d _ rfl fun hj => absurd rfl (hj ▸ hrequest d)
  | redisGet ok hf => exact hset s _ _ _ rfl (hbusy hf)
  | @dbError j d f hf =>
    exact hset (s.answer f.callers d .serviceUnavailable) j d none rfl fun _ => rfl
  | dbMissing hf _ _ => exact hset _ _ _ _ rfl (hbusy hf)
  | dbRow hf _ _ => exact hset _ _ _ _ rfl (hbusy hf)
  | @insert j d f value source readAt hf hpc =>
    exact hset ((s.setL1 j ((s.l1 j).insert s.now d value)).answerWith j f.callers d value) j d none
      rfl fun _ => rfl
  | abandon j d => exact hset s j d none rfl fun _ => rfl
  | _ => exact hidle

/-- Reads are logged for good. -/
theorem Step.reads_prefix (hstep : s.Step encode e s') : s.reads <+: s'.reads := by
  cases hstep with
  | dbMissing _ _ _ => exact List.prefix_append _ _
  | dbRow _ _ _ => exact List.prefix_append _ _
  | _ => exact List.prefix_refl _

/-- A database read is logged. -/
theorem Step.read_logged {i : ℕ} {c : String} {replica : Replica} {urls : List UrlRow}
    (hstep : s.Step encode (.dbSelect i c replica) s') (htable : s.readTable replica = some urls) :
    { shortCode := c, readAt := s.now, urls } ∈ s'.reads := by
  cases hstep with
  | dbError _ => cases htable
  | dbMissing _ htable' _ =>
    rw [htable] at htable'
    obtain rfl := Option.some.inj htable'
    exact List.mem_append_right _ (List.mem_singleton_self _)
  | dbRow _ htable' _ =>
    rw [htable] at htable'
    obtain rfl := Option.some.inj htable'
    exact List.mem_append_right _ (List.mem_singleton_self _)

/-- The database changes by its own statements only. -/
theorem Step.db_cases (hstep : s.Step encode e s') :
    s'.db = s.db ∨ s.db.Statement encode s'.db := by
  cases hstep with
  | db hdb => exact Or.inr (Db.statement_of_step hdb)
  | _ => exact Or.inl rfl

/-- The store invariant along a step, and what the step does to the history. -/
theorem Step.store (hstep : s.Step encode e s') (hstore : StoreInv encode s.db) :
    StoreInv encode s'.db ∧ Grows s.db s'.db := by
  rcases hstep.db_cases with hdb | hstmt
  · rw [hdb]
    exact ⟨hstore, Grows.refl _⟩
  · exact ⟨hstore.statement hstmt, Grows.of_statement hstmt⟩

/-- **What a new answer is.** It is given now, and has one of the three causes. -/
theorem Sat.step_answers (h : s.Sat p) (hstep : s.Step encode e s') :
    ∃ new, s'.answers = s.answers ++ new ∧ ∀ a ∈ new, a.answeredAt = s.now ∧
      a.committed = s.db.history.length ∧ s.Cause p a.shortCode e a.response := by
  cases hstep with
  | @hit i c en hen hlive =>
    refine ⟨_, rfl, ?_⟩
    intro a ha
    obtain rfl := List.eq_of_mem_replicate ha
    exact ⟨rfl, rfl, .hit (h.l1 i c en hen) hlive⟩
  | dbError hf =>
    refine ⟨_, rfl, ?_⟩
    intro a ha
    obtain rfl := List.eq_of_mem_replicate ha
    exact ⟨rfl, rfl, .failed⟩
  | @insert i c f value source readAt hf hpc =>
    refine ⟨_, rfl, ?_⟩
    intro a ha
    obtain rfl := List.eq_of_mem_replicate ha
    exact ⟨rfl, rfl, .ended hf hpc (h.flights i c f hf value source readAt hpc)⟩
  | _ => exact ⟨[], (List.append_nil _).symm, fun a ha => absurd ha List.not_mem_nil⟩

/-! ## Runs -/

/-- What a redirect reads is a committed table. -/
theorem readTable_mem (hstore : StoreInv encode s.db) {replica : Replica}
    {urls : List UrlRow} (h : s.readTable replica = some urls) : urls ∈ s.db.history := by
  cases replica with
  | error => cases h
  | primary =>
    obtain rfl := Option.some.inj h
    exact hstore.current
  | lagging k => exact List.mem_of_getElem? h

theorem sat_init (now : Instant) (p : CacheProp) : (init now).Sat p := by
  refine ⟨TtlMap.All.empty, fun i => TtlMap.All.empty, ?_, ?_⟩
  · intro f hf
    cases hf
  · intro i c f hf
    cases hf

end World

/-- Results of a source go to L1 at the time they are read. -/
def ReadThenInsert (source : Source) (s : World) : WorldEvent → Prop
  | .insert i shortCode =>
    match s.flights i shortCode with
    | some ⟨_, _, .insert _ src readAt⟩ => src = source → readAt = s.now
    | _ => True
  | _ => True

instance (source : Source) (s : World) : DecidablePred (ReadThenInsert source s) := by
  intro e
  unfold ReadThenInsert
  split
  · split <;> infer_instance
  · infer_instance

theorem ReadThenInsert.eq_now {source src : Source} {s : World} {i : ℕ} {c : String} {f : Flight}
    {value : CachedUrlResult} {readAt : Instant} (h : ReadThenInsert source s (.insert i c))
    (hf : s.flights i c = some f) (hpc : f.pc = .insert value src readAt) (hsrc : src = source) :
    readAt = s.now := by
  obtain ⟨ticket, callers, pc⟩ := f
  obtain rfl : pc = .insert value src readAt := hpc
  simp only [ReadThenInsert, hf] at h
  exact h hsrc

end Bittuly.Urls
