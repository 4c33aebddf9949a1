import Bittuly.Urls.CacheInvariant

/-!
# Deleted links

`delete_url_handler` deletes the row, removes the Redis key and answers 204. The code is never used again
(`Gone`), so from the `DELETE` on the database answers "unknown". What can bring the target back is a
cache fill that was spawned before the `DELETE` and writes to Redis after the `DEL`, a `LateFill`.

Without one the link is dead for good: once the requests and fills from before the 204 have finished,
only L1 entries are left of it, and these are gone three seconds later. The proof follows a run through
these three phases, with one property of the caches (`since`, `quiet`) for each.
-/

namespace Bittuly.Urls

open Cache Runs

/-! ## Codes that are gone -/

/-- A committed row had the code, and it belongs to a drawn id that no row, committed or pending, carries
any more. -/
def Gone (encode : ℤ → String) (db : Db) (c : String) : Prop :=
  (∃ urls ∈ db.history, ∃ r ∈ urls, r.shortCode = some c) ∧
    ∃ urlId ∈ db.issued.map Issue.urlId, encode urlId = c ∧
      urlId ∉ (db.urls ++ db.pending).map UrlRow.urlId

variable {encode : ℤ → String}

/-- A code that is gone stays gone. -/
theorem Gone.mono {db db' : Db} {c : String} (h : Gone encode db c) (hgrows : Grows db db') :
    Gone encode db' c := by
  obtain ⟨⟨urls, hurls, hhad⟩, urlId, hissued, hcode, habsent⟩ := h
  refine ⟨⟨urls, hgrows.history.subset hurls, hhad⟩, urlId,
    List.map_subset _ hgrows.issued hissued, hcode, ?_⟩
  intro hmem
  obtain ⟨r, hr, rfl⟩ := List.mem_map.mp hmem
  rcases hgrows.ids r hr with hold | hfresh
  · exact habsent hold
  · exact hfresh hissued

/-- The table has no row for a code that is gone. -/
theorem Gone.getOriginalUrl (hencode : Set.InjOn encode (Set.Ioo 0 (2 ^ 63))) {db : Db}
    (hstore : StoreInv encode db) {c : String} (h : Gone encode db c) :
    getOriginalUrl db.urls c = none := by
  obtain ⟨-, urlId, hissued, rfl, habsent⟩ := h
  cases hrow : Urls.getOriginalUrl db.urls (encode urlId) with
  | none => rfl
  | some row =>
    obtain ⟨r, hr, hcode, -, -⟩ := getOriginalUrl_eq_some hrow
    have hcoded := hstore.table.coded r hr
    rw [hcode] at hcoded
    have hrange := hstore.issued_range _ (hstore.table.known r hr)
    obtain ⟨e, he, rfl⟩ := List.mem_map.mp hissued
    have hid : e.urlId = r.urlId :=
      hencode (hstore.issued_range e he) hrange (Option.some.inj hcoded)
    exact absurd (hid ▸ List.mem_map_of_mem (List.mem_append_left _ hr)) habsent

/-- Postgres does not refuse it: a row had it. -/
theorem Gone.not_refused {s : World} {c : String} (h : Gone encode s.db c) : ¬ Refused s c := by
  obtain ⟨⟨urls, hurls, r, hr, hcode⟩, -⟩ := h
  rintro ⟨-, hnever⟩
  exact hnever urls hurls r hr hcode

/-- After the `DELETE` of `delete_url` the code it returned is gone. -/
theorem gone_of_deleteUrl {db db' : Db} (hstore : StoreInv encode db) {e : DbEvent}
    (hstep : db.step encode e = some db') {d : PendingDel} (hd : d ∈ World.delsAfter db e)
    (hhandler : d.ofHandler = true) : Gone encode db' d.shortCode := by
  unfold World.delsAfter at hd
  split at hd
  · rename_i urlId userId
    split at hd
    · rename_i c hc
      rw [List.mem_singleton.mp hd]
      obtain ⟨r, hhead, hcode⟩ := Option.bind_eq_some_iff.mp hc
      obtain ⟨hr, howned⟩ := List.mem_filter.mp (List.mem_of_mem_head? hhead)
      have hcoded := hstore.table.coded r hr
      rw [hcode] at hcoded
      obtain rfl := Option.some.inj hstep
      refine ⟨⟨db.urls, List.mem_append_left _ hstore.current, r, hr, hcode⟩, r.urlId,
        hstore.id_mem (List.mem_append_left _ hr), (Option.some.inj hcoded).symm, ?_⟩
      intro hmem
      obtain ⟨r', hr', hid⟩ := List.mem_map.mp hmem
      have hsub : r' ∈ db.urls ++ db.pending := by
        rcases List.mem_append.mp hr' with hurl | hpend
        · exact List.mem_append_left _ (List.mem_of_mem_filter hurl)
        · exact List.mem_append_right _ hpend
      have hrow : r' = r :=
        List.inj_on_of_nodup_map hstore.ids hsub (List.mem_append_left _ hr) hid
      rcases List.mem_append.mp hr' with hurl | hpend
      · -- the `DELETE` removed the row
        have hkept := (List.mem_filter.mp hurl).2
        rw [hrow, howned] at hkept
        cases hkept
      · -- a committed row is not pending
        have hnodup := hstore.ids
        rw [List.map_append, List.nodup_append'] at hnodup
        exact hnodup.2.2 (List.mem_map_of_mem hr) (hrow ▸ List.mem_map_of_mem hpend)
    · cases hd
  · split at hd
    · obtain ⟨c, -, rfl⟩ := List.mem_map.mp hd
      cases hhandler
    · cases hd
  · cases hd

/-! ## Conditions on runs -/

/-- A fill writes a code to Redis after the code's `delete_url_handler` has answered. -/
def LateFill (c : String) (s : World) : WorldEvent → Prop
  | .fill k true => c ∈ s.deleted ∧
      ∃ f ∈ s.fills[k]?, f.fill.shortCode = c ∧ (f.fill.entry s.now).isSome
  | _ => False

instance (c : String) (s : World) : DecidablePred (LateFill c s) := by
  intro e
  unfold LateFill
  split <;> infer_instance

/-- The condition under which a deleted link stays dead. -/
def Settled (c : String) (s : World) (e : WorldEvent) : Prop :=
  AllUp s e ∧ ¬ LateFill c s e

instance (c : String) (s : World) : DecidablePred (Settled c s) := fun _ =>
  inferInstanceAs (Decidable (_ ∧ _))

/-- In such a run a fill for a deleted code writes nothing. -/
theorem Settled.shortCode_ne {c : String} {s : World} {k : ℕ} {f : PendingFill}
    {en : Entry Instant String} (h : Settled c s (.fill k true)) (hc : c ∈ s.deleted)
    (hf : s.fills[k]? = some f) (hen : f.fill.entry s.now = some en) : f.fill.shortCode ≠ c := by
  intro hcode
  refine h.2 ⟨hc, f, hf, hcode, ?_⟩
  rw [hen]
  rfl

/-- The flights for a code and its fills that began before a ticket was given have finished. -/
def Finished (c : String) (ticket : ℕ) (s : World) : Prop :=
  (∀ i f, s.flights i c = some f → ticket ≤ f.ticket) ∧
    ∀ f ∈ s.fills, f.fill.shortCode = c → ticket ≤ f.ticket

/-! ## What steps do to Redis, deletions and tickets -/

variable {s s' : World} {e : WorldEvent}

/-- A Redis key changes by removal or by a fill. -/
theorem World.Step.redis_cases (hstep : s.Step encode e s') (c : String) :
    s'.redis c = s.redis c ∨ s'.redis c = none ∨
      ∃ k f en, e = .fill k true ∧ s.fills[k]? = some f ∧ f.fill.shortCode = c ∧
        f.fill.entry s.now = some en := by
  have hremove : ∀ d : String, TtlMap.remove s.redis d c = s.redis c ∨
      TtlMap.remove s.redis d c = none := by
    intro d
    by_cases hc : c = d
    · subst hc
      exact Or.inr (TtlMap.remove_self _ _)
    · exact Or.inl (TtlMap.remove_of_ne _ hc)
  cases hstep with
  | @del k ok d hd =>
    cases ok with
    | false => exact Or.inl rfl
    | true =>
      rcases hremove d.shortCode with hsame | hnone
      · exact Or.inl hsame
      · exact Or.inr (Or.inl hnone)
  | @fill k ok f hf =>
    cases ok with
    | false => exact Or.inl rfl
    | true =>
      by_cases hc : f.fill.shortCode = c
      · cases hen : f.fill.entry s.now with
        | none =>
          left
          exact congrFun (Fill.run_of_none hen s.redis) c
        | some en => exact Or.inr (Or.inr ⟨k, f, en, rfl, hf, hc, hen⟩)
      · exact Or.inl (Fill.run_of_ne (Ne.symm hc) s.redis s.now)
  | evictRedis d =>
    rcases hremove d with hsame | hnone
    · exact Or.inl hsame
    · exact Or.inr (Or.inl hnone)
  | _ => exact Or.inl rfl

/-- A handler answers 204 after its `DEL`. -/
theorem World.Step.deleted_cases (hstep : s.Step encode e s') (hup : AllUp s e) {c : String}
    (hc : c ∈ s'.deleted) :
    c ∈ s.deleted ∨ s'.redis c = none ∧ ∃ d ∈ s.dels, d.ofHandler = true ∧ d.shortCode = c := by
  cases hstep with
  | @del k ok d hd =>
    obtain rfl : ok = true := hup
    cases hhandler : d.ofHandler with
    | false =>
      left
      simpa [hhandler] using hc
    | true =>
      simp only [hhandler, if_true, List.mem_append, List.mem_singleton] at hc
      rcases hc with hold | rfl
      · exact Or.inl hold
      · exact Or.inr ⟨TtlMap.remove_self _ _, d, List.mem_of_getElem? hd, hhandler, rfl⟩
  | _ => exact Or.inl hc

/-- `deleted` only grows. -/
theorem World.Step.deleted_subset (hstep : s.Step encode e s') : s.deleted ⊆ s'.deleted := by
  cases hstep with
  | @del k ok d hd =>
    show s.deleted ⊆ if d.ofHandler then _ else _
    split
    · exact List.subset_append_left _ _
    · exact List.Subset.refl _
  | _ => exact List.Subset.refl _

/-- An outstanding `DEL` follows a statement. -/
theorem World.Step.dels_cases (hstep : s.Step encode e s') {d : PendingDel} (hd : d ∈ s'.dels) :
    d ∈ s.dels ∨ ∃ de, s.db.step encode de = some s'.db ∧ d ∈ World.delsAfter s.db de := by
  cases hstep with
  | @db de db hdb =>
    rcases List.mem_append.mp hd with hold | hnew
    · exact Or.inl hold
    · exact Or.inr ⟨de, hdb, hnew⟩
  | del ok _ => exact Or.inl (List.mem_of_mem_eraseIdx hd)
  | dropDel k => exact Or.inl (List.mem_of_mem_eraseIdx hd)
  | _ => exact Or.inl hd

/-- Flights and fills carry tickets that have been given. -/
structure Ticketed (s : World) : Prop where
  flights : ∀ i c f, s.flights i c = some f → f.ticket < s.ticket
  fills : ∀ f ∈ s.fills, f.ticket < s.ticket

namespace Ticketed

/-- A flight replaced by one with a given ticket, or ended. -/
theorem setFlight (h : Ticketed s) (i : ℕ) (c : String) {f : Option Flight}
    (hf : ∀ g, f = some g → g.ticket < s.ticket) : Ticketed (s.setFlight i c f) := by
  refine ⟨?_, h.fills⟩
  intro j d g hg
  rcases World.setFlight_flights hg with ⟨-, -, hnew⟩ | hold
  · exact hf g hnew
  · exact h.flights j d g hold

theorem clearFlight (h : Ticketed s) (i : ℕ) (c : String) : Ticketed (s.setFlight i c none) := by
  refine h.setFlight i c ?_
  intro g hg
  cases hg

/-- A flight that advances. -/
theorem advance (h : Ticketed s) {i : ℕ} {c : String} {f g : Flight}
    (hf : s.flights i c = some f) (hticket : g.ticket = f.ticket) :
    Ticketed (s.setFlight i c (some g)) := by
  refine h.setFlight i c ?_
  intro g' hg'
  rw [← Option.some.inj hg', hticket]
  exact h.flights i c f hf

theorem step (h : Ticketed s) (hstep : s.Step encode e s') : Ticketed s' := by
  cases hstep with
  | join hf => exact h.advance hf rfl
  | start i c =>
    have hnext : Ticketed { s with ticket := s.ticket + 1 } :=
      ⟨fun i c f hf => Nat.lt_succ_of_lt (h.flights i c f hf),
        fun f hf => Nat.lt_succ_of_lt (h.fills f hf)⟩
    refine hnext.setFlight i c ?_
    intro g hg
    rw [← Option.some.inj hg]
    exact Nat.lt_succ_self _
  | redisGet ok hf => exact h.advance hf rfl
  | @dbError i c f hf =>
    have hanswered : Ticketed (s.answer f.callers c .serviceUnavailable) := ⟨h.flights, h.fills⟩
    exact hanswered.clearFlight i c
  | @dbMissing i c f replica urls hf htable hrow =>
    have hread : Ticketed { s with
        reads := s.reads ++ [{ shortCode := c, readAt := s.now, urls }] } := ⟨h.flights, h.fills⟩
    exact hread.advance hf rfl
  | @dbRow i c f replica urls originalUrl expiresAt hf htable hrow =>
    have hspawned : Ticketed { s with
        reads := s.reads ++ [{ shortCode := c, readAt := s.now, urls }]
        fills := s.fills ++
          [{ ticket := s.ticket, fill := { shortCode := c, originalUrl, expiresAt } }]
        ticket := s.ticket + 1 } := by
      refine ⟨fun i c f hf => Nat.lt_succ_of_lt (h.flights i c f hf), ?_⟩
      intro g hg
      rcases List.mem_append.mp hg with hold | hnew
      · exact Nat.lt_succ_of_lt (h.fills g hold)
      · rw [List.mem_singleton.mp hnew]
        exact Nat.lt_succ_self _
    exact hspawned.advance hf rfl
  | @insert i c f value source readAt hf hpc =>
    have hanswered : Ticketed ((s.setL1 i ((s.l1 i).insert s.now c value)).answerWith i f.callers c
        value) := ⟨h.flights, h.fills⟩
    exact hanswered.clearFlight i c
  | abandon i c => exact h.clearFlight i c
  | fill ok hf => exact ⟨h.flights, fun g hg => h.fills g (List.mem_of_mem_eraseIdx hg)⟩
  | _ => exact ⟨h.flights, h.fills⟩

end Ticketed

/-! ## Up to the answer 204 -/

/-- L1 entries have at most three seconds left. -/
def young (s : World) : CacheProp where
  redis _ _ := True
  l1 _ en := ∃ d, en.deadline = some d ∧ d ≤ s.now + l1TimeToLive
  fill _ := True
  flight _ _ _ _ _ := True

/-- The invariant of a run from the start. -/
structure DeadInv (encode : ℤ → String) (c : String) (s : World) : Prop where
  store : StoreInv encode s.db
  ticketed : Ticketed s
  young : s.Sat (young s)
  dels : ∀ d ∈ s.dels, d.ofHandler = true → Gone encode s.db d.shortCode
  deleted : c ∈ s.deleted → Gone encode s.db c ∧ s.redis c = none

variable {c : String}

theorem young_rules (hstep : s.Step encode e s') : s.Rules e (young s) (young s') := by
  have hnow := hstep.now_le
  refine ⟨fun _ _ _ => trivial, ?_, fun _ _ => trivial, fun _ _ _ _ _ _ => trivial,
    fun _ _ _ _ _ _ _ => trivial, fun _ _ _ _ _ _ _ _ => trivial,
    fun _ _ _ _ _ _ _ _ => trivial, fun _ _ _ _ _ _ _ _ _ _ _ => trivial, ?_⟩
  · rintro code en ⟨d, hd, hle⟩
    exact ⟨d, hd, by linarith⟩
  · intro i code f value source readAt _ _ _ _
    exact ⟨s.now + l1TimeToLive, rfl, by linarith⟩

namespace DeadInv

theorem step (h : DeadInv encode c s) (hsettled : Settled c s e) (hstep : s.Step encode e s') :
    DeadInv encode c s' := by
  obtain ⟨hstore, hgrows⟩ := hstep.store h.store
  have hdels : ∀ d ∈ s'.dels, d.ofHandler = true → Gone encode s'.db d.shortCode := by
    intro d hd hhandler
    rcases hstep.dels_cases hd with hold | ⟨de, hde, hafter⟩
    · exact (h.dels d hold hhandler).mono hgrows
    · exact gone_of_deleteUrl h.store hde hafter hhandler
  refine ⟨hstore, h.ticketed.step hstep, h.young.step (young_rules hstep) hstep, hdels, ?_⟩
  intro hc
  rcases hstep.deleted_cases hsettled.1 hc with hold | ⟨hnone, d, hd, hhandler, rfl⟩
  · obtain ⟨hgone, hredis⟩ := h.deleted hold
    refine ⟨hgone.mono hgrows, ?_⟩
    rcases hstep.redis_cases c with hsame | hnone | ⟨k, f, en, rfl, hf, hcode, hen⟩
    · rw [hsame]
      exact hredis
    · exact hnone
    · -- only a late fill could write the key again
      exact absurd hcode (hsettled.shortCode_ne hold hf hen)
  · exact ⟨(h.dels d hd hhandler).mono hgrows, hnone⟩

/-- What a flight reads of a deleted code. -/
theorem lookup_none (h : DeadInv encode c s) (hencode : Set.InjOn encode (Set.Ioo 0 (2 ^ 63)))
    (hc : c ∈ s.deleted) {i : ℕ} {code : String} {replica : Replica} {urls : List UrlRow}
    (hup : AllUp s (.dbSelect i code replica)) (htable : s.readTable replica = some urls) :
    getOriginalUrl urls c = none := by
  obtain rfl := AllUp.readTable_eq hup htable
  exact (h.deleted hc).1.getOriginalUrl hencode h.store

end DeadInv

theorem deadInv_init (now : Instant) : DeadInv encode c (World.init now) := by
  refine ⟨storeInv_init, ⟨?_, ?_⟩, World.sat_init now _, ?_, ?_⟩
  · intro i d f hf
    cases hf
  · intro f hf
    cases hf
  · intro d hd
    cases hd
  · intro hc
    cases hc

/-! ## After the answer 204 -/

/-- After the answer: Redis has no entry, and what began since found none. -/
def since (c : String) (ticket : ℕ) : CacheProp where
  redis code _ := code ≠ c
  l1 _ _ := True
  fill f := f.fill.shortCode = c → f.ticket < ticket
  flight code began value _ _ := code = c → ticket ≤ began → value = none

/-- After the requests and fills from before the answer: only L1 entries are left of the link. -/
def quiet (c : String) (last : Instant) : CacheProp where
  redis code _ := code ≠ c
  l1 code en := code = c → en.value = none ∨ ∃ d, en.deadline = some d ∧ d ≤ last
  fill f := f.fill.shortCode ≠ c
  flight code _ value _ _ := code = c → value = none

/-- Both phases follow the same rules, as Redis and the database have nothing for the code. -/
theorem since_rules (hencode : Set.InjOn encode (Set.Ioo 0 (2 ^ 63))) (h : DeadInv encode c s)
    (hc : c ∈ s.deleted) (hsettled : Settled c s e) (ticket : ℕ) :
    s.Rules e (since c ticket) (since c ticket) := by
  refine ⟨fun _ _ hp => hp, fun _ _ hp => hp, fun _ hp => hp, fun _ _ _ _ _ hp => hp,
    ?_, ?_, ?_, ?_, fun _ _ _ _ _ _ _ _ _ _ => trivial⟩
  · rintro k f en rfl hf - hen
    exact hsettled.shortCode_ne hc hf hen
  · intro i code f en _ _ hen _ hcode _
    exact absurd hcode hen
  · rintro i code f replica urls rfl _ htable rfl -
    exact h.lookup_none hencode hc hsettled.1 htable
  · rintro i code f replica urls originalUrl expiresAt rfl _ htable hrow rfl
    rw [h.lookup_none hencode hc hsettled.1 htable] at hrow
    cases hrow

theorem quiet_rules (hencode : Set.InjOn encode (Set.Ioo 0 (2 ^ 63))) (h : DeadInv encode c s)
    (hc : c ∈ s.deleted) (hsettled : Settled c s e) (last : Instant) :
    s.Rules e (quiet c last) (quiet c last) := by
  refine ⟨fun _ _ hp => hp, fun _ _ hp => hp, fun _ hp => hp, fun _ _ _ _ _ hp => hp,
    ?_, ?_, ?_, ?_, ?_⟩
  · rintro k f en rfl hf - hen
    exact hsettled.shortCode_ne hc hf hen
  · intro i code f en _ _ hen _ hcode
    exact absurd hcode hen
  · rintro i code f replica urls rfl _ htable rfl
    exact h.lookup_none hencode hc hsettled.1 htable
  · rintro i code f replica urls originalUrl expiresAt rfl _ htable hrow rfl
    rw [h.lookup_none hencode hc hsettled.1 htable] at hrow
    cases hrow
  · intro i code f value source readAt _ _ _ hp hcode
    exact Or.inl (hp hcode)

/-- A phase of a run: the code is deleted, and the caches have the property. -/
structure Phase (encode : ℤ → String) (c : String) (p : CacheProp) (s : World) : Prop where
  inv : DeadInv encode c s
  deleted : c ∈ s.deleted
  caches : s.Sat p

theorem Phase.step {p : CacheProp} (h : Phase encode c p s) (hsettled : Settled c s e)
    (hr : s.Rules e p p) (hstep : s.Step encode e s') : Phase encode c p s' :=
  ⟨h.inv.step hsettled hstep, hstep.deleted_subset h.deleted, h.caches.step hr hstep⟩

/-- The first phase begins with the answer. -/
theorem Phase.of_deleted (h : DeadInv encode c s) (hc : c ∈ s.deleted) :
    Phase encode c (since c s.ticket) s := by
  refine ⟨h, hc, ?_, fun i code en _ => trivial, fun f hf _ => h.ticketed.fills f hf, ?_⟩
  · rintro code en hen rfl
    rw [(h.deleted hc).2] at hen
    cases hen
  · intro i code f hf value source readAt _ _ hle
    exact absurd (h.ticketed.flights i code f hf) (not_lt.mpr hle)

/-- The second phase begins when the requests and fills from before have finished. -/
theorem Phase.of_finished {ticket : ℕ} (h : Phase encode c (since c ticket) s)
    (hfinished : Finished c ticket s) : Phase encode c (quiet c (s.now + l1TimeToLive)) s := by
  obtain ⟨hflights, hfills⟩ := hfinished
  refine ⟨h.inv, h.deleted, h.caches.redis, ?_, ?_, ?_⟩
  · intro i code en hen _
    exact Or.inr (h.inv.young.l1 i code en hen)
  · intro f hf hcode
    exact absurd (h.caches.fills f hf hcode) (not_lt.mpr (hfills f hf hcode))
  · rintro i code f hf value source readAt hpc rfl
    exact h.caches.flights i code f hf value source readAt hpc rfl (hflights i f hf)

/-- Once the L1 entries are too old, an answer for the code is 404. -/
theorem quiet_answer {last : Instant} (hlong : last < s.now) (hgone : Gone encode s.db c)
    (hup : AllUp s e) {response : Response} (hcause : s.Cause (quiet c last) c e response) :
    response = .notFound := by
  cases hcause with
  | hit hp hlive =>
    rcases hp rfl with hnone | ⟨d, hd, hle⟩
    · rw [hnone]
      rfl
    · exact absurd (hlive d hd) (not_lt.mpr (hle.trans hlong.le))
  | ended _ _ hp =>
    rw [hp rfl]
    rfl
  | failed =>
    obtain h | ⟨-, hrefused⟩ := hup
    · cases h
    · exact absurd hrefused hgone.not_refused

/-- The second phase after its L1 entries: every answer since `start` for the code is 404. -/
structure Silent (encode : ℤ → String) (c : String) (last : Instant) (start : List LoggedAnswer)
    (s : World) : Prop where
  phase : Phase encode c (quiet c last) s
  long : last < s.now
  answers : ∃ new, s.answers = start ++ new ∧ ∀ a ∈ new, a.shortCode = c → a.response = .notFound

theorem Silent.step (hencode : Set.InjOn encode (Set.Ioo 0 (2 ^ 63))) {last : Instant}
    {start : List LoggedAnswer} (h : Silent encode c last start s) (hsettled : Settled c s e)
    (hstep : s.Step encode e s') : Silent encode c last start s' := by
  have hrules := quiet_rules hencode h.phase.inv h.phase.deleted hsettled last
  refine ⟨h.phase.step hsettled hrules hstep, h.long.trans_le hstep.now_le, ?_⟩
  obtain ⟨old, hold, hold404⟩ := h.answers
  obtain ⟨new, hnew, hcauses⟩ := h.phase.caches.step_answers hstep
  refine ⟨old ++ new, by rw [hnew, hold, List.append_assoc], ?_⟩
  intro a ha hcode
  rcases List.mem_append.mp ha with hmem | hmem
  · exact hold404 a hmem hcode
  · obtain ⟨-, -, hcause⟩ := hcauses a hmem
    rw [hcode] at hcause
    exact quiet_answer h.long (h.phase.inv.deleted h.phase.deleted).1 hsettled.1 hcause

/-! ## The link stays dead -/

/-- The link is dead, and stays so in every continuation. -/
structure LinkDead (encode : ℤ → String) (P : World → WorldEvent → Prop) (c : String) (s : World) :
    Prop where
  redis : s.redis c = none
  l1 : ∀ i originalUrl expiresAt, (s.l1 i).get s.now c ≠ some (some (originalUrl, expiresAt))
  later : ∀ es t new, Run (World.step encode) P s es t → t.answers = s.answers ++ new →
    ∀ a ∈ new, a.shortCode = c → a.response = .notFound

/-- **A deleted link stays dead** when no late fill writes it: after the answer 204, the end of the
requests and fills from before it, and three more seconds. -/
theorem deleted_link_dead (hencode : Set.InjOn encode (Set.Ioo 0 (2 ^ 63))) {now : Instant}
    {es₁ es₂ es₃ : List WorldEvent} {s₁ s₂ s₃ : World}
    (h₁ : Run (World.step encode) (Settled c) (World.init now) es₁ s₁) (hdeleted : c ∈ s₁.deleted)
    (h₂ : Run (World.step encode) (Settled c) s₁ es₂ s₂) (hfinished : Finished c s₁.ticket s₂)
    (h₃ : Run (World.step encode) (Settled c) s₂ es₃ s₃) (hlong : s₂.now + 3 * second < s₃.now) :
    LinkDead encode (Settled c) c s₃ := by
  have hinv₁ : DeadInv encode c s₁ :=
    h₁.induct (fun _ _ _ h hs hstep => h.step hs (World.step_cases hstep)) (deadInv_init now)
  have hphase₂ : Phase encode c (since c s₁.ticket) s₂ :=
    h₂.induct (fun _ _ _ h hs hstep =>
      h.step hs (since_rules hencode h.inv h.deleted hs _) (World.step_cases hstep))
      (Phase.of_deleted hinv₁ hdeleted)
  have hquiet : ∀ {s t es}, Run (World.step encode) (Settled c) s es t →
      Phase encode c (quiet c (s₂.now + l1TimeToLive)) s →
      Phase encode c (quiet c (s₂.now + l1TimeToLive)) t := fun hrun hs =>
    hrun.induct (fun _ _ _ h hs hstep =>
      h.step hs (quiet_rules hencode h.inv h.deleted hs _) (World.step_cases hstep)) hs
  have hphase₃ := hquiet h₃ (hphase₂.of_finished hfinished)
  have hlong₃ : s₂.now + l1TimeToLive < s₃.now := hlong
  refine ⟨(hphase₃.inv.deleted hphase₃.deleted).2, ?_, ?_⟩
  · intro i originalUrl expiresAt hget
    obtain ⟨en, hen, hvalue, hlive⟩ := TtlMap.get_eq_some hget
    rcases hphase₃.caches.l1 i c en hen rfl with hnone | ⟨d, hd, hle⟩
    · rw [hnone] at hvalue
      cases hvalue
    · exact absurd (hlive d hd) (not_lt.mpr (hle.trans hlong₃.le))
  · intro es t new hrun hanswers
    have hstart : Silent encode c (s₂.now + l1TimeToLive) s₃.answers s₃ := by
      refine ⟨hphase₃, hlong₃, [], (List.append_nil _).symm, ?_⟩
      intro a ha
      cases ha
    have hsilent : Silent encode c (s₂.now + l1TimeToLive) s₃.answers t :=
      hrun.induct (fun _ _ _ h hs hstep => h.step hencode hs (World.step_cases hstep)) hstart
    obtain ⟨new', hanswers', h404⟩ := hsilent.answers
    rw [hanswers] at hanswers'
    obtain rfl := List.append_cancel_left hanswers'
    exact h404

/-- Only instance 0 gets requests. -/
def AtFirst : WorldEvent → Prop
  | .request i _ => i = 0
  | _ => True

instance : DecidablePred AtFirst := by
  intro e
  unfold AtFirst
  split <;> infer_instance

/-- Then only instance 0 has flights. -/
theorem idle_of_atFirst {P : World → WorldEvent → Prop} {es : List WorldEvent} {t : World}
    (hrun : Run (World.step encode) (fun s e => P s e ∧ AtFirst e) s es t)
    (hs : ∀ i, i ≠ 0 → ∀ c, s.flights i c = none) : ∀ i, i ≠ 0 → ∀ c, t.flights i c = none := by
  refine hrun.induct (I := fun s => ∀ i, i ≠ 0 → ∀ c, s.flights i c = none) ?_ hs
  intro s e s' hidle hP hstep i hi
  refine (World.step_cases hstep).idle (hidle i hi) ?_
  rintro c rfl
  exact hi hP.2

/-- Nothing is unfinished when no instance has a flight for the code and no fill is left. -/
theorem finished_of_idle {ticket : ℕ} (hidle : ∀ i, i ≠ 0 → ∀ c, s.flights i c = none)
    (hfirst : s.flights 0 c = none) (hfills : s.fills = []) : Finished c ticket s := by
  constructor
  · intro i f hf
    by_cases hi : i = 0
    · rw [hi, hfirst] at hf
      cases hf
    · rw [hidle i hi] at hf
      cases hf
  · rw [hfills]
    intro f hf
    cases hf

/-- A link that is cached everywhere, deleted, and requested again before its L1 entry is gone. -/
theorem deleted_link_dead_of_cached_link :
    ∃ s : World, 1 < s.answers.length ∧ LinkDead base62Encode (Settled "1") "1" s := by
  obtain ⟨s₁, h₁, hs₁⟩ := exists_run_of_exec (World.step base62Encode)
    (fun s e => Settled "1" s e ∧ AtFirst e) (World.init 0)
    (World.shortenEvents 0 1 "https://a.example" none ++ World.missEvents 0 "1" ++
      [.insert 0 "1", .fill 0 true, .db (.deleteUrl 1 7 .ok), .del 0 true])
    (fun s₁ => "1" ∈ s₁.deleted &&
      (exec (World.step base62Encode) (fun s e => Settled "1" s e ∧ AtFirst e) s₁
        [.tick 1000000000, .request 0 "1"]).any fun s₂ =>
          s₂.flights 0 "1" = none && s₂.fills.isEmpty &&
          (exec (World.step base62Encode) (Settled "1") s₂ [.tick 3000000001]).any fun s₃ =>
            s₂.now + 3 * second < s₃.now && 1 < s₃.answers.length) (by decide)
  simp only [Bool.and_eq_true, Option.any_eq_true, decide_eq_true_eq, List.isEmpty_iff] at hs₁
  obtain ⟨hdeleted, s₂, hs₂, ⟨hflight, hfills⟩, s₃, hs₃, hlong, hanswers⟩ := hs₁
  have h₂ := run_of_exec hs₂
  have hidle := idle_of_atFirst h₂ (idle_of_atFirst h₁ fun i _ c => rfl)
  exact ⟨s₃, hanswers, deleted_link_dead base62Encode_injOn (h₁.mono fun _ _ h => h.1) hdeleted
    (h₂.mono fun _ _ h => h.1) (finished_of_idle hidle hflight hfills) (run_of_exec hs₃) hlong⟩

/-- **A late fill revives a deleted link.** The database is read before the `DELETE` and the fill written
after the `DEL`; Redis then serves the link for ever. -/
theorem late_fill_revives_link :
    ¬ ∀ (es₁ es₂ es₃ : List WorldEvent) (s₁ s₂ s₃ : World),
      Run (World.step base62Encode) AllUp (World.init 0) es₁ s₁ → "1" ∈ s₁.deleted →
      Run (World.step base62Encode) AllUp s₁ es₂ s₂ → Finished "1" s₁.ticket s₂ →
      Run (World.step base62Encode) AllUp s₂ es₃ s₃ → s₂.now + 3 * second < s₃.now →
      LinkDead base62Encode AllUp "1" s₃ := by
  obtain ⟨s₁, h₁, hs₁⟩ := exists_run_of_exec (World.step base62Encode)
    (fun s e => AllUp s e ∧ AtFirst e) (World.init 0)
    (World.shortenEvents 0 1 "https://a.example" none ++ World.missEvents 0 "1" ++
      [.insert 0 "1", .db (.deleteUrl 1 7 .ok), .del 0 true])
    (fun s₁ => "1" ∈ s₁.deleted &&
      (exec (World.step base62Encode) (fun s e => AllUp s e ∧ AtFirst e) s₁ [.fill 0 true]).any
        fun s₂ => s₂.flights 0 "1" = none && s₂.fills.isEmpty &&
          (exec (World.step base62Encode) AllUp s₂ [.tick 3000000001]).any fun s₃ =>
            s₂.now + 3 * second < s₃.now &&
            (exec (World.step base62Encode) AllUp s₃
              [.request 0 "1", .redisGet 0 "1" true, .insert 0 "1"]).any fun t =>
                t.answers = s₃.answers ++ [⟨⟨"1", 3000000001,
                  .temporaryRedirect "https://a.example"⟩, 3⟩]) (by decide)
  simp only [Bool.and_eq_true, Option.any_eq_true, decide_eq_true_eq, List.isEmpty_iff] at hs₁
  obtain ⟨hdeleted, s₂, hs₂, ⟨hflight, hfills⟩, s₃, hs₃, hlong, t, ht, hanswers⟩ := hs₁
  have h₂ := run_of_exec hs₂
  have hidle := idle_of_atFirst h₂ (idle_of_atFirst h₁ fun i _ c => rfl)
  intro hall
  have hdead := hall _ _ _ s₁ s₂ s₃ (h₁.mono fun _ _ h => h.1) hdeleted (h₂.mono fun _ _ h => h.1)
    (finished_of_idle hidle hflight hfills) (run_of_exec hs₃) hlong
  have h404 := hdead.later _ t _ (run_of_exec ht) hanswers _ (List.mem_singleton_self _) rfl
  cases h404

end Bittuly.Urls
