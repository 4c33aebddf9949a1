import Bittuly.Consumer.RetryProtocol
import Bittuly.Urls.Cache

/-!
# Eviction after the cascade

Reference: `services/consumer-service/src/main.rs` (the `Ok` arm of the second spawned task).

`DELETE … RETURNING short_code` hands the consumer the codes of the rows it deletes. The consumer sends
one Redis `DEL` for each code, drops the result of each `DEL`, and acknowledges the event. `Cleanup` takes
the arm apart, so that the consumer can die between any two of its steps and a redelivery starts again
with the `DELETE`. No redirect fills Redis meanwhile.

After the commit the codes are in the memory of the consumer only. A user stays `Tracked` while each of
the user's keys in Redis is named by a row or by that list.
-/

namespace Bittuly.UserDeleted

open Amqp Cache Runs Urls

/-- What the consumer's task is at: waiting for a delivery, or in the `Ok` arm with the codes whose `DEL`
is still to be sent. -/
inductive Task
  | waiting
  | evicting (d : Delivery Message) (userId : Uuid) (codes : List String)

/-- The services around the broker, with the table and the Redis that the consumer cleans. -/
structure Cleanup where
  system : System
  urls : List UrlRow
  redis : Redis
  task : Task

/-- One step. -/
inductive CleanupEvent
  /-- A step of auth-service or of the broker. -/
  | others (e : Event)
  /-- The consumer takes its next delivery and runs the `DELETE`. In the `Err` arm it also republishes and
  acknowledges. -/
  | delete (o : Outcome)
  /-- The next `DEL` of the `Ok` arm. -/
  | del (result : DbResult)
  /-- The acknowledgement of the `Ok` arm. -/
  | ack (arrives : Bool)
  /-- The consumer dies and starts again; its channel closes. -/
  | crash
  /-- Redis drops a key by itself. -/
  | drop (shortCode : String)

/-- The events that `Cleanup` replaces by its own. -/
def Event.ofConsumer : Event → Bool
  | .handle _ | .crash => true
  | _ => false

/-- `fetch_all` on the deleted rows: their codes, or an `Err` from before or after the commit. A row
without a code does not decode. -/
def fetchAll (rows : List UrlRow) : DbResult → Except DbResult (List String)
  | .ok =>
    if rows.all fun r => r.shortCode.isSome then .ok (rows.filterMap UrlRow.shortCode)
    else .error .errApplied
  | result => .error result

namespace Cleanup

/-- An empty broker, and any links with any of their codes cached. -/
def start (urls : List UrlRow) (redis : Redis) : Cleanup where
  system := System.init
  urls := urls
  redis := redis
  task := .waiting

/-- The rows of a user. -/
def rowsOf (s : Cleanup) (userId : Uuid) : List UrlRow :=
  s.urls.filter fun r => r.userId = userId

variable (format : EventFormat)

/-- A delivery, up to the end of its `match` on the result of the `DELETE`. -/
def delete (s : Cleanup) (d : Delivery Message) (o : Outcome) : Cleanup :=
  match format.fromSlice d.msg.data with
  | none => { s with system := s.system.ack d o.ack }
  | some userId =>
    let urls := if o.delete.applied then s.urls.filter fun r => r.userId ≠ userId else s.urls
    match fetchAll (s.rowsOf userId) o.delete with
    | .ok codes => { s with urls, task := .evicting d userId codes }
    | .error result =>
      { s with urls, system := s.system.retry d userId { o with delete := result } }

/-- One step. -/
def step (s : Cleanup) : CleanupEvent → Option Cleanup
  | .others e =>
    if e.ofConsumer then none else (s.system.step format e).map fun system => { s with system }
  | .delete o =>
    match s.task with
    | .evicting _ _ _ => none
    | .waiting =>
      if s.system.panicked then none
      else s.system.broker.next.map fun r =>
        { s with system := { s.system with broker := r.2 } }.delete format r.1 o
  | .del result =>
    match s.task with
    | .evicting d userId (code :: codes) =>
      -- `unwrap_or_default`: the arm goes on whatever the result
      some { s with
        redis := if result.applied then s.redis.remove code else s.redis
        task := .evicting d userId codes }
    | _ => none
  | .ack arrives =>
    match s.task with
    | .evicting d userId [] =>
      let o : Outcome := { delete := .ok, publish := true, ack := arrives }
      some { s with system := s.system.succeed d userId o, task := .waiting }
    | _ => none
  | .crash =>
    (s.system.step format .crash).map fun system => { s with system, task := .waiting }
  | .drop shortCode => some { s with redis := s.redis.remove shortCode }

/-- The event of this user has been acknowledged at the end of the `Ok` arm. -/
def Acked (s : Cleanup) (userId : Uuid) : Prop :=
  ∃ m ∈ s.system.completed, format.fromSlice m.data = some userId

/-- A row of this user with this code is in the table. -/
def Owned (urls : List UrlRow) (userId : Uuid) (code : String) : Prop :=
  ∃ r ∈ urls, r.userId = userId ∧ r.shortCode = some code

/-- No row of the user is left, and no key for a code that belonged to the user. -/
def Cleaned (urls₀ : List UrlRow) (s : Cleanup) (userId : Uuid) : Prop :=
  (∀ r ∈ s.urls, r.userId ≠ userId) ∧ ∀ code, Owned urls₀ userId code → s.redis code = none

/-- The codes of this user that the consumer holds in memory. -/
def pending (s : Cleanup) (userId : Uuid) : List String :=
  match s.task with
  | .waiting => []
  | .evicting _ u codes => if u = userId then codes else []

/-- The step forgets no code of this user whose key is in Redis: the consumer does not die before the
`DEL` of such a key, the `DEL` does not fail, and the `DELETE` does not commit without handing over the
codes. -/
def Remembers (userId : Uuid) (s : Cleanup) : CleanupEvent → Prop
  | .delete o => ∀ d b, s.system.broker.next = some (d, b) →
      format.fromSlice d.msg.data = some userId → o.delete.applied = true →
      (∃ codes, fetchAll (s.rowsOf userId) o.delete = .ok codes) ∨
        ∀ code, Owned s.urls userId code → s.redis code = none
  | .del result => ∀ code ∈ (s.pending userId).head?, result.applied = true ∨ s.redis code = none
  | .crash => ∀ code ∈ s.pending userId, s.redis code = none
  | _ => True

/-- Redis drops no key by itself. -/
def NoExpiry (_ : Cleanup) : CleanupEvent → Prop
  | .drop _ => False
  | _ => True

instance (s : Cleanup) : DecidablePred (NoExpiry s)
  | .drop _ => inferInstanceAs (Decidable False)
  | .others _ | .delete _ | .del _ | .ack _ | .crash => inferInstanceAs (Decidable True)

/-! ## What one step does -/

variable {format} {s s' : Cleanup} {urls₀ : List UrlRow} {userId : Uuid}

theorem pending_evicting {d : Delivery Message} {codes : List String}
    (htask : s.task = .evicting d userId codes) : s.pending userId = codes := by
  rw [pending, htask]
  exact if_pos rfl

theorem pending_of_ne {d : Delivery Message} {u : Uuid} {codes : List String}
    (htask : s.task = .evicting d u codes) (hne : u ≠ userId) : s.pending userId = [] := by
  rw [pending, htask]
  exact if_neg hne

theorem pending_waiting (htask : s.task = .waiting) : s.pending userId = [] := by
  rw [pending, htask]

/-- The other services finish no event. -/
theorem completed_others {sys sys' : System} {e : Event} (he : e.ofConsumer = false)
    (hstep : sys.step format e = some sys') : sys'.completed = sys.completed := by
  cases e with
  | signup u =>
    obtain rfl := Option.some.inj hstep
    rfl
  | deleteUser u result =>
    obtain rfl := Option.some.inj hstep
    rfl
  | publishDeleted k carrier ok =>
    obtain ⟨u, -, rfl⟩ := step_publishDeleted hstep
    split <;> rfl
  | deliver i =>
    obtain ⟨b, -, rfl⟩ := Option.map_eq_some_iff.mp hstep
    rfl
  | expire i =>
    obtain ⟨b, -, rfl⟩ := Option.map_eq_some_iff.mp hstep
    rfl
  | handle o => cases he
  | crash => cases he

theorem completed_retry (sys : System) (d : Delivery Message) (u : Uuid) (o : Outcome) :
    (sys.retry d u o).completed = sys.completed := by
  cases hroute : route d.msg with
  | none => rw [System.retry, hroute]
  | some r => rw [System.retry_eq sys d u o hroute]

theorem mem_completed_succeed {sys : System} {d : Delivery Message} {u : Uuid} {o : Outcome}
    {m : Message} (hm : m ∈ (sys.succeed d u o).completed) : m ∈ sys.completed ∨ m = d.msg := by
  change m ∈ (if o.ack then sys.completed ++ [d.msg] else sys.completed) at hm
  split at hm
  · simpa using hm
  · exact Or.inl hm

/-- The codes that `fetch_all` returns are those of the rows. -/
theorem fetchAll_eq_ok {rows : List UrlRow} {result : DbResult} {codes : List String}
    (h : fetchAll rows result = .ok codes) :
    result = .ok ∧ codes = rows.filterMap UrlRow.shortCode := by
  cases result with
  | ok =>
    simp only [fetchAll] at h
    split at h
    · exact ⟨rfl, (Except.ok.inj h).symm⟩
    · cases h
  | errApplied => cases h
  | err => cases h

/-- The three ways through `delete`. -/
theorem delete_unreadable (s : Cleanup) (d : Delivery Message) (o : Outcome)
    (hread : format.fromSlice d.msg.data = none) :
    s.delete format d o = { s with system := s.system.ack d o.ack } := by
  rw [delete, hread]

theorem delete_ok (s : Cleanup) (d : Delivery Message) (o : Outcome) {u : Uuid}
    (hread : format.fromSlice d.msg.data = some u) {codes : List String}
    (hcodes : fetchAll (s.rowsOf u) o.delete = .ok codes) :
    s.delete format d o = { s with
      urls := if o.delete.applied then s.urls.filter fun r => r.userId ≠ u else s.urls
      task := .evicting d u codes } := by
  simp only [delete, hread, hcodes]

theorem delete_error (s : Cleanup) (d : Delivery Message) (o : Outcome) {u : Uuid}
    (hread : format.fromSlice d.msg.data = some u) {result : DbResult}
    (hcodes : fetchAll (s.rowsOf u) o.delete = .error result) :
    s.delete format d o = { s with
      urls := if o.delete.applied then s.urls.filter fun r => r.userId ≠ u else s.urls
      system := s.system.retry d u { o with delete := result } } := by
  simp only [delete, hread, hcodes]

/-- What a `DELETE` did, as far as the table, Redis and the task go. -/
theorem step_delete {o : Outcome} (hstep : s.step format (.delete o) = some s') :
    s.task = .waiting ∧ s'.redis = s.redis ∧ s'.system.completed = s.system.completed ∧
      ∃ d b, s.system.broker.next = some (d, b) ∧
        ((format.fromSlice d.msg.data = none ∧ s'.urls = s.urls ∧ s'.task = .waiting) ∨
          ∃ u, format.fromSlice d.msg.data = some u ∧
            s'.urls = (if o.delete.applied then s.urls.filter fun r => r.userId ≠ u else s.urls) ∧
            ((∃ codes, fetchAll (s.rowsOf u) o.delete = .ok codes ∧ s'.task = .evicting d u codes) ∨
              ((∀ codes, fetchAll (s.rowsOf u) o.delete ≠ .ok codes) ∧ s'.task = .waiting))) := by
  simp only [step] at hstep
  split at hstep
  · cases hstep
  · rename_i htask
    split at hstep
    · cases hstep
    · obtain ⟨⟨d, b⟩, hnext, hs'⟩ := Option.map_eq_some_iff.mp hstep
      dsimp only at hs'
      cases hread : format.fromSlice d.msg.data with
      | none =>
        rw [delete_unreadable _ d o hread] at hs'
        subst hs'
        exact ⟨htask, rfl, rfl, d, b, hnext, Or.inl ⟨hread, rfl, htask⟩⟩
      | some u =>
        cases hcodes : fetchAll (s.rowsOf u) o.delete with
        | ok codes =>
          rw [delete_ok { s with system := { s.system with broker := b } } d o hread hcodes] at hs'
          subst hs'
          exact ⟨htask, rfl, rfl, d, b, hnext, Or.inr ⟨u, hread, rfl, Or.inl ⟨codes, hcodes, rfl⟩⟩⟩
        | error result =>
          rw [delete_error { s with system := { s.system with broker := b } } d o hread hcodes] at hs'
          subst hs'
          refine ⟨htask, rfl, completed_retry _ _ _ _, d, b, hnext,
            Or.inr ⟨u, hread, rfl, Or.inr ⟨?_, htask⟩⟩⟩
          intro codes hok
          cases hcodes.symm.trans hok

theorem step_del {result : DbResult} (hstep : s.step format (.del result) = some s') :
    ∃ d u code codes, s.task = .evicting d u (code :: codes) ∧
      s' = { s with
        redis := if result.applied then s.redis.remove code else s.redis
        task := .evicting d u codes } := by
  simp only [step] at hstep
  split at hstep
  · rename_i d u code codes htask
    exact ⟨d, u, code, codes, htask, (Option.some.inj hstep).symm⟩
  · cases hstep

theorem step_ack {arrives : Bool} (hstep : s.step format (.ack arrives) = some s') :
    ∃ d u, s.task = .evicting d u [] ∧
      s' = { s with
        system := s.system.succeed d u { delete := .ok, publish := true, ack := arrives }
        task := .waiting } := by
  simp only [step] at hstep
  split at hstep
  · rename_i d u htask
    exact ⟨d, u, htask, (Option.some.inj hstep).symm⟩
  · cases hstep

/-! ## Where the codes of a user are -/

/-- What every step keeps: rows only go, the codes in memory are those of rows that are gone, and an
acknowledged event has left neither rows nor codes behind. -/
structure Sound (format : EventFormat) (urls₀ : List UrlRow) (s : Cleanup) : Prop where
  urls : s.urls.Sublist urls₀
  task : ∀ d u codes, s.task = .evicting d u codes → format.fromSlice d.msg.data = some u ∧
    (∀ r ∈ s.urls, r.userId ≠ u) ∧ ∀ code ∈ codes, Owned urls₀ u code
  codes : ∀ u, (s.pending u).Nodup
  acked : ∀ u, s.Acked format u → (∀ r ∈ s.urls, r.userId ≠ u) ∧ s.pending u = []

theorem sound_start (urls : List UrlRow) (redis : Redis) :
    Sound format urls (start urls redis) where
  urls := List.Sublist.refl _
  task := fun _ _ _ h => Task.noConfusion h
  codes := fun _ => List.nodup_nil
  acked := by
    rintro u ⟨m, hm, -⟩
    cases hm

/-- The codes of the rows that `rowsOf` finds are the user's. -/
theorem mem_codes_rowsOf {u : Uuid} {code : String} :
    code ∈ (s.rowsOf u).filterMap UrlRow.shortCode ↔ Owned s.urls u code := by
  rw [List.mem_filterMap]
  constructor
  · rintro ⟨r, hr, hcode⟩
    obtain ⟨hmem, huser⟩ := List.mem_filter.mp hr
    exact ⟨r, hmem, by simpa using huser, hcode⟩
  · rintro ⟨r, hmem, huser, hcode⟩
    exact ⟨r, List.mem_filter.mpr ⟨hmem, by simpa using huser⟩, hcode⟩

theorem Owned.mono {urls urls' : List UrlRow} (hsub : urls ⊆ urls') {u : Uuid} {code : String}
    (h : Owned urls u code) : Owned urls' u code := by
  obtain ⟨r, hr, huser, hcode⟩ := h
  exact ⟨r, hsub hr, huser, hcode⟩

/-- A code in memory is in the list of the task. -/
theorem mem_pending {u : Uuid} {code : String} (h : code ∈ s.pending u) :
    ∃ d codes, s.task = .evicting d u codes ∧ code ∈ codes := by
  unfold pending at h
  split at h
  · cases h
  · rename_i d v codes htask
    split at h
    · rename_i huser
      exact ⟨d, codes, huser ▸ htask, h⟩
    · cases h

/-- Only the state of the broker and the history change. -/
theorem Sound.congr (h : Sound format urls₀ s) (hurls : s'.urls = s.urls) (htask : s'.task = s.task)
    (hcompleted : s'.system.completed = s.system.completed) : Sound format urls₀ s' where
  urls := hurls ▸ h.urls
  task := by
    rw [hurls, htask]
    exact h.task
  codes := by
    intro u
    rw [pending, htask]
    exact h.codes u
  acked := by
    intro u hu
    rw [Acked, hcompleted] at hu
    rw [hurls, pending, htask]
    exact h.acked u hu

/-- The consumer is waiting again, with what is left of the table. -/
theorem Sound.waiting (h : Sound format urls₀ s) (hurls : s'.urls.Sublist s.urls)
    (htask : s'.task = .waiting)
    (hacked : ∀ u, s'.Acked format u → ∀ r ∈ s'.urls, r.userId ≠ u) : Sound format urls₀ s' where
  urls := hurls.trans h.urls
  task := by
    intro d u codes hev
    rw [htask] at hev
    cases hev
  codes := by
    intro u
    rw [pending_waiting htask]
    exact List.nodup_nil
  acked := fun u hu => ⟨hacked u hu, pending_waiting htask⟩

/-- The consumer holds these codes, with what is left of the table. -/
theorem Sound.evicting (h : Sound format urls₀ s) (hurls : s'.urls.Sublist s.urls)
    (hcompleted : s'.system.completed = s.system.completed) {d : Delivery Message} {u : Uuid}
    {codes : List String} (htask : s'.task = .evicting d u codes)
    (hread : format.fromSlice d.msg.data = some u) (hrows : ∀ r ∈ s'.urls, r.userId ≠ u)
    (hcodes : codes.Nodup) (howned : ∀ code ∈ codes, Owned urls₀ u code)
    (hempty : s.Acked format u → codes = []) : Sound format urls₀ s' where
  urls := hurls.trans h.urls
  task := by
    intro d' u' codes' hev
    rw [htask] at hev
    obtain ⟨rfl, rfl, rfl⟩ := Task.evicting.inj hev
    exact ⟨hread, hrows, howned⟩
  codes := by
    intro v
    by_cases hv : u = v
    · subst hv
      rw [pending_evicting htask]
      exact hcodes
    · rw [pending_of_ne htask hv]
      exact List.nodup_nil
  acked := by
    intro v hv
    rw [Acked, hcompleted] at hv
    refine ⟨fun r hr => (h.acked v hv).1 r (hurls.subset hr), ?_⟩
    by_cases hvu : u = v
    · subst hvu
      rw [pending_evicting htask]
      exact hempty hv
    · exact pending_of_ne htask hvu

/-- The `DELETE` of a delivery. -/
theorem Sound.delete (hunique : (urls₀.filterMap UrlRow.shortCode).Nodup) (h : Sound format urls₀ s)
    {o : Outcome} (hstep : s.step format (.delete o) = some s') : Sound format urls₀ s' := by
  obtain ⟨htask, -, hcompleted, d, b, -, ⟨-, hurls, hwait⟩ | ⟨u, hread, hurls, hcase⟩⟩ :=
    step_delete hstep
  · exact h.congr hurls (hwait.trans htask.symm) hcompleted
  · have hsub : s'.urls.Sublist s.urls := by
      rw [hurls]
      split
      · exact List.filter_sublist
      · exact List.Sublist.refl _
    rcases hcase with ⟨codes, hcodes, hev⟩ | ⟨-, hwait⟩
    · obtain ⟨hok, rfl⟩ := fetchAll_eq_ok hcodes
      rw [hok] at hurls
      refine h.evicting hsub hcompleted hev hread ?_ ?_ ?_ ?_
      · intro r hr
        rw [hurls] at hr
        simpa using (List.mem_filter.mp hr).2
      · exact hunique.sublist ((List.filter_sublist.trans h.urls).filterMap _)
      · intro code hcode
        exact (mem_codes_rowsOf.mp hcode).mono h.urls.subset
      · -- no rows were left, so the `DELETE` returned nothing
        intro hacked
        rw [List.eq_nil_iff_forall_not_mem]
        intro code hcode
        obtain ⟨r, hr, huser, -⟩ := mem_codes_rowsOf.mp hcode
        exact (h.acked u hacked).1 r hr huser
    · refine h.waiting hsub hwait ?_
      intro v hv r hr
      rw [Acked, hcompleted] at hv
      exact (h.acked v hv).1 r (hsub.subset hr)

/-- Every step keeps this. -/
theorem Sound.step (hunique : (urls₀.filterMap UrlRow.shortCode).Nodup) (h : Sound format urls₀ s)
    {a : CleanupEvent} (hstep : s.step format a = some s') : Sound format urls₀ s' := by
  cases a with
  | others e =>
    simp only [Cleanup.step] at hstep
    split at hstep
    · cases hstep
    · rename_i he
      obtain ⟨sys, hsys, rfl⟩ := Option.map_eq_some_iff.mp hstep
      exact h.congr rfl rfl (completed_others (by simpa using he) hsys)
  | delete o => exact h.delete hunique hstep
  | del result =>
    obtain ⟨d, u, code, codes, htask, rfl⟩ := step_del hstep
    obtain ⟨hread, hrows, howned⟩ := h.task d u _ htask
    have hnodup := h.codes u
    rw [pending_evicting htask] at hnodup
    refine h.evicting (List.Sublist.refl _) rfl rfl hread hrows hnodup.of_cons ?_ ?_
    · exact fun c hc => howned c (List.mem_cons_of_mem _ hc)
    · intro hacked
      have hpending := (h.acked u hacked).2
      rw [pending_evicting htask] at hpending
      cases hpending
  | ack arrives =>
    obtain ⟨d, u, htask, rfl⟩ := step_ack hstep
    obtain ⟨hread, hrows, -⟩ := h.task d u _ htask
    refine h.waiting (List.Sublist.refl _) rfl ?_
    rintro v ⟨m, hm, hv⟩
    rcases mem_completed_succeed hm with hold | rfl
    · exact (h.acked v ⟨m, hold, hv⟩).1
    · rw [hread] at hv
      obtain rfl := Option.some.inj hv
      exact hrows
  | crash =>
    obtain rfl := Option.some.inj hstep
    exact h.waiting (List.Sublist.refl _) rfl fun u hu => (h.acked u hu).1
  | drop shortCode =>
    obtain rfl := Option.some.inj hstep
    exact h.congr rfl rfl rfl

/-- Each of the user's keys in Redis is named by a row or by the codes in memory. -/
def Tracked (urls₀ : List UrlRow) (s : Cleanup) (userId : Uuid) : Prop :=
  ∀ code, Owned urls₀ userId code → s.redis code ≠ none →
    Owned s.urls userId code ∨ code ∈ s.pending userId

theorem tracked_start (urls : List UrlRow) (redis : Redis) (userId : Uuid) :
    Tracked urls (start urls redis) userId :=
  fun _ howned _ => Or.inl howned

/-- Nothing that `Tracked` reads has changed. -/
theorem tracked_congr (hredis : s'.redis = s.redis) (hpending : s'.pending userId = s.pending userId)
    (howned : ∀ code, Owned s'.urls userId code ↔ Owned s.urls userId code) :
    Tracked urls₀ s' userId ↔ Tracked urls₀ s userId := by
  unfold Tracked
  rw [hredis, hpending]
  simp only [howned]

/-- A code belongs to one user. -/
theorem owned_unique (hunique : (urls₀.filterMap UrlRow.shortCode).Nodup) {u v : Uuid} {code : String}
    (hu : Owned urls₀ u code) (hv : Owned urls₀ v code) : u = v := by
  obtain ⟨r, hr, rfl, hrcode⟩ := hu
  obtain ⟨r', hr', rfl, hrcode'⟩ := hv
  by_contra hne
  have hpair := List.pairwise_filterMap.mp hunique
  have hsymm : Std.Symm fun r r' : UrlRow => ∀ c, r.shortCode = some c →
      ∀ c', r'.shortCode = some c' → c ≠ c' :=
    ⟨fun r r' h c hc c' hc' heq => h c' hc' c hc heq.symm⟩
  exact hpair.forall hr hr' (fun heq => hne (congrArg UrlRow.userId heq)) code hrcode code hrcode' rfl

/-- The rows of a deleted user are gone; those of the others stay. -/
theorem owned_filter {urls : List UrlRow} {u v : Uuid} {code : String} :
    Owned (urls.filter fun r => r.userId ≠ u) v code ↔ Owned urls v code ∧ v ≠ u := by
  constructor
  · rintro ⟨r, hr, rfl, hcode⟩
    obtain ⟨hmem, hne⟩ := List.mem_filter.mp hr
    exact ⟨⟨r, hmem, rfl, hcode⟩, by simpa using hne⟩
  · rintro ⟨⟨r, hmem, rfl, hcode⟩, hne⟩
    exact ⟨r, List.mem_filter.mpr ⟨hmem, by simpa using hne⟩, rfl, hcode⟩

/-- `Remembers` on the delivery that the consumer takes. -/
theorem remembers_delete_iff {o : Outcome} {d : Delivery Message} {b : Broker Message}
    (hnext : s.system.broker.next = some (d, b)) :
    Remembers format userId s (.delete o) ↔
      (format.fromSlice d.msg.data = some userId → o.delete.applied = true →
        (∃ codes, fetchAll (s.rowsOf userId) o.delete = .ok codes) ∨
          ∀ code, Owned s.urls userId code → s.redis code = none) := by
  constructor
  · intro h
    exact h d b hnext
  · intro h d' b' hnext'
    rw [hnext] at hnext'
    obtain ⟨rfl, rfl⟩ := Prod.mk.inj (Option.some.inj hnext')
    exact h

/-- The rows are gone, and their codes are in memory. -/
theorem tracked_handed {d : Delivery Message} (hredis : s'.redis = s.redis)
    (hpending : s.pending userId = []) (hnorow : ∀ code, ¬ Owned s'.urls userId code)
    (htask : s'.task = .evicting d userId ((s.rowsOf userId).filterMap UrlRow.shortCode)) :
    Tracked urls₀ s' userId ↔ Tracked urls₀ s userId := by
  simp only [Tracked, hredis, hnorow, pending_evicting htask, hpending, mem_codes_rowsOf, false_or,
    List.not_mem_nil, or_false]

/-- The rows are gone, and nothing names their codes. -/
theorem tracked_lost (hredis : s'.redis = s.redis) (hpending : s'.pending userId = [])
    (hnorow : ∀ code, ¬ Owned s'.urls userId code) :
    Tracked urls₀ s' userId ↔ ∀ code, Owned urls₀ userId code → s.redis code = none := by
  simp only [Tracked, hredis, hnorow, hpending, List.not_mem_nil, or_false, imp_false, not_not]

/-- A `DELETE` that did not hand over the codes of the rows it deleted. -/
theorem tracked_unhanded_iff (h : Sound format urls₀ s) (hredis : s'.redis = s.redis)
    (hpending : s.pending userId = []) (hpending' : s'.pending userId = []) {applied : Bool}
    (hurls : s'.urls = if applied then s.urls.filter fun r => r.userId ≠ userId else s.urls) :
    Tracked urls₀ s' userId ↔ Tracked urls₀ s userId ∧
      (applied = true → ∀ code, Owned s.urls userId code → s.redis code = none) := by
  cases applied with
  | false =>
    have hsame : Tracked urls₀ s' userId ↔ Tracked urls₀ s userId := by
      refine tracked_congr hredis (hpending'.trans hpending.symm) fun code => ?_
      rw [hurls]
      simp
    simp [hsame]
  | true =>
    have hnorow : ∀ code, ¬ Owned s'.urls userId code := by
      intro code hcode
      rw [hurls] at hcode
      exact (owned_filter.mp hcode).2 rfl
    rw [tracked_lost hredis hpending' hnorow]
    constructor
    · intro hnone
      exact ⟨fun code howned hkey => absurd (hnone code howned) hkey,
        fun _ code howned => hnone code (howned.mono h.urls.subset)⟩
    · rintro ⟨hT, hforgot⟩ code howned
      by_contra hkey
      have hrow := (hT code howned hkey).resolve_right (hpending ▸ List.not_mem_nil)
      exact hkey (hforgot rfl code hrow)

/-- The `DELETE` of another user. -/
theorem tracked_delete_other {u : Uuid} (huser : u ≠ userId) (hredis : s'.redis = s.redis)
    (hpending : s'.pending userId = s.pending userId) {applied : Bool}
    (hurls : s'.urls = if applied then s.urls.filter fun r => r.userId ≠ u else s.urls) :
    Tracked urls₀ s' userId ↔ Tracked urls₀ s userId := by
  refine tracked_congr hredis hpending fun code => ?_
  rw [hurls]
  split
  · rw [owned_filter]
    exact and_iff_left huser.symm
  · exact Iff.rfl

/-- The `DELETE` of a delivery: the user's rows become codes in memory, or are forgotten. -/
theorem tracked_delete_iff (h : Sound format urls₀ s) {o : Outcome}
    (hstep : s.step format (.delete o) = some s') :
    Tracked urls₀ s' userId ↔
      Tracked urls₀ s userId ∧ Remembers format userId s (.delete o) := by
  obtain ⟨htask, hredis, -, d, b, hnext, hcase⟩ := step_delete hstep
  have hpending : s.pending userId = [] := pending_waiting htask
  rw [remembers_delete_iff hnext]
  rcases hcase with ⟨hread, hurls, hwait⟩ | ⟨u, hread, hurls, hcase⟩
  · have hsame : Tracked urls₀ s' userId ↔ Tracked urls₀ s userId :=
      tracked_congr hredis ((pending_waiting hwait).trans hpending.symm) fun code => by rw [hurls]
    simp [hread, hsame]
  · by_cases huser : u = userId
    · subst huser
      rcases hcase with ⟨codes, hcodes, hev⟩ | ⟨hfail, hwait⟩
      · obtain ⟨hok, rfl⟩ := fetchAll_eq_ok hcodes
        have hnorow : ∀ code, ¬ Owned s'.urls u code := by
          intro code hcode
          rw [hurls, hok] at hcode
          exact (owned_filter.mp hcode).2 rfl
        rw [tracked_handed hredis hpending hnorow hev]
        exact ⟨fun hT => ⟨hT, fun _ _ => Or.inl ⟨_, hcodes⟩⟩, And.left⟩
      · rw [tracked_unhanded_iff h hredis hpending (pending_waiting hwait) hurls]
        have hnot : ¬ ∃ codes, fetchAll (s.rowsOf u) o.delete = .ok codes := not_exists.mpr hfail
        simp only [hread, hnot, false_or, true_imp_iff]
    · have hpending' : s'.pending userId = [] := by
        rcases hcase with ⟨codes, -, hev⟩ | ⟨-, hwait⟩
        · exact pending_of_ne hev huser
        · exact pending_waiting hwait
      have hother : format.fromSlice d.msg.data ≠ some userId := by
        rw [hread]
        exact fun heq => huser (Option.some.inj heq)
      rw [tracked_delete_other huser hredis (hpending'.trans hpending.symm) hurls]
      exact ⟨fun hT => ⟨hT, fun hu => absurd hu hother⟩, And.left⟩

/-- While the codes of the user are in memory, no row is left to name a key. -/
theorem tracked_evicting {d : Delivery Message} {codes : List String}
    (htask : s.task = .evicting d userId codes) (hrows : ∀ r ∈ s.urls, r.userId ≠ userId) :
    Tracked urls₀ s userId ↔ ∀ code, Owned urls₀ userId code → s.redis code ≠ none → code ∈ codes := by
  have hnorow : ∀ code, ¬ Owned s.urls userId code := fun code ⟨r, hr, huser, _⟩ => hrows r hr huser
  simp [Tracked, pending_evicting htask, hnorow]

/-- A `DEL` takes the first code out of the list, and out of the keys if it was applied. -/
theorem keys_subset_del_iff {redis : Redis} {code : String} {codes : List String} {applied : Bool}
    {P : String → Prop} (hcode : P code) (hfresh : code ∉ codes) :
    (∀ c, P c → (if applied then redis.remove code else redis) c ≠ none → c ∈ codes) ↔
      (∀ c, P c → redis c ≠ none → c ∈ code :: codes) ∧ (applied = true ∨ redis code = none) := by
  cases applied with
  | true =>
    constructor
    · intro hall
      refine ⟨fun c hc hkey => ?_, Or.inl rfl⟩
      by_cases heq : c = code
      · exact heq ▸ List.mem_cons_self
      · apply List.mem_cons_of_mem
        apply hall c hc
        rw [if_pos rfl, TtlMap.remove_of_ne _ heq]
        exact hkey
    · rintro ⟨hall, -⟩ c hc hkey
      rw [if_pos rfl] at hkey
      have hne : c ≠ code := by
        rintro rfl
        exact hkey (TtlMap.remove_self _ _)
      rw [TtlMap.remove_of_ne _ hne] at hkey
      exact (List.mem_cons.mp (hall c hc hkey)).resolve_left hne
  | false =>
    constructor
    · intro hall
      refine ⟨fun c hc hkey => List.mem_cons_of_mem _ (hall c hc hkey), Or.inr ?_⟩
      by_contra hkey
      exact hfresh (hall code hcode hkey)
    · rintro ⟨hall, hor⟩ c hc hkey
      have hnone : redis code = none := hor.resolve_left Bool.false_ne_true
      refine (List.mem_cons.mp (hall c hc hkey)).resolve_left ?_
      rintro rfl
      exact hkey hnone

/-- The `DEL` of a code of another user. -/
theorem tracked_del_other (hunique : (urls₀.filterMap UrlRow.shortCode).Nodup) {u : Uuid} {code : String}
    (hcode : Owned urls₀ u code) (huser : u ≠ userId) {applied : Bool} (hurls : s'.urls = s.urls)
    (hredis : s'.redis = if applied then s.redis.remove code else s.redis)
    (hpending : s'.pending userId = s.pending userId) :
    Tracked urls₀ s' userId ↔ Tracked urls₀ s userId := by
  unfold Tracked
  rw [hurls, hpending]
  refine forall_congr' fun c => forall_congr' fun hc => ?_
  have hkey : s'.redis c = s.redis c := by
    have hne : c ≠ code := by
      rintro rfl
      exact huser (owned_unique hunique hcode hc)
    rw [hredis]
    split
    · exact TtlMap.remove_of_ne _ hne
    · rfl
  rw [hkey]

/-- A `DEL`: the code leaves the memory, and its key leaves Redis unless the `DEL` fails. -/
theorem tracked_del_iff (hunique : (urls₀.filterMap UrlRow.shortCode).Nodup)
    (h : Sound format urls₀ s) {result : DbResult} (hstep : s.step format (.del result) = some s') :
    Tracked urls₀ s' userId ↔
      Tracked urls₀ s userId ∧ Remembers format userId s (.del result) := by
  obtain ⟨d, u, code, codes, htask, hs'⟩ := step_del hstep
  obtain ⟨-, hrows, howned⟩ := h.task d u _ htask
  have hredis : s'.redis = if result.applied then s.redis.remove code else s.redis := by rw [hs']
  have htask' : s'.task = .evicting d u codes := by rw [hs']
  have hurls : s'.urls = s.urls := by rw [hs']
  have hcode : Owned urls₀ u code := howned code List.mem_cons_self
  by_cases huser : u = userId
  · subst huser
    have hpending := pending_evicting htask
    have hnodup := h.codes u
    rw [hpending] at hnodup
    have hremembers : Remembers format u s (.del result) ↔
        result.applied = true ∨ s.redis code = none := by
      simp [Remembers, hpending]
    rw [tracked_evicting htask hrows, tracked_evicting htask' (hurls ▸ hrows), hremembers, hredis]
    exact keys_subset_del_iff hcode (List.nodup_cons.mp hnodup).1
  · have hpending : s.pending userId = [] := pending_of_ne htask huser
    rw [tracked_del_other hunique hcode huser hurls hredis
      ((pending_of_ne htask' huser).trans hpending.symm)]
    refine ⟨fun hT => ⟨hT, ?_⟩, And.left⟩
    simp [Remembers, hpending]

/-- A crash: what is in memory is forgotten. -/
theorem tracked_crash_iff (h : Sound format urls₀ s) (hstep : s.step format .crash = some s') :
    Tracked urls₀ s' userId ↔ Tracked urls₀ s userId ∧ Remembers format userId s .crash := by
  obtain rfl := Option.some.inj hstep
  constructor
  · intro hT
    refine ⟨fun code howned hkey => Or.inl ?_, ?_⟩
    · exact (hT code howned hkey).resolve_right (List.not_mem_nil)
    · intro code hcode
      by_contra hkey
      obtain ⟨d, codes, htask, hmem⟩ := mem_pending hcode
      obtain ⟨-, hrows, howned⟩ := h.task d userId codes htask
      obtain ⟨r, hr, huser, -⟩ := (hT code (howned code hmem) hkey).resolve_right List.not_mem_nil
      exact hrows r hr huser
  · rintro ⟨hT, hforgot⟩ code howned hkey
    rcases hT code howned hkey with hrow | hmem
    · exact Or.inl hrow
    · exact absurd (hforgot code hmem) hkey

/-- A step keeps the user tracked exactly if it remembers the user's codes. -/
theorem tracked_step_iff (hunique : (urls₀.filterMap UrlRow.shortCode).Nodup)
    (h : Sound format urls₀ s) {a : CleanupEvent} (hdrop : NoExpiry s a)
    (hstep : s.step format a = some s') :
    Tracked urls₀ s' userId ↔ Tracked urls₀ s userId ∧ Remembers format userId s a := by
  cases a with
  | others e =>
    simp only [step] at hstep
    split at hstep
    · cases hstep
    · obtain ⟨sys, -, rfl⟩ := Option.map_eq_some_iff.mp hstep
      have hremembers : Remembers format userId s (.others e) := trivial
      rw [and_iff_left hremembers]
      exact tracked_congr rfl rfl fun _ => Iff.rfl
  | delete o => exact tracked_delete_iff h hstep
  | del result => exact tracked_del_iff hunique h hstep
  | ack arrives =>
    obtain ⟨d, u, htask, rfl⟩ := step_ack hstep
    have hpending : s.pending userId = [] := by
      rw [pending, htask]
      exact ite_self _
    have hremembers : Remembers format userId s (.ack arrives) := trivial
    rw [and_iff_left hremembers]
    exact tracked_congr rfl hpending.symm fun _ => Iff.rfl
  | crash => exact tracked_crash_iff h hstep
  | drop shortCode => exact hdrop.elim

theorem eq_drop_of_not {a : CleanupEvent} (h : ¬ NoExpiry s a) :
    ∃ shortCode, a = .drop shortCode := by
  cases a with
  | drop shortCode => exact ⟨shortCode, rfl⟩
  | others _ | delete _ | del _ | ack _ | crash => exact absurd trivial h

/-- A key that Redis drops by itself only helps. -/
theorem Tracked.drop (h : Tracked urls₀ s userId) {shortCode : String}
    (hstep : s.step format (.drop shortCode) = some s') : Tracked urls₀ s' userId := by
  obtain rfl := Option.some.inj hstep
  intro code howned hkey
  have hne : code ≠ shortCode := by
    rintro rfl
    exact hkey (TtlMap.remove_self _ _)
  have hkey' : s.redis code ≠ none := by
    rw [← TtlMap.remove_of_ne s.redis hne]
    exact hkey
  exact h code howned hkey'

/-! ## The guarantee -/

/-- Once the event is acknowledged, a tracked user is a cleaned one. -/
theorem cleaned_iff_tracked (h : Sound format urls₀ s) (hacked : s.Acked format userId) :
    Cleaned urls₀ s userId ↔ Tracked urls₀ s userId := by
  obtain ⟨hrows, hpending⟩ := h.acked userId hacked
  constructor
  · rintro ⟨-, hkeys⟩ code howned hkey
    exact absurd (hkeys code howned) hkey
  · intro hT
    refine ⟨hrows, fun code howned => ?_⟩
    by_contra hkey
    rcases hT code howned hkey with ⟨r, hr, huser, -⟩ | hmem
    · exact hrows r hr huser
    · rw [hpending] at hmem
      cases hmem

theorem sound_of_run (hunique : (urls₀.filterMap UrlRow.shortCode).Nodup) {redis : Redis}
    {P : Cleanup → CleanupEvent → Prop} {as : List CleanupEvent}
    (hrun : Run (step format) P (start urls₀ redis) as s) : Sound format urls₀ s :=
  hrun.induct (fun _ _ _ h _ hstep => h.step hunique hstep) (sound_start urls₀ redis)

/-- **The cascade cleans Redis** of an acknowledged user's keys in every run in which no step forgets a
code of the user whose key is in Redis; and in a run in which Redis drops no key by itself, only then. -/
theorem cleaned_iff (hunique : (urls₀.filterMap UrlRow.shortCode).Nodup) {redis : Redis}
    {as : List CleanupEvent} (hrun : Run (step format) Any (start urls₀ redis) as s)
    (hacked : s.Acked format userId) :
    (Run (step format) (Remembers format userId) (start urls₀ redis) as s →
      Cleaned urls₀ s userId) ∧
    (Run (step format) NoExpiry (start urls₀ redis) as s →
      (Cleaned urls₀ s userId ↔
        Run (step format) (Remembers format userId) (start urls₀ redis) as s)) := by
  have hclean := cleaned_iff_tracked (sound_of_run hunique hrun) hacked
  refine ⟨fun hremembers => hclean.mpr ?_, fun hkeep => hclean.trans ?_⟩
  · refine (hremembers.induct
      (I := fun s => Sound format urls₀ s ∧ Tracked urls₀ s userId) ?_
      ⟨sound_start urls₀ redis, tracked_start urls₀ redis userId⟩).2
    intro s a s' ⟨hs, hT⟩ ha hstep
    refine ⟨hs.step hunique hstep, ?_⟩
    by_cases hkeep : NoExpiry s a
    · exact (tracked_step_iff hunique hs hkeep hstep).mpr ⟨hT, ha⟩
    · obtain ⟨shortCode, rfl⟩ := eq_drop_of_not hkeep
      exact hT.drop hstep
  · have hiff := hkeep.iff_of_step (I := Sound format urls₀) (G := fun s => Tracked urls₀ s userId)
      (fun s a s' h _ hstep => h.step hunique hstep)
      (fun s a s' h hdrop hstep => tracked_step_iff hunique h hdrop hstep)
      (sound_start urls₀ redis)
    exact hiff.trans (and_iff_right (tracked_start urls₀ redis userId))

/-- A link of user 7 without an expiry. -/
def cachedLink : UrlRow where
  urlId := 1
  shortCode := some "1"
  originalUrl := "https://a.example"
  userId := 7
  clickCount := 0
  expiresAt := none
  createdAt := 0
  updatedAt := 0

/-- Its key in Redis, without a TTL. -/
def cachedKey : Redis :=
  TtlMap.empty.put "1" { value := "https://a.example", deadline := none }

/-- A `DEL` that answers with an error after it took effect forgets nothing. -/
theorem cleaned_iff_of_eviction : ∃ (as : List CleanupEvent) (s : Cleanup),
    Run (step jsonFormat) (Remembers jsonFormat 7) (start [cachedLink] cachedKey) as s ∧
      s.Acked jsonFormat 7 := by
  obtain ⟨s, hrun, hs⟩ := exists_run_of_exec (step jsonFormat) NoExpiry
    (start [cachedLink] cachedKey)
    [.others (.deleteUser 7 .ok), .others (.publishDeleted 0 [] true), .others (.deliver 0),
      .delete ⟨.ok, true, true⟩, .del .errApplied, .ack true]
    (fun s => s.system.completed.any (fun m => jsonFormat.fromSlice m.data = some 7) &&
      (s.urls.isEmpty && (s.redis "1").isNone)) (by decide)
  simp only [Bool.and_eq_true, List.isEmpty_iff, Option.isNone_iff_eq_none] at hs
  obtain ⟨hany, hurls, hkey⟩ := hs
  obtain ⟨m, hm, hread⟩ := List.any_eq_true.mp hany
  have hacked : s.Acked jsonFormat 7 := ⟨m, hm, by simpa using hread⟩
  have hcleaned : Cleaned [cachedLink] s 7 := by
    refine ⟨by simp [hurls], ?_⟩
    rintro code ⟨r, hr, -, hcode⟩
    obtain rfl := List.mem_singleton.mp hr
    obtain rfl := Option.some.inj hcode
    exact hkey
  have hiff := (cleaned_iff (by decide) (hrun.mono fun _ _ _ => trivial) hacked).2 hrun
  exact ⟨_, s, hiff.mp hcleaned, hacked⟩

/-- **A crash after the `DELETE` leaves a key behind.** The redelivery deletes no row, so it sends no
`DEL`, and it is acknowledged. -/
theorem crash_leaves_key :
    ¬ ∀ (urls : List UrlRow) (redis : Redis) (userId : Uuid) (as : List CleanupEvent) (s : Cleanup),
      (urls.filterMap UrlRow.shortCode).Nodup → Run (step jsonFormat) Any (start urls redis) as s →
        s.Acked jsonFormat userId → Cleaned urls s userId := by
  intro hall
  obtain ⟨s, hrun, hs⟩ := exists_run_of_exec (step jsonFormat) Any (start [cachedLink] cachedKey)
    [.others (.deleteUser 7 .ok), .others (.publishDeleted 0 [] true), .others (.deliver 0),
      .delete ⟨.ok, true, true⟩, .crash, .others (.deliver 0), .delete ⟨.ok, true, true⟩, .ack true]
    (fun s => s.system.completed.any (fun m => jsonFormat.fromSlice m.data = some 7) &&
      (s.redis "1").isSome) (by decide)
  obtain ⟨hacked, hkey⟩ := Bool.and_eq_true_iff.mp hs
  obtain ⟨m, hm, hread⟩ := List.any_eq_true.mp hacked
  obtain ⟨-, hnone⟩ := hall _ _ 7 _ s (by decide) hrun ⟨m, hm, by simpa using hread⟩
  rw [hnone "1" ⟨cachedLink, List.mem_singleton_self _, rfl, rfl⟩] at hkey
  cases hkey

end Cleanup

end Bittuly.UserDeleted
