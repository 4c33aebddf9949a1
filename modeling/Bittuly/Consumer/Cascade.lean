import Bittuly.Consumer.RetryProtocol

/-!
# The cascade of a deleted account

A deleted account is `Traced` while an event for it is held by the broker or the consumer's
`DELETE FROM urls` has committed. Two steps can drop the last event of a user: auth-service answers 204
after a publish that failed, and the consumer acknowledges a delivery after its `DELETE` and its
republish failed. Runs without these two keep every answered deletion traced. A publish fails when its event
does not reach the queue, and the broker does not restart.
-/

namespace Bittuly.UserDeleted

open Amqp Runs

variable (format : EventFormat)

/-- An event for the user is held by the broker, or the user's rows have been deleted. -/
def Traced (s : System) (userId : Uuid) : Prop :=
  (∃ m ∈ s.broker.held, format.fromSlice m.data = some userId) ∨ userId ∈ s.cascaded

/-- Neither a failed publish of auth-service nor an acknowledged delivery whose `DELETE` and republish
both failed. -/
def NoDrop (_ : System) : Event → Prop
  | .publishDeleted _ _ ok => ok = true
  | .handle o => ¬ (o.delete.applied = false ∧ o.publish = false ∧ o.ack = true)
  | _ => True

instance (s : System) : DecidablePred (NoDrop s)
  | .publishDeleted _ _ ok => inferInstanceAs (Decidable (ok = true))
  | .handle _ => inferInstanceAs (Decidable (¬ (_ ∧ _ ∧ _)))
  | .signup _ | .deleteUser _ _ | .deliver _ | .expire _ | .crash => inferInstanceAs (Decidable True)

variable {format}

/-- A user stays traced when the messages that carry it do. -/
theorem Traced.of_held {s s' : System} {userId : Uuid} (h : Traced format s userId)
    (hheld : ∀ m ∈ s.broker.held, format.fromSlice m.data = some userId → Traced format s' userId)
    (hcascaded : s.cascaded ⊆ s'.cascaded) : Traced format s' userId := by
  rcases h with ⟨m, hm, hread⟩ | hdone
  · exact hheld m hm hread
  · exact Or.inr (hcascaded hdone)

/-- Every message that was held is held: what most steps do. -/
theorem Traced.of_subset {s s' : System} {userId : Uuid} (h : Traced format s userId)
    (hheld : ∀ m ∈ s.broker.held, m ∈ s'.broker.held) (hcascaded : s'.cascaded = s.cascaded) :
    Traced format s' userId := by
  refine h.of_held (fun m hm hread => Or.inl ⟨m, hheld m hm, hread⟩) ?_
  rw [hcascaded]
  exact List.Subset.refl _

/-- Other than the settled delivery every message stays held. -/
theorem mem_held_tryAck {b : Broker Message} {d : Delivery Message}
    (hd : d ∈ b.channel.outstanding) (arrives : Bool) {m : Message} (hm : m ∈ b.held) :
    m = d.msg ∧ arrives = true ∨ m ∈ (b.tryAck d arrives).held := by
  cases arrives with
  | false => exact Or.inr hm
  | true =>
    rw [Broker.held_ack hd, Multiset.mem_cons] at hm
    rcases hm with rfl | hrest
    · exact Or.inl ⟨rfl, rfl⟩
    · exact Or.inr hrest

/-- The `Ok` arm: the user of the delivery is done, the others keep their messages. -/
theorem Traced.succeed {s : System} {userId : Uuid} (h : Traced format s userId)
    {d : Delivery Message} (hd : d ∈ s.broker.channel.outstanding) {deleted : Uuid}
    (hread : format.fromSlice d.msg.data = some deleted) (o : Outcome) :
    Traced format (s.succeed d deleted o) userId := by
  refine h.of_held ?_ (List.subset_append_left _ _)
  intro m hm hm_read
  rcases mem_held_tryAck hd o.ack hm with ⟨rfl, -⟩ | hrest
  · rw [hread] at hm_read
    obtain rfl := Option.some.inj hm_read
    exact Or.inr (List.mem_append_right _ (List.mem_singleton_self _))
  · exact Or.inl ⟨m, hrest, hm_read⟩

/-- The `Err` arm: the delivery stays, or its copy arrives, or its rows are gone after all. -/
theorem Traced.retry {s : System} (hs : Served format s) {userId : Uuid}
    (h : Traced format s userId) {d : Delivery Message} (hd : d ∈ s.broker.channel.outstanding)
    (hmsg : WellFormed format d.msg) {deleted : Uuid}
    (hread : format.fromSlice d.msg.data = some deleted) {o : Outcome}
    (hdrop : ¬ (o.delete.applied = false ∧ o.publish = false ∧ o.ack = true)) :
    Traced format (s.retry d deleted o) userId := by
  obtain ⟨key, m', hroute, hkey, -, hevent, -⟩ := hmsg.route
  have hdata : m'.data = d.msg.data := congrArg Prod.snd hevent
  have hdecl : (s.broker.tryAck d o.ack).IsDeclared key :=
    Broker.tryAck_isDeclared.mpr (hs.isDeclared hkey)
  rw [System.retry_eq s d deleted o hroute]
  refine h.of_held ?_ ?_
  · intro m hm hm_read
    rcases mem_held_tryAck hd o.ack hm with ⟨rfl, hack⟩ | hrest
    · rw [hread] at hm_read
      obtain rfl := Option.some.inj hm_read
      cases hpub : o.publish with
      | true =>
        refine Or.inl ⟨m', ?_, by rw [hdata, hread]⟩
        exact (Broker.mem_held_tryPublish hdecl).mpr (Or.inl ⟨rfl, rfl⟩)
      | false =>
        -- no copy arrives, so this is the `Err` of a `DELETE` that took effect
        have happlied : o.delete.applied = true := by
          by_contra hfalse
          exact hdrop ⟨by simpa using hfalse, hpub, hack⟩
        right
        simp [happlied]
    · refine Or.inl ⟨m, ?_, hm_read⟩
      exact (Broker.mem_held_tryPublish hdecl).mpr (Or.inr hrest)
  · change s.cascaded ⊆ if o.delete.applied then s.cascaded ++ [deleted] else s.cascaded
    split
    · exact List.subset_append_left _ _
    · exact List.Subset.refl _

/-- Every step of such a run keeps the answered deletions traced. -/
theorem Traced.step {s s' : System} (hs : Served format s)
    (h : ∀ userId ∈ s.answered, Traced format s userId) (a : Event) (hdrop : NoDrop s a)
    (hstep : s.step format a = some s') : ∀ userId ∈ s'.answered, Traced format s' userId := by
  cases a with
  | signup userId =>
    obtain rfl := Option.some.inj hstep
    exact fun u hu => (h u hu).of_subset (fun m hm => hm) rfl
  | deleteUser userId result =>
    obtain rfl := Option.some.inj hstep
    exact fun u hu => (h u hu).of_subset (fun m hm => hm) rfl
  | publishDeleted k carrier ok =>
    obtain ⟨userId, -, rfl⟩ := step_publishDeleted hstep
    obtain rfl : ok = true := hdrop
    intro u hu
    have hheld : (s.broker.publish "user_deleted_queue" (s.deletedEvent format userId carrier)).held =
        s.deletedEvent format userId carrier ::ₘ s.broker.held :=
      Broker.held_publish (hs.isDeclared (by decide)) _
    rcases List.mem_append.mp hu with hold | hnew
    · refine (h u hold).of_subset (fun m hm => ?_) rfl
      show m ∈ (s.broker.publish "user_deleted_queue" _).held
      rw [hheld]
      exact Multiset.mem_cons_of_mem hm
    · rw [List.mem_singleton.mp hnew]
      refine Or.inl ⟨s.deletedEvent format userId carrier, ?_, format.fromSlice_toJson userId⟩
      show _ ∈ (s.broker.publish "user_deleted_queue" _).held
      rw [hheld]
      exact Multiset.mem_cons_self _ _
  | deliver i =>
    obtain ⟨b, hb, rfl⟩ := Option.map_eq_some_iff.mp hstep
    exact fun u hu => (h u hu).of_subset (fun m hm => Broker.held_deliver hb ▸ hm) rfl
  | handle o =>
    obtain ⟨d, b, hnext, rfl⟩ := step_handle hstep
    obtain ⟨hs', hd, hmsg⟩ := hs.next hnext
    have h' : ∀ u ∈ s.answered, Traced format { s with broker := b } u :=
      fun u hu => (h u hu).of_subset (fun m hm => Broker.held_next hnext ▸ hm) rfl
    obtain ⟨userId, hread, ⟨-, hok⟩ | ⟨-, herr⟩⟩ := hmsg.handle_cases { s with broker := b } o
    · rw [hok]
      exact fun u hu => (h' u hu).succeed hd hread o
    · obtain ⟨key, m', hroute, -⟩ := hmsg.route
      have hanswered : (System.retry { s with broker := b } d userId o).answered = s.answered := by
        rw [System.retry_eq _ d userId o hroute]
      rw [herr]
      intro u hu
      exact Traced.retry hs' (h' u (hanswered ▸ hu)) hd hmsg hread hdrop
  | expire i =>
    obtain ⟨b, hb, rfl⟩ := Option.map_eq_some_iff.mp hstep
    have hheld := Broker.held_expire hb hs.deadLetter_declared
    exact fun u hu => (h u hu).of_subset (fun m hm => hheld ▸ hm) rfl
  | crash =>
    obtain rfl := Option.some.inj hstep
    exact fun u hu => (h u hu).of_subset (fun m hm => (Broker.held_recover s.broker) ▸ hm) rfl

/-- **Account deletion keeps its cascade**, in every run in which no publish of auth-service fails and no
delivery is acknowledged after its `DELETE` and its republish failed. -/
theorem answered_traced {as : List Event} {s : System}
    (hrun : Run (System.step format) NoDrop System.init as s) :
    ∀ userId ∈ s.answered, Traced format s userId := by
  have hboth : Served format s ∧ ∀ userId ∈ s.answered, Traced format s userId := by
    refine hrun.induct
      (I := fun s => Served format s ∧ ∀ userId ∈ s.answered, Traced format s userId) ?_ ?_
    · intro s a s' ⟨hs, h⟩ hdrop hstep
      exact ⟨hs.step a hstep, Traced.step hs h a hdrop hstep⟩
    · refine ⟨served_init, ?_⟩
      intro userId hu
      cases hu
  exact hboth.2

/-- A deletion whose event fails once, waits in the first retry queue and is retried. -/
theorem answered_traced_of_retry : ∃ s : System, 7 ∈ s.answered ∧ Traced jsonFormat s 7 := by
  obtain ⟨s, hrun, hs⟩ := exists_run_of_exec (System.step jsonFormat) NoDrop System.init
    [.signup 7, .deleteUser 7 .ok, .publishDeleted 0 [] true, .deliver 0,
      .handle ⟨.err, true, true⟩, .expire 0, .deliver 0]
    (fun s => 7 ∈ s.answered) (by decide)
  have hanswered : 7 ∈ s.answered := by simpa using hs
  exact ⟨s, hanswered, answered_traced hrun 7 hanswered⟩

/-- **A failed publish loses the cascade.** auth-service deletes the user, its publish returns an error
and it answers 204; no event is held and no row has been deleted. -/
theorem failed_publish_loses_cascade :
    ¬ ∀ (as : List Event) (s : System), Run (System.step jsonFormat) Any System.init as s →
      ∀ userId ∈ s.answered, Traced jsonFormat s userId := by
  obtain ⟨s, hrun, hs⟩ := exists_run_of_exec (System.step jsonFormat) Any System.init
    [.signup 7, .deleteUser 7 .ok, .publishDeleted 0 [] false]
    (fun s => 7 ∈ s.answered && s.broker.held.card = 0 && s.cascaded.isEmpty) (by decide)
  simp only [Bool.and_eq_true, decide_eq_true_eq, Multiset.card_eq_zero, List.isEmpty_iff] at hs
  obtain ⟨⟨hanswered, hheld⟩, hcascaded⟩ := hs
  intro hall
  rcases hall _ s hrun 7 hanswered with ⟨m, hm, -⟩ | hdone
  · rw [hheld] at hm
    exact Multiset.notMem_zero m hm
  · rw [hcascaded] at hdone
    cases hdone

end Bittuly.UserDeleted
