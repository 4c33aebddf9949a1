import Bittuly.Consumer.RetryProtocol

/-!
# Where a deletion comes from

References: `services/consumer-service/src/main.rs` (second spawned task),
`services/auth-service/src/handlers.rs` (`delete_user`), `libs/shared/src/rabbitmq.rs`
(`RabbitMqPublisher::publish`), `libs/shared/src/telemetry.rs` (`inject_context`, `extract_context`).

auth-service writes its trace context into the headers of an event, and the consumer reads the string
headers of a delivery back into a carrier. In between the event may go through the retry queues and the
dead letter queue, and each time it is a copy with another count. `cascade_requested` says that a copy
keeps the payload and the trace context of an event that auth-service published, and that no rows are
deleted but those of users whose deletion was answered.
-/

namespace Bittuly.UserDeleted

open Amqp Runs

/-- The consumer's `carrier`: the string headers of a delivery, as a map. -/
def carrier (m : Message) (key : String) : Option String :=
  match (m.headers.getD ∅).lookup key with
  | some (.LongString text) => some text
  | _ => none

/-- The carrier that `publish` wrote is read back; of a key that is there twice the later value. -/
theorem carrier_of_traceHeaders {m : Message} {kvs : List (String × String)}
    (h : m.headers = some (traceHeaders kvs)) (key : String) : carrier m key = kvs.reverse.lookup key := by
  rw [carrier, h, Option.getD_some]
  clear h
  induction kvs using List.reverseRecOn with
  | nil => rfl
  | append_singleton kvs kv ih =>
    have htable : traceHeaders (kvs ++ [kv]) = (traceHeaders kvs).insert kv.1 (.LongString kv.2) := by
      rw [traceHeaders, List.foldl_append]
      rfl
    rw [htable, List.reverse_append, List.reverse_singleton, List.singleton_append, List.lookup_cons]
    by_cases hkey : key = kv.1
    · subst hkey
      rw [AList.lookup_insert, beq_self_eq_true]
    · rw [AList.lookup_insert_ne hkey, ih, beq_eq_false_iff_ne.mpr hkey]

/-- A copy of an event: the payload is the same, and so is the trace context. -/
def CopyOf (m e : Message) : Prop :=
  m.event = e.event ∧ ∀ key ≠ "x-retry-count", carrier m key = carrier e key

theorem CopyOf.trans {m m' e : Message} (h : CopyOf m m') (h' : CopyOf m' e) : CopyOf m e :=
  ⟨h.1.trans h'.1, fun key hkey => (h.2 key hkey).trans (h'.2 key hkey)⟩

theorem copyOf_bumpRetry (m : Message) : CopyOf (bumpRetry m) m := by
  refine ⟨rfl, ?_⟩
  intro key hkey
  simp only [carrier, bumpRetry, Option.getD_some, AList.lookup_insert_ne hkey]

/-- What the failure path publishes is a copy. -/
theorem copyOf_route {m m' : Message} {key : String} (h : route m = some (key, m')) : CopyOf m' m := by
  unfold route at h
  split at h
  · obtain ⟨-, rfl⟩ := Prod.mk.inj (Option.some.inj h)
    exact ⟨rfl, fun key _ => rfl⟩
  · obtain ⟨delay, -, heq⟩ := Option.map_eq_some_iff.mp h
    obtain ⟨-, rfl⟩ := Prod.mk.inj heq
    exact copyOf_bumpRetry m

variable (format : EventFormat)

/-- The invariant: copies are of published events, events are of answered deletions, and the consumer has
deleted for nobody else. -/
structure Requested (s : System) : Prop where
  held : ∀ m ∈ s.broker.held, ∃ e ∈ s.events, CopyOf m e
  events : ∀ e ∈ s.events, (∃ u ∈ s.answered, e.data = format.toJson u) ∧
    ∃ kvs, e.headers = some (traceHeaders kvs)
  cascaded : ∀ u ∈ s.cascaded, u ∈ s.answered

variable {format}

namespace Requested

variable {s s' : System}

/-- The user of a copy has been answered. -/
theorem answered (h : Requested format s) {m : Message} (hm : m ∈ s.broker.held) :
    ∃ u ∈ s.answered, format.fromSlice m.data = some u := by
  obtain ⟨e, he, hcopy⟩ := h.held m hm
  obtain ⟨u, hu, hdata⟩ := (h.events e he).1
  have hsame : m.data = e.data := congrArg Prod.snd hcopy.1
  refine ⟨u, hu, ?_⟩
  rw [hsame, hdata]
  exact format.fromSlice_toJson u

/-- A step that publishes no event: messages it adds are copies, and it deletes for answered users. -/
theorem of_held (h : Requested format s) (hevents : s'.events = s.events)
    (hanswered : ∀ u ∈ s.answered, u ∈ s'.answered)
    (hheld : ∀ m ∈ s'.broker.held, ∃ m' ∈ s.broker.held, CopyOf m m')
    (hcascaded : ∀ u ∈ s'.cascaded, u ∈ s.answered) : Requested format s' where
  held := by
    intro m hm
    obtain ⟨m', hm', hcopy⟩ := hheld m hm
    obtain ⟨e, he, hcopy'⟩ := h.held m' hm'
    exact ⟨e, hevents ▸ he, hcopy.trans hcopy'⟩
  events := by
    intro e he
    obtain ⟨⟨u, hu, hdata⟩, hheaders⟩ := h.events e (hevents ▸ he)
    exact ⟨⟨u, hanswered u hu, hdata⟩, hheaders⟩
  cascaded u hu := hanswered u (hcascaded u hu)

/-- The broker's own steps. -/
theorem of_broker (h : Requested format s) {b : Broker Message} (hb : b.held = s.broker.held)
    (panicked : Bool) : Requested format { s with broker := b, panicked } :=
  h.of_held rfl (fun _ hu => hu) (fun m hm => ⟨m, hb ▸ hm, rfl, fun _ _ => rfl⟩) h.cascaded

theorem succeed (h : Requested format s) {d : Delivery Message}
    (hd : d ∈ s.broker.channel.outstanding) {userId : Uuid} (huser : userId ∈ s.answered) (o : Outcome) :
    Requested format (s.succeed d userId o) := by
  refine h.of_held rfl (fun _ hu => hu) ?_ ?_
  · intro m hm
    exact ⟨m, Broker.mem_held_of_tryAck hd hm, rfl, fun _ _ => rfl⟩
  · intro u hu
    rcases List.mem_append.mp hu with hold | hnew
    · exact h.cascaded u hold
    · rw [List.mem_singleton.mp hnew]
      exact huser

theorem retry (h : Requested format s) (hserved : Served format s) {d : Delivery Message}
    (hd : d ∈ s.broker.channel.outstanding) (hmsg : WellFormed format d.msg) {userId : Uuid}
    (huser : userId ∈ s.answered) (o : Outcome) : Requested format (s.retry d userId o) := by
  obtain ⟨key, m', hroute, hkey, -⟩ := hmsg.route
  have hdecl : (s.broker.tryAck d o.ack).IsDeclared key :=
    Broker.tryAck_isDeclared.mpr (hserved.isDeclared hkey)
  have hheld : d.msg ∈ s.broker.held := by
    rw [Broker.held_ack hd]
    exact Multiset.mem_cons_self _ _
  rw [System.retry_eq s d userId o hroute]
  refine h.of_held rfl (fun _ hu => hu) ?_ ?_
  · intro m hm
    rcases (Broker.mem_held_tryPublish hdecl).mp hm with ⟨-, rfl⟩ | hold
    · exact ⟨d.msg, hheld, copyOf_route hroute⟩
    · exact ⟨m, Broker.mem_held_of_tryAck hd hold, rfl, fun _ _ => rfl⟩
  · intro u hu
    change u ∈ if o.delete.applied then s.cascaded ++ [userId] else s.cascaded at hu
    split at hu
    · rcases List.mem_append.mp hu with hold | hnew
      · exact h.cascaded u hold
      · rw [List.mem_singleton.mp hnew]
        exact huser
    · exact h.cascaded u hu

theorem publish (h : Requested format s) (hserved : Served format s) (k : ℕ) (userId : Uuid)
    (kvs : List (String × String)) :
    Requested format { s with
      deleting := s.deleting.eraseIdx k
      answered := s.answered ++ [userId]
      broker := s.broker.publish "user_deleted_queue" (s.deletedEvent format userId kvs)
      events := s.events ++ [s.deletedEvent format userId kvs] } where
  held := by
    intro m hm
    have hm : m ∈ (s.broker.publish "user_deleted_queue" (s.deletedEvent format userId kvs)).held := hm
    rw [Broker.held_publish (hserved.isDeclared (by decide)), Multiset.mem_cons] at hm
    rcases hm with rfl | hold
    · exact ⟨_, List.mem_append_right _ (List.mem_singleton_self _), rfl, fun _ _ => rfl⟩
    · obtain ⟨e, he, hcopy⟩ := h.held m hold
      exact ⟨e, List.mem_append_left _ he, hcopy⟩
  events := by
    intro e he
    rcases List.mem_append.mp he with hold | hnew
    · obtain ⟨⟨u, hu, hdata⟩, hheaders⟩ := h.events e hold
      exact ⟨⟨u, List.mem_append_left _ hu, hdata⟩, hheaders⟩
    · rw [List.mem_singleton.mp hnew]
      exact ⟨⟨userId, List.mem_append_right _ (List.mem_singleton_self _), rfl⟩, kvs, rfl⟩
  cascaded u hu := List.mem_append_left _ (h.cascaded u hu)

/-- Every step keeps the invariant. -/
theorem step (h : Requested format s) (hserved : Served format s) (a : Event)
    (hstep : s.step format a = some s') : Requested format s' := by
  cases a with
  | signup userId =>
    obtain rfl := Option.some.inj hstep
    exact ⟨h.held, h.events, h.cascaded⟩
  | deleteUser userId result =>
    obtain rfl := Option.some.inj hstep
    exact ⟨h.held, h.events, h.cascaded⟩
  | publishDeleted k kvs ok =>
    obtain ⟨userId, -, rfl⟩ := step_publishDeleted hstep
    cases ok with
    | false =>
      exact h.of_held rfl (fun u hu => List.mem_append_left _ hu)
        (fun m hm => ⟨m, hm, rfl, fun _ _ => rfl⟩) h.cascaded
    | true => exact h.publish hserved k userId kvs
  | deliver i =>
    obtain ⟨b, hb, rfl⟩ := Option.map_eq_some_iff.mp hstep
    exact h.of_broker (Broker.held_deliver hb) s.panicked
  | handle o =>
    obtain ⟨d, b, hnext, rfl⟩ := step_handle hstep
    obtain ⟨hserved', hd, hmsg⟩ := hserved.next hnext
    have h' := h.of_broker (Broker.held_next hnext) s.panicked
    have hheld : d.msg ∈ b.held := by
      rw [Broker.held_ack hd]
      exact Multiset.mem_cons_self _ _
    obtain ⟨u, hu, hread'⟩ := h'.answered hheld
    obtain ⟨userId, hread, hcases⟩ := hmsg.handle_cases { s with broker := b } o
    obtain rfl := Option.some.inj (hread.symm.trans hread')
    rcases hcases with ⟨-, hok⟩ | ⟨-, herr⟩
    · rw [hok]
      exact h'.succeed hd hu o
    · rw [herr]
      exact h'.retry hserved' hd hmsg hu o
  | expire i =>
    obtain ⟨b, hb, rfl⟩ := Option.map_eq_some_iff.mp hstep
    exact h.of_broker (Broker.held_expire hb hserved.deadLetter_declared) s.panicked
  | crash =>
    obtain rfl := Option.some.inj hstep
    exact h.of_broker (Broker.held_recover s.broker) false

end Requested

theorem requested_init : Requested format System.init where
  held := by
    intro m hm
    simp [System.init] at hm
  events e he := absurd he List.not_mem_nil
  cascaded u hu := absurd hu List.not_mem_nil

/-- **Deletions come from answered requests.** In every run each message of the cascade, whatever queues it
went through, is a copy of an event that auth-service published: it has its payload, the consumer reads the
trace context from it that was written then, and it is for a user whose deletion was answered. The consumer
has deleted for no other user. -/
theorem cascade_requested {as : List Event} {s : System}
    (hrun : Run (System.step format) Any System.init as s) :
    (∀ m ∈ s.broker.held, ∃ e ∈ s.events, m.event = e.event ∧
      (∃ kvs, e.headers = some (traceHeaders kvs) ∧
        ∀ key ≠ "x-retry-count", carrier m key = kvs.reverse.lookup key) ∧
      ∃ u ∈ s.answered, format.fromSlice m.data = some u) ∧
    ∀ u ∈ s.cascaded, u ∈ s.answered := by
  have hstep : ∀ (s : System) a s', (Served format s ∧ Requested format s) → Any s a →
      s.step format a = some s' → Served format s' ∧ Requested format s' := by
    rintro s a s' ⟨hserved, h⟩ - hst
    exact ⟨hserved.step a hst, h.step hserved a hst⟩
  obtain ⟨-, h⟩ := hrun.induct hstep ⟨served_init, requested_init⟩
  refine ⟨?_, h.cascaded⟩
  intro m hm
  obtain ⟨e, he, hcopy⟩ := h.held m hm
  obtain ⟨kvs, hheaders⟩ := (h.events e he).2
  refine ⟨e, he, hcopy.1, ⟨kvs, hheaders, ?_⟩, h.answered hm⟩
  intro key hkey
  rw [hcopy.2 key hkey]
  exact carrier_of_traceHeaders hheaders key

/-- An event that has failed once waits in a retry queue, its trace context with it. -/
theorem cascade_requested_of_retry : ∃ s : System, s.failures 0 = 1 ∧ s.broker.held.card = 1 ∧
    (∀ m ∈ s.broker.held, ∃ e ∈ s.events, m.event = e.event ∧
      (∃ kvs, e.headers = some (traceHeaders kvs) ∧
        ∀ key ≠ "x-retry-count", carrier m key = kvs.reverse.lookup key) ∧
      ∃ u ∈ s.answered, jsonFormat.fromSlice m.data = some u) ∧
    ∀ u ∈ s.cascaded, u ∈ s.answered := by
  obtain ⟨s, hrun, hs⟩ := exists_run_of_exec (System.step jsonFormat) Any System.init
    [.signup 7, .deleteUser 7 .ok, .publishDeleted 0 [("traceparent", "00-1-2-01")] true,
      .deliver 0, .handle ⟨.err, true, true⟩]
    (fun s => s.failures 0 = 1 && s.broker.held.card = 1) (by decide)
  simp only [Bool.and_eq_true, decide_eq_true_eq] at hs
  exact ⟨s, hs.1, hs.2, cascade_requested hrun⟩

end Bittuly.UserDeleted
