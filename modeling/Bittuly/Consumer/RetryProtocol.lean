import Bittuly.Consumer.UserDeleted

/-!
# The retry protocol of user deletion events

`Served` holds in every run, whatever fails: the consumer keeps running, every message is readable and
was retried at most three times, so each one is routed to a declared queue. From it,
`event_kept_iff` says when the failure path drops an event, and `event_conserved` that in runs without
losses every event has exactly one copy and its retry count is the number of its failed attempts.

A publish or republish fails when its event does not reach the queue. The broker does not restart.
-/

namespace Bittuly.UserDeleted

open Amqp Runs

variable (format : EventFormat)

/-! ## What every run keeps -/

/-- A readable message, retried at most three times. -/
def WellFormed (m : Message) : Prop :=
  (∃ userId, format.fromSlice m.data = some userId) ∧ ∃ n ≤ 3, xRetryCount m = Int32.ofNat n

/-- The event a message is a copy of: its id and payload, which retries keep. -/
def Message.event (m : Message) : ℕ × ByteArray :=
  (m.id, m.data)

/-- The invariant of every run. -/
structure Served (s : System) : Prop where
  declared : s.broker.declared = declaredQueues
  consumed : s.broker.consumed = "user_deleted_queue"
  running : s.panicked = false
  wellFormed : ∀ m ∈ s.broker.held, WellFormed format m

variable {format}

/-- A well-formed message is routed to a declared queue other than the work queue, and the routed copy
is well formed. -/
theorem WellFormed.route {m : Message} (h : WellFormed format m) :
    ∃ key m', route m = some (key, m') ∧ key ∈ declaredQueues.map QueueDecl.name ∧
      key ≠ "user_deleted_queue" ∧ m'.event = m.event ∧ WellFormed format m' := by
  obtain ⟨hread, n, hn, hcount⟩ := h
  by_cases hlast : n = 3
  · subst hlast
    exact ⟨_, m, route_dlq hcount, by decide, by decide, rfl, hread, 3, hn, hcount⟩
  · have hlt : n < 3 := by omega
    obtain ⟨queue, hmem, hroute⟩ := route_retry hlt hcount
    obtain ⟨hdecl, hne, -⟩ := retryQueues_declared hmem
    refine ⟨queue, bumpRetry m, hroute, hdecl, hne, rfl, hread, n + 1, hlt, ?_⟩
    rw [xRetryCount_bumpRetry, hcount]
    interval_cases n <;> decide

namespace Served

variable {s s' : System}

theorem isDeclared (h : Served format s) {key : String}
    (hkey : key ∈ declaredQueues.map QueueDecl.name) : s.broker.IsDeclared key := by
  rw [Broker.IsDeclared, h.declared]
  exact hkey

/-- Every dead-letter target is declared. -/
theorem deadLetter_declared (h : Served format s) (queue : String) (dl : DeadLetter)
    (hdl : s.broker.deadLetter queue = some dl) : s.broker.IsDeclared dl.routingKey := by
  rw [deadLetter_routingKey h.declared hdl]
  exact h.isDeclared (by decide)

/-- What is left to show of a step: the broker's names are the same, the task runs, and every message
was held before or is well formed. -/
theorem of_held (h : Served format s) (hdecl : s'.broker.declared = s.broker.declared)
    (hconsumed : s'.broker.consumed = s.broker.consumed) (hrun : s'.panicked = false)
    (hheld : ∀ m ∈ s'.broker.held, m ∈ s.broker.held ∨ WellFormed format m) : Served format s' where
  declared := hdecl.trans h.declared
  consumed := hconsumed.trans h.consumed
  running := hrun
  wellFormed := by
    intro m hm
    rcases hheld m hm with hold | hnew
    · exact h.wellFormed m hold
    · exact hnew

/-- The consumer's next delivery is a well-formed message the broker holds. -/
theorem next (h : Served format s) {d : Delivery Message} {b : Broker Message}
    (hnext : s.broker.next = some (d, b)) :
    Served format { s with broker := b } ∧ d ∈ b.channel.outstanding ∧ WellFormed format d.msg := by
  have hd := Broker.next_mem_outstanding hnext
  have hheld := Broker.held_next hnext
  obtain ⟨hdecl, hconsumed⟩ := Broker.next_declared hnext
  have hserved : Served format { s with broker := b } :=
    h.of_held hdecl hconsumed h.running fun m hm => Or.inl (hheld ▸ hm)
  refine ⟨hserved, hd, hserved.wellFormed d.msg ?_⟩
  show d.msg ∈ b.held
  rw [Broker.held_ack hd]
  exact Multiset.mem_cons_self _ _

/-- The `Ok` arm keeps the invariant. -/
theorem succeed (h : Served format s) {d : Delivery Message}
    (hd : d ∈ s.broker.channel.outstanding) (userId : Uuid) (o : Outcome) :
    Served format (s.succeed d userId o) := by
  refine h.of_held (Broker.tryAck_declared _ _ _) (Broker.tryAck_consumed _ _ _) h.running ?_
  intro m hm
  exact Or.inl (Broker.mem_held_of_tryAck hd hm)

/-- The `Err` arm keeps the invariant. -/
theorem retry (h : Served format s) {d : Delivery Message}
    (hd : d ∈ s.broker.channel.outstanding) (hmsg : WellFormed format d.msg) (userId : Uuid)
    (o : Outcome) : Served format (s.retry d userId o) := by
  obtain ⟨key, m', hroute, hkey, -, -, hm'⟩ := hmsg.route
  rw [System.retry_eq s d userId o hroute]
  refine h.of_held ?_ ?_ h.running ?_
  · rw [Broker.tryPublish_declared, Broker.tryAck_declared]
  · rw [Broker.tryPublish_consumed, Broker.tryAck_consumed]
  · intro m hm
    have hdecl : (s.broker.tryAck d o.ack).IsDeclared key :=
      Broker.tryAck_isDeclared.mpr (h.isDeclared hkey)
    -- the only new message is the routed copy, if it arrives
    rcases (Broker.mem_held_tryPublish hdecl).mp hm with ⟨-, rfl⟩ | hold
    · exact Or.inr hm'
    · exact Or.inl (Broker.mem_held_of_tryAck hd hold)

/-- Publishing an event keeps the invariant. -/
theorem publish (h : Served format s) (userId : Uuid) (carrier : List (String × String)) :
    Served format { s with
      broker := s.broker.publish "user_deleted_queue" (s.deletedEvent format userId carrier) } := by
  refine h.of_held (Broker.publish_declared _ _ _) (Broker.publish_consumed _ _ _) h.running ?_
  intro m hm
  rw [Broker.held_publish (h.isDeclared (by decide)), Multiset.mem_cons] at hm
  rcases hm with rfl | hold
  · exact Or.inr ⟨⟨userId, format.fromSlice_toJson userId⟩, 0, by decide,
      xRetryCount_traceHeaders _ _ _⟩
  · exact Or.inl hold

end Served

/-- Handling a readable delivery takes the `Ok` arm or the `Err` arm. -/
theorem WellFormed.handle_cases {d : Delivery Message} (hmsg : WellFormed format d.msg) (s : System)
    (o : Outcome) :
    ∃ userId, format.fromSlice d.msg.data = some userId ∧
      (o.delete = .ok ∧ s.handle format d o = s.succeed d userId o ∨
        o.delete ≠ .ok ∧ s.handle format d o = s.retry d userId o) := by
  obtain ⟨⟨userId, hread⟩, -⟩ := hmsg
  refine ⟨userId, hread, ?_⟩
  by_cases hdelete : o.delete = .ok
  · exact Or.inl ⟨hdelete, by rw [System.handle, hread]; simp only [hdelete, if_true]⟩
  · exact Or.inr ⟨hdelete, by rw [System.handle, hread]; simp only [hdelete, if_false]⟩

/-- What a `handle` step is. -/
theorem step_handle {s s' : System} {o : Outcome} (hstep : s.step format (.handle o) = some s') :
    ∃ d b, s.broker.next = some (d, b) ∧ s' = { s with broker := b }.handle format d o := by
  simp only [System.step] at hstep
  split at hstep
  · cases hstep
  · obtain ⟨⟨d, b⟩, hnext, rfl⟩ := Option.map_eq_some_iff.mp hstep
    exact ⟨d, b, hnext, rfl⟩

/-- What a `publishDeleted` step is. -/
theorem step_publishDeleted {s s' : System} {k : ℕ} {carrier : List (String × String)} {ok : Bool}
    (hstep : s.step format (.publishDeleted k carrier ok) = some s') :
    ∃ userId, s.deleting[k]? = some userId ∧
      s' = (let t := { s with
              deleting := s.deleting.eraseIdx k
              answered := s.answered ++ [userId] }
            if ok then
              { t with
                broker := s.broker.publish "user_deleted_queue" (s.deletedEvent format userId carrier)
                events := s.events ++ [s.deletedEvent format userId carrier] }
            else t) := by
  obtain ⟨userId, hk, rfl⟩ := Option.map_eq_some_iff.mp hstep
  exact ⟨userId, hk, rfl⟩

/-- Every step keeps the invariant. -/
theorem Served.step {s s' : System} (h : Served format s) (a : Event)
    (hstep : s.step format a = some s') : Served format s' := by
  cases a with
  | signup userId =>
    obtain rfl := Option.some.inj hstep
    exact h.of_held rfl rfl h.running fun m hm => Or.inl hm
  | deleteUser userId result =>
    obtain rfl := Option.some.inj hstep
    exact h.of_held rfl rfl h.running fun m hm => Or.inl hm
  | publishDeleted k carrier ok =>
    obtain ⟨userId, -, rfl⟩ := step_publishDeleted hstep
    cases ok with
    | false => exact h.of_held rfl rfl h.running fun m hm => Or.inl hm
    | true =>
      have hpub := h.publish userId carrier
      exact hpub.of_held rfl rfl hpub.running fun m hm => Or.inl hm
  | deliver i =>
    obtain ⟨b, hb, rfl⟩ := Option.map_eq_some_iff.mp hstep
    obtain ⟨hdecl, hconsumed⟩ := Broker.deliver_declared hb
    exact h.of_held hdecl hconsumed h.running fun m hm => Or.inl (Broker.held_deliver hb ▸ hm)
  | handle o =>
    obtain ⟨d, b, hnext, rfl⟩ := step_handle hstep
    obtain ⟨hserved, hd, hmsg⟩ := h.next hnext
    obtain ⟨userId, -, ⟨-, hok⟩ | ⟨-, herr⟩⟩ := hmsg.handle_cases { s with broker := b } o
    · rw [hok]
      exact hserved.succeed hd userId o
    · rw [herr]
      exact hserved.retry hd hmsg userId o
  | expire i =>
    obtain ⟨b, hb, rfl⟩ := Option.map_eq_some_iff.mp hstep
    obtain ⟨hdecl, hconsumed⟩ := Broker.expire_declared hb
    refine h.of_held hdecl hconsumed h.running fun m hm => Or.inl ?_
    rw [← Broker.held_expire hb h.deadLetter_declared]
    exact hm
  | crash =>
    obtain rfl := Option.some.inj hstep
    refine h.of_held rfl rfl rfl fun m hm => Or.inl ?_
    rw [← Broker.held_recover]
    exact hm

theorem served_init : Served format System.init where
  declared := rfl
  consumed := rfl
  running := rfl
  wellFormed := by
    intro m hm
    simp [System.init] at hm

/-- The invariant holds in every run, under any condition. -/
theorem served_of_run {P : System → Event → Prop} {as : List Event} {s : System}
    (hrun : Run (System.step format) P System.init as s) : Served format s :=
  hrun.induct (fun _ a _ h _ hstep => Served.step h a hstep) served_init

/-! ## The failure path -/

/-- A copy of an event is left beside the current delivery when the event has another copy. -/
theorem exists_copy_after_ack_iff {b : Broker Message} {d : Delivery Message}
    (hd : d ∈ b.channel.outstanding) :
    (∃ m ∈ (b.ack d).held, m.event = d.msg.event) ↔
      (b.held.map Message.event).count d.msg.event ≠ 1 := by
  have hcount : (b.held.map Message.event).count d.msg.event =
      ((b.ack d).held.map Message.event).count d.msg.event + 1 := by
    rw [Broker.held_ack hd, Multiset.map_cons, Multiset.count_cons_self]
  have hmem : (∃ m ∈ (b.ack d).held, m.event = d.msg.event) ↔
      0 < ((b.ack d).held.map Message.event).count d.msg.event := by
    rw [Multiset.count_pos, Multiset.mem_map]
  rw [hmem, hcount]
  omega

/-- **When the failure path keeps the event.** Of a delivery whose `DELETE` failed a copy is left at the
broker, unless the republish was lost, the acknowledgement was not, and there was no other copy. -/
theorem event_kept_iff {as : List Event} {s s' : System} {d : Delivery Message} {b : Broker Message}
    {o : Outcome} (hrun : Run (System.step format) Any System.init as s)
    (hnext : s.broker.next = some (d, b)) (hstep : s.step format (.handle o) = some s') :
    (o.delete.applied = false → ∃ m ∈ s'.broker.held, m.event = d.msg.event) ↔
      ¬ (o.delete.applied = false ∧ o.publish = false ∧ o.ack = true ∧
        (s.broker.held.map Message.event).count d.msg.event = 1) := by
  obtain ⟨e, c, hnext', rfl⟩ := step_handle hstep
  obtain ⟨rfl, rfl⟩ : e = d ∧ c = b := by
    rw [hnext] at hnext'
    simpa [eq_comm] using hnext'
  obtain ⟨hserved, hd, hmsg⟩ := (served_of_run hrun).next hnext
  rw [← Broker.held_next hnext]
  cases hdelete : o.delete.applied with
  | true => simp
  | false =>
    have herr : o.delete ≠ .ok := by
      intro hok
      rw [hok] at hdelete
      cases hdelete
    obtain ⟨userId, -, ⟨hok, -⟩ | ⟨-, hhandle⟩⟩ := hmsg.handle_cases { s with broker := c } o
    · exact absurd hok herr
    obtain ⟨key, m', hroute, hkey, -, hevent, -⟩ := hmsg.route
    rw [hhandle, System.retry_eq _ e userId o hroute]
    simp only [true_and, true_implies]
    have hdecl : (c.tryAck e o.ack).IsDeclared key :=
      Broker.tryAck_isDeclared.mpr (hserved.isDeclared hkey)
    cases hpub : o.publish with
    | true =>
      -- the republished copy is held
      refine iff_of_true ⟨m', ?_, hevent⟩ (by simp)
      exact (Broker.mem_held_tryPublish hdecl).mpr (Or.inl ⟨rfl, rfl⟩)
    | false =>
      cases hack : o.ack with
      | true =>
        have hcopy := exists_copy_after_ack_iff hd
        simpa [Broker.tryPublish, Broker.tryAck] using hcopy
      | false =>
        -- the delivery itself stays unacknowledged
        have hold : e.msg ∈ c.held := by
          rw [Broker.held_ack hd]
          exact Multiset.mem_cons_self _ _
        exact iff_of_true ⟨e.msg, hold, rfl⟩ (by simp)

/-- A failed `DELETE` whose republish arrives. -/
theorem event_kept_iff_of_republish :
    ∃ (s s' : System) (d : Delivery Message) (b : Broker Message), s.broker.next = some (d, b) ∧
      s.step jsonFormat (.handle ⟨.err, true, true⟩) = some s' ∧
      ∃ m ∈ s'.broker.held, m.event = d.msg.event := by
  obtain ⟨s, hrun, hs⟩ := exists_run_of_exec (System.step jsonFormat) Any System.init
    [.signup 7, .deleteUser 7 .ok, .publishDeleted 0 [] true, .deliver 0]
    (fun s => s.broker.next.isSome && (s.step jsonFormat (.handle ⟨.err, true, true⟩)).isSome)
    (by decide)
  simp only [Bool.and_eq_true, Option.isSome_iff_exists] at hs
  obtain ⟨⟨⟨d, b⟩, hnext⟩, s', hstep⟩ := hs
  exact ⟨s, s', d, b, hnext, hstep, (event_kept_iff hrun hnext hstep).mpr (by simp) rfl⟩

/-- A failed `DELETE` and a failed republish, acknowledged: the broker holds nothing any more. -/
theorem failed_republish_drops_event :
    ∃ s d b s', Run (System.step jsonFormat) Any System.init
        [.signup 7, .deleteUser 7 .ok, .publishDeleted 0 [] true, .deliver 0] s ∧
      s.broker.next = some (d, b) ∧ s.step jsonFormat (.handle ⟨.err, false, true⟩) = some s' ∧
      ¬ ∃ m ∈ s'.broker.held, m.event = d.msg.event := by
  obtain ⟨s, hrun, hs⟩ := exists_run_of_exec (System.step jsonFormat) Any System.init
    [.signup 7, .deleteUser 7 .ok, .publishDeleted 0 [] true, .deliver 0]
    (fun s => s.broker.next.isSome && (s.step jsonFormat (.handle ⟨.err, false, true⟩)).any
      fun s' => s'.broker.held.card = 0) (by decide)
  simp only [Bool.and_eq_true, Option.isSome_iff_exists, Option.any_eq_true, decide_eq_true_eq,
    Multiset.card_eq_zero] at hs
  obtain ⟨⟨⟨d, b⟩, hnext⟩, s', hstep, hheld⟩ := hs
  refine ⟨s, d, b, s', hrun, hnext, hstep, ?_⟩
  rintro ⟨m, hm, -⟩
  rw [hheld] at hm
  exact Multiset.notMem_zero m hm

/-! ## Runs without losses -/

/-- The consumer's publishes and acknowledgements arrive, and it does not crash. -/
def NoLoss (_ : System) : Event → Prop
  | .handle o => o.publish = true ∧ o.ack = true
  | .crash => False
  | _ => True

instance (s : System) : DecidablePred (NoLoss s)
  | .handle o => inferInstanceAs (Decidable (o.publish = true ∧ o.ack = true))
  | .crash => inferInstanceAs (Decidable False)
  | .signup _ | .deleteUser _ _ | .publishDeleted _ _ _ | .deliver _ | .expire _ =>
    inferInstanceAs (Decidable True)

/-- Where a message that is still being tried can be. -/
def livePlaces : List Place :=
  .ready :: .unacked :: retryQueues.map .stored

/-- A message still being tried: every attempt failed, and its retry count says how many. -/
def Live (s : System) (m : Message) : Prop :=
  s.failures m.id ≤ 3 ∧ s.attempts m.id = s.failures m.id ∧
    xRetryCount m = Int32.ofNat (s.failures m.id)

/-- A message in the dead letter queue: four failures, the last of which left its count at 3. -/
def Dead (s : System) (m : Message) : Prop :=
  s.failures m.id = 4 ∧ s.attempts m.id = 4 ∧ xRetryCount m = Int32.ofNat 3

/-- A completed message: the attempt after its failures succeeded. -/
def Done (s : System) (m : Message) : Prop :=
  s.failures m.id ≤ 3 ∧ s.attempts m.id = s.failures m.id + 1 ∧
    xRetryCount m = Int32.ofNat (s.failures m.id)

/-- A message in a place it can be in. -/
def Placed (s : System) (p : Place × Message) : Prop :=
  p.1 ∈ livePlaces ∧ Live s p.2 ∨ p.1 = .stored "user_deleted_dlq" ∧ Dead s p.2

/-- The invariant of runs without losses. -/
structure Conserving (s : System) : Prop where
  ids : s.events.map Message.id = List.range s.events.length
  conserved : (s.broker.held + (s.completed : Multiset Message)).map Message.event =
    (s.events.map Message.event : List (ℕ × ByteArray))
  placed : ∀ p ∈ s.broker.holdings, Placed s p
  done : ∀ m ∈ s.completed, Done s m
  fresh : ∀ id, s.events.length ≤ id → s.failures id = 0 ∧ s.attempts id = 0
  routed : ∀ key ∈ s.routedTo, key ∈ declaredQueues.map QueueDecl.name

/-- `Placed` reads the counters of its own event. -/
theorem Placed.congr {s s' : System} {p : Place × Message} (h : Placed s p)
    (hf : s'.failures p.2.id = s.failures p.2.id) (ha : s'.attempts p.2.id = s.attempts p.2.id) :
    Placed s' p := by
  unfold Placed Live Dead at *
  rw [hf, ha]
  exact h

theorem Done.congr {s s' : System} {m : Message} (h : Done s m)
    (hf : s'.failures m.id = s.failures m.id) (ha : s'.attempts m.id = s.attempts m.id) :
    Done s' m := by
  unfold Done at *
  rw [hf, ha]
  exact h

/-- An unacknowledged message is still being tried. -/
theorem Placed.live {s : System} {place : Place} {m : Message} (h : Placed s (place, m))
    (hne : place ≠ .stored "user_deleted_dlq") : Live s m := by
  rcases h with ⟨-, hlive⟩ | ⟨hdlq, -⟩
  · exact hlive
  · exact absurd hdlq hne

/-- Routing a message whose attempt has just failed puts its copy where it belongs. -/
theorem Live.route {s : System} {m : Message} (h : Live s m) (s' : System)
    (hf : s'.failures m.id = s.failures m.id + 1) (ha : s'.attempts m.id = s.attempts m.id + 1) :
    ∃ key m', route m = some (key, m') ∧ key ∈ declaredQueues.map QueueDecl.name ∧
      key ≠ "user_deleted_queue" ∧ m'.event = m.event ∧ Placed s' (.stored key, m') := by
  obtain ⟨hle, hattempts, hcount⟩ := h
  by_cases hlast : s.failures m.id = 3
  · rw [hlast] at hcount
    refine ⟨_, m, route_dlq hcount, by decide, by decide, rfl, Or.inr ⟨rfl, ?_, ?_, hcount⟩⟩
    · rw [hf, hlast]
    · rw [ha, hattempts, hlast]
  · have hlt : s.failures m.id < 3 := by omega
    obtain ⟨queue, hmem, hroute⟩ := route_retry hlt hcount
    obtain ⟨hdecl, hne, -⟩ := retryQueues_declared hmem
    have hplace : Place.stored queue ∈ livePlaces :=
      List.mem_cons_of_mem _ (List.mem_cons_of_mem _ (List.mem_map_of_mem hmem))
    refine ⟨queue, bumpRetry m, hroute, hdecl, hne, rfl, Or.inl ⟨hplace, ?_, ?_, ?_⟩⟩
    · rw [bumpRetry_id, hf]
      omega
    · rw [bumpRetry_id, ha, hf, hattempts]
    · rw [xRetryCount_bumpRetry, bumpRetry_id, hf, hcount, Int32.ofNat_add]
      rfl

namespace Conserving

variable {s s' : System}

/-- The copies of the protocol carry the ids of the published events. -/
theorem map_id (h : Conserving s) :
    (s.broker.held + (s.completed : Multiset Message)).map Message.id =
      (List.range s.events.length : Multiset ℕ) := by
  have hfst := congrArg (Multiset.map Prod.fst) h.conserved
  rw [Multiset.map_map, Multiset.map_coe, List.map_map] at hfst
  have hids : (s.broker.held + (s.completed : Multiset Message)).map Message.id =
      (s.events.map Message.id : List ℕ) := hfst
  rw [hids, h.ids]

/-- Every copy is one of a published event. -/
theorem exists_event (h : Conserving s) {m : Message}
    (hm : m ∈ s.broker.held + (s.completed : Multiset Message)) :
    ∃ e ∈ s.events, e.event = m.event := by
  have hmem := Multiset.mem_map_of_mem Message.event hm
  rw [h.conserved, Multiset.mem_coe] at hmem
  exact List.mem_map.mp hmem

theorem id_lt_of_mem_events (h : Conserving s) {e : Message} (he : e ∈ s.events) :
    e.id < s.events.length := by
  have hmem := List.mem_map_of_mem (f := Message.id) he
  rw [h.ids, List.mem_range] at hmem
  exact hmem

/-- No other copy shares the id of an outstanding delivery. -/
theorem others (h : Conserving s) {d : Delivery Message}
    (hd : d ∈ s.broker.channel.outstanding) :
    d.msg.id < s.events.length ∧
      (∀ p ∈ (s.broker.ack d).holdings, p.2.id ≠ d.msg.id) ∧
      ∀ m ∈ s.completed, m.id ≠ d.msg.id := by
  have hsplit := Broker.held_ack hd
  have hnodup : ((s.broker.held + (s.completed : Multiset Message)).map Message.id).Nodup := by
    rw [h.map_id, Multiset.coe_nodup]
    exact List.nodup_range
  rw [hsplit, Multiset.cons_add, Multiset.map_cons, Multiset.nodup_cons] at hnodup
  -- ids are distinct over all copies, and the delivery is one of them
  have hne : ∀ m ∈ (s.broker.ack d).held + (s.completed : Multiset Message), m.id ≠ d.msg.id := by
    intro m hm heq
    exact hnodup.1 (heq ▸ Multiset.mem_map_of_mem Message.id hm)
  refine ⟨?_, ?_, ?_⟩
  · have hmem : d.msg ∈ s.broker.held + (s.completed : Multiset Message) := by
      rw [hsplit, Multiset.cons_add]
      exact Multiset.mem_cons_self _ _
    obtain ⟨e, he, hevent⟩ := h.exists_event hmem
    have hid : e.id = d.msg.id := congrArg Prod.fst hevent
    rw [← hid]
    exact h.id_lt_of_mem_events he
  · intro p hp
    exact hne p.2 (Multiset.mem_add.mpr (Or.inl (Broker.mem_held_of_mem_holdings hp)))
  · intro m hm
    exact hne m (Multiset.mem_add.mpr (Or.inr hm))

/-- Counters of an event other than the handled one are the same. -/
theorem placed_of_ne (h : Conserving s) (s' : System) {d : Delivery Message}
    (hd : d ∈ s.broker.channel.outstanding)
    (hf : ∀ id, id ≠ d.msg.id → s'.failures id = s.failures id)
    (ha : ∀ id, id ≠ d.msg.id → s'.attempts id = s.attempts id) :
    (∀ p ∈ (s.broker.ack d).holdings, Placed s' p) ∧ ∀ m ∈ s.completed, Done s' m := by
  obtain ⟨-, hheld, hcompleted⟩ := h.others hd
  constructor
  · intro p hp
    have hold : p ∈ s.broker.holdings := by
      rw [Broker.holdings_ack hd]
      exact Multiset.mem_cons_of_mem hp
    exact (h.placed p hold).congr (hf _ (hheld p hp)) (ha _ (hheld p hp))
  · intro m hm
    exact (h.done m hm).congr (hf _ (hcompleted m hm)) (ha _ (hcompleted m hm))

/-- The unacknowledged delivery is still being tried. -/
theorem live_of_outstanding (h : Conserving s) {d : Delivery Message}
    (hd : d ∈ s.broker.channel.outstanding) : Live s d.msg := by
  have hmem : (Place.unacked, d.msg) ∈ s.broker.holdings := by
    rw [Broker.holdings_ack hd]
    exact Multiset.mem_cons_self _ _
  exact (h.placed _ hmem).live (by decide)

/-- The `Ok` arm, acknowledged: the delivery is completed. -/
theorem succeed (h : Conserving s) {d : Delivery Message} (hd : d ∈ s.broker.channel.outstanding)
    (userId : Uuid) {o : Outcome} (hack : o.ack = true) : Conserving (s.succeed d userId o) := by
  obtain ⟨hlt, hheld, hcompleted⟩ := h.others hd
  obtain ⟨hle, hattempts, hcount⟩ := h.live_of_outstanding hd
  rw [System.succeed, hack]
  simp only [System.ack, Broker.tryAck, if_true]
  have hother := h.placed_of_ne { s with
      attempts := Function.update s.attempts d.msg.id (s.attempts d.msg.id + 1) } hd
    (fun id _ => rfl) (fun id hne => Function.update_of_ne hne _ _)
  refine ⟨h.ids, ?_, hother.1, ?_, ?_, h.routed⟩
  · -- the acknowledged message moves to the completed ones
    show ((s.broker.ack d).held + ((s.completed ++ [d.msg] : List Message) : Multiset Message)).map
      Message.event = _
    rw [← h.conserved, Broker.held_ack hd, ← Multiset.coe_add, Multiset.coe_singleton,
      ← add_assoc, Multiset.cons_add, ← Multiset.singleton_add, add_comm]
  · intro m hm
    rcases List.mem_append.mp hm with hold | hnew
    · exact hother.2 m hold
    · rw [List.mem_singleton.mp hnew]
      refine ⟨hle, ?_, hcount⟩
      show Function.update s.attempts d.msg.id (s.attempts d.msg.id + 1) d.msg.id = _
      rw [Function.update_self, hattempts]
  · intro id hid
    obtain ⟨hf, ha⟩ := h.fresh id hid
    refine ⟨hf, ?_⟩
    show Function.update s.attempts d.msg.id (s.attempts d.msg.id + 1) id = 0
    have hid' : s.events.length ≤ id := hid
    rw [Function.update_of_ne (by omega), ha]

/-- The `Err` arm, published and acknowledged: the delivery is replaced by its routed copy. -/
theorem retry (h : Conserving s) (hserved : Served format s) {d : Delivery Message}
    (hd : d ∈ s.broker.channel.outstanding) (userId : Uuid) {o : Outcome}
    (hpub : o.publish = true) (hack : o.ack = true) : Conserving (s.retry d userId o) := by
  obtain ⟨hlt, -, -⟩ := h.others hd
  have hlive := h.live_of_outstanding hd
  have hroutes := hlive.route { s with
      attempts := Function.update s.attempts d.msg.id (s.attempts d.msg.id + 1)
      failures := Function.update s.failures d.msg.id (s.failures d.msg.id + 1) }
    (Function.update_self _ _ _) (Function.update_self _ _ _)
  obtain ⟨key, m', hroute, hkey, hne, hevent, hplaced⟩ := hroutes
  rw [System.retry_eq s d userId o hroute, hpub, hack]
  simp only [Broker.tryAck, Broker.tryPublish, if_true]
  have hother := h.placed_of_ne { s with
      attempts := Function.update s.attempts d.msg.id (s.attempts d.msg.id + 1)
      failures := Function.update s.failures d.msg.id (s.failures d.msg.id + 1) } hd
    (fun id hid => Function.update_of_ne hid _ _) (fun id hid => Function.update_of_ne hid _ _)
  have hdecl : (s.broker.ack d).IsDeclared key := hserved.isDeclared hkey
  have hne' : key ≠ (s.broker.ack d).consumed := by
    rw [Broker.ack_consumed, hserved.consumed]
    exact hne
  refine ⟨h.ids, ?_, ?_, hother.2, ?_, ?_⟩
  · -- one copy leaves, one of the same event comes
    show (((s.broker.ack d).publish key m').held + (s.completed : Multiset Message)).map
      Message.event = _
    rw [← h.conserved, Broker.held_publish hdecl, Broker.held_ack hd, Multiset.cons_add,
      Multiset.cons_add, Multiset.map_cons, Multiset.map_cons, hevent]
  · intro p hp
    change p ∈ ((s.broker.ack d).publish key m').holdings at hp
    rw [Broker.holdings_publish_stored hne' hdecl, Multiset.mem_cons] at hp
    rcases hp with rfl | hold
    · exact hplaced
    · exact hother.1 p hold
  · intro id hid
    have hid' : s.events.length ≤ id := hid
    obtain ⟨hf, ha⟩ := h.fresh id hid'
    have hidne : id ≠ d.msg.id := by omega
    exact ⟨(Function.update_of_ne hidne _ _).trans hf, (Function.update_of_ne hidne _ _).trans ha⟩
  · intro key' hkey'
    rcases List.mem_append.mp hkey' with hold | hnew
    · exact h.routed key' hold
    · rw [List.mem_singleton.mp hnew]
      exact hkey

/-- auth-service publishes an event: one copy in the work queue, not attempted. -/
theorem publish (h : Conserving s) (hserved : Served format s) (userId : Uuid)
    (carrier : List (String × String)) :
    Conserving { s with
      broker := s.broker.publish "user_deleted_queue" (s.deletedEvent format userId carrier)
      events := s.events ++ [s.deletedEvent format userId carrier] } := by
  set m := s.deletedEvent format userId carrier with hm
  have hid : m.id = s.events.length := rfl
  obtain ⟨hfail, hattempt⟩ := h.fresh m.id (by omega)
  refine ⟨?_, ?_, ?_, h.done, ?_, h.routed⟩
  · change (s.events ++ [m]).map Message.id = List.range (s.events ++ [m]).length
    rw [List.map_append, h.ids, List.length_append, List.length_singleton, List.range_succ]
    rfl
  · change ((s.broker.publish "user_deleted_queue" m).held + (s.completed : Multiset Message)).map
      Message.event = ((s.events ++ [m]).map Message.event : List _)
    rw [Broker.held_publish (hserved.isDeclared (by decide)), Multiset.cons_add, Multiset.map_cons,
      h.conserved, List.map_append, ← Multiset.coe_add, add_comm]
    rfl
  · intro p hp
    change p ∈ (s.broker.publish "user_deleted_queue" m).holdings at hp
    rw [← hserved.consumed, Broker.holdings_publish_consumed, Multiset.mem_cons] at hp
    rcases hp with rfl | hold
    · refine Or.inl ⟨List.mem_cons_self, ?_, ?_, ?_⟩
      · change s.failures m.id ≤ 3
        omega
      · change s.attempts m.id = s.failures m.id
        omega
      · change xRetryCount m = Int32.ofNat (s.failures m.id)
        rw [hfail]
        exact xRetryCount_traceHeaders _ _ _
    · exact h.placed p hold
  · intro id hid'
    have hlen : s.events.length + 1 ≤ id := by simpa using hid'
    exact h.fresh id (by omega)

/-- A push keeps the invariant. -/
theorem deliver (h : Conserving s) {i : ℕ} {b : Broker Message} (hb : s.broker.deliver i = some b) :
    Conserving { s with broker := b } := by
  obtain ⟨m, H, hold, hnew⟩ := Broker.holdings_deliver hb
  refine ⟨h.ids, ?_, ?_, h.done, h.fresh, h.routed⟩
  · change (b.held + (s.completed : Multiset Message)).map Message.event = _
    rw [Broker.held_deliver hb]
    exact h.conserved
  · intro p hp
    change p ∈ b.holdings at hp
    rw [hnew, Multiset.mem_cons] at hp
    rcases hp with rfl | hrest
    · have hready : Placed s (.ready, m) := h.placed _ (hold ▸ Multiset.mem_cons_self _ _)
      have hunacked : Place.unacked ∈ livePlaces := by decide
      exact Or.inl ⟨hunacked, hready.live (by decide)⟩
    · exact h.placed p (hold ▸ Multiset.mem_cons_of_mem hrest)

/-- An expiry brings a retried event back to the work queue. -/
theorem expire (h : Conserving s) (hserved : Served format s) {i : ℕ} {b : Broker Message}
    (hb : s.broker.expire i = some b) : Conserving { s with broker := b } := by
  have hheld := Broker.held_expire hb hserved.deadLetter_declared
  obtain ⟨queue, m, dl, hdl, rfl, hold⟩ := Broker.holdings_expire hb
  have hqueue : queue ≠ "user_deleted_dlq" := by
    -- the dead letter queue has no dead-letter target of its own
    rintro rfl
    have hnone : (declaredQueues.find? fun q => q.name = "user_deleted_dlq").bind
      QueueDecl.deadLetter = none := by decide
    rw [Broker.deadLetter, hserved.declared, hnone] at hdl
    cases hdl
  have hlive : Live s m := by
    have hplaced : Placed s (.stored queue, m) := h.placed _ (hold ▸ Multiset.mem_cons_self _ _)
    exact hplaced.live fun heq => hqueue (Place.stored.inj heq)
  refine ⟨h.ids, ?_, ?_, h.done, h.fresh, h.routed⟩
  · rw [← h.conserved, ← hheld]
  · intro p hp
    have hkey : dl.routingKey =
        ({ s.broker with stored := s.broker.stored.eraseIdx i } : Broker Message).consumed := by
      rw [deadLetter_routingKey hserved.declared hdl]
      exact hserved.consumed.symm
    change p ∈ (Broker.publish _ dl.routingKey m).holdings at hp
    rw [hkey, Broker.holdings_publish_consumed, Multiset.mem_cons] at hp
    have hready : Place.ready ∈ livePlaces := by decide
    rcases hp with rfl | hrest
    · exact Or.inl ⟨hready, hlive⟩
    · exact h.placed p (hold ▸ Multiset.mem_cons_of_mem hrest)

/-- Every step without losses keeps the invariant. -/
theorem step (h : Conserving s) (hserved : Served format s) (a : Event) (hloss : NoLoss s a)
    (hstep : s.step format a = some s') : Conserving s' := by
  cases a with
  | signup userId =>
    obtain rfl := Option.some.inj hstep
    exact ⟨h.ids, h.conserved, h.placed, h.done, h.fresh, h.routed⟩
  | deleteUser userId result =>
    obtain rfl := Option.some.inj hstep
    exact ⟨h.ids, h.conserved, h.placed, h.done, h.fresh, h.routed⟩
  | publishDeleted k carrier ok =>
    obtain ⟨userId, -, rfl⟩ := step_publishDeleted hstep
    cases ok with
    | false => exact ⟨h.ids, h.conserved, h.placed, h.done, h.fresh, h.routed⟩
    | true =>
      obtain ⟨hids, hconserved, hplaced, hdone, hfresh, hrouted⟩ := h.publish hserved userId carrier
      exact ⟨hids, hconserved, hplaced, hdone, hfresh, hrouted⟩
  | deliver i =>
    obtain ⟨b, hb, rfl⟩ := Option.map_eq_some_iff.mp hstep
    exact h.deliver hb
  | handle o =>
    obtain ⟨hpub, hack⟩ := hloss
    obtain ⟨d, b, hnext, rfl⟩ := step_handle hstep
    obtain ⟨hserved', hd, hmsg⟩ := hserved.next hnext
    have h' : Conserving { s with broker := b } := by
      refine ⟨h.ids, ?_, ?_, h.done, h.fresh, h.routed⟩
      · change (b.held + (s.completed : Multiset Message)).map Message.event = _
        rw [Broker.held_next hnext]
        exact h.conserved
      · intro p hp
        exact h.placed p (Broker.holdings_next hnext ▸ hp)
    obtain ⟨userId, -, ⟨-, hok⟩ | ⟨-, herr⟩⟩ := hmsg.handle_cases { s with broker := b } o
    · rw [hok]
      exact h'.succeed hd userId hack
    · rw [herr]
      exact h'.retry hserved' hd userId hpub hack
  | expire i =>
    obtain ⟨b, hb, rfl⟩ := Option.map_eq_some_iff.mp hstep
    exact h.expire hserved hb
  | crash => exact hloss.elim

/-- Every published event has exactly one copy. -/
theorem count_event (h : Conserving s) {e : Message} (he : e ∈ s.events) :
    ((s.broker.held + (s.completed : Multiset Message)).map Message.event).count e.event = 1 := by
  have hids : (s.events.map Message.id).Nodup := by
    rw [h.ids]
    exact List.nodup_range
  have hevents : (s.events.map Message.event).Nodup := by
    rw [show Message.id = Prod.fst ∘ Message.event from rfl, ← List.map_map] at hids
    exact hids.of_map
  rw [h.conserved]
  exact Multiset.count_eq_one_of_mem (Multiset.coe_nodup.mpr hevents)
    (Multiset.mem_coe.mpr (List.mem_map_of_mem he))

/-- An event is attempted at most four times. -/
theorem attempts_le (h : Conserving s) (id : ℕ) : s.attempts id ≤ 4 := by
  by_cases hid : id < s.events.length
  · -- the copy of this event bounds its attempts
    have hmem : id ∈ (s.broker.held + (s.completed : Multiset Message)).map Message.id := by
      rw [h.map_id, Multiset.mem_coe, List.mem_range]
      exact hid
    obtain ⟨m, hm, rfl⟩ := Multiset.mem_map.mp hmem
    rcases Multiset.mem_add.mp hm with hheld | hdone
    · obtain ⟨p, hp, rfl⟩ := Multiset.mem_map.mp hheld
      rcases h.placed p hp with ⟨-, hle, hattempts, -⟩ | ⟨-, -, hattempts, -⟩
      · omega
      · omega
    · obtain ⟨hle, hattempts, -⟩ := h.done m hdone
      omega
  · obtain ⟨-, hattempts⟩ := h.fresh id (by omega)
    omega

end Conserving

theorem conserving_init : Conserving System.init where
  ids := rfl
  conserved := rfl
  placed := by
    intro p hp
    simp [System.init] at hp
  done := by
    intro m hm
    cases hm
  fresh := fun _ _ => ⟨rfl, rfl⟩
  routed := by
    intro key hkey
    cases hkey

/-- Both invariants hold in every run without losses. -/
theorem conserving_of_run {as : List Event} {s : System}
    (hrun : Run (System.step format) NoLoss System.init as s) :
    Conserving s ∧ Served format s := by
  refine hrun.induct (I := fun s => Conserving s ∧ Served format s) ?_
    ⟨conserving_init, served_init⟩
  intro s a s' ⟨hc, hs⟩ hloss hstep
  exact ⟨hc.step hs a hloss hstep, hs.step a hstep⟩

/-- What the retry protocol guarantees of a state. -/
structure RetryGuarantee (s : System) : Prop where
  /-- Every published event has exactly one copy, held by the broker or completed. -/
  oneCopy : ∀ e ∈ s.events,
    ((s.broker.held + (s.completed : Multiset Message)).map Message.event).count e.event = 1
  /-- The broker holds copies in the work queue, the retry queues and the dead letter queue only. -/
  places : ∀ p ∈ s.broker.holdings, p.1 ∈ livePlaces ∨ p.1 = .stored "user_deleted_dlq"
  /-- Outside the dead letter queue the retry count is the number of failed attempts. -/
  retryCount : ∀ p ∈ s.broker.holdings, p.1 ≠ .stored "user_deleted_dlq" →
    (xRetryCount p.2).toInt = s.failures p.2.id
  retryCount_completed : ∀ m ∈ s.completed, (xRetryCount m).toInt = s.failures m.id
  /-- An event is in the dead letter queue after exactly four failures, its retry count still 3. -/
  deadLetter : ∀ p ∈ s.broker.holdings, p.1 = .stored "user_deleted_dlq" →
    s.failures p.2.id = 4 ∧ (xRetryCount p.2).toInt = 3
  /-- The consumer publishes to queues it declared. -/
  declared : ∀ key ∈ s.routedTo, s.broker.IsDeclared key
  /-- The delay of a retry never overflows. -/
  noOverflow : s.panicked = false ∧
    ∀ m ∈ s.broker.held, ¬ 3 ≤ xRetryCount m → (delaySecs (xRetryCount m)).isSome
  /-- An event is attempted at most four times. -/
  attempts_le : ∀ id, s.attempts id ≤ 4

/-- A retry count as the header carries it. -/
theorem toInt_ofNat {n : ℕ} (hn : n ≤ 3) : (Int32.ofNat n).toInt = n := by
  interval_cases n <;> decide

/-- The delay of a well-formed message below three retries does not overflow. -/
theorem WellFormed.delaySecs_isSome {m : Message} (h : WellFormed format m)
    (hlt : ¬ 3 ≤ xRetryCount m) : (delaySecs (xRetryCount m)).isSome := by
  obtain ⟨-, n, hn, hcount⟩ := h
  rw [hcount] at hlt ⊢
  interval_cases n
  · decide
  · decide
  · decide
  · exact absurd (by decide) hlt

/-- **The retry protocol conserves events and is bounded**, in every run without losses. -/
theorem event_conserved {as : List Event} {s : System}
    (hrun : Run (System.step format) NoLoss System.init as s) : RetryGuarantee s := by
  obtain ⟨hc, hs⟩ := conserving_of_run hrun
  refine ⟨fun e he => hc.count_event he, ?_, ?_, ?_, ?_, ?_, ⟨hs.running, ?_⟩, hc.attempts_le⟩
  · intro p hp
    rcases hc.placed p hp with ⟨hplace, -⟩ | ⟨hplace, -⟩
    · exact Or.inl hplace
    · exact Or.inr hplace
  · intro p hp hne
    obtain ⟨hle, -, hretry⟩ := (hc.placed p hp).live hne
    rw [hretry, toInt_ofNat hle]
  · intro m hm
    obtain ⟨hle, -, hretry⟩ := hc.done m hm
    rw [hretry, toInt_ofNat hle]
  · intro p hp hdlq
    rcases hc.placed p hp with ⟨hplace, -⟩ | ⟨-, hfail, -, hretry⟩
    · rw [hdlq] at hplace
      exact absurd hplace (by decide)
    · exact ⟨hfail, by rw [hretry]; rfl⟩
  · intro key hkey
    exact hs.isDeclared (hc.routed key hkey)
  · intro m hm hlt
    exact (hs.wellFormed m hm).delaySecs_isSome hlt

/-- One event that fails four times and ends in the dead letter queue. -/
theorem event_conserved_of_four_failures :
    ∃ s : System, s.failures 0 = 4 ∧ RetryGuarantee s := by
  obtain ⟨s, hrun, hs⟩ := exists_run_of_exec (System.step jsonFormat) NoLoss System.init
    [.signup 7, .deleteUser 7 .ok, .publishDeleted 0 [("traceparent", "00-1-2-01")] true,
      .deliver 0, .handle ⟨.err, true, true⟩, .expire 0,
      .deliver 0, .handle ⟨.err, true, true⟩, .expire 0,
      .deliver 0, .handle ⟨.errApplied, true, true⟩, .expire 0,
      .deliver 0, .handle ⟨.err, true, true⟩]
    (fun s => s.failures 0 = 4) (by decide)
  exact ⟨s, by simpa using hs, event_conserved hrun⟩

end Bittuly.UserDeleted
