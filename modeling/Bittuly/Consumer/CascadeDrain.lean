import Bittuly.Consumer.Cascade
import Bittuly.Lib.Total
import Mathlib.Algebra.Group.Action.Defs
import Mathlib.Algebra.Order.BigOperators.Group.List

/-!
# The cascade comes to an end

Reference: `services/consumer-service/src/main.rs`, the second spawned task and its queues.

Every failed attempt raises `x-retry-count`, and a message whose count is 3 is parked in the dead letter
queue. So the cascade ends even when Postgres never comes back: a message is pushed, handled and expired
at most eleven times in all. `pending` is what is left of these steps; when nothing is left, each deletion
that was answered has been carried out, or its event is in the dead letter queue.

The start is a consumer that has just started: what an earlier one had taken and not acknowledged was made
ready when its channel closed. Publishes reach their queues, and the broker, whose messages are transient, does
not restart.
-/

namespace Bittuly.UserDeleted

open Amqp Runs

/-! ## What is left to do -/

/-- The attempts a message has left. -/
def attemptsLeft (m : Message) : ℕ :=
  4 - (xRetryCount m).toInt.toNat

/-- The steps a message has left where it is: a push, a handled delivery and an expiry for each attempt, but
no expiry before the first. -/
def stepsLeft : Place × Message → ℕ
  | (.ready, m) => 3 * attemptsLeft m - 1
  | (.unacked, m) => 3 * attemptsLeft m - 2
  | (.stored queue, m) => if queue ∈ retryQueues then 3 * attemptsLeft m else 0

/-- The messages that the consumer has not taken, with their places. -/
def waiting (b : Broker Message) : List (Place × Message) :=
  b.channel.ready.map (fun m => (Place.ready, m)) ++
    (b.channel.buffer.map (fun d => (Place.unacked, d.msg)) ++
      b.stored.map fun p => (Place.stored p.1, p.2))

namespace System

/-- The steps that all of them have left. -/
def pending (s : System) : ℕ :=
  ((waiting s.broker).map stepsLeft).sum

/-- The consumer stays up and both publishers reach the broker. A `DELETE` may fail, and an acknowledgement
may get lost. -/
def Serving (_ : System) : Event → Prop
  | .publishDeleted _ _ ok => ok = true
  | .handle o => o.publish = true
  | .crash => False
  | _ => True

instance (s : System) : DecidablePred (Serving s)
  | .publishDeleted _ _ ok => inferInstanceAs (Decidable (ok = true))
  | .handle o => inferInstanceAs (Decidable (o.publish = true))
  | .crash => inferInstanceAs (Decidable False)
  | .signup _ | .deleteUser _ _ | .deliver _ | .expire _ => inferInstanceAs (Decidable True)

end System

/-- A step that moves an event on. -/
def isMove : Event → Bool
  | .deliver _ | .handle _ | .expire _ => true
  | _ => false

/-- A step that brings an event. -/
def isArrival : Event → Bool
  | .publishDeleted _ _ _ => true
  | _ => false

/-- A well-formed message has an attempt left. -/
theorem one_le_attemptsLeft {format : EventFormat} {m : Message} (h : WellFormed format m) :
    1 ≤ attemptsLeft m := by
  obtain ⟨-, n, hn, hcount⟩ := h
  rw [attemptsLeft, hcount, toInt_ofNat hn]
  omega

/-- A failed attempt: the copy has fewer steps left than the delivery, whichever queue it goes to. -/
theorem stepsLeft_route {format : EventFormat} {m m' : Message} {key : String}
    (h : WellFormed format m) (hroute : route m = some (key, m')) :
    stepsLeft (.stored key, m') + 1 ≤ stepsLeft (.unacked, m) ∧
      (key ∈ retryQueues ∨ key = "user_deleted_dlq") := by
  obtain ⟨-, n, hn, hcount⟩ := h
  by_cases hlast : n = 3
  · subst hlast
    obtain ⟨rfl, rfl⟩ := Prod.mk.inj (Option.some.inj ((route_dlq hcount).symm.trans hroute))
    refine ⟨?_, Or.inr rfl⟩
    have hnot : "user_deleted_dlq" ∉ retryQueues := by decide
    rw [stepsLeft, stepsLeft, if_neg hnot, attemptsLeft, hcount, toInt_ofNat hn]
    omega
  · have hlt : n < 3 := by omega
    obtain ⟨queue, hmem, hroute'⟩ := route_retry hlt hcount
    obtain ⟨rfl, rfl⟩ := Prod.mk.inj (Option.some.inj (hroute'.symm.trans hroute))
    refine ⟨?_, Or.inl hmem⟩
    have hbump : xRetryCount (bumpRetry m) = Int32.ofNat (n + 1) := by
      rw [xRetryCount_bumpRetry, hcount, Int32.ofNat_add]
      rfl
    rw [stepsLeft, stepsLeft, if_pos hmem, attemptsLeft, attemptsLeft, hbump, hcount, toInt_ofNat hn,
      toInt_ofNat hlt]
    omega

/-! ## The messages that wait -/

/-- What waits is held. -/
theorem mem_held_of_waiting {b : Broker Message} {p : Place × Message} (h : p ∈ waiting b) :
    p.2 ∈ b.held := by
  refine Broker.mem_held_of_mem_holdings (p := p) ?_
  simp only [waiting, List.mem_append, List.mem_map] at h
  simp only [Broker.holdings, Channel.outstanding, Multiset.mem_add, Multiset.mem_coe, List.mem_map,
    List.mem_append]
  rcases h with ⟨m, hm, rfl⟩ | ⟨d, hd, rfl⟩ | ⟨q, hq, rfl⟩
  · exact Or.inl (Or.inl ⟨m, hm, rfl⟩)
  · exact Or.inl (Or.inr ⟨d, Or.inr hd, rfl⟩)
  · exact Or.inr ⟨q, hq, rfl⟩

/-- Where no delivery has been taken, what is held waits. -/
theorem exists_waiting_of_held {b : Broker Message} (htaken : b.channel.taken = []) {m : Message}
    (h : m ∈ b.held) : ∃ p ∈ waiting b, p.2 = m := by
  obtain ⟨p, hp, rfl⟩ := Multiset.mem_map.mp h
  refine ⟨p, ?_, rfl⟩
  simp only [Broker.holdings, Channel.outstanding, htaken, List.nil_append, Multiset.mem_add,
    Multiset.mem_coe] at hp
  simp only [waiting, List.mem_append]
  rcases hp with (hready | hbuffer) | hstored
  · exact Or.inl hready
  · exact Or.inr (Or.inl hbuffer)
  · exact Or.inr (Or.inr hstored)

/-- A message for the work queue. -/
theorem waiting_publish_consumed (b : Broker Message) (m : Message) :
    (waiting (b.publish b.consumed m)).Perm ((Place.ready, m) :: waiting b) := by
  rw [Broker.publish, if_pos rfl]
  simp only [waiting, Channel.publish_ready, Channel.publish_buffer, List.map_append, List.map_cons,
    List.map_nil, List.append_assoc, List.singleton_append]
  exact List.perm_middle

/-- A message for another queue. -/
theorem waiting_publish_stored {b : Broker Message} {queue : String} (hne : queue ≠ b.consumed)
    (hdecl : b.IsDeclared queue) (m : Message) :
    (waiting (b.publish queue m)).Perm ((Place.stored queue, m) :: waiting b) := by
  rw [Broker.publish, if_neg hne, if_pos hdecl]
  simp only [waiting, List.map_append, List.map_cons, List.map_nil, ← List.append_assoc]
  exact List.perm_append_singleton _ _

/-- A push. -/
theorem waiting_deliver {b b' : Broker Message} {i : ℕ} (h : b.deliver i = some b') :
    ∃ m rest, (waiting b).Perm ((Place.ready, m) :: rest) ∧
      (waiting b').Perm ((Place.unacked, m) :: rest) := by
  obtain ⟨channel, hc, rfl⟩ := Option.map_eq_some_iff.mp h
  obtain ⟨m, hm, hready, -, hbuffer, -⟩ := Channel.deliver_eq_some hc
  obtain ⟨hi, rfl⟩ := List.getElem?_eq_some_iff.mp hm
  refine ⟨b.channel.ready[i], (b.channel.ready.eraseIdx i).map (fun m => (Place.ready, m)) ++
    (b.channel.buffer.map (fun d => (Place.unacked, d.msg)) ++
      b.stored.map fun p => (Place.stored p.1, p.2)), ?_, ?_⟩
  · exact ((List.getElem_cons_eraseIdx_perm hi).symm.map _).append_right _
  · simp only [waiting, hready, hbuffer, List.map_append, List.map_cons, List.map_nil, List.append_assoc,
      List.singleton_append]
    refine List.Perm.trans (List.Perm.append_left _ List.perm_middle) List.perm_middle

/-- A delivery. -/
theorem waiting_next {b b' : Broker Message} {d : Delivery Message} (h : b.next = some (d, b')) :
    (waiting b).Perm ((Place.unacked, d.msg) :: waiting b') ∧ d ∈ b'.channel.taken := by
  obtain ⟨⟨e, channel⟩, hc, heq⟩ := Option.map_eq_some_iff.mp h
  obtain ⟨rfl, rfl⟩ := Prod.mk.inj heq
  obtain ⟨hbuffer, hready, htaken, -⟩ := Channel.next_eq_some hc
  refine ⟨?_, by simp [htaken]⟩
  simp only [waiting, hready, hbuffer, List.map_cons, List.cons_append]
  exact List.perm_middle

/-- An acknowledgement of what was taken leaves alone what waits. -/
theorem waiting_tryAck {b : Broker Message} {d : Delivery Message} (hd : d ∈ b.channel.taken)
    (arrives : Bool) : waiting (b.tryAck d arrives) = waiting b := by
  cases arrives with
  | false => rfl
  | true =>
    have hbuffer : (b.channel.ack d.tag false).buffer = b.channel.buffer := by
      refine List.filter_eq_self.mpr ?_
      intro e he
      have hlt := (List.pairwise_append.mp b.channel.sorted).2.2 d hd e he
      simp only [Channel.covers, Bool.false_eq_true, if_false, Bool.not_eq_true', decide_eq_false_iff_not]
      omega
    show b.channel.ready.map _ ++ ((b.channel.ack d.tag false).buffer.map _ ++ b.stored.map _) = _
    rw [hbuffer]
    rfl

/-- An expiry. -/
theorem waiting_expire {b b' : Broker Message} {i : ℕ} (h : b.expire i = some b')
    (hdead : ∀ queue dl, b.deadLetter queue = some dl → dl.routingKey = b.consumed) :
    ∃ queue m rest, b.deadLetter queue ≠ none ∧ (queue, m) ∈ b.stored ∧
      (waiting b).Perm ((Place.stored queue, m) :: rest) ∧
        (waiting b').Perm ((Place.ready, m) :: rest) := by
  unfold Broker.expire at h
  split at h
  · cases h
  · rename_i queue m hm
    obtain ⟨dl, hdl, rfl⟩ := Option.map_eq_some_iff.mp h
    obtain ⟨hi, hget⟩ := List.getElem?_eq_some_iff.mp hm
    have hstored : b.stored.Perm ((queue, m) :: b.stored.eraseIdx i) :=
      hget ▸ (List.getElem_cons_eraseIdx_perm hi).symm
    have hsome : b.deadLetter queue ≠ none := by
      rw [hdl]
      exact Option.some_ne_none _
    refine ⟨queue, m, waiting { b with stored := b.stored.eraseIdx i }, hsome,
      List.mem_of_getElem? hm, ?_, ?_⟩
    · have hmap := hstored.map fun p : String × Message => (Place.stored p.1, p.2)
      refine ((hmap.append_left _).append_left _).trans ?_
      simp only [List.map_cons]
      exact ((List.perm_middle).append_left _).trans List.perm_middle
    · have hkey : dl.routingKey = ({ b with stored := b.stored.eraseIdx i } : Broker Message).consumed :=
        hdead queue dl hdl
      rw [hkey]
      exact waiting_publish_consumed _ m

/-! ## What a step does to them -/

variable (format : EventFormat)

/-- The queues that store messages are the retry queues and the dead letter queue. -/
def Parked (s : System) : Prop :=
  ∀ p ∈ s.broker.stored, p.1 ∈ retryQueues ∨ p.1 = "user_deleted_dlq"

/-- What a step of a serving consumer does. -/
inductive Flow (s : System) : Event → System → Prop
  | quiet {a : Event} {s' : System} : isMove a = false → isArrival a = false →
      waiting s'.broker = waiting s.broker → s'.answered = s.answered → s'.cascaded = s.cascaded →
      Flow s a s'
  /-- An event comes in, not tried yet. -/
  | arrival {a : Event} {s' : System} {m : Message} {userId : Uuid} : isMove a = false →
      isArrival a = true → (waiting s'.broker).Perm ((Place.ready, m) :: waiting s.broker) →
      xRetryCount m = 0 → format.fromSlice m.data = some userId → s'.answered = s.answered ++ [userId] →
      s'.cascaded = s.cascaded → Flow s a s'
  /-- A message goes elsewhere, with fewer steps left. -/
  | moved {a : Event} {s' : System} {p q : Place × Message} {rest : List (Place × Message)} :
      isMove a = true → isArrival a = false → (waiting s.broker).Perm (p :: rest) →
      (waiting s'.broker).Perm (q :: rest) → q.2.data = p.2.data → stepsLeft q + 1 ≤ stepsLeft p →
      s'.answered = s.answered → s.cascaded ⊆ s'.cascaded → Flow s a s'
  /-- The rows of its user are gone. -/
  | finished {a : Event} {s' : System} {p : Place × Message} {userId : Uuid} : isMove a = true →
      isArrival a = false → (waiting s.broker).Perm (p :: waiting s'.broker) →
      format.fromSlice p.2.data = some userId → 1 ≤ stepsLeft p → s'.answered = s.answered →
      s'.cascaded = s.cascaded ++ [userId] → Flow s a s'

variable {format}

theorem flow_of_handle {s s' : System} (hs : Served format s) {o : Outcome} (ho : o.publish = true)
    (hstep : s.step format (.handle o) = some s') : Flow format s (.handle o) s' := by
  obtain ⟨d, b, hnext, rfl⟩ := step_handle hstep
  obtain ⟨hs', -, hmsg⟩ := hs.next hnext
  obtain ⟨hwaiting, htaken⟩ := waiting_next hnext
  obtain ⟨userId, hread, ⟨-, hok⟩ | ⟨-, herr⟩⟩ := hmsg.handle_cases { s with broker := b } o
  · rw [hok]
    have hrest : waiting (System.succeed { s with broker := b } d userId o).broker = waiting b :=
      waiting_tryAck htaken o.ack
    refine .finished (p := (Place.unacked, d.msg)) rfl rfl (hrest ▸ hwaiting) hread ?_ rfl rfl
    have hleft := one_le_attemptsLeft hmsg
    rw [stepsLeft]
    omega
  · obtain ⟨key, m', hroute, hkey, hne, hevent, -⟩ := hmsg.route
    obtain ⟨hsteps, -⟩ := stepsLeft_route hmsg hroute
    rw [herr, System.retry_eq _ d userId o hroute, ho]
    have hdecl : (b.tryAck d o.ack).IsDeclared key := Broker.tryAck_isDeclared.mpr (hs'.isDeclared hkey)
    have hne' : key ≠ (b.tryAck d o.ack).consumed := by
      have hconsumed : b.consumed = "user_deleted_queue" := hs'.consumed
      rw [Broker.tryAck_consumed, hconsumed]
      exact hne
    have hcopy := waiting_publish_stored hne' hdecl m'
    rw [waiting_tryAck htaken o.ack] at hcopy
    refine .moved (p := (Place.unacked, d.msg)) (q := (Place.stored key, m')) rfl rfl hwaiting hcopy
      (congrArg Prod.snd hevent) hsteps rfl ?_
    show s.cascaded ⊆ if o.delete.applied then s.cascaded ++ [userId] else s.cascaded
    split
    · exact List.subset_append_left _ _
    · exact List.Subset.refl _

/-- A step of a serving consumer. -/
theorem flow_of_step {s s' : System} (hs : Served format s) (hparked : Parked s) {a : Event}
    (hserve : s.Serving a) (hstep : s.step format a = some s') : Flow format s a s' := by
  cases a with
  | signup userId =>
    obtain rfl := Option.some.inj hstep
    exact .quiet rfl rfl rfl rfl rfl
  | deleteUser userId result =>
    obtain rfl := Option.some.inj hstep
    exact .quiet rfl rfl rfl rfl rfl
  | publishDeleted k kvs ok =>
    obtain ⟨userId, -, rfl⟩ := step_publishDeleted hstep
    obtain rfl : ok = true := hserve
    have hwaiting := waiting_publish_consumed s.broker (s.deletedEvent format userId kvs)
    rw [hs.consumed] at hwaiting
    exact .arrival rfl rfl hwaiting (xRetryCount_traceHeaders _ _ _) (format.fromSlice_toJson userId)
      rfl rfl
  | deliver i =>
    obtain ⟨b, hb, rfl⟩ := Option.map_eq_some_iff.mp hstep
    obtain ⟨m, rest, hbefore, hafter⟩ := waiting_deliver hb
    have hm : (Place.ready, m) ∈ waiting s.broker := hbefore.symm.subset List.mem_cons_self
    have hleft := one_le_attemptsLeft (hs.wellFormed m (mem_held_of_waiting hm))
    refine .moved (p := (Place.ready, m)) (q := (Place.unacked, m)) rfl rfl hbefore hafter rfl ?_ rfl
      (List.Subset.refl _)
    rw [stepsLeft, stepsLeft]
    omega
  | handle o => exact flow_of_handle hs hserve hstep
  | expire i =>
    obtain ⟨b, hb, rfl⟩ := Option.map_eq_some_iff.mp hstep
    obtain ⟨queue, m, rest, hdead, hstored, hbefore, hafter⟩ := waiting_expire hb fun queue dl hdl => by
      rw [deadLetter_routingKey hs.declared hdl, hs.consumed]
    have hm : (Place.stored queue, m) ∈ waiting s.broker := hbefore.symm.subset List.mem_cons_self
    have hleft := one_le_attemptsLeft (hs.wellFormed m (mem_held_of_waiting hm))
    have hretry : queue ∈ retryQueues := by
      rcases hparked _ hstored with hretry | hdlq
      · exact hretry
      · -- the dead letter queue has no dead-letter target of its own
        have hnone : (declaredQueues.find? fun q => q.name = "user_deleted_dlq").bind
          QueueDecl.deadLetter = none := by decide
        obtain rfl : queue = "user_deleted_dlq" := hdlq
        rw [Broker.deadLetter, hs.declared] at hdead
        exact absurd hnone hdead
    refine .moved (p := (Place.stored queue, m)) (q := (Place.ready, m)) rfl rfl hbefore hafter rfl ?_ rfl
      (List.Subset.refl _)
    rw [stepsLeft, stepsLeft, if_pos hretry]
    omega
  | crash => exact hserve.elim

/-- Queues other than the work queue only get what the failure path routes to them. -/
theorem Parked.step {s s' : System} (hs : Served format s) (h : Parked s) (a : Event)
    (hstep : s.step format a = some s') : Parked s' := by
  have hpublish : ∀ (b : Broker Message) (m : Message), (b.publish b.consumed m).stored = b.stored := by
    intro b m
    rw [Broker.publish, if_pos rfl]
  cases a with
  | signup userId =>
    obtain rfl := Option.some.inj hstep
    exact h
  | deleteUser userId result =>
    obtain rfl := Option.some.inj hstep
    exact h
  | publishDeleted k kvs ok =>
    obtain ⟨userId, -, rfl⟩ := step_publishDeleted hstep
    cases ok with
    | false => exact h
    | true =>
      have hstored := hpublish s.broker (s.deletedEvent format userId kvs)
      rw [hs.consumed] at hstored
      intro p hp
      exact h p (hstored ▸ hp)
  | deliver i =>
    obtain ⟨b, hb, rfl⟩ := Option.map_eq_some_iff.mp hstep
    obtain ⟨channel, -, rfl⟩ := Option.map_eq_some_iff.mp hb
    exact h
  | handle o =>
    obtain ⟨d, b, hnext, rfl⟩ := step_handle hstep
    obtain ⟨hs', -, hmsg⟩ := hs.next hnext
    obtain ⟨⟨e, channel⟩, -, heq⟩ := Option.map_eq_some_iff.mp hnext
    obtain ⟨-, rfl⟩ := Prod.mk.inj heq
    have hack : ∀ arrives,
        (Broker.tryAck { s.broker with channel } d arrives).stored = s.broker.stored := by
      intro arrives
      cases arrives <;> rfl
    obtain ⟨userId, -, ⟨-, hok⟩ | ⟨-, herr⟩⟩ :=
      hmsg.handle_cases { s with broker := { s.broker with channel } } o
    · rw [hok]
      intro p hp
      exact h p (hack o.ack ▸ hp)
    · obtain ⟨key, m', hroute, -⟩ := hmsg.route
      rw [herr, System.retry_eq _ d userId o hroute]
      intro p hp
      change p ∈ (Broker.tryPublish _ key m' o.publish).stored at hp
      unfold Broker.tryPublish Broker.publish at hp
      split at hp
      · split at hp
        · exact h p (hack o.ack ▸ hp)
        · split at hp
          · rcases List.mem_append.mp hp with hold | hnew
            · exact h p (hack o.ack ▸ hold)
            · rw [List.mem_singleton.mp hnew]
              exact (stepsLeft_route hmsg hroute).2
          · exact h p (hack o.ack ▸ hp)
      · exact h p (hack o.ack ▸ hp)
  | expire i =>
    obtain ⟨b, hb, rfl⟩ := Option.map_eq_some_iff.mp hstep
    obtain ⟨queue, m, dl, hdl, rfl, -⟩ := Broker.holdings_expire hb
    have hkey : dl.routingKey =
        ({ s.broker with stored := s.broker.stored.eraseIdx i } : Broker Message).consumed := by
      rw [deadLetter_routingKey hs.declared hdl]
      exact hs.consumed.symm
    intro p hp
    change p ∈ (Broker.publish _ dl.routingKey m).stored at hp
    rw [hkey, hpublish] at hp
    exact h p (List.mem_of_mem_eraseIdx hp)
  | crash =>
    obtain rfl := Option.some.inj hstep
    exact h

/-! ## The cascade drains -/

/-- **One step.** A move leaves fewer steps to do; an event that comes in brings eleven. -/
theorem pending_step {s s' : System} {a : Event} (h : Flow format s a s') :
    (if isMove a then 1 else 0) + s'.pending ≤ (if isArrival a then 11 else 0) + s.pending := by
  cases h with
  | quiet hmove harrival hwaiting _ _ =>
    rw [hmove, harrival, System.pending, hwaiting]
    exact le_refl _
  | @arrival m userId hmove harrival hwaiting hcount _ _ _ =>
    rw [hmove, harrival, System.pending, (hwaiting.map stepsLeft).sum_eq, List.map_cons, List.sum_cons]
    have hnew : stepsLeft (Place.ready, m) = 11 := by
      rw [stepsLeft, attemptsLeft, hcount]
      rfl
    rw [hnew]
    show 0 + (11 + s.pending) ≤ 11 + s.pending
    omega
  | @moved p q rest hmove harrival hbefore hafter _ hless _ _ =>
    rw [hmove, harrival, System.pending, System.pending, (hbefore.map stepsLeft).sum_eq,
      (hafter.map stepsLeft).sum_eq, List.map_cons, List.map_cons, List.sum_cons, List.sum_cons]
    simp only [if_true, Bool.false_eq_true, if_false]
    omega
  | @finished p userId hmove harrival hbefore _ hpos _ _ =>
    rw [hmove, harrival]
    have hsum : s.pending = stepsLeft p + s'.pending := by
      rw [System.pending, (hbefore.map stepsLeft).sum_eq, List.map_cons, List.sum_cons]
      rfl
    simp only [if_true, Bool.false_eq_true, if_false]
    omega

/-- An event for the user waits, or the user's rows have been deleted. -/
def Waits (format : EventFormat) (s : System) (userId : Uuid) : Prop :=
  (∃ p ∈ waiting s.broker, format.fromSlice p.2.data = some userId) ∨ userId ∈ s.cascaded

/-- A step keeps what waits, and the deletion that it answers waits as well. -/
theorem waits_step {s s' : System} {a : Event} (h : Flow format s a s') :
    s.answered <+: s'.answered ∧ (∀ u, Waits format s u → Waits format s' u) ∧
      ∀ u ∈ s'.answered.drop s.answered.length, Waits format s' u := by
  have hsame : s'.answered = s.answered → s.answered <+: s'.answered ∧
      ∀ u ∈ s'.answered.drop s.answered.length, Waits format s' u := by
    intro hanswered
    rw [hanswered, List.drop_length]
    exact ⟨List.prefix_refl _, fun u hu => absurd hu List.not_mem_nil⟩
  cases h with
  | quiet _ _ hwaiting hanswered hcascaded =>
    refine ⟨(hsame hanswered).1, ?_, (hsame hanswered).2⟩
    intro u hu
    rw [Waits, hwaiting, hcascaded]
    exact hu
  | @arrival m userId _ _ hwaiting _ hread hanswered hcascaded =>
    refine ⟨hanswered ▸ List.prefix_append _ _, ?_, ?_⟩
    · rintro u (⟨p, hp, hu⟩ | hu)
      · exact Or.inl ⟨p, hwaiting.symm.subset (List.mem_cons_of_mem _ hp), hu⟩
      · exact Or.inr (hcascaded ▸ hu)
    · intro u hu
      rw [hanswered, List.drop_left, List.mem_singleton] at hu
      subst hu
      exact Or.inl ⟨_, hwaiting.symm.subset List.mem_cons_self, hread⟩
  | @moved p q rest _ _ hbefore hafter hdata _ hanswered hcascaded =>
    refine ⟨(hsame hanswered).1, ?_, (hsame hanswered).2⟩
    rintro u (⟨p', hp', hu⟩ | hu)
    · rcases List.mem_cons.mp (hbefore.subset hp') with rfl | hrest
      · exact Or.inl ⟨q, hafter.symm.subset List.mem_cons_self, by rw [hdata, hu]⟩
      · exact Or.inl ⟨p', hafter.symm.subset (List.mem_cons_of_mem _ hrest), hu⟩
    · exact Or.inr (hcascaded hu)
  | @finished p userId _ _ hbefore hread _ hanswered hcascaded =>
    refine ⟨(hsame hanswered).1, ?_, (hsame hanswered).2⟩
    rintro u (⟨p', hp', hu⟩ | hu)
    · rcases List.mem_cons.mp (hbefore.subset hp') with rfl | hrest
      · rw [hread] at hu
        obtain rfl := Option.some.inj hu
        exact Or.inr (hcascaded ▸ List.mem_append_right _ (List.mem_singleton_self _))
      · exact Or.inl ⟨p', hrest, hu⟩
    · exact Or.inr (hcascaded ▸ List.mem_append_left _ hu)

/-- As long as steps are left, one can be taken, whatever Postgres answers. -/
theorem exists_move {s : System} (hs : Served format s) (h : s.pending ≠ 0) (o : Outcome) :
    ∃ a s', isMove a = true ∧ ((∃ i, a = .deliver i) ∨ a = .handle o ∨ ∃ i, a = .expire i) ∧
      s.step format a = some s' := by
  obtain ⟨n, hn, hpos⟩ : ∃ n ∈ (waiting s.broker).map stepsLeft, n ≠ 0 := by
    by_contra hnone
    push Not at hnone
    exact h (List.sum_eq_zero hnone)
  obtain ⟨p, hp, rfl⟩ := List.mem_map.mp hn
  rcases List.mem_append.mp hp with hready | hp
  · obtain ⟨m, hm, rfl⟩ := List.mem_map.mp hready
    obtain ⟨i, hi, hget⟩ := List.mem_iff_getElem.mp hm
    have hq : (s.broker.channel.deliver i).isSome := by
      unfold Channel.deliver
      rw [List.getElem?_eq_getElem hi]
      rfl
    obtain ⟨channel, hq⟩ := Option.isSome_iff_exists.mp hq
    exact ⟨.deliver i, { s with broker := { s.broker with channel } }, rfl, Or.inl ⟨i, rfl⟩, by
      rw [System.step, Broker.deliver, hq, Option.map_some, Option.map_some]⟩
  rcases List.mem_append.mp hp with hbuffer | hstored
  · obtain ⟨d, hd, rfl⟩ := List.mem_map.mp hbuffer
    have hq : s.broker.channel.next.isSome := by
      unfold Channel.next
      split
      · rename_i hnil
        rw [hnil] at hd
        cases hd
      · rfl
    have hst : (s.step format (.handle o)).isSome := by
      rw [System.step, if_neg (by rw [hs.running]; decide), Broker.next, Option.isSome_map,
        Option.isSome_map]
      exact hq
    obtain ⟨s', hst⟩ := Option.isSome_iff_exists.mp hst
    exact ⟨.handle o, s', rfl, Or.inr (Or.inl rfl), hst⟩
  · obtain ⟨⟨queue, m⟩, hm, rfl⟩ := List.mem_map.mp hstored
    obtain ⟨i, hi, hget⟩ := List.mem_iff_getElem.mp hm
    have hretry : queue ∈ retryQueues := by
      by_contra hnot
      exact hpos (by rw [stepsLeft, if_neg hnot])
    have hdead : ∀ queue ∈ retryQueues,
        ((declaredQueues.find? fun q => q.name = queue).bind QueueDecl.deadLetter).isSome := by decide
    obtain ⟨dl, hdl⟩ := Option.isSome_iff_exists.mp (hdead queue hretry)
    rw [← hs.declared] at hdl
    have hst : (s.step format (.expire i)).isSome := by
      rw [System.step, Broker.expire, List.getElem?_eq_getElem hi, hget]
      simp only [Broker.deadLetter, hdl, Option.map_some, Option.isSome_some]
    obtain ⟨s', hst⟩ := Option.isSome_iff_exists.mp hst
    exact ⟨.expire i, s', rfl, Or.inr (Or.inr ⟨i, rfl⟩), hst⟩

/-- **The cascade ends, whatever Postgres does.** After any run at all, start the consumer again and let it
stay up and both publishers reach the broker, in whatever order things happen and however many `DELETE`s
fail: an event takes eleven steps at most, a step can be taken as long as one is left, and once none is left
each deletion that was traced at the start, or answered since, has been carried out, or its event is in the
dead letter queue. -/
theorem cascade_drains {s₀ s t : System} {es as : List Event}
    (hrun : Run (System.step format) Any System.init es s₀) (hstart : s₀.step format .crash = some s)
    (hserve : Run (System.step format) System.Serving s as t) :
    as.countP isMove + t.pending ≤ 11 * as.countP isArrival + s.pending ∧
      (t.pending ≠ 0 → ∀ o : Outcome, o.publish = true →
        ∃ a t', isMove a = true ∧ t.Serving a ∧ t.step format a = some t') ∧
      (t.pending = 0 → ∀ u, Traced format s₀ u ∨ u ∈ t.answered.drop s.answered.length →
        u ∈ t.cascaded ∨ ∃ m, (Place.stored "user_deleted_dlq", m) ∈ t.broker.holdings ∧
          format.fromSlice m.data = some u) := by
  have hinv : ∀ (s : System) a s', (Served format s ∧ Parked s) → Any s a → s.step format a = some s' →
      Served format s' ∧ Parked s' := fun _ a _ h _ hst => ⟨h.1.step a hst, h.2.step h.1 a hst⟩
  have h₀ : Served format s₀ ∧ Parked s₀ :=
    hrun.induct hinv ⟨served_init, fun p hp => absurd hp List.not_mem_nil⟩
  have hs := hinv _ _ _ h₀ trivial hstart
  have ht := (hserve.mono fun _ _ _ => trivial : Run (System.step format) Any s as t).induct hinv hs
  refine ⟨?_, ?_, ?_⟩
  · have htotal := hserve.total_le_of_rank (I := fun s => Served format s ∧ Parked s)
      (fun _ a => if isMove a then 1 else 0) (fun _ a => if isArrival a then 11 else 0) System.pending
      (fun _ _ _ hI _ hst => hinv _ _ _ hI trivial hst)
      (fun _ _ _ hI hP hst => pending_step (flow_of_step hI.1 hI.2 hP hst)) hs
    rw [hserve.total_count isMove, hserve.total_ite (fun _ a => isArrival a),
      hserve.total_count isArrival, smul_eq_mul, Nat.mul_comm _ 11] at htotal
    exact htotal
  · intro hpending o ho
    obtain ⟨a, t', hmove, ha, hst⟩ := exists_move ht.1 hpending o
    refine ⟨a, t', hmove, ?_, hst⟩
    rcases ha with ⟨i, rfl⟩ | rfl | ⟨i, rfl⟩
    · trivial
    · exact ho
    · trivial
  · intro hpending u hu
    -- along the run: what was answered stays answered, and what waits or is answered since waits
    have hwaits : s.answered <+: t.answered ∧ (∀ u, Waits format s u → Waits format t u) ∧
        ∀ u ∈ t.answered.drop s.answered.length, Waits format t u := by
      refine (hserve.induct (I := fun t => (Served format t ∧ Parked t) ∧ s.answered <+: t.answered ∧
        (∀ u, Waits format s u → Waits format t u) ∧
          ∀ u ∈ t.answered.drop s.answered.length, Waits format t u) ?_ ⟨hs, ?_⟩).2
      · rintro r a r' ⟨hI, hprefix, hold, hnew⟩ hP hst
        obtain ⟨hprefix', hkeep, hadd⟩ := waits_step (flow_of_step hI.1 hI.2 hP hst)
        refine ⟨hinv _ _ _ hI trivial hst, hprefix.trans hprefix', fun u hu => hkeep u (hold u hu), ?_⟩
        obtain ⟨more, hmore⟩ := hprefix'
        intro u hu
        rw [← hmore, List.drop_append_of_le_length hprefix.length_le] at hu
        rcases List.mem_append.mp hu with hu | hu
        · exact hkeep u (hnew u hu)
        · refine hadd u ?_
          rw [← hmore, List.drop_left]
          exact hu
      · refine ⟨List.prefix_refl _, fun u hu => hu, ?_⟩
        intro u hu
        rw [List.drop_length] at hu
        cases hu
    have hwait : Waits format t u := by
      rcases hu with htraced | hanswered
      · refine hwaits.2.1 u ?_
        obtain rfl := Option.some.inj hstart
        rcases htraced with ⟨m, hm, hread⟩ | hdone
        · have hheld : m ∈ s₀.broker.recover.held := (Broker.held_recover s₀.broker).symm ▸ hm
          obtain ⟨p, hp, rfl⟩ := exists_waiting_of_held rfl hheld
          exact Or.inl ⟨p, hp, hread⟩
        · exact Or.inr hdone
      · exact hwaits.2.2 u hanswered
    rcases hwait with ⟨⟨place, m⟩, hp, hread⟩ | hdone
    · right
      have hzero : stepsLeft (place, m) = 0 :=
        List.sum_eq_zero_iff.mp hpending _ (List.mem_map_of_mem hp)
      have hleft := one_le_attemptsLeft (ht.1.wellFormed m (mem_held_of_waiting hp))
      cases place with
      | ready =>
        rw [stepsLeft] at hzero
        omega
      | unacked =>
        rw [stepsLeft] at hzero
        omega
      | stored queue =>
        have hmem : (queue, m) ∈ t.broker.stored := by
          simp only [waiting, List.mem_append, List.mem_map] at hp
          rcases hp with ⟨_, _, heq⟩ | ⟨_, _, heq⟩ | ⟨q, hq, heq⟩
          · cases heq
          · cases heq
          · cases heq
            exact hq
        rcases ht.2 _ hmem with hretry | hdlq
        · have hretry : queue ∈ retryQueues := hretry
          rw [stepsLeft, if_pos hretry] at hzero
          omega
        · obtain rfl : queue = "user_deleted_dlq" := hdlq
          refine ⟨m, ?_, hread⟩
          refine Multiset.mem_add.mpr (Or.inr (Multiset.mem_coe.mpr ?_))
          exact List.mem_map_of_mem (f := fun p : String × Message => (Place.stored p.1, p.2)) hmem
    · exact Or.inl hdone

/-- A consumer dies with an event in its hands; the next one fails four times. -/
theorem cascade_drains_of_four_failures :
    ∃ s₀ s t : System, ∃ as : List Event, s₀.step jsonFormat .crash = some s ∧ Traced jsonFormat s₀ 7 ∧
      as.countP isMove = 11 ∧ t.pending = 0 ∧
      as.countP isMove + t.pending ≤ 11 * as.countP isArrival + s.pending ∧
      (7 ∈ t.cascaded ∨ ∃ m, (Place.stored "user_deleted_dlq", m) ∈ t.broker.holdings ∧
        jsonFormat.fromSlice m.data = some 7) := by
  let serving : List Event := [.deliver 0, .handle ⟨.err, true, true⟩, .expire 0,
    .deliver 0, .handle ⟨.err, true, true⟩, .expire 0, .deliver 0, .handle ⟨.err, true, true⟩, .expire 0,
    .deliver 0, .handle ⟨.err, true, true⟩]
  obtain ⟨s₀, hrun, hs⟩ := exists_run_of_exec (System.step jsonFormat) Any System.init
    [.signup 7, .deleteUser 7 .ok, .publishDeleted 0 [] true, .deliver 0]
    (fun s₀ => s₀.broker.channel.buffer.any (fun d => jsonFormat.fromSlice d.msg.data = some 7) &&
      ((s₀.step jsonFormat .crash).any fun s =>
        (exec (System.step jsonFormat) System.Serving s serving).any fun t => t.pending = 0)) (by decide)
  simp only [Bool.and_eq_true, List.any_eq_true, decide_eq_true_eq] at hs
  obtain ⟨⟨d, hd, hread⟩, hs⟩ := hs
  cases hstart : s₀.step jsonFormat .crash with
  | none =>
    rw [hstart] at hs
    cases hs
  | some s =>
    rw [hstart] at hs
    obtain ⟨t, hserve, ht⟩ := exists_run_of_exec (System.step jsonFormat) System.Serving s serving _ hs
    simp only [decide_eq_true_eq] at ht
    have htraced : Traced jsonFormat s₀ 7 := by
      refine Or.inl ⟨d.msg, ?_, hread⟩
      refine Broker.mem_held_of_mem_holdings (p := (Place.unacked, d.msg)) ?_
      simp only [Broker.holdings, Channel.outstanding, Multiset.mem_add, Multiset.mem_coe, List.mem_map,
        List.mem_append]
      exact Or.inl (Or.inr ⟨d, Or.inr hd, rfl⟩)
    obtain ⟨hmoves, -, hdrained⟩ := cascade_drains hrun hstart hserve
    exact ⟨s₀, s, t, serving, hstart, htraced, rfl, ht, hmoves, hdrained ht 7 (Or.inl htraced)⟩

end Bittuly.UserDeleted
