import Bittuly.Lib.Channel
import Mathlib.Tactic.Abel

/-!
# A broker with named queues

Queues are declared by name, possibly with a message TTL and a dead-letter target. A publisher names a
routing key of the default exchange: a declared queue of that name receives the message, and a message
for any other key is dropped. One queue has a consumer channel; the others only store.

`holdings` is the multiset of messages with the place each is held in. `deliver`, `expire` and `ack`
move or remove exactly one entry of it.
-/

namespace Amqp

/-- What a queue does with a message whose TTL has passed. -/
structure DeadLetter where
  ttlMs : ℕ
  exchange : String
  routingKey : String
deriving DecidableEq, Repr

/-- A `queue.declare`. -/
structure QueueDecl where
  name : String
  deadLetter : Option DeadLetter := none
deriving DecidableEq, Repr

/-- The declared queues, the consumed one and the messages stored in the others. -/
structure Broker (M : Type*) where
  declared : List QueueDecl
  consumed : String
  channel : Channel M
  stored : List (String × M)

/-- Where the broker holds a message. -/
inductive Place
  | ready
  | unacked
  | stored (queue : String)
deriving DecidableEq, Repr

namespace Broker

variable {M : Type*}

/-- Every queue empty, the consumed one with a fresh channel. -/
def init (declared : List QueueDecl) (consumed : String) : Broker M where
  declared := declared
  consumed := consumed
  channel := .empty
  stored := []

/-- A queue of this name is declared. -/
def IsDeclared (b : Broker M) (name : String) : Prop :=
  name ∈ b.declared.map QueueDecl.name

instance (b : Broker M) (name : String) : Decidable (b.IsDeclared name) :=
  inferInstanceAs (Decidable (name ∈ _))

/-- Publish to the default exchange. -/
def publish (b : Broker M) (routingKey : String) (m : M) : Broker M :=
  if routingKey = b.consumed then { b with channel := b.channel.publish m }
  else if b.IsDeclared routingKey then { b with stored := b.stored ++ [(routingKey, m)] }
  -- the default exchange drops a message for an unknown queue
  else b

/-- The dead-letter target of a queue. -/
def deadLetter (b : Broker M) (name : String) : Option DeadLetter :=
  (b.declared.find? fun q => q.name = name).bind QueueDecl.deadLetter

/-- The TTL of the `i`-th stored message passes: its queue publishes it to the dead-letter target. -/
def expire (b : Broker M) (i : ℕ) : Option (Broker M) :=
  match b.stored[i]? with
  | none => none
  | some (queue, m) => (b.deadLetter queue).map fun dl =>
      { b with stored := b.stored.eraseIdx i }.publish dl.routingKey m

/-- The broker pushes the `i`-th ready message of the consumed queue. -/
def deliver (b : Broker M) (i : ℕ) : Option (Broker M) :=
  (b.channel.deliver i).map fun channel => { b with channel }

/-- The consumer takes its next delivery. -/
def next (b : Broker M) : Option (Delivery M × Broker M) :=
  b.channel.next.map fun r => (r.1, { b with channel := r.2 })

/-- The consumer acknowledges one delivery. -/
def ack (b : Broker M) (d : Delivery M) : Broker M :=
  { b with channel := b.channel.ack d.tag false }

/-- A publish that may get lost. -/
def tryPublish (b : Broker M) (routingKey : String) (m : M) (arrives : Bool) : Broker M :=
  if arrives then b.publish routingKey m else b

/-- An acknowledgement that may get lost. -/
def tryAck (b : Broker M) (d : Delivery M) (arrives : Bool) : Broker M :=
  if arrives then b.ack d else b

/-- The consumer's channel closes. -/
def recover (b : Broker M) : Broker M :=
  { b with channel := b.channel.recover }

/-- The messages the broker holds, with their places. -/
def holdings (b : Broker M) : Multiset (Place × M) :=
  (b.channel.ready.map fun m => (Place.ready, m) : List (Place × M)) +
    (b.channel.outstanding.map fun d => (Place.unacked, d.msg) : List (Place × M)) +
    (b.stored.map fun p => (Place.stored p.1, p.2) : List (Place × M))

/-- The messages the broker holds. -/
def held (b : Broker M) : Multiset M :=
  b.holdings.map Prod.snd

@[simp] theorem holdings_init (declared : List QueueDecl) (consumed : String) :
    (init declared consumed : Broker M).holdings = 0 := rfl

/-! ## Declarations never change -/

@[simp] theorem publish_declared (b : Broker M) (routingKey : String) (m : M) :
    (b.publish routingKey m).declared = b.declared := by
  unfold publish
  split
  · rfl
  · split <;> rfl

@[simp] theorem publish_consumed (b : Broker M) (routingKey : String) (m : M) :
    (b.publish routingKey m).consumed = b.consumed := by
  unfold publish
  split
  · rfl
  · split <;> rfl

@[simp] theorem ack_consumed (b : Broker M) (d : Delivery M) : (b.ack d).consumed = b.consumed := rfl

@[simp] theorem tryPublish_declared (b : Broker M) (routingKey : String) (m : M) (arrives : Bool) :
    (b.tryPublish routingKey m arrives).declared = b.declared := by
  cases arrives
  · rfl
  · exact publish_declared b routingKey m

@[simp] theorem tryPublish_consumed (b : Broker M) (routingKey : String) (m : M) (arrives : Bool) :
    (b.tryPublish routingKey m arrives).consumed = b.consumed := by
  cases arrives
  · rfl
  · exact publish_consumed b routingKey m

@[simp] theorem tryAck_declared (b : Broker M) (d : Delivery M) (arrives : Bool) :
    (b.tryAck d arrives).declared = b.declared := by
  cases arrives <;> rfl

@[simp] theorem tryAck_consumed (b : Broker M) (d : Delivery M) (arrives : Bool) :
    (b.tryAck d arrives).consumed = b.consumed := by
  cases arrives <;> rfl

theorem tryAck_isDeclared {b : Broker M} {d : Delivery M} {arrives : Bool} {name : String} :
    (b.tryAck d arrives).IsDeclared name ↔ b.IsDeclared name := by
  rw [IsDeclared, IsDeclared, tryAck_declared]

theorem deliver_declared {b b' : Broker M} {i : ℕ} (h : b.deliver i = some b') :
    b'.declared = b.declared ∧ b'.consumed = b.consumed := by
  obtain ⟨channel, -, rfl⟩ := Option.map_eq_some_iff.mp h
  exact ⟨rfl, rfl⟩

theorem expire_declared {b b' : Broker M} {i : ℕ} (h : b.expire i = some b') :
    b'.declared = b.declared ∧ b'.consumed = b.consumed := by
  unfold expire at h
  split at h
  · cases h
  · obtain ⟨dl, -, rfl⟩ := Option.map_eq_some_iff.mp h
    exact ⟨publish_declared _ _ _, publish_consumed _ _ _⟩

/-! ## What each operation does to the holdings -/

theorem holdings_publish_consumed (b : Broker M) (m : M) :
    (b.publish b.consumed m).holdings = (Place.ready, m) ::ₘ b.holdings := by
  rw [publish, if_pos rfl, ← Multiset.singleton_add]
  simp only [holdings, Channel.outstanding, Channel.publish_ready, Channel.publish_taken,
    Channel.publish_buffer, List.map_append, List.map_cons, List.map_nil, ← Multiset.coe_add,
    Multiset.coe_singleton]
  abel

theorem holdings_publish_stored {b : Broker M} {queue : String} (hne : queue ≠ b.consumed)
    (hdecl : b.IsDeclared queue) (m : M) :
    (b.publish queue m).holdings = (Place.stored queue, m) ::ₘ b.holdings := by
  rw [publish, if_neg hne, if_pos hdecl, ← Multiset.singleton_add]
  simp only [holdings, List.map_append, List.map_cons, List.map_nil, ← Multiset.coe_add,
    Multiset.coe_singleton]
  abel

/-- Removing one entry of a list takes it out of the multiset. -/
private theorem coe_eraseIdx {α : Type*} {l : List α} {i : ℕ} {a : α} (h : l[i]? = some a) :
    (l : Multiset α) = a ::ₘ (l.eraseIdx i : List α) := by
  obtain ⟨hi, rfl⟩ := List.getElem?_eq_some_iff.mp h
  rw [Multiset.cons_coe, Multiset.coe_eq_coe]
  exact (List.getElem_cons_eraseIdx_perm hi).symm

/-- A push moves one ready message to the consumer. -/
theorem holdings_deliver {b b' : Broker M} {i : ℕ} (h : b.deliver i = some b') :
    ∃ m H, b.holdings = (Place.ready, m) ::ₘ H ∧ b'.holdings = (Place.unacked, m) ::ₘ H := by
  obtain ⟨channel, hc, rfl⟩ := Option.map_eq_some_iff.mp h
  obtain ⟨m, hm, hready, htaken, hbuffer, -⟩ := Channel.deliver_eq_some hc
  have hsplit := congrArg (Multiset.map fun m => (Place.ready, m)) (coe_eraseIdx hm)
  rw [Multiset.map_coe, Multiset.map_cons, Multiset.map_coe] at hsplit
  refine ⟨m, (((b.channel.ready.eraseIdx i).map fun m => (Place.ready, m) : List (Place × M)) +
    (b.channel.outstanding.map fun d => (Place.unacked, d.msg) : List (Place × M)) +
    (b.stored.map fun p => (Place.stored p.1, p.2) : List (Place × M))), ?_, ?_⟩
  · rw [holdings, hsplit, Multiset.cons_add, Multiset.cons_add]
  · rw [← Multiset.singleton_add]
    simp only [holdings, Channel.outstanding, hready, htaken, hbuffer, List.map_append,
      List.map_cons, List.map_nil, ← Multiset.coe_add, Multiset.coe_singleton]
    abel

/-- Taking a delivery leaves it unacknowledged. -/
theorem holdings_next {b b' : Broker M} {d : Delivery M} (h : b.next = some (d, b')) :
    b'.holdings = b.holdings := by
  obtain ⟨⟨e, channel⟩, hc, heq⟩ := Option.map_eq_some_iff.mp h
  simp only [Prod.mk.injEq] at heq
  obtain ⟨rfl, rfl⟩ := heq
  obtain ⟨hbuffer, hready, htaken, -⟩ := Channel.next_eq_some hc
  simp [holdings, Channel.outstanding, hready, htaken, hbuffer]

/-- A delivery just taken is outstanding. -/
theorem next_mem_outstanding {b b' : Broker M} {d : Delivery M} (h : b.next = some (d, b')) :
    d ∈ b'.channel.outstanding := by
  obtain ⟨⟨e, channel⟩, hc, heq⟩ := Option.map_eq_some_iff.mp h
  simp only [Prod.mk.injEq] at heq
  obtain ⟨rfl, rfl⟩ := heq
  obtain ⟨-, -, htaken, -⟩ := Channel.next_eq_some hc
  simp [Channel.outstanding, htaken]

theorem next_declared {b b' : Broker M} {d : Delivery M} (h : b.next = some (d, b')) :
    b'.declared = b.declared ∧ b'.consumed = b.consumed := by
  obtain ⟨⟨e, channel⟩, -, heq⟩ := Option.map_eq_some_iff.mp h
  simp only [Prod.mk.injEq] at heq
  obtain ⟨-, rfl⟩ := heq
  exact ⟨rfl, rfl⟩

/-- An acknowledgement removes its delivery and nothing else. -/
theorem holdings_ack {b : Broker M} {d : Delivery M} (hd : d ∈ b.channel.outstanding) :
    b.holdings = (Place.unacked, d.msg) ::ₘ (b.ack d).holdings := by
  have hsplit := congrArg (Multiset.map fun d => (Place.unacked, d.msg))
    (Channel.outstanding_ack_one hd)
  rw [Multiset.map_coe, Multiset.map_cons, Multiset.map_coe] at hsplit
  rw [holdings, hsplit, Multiset.add_cons, Multiset.cons_add]
  rfl

/-- An expiry moves one stored message to the dead-letter target of its queue. -/
theorem holdings_expire {b b' : Broker M} {i : ℕ} (h : b.expire i = some b') :
    ∃ queue m dl, b.deadLetter queue = some dl ∧
      b' = { b with stored := b.stored.eraseIdx i }.publish dl.routingKey m ∧
      b.holdings = (Place.stored queue, m) ::ₘ
        ({ b with stored := b.stored.eraseIdx i } : Broker M).holdings := by
  unfold expire at h
  split at h
  · cases h
  · rename_i queue m hm
    obtain ⟨dl, hdl, rfl⟩ := Option.map_eq_some_iff.mp h
    have hsplit := congrArg (Multiset.map fun p : String × M => (Place.stored p.1, p.2))
      (coe_eraseIdx hm)
    rw [Multiset.map_coe, Multiset.map_cons, Multiset.map_coe] at hsplit
    refine ⟨queue, m, dl, hdl, rfl, ?_⟩
    rw [holdings, hsplit, Multiset.add_cons]
    rfl

/-- Publishing and acknowledging commute. -/
theorem publish_ack (b : Broker M) (routingKey : String) (m : M) (d : Delivery M) :
    (b.publish routingKey m).ack d = (b.ack d).publish routingKey m := by
  by_cases hconsumed : routingKey = b.consumed
  · simp only [publish, hconsumed, ack_consumed, if_true]
    rfl
  · by_cases hdecl : b.IsDeclared routingKey
    · have hdecl' : (b.ack d).IsDeclared routingKey := hdecl
      simp only [publish, hconsumed, hdecl, hdecl', ack_consumed, if_true, if_false]
      rfl
    · have hdecl' : ¬ (b.ack d).IsDeclared routingKey := hdecl
      simp only [publish, hconsumed, hdecl, hdecl', ack_consumed, if_false]

theorem tryPublish_tryAck (b : Broker M) (routingKey : String) (m : M) (d : Delivery M)
    (published acked : Bool) :
    (b.tryPublish routingKey m published).tryAck d acked =
      (b.tryAck d acked).tryPublish routingKey m published := by
  cases published <;> cases acked <;> simp [tryPublish, tryAck, publish_ack]

/-! ## The held messages, places forgotten -/

theorem mem_held_of_mem_holdings {b : Broker M} {p : Place × M} (h : p ∈ b.holdings) :
    p.2 ∈ b.held :=
  Multiset.mem_map_of_mem _ h

@[simp] theorem held_init (declared : List QueueDecl) (consumed : String) :
    (init declared consumed : Broker M).held = 0 := rfl

theorem held_publish {b : Broker M} {routingKey : String} (h : b.IsDeclared routingKey) (m : M) :
    (b.publish routingKey m).held = m ::ₘ b.held := by
  by_cases hconsumed : routingKey = b.consumed
  · rw [hconsumed, held, holdings_publish_consumed, Multiset.map_cons]
    rfl
  · rw [held, holdings_publish_stored hconsumed h, Multiset.map_cons]
    rfl

/-- A publish that may get lost adds its message or nothing. -/
theorem mem_held_tryPublish {b : Broker M} {routingKey : String} (h : b.IsDeclared routingKey)
    {m m' : M} {arrives : Bool} :
    m' ∈ (b.tryPublish routingKey m arrives).held ↔ arrives = true ∧ m' = m ∨ m' ∈ b.held := by
  cases arrives with
  | false => simp [tryPublish]
  | true => simp [tryPublish, held_publish h]

theorem held_deliver {b b' : Broker M} {i : ℕ} (h : b.deliver i = some b') : b'.held = b.held := by
  obtain ⟨m, H, hb, hb'⟩ := holdings_deliver h
  rw [held, held, hb, hb', Multiset.map_cons, Multiset.map_cons]

theorem held_next {b b' : Broker M} {d : Delivery M} (h : b.next = some (d, b')) :
    b'.held = b.held := by
  rw [held, held, holdings_next h]

theorem held_ack {b : Broker M} {d : Delivery M} (hd : d ∈ b.channel.outstanding) :
    b.held = d.msg ::ₘ (b.ack d).held := by
  rw [held, holdings_ack hd, Multiset.map_cons]
  rfl

/-- Acknowledging a delivery, or failing to, leaves no new message. -/
theorem mem_held_of_tryAck {b : Broker M} {d : Delivery M} (hd : d ∈ b.channel.outstanding)
    {arrives : Bool} {m : M} (h : m ∈ (b.tryAck d arrives).held) : m ∈ b.held := by
  cases arrives
  · exact h
  · rw [held_ack hd]
    exact Multiset.mem_cons_of_mem h

/-- An expiry keeps the message when its dead-letter target is declared. -/
theorem held_expire {b b' : Broker M} {i : ℕ} (h : b.expire i = some b')
    (hdecl : ∀ queue dl, b.deadLetter queue = some dl → b.IsDeclared dl.routingKey) :
    b'.held = b.held := by
  obtain ⟨queue, m, dl, hdl, rfl, hb⟩ := holdings_expire h
  have hdecl' : ({ b with stored := b.stored.eraseIdx i } : Broker M).IsDeclared dl.routingKey :=
    hdecl queue dl hdl
  rw [held_publish hdecl', held, held, hb, Multiset.map_cons]

/-- A closing channel makes its deliveries ready again; the broker holds the same messages. -/
theorem held_recover (b : Broker M) : b.recover.held = b.held := by
  have hready : ∀ l : List M, (l.map fun m => (Place.ready, m)).map Prod.snd = l := by
    intro l
    simp [Function.comp_def]
  have hunacked : ∀ l : List (Delivery M),
      (l.map fun d => (Place.unacked, d.msg)).map Prod.snd = l.map Delivery.msg := by
    intro l
    simp [Function.comp_def]
  simp only [held, holdings, Multiset.map_add, Multiset.map_coe, hready, hunacked]
  have hcontents := Channel.contents_recover b.channel
  simp only [Channel.contents] at hcontents
  simp only [recover]
  rw [hcontents]

end Broker

end Amqp
