import Bittuly.Basic
import Bittuly.Lib.Broker
import Bittuly.Lib.Run
import Mathlib

/-!
# The user deletion cascade

References: `services/auth-service/src/handlers.rs` (`delete_user`), `libs/shared/src/rabbitmq.rs`
(`RabbitMqPublisher::publish`), `services/consumer-service/src/main.rs` (queue declarations and the
second spawned task).

auth-service deletes the `users` row, publishes a `user_deleted` event and answers 204 whatever
`publish` returned. The consumer deletes the user's `urls` rows. When that `DELETE` fails it republishes
the event: to the retry queue named by the event's `x-retry-count`, whose TTL brings it back, or to the
dead letter queue once the count has reached 3. It then acknowledges the delivery in every case.

The services ask for no confirms: a message that no queue takes is dropped while `publish` returns `Ok`. So a
publish fails here when its event does not reach the queue, whatever it returns. The broker does not restart.

JSON is `serde_json`'s: `EventFormat` carries what the two services rely on, that the consumer reads back
the user id auth-service wrote.
-/

namespace Bittuly.UserDeleted

open Amqp

/-! ## Messages -/

/-- An AMQP field value; the services look into two kinds only. -/
inductive AMQPValue
  | LongInt (value : Int32)
  | LongString (value : String)
  | other (kind : ℕ)
deriving DecidableEq, Repr

/-- An AMQP field table. -/
abbrev FieldTable := AList fun _ : String => AMQPValue

/-- A message of the cascade: its payload and the headers of its properties. `id` names the event it is
a copy of. -/
structure Message where
  id : ℕ
  data : ByteArray
  headers : Option FieldTable

/-- The JSON encoding of `UserDeletedEvent`: `to_string` in auth-service, `from_slice` in the consumer. -/
structure EventFormat where
  toJson : Uuid → ByteArray
  fromSlice : ByteArray → Option Uuid
  fromSlice_toJson : ∀ userId, fromSlice (toJson userId) = some userId

/-- The payload auth-service writes, a JSON object with one member. -/
def userIdJson (userId : Uuid) : ByteArray :=
  ⟨("\x7b\"user_id\":\"".toUTF8.data.toList ++ userId.hyphenated ++ "\"\x7d".toUTF8.data.toList).toArray⟩

/-- `serde_json` on exactly the payloads auth-service writes. -/
def jsonFormat : EventFormat where
  toJson := userIdJson
  fromSlice data :=
    let userId := Uuid.digits ((data.data.toList.drop 12).take 36)
    if userIdJson userId = data then some userId else none
  fromSlice_toJson userId := by
    have hopen : "\x7b\"user_id\":\"".toUTF8.data.toList.length = 12 := by decide
    have hdigits : ((userIdJson userId).data.toList.drop 12).take 36 = userId.hyphenated := by
      rw [userIdJson, List.append_assoc, ← hopen, List.drop_left, ← Uuid.hyphenated_length userId,
        List.take_left]
    simp only [hdigits, Uuid.digits_hyphenated, if_true]

/-- `RabbitMqPublisher::publish`: the trace context becomes `LongString` headers. -/
def traceHeaders (carrier : List (String × String)) : FieldTable :=
  carrier.foldl (fun headers kv => headers.insert kv.1 (.LongString kv.2)) ∅

/-! ## Queues -/

/-- The name of the retry queue with this delay. -/
def retryQueue {α : Type*} [ToString α] (delay : α) : String :=
  s!"user_deleted_retry_{delay}s"

/-- `queue_declare` of a retry queue. -/
def declareRetry (delay : ℕ) : QueueDecl where
  name := retryQueue delay
  deadLetter := some { ttlMs := delay * 1000, exchange := "", routingKey := "user_deleted_queue" }

/-- The queues the consumer declares, in source order. -/
def declaredQueues : List QueueDecl :=
  { name := "user_deleted_dlq" } :: [3, 9, 27].map declareRetry ++
    [{ name := "click_events_queue" }, { name := "user_deleted_queue" }]

/-! ## Handling one delivery -/

/-- The `x-retry-count` header; 0 when it is absent or not a `LongInt`. -/
def xRetryCount (m : Message) : Int32 :=
  match m.headers with
  | none => 0
  | some headers =>
    match headers.lookup "x-retry-count" with
    | some (.LongInt count) => count
    | _ => 0

/-- `3_i32.pow(retry_count as u32 + 1)`; `none` when the addition or the power overflows. -/
def delaySecs (retryCount : Int32) : Option Int32 :=
  let exponent := retryCount.toUInt32.toNat + 1
  if exponent < 2 ^ 32 ∧ 3 ^ exponent < 2 ^ 31 then some (Int32.ofNat (3 ^ exponent)) else none

/-- The copy published to a retry queue: the same properties with the count raised by one. -/
def bumpRetry (m : Message) : Message :=
  { m with
    headers := some ((m.headers.getD ∅).insert "x-retry-count" (.LongInt (xRetryCount m + 1))) }

/-- Where a failed event goes: the routing key and the message to publish. `none` is the overflow of
`delaySecs`, a panic. -/
def route (m : Message) : Option (String × Message) :=
  if 3 ≤ xRetryCount m then some ("user_deleted_dlq", m)
  else (delaySecs (xRetryCount m)).map fun delay => (retryQueue delay, bumpRetry m)

/-- How the environment answers the fallible calls of one delivery. -/
structure Outcome where
  /-- `DELETE FROM urls WHERE user_id = $1 RETURNING short_code`. -/
  delete : DbResult
  /-- `basic_publish` of the failure path reaches the broker. -/
  publish : Bool
  /-- The acknowledgement reaches the broker. -/
  ack : Bool
deriving DecidableEq, Repr

/-! ## Routing -/

/-- The retry queues, by delay. -/
def retryQueues : List String :=
  [3, 9, 27].map retryQueue

theorem retryQueues_declared {queue : String} (h : queue ∈ retryQueues) :
    queue ∈ declaredQueues.map QueueDecl.name ∧ queue ≠ "user_deleted_queue" ∧
      queue ≠ "user_deleted_dlq" := by
  revert queue
  decide

/-- Every dead-letter target is the work queue. -/
theorem deadLetter_routingKey {b : Broker Message} (hdecl : b.declared = declaredQueues)
    {queue : String} {dl : DeadLetter} (h : b.deadLetter queue = some dl) :
    dl.routingKey = "user_deleted_queue" := by
  obtain ⟨q, hq, hdl⟩ := Option.bind_eq_some_iff.mp h
  have hmem : q ∈ declaredQueues := hdecl ▸ List.mem_of_find?_eq_some hq
  have hall : ∀ q ∈ declaredQueues, ∀ dl ∈ q.deadLetter, dl.routingKey = "user_deleted_queue" := by
    decide
  exact hall q hmem dl hdl

@[simp] theorem bumpRetry_id (m : Message) : (bumpRetry m).id = m.id := rfl

theorem xRetryCount_bumpRetry (m : Message) :
    xRetryCount (bumpRetry m) = xRetryCount m + 1 := by
  have hlookup : ((m.headers.getD ∅).insert "x-retry-count" (.LongInt (xRetryCount m + 1))).lookup
      "x-retry-count" = some (.LongInt (xRetryCount m + 1)) := AList.lookup_insert _
  rw [xRetryCount, bumpRetry]
  simp only [hlookup]

/-- Every header of the trace context is a string. -/
theorem traceHeaders_lookup (carrier : List (String × String)) :
    ∀ key value, (traceHeaders carrier).lookup key = some value → ∃ text, value = .LongString text := by
  refine List.foldlRecOn (motive := fun headers : FieldTable => ∀ key value,
    headers.lookup key = some value → ∃ text, value = AMQPValue.LongString text) carrier _ ?_ ?_
  · intro key value hv
    simp at hv
  · intro headers hh kv _ key value hv
    by_cases hkey : key = kv.1
    · subst hkey
      rw [AList.lookup_insert] at hv
      exact ⟨kv.2, (Option.some.inj hv).symm⟩
    · rw [AList.lookup_insert_ne hkey] at hv
      exact hh key value hv

/-- A published event has not been retried. -/
theorem xRetryCount_traceHeaders (id : ℕ) (data : ByteArray) (carrier : List (String × String)) :
    xRetryCount ⟨id, data, some (traceHeaders carrier)⟩ = 0 := by
  unfold xRetryCount
  simp only
  split
  · rename_i count hlookup
    obtain ⟨text, htext⟩ := traceHeaders_lookup carrier _ _ hlookup
    cases htext
  · rfl

/-- Below three retries the event goes to a retry queue, its count raised. -/
theorem route_retry {m : Message} {n : ℕ} (hn : n < 3) (hm : xRetryCount m = Int32.ofNat n) :
    ∃ queue ∈ retryQueues, route m = some (queue, bumpRetry m) := by
  have hstep : ∀ n < 3, ¬ (3 : Int32) ≤ Int32.ofNat n ∧
      ∃ delay, delaySecs (Int32.ofNat n) = some delay ∧ retryQueue delay ∈ retryQueues := by
    intro n hn
    interval_cases n
    · exact ⟨by decide, 3, by decide, by decide⟩
    · exact ⟨by decide, 9, by decide, by decide⟩
    · exact ⟨by decide, 27, by decide, by decide⟩
  obtain ⟨hlt, delay, hdelay, hmem⟩ := hstep n hn
  refine ⟨retryQueue delay, hmem, ?_⟩
  rw [route, hm, if_neg hlt, hdelay, Option.map_some]

/-- After three retries the event goes to the dead letter queue as it is. -/
theorem route_dlq {m : Message} (hm : xRetryCount m = Int32.ofNat 3) :
    route m = some ("user_deleted_dlq", m) := by
  rw [route, hm, if_pos (by decide)]

/-! ## The services around the broker -/

/-- The broker, the two databases as far as the cascade touches them, and the history of the run. -/
structure System where
  broker : Broker Message
  /-- Rows of `users`. -/
  users : List Uuid
  /-- `delete_user` requests whose `DELETE` is done and whose event is not published yet. -/
  deleting : List Uuid
  /-- Users whose `delete_user` answered 204. -/
  answered : List Uuid
  /-- Users whose `DELETE FROM urls` has committed. -/
  cascaded : List Uuid
  /-- Events that auth-service published. -/
  events : List Message
  /-- Deliveries acknowledged after their `DELETE` committed. -/
  completed : List Message
  /-- Handled deliveries and failed `DELETE`s of each event. -/
  attempts : ℕ → ℕ
  failures : ℕ → ℕ
  /-- Routing keys the consumer published to. -/
  routedTo : List String
  /-- The consumer task panicked. -/
  panicked : Bool

/-- One step of the services. -/
inductive Event
  /-- A user is created. -/
  | signup (userId : Uuid)
  /-- `delete_user`: the `DELETE FROM users` of a request; an `Err` answers 500. -/
  | deleteUser (userId : Uuid) (result : DbResult)
  /-- `delete_user` drops the result of `EventPublisher::publish` and answers 204. `ok` is whether the event
  has reached its queue. It carries the trace context as string headers. -/
  | publishDeleted (k : ℕ) (carrier : List (String × String)) (ok : Bool)
  /-- The broker pushes the `i`-th ready event. -/
  | deliver (i : ℕ)
  /-- The consumer takes its next delivery and handles it. -/
  | handle (o : Outcome)
  /-- The TTL of the `i`-th stored message passes. -/
  | expire (i : ℕ)
  /-- The consumer dies and starts again; its channel closes. -/
  | crash

namespace System

/-- Declared, empty queues and no users. -/
def init : System where
  broker := .init declaredQueues "user_deleted_queue"
  users := []
  deleting := []
  answered := []
  cascaded := []
  events := []
  completed := []
  attempts := fun _ => 0
  failures := fun _ => 0
  routedTo := []
  panicked := false

/-- Acknowledge a delivery, if the acknowledgement arrives. -/
def ack (s : System) (d : Delivery Message) (arrives : Bool) : System :=
  { s with broker := s.broker.tryAck d arrives }

/-- The `Ok` arm: the user's rows are gone. -/
def succeed (s : System) (d : Delivery Message) (userId : Uuid) (o : Outcome) : System :=
  { s with
    cascaded := s.cascaded ++ [userId]
    attempts := Function.update s.attempts d.msg.id (s.attempts d.msg.id + 1)
    completed := if o.ack then s.completed ++ [d.msg] else s.completed }.ack d o.ack

/-- The `Err` arm: republish, then acknowledge whatever `basic_publish` returned. -/
def retry (s : System) (d : Delivery Message) (userId : Uuid) (o : Outcome) : System :=
  let s := { s with
    cascaded := if o.delete.applied then s.cascaded ++ [userId] else s.cascaded
    attempts := Function.update s.attempts d.msg.id (s.attempts d.msg.id + 1)
    failures := Function.update s.failures d.msg.id (s.failures d.msg.id + 1) }
  match route d.msg with
  -- `pow` overflows: the task ends, nothing is sent
  | none => { s with panicked := true }
  | some (key, m) =>
    { s with
      broker := s.broker.tryPublish key m o.publish
      routedTo := s.routedTo ++ [key] }.ack d o.ack

/-- The `Err` arm for a routed event, the acknowledgement moved before the republish. -/
theorem retry_eq (s : System) (d : Delivery Message) (userId : Uuid) (o : Outcome) {key : String}
    {m : Message} (hroute : route d.msg = some (key, m)) :
    s.retry d userId o = { s with
      broker := (s.broker.tryAck d o.ack).tryPublish key m o.publish
      cascaded := if o.delete.applied then s.cascaded ++ [userId] else s.cascaded
      attempts := Function.update s.attempts d.msg.id (s.attempts d.msg.id + 1)
      failures := Function.update s.failures d.msg.id (s.failures d.msg.id + 1)
      routedTo := s.routedTo ++ [key] } := by
  rw [retry, hroute]
  simp only [ack, Broker.tryPublish_tryAck]

variable (format : EventFormat)

/-- Handle one delivery; an unreadable payload is acknowledged and dropped. -/
def handle (s : System) (d : Delivery Message) (o : Outcome) : System :=
  match format.fromSlice d.msg.data with
  -- invalid format: acknowledged to discard
  | none => s.ack d o.ack
  | some userId => if o.delete = .ok then s.succeed d userId o else s.retry d userId o

/-- The event that `delete_user` publishes. -/
def deletedEvent (s : System) (userId : Uuid) (carrier : List (String × String)) : Message where
  id := s.events.length
  data := format.toJson userId
  headers := some (traceHeaders carrier)

/-- One step of the services. -/
def step (s : System) : Event → Option System
  | .signup userId => some { s with users := s.users ++ [userId] }
  | .deleteUser userId result =>
    let users := if result.applied then s.users.filter (· ≠ userId) else s.users
    some { s with users, deleting := if result = .ok then s.deleting ++ [userId] else s.deleting }
  | .publishDeleted k carrier ok =>
    s.deleting[k]?.map fun userId =>
      let s := { s with deleting := s.deleting.eraseIdx k, answered := s.answered ++ [userId] }
      if ok then
        let m := s.deletedEvent format userId carrier
        { s with broker := s.broker.publish "user_deleted_queue" m, events := s.events ++ [m] }
      -- the error is dropped, the request has answered 204
      else s
  | .deliver i => (s.broker.deliver i).map fun broker => { s with broker }
  | .handle o =>
    if s.panicked then none
    else s.broker.next.map fun r => { s with broker := r.2 }.handle format r.1 o
  | .expire i => (s.broker.expire i).map fun broker => { s with broker }
  | .crash => some { s with broker := s.broker.recover, panicked := false }

end System

end Bittuly.UserDeleted
