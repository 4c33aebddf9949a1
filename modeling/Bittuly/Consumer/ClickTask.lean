import Bittuly.Lib.Channel
import Bittuly.Lib.Run
import Bittuly.Lib.Tally
import Mathlib

/-!
# The click events task of consumer-service

Reference: `services/consumer-service/src/main.rs`, the first spawned task.

The task takes deliveries of `click_events_queue` one by one, counts their short codes in `batch`, and
flushes the batch into Postgres when it holds 17 clicks or when the 30-second timer ticks. A flush that
commits acknowledges every tag up to the last counted one and clears the batch. A flush that fails
sleeps, asks for the same tags to be requeued, and keeps the batch.

`System` puts the task next to its queue. A label of `step` carries the choices of the environment:
which message the broker pushes, whether the `UPDATE` commits and whether the `ack` or `nack` that
follows reaches the broker.
-/

namespace Bittuly.Clicks

open Amqp

/-- A message of `click_events_queue`. Its payload is the bytes of a short code; `id` tells the
publications of one payload apart. -/
structure ClickEvent where
  id : ℕ
  data : ByteArray
deriving DecidableEq

/-- `String::from_utf8(delivery.data)`: malformed payloads have no short code. -/
def ClickEvent.shortCode (m : ClickEvent) : Option String :=
  String.fromUTF8? m.data

/-! ## The task -/

/-- The local variables of the task's loop. -/
structure ClickTask where
  batch : Tally String
  totalClicks : ℕ
  lastDeliveryTag : Option ℕ
  consecutiveFailures : ℕ

/-- What the task asks of the broker after a flush; both are sent with `multiple: true`. -/
inductive Reply
  | ack (tag : ℕ)
  | nack (tag : ℕ)
deriving DecidableEq, Repr

namespace ClickTask

/-- The variables when the task starts. -/
def init : ClickTask where
  batch := ∅
  totalClicks := 0
  lastDeliveryTag := none
  consecutiveFailures := 0

/-- The size trigger. -/
def flushSize : ℕ := 17

/-- Count one click and remember its delivery tag. -/
def count (t : ClickTask) (shortCode : String) (deliveryTag : ℕ) : ClickTask :=
  { t with
    batch := t.batch.bump shortCode
    totalClicks := t.totalClicks + 1
    lastDeliveryTag := some deliveryTag }

/-- The `Ok` arm of a flush: acknowledge the last tag, then clear the batch. -/
def flushed (t : ClickTask) : ClickTask × Option Reply :=
  ({ batch := ∅, totalClicks := 0, lastDeliveryTag := none, consecutiveFailures := 0 },
    t.lastDeliveryTag.map .ack)

/-- How long the `Err` arm sleeps: 3, 9, then 27 seconds. -/
def backoffSecs (t : ClickTask) : ℕ :=
  3 ^ (min t.consecutiveFailures 2 + 1)

/-- The `Err` arm of a flush: after the back-off, ask for a requeue up to the last tag. The batch and
its total are kept. -/
def flushFailed (t : ClickTask) : ClickTask × Option Reply :=
  ({ t with consecutiveFailures := t.consecutiveFailures + 1, lastDeliveryTag := none },
    t.lastDeliveryTag.map .nack)

end ClickTask

/-! ## The task and its queue -/

/-- A call of `increment_click_counts` that committed: the batch it was given, and the deliveries
counted in that batch. -/
structure Flush where
  batch : Tally String
  counted : List (Delivery ClickEvent)

/-- The queue, the task and the history of both. `counted` lists the deliveries counted in the current
batch, `acked` the deliveries the broker removed because of an acknowledgement. -/
structure System where
  queue : Channel ClickEvent
  task : ClickTask
  counted : List (Delivery ClickEvent)
  flushes : List Flush
  acked : List (Delivery ClickEvent)
  published : List ClickEvent

/-- How the environment answers a flush, if the step makes one. -/
structure Outcome where
  /-- `increment_click_counts` returns `Ok`, its `UPDATE` committed. -/
  update : Bool
  /-- The `ack` or `nack` reaches the broker. -/
  settle : Bool
deriving DecidableEq, Repr

/-- One step of the system. -/
inductive Event
  /-- A publisher appends a message with this payload. -/
  | publish (data : ByteArray)
  /-- The broker pushes the `i`-th ready message. -/
  | deliver (i : ℕ)
  /-- The task takes the next delivery. -/
  | next (o : Outcome)
  /-- The flush timer ticks. -/
  | tick (o : Outcome)
  /-- The process dies and starts again; its channel closes. -/
  | crash
deriving DecidableEq

namespace System

/-- An empty queue and a fresh task. -/
def init : System where
  queue := .empty
  task := .init
  counted := []
  flushes := []
  acked := []
  published := []

/-- The broker's side of a reply. -/
def settle (s : System) : Reply → System
  | .ack tag =>
    { s with queue := s.queue.ack tag true, acked := s.acked ++ s.queue.settled tag true }
  | .nack tag => { s with queue := s.queue.requeue tag true }

/-- Send a reply; it has no effect when there is none or when it does not arrive. -/
def send (s : System) (arrives : Bool) (reply : Option Reply) : System :=
  match reply with
  | some r => if arrives then s.settle r else s
  | none => s

/-- A flush whose `UPDATE` committed. -/
def commit (s : System) : System :=
  { s with
    task := s.task.flushed.1
    counted := []
    flushes := s.flushes ++ [⟨s.task.batch, s.counted⟩] }

/-- A flush that failed. -/
def fail (s : System) : System :=
  { s with task := s.task.flushFailed.1 }

/-- Flush the batch, as both triggers do. -/
def flush (s : System) (o : Outcome) : System :=
  if o.update then s.commit.send o.settle s.task.flushed.2
  else s.fail.send o.settle s.task.flushFailed.2

/-- Count a delivery whose payload is a short code. -/
def count (s : System) (d : Delivery ClickEvent) (shortCode : String) : System :=
  { s with task := s.task.count shortCode d.tag, counted := s.counted ++ [d] }

/-- The delivery branch of the loop: a malformed payload is skipped, a click is counted and the 17th
one flushes. -/
def onDelivery (s : System) (d : Delivery ClickEvent) (o : Outcome) : System :=
  match d.msg.shortCode with
  -- neither counted nor settled: the reply for a later tag covers it
  | none => s
  | some shortCode =>
    let s := s.count d shortCode
    if ClickTask.flushSize ≤ s.task.totalClicks then s.flush o else s

/-- The timer branch of the loop: an empty batch is not flushed. -/
def onTick (s : System) (o : Outcome) : System :=
  if s.task.batch.entries.isEmpty then s else s.flush o

/-- One step of the queue or the task. -/
def step (s : System) : Event → Option System
  | .publish data =>
    let m : ClickEvent := ⟨s.published.length, data⟩
    some { s with queue := s.queue.publish m, published := s.published ++ [m] }
  | .deliver i => (s.queue.deliver i).map fun queue => { s with queue }
  | .next o => s.queue.next.map fun (d, queue) => { s with queue }.onDelivery d o
  | .tick o => some (s.onTick o)
  -- the batch dies with the process, the messages do not
  | .crash => some { s with queue := s.queue.recover, task := .init, counted := [] }

end System

end Bittuly.Clicks
