import Bittuly.Consumer.ClickSafety

/-!
# The counters of the click events loop

Reference: `services/consumer-service/src/main.rs`, the first spawned task.

`ClickLoop` is the loop alone, driven by whatever the two branches of its `select!` yield. It keeps the
tag of the last valid delivery and the flushes it has tried. `System` runs the same loop next to a queue.
-/

namespace Bittuly.Clicks

open Amqp Runs

/-- Which branch flushes. -/
inductive Trigger
  | size
  | timer
deriving DecidableEq, Repr

/-- A call of `increment_click_counts`: the clicks in its batch, and whether it returned `Ok`. -/
structure Attempt where
  trigger : Trigger
  clicks : ℕ
  ok : Bool
deriving DecidableEq, Repr

/-- The size of a flush when the one before it succeeded. -/
def Attempt.Sized (a : Attempt) : Prop :=
  match a.trigger with
  | .size => a.clicks = 17
  | .timer => 1 ≤ a.clicks ∧ a.clicks ≤ 16

/-- The task at the head of its loop. -/
structure ClickLoop where
  task : ClickTask
  /-- The tag of the last delivery with a short code. -/
  lastValid : Option ℕ
  /-- The flushes so far, the latest first. -/
  attempts : List Attempt

/-- What the `select!` yields, with the result of the flush if it comes to one. -/
inductive LoopEvent
  /-- `maybe_delivery`. -/
  | delivery (d : Option (Delivery ClickEvent)) (ok : Bool)
  | tick (ok : Bool)

namespace ClickLoop

def init : ClickLoop where
  task := .init
  lastValid := none
  attempts := []

/-- Either arm of a flush. -/
def flush (s : ClickLoop) (trigger : Trigger) (ok : Bool) : ClickLoop :=
  { s with
    task := if ok then s.task.flushed.1 else s.task.flushFailed.1
    attempts := { trigger, clicks := s.task.totalClicks, ok } :: s.attempts }

def count (s : ClickLoop) (shortCode : String) (tag : ℕ) : ClickLoop :=
  { s with task := s.task.count shortCode tag, lastValid := some tag }

/-- One turn of the loop. -/
def step (s : ClickLoop) : LoopEvent → ClickLoop
  | .delivery none _ => s
  | .delivery (some d) ok =>
    match d.msg.shortCode with
    | none => s
    | some shortCode =>
      let s := s.count shortCode d.tag
      if ClickTask.flushSize ≤ s.task.totalClicks then s.flush .size ok else s
  | .tick ok => if s.task.batch.entries.isEmpty then s else s.flush .timer ok

/-- The loop after these events. -/
def run (es : List LoopEvent) : ClickLoop :=
  es.foldl step init

theorem run_concat (es : List LoopEvent) (e : LoopEvent) : run (es ++ [e]) = (run es).step e := by
  simp [run]

/-! ## What a turn keeps -/

/-- The latest flush, if any, succeeded. -/
def Clear (attempts : List Attempt) : Prop :=
  ∀ a ∈ attempts.head?, a.ok = true

/-- What holds at the head of the loop. -/
structure Bookkeeping (s : ClickLoop) : Prop where
  /-- The batch counts some clicks, and the total is their number. -/
  counted : ∃ codes, s.task.batch = Tally.ofList codes ∧ s.task.totalClicks = codes.length
  /-- The tag was set when the last click was counted, and no flush came since. -/
  tag : ∀ tag, s.task.lastDeliveryTag = some tag → s.lastValid = some tag ∧ 0 < s.task.totalClicks
  size : Clear s.attempts → s.task.totalClicks ≤ 16
  sized : ∀ l₁ a l₂, s.attempts = l₁ ++ a :: l₂ → Clear l₂ → a.Sized

theorem bookkeeping_init : Bookkeeping init where
  counted := ⟨[], rfl, rfl⟩
  tag := by
    intro tag htag
    cases htag
  size := fun _ => Nat.zero_le _
  sized := by
    intro l₁ a l₂ h
    simp [init] at h

/-- A flush that carries the right number of clicks if the one before succeeded. -/
theorem Bookkeeping.flush {s : ClickLoop}
    (hcounted : ∃ codes, s.task.batch = Tally.ofList codes ∧ s.task.totalClicks = codes.length)
    (hsized : ∀ l₁ a l₂, s.attempts = l₁ ++ a :: l₂ → Clear l₂ → a.Sized) {trigger : Trigger}
    {ok : Bool}
    (hnew : Clear s.attempts → Attempt.Sized { trigger, clicks := s.task.totalClicks, ok }) :
    Bookkeeping (s.flush trigger ok) where
  counted := by
    cases ok with
    | true => exact ⟨[], rfl, rfl⟩
    | false => exact hcounted
  tag := by
    intro tag htag
    cases ok <;> cases htag
  size := by
    intro hclear
    have hok : ok = true := hclear _ rfl
    subst hok
    exact Nat.zero_le 16
  sized := by
    intro l₁ a l₂ h hclear
    cases l₁ with
    | nil =>
      obtain ⟨rfl, rfl⟩ := List.cons.inj h
      exact hnew hclear
    | cons b l₁ => exact hsized l₁ a l₂ (List.cons.inj h).2 hclear

/-- A turn keeps the books. -/
theorem Bookkeeping.step {s : ClickLoop} (h : Bookkeeping s) (e : LoopEvent) : Bookkeeping (s.step e) := by
  obtain ⟨codes, hbatch, htotal⟩ := h.counted
  cases e with
  | delivery d ok =>
    cases d with
    | none => exact h
    | some d =>
      simp only [ClickLoop.step]
      split
      · exact h
      · rename_i c hcode
        have hcount : ∃ codes', (s.count c d.tag).task.batch = Tally.ofList codes' ∧
            (s.count c d.tag).task.totalClicks = codes'.length := by
          refine ⟨codes ++ [c], ?_, ?_⟩
          · rw [Tally.ofList_concat, ← hbatch]
            rfl
          · rw [List.length_append, ← htotal]
            rfl
        have hone : (s.count c d.tag).task.totalClicks = s.task.totalClicks + 1 := rfl
        split
        · rename_i hsize
          refine .flush hcount h.sized fun hclear => ?_
          -- no more than one click over the sixteen that were there
          have hbefore := h.size hclear
          unfold ClickTask.flushSize at hsize
          simp only [Attempt.Sized]
          omega
        · rename_i hsize
          unfold ClickTask.flushSize at hsize
          refine ⟨hcount, ?_, fun _ => by omega, h.sized⟩
          intro tag htag
          exact ⟨htag, by omega⟩
  | tick ok =>
    simp only [ClickLoop.step]
    split
    · exact h
    · rename_i hne
      refine .flush h.counted h.sized fun hclear => ?_
      have hbefore := h.size hclear
      have hpos : 0 < codes.length := by
        rw [List.length_pos_iff]
        rintro rfl
        rw [hbatch] at hne
        exact hne rfl
      simp only [Attempt.Sized]
      omega

theorem bookkeeping (es : List LoopEvent) : Bookkeeping (run es) := by
  induction es using List.reverseRecOn with
  | nil => exact bookkeeping_init
  | append_singleton es e ih =>
    rw [run_concat]
    exact ih.step e

/-- The total is zero exactly when the batch is empty. -/
theorem Bookkeeping.batch_empty_iff {s : ClickLoop} (h : Bookkeeping s) :
    s.task.batch.entries = [] ↔ s.task.totalClicks = 0 := by
  obtain ⟨codes, hbatch, htotal⟩ := h.counted
  rw [hbatch, Tally.ofList_entries_eq_nil_iff, htotal, List.length_eq_zero_iff]

/-- **The counters agree at the head of the loop.** The total is the sum of the batch, which is empty at
zero only; a remembered tag is that of the last valid delivery, with clicks in the batch; and unless the
latest flush failed there are at most 16 clicks, so that a flush after it carries 17 clicks or, by the
timer, 1 to 16. -/
theorem counters_agree (es : List LoopEvent) :
    (run es).task.totalClicks = (run es).task.batch.total ∧
      ((run es).task.batch.entries = [] ↔ (run es).task.totalClicks = 0) ∧
      (∀ tag, (run es).task.lastDeliveryTag = some tag →
        (run es).task.batch.entries ≠ [] ∧ (run es).lastValid = some tag) ∧
      (Clear (run es).attempts → (run es).task.totalClicks ≤ 16) ∧
      ∀ l₁ a l₂, (run es).attempts = l₁ ++ a :: l₂ → Clear l₂ → a.Sized := by
  have h := bookkeeping es
  refine ⟨?_, h.batch_empty_iff, ?_, h.size, h.sized⟩
  · obtain ⟨codes, hbatch, htotal⟩ := h.counted
    rw [hbatch, Tally.total_ofList, htotal]
  · intro tag htag
    obtain ⟨hvalid, hpos⟩ := h.tag tag htag
    refine ⟨fun hempty => ?_, hvalid⟩
    rw [h.batch_empty_iff] at hempty
    omega

/-! ## The loop next to its queue -/

theorem task_send (s : System) (arrives : Bool) (reply : Option Reply) :
    (s.send arrives reply).task = s.task := by
  unfold System.send
  split
  · split
    · rename_i r _
      cases r <;> rfl
    · rfl
  · rfl

theorem task_flush (s : System) (o : Outcome) :
    (s.flush o).task = if o.update then s.task.flushed.1 else s.task.flushFailed.1 := by
  unfold System.flush
  split
  · rw [task_send]
    rfl
  · rw [task_send]
    rfl

/-- A step of the system is a turn of its loop, a restart, or does not touch the task. -/
theorem task_of_step {s s' : System} {e : Event} (hstep : s.step e = some s') (w : ClickLoop)
    (hw : w.task = s.task) :
    s'.task = s.task ∨ s'.task = init.task ∨ ∃ e', (w.step e').task = s'.task := by
  cases e with
  | publish data =>
    obtain rfl := Option.some.inj hstep
    exact Or.inl rfl
  | deliver i =>
    obtain ⟨queue, -, rfl⟩ := Option.map_eq_some_iff.mp hstep
    exact Or.inl rfl
  | next o =>
    obtain ⟨⟨d, queue⟩, -, rfl⟩ := Option.map_eq_some_iff.mp hstep
    refine Or.inr (Or.inr ⟨.delivery (some d) o.update, ?_⟩)
    simp only [System.onDelivery, ClickLoop.step]
    cases hcode : d.msg.shortCode with
    | none => exact hw
    | some c =>
      have hcount : (w.count c d.tag).task = ({ s with queue }.count d c).task := by
        simp only [ClickLoop.count, System.count, hw]
      simp only [← hcount]
      split
      · rw [task_flush, ← hcount]
        rfl
      · exact hcount
  | tick o =>
    obtain rfl := Option.some.inj hstep
    refine Or.inr (Or.inr ⟨.tick o.update, ?_⟩)
    simp only [System.onTick, ClickLoop.step, ← hw]
    split
    · exact hw
    · rw [task_flush, ← hw]
      rfl
  | crash =>
    obtain rfl := Option.some.inj hstep
    exact Or.inr (Or.inl rfl)

/-- Next to a queue, with crashes and lost replies, the task is that of the loop since its last start. -/
theorem exists_run_of_system {s : System} {es : List Event} {P : System → Event → Prop}
    (hrun : Run System.step P System.init es s) : ∃ es', (run es').task = s.task := by
  refine hrun.induct (I := fun s => ∃ es', (run es').task = s.task) ?_ ⟨[], rfl⟩
  rintro s e s' ⟨es', hw⟩ - hstep
  rcases task_of_step hstep (run es') hw with h | h | ⟨e', h⟩
  · exact ⟨es', hw.trans h.symm⟩
  · exact ⟨[], h.symm⟩
  · exact ⟨es' ++ [e'], by rw [run_concat, h]⟩

end ClickLoop

end Bittuly.Clicks
