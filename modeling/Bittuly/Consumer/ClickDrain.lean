import Bittuly.Consumer.ClickLedger
import Bittuly.Lib.Total
import Mathlib.Algebra.Group.Action.Defs

/-!
# Every click is counted in the end

Reference: `services/consumer-service/src/main.rs`, the click events task.

`ClickSafety` and `ClickLedger` say what cannot happen to a click. Here: whatever has happened before,
once the consumer stays up and its `UPDATE`s commit, the queue drains. A message takes two moves, the
push and the delivery; `pending` counts the moves that are left, and when none is left the next tick of
the timer commits what is still in the batch.

A click is published when its message has reached the queue. The broker, whose messages are transient, does
not restart.
-/

namespace Bittuly.Clicks

open Amqp Runs

/-- A step that moves a message on. -/
def isMove : Event → Bool
  | .deliver _ | .next _ => true
  | _ => false

/-- A step that brings a message. -/
def isArrival : Event → Bool
  | .publish _ => true
  | _ => false

namespace System

/-- The consumer stays up and its `UPDATE`s commit; replies may get lost. -/
def Serving (_ : System) : Event → Prop
  | .next o | .tick o => o.update = true
  | .crash => False
  | _ => True

instance (s : System) : DecidablePred (Serving s)
  | .next o | .tick o => inferInstanceAs (Decidable (o.update = true))
  | .crash => inferInstanceAs (Decidable False)
  | .publish _ | .deliver _ => inferInstanceAs (Decidable True)

/-- The moves that are left. -/
def pending (s : System) : ℕ :=
  2 * s.queue.ready.length + s.queue.buffer.length

/-! ## What a flush leaves pending -/

/-- A reply about a tag that is behind the buffer leaves the buffer alone. -/
theorem pending_ack {s : System} {tag : ℕ} (h : s.Behind tag) :
    (s.settle (.ack tag)).pending = s.pending := by
  have hbuffer : (s.queue.ack tag true).buffer = s.queue.buffer := by
    refine List.filter_eq_self.mpr ?_
    intro d hd
    have hlt := h.2 d hd
    simp only [Channel.covers, if_true, Bool.not_eq_true', decide_eq_false_iff_not]
    omega
  show 2 * s.queue.ready.length + (s.queue.ack tag true).buffer.length = _
  rw [hbuffer]
  rfl

/-- A flush that commits moves no message. -/
theorem pending_flush {s : System} (h : ClickInv s) {o : Outcome} (ho : o.update = true) :
    (s.flush o).pending = s.pending := by
  unfold System.flush
  rw [if_pos ho]
  unfold System.send ClickTask.flushed
  cases hlast : s.task.lastDeliveryTag with
  | none => rfl
  | some tag =>
    show (if o.settle = true then s.commit.settle (.ack tag) else s.commit).pending = s.pending
    split
    · exact pending_ack (s := s.commit) (h.last_behind tag hlast)
    · rfl

/-- **One step.** A push or a delivery is one move less, a new message two moves more. -/
theorem pending_step {s s' : System} (h : ClickInv s) {e : Event} (hserve : s.Serving e)
    (hs : s.step e = some s') :
    (if isMove e then 1 else 0) + s'.pending = (if isArrival e then 2 else 0) + s.pending := by
  cases e with
  | publish data =>
    obtain rfl := Option.some.inj hs
    simp only [isMove, isArrival, pending, Channel.publish_ready, Channel.publish_buffer,
      List.length_append, List.length_singleton, Bool.false_eq_true, if_true, if_false]
    omega
  | deliver i =>
    obtain ⟨queue, hq, rfl⟩ := Option.map_eq_some_iff.mp hs
    obtain ⟨m, hm, hready, -, hbuffer, -⟩ := Channel.deliver_eq_some hq
    obtain ⟨hi, -⟩ := List.getElem?_eq_some_iff.mp hm
    simp only [isMove, isArrival, pending, hready, hbuffer, List.length_eraseIdx_of_lt hi,
      List.length_append, List.length_singleton, Bool.false_eq_true, if_true, if_false]
    omega
  | next o =>
    obtain ⟨⟨d, queue⟩, hq, rfl⟩ := Option.map_eq_some_iff.mp hs
    obtain ⟨hbuffer, hready, -, -⟩ := Channel.next_eq_some hq
    have hnext : 1 + ({ s with queue } : System).pending = s.pending := by
      simp only [pending, hready, hbuffer, List.length_cons]
      omega
    have hrest : (({ s with queue } : System).onDelivery d o).pending =
        ({ s with queue } : System).pending := by
      simp only [onDelivery]
      split
      · rfl
      · rename_i c hd
        split
        · exact pending_flush (h.count hq hd) hserve
        · rfl
    simp only [isMove, isArrival, Bool.false_eq_true, if_true, if_false, hrest, Nat.zero_add]
    exact hnext
  | tick o =>
    obtain rfl := Option.some.inj hs
    have hrest : (s.onTick o).pending = s.pending := by
      unfold onTick
      split
      · rfl
      · exact pending_flush h hserve
    simp only [isMove, isArrival, Bool.false_eq_true, if_false, hrest]
  | crash => exact hserve.elim

/-- As long as a move is left, one can be made. -/
theorem exists_move {s : System} (h : s.pending ≠ 0) (o : Outcome) :
    ∃ e s', isMove e = true ∧ (e = .deliver 0 ∨ e = .next o) ∧ s.step e = some s' := by
  cases hready : s.queue.ready with
  | cons m ms =>
    have hq : (s.queue.deliver 0).isSome := by
      unfold Channel.deliver
      rw [hready]
      rfl
    obtain ⟨queue, hq⟩ := Option.isSome_iff_exists.mp hq
    exact ⟨.deliver 0, { s with queue }, rfl, Or.inl rfl, by rw [System.step, hq, Option.map_some]⟩
  | nil =>
    have hbuffer : s.queue.buffer ≠ [] := by
      intro hnil
      rw [pending, hready, hnil] at h
      exact h rfl
    have hq : s.queue.next.isSome := by
      unfold Channel.next
      split
      · rename_i hnil
        exact absurd hnil hbuffer
      · rfl
    obtain ⟨⟨d, queue⟩, hq⟩ := Option.isSome_iff_exists.mp hq
    exact ⟨.next o, ({ s with queue } : System).onDelivery d o, rfl, Or.inr rfl, by
      rw [System.step, hq, Option.map_some]⟩

/-! ## Where a click is -/

/-- A click is in the batch of a committed flush. -/
def CommittedMsg (s : System) (m : ClickEvent) : Prop :=
  ∃ f ∈ s.flushes, ∃ d ∈ f.counted, d.msg = m

/-- A published click waits, is in the batch, or is committed. -/
theorem click_kept {s : System} (hinv : ClickInv s) (hledger : Ledger s) {m : ClickEvent}
    (hm : m ∈ s.published) (hvalid : m.shortCode.isSome) :
    m ∈ s.queue.ready ∨ (∃ d ∈ s.queue.buffer, d.msg = m) ∨ (∃ d ∈ s.counted, d.msg = m) ∨
      s.CommittedMsg m := by
  have hmem := Multiset.mem_coe.mpr hm
  rw [← hledger.conserved, Channel.contents, Channel.outstanding, List.map_append] at hmem
  simp only [Multiset.mem_add, Multiset.mem_coe, List.mem_append, List.mem_map] at hmem
  rcases hmem with (hready | ⟨d, hd, rfl⟩ | hbuffer) | ⟨d, hd, rfl⟩
  · exact Or.inl hready
  · rcases hinv.taken_kept d hd hvalid with hcounted | ⟨f, hf, hdf⟩
    · exact Or.inr (Or.inr (Or.inl ⟨d, hcounted, rfl⟩))
    · exact Or.inr (Or.inr (Or.inr ⟨f, hf, d, hdf, rfl⟩))
  · exact Or.inr (Or.inl hbuffer)
  · obtain ⟨f, hf, hdf⟩ := hinv.acked_committed d hd hvalid
    exact Or.inr (Or.inr (Or.inr ⟨f, hf, d, hdf, rfl⟩))

/-- The next tick commits what is in the batch. -/
theorem tick_commits {s : System} (hinv : ClickInv s) {o : Outcome} (ho : o.update = true) {m : ClickEvent}
    (hvalid : m.shortCode.isSome) (h : (∃ d ∈ s.counted, d.msg = m) ∨ s.CommittedMsg m) :
    (s.onTick o).CommittedMsg m := by
  obtain ⟨c, hc⟩ := Option.isSome_iff_exists.mp hvalid
  unfold onTick
  split
  · rename_i hempty
    rcases h with ⟨d, hd, rfl⟩ | hcommitted
    · -- the batch counts this click, so it is not empty
      have hmem : c ∈ codes s.counted := List.mem_filterMap.mpr ⟨d, hd, hc⟩
      have hbatch : s.task.batch.get c = 0 := by
        rw [Tally.get, AList.lookup_eq_none.mpr]
        · rfl
        · rw [AList.mem_keys, AList.keys, List.isEmpty_iff.mp hempty]
          exact List.not_mem_nil
      rw [hinv.batch_eq, Tally.get_ofList, List.count_eq_zero] at hbatch
      exact absurd hmem hbatch
    · exact hcommitted
  · have hflushes : (s.flush o).flushes = s.flushes ++ [⟨s.task.batch, s.counted⟩] := by
      unfold System.flush
      rw [if_pos ho, (history_send _ _ _).1]
      rfl
    unfold CommittedMsg
    rw [hflushes]
    rcases h with ⟨d, hd, rfl⟩ | ⟨f, hf, hm⟩
    · exact ⟨_, List.mem_append_right _ (List.mem_singleton_self _), d, hd, rfl⟩
    · exact ⟨f, List.mem_append_left _ hf, hm⟩

/-! ## The queue drains -/

/-- **Every click is counted in the end.** After any run at all, let the consumer stay up and its `UPDATE`s
commit, in whatever order things happen: a message takes two moves and no more, a move can be made as long
as one is left, and once none is left the next tick of the timer has every click that was ever published
in a committed flush. -/
theorem clicks_drain {s t : System} {es as : List Event} (h : Run step Any init es s)
    (hserve : Run step Serving s as t) (o : Outcome) (ho : o.update = true) :
    as.countP isMove + t.pending = 2 * as.countP isArrival + s.pending ∧
      (t.pending ≠ 0 → ∃ e t', isMove e = true ∧ t.Serving e ∧ t.step e = some t') ∧
      (t.pending = 0 → ∀ m ∈ t.published, m.shortCode.isSome → (t.onTick o).CommittedMsg m) := by
  have hstep : ∀ (s : System) e s', (ClickInv s ∧ Ledger s) → Any s e → s.step e = some s' →
      ClickInv s' ∧ Ledger s' := fun _ _ _ hs _ hst => ⟨hs.1.step hst, hs.2.step hst⟩
  have hs := h.induct hstep ⟨clickInv_init, ledger_init⟩
  have ht := (hserve.mono fun _ _ _ => trivial : Run step Any s as t).induct hstep hs
  refine ⟨?_, ?_, ?_⟩
  · have htotal := hserve.total_add_eq (I := ClickInv) (fun _ e => if isMove e then 1 else 0)
      (fun _ e => if isArrival e then 2 else 0) pending (fun _ _ _ hI _ hst => hI.step hst)
      (fun _ _ _ hI hP hst => pending_step hI hP hst) hs.1
    rw [hserve.total_count isMove, hserve.total_ite (fun _ e => isArrival e),
      hserve.total_count isArrival, smul_eq_mul, Nat.mul_comm _ 2] at htotal
    exact htotal
  · intro hpending
    obtain ⟨e, t', hmove, he, hst⟩ := exists_move hpending o
    refine ⟨e, t', hmove, ?_, hst⟩
    rcases he with rfl | rfl
    · trivial
    · exact ho
  · intro hpending m hm hvalid
    have hempty : t.queue.ready = [] ∧ t.queue.buffer = [] := by
      rw [pending] at hpending
      exact ⟨List.length_eq_zero_iff.mp (by omega), List.length_eq_zero_iff.mp (by omega)⟩
    refine tick_commits ht.1 ho hvalid ?_
    rcases click_kept ht.1 ht.2 hm hvalid with hready | ⟨d, hd, -⟩ | hrest
    · rw [hempty.1] at hready
      cases hready
    · rw [hempty.2] at hd
      cases hd
    · exact hrest

/-- The first flush of a click fails; the click is pushed again, counted again, and committed. -/
theorem clicks_drain_of_failed_flush :
    ∃ s t : System, ∃ as : List Event,
      s.flushes.length = 0 ∧ s.published.length = 1 ∧ t.pending = 0 ∧
      as.countP isMove + t.pending = 2 * as.countP isArrival + s.pending ∧
      ∀ m ∈ t.published, m.shortCode.isSome → (t.onTick ⟨true, true⟩).CommittedMsg m := by
  obtain ⟨s, hrun, hs⟩ := exists_run_of_exec step Any init
    [.publish "b".toUTF8, .deliver 0, .next ⟨true, true⟩, .tick ⟨false, true⟩]
    (fun s => s.flushes.length = 0 && s.published.length = 1 &&
      (exec step Serving s [.deliver 0, .next ⟨true, true⟩]).any fun t => t.pending = 0) (by decide)
  simp only [Bool.and_eq_true, decide_eq_true_eq] at hs
  obtain ⟨t, hserve, ht⟩ := exists_run_of_exec step Serving s _ _ hs.2
  simp only [decide_eq_true_eq] at ht
  obtain ⟨hmoves, -, hdrained⟩ := clicks_drain hrun hserve ⟨true, true⟩ rfl
  exact ⟨s, t, _, hs.1.1, hs.1.2, ht, hmoves, hdrained ht⟩

end System

end Bittuly.Clicks
