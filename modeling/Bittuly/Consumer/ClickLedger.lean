import Bittuly.Consumer.ClickSafety
import Mathlib.Tactic.Abel

/-!
# No click vanishes

Reference: `services/consumer-service/src/main.rs`, the click events task.

The account of a short code has two sides. Flushes may count a click twice; but in every run, crashes,
lost replies and failed flushes included, each click published is counted in a committed flush or still
held by the broker. The messages the broker holds, together with the acknowledged ones, are the
published ones (`Ledger`); and an acknowledged click was committed (`ClickInv`).
-/

namespace Bittuly.Clicks

open Amqp Runs

/-- The payload of a code decodes to the code. -/
theorem ClickEvent.shortCode_of_data {m : ClickEvent} {c : String} (h : m.data = c.toUTF8) :
    m.shortCode = some c := by
  unfold shortCode String.fromUTF8?
  rw [h]
  exact dif_pos c.isValidUTF8

/-- How often a code is named: by as many deliveries as carry its payload. -/
theorem count_codes (ds : List (Delivery ClickEvent)) (c : String) :
    (codes ds).count c = ds.countP fun d => d.msg.data = c.toUTF8 := by
  induction ds with
  | nil => rfl
  | cons d ds ih =>
    rw [List.countP_cons, ← ih]
    by_cases hdata : d.msg.data = c.toUTF8
    · rw [if_pos (by simpa using hdata), codes, List.filterMap_cons,
        ClickEvent.shortCode_of_data hdata, ← codes, List.count_cons_self]
    · rw [if_neg (by simpa using hdata), Nat.add_zero, codes, List.filterMap_cons]
      cases hcode : d.msg.shortCode with
      | none => rfl
      | some c' =>
        have hne : c' ≠ c := by
          rintro rfl
          exact hdata (ClickEvent.data_of_shortCode hcode)
        exact List.count_cons_of_ne hne

namespace System

/-- How many messages with a short code as payload the broker holds. -/
def heldCount (s : System) (c : String) : ℕ :=
  s.queue.contents.countP fun m => m.data = c.toUTF8

/-- Published messages, and what became of them. -/
structure Ledger (s : System) : Prop where
  conserved : s.queue.contents + ((s.acked.map Delivery.msg : List ClickEvent) : Multiset ClickEvent) =
    s.published
  ids : s.published.map ClickEvent.id = List.range s.published.length
  counted : ∀ d ∈ s.counted, d.msg ∈ s.published
  flushed : ∀ f ∈ s.flushes, ∀ d ∈ f.counted, d.msg ∈ s.published

theorem ledger_init : Ledger init where
  conserved := rfl
  ids := rfl
  counted := by simp [init]
  flushed := by simp [init]

namespace Ledger

variable {s s' : System}

/-- What the broker holds was published. -/
theorem held (h : Ledger s) {m : ClickEvent} (hm : m ∈ s.queue.contents) : m ∈ s.published := by
  apply Multiset.mem_coe.mp
  rw [← h.conserved]
  exact Multiset.mem_add.mpr (Or.inl hm)

/-- The broker moves messages about. -/
theorem of_contents (h : Ledger s) {queue : Channel ClickEvent}
    (hcontents : queue.contents = s.queue.contents) : Ledger { s with queue } :=
  { h with conserved := by rw [← h.conserved, ← hcontents] }

theorem publish (h : Ledger s) (data : ByteArray) :
    Ledger { s with
      queue := s.queue.publish ⟨s.published.length, data⟩
      published := s.published ++ [⟨s.published.length, data⟩] } where
  conserved := by
    rw [Channel.contents_publish, add_right_comm, h.conserved, ← Multiset.coe_singleton, Multiset.coe_add]
  ids := by
    rw [List.map_append, h.ids, List.length_append, List.length_singleton, List.range_succ]
    rfl
  counted d hd := List.mem_append_left _ (h.counted d hd)
  flushed f hf d hd := List.mem_append_left _ (h.flushed f hf d hd)

/-- A delivery that is counted is one the broker holds. -/
theorem count (h : Ledger s) {d : Delivery ClickEvent} (hd : d ∈ s.queue.taken) (c : String) :
    Ledger (s.count d c) := by
  refine { h with counted := ?_ }
  intro e he
  rcases List.mem_append.mp he with hold | hnew
  · exact h.counted e hold
  · rw [List.mem_singleton.mp hnew]
    refine h.held (Multiset.mem_add.mpr (Or.inr ?_))
    exact Multiset.mem_coe.mpr (List.mem_map_of_mem (List.mem_append_left _ hd))

theorem commit (h : Ledger s) : Ledger s.commit := by
  refine { h with counted := ?_, flushed := ?_ }
  · intro d hd
    cases hd
  · intro f hf
    rcases List.mem_append.mp hf with hold | hnew
    · exact h.flushed f hold
    · rw [List.mem_singleton.mp hnew]
      exact h.counted

theorem fail (h : Ledger s) : Ledger s.fail :=
  { h with }

theorem settle (h : Ledger s) (reply : Reply) : Ledger (s.settle reply) := by
  cases reply with
  | ack tag =>
    refine { h with conserved := ?_ }
    show (s.queue.ack tag true).contents +
      (((s.acked ++ s.queue.settled tag true).map Delivery.msg : List ClickEvent) : Multiset ClickEvent) =
        s.published
    rw [← h.conserved, ← Channel.contents_ack s.queue tag true, List.map_append, ← Multiset.coe_add]
    abel
  | nack tag => exact h.of_contents (Channel.contents_requeue s.queue tag true)

theorem send (h : Ledger s) (arrives : Bool) (reply : Option Reply) : Ledger (s.send arrives reply) := by
  cases reply with
  | none => exact h
  | some r =>
    show Ledger (if arrives then s.settle r else s)
    split
    · exact h.settle r
    · exact h

theorem flush (h : Ledger s) (o : Outcome) : Ledger (s.flush o) := by
  unfold System.flush
  split
  · exact h.commit.send o.settle _
  · exact h.fail.send o.settle _

/-- One step keeps the ledger. -/
theorem step {e : Event} (h : Ledger s) (hs : s.step e = some s') : Ledger s' := by
  cases e with
  | publish data =>
    obtain rfl := Option.some.inj hs
    exact h.publish data
  | deliver i =>
    obtain ⟨queue, hq, rfl⟩ := Option.map_eq_some_iff.mp hs
    exact h.of_contents (Channel.contents_deliver hq)
  | next o =>
    obtain ⟨⟨d, queue⟩, hq, rfl⟩ := Option.map_eq_some_iff.mp hs
    have hnext : Ledger { s with queue } := h.of_contents (Channel.contents_next hq)
    obtain ⟨-, -, htaken, -⟩ := Channel.next_eq_some hq
    simp only [onDelivery]
    split
    · exact hnext
    · rename_i c _
      have hcount := hnext.count (d := d) (by simp [htaken]) c
      split
      · exact hcount.flush o
      · exact hcount
  | tick o =>
    obtain rfl := Option.some.inj hs
    unfold onTick
    split
    · exact h
    · exact h.flush o
  | crash =>
    obtain rfl := Option.some.inj hs
    have hrecover : Ledger { s with queue := s.queue.recover } :=
      h.of_contents (Channel.contents_recover s.queue)
    refine { hrecover with counted := ?_ }
    intro d hd
    cases hd

/-- Publications are told apart by their ids. -/
theorem nodup (h : Ledger s) : s.published.Nodup := by
  have hids : (s.published.map ClickEvent.id).Nodup := by
    rw [h.ids]
    exact List.nodup_range
  exact hids.of_map _

end Ledger

/-! ## The flushes of a step -/

theorem history_send (s : System) (arrives : Bool) (reply : Option Reply) :
    (s.send arrives reply).flushes = s.flushes ∧ (s.send arrives reply).counted = s.counted ∧
      (s.send arrives reply).published = s.published := by
  cases reply with
  | none => exact ⟨rfl, rfl, rfl⟩
  | some r =>
    cases arrives with
    | true => cases r <;> exact ⟨rfl, rfl, rfl⟩
    | false => exact ⟨rfl, rfl, rfl⟩

/-- What a step may add to the history: one flush, of the batch and perhaps one click more. -/
structure Adds (s s' : System) : Prop where
  published : s'.published = s.published
  flushes : s'.flushes = s.flushes ∧ s'.counted.length ≤ s.counted.length + 1 ∨
    ∃ f, s'.flushes = s.flushes ++ [f] ∧ f.counted.length ≤ s.counted.length + 1 ∧ s'.counted = []

theorem adds_flush (s : System) (o : Outcome) {s₀ : System} (hpublished : s.published = s₀.published)
    (hflushes : s.flushes = s₀.flushes) (hcounted : s.counted.length ≤ s₀.counted.length + 1) :
    s₀.Adds (s.flush o) := by
  unfold System.flush
  cases o.update with
  | true =>
    rw [if_pos rfl]
    obtain ⟨hf, hc, hp⟩ := history_send s.commit o.settle s.task.flushed.2
    refine ⟨hp.trans hpublished, Or.inr ⟨⟨s.task.batch, s.counted⟩, ?_, hcounted, hc⟩⟩
    rw [hf, ← hflushes]
    rfl
  | false =>
    rw [if_neg (by decide)]
    obtain ⟨hf, hc, hp⟩ := history_send s.fail o.settle s.task.flushFailed.2
    refine ⟨hp.trans hpublished, Or.inl ⟨hf.trans hflushes, ?_⟩⟩
    rw [hc]
    exact hcounted

/-- What a step of the consumer or the broker adds to the history. -/
theorem adds_of_step {s s' : System} {e : Event} (hs : s.step e = some s')
    (he : ∀ data, e ≠ .publish data) : s.Adds s' := by
  cases e with
  | publish data => exact absurd rfl (he data)
  | deliver i =>
    obtain ⟨queue, hq, rfl⟩ := Option.map_eq_some_iff.mp hs
    exact ⟨rfl, Or.inl ⟨rfl, Nat.le_succ _⟩⟩
  | next o =>
    obtain ⟨⟨d, queue⟩, hq, rfl⟩ := Option.map_eq_some_iff.mp hs
    simp only [onDelivery]
    split
    · exact ⟨rfl, Or.inl ⟨rfl, Nat.le_succ _⟩⟩
    · rename_i c _
      have hlength : (s.counted ++ [d]).length ≤ s.counted.length + 1 := by
        rw [List.length_append, List.length_singleton]
      split
      · exact adds_flush _ o rfl rfl hlength
      · exact ⟨rfl, Or.inl ⟨rfl, hlength⟩⟩
  | tick o =>
    obtain rfl := Option.some.inj hs
    unfold onTick
    split
    · exact ⟨rfl, Or.inl ⟨rfl, Nat.le_succ _⟩⟩
    · exact adds_flush s o rfl rfl (Nat.le_succ _)
  | crash =>
    obtain rfl := Option.some.inj hs
    exact ⟨rfl, Or.inl ⟨rfl, Nat.zero_le _⟩⟩

/-! ## The account of a code -/

/-- A click on a code is published under that code only. -/
theorem publishedCount_publish {s s' : System} {d : String}
    (hs : s.step (.publish d.toUTF8) = some s') (c : String) :
    s'.publishedCount c = s.publishedCount c + if d = c then 1 else 0 := by
  obtain rfl := Option.some.inj hs
  have hdata : d.toUTF8 = c.toUTF8 ↔ d = c := by
    refine ⟨fun h => ?_, congrArg String.toUTF8⟩
    have hd : ClickEvent.shortCode ⟨0, d.toUTF8⟩ = some d := ClickEvent.shortCode_of_data rfl
    rw [ClickEvent.shortCode_of_data (c := c) h] at hd
    exact (Option.some.inj hd).symm
  simp only [publishedCount, List.countP_append, List.countP_singleton, decide_eq_true_eq, hdata]

/-- What committed flushes added up for a code, counted by deliveries. -/
theorem totalDelta_eq {s : System} (h : ClickInv s) (c : String) :
    s.totalDelta c = (s.flushes.flatMap Flush.counted).countP fun d => d.msg.data = c.toUTF8 := by
  rw [totalDelta, List.countP_flatMap]
  congr 1
  apply List.map_congr_left
  intro f hf
  rw [(h.flush_eq f hf).2, Tally.get_ofList, count_codes]
  rfl

/-- **No click vanishes.** The clicks published for a code do not outnumber those that committed flushes have
counted and those the broker still holds. -/
theorem publishedCount_le {s : System} (hledger : Ledger s) (hinv : ClickInv s) (c : String) :
    s.publishedCount c ≤ s.totalDelta c + s.heldCount c := by
  let p : ClickEvent → Bool := fun m => m.data = c.toUTF8
  have hnodup : (s.acked.map Delivery.msg).Nodup := by
    have hle : ((s.acked.map Delivery.msg : List ClickEvent) : Multiset ClickEvent) ≤ s.published := by
      rw [← hledger.conserved]
      exact Multiset.le_add_left _ _
    exact Multiset.coe_nodup.mp (Multiset.nodup_of_le hle (Multiset.coe_nodup.mpr hledger.nodup))
  have hsub : (s.acked.map Delivery.msg).filter p ⊆
      ((s.flushes.flatMap Flush.counted).map Delivery.msg).filter p := by
    intro m hm
    obtain ⟨hmem, hp⟩ := List.mem_filter.mp hm
    obtain ⟨d, hd, rfl⟩ := List.mem_map.mp hmem
    have hcode : d.msg.shortCode = some c := ClickEvent.shortCode_of_data (by simpa [p] using hp)
    obtain ⟨f, hf, hdf⟩ := hinv.acked_committed d hd (by rw [hcode]; rfl)
    exact List.mem_filter.mpr
      ⟨List.mem_map_of_mem (List.mem_flatMap.mpr ⟨f, hf, hdf⟩), hp⟩
  have hacked : (s.acked.map Delivery.msg).countP p ≤ s.totalDelta c := by
    have hlength := ((hnodup.filter p).subperm hsub).length_le
    rw [← List.countP_eq_length_filter, ← List.countP_eq_length_filter,
      List.countP_map (l := s.flushes.flatMap Flush.counted)] at hlength
    rw [totalDelta_eq hinv]
    exact hlength
  have hcount : s.heldCount c + (s.acked.map Delivery.msg).countP p = s.publishedCount c := by
    have h := congrArg (Multiset.countP fun m => m.data = c.toUTF8) hledger.conserved
    rwa [Multiset.countP_add, Multiset.coe_countP, Multiset.coe_countP] at h
  omega

end System

end Bittuly.Clicks
