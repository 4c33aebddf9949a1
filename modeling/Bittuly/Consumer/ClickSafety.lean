import Bittuly.Consumer.ClickTask

/-!
# What click counting guarantees

A click is lost if its message leaves the broker uncounted, and counted twice if committed flushes add
more to a short code than was published for it.

`ClickInv` ties the outstanding deliveries, the batch and the last tag together through crashes, lost
replies and failed flushes. It rests on tag order: what the task has counted is behind everything left
in its buffer, so a cumulative acknowledgement reaches taken deliveries only.

Double counting is different. A failed flush requeues the deliveries it has counted and keeps them in
the batch, so their redelivery counts them again.
-/

namespace Bittuly.Clicks

open Amqp Runs

/-! ## Short codes of deliveries -/

/-- A payload decodes to a short code exactly when it is the bytes of that code. -/
theorem ClickEvent.data_of_shortCode {m : ClickEvent} {c : String} (h : m.shortCode = some c) :
    m.data = c.toUTF8 := by
  unfold shortCode String.fromUTF8? at h
  split at h
  · obtain rfl := Option.some.inj h
    rfl
  · cases h

/-- The short codes of a list of deliveries, malformed ones left out. -/
def codes (ds : List (Delivery ClickEvent)) : List String :=
  ds.filterMap fun d => d.msg.shortCode

theorem codes_concat {ds : List (Delivery ClickEvent)} {d : Delivery ClickEvent} {c : String}
    (h : d.msg.shortCode = some c) : codes (ds ++ [d]) = codes ds ++ [c] := by
  simp [codes, h]

/-- The back-off after a failed flush is one of the three documented delays. -/
theorem ClickTask.backoffSecs_mem (t : ClickTask) :
    t.backoffSecs = 3 ∨ t.backoffSecs = 9 ∨ t.backoffSecs = 27 := by
  have hcases : min t.consecutiveFailures 2 = 0 ∨ min t.consecutiveFailures 2 = 1 ∨
      min t.consecutiveFailures 2 = 2 := by omega
  unfold backoffSecs
  rcases hcases with h | h | h <;> simp [h]

namespace System

/-! ## No acknowledged click is lost -/

/-- A delivery is in the batch of a committed flush. -/
def Committed (s : System) (d : Delivery ClickEvent) : Prop :=
  ∃ f ∈ s.flushes, d ∈ f.counted

/-- A tag is in use and older than everything left in the task's buffer. -/
def Behind (s : System) (tag : ℕ) : Prop :=
  tag < s.queue.nextTag ∧ ∀ e ∈ s.queue.buffer, tag < e.tag

/-- The invariant behind "no acknowledged click is lost". -/
structure ClickInv (s : System) : Prop where
  /-- The batch counts the deliveries listed in `counted`. -/
  batch_eq : s.task.batch = Tally.ofList (codes s.counted)
  /-- Counted deliveries are distinct. -/
  counted_sorted : s.counted.Pairwise fun d e => d.tag < e.tag
  counted_behind : ∀ d ∈ s.counted, s.Behind d.tag
  last_behind : ∀ tag, s.task.lastDeliveryTag = some tag → s.Behind tag
  /-- A click that was taken and is not settled is in the batch or committed. -/
  taken_kept : ∀ d ∈ s.queue.taken, d.msg.shortCode.isSome → d ∈ s.counted ∨ s.Committed d
  flush_eq : ∀ f ∈ s.flushes, f.counted.Nodup ∧ f.batch = Tally.ofList (codes f.counted)
  acked_committed : ∀ d ∈ s.acked, d.msg.shortCode.isSome → s.Committed d

theorem clickInv_init : ClickInv init where
  batch_eq := rfl
  counted_sorted := List.Pairwise.nil
  counted_behind := by simp [init]
  last_behind := by simp [init, ClickTask.init]
  taken_kept := by simp [init, Channel.empty]
  flush_eq := by simp [init]
  acked_committed := by simp [init]

/-- An operation on the queue that keeps tags in use, empties part of the buffer and settles part of
what was taken keeps the invariant. -/
theorem ClickInv.of_queue {s : System} (h : ClickInv s) {queue : Channel ClickEvent}
    (htaken : ∀ d ∈ queue.taken, d ∈ s.queue.taken)
    (hbuffer : ∀ tag, s.Behind tag → tag < queue.nextTag ∧ ∀ e ∈ queue.buffer, tag < e.tag) :
    ClickInv { s with queue } where
  batch_eq := h.batch_eq
  counted_sorted := h.counted_sorted
  counted_behind d hd := hbuffer _ (h.counted_behind d hd)
  last_behind tag htag := hbuffer _ (h.last_behind tag htag)
  taken_kept e he := h.taken_kept e (htaken e he)
  flush_eq := h.flush_eq
  acked_committed := h.acked_committed

theorem ClickInv.publish {s : System} (h : ClickInv s) (m : ClickEvent) :
    ClickInv { s with queue := s.queue.publish m, published := s.published ++ [m] } :=
  { h with }

theorem ClickInv.deliver {s : System} (h : ClickInv s) {i : ℕ} {queue : Channel ClickEvent}
    (hq : s.queue.deliver i = some queue) : ClickInv { s with queue } := by
  obtain ⟨m, -, -, htaken, hbuffer, hnext⟩ := Channel.deliver_eq_some hq
  refine h.of_queue (fun d hd => htaken ▸ hd) fun tag htag => ⟨by have := htag.1; omega, ?_⟩
  intro e he
  rw [hbuffer, List.mem_append, List.mem_singleton] at he
  rcases he with he | rfl
  · exact htag.2 e he
  · exact htag.1

/-- A crash empties the task and the channel; what was committed stays committed. -/
theorem ClickInv.crash {s : System} (h : ClickInv s) :
    ClickInv { s with queue := s.queue.recover, task := .init, counted := [] } where
  batch_eq := rfl
  counted_sorted := List.Pairwise.nil
  counted_behind := by simp
  last_behind := by simp [ClickTask.init]
  taken_kept := by simp
  flush_eq := h.flush_eq
  acked_committed := h.acked_committed

/-- Taking a delivery leaves less in the buffer. -/
theorem behind_next {s : System} {d : Delivery ClickEvent} {queue : Channel ClickEvent}
    (hq : s.queue.next = some (d, queue)) {tag : ℕ} (h : s.Behind tag) :
    tag < queue.nextTag ∧ ∀ e ∈ queue.buffer, tag < e.tag := by
  obtain ⟨hbuffer, -, -, hnext⟩ := Channel.next_eq_some hq
  exact ⟨hnext ▸ h.1, fun e he => h.2 e (hbuffer ▸ List.mem_cons_of_mem _ he)⟩

/-- Taking a malformed delivery: it never enters the batch and is settled with its neighbours. -/
theorem ClickInv.skip {s : System} (h : ClickInv s) {d : Delivery ClickEvent}
    {queue : Channel ClickEvent} (hq : s.queue.next = some (d, queue))
    (hd : d.msg.shortCode = none) : ClickInv { s with queue } := by
  obtain ⟨-, -, htaken, -⟩ := Channel.next_eq_some hq
  refine { h with
    counted_behind := fun d hd => behind_next hq (h.counted_behind d hd)
    last_behind := fun tag htag => behind_next hq (h.last_behind tag htag)
    taken_kept := ?_ }
  intro e he hsome
  rw [htaken, List.mem_append, List.mem_singleton] at he
  rcases he with he | rfl
  · exact h.taken_kept e he hsome
  · rw [hd] at hsome
    cases hsome

/-- Taking and counting a click. Its tag is behind the rest of the buffer, and everything counted
before it is behind its tag. -/
theorem ClickInv.count {s : System} (h : ClickInv s) {d : Delivery ClickEvent}
    {queue : Channel ClickEvent} (hq : s.queue.next = some (d, queue)) {c : String}
    (hd : d.msg.shortCode = some c) : ClickInv ({ s with queue }.count d c) := by
  obtain ⟨hbuffer, -, htaken, -⟩ := Channel.next_eq_some hq
  have hself : d.tag < queue.nextTag ∧ ∀ e ∈ queue.buffer, d.tag < e.tag := Channel.next_tag_lt hq
  constructor
  case batch_eq =>
    show s.task.batch.bump c = _
    rw [h.batch_eq, System.count, codes_concat hd, Tally.ofList_concat]
  case counted_sorted =>
    refine List.pairwise_append.mpr ⟨h.counted_sorted, List.pairwise_singleton _ _, ?_⟩
    intro e he e' he'
    obtain rfl := List.mem_singleton.mp he'
    -- the new delivery comes from the buffer, ahead of everything counted
    exact (h.counted_behind e he).2 e' (hbuffer ▸ List.mem_cons_self)
  case counted_behind =>
    intro e he
    rcases List.mem_append.mp he with he | he
    · exact behind_next hq (h.counted_behind e he)
    · obtain rfl := List.mem_singleton.mp he
      exact hself
  case last_behind =>
    intro tag htag
    obtain rfl := Option.some.inj htag
    exact hself
  case taken_kept =>
    intro e he hsome
    have he' : e ∈ s.queue.taken ++ [d] := htaken ▸ he
    rcases List.mem_append.mp he' with he | he
    · exact (h.taken_kept e he hsome).imp (List.mem_append_left _) id
    · exact Or.inl (List.mem_append_right _ he)
  case flush_eq => exact h.flush_eq
  case acked_committed => exact h.acked_committed

/-- After a commit the batch is empty and everything it held is committed. -/
theorem ClickInv.commit {s : System} (h : ClickInv s) : ClickInv s.commit where
  batch_eq := rfl
  counted_sorted := List.Pairwise.nil
  counted_behind := by simp [System.commit]
  last_behind := by simp [System.commit, ClickTask.flushed]
  taken_kept e he hsome := by
    refine Or.inr ?_
    rcases h.taken_kept e he hsome with hc | ⟨f, hf, hdf⟩
    · exact ⟨⟨s.task.batch, s.counted⟩, List.mem_append_right _ (List.mem_singleton.mpr rfl), hc⟩
    · exact ⟨f, List.mem_append_left _ hf, hdf⟩
  flush_eq f hf := by
    rcases List.mem_append.mp hf with hf | hf
    · exact h.flush_eq f hf
    · obtain rfl := List.mem_singleton.mp hf
      exact ⟨h.counted_sorted.imp fun hlt => by rintro rfl; exact lt_irrefl _ hlt, h.batch_eq⟩
  acked_committed d hd hsome := by
    obtain ⟨f, hf, hdf⟩ := h.acked_committed d hd hsome
    exact ⟨f, List.mem_append_left _ hf, hdf⟩

theorem ClickInv.fail {s : System} (h : ClickInv s) : ClickInv s.fail :=
  { h with last_behind := by simp [System.fail, ClickTask.flushFailed] }

/-- Settling a tag leaves less to settle. -/
theorem behind_ack {s : System} {tag : ℕ} (h : s.Behind tag) (tag' : ℕ) (multiple : Bool) :
    tag < (s.queue.ack tag' multiple).nextTag ∧
      ∀ e ∈ (s.queue.ack tag' multiple).buffer, tag < e.tag :=
  ⟨h.1, fun e he => h.2 e (Channel.mem_ack_buffer.mp he).1⟩

/-- A requeue leaves the batch alone: the requeued clicks stay counted. -/
theorem ClickInv.nack {s : System} (h : ClickInv s) (tag : ℕ) : ClickInv (s.settle (.nack tag)) :=
  h.of_queue (fun _ hd => (Channel.mem_ack_taken.mp hd).1) fun _ hb => behind_ack hb tag true

/-- An acknowledgement of a tag behind the buffer, with nothing left in the batch, removes committed
clicks and malformed deliveries only. -/
theorem ClickInv.ack {s : System} (h : ClickInv s) {tag : ℕ} (htag : s.Behind tag)
    (hcounted : s.counted = []) : ClickInv (s.settle (.ack tag)) := by
  have hqueue : ClickInv { s with queue := s.queue.ack tag true } :=
    h.of_queue (fun _ hd => (Channel.mem_ack_taken.mp hd).1) fun _ hb => behind_ack hb tag true
  refine { hqueue with acked_committed := ?_ }
  intro d hd hsome
  rcases List.mem_append.mp hd with hd | hd
  · exact h.acked_committed d hd hsome
  -- what a cumulative ack settles had been taken, so the batch had it
  · have htaken := Channel.mem_taken_of_settled htag.2 hd
    rcases h.taken_kept d htaken hsome with hc | hc
    · rw [hcounted] at hc
      cases hc
    · exact hc

/-- Both arms of a flush keep the invariant, whether or not the reply arrives. -/
theorem ClickInv.flush {s : System} (h : ClickInv s) (o : Outcome) : ClickInv (s.flush o) := by
  unfold System.flush
  split
  · unfold System.send ClickTask.flushed
    cases hlast : s.task.lastDeliveryTag with
    | none => exact h.commit
    | some tag =>
      show ClickInv (if o.settle = true then s.commit.settle (.ack tag) else s.commit)
      split
      · exact h.commit.ack (h.last_behind tag hlast) rfl
      · exact h.commit
  · unfold System.send ClickTask.flushFailed
    cases hlast : s.task.lastDeliveryTag with
    | none => exact h.fail
    | some tag =>
      show ClickInv (if o.settle = true then s.fail.settle (.nack tag) else s.fail)
      split
      · exact h.fail.nack tag
      · exact h.fail

/-- One step keeps the invariant. -/
theorem ClickInv.step {s s' : System} {e : Event} (h : ClickInv s) (hs : s.step e = some s') :
    ClickInv s' := by
  cases e with
  | publish data =>
    obtain rfl := Option.some.inj hs
    exact h.publish _
  | deliver i =>
    obtain ⟨queue, hq, rfl⟩ := Option.map_eq_some_iff.mp hs
    exact h.deliver hq
  | next o =>
    obtain ⟨⟨d, queue⟩, hq, rfl⟩ := Option.map_eq_some_iff.mp hs
    simp only [onDelivery]
    split
    · rename_i hd
      exact h.skip hq hd
    · rename_i c hd
      have hcount := h.count hq hd
      split
      · exact hcount.flush o
      · exact hcount
  | tick o =>
    obtain rfl := Option.some.inj hs
    unfold onTick
    split
    · exact h
    · exact h.flush o
  | crash =>
    obtain rfl := Option.some.inj hs
    exact h.crash

/-- The invariant holds in every reachable state. -/
theorem clickInv_of_run {s : System} {es : List Event} {P : System → Event → Prop}
    (h : Run step P init es s) : ClickInv s :=
  h.induct (fun _ _ _ hI _ hs => hI.step hs) clickInv_init

/-- **No acknowledged click is lost.** In every state of every run, crashes and lost replies included,
a click that the broker removed because of an acknowledgement was counted once in the batch of a
committed flush, and that batch is exactly the number of counted deliveries of each code. -/
theorem acked_click_committed {s : System} {es : List Event} (h : Run step Any init es s)
    {d : Delivery ClickEvent} (hd : d ∈ s.acked) (hvalid : d.msg.shortCode.isSome) :
    ∃ f ∈ s.flushes, f.counted.count d = 1 ∧ ∀ c, f.batch.get c = (codes f.counted).count c := by
  have hinv := clickInv_of_run h
  obtain ⟨f, hf, hdf⟩ := hinv.acked_committed d hd hvalid
  obtain ⟨hnodup, hbatch⟩ := hinv.flush_eq f hf
  refine ⟨f, hf, List.count_eq_one_of_mem hnodup hdf, fun c => ?_⟩
  rw [hbatch, Tally.get_ofList]

/-- A click that was counted by a timer flush, acknowledged with the malformed delivery before it. -/
theorem acked_click_committed_of_tick :
    ∃ s : System, ∃ d ∈ s.acked, (∃ m ∈ s.acked, m.msg.shortCode = none) ∧ ∃ f ∈ s.flushes,
      f.counted.count d = 1 ∧ ∀ c, f.batch.get c = (codes f.counted).count c := by
  obtain ⟨s, hrun, hs⟩ := exists_run_of_exec step Any init
    [.publish ⟨#[0xff]⟩, .publish "b".toUTF8, .deliver 0, .deliver 0, .next ⟨true, true⟩, .next ⟨true, true⟩,
      .tick ⟨true, true⟩]
    (fun s => (s.acked.any fun d => d.msg.shortCode.isSome) && s.acked.any fun d => d.msg.shortCode.isNone)
    (by decide)
  obtain ⟨hsome, hnone⟩ := Bool.and_eq_true_iff.mp hs
  obtain ⟨d, hd, hvalid⟩ := List.any_eq_true.mp hsome
  obtain ⟨m, hm, hmalformed⟩ := List.any_eq_true.mp hnone
  exact ⟨s, d, hd, ⟨m, hm, Option.isNone_iff_eq_none.mp hmalformed⟩, acked_click_committed hrun hd hvalid⟩

/-! ## No click is counted twice, while no flush fails -/

/-- What committed flushes added to `click_count` for a short code. -/
def totalDelta (s : System) (c : String) : ℕ :=
  (s.flushes.map fun f => f.batch.get c).sum

/-- How many messages with a short code as payload were published. -/
def publishedCount (s : System) (c : String) : ℕ :=
  s.published.countP fun m => m.data = c.toUTF8

/-- How many messages with a short code as payload the task has not taken yet. -/
def waitingCount (s : System) (c : String) : ℕ :=
  s.queue.ready.countP (fun m => m.data = c.toUTF8) +
    s.queue.buffer.countP fun d => d.msg.data = c.toUTF8

/-- No crash or connection loss, and every reply reaches the broker. -/
def Reliable (_ : System) : Event → Prop
  | .next o | .tick o => o.settle = true
  | .crash => False
  | _ => True

instance (s : System) (e : Event) : Decidable (Reliable s e) := by
  unfold Reliable
  split <;> infer_instance

/-- The step flushes the batch and the `UPDATE` fails. -/
def FlushFails (s : System) : Event → Prop
  | .next o => o.update = false ∧ ∃ r ∈ s.queue.next, r.1.msg.shortCode.isSome ∧
      ClickTask.flushSize ≤ s.task.totalClicks + 1
  | .tick o => o.update = false ∧ ¬ s.task.batch.entries.isEmpty
  | _ => False

instance (s : System) (e : Event) : Decidable (FlushFails s e) := by
  unfold FlushFails
  split <;> infer_instance

/-- Committed, counted and waiting clicks of a code never outnumber those published. -/
def Accounted (s : System) : Prop :=
  ∀ c, s.totalDelta c + s.task.batch.get c + s.waitingCount c ≤ s.publishedCount c

theorem accounted_init : Accounted init := by
  intro c
  simp [totalDelta, waitingCount, init, ClickTask.init, Channel.empty]

theorem Accounted.publish {s : System} (h : Accounted s) (m : ClickEvent) :
    Accounted { s with queue := s.queue.publish m, published := s.published ++ [m] } := by
  intro c
  have hc := h c
  simp only [totalDelta, waitingCount, publishedCount, Channel.publish_ready,
    Channel.publish_buffer, List.countP_append] at hc ⊢
  omega

/-- Pushing a message moves it from the queue to the buffer. -/
theorem Accounted.deliver {s : System} (h : Accounted s) {i : ℕ} {queue : Channel ClickEvent}
    (hq : s.queue.deliver i = some queue) : Accounted { s with queue } := by
  intro c
  have hc := h c
  obtain ⟨m, hm, hready, -, hbuffer, -⟩ := Channel.deliver_eq_some hq
  obtain ⟨hi, rfl⟩ := List.getElem?_eq_some_iff.mp hm
  have hperm := (List.getElem_cons_eraseIdx_perm hi).countP_eq fun m => decide (m.data = c.toUTF8)
  simp only [List.countP_cons] at hperm
  simp only [totalDelta, waitingCount, publishedCount, hready, hbuffer, List.countP_append,
    List.countP_cons, List.countP_nil] at hc ⊢
  omega

theorem Accounted.skip {s : System} (h : Accounted s) {d : Delivery ClickEvent}
    {queue : Channel ClickEvent} (hq : s.queue.next = some (d, queue)) :
    Accounted { s with queue } := by
  intro c
  have hc := h c
  obtain ⟨hbuffer, hready, -, -⟩ := Channel.next_eq_some hq
  simp only [totalDelta, waitingCount, publishedCount, hready, hbuffer, List.countP_cons] at hc ⊢
  omega

/-- Counting a click moves it from the buffer to the batch. -/
theorem Accounted.count {s : System} (h : Accounted s) {d : Delivery ClickEvent}
    {queue : Channel ClickEvent} (hq : s.queue.next = some (d, queue)) {c : String}
    (hd : d.msg.shortCode = some c) : Accounted ({ s with queue }.count d c) := by
  intro c'
  have hc := h c'
  obtain ⟨hbuffer, hready, -, -⟩ := Channel.next_eq_some hq
  have hbatch : ({ s with queue }.count d c).task.batch = s.task.batch.bump c := rfl
  rw [hbatch]
  simp only [totalDelta, waitingCount, publishedCount, System.count, hready, hbuffer,
    List.countP_cons] at hc ⊢
  -- the click leaves the buffer under its own code only
  by_cases hcc : c' = c
  · subst hcc
    have hdata := ClickEvent.data_of_shortCode hd
    rw [Tally.get_bump_self]
    rw [if_pos (by simpa using hdata)] at hc
    omega
  · rw [Tally.get_bump_of_ne _ hcc]
    omega

/-- A commit moves the batch to the total. -/
theorem Accounted.commit {s : System} (h : Accounted s) : Accounted s.commit := by
  intro c
  have hc := h c
  have hbatch : s.commit.task.batch.get c = 0 := rfl
  have htotal : s.commit.totalDelta c = s.totalDelta c + s.task.batch.get c := by
    simp [totalDelta, System.commit]
  have hrest : s.commit.waitingCount c = s.waitingCount c ∧
      s.commit.publishedCount c = s.publishedCount c := ⟨rfl, rfl⟩
  omega

/-- An acknowledgement takes messages away. -/
theorem Accounted.ack {s : System} (h : Accounted s) (tag : ℕ) :
    Accounted (s.settle (.ack tag)) := by
  intro c
  have hc := h c
  have hle : ((s.queue.ack tag true).buffer.countP fun d => d.msg.data = c.toUTF8)
      ≤ s.queue.buffer.countP fun d => d.msg.data = c.toUTF8 :=
    List.filter_sublist.countP_le
  simp only [totalDelta, waitingCount, publishedCount, settle, Channel.ack_ready] at hc ⊢
  omega

/-- A flush that commits keeps the account. -/
theorem Accounted.flush {s : System} (h : Accounted s) {o : Outcome} (ho : o.update = true) :
    Accounted (s.flush o) := by
  unfold System.flush
  rw [if_pos ho]
  unfold System.send ClickTask.flushed
  cases s.task.lastDeliveryTag with
  | none => exact h.commit
  | some tag =>
    show Accounted (if o.settle = true then s.commit.settle (.ack tag) else s.commit)
    split
    · exact h.commit.ack tag
    · exact h.commit

/-- A step whose flush, if any, commits keeps the account. -/
theorem Accounted.step {s s' : System} {e : Event} (h : Accounted s) (hrel : Reliable s e)
    (hok : ¬ s.FlushFails e) (hs : s.step e = some s') : Accounted s' := by
  cases e with
  | publish data =>
    obtain rfl := Option.some.inj hs
    exact h.publish _
  | deliver i =>
    obtain ⟨queue, hq, rfl⟩ := Option.map_eq_some_iff.mp hs
    exact h.deliver hq
  | next o =>
    obtain ⟨⟨d, queue⟩, hq, rfl⟩ := Option.map_eq_some_iff.mp hs
    simp only [onDelivery]
    split
    · exact h.skip hq
    · rename_i c hd
      split
      · rename_i hsize
        -- the size trigger fires, so an `Err` here would be a failing flush
        have ho : o.update = true := by
          by_contra hne
          exact hok ⟨by simpa using hne, (d, queue), hq, by simp [hd], hsize⟩
        exact (h.count hq hd).flush ho
      · exact h.count hq hd
  | tick o =>
    obtain rfl := Option.some.inj hs
    unfold onTick
    split
    · exact h
    · rename_i hne
      have ho : o.update = true := by
        by_contra hu
        exact hok ⟨by simpa using hu, hne⟩
      exact h.flush ho
  | crash => exact hrel.elim

/-- **No click is counted twice while no flush fails.** In every run without crash or lost reply in
which every flush commits, the deltas committed for a short code never exceed the number of messages
published for it. -/
theorem totalDelta_le_publishedCount {s : System} {es : List Event}
    (h : Run step (fun s e => Reliable s e ∧ ¬ s.FlushFails e) init es s) (c : String) :
    s.totalDelta c ≤ s.publishedCount c := by
  have hacc : Accounted s :=
    h.induct (fun _ _ _ hI hP hs => hI.step hP.1 hP.2 hs) accounted_init
  have hc := hacc c
  omega

/-- Two clicks on one link, flushed by the timer. -/
theorem totalDelta_le_publishedCount_of_ticks :
    ∃ s : System, 0 < s.totalDelta "b" ∧ s.totalDelta "b" ≤ s.publishedCount "b" := by
  obtain ⟨s, hrun, hs⟩ := exists_run_of_exec step
    (fun s e => Reliable s e ∧ ¬ s.FlushFails e) init
    [.publish "b".toUTF8, .deliver 0, .next ⟨true, true⟩, .publish "b".toUTF8, .deliver 0,
      .next ⟨true, true⟩, .tick ⟨true, true⟩]
    (fun s => 0 < s.totalDelta "b") (by decide)
  exact ⟨s, by simpa using hs, totalDelta_le_publishedCount hrun "b"⟩

/-- **One failed flush counts a click twice.** One message is published; its first flush fails and
requeues it while the batch keeps it, so the next flush commits two clicks. -/
theorem failed_flush_counts_twice :
    ¬ ∀ (s : System) (es : List Event), Run step Reliable init es s →
      ∀ c, s.totalDelta c ≤ s.publishedCount c := by
  obtain ⟨s, hrun, hs⟩ := exists_run_of_exec step Reliable init
    [.publish "b".toUTF8, .deliver 0, .next ⟨true, true⟩, .tick ⟨false, true⟩, .deliver 0,
      .next ⟨true, true⟩, .tick ⟨true, true⟩]
    (fun s => s.publishedCount "b" < s.totalDelta "b") (by decide)
  intro hall
  have hlt : s.publishedCount "b" < s.totalDelta "b" := by simpa using hs
  exact absurd (hall s _ hrun "b") (by omega)

end System

end Bittuly.Clicks
