import Mathlib.Data.List.Basic
import Mathlib.Data.List.Nodup
import Mathlib.Data.Multiset.Filter
import Mathlib.Algebra.Order.Group.Multiset

/-!
# A message queue with one consumer channel

The broker side of one queue: messages that are ready, and messages pushed to the consumer and not
yet settled. A pushed message carries a delivery tag; tags count up from 1 within one channel. Pushed
messages wait in the consumer's buffer until the consumer takes them, in tag order.

`ack` removes outstanding messages and `nack` returns them to the queue; with `multiple` either
settles every outstanding tag up to the given one. `recover` is what the broker does when the channel
closes: every outstanding message is ready again and a new channel starts its tags at 1.

`contents` is the multiset of messages the broker still holds; a closing channel leaves it as it is.
-/

namespace Amqp

open scoped List

/-- A message pushed to the consumer under a delivery tag. -/
structure Delivery (M : Type*) where
  tag : ℕ
  msg : M
deriving DecidableEq, Repr

/-- One queue and its consumer channel. Outstanding deliveries are `taken` by the consumer or still in
its `buffer`; their tags increase and stay below the next tag to be assigned. -/
structure Channel (M : Type*) where
  ready : List M
  taken : List (Delivery M)
  buffer : List (Delivery M)
  nextTag : ℕ
  sorted : (taken ++ buffer).Pairwise (fun d e => d.tag < e.tag)
  tag_lt : ∀ d ∈ taken ++ buffer, d.tag < nextTag

namespace Channel

variable {M : Type*}

/-- A declared queue with a fresh channel. -/
def empty : Channel M where
  ready := []
  taken := []
  buffer := []
  nextTag := 1
  sorted := List.Pairwise.nil
  tag_lt := by simp

/-- The deliveries pushed to the consumer and not settled. -/
def outstanding (c : Channel M) : List (Delivery M) :=
  c.taken ++ c.buffer

/-- The messages the broker holds: ready or outstanding. -/
def contents (c : Channel M) : Multiset M :=
  (c.ready : Multiset M) + (c.outstanding.map Delivery.msg : List M)

/-- A publisher appends a message. -/
def publish (c : Channel M) (m : M) : Channel M :=
  { c with ready := c.ready ++ [m] }

/-- The broker pushes the `i`-th ready message to the consumer. -/
def deliver (c : Channel M) (i : ℕ) : Option (Channel M) :=
  match c.ready[i]? with
  | none => none
  | some m => some
    { ready := c.ready.eraseIdx i
      taken := c.taken
      buffer := c.buffer ++ [⟨c.nextTag, m⟩]
      nextTag := c.nextTag + 1
      sorted := by
        rw [← List.append_assoc, List.pairwise_append]
        refine ⟨c.sorted, List.pairwise_singleton _ _, ?_⟩
        intro d hd e he
        obtain rfl := List.mem_singleton.mp he
        exact c.tag_lt d hd
      tag_lt := by
        intro d hd
        rw [← List.append_assoc, List.mem_append, List.mem_singleton] at hd
        rcases hd with hd | rfl
        · exact (c.tag_lt d hd).trans (Nat.lt_succ_self _)
        · exact Nat.lt_succ_self _ }

/-- The consumer takes the oldest delivery of its buffer. -/
def next (c : Channel M) : Option (Delivery M × Channel M) :=
  match h : c.buffer with
  | [] => none
  | d :: rest => some (d,
    { c with
      taken := c.taken ++ [d]
      buffer := rest
      sorted := by
        have := c.sorted
        rw [h] at this
        simpa using this
      tag_lt := by
        have := c.tag_lt
        rw [h] at this
        simpa using this })

/-- Does settling `tag` settle this delivery? -/
def covers (tag : ℕ) (multiple : Bool) (d : Delivery M) : Bool :=
  if multiple then d.tag ≤ tag else d.tag = tag

/-- The outstanding deliveries that settling `tag` settles. -/
def settled (c : Channel M) (tag : ℕ) (multiple : Bool) : List (Delivery M) :=
  c.outstanding.filter (covers tag multiple)

/-- `basic.ack`: the settled messages leave the broker. -/
def ack (c : Channel M) (tag : ℕ) (multiple : Bool) : Channel M :=
  { c with
    taken := c.taken.filter (! covers tag multiple ·)
    buffer := c.buffer.filter (! covers tag multiple ·)
    sorted := c.sorted.sublist (List.filter_sublist.append List.filter_sublist)
    tag_lt := fun d hd =>
      c.tag_lt d ((List.filter_sublist.append List.filter_sublist).subset hd) }

/-- `basic.nack` with `requeue`: the settled messages are ready again. -/
def requeue (c : Channel M) (tag : ℕ) (multiple : Bool) : Channel M :=
  { c.ack tag multiple with ready := (c.settled tag multiple).map Delivery.msg ++ c.ready }

/-- The channel closes: every outstanding message is ready again. -/
def recover (c : Channel M) : Channel M :=
  { empty with ready := c.outstanding.map Delivery.msg ++ c.ready }

@[simp] theorem publish_ready (c : Channel M) (m : M) : (c.publish m).ready = c.ready ++ [m] := rfl
@[simp] theorem publish_taken (c : Channel M) (m : M) : (c.publish m).taken = c.taken := rfl
@[simp] theorem publish_buffer (c : Channel M) (m : M) : (c.publish m).buffer = c.buffer := rfl

@[simp] theorem ack_ready (c : Channel M) (tag : ℕ) (multiple : Bool) :
    (c.ack tag multiple).ready = c.ready := rfl
@[simp] theorem recover_taken (c : Channel M) : c.recover.taken = [] := rfl
@[simp] theorem recover_buffer (c : Channel M) : c.recover.buffer = [] := rfl
@[simp] theorem recover_outstanding (c : Channel M) : c.recover.outstanding = [] := rfl

/-- What a push does. -/
theorem deliver_eq_some {c c' : Channel M} {i : ℕ} (h : c.deliver i = some c') :
    ∃ m, c.ready[i]? = some m ∧ c'.ready = c.ready.eraseIdx i ∧ c'.taken = c.taken ∧
      c'.buffer = c.buffer ++ [⟨c.nextTag, m⟩] ∧ c'.nextTag = c.nextTag + 1 := by
  unfold deliver at h
  split at h
  · cases h
  · rename_i m hm
    obtain rfl := Option.some.inj h
    exact ⟨m, hm, rfl, rfl, rfl, rfl⟩

/-- What taking a delivery does. -/
theorem next_eq_some {c c' : Channel M} {d : Delivery M} (h : c.next = some (d, c')) :
    c.buffer = d :: c'.buffer ∧ c'.ready = c.ready ∧ c'.taken = c.taken ++ [d] ∧
      c'.nextTag = c.nextTag := by
  unfold next at h
  split at h
  · cases h
  · rename_i e rest hb
    simp only [Option.some.injEq, Prod.mk.injEq] at h
    obtain ⟨rfl, rfl⟩ := h
    exact ⟨hb, rfl, rfl, rfl⟩

/-- A taken delivery is older than everything left in the buffer, and its tag is in use. -/
theorem next_tag_lt {c c' : Channel M} {d : Delivery M} (h : c.next = some (d, c')) :
    d.tag < c'.nextTag ∧ ∀ e ∈ c'.buffer, d.tag < e.tag := by
  obtain ⟨-, -, htaken, -⟩ := next_eq_some h
  have hmem : d ∈ c'.taken := by rw [htaken]; simp
  exact ⟨c'.tag_lt d (List.mem_append_left _ hmem),
    fun e he => (List.pairwise_append.mp c'.sorted).2.2 d hmem e he⟩

theorem mem_ack_taken {c : Channel M} {tag : ℕ} {multiple : Bool} {d : Delivery M} :
    d ∈ (c.ack tag multiple).taken ↔ d ∈ c.taken ∧ covers tag multiple d = false := by
  simp [ack]

theorem mem_ack_buffer {c : Channel M} {tag : ℕ} {multiple : Bool} {d : Delivery M} :
    d ∈ (c.ack tag multiple).buffer ↔ d ∈ c.buffer ∧ covers tag multiple d = false := by
  simp [ack]

/-- Settling a tag older than the whole buffer settles deliveries the consumer has taken. -/
theorem mem_taken_of_settled {c : Channel M} {tag : ℕ} {multiple : Bool} {d : Delivery M}
    (hbuffer : ∀ e ∈ c.buffer, tag < e.tag) (hd : d ∈ c.settled tag multiple) : d ∈ c.taken := by
  obtain ⟨hout, hcov⟩ := List.mem_filter.mp hd
  rcases List.mem_append.mp hout with h | h
  · exact h
  · have hlt := hbuffer d h
    cases multiple <;> simp [covers] at hcov <;> omega

/-- Outstanding deliveries carry distinct tags. -/
theorem outstanding_nodup (c : Channel M) : c.outstanding.Nodup :=
  c.sorted.imp fun h => by rintro rfl; exact lt_irrefl _ h

/-- Settling the tag of one outstanding delivery settles that delivery alone. -/
theorem outstanding_ack_one {c : Channel M} {d : Delivery M} (hd : d ∈ c.outstanding) :
    (c.outstanding : Multiset (Delivery M)) = d ::ₘ ((c.ack d.tag false).outstanding : Multiset _) := by
  have hinj : ∀ e ∈ c.outstanding, e.tag = d.tag → e = d := by
    intro e he htag
    have htags : (c.outstanding.map Delivery.tag).Nodup :=
      List.pairwise_map.mpr (c.sorted.imp fun h => h.ne)
    exact List.inj_on_of_nodup_map htags he hd htag
  obtain ⟨l, r, hlr⟩ := List.append_of_mem hd
  have hnodup := c.outstanding_nodup
  rw [hlr] at hnodup hinj
  have hd' : d ∉ l ++ r := by
    have := List.perm_middle.nodup_iff.mp hnodup
    exact (List.nodup_cons.mp this).1
  have hkeep : ∀ e ∈ l ++ r, (! covers d.tag false e) = true := by
    intro e he
    have hmem : e ∈ l ++ d :: r := by
      rcases List.mem_append.mp he with h | h
      · exact List.mem_append_left _ h
      · exact List.mem_append_right _ (List.mem_cons_of_mem _ h)
    have hne : e.tag ≠ d.tag := fun htag => hd' (hinj e hmem htag ▸ he)
    simpa [covers] using hne
  have hack : (c.ack d.tag false).outstanding = l ++ r := by
    have hfilter : (c.ack d.tag false).outstanding
        = c.outstanding.filter (! covers d.tag false ·) := by simp [outstanding, ack]
    have hself : (! covers d.tag false d) = false := by simp [covers]
    rw [hfilter, hlr, List.filter_append, List.filter_cons, hself, if_neg (by simp),
      ← List.filter_append]
    exact List.filter_eq_self.mpr hkeep
  rw [hack, hlr, Multiset.cons_coe, Multiset.coe_eq_coe]
  exact List.perm_middle

/-! ## What the broker holds -/

/-- A closing channel loses no message. -/
theorem contents_recover (c : Channel M) : c.recover.contents = c.contents := by
  show (((c.outstanding.map Delivery.msg ++ c.ready : List M) : Multiset M) + _) = _
  rw [← Multiset.coe_add]
  simp [contents, add_comm]

theorem contents_publish (c : Channel M) (m : M) : (c.publish m).contents = c.contents + {m} := by
  show ((c.ready ++ [m] : List M) : Multiset M) + _ = _
  rw [← Multiset.coe_add, Multiset.coe_singleton, contents, add_right_comm]
  rfl

/-- Pushing a message moves it. -/
theorem contents_deliver {c c' : Channel M} {i : ℕ} (h : c.deliver i = some c') :
    c'.contents = c.contents := by
  obtain ⟨m, hm, hready, htaken, hbuffer, -⟩ := deliver_eq_some h
  obtain ⟨hi, rfl⟩ := List.getElem?_eq_some_iff.mp hm
  have hperm := List.getElem_cons_eraseIdx_perm hi
  rw [contents, contents, outstanding, outstanding, hready, htaken, hbuffer, ← List.append_assoc,
    List.map_append, Multiset.coe_add, Multiset.coe_add, Multiset.coe_eq_coe]
  refine List.Perm.trans ?_ (hperm.append_right _)
  rw [List.map_singleton, ← List.append_assoc, List.cons_append]
  exact List.perm_append_singleton _ _

/-- Taking a delivery moves it. -/
theorem contents_next {c c' : Channel M} {d : Delivery M} (h : c.next = some (d, c')) :
    c'.contents = c.contents := by
  obtain ⟨hbuffer, hready, htaken, -⟩ := next_eq_some h
  rw [contents, contents, outstanding, outstanding, hready, htaken, hbuffer, List.append_assoc,
    List.singleton_append]

/-- Settled messages are what an acknowledgement takes away. -/
theorem contents_ack (c : Channel M) (tag : ℕ) (multiple : Bool) :
    (c.ack tag multiple).contents + (((c.settled tag multiple).map Delivery.msg : List M) : Multiset M) =
      c.contents := by
  have hout : (c.ack tag multiple).outstanding = c.outstanding.filter (! covers tag multiple ·) := by
    simp [outstanding, ack]
  rw [contents, contents, ack_ready, hout, settled, add_assoc, Multiset.coe_add (List.map _ _),
    ← List.map_append]
  congr 1
  exact Multiset.coe_eq_coe.mpr
    (((List.perm_append_comm).trans (List.filter_append_perm _ _)).map Delivery.msg)

/-- A requeue loses no message. -/
theorem contents_requeue (c : Channel M) (tag : ℕ) (multiple : Bool) :
    (c.requeue tag multiple).contents = c.contents := by
  rw [← contents_ack c tag multiple]
  show (((c.settled tag multiple).map Delivery.msg ++ c.ready : List M) : Multiset M) + _ = _
  rw [← Multiset.coe_add, add_assoc, add_comm]
  rfl

end Channel

end Amqp
