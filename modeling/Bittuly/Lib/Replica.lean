import Bittuly.Lib.Run
import Mathlib.Data.List.Perm.Basic
import Mathlib.Order.Nat
import Mathlib.Tactic.Common

/-!
# A primary and its replica

A store answers calls. Behind one front it is kept twice: calls that write go to the primary, calls that
only read go to the replica, which replays what the primary has committed, one version at a time and late.

`exists_serial` is the consistency that is left: all answers are those of one store, with the writes in the
order in which they were made, and so the reads, each behind the writes that the replica had replayed.
-/

namespace Replica

open Runs

variable {σ C A : Type*}

/-! ## One store -/

section Store

variable (call : σ → C → A × σ)

/-- The answers to calls made one after the other. -/
def answers : σ → List C → List A
  | _, [] => []
  | s, c :: cs => (call s c).1 :: answers (call s c).2 cs

/-- What calls made one after the other leave. -/
def after (s : σ) (cs : List C) : σ :=
  cs.foldl (fun s c => (call s c).2) s

theorem after_append (s : σ) (cs ds : List C) :
    after call s (cs ++ ds) = after call (after call s cs) ds :=
  List.foldl_append

theorem answers_append (s : σ) (cs ds : List C) :
    answers call s (cs ++ ds) = answers call s cs ++ answers call (after call s cs) ds := by
  induction cs generalizing s with
  | nil => rfl
  | cons c cs ih => exact congrArg _ (ih _)

end Store

/-! ## The store kept twice -/

/-- A call that was answered; `seen` is how many versions the replica had replayed by then. -/
structure Served (C A : Type*) where
  call : C
  answer : A
  seen : ℕ
deriving DecidableEq, Repr

/-- `behind` are the versions that the replica has yet to replay, the oldest first. -/
structure Pair (σ C A : Type*) where
  primary : σ
  replica : σ
  behind : List σ
  replayed : ℕ
  served : List (Served C A)

/-- The replica begins as a copy. -/
def Pair.start (s : σ) : Pair σ C A where
  primary := s
  replica := s
  behind := []
  replayed := 0
  served := []

inductive PairEvent (C : Type*)
  | call (c : C)
  | replay
deriving DecidableEq, Repr

section Steps

variable (routed : σ × σ → C → A × σ × σ) (reads : C → Bool)

def Pair.step (p : Pair σ C A) : PairEvent C → Option (Pair σ C A)
  | .call c =>
    let (answer, primary, replica) := routed (p.primary, p.replica) c
    some { p with
      primary, replica
      behind := if reads c then p.behind else p.behind ++ [primary]
      served := p.served ++ [{ call := c, answer, seen := p.replayed }] }
  | .replay =>
    match p.behind with
    | [] => none
    | version :: behind => some { p with replica := version, behind, replayed := p.replayed + 1 }

/-- Calls that read are answered by the replica and change nothing, the others by the primary. -/
structure Routes (call : σ → C → A × σ) : Prop where
  read {t r : σ} {c : C} : reads c → routed (t, r) c = ((call r c).1, t, r)
  write {t r : σ} {c : C} : ¬reads c → routed (t, r) c = ((call t c).1, (call t c).2, r)
  frame {s : σ} {c : C} : reads c → (call s c).2 = s

end Steps

/-! ## A serial order -/

section Serial

variable (reads : C → Bool)

def Served.isRead (e : Served C A) : Bool :=
  reads e.call

def Served.isWrite (e : Served C A) : Bool :=
  ! reads e.call

/-- The calls that write. -/
def writes (l : List (Served C A)) : List C :=
  (l.filter (Served.isWrite reads)).map Served.call

/-- Behind `k` writes; each read stands behind as many writes as the replica had replayed. -/
def Placed : ℕ → List (Served C A) → Prop
  | _, [] => True
  | k, e :: es => if reads e.call then e.seen = k ∧ Placed k es else Placed (k + 1) es

/-- One store, from `s` to `t`, answers the calls of `serial` as they were answered. -/
structure Serial (call : σ → C → A × σ) (s t : σ) (served serial : List (Served C A)) : Prop where
  perm : serial.Perm served
  answered : answers call s (serial.map Served.call) = serial.map Served.answer
  left : after call s (serial.map Served.call) = t
  inOrder : serial.filter (Served.isWrite reads) = served.filter (Served.isWrite reads)
  readInOrder : serial.filter (Served.isRead reads) = served.filter (Served.isRead reads)
  placed : Placed reads 0 serial

/-- A read goes before the write that follows the first `v`. -/
def place (e : Served C A) : ℕ → List (Served C A) → List (Served C A)
  | _, [] => [e]
  | 0, x :: xs => if reads x.call then x :: place e 0 xs else e :: x :: xs
  | v + 1, x :: xs => x :: place e (if reads x.call then v + 1 else v) xs

variable {reads} {call : σ → C → A × σ} {routed : σ × σ → C → A × σ × σ} {e : Served C A}

theorem writes_cons_read {x : Served C A} (h : reads x.call) (xs : List (Served C A)) :
    writes reads (x :: xs) = writes reads xs := by
  simp [writes, Served.isWrite, h]

theorem writes_cons_write {x : Served C A} (h : ¬reads x.call) (xs : List (Served C A)) :
    writes reads (x :: xs) = x.call :: writes reads xs := by
  simp [writes, Served.isWrite, h]

theorem place_perm (v : ℕ) (l : List (Served C A)) : (place reads e v l).Perm (e :: l) := by
  induction l generalizing v with
  | nil => cases v <;> exact .refl _
  | cons x xs ih =>
    have hback : ∀ v, (x :: place reads e v xs).Perm (e :: x :: xs) := fun v =>
      ((ih v).cons x).trans (.swap e x xs)
    cases v with
    | zero =>
      rw [place]
      split
      · exact hback 0
      · exact .refl _
    | succ v => exact hback _

theorem filter_isWrite_place (he : reads e.call) (v : ℕ) (l : List (Served C A)) :
    (place reads e v l).filter (Served.isWrite reads) = l.filter (Served.isWrite reads) := by
  induction l generalizing v with
  | nil => cases v <;> simp [place, Served.isWrite, he]
  | cons x xs ih =>
    cases v with
    | zero =>
      rw [place]
      split
      · rw [List.filter_cons, List.filter_cons, ih]
      · simp [Served.isWrite, he]
    | succ v => rw [place, List.filter_cons, List.filter_cons, ih]

/-- Behind `k` writes, no read is older. -/
theorem Placed.le_seen {k : ℕ} {l : List (Served C A)} (h : Placed reads k l) :
    ∀ x ∈ l.filter (Served.isRead reads), k ≤ x.seen := by
  induction l generalizing k with
  | nil => exact fun x hx => nomatch hx
  | cons y ys ih =>
    rw [Placed] at h
    split at h
    · rename_i hy
      intro x hx
      rw [List.filter_cons_of_pos (p := Served.isRead reads) hy] at hx
      rcases List.mem_cons.mp hx with rfl | hx
      · exact h.1.ge
      · exact ih h.2 x hx
    · rename_i hy
      intro x hx
      rw [List.filter_cons_of_neg (p := Served.isRead reads) hy] at hx
      exact (Nat.le_succ k).trans (ih h x hx)

theorem Placed.place {k v : ℕ} {l : List (Served C A)} (h : Placed reads k l) (he : reads e.call)
    (hseen : e.seen = k + v) (hv : v ≤ (writes reads l).length) : Placed reads k (place reads e v l) := by
  induction l generalizing k v with
  | nil =>
    obtain rfl : v = 0 := Nat.le_zero.mp hv
    simpa [Replica.place, Placed, he] using hseen
  | cons x xs ih =>
    rw [Placed] at h
    by_cases hx : reads x.call
    · rw [if_pos hx] at h
      rw [writes_cons_read hx] at hv
      cases v with
      | zero => simpa [Replica.place, Placed, hx, h.1] using ih h.2 hseen hv
      | succ v => simpa [Replica.place, Placed, hx, h.1] using ih h.2 hseen hv
    · rw [if_neg hx] at h
      cases v with
      | zero => simpa [Replica.place, Placed, hx, he, hseen] using h
      | succ v =>
        rw [writes_cons_write hx, List.length_cons, Nat.succ_le_succ_iff] at hv
        have hrest := ih h (hseen.trans (by omega)) hv
        simpa [Replica.place, Placed, hx] using hrest

/-- A read that is as new as any goes to the end of the reads. -/
theorem Placed.filter_isRead_place {k v : ℕ} {l : List (Served C A)} (h : Placed reads k l)
    (he : reads e.call) (hnew : ∀ x ∈ l.filter (Served.isRead reads), x.seen ≤ k + v) :
    (Replica.place reads e v l).filter (Served.isRead reads) = l.filter (Served.isRead reads) ++ [e] := by
  induction l generalizing k v with
  | nil => cases v <;> simp [Replica.place, Served.isRead, he]
  | cons x xs ih =>
    rw [Placed] at h
    by_cases hx : reads x.call
    · rw [if_pos hx] at h
      rw [List.filter_cons_of_pos (p := Served.isRead reads) hx] at hnew ⊢
      have hrest := ih h.2 fun y hy => hnew y (List.mem_cons_of_mem _ hy)
      cases v with
      | zero => simp [Replica.place, Served.isRead, hx, ← hrest]
      | succ v => simp [Replica.place, Served.isRead, hx, ← hrest]
    · rw [if_neg hx] at h
      rw [List.filter_cons_of_neg (p := Served.isRead reads) hx] at hnew ⊢
      cases v with
      | zero =>
        -- there is no read behind the next write
        have hnone : xs.filter (Served.isRead reads) = [] := by
          refine List.eq_nil_iff_forall_not_mem.mpr fun y hy => ?_
          have := h.le_seen y hy
          have := hnew y hy
          omega
        rw [Replica.place, if_neg hx, hnone]
        rw [List.filter_cons_of_pos (p := Served.isRead reads) he,
          List.filter_cons_of_neg (p := Served.isRead reads) hx, hnone]
        rfl
      | succ v =>
        rw [Replica.place, if_neg hx, List.filter_cons_of_neg (p := Served.isRead reads) hx]
        exact ih h fun y hy => (hnew y hy).trans (by omega)

/-- Only the writes matter for what calls leave. -/
theorem Routes.after_eq (h : Routes routed reads call) (s : σ) (l : List (Served C A)) :
    after call s (l.map Served.call) = after call s (writes reads l) := by
  induction l generalizing s with
  | nil => rfl
  | cons x xs ih =>
    by_cases hx : reads x.call
    · rw [writes_cons_read hx, ← ih]
      show after call (call s x.call).2 _ = _
      rw [h.frame hx]
    · rw [writes_cons_write hx]
      exact ih _

/-- A read is answered in its new place as it was by the version that it saw. -/
theorem Routes.answers_place (h : Routes routed reads call) (he : reads e.call) {s : σ} {v : ℕ}
    {l : List (Served C A)} (hl : answers call s (l.map Served.call) = l.map Served.answer)
    (hv : v ≤ (writes reads l).length)
    (hanswer : (call (after call s ((writes reads l).take v)) e.call).1 = e.answer) :
    answers call s ((place reads e v l).map Served.call) = (place reads e v l).map Served.answer := by
  induction l generalizing s v with
  | nil =>
    obtain rfl : v = 0 := Nat.le_zero.mp hv
    exact congrArg (· :: []) hanswer
  | cons x xs ih =>
    obtain ⟨hx', hxs⟩ := List.cons.inj hl
    by_cases hx : reads x.call
    · rw [writes_cons_read hx] at hv hanswer
      rw [h.frame hx] at hxs
      have hrest := ih hxs hv hanswer
      cases v with
      | zero => simp [place, answers, hx, hx', h.frame hx, hrest]
      | succ v => simp [place, answers, hx, hx', h.frame hx, hrest]
    · rw [writes_cons_write hx] at hv hanswer
      cases v with
      | zero =>
        have hanswer : (call s e.call).1 = e.answer := hanswer
        simp [place, answers, hx, hx', hxs, h.frame he, hanswer]
      | succ v =>
        have hrest := ih hxs (Nat.succ_le_succ_iff.mp hv) hanswer
        simp [place, answers, hx, hx', hrest]

theorem Placed.append_write {k : ℕ} {l : List (Served C A)} (h : Placed reads k l) (he : ¬reads e.call) :
    Placed reads k (l ++ [e]) := by
  induction l generalizing k with
  | nil => simp [Placed, he]
  | cons x xs ih =>
    by_cases hx : reads x.call
    · rw [Placed, if_pos hx] at h
      simpa [Placed, hx, h.1] using ih h.2
    · rw [Placed, if_neg hx] at h
      simpa [Placed, hx] using ih h

section OneMore

variable {s t : σ} {served serial : List (Served C A)}

/-- **One more read**, of a version no older than those read before. -/
theorem Serial.read (hroutes : Routes routed reads call) (h : Serial reads call s t served serial)
    (he : reads e.call) (hseen : e.seen ≤ (writes reads served).length)
    (hanswer : (call (after call s ((writes reads served).take e.seen)) e.call).1 = e.answer)
    (hnew : ∀ x ∈ served, x.seen ≤ e.seen) :
    Serial reads call s t (served ++ [e]) (place reads e e.seen serial) := by
  have hsame : writes reads serial = writes reads served := congrArg (List.map Served.call) h.inOrder
  refine ⟨?_, ?_, ?_, ?_, ?_, ?_⟩
  · exact (place_perm _ _).trans ((h.perm.cons e).trans (List.perm_append_singleton e _).symm)
  · rw [← hsame] at hseen hanswer
    exact hroutes.answers_place he h.answered hseen hanswer
  · rw [hroutes.after_eq, writes, filter_isWrite_place he, ← writes, ← hroutes.after_eq]
    exact h.left
  · rw [filter_isWrite_place he, h.inOrder, List.filter_append]
    simp [Served.isWrite, he]
  · rw [h.placed.filter_isRead_place he, h.readInOrder, List.filter_append]
    · simp [Served.isRead, he]
    · intro x hx
      rw [h.readInOrder] at hx
      rw [Nat.zero_add]
      exact hnew x (List.mem_of_mem_filter hx)
  · exact h.placed.place he (Nat.zero_add _).symm (hsame ▸ hseen)

/-- **One more write.** -/
theorem Serial.write (h : Serial reads call s t served serial) (he : ¬reads e.call)
    (hanswer : (call t e.call).1 = e.answer) :
    Serial reads call s (call t e.call).2 (served ++ [e]) (serial ++ [e]) := by
  refine ⟨h.perm.append_right [e], ?_, ?_, ?_, ?_, h.placed.append_write he⟩
  · rw [List.map_append, List.map_append, answers_append, h.answered, h.left]
    exact congrArg (_ ++ [·]) hanswer
  · rw [List.map_append, after_append, h.left]
    rfl
  · rw [List.filter_append, List.filter_append, h.inOrder]
  · rw [List.filter_append, List.filter_append, h.readInOrder]

end OneMore

/-! ## Every run -/

/-- The versions that the calls have committed, the replica at the last of those it has replayed. -/
structure Inv (call : σ → C → A × σ) (reads : C → Bool) (s : σ) (p : Pair σ C A) : Prop where
  versions : ∃ before, (writes reads p.served).scanl (fun s c => (call s c).2) s =
    before ++ p.replica :: p.behind ∧ before.length = p.replayed
  seen : ∀ e ∈ p.served, e.seen ≤ p.replayed
  serial : ∃ serial, Serial reads call s p.primary p.served serial

variable {s : σ} {p p' : Pair σ C A}

theorem Inv.start (s : σ) : Inv call reads s (.start s) where
  versions := ⟨[], by simp [writes, Pair.start], rfl⟩
  seen := fun _ he => nomatch he
  serial := ⟨[], .refl _, rfl, rfl, rfl, rfl, trivial⟩

/-- The replica is the store as the writes that it has replayed have left it. -/
theorem Inv.replica_eq (h : Inv call reads s p) :
    p.replayed ≤ (writes reads p.served).length ∧
      p.replica = after call s ((writes reads p.served).take p.replayed) := by
  obtain ⟨before, hversions, hlength⟩ := h.versions
  have hget : ((writes reads p.served).scanl (fun s c => (call s c).2) s)[p.replayed]? = some p.replica := by
    rw [hversions, ← hlength, List.getElem?_append_right le_rfl, Nat.sub_self]
    rfl
  rw [List.getElem?_scanl] at hget
  split at hget
  · exact ⟨‹_›, (Option.some.inj hget).symm⟩
  · cases hget

theorem Inv.step (hroutes : Routes routed reads call) (h : Inv call reads s p) {e : PairEvent C}
    (hstep : p.step routed reads e = some p') : Inv call reads s p' := by
  cases e with
  | replay =>
    simp only [Pair.step] at hstep
    split at hstep
    · cases hstep
    · rename_i version behind hbehind
      obtain rfl := Option.some.inj hstep
      obtain ⟨before, hversions, hlength⟩ := h.versions
      refine ⟨⟨before ++ [p.replica], ?_, ?_⟩, fun e he => (h.seen e he).trans (Nat.le_succ _), h.serial⟩
      · rw [hversions, hbehind, List.append_assoc]
        rfl
      · rw [List.length_append, hlength]
        rfl
  | call c =>
    obtain ⟨serial, hserial⟩ := h.serial
    have hseen : ∀ a, ∀ e ∈ p.served ++ [Served.mk c a p.replayed], e.seen ≤ p.replayed := by
      intro a e he
      rcases List.mem_append.mp he with he | he
      · exact h.seen e he
      · exact (congrArg Served.seen (List.mem_singleton.mp he)).le
    obtain rfl := Option.some.inj hstep
    by_cases hc : reads c
    · simp only [hroutes.read hc, if_pos hc]
      obtain ⟨hle, hreplica⟩ := h.replica_eq
      refine ⟨?_, hseen _, _, hserial.read hroutes hc hle ?_ h.seen⟩
      · simpa [writes, Served.isWrite, hc] using h.versions
      · show (call (after call s _) c).1 = (call p.replica c).1
        rw [hreplica]
    · simp only [hroutes.write hc, if_neg hc]
      have hwrite := hserial.write (e := ⟨c, (call p.primary c).1, p.replayed⟩) hc rfl
      refine ⟨?_, hseen _, _, hwrite⟩
      obtain ⟨before, hversions, hlength⟩ := h.versions
      have hprimary : after call s (writes reads p.served) = p.primary := by
        rw [writes, ← hserial.inOrder, ← writes, ← hroutes.after_eq]
        exact hserial.left
      have hwrites : writes reads (p.served ++ [⟨c, (call p.primary c).1, p.replayed⟩]) =
          writes reads p.served ++ [c] := by
        simp [writes, Served.isWrite, hc]
      refine ⟨before, ?_, hlength⟩
      rw [hwrites, List.scanl_append, hversions, ← after, hprimary, List.append_assoc]
      rfl

/-- **A serial order.** Whatever the replica's delays, the store might as well be one. -/
theorem exists_serial (hroutes : Routes routed reads call) {es : List (PairEvent C)}
    (h : Run (Pair.step routed reads) Any (.start s) es p) :
    ∃ serial, Serial reads call s p.primary p.served serial :=
  (h.induct (fun _ _ _ hinv _ hstep => Inv.step hroutes hinv hstep) (Inv.start s)).serial

end Serial

end Replica
