import Mathlib.Data.List.Basic
import Mathlib.Data.List.Count
import Mathlib.Data.List.Perm.Basic
import Mathlib.Tactic.Common

/-!
# Requests in flight

A party that waits for answers keeps a list of its requests: a new one is added at the end, one that is
answered stays where it is, and one that is over is taken out. These are the counts of the requests of one
kind, for an invariant that ties a count to a flag.
-/

namespace InFlight

variable {α : Type*} {l : List α} {i : ℕ} {x y : α}

/-- A request is over. -/
theorem countP_eraseIdx (h : l[i]? = some x) (p : α → Bool) :
    (l.eraseIdx i).countP p + (p x).toNat = l.countP p := by
  obtain ⟨hi, rfl⟩ := List.getElem?_eq_some_iff.mp h
  have hperm : (l[i] :: l.eraseIdx i).countP p = l.countP p :=
    (List.getElem_cons_eraseIdx_perm hi).countP_eq p
  rw [← hperm, List.countP_cons]
  cases p l[i] <;> rfl

/-- A request that stays of its kind. -/
theorem countP_set (h : l[i]? = some x) {p : α → Bool} (hp : p y = p x) :
    (l.set i y).countP p = l.countP p := by
  obtain ⟨hi, rfl⟩ := List.getElem?_eq_some_iff.mp h
  have hpos : (if p l[i] = true then 1 else 0) ≤ l.countP p := by
    split
    · rename_i hpx
      exact List.countP_pos_iff.mpr ⟨l[i], List.getElem_mem hi, hpx⟩
    · exact Nat.zero_le _
  rw [List.countP_set hi, hp]
  omega

/-- Any other request is still there. -/
theorem mem_eraseIdx_of_ne (h : l[i]? = some x) (hy : y ∈ l) (hne : y ≠ x) : y ∈ l.eraseIdx i := by
  obtain ⟨j, hj⟩ := List.mem_iff_getElem?.mp hy
  have hji : j ≠ i := by
    rintro rfl
    exact hne (Option.some.inj (hj.symm.trans h))
  exact List.mem_eraseIdx_iff_getElem?.mpr ⟨j, hji, hj⟩

/-- And so is any other when one is replaced. -/
theorem exists_mem_set (h : l[i]? = some x) {P : α → Prop} (hP : P x → P y) (hx : ∃ z ∈ l, P z) :
    ∃ z ∈ l.set i y, P z := by
  obtain ⟨z, hz, hPz⟩ := hx
  obtain ⟨j, hj⟩ := List.mem_iff_getElem?.mp hz
  obtain ⟨hi, -⟩ := List.getElem?_eq_some_iff.mp h
  by_cases hij : i = j
  · subst hij
    obtain rfl := Option.some.inj (h.symm.trans hj)
    exact ⟨y, List.mem_set hi y, hP hPz⟩
  · refine ⟨z, List.mem_iff_getElem?.mpr ⟨j, ?_⟩, hPz⟩
    rw [List.getElem?_set_ne hij, hj]

/-- A flag that is up while a request is in flight comes down with it. -/
theorem toNat_and_not {n : ℕ} {flag mine : Bool} (h : n + mine.toNat = flag.toNat) :
    n = (flag && !mine).toNat := by
  cases flag <;> cases mine <;> simp_all

end InFlight
