import Mathlib.Data.List.AList
import Mathlib.Data.List.Induction
import Mathlib.Algebra.Order.Ring.Nat

/-!
# Counting maps

A map from keys to counts, held as an association list without repeated keys. `bump` adds one
occurrence of a key; a map built by bumps reads back as the occurrence counts of the keys bumped.
-/

/-- A map from keys to counts. -/
abbrev Tally (κ : Type*) := AList (fun _ : κ => ℕ)

namespace Tally

variable {κ : Type*} [DecidableEq κ]

/-- The count of a key; an absent key counts zero. -/
def get (b : Tally κ) (k : κ) : ℕ :=
  (b.lookup k).getD 0

/-- Add one occurrence of a key. -/
def bump (b : Tally κ) (k : κ) : Tally κ :=
  b.insert k (b.get k + 1)

@[simp] theorem get_empty (k : κ) : get (∅ : Tally κ) k = 0 := rfl

theorem get_bump_self (b : Tally κ) (k : κ) : (b.bump k).get k = b.get k + 1 := by
  simp only [get, bump, AList.lookup_insert, Option.getD_some]

theorem get_bump_of_ne (b : Tally κ) {k k' : κ} (h : k' ≠ k) : (b.bump k).get k' = b.get k' := by
  simp only [get, bump, AList.lookup_insert_ne h]

/-- The counts of a list of keys, bumped in order. -/
def ofList (ks : List κ) : Tally κ :=
  ks.foldl bump ∅

/-- Bumping an appended key last. -/
theorem ofList_concat (ks : List κ) (k : κ) : ofList (ks ++ [k]) = (ofList ks).bump k := by
  simp [ofList]

/-- A map built by bumps reads back as occurrence counts. -/
theorem get_ofList (ks : List κ) (k : κ) : (ofList ks).get k = ks.count k := by
  induction ks using List.reverseRecOn with
  | nil => rfl
  | append_singleton ks j ih =>
    rw [ofList_concat, List.count_append]
    by_cases h : j = k
    · subst h
      rw [get_bump_self, ih, List.count_singleton_self]
    · rw [get_bump_of_ne _ (Ne.symm h), ih, List.count_singleton, if_neg (by simpa using h)]
      rfl

/-- Counts are positive. -/
theorem pos_of_mem_ofList {ks : List κ} {k : κ} {n : ℕ} (h : ⟨k, n⟩ ∈ (ofList ks).entries) : 0 < n := by
  induction ks using List.reverseRecOn generalizing k n with
  | nil => cases h
  | append_singleton ks j ih =>
    rw [ofList_concat, bump, AList.entries_insert] at h
    rcases List.mem_cons.mp h with h | h
    · cases h
      exact Nat.succ_pos _
    · exact ih ((List.kerase_sublist j _).subset h)

/-- The sum of all counts. -/
def total (b : Tally κ) : ℕ :=
  (b.entries.map Sigma.snd).sum

/-- Erasing a key takes its count away. -/
theorem sum_kerase (l : List (Sigma fun _ : κ => ℕ)) (k : κ) :
    ((l.kerase k).map Sigma.snd).sum + (l.dlookup k).getD 0 = (l.map Sigma.snd).sum := by
  induction l with
  | nil => rfl
  | cons e l ih =>
    by_cases h : k = e.1
    · subst h
      rw [List.kerase_cons_eq rfl, List.dlookup_cons_eq, Option.getD_some, List.map_cons, List.sum_cons,
        Nat.add_comm]
    · rw [List.kerase_cons_ne h, List.dlookup_cons_ne l e h, List.map_cons, List.map_cons, List.sum_cons,
        List.sum_cons, Nat.add_assoc, ih]

theorem total_bump (b : Tally κ) (k : κ) : (b.bump k).total = b.total + 1 := by
  have hsum := sum_kerase b.entries k
  have hget : (b.entries.dlookup k).getD 0 = b.get k := rfl
  rw [hget] at hsum
  simp only [total, bump, AList.entries_insert, List.map_cons, List.sum_cons]
  omega

theorem total_ofList (ks : List κ) : (ofList ks).total = ks.length := by
  induction ks using List.reverseRecOn with
  | nil => rfl
  | append_singleton ks k ih =>
    rw [ofList_concat, total_bump, ih, List.length_append, List.length_singleton]

/-- A map that something was bumped into has entries. -/
theorem ofList_entries_eq_nil_iff {ks : List κ} : (ofList ks).entries = [] ↔ ks = [] := by
  induction ks using List.reverseRecOn with
  | nil => exact ⟨fun _ => rfl, fun _ => rfl⟩
  | append_singleton ks k ih =>
    rw [ofList_concat, bump, AList.entries_insert]
    simp

end Tally
