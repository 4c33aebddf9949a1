import Mathlib.Data.List.Forall2
import Mathlib.Data.List.Infix
import Mathlib.Tactic.Common

/-!
# Patterns with wildcards

A pattern is a list of tokens: one element of a kind, or any number of them. `accepts` runs a pattern over
a whole list by trying every end of a run. It splits along concatenation, which reduces a pattern to its
parts.
-/

namespace Wildcard

variable {α : Type*}

/-- A part of a pattern. -/
inductive Token (α : Type*)
  /-- One element with this property. -/
  | one (p : α → Bool)
  /-- Any number of elements with this property. -/
  | many (p : α → Bool)

/-- What can be left of a list after some first elements with a property. -/
def rests (p : α → Bool) : List α → List (List α)
  | [] => [[]]
  | x :: xs => (x :: xs) :: if p x then rests p xs else []

/-- The pattern matches the whole list. -/
def accepts : List (Token α) → List α → Bool
  | [], xs => xs.isEmpty
  | .one _ :: _, [] => false
  | .one p :: ts, x :: xs => p x && accepts ts xs
  | .many p :: ts, xs => (rests p xs).any (accepts ts)

/-- Elements that all match, whatever they are. -/
def anything : Token α :=
  .many fun _ => true

theorem mem_rests {p : α → Bool} {xs ys : List α} :
    ys ∈ rests p xs ↔ ∃ zs, xs = zs ++ ys ∧ ∀ z ∈ zs, p z = true := by
  induction xs with
  | nil =>
    rw [rests, List.mem_singleton]
    constructor
    · rintro rfl
      exact ⟨[], rfl, List.forall_mem_nil _⟩
    · rintro ⟨zs, h, -⟩
      exact (List.append_eq_nil_iff.mp h.symm).2
  | cons x xs ih =>
    rw [rests, List.mem_cons]
    constructor
    · rintro (rfl | h)
      · exact ⟨[], rfl, List.forall_mem_nil _⟩
      · split at h
        · rename_i hx
          obtain ⟨zs, rfl, hzs⟩ := ih.mp h
          exact ⟨x :: zs, rfl, List.forall_mem_cons.mpr ⟨hx, hzs⟩⟩
        · cases h
    · rintro ⟨zs, h, hzs⟩
      cases zs with
      | nil => exact Or.inl h.symm
      | cons z zs =>
        obtain ⟨rfl, rfl⟩ := List.cons.inj h
        obtain ⟨hx, hrest⟩ := List.forall_mem_cons.mp hzs
        rw [if_pos hx]
        exact Or.inr (ih.mpr ⟨zs, rfl, hrest⟩)

theorem accepts_nil {xs : List α} : accepts [] xs = true ↔ xs = [] := List.isEmpty_iff

theorem accepts_one {p : α → Bool} {ts : List (Token α)} {xs : List α} :
    accepts (.one p :: ts) xs = true ↔ ∃ x ys, xs = x :: ys ∧ p x = true ∧ accepts ts ys = true := by
  cases xs with
  | nil => simp [accepts]
  | cons x xs => simp [accepts]

theorem accepts_many {p : α → Bool} {ts : List (Token α)} {xs : List α} :
    accepts (.many p :: ts) xs = true ↔
      ∃ zs ys, xs = zs ++ ys ∧ (∀ z ∈ zs, p z = true) ∧ accepts ts ys = true := by
  rw [accepts, List.any_eq_true]
  constructor
  · rintro ⟨ys, hys, hts⟩
    obtain ⟨zs, rfl, hzs⟩ := mem_rests.mp hys
    exact ⟨zs, ys, rfl, hzs, hts⟩
  · rintro ⟨zs, ys, rfl, hzs, hts⟩
    exact ⟨ys, mem_rests.mpr ⟨zs, rfl, hzs⟩, hts⟩

/-- **Patterns one after the other** match lists one after the other. -/
theorem accepts_append {ts ts' : List (Token α)} {xs : List α} :
    accepts (ts ++ ts') xs = true ↔
      ∃ ys zs, xs = ys ++ zs ∧ accepts ts ys = true ∧ accepts ts' zs = true := by
  induction ts generalizing xs with
  | nil =>
    rw [List.nil_append]
    constructor
    · intro h
      exact ⟨[], xs, rfl, rfl, h⟩
    · rintro ⟨ys, zs, rfl, hys, hzs⟩
      rw [accepts_nil.mp hys]
      exact hzs
  | cons t ts ih =>
    rw [List.cons_append]
    cases t with
    | one p =>
      rw [accepts_one]
      constructor
      · rintro ⟨x, ys, rfl, hx, h⟩
        obtain ⟨ys, zs, rfl, hys, hzs⟩ := ih.mp h
        exact ⟨x :: ys, zs, rfl, accepts_one.mpr ⟨x, ys, rfl, hx, hys⟩, hzs⟩
      · rintro ⟨ys, zs, rfl, hys, hzs⟩
        obtain ⟨x, ys, rfl, hx, hts⟩ := accepts_one.mp hys
        exact ⟨x, ys ++ zs, rfl, hx, ih.mpr ⟨ys, zs, rfl, hts, hzs⟩⟩
    | many p =>
      rw [accepts_many]
      constructor
      · rintro ⟨us, ys, rfl, hus, h⟩
        obtain ⟨ys, zs, rfl, hys, hzs⟩ := ih.mp h
        exact ⟨us ++ ys, zs, (List.append_assoc us ys zs).symm,
          accepts_many.mpr ⟨us, ys, rfl, hus, hys⟩, hzs⟩
      · rintro ⟨ys, zs, rfl, hys, hzs⟩
        obtain ⟨us, ys, rfl, hus, hts⟩ := accepts_many.mp hys
        exact ⟨us, ys ++ zs, List.append_assoc us ys zs, hus, ih.mpr ⟨ys, zs, rfl, hts, hzs⟩⟩

theorem accepts_anything (xs : List α) : accepts [anything] xs = true :=
  accepts_many.mpr ⟨xs, [], (List.append_nil xs).symm, fun _ _ => rfl, rfl⟩

/-- A pattern between two wildcards matches what it matches a part of. -/
theorem accepts_between {ts : List (Token α)} {xs : List α} :
    accepts (anything :: (ts ++ [anything])) xs = true ↔ ∃ ys, ys <:+: xs ∧ accepts ts ys = true := by
  rw [anything, accepts_many]
  constructor
  · rintro ⟨us, rest, rfl, -, h⟩
    obtain ⟨ys, zs, rfl, hys, -⟩ := accepts_append.mp h
    exact ⟨ys, ⟨us, zs, List.append_assoc us ys zs⟩, hys⟩
  · rintro ⟨ys, ⟨us, zs, rfl⟩, hys⟩
    exact ⟨us, ys ++ zs, List.append_assoc us ys zs, fun _ _ => rfl,
      accepts_append.mpr ⟨ys, zs, rfl, hys, accepts_anything zs⟩⟩

/-- A pattern before a wildcard matches what it matches a beginning of. -/
theorem accepts_before {ts : List (Token α)} {xs : List α} :
    accepts (ts ++ [anything]) xs = true ↔ ∃ ys, ys <+: xs ∧ accepts ts ys = true := by
  rw [accepts_append]
  constructor
  · rintro ⟨ys, zs, rfl, hys, -⟩
    exact ⟨ys, List.prefix_append ys zs, hys⟩
  · rintro ⟨ys, ⟨zs, rfl⟩, hys⟩
    exact ⟨ys, zs, rfl, hys, accepts_anything zs⟩

/-- A pattern without wildcards matches element by element. -/
theorem accepts_ones {ps : List (α → Bool)} {xs : List α} :
    accepts (ps.map .one) xs = true ↔ List.Forall₂ (fun p x => p x = true) ps xs := by
  induction ps generalizing xs with
  | nil =>
    rw [List.map_nil, accepts_nil, List.forall₂_nil_left_iff]
  | cons p ps ih =>
    rw [List.map_cons, accepts_one, List.forall₂_cons_left_iff]
    constructor
    · rintro ⟨x, ys, rfl, hx, h⟩
      exact ⟨x, ys, hx, ih.mp h, rfl⟩
    · rintro ⟨x, ys, hx, h, rfl⟩
      exact ⟨x, ys, rfl, hx, ih.mpr h⟩

end Wildcard
