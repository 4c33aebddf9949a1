import Mathlib.Data.List.Forall2

/-!
# Related options and lists

Rules for computations in `Option`, and for searching a list, whose inputs are related one by one.
-/

namespace Related

variable {α β γ δ : Type*} {R R' : α → β → Prop} {S : γ → δ → Prop} {a : Option α} {b : Option β}

/-- Related options are related by any weaker relation. -/
theorem imp (h : Option.Rel R a b) (hR : ∀ x y, R x y → R' x y) : Option.Rel R' a b := by
  cases h with
  | none => exact .none
  | some hxy => exact .some (hR _ _ hxy)

theorem isSome_eq (h : Option.Rel R a b) : a.isSome = b.isSome := by
  cases h with
  | none => rfl
  | some _ => rfl

theorem bind (h : Option.Rel R a b) {f : α → Option γ} {g : β → Option δ}
    (hfg : ∀ x y, R x y → Option.Rel S (f x) (g y)) : Option.Rel S (a.bind f) (b.bind g) := by
  cases h with
  | none => exact .none
  | some hxy => exact hfg _ _ hxy

theorem map (h : Option.Rel R a b) {f : α → γ} {g : β → δ} (hfg : ∀ x y, R x y → S (f x) (g y)) :
    Option.Rel S (a.map f) (b.map g) := by
  cases h with
  | none => exact .none
  | some hxy => exact .some (hfg _ _ hxy)

variable {as : List α} {bs : List β}

/-- Every element has a related one. -/
theorem exists_of_mem (h : List.Forall₂ R as bs) {x : α} (hx : x ∈ as) : ∃ y ∈ bs, R x y := by
  induction h with
  | nil => cases hx
  | @cons x' y _ _ hxy _ ih =>
    rcases List.mem_cons.mp hx with rfl | hx
    · exact ⟨y, List.mem_cons_self, hxy⟩
    · obtain ⟨y', hy', hrel⟩ := ih hx
      exact ⟨y', List.mem_cons_of_mem _ hy', hrel⟩

/-- The elements at one place are related. -/
theorem getElem? (h : List.Forall₂ R as bs) (n : ℕ) : Option.Rel R as[n]? bs[n]? := by
  induction h generalizing n with
  | nil => exact .none
  | cons hxy _ ih =>
    cases n with
    | zero => exact .some hxy
    | succ n => exact ih n

/-- Searching with tests that agree on related elements. -/
theorem find? {p : α → Bool} {q : β → Bool} (h : List.Forall₂ R as bs)
    (hpq : ∀ x y, R x y → p x = q y) : Option.Rel R (as.find? p) (bs.find? q) := by
  induction h with
  | nil => exact .none
  | @cons x y as bs hxy _ ih =>
    rw [List.find?_cons, List.find?_cons, hpq x y hxy]
    cases q y
    · exact ih
    · exact .some hxy

end Related
