import Bittuly.Lib.Run
import Mathlib.Algebra.Order.Monoid.Defs
import Mathlib.Tactic.Abel

/-!
# What the steps of a run add up to

`total step f s as` adds `f` up over the steps along `as`, each taken at the state it starts from.

`Run.total_add_le` is the rule of the potential: when no step pays more than it gains and what the
potential grows by, the payments of a run are bounded by its gains and the growth of the potential.
`Run.total_le_of_rank` is the same for a rank that falls, and `Run.total_add_eq` for a quantity that is
conserved.
-/

namespace Runs

variable {σ α M : Type*} {step : σ → α → Option σ} {P : σ → α → Prop}

/-- What the steps along a list of labels add up to, as far as they are enabled. -/
def total [AddCommMonoid M] (step : σ → α → Option σ) (f : σ → α → M) : σ → List α → M
  | _, [] => 0
  | s, a :: as => f s a + ((step s a).map (total step f · as)).getD 0

section Sums

variable [AddCommMonoid M] {f g : σ → α → M}

@[simp] theorem total_nil (f : σ → α → M) (s : σ) : total step f s [] = 0 :=
  rfl

theorem total_cons {s s' : σ} {a : α} (h : step s a = some s') (f : σ → α → M) (as : List α) :
    total step f s (a :: as) = f s a + total step f s' as := by
  rw [total, h, Option.map_some, Option.getD_some]

/-- The same amount at each step that passes a test: it is added up as often as there are such steps. -/
theorem Run.total_ite {s t : σ} {as : List α} (h : Run step P s as t) (p : σ → α → Bool) (x : M) :
    total step (fun s a => if p s a then x else 0) s as =
      total step (fun s a => if p s a then 1 else 0) s as • x := by
  induction h with
  | nil => rw [total_nil, total_nil, zero_nsmul]
  | @cons s s' t a as _ hs _ ih =>
    rw [total_cons hs, total_cons hs, ih, add_nsmul]
    cases p s a with
    | true => rw [if_pos rfl, if_pos rfl, one_nsmul]
    | false => rw [if_neg (by decide), if_neg (by decide), zero_nsmul]

/-- Counting labels is adding ones up. -/
theorem Run.total_count {s t : σ} {as : List α} (h : Run step P s as t) (p : α → Bool) :
    total step (fun _ a => if p a then 1 else 0) s as = as.countP p := by
  induction h with
  | nil => rfl
  | cons _ hs _ ih => rw [total_cons hs, ih, List.countP_cons, Nat.add_comm]

/-- **A conserved quantity.** When each step changes the stock by what it gains less what it pays, so does a
run. -/
theorem Run.total_add_eq (pay gain : σ → α → M) (stock : σ → M) {I : σ → Prop}
    (hinv : ∀ s a s', I s → P s a → step s a = some s' → I s')
    (hstep : ∀ s a s', I s → P s a → step s a = some s' → pay s a + stock s' = gain s a + stock s)
    {s t : σ} {as : List α} (h : Run step P s as t) (hs : I s) :
    total step pay s as + stock t = total step gain s as + stock s := by
  induction h with
  | nil => rfl
  | @cons s s' t a as hP hst _ ih =>
    have hhead := hstep _ _ _ hs hP hst
    have htail := ih (hinv _ _ _ hs hP hst)
    calc total step pay s (a :: as) + stock t
        = pay s a + (total step pay s' as + stock t) := by rw [total_cons hst, add_assoc]
      _ = total step gain s' as + (pay s a + stock s') := by rw [htail]; abel
      _ = total step gain s (a :: as) + stock s := by rw [hhead, total_cons hst]; abel

end Sums

section Potential

variable [AddCommMonoid M] [PartialOrder M] [IsOrderedAddMonoid M]

/-- **The rule of the potential.** When no step pays more than it gains and the potential grows by, neither
does a run. -/
theorem Run.total_add_le (pay gain : σ → α → M) (potential : σ → M) {I : σ → Prop}
    (hinv : ∀ s a s', I s → P s a → step s a = some s' → I s')
    (hstep : ∀ s a s', I s → P s a → step s a = some s' →
      pay s a + potential s ≤ gain s a + potential s')
    {s t : σ} {as : List α} (h : Run step P s as t) (hs : I s) :
    total step pay s as + potential s ≤ total step gain s as + potential t := by
  induction h with
  | nil => exact le_refl _
  | @cons s s' t a as hP hst _ ih =>
    have hhead := hstep _ _ _ hs hP hst
    have htail := ih (hinv _ _ _ hs hP hst)
    calc total step pay s (a :: as) + potential s
        = total step pay s' as + (pay s a + potential s) := by rw [total_cons hst]; abel
      _ ≤ total step pay s' as + (gain s a + potential s') := add_le_add_right hhead _
      _ = gain s a + (total step pay s' as + potential s') := by abel
      _ ≤ gain s a + (total step gain s' as + potential t) := add_le_add_right htail _
      _ = total step gain s (a :: as) + potential t := by rw [total_cons hst]; abel

/-- **The rule of the rank.** When each step lowers the rank by what it pays, but for what it gains, a run
pays no more than it gains and the rank was. -/
theorem Run.total_le_of_rank (pay gain : σ → α → M) (rank : σ → M) {I : σ → Prop}
    (hinv : ∀ s a s', I s → P s a → step s a = some s' → I s')
    (hstep : ∀ s a s', I s → P s a → step s a = some s' → pay s a + rank s' ≤ gain s a + rank s)
    {s t : σ} {as : List α} (h : Run step P s as t) (hs : I s) :
    total step pay s as + rank t ≤ total step gain s as + rank s := by
  induction h with
  | nil => exact le_refl _
  | @cons s s' t a as hP hst _ ih =>
    have hhead := hstep _ _ _ hs hP hst
    have htail := ih (hinv _ _ _ hs hP hst)
    calc total step pay s (a :: as) + rank t
        = pay s a + (total step pay s' as + rank t) := by rw [total_cons hst, add_assoc]
      _ ≤ pay s a + (total step gain s' as + rank s') := add_le_add_right htail _
      _ = total step gain s' as + (pay s a + rank s') := by abel
      _ ≤ total step gain s' as + (gain s a + rank s) := add_le_add_right hhead _
      _ = total step gain s (a :: as) + rank s := by rw [total_cons hst]; abel

end Potential

end Runs
