import Mathlib.Data.List.Basic
import Mathlib.Tactic.Common

/-!
# Runs of partial step functions

A machine is a function `step : σ → α → Option σ`: `step s a` is `none` where the label `a` is not
enabled in `s`. Labels carry every choice of the environment, so a run is its list of labels.

`Run step P s as t` is a run from `s` to `t` along `as` in which every step meets the condition `P`,
read on the state before the step and the label. `Run.induct` is the invariant rule, `Run.simulate` the
rule of forward simulation, and `exists_run_of_exec` replays a concrete list of labels.
-/

namespace Runs

variable {σ α : Type*} {step : σ → α → Option σ} {P Q : σ → α → Prop}

/-- No condition on the steps of a run. -/
abbrev Any : σ → α → Prop := fun _ _ => True

/-- A run from one state to another along a list of labels, each step meeting `P`. -/
inductive Run (step : σ → α → Option σ) (P : σ → α → Prop) : σ → List α → σ → Prop
  | nil (s : σ) : Run step P s [] s
  | cons {s s' t : σ} {a : α} {as : List α} :
      P s a → step s a = some s' → Run step P s' as t → Run step P s (a :: as) t

namespace Run

/-- A run under a condition is a run under any weaker one. -/
theorem mono (hPQ : ∀ s a, P s a → Q s a) {s t : σ} {as : List α} (h : Run step P s as t) :
    Run step Q s as t := by
  induction h with
  | nil s => exact .nil s
  | cons hP hs _ ih => exact .cons (hPQ _ _ hP) hs ih

/-- It is enough to weaken the condition at the labels of the run. -/
theorem mono_of_mem {s t : σ} {as : List α} (h : Run step P s as t)
    (hPQ : ∀ a ∈ as, ∀ s, P s a → Q s a) : Run step Q s as t := by
  induction h with
  | nil s => exact .nil s
  | cons hP hs _ ih =>
    exact .cons (hPQ _ List.mem_cons_self _ hP) hs (ih fun a ha => hPQ a (List.mem_cons_of_mem _ ha))

/-- A run that meets two conditions meets both at once. -/
theorem both {s t u : σ} {as : List α} (h : Run step P s as t) (h' : Run step Q s as u) :
    Run step (fun s a => P s a ∧ Q s a) s as t := by
  induction h generalizing u with
  | nil s => exact .nil s
  | cons hP hs _ ih =>
    cases h' with
    | cons hQ hs' hrest =>
      obtain rfl := Option.some.inj (hs.symm.trans hs')
      exact .cons ⟨hP, hQ⟩ hs (ih hrest)

/-- Runs compose. -/
theorem append {s t u : σ} {as bs : List α} (h₁ : Run step P s as t) (h₂ : Run step P t bs u) :
    Run step P s (as ++ bs) u := by
  induction h₁ with
  | nil => exact h₂
  | cons hP hs _ ih => exact .cons hP hs (ih h₂)

/-- What is left of a run after a run along its first labels. -/
theorem rest {s t u : σ} {as bs : List α} (h : Run step P s (as ++ bs) u) (h₁ : Run step Q s as t) :
    Run step P t bs u := by
  induction h₁ with
  | nil => exact h
  | cons _ hs _ ih =>
    cases h with
    | cons _ hs' hrest =>
      obtain rfl := Option.some.inj (hs.symm.trans hs')
      exact ih hrest

/-- A single step is a run. -/
theorem single {s t : σ} {a : α} (hP : P s a) (hs : step s a = some t) : Run step P s [a] t :=
  .cons hP hs (.nil t)

/-- **The invariant rule.** What holds at the start and is preserved by every step that meets the
condition holds at the end. -/
theorem induct {I : σ → Prop} (hstep : ∀ s a s', I s → P s a → step s a = some s' → I s')
    {s t : σ} {as : List α} (h : Run step P s as t) (hs : I s) : I t := by
  induction h with
  | nil => exact hs
  | cons hP hst _ ih => exact ih (hstep _ _ _ hs hP hst)

/-- **Forward simulation.** When each step is matched by a run of another machine from every related
state, so is each run. -/
theorem simulate {τ β : Type*} {step' : τ → β → Option τ} {P' : τ → β → Prop} {R : σ → τ → Prop}
    (hsim : ∀ s a s' w, R s w → P s a → step s a = some s' →
      ∃ bs w', Run step' P' w bs w' ∧ R s' w')
    {s t : σ} {as : List α} (h : Run step P s as t) {w : τ} (hw : R s w) :
    ∃ bs w', Run step' P' w bs w' ∧ R t w' := by
  induction h generalizing w with
  | nil s => exact ⟨[], w, .nil w, hw⟩
  | cons hP hst _ ih =>
    obtain ⟨bs, w', hrun, hw'⟩ := hsim _ _ _ _ hw hP hst
    obtain ⟨bs', w'', hrun', hw''⟩ := ih hw'
    exact ⟨bs ++ bs', w'', hrun.append hrun', hw''⟩

/-- A run meets a condition when each of its steps does, judged with the run before and after it. -/
theorem of_splits {s t : σ} {as : List α} (h : Run step P s as t)
    (hQ : ∀ bs u a u' cs, Run step P s bs u → P u a → step u a = some u' → Run step P u' cs t → Q u a) :
    Run step Q s as t := by
  induction h with
  | nil s => exact .nil s
  | cons hP hs hrest ih =>
    refine .cons (hQ [] _ _ _ _ (.nil _) hP hs hrest) hs (ih ?_)
    intro bs u a u' cs hbefore hPa hstep hafter
    exact hQ (_ :: bs) u a u' cs (.cons hP hs hbefore) hPa hstep hafter

/-- When each step keeps a property exactly if it meets a condition, a run keeps the property exactly if
all its steps meet the condition. -/
theorem iff_of_step {I G : σ → Prop} (hinv : ∀ s a s', I s → P s a → step s a = some s' → I s')
    (hiff : ∀ s a s', I s → P s a → step s a = some s' → (G s' ↔ G s ∧ Q s a))
    {s t : σ} {as : List α} (h : Run step P s as t) (hs : I s) :
    G t ↔ G s ∧ Run step Q s as t := by
  induction h with
  | nil s => exact ⟨fun hG => ⟨hG, .nil s⟩, And.left⟩
  | @cons s s' t a as hP hst _ ih =>
    rw [ih (hinv _ _ _ hs hP hst), hiff _ _ _ hs hP hst]
    constructor
    · rintro ⟨⟨hG, hQ⟩, hrest⟩
      exact ⟨hG, .cons hQ hst hrest⟩
    · rintro ⟨hG, hall⟩
      cases hall with
      | cons hQ hst' hrest =>
        rw [hst] at hst'
        obtain rfl := Option.some.inj hst'
        exact ⟨⟨hG, hQ⟩, hrest⟩

/-- When a step keeps a property exactly if it meets a condition, the property holds all along a run exactly
if all its steps meet the condition. -/
theorem always_iff {I G : σ → Prop} (hinv : ∀ s a s', I s → P s a → step s a = some s' → I s')
    (hiff : ∀ s a s', I s → G s → P s a → step s a = some s' → (G s' ↔ Q s a))
    {s t : σ} {as : List α} (h : Run step P s as t) (hs : I s) (hG : G s) :
    (∀ bs u, bs <+: as → Run step P s bs u → G u) ↔ Run step Q s as t := by
  induction h with
  | nil s =>
    refine iff_of_true ?_ (.nil s)
    intro bs u hprefix hrun
    obtain rfl := List.prefix_nil.mp hprefix
    cases hrun
    exact hG
  | @cons s s' t a as hP hst _ ih =>
    have hs' := hinv _ _ _ hs hP hst
    have hstep := hiff _ _ _ hs hG hP hst
    constructor
    · intro hall
      have hG' : G s' := hall [a] s' (List.prefix_append [a] as) (.single hP hst)
      refine .cons (hstep.mp hG') hst ((ih hs' hG').mp ?_)
      intro bs u hprefix hrun
      exact hall (a :: bs) u ((List.prefix_cons_inj a).mpr hprefix) (.cons hP hst hrun)
    · rintro (_ | ⟨hQ, hst', hrest⟩) bs u hprefix hrun
      obtain rfl := Option.some.inj (hst.symm.trans hst')
      have hG' : G s' := hstep.mpr hQ
      cases hrun with
      | nil => exact hG
      | cons hP' hst'' hrun' =>
        obtain ⟨rfl, hprefix'⟩ := List.cons_prefix_cons.mp hprefix
        obtain rfl := Option.some.inj (hst.symm.trans hst'')
        exact (ih hs' hG').mpr hrest _ _ hprefix' hrun'

end Run

/-- Replay a list of labels, stopping with `none` at a step that is not enabled or does not meet the
condition. -/
def exec (step : σ → α → Option σ) (P : σ → α → Prop) [∀ s a, Decidable (P s a)] :
    σ → List α → Option σ
  | s, [] => some s
  | s, a :: as => if P s a then (step s a).bind (exec step P · as) else none

/-- A replay that succeeds is a run. -/
theorem run_of_exec [∀ s a, Decidable (P s a)] {s t : σ} {as : List α}
    (h : exec step P s as = some t) : Run step P s as t := by
  induction as generalizing s with
  | nil =>
    obtain rfl := Option.some.inj h
    exact .nil _
  | cons a as ih =>
    rw [exec] at h
    split at h
    · rename_i hP
      obtain ⟨s', hs, hrest⟩ := Option.bind_eq_some_iff.mp h
      exact .cons hP hs (ih hrest)
    · cases h

/-- A replay whose last state passes a test gives a run to a state with the tested property. -/
theorem exists_run_of_exec (step : σ → α → Option σ) (P : σ → α → Prop) [∀ s a, Decidable (P s a)]
    (s : σ) (as : List α) (p : σ → Bool) (h : (exec step P s as).any p = true) :
    ∃ t, Run step P s as t ∧ p t = true := by
  cases hr : exec step P s as with
  | none => simp [hr] at h
  | some t =>
    rw [hr] at h
    exact ⟨t, run_of_exec hr, h⟩

end Runs
