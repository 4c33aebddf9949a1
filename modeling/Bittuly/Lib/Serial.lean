import Bittuly.Lib.Run

/-!
# Serial runs

A machine whose labels belong to parties; an operation of a party can take several labels, and between two
operations the party rests. A run is serial when no party moves while another is inside an operation. A run
is linearizable when a serial one from the same state ends with the same observation.
-/

namespace Runs

variable {σ α ι ω : Type*} (step : σ → α → Option σ) (party : α → ι) (resting : σ → ι → Prop)
  (observe : σ → ω)

/-- Every other party is between two operations. -/
def Alone (s : σ) (a : α) : Prop :=
  ∀ i, i ≠ party a → resting s i

/-- One operation after the other, in some order, comes to the same observation. -/
def Linearizable (s t : σ) : Prop :=
  ∃ bs u, Run step (Alone party resting) s bs u ∧ observe u = observe t

variable {step party resting observe}

/-- **The rule for serial order.** Match each step by a serial run of a second copy, and complete the copy
at the end. -/
theorem Linearizable.of_simulation {P : σ → α → Prop} {R : σ → σ → Prop}
    (hsim : ∀ s a s' u, R s u → P s a → step s a = some s' →
      ∃ bs u', Run step (Alone party resting) u bs u' ∧ R s' u')
    {s t : σ} {as : List α} (hrun : Run step P s as t) (hstart : R s s)
    (hend : ∀ u, R t u → Linearizable step party resting observe u t) :
    Linearizable step party resting observe s t := by
  obtain ⟨bs, u, hserial, hu⟩ := hrun.simulate hsim hstart
  obtain ⟨cs, u', hrest, hobserve⟩ := hend u hu
  exact ⟨bs ++ cs, u', hserial.append hrest, hobserve⟩

end Runs
