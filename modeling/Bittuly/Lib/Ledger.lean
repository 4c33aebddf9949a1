import Mathlib.Data.List.Infix
import Mathlib.Tactic.Common

/-!
# Ledgers

A ledger keeps what has happened, the latest entry first. `Each good` says that each entry was good in view
of the entries before it.

`Each.exists_root` is the rule of provenance: when an entry may use something only as a root or after an
earlier use, every use goes back to a root.
-/

namespace Ledgers

variable {α : Type*}

/-- Each entry was good in view of the entries before it. -/
def Each (good : List α → α → Prop) : List α → Prop
  | [] => True
  | e :: before => good before e ∧ Each good before

namespace Each

variable {good good' : List α → α → Prop} {ledger before : List α} {e : α}

theorem mono (hgood : ∀ before e, good before e → good' before e) (h : Each good ledger) :
    Each good' ledger := by
  induction ledger with
  | nil => trivial
  | cons e before ih => exact ⟨hgood before e h.1, ih h.2⟩

theorem of_suffix (h : Each good ledger) (hsuffix : e :: before <:+ ledger) :
    good before e ∧ Each good before := by
  induction ledger with
  | nil => exact absurd hsuffix.length_le (Nat.not_succ_le_zero _)
  | cons f ledger ih =>
    rcases List.suffix_cons_iff.mp hsuffix with heq | hlater
    · obtain ⟨rfl, rfl⟩ := List.cons_eq_cons.mp heq
      exact h
    · exact ih h.2 hlater

/-- **Every use goes back to a root.** -/
theorem exists_root {uses : α → Prop} {root : List α → α → Prop}
    (h : Each (fun before e => uses e → root before e ∨ ∃ g ∈ before, uses g) ledger) (he : e ∈ ledger)
    (huses : uses e) : ∃ g before, g :: before <:+ ledger ∧ root before g := by
  induction ledger generalizing e with
  | nil => cases he
  | cons f ledger ih =>
    have hearlier : ∀ g ∈ ledger, uses g → ∃ g before, g :: before <:+ f :: ledger ∧ root before g := by
      intro g hg hgu
      obtain ⟨g', before, hsuffix, hroot⟩ := ih h.2 hg hgu
      exact ⟨g', before, hsuffix.trans (List.suffix_cons f ledger), hroot⟩
    rcases List.mem_cons.mp he with rfl | hmem
    · rcases h.1 huses with hroot | ⟨g, hg, hgu⟩
      · exact ⟨e, ledger, List.suffix_rfl, hroot⟩
      · exact hearlier g hg hgu
    · exact hearlier e hmem huses

end Each

end Ledgers
