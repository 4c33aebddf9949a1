import Bittuly.Lib.Run
import Mathlib.Data.List.Nodup
import Mathlib.Logic.Function.Basic

/-!
# Declarations that have to agree

Parties declare things by name, each from a script of its own, one declaration at a time, and may stop or
begin again at any point. A declaration of a name that is new creates it, one that repeats what is there
does nothing, and one that differs is refused; its party goes no further.

`never_refused_iff` is the exact condition on the scripts, and `Inv.through` what a party may rely on that
has come to the end of its own.
-/

namespace Declare

open Runs

variable {ι D N : Type*}

/-- What each party has yet to declare; `none` for one that has stopped. -/
structure Registry (ι D : Type*) where
  declared : List D
  todo : ι → Option (List D)
  refused : List ι

inductive Event (ι : Type*)
  | start (i : ι)
  | declare (i : ι)
  | stop (i : ι)
deriving DecidableEq, Repr

def init : Registry ι D where
  declared := []
  todo := fun _ => none
  refused := []

section Steps

variable [DecidableEq ι] [DecidableEq D] [DecidableEq N] (name : D → N) (script : ι → List D)

/-- One more declaration, unless it repeats one. -/
def accept (declared : List D) (d : D) : List D :=
  if d ∈ declared then declared else declared ++ [d]

def step (s : Registry ι D) : Event ι → Option (Registry ι D)
  | .start i => some { s with todo := Function.update s.todo i (some (script i)) }
  | .stop i => some { s with todo := Function.update s.todo i none }
  | .declare i =>
    match s.todo i with
    | none | some [] => none
    | some (d :: todo) =>
      if s.declared.any fun d' => name d' = name d ∧ d' ≠ d then
        some { s with todo := Function.update s.todo i none, refused := s.refused ++ [i] }
      else
        some { s with
          declared := accept s.declared d
          todo := Function.update s.todo i (some todo) }

end Steps

section Statements

variable (name : D → N) (script : ι → List D)

/-- Two declarations of one name, in whatever scripts, are the same. -/
def Consistent : Prop :=
  ∀ i j, ∀ d ∈ script i, ∀ d' ∈ script j, name d = name d' → d = d'

/-- What of its script a party has come past is declared. -/
def Past (declared scripted : List D) (todo : Option (List D)) : Prop :=
  ∀ rest, todo = some rest → ∃ past, scripted = past ++ rest ∧ ∀ d ∈ past, d ∈ declared

/-- No name is declared twice, and everything that is declared comes from a script. -/
structure Inv (s : Registry ι D) : Prop where
  scripted : ∀ d ∈ s.declared, ∃ i, d ∈ script i
  nodup : s.declared.Nodup
  unique : ∀ d ∈ s.declared, ∀ d' ∈ s.declared, name d = name d' → d = d'
  past : ∀ i, Past s.declared (script i) (s.todo i)

end Statements

variable {name : D → N} {script : ι → List D} {s s' : Registry ι D}

theorem inv_init : Inv name script (init : Registry ι D) where
  scripted := fun _ hd => nomatch hd
  nodup := List.nodup_nil
  unique := fun _ hd => nomatch hd
  past := fun _ _ h => nomatch h

/-- A party that is through has declared its whole script. -/
theorem Inv.through (h : Inv name script s) {i : ι} (hi : s.todo i = some []) :
    ∀ d ∈ script i, d ∈ s.declared := by
  obtain ⟨past, hscript, hpast⟩ := h.past i [] hi
  rw [hscript, List.append_nil]
  exact hpast

/-- One party moves, and there may be one more declaration. -/
theorem Inv.past_update [DecidableEq ι] (h : Inv name script s) {i : ι} {todo : Option (List D)}
    {declared : List D} (hdeclared : ∀ d ∈ s.declared, d ∈ declared) (hi : Past declared (script i) todo)
    (j : ι) : Past declared (script j) (Function.update s.todo i todo j) := by
  by_cases hij : j = i
  · subst hij
    rwa [Function.update_self]
  · rw [Function.update_of_ne hij]
    intro rest hrest
    obtain ⟨past, hscript, hpast⟩ := h.past j rest hrest
    exact ⟨past, hscript, fun d hd => hdeclared d (hpast d hd)⟩

variable [DecidableEq ι] [DecidableEq D]

theorem mem_accept {declared : List D} {d d' : D} : d' ∈ accept declared d ↔ d' ∈ declared ∨ d' = d := by
  unfold accept
  split
  · rename_i hmem
    exact ⟨Or.inl, fun h => h.elim id fun heq => heq ▸ hmem⟩
  · simp

theorem nodup_accept {declared : List D} (h : declared.Nodup) (d : D) : (accept declared d).Nodup := by
  unfold accept
  split
  · exact h
  · rename_i hmem
    refine List.nodup_append.mpr ⟨h, List.nodup_singleton d, ?_⟩
    intro x hx y hy heq
    exact hmem (heq.trans (List.mem_singleton.mp hy) ▸ hx)

theorem Inv.accept (h : Inv name script s) {i : ι} {d : D} {todo : List D}
    (htodo : s.todo i = some (d :: todo)) (hfree : ∀ d' ∈ s.declared, name d' = name d → d' = d) :
    Inv name script { s with
      declared := accept s.declared d
      todo := Function.update s.todo i (some todo) } := by
  obtain ⟨past, hscript, hpast⟩ := h.past i _ htodo
  refine ⟨?_, nodup_accept h.nodup d, ?_, h.past_update (fun d' hd' => mem_accept.mpr (.inl hd')) ?_⟩
  · intro d' hd'
    rcases mem_accept.mp hd' with hold | rfl
    · exact h.scripted d' hold
    · exact ⟨i, hscript ▸ by simp⟩
  · intro a ha b hb hname
    rcases mem_accept.mp ha with hold | rfl
    · rcases mem_accept.mp hb with hold' | rfl
      · exact h.unique a hold b hold' hname
      · exact hfree a hold hname
    · rcases mem_accept.mp hb with hold' | rfl
      · exact (hfree b hold' hname.symm).symm
      · rfl
  · intro rest hrest
    obtain rfl := Option.some.inj hrest
    refine ⟨past ++ [d], by simpa using hscript, fun d' hd' => mem_accept.mpr ?_⟩
    rcases List.mem_append.mp hd' with hold | hnew
    · exact .inl (hpast d' hold)
    · exact .inr (List.mem_singleton.mp hnew)

variable [DecidableEq N]

/-- A declaration is refused, or it is accepted where it contradicts no other. -/
theorem declare_cases {i : ι} (hstep : step name script s (.declare i) = some s') :
    ∃ d todo, s.todo i = some (d :: todo) ∧
      ((∃ d' ∈ s.declared, name d' = name d ∧ d' ≠ d) ∧
          s' = { s with todo := Function.update s.todo i none, refused := s.refused ++ [i] } ∨
        (∀ d' ∈ s.declared, name d' = name d → d' = d) ∧
          s' = { s with
            declared := accept s.declared d
            todo := Function.update s.todo i (some todo) }) := by
  simp only [step] at hstep
  split at hstep
  · cases hstep
  · cases hstep
  · rename_i d todo htodo
    refine ⟨d, todo, htodo, ?_⟩
    split at hstep
    · rename_i hother
      obtain ⟨d', hd', hne⟩ := List.any_eq_true.mp hother
      exact .inl ⟨⟨d', hd', of_decide_eq_true hne⟩, (Option.some.inj hstep).symm⟩
    · rename_i hfree
      refine .inr ⟨fun d' hd' hname => ?_, (Option.some.inj hstep).symm⟩
      by_contra hne
      exact hfree (List.any_eq_true.mpr ⟨d', hd', decide_eq_true ⟨hname, hne⟩⟩)

theorem Inv.step (h : Inv name script s) {e : Event ι} (hstep : Declare.step name script s e = some s') :
    Inv name script s' := by
  cases e with
  | start i =>
    obtain rfl := Option.some.inj hstep
    refine ⟨h.scripted, h.nodup, h.unique, h.past_update (fun _ hd => hd) fun rest hrest => ?_⟩
    exact ⟨[], Option.some.inj hrest, fun _ hd => nomatch hd⟩
  | stop i =>
    obtain rfl := Option.some.inj hstep
    exact ⟨h.scripted, h.nodup, h.unique, h.past_update (fun _ hd => hd) fun _ hrest => nomatch hrest⟩
  | declare i =>
    obtain ⟨d, todo, htodo, ⟨-, rfl⟩ | ⟨hfree, rfl⟩⟩ := declare_cases hstep
    · exact ⟨h.scripted, h.nodup, h.unique, h.past_update (fun _ hd => hd) fun _ hrest => nomatch hrest⟩
    · exact h.accept htodo hfree

theorem inv_of_run {es : List (Event ι)} (hrun : Run (Declare.step name script) Any init es s) :
    Inv name script s :=
  hrun.induct (fun _ _ _ h _ hstep => h.step hstep) inv_init

/-! ## When nothing is refused -/

/-- Left alone, a party comes to the end of its script, or is refused. -/
theorem exists_run_through (name : D → N) (script : ι → List D) {i : ι} {todo : List D} (hi : s.todo i = some todo) :
    ∃ es s', Run (Declare.step name script) Any s es s' ∧ (∀ d ∈ s.declared, d ∈ s'.declared) ∧
      (s'.refused ≠ [] ∨ s'.todo i = some []) := by
  induction todo generalizing s with
  | nil => exact ⟨[], s, .nil s, fun _ hd => hd, .inr hi⟩
  | cons d todo ih =>
    obtain ⟨s₁, hstep⟩ : ∃ s₁, Declare.step name script s (.declare i) = some s₁ := by
      simp only [Declare.step, hi]
      split
      · exact ⟨_, rfl⟩
      · exact ⟨_, rfl⟩
    obtain ⟨d', todo', hi', ⟨-, rfl⟩ | ⟨-, rfl⟩⟩ := declare_cases hstep
    · exact ⟨_, _, .single trivial hstep, fun _ hd => hd, .inl (by simp)⟩
    · obtain ⟨rfl, rfl⟩ := List.cons.inj (Option.some.inj (hi.symm.trans hi'))
      obtain ⟨es, s', hrun, hdeclared, hend⟩ := ih (s := { s with
        declared := Declare.accept s.declared d
        todo := Function.update s.todo i (some todo) }) (Function.update_self ..)
      exact ⟨_, s', .cons trivial hstep hrun, fun x hx => hdeclared x (mem_accept.mpr (.inl hx)), hend⟩

/-- And so does one that is started. -/
theorem exists_run_started (name : D → N) (script : ι → List D) (i : ι) (s : Registry ι D) :
    ∃ es s', Run (Declare.step name script) Any s es s' ∧ (∀ d ∈ s.declared, d ∈ s'.declared) ∧
      (s'.refused ≠ [] ∨ s'.todo i = some []) := by
  have hi : ({ s with todo := Function.update s.todo i (some (script i)) } : Registry ι D).todo i =
      some (script i) := Function.update_self ..
  obtain ⟨es, s', hrun, hdeclared, hend⟩ := exists_run_through name script hi
  exact ⟨.start i :: es, s', .cons trivial rfl hrun, hdeclared, hend⟩

/-- **The exact condition**: no declaration is refused, in any interleaving with any stops and new starts, if
and only if the scripts agree. -/
theorem never_refused_iff :
    (∀ es s, Run (Declare.step name script) Any (init : Registry ι D) es s → s.refused = []) ↔
      Consistent name script := by
  constructor
  · intro hnever i j d hd d' hd' hname
    obtain ⟨es, s, hrun, -, hend⟩ := exists_run_started name script i init
    have hthrough := hend.resolve_left fun hne => hne (hnever _ _ hrun)
    obtain ⟨es', s', hrun', hkept, hend'⟩ := exists_run_started name script j s
    have hthrough' := hend'.resolve_left fun hne => hne (hnever _ _ (hrun.append hrun'))
    have hinv' := inv_of_run (hrun.append hrun')
    have hmem : d ∈ s.declared := (inv_of_run hrun).through hthrough d hd
    exact hinv'.unique d (hkept d hmem) d' (hinv'.through hthrough' d' hd') hname
  · intro hconsistent es s hrun
    have hboth : Inv name script s ∧ s.refused = [] := by
      refine hrun.induct (I := fun s => Inv name script s ∧ s.refused = [])
        (fun s e s' h _ hstep => ⟨h.1.step hstep, ?_⟩) ⟨inv_init, rfl⟩
      cases e with
      | start i =>
        obtain rfl := Option.some.inj hstep
        exact h.2
      | stop i =>
        obtain rfl := Option.some.inj hstep
        exact h.2
      | declare i =>
        obtain ⟨d, todo, htodo, ⟨⟨d', hd', hname, hne⟩, -⟩ | ⟨-, rfl⟩⟩ := declare_cases hstep
        · obtain ⟨j, hj⟩ := h.1.scripted d' hd'
          obtain ⟨past, hscript, -⟩ := h.1.past i _ htodo
          exact absurd (hconsistent j i d' hj d (hscript ▸ by simp) hname) hne
        · exact h.2
    exact hboth.2

end Declare
