import Mathlib.Logic.Function.Basic
import Mathlib.Order.Lattice
import Mathlib.Tactic.Common

/-!
# Maps whose entries expire

An entry is served while the clock is before its deadline; an entry without a deadline is served until
it is removed. A dead entry may stay in the map: `get` does not see it.

`All` states a property of every entry in the map, live or not. It is kept by removing any entry and by
putting entries that have it, so an invariant of a cache needs a proof for its writers only.
-/

namespace Cache

/-- A value and the time from which it is no longer served. -/
structure Entry (τ ν : Type*) where
  value : ν
  deadline : Option τ
deriving DecidableEq, Repr

/-- A map with expiring entries. -/
abbrev TtlMap (τ κ ν : Type*) := κ → Option (Entry τ ν)

variable {τ κ ν : Type*}

namespace TtlMap

/-- Nothing stored. -/
def empty : TtlMap τ κ ν := fun _ => none

/-- Every entry of the map has the property. -/
def All (P : κ → Entry τ ν → Prop) (m : TtlMap τ κ ν) : Prop :=
  ∀ k e, m k = some e → P k e

variable {P Q : κ → Entry τ ν → Prop} {m : TtlMap τ κ ν}

theorem All.empty : All P (empty : TtlMap τ κ ν) := by
  intro k e he
  cases he

theorem All.mono (h : All P m) (hPQ : ∀ k e, P k e → Q k e) : All Q m :=
  fun k e he => hPQ k e (h k e he)

/-! ## Writing -/

variable [DecidableEq κ]

/-- Store a value. -/
def put (m : TtlMap τ κ ν) (k : κ) (e : Entry τ ν) : TtlMap τ κ ν :=
  Function.update m k (some e)

/-- Remove a key. -/
def remove (m : TtlMap τ κ ν) (k : κ) : TtlMap τ κ ν :=
  Function.update m k none

@[simp] theorem put_self (m : TtlMap τ κ ν) (k : κ) (e : Entry τ ν) : m.put k e k = some e :=
  Function.update_self _ _ _

@[simp] theorem put_of_ne (m : TtlMap τ κ ν) {k k' : κ} (h : k' ≠ k) (e : Entry τ ν) :
    m.put k e k' = m k' :=
  Function.update_of_ne h _ _

@[simp] theorem remove_self (m : TtlMap τ κ ν) (k : κ) : m.remove k k = none :=
  Function.update_self _ _ _

@[simp] theorem remove_of_ne (m : TtlMap τ κ ν) {k k' : κ} (h : k' ≠ k) : m.remove k k' = m k' :=
  Function.update_of_ne h _ _

/-- Putting an entry that has the property. -/
theorem All.put (h : All P m) {k : κ} {e : Entry τ ν} (he : P k e) : All P (m.put k e) := by
  intro k' e' hk'
  by_cases hk : k' = k
  · subst hk
    rw [put_self] at hk'
    rw [← Option.some.inj hk']
    exact he
  · rw [put_of_ne m hk] at hk'
    exact h k' e' hk'

/-- Removing an entry. -/
theorem All.remove (h : All P m) (k : κ) : All P (m.remove k) := by
  intro k' e' hk'
  by_cases hk : k' = k
  · subst hk
    rw [remove_self] at hk'
    cases hk'
  · rw [remove_of_ne m hk] at hk'
    exact h k' e' hk'

end TtlMap

/-! ## Reading -/

variable [LinearOrder τ]

/-- The entry is served at this time. -/
def Entry.Live (e : Entry τ ν) (now : τ) : Prop :=
  ∀ d ∈ e.deadline, now < d

instance (e : Entry τ ν) (now : τ) : Decidable (e.Live now) :=
  match h : e.deadline with
  | none => isTrue (by simp [Entry.Live, h])
  | some d => decidable_of_iff (now < d) (by simp [Entry.Live, h])

namespace TtlMap

/-- The value served for a key. -/
def get (m : TtlMap τ κ ν) (now : τ) (k : κ) : Option ν :=
  (m k).bind fun e => if e.Live now then some e.value else none

variable {m : TtlMap τ κ ν} {now : τ} {k : κ}

theorem get_of_live {e : Entry τ ν} (he : m k = some e) (hlive : e.Live now) :
    m.get now k = some e.value := by
  rw [get, he, Option.bind_some, if_pos hlive]

theorem get_of_none (h : m k = none) : m.get now k = none := by
  rw [get, h, Option.bind_none]

/-- What `get` serves is a live entry of the map. -/
theorem get_eq_some {v : ν} (h : m.get now k = some v) :
    ∃ e, m k = some e ∧ e.value = v ∧ e.Live now := by
  obtain ⟨e, he, hv⟩ := Option.bind_eq_some_iff.mp h
  split at hv
  · rename_i hlive
    exact ⟨e, he, Option.some.inj hv, hlive⟩
  · cases hv

end TtlMap

end Cache
