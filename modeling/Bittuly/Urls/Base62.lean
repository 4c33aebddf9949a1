import Mathlib.Data.Int.ConditionallyCompleteOrder
import Mathlib.Data.Set.Function
import Mathlib.Order.Interval.Set.Defs
import Mathlib.Tactic.IntervalCases
import Mathlib.Tactic.NormNum

/-!
# Short codes

`base62::encode`, most significant digit first, digits before capitals before small letters. A positive
`i64` has at most 11 digits, so its code determines it.
-/

namespace Bittuly.Urls

/-- A digit of a short code. -/
def base62Char (digit : ℕ) : Char :=
  if digit < 10 then Char.ofNat (48 + digit)
  else if digit < 36 then Char.ofNat (55 + digit)
  else Char.ofNat (61 + digit)

/-- The value of a digit. -/
def base62Value (c : Char) : ℕ :=
  if c.toNat < 58 then c.toNat - 48 else if c.toNat < 91 then c.toNat - 55 else c.toNat - 61

/-- The digits of a number, without leading zeros, for numbers below `62 ^ fuel`. -/
def base62Digits : ℕ → ℕ → List ℕ
  | 0, _ => []
  | fuel + 1, n => if n = 0 then [] else base62Digits fuel (n / 62) ++ [n % 62]

/-- `base62::encode(url_id as u128)`; a `u128` has at most 22 digits. -/
def base62Encode (urlId : ℤ) : String :=
  let n := (urlId % 2 ^ 128).toNat
  String.ofList (if n = 0 then ['0'] else (base62Digits 22 n).map base62Char)

theorem base62Value_base62Char {d : ℕ} (hd : d < 62) : base62Value (base62Char d) = d := by
  interval_cases d <;> rfl

theorem base62Digits_lt {fuel n d : ℕ} (hd : d ∈ base62Digits fuel n) : d < 62 := by
  induction fuel generalizing n with
  | zero => cases hd
  | succ fuel ih =>
    rw [base62Digits] at hd
    split at hd
    · cases hd
    · rcases List.mem_append.mp hd with h | h
      · exact ih h
      · rw [List.mem_singleton.mp h]
        exact Nat.mod_lt _ (by decide)

/-- Reading the digits back gives the number. -/
theorem foldl_base62Digits {fuel n : ℕ} (hn : n < 62 ^ fuel) :
    (base62Digits fuel n).foldl (fun acc d => 62 * acc + d) 0 = n := by
  induction fuel generalizing n with
  | zero =>
    have hzero : n = 0 := by simpa using hn
    rw [hzero]
    rfl
  | succ fuel ih =>
    rw [base62Digits]
    split
    · rename_i hzero
      rw [hzero]
      rfl
    · have hdiv : n / 62 < 62 ^ fuel := by
        rw [Nat.div_lt_iff_lt_mul (by decide), ← pow_succ]
        exact hn
      rw [List.foldl_append, ih hdiv, List.foldl_cons, List.foldl_nil]
      omega

/-- The digits of a positive `i64`. -/
theorem toList_base62Encode {a : ℤ} (ha : a ∈ Set.Ioo 0 (2 ^ 63)) :
    (base62Encode a).toList = (base62Digits 22 a.toNat).map base62Char := by
  obtain ⟨hpos, hlt⟩ := ha
  have hmod : a % 2 ^ 128 = a := Int.emod_eq_of_lt hpos.le (by omega)
  have hne : a.toNat ≠ 0 := by omega
  rw [base62Encode, hmod]
  simp only [hne, if_false, String.toList_ofList]

theorem foldl_base62Value {a : ℤ} (ha : a ∈ Set.Ioo 0 (2 ^ 63)) :
    (((base62Encode a).toList.map base62Value).foldl (fun acc d => 62 * acc + d) 0 : ℕ) = a := by
  have hdigits : ((base62Digits 22 a.toNat).map base62Char).map base62Value =
      base62Digits 22 a.toNat := by
    rw [List.map_map]
    exact (List.map_congr_left fun d hd => base62Value_base62Char (base62Digits_lt hd)).trans
      (List.map_id _)
  have hfuel : a.toNat < 62 ^ 22 := by
    have hbound : (2 : ℤ) ^ 63 < 62 ^ 22 := by norm_num
    have hcast : (a.toNat : ℤ) < 62 ^ 22 := by
      have hlt := ha.2
      omega
    exact_mod_cast hcast
  have hpos := ha.1
  rw [toList_base62Encode ha, hdigits, foldl_base62Digits hfuel]
  omega

/-- **Short codes are injective** on positive `i64`s. -/
theorem base62Encode_injOn : Set.InjOn base62Encode (Set.Ioo 0 (2 ^ 63)) := by
  intro a ha b hb hab
  rw [← foldl_base62Value ha, ← foldl_base62Value hb, hab]

/-- Codes are letters and digits. -/
theorem isAlphanum_of_mem_base62Encode {a : ℤ} (ha : a ∈ Set.Ioo 0 (2 ^ 63)) {c : Char}
    (hc : c ∈ (base62Encode a).toList) : c.isAlphanum = true := by
  rw [toList_base62Encode ha] at hc
  obtain ⟨d, hd, rfl⟩ := List.mem_map.mp hc
  have hlt := base62Digits_lt hd
  interval_cases d <;> rfl

/-- The first digit counts most. -/
theorem le_foldl_digits (ds : List ℕ) (n : ℕ) :
    n * 62 ^ ds.length ≤ ds.foldl (fun acc d => 62 * acc + d) n := by
  induction ds generalizing n with
  | nil => simp
  | cons d ds ih =>
    refine le_trans ?_ (ih (62 * n + d))
    rw [List.length_cons, pow_succ', ← mul_assoc, Nat.mul_comm n 62]
    exact Nat.mul_le_mul_right _ (Nat.le_add_right _ _)

/-- A code of 11 digits or more starts with one of the first eleven. -/
theorem base62Value_head_lt {a : ℤ} (ha : a ∈ Set.Ioo 0 (2 ^ 63)) {c : Char} {cs : List Char}
    (hcode : (base62Encode a).toList = c :: cs) (hlength : 10 ≤ cs.length) : base62Value c < 11 := by
  have hread := foldl_base62Value ha
  rw [hcode, List.map_cons, List.foldl_cons] at hread
  have hle := le_foldl_digits (cs.map base62Value) (62 * 0 + base62Value c)
  rw [List.length_map] at hle
  by_contra hc
  have hpow : 62 ^ 10 ≤ 62 ^ cs.length := Nat.pow_le_pow_right (by decide) hlength
  have hbig : 11 * 62 ^ 10 ≤ (62 * 0 + base62Value c) * 62 ^ cs.length :=
    Nat.mul_le_mul (by omega) hpow
  have hlt := ha.2
  omega

theorem base62Encode_ne_nil {a : ℤ} (ha : a ∈ Set.Ioo 0 (2 ^ 63)) : (base62Encode a).toList ≠ [] := by
  intro hnil
  have hread := foldl_base62Value ha
  rw [hnil] at hread
  exact absurd hread.symm ha.1.ne'

end Bittuly.Urls
