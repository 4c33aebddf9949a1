import Mathlib.Data.BitVec
import Mathlib.Data.Int.Basic
import Mathlib.Tactic.IntervalCases

/-!
# Shared types of the services

Ids, points in time and the outcome of a database statement. `Uuid.hyphenated` is the text form of an
id, as ASCII bytes; `Uuid.digits` reads the hexadecimal digits of such a text back.
-/

namespace Bittuly

/-- `uuid::Uuid`. -/
abbrev Uuid := BitVec 128

/-- `chrono::DateTime<Utc>`: nanoseconds since the epoch. -/
abbrev Instant := ℤ

/-- One second. -/
def second : ℤ := 1000000000

/-- `DateTime::timestamp`: whole seconds since the epoch, rounded down. -/
def timestamp (t : Instant) : ℤ :=
  t / second

/-! ## Instants in Postgres -/

/-- 2000-01-01, from which Postgres counts. -/
def pgEpoch : ℤ := 946684800 * second

/-- What a `TIMESTAMPTZ` keeps of an instant: whole microseconds, cut off towards the epoch. An instant before
4714 BC or behind the year 294276 is refused. -/
def timestamptz (t : Instant) : Option Instant :=
  let micros := (t - pgEpoch).tdiv 1000
  if -211813488000000000 ≤ micros ∧ micros < 9223371331200000000 then some (pgEpoch + 1000 * micros)
  else none

/-- `now()`, in whole microseconds. -/
def pgNow (now : Instant) : Instant :=
  now / 1000 * 1000

/-- What is kept as it is. -/
theorem timestamptz_eq_self_iff {t : ℤ} :
    timestamptz t = some t ↔ 1000 ∣ t ∧ pgEpoch - 211813488000000000000 ≤ t ∧
      t < pgEpoch + 9223371331200000000000 := by
  have hepoch : 1000 ∣ pgEpoch := by decide
  have heq : timestamptz t = some t ↔
      (-211813488000000000 ≤ (t - pgEpoch).tdiv 1000 ∧ (t - pgEpoch).tdiv 1000 < 9223371331200000000) ∧
        pgEpoch + 1000 * (t - pgEpoch).tdiv 1000 = t := by
    simp only [timestamptz, Option.ite_none_right_eq_some, Option.some.injEq]
  rw [heq]
  constructor
  · rintro ⟨hrange, hkept⟩
    omega
  · rintro ⟨hdvd, hlow, hhigh⟩
    have hmicros : 1000 * (t - pgEpoch).tdiv 1000 = t - pgEpoch :=
      Int.mul_tdiv_cancel' (Int.dvd_sub hdvd hepoch)
    omega

/-! ## Statements -/

/-- What a caller sees of a statement: `Ok`, or an `Err` that came before or after its commit. -/
inductive DbResult
  | ok
  | errApplied
  | err
deriving DecidableEq, Repr

/-- Has the statement taken effect? -/
def DbResult.applied (r : DbResult) : Bool :=
  r ≠ .err

/-! ## Text form of an id -/

/-- The last `k` hexadecimal digits of a number, most significant first. -/
def hexDigits : ℕ → ℕ → List ℕ
  | 0, _ => []
  | k + 1, n => hexDigits k (n / 16) ++ [n % 16]

/-- A lowercase hexadecimal digit. -/
def hexByte (digit : ℕ) : UInt8 :=
  if digit < 10 then UInt8.ofNat (48 + digit) else UInt8.ofNat (87 + digit)

/-- The value of a lowercase hexadecimal digit. -/
def unhexByte (byte : UInt8) : ℕ :=
  if byte < 58 then byte.toNat - 48 else byte.toNat - 87

theorem hexDigits_length (k n : ℕ) : (hexDigits k n).length = k := by
  induction k generalizing n with
  | zero => rfl
  | succ k ih => simp [hexDigits, ih]

theorem hexDigits_lt {k n d : ℕ} (hd : d ∈ hexDigits k n) : d < 16 := by
  induction k generalizing n with
  | zero => cases hd
  | succ k ih =>
    rcases List.mem_append.mp hd with h | h
    · exact ih h
    · rw [List.mem_singleton.mp h]
      exact Nat.mod_lt _ (by decide)

/-- Reading the digits back gives the number. -/
theorem foldl_hexDigits (k n : ℕ) :
    (hexDigits k n).foldl (fun acc d => 16 * acc + d) 0 = n % 16 ^ k := by
  induction k generalizing n with
  | zero => simp [hexDigits, Nat.mod_one]
  | succ k ih =>
    rw [hexDigits, List.foldl_append, ih, List.foldl_cons, List.foldl_nil, Nat.pow_succ']
    have hsplit : n % (16 * 16 ^ k) = n % 16 + 16 * (n / 16 % 16 ^ k) := Nat.mod_mul
    omega

theorem unhexByte_hexByte {d : ℕ} (hd : d < 16) : unhexByte (hexByte d) = d := by
  interval_cases d <;> decide

theorem hexByte_ne_hyphen {d : ℕ} (hd : d < 16) : hexByte d ≠ 45 := by
  interval_cases d <;> decide

namespace Uuid

/-- The 32 hexadecimal digits of an id. -/
def hex (u : Uuid) : List UInt8 :=
  (hexDigits 32 u.toNat).map hexByte

/-- The hyphenated form, 8-4-4-4-12 digits. -/
def hyphenated (u : Uuid) : List UInt8 :=
  u.hex.take 8 ++ [45] ++ (u.hex.drop 8).take 4 ++ [45] ++ (u.hex.drop 12).take 4 ++ [45] ++
    (u.hex.drop 16).take 4 ++ [45] ++ u.hex.drop 20

/-- The id whose digits a text holds, its hyphens skipped. -/
def digits (text : List UInt8) : Uuid :=
  BitVec.ofNat 128 (((text.filter (· ≠ 45)).map unhexByte).foldl (fun acc d => 16 * acc + d) 0)

theorem hyphenated_length (u : Uuid) : u.hyphenated.length = 36 := by
  simp [hyphenated, hex, hexDigits_length]

theorem filter_hyphenated (u : Uuid) : u.hyphenated.filter (· ≠ 45) = u.hex := by
  have hkeep : ∀ l : List UInt8, l.Sublist u.hex → l.filter (· ≠ 45) = l := by
    intro l hl
    apply List.filter_eq_self.mpr
    intro b hb
    obtain ⟨d, hd, rfl⟩ := List.mem_map.mp (hl.subset hb)
    simpa using hexByte_ne_hyphen (hexDigits_lt hd)
  have hpart : ∀ n, ((u.hex.drop n).take 4).filter (· ≠ 45) = (u.hex.drop n).take 4 := fun n =>
    hkeep _ ((List.take_sublist _ _).trans (List.drop_sublist _ _))
  have hsplit : u.hex.take 8 ++ (u.hex.drop 8).take 4 ++ (u.hex.drop 12).take 4 ++
      (u.hex.drop 16).take 4 ++ u.hex.drop 20 = u.hex := by
    have h₁ := List.take_append_drop 4 (u.hex.drop 16)
    have h₂ := List.take_append_drop 4 (u.hex.drop 12)
    have h₃ := List.take_append_drop 4 (u.hex.drop 8)
    simp only [List.drop_drop, Nat.reduceAdd] at h₁ h₂ h₃
    rw [List.append_assoc, h₁, List.append_assoc, h₂, List.append_assoc, h₃, List.take_append_drop]
  simp only [hyphenated, List.filter_append]
  rw [hkeep _ (List.take_sublist _ _), hpart, hpart, hpart, hkeep _ (List.drop_sublist _ _)]
  simpa using hsplit

/-- The text form determines the id. -/
theorem digits_hyphenated (u : Uuid) : digits u.hyphenated = u := by
  have hvalues : (u.hex.map unhexByte) = hexDigits 32 u.toNat := by
    rw [hex, List.map_map]
    exact (List.map_congr_left fun d hd => unhexByte_hexByte (hexDigits_lt hd)).trans (List.map_id _)
  rw [digits, filter_hyphenated, hvalues, foldl_hexDigits]
  have hlt : u.toNat < 16 ^ 32 := by
    have := u.isLt
    norm_num at this ⊢
    exact this
  rw [Nat.mod_eq_of_lt hlt, BitVec.ofNat_toNat, BitVec.setWidth_eq]

end Uuid

end Bittuly
