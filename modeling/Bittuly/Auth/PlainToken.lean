import Bittuly.Auth.Token
import Mathlib.Data.Nat.Digits.Defs

/-!
# An unsigned token format

`plainToken` is a `JsonWebToken` without a signature: a payload is flattened to numbers, a text by its
length and its characters, and the numbers are written in decimal, each closed by a dot. It shows that
the laws of `JsonWebToken` can be met, and concrete requests are computed with it.
-/

namespace Bittuly.Auth

namespace Plain

/-! ## Numbers -/

/-- A number, least significant digit first. -/
def numberChars (n : ℕ) : List Char :=
  (Nat.digits 10 n).map Nat.digitChar ++ ['.']

/-- Take one more character in front of the numbers read so far. -/
def readChar (c : Char) (ns : List ℕ) : List ℕ :=
  if c = '.' then 0 :: ns
  else match ns with
    | [] => []
    | n :: ns => (c.toNat - 48 + 10 * n) :: ns

/-- The numbers of a text. -/
def readNumbers (cs : List Char) : List ℕ :=
  cs.foldr readChar []

theorem digitChar_ne_dot {d : ℕ} (hd : d < 10) : Nat.digitChar d ≠ '.' := by
  interval_cases d <;> decide

theorem digitChar_toNat {d : ℕ} (hd : d < 10) : (Nat.digitChar d).toNat - 48 = d := by
  interval_cases d <;> decide

theorem tokenChar_digitChar {d : ℕ} (hd : d < 10) : tokenChar (Nat.digitChar d) = true := by
  interval_cases d <;> decide

theorem foldr_digits {ds : List ℕ} (hds : ∀ d ∈ ds, d < 10) (ns : List ℕ) :
    (ds.map Nat.digitChar).foldr readChar (0 :: ns) = Nat.ofDigits 10 ds :: ns := by
  induction ds with
  | nil => rfl
  | cons d ds ih =>
    have hd := hds d List.mem_cons_self
    rw [List.map_cons, List.foldr_cons, ih fun d' hd' => hds d' (List.mem_cons_of_mem _ hd')]
    rw [readChar, if_neg (digitChar_ne_dot hd), digitChar_toNat hd, Nat.ofDigits_cons]

theorem foldr_numberChars (n : ℕ) (ns : List ℕ) :
    (numberChars n).foldr readChar ns = n :: ns := by
  have hlt : ∀ d ∈ Nat.digits 10 n, d < 10 := fun d hd => Nat.digits_lt_base (by norm_num) hd
  have hdigits := foldr_digits hlt ns
  rw [Nat.ofDigits_digits] at hdigits
  rw [numberChars, List.foldr_append]
  exact hdigits

theorem readNumbers_flatMap (ns : List ℕ) : readNumbers (ns.flatMap numberChars) = ns := by
  induction ns with
  | nil => rfl
  | cons n ns ih =>
    rw [readNumbers] at ih ⊢
    rw [List.flatMap_cons, List.foldr_append, ih, foldr_numberChars]

/-! ## Payloads -/

def textNumbers (s : String) : List ℕ :=
  s.toList.length :: s.toList.map Char.toNat

def readText : List ℕ → Option (String × List ℕ)
  | [] => none
  | n :: ns => some (String.ofList ((ns.take n).map Char.ofNat), ns.drop n)

def valueNumbers : JsonValue → List ℕ
  | .str s => 0 :: textNumbers s
  | .num n => [1, n]

def readValue : List ℕ → Option (JsonValue × List ℕ)
  | 0 :: ns => (readText ns).map fun r => (.str r.1, r.2)
  | 1 :: n :: ns => some (.num n, ns)
  | _ => none

def memberNumbers (m : String × JsonValue) : List ℕ :=
  textNumbers m.1 ++ valueNumbers m.2

def readMembers : ℕ → List ℕ → Option JsonObject
  | 0, _ => some []
  | k + 1, ns => do
    let (name, ns) ← readText ns
    let (value, ns) ← readValue ns
    let rest ← readMembers k ns
    some ((name, value) :: rest)

theorem readText_append (s : String) (ns : List ℕ) :
    readText (textNumbers s ++ ns) = some (s, ns) := by
  have hchars : (s.toList.map Char.toNat).map Char.ofNat = s.toList := by
    rw [List.map_map]
    exact (List.map_congr_left fun c _ => Char.ofNat_toNat c).trans (List.map_id _)
  have hlength : s.toList.length = (s.toList.map Char.toNat).length := (List.length_map _).symm
  rw [textNumbers, List.cons_append, readText, hlength, List.take_left, List.drop_left, hchars,
    String.ofList_toList]

theorem readValue_append (v : JsonValue) (ns : List ℕ) :
    readValue (valueNumbers v ++ ns) = some (v, ns) := by
  cases v with
  | str s =>
    rw [valueNumbers, List.cons_append, readValue, readText_append]
    rfl
  | num n => rfl

theorem readMembers_flatMap (o : JsonObject) (ns : List ℕ) :
    readMembers o.length (o.flatMap memberNumbers ++ ns) = some o := by
  induction o with
  | nil => rfl
  | cons m o ih =>
    rw [List.length_cons, List.flatMap_cons, memberNumbers, List.append_assoc, List.append_assoc,
      readMembers, readText_append]
    simp only [Option.bind_eq_bind, Option.bind_some, readValue_append, ih]

/-! ## The format -/

def encode (_ : String) (o : JsonObject) : String :=
  String.ofList ((o.length :: o.flatMap memberNumbers).flatMap numberChars)

def verify (_ token : String) : Option JsonObject :=
  match readNumbers token.toList with
  | [] => none
  | k :: ns => readMembers k ns

theorem verify_encode (secret : String) (o : JsonObject) :
    verify secret (encode secret o) = some o := by
  have hmembers := readMembers_flatMap o []
  rw [List.append_nil] at hmembers
  rw [verify, encode, String.toList_ofList, readNumbers_flatMap]
  exact hmembers

theorem encode_chars (secret : String) (o : JsonObject) :
    ∀ c ∈ (encode secret o).toList, tokenChar c = true := by
  intro c hc
  rw [encode, String.toList_ofList] at hc
  obtain ⟨n, -, hn⟩ := List.mem_flatMap.mp hc
  rcases List.mem_append.mp hn with hdigit | hdot
  · obtain ⟨d, hd, rfl⟩ := List.mem_map.mp hdigit
    exact tokenChar_digitChar (Nat.digits_lt_base (by norm_num) hd)
  · rw [List.mem_singleton.mp hdot]
    decide

end Plain

/-- Tokens without a signature. -/
def plainToken : JsonWebToken where
  encode := Plain.encode
  verify := Plain.verify
  verify_encode := Plain.verify_encode
  encode_chars := Plain.encode_chars

end Bittuly.Auth
