import Mathlib.Data.List.DropRight

/-!
# Texts

`str` methods, and what header values and Postgres take of a text.
-/

namespace Bittuly

/-! ## Where `List.dropWhile` stops -/

section Drop

variable {α : Type*} {p : α → Bool} {s t : List α}

theorem dropWhile_append_cons {c : α} (hc : p c = false) :
    (s ++ c :: t).dropWhile p = s.dropWhile p ++ c :: t := by
  rw [List.dropWhile_append]
  split
  · rename_i hempty
    rw [List.isEmpty_iff.mp hempty, List.dropWhile_cons_of_neg (by simp [hc]), List.nil_append]
  · rfl

theorem rdropWhile_append_cons {c : α} (hc : p c = false) :
    (s ++ c :: t).rdropWhile p = s ++ c :: t.rdropWhile p := by
  have hreverse : (s ++ c :: t).reverse = t.reverse ++ c :: s.reverse := by simp
  rw [List.rdropWhile, hreverse, dropWhile_append_cons hc, List.rdropWhile]
  simp

theorem rdropWhile_append_of_pos (ht : ∀ c ∈ t, p c = true) :
    (s ++ t).rdropWhile p = s.rdropWhile p := by
  rw [List.rdropWhile, List.rdropWhile, List.reverse_append, List.dropWhile_append_of_pos]
  intro c hc
  exact ht c (List.mem_reverse.mp hc)

end Drop

/-! ## `str::trim` -/

/-- `char::is_whitespace`. -/
def isWhitespace (c : Char) : Bool :=
  let n := c.toNat
  (9 ≤ n && n ≤ 13) || n = 0x20 || n = 0x85 || n = 0xA0 || n = 0x1680 || (0x2000 ≤ n && n ≤ 0x200A) ||
    n = 0x2028 || n = 0x2029 || n = 0x202F || n = 0x205F || n = 0x3000

/-- `str::trim`. -/
def trim (s : List Char) : List Char :=
  (s.dropWhile isWhitespace).rdropWhile isWhitespace

/-- Nothing to trim. -/
theorem trim_eq_self {s : List Char} (hs : ∀ c ∈ s, isWhitespace c = false) : trim s = s := by
  have hdrop : s.dropWhile isWhitespace = s := by
    rw [List.dropWhile_eq_self_iff]
    intro hl
    simp [hs _ (List.getElem_mem hl)]
  rw [trim, hdrop, List.rdropWhile_eq_self_iff]
  intro hne
  simp [hs _ (List.getLast_mem hne)]

theorem trim_cons {c : Char} {s : List Char} (hc : isWhitespace c = true) :
    trim (c :: s) = trim s := by
  rw [trim, trim, List.dropWhile_cons_of_pos hc]

theorem trim_append_left {before s : List Char} (hbefore : ∀ c ∈ before, isWhitespace c = true) :
    trim (before ++ s) = trim s := by
  rw [trim, trim, List.dropWhile_append_of_pos hbefore]

theorem trim_append_right {s after : List Char} (hafter : ∀ c ∈ after, isWhitespace c = true) :
    trim (s ++ after) = trim s := by
  have hdrop : after.dropWhile isWhitespace = [] := List.dropWhile_eq_nil_iff.mpr hafter
  rw [trim, trim, List.dropWhile_append]
  split
  · rename_i hempty
    rw [hdrop, List.isEmpty_iff.mp hempty]
  · rw [rdropWhile_append_of_pos hafter]

theorem trim_dropWhile (s : List Char) : trim (s.dropWhile isWhitespace) = trim s := by
  rw [trim, trim, List.dropWhile_idempotent]

theorem trim_rdropWhile (s : List Char) : trim (s.rdropWhile isWhitespace) = trim s := by
  have hspaces : ∀ c ∈ s.rtakeWhile isWhitespace, isWhitespace c = true :=
    fun c hc => List.mem_rtakeWhile_imp hc
  calc trim (s.rdropWhile isWhitespace)
      = trim (s.rdropWhile isWhitespace ++ s.rtakeWhile isWhitespace) :=
        (trim_append_right hspaces).symm
    _ = trim s := by rw [List.rdropWhile_append_rtakeWhile]

/-- Trimming stops at a character that is not white space, from either side. -/
theorem trim_append_cons {c : Char} {s t : List Char} (hc : isWhitespace c = false) :
    trim (s ++ c :: t) = s.dropWhile isWhitespace ++ c :: t.rdropWhile isWhitespace := by
  rw [trim, dropWhile_append_cons hc, rdropWhile_append_cons hc]

theorem trim_subset (s : List Char) : trim s ⊆ s := by
  intro c hc
  exact (List.dropWhile_sublist isWhitespace).subset ((List.rdropWhile_prefix isWhitespace _).subset hc)

/-! ## Texts that are refused -/

/-- The characters that `HeaderValue` takes. -/
def headerChar (c : Char) : Bool :=
  (32 ≤ c.toNat && c.toNat ≠ 127) || c = '\t'

/-- Does the text hold U+0000? Postgres fails on such a parameter. -/
def hasNul (s : String) : Bool :=
  s.toList.any fun c => c.toNat = 0

theorem hasNul_eq_false_iff {s : String} : hasNul s = false ↔ ∀ c ∈ s.toList, c.toNat ≠ 0 := by
  simp [hasNul]

/-- A hundred characters fit on a third of a page, which is what an index takes of a text. -/
def isShort (s : String) : Bool :=
  s.length ≤ 100

theorem hasNul_append (s t : String) : hasNul (s ++ t) = (hasNul s || hasNul t) := by
  simp [hasNul]

end Bittuly
