import Bittuly.Lib.Wildcard
import Bittuly.Urls.Page

/-!
# Search

Reference: `services/url-service/src/repository.rs` (`get_urls_page`).

The text of a search goes into an `ILIKE` pattern as it is, between two wildcards. `ILIKE` reads percent,
underscore and backslash in it as its own. It also folds case by the locale of the database, `lower` here:
ASCII letters by themselves, but in some locales other characters become ASCII letters too.
-/

namespace Bittuly.Urls

open Wildcard

/-- The tokens of a `LIKE` pattern. A backslash takes the next character as it is; Postgres refuses one at
the very end, where no search puts it. -/
def likeTokens : List Char → List (Token Char)
  | [] => []
  | '%' :: cs => anything :: likeTokens cs
  | '_' :: cs => .one (fun _ => true) :: likeTokens cs
  | '\\' :: c :: cs => .one (fun x => x = c) :: likeTokens cs
  | c :: cs => .one (fun x => x = c) :: likeTokens cs

/-- `text ILIKE pattern`: `LIKE` of both in lower case. -/
def ilike (lower : Char → Char) (text pattern : String) : Bool :=
  accepts (likeTokens (pattern.toList.map lower)) (text.toList.map lower)

/-- The row passes the search condition of `get_urls_page`. No row passes one with U+0000, with which the
statement fails. -/
def passesSearch (lower : Char → Char) (search : String) (r : UrlRow) : Bool :=
  !hasNul search && pageRow (ilike lower) r.userId none (some ("%" ++ search ++ "%")) r

/-- The text contains the search, ASCII case ignored. -/
def Holds (search text : String) : Prop :=
  search.toList.map Char.toLower <:+: text.toList.map Char.toLower

/-- The target or the code of the row contains the search. -/
def Found (search : String) (r : UrlRow) : Prop :=
  Holds search r.originalUrl ∨ ∃ c ∈ r.shortCode, Holds search c

/-- The characters that a search looks at. -/
def UrlRow.searched (r : UrlRow) : List Char :=
  r.originalUrl.toList ++ (r.shortCode.getD "").toList

/-- A character that `ILIKE` reads as its own. -/
def isMeta (c : Char) : Bool :=
  c = '%' || c = '_' || c = '\\'

theorem passesSearch_iff (lower : Char → Char) (search : String) (r : UrlRow) :
    passesSearch lower search r = true ↔ hasNul search = false ∧
      (ilike lower r.originalUrl ("%" ++ search ++ "%") = true ∨
        ∃ c ∈ r.shortCode, ilike lower c ("%" ++ search ++ "%") = true) := by
  simp [passesSearch, pageRow, Option.any_eq_true]

/-! ## Lower case -/

theorem toNat_toLower (c : Char) :
    c.toLower.toNat = if 65 ≤ c.toNat ∧ c.toNat ≤ 90 then c.toNat + 32 else c.toNat := by
  have hupper : (c.val ≥ 'A'.val ∧ c.val ≤ 'Z'.val) ↔ 65 ≤ c.toNat ∧ c.toNat ≤ 90 := by
    rw [ge_iff_le, UInt32.le_iff_toNat_le, UInt32.le_iff_toNat_le]
    rfl
  unfold Char.toLower
  split
  · rename_i h
    have hrange := hupper.mp h
    rw [if_pos hrange]
    show (c.toNat + 32) % 2 ^ 32 = c.toNat + 32
    omega
  · rename_i h
    rw [if_neg fun hrange => h (hupper.mpr hrange)]

/-- Lower case of ASCII is ASCII, and of other characters the same as before. -/
theorem toNat_toLower_lt_iff {c : Char} : c.toLower.toNat < 128 ↔ c.toNat < 128 := by
  rw [toNat_toLower]
  split <;> omega

theorem toNat_toLower_eq_zero_iff {c : Char} : c.toLower.toNat = 0 ↔ c.toNat = 0 := by
  rw [toNat_toLower]
  split <;> omega

theorem toLower_toLower (c : Char) : c.toLower.toLower = c.toLower := by
  rw [← Char.toNat_inj, toNat_toLower, toNat_toLower]
  by_cases hc : 65 ≤ c.toNat ∧ c.toNat ≤ 90
  · rw [if_pos hc, if_neg (by omega)]
  · rw [if_neg hc, if_neg hc]

/-- Lower case neither makes nor removes such a character. -/
theorem toLower_eq_iff {c x : Char} (hx : isMeta x = true) : c.toLower = x ↔ c = x := by
  rw [← Char.toNat_inj, ← Char.toNat_inj, toNat_toLower]
  simp only [isMeta, Bool.or_eq_true, decide_eq_true_eq] at hx
  rcases hx with (rfl | rfl) | rfl
  · change _ = 37 ↔ _ = 37
    split <;> omega
  · change _ = 95 ↔ _ = 95
    split <;> omega
  · change _ = 92 ↔ _ = 92
    split <;> omega

theorem isMeta_toLower (c : Char) : isMeta c.toLower = isMeta c := by
  have hpercent : c.toLower = '%' ↔ c = '%' := toLower_eq_iff rfl
  have hunderscore : c.toLower = '_' ↔ c = '_' := toLower_eq_iff rfl
  have hbackslash : c.toLower = '\\' ↔ c = '\\' := toLower_eq_iff rfl
  simp only [isMeta, decide_eq_decide.mpr hpercent, decide_eq_decide.mpr hunderscore,
    decide_eq_decide.mpr hbackslash]

/-- A part of a text under one map is a part of it under another that agrees on what the part is made of. -/
theorem infix_map_iff {cs xs : List Char} {f g : Char → Char}
    (h : ∀ x ∈ xs, f x ∈ cs ∨ g x ∈ cs → f x = g x) : cs <:+: xs.map f ↔ cs <:+: xs.map g := by
  have hmap : ∀ {f g : Char → Char}, (∀ x ∈ xs, f x ∈ cs ∨ g x ∈ cs → f x = g x) →
      cs <:+: xs.map f → cs <:+: xs.map g := by
    rintro f g h ⟨us, vs, heq⟩
    obtain ⟨front, vs', rfl, hfront, -⟩ := List.map_eq_append_iff.mp heq.symm
    obtain ⟨us', ys, rfl, -, rfl⟩ := List.map_eq_append_iff.mp hfront
    have hys : ys.map f = ys.map g := List.map_congr_left fun y hy =>
      h y (by simp [hy]) (Or.inl (List.mem_map_of_mem hy))
    rw [hys]
    exact List.IsInfix.map g ⟨us', vs', rfl⟩
  exact ⟨hmap h, hmap fun x hx hcs => (h x hx hcs.symm).symm⟩

theorem map_lower {lower : Char → Char} (hlower : ∀ c : Char, c.toNat < 128 → lower c = c.toLower)
    {cs : List Char} (hcs : ∀ c ∈ cs, c.toNat < 128) : cs.map lower = cs.map Char.toLower :=
  List.map_congr_left fun c hc => hlower c (hcs c hc)

/-- The pattern of a search, in lower case. -/
theorem toList_pattern {lower : Char → Char} (hlower : ∀ c : Char, c.toNat < 128 → lower c = c.toLower)
    {search : String} (hascii : ∀ c ∈ search.toList, c.toNat < 128) :
    ("%" ++ search ++ "%").toList.map lower = '%' :: (search.toList.map Char.toLower ++ ['%']) := by
  have hpercent : lower '%' = '%' := hlower '%' (by decide)
  simp [String.toList_append, map_lower hlower hascii, hpercent]

/-! ## Searches without such characters -/

theorem likeTokens_cons {c : Char} (hc : isMeta c = false) (cs : List Char) :
    likeTokens (c :: cs) = .one (fun x => x = c) :: likeTokens cs := by
  simp only [isMeta, Bool.or_eq_false_iff, decide_eq_false_iff_not] at hc
  obtain ⟨⟨hpercent, hunderscore⟩, hbackslash⟩ := hc
  rw [likeTokens]
  · exact hpercent
  · exact hunderscore
  · rintro c' cs' rfl
    exact absurd rfl hbackslash

theorem likeTokens_append {cs : List Char} (hcs : ∀ c ∈ cs, isMeta c = false) (rest : List Char) :
    likeTokens (cs ++ rest) = (cs.map fun c x => decide (x = c)).map .one ++ likeTokens rest := by
  induction cs with
  | nil => rfl
  | cons c cs ih =>
    obtain ⟨hc, hrest⟩ := List.forall_mem_cons.mp hcs
    rw [List.cons_append, likeTokens_cons hc, ih hrest]
    rfl

theorem forall₂_eq {cs xs : List Char} :
    List.Forall₂ (fun p x => p x = true) (cs.map fun c x => decide (x = c)) xs ↔ xs = cs := by
  rw [List.forall₂_map_left_iff]
  simp only [decide_eq_true_eq]
  rw [eq_comm, ← List.forall₂_eq_eq_eq]
  simp only [eq_comm]

/-- Without such characters the pattern matches what has the search in lower case. -/
theorem ilike_iff_infix_map {lower : Char → Char} (hlower : ∀ c : Char, c.toNat < 128 → lower c = c.toLower)
    {search : String} (hascii : ∀ c ∈ search.toList, c.toNat < 128)
    (hsearch : ∀ c ∈ search.toList, isMeta c = false) (text : String) :
    ilike lower text ("%" ++ search ++ "%") = true ↔
      search.toList.map Char.toLower <:+: text.toList.map lower := by
  have hend : likeTokens ['%'] = [anything] := rfl
  have hplain : ∀ c ∈ search.toList.map Char.toLower, isMeta c = false := by
    intro c hc
    obtain ⟨c', hc', rfl⟩ := List.mem_map.mp hc
    rw [isMeta_toLower]
    exact hsearch c' hc'
  rw [ilike, toList_pattern hlower hascii, likeTokens, likeTokens_append hplain, hend, accepts_between]
  simp only [accepts_ones, forall₂_eq, exists_eq_right]

/-- A text in which nothing else folds to a character of the search: `ILIKE` looks for the search. -/
theorem ilike_iff_holds {lower : Char → Char} (hlower : ∀ c : Char, c.toNat < 128 → lower c = c.toLower)
    {search : String} (hascii : ∀ c ∈ search.toList, c.toNat < 128)
    (hsearch : ∀ c ∈ search.toList, isMeta c = false) {text : String}
    (hfold : ∀ c ∈ text.toList, 128 ≤ c.toNat → lower c ∉ search.toList.map Char.toLower) :
    ilike lower text ("%" ++ search ++ "%") = true ↔ Holds search text := by
  rw [ilike_iff_infix_map hlower hascii hsearch, Holds]
  refine infix_map_iff fun x hx hmem => ?_
  by_cases hx' : x.toNat < 128
  · exact hlower x hx'
  · rcases hmem with hmem | hmem
    · exact absurd hmem (hfold x hx (not_lt.mp hx'))
    · obtain ⟨c, hc, heq⟩ := List.mem_map.mp hmem
      have hlt := toNat_toLower_lt_iff.mpr (hascii c hc)
      rw [heq, toNat_toLower_lt_iff] at hlt
      exact absurd hlt hx'

/-! ## Searches with them -/

/-- A text that the rest of a pattern matches, the closing wildcard included. -/
def sample : List Char → List Char
  | [] => []
  | '%' :: cs => sample cs
  | '_' :: cs => 'x' :: sample cs
  -- at the end a backslash takes the closing wildcard
  | ['\\'] => ['%']
  | '\\' :: c :: cs => c :: sample cs
  | c :: cs => c :: sample cs

/-- A character in its own right, in the cases of `sample`. -/
theorem isMeta_of_plain {c : Char} {cs : List Char} (hpercent : c = '%' → False)
    (hunderscore : c = '_' → False) (hlast : c = '\\' → cs = [] → False)
    (hescape : ∀ c' cs', c = '\\' → cs = c' :: cs' → False) : isMeta c = false := by
  simp only [isMeta, Bool.or_eq_false_iff, decide_eq_false_iff_not]
  refine ⟨⟨hpercent, hunderscore⟩, ?_⟩
  intro hbackslash
  cases cs with
  | nil => exact hlast hbackslash rfl
  | cons c' cs => exact hescape c' cs hbackslash rfl

theorem sample_cons {c : Char} (hc : isMeta c = false) (cs : List Char) :
    sample (c :: cs) = c :: sample cs := by
  simp only [isMeta, Bool.or_eq_false_iff, decide_eq_false_iff_not] at hc
  obtain ⟨⟨hpercent, hunderscore⟩, hbackslash⟩ := hc
  rw [sample]
  · exact hpercent
  · exact hunderscore
  · intro h
    exact absurd h hbackslash
  · intro c' cs' h
    exact absurd h hbackslash

theorem accepts_sample (cs : List Char) : accepts (likeTokens (cs ++ ['%'])) (sample cs) = true := by
  induction cs using sample.induct with
  | case1 => rfl
  | case2 cs ih =>
    rw [sample, List.cons_append, likeTokens, anything, accepts_many]
    exact ⟨[], _, rfl, List.forall_mem_nil _, ih⟩
  | case3 cs ih =>
    rw [sample, List.cons_append, likeTokens, accepts_one]
    exact ⟨'x', _, rfl, rfl, ih⟩
  | case4 => decide
  | case5 c cs ih =>
    rw [sample, List.cons_append, List.cons_append, likeTokens, accepts_one]
    exact ⟨c, _, rfl, decide_eq_true rfl, ih⟩
  | case6 c cs hpercent hunderscore hlast hescape ih =>
    have hc := isMeta_of_plain hpercent hunderscore hlast hescape
    rw [sample_cons hc, List.cons_append, likeTokens_cons hc, accepts_one]
    exact ⟨c, _, rfl, decide_eq_true rfl, ih⟩

/-- An escape weighs more than what it can escape. -/
def charWeight (c : Char) : ℕ :=
  if c = '\\' then 2 else if isMeta c then 1 else 0

/-- How much of a text `ILIKE` reads as its own. -/
def metaWeight (cs : List Char) : ℕ :=
  (cs.map charWeight).sum

theorem charWeight_eq_zero_iff {c : Char} : charWeight c = 0 ↔ isMeta c = false := by
  unfold charWeight
  by_cases hbackslash : c = '\\'
  · simp [hbackslash, isMeta]
  · by_cases hc : isMeta c = true
    · simp [hbackslash, hc]
    · simp [hbackslash, hc]

theorem metaWeight_cons (c : Char) (cs : List Char) :
    metaWeight (c :: cs) = charWeight c + metaWeight cs := by
  rw [metaWeight, List.map_cons, List.sum_cons]
  rfl

theorem metaWeight_append (cs cs' : List Char) :
    metaWeight (cs ++ cs') = metaWeight cs + metaWeight cs' := by
  rw [metaWeight, List.map_append, List.sum_append]
  rfl

theorem metaWeight_le_of_infix {cs xs : List Char} (h : cs <:+: xs) : metaWeight cs ≤ metaWeight xs := by
  obtain ⟨us, vs, rfl⟩ := h
  rw [metaWeight_append, metaWeight_append]
  omega

theorem charWeight_toLower (c : Char) : charWeight c.toLower = charWeight c := by
  have hbackslash : c.toLower = '\\' ↔ c = '\\' := toLower_eq_iff rfl
  simp only [charWeight, isMeta_toLower, hbackslash]

theorem metaWeight_toLower (cs : List Char) : metaWeight (cs.map Char.toLower) = metaWeight cs := by
  rw [metaWeight, List.map_map]
  exact congrArg List.sum (List.map_congr_left fun c _ => charWeight_toLower c)

theorem metaWeight_eq_zero_iff {cs : List Char} :
    metaWeight cs = 0 ↔ ∀ c ∈ cs, isMeta c = false := by
  induction cs with
  | nil => exact iff_of_true rfl (List.forall_mem_nil _)
  | cons c cs ih =>
    rw [metaWeight_cons, Nat.add_eq_zero_iff, ih, List.forall_mem_cons, charWeight_eq_zero_iff]

/-- The matching text weighs less than a search with such characters. -/
theorem metaWeight_sample (cs : List Char) :
    metaWeight (sample cs) ≤ metaWeight cs ∧
      (metaWeight cs ≠ 0 → metaWeight (sample cs) < metaWeight cs) := by
  induction cs using sample.induct with
  | case1 => exact ⟨le_rfl, fun h => absurd rfl h⟩
  | case2 cs ih =>
    have hone : metaWeight ('%' :: cs) = 1 + metaWeight cs := metaWeight_cons _ _
    rw [sample, hone]
    omega
  | case3 cs ih =>
    have hone : metaWeight ('_' :: cs) = 1 + metaWeight cs := metaWeight_cons _ _
    have hzero : metaWeight ('x' :: sample cs) = 0 + metaWeight (sample cs) := metaWeight_cons _ _
    rw [sample, hone, hzero]
    omega
  | case4 => decide
  | case5 c cs ih =>
    have htwo : metaWeight ('\\' :: c :: cs) = 2 + metaWeight (c :: cs) := metaWeight_cons _ _
    rw [sample, htwo, metaWeight_cons, metaWeight_cons]
    omega
  | case6 c cs hpercent hunderscore hlast hescape ih =>
    have hc := isMeta_of_plain hpercent hunderscore hlast hescape
    rw [sample_cons hc, metaWeight_cons, metaWeight_cons, charWeight_eq_zero_iff.mpr hc]
    omega

/-- The matching text is made of the search and two more characters. -/
theorem mem_sample {cs : List Char} {x : Char} (hx : x ∈ sample cs) : x ∈ cs ∨ x = 'x' ∨ x = '%' := by
  induction cs using sample.induct with
  | case1 => cases hx
  | case2 cs ih => exact (ih hx).imp_left (List.mem_cons_of_mem _)
  | case3 cs ih =>
    rcases List.mem_cons.mp hx with rfl | hx
    · exact Or.inr (Or.inl rfl)
    · exact (ih hx).imp_left (List.mem_cons_of_mem _)
  | case4 => exact Or.inr (Or.inr (List.mem_singleton.mp hx))
  | case5 c cs ih =>
    rcases List.mem_cons.mp hx with rfl | hx
    · exact Or.inl (by simp)
    · exact (ih hx).imp_left fun h => List.mem_cons_of_mem _ (List.mem_cons_of_mem _ h)
  | case6 c cs hpercent hunderscore hlast hescape ih =>
    rw [sample_cons (isMeta_of_plain hpercent hunderscore hlast hescape)] at hx
    rcases List.mem_cons.mp hx with rfl | hx
    · exact Or.inl List.mem_cons_self
    · exact (ih hx).imp_left (List.mem_cons_of_mem _)

/-- A link with this target. -/
def linkTo (originalUrl shortCode : String) : UrlRow where
  urlId := 1
  shortCode := some shortCode
  originalUrl := originalUrl
  userId := 7
  clickCount := 0
  expiresAt := none
  createdAt := 0
  updatedAt := 0

/-- A link that a search with such characters finds by mistake. -/
def mistaken (search : String) : UrlRow :=
  linkTo ("https://a.example/" ++ String.ofList (sample (search.toList.map Char.toLower))) "1"

theorem toList_mistaken (search : String) : (mistaken search).originalUrl.toList =
    "https://a.example/".toList ++ sample (search.toList.map Char.toLower) := by
  simp [mistaken, linkTo]

/-- The characters of the matching text are ASCII, in lower case, and not U+0000. -/
theorem of_mem_sample {search : String} (hascii : ∀ c ∈ search.toList, c.toNat < 128)
    (hnul : hasNul search = false) {x : Char} (hx : x ∈ sample (search.toList.map Char.toLower)) :
    x.toNat < 128 ∧ x.toNat ≠ 0 ∧ x.toLower = x := by
  rcases mem_sample hx with hmem | rfl | rfl
  · obtain ⟨c, hc, rfl⟩ := List.mem_map.mp hmem
    exact ⟨toNat_toLower_lt_iff.mpr (hascii c hc),
      toNat_toLower_eq_zero_iff.not.mpr (hasNul_eq_false_iff.mp hnul c hc), toLower_toLower c⟩
  · decide
  · decide

theorem passesSearch_mistaken {lower : Char → Char}
    (hlower : ∀ c : Char, c.toNat < 128 → lower c = c.toLower) {search : String}
    (hascii : ∀ c ∈ search.toList, c.toNat < 128) (hnul : hasNul search = false) :
    passesSearch lower search (mistaken search) = true := by
  rw [passesSearch_iff]
  refine ⟨hnul, Or.inl ?_⟩
  have hfixed : (sample (search.toList.map Char.toLower)).map lower =
      sample (search.toList.map Char.toLower) := by
    refine (List.map_congr_left fun x hx => ?_).trans (List.map_id _)
    obtain ⟨hlt, -, hsame⟩ := of_mem_sample hascii hnul hx
    rw [hlower x hlt, hsame, id]
  rw [ilike, toList_pattern hlower hascii, likeTokens, anything, accepts_many, toList_mistaken,
    List.map_append, hfixed]
  exact ⟨_, _, rfl, fun _ _ => rfl, accepts_sample _⟩

/-- The characters of that link. -/
theorem of_mem_mistaken {search : String} (hascii : ∀ c ∈ search.toList, c.toNat < 128)
    (hnul : hasNul search = false) {x : Char} (hx : x ∈ (mistaken search).searched) :
    x.toNat < 128 ∧ x.toNat ≠ 0 := by
  have hcode : ((mistaken search).shortCode.getD "").toList = ['1'] := by simp [mistaken, linkTo]
  have hfront : ("https://a.example/".toList.all fun c => c.toNat < 128 && c.toNat ≠ 0) = true := by
    decide
  rw [UrlRow.searched, toList_mistaken, hcode] at hx
  rcases List.mem_append.mp hx with hx | hx
  · rcases List.mem_append.mp hx with hx | hx
    · simpa using List.all_eq_true.mp hfront x hx
    · obtain ⟨hlt, hne, -⟩ := of_mem_sample hascii hnul hx
      exact ⟨hlt, hne⟩
  · rw [List.mem_singleton.mp hx]
    decide

/-- A text that contains the search weighs as much. -/
theorem Holds.metaWeight_le {search text : String} (h : Holds search text) :
    metaWeight search.toList ≤ metaWeight text.toList := by
  rw [← metaWeight_toLower search.toList, ← metaWeight_toLower text.toList]
  exact metaWeight_le_of_infix h

theorem not_found_mistaken {search : String} (h : metaWeight search.toList ≠ 0) :
    ¬ Found search (mistaken search) := by
  rintro (hurl | ⟨c, hc, hcode⟩)
  · have hle := hurl.metaWeight_le
    have hfront : metaWeight "https://a.example/".toList = 0 := by decide
    rw [toList_mistaken, metaWeight_append, hfront, Nat.zero_add, ← metaWeight_toLower search.toList] at hle
    rw [← metaWeight_toLower] at h
    exact absurd ((metaWeight_sample _).2 h) (not_lt.mpr hle)
  · obtain rfl := Option.some.inj hc
    have hle := hcode.metaWeight_le
    have hone : metaWeight "1".toList = 0 := by decide
    omega

/-! ## Characters that fold to a character of the search -/

/-- A link whose target is the search with one character replaced. -/
def misspelt (search : String) (front : List Char) (c : Char) (back : List Char) : UrlRow :=
  linkTo (String.ofList (front ++ c :: back)) (if search = "1" then "2" else "1")

section Misspelt

variable {search : String} {front back : List Char} {c d : Char}

theorem passesSearch_misspelt {lower : Char → Char}
    (hlower : ∀ c : Char, c.toNat < 128 → lower c = c.toLower)
    (hascii : ∀ c ∈ search.toList, c.toNat < 128) (hnul : hasNul search = false)
    (hsearch : ∀ c ∈ search.toList, isMeta c = false) (hsplit : search.toList = front ++ d :: back)
    (hfold : lower c = d.toLower) : passesSearch lower search (misspelt search front c back) = true := by
  rw [passesSearch_iff]
  refine ⟨hnul, Or.inl ?_⟩
  rw [ilike_iff_infix_map hlower hascii hsearch]
  have hfront : front.map lower = front.map Char.toLower :=
    map_lower hlower fun x hx => hascii x (by rw [hsplit]; simp [hx])
  have hback : back.map lower = back.map Char.toLower :=
    map_lower hlower fun x hx => hascii x (by rw [hsplit]; simp [hx])
  simp only [misspelt, linkTo, String.toList_ofList, List.map_append, List.map_cons, hfront, hback, hfold,
    hsplit]
  exact List.infix_rfl

theorem not_found_misspelt (hascii : ∀ c ∈ search.toList, c.toNat < 128)
    (hsplit : search.toList = front ++ d :: back) (hc : 128 ≤ c.toNat) :
    ¬ Found search (misspelt search front c back) := by
  rintro (hurl | ⟨code, hcode, hholds⟩)
  · -- the target is as long as the search
    have hlength : (search.toList.map Char.toLower).length =
        ((misspelt search front c back).originalUrl.toList.map Char.toLower).length := by
      simp [misspelt, linkTo, hsplit]
    have heq := hurl.eq_of_length hlength
    simp only [misspelt, linkTo, String.toList_ofList, hsplit, List.map_append, List.map_cons] at heq
    have hd := (List.cons.inj (List.append_cancel_left heq)).1
    have hlt := toNat_toLower_lt_iff.mpr (hascii d (by rw [hsplit]; simp))
    rw [hd, toNat_toLower_lt_iff] at hlt
    omega
  · obtain rfl := Option.some.inj hcode
    have hne : search.toList.map Char.toLower ≠ [] := by simp [hsplit]
    unfold Holds at hholds
    split at hholds
    · rename_i hone
      rw [hone] at hholds
      exact absurd hholds (by decide)
    · rename_i hone
      -- the search would be the code
      have hcode : search.toList.map Char.toLower = ['1'] :=
        ((List.infix_singleton_iff _ '1').mp hholds).resolve_left hne
      obtain ⟨x, hx, hx'⟩ := List.map_eq_singleton_iff.mp hcode
      have hx1 : x = '1' := by
        rw [← Char.toNat_inj, toNat_toLower] at hx'
        rw [← Char.toNat_inj]
        change _ = 49 at hx'
        change _ = 49
        split at hx' <;> omega
      rw [hx1] at hx
      exact hone (String.toList_inj.mp hx)

/-- The characters of that link. -/
theorem of_mem_misspelt (hascii : ∀ c ∈ search.toList, c.toNat < 128) (hnul : hasNul search = false)
    (hsplit : search.toList = front ++ d :: back) {x : Char}
    (hx : x ∈ (misspelt search front c back).searched) : x = c ∨ x.toNat < 128 ∧ x.toNat ≠ 0 := by
  have hsearch : ∀ y ∈ search.toList, y.toNat < 128 ∧ y.toNat ≠ 0 := fun y hy =>
    ⟨hascii y hy, hasNul_eq_false_iff.mp hnul y hy⟩
  have hcode : ((if search = "1" then "2" else "1").toList.all
      fun y => y.toNat < 128 && y.toNat ≠ 0) = true := by
    split
    · decide
    · decide
  rcases List.mem_append.mp hx with hx | hx
  · simp only [misspelt, linkTo, String.toList_ofList, List.mem_append, List.mem_cons] at hx
    rcases hx with hx | rfl | hx
    · exact Or.inr (hsearch x (by rw [hsplit]; simp [hx]))
    · exact Or.inl rfl
    · exact Or.inr (hsearch x (by rw [hsplit]; simp [hx]))
  · exact Or.inr (by simpa using List.all_eq_true.mp hcode x hx)

end Misspelt

/-- No row contains a search with U+0000. -/
theorem not_found_of_hasNul {search : String} (hnul : hasNul search = true) {r : UrlRow}
    (hr : ∀ c ∈ r.searched, c.toNat ≠ 0) : ¬ Found search r := by
  obtain ⟨c, hc, hzero⟩ := List.any_eq_true.mp hnul
  have hlow : c.toLower.toNat = 0 := toNat_toLower_eq_zero_iff.mpr (by simpa using hzero)
  have hnot : ∀ text : String, (∀ x ∈ text.toList, x.toNat ≠ 0) → ¬ Holds search text := by
    intro text htext hholds
    obtain ⟨x, hx, heq⟩ := List.mem_map.mp (hholds.subset (List.mem_map_of_mem hc))
    exact htext x hx (toNat_toLower_eq_zero_iff.mp (heq ▸ hlow))
  rintro (hurl | ⟨code, hcode, hholds⟩)
  · exact hnot _ (fun x hx => hr x (List.mem_append_left _ hx)) hurl
  · obtain hcode : r.shortCode = some code := hcode
    refine hnot code (fun x hx => hr x (List.mem_append_right _ ?_)) hholds
    rw [hcode]
    exact hx

/-- **When a search is a substring filter**, for a locale and the characters that rows may hold: exactly if
the search has no percent, underscore or backslash, and no other character folds to one of its own. A
search with U+0000 fails, and no row contains it. -/
theorem passesSearch_iff_found_iff {lower : Char → Char}
    (hlower : ∀ c : Char, c.toNat < 128 → lower c = c.toLower) {chars : Set Char}
    (hchars : ∀ c : Char, c.toNat < 128 → (c ∈ chars ↔ c.toNat ≠ 0)) {search : String}
    (hascii : ∀ c ∈ search.toList, c.toNat < 128) :
    (∀ r : UrlRow, (∀ c ∈ r.searched, c ∈ chars) →
        (passesSearch lower search r = true ↔ Found search r)) ↔
      hasNul search = true ∨ (∀ c ∈ search.toList, isMeta c = false) ∧
        ∀ c ∈ chars, 128 ≤ c.toNat → lower c ∉ search.toList.map Char.toLower := by
  cases hnul : hasNul search with
  | true =>
    refine iff_of_true (fun r hr => ?_) (Or.inl rfl)
    rw [passesSearch_iff, hnul]
    refine iff_of_false (fun h => absurd h.1 (by decide)) (not_found_of_hasNul hnul fun c hc hzero => ?_)
    exact (hchars c (by omega)).mp (hr c hc) hzero
  | false =>
    rw [or_iff_right Bool.false_ne_true]
    constructor
    · intro hall
      have hsearch : ∀ c ∈ search.toList, isMeta c = false := by
        rw [← metaWeight_eq_zero_iff]
        by_contra h
        refine not_found_mistaken h ((hall _ fun c hc => ?_).mp (passesSearch_mistaken hlower hascii hnul))
        obtain ⟨hlt, hne⟩ := of_mem_mistaken hascii hnul hc
        exact (hchars c hlt).mpr hne
      refine ⟨hsearch, fun c hc hodd hmem => ?_⟩
      obtain ⟨d, hd, hfold⟩ := List.mem_map.mp hmem
      obtain ⟨front, back, hsplit⟩ := List.append_of_mem hd
      refine not_found_misspelt hascii hsplit hodd ((hall _ fun x hx => ?_).mp
        (passesSearch_misspelt hlower hascii hnul hsearch hsplit hfold.symm))
      rcases of_mem_misspelt hascii hnul hsplit hx with rfl | ⟨hlt, hne⟩
      · exact hc
      · exact (hchars x hlt).mpr hne
    · rintro ⟨hsearch, hfold⟩ r hr
      rw [passesSearch_iff, and_iff_right hnul, Found]
      refine or_congr ?_ (exists_congr fun code => and_congr_right fun hcode => ?_)
      · exact ilike_iff_holds hlower hascii hsearch fun c hc =>
          hfold c (hr c (List.mem_append_left _ hc))
      · obtain hcode : r.shortCode = some code := hcode
        refine ilike_iff_holds hlower hascii hsearch fun c hc =>
          hfold c (hr c (List.mem_append_right _ ?_))
        rw [hcode]
        exact hc

/-- Lower case in a locale that folds two more characters, as `en_US.utf8` does: the kelvin sign to `k` and
a dotted capital to `i`. -/
def foldTwo (c : Char) : Char :=
  if c.toNat = 0x212A then 'k' else if c.toNat = 0x130 then 'i' else c.toLower

/-- There `a.ex` is searched as it is, and `k` finds more. -/
theorem passesSearch_iff_found_iff_of_locale :
    (∀ r : UrlRow, (∀ c ∈ r.searched, c ∈ {c : Char | c.toNat ≠ 0}) →
        (passesSearch foldTwo "a.ex" r = true ↔ Found "a.ex" r)) ∧
      ¬ ∀ r : UrlRow, (∀ c ∈ r.searched, c ∈ {c : Char | c.toNat ≠ 0}) →
        (passesSearch foldTwo "k" r = true ↔ Found "k" r) := by
  have hlower : ∀ c : Char, c.toNat < 128 → foldTwo c = c.toLower := by
    intro c hc
    rw [foldTwo, if_neg (by omega), if_neg (by omega)]
  have hchars : ∀ c : Char, c.toNat < 128 → (c ∈ {c : Char | c.toNat ≠ 0} ↔ c.toNat ≠ 0) :=
    fun _ _ => Iff.rfl
  have hascii : ∀ search ∈ ["a.ex", "k"], ∀ c ∈ search.toList, c.toNat < 128 := by simp
  constructor
  · refine (passesSearch_iff_found_iff hlower hchars (hascii _ (by simp))).mpr (Or.inr ⟨by simp [isMeta], ?_⟩)
    intro c _ hodd
    unfold foldTwo
    split
    · decide
    · split
      · decide
      · intro hmem
        obtain ⟨x, hx, heq⟩ := List.mem_map.mp hmem
        have hlt := toNat_toLower_lt_iff.mpr (hascii _ (by simp) x hx)
        rw [heq, toNat_toLower_lt_iff] at hlt
        omega
  · rw [passesSearch_iff_found_iff hlower hchars (hascii _ (by simp))]
    rintro (hnul | ⟨-, hfold⟩)
    · exact absurd hnul (by decide)
    · exact hfold (Char.ofNat 0x212A) (by decide) (by decide) (by decide)

/-- **An underscore finds any character.** -/
theorem underscore_finds_letter :
    ¬ ∀ search r, passesSearch Char.toLower search r = true ↔ Found search r := by
  intro hall
  have hpass : passesSearch Char.toLower "a_b" (mistaken "a_b") = true := by decide
  rcases (hall _ _).mp hpass with h | ⟨c, hc, h⟩
  · exact absurd h (by unfold Holds; decide)
  · obtain rfl := Option.some.inj hc
    exact absurd h (by unfold Holds; decide)

end Bittuly.Urls
