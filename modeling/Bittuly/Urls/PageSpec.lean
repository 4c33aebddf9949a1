import Bittuly.Urls.Page
import Bittuly.Urls.Store

/-!
# What a page is

References: `services/url-service/src/repository.rs` (`get_urls_page`),
`services/url-service/src/handlers.rs` (`get_all_urls`).

A cursor is the id of the last row of a page in hexadecimal. What is left behind a cursor is `remaining`,
newest first, and a page is the beginning of it.
-/

namespace Bittuly.Urls

open Runs

/-! ## Cursors -/

theorem hexDigit_digitChar {d : ℕ} (hd : d < 16) : hexDigit (Nat.digitChar d) = some d := by
  interval_cases d <;> rfl

/-- Digits of base 16 read back. -/
theorem exists_mapM_toDigits (n : ℕ) :
    ∃ ds : List ℕ, (Nat.toDigits 16 n).mapM hexDigit = some ds ∧ Nat.ofDigits 16 ds.reverse = n := by
  induction n using Nat.strong_induction_on with
  | _ n ih =>
    rw [Nat.toDigits_eq_if (by decide)]
    split
    · rename_i hlt
      refine ⟨[n], ?_, ?_⟩
      · rw [List.mapM_cons, hexDigit_digitChar hlt]
        rfl
      · rw [List.reverse_singleton, Nat.ofDigits_singleton]
    · rename_i hle
      obtain ⟨ds, hds, hvalue⟩ := ih (n / 16) (by omega)
      refine ⟨ds ++ [n % 16], ?_, ?_⟩
      · rw [List.mapM_append, hds, List.mapM_cons, hexDigit_digitChar (Nat.mod_lt n (by decide))]
        rfl
      · rw [List.reverse_append, List.reverse_singleton, List.singleton_append, Nat.ofDigits_cons, hvalue]
        omega

theorem isSome_of_mapM {cs : List Char} {ds : List ℕ} (h : cs.mapM hexDigit = some ds) {c : Char}
    (hc : c ∈ cs) : (hexDigit c).isSome := by
  induction cs generalizing ds with
  | nil => cases hc
  | cons c' cs ih =>
    rw [List.mapM_cons] at h
    obtain ⟨d, hd, h⟩ := Option.bind_eq_some_iff.mp h
    obtain ⟨rest, hrest, -⟩ := Option.bind_eq_some_iff.mp h
    rcases List.mem_cons.mp hc with rfl | hc
    · exact Option.isSome_iff_exists.mpr ⟨d, hd⟩
    · exact ih hrest hc

/-- **A cursor reads back** as the id it was written from. -/
theorem fromStrRadix16_lowerHex {c : ℤ} (hc : c ∈ Set.Ioo (0 : ℤ) (2 ^ 63)) :
    fromStrRadix16 (lowerHex c) = some c := by
  obtain ⟨hpos, hlt⟩ := hc
  have hmod : c % 2 ^ 64 = c := Int.emod_eq_of_lt hpos.le (by omega)
  obtain ⟨ds, hds, hvalue⟩ := exists_mapM_toDigits c.toNat
  have hne : Nat.toDigits 16 c.toNat ≠ [] := Nat.toDigits_ne_nil
  unfold fromStrRadix16 lowerHex
  rw [hmod, String.toList_ofList]
  generalize Nat.toDigits 16 c.toNat = cs at hds hne
  have hdigit : ∀ d ∈ cs, (hexDigit d).isSome := fun _ => isSome_of_mapM hds
  split
  rename_i negative digits hsign
  split at hsign
  · exact absurd (hdigit _ List.mem_cons_self) (by decide)
  · exact absurd (hdigit _ List.mem_cons_self) (by decide)
  · obtain ⟨rfl, rfl⟩ := Prod.mk.inj hsign
    have hread : Nat.ofDigits (16 : ℤ) ds.reverse = c := by
      have hcast := congrArg (Nat.cast : ℕ → ℤ) hvalue
      rwa [Nat.coe_ofDigits, Nat.cast_ofNat, Int.toNat_of_nonneg hpos.le] at hcast
    simp only [if_neg hne, hds, Option.bind_some, Bool.false_eq_true, if_false, hread]
    rw [if_pos]
    omega

theorem lowerHex_ne_empty (c : ℤ) : lowerHex c ≠ "" := by
  intro h
  have hlist := congrArg String.toList h
  rw [lowerHex, String.toList_ofList] at hlist
  exact Nat.toDigits_ne_nil hlist

/-! ## Tables -/

/-- A committed table: ids are a primary key drawn from the sequence, and every row has its code. -/
structure Table where
  urls : List UrlRow
  ids : (urls.map UrlRow.urlId).Nodup
  range : ∀ r ∈ urls, r.urlId ∈ Set.Ioo (0 : ℤ) (2 ^ 63)
  coded : ∀ r ∈ urls, r.shortCode.isSome

/-- Every table that url-service commits. -/
def Table.ofHistory {encode : ℤ → String} {db : Db} (h : StoreInv encode db) {urls : List UrlRow}
    (hurls : urls ∈ db.history) : Table where
  urls := urls
  ids := (h.tables urls hurls).ids
  range := fun r hr => h.issued_range _ ((h.tables urls hurls).known r hr)
  coded := fun r hr => by
    rw [(h.tables urls hurls).coded r hr]
    rfl

/-- The row as the service answers with it. -/
def UrlRow.toUrl (r : UrlRow) : Url :=
  { r with shortCode := r.shortCode.getD "" }

theorem UrlRow.decode_of_coded {r : UrlRow} (h : r.shortCode.isSome) : r.decode = some r.toUrl := by
  obtain ⟨c, hc⟩ := Option.isSome_iff_exists.mp h
  simp only [UrlRow.decode, UrlRow.toUrl, hc, Option.map_some, Option.getD_some]

theorem UrlRow.urlId_of_decode {r : UrlRow} {u : Url} (h : r.decode = some u) : u.urlId = r.urlId := by
  obtain ⟨c, -, rfl⟩ := Option.map_eq_some_iff.mp h
  rfl

/-! ## Pages -/

/-- The pattern of a search; a blank one is none. -/
def searchPattern (search : Option String) : Option String :=
  (search.filter fun s => trim s.toList ≠ []).map fun s => "%" ++ s ++ "%"

/-- The rows behind a cursor, newest first. -/
def remaining (ilike : String → String → Bool) (urls : List UrlRow) (userId : Uuid)
    (search : Option String) (cursor : Option ℤ) : List UrlRow :=
  (urls.filter (pageRow ilike userId cursor (searchPattern search))).mergeSort fun a b => b.urlId ≤ a.urlId

variable {ilike : String → String → Bool} {userId : Uuid} {search : Option String} {cursor : Option ℤ}

/-- The row is one of the user's that the search matches. -/
def Listed (ilike : String → String → Bool) (userId : Uuid) (search : Option String) (r : UrlRow) : Prop :=
  r.userId = userId ∧
    ∀ p ∈ searchPattern search, ilike r.originalUrl p = true ∨ ∃ c ∈ r.shortCode, ilike c p = true

theorem mem_remaining {urls : List UrlRow} {r : UrlRow} :
    r ∈ remaining ilike urls userId search cursor ↔
      r ∈ urls ∧ Listed ilike userId search r ∧ ∀ c ∈ cursor, r.urlId < c := by
  rw [remaining, List.mem_mergeSort, List.mem_filter]
  simp only [Listed, pageRow, Bool.and_eq_true, Option.all_eq_true, decide_eq_true_eq, Bool.or_eq_true,
    Option.any_eq_true]
  constructor
  · rintro ⟨hr, ⟨huser, hcursor⟩, hpattern⟩
    exact ⟨hr, ⟨huser, hpattern⟩, hcursor⟩
  · rintro ⟨hr, ⟨huser, hpattern⟩, hcursor⟩
    exact ⟨hr, ⟨huser, hcursor⟩, hpattern⟩

/-- The ids go down. -/
theorem remaining_pairwise (table : Table) :
    (remaining ilike table.urls userId search cursor).Pairwise fun a b => b.urlId < a.urlId := by
  have hsorted : (remaining ilike table.urls userId search cursor).Pairwise
      fun a b => b.urlId ≤ a.urlId := by
    refine (List.pairwise_mergeSort ?_ ?_ _).imp (by simp)
    · intro a b c hab hbc
      simp only [decide_eq_true_eq] at hab hbc ⊢
      exact hbc.trans hab
    · intro a b
      simp only [Bool.or_eq_true, decide_eq_true_eq]
      exact le_total _ _
  have hids : (remaining ilike table.urls userId search cursor).Pairwise fun a b => a.urlId ≠ b.urlId := by
    have hnodup : (table.urls.filter (pageRow ilike userId cursor (searchPattern search))).Pairwise
        fun a b => a.urlId ≠ b.urlId :=
      List.pairwise_map.mp (table.ids.sublist (List.filter_sublist.map _))
    exact ((List.mergeSort_perm _ _).pairwise_iff fun h => Ne.symm h).mpr hnodup
  exact (hsorted.and hids).imp fun ⟨hle, hne⟩ => lt_of_le_of_ne hle (Ne.symm hne)

/-- The last row of a page has all others of the page above it and what is left below it. -/
theorem le_last_and_mem_take {rows : List UrlRow} (hrows : rows.Pairwise fun a b => b.urlId < a.urlId)
    {n : ℕ} {last : UrlRow} (hlast : (rows.take n).getLast? = some last) :
    (∀ r ∈ rows.take n, last.urlId ≤ r.urlId) ∧ ∀ r ∈ rows, last.urlId ≤ r.urlId → r ∈ rows.take n := by
  obtain ⟨init, hinit⟩ := List.getLast?_eq_some_iff.mp hlast
  have hsplit : (rows.take n ++ rows.drop n).Pairwise fun a b => b.urlId < a.urlId := by
    rwa [List.take_append_drop]
  obtain ⟨htake, -, hdrop⟩ := List.pairwise_append.mp hsplit
  constructor
  · intro r hr
    rw [hinit] at htake hr
    rcases List.mem_append.mp hr with hr | hr
    · exact ((List.pairwise_append.mp htake).2.2 r hr last List.mem_cons_self).le
    · rw [List.mem_singleton.mp hr]
  · intro r hr hle
    rw [← List.take_append_drop n rows] at hr
    rcases List.mem_append.mp hr with hr | hr
    · exact hr
    · have hlt := hdrop last (List.mem_of_getLast? hlast) r hr
      omega

/-- Rows in descending order are determined by which they are. -/
theorem eq_of_pairwise_of_mem_iff {rows rows' : List UrlRow}
    (h : rows.Pairwise fun a b => b.urlId < a.urlId) (h' : rows'.Pairwise fun a b => b.urlId < a.urlId)
    (hmem : ∀ r, r ∈ rows ↔ r ∈ rows') : rows = rows' := by
  have hne : ∀ a b : UrlRow, b.urlId < a.urlId → a ≠ b := by
    rintro a b hlt rfl
    exact lt_irrefl _ hlt
  have hperm : rows.Perm rows' := (List.perm_ext_iff_of_nodup (h.imp (hne _ _)) (h'.imp (hne _ _))).mpr hmem
  refine hperm.eq_of_pairwise (fun a b _ _ hab hba => ?_) h h'
  exact absurd hab hba.not_gt

/-- What is left behind the last of some first rows are all others. -/
theorem remaining_last (table : Table) {n : ℕ} {last : UrlRow}
    (hlast : ((remaining ilike table.urls userId search none).take n).getLast? = some last) :
    remaining ilike table.urls userId search (some last.urlId) =
      (remaining ilike table.urls userId search none).drop n := by
  have hsorted : (remaining ilike table.urls userId search none).Pairwise fun a b => b.urlId < a.urlId :=
    remaining_pairwise table
  refine eq_of_pairwise_of_mem_iff (remaining_pairwise table) (hsorted.sublist (List.drop_sublist _ _)) ?_
  have hmem : ∀ r, r ∈ remaining ilike table.urls userId search (some last.urlId) ↔
      r ∈ remaining ilike table.urls userId search none ∧ r.urlId < last.urlId := by
    intro r
    simp [mem_remaining, and_assoc]
  generalize remaining ilike table.urls userId search none = rows at hsorted hlast hmem
  obtain ⟨hle, hbelow⟩ := le_last_and_mem_take hsorted hlast
  intro r
  rw [hmem]
  constructor
  · rintro ⟨hr, hlt⟩
    rw [← List.take_append_drop n rows] at hr
    exact (List.mem_append.mp hr).resolve_left fun htake => absurd (hle r htake) hlt.not_ge
  · intro hr
    rw [← List.take_append_drop n rows] at hsorted
    have hlt := (List.pairwise_append.mp hsorted).2.2 last (List.mem_of_getLast? hlast) r hr
    exact ⟨List.mem_of_mem_drop hr, hlt⟩

/-- Rows that lie newest first are only filtered. -/
theorem remaining_of_pairwise {urls : List UrlRow} (h : urls.Pairwise fun a b => b.urlId ≤ a.urlId) :
    remaining ilike urls userId search cursor =
      urls.filter (pageRow ilike userId cursor (searchPattern search)) := by
  refine List.mergeSort_of_pairwise ((h.sublist List.filter_sublist).imp ?_)
  intro a b hab
  exact decide_eq_true hab

/-- The rows of one page: one to a hundred. -/
def pageSize (limit : Option ℤ) : ℕ :=
  (max 1 (min (limit.getD defaultPageLimit) 100)).toNat

@[simp]
theorem UrlRow.urlId_toUrl (r : UrlRow) : r.toUrl.urlId = r.urlId :=
  rfl

theorem pageSize_pos (limit : Option ℤ) : 0 < pageSize limit := by
  unfold pageSize
  omega

/-- The first rows as a page. -/
def pageOf (rows : List UrlRow) (n : ℕ) : UrlsPage where
  urls := (rows.take n).map UrlRow.toUrl
  nextCursor := if n < rows.length then (rows.take n).getLast?.map fun r => lowerHex r.urlId else none

theorem mapM_decode {rows : List UrlRow} (h : ∀ r ∈ rows, r.shortCode.isSome) :
    rows.mapM UrlRow.decode = some (rows.map UrlRow.toUrl) := by
  induction rows with
  | nil => rfl
  | cons r rows ih =>
    obtain ⟨hr, hrest⟩ := List.forall_mem_cons.mp h
    rw [List.mapM_cons, UrlRow.decode_of_coded hr, ih hrest]
    rfl

/-- The texts of a search that Postgres takes. -/
def Plain (search : Option String) : Prop :=
  ∀ s ∈ search, hasNul s = false

theorem plain_none : Plain none :=
  fun _ h => nomatch h

theorem hasNul_searchPattern (s : String) : hasNul ("%" ++ s ++ "%") = hasNul s := by
  rw [hasNul_append, hasNul_append]
  have hpercent : hasNul "%" = false := by decide
  rw [hpercent, Bool.false_or, Bool.or_false]

/-- A text with U+0000 is not blank. -/
theorem trim_ne_nil {s : String} (h : hasNul s = true) : trim s.toList ≠ [] := by
  obtain ⟨c, hc, hzero⟩ := List.any_eq_true.mp h
  have hspace : isWhitespace c = false := by
    simp [isWhitespace, of_decide_eq_true hzero]
  obtain ⟨front, back, hsplit⟩ := List.append_of_mem hc
  rw [hsplit, trim_append_cons hspace]
  simp

/-- A search that is not plain fails. -/
theorem getUrlsPage_error {urls : List UrlRow} {limit : ℤ} (h : ¬ Plain search) :
    getUrlsPage ilike urls userId cursor limit (search.filter fun s => trim s.toList ≠ []) =
      .error .database := by
  simp only [Plain, not_forall, Bool.not_eq_false] at h
  obtain ⟨s, rfl, hnul⟩ := h
  have hfilter : (some s).filter (fun s => trim s.toList ≠ []) = some s := by
    simp [Option.filter, trim_ne_nil hnul]
  simp only [getUrlsPage, hfilter, Option.map_some, Option.any_some, hasNul_searchPattern, hnul, if_true]

theorem getUrlsPage_eq (table : Table) (hsearch : Plain search) (limit : Option ℤ) :
    getUrlsPage ilike table.urls userId cursor (limit.getD defaultPageLimit)
      (search.filter fun s => trim s.toList ≠ []) =
        .ok (pageOf (remaining ilike table.urls userId search cursor) (pageSize limit)) := by
  have hsize : max 1 (min (limit.getD defaultPageLimit) 100) = (pageSize limit : ℤ) := by
    unfold pageSize
    omega
  have hrows : pageRows ilike table.urls userId cursor ((pageSize limit : ℤ) + 1) (searchPattern search) =
      (remaining ilike table.urls userId search cursor).take (pageSize limit + 1) := by
    rw [pageRows, remaining]
    rfl
  have hcoded : ∀ r ∈ (remaining ilike table.urls userId search cursor).take (pageSize limit + 1),
      r.shortCode.isSome := fun r hr => table.coded r (mem_remaining.mp (List.mem_of_mem_take hr)).1
  have hplain : (searchPattern search).any hasNul = false := by
    cases search with
    | none => rfl
    | some s =>
      by_cases hblank : trim s.toList = []
      · simp [searchPattern, Option.filter, hblank]
      · simp [searchPattern, Option.filter, hblank, hasNul_searchPattern, hsearch s rfl]
  simp only [getUrlsPage, hsize]
  rw [← searchPattern, hplain, if_neg Bool.false_ne_true, hrows, mapM_decode hcoded]
  generalize remaining ilike table.urls userId search cursor = rows
  simp only [List.length_map, List.length_take]
  by_cases hnext : pageSize limit < rows.length
  · have hlook : (rows.take (pageSize limit + 1)).dropLast = rows.take (pageSize limit) := by
      rw [List.dropLast_eq_take, List.length_take, List.take_take]
      congr 1
      omega
    rw [if_pos (by omega), pageOf, if_pos hnext, ← List.map_dropLast, hlook]
    simp only [List.getLast?_map, Option.map_map]
    rfl
  · rw [if_neg (by omega), pageOf, if_neg hnext, List.take_of_length_le (by omega),
      List.take_of_length_le (by omega)]

/-- `get_all_urls` answers with a page unless the cursor is not a number or the search not plain. -/
theorem getAllUrls_cases (ilike : String → String → Bool) (table : Table) (userId : Uuid)
    (params : PaginationParams) :
    getAllUrls ilike table.urls userId params = .BAD_REQUEST ∨
      (¬ Plain params.search ∧ getAllUrls ilike table.urls userId params = .INTERNAL_SERVER_ERROR) ∨
      Plain params.search ∧ ∃ cursor, getAllUrls ilike table.urls userId params =
        .OK (pageOf (remaining ilike table.urls userId params.search cursor) (pageSize params.limit)) := by
  simp only [getAllUrls]
  split
  · exact .inl rfl
  · rename_i cursor hread
    right
    by_cases hsearch : Plain params.search
    · refine .inr ⟨hsearch, cursor, ?_⟩
      simp only [getUrlsPage_eq table hsearch]
    · refine .inl ⟨hsearch, ?_⟩
      simp only [getUrlsPage_error hsearch]

/-- **The answer of `get_all_urls`** to a cursor that it has written, or to none. -/
theorem getAllUrls_eq (table : Table) (hcursor : ∀ c ∈ cursor, c ∈ Set.Ioo (0 : ℤ) (2 ^ 63))
    (hsearch : Plain search) (limit : Option ℤ) :
    getAllUrls ilike table.urls userId { cursor := cursor.map lowerHex, limit, search } =
      .OK (pageOf (remaining ilike table.urls userId search cursor) (pageSize limit)) := by
  cases cursor with
  | none => simp only [getAllUrls, Option.map_none, getUrlsPage_eq table hsearch]
  | some c =>
    simp only [getAllUrls, Option.map_some]
    split
    · rename_i hread
      split at hread
      · rename_i h
        cases h
      · cases hread
      · rename_i h
        obtain rfl := Option.some.inj h
        rw [fromStrRadix16_lowerHex (hcursor c rfl)] at hread
        cases hread
    · rename_i c' hread
      split at hread
      · rename_i h
        cases h
      · rename_i h
        exact absurd (Option.some.inj h) (lowerHex_ne_empty c)
      · rename_i h
        obtain rfl := Option.some.inj h
        rw [fromStrRadix16_lowerHex (hcursor c rfl)] at hread
        obtain rfl := Option.some.inj hread
        simp only [getUrlsPage_eq table hsearch]

end Bittuly.Urls
