import Bittuly.Text
import Bittuly.Urls.Repo
import Mathlib.Data.Nat.Digits.Defs

/-!
# Pages of links

References: `services/url-service/src/handlers.rs` (`get_all_urls`),
`services/url-service/src/repository.rs` (`get_urls_page`).

`ilike` is the operator of Postgres, text and pattern. A page is read from one committed table, which a
replica may still have after newer ones. Postgres refuses a pattern with U+0000.
-/

namespace Bittuly.Urls

/-- `char::to_digit(16)`. -/
def hexDigit (c : Char) : Option ℕ :=
  if '0' ≤ c ∧ c ≤ '9' then some (c.toNat - 48)
  else if 'a' ≤ c ∧ c ≤ 'f' then some (c.toNat - 87)
  else if 'A' ≤ c ∧ c ≤ 'F' then some (c.toNat - 55)
  else none

/-- `i64::from_str_radix(.., 16)`. -/
def fromStrRadix16 (s : String) : Option ℤ :=
  let (negative, digits) := match s.toList with
    | '-' :: ds => (true, ds)
    | '+' :: ds => (false, ds)
    | ds => (false, ds)
  if digits = [] then none
  else
    (digits.mapM hexDigit).bind fun ds =>
      let n : ℤ := Nat.ofDigits 16 ds.reverse
      let v := if negative then -n else n
      if -2 ^ 63 ≤ v ∧ v < 2 ^ 63 then some v else none

/-- `format!("\x7b:x\x7d", ..)` of an `i64`: the digits of its two's complement. -/
def lowerHex (v : ℤ) : String :=
  String.ofList (Nat.toDigits 16 (v % 2 ^ 64).toNat)

structure PaginationParams where
  cursor : Option String
  limit : Option ℤ
  search : Option String
deriving DecidableEq, Repr

structure UrlsPage where
  urls : List Url
  nextCursor : Option String
deriving DecidableEq, Repr

inductive PageResponse
  | OK (page : UrlsPage)
  | BAD_REQUEST
  | INTERNAL_SERVER_ERROR
deriving DecidableEq, Repr

def defaultPageLimit : ℤ := 20

variable (ilike : String → String → Bool)

/-- The `WHERE` of `get_urls_page`. A row without a code does not match by its code. -/
def pageRow (userId : Uuid) (cursor : Option ℤ) (pattern : Option String) (r : UrlRow) : Bool :=
  decide (r.userId = userId) && cursor.all (fun c => r.urlId < c) &&
    pattern.all fun p => ilike r.originalUrl p || r.shortCode.any fun c => ilike c p

/-- The rows that the statement returns. -/
def pageRows (urls : List UrlRow) (userId : Uuid) (cursor : Option ℤ) (limit : ℤ)
    (pattern : Option String) : List UrlRow :=
  ((urls.filter (pageRow ilike userId cursor pattern)).mergeSort fun a b => b.urlId ≤ a.urlId).take
    limit.toNat

def getUrlsPage (urls : List UrlRow) (userId : Uuid) (cursor : Option ℤ) (limit : ℤ)
    (search : Option String) : Except SqlError UrlsPage :=
  let limit := max 1 (min limit 100)
  let searchPattern := search.map fun s => "%" ++ s ++ "%"
  -- the statement fails on such a parameter
  if searchPattern.any hasNul then .error .database
  else
    match (pageRows ilike urls userId cursor (limit + 1) searchPattern).mapM UrlRow.decode with
    | none => .error .columnDecode
    | some rows =>
      if limit < rows.length then
        let urls := rows.dropLast
        .ok { urls, nextCursor := urls.getLast?.map fun u => lowerHex u.urlId }
      else .ok { urls := rows, nextCursor := none }

/-- `get_all_urls`; `userId` is `claims.sub`. -/
def getAllUrls (urls : List UrlRow) (userId : Uuid) (params : PaginationParams) : PageResponse :=
  let cursor : Option (Option ℤ) := match params.cursor with
    | none | some "" => some none
    | some hex => (fromStrRadix16 hex).map some
  match cursor with
  | none => .BAD_REQUEST
  | some cursor =>
    let limit := params.limit.getD defaultPageLimit
    let search := params.search.filter fun s => trim s.toList ≠ []
    match getUrlsPage ilike urls userId cursor limit search with
    | .ok page => .OK page
    | .error _ => .INTERNAL_SERVER_ERROR

/-! ## What a page holds -/

variable {ilike}

theorem mem_of_mapM_decode {rows : List UrlRow} {urls : List Url}
    (h : rows.mapM UrlRow.decode = some urls) : ∀ u ∈ urls, ∃ r ∈ rows, r.decode = some u := by
  induction rows generalizing urls with
  | nil =>
    obtain rfl := Option.some.inj h
    intro u hu
    cases hu
  | cons r rows ih =>
    rw [List.mapM_cons] at h
    obtain ⟨v, hv, h⟩ := Option.bind_eq_some_iff.mp h
    obtain ⟨vs, hvs, h⟩ := Option.bind_eq_some_iff.mp h
    obtain rfl := Option.some.inj h
    intro u hu
    rcases List.mem_cons.mp hu with rfl | hu
    · exact ⟨r, List.mem_cons_self, hv⟩
    · obtain ⟨r', hr', hdecode⟩ := ih hvs u hu
      exact ⟨r', List.mem_cons_of_mem _ hr', hdecode⟩

theorem mem_pageRows {urls : List UrlRow} {userId : Uuid} {cursor : Option ℤ} {limit : ℤ}
    {pattern : Option String} {r : UrlRow}
    (hr : r ∈ pageRows ilike urls userId cursor limit pattern) :
    r ∈ urls ∧ pageRow ilike userId cursor pattern r = true := by
  have hsorted := List.mem_of_mem_take hr
  rw [List.mem_mergeSort, List.mem_filter] at hsorted
  exact hsorted

theorem mem_getUrlsPage {urls : List UrlRow} {userId : Uuid} {cursor : Option ℤ} {limit : ℤ}
    {search : Option String} {page : UrlsPage}
    (h : getUrlsPage ilike urls userId cursor limit search = .ok page) {u : Url} (hu : u ∈ page.urls) :
    ∃ r ∈ urls, r.decode = some u ∧
      pageRow ilike userId cursor (search.map fun s => "%" ++ s ++ "%") r = true := by
  simp only [getUrlsPage] at h
  split at h
  · cases h
  split at h
  · cases h
  · rename_i rows hrows
    have hmem : u ∈ rows := by
      split at h
      · obtain rfl := Except.ok.inj h
        exact List.mem_of_mem_dropLast hu
      · obtain rfl := Except.ok.inj h
        exact hu
    obtain ⟨r, hr, hdecode⟩ := mem_of_mapM_decode hrows u hmem
    exact ⟨r, (mem_pageRows hr).1, hdecode, (mem_pageRows hr).2⟩

/-- A page holds rows of its user. -/
theorem mem_getAllUrls {urls : List UrlRow} {userId : Uuid} {params : PaginationParams} {page : UrlsPage}
    (h : getAllUrls ilike urls userId params = .OK page) {u : Url} (hu : u ∈ page.urls) :
    ∃ r ∈ urls, r.decode = some u ∧ r.userId = userId := by
  simp only [getAllUrls] at h
  split at h
  · cases h
  · split at h
    · rename_i hpage
      obtain rfl := PageResponse.OK.inj h
      obtain ⟨r, hr, hdecode, hrow⟩ := mem_getUrlsPage hpage hu
      simp only [pageRow, Bool.and_eq_true, decide_eq_true_eq] at hrow
      exact ⟨r, hr, hdecode, hrow.1.1⟩
    · cases h

end Bittuly.Urls
