import Bittuly.Urls.Base62
import Bittuly.Urls.PageSpec
import Bittuly.Urls.Search

/-!
# The web client's links

References: `web/src/api/urls.ts`, `web/src/pages/Insights.tsx`, `web/src/pages/Profile.tsx`.

`ShortenedUrl` is what the client reads of a `Url`. A request that fails throws and is `none` here. Numbers
are integers: ids and counts stay below `2 ^ 53`, up to which a JavaScript number is exact.
-/

namespace Bittuly.Web

open Urls

structure ShortenedUrl where
  id : ℤ
  shortCode : String
  originalUrl : String
  clickCount : ℤ
  expiresAt : Option Instant
  createdAt : Instant
deriving DecidableEq, Repr

/-- The JSON of a `Url` as the client reads it. -/
def ShortenedUrl.ofUrl (u : Url) : ShortenedUrl where
  id := u.urlId
  shortCode := u.shortCode
  originalUrl := u.originalUrl
  clickCount := u.clickCount
  expiresAt := u.expiresAt
  createdAt := u.createdAt

structure UrlsPage where
  urls : List ShortenedUrl
  nextCursor : Option String
deriving DecidableEq, Repr

/-- White space and line ends of `String.prototype.trim`. -/
def isTrimmed (c : Char) : Bool :=
  let n := c.toNat
  (9 ≤ n && n ≤ 13) || n = 0x20 || n = 0xA0 || n = 0x1680 || (0x2000 ≤ n && n ≤ 0x200A) || n = 0x2028 ||
    n = 0x2029 || n = 0x202F || n = 0x205F || n = 0x3000 || n = 0xFEFF

/-- `String.prototype.trim`. -/
def trim (s : String) : String :=
  String.ofList ((s.toList.dropWhile isTrimmed).rdropWhile isTrimmed)

variable (ilike : String → String → Bool)

/-- `apiRequest` of a page. -/
def requestPage (rows : List UrlRow) (userId : Uuid) (params : PaginationParams) : Option UrlsPage :=
  match getAllUrls ilike rows userId params with
  | .OK page => some { urls := page.urls.map ShortenedUrl.ofUrl, nextCursor := page.nextCursor }
  | _ => none

/-- The parameters that `getUrlsPage` sends; an empty text is as good as none. -/
def pageParams (cursor : Option String) (limit : ℤ) (search : String) : PaginationParams where
  cursor := cursor.filter fun c => c ≠ ""
  limit := some limit
  search := if trim search ≠ "" then some (trim search) else none

def getUrlsPage (rows : List UrlRow) (userId : Uuid) (cursor : Option String) (limit : ℤ)
    (search : String) : Option UrlsPage :=
  requestPage ilike rows userId (pageParams cursor limit search)

def getUrls (rows : List UrlRow) (userId : Uuid) : Option (List ShortenedUrl) :=
  (requestPage ilike rows userId { cursor := none, limit := some 100, search := none }).map UrlsPage.urls

/-! ## Totals -/

/-- The totals of the insights page. -/
structure Insights where
  totalLinks : ℕ
  totalClicks : ℤ
  activeLinks : ℕ
  silentLinks : ℕ
deriving DecidableEq, Repr

def insights (urls : List ShortenedUrl) : Insights where
  totalLinks := urls.length
  totalClicks := urls.foldl (fun s u => s + u.clickCount) 0
  activeLinks := (urls.filter fun u => 0 < u.clickCount).length
  silentLinks := (urls.filter fun u => u.clickCount = 0).length

/-- The link count of the profile page. -/
def urlCount (urls : List ShortenedUrl) : ℕ :=
  urls.length

/-- The totals do not depend on the order. -/
theorem insights_perm {urls urls' : List ShortenedUrl} (h : urls.Perm urls') :
    insights urls = insights urls' := by
  have hclicks : urls.foldl (fun s u => s + u.clickCount) 0 = urls'.foldl (fun s u => s + u.clickCount) 0 :=
    h.foldl_eq' (fun x _ y _ s => Int.add_right_comm s x.clickCount y.clickCount) 0
  simp only [insights, h.length_eq, hclicks, (h.filter _).length_eq]

/-! ## What the client is given -/

variable {ilike} {userId : Uuid}

/-- The row as the client shows it. -/
def shown (r : UrlRow) : ShortenedUrl :=
  .ofUrl r.toUrl

/-- The first rows as a page of the client. -/
def shownPage (rows : List UrlRow) (n : ℕ) : UrlsPage where
  urls := (rows.take n).map shown
  nextCursor := (pageOf rows n).nextCursor

theorem requestPage_eq (table : Table) {cursor : Option ℤ}
    (hcursor : ∀ c ∈ cursor, c ∈ Set.Ioo (0 : ℤ) (2 ^ 63)) (limit : Option ℤ) {search : Option String}
    (hsearch : Plain search) :
    requestPage ilike table.urls userId { cursor := cursor.map lowerHex, limit, search } =
      some (shownPage (remaining ilike table.urls userId search cursor) (pageSize limit)) := by
  simp only [requestPage, getAllUrls_eq table hcursor hsearch, shownPage, pageOf, List.map_map]
  rfl

/-- A first page. -/
theorem requestPage_first (table : Table) (limit : Option ℤ) {search : Option String}
    (hsearch : Plain search) :
    requestPage ilike table.urls userId { cursor := none, limit, search } =
      some (shownPage (remaining ilike table.urls userId search none) (pageSize limit)) := by
  have hcursor : ∀ c ∈ (none : Option ℤ), c ∈ Set.Ioo (0 : ℤ) (2 ^ 63) := fun _ h => nomatch h
  exact requestPage_eq table hcursor limit hsearch

/-- The rows of a user. -/
def owned (rows : List UrlRow) (userId : Uuid) : List UrlRow :=
  rows.filter fun r => r.userId = userId

/-- **The client is given the newest hundred** of the user's rows. -/
theorem exists_getUrls (ilike : String → String → Bool) (table : Table) (userId : Uuid) :
    ∃ rows : List UrlRow, rows.Perm (owned table.urls userId) ∧
      (rows.Pairwise fun a b => b.urlId < a.urlId) ∧
      getUrls ilike table.urls userId = some ((rows.take 100).map shown) := by
  refine ⟨remaining ilike table.urls userId none none, ?_, remaining_pairwise table, ?_⟩
  · refine (List.mergeSort_perm _ _).trans (List.Perm.of_eq (List.filter_congr ?_))
    intro r _
    simp [pageRow, searchPattern]
  · exact congrArg (Option.map UrlsPage.urls) (requestPage_first table (some 100) plain_none)

/-- No row looks like an older one. -/
theorem shown_notMem {rows : List UrlRow} (hrows : rows.Pairwise fun a b => b.urlId < a.urlId) {n : ℕ}
    {r : UrlRow} (hr : r ∈ rows.drop n) : shown r ∉ (rows.take n).map shown := by
  intro hmem
  obtain ⟨r', hr', heq⟩ := List.mem_map.mp hmem
  rw [← List.take_append_drop n rows] at hrows
  have hlt := (List.pairwise_append.mp hrows).2.2 r' hr' r hr
  exact hlt.ne' (congrArg ShortenedUrl.id heq)

theorem nodup_map_shown {rows : List UrlRow} (hrows : rows.Pairwise fun a b => b.urlId < a.urlId) :
    (rows.map shown).Nodup := by
  refine List.pairwise_map.mpr (hrows.imp ?_)
  intro a b hlt heq
  exact hlt.ne' (congrArg ShortenedUrl.id heq)

/-- Of more than a hundred rows the client is not given one. -/
theorem exists_missing {table : Table} {urls : List ShortenedUrl}
    (h : getUrls ilike table.urls userId = some urls) (hmany : 100 < (owned table.urls userId).length) :
    ∃ r ∈ table.urls, r.userId = userId ∧ shown r ∉ urls := by
  obtain ⟨rows, hperm, hsorted, hurls⟩ := exists_getUrls ilike table userId
  obtain rfl := Option.some.inj (hurls.symm.trans h)
  have hlen : 100 < rows.length := hperm.length_eq ▸ hmany
  have hmem : rows.get ⟨100, hlen⟩ ∈ rows.drop 100 := by
    rw [List.drop_eq_getElem_cons hlen]
    exact List.mem_cons_self
  have hown := List.mem_filter.mp (hperm.subset (List.mem_of_mem_drop hmem))
  exact ⟨_, hown.1, of_decide_eq_true hown.2, shown_notMem hsorted hmem⟩

/-- **The client has all links of a user exactly up to a hundred of them**, and so are its totals. -/
theorem getUrls_complete_iff (table : Table) (userId : Uuid) :
    ∃ urls, getUrls ilike table.urls userId = some urls ∧
      ((∀ r ∈ table.urls, r.userId = userId → urls.count (shown r) = 1) ↔
        (owned table.urls userId).length ≤ 100) ∧
      ((insights urls = insights ((owned table.urls userId).map shown) ∧
        urlCount urls = (owned table.urls userId).length) ↔ (owned table.urls userId).length ≤ 100) := by
  obtain ⟨rows, hperm, hsorted, hurls⟩ := exists_getUrls ilike table userId
  refine ⟨_, hurls, ⟨?_, ?_⟩, ?_, ?_⟩
  · intro hall
    by_contra hmany
    obtain ⟨r, hr, huser, hmissing⟩ := exists_missing hurls (not_le.mp hmany)
    exact hmissing (List.count_pos_iff.mp (hall r hr huser ▸ Nat.one_pos))
  · intro hfew r hr huser
    rw [List.take_of_length_le (hperm.length_eq ▸ hfew)]
    have hmem : r ∈ rows := hperm.mem_iff.mpr (List.mem_filter.mpr ⟨hr, decide_eq_true huser⟩)
    exact List.count_eq_one_of_mem (nodup_map_shown hsorted) (List.mem_map_of_mem hmem)
  · rintro ⟨-, hcount⟩
    rw [urlCount, List.length_map, List.length_take] at hcount
    omega
  · intro hfew
    rw [List.take_of_length_le (hperm.length_eq ▸ hfew)]
    refine ⟨insights_perm (hperm.map shown), ?_⟩
    rw [urlCount, List.length_map, hperm.length_eq]

/-- A link of the user `7`. -/
def sampleLink (n : ℕ) : UrlRow where
  urlId := n + 1
  shortCode := some (base62Encode (n + 1))
  originalUrl := "https://a.example/" ++ base62Encode (n + 1)
  userId := 7
  clickCount := 0
  expiresAt := none
  createdAt := 0
  updatedAt := 0

/-- One link more than the client asks for. -/
def sampleLinks : Table where
  urls := (List.range 101).map sampleLink
  ids := by
    rw [List.map_map]
    apply List.nodup_range.map
    intro m n h
    simpa [sampleLink] using h
  range := by
    intro r hr
    obtain ⟨n, hn, rfl⟩ := List.mem_map.mp hr
    rw [List.mem_range] at hn
    simp only [Set.mem_Ioo, sampleLink]
    omega
  coded := by
    intro r hr
    obtain ⟨n, -, rfl⟩ := List.mem_map.mp hr
    rfl

theorem getUrls_misses_link :
    ∃ urls, getUrls (Urls.ilike Char.toLower) sampleLinks.urls 7 = some urls ∧
      ∃ r ∈ sampleLinks.urls, r.userId = 7 ∧ urls.count (shown r) ≠ 1 := by
  obtain ⟨rows, -, -, hurls⟩ := exists_getUrls (Urls.ilike Char.toLower) sampleLinks 7
  have howned : owned sampleLinks.urls 7 = sampleLinks.urls := by
    apply List.filter_eq_self.mpr
    intro r hr
    obtain ⟨n, -, rfl⟩ := List.mem_map.mp hr
    rfl
  have hmany : 100 < (owned sampleLinks.urls 7).length := by
    rw [howned, sampleLinks, List.length_map, List.length_range]
    decide
  obtain ⟨r, hr, huser, hmissing⟩ := exists_missing hurls hmany
  refine ⟨_, hurls, r, hr, huser, ?_⟩
  rw [List.count_eq_zero_of_not_mem hmissing]
  decide

end Bittuly.Web
