import Bittuly.Urls.Search
import Bittuly.Web.ListKeys

/-!
# The latest search

References: `web/src/pages/Dashboard.tsx`, `web/src/api/urls.ts`.

Only the user searches and loads more, and the rows do not change. Requests carry no identity and none is
given up, so an answer is taken for whatever the list is at when it arrives. Until the latest first page has
arrived that does no harm, since that page replaces the list. Later a page is in its place only if the
current search has it there.
-/

namespace Bittuly.Web

open Runs Urls

/-- The first `k` pages of a search, one after the other, and the cursor behind them. -/
inductive Pages (ilike : String → String → Bool) (urls : List UrlRow) (userId : Uuid) (query : String) :
    ℕ → List ShortenedUrl → Option String → Prop
  | first {page : UrlsPage} (hpage : getUrlsPage ilike urls userId none 20 query = some page) :
      Pages ilike urls userId query 1 page.urls page.nextCursor
  | next {k : ℕ} {listed : List ShortenedUrl} {cursor : String} {page : UrlsPage}
      (hpages : Pages ilike urls userId query k listed (some cursor))
      (hpage : getUrlsPage ilike urls userId (some cursor) 20 query = some page) :
      Pages ilike urls userId query (k + 1) (listed ++ page.urls) page.nextCursor

variable {ilike : String → String → Bool} {encode : ℤ → String} {userId : Uuid} {table : Table}
  {query : String}

/-! ## Pages of one search -/

/-- What a search sends. -/
def sent (query : String) : Option String :=
  if trim query ≠ "" then some (trim query) else none

/-- All rows of a search, newest first. -/
def results (ilike : String → String → Bool) (table : Table) (userId : Uuid) (query : String) :
    List UrlRow :=
  remaining ilike table.urls userId (sent query) none

/-- A request that is answered sends a plain search. -/
theorem plain_of_requestPage {params : PaginationParams} {page : UrlsPage}
    (h : requestPage ilike table.urls userId params = some page) : Plain params.search := by
  unfold requestPage at h
  rcases getAllUrls_cases ilike table userId params with hbad | ⟨-, herror⟩ | ⟨hplain, -⟩
  · rw [hbad] at h
    cases h
  · rw [herror] at h
    cases h
  · exact hplain

/-- The first page. -/
theorem getUrlsPage_first (table : Table) (hquery : Plain (sent query)) :
    getUrlsPage ilike table.urls userId none 20 query =
      some (shownPage (results ilike table userId query) 20) :=
  requestPage_first table (some 20) hquery

/-- The page behind the first `n` rows. -/
theorem getUrlsPage_next {n : ℕ} {cursor : String} (hquery : Plain (sent query))
    (hcursor : (pageOf (results ilike table userId query) n).nextCursor = some cursor) :
    n < (results ilike table userId query).length ∧
      getUrlsPage ilike table.urls userId (some cursor) 20 query =
        some (shownPage ((results ilike table userId query).drop n) 20) := by
  simp only [pageOf] at hcursor
  split at hcursor
  · rename_i hnext
    obtain ⟨last, hlast, rfl⟩ := Option.map_eq_some_iff.mp hcursor
    have hmem := mem_remaining.mp (List.mem_of_mem_take (List.mem_of_getLast? hlast))
    have hrange : ∀ c ∈ some last.urlId, c ∈ Set.Ioo (0 : ℤ) (2 ^ 63) := by
      rintro c ⟨⟩
      exact table.range last hmem.1
    have hparams : pageParams (some (lowerHex last.urlId)) 20 query =
        { cursor := (some last.urlId).map lowerHex, limit := some 20, search := sent query } := by
      simp [pageParams, sent, lowerHex_ne_empty]
    refine ⟨hnext, ?_⟩
    rw [getUrlsPage, hparams, requestPage_eq table hrange (some 20) hquery, results, remaining_last table hlast]
    rfl
  · cases hcursor

/-- The cursor behind the rows does not depend on where they begin. -/
theorem nextCursor_drop (rows : List UrlRow) {n : ℕ} (hn : n < rows.length) {m : ℕ} (hm : 0 < m) :
    (pageOf (rows.drop n) m).nextCursor = (pageOf rows (n + m)).nextCursor := by
  simp only [pageOf, List.length_drop]
  by_cases hnext : n + m < rows.length
  · have htake : rows.take (n + m) = rows.take n ++ (rows.drop n).take m := List.take_add
    have hne : (rows.drop n).take m ≠ [] := by
      rw [← List.length_pos_iff, List.length_take, List.length_drop]
      omega
    rw [if_pos (by omega), if_pos hnext, htake, List.getLast?_append_of_ne_nil _ hne]
  · rw [if_neg (by omega), if_neg hnext]

/-- A search that has pages is plain. -/
theorem Pages.plain {k : ℕ} {listed : List ShortenedUrl} {cursor : Option String}
    (h : Pages ilike table.urls userId query k listed cursor) : Plain (sent query) := by
  cases h with
  | first hpage => exact plain_of_requestPage hpage
  | next _ hpage => exact plain_of_requestPage hpage

/-- **The first `k` pages** are the first `20 * k` rows. -/
theorem Pages.spec {k : ℕ} {listed : List ShortenedUrl} {cursor : Option String}
    (h : Pages ilike table.urls userId query k listed cursor) :
    0 < k ∧ (k = 1 ∨ 20 * (k - 1) < (results ilike table userId query).length) ∧
      listed = ((results ilike table userId query).take (20 * k)).map shown ∧
      cursor = (pageOf (results ilike table userId query) (20 * k)).nextCursor := by
  induction h with
  | first hpage =>
    rw [getUrlsPage_first table (plain_of_requestPage hpage)] at hpage
    obtain rfl := Option.some.inj hpage
    exact ⟨Nat.one_pos, .inl rfl, rfl, rfl⟩
  | @next k listed cursor page hpages hpage ih =>
    obtain ⟨hk, -, rfl, hcursor⟩ := ih
    obtain ⟨hlen, hnext⟩ := getUrlsPage_next hpages.plain hcursor.symm
    obtain rfl := Option.some.inj (hnext.symm.trans hpage)
    refine ⟨Nat.succ_pos k, .inr hlen, ?_, ?_⟩
    · rw [Nat.mul_succ, List.take_add, List.map_append]
      rfl
    · rw [Nat.mul_succ, ← nextCursor_drop _ hlen (by decide)]
      rfl

/-- There is no cursor behind all rows. -/
theorem nextCursor_eq_none_iff {rows : List UrlRow} {n : ℕ} (hn : 0 < n) :
    (pageOf rows n).nextCursor = none ↔ rows.length ≤ n := by
  simp only [pageOf]
  split
  · rename_i hmore
    rw [Option.map_eq_none_iff, List.getLast?_eq_none_iff, List.take_eq_nil_iff, ← List.length_eq_zero_iff]
    omega
  · rename_i hall
    exact iff_of_true rfl (not_lt.mp hall)

/-- The size of a page, and no cursor without a row. -/
theorem size_of_requestPage {params : PaginationParams} (hlimit : params.limit = some 20) {page : UrlsPage}
    (h : requestPage ilike table.urls userId params = some page) :
    page.urls.length ≤ 20 ∧ (page.urls = [] → page.nextCursor = none) := by
  unfold requestPage at h
  rcases getAllUrls_cases ilike table userId params with hbad | ⟨-, herror⟩ | ⟨-, cursor, hok⟩
  · rw [hbad] at h
    cases h
  · rw [herror] at h
    cases h
  · rw [hok, hlimit] at h
    obtain rfl := Option.some.inj h
    generalize remaining ilike table.urls userId params.search cursor = rows
    refine ⟨?_, fun hempty => ?_⟩
    · simp only [pageOf, List.length_map, List.length_take]
      exact Nat.min_le_left _ _
    · simp only [pageOf, List.map_eq_nil_iff, List.take_eq_nil_iff] at hempty
      rcases hempty with hsize | rfl
      · exact absurd hsize (by decide)
      · rfl

variable {k : ℕ} {listed : List ShortenedUrl} {cursor : Option String} {page : UrlsPage}

/-- A single page shows a search exactly if it is its first. -/
theorem pages_single_iff (hsize : page.urls.length ≤ 20) :
    (∃ k, Pages ilike table.urls userId query k page.urls page.nextCursor) ↔
      getUrlsPage ilike table.urls userId none 20 query = some page := by
  constructor
  · rintro ⟨k, h⟩
    obtain ⟨hk, hlen, hurls, hcursor⟩ := h.spec
    have hone : k = 1 := by
      rw [hurls, List.length_map, List.length_take] at hsize
      omega
    obtain ⟨pageUrls, pageCursor⟩ := page
    obtain rfl : pageUrls = _ := hurls
    obtain rfl : pageCursor = _ := hcursor
    rw [getUrlsPage_first table h.plain, hone]
    rfl
  · intro hpage
    exact ⟨1, .first hpage⟩

/-- A page behind the first ones shows the search exactly if it is the next one, or nothing. -/
theorem pages_append_iff (h : Pages ilike table.urls userId query k listed cursor)
    (hsize : page.urls.length ≤ 20) (hempty : page.urls = [] → page.nextCursor = none) :
    (∃ m, Pages ilike table.urls userId query m (listed ++ page.urls) page.nextCursor) ↔
      (∃ c ∈ cursor, getUrlsPage ilike table.urls userId (some c) 20 query = some page) ∨
        page = { urls := [], nextCursor := cursor } := by
  constructor
  · rintro ⟨m, hm⟩
    obtain ⟨hk, -, hlisted, hcursor⟩ := h.spec
    obtain ⟨-, hlen, happend, hcursor'⟩ := hm.spec
    have hlength := congrArg List.length happend
    simp only [hlisted, List.length_append, List.length_map, List.length_take] at hlength
    cases hc : cursor with
    | none =>
      right
      have hall : (results ilike table userId query).length ≤ 20 * k :=
        (nextCursor_eq_none_iff (by omega)).mp (hcursor.symm.trans hc)
      have hnil : page.urls = [] := List.length_eq_zero_iff.mp (by omega)
      obtain ⟨pageUrls, pageCursor⟩ := page
      exact congrArg₂ UrlsPage.mk hnil (hempty hnil)
    | some c =>
      left
      obtain ⟨hmore, hnext⟩ := getUrlsPage_next h.plain (hcursor.symm.trans hc)
      have hne : page.urls ≠ [] := by
        intro hnil
        have hall := (nextCursor_eq_none_iff (by omega)).mp (hcursor'.symm.trans (hempty hnil))
        rw [hnil, List.length_nil] at hlength
        omega
      have hnext_m : m = k + 1 := by
        have hpos := List.length_pos_iff.mpr hne
        omega
      subst hnext_m
      rw [Nat.mul_succ, List.take_add, List.map_append, ← hlisted] at happend
      have hurls := List.append_cancel_left happend
      rw [Nat.mul_succ, ← nextCursor_drop _ hmore (by decide)] at hcursor'
      obtain ⟨pageUrls, pageCursor⟩ := page
      refine ⟨c, rfl, hnext.trans (congrArg some ?_)⟩
      exact (congrArg₂ UrlsPage.mk hurls hcursor').symm
  · rintro (⟨c, hc, hpage⟩ | rfl)
    · obtain rfl : cursor = some c := hc
      exact ⟨k + 1, .next h hpage⟩
    · rw [List.append_nil]
      exact ⟨k, h⟩

/-- A page depends on the rows of its user only. -/
theorem requestPage_congr {urls urls' : List UrlRow} (h : owned urls userId = owned urls' userId)
    (params : PaginationParams) :
    requestPage ilike urls userId params = requestPage ilike urls' userId params := by
  have hfilter : ∀ (rows : List UrlRow) (cursor : Option ℤ) (pattern : Option String),
      rows.filter (pageRow ilike userId cursor pattern) =
        (owned rows userId).filter (pageRow ilike userId cursor pattern) := by
    intro rows cursor pattern
    rw [owned, List.filter_filter]
    apply List.filter_congr
    intro r _
    simp only [pageRow]
    cases decide (r.userId = userId) <;> simp
  simp only [requestPage, getAllUrls, Urls.getUrlsPage, pageRows, hfilter urls, hfilter urls', h]

namespace Screen

/-! ## What the user sees -/

/-- The list is the first pages of the current search. -/
def Shows (ilike : String → String → Bool) (table : Table) (userId : Uuid) (s : Screen) : Prop :=
  (∃ k, 1 ≤ k ∧ Pages ilike table.urls userId s.dashboard.debouncedSearch k s.dashboard.urls
    s.dashboard.nextCursor) ∧ s.dashboard.hasMore = s.dashboard.nextCursor.isSome

/-- The latest request for a first page is in flight. -/
def Pending (s : Screen) : Prop :=
  s.latest ∈ s.calls.map Call.ticket

instance (s : Screen) : Decidable s.Pending :=
  inferInstanceAs (Decidable (_ ∈ _))

/-- The user searches and loads more; no request fails, as one that searches for U+0000 would, and every
page is read with these rows of theirs. -/
def Searching (table : Table) (userId : Uuid) (s : Screen) : ScreenEvent → Prop
  | .type _ | .debounce | .loadMore | .db _ | .arrive _ => True
  | .readPage i n =>
    (∀ urls ∈ s.db.history[n]?, owned urls userId = owned table.urls userId) ∧
      ∀ call ∈ s.calls[i]?, ∀ params ∈ call.request.params, Plain params.search
  | _ => False

/-- The current search has this page where the request puts it. -/
def InPlace (ilike : String → String → Bool) (table : Table) (userId : Uuid) (d : Dashboard)
    (page : UrlsPage) : Request → Prop
  | .more _ _ =>
    (∃ c ∈ d.nextCursor, getUrlsPage ilike table.urls userId (some c) 20 d.debouncedSearch = some page) ∨
      page = { urls := [], nextCursor := d.nextCursor }
  | _ => getUrlsPage ilike table.urls userId none 20 d.debouncedSearch = some page

/-- A page that arrives after the latest first page is in its place. -/
def Fits (ilike : String → String → Bool) (table : Table) (userId : Uuid) (s : Screen) :
    ScreenEvent → Prop
  | .arrive i => s.Pending ∨ ∀ call ∈ s.calls[i]?, ∀ page, call.answer = some (.page page) →
      InPlace ilike table userId s.dashboard page call.request
  | _ => True

/-! ## The events of a search -/

variable {s s' : Screen}

/-- The debounce timer fires with the search as it is. -/
theorem debounced_of_eq (heq : s.dashboard.searchQuery = s.dashboard.debouncedSearch) :
    s.debounced = { s with timer := false } := by
  simp only [debounced, Dashboard.debounce, if_pos heq]
  rfl

/-- The debounce timer fires with another search. -/
theorem debounced_of_ne (hne : s.dashboard.searchQuery ≠ s.dashboard.debouncedSearch) :
    s.debounced =
      { s with
        dashboard :=
          { s.dashboard with debouncedSearch := s.dashboard.searchQuery, isLoadingUrls := true }
        timer := false
        tickets := s.tickets + 1
        latest := s.tickets
        calls := s.calls ++
          [{ ticket := s.tickets, request := .search s.dashboard.searchQuery, addCall := none,
             answer := none }] } := by
  simp only [debounced, Dashboard.debounce, if_neg hne]
  rfl

/-- Loading more leaves the list, and may ask for a next page. -/
theorem loadMore_cases (s : Screen) :
    s.issue s.dashboard.handleLoadMore = s ∨
      ∃ c, s.issue s.dashboard.handleLoadMore =
        { s with
          dashboard := { s.dashboard with isLoadingMore := true }
          tickets := s.tickets + 1
          calls := s.calls ++
            [{ ticket := s.tickets, request := .more c s.dashboard.debouncedSearch, addCall := none,
               answer := none }] } := by
  unfold Dashboard.handleLoadMore
  split
  · exact .inl rfl
  · exact .inl rfl
  · rename_i c _ _
    split
    · exact .inl rfl
    · exact .inr ⟨c, rfl⟩

/-- A page is a page or fails. -/
theorem receive_pageAnswer (d : Dashboard) {request : Request} (urls : List UrlRow)
    (params : PaginationParams)
    (hrequest : (∃ query, request = .search query) ∨ ∃ c query, request = .more c query) :
    (d.receive request (pageAnswer ilike userId urls params)).2 = none := by
  unfold pageAnswer
  rcases hrequest with ⟨query, rfl⟩ | ⟨c, query, rfl⟩
  · split <;> rfl
  · split <;> rfl

theorem receive_hasMore {d : Dashboard} (h : d.hasMore = d.nextCursor.isSome) (request : Request)
    (answer : Answer) :
    (d.receive request answer).1.hasMore = (d.receive request answer).1.nextCursor.isSome := by
  unfold Dashboard.receive
  split <;> first | exact h | rfl

theorem receive_debouncedSearch (d : Dashboard) (request : Request) (answer : Answer) :
    (d.receive request answer).1.debouncedSearch = d.debouncedSearch := by
  unfold Dashboard.receive
  split <;> rfl

/-! ## What is in flight -/

/-- What the calls in flight are and what they will be answered with. -/
structure Flights (ilike : String → String → Bool) (table : Table) (userId : Uuid) (s : Screen) : Prop where
  tickets : ∀ call ∈ s.calls, call.ticket < s.tickets
  latest_lt : s.latest < s.tickets
  /-- The latest first page is of the current search. -/
  latest : ∀ call ∈ s.calls, call.ticket = s.latest → call.request = .search s.dashboard.debouncedSearch
  pages : ∀ call ∈ s.calls,
    (∃ query, call.request = .search query) ∨ ∃ c query, call.request = .more c query
  answers : ∀ call ∈ s.calls, ∀ answer ∈ call.answer, ∀ params ∈ call.request.params,
    Plain params.search ∧ answer = pageAnswer ilike userId table.urls params
  hasMore : s.dashboard.hasMore = s.dashboard.nextCursor.isSome

namespace Flights

theorem mount (db : Db) : (mount db).Flights ilike table userId where
  tickets := by
    intro call hcall
    rw [List.mem_singleton.mp hcall]
    exact Nat.one_pos
  latest_lt := Nat.one_pos
  latest := by
    intro call hcall _
    rw [List.mem_singleton.mp hcall]
    rfl
  pages := by
    intro call hcall
    rw [List.mem_singleton.mp hcall]
    exact .inl ⟨"", rfl⟩
  answers := by
    intro call hcall answer hanswer
    rw [List.mem_singleton.mp hcall] at hanswer
    cases hanswer
  hasMore := rfl

/-- What a call in flight asks for, and is answered with. -/
theorem exists_params (h : s.Flights ilike table userId) {call : Call} (hcall : call ∈ s.calls) :
    ∃ params, call.request.params = some params ∧ params.limit = some 20 ∧
      ∀ answer ∈ call.answer, answer = pageAnswer ilike userId table.urls params := by
  have hanswers : ∀ answer ∈ call.answer, ∀ params ∈ call.request.params,
      answer = pageAnswer ilike userId table.urls params :=
    fun answer hanswer params hparams => (h.answers call hcall answer hanswer params hparams).2
  rcases h.pages call hcall with ⟨query, hrequest⟩ | ⟨c, query, hrequest⟩
  · rw [hrequest] at hanswers ⊢
    exact ⟨_, rfl, rfl, fun answer hanswer => hanswers answer hanswer _ rfl⟩
  · rw [hrequest] at hanswers ⊢
    exact ⟨_, rfl, rfl, fun answer hanswer => hanswers answer hanswer _ rfl⟩

/-- An answer that arrives changes the dashboard and is gone. -/
theorem arrived (h : s.Flights ilike table userId) {i : ℕ} {call : Call} {answer : Answer}
    (hcall : s.calls[i]? = some call) (hanswer : call.answer = some answer) :
    Screen.issue { s with calls := s.calls.eraseIdx i } (s.dashboard.receive call.request answer) =
      { s with
        calls := s.calls.eraseIdx i, dashboard := (s.dashboard.receive call.request answer).1 } := by
  have hmem := List.mem_of_getElem? hcall
  obtain ⟨params, -, -, hanswers⟩ := h.exists_params hmem
  have hnone : (s.dashboard.receive call.request answer).2 = none := by
    rw [hanswers answer hanswer]
    exact receive_pageAnswer _ _ _ (h.pages call hmem)
  rw [← Prod.eta (s.dashboard.receive call.request answer), hnone]
  rfl

/-- One more request for a page. -/
theorem push (h : s.Flights ilike table userId) {request : Request}
    (hrequest : (∃ query, request = .search query) ∨ ∃ c query, request = .more c query) :
    let call : Call := { ticket := s.tickets, request, addCall := none, answer := none }
    (∀ call' ∈ s.calls ++ [call], call'.ticket < s.tickets + 1) ∧
      (∀ call' ∈ s.calls ++ [call],
        (∃ query, call'.request = .search query) ∨ ∃ c query, call'.request = .more c query) ∧
      ∀ call' ∈ s.calls ++ [call], ∀ answer ∈ call'.answer, ∀ params ∈ call'.request.params,
        Plain params.search ∧ answer = pageAnswer ilike userId table.urls params := by
  simp only [List.forall_mem_append, List.forall_mem_singleton]
  refine ⟨⟨?_, Nat.lt_succ_self _⟩, ⟨h.pages, hrequest⟩, h.answers, fun _ hanswer => nomatch hanswer⟩
  intro call hcall
  exact (h.tickets call hcall).trans (Nat.lt_succ_self _)

/-- A call in flight is answered. -/
theorem reply (h : s.Flights ilike table userId) {i : ℕ} {call : Call} {answer : Answer}
    (hcall : call ∈ s.calls)
    (hread : ∀ params ∈ call.request.params,
      Plain params.search ∧ answer = pageAnswer ilike userId table.urls params) :
    (s.reply i call answer).Flights ilike table userId where
  tickets := forall_mem_reply h.tickets (h.tickets call hcall)
  latest_lt := h.latest_lt
  latest := forall_mem_reply h.latest (h.latest call hcall)
  pages := forall_mem_reply h.pages (h.pages call hcall)
  answers := by
    apply forall_mem_reply h.answers
    intro answer' hanswer'
    obtain rfl := Option.some.inj hanswer'
    exact hread
  hasMore := h.hasMore

theorem step {e : ScreenEvent} (h : s.Flights ilike table userId) (hP : s.Searching table userId e)
    (hstep : s.step ilike encode userId e = some s') : s'.Flights ilike table userId := by
  cases fired_of_step hstep with
  | type _ => exact ⟨h.tickets, h.latest_lt, h.latest, h.pages, h.answers, h.hasMore⟩
  | debounce _ =>
    by_cases heq : s.dashboard.searchQuery = s.dashboard.debouncedSearch
    · rw [debounced_of_eq heq]
      exact ⟨h.tickets, h.latest_lt, h.latest, h.pages, h.answers, h.hasMore⟩
    · rw [debounced_of_ne heq]
      obtain ⟨htickets, hpages, hanswers⟩ := h.push (.inl ⟨s.dashboard.searchQuery, rfl⟩)
      refine ⟨htickets, Nat.lt_succ_self _, ?_, hpages, hanswers, h.hasMore⟩
      intro call hcall hlatest
      rcases List.mem_append.mp hcall with hold | hnew
      · exact absurd hlatest (h.tickets call hold).ne
      · rw [List.mem_singleton.mp hnew]
  | loadMore _ _ _ =>
    rcases loadMore_cases s with heq | ⟨c, heq⟩
    · rw [heq]
      exact h
    · rw [heq]
      obtain ⟨htickets, hpages, hanswers⟩ := h.push (.inr ⟨c, s.dashboard.debouncedSearch, rfl⟩)
      refine ⟨htickets, h.latest_lt.trans (Nat.lt_succ_self _), ?_, hpages, hanswers, h.hasMore⟩
      intro call hcall hlatest
      rcases List.mem_append.mp hcall with hold | hnew
      · exact h.latest call hold hlatest
      · rw [List.mem_singleton.mp hnew] at hlatest
        exact absurd hlatest h.latest_lt.ne'
  | @readPage i n call urls params hcall htable hanswer hparams =>
    apply h.reply (List.mem_of_getElem? hcall)
    intro params' hparams'
    obtain rfl := Option.some.inj (hparams.symm.trans hparams')
    refine ⟨hP.2 call hcall params hparams, ?_⟩
    rw [pageAnswer, pageAnswer, requestPage_congr (hP.1 urls htable)]
  | db _ => exact ⟨h.tickets, h.latest_lt, h.latest, h.pages, h.answers, h.hasMore⟩
  | @arrive i call answer hcall hanswer =>
    rw [h.arrived hcall hanswer]
    refine ⟨?_, h.latest_lt, ?_, ?_, ?_, receive_hasMore h.hasMore _ _⟩
    · exact fun call' hcall' => h.tickets call' (List.mem_of_mem_eraseIdx hcall')
    · intro call' hcall' hlatest
      rw [receive_debouncedSearch]
      exact h.latest call' (List.mem_of_mem_eraseIdx hcall') hlatest
    · exact fun call' hcall' => h.pages call' (List.mem_of_mem_eraseIdx hcall')
    · exact fun call' hcall' => h.answers call' (List.mem_of_mem_eraseIdx hcall')
  | shorten _ _ _ => exact hP.elim
  | delete _ => exact hP.elim
  | beginCreate _ _ _ => exact hP.elim
  | finishCreate _ _ _ => exact hP.elim
  | deleteRow _ _ _ => exact hP.elim
  | fail _ => exact hP.elim

end Flights

/-! ## The list of the current search -/

/-- The list is that of the current search, or will be replaced by it. -/
def Current (ilike : String → String → Bool) (table : Table) (userId : Uuid) (s : Screen) : Prop :=
  s.Pending ∨ s.Shows ilike table userId

theorem shows_iff (h : s.dashboard.hasMore = s.dashboard.nextCursor.isSome) :
    s.Shows ilike table userId ↔ ∃ k, Pages ilike table.urls userId s.dashboard.debouncedSearch k
      s.dashboard.urls s.dashboard.nextCursor := by
  constructor
  · rintro ⟨⟨k, -, hpages⟩, -⟩
    exact ⟨k, hpages⟩
  · rintro ⟨k, hpages⟩
    exact ⟨⟨k, hpages.spec.1, hpages⟩, h⟩

/-- A call that is not the arriving one stays in flight. -/
theorem pending_eraseIdx (hpending : s.Pending) {i : ℕ} {call : Call} (hcall : s.calls[i]? = some call)
    (hother : call.ticket ≠ s.latest) : s.latest ∈ (s.calls.eraseIdx i).map Call.ticket := by
  obtain ⟨call', hcall', hlatest⟩ := List.mem_map.mp hpending
  refine List.mem_map.mpr ⟨call', ?_, hlatest⟩
  obtain ⟨j, hj⟩ := List.mem_iff_getElem?.mp hcall'
  have hne : j ≠ i := by
    rintro rfl
    obtain rfl := Option.some.inj (hj.symm.trans hcall)
    exact hother hlatest
  exact List.mem_eraseIdx_iff_getElem?.mpr ⟨j, hne, hj⟩

/-- **The latest first page replaces the list** by that of the current search. -/
theorem shows_of_latest (h : s.Flights ilike table userId) {call : Call} (hcall : call ∈ s.calls)
    (hlatest : call.ticket = s.latest) {answer : Answer} (hanswer : call.answer = some answer) :
    ∃ k, Pages ilike table.urls userId s.dashboard.debouncedSearch k
      (s.dashboard.receive call.request answer).1.urls
      (s.dashboard.receive call.request answer).1.nextCursor := by
  have hrequest := h.latest call hcall hlatest
  have hpage := h.answers call hcall answer hanswer
  rw [hrequest] at hpage ⊢
  obtain ⟨hplain, rfl⟩ := hpage _ rfl
  have hfirst : getUrlsPage ilike table.urls userId none 20 s.dashboard.debouncedSearch = some _ :=
    getUrlsPage_first table hplain
  refine ⟨1, ?_⟩
  rw [pageAnswer, ← getUrlsPage, hfirst]
  exact .first hfirst

/-- **An answer to a list of the current search keeps it one exactly if it is in its place.** -/
theorem receive_shows_iff {d : Dashboard} {request : Request} {params : PaginationParams} {k : ℕ}
    (hpages : Pages ilike table.urls userId d.debouncedSearch k d.urls d.nextCursor)
    (hrequest : (∃ query, request = .search query) ∨ ∃ c query, request = .more c query)
    (hlimit : params.limit = some 20) :
    (∃ k, Pages ilike table.urls userId d.debouncedSearch k
        (d.receive request (pageAnswer ilike userId table.urls params)).1.urls
        (d.receive request (pageAnswer ilike userId table.urls params)).1.nextCursor) ↔
      ∀ page, pageAnswer ilike userId table.urls params = .page page →
        InPlace ilike table userId d page request := by
  unfold pageAnswer
  cases hpage : requestPage ilike table.urls userId params with
  | none =>
    refine iff_of_true ⟨k, ?_⟩ fun page hne => nomatch hne
    rcases hrequest with ⟨query, rfl⟩ | ⟨c, query, rfl⟩ <;> exact hpages
  | some page =>
    obtain ⟨hsize, hempty⟩ := size_of_requestPage hlimit hpage
    simp only [Answer.page.injEq, forall_eq']
    rcases hrequest with ⟨query, rfl⟩ | ⟨c, query, rfl⟩
    · exact pages_single_iff hsize
    · exact pages_append_iff hpages hsize hempty

theorem current_arrive_iff (h : s.Flights ilike table userId) (hs : s.Current ilike table userId) {i : ℕ}
    {call : Call} {answer : Answer} (hcall : s.calls[i]? = some call)
    (hanswer : call.answer = some answer) :
    Current ilike table userId
        { s with
          calls := s.calls.eraseIdx i, dashboard := (s.dashboard.receive call.request answer).1 } ↔
      s.Fits ilike table userId (.arrive i) := by
  have hmem := List.mem_of_getElem? hcall
  have hshows : Shows ilike table userId { s with
        calls := s.calls.eraseIdx i, dashboard := (s.dashboard.receive call.request answer).1 } ↔
      ∃ k, Pages ilike table.urls userId s.dashboard.debouncedSearch k
        (s.dashboard.receive call.request answer).1.urls
        (s.dashboard.receive call.request answer).1.nextCursor := by
    rw [shows_iff (receive_hasMore h.hasMore call.request answer), receive_debouncedSearch]
  by_cases hpending : s.Pending
  · refine iff_of_true ?_ (.inl hpending)
    by_cases hlatest : call.ticket = s.latest
    · exact .inr (hshows.mpr (shows_of_latest h hmem hlatest hanswer))
    · exact .inl (pending_eraseIdx hpending hcall hlatest)
  · obtain ⟨⟨k, -, hpages⟩, -⟩ := hs.resolve_left hpending
    obtain ⟨params, -, hlimit, hanswers⟩ := h.exists_params hmem
    obtain rfl := hanswers answer hanswer
    have hnotPending : ¬ Pending { s with
        calls := s.calls.eraseIdx i
        dashboard := (s.dashboard.receive call.request (pageAnswer ilike userId table.urls params)).1 } := by
      intro hstill
      exact hpending (List.map_subset _ List.eraseIdx_subset hstill)
    simp only [Current, or_iff_right hnotPending, hshows, Fits, or_iff_right hpending, hcall, hanswer,
      Option.mem_def, Option.some.injEq, forall_eq']
    exact receive_shows_iff hpages (h.pages call hmem) hlimit

/-- **A step keeps the list current exactly if what arrives fits.** -/
theorem current_step_iff {e : ScreenEvent} (h : s.Flights ilike table userId)
    (hs : s.Current ilike table userId) (hP : s.Searching table userId e)
    (hstep : s.step ilike encode userId e = some s') :
    s'.Current ilike table userId ↔ s.Fits ilike table userId e := by
  cases fired_of_step hstep with
  | type _ => exact iff_of_true hs trivial
  | debounce _ =>
    refine iff_of_true ?_ trivial
    by_cases heq : s.dashboard.searchQuery = s.dashboard.debouncedSearch
    · rw [debounced_of_eq heq]
      exact hs
    · rw [debounced_of_ne heq]
      left
      simp only [Pending, List.map_append, List.map_cons, List.map_nil]
      exact List.mem_append_right _ List.mem_cons_self
  | loadMore _ _ _ =>
    refine iff_of_true ?_ trivial
    rcases loadMore_cases s with heq | ⟨c, heq⟩
    · rw [heq]
      exact hs
    · rw [heq]
      refine hs.imp (fun hpending => ?_) id
      simp only [Pending, List.map_append]
      exact List.mem_append_left _ hpending
  | @readPage i n call urls params hcall htable hanswer hparams =>
    refine iff_of_true (hs.imp (fun hpending => ?_) id) trivial
    have hticket : (s.calls.map Call.ticket).set i call.ticket = s.calls.map Call.ticket := by
      obtain ⟨hi, rfl⟩ := List.getElem?_eq_some_iff.mp hcall
      rw [← List.getElem_map Call.ticket (h := by rwa [List.length_map])]
      exact List.set_getElem_self _
    simp only [Pending, reply, List.map_set]
    rwa [hticket]
  | db _ => exact iff_of_true hs trivial
  | @arrive i call answer hcall hanswer =>
    rw [h.arrived hcall hanswer]
    exact current_arrive_iff h hs hcall hanswer
  | shorten _ _ _ => exact hP.elim
  | delete _ => exact hP.elim
  | beginCreate _ _ _ => exact hP.elim
  | finishCreate _ _ _ => exact hP.elim
  | deleteRow _ _ _ => exact hP.elim
  | fail _ => exact hP.elim

/-- **The latest search wins exactly as long as what arrives after its first page is in its place.** -/
theorem latest_search_wins {db : Db} {es : List ScreenEvent} {s : Screen}
    (hrun : Run (step ilike encode userId) (Searching table userId) (mount db) es s) :
    ((∀ es' u, es' <+: es → Run (step ilike encode userId) (Searching table userId) (mount db) es' u →
        u.Current ilike table userId) ↔
      Run (step ilike encode userId) (Fits ilike table userId) (mount db) es s) ∧
    (Run (step ilike encode userId) (Fits ilike table userId) (mount db) es s → s.calls = [] →
      s.Shows ilike table userId) := by
  have hinv : ∀ s e s', s.Flights ilike table userId → Searching table userId s e →
      s.step ilike encode userId e = some s' → s'.Flights ilike table userId :=
    fun _ _ _ h hP hstep => h.step hP hstep
  have hiff : ∀ s e s', s.Flights ilike table userId → s.Current ilike table userId →
      Searching table userId s e → s.step ilike encode userId e = some s' →
      (s'.Current ilike table userId ↔ s.Fits ilike table userId e) :=
    fun _ _ _ h hs hP hstep => current_step_iff h hs hP hstep
  have hmount : (mount db).Current ilike table userId := .inl (List.mem_singleton_self _)
  have halways := hrun.always_iff hinv hiff (.mount db) hmount
  refine ⟨halways, fun hfits hquiet => ?_⟩
  rcases halways.mpr hfits es s (List.prefix_refl es) hrun with hpending | hshows
  · rw [Pending, hquiet] at hpending
    cases hpending
  · exact hshows

/-- The dashboard is mounted and a search is typed; the first pages, without and with it, are answered. -/
def searchedScreen (plain search : Option Answer) : Screen :=
  { mount expiringDb with
    dashboard := { Dashboard.mounted with searchQuery := "b", debouncedSearch := "b" }
    timer := false
    tickets := 2
    latest := 1
    calls :=
      [{ ticket := 0, request := .search "", addCall := none, answer := plain },
        { ticket := 1, request := .search "b", addCall := none, answer := search }] }

/-- The only link. -/
def plainAnswer : Answer :=
  .page { urls := [shown expiringLink], nextCursor := none }

/-- The search does not find it. -/
def searchAnswer : Answer :=
  .page { urls := [], nextCursor := none }

theorem results_expiring :
    results (Urls.ilike Char.toLower) expiringTable 7 "" = [expiringLink] ∧
      results (Urls.ilike Char.toLower) expiringTable 7 "b" = [] := by
  have hsorted : expiringTable.urls.Pairwise fun a b => b.urlId ≤ a.urlId := List.pairwise_singleton _ _
  constructor
  · rw [results, remaining_of_pairwise hsorted]
    decide
  · rw [results, remaining_of_pairwise hsorted]
    decide

/-- The answer to a first page of the only link. -/
theorem pageAnswer_expiring {query : String} (hquery : Plain (sent query)) {rows : List UrlRow}
    (hrows : results (Urls.ilike Char.toLower) expiringTable 7 query = rows) :
    pageAnswer (Urls.ilike Char.toLower) 7 [expiringLink] (pageParams none 20 query) = .page (shownPage rows 20) := by
  have hpage : requestPage (Urls.ilike Char.toLower) [expiringLink] 7 (pageParams none 20 query) = some _ :=
    getUrlsPage_first expiringTable hquery
  rw [pageAnswer, hpage, hrows]

theorem run_searched :
    Run (step (Urls.ilike Char.toLower) base62Encode 7)
      (fun s e => s.Searching expiringTable 7 e ∧ s.Fits (Urls.ilike Char.toLower) expiringTable 7 e) (mount expiringDb)
      [.type "b", .debounce, .readPage 0 1, .readPage 1 1]
      (searchedScreen (some plainAnswer) (some searchAnswer)) := by
  have hrows : ∀ urls ∈ some [expiringLink], owned urls 7 = owned expiringTable.urls 7 := by
    rintro urls ⟨⟩
    rfl
  have hempty : Plain (sent "") := by
    rw [show sent "" = none by decide]
    exact plain_none
  have hb : Plain (sent "b") := by
    rw [show sent "b" = some "b" by decide]
    rintro s ⟨⟩
    decide
  have hplain : (searchedScreen none none).step (Urls.ilike Char.toLower) base62Encode 7 (.readPage 0 1) =
      some (searchedScreen (some plainAnswer) none) := by
    show some (reply _ 0 _ (pageAnswer (Urls.ilike Char.toLower) 7 [expiringLink] (pageParams none 20 ""))) = _
    rw [pageAnswer_expiring hempty results_expiring.1]
    rfl
  have hsearch : (searchedScreen (some plainAnswer) none).step (Urls.ilike Char.toLower) base62Encode 7 (.readPage 1 1) =
      some (searchedScreen (some plainAnswer) (some searchAnswer)) := by
    show some (reply _ 1 _ (pageAnswer (Urls.ilike Char.toLower) 7 [expiringLink] (pageParams none 20 "b"))) = _
    rw [pageAnswer_expiring hb results_expiring.2]
    rfl
  have htyped : Run (step (Urls.ilike Char.toLower) base62Encode 7)
      (fun s e => s.Searching expiringTable 7 e ∧ s.Fits (Urls.ilike Char.toLower) expiringTable 7 e) (mount expiringDb)
      [.type "b", .debounce] (searchedScreen none none) :=
    .cons ⟨trivial, trivial⟩ rfl (.single ⟨trivial, trivial⟩ rfl)
  refine htyped.append (.cons ⟨⟨hrows, ?_⟩, trivial⟩ hplain (.single ⟨⟨hrows, ?_⟩, trivial⟩ hsearch))
  · rintro call ⟨⟩ params ⟨⟩
    exact hempty
  · rintro call ⟨⟩ params ⟨⟩
    exact hb

/-- The answers arrive in the order of the requests. -/
theorem latest_search_wins_in_order :
    ∃ es s, Run (step (Urls.ilike Char.toLower) base62Encode 7) (Searching expiringTable 7) (mount expiringDb) es s ∧
      s.dashboard.debouncedSearch = "b" ∧ s.Shows (Urls.ilike Char.toLower) expiringTable 7 := by
  have hlast : Run (step (Urls.ilike Char.toLower) base62Encode 7)
      (fun s e => s.Searching expiringTable 7 e ∧ s.Fits (Urls.ilike Char.toLower) expiringTable 7 e)
      (searchedScreen (some plainAnswer) (some searchAnswer)) [.arrive 0, .arrive 0] _ :=
    .cons ⟨trivial, .inl (by decide)⟩ rfl (.single ⟨trivial, .inl (by decide)⟩ rfl)
  have hrun := run_searched.append hlast
  refine ⟨_, _, hrun.mono fun _ _ h => h.1, rfl, ?_⟩
  exact (latest_search_wins (hrun.mono fun _ _ h => h.1)).2 (hrun.mono fun _ _ h => h.2) rfl

/-- The earlier search is answered last. -/
theorem earlier_search_stays :
    ∃ db es s, Run (step (Urls.ilike Char.toLower) base62Encode 7) (Searching expiringTable 7) (mount db) es s ∧
      s.calls = [] ∧ ¬ s.Shows (Urls.ilike Char.toLower) expiringTable 7 := by
  have hlast : Run (step (Urls.ilike Char.toLower) base62Encode 7) (Searching expiringTable 7)
      (searchedScreen (some plainAnswer) (some searchAnswer)) [.arrive 1, .arrive 0] _ :=
    .cons trivial rfl (.single trivial rfl)
  refine ⟨_, _, _, (run_searched.mono fun _ _ h => h.1).append hlast, rfl, ?_⟩
  rintro ⟨⟨k, -, hpages⟩, -⟩
  have hlisted := hpages.spec.2.2.1
  change [shown expiringLink] =
    ((results (Urls.ilike Char.toLower) expiringTable 7 "b").take (20 * k)).map shown at hlisted
  rw [results_expiring.2, List.take_nil] at hlisted
  cases hlisted

end Screen

end Bittuly.Web
