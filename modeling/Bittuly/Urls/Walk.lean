import Bittuly.Lib.Run
import Bittuly.Urls.PageSpec
import Bittuly.Urls.Search

/-!
# Walking along the pages

References: `services/url-service/src/handlers.rs` (`get_all_urls`),
`services/url-service/src/repository.rs` (`get_urls_page`, `test_get_urls_page`).

A client asks for a first page, sends every `next_cursor` back and stops at `null`. Between two pages the
table may be another one. Where the client is, is one number: the id it will get ids below of.
-/

namespace Bittuly.Urls

open Runs

/-- One request of the walk: the table it is answered from and its `limit`. -/
structure PageRead where
  table : Table
  limit : Option ℤ

/-- What the client has and has been given. -/
structure Walk where
  cursor : Option String
  finished : Bool
  pages : List (List Url)

namespace Walk

def start : Walk where
  cursor := none
  finished := false
  pages := []

def seen (w : Walk) : List Url :=
  w.pages.flatten

/-- The answer to the next request. -/
def answer (ilike : String → String → Bool) (userId : Uuid) (search : Option String) (w : Walk)
    (read : PageRead) : PageResponse :=
  getAllUrls ilike read.table.urls userId { cursor := w.cursor, limit := read.limit, search }

/-- The walk goes on by a page; there is no step from `null`, and none by an error. -/
def step (ilike : String → String → Bool) (userId : Uuid) (search : Option String) (w : Walk)
    (read : PageRead) : Option Walk :=
  if w.finished then none
  else match w.answer ilike userId search read with
    | .OK page => some
        { cursor := page.nextCursor, finished := page.nextCursor.isNone, pages := w.pages ++ [page.urls] }
    | _ => none

variable {ilike : String → String → Bool} {userId : Uuid} {search : Option String} {pos : Option ℤ}

/-- The client goes on behind this id, or from the beginning. -/
structure At (pos : Option ℤ) (w : Walk) : Prop where
  finished : w.finished = false
  cursor : w.cursor = pos.map lowerHex
  range : ∀ c ∈ pos, c ∈ Set.Ioo (0 : ℤ) (2 ^ 63)

theorem at_start : At none start :=
  ⟨rfl, rfl, fun _ h => nomatch h⟩

/-- A client that goes on is answered with a page. -/
theorem At.answer_eq {w : Walk} (h : w.At pos) (hsearch : Plain search) (read : PageRead) :
    w.answer ilike userId search read =
      .OK (pageOf (remaining ilike read.table.urls userId search pos) (pageSize read.limit)) := by
  rw [answer, h.cursor, getAllUrls_eq read.table h.range hsearch]

/-- The next step of a client that goes on. -/
theorem At.step_eq {w : Walk} (h : w.At pos) (hsearch : Plain search) (read : PageRead) :
    step ilike userId search w read =
      let page := pageOf (remaining ilike read.table.urls userId search pos) (pageSize read.limit)
      some
        { cursor := page.nextCursor
          finished := page.nextCursor.isNone
          pages := w.pages ++ [page.urls] } := by
  rw [step, h.finished, if_neg Bool.false_ne_true, h.answer_eq hsearch]

/-! ## One page -/

/-- **One step of the walk**: the page is the last one, or the walk goes on behind its last row. -/
theorem At.step_cases {w w' : Walk} (h : w.At pos) (hsearch : Plain search) {read : PageRead}
    (hstep : step ilike userId search w read = some w') :
    ∃ page : List UrlRow, w'.pages = w.pages ++ [page.map UrlRow.toUrl] ∧
      (∀ r ∈ page, r ∈ remaining ilike read.table.urls userId search pos) ∧
      (page.Pairwise fun a b => b.urlId < a.urlId) ∧
      ((w'.finished = true ∧ page = remaining ilike read.table.urls userId search pos) ∨
        ∃ c, w'.At (some c) ∧ (∀ c' ∈ pos, c < c') ∧ (∀ r ∈ page, c ≤ r.urlId) ∧
          ∀ r ∈ remaining ilike read.table.urls userId search pos, c ≤ r.urlId → r ∈ page) := by
  rw [h.step_eq hsearch] at hstep
  obtain rfl := Option.some.inj hstep
  have hsorted : (remaining ilike read.table.urls userId search pos).Pairwise fun a b =>
      b.urlId < a.urlId := remaining_pairwise read.table
  have hmem : ∀ r ∈ remaining ilike read.table.urls userId search pos, r ∈ read.table.urls ∧ _ :=
    fun r hr => mem_remaining.mp hr
  generalize remaining ilike read.table.urls userId search pos = rows at hsorted hmem
  refine ⟨rows.take (pageSize read.limit), rfl, fun r => List.mem_of_mem_take,
    hsorted.sublist (List.take_sublist _ _), ?_⟩
  by_cases hnext : pageSize read.limit < rows.length
  · right
    have hne : rows.take (pageSize read.limit) ≠ [] := by
      have hpos := pageSize_pos read.limit
      rw [← List.length_pos_iff, List.length_take]
      omega
    have hlast := List.getLast?_eq_getLast_of_ne_nil hne
    generalize (rows.take (pageSize read.limit)).getLast hne = last at hlast
    obtain ⟨hle, hbelow⟩ := le_last_and_mem_take hsorted hlast
    have hrow := hmem last (List.mem_of_mem_take (List.mem_of_getLast? hlast))
    refine ⟨last.urlId, ⟨?_, ?_, ?_⟩, hrow.2.2, hle, hbelow⟩
    · simp only [pageOf, if_pos hnext, hlast, Option.map_some, Option.isNone_some]
    · simp only [pageOf, if_pos hnext, hlast, Option.map_some]
    · rintro c ⟨⟩
      exact read.table.range last hrow.1
  · left
    refine ⟨?_, List.take_of_length_le (by omega)⟩
    simp only [pageOf, if_neg hnext, Option.isNone_none]

/-! ## The rest of a walk -/

/-- The page holds listed rows of the table that it was read from. -/
def ReadFrom (ilike : String → String → Bool) (userId : Uuid) (search : Option String) (read : PageRead)
    (page : List Url) : Prop :=
  ∀ u ∈ page, ∃ r ∈ read.table.urls, Listed ilike userId search r ∧ r.decode = some u

/-- A listed row with this id was there whenever a page was read. -/
def Throughout (ilike : String → String → Bool) (userId : Uuid) (search : Option String)
    (reads : List PageRead) (id : ℤ) : Prop :=
  ∀ read ∈ reads, ∃ r ∈ read.table.urls, r.urlId = id ∧ Listed ilike userId search r

/-- What the pages of a walk from a place hold. -/
structure Rest (ilike : String → String → Bool) (userId : Uuid) (search : Option String) (pos : Option ℤ)
    (reads : List PageRead) (pages : List (List Url)) (finished : Bool) : Prop where
  readFrom : List.Forall₂ (ReadFrom ilike userId search) reads pages
  below : ∀ u ∈ pages.flatten, ∀ c ∈ pos, u.urlId < c
  decreasing : pages.flatten.Pairwise fun u v => v.urlId < u.urlId
  complete : finished = true → ∀ id, (∀ c ∈ pos, id < c) → Throughout ilike userId search reads id →
    ∃ u ∈ pages.flatten, u.urlId = id

/-- Rows that are listed and coded come out as they are. -/
theorem readFrom_map {read : PageRead} {page : List UrlRow}
    (h : ∀ r ∈ page, r ∈ remaining ilike read.table.urls userId search pos) :
    ReadFrom ilike userId search read (page.map UrlRow.toUrl) := by
  intro u hu
  obtain ⟨r, hr, rfl⟩ := List.mem_map.mp hu
  obtain ⟨hmem, hlisted, -⟩ := mem_remaining.mp (h r hr)
  exact ⟨r, hmem, hlisted, UrlRow.decode_of_coded (read.table.coded r hmem)⟩

/-- No page yet. -/
theorem Rest.nil : Rest ilike userId search pos [] [] false where
  readFrom := .nil
  below := fun _ hu => nomatch hu
  decreasing := .nil
  complete := fun hfinished => nomatch hfinished

/-- The last page. -/
theorem Rest.last {read : PageRead} :
    Rest ilike userId search pos [read]
      [(remaining ilike read.table.urls userId search pos).map UrlRow.toUrl] true where
  readFrom := .cons (readFrom_map fun _ hr => hr) .nil
  below := by
    intro u hu
    rw [List.flatten_singleton] at hu
    obtain ⟨r, hr, rfl⟩ := List.mem_map.mp hu
    exact (mem_remaining.mp hr).2.2
  decreasing := by
    rw [List.flatten_singleton, List.pairwise_map]
    exact remaining_pairwise read.table
  complete := by
    intro _ id hbelow hall
    obtain ⟨r, hr, rfl, hlisted⟩ := hall read List.mem_cons_self
    rw [List.flatten_singleton]
    exact ⟨r.toUrl, List.mem_map_of_mem (mem_remaining.mpr ⟨hr, hlisted, hbelow⟩), rfl⟩

/-- A page before the rest of the walk. -/
theorem Rest.cons {read : PageRead} {reads : List PageRead} {page : List UrlRow} {pages : List (List Url)}
    {finished : Bool} {c : ℤ} (hrest : Rest ilike userId search (some c) reads pages finished)
    (hmem : ∀ r ∈ page, r ∈ remaining ilike read.table.urls userId search pos)
    (hsorted : page.Pairwise fun a b => b.urlId < a.urlId) (hc : ∀ c' ∈ pos, c < c')
    (hle : ∀ r ∈ page, c ≤ r.urlId)
    (hall : ∀ r ∈ remaining ilike read.table.urls userId search pos, c ≤ r.urlId → r ∈ page) :
    Rest ilike userId search pos (read :: reads) (page.map UrlRow.toUrl :: pages) finished where
  readFrom := .cons (readFrom_map hmem) hrest.readFrom
  below := by
    intro u hu c' hc'
    rw [List.flatten_cons, List.mem_append] at hu
    rcases hu with hu | hu
    · obtain ⟨r, hr, rfl⟩ := List.mem_map.mp hu
      exact (mem_remaining.mp (hmem r hr)).2.2 c' hc'
    · exact (hrest.below u hu c rfl).trans (hc c' hc')
  decreasing := by
    rw [List.flatten_cons, List.pairwise_append, List.pairwise_map]
    refine ⟨hsorted, hrest.decreasing, ?_⟩
    intro u hu v hv
    obtain ⟨r, hr, rfl⟩ := List.mem_map.mp hu
    exact (hrest.below v hv c rfl).trans_le (hle r hr)
  complete := by
    intro hfinished id hbelow hthroughout
    rw [List.flatten_cons]
    by_cases hid : id < c
    · obtain ⟨u, hu, hurl⟩ := hrest.complete hfinished id (fun c' hc' => Option.some.inj hc' ▸ hid)
        fun read' hread' => hthroughout read' (List.mem_cons_of_mem _ hread')
      exact ⟨u, List.mem_append_right _ hu, hurl⟩
    · obtain ⟨r, hr, rfl, hlisted⟩ := hthroughout read List.mem_cons_self
      have hpage := hall r (mem_remaining.mpr ⟨hr, hlisted, hbelow⟩) (not_lt.mp hid)
      exact ⟨r.toUrl, List.mem_append_left _ (List.mem_map_of_mem hpage), rfl⟩

/-- A finished walk goes no further. -/
theorem eq_nil_of_finished {w w' : Walk} (hfinished : w.finished = true) {reads : List PageRead}
    (h : Run (step ilike userId search) Any w reads w') : reads = [] ∧ w' = w := by
  cases h with
  | nil => exact ⟨rfl, rfl⟩
  | cons _ hstep _ =>
    rw [step, if_pos hfinished] at hstep
    cases hstep

/-- **The run lemma of the walk**, from any place on the way. -/
theorem At.rest {w w' : Walk} (h : w.At pos) (hsearch : Plain search) {reads : List PageRead}
    (hrun : Run (step ilike userId search) Any w reads w') :
    ∃ pages, w'.pages = w.pages ++ pages ∧ Rest ilike userId search pos reads pages w'.finished ∧
      (w'.finished = false → ∃ pos', w'.At pos') := by
  induction hrun generalizing pos with
  | nil w =>
    refine ⟨[], (List.append_nil _).symm, ?_, fun _ => ⟨pos, h⟩⟩
    rw [h.finished]
    exact .nil
  | cons _ hstep hrest ih =>
    obtain ⟨page, hpages, hmem, hsorted, ⟨hfinished, rfl⟩ | ⟨c, hat, hc, hle, hall⟩⟩ := h.step_cases hsearch hstep
    · obtain ⟨rfl, rfl⟩ := eq_nil_of_finished hfinished hrest
      refine ⟨_, hpages, ?_, ?_⟩
      · rw [hfinished]
        exact .last
      · rw [hfinished]
        exact fun hne => nomatch hne
    · obtain ⟨pages, hpages', hrest, hnext⟩ := ih hat
      refine ⟨_, ?_, hrest.cons hmem hsorted hc hle hall, hnext⟩
      rw [hpages', hpages, List.append_assoc, List.singleton_append]

/-! ## The end of a walk -/

/-- **The walk ends**: the ids that a page can still show go down with every page. -/
theorem At.finishes {w : Walk} (h : w.At pos) (hsearch : Plain search) (reads : ℕ → PageRead) :
    ∃ n w', Run (step ilike userId search) Any w ((List.range n).map reads) w' ∧ w'.finished = true := by
  induction hbound : (pos.getD (2 ^ 63)).toNat using Nat.strong_induction_on generalizing pos w reads with
  | _ bound ih =>
    have hstep : step ilike userId search w (reads 0) = some _ := h.step_eq hsearch (reads 0)
    obtain ⟨page, -, -, -, ⟨hfinished, -⟩ | ⟨c, hat, hc, -⟩⟩ := h.step_cases hsearch hstep
    · exact ⟨1, _, .single trivial hstep, hfinished⟩
    · have hdown : c.toNat < bound := by
        have hrange := hat.range c rfl
        rw [Set.mem_Ioo] at hrange
        cases pos with
        | none =>
          rw [Option.getD_none] at hbound
          omega
        | some c' =>
          have hlt := hc c' rfl
          rw [Option.getD_some] at hbound
          omega
      obtain ⟨n, w', hrun, hfinished⟩ := ih c.toNat hdown hat (fun i => reads (i + 1)) rfl
      refine ⟨n + 1, w', ?_, hfinished⟩
      rw [List.range_succ_eq_map, List.map_cons, List.map_map]
      exact .cons trivial hstep hrun

/-- Whatever was shown was there. -/
theorem Rest.exists_read {reads : List PageRead} {pages : List (List Url)} {finished : Bool}
    (h : Rest ilike userId search pos reads pages finished) {u : Url} (hu : u ∈ pages.flatten) :
    ∃ read ∈ reads, ∃ r ∈ read.table.urls, Listed ilike userId search r ∧ r.decode = some u := by
  obtain ⟨page, hpage, hmem⟩ := List.mem_flatten.mp hu
  have hpages := h.readFrom
  clear h hu
  induction hpages with
  | nil => cases hpage
  | @cons read page' _ _ hread _ ih =>
    rcases List.mem_cons.mp hpage with rfl | hpage
    · exact ⟨read, List.mem_cons_self, hread u hmem⟩
    · obtain ⟨read', hread', hrow⟩ := ih hpage
      exact ⟨read', List.mem_cons_of_mem _ hread', hrow⟩

/-- What a finished walk over an unchanged table has seen. -/
theorem Rest.mem_iff {table : Table} {reads : List PageRead} {pages : List (List Url)}
    (h : Rest ilike userId search none reads pages true) (hreads : ∀ read ∈ reads, read.table = table)
    {u : Url} : u ∈ pages.flatten ↔ ∃ r ∈ table.urls, Listed ilike userId search r ∧ r.decode = some u := by
  have hfrom : ∀ v ∈ pages.flatten, ∃ r ∈ table.urls, Listed ilike userId search r ∧ r.decode = some v := by
    intro v hv
    obtain ⟨read, hread, hrow⟩ := h.exists_read hv
    rwa [hreads read hread] at hrow
  refine ⟨hfrom u, ?_⟩
  rintro ⟨r, hr, hlisted, hdecode⟩
  have hthroughout : Throughout ilike userId search reads r.urlId := by
    intro read hread
    rw [hreads read hread]
    exact ⟨r, hr, rfl, hlisted⟩
  obtain ⟨v, hv, hid⟩ := h.complete rfl r.urlId (fun _ hc => nomatch hc) hthroughout
  obtain ⟨r', hr', -, hdecode'⟩ := hfrom v hv
  -- the ids are a key, so the row that was shown is this one
  have hid' : r'.urlId = r.urlId := by
    rw [← hid, UrlRow.urlId_of_decode hdecode']
  obtain rfl := List.inj_on_of_nodup_map table.ids hr' hr hid'
  obtain rfl := Option.some.inj (hdecode.symm.trans hdecode')
  exact hv

/-- **A walk along the pages is complete and shows nothing twice**, whatever is written between two of
them. The search holds no U+0000. -/
theorem walk_complete {ilike : String → String → Bool} {userId : Uuid} {search : Option String}
    (hsearch : ∀ s ∈ search, hasNul s = false) {reads : List PageRead} {w : Walk}
    (hrun : Run (step ilike userId search) Any start reads w) :
    (w.finished = false → ∀ read, ∃ page, w.answer ilike userId search read = .OK page) ∧
      (w.seen.Pairwise fun u v => v.urlId < u.urlId) ∧
      List.Forall₂ (ReadFrom ilike userId search) reads w.pages ∧
      (w.finished = true → ∀ id, Throughout ilike userId search reads id → ∃ u ∈ w.seen, u.urlId = id) ∧
      (∀ later : ℕ → PageRead, ∃ n w', Run (step ilike userId search) Any w ((List.range n).map later) w' ∧
        w'.finished = true) ∧
      (w.finished = true → ∀ table, (∀ read ∈ reads, read.table = table) → ∀ u, u ∈ w.seen ↔
        ∃ r ∈ table.urls, Listed ilike userId search r ∧ r.decode = some u) := by
  obtain ⟨pages, hpages, hrest, hnext⟩ := at_start.rest hsearch hrun
  obtain rfl : w.pages = pages := hpages
  refine ⟨?_, hrest.decreasing, hrest.readFrom, ?_, ?_, ?_⟩
  · intro hfinished read
    obtain ⟨pos, hat⟩ := hnext hfinished
    exact ⟨_, hat.answer_eq hsearch read⟩
  · intro hfinished id hthroughout
    exact hrest.complete hfinished id (fun _ hc => nomatch hc) hthroughout
  · intro later
    cases hfinished : w.finished with
    | false =>
      obtain ⟨pos, hat⟩ := hnext hfinished
      exact hat.finishes hsearch later
    | true => exact ⟨0, w, .nil w, hfinished⟩
  · intro hfinished table hreads u
    rw [hfinished] at hrest
    exact hrest.mem_iff hreads

/-- A link of the user `7` with code `c`. -/
def walkRow (urlId : ℤ) (c : String) : UrlRow where
  urlId := urlId
  shortCode := some c
  originalUrl := "https://a.example/" ++ c
  userId := 7
  clickCount := 0
  expiresAt := none
  createdAt := 0
  updatedAt := 0

/-- Three links, read one at a time. -/
def walkBefore : PageRead where
  table :=
    { urls := [walkRow 3 "3", walkRow 2 "2", walkRow 1 "1"]
      ids := by decide
      range := by decide
      coded := by decide }
  limit := some 1

/-- The first of them is deleted and another one is there. -/
def walkAfter : PageRead where
  table :=
    { urls := [walkRow 4 "4", walkRow 2 "2", walkRow 1 "1"]
      ids := by decide
      range := by decide
      coded := by decide }
  limit := some 50

theorem walk_complete_of_two_pages :
    ∃ w, Run (step (Urls.ilike Char.toLower) 7 none) Any start [walkBefore, walkAfter] w ∧
      w.finished = true ∧ w.seen.map Url.urlId = [3, 2, 1] ∧
      (w.seen.Pairwise fun u v => v.urlId < u.urlId) ∧ ∃ u ∈ w.seen, u.urlId = 1 := by
  have hfirst : remaining (Urls.ilike Char.toLower) walkBefore.table.urls 7 none none =
      [walkRow 3 "3", walkRow 2 "2", walkRow 1 "1"] := by
    rw [remaining_of_pairwise (by decide)]
    rfl
  have hsecond : remaining (Urls.ilike Char.toLower) walkAfter.table.urls 7 none (some 3) =
      [walkRow 2 "2", walkRow 1 "1"] := by
    rw [remaining_of_pairwise (by decide)]
    rfl
  have hstep : step (Urls.ilike Char.toLower) 7 none start walkBefore = some _ :=
    at_start.step_eq plain_none walkBefore
  rw [hfirst] at hstep
  have hat : At (some 3)
      { cursor := some (lowerHex 3), finished := false, pages := [[(walkRow 3 "3").toUrl]] } :=
    ⟨rfl, rfl, by simp⟩
  have hstep' : step (Urls.ilike Char.toLower) 7 none _ walkAfter = some _ :=
    hat.step_eq plain_none walkAfter
  rw [hsecond] at hstep'
  have hrun : Run _ Any start [walkBefore, walkAfter] _ := .cons trivial hstep (.single trivial hstep')
  have hwalk := walk_complete plain_none hrun
  refine ⟨_, hrun, rfl, rfl, hwalk.2.1, hwalk.2.2.2.1 rfl 1 ?_⟩
  intro read hread
  refine ⟨walkRow 1 "1", ?_, rfl, rfl, fun _ hp => nomatch hp⟩
  rcases List.mem_pair.mp hread with rfl | rfl
  · decide
  · decide

/-- **A search with U+0000 lists nothing**: every request of its walk is answered 500. -/
theorem nul_search_fails :
    ¬ ∀ (search : Option String) (reads : ℕ → PageRead), ∃ n w,
      Run (step (Urls.ilike Char.toLower) 7 search) Any start ((List.range n).map reads) w ∧
        w.finished = true := by
  intro hall
  obtain ⟨n, w, hrun, hfinished⟩ := hall (some "\x00") fun _ => walkAfter
  have hstuck : step (Urls.ilike Char.toLower) 7 (some "\x00") start walkAfter = none := by
    have hplain : ¬ Plain (some "\x00") := fun h => absurd (h _ rfl) (by decide)
    have hanswer : start.answer (Urls.ilike Char.toLower) 7 (some "\x00") walkAfter =
        .INTERNAL_SERVER_ERROR := by
      rw [answer, getAllUrls]
      simp only [start, getUrlsPage_error hplain]
    rw [step, hanswer]
    rfl
  cases n with
  | zero =>
    cases hrun
    cases hfinished
  | succ n =>
    rw [List.range_succ_eq_map, List.map_cons] at hrun
    cases hrun with
    | cons _ hstep _ =>
      rw [hstuck] at hstep
      cases hstep

end Walk

end Bittuly.Urls
