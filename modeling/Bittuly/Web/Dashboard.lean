import Bittuly.Lib.Run
import Bittuly.Urls.Store
import Bittuly.Web.Urls

/-!
# The dashboard

References: `web/src/pages/Dashboard.tsx`, `web/src/api/urls.ts`,
`services/url-service/src/repository.rs` (`get_urls_page`, `add_shorten_url`, `delete_url`).

`Dashboard` is the state of the component, with one function for each effect, handler and answer. A
`Screen` is a mounted dashboard with its requests and the database behind it: an answer is made when the
server reads or writes, from any committed table for a page, and arrives whole at any later time. Statements of
other parties come in between. Effects run once, as without `StrictMode`.
-/

namespace Bittuly.Web

open Runs Urls

/-! ## The component -/

structure Dashboard where
  urls : List ShortenedUrl
  isShortening : Bool
  isLoadingUrls : Bool
  isLoadingMore : Bool
  nextCursor : Option String
  hasMore : Bool
  searchQuery : String
  debouncedSearch : String
deriving DecidableEq, Repr

/-- The requests that the dashboard makes. -/
inductive Request
  /-- A first page, on mount and when the search changes. -/
  | search (query : String)
  /-- A next page. -/
  | more (cursor : String) (query : String)
  | create (originalUrl : String) (expiresAt : Option Instant)
  | delete (id : ℤ)
  /-- The first page after a deletion that failed. -/
  | reload
deriving DecidableEq, Repr

/-- What a request resolves to, or throws. -/
inductive Answer
  | page (page : UrlsPage)
  | created (url : ShortenedUrl)
  | deleted
  | failed
deriving DecidableEq, Repr

namespace Dashboard

def mounted : Dashboard where
  urls := []
  isShortening := false
  isLoadingUrls := true
  isLoadingMore := false
  nextCursor := none
  hasMore := false
  searchQuery := ""
  debouncedSearch := ""

/-- The list is shown. -/
def listed (d : Dashboard) : Bool :=
  !d.isLoadingUrls && d.urls ≠ []

/-- `setDebouncedSearch`, and the effect when it has changed. -/
def debounce (d : Dashboard) : Dashboard × Option Request :=
  if d.searchQuery = d.debouncedSearch then (d, none)
  else ({ d with debouncedSearch := d.searchQuery, isLoadingUrls := true }, some (.search d.searchQuery))

def handleLoadMore (d : Dashboard) : Dashboard × Option Request :=
  match d.nextCursor with
  | none | some "" => (d, none)
  | some cursor =>
    if d.isLoadingMore then (d, none)
    else ({ d with isLoadingMore := true }, some (.more cursor d.debouncedSearch))

/-- `handleShorten` with a valid URL. -/
def handleShorten (d : Dashboard) (originalUrl : String) (expiresAt : Option Instant) :
    Dashboard × Option Request :=
  ({ d with isShortening := true }, some (.create originalUrl expiresAt))

def handleDelete (d : Dashboard) (id : ℤ) : Dashboard × Option Request :=
  ({ d with urls := d.urls.filter fun u => u.id ≠ id }, some (.delete id))

/-- A first page replaces the list. -/
def setPage (d : Dashboard) (page : UrlsPage) : Dashboard :=
  { d with urls := page.urls, nextCursor := page.nextCursor, hasMore := page.nextCursor.isSome }

/-- A next page is appended. -/
def addPage (d : Dashboard) (page : UrlsPage) : Dashboard :=
  { d with
    urls := d.urls ++ page.urls, nextCursor := page.nextCursor, hasMore := page.nextCursor.isSome }

/-- What follows an answer: `then`, `catch` and `finally`. -/
def receive (d : Dashboard) : Request → Answer → Dashboard × Option Request
  | .search _, .page page => ({ d.setPage page with isLoadingUrls := false }, none)
  | .search _, _ => ({ d with isLoadingUrls := false }, none)
  | .more _ _, .page page => ({ d.addPage page with isLoadingMore := false }, none)
  | .more _ _, _ => ({ d with isLoadingMore := false }, none)
  | .create _ _, .created url => ({ d with urls := url :: d.urls, isShortening := false }, none)
  | .create _ _, _ => ({ d with isShortening := false }, none)
  | .delete _, .deleted => (d, none)
  | .delete _, _ => (d, some .reload)
  | .reload, .page page => (d.setPage page, none)
  | .reload, _ => (d, none)

end Dashboard

/-- What a request for a page sends. -/
def Request.params : Request → Option PaginationParams
  | .search query => some (pageParams none 20 query)
  | .more cursor query => some (pageParams (some cursor) 20 query)
  | .reload => some (pageParams none 20 "")
  | .create _ _ | .delete _ => none

/-! ## The screen and its server -/

/-- A request in flight. -/
structure Call where
  ticket : ℕ
  request : Request
  /-- The call of `add_shorten_url` that it has made. -/
  addCall : Option ℕ
  answer : Option Answer
deriving DecidableEq, Repr

structure Screen where
  dashboard : Dashboard
  /-- The debounce timer is running. -/
  timer : Bool
  /-- The number of requests made. -/
  tickets : ℕ
  /-- The latest request of the search effect. -/
  latest : ℕ
  calls : List Call
  db : Db

inductive ScreenEvent
  | type (searchQuery : String)
  | debounce
  | loadMore
  | shorten (originalUrl : String) (expiresAt : Option Instant)
  | delete (id : ℤ)
  /-- A call arrives: a page is read from a committed table, ... -/
  | readPage (i : ℕ) (table : ℕ)
  /-- `add_shorten_url` is called, ... -/
  | beginCreate (i : ℕ)
  /-- and has returned, ... -/
  | finishCreate (i : ℕ)
  /-- or `delete_url` is run. -/
  | deleteRow (i : ℕ) (result : DbResult)
  /-- A statement of a call of `add_shorten_url` or of another party. -/
  | db (e : DbEvent)
  /-- A call fails, or its answer is lost. -/
  | fail (i : ℕ)
  | arrive (i : ℕ)

namespace Screen

/-- A request goes out, if there is one. -/
def issue (s : Screen) : Dashboard × Option Request → Screen
  | (dashboard, none) => { s with dashboard }
  | (dashboard, some request) =>
    { s with
      dashboard
      tickets := s.tickets + 1
      calls := s.calls ++ [{ ticket := s.tickets, request, addCall := none, answer := none }] }

/-- Mounting runs both effects. -/
def mount (db : Db) : Screen :=
  issue { dashboard := .mounted, timer := true, tickets := 0, latest := 0, calls := [], db }
    (.mounted, some (.search ""))

/-- A call is answered. -/
def reply (s : Screen) (i : ℕ) (call : Call) (answer : Answer) : Screen :=
  { s with calls := s.calls.set i { call with answer := some answer } }

/-- The debounce timer fires. -/
def debounced (s : Screen) : Screen :=
  let next := s.dashboard.debounce
  { s.issue next with timer := false, latest := if next.2.isSome then s.tickets else s.latest }

/-- The answer to a page request, read from a table. -/
def pageAnswer (ilike : String → String → Bool) (userId : Uuid) (urls : List UrlRow)
    (params : PaginationParams) : Answer :=
  match requestPage ilike urls userId params with
  | some page => .page page
  | none => .failed

/-- The answer of `shorten_url`. -/
def createAnswer : Except SqlError (Option Url) → Answer
  | .ok (some url) => .created (.ofUrl url)
  | _ => .failed

/-- The answer of `delete_url_handler`. -/
def deleteAnswer (rows : List UrlRow) (result : DbResult) : Answer :=
  if result = .ok ∧ rows ≠ [] then .deleted else .failed

variable (ilike : String → String → Bool) (encode : ℤ → String) (userId : Uuid)

def step (s : Screen) : ScreenEvent → Option Screen
  | .type searchQuery =>
    if searchQuery = s.dashboard.searchQuery then none
    else some { s with dashboard := { s.dashboard with searchQuery }, timer := true }
  | .debounce => if s.timer then some s.debounced else none
  | .loadMore =>
    if s.dashboard.listed && s.dashboard.hasMore && !s.dashboard.isLoadingMore then
      some (s.issue s.dashboard.handleLoadMore)
    else none
  | .shorten originalUrl expiresAt =>
    if s.dashboard.isShortening then none
    else some (s.issue (s.dashboard.handleShorten originalUrl expiresAt))
  | .delete id =>
    if s.dashboard.listed && s.dashboard.urls.any fun u => u.id = id then
      some (s.issue (s.dashboard.handleDelete id))
    else none
  | .readPage i table =>
    match s.calls[i]?, s.db.history[table]? with
    | some call, some urls =>
      match call.answer, call.request.params with
      | none, some params => some (s.reply i call (pageAnswer ilike userId urls params))
      | _, _ => none
    | _, _ => none
  | .beginCreate i =>
    match s.calls[i]? with
    | some { ticket, request := .create originalUrl expiresAt, addCall := none, answer := none } =>
      (s.db.step encode (.call originalUrl userId expiresAt)).map fun db =>
        { s with
          db
          calls := s.calls.set i
            { ticket, request := .create originalUrl expiresAt, addCall := some s.db.calls.length,
              answer := none } }
    | _ => none
  | .finishCreate i =>
    match s.calls[i]? with
    | some call =>
      match call.answer, call.addCall.bind (s.db.calls[·]?) with
      | none, some addCall =>
        match addCall.pc with
        | .done result => some (s.reply i call (createAnswer result))
        | _ => none
      | _, _ => none
    | none => none
  | .deleteRow i result =>
    match s.calls[i]? with
    | some call =>
      match call.answer, call.request with
      | none, .delete id =>
        (s.db.step encode (.deleteUrl id userId result)).map fun db =>
          { s.reply i call (deleteAnswer (s.db.deleted (Db.ownedBy id userId)) result) with db }
      | _, _ => none
    | none => none
  | .db e => (s.db.step encode e).map fun db => { s with db }
  | .fail i => (s.calls[i]?).map fun call => s.reply i call .failed
  | .arrive i =>
    match s.calls[i]? with
    | some call => call.answer.map fun answer =>
        issue { s with calls := s.calls.eraseIdx i } (s.dashboard.receive call.request answer)
    | none => none

/-- The events, each with what `step` has checked. -/
inductive Fired (s : Screen) : ScreenEvent → Screen → Prop
  | type {searchQuery : String} (hne : searchQuery ≠ s.dashboard.searchQuery) :
      Fired s (.type searchQuery) { s with dashboard := { s.dashboard with searchQuery }, timer := true }
  | debounce (htimer : s.timer = true) : Fired s .debounce s.debounced
  | loadMore (hlisted : s.dashboard.listed = true) (hmore : s.dashboard.hasMore = true)
      (hidle : s.dashboard.isLoadingMore = false) :
      Fired s .loadMore (s.issue s.dashboard.handleLoadMore)
  | shorten (originalUrl : String) (expiresAt : Option Instant) (hidle : s.dashboard.isShortening = false) :
      Fired s (.shorten originalUrl expiresAt) (s.issue (s.dashboard.handleShorten originalUrl expiresAt))
  | delete {id : ℤ} (hlisted : s.dashboard.listed = true) :
      Fired s (.delete id) (s.issue (s.dashboard.handleDelete id))
  | readPage {i table : ℕ} {call : Call} {urls : List UrlRow} {params : PaginationParams}
      (hcall : s.calls[i]? = some call) (htable : s.db.history[table]? = some urls)
      (hanswer : call.answer = none) (hparams : call.request.params = some params) :
      Fired s (.readPage i table) (s.reply i call (pageAnswer ilike userId urls params))
  | beginCreate {i : ℕ} {call : Call} {e : DbEvent} {db : Db} (hcall : s.calls[i]? = some call)
      (hanswer : call.answer = none) (hdb : s.db.step encode e = some db) :
      Fired s (.beginCreate i)
        { s with db, calls := s.calls.set i { call with addCall := some s.db.calls.length } }
  | finishCreate {i : ℕ} {call : Call} (hcall : s.calls[i]? = some call) (hanswer : call.answer = none)
      (result : Except SqlError (Option Url)) :
      Fired s (.finishCreate i) (s.reply i call (createAnswer result))
  | deleteRow {i : ℕ} {call : Call} {id : ℤ} {result : DbResult} {db : Db}
      (hcall : s.calls[i]? = some call) (hanswer : call.answer = none)
      (hdb : s.db.step encode (.deleteUrl id userId result) = some db) :
      Fired s (.deleteRow i result)
        { s.reply i call (deleteAnswer (s.db.deleted (Db.ownedBy id userId)) result) with db }
  | db {e : DbEvent} {db : Db} (hdb : s.db.step encode e = some db) : Fired s (.db e) { s with db }
  | fail {i : ℕ} {call : Call} (hcall : s.calls[i]? = some call) :
      Fired s (.fail i) (s.reply i call .failed)
  | arrive {i : ℕ} {call : Call} {answer : Answer} (hcall : s.calls[i]? = some call)
      (hanswer : call.answer = some answer) :
      Fired s (.arrive i)
        (issue { s with calls := s.calls.eraseIdx i } (s.dashboard.receive call.request answer))

variable {ilike encode userId}

/-- What a step has checked. -/
theorem fired_of_step {s s' : Screen} {e : ScreenEvent} (hstep : s.step ilike encode userId e = some s') :
    s.Fired ilike encode userId e s' := by
  cases e with
  | type searchQuery =>
    simp only [step] at hstep
    split at hstep
    · cases hstep
    · rename_i hne
      obtain rfl := Option.some.inj hstep
      exact .type hne
  | debounce =>
    simp only [step] at hstep
    split at hstep
    · rename_i htimer
      obtain rfl := Option.some.inj hstep
      exact .debounce htimer
    · cases hstep
  | loadMore =>
    simp only [step] at hstep
    split at hstep
    · rename_i hguard
      simp only [Bool.and_eq_true, Bool.not_eq_true'] at hguard
      obtain rfl := Option.some.inj hstep
      exact .loadMore hguard.1.1 hguard.1.2 hguard.2
    · cases hstep
  | shorten originalUrl expiresAt =>
    simp only [step] at hstep
    split at hstep
    · cases hstep
    · rename_i hidle
      obtain rfl := Option.some.inj hstep
      exact .shorten originalUrl expiresAt (Bool.eq_false_iff.mpr hidle)
  | delete id =>
    simp only [step] at hstep
    split at hstep
    · rename_i hguard
      obtain rfl := Option.some.inj hstep
      exact .delete (Bool.and_eq_true_iff.mp hguard).1
    · cases hstep
  | readPage i table =>
    simp only [step] at hstep
    split at hstep
    · rename_i call urls hcall htable
      split at hstep
      · rename_i params hanswer hparams
        obtain rfl := Option.some.inj hstep
        exact .readPage hcall htable hanswer hparams
      · cases hstep
    · cases hstep
  | beginCreate i =>
    simp only [step] at hstep
    split at hstep
    · rename_i ticket originalUrl expiresAt hcall
      obtain ⟨db, hdb, rfl⟩ := Option.map_eq_some_iff.mp hstep
      exact .beginCreate hcall rfl hdb
    · cases hstep
  | finishCreate i =>
    simp only [step] at hstep
    split at hstep
    · rename_i call hcall
      split at hstep
      · rename_i addCall hanswer hadd
        split at hstep
        · rename_i result hpc
          obtain rfl := Option.some.inj hstep
          exact .finishCreate hcall hanswer result
        · cases hstep
      · cases hstep
    · cases hstep
  | deleteRow i result =>
    simp only [step] at hstep
    split at hstep
    · rename_i call hcall
      split at hstep
      · rename_i id hanswer hrequest
        obtain ⟨db, hdb, rfl⟩ := Option.map_eq_some_iff.mp hstep
        exact .deleteRow hcall hanswer hdb
      · cases hstep
    · cases hstep
  | db e =>
    obtain ⟨db, hdb, rfl⟩ := Option.map_eq_some_iff.mp hstep
    exact .db hdb
  | fail i =>
    obtain ⟨call, hcall, rfl⟩ := Option.map_eq_some_iff.mp hstep
    exact .fail hcall
  | arrive i =>
    simp only [step] at hstep
    split at hstep
    · rename_i call hcall
      obtain ⟨answer, hanswer, rfl⟩ := Option.map_eq_some_iff.mp hstep
      exact .arrive hcall hanswer
    · cases hstep

end Screen

end Bittuly.Web
