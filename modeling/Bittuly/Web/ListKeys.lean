import Bittuly.Web.Dashboard

/-!
# Keys of the list

References: `web/src/pages/Dashboard.tsx`, `services/url-service/src/repository.rs`.

React wants the keys of a list distinct, and the dashboard uses the ids. A page has no id twice, whatever
table it was read from. So an id can only come twice by what is added to a list: a created link, or the
links of a next page.
-/

namespace Bittuly.Web

open Runs Urls

variable {ilike : String → String → Bool} {encode : ℤ → String} {userId : Uuid}

/-- The ids, the keys of the list. -/
def ids (urls : List ShortenedUrl) : List ℤ :=
  urls.map ShortenedUrl.id

/-- A page of the client has no id twice. -/
theorem nodup_of_requestPage (table : Table) {params : PaginationParams} {page : UrlsPage}
    (h : requestPage ilike table.urls userId params = some page) : (ids page.urls).Nodup := by
  unfold requestPage at h
  split at h
  · rename_i served hserved
    obtain rfl := Option.some.inj h
    rcases getAllUrls_cases ilike table userId params with hbad | ⟨-, herror⟩ | ⟨-, cursor, hok⟩
    · rw [hbad] at hserved
      cases hserved
    · rw [herror] at hserved
      cases hserved
    · obtain rfl := PageResponse.OK.inj (hok.symm.trans hserved)
      have hsorted : (remaining ilike table.urls userId params.search cursor).Pairwise fun a b =>
          b.urlId < a.urlId := remaining_pairwise table
      rw [ids, pageOf, List.map_map, List.map_map]
      exact List.pairwise_map.mpr ((hsorted.sublist (List.take_sublist _ _)).imp fun hlt => hlt.ne')
  · cases h

namespace Screen

/-! ## Calls in flight -/

@[simp]
theorem issue_dashboard (s : Screen) (next : Dashboard × Option Request) :
    (s.issue next).dashboard = next.1 := by
  obtain ⟨dashboard, _ | request⟩ := next <;> rfl

@[simp]
theorem issue_db (s : Screen) (next : Dashboard × Option Request) : (s.issue next).db = s.db := by
  obtain ⟨dashboard, _ | request⟩ := next <;> rfl

/-- A call is an old one or has just been made. -/
theorem mem_issue {s : Screen} {next : Dashboard × Option Request} {call : Call}
    (h : call ∈ (s.issue next).calls) : call ∈ s.calls ∨ call.answer = none := by
  obtain ⟨dashboard, _ | request⟩ := next
  · exact .inl h
  · rcases List.mem_append.mp h with hold | hnew
    · exact .inl hold
    · rw [List.mem_singleton.mp hnew]
      exact .inr rfl

/-- What holds of the old calls and of the one just answered holds of all. -/
theorem forall_mem_reply {s : Screen} {i : ℕ} {call : Call} {answer : Answer} {P : Call → Prop}
    (hcalls : ∀ call' ∈ s.calls, P call') (hreply : P { call with answer := some answer }) :
    ∀ call' ∈ (s.reply i call answer).calls, P call' := by
  intro call' hcall'
  rcases List.mem_or_eq_of_mem_set hcall' with hold | rfl
  · exact hcalls call' hold
  · exact hreply

/-- The server's invariant, and every page on its way has distinct ids. -/
structure Inv (encode : ℤ → String) (s : Screen) : Prop where
  store : StoreInv encode s.db
  pages : ∀ call ∈ s.calls, ∀ page, call.answer = some (.page page) → (ids page.urls).Nodup

namespace Inv

variable {s s' : Screen}

theorem mount {db : Db} (h : StoreInv encode db) : (mount db).Inv encode where
  store := h
  pages := by
    intro call hcall page hpage
    rw [List.mem_singleton.mp hcall] at hpage
    cases hpage

theorem issue (h : s.Inv encode) (next : Dashboard × Option Request) : (s.issue next).Inv encode where
  store := by
    rw [issue_db]
    exact h.store
  pages := by
    intro call hcall page hpage
    rcases mem_issue hcall with hold | hnone
    · exact h.pages call hold page hpage
    · rw [hnone] at hpage
      cases hpage

theorem reply (h : s.Inv encode) (i : ℕ) (call : Call) {answer : Answer}
    (hpage : ∀ page, answer = .page page → (ids page.urls).Nodup) : (s.reply i call answer).Inv encode where
  store := h.store
  pages := by
    apply forall_mem_reply h.pages
    intro page heq
    exact hpage page (Option.some.inj heq)

theorem db (h : s.Inv encode) {e : DbEvent} {db : Db} (hdb : s.db.step encode e = some db) :
    Inv encode { s with db } where
  store := h.store.statement (Db.statement_of_step hdb)
  pages := h.pages

/-- A page read from a committed table has distinct ids. -/
theorem pageAnswer (h : s.Inv encode) {table : ℕ} {urls : List UrlRow}
    (htable : s.db.history[table]? = some urls) {params : PaginationParams} {page : UrlsPage}
    (hpage : pageAnswer ilike userId urls params = .page page) : (ids page.urls).Nodup := by
  unfold Screen.pageAnswer at hpage
  split at hpage
  · rename_i page' hpage'
    obtain rfl := Answer.page.inj hpage
    exact nodup_of_requestPage (.ofHistory h.store (List.mem_of_getElem? htable)) hpage'
  · cases hpage

theorem step {e : ScreenEvent} (h : s.Inv encode) (hstep : s.step ilike encode userId e = some s') :
    s'.Inv encode := by
  cases fired_of_step hstep with
  | type _ => exact ⟨h.store, h.pages⟩
  | debounce _ => exact ⟨(h.issue s.dashboard.debounce).store, (h.issue s.dashboard.debounce).pages⟩
  | loadMore _ _ _ => exact h.issue _
  | shorten originalUrl expiresAt _ => exact h.issue _
  | delete _ => exact h.issue _
  | readPage _ htable _ _ => exact h.reply _ _ fun page hpage => h.pageAnswer htable hpage
  | @beginCreate i call e db hcall hanswer hdb =>
    refine ⟨(h.db hdb).store, ?_⟩
    intro call' hcall' page hpage
    rcases List.mem_or_eq_of_mem_set hcall' with hold | rfl
    · exact h.pages call' hold page hpage
    · rw [hanswer] at hpage
      cases hpage
  | finishCreate _ _ result =>
    refine h.reply _ _ fun page hpage => ?_
    unfold createAnswer at hpage
    split at hpage <;> cases hpage
  | deleteRow _ _ hdb =>
    refine (h.reply _ _ fun page hpage => ?_).db hdb
    unfold deleteAnswer at hpage
    split at hpage <;> cases hpage
  | db hdb => exact h.db hdb
  | fail _ => exact h.reply _ _ fun page hpage => nomatch hpage
  | @arrive i call answer _ _ =>
    refine issue (s := { s with calls := s.calls.eraseIdx i }) ⟨h.store, ?_⟩ _
    intro call' hcall' page hpage
    exact h.pages call' (List.mem_of_mem_eraseIdx hcall') page hpage

end Inv

/-! ## What is added to the list -/

/-- The links that an answer adds to those listed. -/
def added : Request → Answer → List ShortenedUrl
  | .more _ _, .page page => page.urls
  | .create _ _, .created url => [url]
  | _, _ => []

/-- No link is listed twice. -/
def NoTwice (s : Screen) : Prop :=
  (ids s.dashboard.urls).Nodup

instance (s : Screen) : Decidable s.NoTwice :=
  inferInstanceAs (Decidable (ids s.dashboard.urls).Nodup)

/-- Nothing arrives to be added that is listed already. -/
def Unlisted (s : Screen) : ScreenEvent → Prop
  | .arrive i => ∀ call ∈ s.calls[i]?, ∀ answer ∈ call.answer, ∀ u ∈ added call.request answer,
      u.id ∉ ids s.dashboard.urls
  | _ => True

instance (s : Screen) (e : ScreenEvent) : Decidable (s.Unlisted e) := by
  cases e <;> unfold Unlisted <;> infer_instance

/-- Receiving an answer keeps the ids distinct exactly if what it adds is new. -/
theorem nodup_receive_iff {d : Dashboard} (hd : (ids d.urls).Nodup) (request : Request) {answer : Answer}
    (hpage : ∀ page, answer = .page page → (ids page.urls).Nodup) :
    (ids (d.receive request answer).1.urls).Nodup ↔ ∀ u ∈ added request answer, u.id ∉ ids d.urls := by
  have hnothing : ∀ u ∈ ([] : List ShortenedUrl), u.id ∉ ids d.urls := fun u hu => nomatch hu
  cases request with
  | search query =>
    cases answer with
    | page page => exact iff_of_true (hpage page rfl) hnothing
    | created url => exact iff_of_true hd hnothing
    | deleted => exact iff_of_true hd hnothing
    | failed => exact iff_of_true hd hnothing
  | more cursor query =>
    cases answer with
    | page page =>
      simp only [Dashboard.receive, Dashboard.addPage, added, ids, List.map_append, List.nodup_append]
      constructor
      · rintro ⟨-, -, hdisjoint⟩ u hu hmem
        exact hdisjoint _ hmem _ (List.mem_map_of_mem hu) rfl
      · intro hnew
        refine ⟨hd, hpage page rfl, ?_⟩
        rintro a ha b hb rfl
        obtain ⟨u, hu, rfl⟩ := List.mem_map.mp hb
        exact hnew u hu ha
    | created url => exact iff_of_true hd hnothing
    | deleted => exact iff_of_true hd hnothing
    | failed => exact iff_of_true hd hnothing
  | create originalUrl expiresAt =>
    cases answer with
    | page page => exact iff_of_true hd hnothing
    | created url =>
      simp only [Dashboard.receive, added, ids, List.map_cons, List.nodup_cons, List.mem_singleton,
        forall_eq]
      exact and_iff_left hd
    | deleted => exact iff_of_true hd hnothing
    | failed => exact iff_of_true hd hnothing
  | delete id =>
    cases answer with
    | page page => exact iff_of_true hd hnothing
    | created url => exact iff_of_true hd hnothing
    | deleted => exact iff_of_true hd hnothing
    | failed => exact iff_of_true hd hnothing
  | reload =>
    cases answer with
    | page page => exact iff_of_true (hpage page rfl) hnothing
    | created url => exact iff_of_true hd hnothing
    | deleted => exact iff_of_true hd hnothing
    | failed => exact iff_of_true hd hnothing

/-- **A step keeps the ids distinct exactly if nothing listed is added.** -/
theorem noTwice_step_iff {s s' : Screen} {e : ScreenEvent} (h : s.Inv encode) (hs : s.NoTwice)
    (hstep : s.step ilike encode userId e = some s') : s'.NoTwice ↔ s.Unlisted e := by
  cases fired_of_step hstep with
  | type _ => exact iff_of_true hs trivial
  | debounce _ =>
    refine iff_of_true ?_ trivial
    show (ids (s.issue s.dashboard.debounce).dashboard.urls).Nodup
    rw [issue_dashboard, Dashboard.debounce]
    split
    · exact hs
    · exact hs
  | loadMore _ _ _ =>
    refine iff_of_true ?_ trivial
    rw [NoTwice, issue_dashboard, Dashboard.handleLoadMore]
    split
    · exact hs
    · exact hs
    · split
      · exact hs
      · exact hs
  | shorten originalUrl expiresAt _ => exact iff_of_true hs trivial
  | delete _ => exact iff_of_true (hs.sublist (List.filter_sublist.map _)) trivial
  | readPage _ _ _ _ => exact iff_of_true hs trivial
  | beginCreate _ _ _ => exact iff_of_true hs trivial
  | finishCreate _ _ _ => exact iff_of_true hs trivial
  | deleteRow _ _ _ => exact iff_of_true hs trivial
  | db _ => exact iff_of_true hs trivial
  | fail _ => exact iff_of_true hs trivial
  | @arrive i call answer hcall hanswer =>
    rw [NoTwice, issue_dashboard, nodup_receive_iff hs]
    · simp only [Unlisted, hcall, hanswer, Option.mem_def, Option.some.injEq, forall_eq']
    · rintro page rfl
      exact h.pages call (List.mem_of_getElem? hcall) page hanswer

/-- **The dashboard lists no link twice as long as nothing listed is added to the list**, and only so
long. -/
theorem noTwice_iff {es₀ : List DbEvent} {db : Db} (hdb : Run (Db.step encode) Any Db.init es₀ db)
    {es : List ScreenEvent} {s : Screen} (hrun : Run (step ilike encode userId) Any (mount db) es s) :
    (∀ es' u, es' <+: es → Run (step ilike encode userId) Any (mount db) es' u → u.NoTwice) ↔
      Run (step ilike encode userId) Unlisted (mount db) es s := by
  refine hrun.always_iff (I := Inv encode) ?_ ?_ (.mount (storeInv_of_run hdb)) List.nodup_nil
  · intro s e s' h _ hstep
    exact h.step hstep
  · intro s e s' h hs _ hstep
    exact noTwice_step_iff h hs hstep

/-- A link of the user `7` that expires at `5`. -/
def expiringLink : UrlRow where
  urlId := 1
  shortCode := some "1"
  originalUrl := "https://a.example/"
  userId := 7
  clickCount := 0
  expiresAt := some 5
  createdAt := 0
  updatedAt := 0

/-- The database in which it has been created. -/
def expiringDb : Db where
  urls := [expiringLink]
  pending := []
  issued := [expiringLink.issue]
  calls :=
    [{ originalUrl := "https://a.example/", userId := 7, expiresAt := some 5,
       pc := .done (.ok (some expiringLink.toUrl)) }]
  history := [[], [expiringLink]]

def expiringTable : Table where
  urls := [expiringLink]
  ids := by decide
  range := by decide
  coded := by decide

/-- The dashboard is mounted and its first page has been read. -/
def expiringScreen : Screen :=
  (mount expiringDb).reply 0 { ticket := 0, request := .search "", addCall := none, answer := none }
    (.page { urls := [shown expiringLink], nextCursor := none })

theorem read_expiring : (mount expiringDb).step (Urls.ilike Char.toLower) base62Encode 7 (.readPage 0 1) =
    some expiringScreen := by
  have hrows : remaining (Urls.ilike Char.toLower) [expiringLink] 7 none none = [expiringLink] := by
    rw [remaining_of_pairwise (List.pairwise_singleton _ _)]
    rfl
  have hpage : requestPage (Urls.ilike Char.toLower) [expiringLink] 7 (pageParams none 20 "") =
      some { urls := [shown expiringLink], nextCursor := none } :=
    (requestPage_first expiringTable (some 20) plain_none).trans
      (congrArg (fun rows => some (shownPage rows 20)) hrows)
  show some ((mount expiringDb).reply 0 _
    (Screen.pageAnswer _ 7 [expiringLink] (pageParams none 20 ""))) = _
  rw [Screen.pageAnswer, hpage]
  rfl

theorem run_expiringDb : Run (Db.step base62Encode) Any Db.init
    [.call "https://a.example/" 7 (some 5), .select 0 0, .insert 0 1 0, .assign 0, .commit 0 .ok]
    expiringDb :=
  run_of_exec rfl

/-- The link is listed, deleted and shortened again. -/
def renewal : List ScreenEvent :=
  [.arrive 0, .delete 1, .deleteRow 0 .ok, .arrive 0, .shorten "https://a.example/" none, .beginCreate 0,
    .db (.select 1 9), .db (.insert 1 2 9), .db (.assign 1), .db (.commit 1 .ok), .finishCreate 0, .arrive 0]

theorem noTwice_iff_of_renewal :
    ∃ s, Run (step (Urls.ilike Char.toLower) base62Encode 7) Unlisted (mount expiringDb)
        (.readPage 0 1 :: renewal) s ∧
      ids s.dashboard.urls = [2] ∧ ∀ es' u, es' <+: .readPage 0 1 :: renewal →
        Run (step (Urls.ilike Char.toLower) base62Encode 7) Any (mount expiringDb) es' u → u.NoTwice := by
  obtain ⟨s, hrun, hids⟩ := exists_run_of_exec (step (Urls.ilike Char.toLower) base62Encode 7) Unlisted
    expiringScreen renewal (fun s => decide (ids s.dashboard.urls = [2])) (by decide)
  have hunlisted : Run (step (Urls.ilike Char.toLower) base62Encode 7) Unlisted (mount expiringDb)
      (.readPage 0 1 :: renewal) s := .cons trivial read_expiring hrun
  exact ⟨s, hunlisted, of_decide_eq_true hids,
    (noTwice_iff run_expiringDb (hunlisted.mono fun _ _ _ => trivial)).mpr hunlisted⟩

/-- The link is listed, and when it has expired it is shortened again. -/
def reactivation : List ScreenEvent :=
  [.arrive 0, .shorten "https://a.example/" none, .beginCreate 0, .db (.select 1 9),
    .db (.reactivate 1 9 .ok), .finishCreate 0, .arrive 0]

theorem reactivated_twice :
    ∃ es₀ db es s, Run (Db.step base62Encode) Any Db.init es₀ db ∧
      Run (step (Urls.ilike Char.toLower) base62Encode 7) Any (mount db) es s ∧ ¬ s.NoTwice := by
  obtain ⟨s, hrun, htwice⟩ := exists_run_of_exec (step (Urls.ilike Char.toLower) base62Encode 7) Any
    expiringScreen reactivation (fun s => !decide s.NoTwice) (by decide)
  exact ⟨_, _, _, s, run_expiringDb, .cons trivial read_expiring hrun, by simpa using htwice⟩

end Screen

end Bittuly.Web
