import Bittuly.Consumer.ClickCounts
import Bittuly.Urls.Search
import Bittuly.Urls.Store

/-!
# Links read from a replica

References: `services/url-service/src/repository.rs` (`SplitUrlRepo`), `services/url-service/src/main.rs`,
`services/consumer-service/src/main.rs` (the statements on `urls`).

Statements of url-service and of the consumer write to the primary. Redirects and pages are read from a
replica that replays the committed tables one by one, late. `NoReturn` is kept by every statement: a row
that a commit has removed is in no later table, so a reader sees no link come back.
-/

namespace Bittuly.Urls

open Runs

/-! ## The primary and its replica -/

/-- A read, with how many tables the replica had replayed. -/
inductive ReplicaRead
  | getOriginalUrl (shortCode : String) (result : Option (String × Option Instant))
  | getUrlsPage (result : Except SqlError UrlsPage)
deriving Repr

/-- The replica shows the committed table number `replayed`. -/
structure SplitUrlRepo where
  primary : Db
  replayed : ℕ
  reads : List (ReplicaRead × ℕ)

inductive SplitEvent
  | primary (e : DbEvent)
  | incrementClickCounts (entries : List (Sigma fun _ : String => ℕ)) (result : DbResult)
  | replay
  | getOriginalUrl (shortCode : String)
  | getUrlsPage (userId : Uuid) (cursor : Option ℤ) (limit : ℤ) (search : Option String)

namespace SplitUrlRepo

def init : SplitUrlRepo where
  primary := Db.init
  replayed := 0
  reads := []

/-- The table that the replica shows. -/
def replica (s : SplitUrlRepo) : List UrlRow :=
  s.primary.history.getD s.replayed []

def answer (s : SplitUrlRepo) (read : ReplicaRead) : SplitUrlRepo :=
  { s with reads := s.reads ++ [(read, s.replayed)] }

variable (ilike : String → String → Bool) (encode : ℤ → String)

def step (s : SplitUrlRepo) : SplitEvent → Option SplitUrlRepo
  | .primary e => (s.primary.step encode e).map fun primary => { s with primary }
  | .incrementClickCounts entries result =>
    (Clicks.incrementClickCounts s.primary.urls entries).map fun urls =>
      if result.applied then { s with primary := s.primary.commitRows urls } else s
  | .replay =>
    if s.replayed + 1 < s.primary.history.length then some { s with replayed := s.replayed + 1 } else none
  | .getOriginalUrl shortCode =>
    some (s.answer (.getOriginalUrl shortCode (Urls.getOriginalUrl s.replica shortCode)))
  | .getUrlsPage userId cursor limit search =>
    some (s.answer (.getUrlsPage (Urls.getUrlsPage ilike s.replica userId cursor limit search)))

end SplitUrlRepo

/-- A redirect to the link, or a page with it. -/
def ReplicaRead.Shows (shortCode : String) : ReplicaRead → Prop
  | .getOriginalUrl c result => c = shortCode ∧ result.isSome
  | .getUrlsPage (.ok page) => ∃ u ∈ page.urls, u.shortCode = shortCode
  | .getUrlsPage (.error _) => False

/-- There is no such link. -/
def ReplicaRead.Misses (shortCode : String) : ReplicaRead → Prop
  | .getOriginalUrl c result => c = shortCode ∧ result = none
  | .getUrlsPage _ => False

/-! ## Rows do not return -/

/-- The committed tables with a row of the id, by their numbers. -/
def visible (history : List (List UrlRow)) (id : ℤ) : Set ℕ :=
  {k | ∃ urls, history[k]? = some urls ∧ id ∈ urls.map UrlRow.urlId}

/-- They come one after the other. -/
def NoReturn (history : List (List UrlRow)) : Prop :=
  ∀ id, (visible history id).OrdConnected

/-- What a statement commits, and what it inserts. -/
structure Commits (db db' : Db) : Prop where
  history : db'.history = db.history ∧ db'.urls = db.urls ∨ db'.history = db.history ++ [db'.urls]
  pending : ∀ r ∈ db'.pending,
    r.urlId ∈ db.pending.map UrlRow.urlId ∨ r.urlId ∉ db.issued.map Issue.urlId

namespace Commits

variable {encode : ℤ → String} {db db' : Db}

theorem refl (db : Db) : Commits db db :=
  ⟨.inl ⟨rfl, rfl⟩, fun _ hr => .inl (List.mem_map_of_mem hr)⟩

theorem setPc (h : Commits db db') (n : ℕ) (call : AddCall) (pc : AddPc) : Commits db (db'.setPc n call pc) :=
  ⟨h.history, h.pending⟩

theorem rollback (h : Commits db db') (urlId : Option ℤ) : Commits db (db'.rollback urlId) :=
  ⟨h.history, fun r hr => h.pending r (List.mem_of_mem_filter hr)⟩

theorem commitRows (db : Db) (urls : List UrlRow) : Commits db (db.commitRows urls) :=
  ⟨.inr rfl, (refl db).pending⟩

/-- An autocommitted statement. -/
theorem ite (db : Db) (urls : List UrlRow) (applied : Bool) :
    Commits db (if applied then db.commitRows urls else db) := by
  cases applied with
  | true => exact commitRows db urls
  | false => exact refl db

theorem reactivate (db : Db) (n : ℕ) (call : AddCall) (urlId : ℤ) (now : Instant) (result : DbResult) :
    Commits db (db.reactivate n call urlId now result) := by
  unfold Db.reactivate
  split
  · exact (refl db).setPc n call _
  · simp only
    split
    · exact (ite db _ _).setPc n call _
    · exact (ite db _ _).setPc n call _
    · exact (ite db _ _).setPc n call _

theorem insert {n : ℕ} {call : AddCall} {urlId : ℤ} {now : Instant}
    (h : db.insert n call urlId now = some db') : Commits db db' := by
  unfold Db.insert at h
  simp only at h
  split at h
  · cases h
  rename_i hid
  split at h
  · cases h
  split at h
  · obtain rfl := Option.some.inj h
    exact ⟨.inl ⟨rfl, rfl⟩, (refl db).pending⟩
  · obtain rfl := Option.some.inj h
    refine ⟨.inl ⟨rfl, rfl⟩, fun r hr => ?_⟩
    rcases List.mem_append.mp hr with hold | hnew
    · exact .inl (List.mem_map_of_mem hold)
    · rw [List.mem_singleton.mp hnew]
      exact .inr fun hmem => hid (.inr (.inr hmem))

theorem assign {n : ℕ} {call : AddCall} {urlId : ℤ} (h : db.assign encode n call urlId = some db') :
    Commits db db' := by
  unfold Db.assign at h
  simp only at h
  split at h
  · cases h
  split at h
  · obtain rfl := Option.some.inj h
    exact ((refl db).rollback _).setPc n call _
  · obtain rfl := Option.some.inj h
    refine ⟨.inl ⟨rfl, rfl⟩, fun r hr => .inl ?_⟩
    obtain ⟨r', hr', rfl⟩ := List.mem_map.mp hr
    have hid : (if r'.urlId = urlId then { r' with shortCode := some (encode urlId) } else r').urlId =
        r'.urlId := by split <;> rfl
    rw [hid]
    exact List.mem_map_of_mem hr'

/-- Every statement. -/
theorem of_statement (h : db.Statement encode db') : Commits db db' := by
  cases h with
  | call originalUrl userId expiresAt => exact ⟨.inl ⟨rfl, rfl⟩, (refl db).pending⟩
  | select n call now => exact (refl db).setPc n call _
  | reactivate n call urlId now result => exact reactivate db n call urlId now result
  | insert hins => exact insert hins
  | assign _ _ hassign => exact assign hassign
  | commit n _ _ result => exact ((ite db _ _).rollback _).setPc n _ _
  | fail n call => exact ((refl db).rollback _).setPc n call _
  | delete p result => exact ite db _ _

end Commits

theorem lt_length_of_mem_visible {history : List (List UrlRow)} {id : ℤ} {k : ℕ}
    (h : k ∈ visible history id) : k < history.length := by
  obtain ⟨urls, hurls, -⟩ := h
  exact (List.getElem?_eq_some_iff.mp hurls).1

/-- Of the tables before a new one, the same are visible. -/
theorem mem_visible_append {history : List (List UrlRow)} {urls : List UrlRow} {id : ℤ} {k : ℕ}
    (hk : k < history.length) : k ∈ visible (history ++ [urls]) id ↔ k ∈ visible history id := by
  simp only [visible, Set.mem_ofPred_eq, List.getElem?_append_left hk]

theorem length_mem_visible {history : List (List UrlRow)} {urls : List UrlRow} {id : ℤ} :
    history.length ∈ visible (history ++ [urls]) id ↔ id ∈ urls.map UrlRow.urlId := by
  simp [visible]

/-- A table whose rows were in the last one or in none. -/
theorem NoReturn.append {history : List (List UrlRow)} (h : NoReturn history) {last urls : List UrlRow}
    (hlast : history.getLast? = some last)
    (hnew : ∀ r ∈ urls, r.urlId ∈ last.map UrlRow.urlId ∨
      ∀ urls' ∈ history, r.urlId ∉ urls'.map UrlRow.urlId) : NoReturn (history ++ [urls]) := by
  refine fun id => ⟨fun i hi k hk j hj => ?_⟩
  have hlength : ∀ {n}, n ∈ visible (history ++ [urls]) id → n ≤ history.length := fun hn => by
    simpa [Nat.lt_succ_iff] using lt_length_of_mem_visible hn
  rcases (hlength hk).lt_or_eq with hold | rfl
  · have hj' := hj.2.trans_lt hold
    rw [mem_visible_append hold] at hk
    rw [mem_visible_append (hj.1.trans_lt hj')] at hi
    rw [mem_visible_append hj']
    exact (h id).out hi hk hj
  · rcases hj.2.lt_or_eq with hj' | rfl
    · rw [mem_visible_append (hj.1.trans_lt hj')] at hi
      rw [mem_visible_append hj']
      obtain ⟨r, hr, rfl⟩ := List.mem_map.mp (length_mem_visible.mp hk)
      rcases hnew r hr with hkept | hfresh
      · have hlast' : history.length - 1 ∈ visible history r.urlId :=
          ⟨last, by rw [← List.getLast?_eq_getElem?, hlast], hkept⟩
        exact (h r.urlId).out hi hlast' ⟨hj.1, Nat.le_sub_one_of_lt hj'⟩
      · obtain ⟨old, hold, hmem⟩ := hi
        exact absurd hmem (hfresh old (List.mem_of_getElem? hold))
    · exact hk

theorem addDelta_keeps {d : List (String × ℤ)} {r r' : UrlRow} (h : Clicks.addDelta d r = some r') :
    r'.issue = r.issue ∧ r'.shortCode = r.shortCode := by
  unfold Clicks.addDelta at h
  split at h
  · obtain rfl := Option.some.inj h
    exact ⟨rfl, rfl⟩
  · obtain ⟨-, h⟩ := Option.ite_none_right_eq_some.mp h
    obtain rfl := Option.some.inj h
    exact ⟨rfl, rfl⟩

/-- The click counts are a column of their own. -/
theorem exists_map_of_incrementClickCounts {urls urls' : List UrlRow}
    {entries : List (Sigma fun _ : String => ℕ)}
    (h : Clicks.incrementClickCounts urls entries = some urls') :
    ∃ f : UrlRow → UrlRow, (∀ r, (f r).issue = r.issue) ∧ (∀ r, (f r).shortCode = r.shortCode) ∧
      urls' = urls.map f := by
  simp only [Clicks.incrementClickCounts] at h
  generalize (List.zip _ _ : List (String × ℤ)) = d at h
  have hkeeps : ∀ r, ((Clicks.addDelta d r).getD r).issue = r.issue ∧
      ((Clicks.addDelta d r).getD r).shortCode = r.shortCode := by
    intro r
    cases hadd : Clicks.addDelta d r with
    | none => exact ⟨rfl, rfl⟩
    | some r' => exact addDelta_keeps hadd
  refine ⟨fun r => (Clicks.addDelta d r).getD r, fun r => (hkeeps r).1, fun r => (hkeeps r).2, ?_⟩
  induction urls generalizing urls' with
  | nil => exact (Option.some.inj h).symm
  | cons r urls ih =>
    rw [List.mapM_cons] at h
    obtain ⟨r', hr, h⟩ := Option.bind_eq_some_iff.mp h
    obtain ⟨rest, hrest, h⟩ := Option.bind_eq_some_iff.mp h
    obtain rfl := Option.some.inj h
    rw [List.map_cons, hr, ih hrest]
    rfl

/-! ## Every run -/

/-- The read is answered by the table. -/
def ReplicaRead.Of (ilike : String → String → Bool) (urls : List UrlRow) : ReplicaRead → Prop
  | .getOriginalUrl shortCode result => result = Urls.getOriginalUrl urls shortCode
  | .getUrlsPage result =>
    ∃ userId cursor limit search, result = Urls.getUrlsPage ilike urls userId cursor limit search

/-- What holds of the primary. -/
structure PrimaryInv (encode : ℤ → String) (db : Db) : Prop where
  store : StoreInv encode db
  last : db.history.getLast? = some db.urls
  /-- A row that is not committed has an id of its own. -/
  fresh : ∀ r ∈ db.pending, ∀ urls ∈ db.history, r.urlId ∉ urls.map UrlRow.urlId
  noReturn : NoReturn db.history

/-- And of the reads: the replica never goes back. -/
structure SplitInv (ilike : String → String → Bool) (encode : ℤ → String) (s : SplitUrlRepo) : Prop where
  primary : PrimaryInv encode s.primary
  replayed : s.replayed < s.primary.history.length
  reads : ∀ r ∈ s.reads, r.2 ≤ s.replayed ∧ ∃ urls, s.primary.history[r.2]? = some urls ∧ r.1.Of ilike urls
  inOrder : (s.reads.map Prod.snd).Pairwise (· ≤ ·)

variable {ilike : String → String → Bool} {encode : ℤ → String}

namespace PrimaryInv

variable {db db' : Db}

theorem init : PrimaryInv encode Db.init where
  store := storeInv_init
  last := rfl
  fresh := fun _ hr => nomatch hr
  noReturn id := by
    refine ⟨fun i hi => ?_⟩
    obtain ⟨urls, hurls, hid⟩ := hi
    obtain rfl := List.mem_singleton.mp (List.mem_of_getElem? hurls)
    cases hid

/-- A statement that keeps the store. -/
theorem commits (h : PrimaryInv encode db) (hstore : StoreInv encode db') (hgrows : Grows db db')
    (hcommits : Commits db db') : PrimaryInv encode db' := by
  have hissued : ∀ {r : UrlRow}, r.urlId ∉ db.issued.map Issue.urlId → ∀ urls ∈ db.history,
      r.urlId ∉ urls.map UrlRow.urlId := by
    intro r hr urls hurls hmem
    obtain ⟨r', hr', hid⟩ := List.mem_map.mp hmem
    exact hr (hid ▸ List.mem_map_of_mem (h.store.row_ok hurls hr').1)
  have hold : ∀ r ∈ db'.pending, ∀ urls ∈ db.history, r.urlId ∉ urls.map UrlRow.urlId := by
    intro r hr urls hurls
    rcases hcommits.pending r hr with hpending | hfresh
    · obtain ⟨r', hr', hid⟩ := List.mem_map.mp hpending
      exact hid ▸ h.fresh r' hr' urls hurls
    · exact hissued hfresh urls hurls
  rcases hcommits.history with ⟨hhistory, hurls⟩ | hhistory
  · exact ⟨hstore, by rw [hhistory, hurls, h.last], by rwa [hhistory], hhistory ▸ h.noReturn⟩
  · refine ⟨hstore, by rw [hhistory, List.getLast?_concat], ?_, ?_⟩
    · intro r hr urls hurls hmem
      rw [hhistory] at hurls
      rcases List.mem_append.mp hurls with hurls | hurls
      · exact hold r hr urls hurls hmem
      · obtain rfl := List.mem_singleton.mp hurls
        have hids := hstore.ids
        rw [List.map_append] at hids
        exact List.disjoint_of_nodup_append hids hmem (List.mem_map_of_mem hr)
    · rw [hhistory]
      refine h.noReturn.append h.last fun r hr => ?_
      rcases hgrows.ids r (List.mem_append_left _ hr) with hmem | hfresh
      · obtain ⟨r', hr', hid⟩ := List.mem_map.mp hmem
        rcases List.mem_append.mp hr' with hr' | hr'
        · exact .inl (hid ▸ List.mem_map_of_mem hr')
        · exact .inr (hid ▸ h.fresh r' hr')
      · exact .inr (hissued hfresh)

theorem statement (h : PrimaryInv encode db) (hstmt : db.Statement encode db') : PrimaryInv encode db' :=
  h.commits (h.store.statement hstmt) (.of_statement hstmt) (.of_statement hstmt)

/-- The `UPDATE` of the click counts changes no other column. -/
theorem incrementClickCounts (h : PrimaryInv encode db) {entries : List (Sigma fun _ : String => ℕ)}
    {urls : List UrlRow} (hcount : Clicks.incrementClickCounts db.urls entries = some urls) :
    PrimaryInv encode (db.commitRows urls) := by
  obtain ⟨f, hissue, hcode, rfl⟩ := exists_map_of_incrementClickCounts hcount
  refine h.commits (h.store.update hissue hcode) (Grows.commitRows db fun r hr => ?_) (.commitRows db _)
  obtain ⟨r', hr', rfl⟩ := List.mem_map.mp hr
  rw [show (f r').urlId = r'.urlId from congrFun (urlId_comp hissue) r']
  exact List.mem_map_of_mem (List.mem_append_left _ hr')

end PrimaryInv

namespace SplitInv

variable {s s' : SplitUrlRepo}

theorem init : SplitInv ilike encode .init where
  primary := .init
  replayed := Nat.one_pos
  reads := fun _ hr => nomatch hr
  inOrder := .nil

/-- Tables that are committed do not change. -/
theorem primary_step (h : SplitInv ilike encode s) {db : Db} (hdb : PrimaryInv encode db)
    (hgrown : s.primary.history <+: db.history) : SplitInv ilike encode { s with primary := db } where
  primary := hdb
  replayed := h.replayed.trans_le hgrown.length_le
  reads r hr := by
    obtain ⟨hle, urls, hurls, hof⟩ := h.reads r hr
    obtain ⟨later, hlater⟩ := hgrown
    refine ⟨hle, urls, ?_, hof⟩
    rw [← hlater]
    exact List.getElem?_append_left (List.getElem?_eq_some_iff.mp hurls).1 ▸ hurls
  inOrder := h.inOrder

/-- A read of the table that the replica shows. -/
theorem answer (h : SplitInv ilike encode s) {read : ReplicaRead} (hof : read.Of ilike s.replica) :
    SplitInv ilike encode (s.answer read) where
  primary := h.primary
  replayed := h.replayed
  reads r hr := by
    rcases List.mem_append.mp hr with hr | hr
    · exact h.reads r hr
    · obtain rfl := List.mem_singleton.mp hr
      refine ⟨le_rfl, s.replica, ?_, hof⟩
      show s.primary.history[s.replayed]? = some s.replica
      rw [SplitUrlRepo.replica, List.getD_eq_getElem?_getD, List.getElem?_eq_getElem h.replayed]
      rfl
  inOrder := by
    show ((s.reads ++ [(read, s.replayed)]).map Prod.snd).Pairwise (· ≤ ·)
    rw [List.map_append, List.pairwise_append]
    refine ⟨h.inOrder, List.pairwise_singleton _ _, fun k hk l hl => ?_⟩
    obtain ⟨r, hr, rfl⟩ := List.mem_map.mp hk
    obtain rfl : l = s.replayed := List.mem_singleton.mp hl
    exact (h.reads r hr).1

theorem step (h : SplitInv ilike encode s) {e : SplitEvent} (hstep : s.step ilike encode e = some s') :
    SplitInv ilike encode s' := by
  cases e with
  | primary e =>
    obtain ⟨db, hdb, rfl⟩ := Option.map_eq_some_iff.mp hstep
    have hstmt := Db.statement_of_step hdb
    exact h.primary_step (h.primary.statement hstmt) (Grows.of_statement hstmt).history
  | incrementClickCounts entries result =>
    obtain ⟨urls, hurls, rfl⟩ := Option.map_eq_some_iff.mp hstep
    cases result.applied with
    | true => exact h.primary_step (h.primary.incrementClickCounts hurls) (List.prefix_append _ _)
    | false => exact h
  | replay =>
    obtain ⟨hmore, hs'⟩ := Option.ite_none_right_eq_some.mp hstep
    obtain rfl := Option.some.inj hs'
    refine ⟨h.primary, hmore, fun r hr => ?_, h.inOrder⟩
    obtain ⟨hle, hread⟩ := h.reads r hr
    exact ⟨hle.trans (Nat.le_succ _), hread⟩
  | getOriginalUrl shortCode =>
    obtain rfl := Option.some.inj hstep
    exact h.answer rfl
  | getUrlsPage userId cursor limit search =>
    obtain rfl := Option.some.inj hstep
    exact h.answer ⟨userId, cursor, limit, search, rfl⟩

end SplitInv

/-! ## What a reader sees -/

/-- A link that is shown has a row. -/
theorem ReplicaRead.Of.exists_row {urls : List UrlRow} {read : ReplicaRead} (h : read.Of ilike urls)
    {shortCode : String} (hshows : read.Shows shortCode) : ∃ r ∈ urls, r.shortCode = some shortCode := by
  cases read with
  | getOriginalUrl c result =>
    obtain ⟨rfl, hsome⟩ := hshows
    obtain ⟨link, hlink⟩ := Option.isSome_iff_exists.mp hsome
    obtain ⟨r, hr, hcode, -⟩ := getOriginalUrl_eq_some (h.symm.trans hlink)
    exact ⟨r, hr, hcode⟩
  | getUrlsPage result =>
    obtain ⟨userId, cursor, limit, search, hpage⟩ := h
    cases result with
    | error e => cases hshows
    | ok page =>
      obtain ⟨u, hu, rfl⟩ := hshows
      obtain ⟨r, hr, hdecode, -⟩ := mem_getUrlsPage hpage.symm hu
      obtain ⟨c, hc, rfl⟩ := Option.map_eq_some_iff.mp hdecode
      exact ⟨r, hr, hc⟩

/-- And one that is missed has none. -/
theorem ReplicaRead.Of.no_row {urls : List UrlRow} {read : ReplicaRead} (h : read.Of ilike urls)
    {shortCode : String} (hmisses : read.Misses shortCode) : ∀ r ∈ urls, r.shortCode ≠ some shortCode := by
  cases read with
  | getOriginalUrl c result =>
    obtain ⟨rfl, rfl⟩ := hmisses
    intro r hr hcode
    have hnone := List.find?_eq_none.mp (Option.map_eq_none_iff.mp h.symm) r hr
    exact hnone (decide_eq_true hcode)
  | getUrlsPage result => cases hmisses

/-- **Gone stays gone.** A reader of the replica that has seen a link, and then that there is none, does not
see it again, however late the replica is and whatever calls, deletions, cascades and flushes are under way. -/
theorem gone_stays_gone (hencode : Set.InjOn encode (Set.Ioo 0 (2 ^ 63))) {es : List SplitEvent}
    {s : SplitUrlRepo} (hrun : Run (SplitUrlRepo.step ilike encode) Any .init es s)
    {r₁ r₂ r₃ : ReplicaRead × ℕ} (hsub : [r₁, r₂, r₃].Sublist s.reads) {shortCode : String}
    (hseen : r₁.1.Shows shortCode) (hgone : r₂.1.Misses shortCode) : ¬r₃.1.Shows shortCode := by
  intro hagain
  have h : SplitInv ilike encode s := hrun.induct (fun _ _ _ hinv _ hstep => hinv.step hstep) .init
  have hle : [r₁.2, r₂.2, r₃.2].Pairwise (· ≤ ·) := h.inOrder.sublist (hsub.map Prod.snd)
  obtain ⟨-, urls₁, h₁, hof₁⟩ := h.reads r₁ (hsub.subset (by simp))
  obtain ⟨-, urls₂, h₂, hof₂⟩ := h.reads r₂ (hsub.subset (by simp))
  obtain ⟨-, urls₃, h₃, hof₃⟩ := h.reads r₃ (hsub.subset (by simp))
  obtain ⟨row₁, hrow₁, hcode₁⟩ := hof₁.exists_row hseen
  obtain ⟨row₃, hrow₃, hcode₃⟩ := hof₃.exists_row hagain
  have hstore := h.primary.store
  have hmem₁ := List.mem_of_getElem? h₁
  have hid : row₁.urlId = row₃.urlId :=
    hstore.id_eq_of_code hencode hmem₁ hrow₁ (List.mem_of_getElem? h₃) hrow₃ (hcode₁.trans hcode₃.symm)
  have hbetween : r₂.2 ∈ visible s.primary.history row₁.urlId := by
    have hvisible₁ : r₁.2 ∈ visible s.primary.history row₁.urlId := ⟨urls₁, h₁, List.mem_map_of_mem hrow₁⟩
    have hvisible₃ : r₃.2 ∈ visible s.primary.history row₁.urlId :=
      ⟨urls₃, h₃, hid ▸ List.mem_map_of_mem hrow₃⟩
    simp only [List.pairwise_cons, List.mem_cons, forall_eq_or_imp] at hle
    exact (h.primary.noReturn row₁.urlId).out hvisible₁ hvisible₃ ⟨hle.1.1, hle.2.1.1⟩
  -- a row keeps its code
  obtain ⟨urls, hurls, hmem⟩ := hbetween
  obtain rfl := Option.some.inj (hurls.symm.trans h₂)
  obtain ⟨row₂, hrow₂, hid₂⟩ := List.mem_map.mp hmem
  refine hof₂.no_row hgone row₂ hrow₂ ?_
  rw [(hstore.row_ok (List.mem_of_getElem? h₂) hrow₂).2, hid₂, ← (hstore.row_ok hmem₁ hrow₁).2, hcode₁]

/-- A link is deleted, read from the table before, and then missed twice. -/
theorem gone_stays_gone_of_lag :
    ∃ (s : SplitUrlRepo) (r₁ r₂ r₃ : ReplicaRead × ℕ), s.reads = [r₁, r₂, r₃] ∧ r₁.1.Shows "1" ∧
      r₂.1.Misses "1" ∧ ¬r₃.1.Shows "1" := by
  have hlink : ∃ s, exec (SplitUrlRepo.step (Urls.ilike Char.toLower) base62Encode) Any .init
      [.primary (.call "https://a.example" 7 none), .primary (.select 0 0), .primary (.insert 0 1 0),
        .primary (.assign 0), .primary (.commit 0 .ok), .replay, .primary (.deleteUrl 1 7 .ok),
        .getOriginalUrl "1", .replay, .getOriginalUrl "1", .getOriginalUrl "1"] = some s ∧
      s.reads = [(.getOriginalUrl "1" (some ("https://a.example", none)), 1),
        (.getOriginalUrl "1" none, 2), (.getOriginalUrl "1" none, 2)] := ⟨_, rfl, rfl⟩
  obtain ⟨s, hexec, hreads⟩ := hlink
  have hseen : (ReplicaRead.getOriginalUrl "1" (some ("https://a.example", none))).Shows "1" := ⟨rfl, rfl⟩
  have hgone : (ReplicaRead.getOriginalUrl "1" none).Misses "1" := ⟨rfl, rfl⟩
  have hsub := List.Sublist.refl s.reads
  nth_rewrite 1 [hreads] at hsub
  exact ⟨s, _, _, _, hreads, hseen, hgone,
    gone_stays_gone base62Encode_injOn (run_of_exec hexec) hsub hseen hgone⟩

end Bittuly.Urls
