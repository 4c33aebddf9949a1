import Bittuly.Consumer.ClickCounts
import Bittuly.Consumer.ClickLedger
import Bittuly.Lib.Total
import Bittuly.Urls.Explained

/-!
# From redirects to click counts

References: `services/url-service/src/handlers.rs` (`get_original_url`), `libs/shared/src/rabbitmq.rs`
(`publish`), `services/consumer-service/src/main.rs` (the click events task, `increment_click_counts`).

`Pipeline` joins what the other modules treat alone: the instances with their caches and the urls table,
the tasks that publish a click for each link that is followed, the queue, and the consumer, whose flushes
update the same table. What a row shows as its `click_count` is compared with the redirects that were
answered.

The task is spawned before the redirect is built, so a link is also followed when its target turns out to
be no header value. There are no publisher confirms, and a message that no queue takes is dropped with
`Ok`: what counts of a publication is whether its message arrives. The broker does not restart.
-/

namespace Bittuly.Analytics

open Amqp Runs Urls Clicks

variable (encode : ℤ → String)

/-! ## The pipeline -/

/-- The url service, its publication tasks, and the consumer with its queue. -/
structure Pipeline where
  world : World
  /-- The codes of spawned tasks that have a click to publish. -/
  publishing : List String
  clicks : Clicks.System

/-- One step of one party. -/
inductive PipelineEvent
  | world (e : WorldEvent)
  /-- The `k`-th task publishes, and its message arrives at the queue or does not. -/
  | publish (k : ℕ) (arrives : Bool)
  /-- A step of the consumer; a batch that is flushed iterates in this order. -/
  | consumer (e : Clicks.Event) (entries : List (Sigma fun _ : String => ℕ))

/-- The codes of answered redirects. -/
def redirected (answers : List LoggedAnswer) : List String :=
  answers.filterMap fun a =>
    match a.response with
    | .temporaryRedirect _ => some a.shortCode
    | _ => none

/-- A message that no task of the url service has sent. -/
def isPublish : Clicks.Event → Bool
  | .publish _ => true
  | _ => false

/-- The codes of requests that found a link to follow: redirected, or answered 500 for its target. -/
def followed (answers : List LoggedAnswer) : List String :=
  answers.filterMap fun a =>
    match a.response with
    | .temporaryRedirect _ | .internalServerError => some a.shortCode
    | _ => none

namespace Pipeline

/-- No links, no clicks. -/
def init (now : Instant) : Pipeline where
  world := World.init now
  publishing := []
  clicks := Clicks.System.init

/-- The table after a step of the consumer: a flush that commits runs its `UPDATE` on it. -/
def applyFlushes (db : Db) (before after : Clicks.System)
    (entries : List (Sigma fun _ : String => ℕ)) : Option Db :=
  match after.flushes.drop before.flushes.length with
  | [] => some db
  | f :: _ =>
    if entries.Perm f.batch.entries then
      (incrementClickCounts db.urls entries).map db.commitRows
    else none

/-- One step. -/
def step (s : Pipeline) : PipelineEvent → Option Pipeline
  | .world e => (s.world.step encode e).map fun world =>
    { s with
      world
      -- each link that is followed spawns a task
      publishing := s.publishing ++ followed (world.answers.drop s.world.answers.length) }
  | .publish k arrives =>
    match s.publishing[k]? with
    | none => none
    | some shortCode =>
      let s : Pipeline := { s with publishing := s.publishing.eraseIdx k }
      if arrives then (s.clicks.step (.publish shortCode.toUTF8)).map fun clicks => { s with clicks }
      else some s
  | .consumer e entries =>
    if isPublish e then none
    else
      (s.clicks.step e).bind fun clicks =>
        (applyFlushes s.world.db s.clicks clicks entries).map fun db =>
          { s with world := { s.world with db }, clicks }

/-- How many redirects for a code have been answered. -/
def redirects (s : Pipeline) (c : String) : ℕ :=
  (redirected s.world.answers).count c

/-- How many requests for a code have found its link. -/
def follows (s : Pipeline) (c : String) : ℕ :=
  (followed s.world.answers).count c

/-- A click that never reaches the queue. -/
def lost (c : String) (s : Pipeline) : PipelineEvent → ℕ
  | .publish k false => if s.publishing[k]? = some c then 1 else 0
  | _ => 0

end Pipeline

/-! ## How statements change rows -/

section Statements

variable {encode : ℤ → String} {db db' : Db}

/-- The reactivating `UPDATE` advances its call, and may commit a table. -/
theorem reactivate_eq (db : Db) (n : ℕ) (call : AddCall) (urlId : ℤ) (now : Instant) (result : DbResult) :
    ∃ pc, db.reactivate n call urlId now result = db.setPc n call pc ∨
      db.reactivate n call urlId now result =
        (db.commitRows (db.urls.map fun r =>
          if r.urlId = urlId then Db.reactivated r call.expiresAt now else r)).setPc n call pc := by
  unfold Db.reactivate
  split
  · exact ⟨_, Or.inl rfl⟩
  · cases result.applied with
    | true =>
      simp only [if_true]
      split
      · exact ⟨_, Or.inr rfl⟩
      · exact ⟨_, Or.inr rfl⟩
      · exact ⟨_, Or.inr rfl⟩
    | false =>
      simp only [Bool.false_eq_true, if_false]
      split
      · exact ⟨_, Or.inl rfl⟩
      · exact ⟨_, Or.inl rfl⟩
      · exact ⟨_, Or.inl rfl⟩

/-- An `INSERT` draws a value, and adds its row unless the pair is taken. -/
theorem insert_eq {n : ℕ} {call : AddCall} {urlId : ℤ} {now : Instant}
    (h : db.insert n call urlId now = some db') :
    urlId ∉ db.issued.map Issue.urlId ∧ db'.urls = db.urls ∧ db'.history = db.history ∧
      (db'.pending = db.pending ∨ db'.pending = db.pending ++ [Db.newRow call urlId now]) := by
  unfold Db.insert at h
  simp only at h
  split at h
  · cases h
  rename_i hid
  have hfresh : urlId ∉ db.issued.map Issue.urlId := fun hmem => hid (Or.inr (Or.inr hmem))
  split at h
  · cases h
  split at h
  · obtain rfl := Option.some.inj h
    exact ⟨hfresh, rfl, rfl, Or.inl rfl⟩
  · obtain rfl := Option.some.inj h
    exact ⟨hfresh, rfl, rfl, Or.inr rfl⟩

/-- The `UPDATE` that sets a code is about pending rows. -/
theorem assign_eq {n : ℕ} {call : AddCall} {urlId : ℤ} (h : db.assign encode n call urlId = some db') :
    db'.urls = db.urls ∧ db'.history = db.history ∧
      ∀ r ∈ db'.pending, ∃ r₀ ∈ db.pending, r₀.urlId = r.urlId ∧ r₀.clickCount = r.clickCount := by
  unfold Db.assign at h
  simp only at h
  split at h
  · cases h
  split at h
  · obtain rfl := Option.some.inj h
    exact ⟨rfl, rfl, fun r hr => ⟨r, List.mem_of_mem_filter hr, rfl, rfl⟩⟩
  · obtain rfl := Option.some.inj h
    refine ⟨rfl, rfl, ?_⟩
    intro r hr
    obtain ⟨r₀, hr₀, rfl⟩ := List.mem_map.mp hr
    refine ⟨r₀, hr₀, ?_, ?_⟩
    · split <;> rfl
    · split <;> rfl

/-- A row after a statement: an old one with its clicks, or one of a transaction that commits. -/
theorem row_of_statement (h : db.Statement encode db') {r : UrlRow} (hr : r ∈ db'.urls) :
    (∃ r₀ ∈ db.urls, r₀.shortCode = r.shortCode ∧ r₀.clickCount = r.clickCount) ∨ r ∈ db.pending := by
  have hold : db'.urls ⊆ db.urls →
      ∃ r₀ ∈ db.urls, r₀.shortCode = r.shortCode ∧ r₀.clickCount = r.clickCount := fun hurls =>
    ⟨r, hurls hr, rfl, rfl⟩
  cases h with
  | call _ _ _ => exact Or.inl (hold (List.Subset.refl _))
  | select _ _ _ => exact Or.inl (hold (List.Subset.refl _))
  | reactivate n call urlId now result =>
    left
    obtain ⟨pc, heq | heq⟩ := reactivate_eq db n call urlId now result
    · rw [heq] at hr
      exact ⟨r, hr, rfl, rfl⟩
    · rw [heq] at hr
      obtain ⟨r₀, hr₀, rfl⟩ := List.mem_map.mp hr
      refine ⟨r₀, hr₀, ?_, ?_⟩
      · split <;> rfl
      · split <;> rfl
  | insert hins => exact Or.inl (hold fun _ hmem => (insert_eq hins).2.1 ▸ hmem)
  | assign _ _ hassign => exact Or.inl (hold fun _ hmem => (assign_eq hassign).1 ▸ hmem)
  | @commit n call urlId _ _ result =>
    have hmem : r ∈ db.urls ∨ r ∈ db.pending.filter fun r => r.urlId = urlId := by
      unfold Db.commit at hr
      simp only at hr
      cases happlied : result.applied with
      | true =>
        rw [happlied] at hr
        exact List.mem_append.mp hr
      | false =>
        rw [happlied] at hr
        exact Or.inl hr
    rcases hmem with hurl | hpending
    · exact Or.inl ⟨r, hurl, rfl, rfl⟩
    · exact Or.inr (List.mem_of_mem_filter hpending)
  | fail _ _ => exact Or.inl (hold (List.Subset.refl _))
  | delete p result =>
    left
    unfold Db.deleteWhere at hr
    split at hr
    · exact ⟨r, List.mem_of_mem_filter hr, rfl, rfl⟩
    · exact ⟨r, hr, rfl, rfl⟩

/-- A pending row after a statement: one that was pending, or a new one without clicks. -/
theorem pending_of_statement (h : db.Statement encode db') {r : UrlRow} (hr : r ∈ db'.pending) :
    (∃ r₀ ∈ db.pending, r₀.urlId = r.urlId ∧ r₀.clickCount = r.clickCount) ∨
      r.urlId ∉ db.issued.map Issue.urlId ∧ r.clickCount = 0 := by
  have hold : db'.pending ⊆ db.pending →
      ∃ r₀ ∈ db.pending, r₀.urlId = r.urlId ∧ r₀.clickCount = r.clickCount := fun hpending =>
    ⟨r, hpending hr, rfl, rfl⟩
  cases h with
  | call _ _ _ => exact Or.inl (hold (List.Subset.refl _))
  | select _ _ _ => exact Or.inl (hold (List.Subset.refl _))
  | reactivate n call urlId now result =>
    left
    obtain ⟨pc, heq | heq⟩ := reactivate_eq db n call urlId now result
    · rw [heq] at hr
      exact ⟨r, hr, rfl, rfl⟩
    · rw [heq] at hr
      exact ⟨r, hr, rfl, rfl⟩
  | insert hins =>
    obtain ⟨hfresh, -, -, hpending | hpending⟩ := insert_eq hins
    · exact Or.inl (hold fun _ hmem => hpending ▸ hmem)
    · rw [hpending] at hr
      rcases List.mem_append.mp hr with hmem | hnew
      · exact Or.inl ⟨r, hmem, rfl, rfl⟩
      · rw [List.mem_singleton.mp hnew]
        exact Or.inr ⟨hfresh, rfl⟩
  | assign _ _ hassign => exact Or.inl ((assign_eq hassign).2.2 r hr)
  | @commit n call urlId _ _ result =>
    refine Or.inl (hold ?_)
    unfold Db.commit
    simp only
    cases result.applied with
    | true => exact List.filter_sublist.subset
    | false => exact List.filter_sublist.subset
  | fail _ _ => exact Or.inl (hold List.filter_sublist.subset)
  | delete p result =>
    refine Or.inl (hold ?_)
    unfold Db.deleteWhere
    split
    · exact List.Subset.refl _
    · exact List.Subset.refl _

/-- A statement commits one table at most. -/
theorem history_of_statement (h : db.Statement encode db') :
    db'.history = db.history ∨ db'.history = db.history ++ [db'.urls] := by
  cases h with
  | call _ _ _ => exact Or.inl rfl
  | select _ _ _ => exact Or.inl rfl
  | reactivate n call urlId now result =>
    obtain ⟨pc, heq | heq⟩ := reactivate_eq db n call urlId now result
    · rw [heq]
      exact Or.inl rfl
    · rw [heq]
      exact Or.inr rfl
  | insert hins => exact Or.inl (insert_eq hins).2.2.1
  | assign _ _ hassign => exact Or.inl (assign_eq hassign).2.1
  | @commit n call urlId _ _ result =>
    unfold Db.commit
    simp only
    cases result.applied with
    | true => exact Or.inr rfl
    | false => exact Or.inl rfl
  | fail _ _ => exact Or.inl rfl
  | delete p result =>
    unfold Db.deleteWhere
    split
    · exact Or.inr rfl
    · exact Or.inl rfl

end Statements

/-! ## Only codes of links are clicked -/

/-- A committed table has a row with the code. -/
def Named (db : Db) (c : String) : Prop :=
  ∃ urls ∈ db.history, ∃ r ∈ urls, r.shortCode = some c

/-- The target of a result was committed under the code. -/
def Targets (db : Db) (c : String) (value : CachedUrlResult) : Prop :=
  ∀ row ∈ value, Committed db c row.1

/-- The caches hold committed targets. -/
def targets (db : Db) : CacheProp where
  redis c en := Committed db c en.value
  l1 c en := Targets db c en.value
  fill f := Committed db f.fill.shortCode f.fill.originalUrl
  flight c _ value _ _ := Targets db c value

section Names

variable {encode : ℤ → String} {db db' : Db} {s s' : World} {c : String}

theorem Named.mono (hdb : db.history <+: db'.history) (h : Named db c) : Named db' c := by
  obtain ⟨urls, hurls, hr⟩ := h
  exact ⟨urls, hdb.subset hurls, hr⟩

theorem Targets.mono (hdb : db.history <+: db'.history) {value : CachedUrlResult}
    (h : Targets db c value) : Targets db' c value :=
  fun row hrow => (h row hrow).mono hdb

theorem named_of_committed {originalUrl : String} (h : Committed db c originalUrl) : Named db c := by
  obtain ⟨urls, hurls, r, hr, hcode, -⟩ := h
  exact ⟨urls, hurls, r, hr, hcode⟩

/-- A later table has the targets as well. -/
theorem targets_mono (hdb : db.history <+: db'.history) (h : s.Sat (targets db)) : s.Sat (targets db') :=
  ⟨fun c en hen => (h.redis c en hen).mono hdb, fun i c en hen => (h.l1 i c en hen).mono hdb,
    fun f hf => (h.fills f hf).mono hdb,
    fun i c f hf value source readAt hpc => (h.flights i c f hf value source readAt hpc).mono hdb⟩

/-- The rules for targets. -/
theorem targets_rules (hstore : StoreInv encode s.db) {e : WorldEvent} (hstep : s.Step encode e s') :
    s.Rules e (targets s.db) (targets s'.db) := by
  have hgrows := (hstep.store hstore).2.history
  have hread : ∀ {replica urls}, s.readTable replica = some urls → urls ∈ s'.db.history :=
    fun htable => hgrows.subset (World.readTable_mem hstore htable)
  refine ⟨fun _ _ h => h.mono hgrows, fun _ _ h => h.mono hgrows, fun _ h => h.mono hgrows,
    fun _ _ _ _ _ h => h.mono hgrows, ?_, ?_, ?_, ?_, ?_⟩
  · intro k f en _ _ hf hen
    show Committed s'.db f.fill.shortCode en.value
    rw [Fill.entry_value hen]
    exact hf.mono hgrows
  · intro i c f en _ _ hen _ row hrow
    rw [← Option.some.inj hrow]
    exact hen.mono hgrows
  · intro i c f replica urls _ _ htable row hrow
    exact Committed.of_read (hread htable) hrow
  · intro i c f replica urls originalUrl expiresAt _ _ htable hrow
    exact Committed.of_read (hread htable) hrow
  · intro i c f value source readAt _ _ _ hf
    exact hf.mono hgrows

/-- A link that is followed has a committed target. -/
theorem target_of_cause {e : WorldEvent} {response : Response}
    (hcause : s.Cause (targets s.db) c e response)
    (hfollowed : response = .internalServerError ∨ ∃ location, response = .temporaryRedirect location) :
    ∃ originalUrl, response = redirectTo originalUrl ∧ Committed s.db c originalUrl := by
  have hsome : ∀ {value : CachedUrlResult}, response = respond s.now value → Targets s.db c value →
      ∃ originalUrl, response = redirectTo originalUrl ∧ Committed s.db c originalUrl := by
    intro value hvalue htargets
    have hanswer : respond s.now value ≠ .notFound ∧ respond s.now value ≠ .gone := by
      rw [← hvalue]
      rcases hfollowed with rfl | ⟨location, rfl⟩
      · exact ⟨nofun, nofun⟩
      · exact ⟨nofun, nofun⟩
    obtain ⟨originalUrl, hto, rfl | ⟨exp, rfl, -⟩⟩ := respond_target hanswer
    · exact ⟨originalUrl, hvalue.trans hto, htargets _ rfl⟩
    · exact ⟨originalUrl, hvalue.trans hto, htargets _ rfl⟩
  cases hcause with
  | hit hp _ => exact hsome rfl hp
  | ended _ _ hp => exact hsome rfl hp
  | failed =>
    rcases hfollowed with h | ⟨location, h⟩
    · cases h
    · cases h

/-- What a new answer says of its link. -/
theorem target_of_answer (hcaches : s.Sat (targets s.db)) {e : WorldEvent} (hstep : s.Step encode e s')
    {a : LoggedAnswer} (ha : a ∈ s'.answers.drop s.answers.length)
    (hfollowed : a.response = .internalServerError ∨
      ∃ location, a.response = .temporaryRedirect location) :
    ∃ originalUrl, a.response = redirectTo originalUrl ∧ Committed s.db a.shortCode originalUrl := by
  obtain ⟨new, hanswers, hnew⟩ := hcaches.step_answers hstep
  rw [hanswers, List.drop_left] at ha
  obtain ⟨-, -, hcause⟩ := hnew a ha
  exact target_of_cause hcause hfollowed

/-- Names of links that are followed. -/
theorem named_followed (hcaches : s.Sat (targets s.db)) {e : WorldEvent} (hstep : s.Step encode e s')
    (hc : c ∈ followed (s'.answers.drop s.answers.length)) : Named s.db c := by
  obtain ⟨a, ha, hcode⟩ := List.mem_filterMap.mp hc
  split at hcode
  · rename_i location hredirect
    obtain rfl := Option.some.inj hcode
    obtain ⟨originalUrl, -, hcommitted⟩ := target_of_answer hcaches hstep ha (Or.inr ⟨location, hredirect⟩)
    exact named_of_committed hcommitted
  · rename_i herror
    obtain rfl := Option.some.inj hcode
    obtain ⟨originalUrl, -, hcommitted⟩ := target_of_answer hcaches hstep ha (Or.inl herror)
    exact named_of_committed hcommitted
  · cases hcode

end Names

/-! ## Rows count flushed clicks -/

/-- The rows of the table have the clicks that were flushed for their codes, and rows to come are new. -/
structure Counted (db : Db) (clicks : Clicks.System) : Prop where
  rows : ∀ r ∈ db.urls, ∀ c, r.shortCode = some c → r.clickCount = clicks.totalDelta c
  pending : ∀ r ∈ db.pending, r.clickCount = 0
  fresh : ∀ r ∈ db.pending, ∀ urls ∈ db.history, r.urlId ∉ urls.map UrlRow.urlId

section Rows

variable {encode : ℤ → String} {db db' : Db} {clicks : Clicks.System}

/-- A code that was never named was never flushed. -/
theorem totalDelta_of_unnamed (hclicks : clicks.ClickInv) (hledger : clicks.Ledger) {c : String}
    (hpublished : ∀ m ∈ clicks.published, ∃ c, Named db c ∧ m.data = c.toUTF8) (hc : ¬Named db c) :
    clicks.totalDelta c = 0 := by
  rw [Clicks.System.totalDelta_eq hclicks, List.countP_eq_zero]
  intro d hd hdata
  obtain ⟨f, hf, hdf⟩ := List.mem_flatMap.mp hd
  obtain ⟨c', hc', hdata'⟩ := hpublished d.msg (hledger.flushed f hf d hdf)
  have hcode : d.msg.shortCode = some c := ClickEvent.shortCode_of_data (by simpa using hdata)
  rw [ClickEvent.shortCode_of_data hdata'] at hcode
  obtain rfl := Option.some.inj hcode
  exact hc hc'

/-- A statement leaves the counts alone: a row that appears has no clicks, and none were flushed for it. -/
theorem Counted.statement (hencode : Set.InjOn encode (Set.Ioo 0 (2 ^ 63))) (hstore : StoreInv encode db)
    (hclicks : clicks.ClickInv) (hledger : clicks.Ledger)
    (hpublished : ∀ m ∈ clicks.published, ∃ c, Named db c ∧ m.data = c.toUTF8) (h : Counted db clicks)
    (hstmt : db.Statement encode db') : Counted db' clicks := by
  have hstore' := hstore.statement hstmt
  refine ⟨?_, ?_, ?_⟩
  · intro r hr c hcode
    rcases row_of_statement hstmt hr with ⟨r₀, hr₀, hcode₀, hcount⟩ | hpending
    · rw [← hcount]
      exact h.rows r₀ hr₀ c (hcode₀.trans hcode)
    · rw [h.pending r hpending, totalDelta_of_unnamed hclicks hledger hpublished, Nat.cast_zero]
      -- a row of the history with this code would have the id of the row that appears
      rintro ⟨urls, hurls, r', hr', hcode'⟩
      have hgrows := (Grows.of_statement hstmt).history
      have hid := hstore'.id_eq_of_code hencode hstore'.current hr (hgrows.subset hurls) hr'
        (hcode.trans hcode'.symm)
      exact h.fresh r hpending urls hurls (List.mem_map.mpr ⟨r', hr', hid.symm⟩)
  · intro r hr
    rcases pending_of_statement hstmt hr with ⟨r₀, hr₀, -, hcount⟩ | ⟨-, hzero⟩
    · rw [← hcount]
      exact h.pending r₀ hr₀
    · exact hzero
  · intro r hr urls hurls hmem
    have hold : urls ∈ db.history → False := by
      intro hurls
      rcases pending_of_statement hstmt hr with ⟨r₀, hr₀, hid, -⟩ | ⟨hnew, -⟩
      · exact h.fresh r₀ hr₀ urls hurls (hid ▸ hmem)
      · obtain ⟨r', hr', hid⟩ := List.mem_map.mp hmem
        have hissued := List.mem_map_of_mem (f := Issue.urlId) (hstore.row_ok hurls hr').1
        exact hnew (hid ▸ hissued)
    rcases history_of_statement hstmt with hhistory | hhistory
    · exact hold (hhistory ▸ hurls)
    · rw [hhistory] at hurls
      rcases List.mem_append.mp hurls with hbefore | hnow
      · exact hold hbefore
      · rw [List.mem_singleton.mp hnow] at hmem
        have hnodup := hstore'.ids
        rw [List.map_append, List.nodup_append'] at hnodup
        exact hnodup.2.2 hmem (List.mem_map_of_mem hr)

theorem addClicks_same (codes : List String) (r : UrlRow) :
    (addClicks codes r).issue = r.issue ∧ (addClicks codes r).shortCode = r.shortCode := by
  unfold addClicks
  split
  · exact ⟨rfl, rfl⟩
  · exact ⟨rfl, rfl⟩

/-- The `UPDATE` of a flush is about counts only. -/
theorem storeInv_addClicks (hstore : StoreInv encode db) (codes : List String) :
    StoreInv encode (db.commitRows (db.urls.map (addClicks codes))) :=
  hstore.update (fun r => (addClicks_same codes r).1) fun r => (addClicks_same codes r).2

/-- The `UPDATE` of a flush adds to the rows what the flush adds to the total. -/
theorem Counted.flush (hstore : StoreInv encode db) {clicks' : Clicks.System} (h : Counted db clicks)
    {f : Flush} (hflushes : clicks'.flushes = clicks.flushes ++ [f])
    (hbatch : f.batch = Tally.ofList (codes f.counted)) :
    Counted (db.commitRows (db.urls.map (addClicks (codes f.counted)))) clicks' := by
  refine ⟨?_, h.pending, ?_⟩
  · intro r hr c hcode
    obtain ⟨r₀, hr₀, rfl⟩ := List.mem_map.mp hr
    rw [(addClicks_same _ r₀).2] at hcode
    have htotal : clicks'.totalDelta c = clicks.totalDelta c + (codes f.counted).count c := by
      rw [Clicks.System.totalDelta, hflushes, List.map_append, List.sum_append, List.map_singleton,
        List.sum_singleton, hbatch, Tally.get_ofList]
      rfl
    rw [addClicks_of_some hcode, htotal, Nat.cast_add, ← h.rows r₀ hr₀ c hcode]
  · intro r hr urls hurls hmem
    rcases List.mem_append.mp hurls with hbefore | hnow
    · exact h.fresh r hr urls hbefore hmem
    · rw [List.mem_singleton.mp hnow, List.map_map,
        urlId_comp fun r => (addClicks_same (codes f.counted) r).1] at hmem
      exact h.fresh r hr db.urls hstore.current hmem

theorem Counted.congr (h : Counted db clicks) {clicks' : Clicks.System}
    (hflushes : clicks'.flushes = clicks.flushes) : Counted db clicks' := by
  refine ⟨?_, h.pending, h.fresh⟩
  intro r hr c hcode
  rw [h.rows r hr c hcode, Clicks.System.totalDelta, Clicks.System.totalDelta, hflushes]

end Rows

/-! ## Every run -/

/-- The invariant of the pipeline. -/
structure Inv (encode : ℤ → String) (s : Pipeline) : Prop where
  store : StoreInv encode s.world.db
  caches : s.world.Sat (targets s.world.db)
  /-- Answers 500 are about targets that are no header values. -/
  errors : ∀ a ∈ s.world.answers, a.response = .internalServerError →
    ∃ originalUrl, Committed s.world.db a.shortCode originalUrl ∧ locates originalUrl = false
  clicks : s.clicks.ClickInv
  ledger : s.clicks.Ledger
  publishing : ∀ c ∈ s.publishing, Named s.world.db c
  published : ∀ m ∈ s.clicks.published, ∃ c, Named s.world.db c ∧ m.data = c.toUTF8
  counted : Counted s.world.db s.clicks

section Invariant

variable {encode : ℤ → String} {s s' t : Pipeline}

theorem inv_init (now : Instant) : Inv encode (Pipeline.init now) where
  store := storeInv_init
  caches := World.sat_init now _
  errors a ha := by cases ha
  clicks := Clicks.System.clickInv_init
  ledger := Clicks.System.ledger_init
  publishing c hc := by cases hc
  published m hm := by cases hm
  counted := ⟨fun _ hr => (List.not_mem_nil hr).elim, fun _ hr => (List.not_mem_nil hr).elim,
    fun _ hr => (List.not_mem_nil hr).elim⟩

/-- A step of the url service. -/
theorem Inv.world (hencode : Set.InjOn encode (Set.Ioo 0 (2 ^ 63))) (h : Inv encode s) {world : World}
    {e : WorldEvent} (hstep : s.world.Step encode e world) :
    Inv encode { s with
      world
      publishing := s.publishing ++ followed (world.answers.drop s.world.answers.length) } := by
  obtain ⟨hstore, hgrows⟩ := hstep.store h.store
  refine ⟨hstore, h.caches.step (targets_rules h.store hstep) hstep, ?_, h.clicks, h.ledger, ?_, ?_, ?_⟩
  · intro a ha herror
    obtain ⟨new, hanswers, -⟩ := h.caches.step_answers hstep
    rw [hanswers] at ha
    rcases List.mem_append.mp ha with hold | hnew
    · obtain ⟨originalUrl, hcommitted, hlocates⟩ := h.errors a hold herror
      exact ⟨originalUrl, hcommitted.mono hgrows.history, hlocates⟩
    · have hdrop : a ∈ world.answers.drop s.world.answers.length := by
        rw [hanswers, List.drop_left]
        exact hnew
      obtain ⟨originalUrl, hto, hcommitted⟩ := target_of_answer h.caches hstep hdrop (Or.inl herror)
      exact ⟨originalUrl, hcommitted.mono hgrows.history, redirectTo_eq_error_iff.mp (hto ▸ herror)⟩
  · intro c hc
    rcases List.mem_append.mp hc with hold | hnew
    · exact (h.publishing c hold).mono hgrows.history
    · exact (named_followed h.caches hstep hnew).mono hgrows.history
  · intro m hm
    obtain ⟨c, hc, hdata⟩ := h.published m hm
    exact ⟨c, hc.mono hgrows.history, hdata⟩
  · rcases hstep.db_cases with hdb | hstmt
    · show Counted world.db s.clicks
      rw [hdb]
      exact h.counted
    · exact h.counted.statement hencode h.store h.clicks h.ledger h.published hstmt

/-- A task is done, with or without a message. -/
theorem Inv.publish (h : Inv encode s) {k : ℕ} {c : String} (hk : s.publishing[k]? = some c)
    {clicks : Clicks.System} (hclicks : clicks = s.clicks ∨ s.clicks.step (.publish c.toUTF8) = some clicks) :
    Inv encode { s with publishing := s.publishing.eraseIdx k, clicks } := by
  have hpublishing : ∀ c ∈ s.publishing.eraseIdx k, Named s.world.db c := fun c hc =>
    h.publishing c (List.mem_of_mem_eraseIdx hc)
  rcases hclicks with rfl | hstep
  · exact ⟨h.store, h.caches, h.errors, h.clicks, h.ledger, hpublishing, h.published, h.counted⟩
  · have hflushes : clicks.flushes = s.clicks.flushes := by
      obtain rfl := Option.some.inj hstep
      rfl
    refine ⟨h.store, h.caches, h.errors, h.clicks.step hstep, h.ledger.step hstep, hpublishing, ?_,
      h.counted.congr hflushes⟩
    obtain rfl := Option.some.inj hstep
    intro m hm
    rcases List.mem_append.mp hm with hold | hnew
    · exact h.published m hold
    · rw [List.mem_singleton.mp hnew]
      exact ⟨c, h.publishing c (List.mem_of_getElem? hk), rfl⟩

/-- A step of the consumer, with the `UPDATE` of its flush. -/
theorem Inv.consumer (h : Inv encode s) {e : Clicks.Event} (he : isPublish e = false)
    {clicks : Clicks.System} (hstep : s.clicks.step e = some clicks)
    (hsmall : s.clicks.counted.length + 1 < 2 ^ 63) {entries : List (Sigma fun _ : String => ℕ)} {db : Db}
    (hdb : Pipeline.applyFlushes s.world.db s.clicks clicks entries = some db) :
    Inv encode { s with world := { s.world with db }, clicks } := by
  have hclicks := h.clicks.step hstep
  have hledger := h.ledger.step hstep
  have hadds := Clicks.System.adds_of_step hstep (by
    rintro data rfl
    cases he)
  have hpublished : ∀ {db' : Db}, s.world.db.history <+: db'.history →
      ∀ m ∈ clicks.published, ∃ c, Named db' c ∧ m.data = c.toUTF8 := by
    intro db' hhistory m hm
    rw [hadds.published] at hm
    obtain ⟨c, hc, hdata⟩ := h.published m hm
    exact ⟨c, hc.mono hhistory, hdata⟩
  unfold Pipeline.applyFlushes at hdb
  rcases hadds.flushes with ⟨hflushes, -⟩ | ⟨f, hflushes, hlength, -⟩
  · rw [hflushes, List.drop_length] at hdb
    obtain rfl := Option.some.inj hdb
    exact ⟨h.store, h.caches, h.errors, hclicks, hledger, h.publishing, hpublished (List.prefix_refl _),
      h.counted.congr hflushes⟩
  · rw [hflushes, List.drop_left] at hdb
    simp only at hdb
    split at hdb
    · rename_i hperm
      obtain ⟨urls, hurls, rfl⟩ := Option.map_eq_some_iff.mp hdb
      have hbatch := (hclicks.flush_eq f (by rw [hflushes]; simp)).2
      rw [hbatch] at hperm
      have hcodes : (codes f.counted).length ≤ f.counted.length := List.length_filterMap_le _ _
      have hcount : ∀ c, (codes f.counted).count c < 2 ^ 63 := fun c => by
        have hle := List.count_le_length (a := c) (l := codes f.counted)
        omega
      obtain rfl := incrementClickCounts_eq hperm hcount hurls
      have hhistory : s.world.db.history <+:
          (s.world.db.commitRows (s.world.db.urls.map (addClicks (codes f.counted)))).history :=
        List.prefix_append _ _
      have hcaches := targets_mono hhistory h.caches
      refine ⟨storeInv_addClicks h.store _, ⟨hcaches.redis, hcaches.l1, hcaches.fills, hcaches.flights⟩, ?_,
        hclicks, hledger, ?_, hpublished hhistory, h.counted.flush h.store hflushes hbatch⟩
      · intro a ha herror
        obtain ⟨originalUrl, hcommitted, hlocates⟩ := h.errors a ha herror
        exact ⟨originalUrl, hcommitted.mono hhistory, hlocates⟩
      · intro c hc
        exact (h.publishing c hc).mono hhistory
    · cases hdb

/-- What a step is. -/
theorem step_cases {e : PipelineEvent} (hstep : s.step encode e = some s') :
    (∃ w world, e = .world w ∧ s.world.Step encode w world ∧
      s' = { s with
        world
        publishing := s.publishing ++ followed (world.answers.drop s.world.answers.length) }) ∨
    (∃ k arrives c clicks, e = .publish k arrives ∧ s.publishing[k]? = some c ∧
      (if arrives then s.clicks.step (.publish c.toUTF8) = some clicks else clicks = s.clicks) ∧
      s' = { s with publishing := s.publishing.eraseIdx k, clicks }) ∨
    (∃ w entries clicks db, e = .consumer w entries ∧ isPublish w = false ∧
      s.clicks.step w = some clicks ∧
      Pipeline.applyFlushes s.world.db s.clicks clicks entries = some db ∧
      s' = { s with world := { s.world with db }, clicks }) := by
  cases e with
  | world w =>
    obtain ⟨world, hworld, rfl⟩ := Option.map_eq_some_iff.mp hstep
    exact Or.inl ⟨w, world, rfl, World.step_cases hworld, rfl⟩
  | publish k arrives =>
    right
    left
    simp only [Pipeline.step] at hstep
    split at hstep
    · cases hstep
    · rename_i c hk
      split at hstep
      · rename_i harrives
        obtain ⟨clicks, hclicks, rfl⟩ := Option.map_eq_some_iff.mp hstep
        exact ⟨k, arrives, c, clicks, rfl, hk, by rwa [if_pos harrives], rfl⟩
      · rename_i harrives
        obtain rfl := Option.some.inj hstep
        exact ⟨k, arrives, c, s.clicks, rfl, hk, by rw [if_neg harrives], rfl⟩
  | consumer w entries =>
    right
    right
    simp only [Pipeline.step] at hstep
    split at hstep
    · cases hstep
    · rename_i hw
      obtain ⟨clicks, hclicks, hstep⟩ := Option.bind_eq_some_iff.mp hstep
      obtain ⟨db, hdb, rfl⟩ := Option.map_eq_some_iff.mp hstep
      exact ⟨w, entries, clicks, db, rfl, by simpa using hw, hclicks, hdb, rfl⟩

/-- **One step.** It keeps the invariant and counts one click at most. -/
theorem Inv.step (hencode : Set.InjOn encode (Set.Ioo 0 (2 ^ 63))) (h : Inv encode s) {e : PipelineEvent}
    (hsmall : s.clicks.counted.length + 1 < 2 ^ 63) (hstep : s.step encode e = some s') :
    Inv encode s' ∧ s'.clicks.counted.length ≤ s.clicks.counted.length + 1 := by
  rcases step_cases hstep with ⟨w, world, rfl, hworld, rfl⟩ | ⟨k, arrives, c, clicks, rfl, hk, hclicks, rfl⟩ |
    ⟨w, entries, clicks, db, rfl, hw, hclicks, hdb, rfl⟩
  · exact ⟨h.world hencode hworld, Nat.le_succ _⟩
  · cases arrives with
    | true =>
      refine ⟨h.publish hk (Or.inr hclicks), ?_⟩
      obtain rfl := Option.some.inj hclicks
      exact Nat.le_succ _
    | false =>
      obtain rfl : clicks = s.clicks := hclicks
      exact ⟨h.publish hk (Or.inl rfl), Nat.le_succ _⟩
  · refine ⟨h.consumer hw hclicks hsmall hdb, ?_⟩
    have hadds := Clicks.System.adds_of_step hclicks (by
      rintro data rfl
      cases hw)
    rcases hadds.flushes with ⟨-, hlength⟩ | ⟨f, -, -, hempty⟩
    · exact hlength
    · show clicks.counted.length ≤ _
      rw [hempty]
      exact Nat.zero_le _

/-- The invariant in every run, as long as a batch cannot outgrow an `i64`. -/
theorem Inv.run {P : Pipeline → PipelineEvent → Prop} (hencode : Set.InjOn encode (Set.Ioo 0 (2 ^ 63)))
    {es : List PipelineEvent} (hrun : Run (Pipeline.step encode) P s es t) (h : Inv encode s)
    (hsmall : s.clicks.counted.length + es.length < 2 ^ 63) : Inv encode t := by
  induction hrun with
  | nil => exact h
  | @cons s s' t e es _ hstep _ ih =>
    rw [List.length_cons] at hsmall
    obtain ⟨h', hle⟩ := h.step hencode (by omega) hstep
    exact ih h' (by omega)

/-! ## The account of a link -/

theorem followed_append (answers new : List LoggedAnswer) :
    followed (answers ++ new) = followed answers ++ followed new :=
  List.filterMap_append

/-- A redirect follows a link. -/
theorem redirected_sublist (answers : List LoggedAnswer) :
    (redirected answers).Sublist (followed answers) := by
  induction answers with
  | nil => exact List.Sublist.refl _
  | cons a answers ih =>
    unfold redirected followed
    simp only [List.filterMap_cons]
    cases a.response with
    | temporaryRedirect location => exact ih.cons_cons _
    | internalServerError => exact ih.cons _
    | gone => exact ih
    | notFound => exact ih
    | serviceUnavailable => exact ih

/-- Without answers 500 for a code, whoever followed its link was redirected. -/
theorem count_followed {answers : List LoggedAnswer} {c : String}
    (h : ∀ a ∈ answers, a.shortCode = c → a.response ≠ .internalServerError) :
    (followed answers).count c = (redirected answers).count c := by
  induction answers with
  | nil => rfl
  | cons a answers ih =>
    have ih := ih fun b hb => h b (List.mem_cons_of_mem _ hb)
    have ha := h a List.mem_cons_self
    unfold redirected followed at ih ⊢
    simp only [List.filterMap_cons]
    cases hresponse : a.response with
    | temporaryRedirect location =>
      simp only [List.count_cons, ih]
    | internalServerError =>
      have hcode : a.shortCode ≠ c := fun hcode => ha hcode hresponse
      simpa [List.count_cons_of_ne hcode] using ih
    | gone => exact ih
    | notFound => exact ih
    | serviceUnavailable => exact ih

/-- Links that are followed have their clicks published, lost, or still to publish. -/
theorem follows_step (c : String) {e : PipelineEvent} (hstep : s.step encode e = some s') :
    Pipeline.lost c s e + s'.publishing.count c + s'.clicks.publishedCount c + s.follows c =
      s'.follows c + s.publishing.count c + s.clicks.publishedCount c := by
  rcases step_cases hstep with ⟨w, world, rfl, hworld, rfl⟩ | ⟨k, arrives, d, clicks, rfl, hk, hclicks, rfl⟩ |
    ⟨w, entries, clicks, db, rfl, hw, hclicks, hdb, rfl⟩
  · obtain ⟨new, hanswers, -⟩ :=
      World.Sat.step_answers (p := ⟨fun _ _ => True, fun _ _ => True, fun _ => True,
        fun _ _ _ _ _ => True⟩) (World.Sat.mk (fun _ _ _ => trivial) (fun _ _ _ _ => trivial)
          (fun _ _ => trivial) fun _ _ _ _ _ _ _ _ => trivial) hworld
    simp only [Pipeline.follows, Pipeline.lost, hanswers, List.drop_left, followed_append,
      List.count_append]
    omega
  · have hcount : s.publishing.count c =
        (s.publishing.eraseIdx k).count c + if s.publishing[k]? = some c then 1 else 0 := by
      obtain ⟨hi, rfl⟩ := List.getElem?_eq_some_iff.mp hk
      rw [← (List.getElem_cons_eraseIdx_perm hi).count_eq c, List.count_cons, hk]
      by_cases hcode : s.publishing[k] = c
      · simp [hcode]
      · simp [hcode]
    cases arrives with
    | true =>
      have hpublished := Clicks.System.publishedCount_publish hclicks c
      rw [hk] at hcount
      simp only [Option.some.injEq] at hcount
      show 0 + (s.publishing.eraseIdx k).count c + clicks.publishedCount c + s.follows c =
        s.follows c + s.publishing.count c + s.clicks.publishedCount c
      omega
    | false =>
      obtain rfl : clicks = s.clicks := hclicks
      show (if s.publishing[k]? = some c then 1 else 0) + (s.publishing.eraseIdx k).count c +
        s.clicks.publishedCount c + s.follows c =
          s.follows c + s.publishing.count c + s.clicks.publishedCount c
      omega
  · have hadds := Clicks.System.adds_of_step hclicks (by
      rintro data rfl
      cases hw)
    have hpublished : clicks.publishedCount c = s.clicks.publishedCount c := by
      rw [Clicks.System.publishedCount, hadds.published]
      rfl
    show 0 + s.publishing.count c + clicks.publishedCount c + s.follows c =
      s.follows c + s.publishing.count c + s.clicks.publishedCount c
    omega

/-- The links followed in a run have their clicks published, lost, or still to publish. -/
theorem follows_run {P : Pipeline → PipelineEvent → Prop} {es : List PipelineEvent}
    (hrun : Run (Pipeline.step encode) P s es t) (c : String) :
    total (Pipeline.step encode) (Pipeline.lost c) s es + t.publishing.count c +
        t.clicks.publishedCount c + s.follows c =
      t.follows c + s.publishing.count c + s.clicks.publishedCount c := by
  induction hrun with
  | nil s => rw [total_nil, Nat.zero_add, Nat.add_right_comm, Nat.add_comm _ (s.follows c), Nat.add_assoc]
  | cons _ hstep _ ih =>
    have hhead := follows_step c hstep
    rw [total_cons hstep]
    omega

/-- **Click counts are the flushed clicks, and no redirect vanishes.** In every run, crashes, lost replies and
failed flushes included, a row shows what committed flushes have added up for its code; and the redirects
answered for the code do not outnumber the clicks it shows, those the broker still holds, those still to
publish and those whose message never arrived. -/
theorem click_counts (hencode : Set.InjOn encode (Set.Ioo 0 (2 ^ 63))) {now : Instant}
    {es : List PipelineEvent} (hrun : Run (Pipeline.step encode) Any (Pipeline.init now) es t)
    (hlength : es.length < 2 ^ 63) {r : UrlRow} (hr : r ∈ t.world.db.urls) {c : String}
    (hcode : r.shortCode = some c) :
    r.clickCount = t.clicks.totalDelta c ∧
      (t.redirects c : ℤ) ≤ r.clickCount + t.clicks.heldCount c + t.publishing.count c +
        total (Pipeline.step encode) (Pipeline.lost c) (Pipeline.init now) es := by
  have h := (inv_init now).run hencode hrun (by
    show 0 + es.length < _
    omega)
  have hcount := h.counted.rows r hr c hcode
  have hsplit := follows_run hrun c
  have hredirects : t.redirects c ≤ t.follows c := (redirected_sublist _).count_le c
  have hheld := Clicks.System.publishedCount_le h.ledger h.clicks c
  have hstart : (Pipeline.init now).follows c = 0 ∧ (Pipeline.init now).publishing.count c = 0 ∧
      (Pipeline.init now).clicks.publishedCount c = 0 := ⟨rfl, rfl, rfl⟩
  refine ⟨hcount, ?_⟩
  rw [hcount]
  omega

/-- Steps of the consumer that succeed: no crash, no lost reply, no failed flush. -/
def Undisturbed (s : Pipeline) : PipelineEvent → Prop
  | .consumer e _ => s.clicks.Reliable e ∧ ¬s.clicks.FlushFails e
  | _ => True

instance (s : Pipeline) (e : PipelineEvent) : Decidable (Undisturbed s e) := by
  unfold Undisturbed
  split <;> infer_instance

theorem accounted_of_run {now : Instant} {es : List PipelineEvent}
    (hrun : Run (Pipeline.step encode) Undisturbed (Pipeline.init now) es t) : t.clicks.Accounted := by
  refine hrun.induct (I := fun s => s.clicks.Accounted) ?_ Clicks.System.accounted_init
  intro s e s' h hP hstep
  rcases step_cases hstep with ⟨w, world, rfl, hworld, rfl⟩ | ⟨k, arrives, d, clicks, rfl, hk, hclicks, rfl⟩ |
    ⟨w, entries, clicks, db, rfl, hw, hclicks, hdb, rfl⟩
  · exact h
  · cases arrives with
    | true => exact h.step (e := .publish d.toUTF8) trivial id hclicks
    | false =>
      obtain rfl : clicks = s.clicks := hclicks
      exact h
  · exact h.step hP.1 hP.2 hclicks

/-- **No click is counted twice** while no flush fails and the consumer does not crash: the clicks a row
shows, those in the batch and those that wait never outnumber the requests that found its link. All of these
were redirected when its target is a header value. -/
theorem clickCount_le_follows (hencode : Set.InjOn encode (Set.Ioo 0 (2 ^ 63))) {now : Instant}
    {es : List PipelineEvent} (hrun : Run (Pipeline.step encode) Undisturbed (Pipeline.init now) es t)
    (hlength : es.length < 2 ^ 63) {r : UrlRow} (hr : r ∈ t.world.db.urls) {c : String}
    (hcode : r.shortCode = some c) :
    r.clickCount + t.clicks.task.batch.get c + t.clicks.waitingCount c ≤ t.follows c ∧
      (locates r.originalUrl = true → t.follows c = t.redirects c) := by
  have h := (inv_init now).run hencode hrun (by
    show 0 + es.length < _
    omega)
  constructor
  · have haccount := accounted_of_run hrun c
    have hsplit := follows_run hrun c
    have hstart : (Pipeline.init now).follows c = 0 ∧ (Pipeline.init now).publishing.count c = 0 ∧
        (Pipeline.init now).clicks.publishedCount c = 0 := ⟨rfl, rfl, rfl⟩
    rw [h.counted.rows r hr c hcode]
    omega
  · intro hlocates
    refine count_followed fun a ha hacode herror => ?_
    -- the code never had another target
    obtain ⟨originalUrl, hcommitted, hnot⟩ := h.errors a ha herror
    rw [hacode] at hcommitted
    obtain ⟨_, -, hrow⟩ := hcommitted.theRow hencode h.store
    rw [← (hrow _ h.store.current r hr hcode).2, hlocates] at hnot
    cases hnot

/-- A link is created and redirects twice: one click is flushed, one message is lost. -/
def twoRedirects : List PipelineEvent :=
  (World.shortenEvents 0 1 "https://a.example" none).map .world ++
    (World.missEvents 0 "1").map .world ++
    [.world (.insert 0 "1"), .world (.request 0 "1"), .publish 1 false, .publish 0 true,
      .consumer (.deliver 0) [], .consumer (.next ⟨true, true⟩) [],
      .consumer (.tick ⟨true, true⟩) [⟨"1", 1⟩]]

theorem click_counts_of_two_redirects :
    ∃ t : Pipeline, ∃ r ∈ t.world.db.urls, r.clickCount = 1 ∧ t.redirects "1" = 2 ∧
      (t.redirects "1" : ℤ) ≤ r.clickCount + t.clicks.heldCount "1" + t.publishing.count "1" +
        total (Pipeline.step base62Encode) (Pipeline.lost "1") (Pipeline.init 0) twoRedirects := by
  obtain ⟨t, hrun, ht⟩ := exists_run_of_exec (Pipeline.step base62Encode) Any (Pipeline.init 0)
    twoRedirects (fun t => t.redirects "1" = 2 && t.world.db.urls.any fun r =>
      r.clickCount = 1 && r.shortCode = some "1") (by decide)
  simp only [Bool.and_eq_true, List.any_eq_true, decide_eq_true_eq] at ht
  obtain ⟨hredirects, r, hr, hcount, hcode⟩ := ht
  exact ⟨t, r, hr, hcount, hredirects,
    (click_counts base62Encode_injOn hrun (by decide) hr hcode).2⟩

theorem clickCount_le_follows_of_two_redirects :
    ∃ t : Pipeline, ∃ r ∈ t.world.db.urls, r.clickCount = 1 ∧ t.follows "1" = t.redirects "1" ∧
      r.clickCount + t.clicks.task.batch.get "1" + t.clicks.waitingCount "1" ≤ t.follows "1" := by
  obtain ⟨t, hrun, ht⟩ := exists_run_of_exec (Pipeline.step base62Encode) Undisturbed (Pipeline.init 0)
    twoRedirects (fun t => t.world.db.urls.any fun r =>
      r.clickCount = 1 && r.shortCode = some "1" && locates r.originalUrl) (by decide)
  simp only [Bool.and_eq_true, List.any_eq_true, decide_eq_true_eq] at ht
  obtain ⟨r, hr, ⟨hcount, hcode⟩, hlocates⟩ := ht
  obtain ⟨hle, hfollows⟩ := clickCount_le_follows base62Encode_injOn hrun (by decide) hr hcode
  exact ⟨t, r, hr, hcount, hfollows hlocates, hle⟩

end Invariant

end Bittuly.Analytics
