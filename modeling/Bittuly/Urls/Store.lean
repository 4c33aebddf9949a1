import Bittuly.Urls.Base62
import Bittuly.Urls.Repo

/-!
# The short code store

`StoreInv` holds after any interleaving of `add_shorten_url` calls and deletions: every committed table
carries only rows of the `url_id` sequence, each under the code of its id, and no row is lost between
its `INSERT` and its `COMMIT`. A row's id, original url and owner are fixed when the sequence value is
drawn (`UrlRow.issue`), so statements about whole histories reduce to the list of drawn values.
-/

namespace Bittuly.Urls

open Runs

variable (encode : ℤ → String)

/-- A committed table: rows of the sequence, coded by their ids, no pair twice. -/
structure TableOk (issued : List Issue) (urls : List UrlRow) : Prop where
  known : ∀ r ∈ urls, r.issue ∈ issued
  coded : ∀ r ∈ urls, r.shortCode = some (encode r.urlId)
  ids : (urls.map UrlRow.urlId).Nodup
  pairs : (urls.map UrlRow.pair).Nodup

/-- The invariant of the store. -/
structure StoreInv (db : Db) : Prop where
  issued_range : ∀ e ∈ db.issued, e.urlId ∈ Set.Ioo (0 : ℤ) (2 ^ 63)
  issued_nodup : (db.issued.map Issue.urlId).Nodup
  tables : ∀ urls ∈ db.history, TableOk encode db.issued urls
  current : db.urls ∈ db.history
  ids : ((db.urls ++ db.pending).map UrlRow.urlId).Nodup
  pairs : ((db.urls ++ db.pending).map UrlRow.pair).Nodup
  pending_known : ∀ r ∈ db.pending, r.issue ∈ db.issued
  pending_coded : ∀ call ∈ db.calls, ∀ urlId, call.pc = .commit urlId →
    ∀ r ∈ db.pending, r.urlId = urlId → r.shortCode = some (encode urlId)
  inserted_issued : ∀ call ∈ db.calls, ∀ urlId, call.pc.inserted = some urlId →
    urlId ∈ db.issued.map Issue.urlId

variable {encode}

/-- An `UPDATE` that keeps the issues keeps the ids. -/
theorem urlId_comp {f : UrlRow → UrlRow} (hissue : ∀ r, (f r).issue = r.issue) :
    UrlRow.urlId ∘ f = UrlRow.urlId := by
  funext r
  exact congrArg Issue.urlId (hissue r)

/-- And the pairs. -/
theorem pair_comp {f : UrlRow → UrlRow} (hissue : ∀ r, (f r).issue = r.issue) :
    UrlRow.pair ∘ f = UrlRow.pair := by
  funext r
  exact congrArg (fun e : Issue => (e.originalUrl, e.userId)) (hissue r)

namespace TableOk

variable {issued issued' : List Issue} {urls : List UrlRow}

/-- Drawing more values keeps a table. -/
theorem mono (h : TableOk encode issued urls) (hsub : issued ⊆ issued') :
    TableOk encode issued' urls :=
  ⟨fun r hr => hsub (h.known r hr), h.coded, h.ids, h.pairs⟩

/-- A `DELETE` keeps a table. -/
theorem filter (h : TableOk encode issued urls) (p : UrlRow → Bool) :
    TableOk encode issued (urls.filter p) where
  known := fun r hr => h.known r (List.mem_of_mem_filter hr)
  coded := fun r hr => h.coded r (List.mem_of_mem_filter hr)
  ids := h.ids.sublist (List.filter_sublist.map _)
  pairs := h.pairs.sublist (List.filter_sublist.map _)

/-- An `UPDATE` of the other columns keeps a table. -/
theorem map (h : TableOk encode issued urls) {f : UrlRow → UrlRow}
    (hissue : ∀ r, (f r).issue = r.issue) (hcode : ∀ r, (f r).shortCode = r.shortCode) :
    TableOk encode issued (urls.map f) := by
  have hid := urlId_comp hissue
  refine ⟨?_, ?_, ?_, ?_⟩
  · intro r hr
    obtain ⟨r', hr', rfl⟩ := List.mem_map.mp hr
    rw [hissue]
    exact h.known r' hr'
  · intro r hr
    obtain ⟨r', hr', rfl⟩ := List.mem_map.mp hr
    have hid' : (f r').urlId = r'.urlId := congrFun hid r'
    rw [hcode, hid']
    exact h.coded r' hr'
  · rw [List.map_map, hid]
    exact h.ids
  · rw [List.map_map, pair_comp hissue]
    exact h.pairs

end TableOk

namespace StoreInv

variable {db : Db}

theorem table (h : StoreInv encode db) : TableOk encode db.issued db.urls :=
  h.tables _ h.current

/-- A row with a known issue carries a drawn id. -/
theorem id_mem (h : StoreInv encode db) {r : UrlRow} (hr : r ∈ db.urls ++ db.pending) :
    r.urlId ∈ db.issued.map Issue.urlId := by
  have hknown : r.issue ∈ db.issued := by
    rcases List.mem_append.mp hr with hurl | hpend
    · exact h.table.known r hurl
    · exact h.pending_known r hpend
  exact List.mem_map_of_mem hknown

/-- Advancing a call to a point inside a transaction. -/
theorem setPc (h : StoreInv encode db) (n : ℕ) (call : AddCall) {pc : AddPc}
    (hissued : ∀ urlId, pc.inserted = some urlId → urlId ∈ db.issued.map Issue.urlId)
    (hcoded : ∀ urlId, pc = .commit urlId →
      ∀ r ∈ db.pending, r.urlId = urlId → r.shortCode = some (encode urlId)) :
    StoreInv encode (db.setPc n call pc) := by
  refine { h with pending_coded := ?_, inserted_issued := ?_ }
  · intro c hc urlId hpc
    rcases List.mem_or_eq_of_mem_set hc with hold | rfl
    · exact h.pending_coded c hold urlId hpc
    · exact hcoded urlId hpc
  · intro c hc urlId hpc
    rcases List.mem_or_eq_of_mem_set hc with hold | rfl
    · exact h.inserted_issued c hold urlId hpc
    · exact hissued urlId hpc

/-- Advancing a call to a point outside a transaction. -/
theorem setPc_outside (h : StoreInv encode db) (n : ℕ) (call : AddCall) {pc : AddPc}
    (hpc : pc.inserted = none) : StoreInv encode (db.setPc n call pc) := by
  refine h.setPc n call ?_ ?_
  · intro urlId hins
    rw [hpc] at hins
    cases hins
  · rintro urlId rfl
    cases hpc

/-- A rollback keeps the invariant. -/
theorem rollback (h : StoreInv encode db) (urlId : Option ℤ) :
    StoreInv encode (db.rollback urlId) := by
  have hsub : (db.rollback urlId).pending.Sublist db.pending := List.filter_sublist
  refine { h with ids := ?_, pairs := ?_, pending_known := ?_, pending_coded := ?_ }
  · exact h.ids.sublist (((List.Sublist.refl _).append hsub).map _)
  · exact h.pairs.sublist (((List.Sublist.refl _).append hsub).map _)
  · exact fun r hr => h.pending_known r (hsub.subset hr)
  · exact fun c hc id hpc r hr => h.pending_coded c hc id hpc r (hsub.subset hr)

/-- Committing a table keeps the invariant. -/
theorem commitRows (h : StoreInv encode db) {urls : List UrlRow}
    (htable : TableOk encode db.issued urls)
    (hids : ((urls ++ db.pending).map UrlRow.urlId).Nodup)
    (hpairs : ((urls ++ db.pending).map UrlRow.pair).Nodup) :
    StoreInv encode (db.commitRows urls) := by
  refine { h with tables := ?_, current := ?_, ids := hids, pairs := hpairs }
  · intro T hT
    rcases List.mem_append.mp hT with hold | hnew
    · exact h.tables T hold
    · rw [List.mem_singleton.mp hnew]
      exact htable
  · exact List.mem_append_right _ (List.mem_singleton_self _)

/-- A `DELETE` keeps the invariant. -/
theorem deleteWhere (h : StoreInv encode db) (p : UrlRow → Bool) (result : DbResult) :
    StoreInv encode (db.deleteWhere p result) := by
  unfold Db.deleteWhere
  split
  · have hsub : (db.urls.filter (! p ·) ++ db.pending).Sublist (db.urls ++ db.pending) :=
      List.filter_sublist.append (List.Sublist.refl _)
    exact h.commitRows (h.table.filter _) (h.ids.sublist (hsub.map _)) (h.pairs.sublist (hsub.map _))
  · exact h

/-- An `UPDATE` of the other columns keeps the invariant. -/
theorem update (h : StoreInv encode db) {f : UrlRow → UrlRow}
    (hissue : ∀ r, (f r).issue = r.issue) (hcode : ∀ r, (f r).shortCode = r.shortCode) :
    StoreInv encode (db.commitRows (db.urls.map f)) := by
  refine h.commitRows (h.table.map hissue hcode) ?_ ?_
  · rw [List.map_append, List.map_map, urlId_comp hissue, ← List.map_append]
    exact h.ids
  · rw [List.map_append, List.map_map, pair_comp hissue, ← List.map_append]
    exact h.pairs

/-- The reactivating `UPDATE` keeps the invariant. -/
theorem reactivate (h : StoreInv encode db) (n : ℕ) (call : AddCall) (urlId : ℤ) (now : Instant)
    (result : DbResult) : StoreInv encode (db.reactivate n call urlId now result) := by
  unfold Db.reactivate
  split
  · exact h.setPc_outside n call rfl
  · have hupdate := h.update (f := fun r =>
        if r.urlId = urlId then Db.reactivated r call.expiresAt now else r)
      (fun r => by split <;> rfl) (fun r => by split <;> rfl)
    have hdb : StoreInv encode (if result.applied then db.commitRows (db.urls.map fun r =>
        if r.urlId = urlId then Db.reactivated r call.expiresAt now else r) else db) := by
      split
      · exact hupdate
      · exact h
    simp only
    split
    · exact hdb.setPc_outside n call rfl
    · exact hdb.setPc_outside n call rfl
    · exact hdb.setPc_outside n call rfl

/-- Drawing a fresh sequence value keeps the invariant. -/
theorem issue (h : StoreInv encode db) {e : Issue} (hrange : e.urlId ∈ Set.Ioo (0 : ℤ) (2 ^ 63))
    (hfresh : e.urlId ∉ db.issued.map Issue.urlId) :
    StoreInv encode { db with issued := db.issued ++ [e] } := by
  have hsub : db.issued ⊆ db.issued ++ [e] := List.subset_append_left _ _
  refine { h with
    issued_range := ?_, issued_nodup := ?_, tables := ?_, pending_known := ?_, inserted_issued := ?_ }
  · intro e' he'
    rcases List.mem_append.mp he' with hold | hnew
    · exact h.issued_range e' hold
    · rw [List.mem_singleton.mp hnew]
      exact hrange
  · rw [List.map_append, List.map_singleton, ← List.concat_eq_append, List.nodup_concat]
    exact ⟨hfresh, h.issued_nodup⟩
  · exact fun T hT => (h.tables T hT).mono hsub
  · exact fun r hr => hsub (h.pending_known r hr)
  · intro c hc id hpc
    rw [List.map_append]
    exact List.mem_append_left _ (h.inserted_issued c hc id hpc)

/-- A new pending row that no committing call is about. -/
theorem addPending (h : StoreInv encode db) {row : UrlRow} (hknown : row.issue ∈ db.issued)
    (hid : row.urlId ∉ (db.urls ++ db.pending).map UrlRow.urlId)
    (hpair : row.pair ∉ (db.urls ++ db.pending).map UrlRow.pair)
    (hfree : ∀ call ∈ db.calls, call.pc ≠ .commit row.urlId) :
    StoreInv encode { db with pending := db.pending ++ [row] } := by
  refine { h with ids := ?_, pairs := ?_, pending_known := ?_, pending_coded := ?_ }
  · rw [← List.append_assoc, List.map_append, List.map_singleton, ← List.concat_eq_append,
      List.nodup_concat]
    exact ⟨hid, h.ids⟩
  · rw [← List.append_assoc, List.map_append, List.map_singleton, ← List.concat_eq_append,
      List.nodup_concat]
    exact ⟨hpair, h.pairs⟩
  · intro r hr
    rcases List.mem_append.mp hr with hold | hnew
    · exact h.pending_known r hold
    · rw [List.mem_singleton.mp hnew]
      exact hknown
  · intro call hcall urlId hpc r hr hrid
    rcases List.mem_append.mp hr with hold | hnew
    · exact h.pending_coded call hcall urlId hpc r hold hrid
    · rw [List.mem_singleton.mp hnew] at hrid
      exact absurd (hrid ▸ hpc) (hfree call hcall)

/-- The `INSERT` keeps the invariant. -/
theorem insert (h : StoreInv encode db) {db' : Db} {n : ℕ} {call : AddCall} {urlId : ℤ}
    {now : Instant} (hins : db.insert n call urlId now = some db') : StoreInv encode db' := by
  unfold Db.insert at hins
  simp only at hins
  split at hins
  · cases hins
  rename_i hid
  simp only [not_or, not_le] at hid
  obtain ⟨hpos, hlt, hfresh⟩ := hid
  split at hins
  · cases hins
  rename_i hpending
  have hissue := h.issue (e := (Db.newRow call urlId now).issue) ⟨hpos, hlt⟩ hfresh
  split at hins
  · obtain rfl := Option.some.inj hins
    exact hissue.setPc_outside n call rfl
  · rename_i hurls
    obtain rfl := Option.some.inj hins
    have hnew : (Db.newRow call urlId now).urlId ∉ (db.urls ++ db.pending).map UrlRow.urlId := by
      intro hmem
      obtain ⟨r, hr, hrid⟩ := List.mem_map.mp hmem
      have hrow : r.urlId = urlId := hrid
      exact hfresh (hrow ▸ h.id_mem hr)
    have hpair : (Db.newRow call urlId now).pair ∉ (db.urls ++ db.pending).map UrlRow.pair := by
      rw [List.map_append, List.mem_append, not_or]
      exact ⟨hurls, hpending⟩
    have hfree : ∀ c ∈ db.calls, c.pc ≠ .commit (Db.newRow call urlId now).urlId := by
      -- the id of a committing call was drawn before
      intro c hc hcommit
      exact hfresh (h.inserted_issued c hc urlId (by rw [hcommit]; rfl))
    have hpend := hissue.addPending (List.mem_append_right _ (List.mem_singleton_self _)) hnew hpair
      hfree
    refine hpend.setPc n call ?_ ?_
    · intro id hid
      have hid' : urlId = id := Option.some.inj hid
      rw [← hid', List.map_append]
      exact List.mem_append_right _ (List.mem_singleton_self _)
    · intro id hid
      cases hid

/-- An `UPDATE` of pending rows that leaves each its code or sets the code of its id. -/
theorem mapPending (h : StoreInv encode db) {f : UrlRow → UrlRow}
    (hissue : ∀ r, (f r).issue = r.issue)
    (hcode : ∀ r, (f r).shortCode = r.shortCode ∨ (f r).shortCode = some (encode r.urlId)) :
    StoreInv encode { db with pending := db.pending.map f } := by
  have hid := urlId_comp hissue
  refine { h with ids := ?_, pairs := ?_, pending_known := ?_, pending_coded := ?_ }
  · rw [List.map_append, List.map_map, hid, ← List.map_append]
    exact h.ids
  · rw [List.map_append, List.map_map, pair_comp hissue, ← List.map_append]
    exact h.pairs
  · intro r hr
    obtain ⟨r', hr', rfl⟩ := List.mem_map.mp hr
    rw [hissue]
    exact h.pending_known r' hr'
  · intro call hcall urlId hpc r hr hrid
    obtain ⟨r', hr', rfl⟩ := List.mem_map.mp hr
    have hrid' : r'.urlId = urlId := (congrFun hid r').symm.trans hrid
    rcases hcode r' with hsame | hset
    · rw [hsame]
      exact h.pending_coded call hcall urlId hpc r' hr' hrid'
    · rw [hset, hrid']

/-- The `UPDATE` that sets the code keeps the invariant. -/
theorem assign (h : StoreInv encode db) {db' : Db} {n : ℕ} {call : AddCall} {urlId : ℤ}
    (hcall : call ∈ db.calls) (hpc : call.pc = .assign urlId)
    (hassign : db.assign encode n call urlId = some db') : StoreInv encode db' := by
  unfold Db.assign at hassign
  simp only at hassign
  split at hassign
  · cases hassign
  split at hassign
  · obtain rfl := Option.some.inj hassign
    exact (h.rollback _).setPc_outside n call rfl
  · obtain rfl := Option.some.inj hassign
    set f : UrlRow → UrlRow := fun r =>
      if r.urlId = urlId then { r with shortCode := some (encode urlId) } else r with hf
    have hissue : ∀ r, (f r).issue = r.issue := by
      intro r
      simp only [hf]
      split <;> rfl
    have hset : ∀ r, r.urlId = urlId → (f r).shortCode = some (encode urlId) := by
      intro r hr
      simp only [hf, hr, if_true]
    have hcode : ∀ r, (f r).shortCode = r.shortCode ∨ (f r).shortCode = some (encode r.urlId) := by
      intro r
      -- the call's own row gets its code, any other row is as before
      by_cases hown : r.urlId = urlId
      · right
        rw [hset r hown, hown]
      · left
        simp only [hf, hown, if_false]
    refine (h.mapPending hissue hcode).setPc n call ?_ ?_
    · intro id hins
      have hid' : urlId = id := Option.some.inj hins
      exact h.inserted_issued call hcall id (by rw [hpc, ← hid']; rfl)
    · intro id hcommit r hr hrid
      obtain rfl : urlId = id := AddPc.commit.inj hcommit
      obtain ⟨r', -, rfl⟩ := List.mem_map.mp hr
      exact hset r' ((congrFun (urlId_comp hissue) r').symm.trans hrid)

/-- The `COMMIT` keeps the invariant: the transaction's row moves to the table with its code set. -/
theorem commit (h : StoreInv encode db) (n : ℕ) {call : AddCall} {urlId : ℤ}
    (hcall : call ∈ db.calls) (hpc : call.pc = .commit urlId) (result : DbResult) :
    StoreInv encode (db.commit n call urlId result) := by
  set rows := db.pending.filter fun r => r.urlId = urlId with hrows
  have hpending : (db.rollback (some urlId)).pending =
      db.pending.filter fun r => ! decide (r.urlId = urlId) := by
    apply List.filter_congr
    intro r _
    simp
  -- the transaction's row moves from the pending rows to the table
  have hperm : ((db.urls ++ rows) ++ (db.rollback (some urlId)).pending).Perm
      (db.urls ++ db.pending) := by
    rw [hpending, List.append_assoc]
    exact (List.filter_append_perm _ _).append_left _
  have hback := h.rollback (some urlId)
  have htable : TableOk encode db.issued (db.urls ++ rows) := by
    refine ⟨?_, ?_, ?_, ?_⟩
    · intro r hr
      rcases List.mem_append.mp hr with hold | hnew
      · exact h.table.known r hold
      · exact h.pending_known r (List.mem_of_mem_filter hnew)
    · intro r hr
      rcases List.mem_append.mp hr with hold | hnew
      · exact h.table.coded r hold
      · obtain ⟨hmem, hrid⟩ := List.mem_filter.mp hnew
        have hrid' : r.urlId = urlId := by simpa using hrid
        rw [hrid']
        exact h.pending_coded call hcall urlId hpc r hmem hrid'
    · exact h.ids.sublist (((List.Sublist.refl _).append List.filter_sublist).map _)
    · exact h.pairs.sublist (((List.Sublist.refl _).append List.filter_sublist).map _)
  have hcommitted : StoreInv encode
      ((if result.applied then db.commitRows (db.urls ++ rows) else db).rollback (some urlId)) := by
    split
    · refine hback.commitRows htable ?_ ?_
      · exact (hperm.map _).nodup_iff.mpr h.ids
      · exact (hperm.map _).nodup_iff.mpr h.pairs
    · exact hback
  exact hcommitted.setPc_outside n call rfl

/-- Reading decides on nothing inside a transaction. -/
theorem select_inserted (db : Db) (call : AddCall) (now : Instant) :
    (db.select call now).inserted = none := by
  unfold Db.select
  split
  · rfl
  · split
    · rfl
    · split
      · split <;> rfl
      · rfl

/-- Starting a call keeps the invariant. -/
theorem call (h : StoreInv encode db) (originalUrl : String) (userId : Uuid)
    (expiresAt : Option Instant) : StoreInv encode
      { db with calls := db.calls ++ [{ originalUrl, userId, expiresAt, pc := .select }] } := by
  refine { h with pending_coded := ?_, inserted_issued := ?_ }
  · intro c hc urlId hpc
    rcases List.mem_append.mp hc with hold | hnew
    · exact h.pending_coded c hold urlId hpc
    · rw [List.mem_singleton.mp hnew] at hpc
      cases hpc
  · intro c hc urlId hpc
    rcases List.mem_append.mp hc with hold | hnew
    · exact h.inserted_issued c hold urlId hpc
    · rw [List.mem_singleton.mp hnew] at hpc
      cases hpc

/-- Every statement keeps the invariant. -/
theorem statement (h : StoreInv encode db) {db' : Db} (hstmt : db.Statement encode db') :
    StoreInv encode db' := by
  cases hstmt with
  | call originalUrl userId expiresAt => exact h.call originalUrl userId expiresAt
  | select n call now => exact h.setPc_outside n call (select_inserted db call now)
  | reactivate n call urlId now result => exact h.reactivate n call urlId now result
  | insert hins => exact h.insert hins
  | assign hcall hpc hassign => exact h.assign hcall hpc hassign
  | commit n hcall hpc result => exact h.commit n hcall hpc result
  | fail n call => exact (h.rollback _).setPc_outside n call rfl
  | delete p result => exact h.deleteWhere p result

end StoreInv

theorem storeInv_init : StoreInv encode Db.init := by
  refine ⟨?_, List.nodup_nil, ?_, List.mem_singleton_self _, List.nodup_nil, List.nodup_nil,
    ?_, ?_, ?_⟩
  · intro e he
    cases he
  · intro urls hurls
    rw [List.mem_singleton.mp hurls]
    refine ⟨?_, ?_, List.nodup_nil, List.nodup_nil⟩
    · intro r hr
      cases hr
    · intro r hr
      cases hr
  · intro r hr
    cases hr
  · intro c hc
    cases hc
  · intro c hc
    cases hc

/-- The invariant holds in every run. -/
theorem storeInv_of_run {P : Db → DbEvent → Prop} {es : List DbEvent} {db : Db}
    (hrun : Run (Db.step encode) P Db.init es db) : StoreInv encode db :=
  hrun.induct (fun _ _ _ h _ hstep => h.statement (Db.statement_of_step hstep)) storeInv_init

/-! ## How a statement changes the tables -/

/-- The history and the drawn values only grow, and a row's id was there before or is freshly drawn. -/
structure Grows (db db' : Db) : Prop where
  history : db.history <+: db'.history
  issued : db.issued ⊆ db'.issued
  ids : ∀ r ∈ db'.urls ++ db'.pending,
    r.urlId ∈ (db.urls ++ db.pending).map UrlRow.urlId ∨ r.urlId ∉ db.issued.map Issue.urlId

namespace Grows

variable {db db' : Db}

theorem refl (db : Db) : Grows db db :=
  ⟨List.prefix_refl _, List.Subset.refl _, fun _ hr => Or.inl (List.mem_map_of_mem hr)⟩

theorem setPc (h : Grows db db') (n : ℕ) (call : AddCall) (pc : AddPc) :
    Grows db (db'.setPc n call pc) :=
  ⟨h.history, h.issued, h.ids⟩

theorem rollback (h : Grows db db') (urlId : Option ℤ) : Grows db (db'.rollback urlId) := by
  refine ⟨h.history, h.issued, fun r hr => h.ids r ?_⟩
  rcases List.mem_append.mp hr with hurl | hpend
  · exact List.mem_append_left _ hurl
  · exact List.mem_append_right _ (List.mem_of_mem_filter hpend)

/-- Committing rows whose ids are in the table or pending. -/
theorem commitRows (db : Db) {urls : List UrlRow}
    (hurls : ∀ r ∈ urls, r.urlId ∈ (db.urls ++ db.pending).map UrlRow.urlId) :
    Grows db (db.commitRows urls) := by
  refine ⟨List.prefix_append _ _, List.Subset.refl _, fun r hr => Or.inl ?_⟩
  rcases List.mem_append.mp hr with hurl | hpend
  · exact hurls r hurl
  · exact List.mem_map_of_mem (List.mem_append_right _ hpend)

theorem deleteWhere (db : Db) (p : UrlRow → Bool) (result : DbResult) :
    Grows db (db.deleteWhere p result) := by
  unfold Db.deleteWhere
  split
  · refine commitRows db ?_
    intro r hr
    exact List.mem_map_of_mem (List.mem_append_left _ (List.mem_of_mem_filter hr))
  · exact refl db

theorem reactivate (db : Db) (n : ℕ) (call : AddCall) (urlId : ℤ) (now : Instant)
    (result : DbResult) : Grows db (db.reactivate n call urlId now result) := by
  unfold Db.reactivate
  split
  · exact (refl db).setPc n call _
  · have hdb : Grows db (if result.applied then db.commitRows (db.urls.map fun r =>
        if r.urlId = urlId then Db.reactivated r call.expiresAt now else r) else db) := by
      split
      · refine commitRows db ?_
        intro r hr
        obtain ⟨r', hr', rfl⟩ := List.mem_map.mp hr
        have hid : (if r'.urlId = urlId then Db.reactivated r' call.expiresAt now else r').urlId =
            r'.urlId := by split <;> rfl
        rw [hid]
        exact List.mem_map_of_mem (List.mem_append_left _ hr')
      · exact refl db
    simp only
    split
    · exact hdb.setPc n call _
    · exact hdb.setPc n call _
    · exact hdb.setPc n call _

theorem insert {n : ℕ} {call : AddCall} {urlId : ℤ} {now : Instant}
    (h : db.insert n call urlId now = some db') : Grows db db' := by
  unfold Db.insert at h
  simp only at h
  split at h
  · cases h
  rename_i hid
  split at h
  · cases h
  split at h
  · obtain rfl := Option.some.inj h
    exact ⟨List.prefix_refl _, List.subset_append_left _ _,
      fun _ hr => Or.inl (List.mem_map_of_mem hr)⟩
  · obtain rfl := Option.some.inj h
    refine ⟨List.prefix_refl _, List.subset_append_left _ _, fun r hr => ?_⟩
    rcases List.mem_append.mp hr with hurl | hpend
    · exact Or.inl (List.mem_map_of_mem (List.mem_append_left _ hurl))
    · rcases List.mem_append.mp hpend with hold | hnew
      · exact Or.inl (List.mem_map_of_mem (List.mem_append_right _ hold))
      · rw [List.mem_singleton.mp hnew]
        exact Or.inr fun hmem => hid (Or.inr (Or.inr hmem))

theorem assign {n : ℕ} {call : AddCall} {urlId : ℤ}
    (h : db.assign encode n call urlId = some db') : Grows db db' := by
  unfold Db.assign at h
  simp only at h
  split at h
  · cases h
  split at h
  · obtain rfl := Option.some.inj h
    exact ((refl db).rollback _).setPc n call _
  · obtain rfl := Option.some.inj h
    refine ⟨List.prefix_refl _, List.Subset.refl _, ?_⟩
    intro r hr
    left
    rcases List.mem_append.mp hr with hurl | hpend
    · exact List.mem_map_of_mem (List.mem_append_left _ hurl)
    · obtain ⟨r', hr', rfl⟩ := List.mem_map.mp hpend
      have hid : (if r'.urlId = urlId then { r' with shortCode := some (encode urlId) } else r').urlId =
          r'.urlId := by split <;> rfl
      rw [hid]
      exact List.mem_map_of_mem (List.mem_append_right _ hr')

theorem commit (db : Db) (n : ℕ) (call : AddCall) (urlId : ℤ) (result : DbResult) :
    Grows db (db.commit n call urlId result) := by
  have hcommitted : Grows db (if result.applied then
      db.commitRows (db.urls ++ db.pending.filter fun r => r.urlId = urlId) else db) := by
    split
    · refine commitRows db ?_
      intro r hr
      apply List.mem_map_of_mem
      rcases List.mem_append.mp hr with hurl | hpend
      · exact List.mem_append_left _ hurl
      · exact List.mem_append_right _ (List.mem_of_mem_filter hpend)
    · exact refl db
  exact (hcommitted.rollback _).setPc n call _

/-- Every statement. -/
theorem of_statement (h : db.Statement encode db') : Grows db db' := by
  cases h with
  | call originalUrl userId expiresAt =>
    exact ⟨List.prefix_refl _, List.Subset.refl _, fun _ hr => Or.inl (List.mem_map_of_mem hr)⟩
  | select n call now => exact (refl db).setPc n call _
  | reactivate n call urlId now result => exact reactivate db n call urlId now result
  | insert hins => exact insert hins
  | assign _ _ hassign => exact assign hassign
  | commit n _ _ result => exact commit db n _ _ result
  | fail n call => exact ((refl db).rollback _).setPc n call _
  | delete p result => exact deleteWhere db p result

end Grows

/-! ## Codes over whole histories -/

namespace StoreInv

variable {db : Db} {urls urls' : List UrlRow} {r r' : UrlRow}

/-- A row of any committed table carries a drawn issue under its code. -/
theorem row_ok (h : StoreInv encode db) (hurls : urls ∈ db.history) (hr : r ∈ urls) :
    r.issue ∈ db.issued ∧ r.shortCode = some (encode r.urlId) :=
  ⟨(h.tables urls hurls).known r hr, (h.tables urls hurls).coded r hr⟩

/-- Rows of one id, in any two committed tables, agree in what never changes. -/
theorem issue_eq_of_id (h : StoreInv encode db) (hurls : urls ∈ db.history) (hr : r ∈ urls)
    (hurls' : urls' ∈ db.history) (hr' : r' ∈ urls') (hid : r.urlId = r'.urlId) :
    r.issue = r'.issue :=
  List.inj_on_of_nodup_map h.issued_nodup (h.row_ok hurls hr).1 (h.row_ok hurls' hr').1 hid

/-- Rows of one code, in any two committed tables, are one row. -/
theorem id_eq_of_code (h : StoreInv encode db) (hencode : Set.InjOn encode (Set.Ioo 0 (2 ^ 63)))
    (hurls : urls ∈ db.history) (hr : r ∈ urls) (hurls' : urls' ∈ db.history) (hr' : r' ∈ urls')
    (hcode : r.shortCode = r'.shortCode) : r.urlId = r'.urlId := by
  obtain ⟨hknown, hcoded⟩ := h.row_ok hurls hr
  obtain ⟨hknown', hcoded'⟩ := h.row_ok hurls' hr'
  rw [hcoded, hcoded'] at hcode
  exact hencode (h.issued_range _ hknown) (h.issued_range _ hknown') (Option.some.inj hcode)

end StoreInv

/-- What the store guarantees of a state and of all the committed tables before it. -/
structure StoreGuarantee (encode : ℤ → String) (db : Db) : Prop where
  current : db.urls ∈ db.history
  coded : ∀ urls ∈ db.history, ∀ r ∈ urls, r.shortCode = some (encode r.urlId)
  codes_nodup : ∀ urls ∈ db.history, (urls.map UrlRow.shortCode).Nodup
  pairs_nodup : ∀ urls ∈ db.history, (urls.map UrlRow.pair).Nodup
  /-- A row keeps its original url and its owner. -/
  stable : ∀ urls ∈ db.history, ∀ urls' ∈ db.history, ∀ r ∈ urls, ∀ r' ∈ urls',
    r.urlId = r'.urlId → r.originalUrl = r'.originalUrl ∧ r.userId = r'.userId
  /-- A code is never carried by two rows, at whatever times. -/
  noReuse : ∀ urls ∈ db.history, ∀ urls' ∈ db.history, ∀ r ∈ urls, ∀ r' ∈ urls',
    r.shortCode = r'.shortCode → r.urlId = r'.urlId

/-- **The store keeps its codes**, in every interleaving of calls, deletions, failures and
rollbacks. -/
theorem store_guarantee (hencode : Set.InjOn encode (Set.Ioo 0 (2 ^ 63))) {es : List DbEvent}
    {db : Db} (hrun : Run (Db.step encode) Any Db.init es db) : StoreGuarantee encode db := by
  have h := storeInv_of_run hrun
  refine ⟨h.current, fun urls hurls r hr => (h.row_ok hurls hr).2, ?_,
    fun urls hurls => (h.tables urls hurls).pairs, ?_, ?_⟩
  · intro urls hurls
    refine List.Nodup.map_on ?_ ((h.tables urls hurls).ids.of_map _)
    intro r hr r' hr' hcode
    exact List.inj_on_of_nodup_map (h.tables urls hurls).ids hr hr'
      (h.id_eq_of_code hencode hurls hr hurls hr' hcode)
  · intro urls hurls urls' hurls' r hr r' hr' hid
    have hissue := h.issue_eq_of_id hurls hr hurls' hr' hid
    exact ⟨congrArg Issue.originalUrl hissue, congrArg Issue.userId hissue⟩
  · intro urls hurls urls' hurls' r hr r' hr' hcode
    exact h.id_eq_of_code hencode hurls hr hurls' hr' hcode

/-- Two calls race for one pair: one inserts, the other is told of the conflict; the link is deleted and
created again under a new code. -/
theorem store_guarantee_of_race :
    ∃ db : Db, db.history.length = 4 ∧ StoreGuarantee base62Encode db := by
  obtain ⟨db, hrun, hdb⟩ := exists_run_of_exec (Db.step base62Encode) Any Db.init
    [.call "https://a.example" 7 none, .call "https://a.example" 7 (some 5), .select 0 0, .select 1 0,
      .insert 0 1 0, .assign 0, .commit 0 .ok, .insert 1 2 0, .deleteUrl 1 7 .ok,
      .call "https://a.example" 7 none, .select 2 9, .insert 2 3 9, .assign 2, .commit 2 .errApplied]
    (fun db => db.history.length = 4) (by decide)
  exact ⟨db, by simpa using hdb, store_guarantee base62Encode_injOn hrun⟩

end Bittuly.Urls
