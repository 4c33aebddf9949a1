import Bittuly.Urls.Search
import Bittuly.Urls.Store

/-!
# Users keep to their own rows

References: `services/url-service/src/repository.rs` (`add_shorten_url`, `delete_url`, `get_urls_page`),
`services/url-service/src/handlers.rs` (`get_all_urls`, `delete_url_handler`).

Two statements name their row by `url_id` alone. The id comes from an earlier statement of the same call,
and the pair it was drawn for never changes (`Issue`), so it stays an id of the caller whatever the others
do in between, the deletion of the row included.
-/

namespace Bittuly.Urls

open Runs

/-- The row that the next statement of a call names by its id. -/
def AddPc.target : AddPc → Option ℤ
  | .reactivate urlId | .assign urlId | .commit urlId => some urlId
  | _ => none

/-- What the id of a call was drawn for. -/
def AddCall.issue (call : AddCall) (urlId : ℤ) : Issue where
  urlId := urlId
  originalUrl := call.originalUrl
  userId := call.userId

/-- Calls name rows of their own pair. -/
def Targeted (db : Db) : Prop :=
  ∀ call ∈ db.calls, ∀ urlId, call.pc.target = some urlId → call.issue urlId ∈ db.issued

/-- The call whose statement it is. -/
def DbEvent.callIndex : DbEvent → Option ℕ
  | .select n _ | .reactivate n _ _ | .insert n _ _ | .assign n | .commit n _ | .fail n => some n
  | .call _ _ _ | .deleteUrl _ _ _ | .cascade _ _ => none

/-- The user in whose name url-service runs the statement. -/
def DbEvent.actor (db : Db) : DbEvent → Option Uuid
  | .call _ userId _ | .deleteUrl _ userId _ => some userId
  | .cascade _ _ => none
  | .select n _ | .reactivate n _ _ | .insert n _ _ | .assign n | .commit n _ | .fail n =>
    db.calls[n]?.map AddCall.userId

/-- `delete_url`: the code of the deleted row. -/
def Db.deleteUrl (db : Db) (urlId : ℤ) (userId : Uuid) (result : DbResult) :
    Except SqlError (Option String) :=
  match result with
  | .ok =>
    match (db.deleted (Db.ownedBy urlId userId)).head? with
    | none => .ok none
    | some row =>
      match row.shortCode with
      | some shortCode => .ok (some shortCode)
      | none => .error .columnDecode
  | _ => .error .database

/-! ## Rows of others -/

/-- The rows of everybody else. -/
def others (userId : Uuid) (rows : List UrlRow) : List UrlRow :=
  rows.filter fun r => r.userId ≠ userId

variable {userId : Uuid} {rows : List UrlRow}

theorem others_append (rows' : List UrlRow) (h : ∀ r ∈ rows', r.userId = userId) :
    others userId (rows ++ rows') = others userId rows := by
  have hnil : others userId rows' = [] := List.filter_eq_nil_iff.mpr fun r hr => by simp [h r hr]
  rw [others, List.filter_append, ← others, ← others, hnil, List.append_nil]

theorem others_filter {p : UrlRow → Bool} (h : ∀ r ∈ rows, p r = false → r.userId = userId) :
    others userId (rows.filter p) = others userId rows := by
  rw [others, others, List.filter_filter]
  apply List.filter_congr
  intro r hr
  cases hp : p r with
  | true => rw [Bool.and_true]
  | false => simp [h r hr hp]

theorem others_map {f : UrlRow → UrlRow}
    (h : ∀ r ∈ rows, f r = r ∨ r.userId = userId ∧ (f r).userId = userId) :
    others userId (rows.map f) = others userId rows := by
  induction rows with
  | nil => rfl
  | cons r rows ih =>
    have hrest := ih fun r' hr' => h r' (List.mem_cons_of_mem _ hr')
    rw [others, others] at hrest ⊢
    rw [List.map_cons, List.filter_cons, List.filter_cons, hrest]
    rcases h r List.mem_cons_self with hsame | ⟨hown, hown'⟩
    · rw [hsame]
    · simp [hown, hown']

/-! ## The statements of a call -/

variable {encode : ℤ → String} {db db' : Db}

/-- What a statement of a call does: to everything but the calls, and to the call. -/
structure Moved (db : Db) (call : AddCall) (db₀ : Db) (pc : AddPc) : Prop where
  calls : db₀.calls = db.calls
  issued : db.issued ⊆ db₀.issued
  target : ∀ urlId, pc.target = some urlId → call.issue urlId ∈ db₀.issued
  urls : others call.userId db₀.urls = others call.userId db.urls
  pending : others call.userId db₀.pending = others call.userId db.pending
  /-- A call that ends with a row found the row in its table. -/
  returned : ∀ url, pc = .done (.ok (some url)) →
    ∃ r ∈ db₀.urls, r.decode = some url ∧ r.userId = call.userId

/-- A row with the id of a call is one of its user. -/
theorem owner_of_issue (hinv : StoreInv encode db) {call : AddCall} {urlId : ℤ}
    (hissue : call.issue urlId ∈ db.issued) {r : UrlRow} (hr : r ∈ db.urls ∨ r ∈ db.pending)
    (hid : r.urlId = urlId) : r.userId = call.userId := by
  have hknown : r.issue ∈ db.issued := by
    rcases hr with hurl | hpend
    · exact hinv.table.known r hurl
    · exact hinv.pending_known r hpend
  have heq : r.issue = call.issue urlId := List.inj_on_of_nodup_map hinv.issued_nodup hknown hissue hid
  exact congrArg Issue.userId heq

/-- Nothing but the call moves. -/
theorem Moved.same (call : AddCall) {pc : AddPc}
    (htarget : ∀ urlId, pc.target = some urlId → call.issue urlId ∈ db.issued)
    (hreturned : ∀ url, pc ≠ .done (.ok (some url))) : Moved db call db pc where
  calls := rfl
  issued := List.Subset.refl _
  target := htarget
  urls := rfl
  pending := rfl
  returned := fun url hpc => absurd hpc (hreturned url)

theorem moved_rollback (hinv : StoreInv encode db) {call : AddCall} {urlId : ℤ}
    (hissue : call.issue urlId ∈ db.issued) {pc : AddPc} (htarget : pc.target = none)
    (hreturned : ∀ url, pc ≠ .done (.ok (some url))) :
    Moved db call (db.rollback (some urlId)) pc where
  calls := rfl
  issued := List.Subset.refl _
  target := fun urlId' h => by
    rw [htarget] at h
    cases h
  urls := rfl
  pending := others_filter fun r hr hrid => owner_of_issue hinv hissue (Or.inr hr) (by simpa using hrid)
  returned := fun url hpc => absurd hpc (hreturned url)

theorem moved_select (hinv : StoreInv encode db) (call : AddCall) (now : Instant) :
    Moved db call db (db.select call now) := by
  unfold Db.select
  split
  · exact .same call (fun urlId h => by cases h) fun url h => by cases h
  · rename_i row hfind
    have hrow := List.mem_of_find?_eq_some hfind
    have hpair : row.originalUrl = call.originalUrl ∧ row.userId = call.userId := by
      simpa using List.find?_some hfind
    split
    · exact .same call (fun urlId h => by cases h) fun url h => by cases h
    · rename_i existing hdecode
      split
      · split
        · -- the id of a row of the pair
          refine .same call ?_ fun url h => by cases h
          intro urlId htarget
          obtain rfl : existing.urlId = urlId := Option.some.inj htarget
          obtain ⟨code, -, rfl⟩ := Option.map_eq_some_iff.mp hdecode
          have hissue : call.issue row.urlId = row.issue := by
            rw [AddCall.issue, UrlRow.issue, hpair.1, hpair.2]
          rw [hissue]
          exact hinv.table.known row hrow
        · exact .same call (fun urlId h => by cases h) fun url h => by cases h
      · exact .same call (fun urlId h => by cases h) fun url h => by cases h

theorem moved_reactivate (hinv : StoreInv encode db) (n : ℕ) {call : AddCall} {urlId : ℤ}
    (hissue : call.issue urlId ∈ db.issued) (now : Instant) (result : DbResult) :
    ∃ db₀ pc, db.reactivate n call urlId now result = db₀.setPc n call pc ∧ Moved db call db₀ pc := by
  unfold Db.reactivate
  split
  · exact ⟨db, _, rfl, .same call (fun urlId h => by cases h) fun url h => by cases h⟩
  · rename_i row hfind
    have hrow := List.mem_of_find?_eq_some hfind
    have hid : row.urlId = urlId := by simpa using List.find?_some hfind
    have hown : ∀ r ∈ db.urls, r.urlId = urlId → r.userId = call.userId := fun r hr hrid =>
      owner_of_issue hinv hissue (Or.inl hr) hrid
    have hmap : others call.userId (db.urls.map fun r =>
        if r.urlId = urlId then Db.reactivated r call.expiresAt now else r) =
          others call.userId db.urls := by
      apply others_map
      intro r hr
      by_cases hrid : r.urlId = urlId
      · right
        rw [if_pos hrid]
        exact ⟨hown r hr hrid, hown r hr hrid⟩
      · left
        rw [if_neg hrid]
    have hmoved : ∀ pc : AddPc, pc.target = none → (∀ url, pc = .done (.ok (some url)) →
        result = .ok ∧ (Db.reactivated row call.expiresAt now).decode = some url) →
        Moved db call (if result.applied then db.commitRows (db.urls.map fun r =>
          if r.urlId = urlId then Db.reactivated r call.expiresAt now else r) else db) pc := by
      intro pc htarget hreturned
      have hnone : ∀ urlId', pc.target = some urlId' → call.issue urlId' ∈ db.issued := by
        intro urlId' h
        rw [htarget] at h
        cases h
      split
      · refine ⟨rfl, List.Subset.refl _, hnone, hmap, rfl, ?_⟩
        intro url hpc
        refine ⟨Db.reactivated row call.expiresAt now, ?_, (hreturned url hpc).2, hown row hrow hid⟩
        exact List.mem_map.mpr ⟨row, hrow, if_pos hid⟩
      · rename_i hresult
        refine .same call hnone fun url hpc => hresult ?_
        rw [(hreturned url hpc).1]
        rfl
    simp only
    split
    · rename_i url hdecode
      refine ⟨_, _, rfl, hmoved _ rfl ?_⟩
      intro url' hpc
      obtain rfl : url = url' := by simpa using hpc
      exact ⟨rfl, hdecode⟩
    · exact ⟨_, _, rfl, hmoved _ rfl fun url hpc => by cases hpc⟩
    · exact ⟨_, _, rfl, hmoved _ rfl fun url hpc => by cases hpc⟩

theorem moved_insert {n : ℕ} {call : AddCall} {urlId : ℤ} {now : Instant}
    (h : db.insert n call urlId now = some db') :
    ∃ db₀ pc, db' = db₀.setPc n call pc ∧ Moved db call db₀ pc := by
  unfold Db.insert at h
  simp only at h
  split at h
  · cases h
  split at h
  · cases h
  have hsub : db.issued ⊆ db.issued ++ [(Db.newRow call urlId now).issue] := List.subset_append_left _ _
  split at h
  · obtain rfl := Option.some.inj h
    refine ⟨_, _, rfl, rfl, hsub, ?_, rfl, rfl, fun url h => by cases h⟩
    intro urlId' htarget
    cases htarget
  · obtain rfl := Option.some.inj h
    refine ⟨_, _, rfl, rfl, hsub, ?_, rfl, ?_, fun url h => by cases h⟩
    · intro urlId' htarget
      obtain rfl : urlId = urlId' := Option.some.inj htarget
      exact List.mem_append_right _ (List.mem_singleton_self _)
    · apply others_append _
      intro r hr
      rw [List.mem_singleton.mp hr]
      rfl

theorem moved_assign (hinv : StoreInv encode db) {n : ℕ} {call : AddCall} {urlId : ℤ}
    (hissue : call.issue urlId ∈ db.issued) (h : db.assign encode n call urlId = some db') :
    ∃ db₀ pc, db' = db₀.setPc n call pc ∧ Moved db call db₀ pc := by
  unfold Db.assign at h
  simp only at h
  split at h
  · cases h
  split at h
  · obtain rfl := Option.some.inj h
    exact ⟨_, _, rfl, moved_rollback hinv hissue rfl fun url h => by cases h⟩
  · obtain rfl := Option.some.inj h
    refine ⟨_, _, rfl, rfl, List.Subset.refl _, ?_, rfl, ?_, fun url h => by cases h⟩
    · intro urlId' htarget
      obtain rfl : urlId = urlId' := Option.some.inj htarget
      exact hissue
    · apply others_map
      intro r hr
      by_cases hrid : r.urlId = urlId
      · right
        have hown := owner_of_issue hinv hissue (Or.inr hr) hrid
        rw [if_pos hrid]
        exact ⟨hown, hown⟩
      · left
        rw [if_neg hrid]

theorem moved_commit (hinv : StoreInv encode db) (n : ℕ) {call : AddCall} {urlId : ℤ}
    (hissue : call.issue urlId ∈ db.issued) (result : DbResult) :
    ∃ db₀ pc, db.commit n call urlId result = db₀.setPc n call pc ∧ Moved db call db₀ pc := by
  have hown : ∀ r ∈ db.pending.filter fun r => r.urlId = urlId, r.userId = call.userId := by
    intro r hr
    obtain ⟨hmem, hid⟩ := List.mem_filter.mp hr
    exact owner_of_issue hinv hissue (Or.inr hmem) (by simpa using hid)
  have hpending : others call.userId (db.pending.filter fun r => some r.urlId ≠ some urlId) =
      others call.userId db.pending := others_filter fun r hr hrid =>
    owner_of_issue hinv hissue (Or.inr hr) (by simpa using hrid)
  refine ⟨_, _, rfl, ?_, ?_, ?_, ?_, ?_, ?_⟩
  · split <;> rfl
  · split <;> exact List.Subset.refl _
  · intro urlId' h
    cases h
  · split
    · exact others_append _ hown
    · rfl
  · split <;> exact hpending
  · intro url hpc
    have hvalue := AddPc.done.inj hpc
    split at hvalue
    · rename_i hresult
      split at hvalue
      · rename_i url' hdecode
        obtain rfl := Option.some.inj (Except.ok.inj hvalue)
        obtain ⟨r, hr, hdecode⟩ := Option.bind_eq_some_iff.mp hdecode
        have hmem := List.mem_of_mem_head? hr
        refine ⟨r, ?_, hdecode, hown r hmem⟩
        rw [hresult]
        exact List.mem_append_right _ hmem
      · cases hvalue
    · cases hvalue

theorem moved_fail (hinv : StoreInv encode db) {call : AddCall}
    (htargeted : ∀ urlId, call.pc.target = some urlId → call.issue urlId ∈ db.issued) :
    Moved db call (db.rollback call.pc.inserted) (.done (.error .database)) := by
  cases hins : call.pc.inserted with
  | none =>
    have hrollback : db.rollback none = db := by simp [Db.rollback]
    rw [hrollback]
    exact .same call (fun urlId h => by cases h) fun url h => by cases h
  | some urlId =>
    have htarget : call.pc.target = some urlId := by
      cases hpc : call.pc with
      | assign urlId' => rwa [hpc] at hins
      | commit urlId' => rwa [hpc] at hins
      | select => simp [hpc, AddPc.inserted] at hins
      | reactivate urlId' => simp [hpc, AddPc.inserted] at hins
      | insert => simp [hpc, AddPc.inserted] at hins
      | done result => simp [hpc, AddPc.inserted] at hins
    exact moved_rollback hinv (htargeted urlId htarget) rfl fun url h => by cases h

/-- The statements outside the calls. -/
theorem callIndex_eq_none {e : DbEvent} (h : e.callIndex = none) :
    (∃ originalUrl userId expiresAt, e = .call originalUrl userId expiresAt) ∨
      (∃ urlId userId result, e = .deleteUrl urlId userId result) ∨
      ∃ userId result, e = .cascade userId result := by
  cases e with
  | call originalUrl userId expiresAt => exact Or.inl ⟨_, _, _, rfl⟩
  | deleteUrl urlId userId result => exact Or.inr (Or.inl ⟨_, _, _, rfl⟩)
  | cascade userId result => exact Or.inr (Or.inr ⟨_, _, rfl⟩)
  | select n now => cases h
  | reactivate n now result => cases h
  | insert n urlId now => cases h
  | assign n => cases h
  | commit n result => cases h
  | fail n => cases h

/-- A `DELETE` touches no call. -/
theorem deleteWhere_calls (db : Db) (p : UrlRow → Bool) (result : DbResult) :
    (db.deleteWhere p result).calls = db.calls ∧ (db.deleteWhere p result).issued = db.issued := by
  unfold Db.deleteWhere
  split <;> exact ⟨rfl, rfl⟩

/-- **Every statement of a call moves the call and nothing of others.** -/
theorem moved_of_step (hinv : StoreInv encode db) (htargeted : Targeted db) {e : DbEvent} {n : ℕ}
    (hn : e.callIndex = some n) (hstep : db.step encode e = some db') :
    ∃ call, db.calls[n]? = some call ∧ ∃ db₀ pc, db' = db₀.setPc n call pc ∧ Moved db call db₀ pc := by
  cases Db.fired_of_step hstep with
  | call originalUrl userId expiresAt => cases hn
  | deleteUrl urlId userId result => cases hn
  | cascade userId result => cases hn
  | @select m call hcall hpc now =>
    obtain rfl := Option.some.inj hn
    exact ⟨call, hcall, _, _, rfl, moved_select hinv call now⟩
  | @reactivate m call urlId hcall hpc now result =>
    obtain rfl := Option.some.inj hn
    have hissue := htargeted call (List.mem_of_getElem? hcall) urlId (by rw [hpc]; rfl)
    exact ⟨call, hcall, moved_reactivate hinv m hissue now result⟩
  | @insert m call urlId now db' hcall hpc h =>
    obtain rfl := Option.some.inj hn
    exact ⟨call, hcall, moved_insert h⟩
  | @assign m call urlId db' hcall hpc h =>
    obtain rfl := Option.some.inj hn
    have hissue := htargeted call (List.mem_of_getElem? hcall) urlId (by rw [hpc]; rfl)
    exact ⟨call, hcall, moved_assign hinv hissue h⟩
  | @commit m call urlId hcall hpc result =>
    obtain rfl := Option.some.inj hn
    have hissue := htargeted call (List.mem_of_getElem? hcall) urlId (by rw [hpc]; rfl)
    exact ⟨call, hcall, moved_commit hinv m hissue result⟩
  | @fail m call hcall =>
    obtain rfl := Option.some.inj hn
    exact ⟨call, hcall, _, _, rfl, moved_fail hinv (htargeted call (List.mem_of_getElem? hcall))⟩

/-! ## Whole runs -/

theorem targeted_setPc (htargeted : Targeted db) {db₀ : Db} {call : AddCall} {pc : AddPc} {n : ℕ}
    (h : Moved db call db₀ pc) : Targeted (db₀.setPc n call pc) := by
  intro c hc urlId htarget
  rcases List.mem_or_eq_of_mem_set hc with hold | rfl
  · rw [h.calls] at hold
    exact h.issued (htargeted c hold urlId htarget)
  · exact h.target urlId htarget

theorem targeted_step (hinv : StoreInv encode db) (htargeted : Targeted db) {e : DbEvent}
    (hstep : db.step encode e = some db') : Targeted db' := by
  cases hn : e.callIndex with
  | some n =>
    obtain ⟨call, -, db₀, pc, rfl, hmoved⟩ := moved_of_step hinv htargeted hn hstep
    exact targeted_setPc htargeted hmoved
  | none =>
    have hdelete : ∀ p result, Targeted (db.deleteWhere p result) := by
      intro p result call hcall urlId htarget
      obtain ⟨hcalls, hissued⟩ := deleteWhere_calls db p result
      rw [hissued]
      exact htargeted call (hcalls ▸ hcall) urlId htarget
    obtain ⟨o, u, x, rfl⟩ | ⟨id, u, result, rfl⟩ | ⟨u, result, rfl⟩ := callIndex_eq_none hn
    · obtain rfl := Option.some.inj hstep
      intro c hc urlId htarget
      rcases List.mem_append.mp hc with hold | hnew
      · exact htargeted c hold urlId htarget
      · rw [List.mem_singleton.mp hnew] at htarget
        cases htarget
    · obtain rfl := Option.some.inj hstep
      exact hdelete _ result
    · obtain rfl := Option.some.inj hstep
      exact hdelete _ result

theorem targeted_of_run {P : Db → DbEvent → Prop} {es : List DbEvent}
    (hrun : Run (Db.step encode) P Db.init es db) : StoreInv encode db ∧ Targeted db := by
  refine hrun.induct (I := fun db => StoreInv encode db ∧ Targeted db) ?_ ?_
  · rintro db e db' ⟨hinv, htargeted⟩ - hstep
    exact ⟨hinv.statement (Db.statement_of_step hstep), targeted_step hinv htargeted hstep⟩
  · refine ⟨storeInv_init, ?_⟩
    intro call hcall
    cases hcall

/-- A statement in the name of a user leaves the rows of the others. -/
theorem frame_of_step (hinv : StoreInv encode db) (htargeted : Targeted db) {userId : Uuid} {e : DbEvent}
    (hactor : e.actor db = some userId) (hstep : db.step encode e = some db') :
    others userId db'.urls = others userId db.urls ∧ others userId db'.pending = others userId db.pending := by
  cases hn : e.callIndex with
  | some n =>
    obtain ⟨call, hcall, db₀, pc, rfl, hmoved⟩ := moved_of_step hinv htargeted hn hstep
    have howner : call.userId = userId := by
      cases e <;> simp_all [DbEvent.callIndex, DbEvent.actor]
    exact ⟨howner ▸ hmoved.urls, howner ▸ hmoved.pending⟩
  | none =>
    obtain ⟨o, u, x, rfl⟩ | ⟨id, u, result, rfl⟩ | ⟨u, result, rfl⟩ := callIndex_eq_none hn
    · obtain rfl := Option.some.inj hstep
      exact ⟨rfl, rfl⟩
    · obtain rfl : u = userId := Option.some.inj hactor
      obtain rfl := Option.some.inj hstep
      unfold Db.deleteWhere
      split
      · refine ⟨others_filter fun r hr hkeep => ?_, rfl⟩
        simp only [Db.ownedBy, Bool.not_eq_false', decide_eq_true_eq] at hkeep
        exact hkeep.2
      · exact ⟨rfl, rfl⟩
    · cases hactor

/-- A call that moves is the call of the statement. -/
theorem moved_of_pc_ne (hinv : StoreInv encode db) (htargeted : Targeted db) {e : DbEvent} {n : ℕ}
    {call call' : AddCall} (hstep : db.step encode e = some db') (hcall : db.calls[n]? = some call)
    (hcall' : db'.calls[n]? = some call') (hne : call.pc ≠ call'.pc) :
    ∃ db₀ pc, db' = db₀.setPc n call pc ∧ call' = { call with pc } ∧ Moved db call db₀ pc := by
  have hsame : db'.calls[n]? = db.calls[n]? → False := fun h =>
    hne (congrArg AddCall.pc (Option.some.inj ((hcall.symm.trans h.symm).trans hcall')))
  cases hm : e.callIndex with
  | some m =>
    obtain ⟨call₀, hcall₀, db₀, pc, rfl, hmoved⟩ := moved_of_step hinv htargeted hm hstep
    by_cases hmn : m = n
    · subst hmn
      obtain rfl := Option.some.inj (hcall₀.symm.trans hcall)
      rw [Db.getElem?_setPc_self _ (hmoved.calls ▸ hcall)] at hcall'
      exact ⟨db₀, pc, rfl, (Option.some.inj hcall').symm, hmoved⟩
    · refine (hsame ?_).elim
      rw [Db.setPc, hmoved.calls, List.getElem?_set_ne hmn]
  | none =>
    refine (hsame ?_).elim
    obtain ⟨o, u, x, rfl⟩ | ⟨id, u, result, rfl⟩ | ⟨u, result, rfl⟩ := callIndex_eq_none hm
    · obtain rfl := Option.some.inj hstep
      exact List.getElem?_append_left (List.getElem?_eq_some_iff.mp hcall).1
    · obtain rfl := Option.some.inj hstep
      rw [(deleteWhere_calls db _ result).1]
    · obtain rfl := Option.some.inj hstep
      rw [(deleteWhere_calls db _ result).1]

/-- The code that `delete_url` returns. -/
theorem mem_of_deleteUrl {urlId : ℤ} {userId : Uuid} {result : DbResult} {shortCode : String}
    (h : db.deleteUrl urlId userId result = .ok (some shortCode)) :
    ∃ r ∈ db.urls, r.urlId = urlId ∧ r.shortCode = some shortCode ∧ r.userId = userId := by
  unfold Db.deleteUrl at h
  split at h
  · split at h
    · cases h
    · rename_i row hhead
      split at h
      · rename_i code hcode
        obtain rfl := Option.some.inj (Except.ok.inj h)
        obtain ⟨hrow, howned⟩ := List.mem_filter.mp (List.mem_of_mem_head? hhead)
        simp only [Db.ownedBy, decide_eq_true_eq] at howned
        exact ⟨row, hrow, howned.1, hcode, howned.2⟩
      · cases h
  · cases h

/-- What url-service does in the name of a user. -/
structure Isolated (ilike : String → String → Bool) (encode : ℤ → String) (db : Db) (userId : Uuid) :
    Prop where
  /-- The rows of the others stay as they are, in the table and in open transactions. -/
  frame : ∀ e db', e.actor db = some userId → db.step encode e = some db' →
    others userId db'.urls = others userId db.urls ∧ others userId db'.pending = others userId db.pending
  /-- A call that ends with a row ends with a row of its user that is in the table. -/
  shortened : ∀ e (db' : Db) (n : ℕ) (call call' : AddCall) url, db.step encode e = some db' →
    db.calls[n]? = some call → call.userId = userId → db'.calls[n]? = some call' →
    call.pc ≠ call'.pc → call'.pc = .done (.ok (some url)) →
      ∃ r ∈ db'.urls, r.decode = some url ∧ r.userId = userId
  /-- A deletion returns the code of a row of its user. -/
  deleted : ∀ urlId result shortCode, db.deleteUrl urlId userId result = .ok (some shortCode) →
    ∃ r ∈ db.urls, r.urlId = urlId ∧ r.shortCode = some shortCode ∧ r.userId = userId
  /-- A page of any committed table holds rows of its user. -/
  page : ∀ urls ∈ db.history, ∀ params (page : UrlsPage), getAllUrls ilike urls userId params = .OK page →
    ∀ u ∈ page.urls, ∃ r ∈ urls, r.decode = some u ∧ r.userId = userId

/-- **Users keep to their own rows**, in every interleaving of statements. -/
theorem tenant_isolation (ilike : String → String → Bool) {es : List DbEvent}
    (hrun : Run (Db.step encode) Any Db.init es db) (userId : Uuid) : Isolated ilike encode db userId := by
  obtain ⟨hinv, htargeted⟩ := targeted_of_run hrun
  refine ⟨?_, ?_, ?_, ?_⟩
  · intro e db' hactor hstep
    exact frame_of_step hinv htargeted hactor hstep
  · intro e db' n call call' url hstep hcall howner hcall' hne hdone
    obtain ⟨db₀, pc, rfl, rfl, hmoved⟩ := moved_of_pc_ne hinv htargeted hstep hcall hcall' hne
    rw [← howner]
    exact hmoved.returned url hdone
  · intro urlId result shortCode h
    exact mem_of_deleteUrl h
  · intro urls _ params page hpage u hu
    exact mem_getAllUrls hpage hu

/-- Users 7 and 8 shorten the same url; 7 revives its link after 8 has deleted its own. -/
theorem tenant_isolation_of_two_users : ∃ db : Db, db.urls.length = 1 ∧
    Isolated (ilike Char.toLower) base62Encode db 7 := by
  obtain ⟨db, hrun, hdb⟩ := exists_run_of_exec (Db.step base62Encode) Any Db.init
    [.call "https://a.example" 7 (some 5), .call "https://a.example" 8 none, .select 0 0, .select 1 0,
      .insert 0 1 0, .insert 1 2 0, .assign 1, .assign 0, .commit 0 .ok, .commit 1 .ok,
      .call "https://a.example" 7 none, .select 2 9, .deleteUrl 2 8 .ok, .reactivate 2 9 .ok]
    (fun db => db.urls.length = 1) (by decide)
  exact ⟨db, by simpa using hdb, tenant_isolation _ hrun 7⟩

end Bittuly.Urls
