import Bittuly.Lib.Run
import Bittuly.Urls.Mock
import Bittuly.Urls.Store

/-!
# One call after the other

Reference: `services/url-service/src/repository.rs`.

`PgUrlRepo` answers a call in one step; in `Db` a call is a number of statements, with others between them.
When there are none, the two agree: every call of `PgUrlRepo` is a run of `Db`, whose `expires_at` is the one
that the column keeps. A value that Postgres refuses is a statement that fails.
-/

namespace Bittuly.Urls

open Runs

variable {encode : ℤ → String} {indexed : String → Bool}

namespace PgUrlRepo

/-- The database with no transaction open, and all drawn values behind. -/
structure Represents (encode : ℤ → String) (p : PgUrlRepo) (db : Db) : Prop where
  store : StoreInv encode db
  urls : db.urls = p.urls
  pending : db.pending = []
  drawn : ∀ e ∈ db.issued, e.urlId < p.nextval
  pos : 0 < p.nextval

theorem represents_new : PgUrlRepo.new.Represents encode Db.init where
  store := storeInv_init
  urls := rfl
  pending := rfl
  drawn := fun _ he => nomatch he
  pos := Int.one_pos

variable {p : PgUrlRepo} {db : Db} {n : ℕ} {call : AddCall}

/-- A call has returned, and the database is that of the repository again. -/
def Returned (encode : ℤ → String) (db : Db) (n : ℕ)
    (outcome : Except SqlError (Option Url) × PgUrlRepo) : Prop :=
  ∃ es db' call, Run (Db.step encode) Any db es db' ∧ db'.calls[n]? = some call ∧
    call.pc = .done outcome.1 ∧ outcome.2.Represents encode db'

/-- A statement before the rest of the call. -/
theorem Returned.cons {e : DbEvent} {db' : Db} {outcome : Except SqlError (Option Url) × PgUrlRepo}
    (hstep : db.step encode e = some db') (h : Returned encode db' n outcome) :
    Returned encode db n outcome := by
  obtain ⟨es, db'', call, hrun, hcall⟩ := h
  exact ⟨e :: es, db'', call, .cons trivial hstep hrun, hcall⟩

/-- The last statement of a call. -/
theorem Returned.single {e : DbEvent} {outcome : Except SqlError (Option Url) × PgUrlRepo} (db' : Db)
    (hcall : db'.calls[n]? = some call)
    (hstep : db.step encode e = some (db'.setPc n call (.done outcome.1)))
    (h : outcome.2.Represents encode (db'.setPc n call (.done outcome.1))) :
    Returned encode db n outcome :=
  ⟨_, _, _, .single trivial hstep, Db.getElem?_setPc_self _ hcall _, rfl, h⟩

/-- A statement outside a transaction that fails; a value of the sequence may be lost. -/
theorem returned_fail (h : p.Represents encode db) (hcall : db.calls[n]? = some call)
    (hpc : ∀ result, call.pc ≠ .done result) (hinserted : call.pc.inserted = none) {nextval : ℤ}
    (hle : p.nextval ≤ nextval) : Returned encode db n (.error .database, { p with nextval }) := by
  have hstep : db.step encode (.fail n) =
      some ((db.rollback none).setPc n call (.done (.error .database))) := by
    rw [← hinserted]
    cases hp : call.pc with
    | done result => exact absurd hp (hpc result)
    | _ => simp only [Db.step, hcall, hp]
  refine .single (db.rollback none) hcall hstep ?_
  exact
    { store := h.store.statement (Db.statement_of_step hstep)
      urls := h.urls
      pending := by simp [Db.setPc, Db.rollback, h.pending]
      drawn := fun e he => (h.drawn e he).trans_le hle
      pos := h.pos.trans_le hle }

/-- The `COMMIT`. -/
theorem returned_commit {row : UrlRow} {c : String} {nextval : ℤ} (hstore : StoreInv encode db)
    (hpending : db.pending = [row]) (hcode : row.shortCode = some c)
    (hdrawn : ∀ e ∈ db.issued, e.urlId < nextval) (hpos : 0 < nextval) (hcall : db.calls[n]? = some call)
    (hpc : call.pc = .commit row.urlId) :
    Returned encode db n
      (.ok (some { row with shortCode := c }), { urls := db.urls ++ [row], nextval }) := by
  have hrows : db.pending.filter (fun r => r.urlId = row.urlId) = [row] := by simp [hpending]
  have hdecode : row.decode = some { row with shortCode := c } := by
    rw [UrlRow.decode, hcode]
    rfl
  have hstep : db.step encode (.commit n .ok) =
      some (((db.commitRows (db.urls ++ [row])).rollback (some row.urlId)).setPc n call
        (.done (.ok (some { row with shortCode := c })))) := by
    simp only [Db.step, hcall, hpc, Db.commit, hrows, List.head?_cons, Option.bind_some, hdecode, if_true]
    rfl
  refine .single ((db.commitRows (db.urls ++ [row])).rollback (some row.urlId)) hcall hstep ?_
  exact
    { store := hstore.statement (Db.statement_of_step hstep)
      urls := rfl
      pending := by simp [Db.setPc, Db.rollback, Db.commitRows, hpending]
      drawn := hdrawn
      pos := hpos }

/-- The end of the transaction of a call, with its row inserted. -/
theorem returned_assign {row : UrlRow} {nextval : ℤ} (hstore : StoreInv encode db)
    (hpending : db.pending = [row]) (hdrawn : ∀ e ∈ db.issued, e.urlId < nextval) (hpos : 0 < nextval)
    (hcall : db.calls[n]? = some call) (hpc : call.pc = .assign row.urlId) :
    Returned encode db n
      (if ∃ r ∈ db.urls, r.shortCode = some (encode row.urlId) then
        (.error .database, { urls := db.urls, nextval })
      else
        (.ok (some { row with shortCode := encode row.urlId }),
          { urls := db.urls ++ [{ row with shortCode := some (encode row.urlId) }], nextval })) := by
  have hown : ¬ ∃ r ∈ [row], r.urlId ≠ row.urlId ∧ r.shortCode = some (encode row.urlId) := by
    rintro ⟨r, hr, hne, -⟩
    exact hne (congrArg UrlRow.urlId (List.mem_singleton.mp hr))
  by_cases hused : ∃ r ∈ db.urls, r.shortCode = some (encode row.urlId)
  · have hstep : db.step encode (.assign n) =
        some ((db.rollback (some row.urlId)).setPc n call (.done (.error .database))) := by
      simp only [Db.step, hcall, hpc, Db.assign, hpending, if_neg hown, if_pos hused]
    rw [if_pos hused]
    refine .single (db.rollback (some row.urlId)) hcall hstep ?_
    exact
      { store := hstore.statement (Db.statement_of_step hstep)
        urls := rfl
        pending := by simp [Db.setPc, Db.rollback, hpending]
        drawn := hdrawn
        pos := hpos }
  · have hstep : db.step encode (.assign n) =
        some ({ db with pending := [{ row with shortCode := some (encode row.urlId) }] }.setPc n call
          (.commit row.urlId)) := by
      simp only [Db.step, hcall, hpc, Db.assign, hpending, if_neg hown, if_neg hused, List.map_singleton,
        if_true]
    rw [if_neg hused]
    refine .cons hstep (returned_commit (hstore.statement (Db.statement_of_step hstep)) rfl rfl hdrawn hpos
      (Db.getElem?_setPc_self _ hcall _) rfl)

/-- The next value of the sequence is free, so the `INSERT` depends on the pair alone. -/
theorem Represents.step_insert (h : p.Represents encode db) (hroom : p.nextval < 2 ^ 63)
    (hcall : db.calls[n]? = some call) (hpc : call.pc = .insert) (now : Instant) :
    let db' := { db with issued := db.issued ++ [(Db.newRow call p.nextval now).issue] }
    db.step encode (.insert n p.nextval now) =
      if ∃ r ∈ p.urls, r.originalUrl = call.originalUrl ∧ r.userId = call.userId then
        some (db'.setPc n call (.done (.ok none)))
      else some ({ db' with pending := [Db.newRow call p.nextval now] }.setPc n call (.assign p.nextval)) := by
  have hfresh : p.nextval ∉ db.issued.map Issue.urlId := by
    intro hmem
    obtain ⟨e, he, heq⟩ := List.mem_map.mp hmem
    exact (h.drawn e he).ne heq
  have hguard : ¬ (p.nextval ≤ 0 ∨ 2 ^ 63 ≤ p.nextval ∨ p.nextval ∈ db.issued.map Issue.urlId) := by
    rintro (hle | hge | hmem)
    · exact absurd h.pos hle.not_gt
    · exact absurd hroom hge.not_gt
    · exact hfresh hmem
  have hpair : (Db.newRow call p.nextval now).pair ∈ db.urls.map UrlRow.pair ↔
      ∃ r ∈ p.urls, r.originalUrl = call.originalUrl ∧ r.userId = call.userId := by
    simp only [h.urls, List.mem_map, UrlRow.pair, Db.newRow, Prod.mk.injEq]
  simp only [Db.step, hcall, hpc, Db.insert, if_neg hguard, h.pending, List.map_nil, List.not_mem_nil, if_false,
    hpair, List.nil_append]

theorem Represents.drawn_succ (h : p.Represents encode db) {now : Instant} :
    ∀ e ∈ db.issued ++ [(Db.newRow call p.nextval now).issue], e.urlId < p.nextval + 1 := by
  intro e he
  rcases List.mem_append.mp he with he | he
  · exact (h.drawn e he).trans (Int.lt_succ _)
  · rw [List.mem_singleton.mp he]
    exact Int.lt_succ _

/-- The transaction of a call. -/
theorem returned_insert (h : p.Represents encode db) (hroom : p.nextval < 2 ^ 63)
    (hcall : db.calls[n]? = some call) (hpc : call.pc = .insert) (now : Instant) {expiresAt : Option Instant}
    (hkept : ∀ kept ∈ keptExpiry expiresAt, call.expiresAt = kept) :
    Returned encode db n (p.insert encode indexed now call.originalUrl call.userId expiresAt) := by
  have hfails : ∀ nextval, p.nextval ≤ nextval →
      Returned encode db n (.error .database, { p with nextval }) := fun nextval hle =>
    returned_fail h hcall (by simp [hpc]) (by rw [hpc]; rfl) hle
  have hstep := h.step_insert hroom hcall hpc (pgNow now)
  unfold PgUrlRepo.insert
  split
  · exact hfails _ le_rfl
  rename_i kept hsome
  obtain rfl := hkept kept hsome
  by_cases hconflict : ∃ r ∈ p.urls, r.originalUrl = call.originalUrl ∧ r.userId = call.userId
  · -- a unique violation
    simp only [if_pos hconflict] at hstep ⊢
    refine .single { db with issued := db.issued ++ [(Db.newRow call p.nextval (pgNow now)).issue] } hcall
      hstep ?_
    exact
      { store := h.store.statement (Db.statement_of_step hstep)
        urls := h.urls
        pending := h.pending
        drawn := h.drawn_succ
        pos := h.pos.trans (Int.lt_succ _) }
  simp only [if_neg hconflict] at hstep ⊢
  by_cases hindexed : indexed call.originalUrl = true
  · have hrest := returned_assign (h.store.statement (Db.statement_of_step hstep)) rfl h.drawn_succ
      (h.pos.trans (Int.lt_succ _)) (Db.getElem?_setPc_self _ hcall _) rfl
    simp only [hindexed, Bool.not_true, Bool.false_eq_true, if_false]
    refine .cons hstep ?_
    simp only [← h.urls]
    exact hrest
  · simp only [hindexed, Bool.not_false, if_true]
    exact hfails _ (Int.lt_succ _).le

/-- The reactivating `UPDATE`. -/
theorem returned_reactivate (h : p.Represents encode db) {row : UrlRow} {existing : Url}
    (hrow : row ∈ db.urls) (hdecode : row.decode = some existing) (hcall : db.calls[n]? = some call)
    (hpc : call.pc = .reactivate existing.urlId) (now : Instant) {expiresAt : Option Instant}
    (hkept : ∀ kept ∈ keptExpiry expiresAt, call.expiresAt = kept) :
    Returned encode db n (p.reactivate now existing expiresAt) := by
  unfold PgUrlRepo.reactivate
  split
  · exact returned_fail h hcall (by simp [hpc]) (by rw [hpc]; rfl) le_rfl
  rename_i kept hsome
  obtain rfl := hkept kept hsome
  obtain ⟨c, hc, rfl⟩ := Option.map_eq_some_iff.mp hdecode
  have hfind : db.urls.find? (fun r => r.urlId = row.urlId) = some row := by
    cases hfound : db.urls.find? fun r => r.urlId = row.urlId with
    | none => exact absurd (decide_eq_true rfl) (List.find?_eq_none.mp hfound row hrow)
    | some r =>
      have hid : r.urlId = row.urlId := by simpa using List.find?_some hfound
      rw [List.inj_on_of_nodup_map h.store.table.ids (List.mem_of_find?_eq_some hfound) hrow hid]
  have hrevived : (Db.reactivated row call.expiresAt (pgNow now)).decode =
      some { row with shortCode := c, expiresAt := call.expiresAt, updatedAt := pgNow now } := by
    rw [Db.reactivated, UrlRow.decode, hc]
    rfl
  have hstep : db.step encode (.reactivate n (pgNow now) .ok) =
      some ((db.commitRows (db.urls.map fun r =>
        if r.urlId = row.urlId then Db.reactivated r call.expiresAt (pgNow now) else r)).setPc n call
          (.done (.ok (some
            { row with shortCode := c, expiresAt := call.expiresAt, updatedAt := pgNow now })))) := by
    simp only [Db.step, hcall, hpc, Db.reactivate, hfind, hrevived]
    rfl
  refine .single (db.commitRows (db.urls.map fun r =>
    if r.urlId = row.urlId then Db.reactivated r call.expiresAt (pgNow now) else r)) hcall hstep ?_
  exact
    { store := h.store.statement (Db.statement_of_step hstep)
      urls := by
        rw [← h.urls]
        rfl
      pending := h.pending
      drawn := h.drawn
      pos := h.pos }

/-- The `SELECT`, and what the call goes on with. -/
theorem returned_select (h : p.Represents encode db) (hroom : p.nextval < 2 ^ 63)
    (hcall : db.calls[n]? = some call) (hpc : call.pc = .select) (now : Instant) {expiresAt : Option Instant}
    (hkept : ∀ kept ∈ keptExpiry expiresAt, call.expiresAt = kept) :
    Returned encode db n (p.addShortenUrl encode indexed now call.originalUrl call.userId expiresAt) := by
  unfold PgUrlRepo.addShortenUrl
  split
  · exact returned_fail h hcall (by simp [hpc]) (by rw [hpc]; rfl) le_rfl
  have hstep : db.step encode (.select n now) = some (db.setPc n call (db.select call now)) := by
    simp only [Db.step, hcall, hpc]
  have hselected : p.Represents encode (db.setPc n call (db.select call now)) :=
    ⟨h.store.statement (Db.statement_of_step hstep), h.urls, h.pending, h.drawn, h.pos⟩
  have hcall' := Db.getElem?_setPc_self _ hcall (db.select call now)
  refine .cons hstep ?_
  cases hfind : p.urls.find? fun r => r.originalUrl = call.originalUrl ∧ r.userId = call.userId with
  | none =>
    have hnext : db.select call now = .insert := by rw [Db.select, h.urls, hfind]
    exact returned_insert hselected hroom hcall' hnext now hkept
  | some row =>
    have hrow : row ∈ db.urls := h.urls ▸ List.mem_of_find?_eq_some hfind
    have hdecode : row.decode = some { row with shortCode := encode row.urlId } := by
      rw [UrlRow.decode, h.store.table.coded row hrow]
      rfl
    simp only [hdecode]
    cases hexpires : row.expiresAt with
    | none =>
      have hnext : db.select call now = .insert := by
        simp only [Db.select, h.urls, hfind, hdecode, hexpires]
      exact returned_insert hselected hroom hcall' hnext now hkept
    | some exp =>
      by_cases hexpired : exp < now
      · have hnext : db.select call now = .reactivate row.urlId := by
          simp only [Db.select, h.urls, hfind, hdecode, hexpires, if_pos hexpired]
        simp only [if_pos hexpired]
        exact returned_reactivate hselected hrow hdecode hcall' hnext now hkept
      · have hnext : db.select call now = .done (.ok none) := by
          simp only [Db.select, h.urls, hfind, hdecode, hexpires, if_neg hexpired]
        simp only [if_neg hexpired]
        exact ⟨[], _, _, .nil _, hcall', hnext, hselected⟩

/-- A call, with the end that is kept. -/
def begun (originalUrl : String) (userId : Uuid) (expiresAt : Option Instant) : AddCall where
  originalUrl := originalUrl
  userId := userId
  expiresAt := (keptExpiry expiresAt).getD none
  pc := .select

/-- **A call of the repository is a run of the database** in which nobody else does anything. -/
theorem returned_addShortenUrl (h : p.Represents encode db) (hroom : p.nextval < 2 ^ 63) (now : Instant)
    (originalUrl : String) (userId : Uuid) (expiresAt : Option Instant) :
    Returned encode db db.calls.length (p.addShortenUrl encode indexed now originalUrl userId expiresAt) := by
  have hstep : db.step encode (.call originalUrl userId ((keptExpiry expiresAt).getD none)) =
      some { db with calls := db.calls ++ [begun originalUrl userId expiresAt] } := rfl
  have hbegun : p.Represents encode
      { db with calls := db.calls ++ [begun originalUrl userId expiresAt] } :=
    ⟨h.store.statement (Db.statement_of_step hstep), h.urls, h.pending, h.drawn, h.pos⟩
  have hkept : ∀ kept ∈ keptExpiry expiresAt, (begun originalUrl userId expiresAt).expiresAt = kept := by
    intro kept hsome
    rw [begun, Option.mem_def.mp hsome, Option.getD_some]
  exact .cons hstep (returned_select hbegun hroom List.getElem?_concat_length rfl now hkept)

/-- And so is a deletion. -/
theorem represents_deleteUrl (h : p.Represents encode db) (urlId : ℤ) (userId : Uuid) :
    ∃ db', db.step encode (.deleteUrl urlId userId .ok) = some db' ∧
      (p.deleteUrl urlId userId).2.Represents encode db' ∧
      (p.deleteUrl urlId userId).1 =
        .ok ((db.deleted (Db.ownedBy urlId userId)).head?.bind UrlRow.shortCode) := by
  refine ⟨_, rfl, ?_, ?_⟩
  · exact
      { store := h.store.deleteWhere _ _
        urls := by
          rw [PgUrlRepo.deleteUrl, ← h.urls]
          rfl
        pending := h.pending
        drawn := h.drawn
        pos := h.pos }
  · rw [Db.deleted, List.head?_filter, h.urls]
    unfold PgUrlRepo.deleteUrl
    cases hfind : p.urls.find? (Db.ownedBy urlId userId) with
    | none => rfl
    | some row =>
      have hrow : row ∈ db.urls := h.urls ▸ List.mem_of_find?_eq_some hfind
      simp only [h.store.table.coded row hrow, Option.bind_some]

end PgUrlRepo

end Bittuly.Urls
