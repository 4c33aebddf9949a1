import Bittuly.Basic
import Bittuly.Lib.Run

/-!
# The urls table and the calls of `PgUrlRepo`

References: `docker/postgres-urls/init/01-init.sql`, `services/url-service/src/repository.rs`
(`add_shorten_url`, `get_original_url`, `delete_url`) and the cascade statement of
`services/consumer-service/src/main.rs`.

`Db.step` interleaves any number of `add_shorten_url` calls with deletions, one SQL statement at a time.
A row inserted by an open transaction is `pending`: others do not see it, but an `INSERT` that collides
with it waits. A statement may fail, before or after it took effect; dropping a call rolls its
transaction back.
-/

namespace Bittuly.Urls

open Runs

/-! ## Rows -/

/-- A row of `urls`. -/
structure UrlRow where
  urlId : ℤ
  shortCode : Option String
  originalUrl : String
  userId : Uuid
  clickCount : ℤ
  expiresAt : Option Instant
  createdAt : Instant
  updatedAt : Instant
deriving DecidableEq, Repr

/-- `models::Url`, the row as the service reads it. -/
structure Url where
  urlId : ℤ
  shortCode : String
  originalUrl : String
  userId : Uuid
  clickCount : ℤ
  expiresAt : Option Instant
  createdAt : Instant
  updatedAt : Instant
deriving DecidableEq, Repr

/-- `FromRow`: a row without a short code does not decode. -/
def UrlRow.decode (r : UrlRow) : Option Url :=
  r.shortCode.map fun shortCode =>
    { r with shortCode }

/-- The columns of `UNIQUE(original_url, user_id)`. -/
def UrlRow.pair (r : UrlRow) : String × Uuid :=
  (r.originalUrl, r.userId)

/-- A value of the `url_id` sequence with the row it was drawn for. -/
structure Issue where
  urlId : ℤ
  originalUrl : String
  userId : Uuid
deriving DecidableEq, Repr

/-- What never changes of a row. -/
def UrlRow.issue (r : UrlRow) : Issue :=
  { urlId := r.urlId, originalUrl := r.originalUrl, userId := r.userId }

/-- The `SELECT` of `get_original_url`. -/
def getOriginalUrl (urls : List UrlRow) (shortCode : String) :
    Option (String × Option Instant) :=
  (urls.find? fun r => r.shortCode = some shortCode).map fun r => (r.originalUrl, r.expiresAt)

theorem getOriginalUrl_eq_some {urls : List UrlRow} {shortCode originalUrl : String}
    {expiresAt : Option Instant}
    (h : getOriginalUrl urls shortCode = some (originalUrl, expiresAt)) :
    ∃ r ∈ urls, r.shortCode = some shortCode ∧ r.originalUrl = originalUrl ∧
      r.expiresAt = expiresAt := by
  obtain ⟨r, hfind, hr⟩ := Option.map_eq_some_iff.mp h
  obtain ⟨rfl, rfl⟩ := Prod.mk.inj hr
  have hcode := List.find?_some hfind
  exact ⟨r, List.mem_of_find?_eq_some hfind, by simpa using hcode, rfl, rfl⟩

/-! ## Calls of `add_shorten_url` -/

/-- `sqlx::Error`, as far as the calls tell the cases apart. -/
inductive SqlError
  | rowNotFound
  | columnDecode
  | database
deriving DecidableEq, Repr

/-- The next statement of a call, or its result. `assign` and `commit` are inside its transaction. -/
inductive AddPc
  | select
  | reactivate (urlId : ℤ)
  | insert
  | assign (urlId : ℤ)
  | commit (urlId : ℤ)
  | done (result : Except SqlError (Option Url))

/-- The row that the call's transaction has inserted. -/
def AddPc.inserted : AddPc → Option ℤ
  | .assign urlId | .commit urlId => some urlId
  | _ => none

/-- One `add_shorten_url` call: its arguments and its progress. -/
structure AddCall where
  originalUrl : String
  userId : Uuid
  expiresAt : Option Instant
  pc : AddPc

/-- The database and the calls in progress. -/
structure Db where
  /-- The committed rows. -/
  urls : List UrlRow
  /-- Rows inserted by open transactions. -/
  pending : List UrlRow
  /-- Values drawn from the `url_id` sequence. -/
  issued : List Issue
  calls : List AddCall
  /-- Every committed state of `urls`, oldest first. -/
  history : List (List UrlRow)

/-- One statement of one party, or a new call. -/
inductive DbEvent
  | call (originalUrl : String) (userId : Uuid) (expiresAt : Option Instant)
  /-- The `SELECT`, and `Utc::now()` against the expiry it read. -/
  | select (n : ℕ) (now : Instant)
  /-- The reactivating `UPDATE`, autocommitted. -/
  | reactivate (n : ℕ) (now : Instant) (result : DbResult)
  /-- The `INSERT`, drawing `urlId` from the sequence. -/
  | insert (n : ℕ) (urlId : ℤ) (now : Instant)
  /-- The `UPDATE` that sets the short code. -/
  | assign (n : ℕ)
  | commit (n : ℕ) (result : DbResult)
  /-- The next statement of a call fails, or the call is dropped. -/
  | fail (n : ℕ)
  /-- `PgUrlRepo::delete_url`. -/
  | deleteUrl (urlId : ℤ) (userId : Uuid) (result : DbResult)
  /-- The consumer's `DELETE FROM urls WHERE user_id = $1`. -/
  | cascade (userId : Uuid) (result : DbResult)

namespace Db

/-- The table as created. -/
def init : Db where
  urls := []
  pending := []
  issued := []
  calls := []
  history := [[]]

/-- A statement outside a transaction, or a commit, makes new rows visible. -/
def commitRows (db : Db) (urls : List UrlRow) : Db :=
  { db with urls, history := db.history ++ [urls] }

/-- Advance a call. -/
def setPc (db : Db) (n : ℕ) (call : AddCall) (pc : AddPc) : Db :=
  { db with calls := db.calls.set n { call with pc } }

/-- Forget the rows an open transaction has inserted. -/
def rollback (db : Db) (urlId : Option ℤ) : Db :=
  { db with pending := db.pending.filter fun r => some r.urlId ≠ urlId }

/-- The `SELECT` of a call and what it decides on. -/
def select (db : Db) (call : AddCall) (now : Instant) : AddPc :=
  match db.urls.find? fun r => r.originalUrl = call.originalUrl ∧ r.userId = call.userId with
  | none => .insert
  | some row =>
    match row.decode with
    | none => .done (.error .columnDecode)
    | some existing =>
      match existing.expiresAt with
      -- an expired link is revived, a live one is a conflict
      | some exp => if exp < now then .reactivate existing.urlId else .done (.ok none)
      -- a link that never expires runs into the unique constraint
      | none => .insert

/-- The reactivating `UPDATE` on one row. -/
def reactivated (row : UrlRow) (expiresAt : Option Instant) (now : Instant) : UrlRow :=
  { row with expiresAt, updatedAt := now }

/-- The reactivating `UPDATE`. -/
def reactivate (db : Db) (n : ℕ) (call : AddCall) (urlId : ℤ) (now : Instant) (result : DbResult) :
    Db :=
  match db.urls.find? fun r => r.urlId = urlId with
  | none => db.setPc n call (.done (.error .rowNotFound))
  | some row =>
    let urls := db.urls.map fun r =>
      if r.urlId = urlId then reactivated r call.expiresAt now else r
    let db := if result.applied then db.commitRows urls else db
    match result, (reactivated row call.expiresAt now).decode with
    | .ok, some url => db.setPc n call (.done (.ok (some url)))
    | .ok, none => db.setPc n call (.done (.error .columnDecode))
    | _, _ => db.setPc n call (.done (.error .database))

/-- The row that the `INSERT` of a call creates. -/
def newRow (call : AddCall) (urlId : ℤ) (now : Instant) : UrlRow where
  urlId := urlId
  shortCode := none
  originalUrl := call.originalUrl
  userId := call.userId
  clickCount := 0
  expiresAt := call.expiresAt
  createdAt := now
  updatedAt := now

/-- The `INSERT`. It waits while an open transaction holds the same pair; a committed row with the pair
is a unique violation, which rolls back and returns `Ok(None)`. -/
def insert (db : Db) (n : ℕ) (call : AddCall) (urlId : ℤ) (now : Instant) : Option Db :=
  let row := newRow call urlId now
  if urlId ≤ 0 ∨ 2 ^ 63 ≤ urlId ∨ urlId ∈ db.issued.map Issue.urlId then none
  -- waits for the other transaction
  else if row.pair ∈ db.pending.map UrlRow.pair then none
  else
    let db := { db with issued := db.issued ++ [row.issue] }
    -- the sequence value is lost with the rollback
    if row.pair ∈ db.urls.map UrlRow.pair then some (db.setPc n call (.done (.ok none)))
    else some ({ db with pending := db.pending ++ [row] }.setPc n call (.assign urlId))

variable (encode : ℤ → String)

/-- The `UPDATE` that sets the short code, inside the transaction. It waits for another transaction with
the same code; a committed row with the code is a unique violation. -/
def assign (db : Db) (n : ℕ) (call : AddCall) (urlId : ℤ) : Option Db :=
  let shortCode := encode urlId
  if ∃ r ∈ db.pending, r.urlId ≠ urlId ∧ r.shortCode = some shortCode then none
  else if ∃ r ∈ db.urls, r.shortCode = some shortCode then
    some ((db.rollback (some urlId)).setPc n call (.done (.error .database)))
  else
    let pending := db.pending.map fun r =>
      if r.urlId = urlId then { r with shortCode := some shortCode } else r
    some ({ db with pending }.setPc n call (.commit urlId))

/-- The `COMMIT`. -/
def commit (db : Db) (n : ℕ) (call : AddCall) (urlId : ℤ) (result : DbResult) : Db :=
  let rows := db.pending.filter fun r => r.urlId = urlId
  let returned := match rows.head?.bind UrlRow.decode with
    | some url => .ok (some url)
    | none => .error .columnDecode
  let committed := if result.applied then db.commitRows (db.urls ++ rows) else db
  (committed.rollback (some urlId)).setPc n call
    (.done (if result = .ok then returned else .error .database))

/-- The rows a `DELETE` returns. -/
def deleted (db : Db) (p : UrlRow → Bool) : List UrlRow :=
  db.urls.filter p

/-- A `DELETE`. -/
def deleteWhere (db : Db) (p : UrlRow → Bool) (result : DbResult) : Db :=
  if result.applied then db.commitRows (db.urls.filter (! p ·)) else db

/-- The rows that `delete_url` names. -/
def ownedBy (urlId : ℤ) (userId : Uuid) (r : UrlRow) : Bool :=
  r.urlId = urlId ∧ r.userId = userId

/-- One statement. -/
def step (db : Db) : DbEvent → Option Db
  | .call originalUrl userId expiresAt =>
    some { db with calls := db.calls ++ [{ originalUrl, userId, expiresAt, pc := .select }] }
  | .select n now =>
    match db.calls[n]? with
    | some call =>
      match call.pc with
      | .select => some (db.setPc n call (db.select call now))
      | _ => none
    | none => none
  | .reactivate n now result =>
    match db.calls[n]? with
    | some call =>
      match call.pc with
      | .reactivate urlId => some (db.reactivate n call urlId now result)
      | _ => none
    | none => none
  | .insert n urlId now =>
    match db.calls[n]? with
    | some call =>
      match call.pc with
      | .insert => db.insert n call urlId now
      | _ => none
    | none => none
  | .assign n =>
    match db.calls[n]? with
    | some call =>
      match call.pc with
      | .assign urlId => db.assign encode n call urlId
      | _ => none
    | none => none
  | .commit n result =>
    match db.calls[n]? with
    | some call =>
      match call.pc with
      | .commit urlId => some (db.commit n call urlId result)
      | _ => none
    | none => none
  | .fail n =>
    match db.calls[n]? with
    | some call =>
      match call.pc with
      | .done _ => none
      | pc => some ((db.rollback pc.inserted).setPc n call (.done (.error .database)))
    | none => none
  | .deleteUrl urlId userId result => some (db.deleteWhere (ownedBy urlId userId) result)
  | .cascade userId result => some (db.deleteWhere (fun r => r.userId = userId) result)

/-- The statements, each with what `step` has checked about its call. -/
inductive Statement (db : Db) : Db → Prop
  | call (originalUrl : String) (userId : Uuid) (expiresAt : Option Instant) :
      Statement db
        { db with calls := db.calls ++ [{ originalUrl, userId, expiresAt, pc := .select }] }
  | select (n : ℕ) (call : AddCall) (now : Instant) :
      Statement db (db.setPc n call (db.select call now))
  | reactivate (n : ℕ) (call : AddCall) (urlId : ℤ) (now : Instant) (result : DbResult) :
      Statement db (db.reactivate n call urlId now result)
  | insert {n : ℕ} {call : AddCall} {urlId : ℤ} {now : Instant} {db' : Db}
      (h : db.insert n call urlId now = some db') : Statement db db'
  | assign {n : ℕ} {call : AddCall} {urlId : ℤ} {db' : Db} (hcall : call ∈ db.calls)
      (hpc : call.pc = .assign urlId) (h : db.assign encode n call urlId = some db') :
      Statement db db'
  | commit (n : ℕ) {call : AddCall} {urlId : ℤ} (hcall : call ∈ db.calls)
      (hpc : call.pc = .commit urlId) (result : DbResult) :
      Statement db (db.commit n call urlId result)
  | fail (n : ℕ) (call : AddCall) :
      Statement db ((db.rollback call.pc.inserted).setPc n call (.done (.error .database)))
  | delete (p : UrlRow → Bool) (result : DbResult) : Statement db (db.deleteWhere p result)

/-- The statements with their events, each with what `step` has checked about its call. -/
inductive Fired (db : Db) : DbEvent → Db → Prop
  | call (originalUrl : String) (userId : Uuid) (expiresAt : Option Instant) :
      Fired db (.call originalUrl userId expiresAt)
        { db with calls := db.calls ++ [{ originalUrl, userId, expiresAt, pc := .select }] }
  | select {n : ℕ} {call : AddCall} (hcall : db.calls[n]? = some call) (hpc : call.pc = .select)
      (now : Instant) : Fired db (.select n now) (db.setPc n call (db.select call now))
  | reactivate {n : ℕ} {call : AddCall} {urlId : ℤ} (hcall : db.calls[n]? = some call)
      (hpc : call.pc = .reactivate urlId) (now : Instant) (result : DbResult) :
      Fired db (.reactivate n now result) (db.reactivate n call urlId now result)
  | insert {n : ℕ} {call : AddCall} {urlId : ℤ} {now : Instant} {db' : Db}
      (hcall : db.calls[n]? = some call) (hpc : call.pc = .insert)
      (h : db.insert n call urlId now = some db') : Fired db (.insert n urlId now) db'
  | assign {n : ℕ} {call : AddCall} {urlId : ℤ} {db' : Db} (hcall : db.calls[n]? = some call)
      (hpc : call.pc = .assign urlId) (h : db.assign encode n call urlId = some db') :
      Fired db (.assign n) db'
  | commit {n : ℕ} {call : AddCall} {urlId : ℤ} (hcall : db.calls[n]? = some call)
      (hpc : call.pc = .commit urlId) (result : DbResult) :
      Fired db (.commit n result) (db.commit n call urlId result)
  | fail {n : ℕ} {call : AddCall} (hcall : db.calls[n]? = some call) :
      Fired db (.fail n) ((db.rollback call.pc.inserted).setPc n call (.done (.error .database)))
  | deleteUrl (urlId : ℤ) (userId : Uuid) (result : DbResult) :
      Fired db (.deleteUrl urlId userId result) (db.deleteWhere (ownedBy urlId userId) result)
  | cascade (userId : Uuid) (result : DbResult) :
      Fired db (.cascade userId result) (db.deleteWhere (fun r => r.userId = userId) result)

variable {encode}

/-- What a step has checked about its call. -/
theorem fired_of_step {db db' : Db} {e : DbEvent} (hstep : db.step encode e = some db') :
    db.Fired encode e db' := by
  cases e with
  | call originalUrl userId expiresAt =>
    obtain rfl := Option.some.inj hstep
    exact .call originalUrl userId expiresAt
  | select n now =>
    simp only [step] at hstep
    split at hstep
    · rename_i call hcall
      split at hstep
      · rename_i hpc
        obtain rfl := Option.some.inj hstep
        exact .select hcall hpc now
      · cases hstep
    · cases hstep
  | reactivate n now result =>
    simp only [step] at hstep
    split at hstep
    · rename_i call hcall
      split at hstep
      · rename_i urlId hpc
        obtain rfl := Option.some.inj hstep
        exact .reactivate hcall hpc now result
      · cases hstep
    · cases hstep
  | insert n urlId now =>
    simp only [step] at hstep
    split at hstep
    · rename_i call hcall
      split at hstep
      · rename_i hpc
        exact .insert hcall hpc hstep
      · cases hstep
    · cases hstep
  | assign n =>
    simp only [step] at hstep
    split at hstep
    · rename_i call hcall
      split at hstep
      · rename_i urlId hpc
        exact .assign hcall hpc hstep
      · cases hstep
    · cases hstep
  | commit n result =>
    simp only [step] at hstep
    split at hstep
    · rename_i call hcall
      split at hstep
      · rename_i urlId hpc
        obtain rfl := Option.some.inj hstep
        exact .commit hcall hpc result
      · cases hstep
    · cases hstep
  | fail n =>
    simp only [step] at hstep
    split at hstep
    · rename_i call hcall
      split at hstep
      · cases hstep
      · obtain rfl := Option.some.inj hstep
        exact .fail hcall
    · cases hstep
  | deleteUrl urlId userId result =>
    obtain rfl := Option.some.inj hstep
    exact .deleteUrl urlId userId result
  | cascade userId result =>
    obtain rfl := Option.some.inj hstep
    exact .cascade userId result

/-- The call that has advanced. -/
theorem getElem?_setPc_self (db : Db) {n : ℕ} {call : AddCall} (hcall : db.calls[n]? = some call)
    (pc : AddPc) : (db.setPc n call pc).calls[n]? = some { call with pc } :=
  List.getElem?_set_self (List.getElem?_eq_some_iff.mp hcall).1

/-- Every step is one of the statements. -/
theorem statement_of_step {db db' : Db} {e : DbEvent} (hstep : db.step encode e = some db') :
    db.Statement encode db' := by
  cases fired_of_step hstep with
  | call originalUrl userId expiresAt => exact .call originalUrl userId expiresAt
  | @select n call hcall hpc now => exact .select n call now
  | @reactivate n call urlId hcall hpc now result => exact .reactivate n call urlId now result
  | insert hcall hpc h => exact .insert h
  | assign hcall hpc h => exact .assign (List.mem_of_getElem? hcall) hpc h
  | @commit n call urlId hcall hpc result => exact .commit n (List.mem_of_getElem? hcall) hpc result
  | @fail n call hcall => exact .fail n call
  | deleteUrl urlId userId result => exact .delete _ result
  | cascade userId result => exact .delete _ result

end Db

end Bittuly.Urls
