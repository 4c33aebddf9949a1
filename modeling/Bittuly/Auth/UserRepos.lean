import Bittuly.Auth.Users
import Bittuly.Lib.Replica
import Bittuly.Text
import Mathlib.Data.List.Find

/-!
# The repositories of users

References: `services/auth-service/src/repo_trait.rs`, `services/auth-service/src/repository.rs`,
`services/auth-service/src/mock.rs`.

Three things implement `UserRepo`. `PgUserRepo` is the users table; without its times it is `Users`, unless it
refuses a text. `SplitUserRepo` writes to one and reads from another, a replica that follows late;
`exists_serial_of_split` is what its callers can still rely on. `MockUserRepo` is the map of the tests, with no
unique email, any text and in any order; `mock_agrees_iff` says which tests cannot tell it from the table.
-/

namespace Bittuly.Auth

open Runs

/-! ## Rows -/

/-- `models::User`. -/
structure UserRow extends User where
  createdAt : Instant
  updatedAt : Instant
deriving DecidableEq, Repr

def CreateUserPayload.row (payload : CreateUserPayload) (id : Uuid) (createdAt updatedAt : Instant) : UserRow :=
  { payload.user id with createdAt, updatedAt }

def UserRow.update (r : UserRow) (payload : UpdateUserPayload) (now : Instant) : UserRow :=
  { r.toUser.update payload with createdAt := r.createdAt, updatedAt := now }

theorem map_replace (rows : List UserRow) (userId : Uuid) (row : UserRow) :
    (rows.map fun r => if r.id = userId then row else r).map UserRow.toUser =
      (rows.map UserRow.toUser).map fun u => if u.id = userId then row.toUser else u := by
  rw [List.map_map, List.map_map]
  exact List.map_congr_left fun r _ => apply_ite UserRow.toUser _ _ _

theorem map_remove (rows : List UserRow) (userId : Uuid) :
    (rows.filter fun r => r.id ≠ userId).map UserRow.toUser =
      (rows.map UserRow.toUser).filter fun u => u.id ≠ userId := by
  rw [List.filter_map]
  rfl

/-- No text of the payload holds U+0000. -/
def CreateUserPayload.plain (payload : CreateUserPayload) : Bool :=
  ! hasNul payload.username && ! hasNul payload.email && ! hasNul payload.password

def UpdateUserPayload.plain (payload : UpdateUserPayload) : Bool :=
  payload.username.all (! hasNul ·) && payload.email.all (! hasNul ·) && payload.password.all (! hasNul ·)

/-! ## Calls -/

/-- `trait UserRepo`, with the id that `create_user` draws and the readings of the clock. -/
structure UserRepo (σ : Type) where
  createUser (s : σ) (id : Uuid) (now now' : Instant) (payload : CreateUserPayload) :
    Except RepoError UserRow × σ
  getUserById (s : σ) (userId : Uuid) : Except RepoError (Option UserRow)
  getUserByEmail (s : σ) (email : String) : Except RepoError (Option UserRow)
  updateUser (s : σ) (now : Instant) (userId : Uuid) (payload : UpdateUserPayload) :
    Except RepoError UserRow × σ
  deleteUser (s : σ) (userId : Uuid) : σ

inductive UserCall
  | createUser (id : Uuid) (now now' : Instant) (payload : CreateUserPayload)
  | getUserById (userId : Uuid)
  | getUserByEmail (email : String)
  | updateUser (now : Instant) (userId : Uuid) (payload : UpdateUserPayload)
  | deleteUser (userId : Uuid)

inductive UserResult (α : Type)
  | written (result : Except RepoError α)
  | found (result : Except RepoError (Option α))
  | deleted

namespace UserRepo

variable {σ : Type}

def call (repo : UserRepo σ) (s : σ) : UserCall → UserResult UserRow × σ
  | .createUser id now now' payload =>
    (.written (repo.createUser s id now now' payload).1, (repo.createUser s id now now' payload).2)
  | .getUserById userId => (.found (repo.getUserById s userId), s)
  | .getUserByEmail email => (.found (repo.getUserByEmail s email), s)
  | .updateUser now userId payload =>
    (.written (repo.updateUser s now userId payload).1, (repo.updateUser s now userId payload).2)
  | .deleteUser userId => (.deleted, repo.deleteUser s userId)

end UserRepo

/-! ## The table -/

/-- `users`, with the times. -/
structure UserTable where
  rows : List UserRow
  id_nodup : ((rows.map UserRow.toUser).map User.id).Nodup
  email_nodup : ((rows.map UserRow.toUser).map User.email).Nodup

namespace UserTable

def empty : UserTable where
  rows := []
  id_nodup := List.nodup_nil
  email_nodup := List.nodup_nil

/-- The table without the times. -/
def users (t : UserTable) : Users where
  rows := t.rows.map UserRow.toUser
  id_nodup := t.id_nodup
  email_nodup := t.email_nodup

theorem map_insert (t : UserTable) (row : UserRow) :
    (t.rows ++ [row]).map UserRow.toUser = t.users.rows ++ [row.toUser] :=
  List.map_append

def insert (t : UserTable) (row : UserRow) (hid : ∀ r ∈ t.rows, r.id ≠ row.id)
    (hemail : ∀ r ∈ t.rows, r.email ≠ row.email) : UserTable where
  rows := t.rows ++ [row]
  id_nodup := by
    rw [map_insert]
    exact (t.users.insert row.toUser (List.forall_mem_map.mpr hid) (List.forall_mem_map.mpr hemail)).id_nodup
  email_nodup := by
    rw [map_insert]
    exact
      (t.users.insert row.toUser (List.forall_mem_map.mpr hid) (List.forall_mem_map.mpr hemail)).email_nodup

def replace (t : UserTable) (row : UserRow)
    (hemail : ∀ r ∈ t.rows, r.id ≠ row.id → r.email ≠ row.email) : UserTable where
  rows := t.rows.map fun r => if r.id = row.id then row else r
  id_nodup := by
    rw [map_replace]
    exact (t.users.replace row.toUser (List.forall_mem_map.mpr hemail)).id_nodup
  email_nodup := by
    rw [map_replace]
    exact (t.users.replace row.toUser (List.forall_mem_map.mpr hemail)).email_nodup

def remove (t : UserTable) (userId : Uuid) : UserTable where
  rows := t.rows.filter fun r => r.id ≠ userId
  id_nodup := by
    rw [map_remove]
    exact (t.users.remove userId).id_nodup
  email_nodup := by
    rw [map_remove]
    exact (t.users.remove userId).email_nodup

end UserTable

namespace PgUserRepo

/-- A text with U+0000 is refused before the statement runs, and an email whose index entry does not fit on a
third of a page by the index: those that do are `indexed`. -/
def createUser (indexed : String → Bool) (t : UserTable) (id : Uuid) (now : Instant)
    (payload : CreateUserPayload) : Except RepoError UserRow × UserTable :=
  let row := payload.row id (pgNow now) (pgNow now)
  if ! payload.plain then (.error .Database, t)
  else if h : (∀ r ∈ t.rows, r.id ≠ row.id) ∧ ∀ r ∈ t.rows, r.email ≠ row.email then
    if indexed row.email then (.ok row, t.insert row h.1 h.2) else (.error .Database, t)
  else (.error .UniqueViolation, t)

def getUserById (t : UserTable) (userId : Uuid) : Option UserRow :=
  t.rows.find? fun r => r.id = userId

def getUserByEmail (t : UserTable) (email : String) : Except RepoError (Option UserRow) :=
  if hasNul email then .error .Database else .ok (t.rows.find? fun r => r.email = email)

def updateUser (indexed : String → Bool) (t : UserTable) (now : Instant) (userId : Uuid)
    (payload : UpdateUserPayload) : Except RepoError UserRow × UserTable :=
  if ! payload.plain then (.error .Database, t)
  else
    match getUserById t userId with
    | none => (.error .RowNotFound, t)
    | some r =>
      let row := r.update payload (pgNow now)
      if h : ∀ r ∈ t.rows, r.id ≠ row.id → r.email ≠ row.email then
        if indexed row.email then (.ok row, t.replace row h) else (.error .Database, t)
      else (.error .UniqueViolation, t)

def repo (indexed : String → Bool) : UserRepo UserTable where
  createUser t id now _ payload := createUser indexed t id now payload
  getUserById t userId := .ok (getUserById t userId)
  getUserByEmail := getUserByEmail
  updateUser := updateUser indexed
  deleteUser := UserTable.remove

/-- An `INSERT` fails and changes nothing, or there is one more row. -/
theorem createUser_cases (indexed : String → Bool) (t : UserTable) (id : Uuid) (now : Instant)
    (payload : CreateUserPayload) :
    (∃ e, e ≠ .RowNotFound ∧ createUser indexed t id now payload = (.error e, t)) ∨
      ∃ t', createUser indexed t id now payload = (.ok (payload.row id (pgNow now) (pgNow now)), t') ∧
        (∀ r ∈ t.rows, r.id ≠ id) ∧ t'.rows = t.rows ++ [payload.row id (pgNow now) (pgNow now)] := by
  simp only [createUser]
  split
  · exact .inl ⟨.Database, by decide, rfl⟩
  · split
    · rename_i hfree
      split
      · exact .inr ⟨_, rfl, hfree.1, rfl⟩
      · exact .inl ⟨.Database, by decide, rfl⟩
    · exact .inl ⟨.UniqueViolation, by decide, rfl⟩

/-- An `UPDATE` fails, finds no row, or replaces the one that it finds. -/
theorem updateUser_cases (indexed : String → Bool) (t : UserTable) (now : Instant) (userId : Uuid)
    (payload : UpdateUserPayload) :
    (∃ e, e ≠ .RowNotFound ∧ updateUser indexed t now userId payload = (.error e, t)) ∨
      (getUserById t userId = none ∧ updateUser indexed t now userId payload = (.error .RowNotFound, t)) ∨
      ∃ r t', getUserById t userId = some r ∧
        updateUser indexed t now userId payload = (.ok (r.update payload (pgNow now)), t') ∧
        t'.rows = t.rows.map fun u => if u.id = userId then r.update payload (pgNow now) else u := by
  simp only [updateUser]
  split
  · exact .inl ⟨.Database, by decide, rfl⟩
  · split
    · rename_i hnone
      exact .inr (.inl ⟨hnone, rfl⟩)
    · rename_i r hsome
      have hid : r.id = userId := by simpa using List.find?_some hsome
      split
      · split
        · subst hid
          exact .inr (.inr ⟨r, _, hsome, rfl, rfl⟩)
        · exact .inl ⟨.Database, by decide, rfl⟩
      · exact .inl ⟨.UniqueViolation, by decide, rfl⟩

/-! ### Without the times -/

variable {indexed : String → Bool} {t : UserTable} {now : Instant}

/-- A statement that fails changes nothing. -/
def settle (users : Users) : Except RepoError (User × Users) → Except RepoError User × Users
  | .ok (user, users') => (.ok user, users')
  | .error e => (.error e, users)

/-- **Without its times the table is `Users`**, unless it refuses a text. -/
theorem createUser_users {id : Uuid} {payload : CreateUserPayload}
    (h : (createUser indexed t id now payload).1 ≠ .error .Database) :
    ((createUser indexed t id now payload).1.map UserRow.toUser,
        (createUser indexed t id now payload).2.users) =
      settle t.users (t.users.createUser id payload) := by
  have hkeys : ((∀ r ∈ t.users.rows, r.id ≠ id) ∧ ∀ r ∈ t.users.rows, r.email ≠ payload.email) ↔
      (∀ r ∈ t.rows, r.id ≠ id) ∧ ∀ r ∈ t.rows, r.email ≠ payload.email :=
    and_congr List.forall_mem_map List.forall_mem_map
  simp only [createUser] at h ⊢
  split at h
  · exact absurd rfl h
  split at h
  · rename_i hplain hfree
    split at h
    · rename_i hindexed
      rw [if_neg hplain, dif_pos hfree, if_pos hindexed, Users.createUser, dif_pos (hkeys.mpr hfree)]
      refine Prod.ext rfl (Users.ext ?_)
      exact UserTable.map_insert t _
    · exact absurd rfl h
  · rename_i hplain htaken
    rw [if_neg hplain, dif_neg htaken, Users.createUser, dif_neg (mt hkeys.mp htaken)]
    rfl

theorem updateUser_users {userId : Uuid} {payload : UpdateUserPayload}
    (h : (updateUser indexed t now userId payload).1 ≠ .error .Database) :
    ((updateUser indexed t now userId payload).1.map UserRow.toUser,
        (updateUser indexed t now userId payload).2.users) =
      settle t.users (t.users.updateUser userId payload) := by
  have hfind : (t.users.rows.find? fun u => u.id = userId) = (getUserById t userId).map UserRow.toUser :=
    List.find?_map
  simp only [updateUser] at h ⊢
  split at h
  · exact absurd rfl h
  rename_i hplain
  rw [if_neg hplain, Users.updateUser, hfind]
  split at h
  · rename_i hnone
    simp only [hnone]
    rfl
  · rename_i r hsome
    simp only [hsome]
    have hkeys : (∀ u ∈ t.users.rows, u.id ≠ r.id → u.email ≠ (r.toUser.update payload).email) ↔
        ∀ u ∈ t.rows, u.id ≠ r.id → u.email ≠ (r.toUser.update payload).email := List.forall_mem_map
    split at h
    · rename_i hfree
      split at h
      · rename_i hindexed
        rw [dif_pos hfree, if_pos hindexed, Option.map_some]
        simp only [dif_pos (hkeys.mpr hfree)]
        refine Prod.ext rfl (Users.ext ?_)
        exact map_replace t.rows _ _
      · exact absurd rfl h
    · rename_i htaken
      rw [dif_neg htaken, Option.map_some]
      simp only [dif_neg (mt hkeys.mp htaken)]
      rfl

theorem getUserByEmail_users {email : String} (hplain : hasNul email = false) :
    (getUserByEmail t email).map (Option.map UserRow.toUser) = .ok (t.users.getUserByEmail email) := by
  rw [getUserByEmail, hplain, Users.getUserByEmail, UserTable.users, List.find?_map]
  rfl

theorem remove_users (userId : Uuid) : (t.remove userId).users = t.users.deleteUser userId :=
  Users.ext (map_remove t.rows userId)

end PgUserRepo

/-! ## The table and its replica -/

/-- The calls that `SplitUserRepo` makes on its replica. -/
def UserCall.reads : UserCall → Bool
  | .getUserById _ | .getUserByEmail _ => true
  | .createUser _ _ _ _ | .updateUser _ _ _ | .deleteUser _ => false

namespace SplitUserRepo

variable {σ τ : Type} {indexed : String → Bool}

def repo (primary : UserRepo σ) (replica : UserRepo τ) : UserRepo (σ × τ) where
  createUser s id now now' payload :=
    let (result, s₁) := primary.createUser s.1 id now now' payload
    (result, s₁, s.2)
  getUserById s := replica.getUserById s.2
  getUserByEmail s := replica.getUserByEmail s.2
  updateUser s now userId payload :=
    let (result, s₁) := primary.updateUser s.1 now userId payload
    (result, s₁, s.2)
  deleteUser s userId := (primary.deleteUser s.1 userId, s.2)

theorem routes (pg : UserRepo σ) : Replica.Routes (repo pg pg).call UserCall.reads pg.call where
  read {t r c} h := by
    cases c with
    | getUserById userId => rfl
    | getUserByEmail email => rfl
    | createUser id now now' payload => cases h
    | updateUser now userId payload => cases h
    | deleteUser userId => cases h
  write {t r c} h := by
    cases c with
    | getUserById userId => exact absurd rfl h
    | getUserByEmail email => exact absurd rfl h
    | createUser id now now' payload => rfl
    | updateUser now userId payload => rfl
    | deleteUser userId => rfl
  frame {s c} h := by
    cases c with
    | getUserById userId => rfl
    | getUserByEmail email => rfl
    | createUser id now now' payload => cases h
    | updateUser now userId payload => cases h
    | deleteUser userId => cases h

/-- The primary and its replica, with calls to the one in front. -/
abbrev step (indexed : String → Bool) : Replica.Pair UserTable UserCall (UserResult UserRow) →
    Replica.PairEvent UserCall → Option (Replica.Pair UserTable UserCall (UserResult UserRow)) :=
  Replica.Pair.step (repo (PgUserRepo.repo indexed) (PgUserRepo.repo indexed)).call UserCall.reads

/-- **Late, but from one table.** In every run all answers are those of a single table, with the writes in
their order, the reads in theirs, and each read behind the writes that the replica had replayed. -/
theorem exists_serial_of_split {t : UserTable} {es : List (Replica.PairEvent UserCall)}
    {p : Replica.Pair UserTable UserCall (UserResult UserRow)} (h : Run (step indexed) Any (.start t) es p) :
    ∃ serial, Replica.Serial UserCall.reads (PgUserRepo.repo indexed).call t p.primary p.served serial :=
  Replica.exists_serial (routes (PgUserRepo.repo indexed)) h

/-- A user is created, missed, found once the replica has caught up, and found still when it is deleted. -/
theorem exists_serial_of_split_of_lag : ∃ p, Run (step isShort) Any (.start UserTable.empty)
    [.call (.createUser 7 0 1 { username := "alice", email := "a@example.com", password := "x" }),
      .call (.getUserById 7), .replay, .call (.getUserById 7), .call (.deleteUser 7),
      .call (.getUserByEmail "a@example.com")] p ∧
    ∃ serial, Replica.Serial UserCall.reads (PgUserRepo.repo isShort).call UserTable.empty p.primary p.served
      serial := by
  obtain ⟨p, hrun, -⟩ := exists_run_of_exec (step isShort) Any (.start UserTable.empty)
    [.call (.createUser 7 0 1 { username := "alice", email := "a@example.com", password := "x" }),
      .call (.getUserById 7), .replay, .call (.getUserById 7), .call (.deleteUser 7),
      .call (.getUserByEmail "a@example.com")] (fun _ => true) rfl
  exact ⟨p, hrun, exists_serial_of_split hrun⟩

end SplitUserRepo

/-! ## The mock -/

namespace MockUserRepo

/-- `HashMap::insert`; the map is its values. -/
def insert (users : List UserRow) (user : UserRow) : List UserRow :=
  if users.any fun u => u.id = user.id then users.map fun u => if u.id = user.id then user else u
  else users ++ [user]

/-- It reads the clock twice. -/
def createUser (users : List UserRow) (id : Uuid) (now now' : Instant) (payload : CreateUserPayload) :
    Except RepoError UserRow × List UserRow :=
  (.ok (payload.row id now now'), insert users (payload.row id now now'))

def getUserById (users : List UserRow) (userId : Uuid) : Option UserRow :=
  users.find? fun u => u.id = userId

/-- `order` is the order in which the map iterates. -/
def getUserByEmail (order : List UserRow → List UserRow) (users : List UserRow) (email : String) :
    Option UserRow :=
  (order users).find? fun u => u.email = email

def updateUser (users : List UserRow) (now : Instant) (userId : Uuid) (payload : UpdateUserPayload) :
    Except RepoError UserRow × List UserRow :=
  match getUserById users userId with
  | some user =>
    (.ok (user.update payload now), users.map fun u => if u.id = userId then user.update payload now else u)
  | none => (.error .RowNotFound, users)

def deleteUser (users : List UserRow) (userId : Uuid) : List UserRow :=
  users.filter fun u => u.id ≠ userId

def repo (order : List UserRow → List UserRow) : UserRepo (List UserRow) where
  createUser := createUser
  getUserById users userId := .ok (getUserById users userId)
  getUserByEmail users email := .ok (getUserByEmail order users email)
  updateUser := updateUser
  deleteUser := deleteUser

end MockUserRepo

/-! ## The mock simulates the table -/

/-- An error that the map does not know: an id or an email is taken, or a text is refused. -/
def UserResult.failed {α : Type} : UserResult α → Bool
  | .written (.error e) => e ≠ .RowNotFound
  | .found (.error _) => true
  | _ => false

/-- A result up to the times. -/
def UserResult.timeless : UserResult UserRow → UserResult User
  | .written result => .written (result.map UserRow.toUser)
  | .found result => .found (result.map (Option.map UserRow.toUser))
  | .deleted => .deleted

@[simp] theorem UserResult.failed_timeless (result : UserResult UserRow) :
    result.timeless.failed = result.failed := by
  rcases result with (_ | _) | (_ | _) | _ <;> rfl

namespace MockUserRepo

variable {indexed : String → Bool} {order : List UserRow → List UserRow} {users : List UserRow}
  {t : UserTable}

/-- A search for what at most one row has finds the same in every order, up to the times. -/
theorem find?_eq_of_perm (h : (users.map UserRow.toUser).Perm t.users.rows) {p : User → Bool}
    (hp : ∀ u ∈ t.users.rows, ∀ v ∈ t.users.rows, p u = true → p v = true → u = v) :
    (users.find? fun u => p u.toUser).map UserRow.toUser =
      (t.rows.find? fun r => p r.toUser).map UserRow.toUser := by
  have hfind : (users.map UserRow.toUser).find? p = t.users.rows.find? p :=
    List.find?_eq_find?_of_perm h fun u hu v hv =>
      hp u (h.subset hu.1) v (h.subset hv.1) hu.2 hv.2
  rw [List.find?_map, UserTable.users, List.find?_map] at hfind
  exact hfind

theorem getUserById_eq (h : (users.map UserRow.toUser).Perm t.users.rows) (userId : Uuid) :
    (getUserById users userId).map UserRow.toUser =
      (PgUserRepo.getUserById t userId).map UserRow.toUser := by
  refine find?_eq_of_perm (p := fun u => u.id = userId) h fun u hu v hv hid hid' => ?_
  exact Users.eq_of_id hu hv ((of_decide_eq_true hid).trans (of_decide_eq_true hid').symm)

theorem getUserByEmail_eq (horder : ∀ users, (order users).Perm users)
    (h : (users.map UserRow.toUser).Perm t.users.rows) (email : String) :
    (getUserByEmail order users email).map UserRow.toUser =
      (t.rows.find? fun r => r.email = email).map UserRow.toUser := by
  refine find?_eq_of_perm (p := fun u => u.email = email) (((horder users).map _).trans h)
    fun u hu v hv hemail hemail' => ?_
  exact Users.eq_of_email hu hv ((of_decide_eq_true hemail).trans (of_decide_eq_true hemail').symm)

/-- Nothing is taken or refused in the map. -/
theorem failed_call (c : UserCall) : ((repo order).call users c).1.failed = false := by
  cases c with
  | createUser id now now' payload => rfl
  | getUserById userId => rfl
  | getUserByEmail email => rfl
  | deleteUser userId => rfl
  | updateUser now userId payload =>
    simp only [UserRepo.call, repo, updateUser]
    split
    · rfl
    · rfl

/-- A new user, unless the table fails. -/
theorem createUser_agrees (h : (users.map UserRow.toUser).Perm t.users.rows) {id : Uuid} {now now' : Instant}
    {payload : CreateUserPayload}
    (hfree : (UserResult.written (PgUserRepo.createUser indexed t id now payload).1).failed = false) :
    (createUser users id now now' payload).1.map UserRow.toUser =
        (PgUserRepo.createUser indexed t id now payload).1.map UserRow.toUser ∧
      ((createUser users id now now' payload).2.map UserRow.toUser).Perm
        (PgUserRepo.createUser indexed t id now payload).2.users.rows := by
  rcases PgUserRepo.createUser_cases indexed t id now payload with
    ⟨e, he, hcreate⟩ | ⟨t', hcreate, hid, hrows⟩
  · rw [hcreate] at hfree
    simp [UserResult.failed, he] at hfree
  · rw [hcreate]
    refine ⟨rfl, ?_⟩
    -- the id is new to the map as well
    have hnew : ¬(users.any fun u => u.id = (payload.row id now now').id) = true := by
      intro hany
      obtain ⟨u, hu, heq⟩ := List.any_eq_true.mp hany
      obtain ⟨r, hr, hru⟩ := List.mem_map.mp (h.subset (List.mem_map_of_mem hu))
      refine hid r hr ?_
      rw [congrArg User.id hru]
      exact of_decide_eq_true heq
    simp only [createUser, insert, if_neg hnew, UserTable.users, hrows, List.map_append]
    exact h.append_right _

/-- A change to a user, unless the table fails. -/
theorem updateUser_agrees (h : (users.map UserRow.toUser).Perm t.users.rows) {now : Instant} {userId : Uuid}
    {payload : UpdateUserPayload}
    (hfree : (UserResult.written (PgUserRepo.updateUser indexed t now userId payload).1).failed = false) :
    (updateUser users now userId payload).1.map UserRow.toUser =
        (PgUserRepo.updateUser indexed t now userId payload).1.map UserRow.toUser ∧
      ((updateUser users now userId payload).2.map UserRow.toUser).Perm
        (PgUserRepo.updateUser indexed t now userId payload).2.users.rows := by
  have hfind := getUserById_eq h userId
  rcases PgUserRepo.updateUser_cases indexed t now userId payload with
    ⟨e, he, hupdate⟩ | ⟨hnone, hupdate⟩ | ⟨r, t', hsome, hupdate, hrows⟩
  · rw [hupdate] at hfree
    simp [UserResult.failed, he] at hfree
  · rw [hnone] at hfind
    simp only [hupdate, updateUser, Option.map_eq_none_iff.mp hfind]
    exact ⟨trivial, h⟩
  · rw [hsome] at hfind
    obtain ⟨user, huser, hsame⟩ := Option.map_eq_some_iff.mp hfind
    have hrow : (user.update payload now).toUser = (r.update payload (pgNow now)).toUser := by
      simp only [UserRow.update, hsame]
    simp only [hupdate, updateUser, huser]
    refine ⟨congrArg Except.ok hrow, ?_⟩
    simp only [UserTable.users, hrows, map_replace, hrow]
    exact h.map _

/-- **One call.** Unless the table fails, both answer the same and keep the same users, up to the times. -/
theorem call_eq (horder : ∀ users, (order users).Perm users)
    (h : (users.map UserRow.toUser).Perm t.users.rows) {c : UserCall}
    (hfree : ((PgUserRepo.repo indexed).call t c).1.failed = false) :
    ((repo order).call users c).1.timeless = ((PgUserRepo.repo indexed).call t c).1.timeless ∧
      (((repo order).call users c).2.map UserRow.toUser).Perm
        ((PgUserRepo.repo indexed).call t c).2.users.rows := by
  cases c with
  | getUserById userId => exact ⟨congrArg (fun r => UserResult.found (.ok r)) (getUserById_eq h userId), h⟩
  | getUserByEmail email =>
    simp only [UserRepo.call, PgUserRepo.repo, PgUserRepo.getUserByEmail] at hfree ⊢
    split at hfree
    · cases hfree
    · rename_i hplain
      rw [if_neg hplain]
      exact ⟨congrArg (fun r => UserResult.found (.ok r)) (getUserByEmail_eq horder h email), h⟩
  | deleteUser userId =>
    refine ⟨rfl, ?_⟩
    simp only [UserRepo.call, repo, PgUserRepo.repo, deleteUser, UserTable.users, UserTable.remove, map_remove]
    exact h.filter _
  | createUser id now now' payload =>
    obtain ⟨hresult, hperm⟩ := createUser_agrees h hfree
    exact ⟨congrArg UserResult.written hresult, hperm⟩
  | updateUser now userId payload =>
    obtain ⟨hresult, hperm⟩ := updateUser_agrees h hfree
    exact ⟨congrArg UserResult.written hresult, hperm⟩

/-- From here on. -/
theorem script_eq_iff (horder : ∀ users, (order users).Perm users)
    (h : (users.map UserRow.toUser).Perm t.users.rows) (calls : List UserCall) :
    (Replica.answers (repo order).call users calls).map UserResult.timeless =
        (Replica.answers (PgUserRepo.repo indexed).call t calls).map UserResult.timeless ↔
      ∀ result ∈ Replica.answers (PgUserRepo.repo indexed).call t calls, result.failed = false := by
  induction calls generalizing users t with
  | nil => exact iff_of_true rfl fun _ hr => absurd hr List.not_mem_nil
  | cons c calls ih =>
    simp only [Replica.answers, List.map_cons, List.cons.injEq, List.forall_mem_cons]
    by_cases hfree : ((PgUserRepo.repo indexed).call t c).1.failed = false
    · obtain ⟨hsame, hperm⟩ := call_eq horder h hfree
      rw [ih hperm, hsame]
      exact and_congr_left' (iff_of_true rfl hfree)
    · refine iff_of_false ?_ fun hall => hfree hall.1
      rintro ⟨hsame, -⟩
      have hfailed := congrArg UserResult.failed hsame
      rw [UserResult.failed_timeless, UserResult.failed_timeless, failed_call] at hfailed
      exact hfree hfailed.symm

/-- **A test cannot tell the mock from the table**, up to the times, exactly if no call makes the table fail. -/
theorem mock_agrees_iff (horder : ∀ users, (order users).Perm users) (calls : List UserCall) :
    (Replica.answers (repo order).call [] calls).map UserResult.timeless =
        (Replica.answers (PgUserRepo.repo indexed).call .empty calls).map UserResult.timeless ↔
      ∀ result ∈ Replica.answers (PgUserRepo.repo indexed).call .empty calls, result.failed = false :=
  script_eq_iff (t := .empty) horder (List.Perm.refl _) calls

/-- A user is created, renamed, read by either key and deleted; the map is read backwards. -/
def renameScript : List UserCall :=
  [.createUser 7 1500 1600 { username := "alice", email := "a@example.com", password := "x" },
    .updateUser 2500 7 { username := some "bob", email := none, password := none },
    .getUserByEmail "a@example.com", .getUserById 7, .deleteUser 7, .getUserById 7]

theorem mock_agrees_iff_of_rename :
    (Replica.answers (repo List.reverse).call [] renameScript).map UserResult.timeless =
      (Replica.answers (PgUserRepo.repo isShort).call .empty renameScript).map UserResult.timeless :=
  (mock_agrees_iff List.reverse_perm renameScript).mpr (by decide)

end MockUserRepo

end Bittuly.Auth
