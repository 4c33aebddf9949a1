import Bittuly.Basic

/-!
# The table of users

References: `services/auth-service/src/repository.rs` (`PgUserRepo`), `services/auth-service/src/models.rs`,
`docker/postgres-auth/init/01-init.sql`.

The primary key and the unique email are part of the type of the table. A statement that would break them
fails and changes nothing.
-/

namespace Bittuly.Auth

/-- A row of `users` without its times, which no statement decides on; `UserRow` has them. -/
structure User where
  id : Uuid
  username : String
  email : String
  password : String
deriving DecidableEq, Repr

/-- `users`. -/
@[ext]
structure Users where
  rows : List User
  id_nodup : (rows.map User.id).Nodup
  email_nodup : (rows.map User.email).Nodup

structure CreateUserPayload where
  username : String
  email : String
  password : String
deriving DecidableEq, Repr

structure UpdateUserPayload where
  username : Option String
  email : Option String
  password : Option String
deriving DecidableEq, Repr

/-- The errors of the statements: no row for `fetch_one`, code 23505, and any other of the database. -/
inductive RepoError
  | RowNotFound
  | UniqueViolation
  | Database
deriving DecidableEq, Repr

/-- The row of an `INSERT`. -/
def CreateUserPayload.user (payload : CreateUserPayload) (id : Uuid) : User where
  id := id
  username := payload.username
  email := payload.email
  password := payload.password

/-- The row after `COALESCE`. -/
def User.update (u : User) (payload : UpdateUserPayload) : User where
  id := u.id
  username := payload.username.getD u.username
  email := payload.email.getD u.email
  password := payload.password.getD u.password

namespace Users

def empty : Users where
  rows := []
  id_nodup := List.nodup_nil
  email_nodup := List.nodup_nil

theorem eq_of_id {t : Users} {u v : User} (hu : u ∈ t.rows) (hv : v ∈ t.rows) (h : u.id = v.id) :
    u = v :=
  List.inj_on_of_nodup_map t.id_nodup hu hv h

theorem eq_of_email {t : Users} {u v : User} (hu : u ∈ t.rows) (hv : v ∈ t.rows)
    (h : u.email = v.email) : u = v :=
  List.inj_on_of_nodup_map t.email_nodup hu hv h

/-! ## The statements -/

def getUserByEmail (t : Users) (email : String) : Option User :=
  t.rows.find? fun u => u.email = email

/-- A table with one more row. -/
def insert (t : Users) (u : User) (hid : ∀ r ∈ t.rows, r.id ≠ u.id)
    (hemail : ∀ r ∈ t.rows, r.email ≠ u.email) : Users where
  rows := t.rows ++ [u]
  id_nodup := by
    rw [List.map_append, List.nodup_append]
    refine ⟨t.id_nodup, List.nodup_singleton _, ?_⟩
    intro i hi j hj
    obtain ⟨r, hr, rfl⟩ := List.mem_map.mp hi
    rw [List.mem_singleton.mp hj]
    exact hid r hr
  email_nodup := by
    rw [List.map_append, List.nodup_append]
    refine ⟨t.email_nodup, List.nodup_singleton _, ?_⟩
    intro i hi j hj
    obtain ⟨r, hr, rfl⟩ := List.mem_map.mp hi
    rw [List.mem_singleton.mp hj]
    exact hemail r hr

/-- A table with the row of an id replaced. -/
def replace (t : Users) (u : User) (hemail : ∀ r ∈ t.rows, r.id ≠ u.id → r.email ≠ u.email) : Users where
  rows := t.rows.map fun r => if r.id = u.id then u else r
  id_nodup := by
    have hids : (t.rows.map fun r => if r.id = u.id then u else r).map User.id = t.rows.map User.id := by
      rw [List.map_map]
      apply List.map_congr_left
      intro r _
      by_cases h : r.id = u.id
      · simp [h]
      · simp [h]
    rw [hids]
    exact t.id_nodup
  email_nodup := by
    have hpair : t.rows.Pairwise fun a b => a.id ≠ b.id ∧ a.email ≠ b.email :=
      (List.pairwise_map.mp t.id_nodup).and (List.pairwise_map.mp t.email_nodup)
    rw [List.map_map]
    refine List.pairwise_map.mpr (hpair.imp_of_mem ?_)
    intro a b ha hb hne
    simp only [Function.comp_apply]
    split
    · rename_i hau
      split
      · rename_i hbu
        exact absurd (hau.trans hbu.symm) hne.1
      · rename_i hbu
        exact (hemail b hb hbu).symm
    · rename_i hau
      split
      · exact hemail a ha hau
      · exact hne.2

/-- The rows that `WHERE` does not take. -/
def remove (t : Users) (userId : Uuid) : Users where
  rows := t.rows.filter fun r => r.id ≠ userId
  id_nodup := (List.filter_sublist.map User.id).nodup t.id_nodup
  email_nodup := (List.filter_sublist.map User.email).nodup t.email_nodup

/-- `create_user`, with the id that `Uuid::new_v4` has drawn. -/
def createUser (t : Users) (id : Uuid) (payload : CreateUserPayload) : Except RepoError (User × Users) :=
  if h : (∀ r ∈ t.rows, r.id ≠ id) ∧ ∀ r ∈ t.rows, r.email ≠ payload.email then
    .ok (payload.user id, t.insert (payload.user id) h.1 h.2)
  else .error .UniqueViolation

def updateUser (t : Users) (userId : Uuid) (payload : UpdateUserPayload) :
    Except RepoError (User × Users) :=
  match t.rows.find? fun u => u.id = userId with
  | none => .error .RowNotFound
  | some row =>
    if h : ∀ r ∈ t.rows, r.id ≠ row.id → r.email ≠ (row.update payload).email then
      .ok (row.update payload, t.replace (row.update payload) h)
    else .error .UniqueViolation

/-- `delete_user`: no row is no error. -/
def deleteUser (t : Users) (userId : Uuid) : Users :=
  t.remove userId

/-! ## What they do -/

theorem getUserByEmail_eq_some_iff {t : Users} {email : String} {u : User} :
    t.getUserByEmail email = some u ↔ u ∈ t.rows ∧ u.email = email := by
  constructor
  · intro h
    exact ⟨List.mem_of_find?_eq_some h, by simpa using List.find?_some h⟩
  · rintro ⟨hu, rfl⟩
    cases hfind : t.getUserByEmail u.email with
    | none =>
      have hnone := List.find?_eq_none.mp hfind u hu
      simp at hnone
    | some v =>
      have hemail : v.email = u.email := by simpa using List.find?_some hfind
      rw [eq_of_email (List.mem_of_find?_eq_some hfind) hu hemail]

theorem createUser_eq_ok_iff {t t' : Users} {id : Uuid} {payload : CreateUserPayload} {u : User} :
    t.createUser id payload = .ok (u, t') ↔
      (∀ r ∈ t.rows, r.id ≠ id) ∧ (∀ r ∈ t.rows, r.email ≠ payload.email) ∧
        u = payload.user id ∧ t'.rows = t.rows ++ [u] := by
  unfold createUser
  constructor
  · intro h
    split at h
    · rename_i hfree
      obtain ⟨rfl, rfl⟩ := Prod.mk.inj (Except.ok.inj h)
      exact ⟨hfree.1, hfree.2, rfl, rfl⟩
    · cases h
  · rintro ⟨hid, hemail, rfl, hrows⟩
    rw [dif_pos ⟨hid, hemail⟩]
    congr 2
    exact Users.ext hrows.symm

theorem updateUser_eq_ok_iff {t t' : Users} {userId : Uuid} {payload : UpdateUserPayload} {u : User} :
    t.updateUser userId payload = .ok (u, t') ↔
      ∃ row ∈ t.rows, row.id = userId ∧ u = row.update payload ∧
        (∀ r ∈ t.rows, r.id ≠ userId → r.email ≠ u.email) ∧
        t'.rows = t.rows.map fun r => if r.id = userId then u else r := by
  unfold updateUser
  constructor
  · intro h
    split at h
    · cases h
    · rename_i row hfind
      have hid : row.id = userId := by simpa using List.find?_some hfind
      split at h
      · rename_i hfree
        obtain ⟨rfl, rfl⟩ := Prod.mk.inj (Except.ok.inj h)
        subst hid
        exact ⟨row, List.mem_of_find?_eq_some hfind, rfl, rfl, hfree, rfl⟩
      · cases h
  · rintro ⟨row, hrow, rfl, rfl, hfree, hrows⟩
    cases hfind : t.rows.find? fun u => u.id = row.id with
    | none =>
      have hnone := List.find?_eq_none.mp hfind row hrow
      simp at hnone
    | some v =>
      have hid : v.id = row.id := by simpa using List.find?_some hfind
      obtain rfl := eq_of_id (List.mem_of_find?_eq_some hfind) hrow hid
      simp only [dif_pos hfree]
      congr 2
      exact Users.ext hrows.symm

/-- The rows after an update. -/
theorem mem_rows_of_updateUser {t t' : Users} {userId : Uuid} {payload : UpdateUserPayload} {u : User}
    (h : t.updateUser userId payload = .ok (u, t')) (r : User) :
    r ∈ t'.rows ↔ r = u ∨ r ∈ t.rows ∧ r.id ≠ userId := by
  obtain ⟨row, hrow, hid, rfl, -, hrows⟩ := updateUser_eq_ok_iff.mp h
  rw [hrows, List.mem_map]
  constructor
  · rintro ⟨s, hs, rfl⟩
    by_cases hsid : s.id = userId
    · left
      rw [if_pos hsid]
    · right
      rw [if_neg hsid]
      exact ⟨hs, hsid⟩
  · rintro (rfl | ⟨hr, hrid⟩)
    · exact ⟨row, hrow, if_pos hid⟩
    · exact ⟨r, hr, if_neg hrid⟩

theorem mem_rows_deleteUser {t : Users} {userId : Uuid} (r : User) :
    r ∈ (t.deleteUser userId).rows ↔ r ∈ t.rows ∧ r.id ≠ userId := by
  simp [deleteUser, remove]

end Users

end Bittuly.Auth
