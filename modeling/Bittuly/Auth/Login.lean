import Bittuly.Auth.Accounts

/-!
# Logging in

References: `services/auth-service/src/services.rs` (`login`, `update_user`, `verify_otp`).

The hash in a row is that of the current password: `request_signup` hashes it once and `verify_otp` takes
the hash out of the token as it is.
-/

namespace Bittuly.Auth

open Runs (Run)

namespace Accounts

/-- The password given to the signup that handed out the token. -/
def signupPassword (token : String) : List Entry → Option String
  | [] => none
  | .signedUp payload _ t :: log => if t = token then some payload.password else signupPassword token log
  | .verified _ _ _ :: log => signupPassword token log
  | .updated _ _ :: log => signupPassword token log

/-- The password of the latest update that set one, or else of the signup that created the user. -/
def currentPassword (userId : Uuid) : List Entry → Option String
  | [] => none
  | .signedUp _ _ _ :: log => currentPassword userId log
  | .verified token _ id :: log =>
    if id = userId then signupPassword token log else currentPassword userId log
  | .updated id payload :: log =>
    if id = userId then payload.password <|> currentPassword userId log else currentPassword userId log

theorem signupPassword_of_mem {token : String} {log : List Entry} {payload : CreateUserPayload}
    {otp : String} (h : .signedUp payload otp token ∈ log) :
    ∃ payload' otp', .signedUp payload' otp' token ∈ log ∧
      signupPassword token log = some payload'.password := by
  induction log with
  | nil => cases h
  | cons e log ih =>
    cases e with
    | signedUp p o t =>
      by_cases ht : t = token
      · subst ht
        exact ⟨p, o, List.mem_cons_self, if_pos rfl⟩
      · have hmem : .signedUp payload otp token ∈ log := by
          rcases List.mem_cons.mp h with h | h
          · exact absurd (Entry.signedUp.inj h).2.2.symm ht
          · exact h
        obtain ⟨payload', otp', hmem', hpassword⟩ := ih hmem
        refine ⟨payload', otp', List.mem_cons_of_mem _ hmem', ?_⟩
        rw [signupPassword, if_neg ht, hpassword]
    | verified t o id =>
      obtain ⟨payload', otp', hmem', hpassword⟩ := ih (by simpa using h)
      exact ⟨payload', otp', List.mem_cons_of_mem _ hmem', hpassword⟩
    | updated id p =>
      obtain ⟨payload', otp', hmem', hpassword⟩ := ih (by simpa using h)
      exact ⟨payload', otp', List.mem_cons_of_mem _ hmem', hpassword⟩

variable {lib : JsonWebToken} {hasher : PasswordHasher} {validateEmail : String → Bool} {env : Env}
  {secret : String}

variable (hasher) in
/-- Each row has the hash of its user's current password. -/
def Passwords (s : Accounts) : Prop :=
  ∀ u ∈ s.users.rows, ∃ password salt, currentPassword u.id s.log = some password ∧
    hasher.hash salt password = some u.password

theorem passwords_step {s s' : Accounts} {a : Call hasher.Salt}
    (h : Change lib validateEmail secret s a s') (hsignups : s.Signups lib hasher secret)
    (hs : s.Passwords hasher) : s'.Passwords hasher := by
  intro r hr
  cases h with
  | quiet hnow => exact hs r hr
  | signedUp hvalid hfree hpassword hotp => exact hs r hr
  | @verified m c otp id u users hvalid hm hbody hlive hverify hcreate =>
    obtain ⟨hid, -, rfl, hrows⟩ := Users.createUser_eq_ok_iff.mp hcreate
    rw [hrows] at hr
    rcases List.mem_append.mp hr with hold | hnew
    · -- another user: its entries are older
      rw [currentPassword, if_neg (Ne.symm (hid r hold))]
      exact hs r hold
    · -- the new user: the hash comes from the token
      obtain rfl := List.mem_singleton.mp hnew
      obtain ⟨payload, otp', hmem⟩ := exists_signedUp hm hbody
      obtain ⟨payload', otp'', hmem', hpassword⟩ := signupPassword_of_mem hmem
      obtain ⟨salt, -, -, -, hhash, -⟩ := claims_of_signedUp hsignups hbody hmem'
      refine ⟨payload'.password, salt, ?_, hhash⟩
      rw [currentPassword]
      exact (if_pos rfl).trans hpassword
  | @updated userId payload hashed salt u users hvalid hhash hupdate =>
    obtain ⟨row, hrow, hid, rfl, -, -⟩ := Users.updateUser_eq_ok_iff.mp hupdate
    rcases (Users.mem_rows_of_updateUser hupdate r).mp hr with rfl | ⟨hold, hne⟩
    · rw [currentPassword, if_pos (show userId = (row.update hashed).id from hid.symm)]
      obtain ⟨-, -, ⟨hnone, hnone'⟩ | ⟨plain, hash, hplain, hhash', hsome⟩⟩ :=
        Services.hashPassword_eq_some_iff.mp hhash
      · -- no new password
        obtain ⟨password, salt', hcurrent, hpassword⟩ := hs row hrow
        refine ⟨password, salt', ?_, ?_⟩
        · rw [hnone]
          exact hcurrent
        · rw [User.update, hnone']
          exact hpassword
      · refine ⟨plain, salt, ?_, ?_⟩
        · rw [hplain]
          rfl
        · rw [User.update, hsome]
          exact hhash'
    · rw [currentPassword, if_neg (Ne.symm hne)]
      exact hs r hold
  | deleted userId => exact hs r ((Users.mem_rows_deleteUser r).mp hr).1

theorem passwords_of_run (hsecret : env.jwtSecret = some secret) {now : ℕ}
    {calls : List (Call hasher.Salt)} {s : Accounts}
    (hrun : Run (step lib hasher validateEmail env) (Unforged lib hasher secret) (start now) calls s) :
    s.Signups lib hasher secret ∧ s.Passwords hasher := by
  refine hrun.induct (I := fun s => s.Signups lib hasher secret ∧ s.Passwords hasher) ?_ ?_
  · rintro s a s' ⟨hsignups, hpasswords⟩ hunforged hstep
    have hchange := change_of_step hsecret hunforged hstep
    exact ⟨signups_step hchange hsignups, passwords_step hchange hsignups hpasswords⟩
  · constructor
    · intro payload otp token hmem
      cases hmem
    · intro u hu
      cases hu

/-- **Login succeeds exactly with the current password.** -/
theorem login_ok_iff (hsecret : env.jwtSecret = some secret) {now : ℕ}
    {calls : List (Call hasher.Salt)} {s : Accounts}
    (hrun : Run (step lib hasher validateEmail env) (Unforged lib hasher secret) (start now) calls s)
    (email password : String) (userId : Uuid) :
    (∃ r, Services.login lib hasher (s.surroundings env) s.users email password = .ok r ∧
        r.user.id = userId) ↔
      (∃ u ∈ s.users.rows, u.id = userId ∧ u.email = email) ∧
        currentPassword userId s.log = some password := by
  have hpasswords := (passwords_of_run hsecret hrun).2
  have hsecret' : (s.surroundings env).jwtSecret = some secret := hsecret
  rw [Services.login_eq_ok_iff hsecret']
  constructor
  · rintro ⟨u, hu, rfl, hemail, hverify⟩
    obtain ⟨current, salt, hcurrent, hhash⟩ := hpasswords u hu
    rw [hasher.verify_hash hhash] at hverify
    have heq : password = current := by simpa using hverify
    exact ⟨⟨u, hu, rfl, hemail⟩, by rw [heq, hcurrent]⟩
  · rintro ⟨⟨u, hu, rfl, hemail⟩, hcurrent⟩
    obtain ⟨current, salt, hcurrent', hhash⟩ := hpasswords u hu
    obtain rfl : current = password := Option.some.inj (hcurrent'.symm.trans hcurrent)
    refine ⟨u, hu, rfl, hemail, ?_⟩
    rw [hasher.verify_hash hhash, decide_eq_true rfl]

/-- Alice signs up, sets another password and logs in with it. -/
theorem login_ok_iff_of_update : ∃ calls s,
    Run (step plainToken plainTextHasher containsAt plainEnv) (Unforged plainToken plainTextHasher "k")
        (start 0) calls s ∧
      ∃ r, Services.login plainToken plainTextHasher (s.surroundings plainEnv) s.users
        "alice@example.com" "changed" = .ok r ∧ r.user.id = 7 := by
  let payload : UpdateUserPayload := { username := none, email := none, password := some "changed" }
  let u : User := { id := 7, username := "alice", email := "alice@example.com", password := "changed" }
  let users : Users :=
    { rows := [u], id_nodup := List.nodup_singleton _, email_nodup := List.nodup_singleton _ }
  have hupdate : registered.users.updateUser 7 payload = .ok (u, users) :=
    Users.updateUser_eq_ok_iff.mpr ⟨alice.user 7, List.mem_singleton_self _, rfl, rfl,
      by simp [registered, CreateUserPayload.user], rfl⟩
  have hsecret : plainEnv.jwtSecret = some "k" := rfl
  have hstep : step plainToken plainTextHasher containsAt plainEnv registered
      (.updateUser 7 payload ()) = _ := step_updated hsecret (by decide) rfl hupdate
  have hlast : Run (step plainToken plainTextHasher containsAt plainEnv)
      (Unforged plainToken plainTextHasher "k") registered [.updateUser 7 payload ()] _ :=
    .single trivial hstep
  have hrun := run_registered.append hlast
  exact ⟨_, _, hrun, (login_ok_iff hsecret hrun _ _ _).mpr
    ⟨⟨u, List.mem_singleton_self _, rfl, rfl⟩, rfl⟩⟩

end Accounts

end Bittuly.Auth
