import Bittuly.Auth.Token
import Bittuly.Auth.Users

/-!
# The service functions of auth-service

References: `services/auth-service/src/services.rs`, `services/auth-service/src/password_hasher.rs`,
`services/auth-service/src/models.rs`.

Random choices and the outcome of the mail server are arguments. The functions that write return the
table besides their result.
-/

namespace Bittuly.Auth

/-- A hasher; `none` is an `Err`. It verifies a text against the hash of a text. -/
structure PasswordHasher where
  Salt : Type
  hash : Salt → String → Option String
  verify : String → String → Option Bool
  verify_hash : ∀ {salt y h}, hash salt y = some h → ∀ x, verify x h = some (decide (x = y))

/-- `PlainTextHasher`. -/
def plainTextHasher : PasswordHasher where
  Salt := Unit
  hash _ plain := some plain
  verify plain hash := some (plain = hash)
  verify_hash := by
    rintro salt y h hhash x
    rw [Option.some.inj hhash]

inductive ServiceError
  | emailAlreadyRegistered
  | invalidOtp
  | invalidCredentials
  | jwtSecret
  | hasher
  | email
  | pending (e : PendingError)
  | repo (e : RepoError)
deriving DecidableEq, Repr

structure AuthUserResponse where
  user : User
  token : String
  refreshToken : String
deriving DecidableEq, Repr

/-- What `request_signup` draws, and whether `send_otp_email` succeeds. -/
structure SignupDraw (Salt : Type) where
  salt : Salt
  otpSalt : Salt
  code : Fin 900000
  sent : Bool

/-- `random_range(100_000..=999_999).to_string()`. -/
def SignupDraw.otp {Salt : Type} (draw : SignupDraw Salt) : String :=
  toString (100000 + draw.code.val)

/-! ## Validation -/

section Validate

variable (validateEmail : String → Bool)

def CreateUserPayload.validate (payload : CreateUserPayload) : Bool :=
  3 ≤ payload.username.length && payload.username.length ≤ 50 && validateEmail payload.email &&
    6 ≤ payload.password.length

def UpdateUserPayload.validate (payload : UpdateUserPayload) : Bool :=
  payload.username.all (fun s => 3 ≤ s.length && s.length ≤ 50) && payload.email.all validateEmail &&
    payload.password.all fun s => 6 ≤ s.length

/-- The check of `VerifyOtpPayload`. -/
def validateOtp (otp : String) : Bool :=
  otp.length = 6

end Validate

/-! ## The functions -/

namespace Services

variable (lib : JsonWebToken) (hasher : PasswordHasher)

/-- The end of the three functions that answer with a user. -/
def authUserResponse (env : Env) (user : User) : Except ServiceError AuthUserResponse :=
  match createAccessToken lib env user.id, createRefreshToken lib env user.id with
  | some token, some refreshToken => .ok { user, token, refreshToken }
  | _, _ => .error .jwtSecret

/-- The mail is sent before the token is created. -/
def requestSignup (env : Env) (replica : Users) (payload : CreateUserPayload)
    (draw : SignupDraw hasher.Salt) : Except ServiceError String :=
  match replica.getUserByEmail payload.email with
  | some _ => .error .emailAlreadyRegistered
  | none =>
    match hasher.hash draw.salt payload.password, hasher.hash draw.otpSalt draw.otp with
    | some password, some otpHash =>
      if draw.sent then
        match createPendingToken lib env payload.email payload.username password otpHash with
        | some pendingToken => .ok pendingToken
        | none => .error .jwtSecret
      else .error .email
    | _, _ => .error .hasher

/-- `id` is the draw of `Uuid::new_v4` in `create_user`. -/
def verifyOtp (env : Env) (users : Users) (pendingToken otp : String) (id : Uuid) :
    Except ServiceError AuthUserResponse × Users :=
  match decodePendingToken lib env pendingToken with
  | .error e => (.error (.pending e), users)
  | .ok claims =>
    match hasher.verify otp claims.otpHash with
    | none => (.error .hasher, users)
    | some false => (.error .invalidOtp, users)
    | some true =>
      match users.createUser id
        { username := claims.username, email := claims.email, password := claims.passwordHash } with
      | .error e => (.error (.repo e), users)
      | .ok (user, users) => (authUserResponse lib env user, users)

def login (env : Env) (replica : Users) (email password : String) :
    Except ServiceError AuthUserResponse :=
  match replica.getUserByEmail email with
  | none => .error .invalidCredentials
  | some user =>
    match hasher.verify password user.password with
    | none => .error .hasher
    | some false => .error .invalidCredentials
    | some true => authUserResponse lib env user

/-- `payload.password` after the `if let`. -/
def hashPassword (salt : hasher.Salt) (payload : UpdateUserPayload) : Option UpdateUserPayload :=
  match payload.password with
  | none => some payload
  | some plain => (hasher.hash salt plain).map fun h => { payload with password := some h }

def updateUser (env : Env) (users : Users) (userId : Uuid) (payload : UpdateUserPayload)
    (salt : hasher.Salt) : Except ServiceError AuthUserResponse × Users :=
  match hashPassword hasher salt payload with
  | none => (.error .hasher, users)
  | some payload =>
    match users.updateUser userId payload with
    | .error e => (.error (.repo e), users)
    | .ok (user, users) => (authUserResponse lib env user, users)

/-! ## When they succeed -/

variable {lib hasher} {env : Env} {secret : String}

theorem authUserResponse_eq (hsecret : env.jwtSecret = some secret) (user : User) :
    authUserResponse lib env user =
      .ok { user, token := (Mint.access user.id env.now).token lib secret,
            refreshToken := (Mint.refresh user.id env.now).token lib secret } := by
  simp only [authUserResponse, createAccessToken_eq hsecret, createRefreshToken_eq hsecret]

/-- A pending token for an email that nobody has. -/
theorem requestSignup_eq_ok_iff (hsecret : env.jwtSecret = some secret) {replica : Users}
    {payload : CreateUserPayload} {draw : SignupDraw hasher.Salt} {token : String} :
    requestSignup lib hasher env replica payload draw = .ok token ↔
      replica.getUserByEmail payload.email = none ∧ draw.sent = true ∧
        ∃ password otpHash, hasher.hash draw.salt payload.password = some password ∧
          hasher.hash draw.otpSalt draw.otp = some otpHash ∧
          token = (Mint.pending payload.email payload.username password otpHash env.now).token lib secret := by
  simp only [requestSignup, createPendingToken_eq hsecret]
  constructor
  · intro h
    split at h
    · cases h
    · rename_i hnone
      split at h
      · rename_i password otpHash hpassword hotp
        split at h
        · rename_i hsent
          exact ⟨hnone, hsent, password, otpHash, hpassword, hotp, (Except.ok.inj h).symm⟩
        · cases h
      · cases h
  · rintro ⟨hnone, hsent, password, otpHash, hpassword, hotp, rfl⟩
    simp only [hnone, hpassword, hotp, hsent, if_true]

/-- A row for a live pending token and its code. -/
theorem verifyOtp_eq_ok_iff (hsecret : env.jwtSecret = some secret) {minted : Set Mint}
    {users users' : Users} {token otp : String} (hgenuine : Genuine lib secret minted token) {id : Uuid} :
    (∃ r, verifyOtp lib hasher env users token otp id = (.ok r, users')) ↔
      ∃ m ∈ minted, ∃ c, token = m.token lib secret ∧ m.body = .inr c ∧ m.Live env.now ∧
        hasher.verify otp c.otpHash = some true ∧
        ∃ u, users.createUser id { username := c.username, email := c.email, password := c.passwordHash } =
          .ok (u, users') := by
  simp only [verifyOtp]
  constructor
  · rintro ⟨r, h⟩
    split at h
    · cases h
    · rename_i c hdecode
      obtain ⟨m, hm, htoken, hbody, hlive⟩ := (decodePendingToken_eq_ok_iff hsecret hgenuine).mp hdecode
      split at h
      · cases h
      · cases h
      · rename_i hverify
        split at h
        · cases h
        · rename_i u users'' hcreate
          obtain rfl := (Prod.mk.inj h).2
          exact ⟨m, hm, c, htoken, hbody, hlive, hverify, u, hcreate⟩
  · rintro ⟨m, hm, c, htoken, hbody, hlive, hverify, u, hcreate⟩
    have hdecode := (decodePendingToken_eq_ok_iff hsecret hgenuine).mpr ⟨m, hm, htoken, hbody, hlive⟩
    simp only [hdecode, hverify, hcreate, authUserResponse_eq hsecret]
    exact ⟨_, rfl⟩

theorem login_eq_ok_iff (hsecret : env.jwtSecret = some secret) {replica : Users}
    {email password : String} {userId : Uuid} :
    (∃ r, login lib hasher env replica email password = .ok r ∧ r.user.id = userId) ↔
      ∃ u ∈ replica.rows, u.id = userId ∧ u.email = email ∧
        hasher.verify password u.password = some true := by
  simp only [login]
  constructor
  · rintro ⟨r, h, rfl⟩
    split at h
    · cases h
    · rename_i u hfind
      obtain ⟨hu, hemail⟩ := Users.getUserByEmail_eq_some_iff.mp hfind
      split at h
      · cases h
      · cases h
      · rename_i hverify
        rw [authUserResponse_eq hsecret] at h
        obtain rfl := Except.ok.inj h
        exact ⟨u, hu, rfl, hemail, hverify⟩
  · rintro ⟨u, hu, rfl, hemail, hverify⟩
    rw [Users.getUserByEmail_eq_some_iff.mpr ⟨hu, hemail⟩]
    simp only [hverify, authUserResponse_eq hsecret]
    exact ⟨_, rfl, rfl⟩

/-- The table after a call that succeeds. -/
theorem updateUser_eq_ok_iff (hsecret : env.jwtSecret = some secret) {users users' : Users}
    {userId : Uuid} {payload : UpdateUserPayload} {salt : hasher.Salt} :
    (∃ r, updateUser lib hasher env users userId payload salt = (.ok r, users')) ↔
      ∃ hashed u, hashPassword hasher salt payload = some hashed ∧
        users.updateUser userId hashed = .ok (u, users') := by
  simp only [updateUser]
  constructor
  · rintro ⟨r, h⟩
    split at h
    · cases h
    · rename_i hashed hhash
      split at h
      · cases h
      · rename_i u users'' hupdate
        obtain rfl := (Prod.mk.inj h).2
        exact ⟨hashed, u, hhash, hupdate⟩
  · rintro ⟨hashed, u, hhash, hupdate⟩
    simp only [hhash, hupdate, authUserResponse_eq hsecret]
    exact ⟨_, rfl⟩

/-- A call that fails leaves the table as it was. -/
theorem verifyOtp_error (hsecret : env.jwtSecret = some secret) {users users' : Users}
    {token otp : String} {id : Uuid} {e : ServiceError}
    (h : verifyOtp lib hasher env users token otp id = (.error e, users')) : users' = users := by
  simp only [verifyOtp, authUserResponse_eq hsecret] at h
  split at h
  · exact (Prod.mk.inj h).2.symm
  · split at h
    · exact (Prod.mk.inj h).2.symm
    · exact (Prod.mk.inj h).2.symm
    · split at h
      · exact (Prod.mk.inj h).2.symm
      · cases h

theorem updateUser_error (hsecret : env.jwtSecret = some secret) {users users' : Users}
    {userId : Uuid} {payload : UpdateUserPayload} {salt : hasher.Salt} {e : ServiceError}
    (h : updateUser lib hasher env users userId payload salt = (.error e, users')) : users' = users := by
  simp only [updateUser, authUserResponse_eq hsecret] at h
  split at h
  · exact (Prod.mk.inj h).2.symm
  · split at h
    · exact (Prod.mk.inj h).2.symm
    · cases h

/-- The created user has the id that was drawn. -/
theorem id_of_verifyOtp (hsecret : env.jwtSecret = some secret) {users users' : Users}
    {token otp : String} {id : Uuid} {r : AuthUserResponse}
    (h : verifyOtp lib hasher env users token otp id = (.ok r, users')) : r.user.id = id := by
  simp only [verifyOtp, authUserResponse_eq hsecret] at h
  split at h
  · cases h
  · split at h
    · cases h
    · cases h
    · split at h
      · cases h
      · rename_i u users'' hcreate
        obtain rfl := Except.ok.inj (Prod.mk.inj h).1
        obtain ⟨-, -, rfl, -⟩ := Users.createUser_eq_ok_iff.mp hcreate
        rfl

/-- Hashing touches the password only. -/
theorem hashPassword_eq_some_iff {salt : hasher.Salt} {payload hashed : UpdateUserPayload} :
    hashPassword hasher salt payload = some hashed ↔
      hashed.username = payload.username ∧ hashed.email = payload.email ∧
        ((payload.password = none ∧ hashed.password = none) ∨
          ∃ plain h, payload.password = some plain ∧ hasher.hash salt plain = some h ∧
            hashed.password = some h) := by
  obtain ⟨username, email, password⟩ := payload
  obtain ⟨username', email', password'⟩ := hashed
  cases password with
  | none => simp [hashPassword, eq_comm]
  | some plain =>
    simp only [hashPassword, Option.map_eq_some_iff, UpdateUserPayload.mk.injEq]
    constructor
    · rintro ⟨h, hhash, rfl, rfl, rfl⟩
      exact ⟨rfl, rfl, Or.inr ⟨plain, h, rfl, hhash, rfl⟩⟩
    · rintro ⟨rfl, rfl, ⟨hnone, -⟩ | ⟨plain', h, hplain, hhash, rfl⟩⟩
      · cases hnone
      · obtain rfl := Option.some.inj hplain
        exact ⟨h, hhash, rfl, rfl, rfl⟩

end Services

end Bittuly.Auth
