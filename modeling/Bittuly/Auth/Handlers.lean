import Bittuly.Auth.Middleware
import Bittuly.Auth.Services

/-!
# The handlers of auth-service

References: `services/auth-service/src/handlers.rs`, `services/auth-service/src/routes.rs`,
`services/url-service/src/routes.rs`, `libs/shared/src/jwt.rs` (`jwt_auth`).

`serve` answers one request: the public routes directly, the protected ones behind `jwt_auth`. Reads go to
a replica, which may be behind or away; each request writes with one statement at most, and the reply of
that statement may be lost. The protected routes of url-service are here as well: they have the same
secret and the same middleware, which may hand out tokens there, too.

The service creates tokens after it has written. `serve_spec` says that the status of the answer tells
what has become of the table all the same.
-/

namespace Bittuly.Auth

/-! ## Replies -/

/-- `User` as it is serialized: without the password. -/
structure UserJson where
  id : Uuid
  username : String
  email : String
deriving DecidableEq, Repr

def User.toJson (u : User) : UserJson where
  id := u.id
  username := u.username
  email := u.email

/-- The bodies. `invalid` is a report of the validator. -/
inductive Body
  | empty
  | user (u : UserJson)
  | pendingToken (token : String)
  | error (text : String)
  | invalid
deriving DecidableEq, Repr

structure Reply where
  response : Response
  body : Body
deriving DecidableEq, Repr

def StatusCode.reply (status : StatusCode) (body : Body) : Reply where
  response := status.intoResponse
  body := body

/-- 400 and above. -/
def StatusCode.isError : StatusCode → Bool
  | .OK | .CREATED | .NO_CONTENT => false
  | _ => true

/-- `AuthSuccess::into_response`. -/
def AuthUserResponse.intoReply (env : Env) (status : StatusCode) (auth : AuthUserResponse) : Reply :=
  match setTokenCookies env status.intoResponse auth.token auth.refreshToken with
  | some response => { response, body := .user auth.user.toJson }
  | none => StatusCode.INTERNAL_SERVER_ERROR.reply .empty

/-! ## The handlers -/

structure LoginPayload where
  email : String
  password : String
deriving DecidableEq, Repr

variable (lib : JsonWebToken) (hasher : PasswordHasher) (validateEmail : String → Bool) (env : Env)

namespace Handlers

/-- Errors are told apart by their text; that of a missing `JWT_SECRET` is "environment variable not
found". -/
def login (replica : Option Users) (payload : LoginPayload) : Reply :=
  if validateEmail payload.email then
    match replica with
    | none => StatusCode.SERVICE_UNAVAILABLE.reply (.error "service temporarily unavailable")
    | some replica =>
      match Services.login lib hasher env replica payload.email payload.password with
      | .ok auth => auth.intoReply env .OK
      | .error .invalidCredentials | .error .jwtSecret => StatusCode.UNAUTHORIZED.reply .empty
      | .error _ => StatusCode.SERVICE_UNAVAILABLE.reply (.error "service temporarily unavailable")
  else StatusCode.UNPROCESSABLE_ENTITY.reply .invalid

def requestSignup (replica : Option Users) (payload : CreateUserPayload)
    (draw : SignupDraw hasher.Salt) : Reply :=
  if payload.validate validateEmail then
    match replica with
    | none => StatusCode.INTERNAL_SERVER_ERROR.reply .empty
    | some replica =>
      match Services.requestSignup lib hasher env replica payload draw with
      | .ok pendingToken => StatusCode.OK.reply (.pendingToken pendingToken)
      | .error .emailAlreadyRegistered => StatusCode.CONFLICT.reply (.error "email already registered")
      | .error _ => StatusCode.INTERNAL_SERVER_ERROR.reply .empty
  else StatusCode.UNPROCESSABLE_ENTITY.reply .invalid

/-- What is left of a call whose statement may fail: `failed` is the handler's answer to that. -/
def written (write : DbResult) (failed : Reply) (users users' : Users) (reply : Reply) : Reply × Users :=
  match write with
  | .ok => (reply, users')
  | .errApplied => (failed, users')
  | .err => (failed, users)

def verifyOtp (write : DbResult) (users : Users) (pendingToken otp : String) (id : Uuid) :
    Reply × Users :=
  if validateOtp otp then
    match Services.verifyOtp lib hasher env users pendingToken otp id with
    | (.ok auth, users') =>
      written write (StatusCode.INTERNAL_SERVER_ERROR.reply .empty) users users' (auth.intoReply env .CREATED)
    | (.error .invalidOtp, users') =>
      (StatusCode.UNAUTHORIZED.reply (.error "invalid or expired OTP"), users')
    | (.error _, users') => (StatusCode.INTERNAL_SERVER_ERROR.reply .empty, users')
  else (StatusCode.UNPROCESSABLE_ENTITY.reply .invalid, users)

/-- The check that the three handlers of a user's own row begin with. `path` is what `Uuid::parse_str`
makes of the path. -/
def ownRow {α : Type} (claims : Claims) (path : Option Uuid) (refused : Reply → α) (next : Uuid → α) : α :=
  match path with
  | none => refused (StatusCode.BAD_REQUEST.reply (.error "invalid user_id"))
  | some userId =>
    if userId ≠ claims.sub then refused (StatusCode.FORBIDDEN.reply .empty) else next userId

def getUserById (replica : Option Users) (path : Option Uuid) (claims : Claims) : Reply :=
  ownRow claims path id fun userId =>
    match replica with
    | none => StatusCode.INTERNAL_SERVER_ERROR.reply (.error "internal server error")
    | some replica =>
      match replica.rows.find? fun u => u.id = userId with
      | some user => StatusCode.OK.reply (.user user.toJson)
      | none => StatusCode.NOT_FOUND.reply (.error "user not found")

def updateUser (write : DbResult) (users : Users) (path : Option Uuid) (payload : UpdateUserPayload)
    (salt : hasher.Salt) (claims : Claims) : Reply × Users :=
  let failed := StatusCode.INTERNAL_SERVER_ERROR.reply (.error "internal server error")
  ownRow claims path (·, users) fun userId =>
    if payload.validate validateEmail then
      match Services.updateUser lib hasher env users userId payload salt with
      | (.ok auth, users') => written write failed users users' (auth.intoReply env .OK)
      | (.error _, users') => (failed, users')
    else (StatusCode.UNPROCESSABLE_ENTITY.reply .invalid, users)

/-- The event for the consumer is published in between; its outcome is ignored. -/
def deleteUser (write : DbResult) (users : Users) (path : Option Uuid) (claims : Claims) :
    Reply × Users :=
  ownRow claims path (·, users) fun userId =>
    written write (StatusCode.INTERNAL_SERVER_ERROR.reply (.error "internal server error")) users
      (users.deleteUser userId) (StatusCode.NO_CONTENT.reply .empty)

def logout : Reply where
  response := clearTokenCookies StatusCode.NO_CONTENT.intoResponse
  body := .empty

end Handlers

/-! ## Routing -/

/-- A request to one of the routes, with what the handler draws. Of a handler of url-service only the status
is kept: it does not touch the users and sets no cookies. -/
inductive Request (Salt : Type)
  | signup (payload : CreateUserPayload) (draw : SignupDraw Salt)
  | verifyOtp (pendingToken otp : String) (id : Uuid)
  | login (payload : LoginPayload)
  | logout (cookie : Option String)
  | getUserById (cookie : Option String) (path : Option Uuid)
  | updateUser (cookie : Option String) (path : Option Uuid) (payload : UpdateUserPayload) (salt : Salt)
  | deleteUser (cookie : Option String) (path : Option Uuid)
  | urlService (cookie : Option String) (handler : Claims → StatusCode)

/-- The `Cookie` header of a request to a protected route. -/
def Request.cookie {Salt : Type} : Request Salt → Option String
  | .logout cookie | .getUserById cookie _ | .updateUser cookie _ _ _ | .deleteUser cookie _
  | .urlService cookie _ => cookie
  | _ => none

/-- `jwt_auth` around a handler that may write. -/
def protect (cookie : Option String) (users : Users) (next : Claims → Reply × Users) : Reply × Users :=
  match authenticate lib env cookie with
  | .error status => (status.reply .empty, users)
  | .ok a =>
    match a.finish env (next a.claims).1.response with
    | .ok response => ({ (next a.claims).1 with response }, (next a.claims).2)
    | .error status => (status.reply .empty, (next a.claims).2)

/-- `auth_routes` and `url_routes`, as far as they lead to these handlers: the answer, and the table after
it. -/
def serve (replica : Option Users) (write : DbResult) (users : Users) :
    Request hasher.Salt → Reply × Users
  | .signup payload draw => (Handlers.requestSignup lib hasher validateEmail env replica payload draw, users)
  | .verifyOtp pendingToken otp id => Handlers.verifyOtp lib hasher env write users pendingToken otp id
  | .login payload => (Handlers.login lib hasher validateEmail env replica payload, users)
  | .logout cookie => protect lib env cookie users fun _ => (Handlers.logout, users)
  | .getUserById cookie path =>
    protect lib env cookie users fun claims => (Handlers.getUserById replica path claims, users)
  | .updateUser cookie path payload salt =>
    protect lib env cookie users
      (Handlers.updateUser lib hasher validateEmail env write users path payload salt)
  | .deleteUser cookie path => protect lib env cookie users (Handlers.deleteUser write users path)
  | .urlService cookie handler =>
    protect lib env cookie users fun claims => ((handler claims).reply .empty, users)

/-! ## What the status of an answer tells -/

variable {lib} {hasher} {validateEmail} {env}

/-- Only a service with its secret admits requests, and only with a `Cookie` header. -/
theorem exists_of_authenticate {cookie : Option String} {a : Admission}
    (h : authenticate lib env cookie = .ok a) :
    ∃ secret cookieStr, env.jwtSecret = some secret ∧ cookie = some cookieStr := by
  cases cookie with
  | none => cases h
  | some cookieStr =>
    cases hsecret : env.jwtSecret with
    | some secret => exact ⟨secret, cookieStr, rfl, rfl⟩
    | none =>
      simp only [authenticate, hsecret] at h
      split at h
      · cases h
      · split at h <;> cases h

theorem isError_of_authenticate {cookie : Option String} {status : StatusCode}
    (h : authenticate lib env cookie = .error status) : status.isError = true := by
  cases hsecret : env.jwtSecret with
  | some secret =>
    obtain rfl := status_of_authenticate_eq_error hsecret h
    rfl
  | none =>
    simp only [authenticate, hsecret] at h
    split at h
    · obtain rfl := Except.error.inj h
      rfl
    · split at h <;>
      · obtain rfl := Except.error.inj h
        rfl

/-- The cookies that the refresh branch adds. -/
def Admission.cookies (env : Env) (a : Admission) : List SetCookie :=
  match a.fresh with
  | none => []
  | some (newAccess, newRefresh) => [accessCookie env newAccess, refreshCookie env newRefresh]

/-- They are none, or fresh ones of the user. -/
theorem cookies_of_authenticate {secret : String} (hsecret : env.jwtSecret = some secret)
    {cookie : Option String} {a : Admission} (h : authenticate lib env cookie = .ok a) :
    a.fresh = none ∨ a.fresh = some ((Mint.access a.claims.sub env.now).token lib secret,
      (Mint.refresh a.claims.sub env.now).token lib secret) := by
  obtain ⟨-, cookieStr, -, rfl⟩ := exists_of_authenticate h
  obtain ⟨token, -, ⟨c, -, -, rfl⟩ | ⟨-, hrefresh⟩⟩ :=
    (authenticate_eq_ok_iff hsecret (toStr_of_authenticate h)).mp h
  · exact Or.inl rfl
  · obtain ⟨-, c, -, -, -, rfl⟩ := (refreshAccessToken_eq_ok_iff hsecret).mp hrefresh
    exact Or.inr rfl

/-- Adding them does not fail. -/
theorem finish_eq {cookie : Option String} {a : Admission} (h : authenticate lib env cookie = .ok a)
    (response : Response) :
    a.finish env response = .ok { response with setCookie := response.setCookie ++ a.cookies env } := by
  obtain ⟨secret, -, hsecret, -⟩ := exists_of_authenticate h
  rcases cookies_of_authenticate hsecret h with hfresh | hfresh
  · simp only [Admission.finish, Admission.cookies, hfresh, List.append_nil]
  · simp only [Admission.finish, Admission.cookies, hfresh,
      setTokenCookies_eq env response (isToken_token lib secret _) (isToken_token lib secret _)]

/-- A protected request is refused, or its handler answers. -/
theorem protect_cases (cookie : Option String) (users : Users) (next : Claims → Reply × Users) :
    (∃ status : StatusCode, status.isError = true ∧
        protect lib env cookie users next = (status.reply .empty, users)) ∨
      ∃ a, authenticate lib env cookie = .ok a ∧ protect lib env cookie users next =
        ({ response := { status := (next a.claims).1.response.status,
                         setCookie := (next a.claims).1.response.setCookie ++ a.cookies env },
           body := (next a.claims).1.body }, (next a.claims).2) := by
  cases hauth : authenticate lib env cookie with
  | error status =>
    left
    refine ⟨status, isError_of_authenticate hauth, ?_⟩
    simp only [protect, hauth]
  | ok a =>
    right
    refine ⟨a, rfl, ?_⟩
    simp only [protect, hauth, finish_eq hauth]

/-- `AuthSuccess` does succeed. -/
theorem intoReply_eq {secret : String} (hsecret : env.jwtSecret = some secret) {user : User}
    {auth : AuthUserResponse} (h : Services.authUserResponse lib env user = .ok auth)
    (status : StatusCode) :
    auth.intoReply env status =
      { response := { status, setCookie := freshCookies lib env secret user.id },
        body := .user user.toJson } := by
  rw [Services.authUserResponse_eq hsecret] at h
  obtain rfl := Except.ok.inj h
  simp only [AuthUserResponse.intoReply,
    setTokenCookies_eq env _ (isToken_token lib secret _) (isToken_token lib secret _)]
  rfl

/-! ## What each handler can answer -/

/-- Neither a user nor a pending token. -/
def Body.isReport : Body → Bool
  | .empty | .error _ | .invalid => true
  | .user _ | .pendingToken _ => false

/-- An error, which gives nothing away. -/
structure Reply.Refused (r : Reply) : Prop where
  isError : r.response.status.isError = true
  setCookie : r.response.setCookie = []
  isReport : r.body.isReport = true

theorem StatusCode.refused_reply {status : StatusCode} {body : Body} (hstatus : status.isError = true)
    (hbody : body.isReport = true) : (status.reply body).Refused :=
  ⟨hstatus, rfl, hbody⟩

variable (lib env) in
/-- `AuthSuccess` for a user. -/
def granted (secret : String) (status : StatusCode) (u : User) : Reply where
  response := { status, setCookie := freshCookies lib env secret u.id }
  body := .user u.toJson

namespace Handlers

theorem login_cases (replica : Option Users) (payload : LoginPayload) :
    (login lib hasher validateEmail env replica payload).Refused ∨
      ∃ secret table r, env.jwtSecret = some secret ∧ replica = some table ∧ r ∈ table.rows ∧
        r.email = payload.email ∧ hasher.verify payload.password r.password = some true ∧
        login lib hasher validateEmail env replica payload = granted lib env secret .OK r := by
  unfold login
  split
  · cases replica with
    | none => exact Or.inl (StatusCode.refused_reply rfl rfl)
    | some table =>
      cases hlogin : Services.login lib hasher env table payload.email payload.password with
      | error e =>
        left
        simp only [hlogin]
        cases e <;> exact StatusCode.refused_reply rfl rfl
      | ok auth =>
        right
        simp only [hlogin]
        simp only [Services.login] at hlogin
        split at hlogin
        · cases hlogin
        · rename_i r hfind
          obtain ⟨hr, hemail⟩ := Users.getUserByEmail_eq_some_iff.mp hfind
          split at hlogin
          · cases hlogin
          · cases hlogin
          · rename_i hverify
            cases hsecret : env.jwtSecret with
            | none => simp [Services.authUserResponse, createAccessToken, createToken, hsecret] at hlogin
            | some secret =>
              exact ⟨secret, table, r, rfl, rfl, hr, hemail, hverify, intoReply_eq hsecret hlogin .OK⟩
  · exact Or.inl (StatusCode.refused_reply rfl rfl)

theorem requestSignup_cases (replica : Option Users) (payload : CreateUserPayload)
    (draw : SignupDraw hasher.Salt) :
    (requestSignup lib hasher validateEmail env replica payload draw).Refused ∨
      ∃ secret password otpHash, env.jwtSecret = some secret ∧
        hasher.hash draw.salt payload.password = some password ∧
        hasher.hash draw.otpSalt draw.otp = some otpHash ∧
        requestSignup lib hasher validateEmail env replica payload draw = StatusCode.OK.reply
          (.pendingToken ((Mint.pending payload.email payload.username password otpHash env.now).token
            lib secret)) := by
  unfold requestSignup
  split
  · cases replica with
    | none => exact Or.inl (StatusCode.refused_reply rfl rfl)
    | some table =>
      cases hsignup : Services.requestSignup lib hasher env table payload draw with
      | error e =>
        left
        simp only [hsignup]
        cases e <;> exact StatusCode.refused_reply rfl rfl
      | ok token =>
        right
        simp only [hsignup]
        cases hsecret : env.jwtSecret with
        | none =>
          simp only [Services.requestSignup, createPendingToken, hsecret, Option.map_none] at hsignup
          split at hsignup
          · cases hsignup
          · split at hsignup
            · split at hsignup <;> cases hsignup
            · cases hsignup
        | some secret =>
          obtain ⟨-, -, password, otpHash, hpassword, hotp, rfl⟩ :=
            (Services.requestSignup_eq_ok_iff hsecret).mp hsignup
          exact ⟨secret, password, otpHash, rfl, hpassword, hotp, rfl⟩
  · exact Or.inl (StatusCode.refused_reply rfl rfl)

theorem verifyOtp_cases (write : DbResult) (users : Users) (pendingToken otp : String) (id : Uuid) :
    ((verifyOtp lib hasher env write users pendingToken otp id).1.Refused ∧
        (verifyOtp lib hasher env write users pendingToken otp id).2 = users) ∨
      ∃ secret c u users', env.jwtSecret = some secret ∧
        decodePendingToken lib env pendingToken = .ok c ∧ hasher.verify otp c.otpHash = some true ∧
        users.createUser id { username := c.username, email := c.email, password := c.passwordHash } =
          .ok (u, users') ∧
        verifyOtp lib hasher env write users pendingToken otp id =
          written write (StatusCode.INTERNAL_SERVER_ERROR.reply .empty) users users'
            (granted lib env secret .CREATED u) := by
  unfold verifyOtp
  split
  · cases hdecode : decodePendingToken lib env pendingToken with
    | error e =>
      left
      simp only [Services.verifyOtp, hdecode]
      exact ⟨StatusCode.refused_reply rfl rfl, trivial⟩
    | ok c =>
      have hsecret : ∃ secret, env.jwtSecret = some secret := by
        cases hsecret : env.jwtSecret with
        | none =>
          rw [decodePendingToken, hsecret] at hdecode
          cases hdecode
        | some secret => exact ⟨secret, rfl⟩
      obtain ⟨secret, hsecret⟩ := hsecret
      cases hverify : hasher.verify otp c.otpHash with
      | none =>
        left
        simp only [Services.verifyOtp, hdecode, hverify]
        exact ⟨StatusCode.refused_reply rfl rfl, trivial⟩
      | some valid =>
        cases valid with
        | false =>
          left
          simp only [Services.verifyOtp, hdecode, hverify]
          exact ⟨StatusCode.refused_reply rfl rfl, trivial⟩
        | true =>
          cases hcreate : users.createUser id
              { username := c.username, email := c.email, password := c.passwordHash } with
          | error e =>
            left
            simp only [Services.verifyOtp, hdecode, hverify, hcreate]
            exact ⟨StatusCode.refused_reply rfl rfl, trivial⟩
          | ok r =>
            right
            obtain ⟨u, users'⟩ := r
            refine ⟨secret, c, u, users', hsecret, rfl, hverify, hcreate, ?_⟩
            have hauth : Services.authUserResponse lib env u = .ok _ := Services.authUserResponse_eq hsecret u
            simp only [Services.verifyOtp, hdecode, hverify, hcreate, hauth]
            rw [intoReply_eq hsecret hauth]
            rfl
  · exact Or.inl ⟨StatusCode.refused_reply rfl rfl, rfl⟩

theorem ownRow_cases {α : Type} (claims : Claims) (path : Option Uuid) (refused : Reply → α)
    (next : Uuid → α) :
    (∃ reply : Reply, reply.Refused ∧ ownRow claims path refused next = refused reply) ∨
      path = some claims.sub ∧ ownRow claims path refused next = next claims.sub := by
  cases path with
  | none => exact Or.inl ⟨_, StatusCode.refused_reply rfl rfl, rfl⟩
  | some userId =>
    by_cases hown : userId = claims.sub
    · right
      subst hown
      exact ⟨rfl, if_neg (not_not_intro rfl)⟩
    · left
      exact ⟨_, StatusCode.refused_reply rfl rfl, if_pos hown⟩

theorem getUserById_cases (replica : Option Users) (path : Option Uuid) (claims : Claims) :
    (getUserById replica path claims).Refused ∨ ∃ r : User, r.id = claims.sub ∧
      getUserById replica path claims = StatusCode.OK.reply (.user r.toJson) := by
  unfold getUserById
  rcases ownRow_cases claims path id _ with ⟨reply, hrefused, heq⟩ | ⟨-, heq⟩
  · rw [heq]
    exact Or.inl hrefused
  · rw [heq]
    cases replica with
    | none => exact Or.inl (StatusCode.refused_reply rfl rfl)
    | some table =>
      cases hfind : table.rows.find? fun u => u.id = claims.sub with
      | none =>
        left
        simp only [hfind]
        exact StatusCode.refused_reply rfl rfl
      | some r =>
        right
        simp only [hfind]
        exact ⟨r, by simpa using List.find?_some hfind, rfl⟩

theorem updateUser_cases {secret : String} (hsecret : env.jwtSecret = some secret) (write : DbResult)
    (users : Users) (path : Option Uuid) (payload : UpdateUserPayload) (salt : hasher.Salt)
    (claims : Claims) :
    ((updateUser lib hasher validateEmail env write users path payload salt claims).1.Refused ∧
        (updateUser lib hasher validateEmail env write users path payload salt claims).2 = users) ∨
      ∃ hashed u users', path = some claims.sub ∧ Services.hashPassword hasher salt payload = some hashed ∧
        users.updateUser claims.sub hashed = .ok (u, users') ∧
        updateUser lib hasher validateEmail env write users path payload salt claims =
          written write (StatusCode.INTERNAL_SERVER_ERROR.reply (.error "internal server error")) users
            users' (granted lib env secret .OK u) := by
  unfold updateUser
  rcases ownRow_cases claims path (·, users) _ with ⟨reply, hrefused, heq⟩ | ⟨hpath, heq⟩
  · rw [heq]
    exact Or.inl ⟨hrefused, rfl⟩
  · rw [heq]
    by_cases hvalid : payload.validate validateEmail = true
    · rw [if_pos hvalid]
      cases hhash : Services.hashPassword hasher salt payload with
      | none =>
        left
        simp only [Services.updateUser, hhash]
        exact ⟨StatusCode.refused_reply rfl rfl, trivial⟩
      | some hashed =>
        cases hupdate : users.updateUser claims.sub hashed with
        | error e =>
          left
          simp only [Services.updateUser, hhash, hupdate]
          exact ⟨StatusCode.refused_reply rfl rfl, trivial⟩
        | ok r =>
          right
          obtain ⟨u, users'⟩ := r
          refine ⟨hashed, u, users', hpath, rfl, hupdate, ?_⟩
          have hauth : Services.authUserResponse lib env u = .ok _ := Services.authUserResponse_eq hsecret u
          simp only [Services.updateUser, hhash, hupdate, hauth]
          rw [intoReply_eq hsecret hauth]
          rfl
    · rw [if_neg hvalid]
      exact Or.inl ⟨StatusCode.refused_reply rfl rfl, rfl⟩

theorem deleteUser_cases (write : DbResult) (users : Users) (path : Option Uuid) (claims : Claims) :
    ((deleteUser write users path claims).1.Refused ∧ (deleteUser write users path claims).2 = users) ∨
      path = some claims.sub ∧ deleteUser write users path claims =
        written write (StatusCode.INTERNAL_SERVER_ERROR.reply (.error "internal server error")) users
          (users.deleteUser claims.sub) (StatusCode.NO_CONTENT.reply .empty) := by
  unfold deleteUser
  rcases ownRow_cases claims path (·, users) _ with ⟨reply, hrefused, heq⟩ | ⟨hpath, heq⟩
  · rw [heq]
    exact Or.inl ⟨hrefused, rfl⟩
  · exact Or.inr ⟨hpath, heq⟩

/-- The table and the status after a statement. -/
theorem written_cases (write : DbResult) {failed reply : Reply} (hfailed : failed.Refused)
    (hreply : reply.response.status.isError = false) (users users' : Users) :
    (written write failed users users' reply = (reply, users') ∧ reply.response.status.isError = false) ∨
      (written write failed users users' reply).1.Refused ∧
        ((written write failed users users' reply).2 = users ∨ write = .errApplied ∧
          (written write failed users users' reply).2 = users') := by
  cases write with
  | ok => exact Or.inl ⟨rfl, hreply⟩
  | errApplied => exact Or.inr ⟨hfailed, Or.inr ⟨rfl, rfl⟩⟩
  | err => exact Or.inr ⟨hfailed, Or.inl rfl⟩

end Handlers

/-! ## The status tells what has become of the table -/

variable (lib hasher env) in
/-- What a request is there for: the table before and after it has been carried out. -/
def Request.Done (users users' : Users) : Request hasher.Salt → Prop
  | .verifyOtp pendingToken otp id => ∃ c u, decodePendingToken lib env pendingToken = .ok c ∧
      hasher.verify otp c.otpHash = some true ∧ users.createUser id
        { username := c.username, email := c.email, password := c.passwordHash } = .ok (u, users')
  | .updateUser cookie path payload salt => ∃ a hashed u, authenticate lib env cookie = .ok a ∧
      path = some a.claims.sub ∧ Services.hashPassword hasher salt payload = some hashed ∧
      users.updateUser a.claims.sub hashed = .ok (u, users')
  | .deleteUser cookie path => ∃ a, authenticate lib env cookie = .ok a ∧ path = some a.claims.sub ∧
      users' = users.deleteUser a.claims.sub
  | _ => users' = users

/-- The two outcomes. -/
def Told (write : DbResult) (done : Users → Prop) (users : Users) (r : Reply × Users) : Prop :=
  (r.1.response.status.isError = false ∧ done r.2) ∨
    r.1.response.status.isError = true ∧ (r.2 = users ∨ write = .errApplied ∧ done r.2)

theorem told_written (write : DbResult) {failed reply : Reply} (hfailed : failed.Refused)
    (hreply : reply.response.status.isError = false) {users users' : Users} {done : Users → Prop}
    (hdone : done users') : Told write done users (Handlers.written write failed users users' reply) := by
  rcases Handlers.written_cases write hfailed hreply users users' with ⟨heq, hok⟩ | ⟨hrefused, h⟩
  · rw [heq]
    exact Or.inl ⟨hok, hdone⟩
  · refine Or.inr ⟨hrefused.isError, h.imp_right ?_⟩
    rintro ⟨hwrite, husers⟩
    rw [husers]
    exact ⟨hwrite, hdone⟩

/-- `jwt_auth` changes nothing about it. -/
theorem told_protect {write : DbResult} {done : Users → Prop} {cookie : Option String} {users : Users}
    {next : Claims → Reply × Users}
    (h : ∀ a, authenticate lib env cookie = .ok a → Told write done users (next a.claims)) :
    Told write done users (protect lib env cookie users next) := by
  rcases protect_cases cookie users next with ⟨status, hstatus, heq⟩ | ⟨a, hauth, heq⟩
  · rw [heq]
    exact Or.inr ⟨hstatus, Or.inl rfl⟩
  · rw [heq]
    exact h a hauth

/-- **The status of an answer tells what has become of the table.** A request that is answered with an
error has changed nothing, unless the reply of its statement was lost; one that is answered otherwise has
been carried out. -/
theorem status_tells_table (replica : Option Users) (write : DbResult) (users : Users)
    (request : Request hasher.Salt) :
    Told write (fun users' => request.Done lib hasher env users users') users
      (serve lib hasher validateEmail env replica write users request) := by
  cases request with
  | signup payload draw =>
    rcases Handlers.requestSignup_cases replica payload draw with h | ⟨_, _, _, -, -, -, heq⟩
    · exact Or.inr ⟨h.isError, Or.inl rfl⟩
    · left
      refine ⟨?_, rfl⟩
      show (Handlers.requestSignup lib hasher validateEmail env replica payload draw).response.status.isError
        = false
      rw [heq]
      rfl
  | verifyOtp pendingToken otp id =>
    rcases Handlers.verifyOtp_cases write users pendingToken otp id with
      ⟨h, husers⟩ | ⟨secret, c, u, users', -, hdecode, hverify, hcreate, heq⟩
    · exact Or.inr ⟨h.isError, Or.inl husers⟩
    · rw [serve, heq]
      exact told_written write (StatusCode.refused_reply rfl rfl) rfl ⟨c, u, hdecode, hverify, hcreate⟩
  | login payload =>
    rcases Handlers.login_cases replica payload with h | ⟨_, _, _, -, -, -, -, -, heq⟩
    · exact Or.inr ⟨h.isError, Or.inl rfl⟩
    · left
      refine ⟨?_, rfl⟩
      show (Handlers.login lib hasher validateEmail env replica payload).response.status.isError = false
      rw [heq]
      rfl
  | logout cookie =>
    rw [serve]
    apply told_protect
    intro a _
    exact Or.inl ⟨rfl, rfl⟩
  | getUserById cookie path =>
    rw [serve]
    apply told_protect
    intro a _
    rcases Handlers.getUserById_cases replica path a.claims with h | ⟨r, -, heq⟩
    · exact Or.inr ⟨h.isError, Or.inl rfl⟩
    · left
      refine ⟨?_, rfl⟩
      show (Handlers.getUserById replica path a.claims).response.status.isError = false
      rw [heq]
      rfl
  | updateUser cookie path payload salt =>
    rw [serve]
    apply told_protect
    intro a hauth
    obtain ⟨secret, -, hsecret, -⟩ := exists_of_authenticate hauth
    rcases Handlers.updateUser_cases hsecret write users path payload salt a.claims with
      ⟨h, husers⟩ | ⟨hashed, u, users', hpath, hhash, hupdate, heq⟩
    · exact Or.inr ⟨h.isError, Or.inl husers⟩
    · rw [heq]
      exact told_written write (StatusCode.refused_reply rfl rfl) rfl
        ⟨a, hashed, u, hauth, hpath, hhash, hupdate⟩
  | deleteUser cookie path =>
    rw [serve]
    apply told_protect
    intro a hauth
    rcases Handlers.deleteUser_cases write users path a.claims with ⟨h, husers⟩ | ⟨hpath, heq⟩
    · exact Or.inr ⟨h.isError, Or.inl husers⟩
    · rw [heq]
      exact told_written write (StatusCode.refused_reply rfl rfl) rfl ⟨a, hauth, hpath, rfl⟩
  | urlService cookie handler =>
    rw [serve]
    apply told_protect
    intro a _
    cases hstatus : (handler a.claims).isError with
    | true => exact Or.inr ⟨hstatus, Or.inl rfl⟩
    | false => exact Or.inl ⟨hstatus, rfl⟩

end Bittuly.Auth
