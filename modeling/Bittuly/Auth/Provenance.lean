import Bittuly.Auth.Accounts
import Bittuly.Auth.Handlers
import Bittuly.Auth.Session
import Bittuly.Lib.Ledger
import Bittuly.Lib.Run

/-!
# Where access to an account comes from

References: `services/auth-service/src/handlers.rs`, `services/auth-service/src/services.rs`,
`services/auth-service/src/repository.rs` (`SplitUserRepo`), `libs/shared/src/jwt.rs`.

The services answer requests of anybody. They keep no sessions: what a client may do follows from the tokens
it shows, and tokens are handed out with answers only. `AuthSystem.log` has every request with its answer,
for the statements; and clients can present any text, except that nobody forges signatures.

`access_goes_back` says that whoever gets at an account has proved to be its user, or shows a token that
goes back to such a proof: a login with the password of a row of that user, or the code that was mailed to
the address of the signup.
-/

namespace Bittuly.Auth

open Runs (Run)
open Ledgers (Each)

/-- A request and its answer, with the table before and after it. -/
structure Exchange (Salt : Type) where
  request : Request Salt
  reply : Reply
  found : Users
  left : Users
  now : ℕ

/-- The service at one moment, the latest exchange first. -/
structure AuthSystem (Salt : Type) where
  now : ℕ
  users : Users
  log : List (Exchange Salt)

/-- What happens to it. The replica shows the table as it was `lag` exchanges ago, or nothing. -/
inductive AuthEvent (Salt : Type)
  | tick (seconds : ℕ)
  | request (r : Request Salt) (lag : Option ℕ) (write : DbResult)

variable (lib : JsonWebToken) (hasher : PasswordHasher) (validateEmail : String → Bool) (env : Env)

namespace AuthSystem

/-- A fresh installation. -/
def start (now : ℕ) : AuthSystem hasher.Salt where
  now := now
  users := Users.empty
  log := []

/-- The tables that there have been, the present one first. -/
def tables {Salt : Type} (s : AuthSystem Salt) : List Users :=
  s.users :: s.log.map Exchange.found

/-- The exchange of a request. -/
def exchange (s : AuthSystem hasher.Salt) (r : Request hasher.Salt) (lag : Option ℕ) (write : DbResult) :
    Exchange hasher.Salt :=
  let served := serve lib hasher validateEmail { env with now := s.now }
    (lag.bind fun k => s.tables[k]?) write s.users r
  { request := r, reply := served.1, found := s.users, left := served.2, now := s.now }

def step (s : AuthSystem hasher.Salt) : AuthEvent hasher.Salt → Option (AuthSystem hasher.Salt)
  | .tick seconds => some { s with now := s.now + seconds }
  | .request r lag write =>
    let e := s.exchange lib hasher validateEmail env r lag write
    some { s with users := e.left, log := e :: s.log }

end AuthSystem

/-! ## Tokens -/

/-- The answer has this token in a cookie that is to be kept, or in its body. -/
def Reply.HandsOut (r : Reply) (token : String) : Prop :=
  (∃ c ∈ r.response.setCookie, 0 < c.maxAge ∧ c.value = token) ∨ r.body = .pendingToken token

/-- The tokens that clients have been given. -/
def HandedOut {Salt : Type} (secret : String) (log : List (Exchange Salt)) : Set Mint :=
  {m | ∃ e ∈ log, e.reply.HandsOut (m.token lib secret)}

/-- Nobody forges the tokens of a request. -/
def AuthSystem.Unforged {Salt : Type} (secret : String) (s : AuthSystem Salt) : AuthEvent Salt → Prop
  | .tick _ => True
  | .request r _ _ =>
    (∀ cookieStr, r.cookie = some cookieStr → ∀ name ∈ [cookieAccess, cookieRefresh], ∀ token,
      FirstCookie cookieStr name token → Genuine lib secret (HandedOut lib secret s.log) token) ∧
    ∀ pendingToken otp id, r = .verifyOtp pendingToken otp id →
      Genuine lib secret (HandedOut lib secret s.log) pendingToken

/-! ## Access -/

namespace Exchange

variable {hasher}

/-- `jwt_auth` has admitted the request as this user's. -/
def AdmittedAs {Salt : Type} (e : Exchange Salt) (u : Uuid) : Prop :=
  ∃ a, authenticate lib { env with now := e.now } e.request.cookie = .ok a ∧ a.claims.sub = u

/-- The request has got at an account: it was admitted as its user's, has changed the row, was told the
row, or was given a token of the user. -/
def Reaches {Salt : Type} (secret : String) (e : Exchange Salt) (u : Uuid) : Prop :=
  e.AdmittedAs lib env u ∨
    (∃ v : User, v.id = u ∧ ¬ (v ∈ e.left.rows ↔ v ∈ e.found.rows)) ∨
    (∃ v : UserJson, v.id = u ∧ e.reply.body = .user v) ∨
    ∃ (m : Mint) (c : Claims), e.reply.HandsOut (m.token lib secret) ∧ m.body = .inl c ∧ c.sub = u

/-- The request has proved to be the user's: a login with the password of a row that the user has or has
had, or the mailed code for a pending token, in time. -/
def Identifies (before : List (Exchange hasher.Salt)) (e : Exchange hasher.Salt) (u : Uuid) : Prop :=
  (∃ payload, e.request = .login payload ∧ ∃ table ∈ e.found :: before.map Exchange.found,
    ∃ r ∈ table.rows, r.id = u ∧ r.email = payload.email ∧
      hasher.verify payload.password r.password = some true) ∨
  ∃ pendingToken otp, e.request = .verifyOtp pendingToken otp u ∧ ∃ g ∈ before, ∃ payload draw,
    g.request = .signup payload draw ∧ g.reply.body = .pendingToken pendingToken ∧ otp = draw.otp ∧
    e.now ≤ g.now + pendingTokenTtlSeconds + leeway

/-- What an exchange can have handed out. -/
structure Regular (secret : String) (e : Exchange hasher.Salt) : Prop where
  cookies : ∀ c ∈ e.reply.response.setCookie, 0 < c.maxAge →
    ∃ u t, c.value = (Mint.access u t).token lib secret ∨ c.value = (Mint.refresh u t).token lib secret
  pending : ∀ token, e.reply.body = .pendingToken token → ∃ payload draw password otpHash,
    e.request = .signup payload draw ∧ hasher.hash draw.salt payload.password = some password ∧
      hasher.hash draw.otpSalt draw.otp = some otpHash ∧
      token = (Mint.pending payload.email payload.username password otpHash e.now).token lib secret

end Exchange

variable {lib hasher validateEmail env} {secret : String}

/-! ## What an answer can concern -/

variable (lib secret) in
/-- The answer and its statement are about these users only, and hand out no pending token. -/
structure Confined (users : Users) (r : Reply × Users) (us : Set Uuid) : Prop where
  rows : ∀ v : User, v.id ∉ us → (v ∈ r.2.rows ↔ v ∈ users.rows)
  body : ∀ v : UserJson, r.1.body = .user v → v.id ∈ us
  pending : ∀ token, r.1.body ≠ .pendingToken token
  cookies : ∀ c ∈ r.1.response.setCookie, 0 < c.maxAge → ∃ u ∈ us, ∃ t,
    c.value = (Mint.access u t).token lib secret ∨ c.value = (Mint.refresh u t).token lib secret

namespace Confined

variable {users users' : Users} {us : Set Uuid}

theorem refused {r : Reply × Users} (h : r.1.Refused) (husers : r.2 = users) :
    Confined lib secret users r us where
  rows v _ := by rw [husers]
  body v hv := by
    have hreport := h.isReport
    rw [hv] at hreport
    cases hreport
  pending token htoken := by
    have hreport := h.isReport
    rw [htoken] at hreport
    cases hreport
  cookies c hc := by
    rw [h.setCookie] at hc
    cases hc

/-- The cookies of a user. -/
theorem cookies_fresh {u : Uuid} (hu : u ∈ us) {c : SetCookie} (hc : c ∈ freshCookies lib env secret u) :
    ∃ u ∈ us, ∃ t, c.value = (Mint.access u t).token lib secret ∨
      c.value = (Mint.refresh u t).token lib secret := by
  rcases List.mem_pair.mp hc with rfl | rfl
  · exact ⟨u, hu, env.now, Or.inl rfl⟩
  · exact ⟨u, hu, env.now, Or.inr rfl⟩

theorem granted {status : StatusCode} {u : User} (hu : u.id ∈ us)
    (hrows : ∀ v : User, v.id ∉ us → (v ∈ users'.rows ↔ v ∈ users.rows)) :
    Confined lib secret users (granted lib env secret status u, users') us where
  rows := hrows
  body v hv := by
    obtain rfl := Body.user.inj hv
    exact hu
  pending token htoken := by cases htoken
  cookies c hc _ := cookies_fresh hu hc

theorem written {write : DbResult} {failed reply : Reply} (hfailed : failed.Refused)
    (h : Confined lib secret users (reply, users') us) :
    Confined lib secret users (Handlers.written write failed users users' reply) us := by
  cases write with
  | ok => exact h
  | errApplied =>
    have hnothing : Confined lib secret users (failed, users) us := refused hfailed rfl
    exact ⟨h.rows, hnothing.body, hnothing.pending, hnothing.cookies⟩
  | err => exact refused hfailed rfl

theorem protect (hsecret : env.jwtSecret = some secret) {cookie : Option String}
    {next : Claims → Reply × Users}
    (hus : ∀ a, authenticate lib env cookie = .ok a → a.claims.sub ∈ us ∧
      Confined lib secret users (next a.claims) us) :
    Confined lib secret users (protect lib env cookie users next) us := by
  rcases protect_cases cookie users next with ⟨status, hstatus, heq⟩ | ⟨a, hauth, heq⟩
  · rw [heq]
    exact refused ⟨hstatus, rfl, rfl⟩ rfl
  · obtain ⟨hsub, h⟩ := hus a hauth
    rw [heq]
    refine ⟨h.rows, h.body, h.pending, ?_⟩
    intro c hc hage
    rcases List.mem_append.mp hc with hc | hc
    · exact h.cookies c hc hage
    · rcases cookies_of_authenticate hsecret hauth with hfresh | hfresh
      · rw [Admission.cookies, hfresh] at hc
        cases hc
      · rw [Admission.cookies, hfresh] at hc
        exact cookies_fresh hsub hc

end Confined

/-! ## One exchange -/

/-- A token of claims is not one of a pending signup. -/
theorem body_of_token {m m' : Mint} (h : m.token lib secret = m'.token lib secret) :
    m.body = m'.body := by
  have hpayload := payload_eq_of_token h
  cases hbody : m.body with
  | inl c =>
    cases hbody' : m'.body with
    | inl c' =>
      simp only [Mint.payload, hbody, hbody', Sum.elim_inl] at hpayload
      have hclaims := congrArg Claims.ofJson hpayload
      rw [Claims.ofJson_toJson, Claims.ofJson_toJson] at hclaims
      rw [Option.some.inj hclaims]
    | inr c' =>
      simp only [Mint.payload, hbody, hbody', Sum.elim_inl, Sum.elim_inr] at hpayload
      have hclaims := congrArg Claims.ofJson hpayload
      rw [Claims.ofJson_toJson, Claims.ofJson_otp] at hclaims
      cases hclaims
  | inr c =>
    cases hbody' : m'.body with
    | inl c' =>
      simp only [Mint.payload, hbody, hbody', Sum.elim_inl, Sum.elim_inr] at hpayload
      have hclaims := congrArg Claims.ofJson hpayload
      rw [Claims.ofJson_toJson, Claims.ofJson_otp] at hclaims
      cases hclaims
    | inr c' =>
      simp only [Mint.payload, hbody, hbody', Sum.elim_inr] at hpayload
      have hclaims := congrArg OtpClaims.ofJson hpayload
      rw [OtpClaims.ofJson_toJson, OtpClaims.ofJson_toJson] at hclaims
      rw [Option.some.inj hclaims]

namespace Exchange

/-- A confined exchange reaches its users only. -/
theorem of_confined {e : Exchange hasher.Salt} {us : Set Uuid}
    (h : Confined lib secret e.found (e.reply, e.left) us) :
    e.Regular lib secret ∧ ∀ u, e.Reaches lib env secret u → e.AdmittedAs lib env u ∨ u ∈ us := by
  constructor
  · refine ⟨?_, fun token htoken => absurd htoken (h.pending token)⟩
    intro c hc hage
    obtain ⟨u, -, t, hvalue⟩ := h.cookies c hc hage
    exact ⟨u, t, hvalue⟩
  · rintro u (hadmitted | ⟨v, rfl, hrows⟩ | ⟨v, rfl, hbody⟩ | ⟨m, c, hands, hbody, rfl⟩)
    · exact Or.inl hadmitted
    · right
      by_contra hnot
      exact hrows (h.rows v hnot)
    · exact Or.inr (h.body v hbody)
    · right
      rcases hands with ⟨cookie, hcookie, hage, hvalue⟩ | hpending
      · obtain ⟨u, hu, t, htoken | htoken⟩ := h.cookies cookie hcookie hage
        · have hsame := body_of_token (hvalue.symm.trans htoken)
          rw [hbody] at hsame
          rw [Sum.inl.inj hsame]
          exact hu
        · have hsame := body_of_token (hvalue.symm.trans htoken)
          rw [hbody] at hsame
          rw [Sum.inl.inj hsame]
          exact hu
      · exact absurd hpending (h.pending _)

/-- So does one that hands out a pending token: it reaches nobody. -/
theorem of_signup {e : Exchange hasher.Salt} {payload : CreateUserPayload}
    {draw : SignupDraw hasher.Salt} {password otpHash : String} (hrequest : e.request = .signup payload draw)
    (hpassword : hasher.hash draw.salt payload.password = some password)
    (hotp : hasher.hash draw.otpSalt draw.otp = some otpHash) (hleft : e.left = e.found)
    (hreply : e.reply = StatusCode.OK.reply (.pendingToken ((Mint.pending payload.email payload.username
      password otpHash e.now).token lib secret))) :
    e.Regular lib secret ∧ ∀ u, ¬ e.Reaches lib env secret u := by
  constructor
  · refine ⟨?_, ?_⟩
    · intro c hc
      rw [hreply] at hc
      cases hc
    · intro token htoken
      rw [hreply] at htoken
      obtain rfl := Body.pendingToken.inj htoken
      exact ⟨payload, draw, password, otpHash, hrequest, hpassword, hotp, rfl⟩
  · rintro u (⟨a, hauth, -⟩ | ⟨v, -, hrows⟩ | ⟨v, -, hbody⟩ | ⟨m, c, hands, hbody, -⟩)
    · rw [hrequest] at hauth
      cases hauth
    · rw [hleft] at hrows
      exact hrows Iff.rfl
    · rw [hreply] at hbody
      cases hbody
    · rcases hands with ⟨cookie, hcookie, -⟩ | hpending
      · rw [hreply] at hcookie
        cases hcookie
      · rw [hreply] at hpending
        have hsame := body_of_token (Body.pendingToken.inj hpending)
        rw [hbody] at hsame
        cases hsame

/-- The pending token of a verification was mailed together with its code. -/
theorem identifies_of_pending {log : List (Exchange hasher.Salt)}
    (hregular : ∀ g ∈ log, g.Regular lib secret) {e : Exchange hasher.Salt} {m : Mint} {c : OtpClaims}
    {otp : String} {id : Uuid} (hm : m ∈ HandedOut lib secret log) (hbody : m.body = .inr c)
    (hlive : m.Live e.now) (hverify : hasher.verify otp c.otpHash = some true)
    (hrequest : e.request = .verifyOtp (m.token lib secret) otp id) : e.Identifies log id := by
  obtain ⟨g, hg, ⟨cookie, hcookie, hage, hvalue⟩ | hpending⟩ := hm
  · obtain ⟨u, t, htoken | htoken⟩ := (hregular g hg).cookies cookie hcookie hage
    · have hsame := body_of_token (hvalue.symm.trans htoken)
      rw [hbody] at hsame
      cases hsame
    · have hsame := body_of_token (hvalue.symm.trans htoken)
      rw [hbody] at hsame
      cases hsame
  · obtain ⟨payload, draw, password, otpHash, hsignup, -, hotp, htoken⟩ := (hregular g hg).pending _ hpending
    have hsame := body_of_token htoken
    rw [hbody] at hsame
    obtain rfl := Sum.inr.inj hsame
    rw [hasher.verify_hash hotp] at hverify
    refine Or.inr ⟨_, otp, hrequest, g, hg, payload, draw, hsignup, hpending, ?_, ?_⟩
    · simpa using hverify
    · rw [Mint.Live, Mint.exp, hbody] at hlive
      exact hlive

end Exchange

/-! ## The statements leave other rows alone -/

theorem rows_createUser {t t' : Users} {id : Uuid} {payload : CreateUserPayload} {u v : User}
    (h : t.createUser id payload = .ok (u, t')) (hv : v.id ≠ u.id) : v ∈ t'.rows ↔ v ∈ t.rows := by
  obtain ⟨-, -, -, hrows⟩ := Users.createUser_eq_ok_iff.mp h
  rw [hrows, List.mem_append, List.mem_singleton]
  have hne : v ≠ u := fun heq => hv (congrArg User.id heq)
  exact or_iff_left hne

theorem id_createUser {t t' : Users} {id : Uuid} {payload : CreateUserPayload} {u : User}
    (h : t.createUser id payload = .ok (u, t')) : u.id = id := by
  obtain ⟨-, -, rfl, -⟩ := Users.createUser_eq_ok_iff.mp h
  rfl

theorem id_updateUser {t t' : Users} {userId : Uuid} {payload : UpdateUserPayload} {u : User}
    (h : t.updateUser userId payload = .ok (u, t')) : u.id = userId := by
  obtain ⟨row, -, hid, rfl, -, -⟩ := Users.updateUser_eq_ok_iff.mp h
  exact hid

theorem rows_updateUser {t t' : Users} {userId : Uuid} {payload : UpdateUserPayload} {u v : User}
    (h : t.updateUser userId payload = .ok (u, t')) (hv : v.id ≠ userId) :
    v ∈ t'.rows ↔ v ∈ t.rows := by
  rw [Users.mem_rows_of_updateUser h]
  have hne : v ≠ u := fun heq => hv ((congrArg User.id heq).trans (id_updateUser h))
  simp [hne, hv]

theorem rows_deleteUser {t : Users} {userId : Uuid} {v : User} (hv : v.id ≠ userId) :
    v ∈ (t.deleteUser userId).rows ↔ v ∈ t.rows := by
  rw [Users.mem_rows_deleteUser]
  exact and_iff_left hv

/-! ## Every exchange -/

/-- Whom a request can concern, unless it is given a pending token: the user it was admitted as, the user
of a row whose password it knows, or the user it creates with a code. -/
theorem confined_serve (hsecret : env.jwtSecret = some secret) {replica : Option Users}
    {write : DbResult} {users : Users} {r : Request hasher.Salt} {us : Set Uuid}
    (hsignup : ∀ payload draw, r = .signup payload draw →
      (Handlers.requestSignup lib hasher validateEmail env replica payload draw).Refused)
    (hadmitted : ∀ a, authenticate lib env r.cookie = .ok a → a.claims.sub ∈ us)
    (hlogin : ∀ payload table row, r = .login payload → replica = some table → row ∈ table.rows →
      row.email = payload.email → hasher.verify payload.password row.password = some true → row.id ∈ us)
    (hverified : ∀ pendingToken otp id c, r = .verifyOtp pendingToken otp id →
      decodePendingToken lib env pendingToken = .ok c → hasher.verify otp c.otpHash = some true → id ∈ us) :
    Confined lib secret users (serve lib hasher validateEmail env replica write users r) us := by
  cases r with
  | signup payload draw => exact .refused (hsignup payload draw rfl) rfl
  | verifyOtp pendingToken otp id =>
    rw [serve]
    rcases Handlers.verifyOtp_cases write users pendingToken otp id with
      ⟨h, husers⟩ | ⟨secret', c, u, users', hsecret', hdecode, hverify, hcreate, heq⟩
    · exact .refused h husers
    · obtain rfl := Option.some.inj (hsecret.symm.trans hsecret')
      have hid : u.id ∈ us := by
        rw [id_createUser hcreate]
        exact hverified pendingToken otp id c rfl hdecode hverify
      rw [heq]
      refine .written (StatusCode.refused_reply rfl rfl) (.granted hid ?_)
      intro v hv
      exact rows_createUser hcreate fun heq => hv (heq ▸ hid)
  | login payload =>
    rw [serve]
    rcases Handlers.login_cases replica payload with
      h | ⟨secret', table, row, hsecret', hreplica, hrow, hemail, hverify, heq⟩
    · exact .refused h rfl
    · obtain rfl := Option.some.inj (hsecret.symm.trans hsecret')
      rw [heq]
      exact .granted (hlogin payload table row rfl hreplica hrow hemail hverify) fun v _ => Iff.rfl
  | logout cookie =>
    rw [serve]
    refine .protect hsecret fun a hauth => ⟨hadmitted a hauth, fun v _ => Iff.rfl, ?_, ?_, ?_⟩
    · intro v hv
      cases hv
    · intro token htoken
      cases htoken
    · intro c hc hage
      rcases List.mem_pair.mp hc with rfl | rfl
      · cases hage
      · cases hage
  | getUserById cookie path =>
    rw [serve]
    refine .protect hsecret fun a hauth => ⟨hadmitted a hauth, ?_⟩
    rcases Handlers.getUserById_cases replica path a.claims with h | ⟨row, hid, heq⟩
    · exact .refused h rfl
    · rw [heq]
      refine ⟨fun v _ => Iff.rfl, ?_, ?_, ?_⟩
      · intro v hv
        obtain rfl := Body.user.inj hv
        show row.id ∈ us
        rw [hid]
        exact hadmitted a hauth
      · intro token htoken
        cases htoken
      · intro c hc
        cases hc
  | updateUser cookie path payload salt =>
    rw [serve]
    refine .protect hsecret fun a hauth => ⟨hadmitted a hauth, ?_⟩
    have hsub := hadmitted a hauth
    rcases Handlers.updateUser_cases hsecret write users path payload salt a.claims with
      ⟨h, husers⟩ | ⟨hashed, u, users', -, -, hupdate, heq⟩
    · exact .refused h husers
    · rw [heq]
      refine .written (StatusCode.refused_reply rfl rfl) (.granted ?_ ?_)
      · rw [id_updateUser hupdate]
        exact hsub
      · intro v hv
        exact rows_updateUser hupdate fun heq => hv (heq ▸ hsub)
  | deleteUser cookie path =>
    rw [serve]
    refine .protect hsecret fun a hauth => ⟨hadmitted a hauth, ?_⟩
    have hsub := hadmitted a hauth
    rcases Handlers.deleteUser_cases write users path a.claims with ⟨h, husers⟩ | ⟨-, heq⟩
    · exact .refused h husers
    · rw [heq]
      refine .written (StatusCode.refused_reply rfl rfl) ⟨?_, ?_, ?_, ?_⟩
      · intro v hv
        exact rows_deleteUser fun heq => hv (heq ▸ hsub)
      · intro v hv
        cases hv
      · intro token htoken
        cases htoken
      · intro c hc
        cases hc
  | urlService cookie handler =>
    rw [serve]
    refine .protect hsecret fun a hauth => ⟨hadmitted a hauth, fun v _ => Iff.rfl, ?_, ?_, ?_⟩
    · intro v hv
      cases hv
    · intro token htoken
      cases htoken
    · intro c hc
      cases hc

namespace AuthSystem

variable {s : AuthSystem hasher.Salt} {r : Request hasher.Salt} {lag : Option ℕ} {write : DbResult}

/-- The exchange of a request is regular, and reaches those whom it identifies or was admitted as. -/
theorem exchange_spec (hsecret : env.jwtSecret = some secret)
    (hregular : ∀ g ∈ s.log, g.Regular lib secret)
    (hunforged : s.Unforged lib secret (.request r lag write)) :
    (s.exchange lib hasher validateEmail env r lag write).Regular lib secret ∧
      ∀ u, (s.exchange lib hasher validateEmail env r lag write).Reaches lib env secret u →
        (s.exchange lib hasher validateEmail env r lag write).Identifies s.log u ∨
          (s.exchange lib hasher validateEmail env r lag write).AdmittedAs lib env u := by
  have hsecret' : ({ env with now := s.now } : Env).jwtSecret = some secret := hsecret
  by_cases hsignup : ∀ payload draw, r = .signup payload draw → (Handlers.requestSignup lib hasher
      validateEmail { env with now := s.now } (lag.bind fun k => s.tables[k]?) payload draw).Refused
  · have hconfined : Confined lib secret s.users (serve lib hasher validateEmail { env with now := s.now }
        (lag.bind fun k => s.tables[k]?) write s.users r)
        {u | (s.exchange lib hasher validateEmail env r lag write).Identifies s.log u ∨
          (s.exchange lib hasher validateEmail env r lag write).AdmittedAs lib env u} := by
      refine confined_serve hsecret' hsignup ?_ ?_ ?_
      · intro a hauth
        exact Or.inr ⟨a, hauth, rfl⟩
      · intro payload table row hr hreplica hrow hemail hverify
        obtain ⟨k, -, hk⟩ := Option.bind_eq_some_iff.mp hreplica
        exact Or.inl (Or.inl ⟨payload, hr, table, List.mem_of_getElem? hk, row, hrow, rfl, hemail, hverify⟩)
      · intro pendingToken otp id c hr hdecode hverify
        obtain ⟨m, hm, rfl, hbody, hlive⟩ :=
          (decodePendingToken_eq_ok_iff hsecret' (hunforged.2 pendingToken otp id hr)).mp hdecode
        exact Or.inl (Exchange.identifies_of_pending hregular hm hbody hlive hverify hr)
    obtain ⟨hreg, hreach⟩ := Exchange.of_confined hconfined
      (e := s.exchange lib hasher validateEmail env r lag write)
    refine ⟨hreg, ?_⟩
    intro u hu
    rcases hreach u hu with hadmitted | hmem
    · exact Or.inr hadmitted
    · exact hmem
  · push Not at hsignup
    obtain ⟨payload, draw, rfl, hnot⟩ := hsignup
    rcases Handlers.requestSignup_cases (lag.bind fun k => s.tables[k]?) payload draw with
      hrefused | ⟨secret', password, otpHash, hsome, hpassword, hotp, heq⟩
    · exact absurd hrefused hnot
    · obtain rfl := Option.some.inj (hsecret'.symm.trans hsome)
      have hspec : _ ∧ ∀ u, ¬ Exchange.Reaches lib env secret _ u :=
        Exchange.of_signup rfl hpassword hotp rfl heq
          (e := s.exchange lib hasher validateEmail env (.signup payload draw) lag write)
      exact ⟨hspec.1, fun u hu => absurd hu (hspec.2 u)⟩

/-- A request is admitted with tokens that an earlier one was given. -/
theorem exists_of_admittedAs (hsecret : env.jwtSecret = some secret)
    (hunforged : s.Unforged lib secret (.request r lag write)) {u : Uuid}
    (h : (s.exchange lib hasher validateEmail env r lag write).AdmittedAs lib env u) :
    ∃ g ∈ s.log, g.Reaches lib env secret u := by
  obtain ⟨a, hauth, rfl⟩ := h
  obtain ⟨-, cookieStr, -, hcookie⟩ := exists_of_authenticate hauth
  have hgenuine := hunforged.1 cookieStr hcookie
  rw [hcookie] at hauth
  rcases direct_or_refreshed hgenuine (show ({ env with now := s.now } : Env).jwtSecret = _ from hsecret)
    hauth with ⟨t, ⟨g, hg, hands⟩, -⟩ | ⟨-, t, ⟨g, hg, hands⟩, -⟩
  · exact ⟨g, hg, Or.inr (Or.inr (Or.inr ⟨_, _, hands, rfl, rfl⟩))⟩
  · exact ⟨g, hg, Or.inr (Or.inr (Or.inr ⟨_, _, hands, rfl, rfl⟩))⟩

/-! ## Every run -/

variable (lib env secret) in
/-- An exchange may reach a user who it identifies, or whom an earlier one has reached. -/
def Founded (before : List (Exchange hasher.Salt)) (e : Exchange hasher.Salt) : Prop :=
  ∀ u, e.Reaches lib env secret u →
    e.Identifies before u ∨ e.AdmittedAs lib env u ∧ ∃ g ∈ before, g.Reaches lib env secret u

/-- The exchanges of a run are regular and founded. -/
theorem founded_of_run (hsecret : env.jwtSecret = some secret) {now : ℕ}
    {es : List (AuthEvent hasher.Salt)} {t : AuthSystem hasher.Salt}
    (hrun : Run (step lib hasher validateEmail env) (Unforged lib secret) (start hasher now) es t) :
    (∀ g ∈ t.log, g.Regular lib secret) ∧ Each (Founded lib env secret) t.log := by
  have hstep : ∀ (s : AuthSystem hasher.Salt) event s',
      ((∀ g ∈ s.log, g.Regular lib secret) ∧ Each (Founded lib env secret) s.log) →
      s.Unforged lib secret event → step lib hasher validateEmail env s event = some s' →
      (∀ g ∈ s'.log, g.Regular lib secret) ∧ Each (Founded lib env secret) s'.log := by
    rintro s (seconds | ⟨r, lag, write⟩) s' ⟨hregular, heach⟩ hunforged hstep
    · obtain rfl := Option.some.inj hstep
      exact ⟨hregular, heach⟩
    · obtain rfl := Option.some.inj hstep
      have hspec : (s.exchange lib hasher validateEmail env r lag write).Regular lib secret ∧ _ :=
        exchange_spec hsecret hregular hunforged
      refine ⟨List.forall_mem_cons.mpr ⟨hspec.1, hregular⟩, ?_, heach⟩
      intro u hu
      rcases hspec.2 u hu with hidentifies | hadmitted
      · exact Or.inl hidentifies
      · exact Or.inr ⟨hadmitted, exists_of_admittedAs hsecret hunforged hadmitted⟩
  exact hrun.induct hstep ⟨fun g hg => absurd hg List.not_mem_nil, trivial⟩

/-- **Access to an account goes back to a proof of its user.** In every run without forged signatures, a
request that gets at an account is itself a login with a password of its user or a verification with the
mailed code, or it was admitted as that user's, and some earlier request was such a proof. -/
theorem access_goes_back (hsecret : env.jwtSecret = some secret) {now : ℕ}
    {es : List (AuthEvent hasher.Salt)} {t : AuthSystem hasher.Salt}
    (hrun : Run (step lib hasher validateEmail env) (Unforged lib secret) (start hasher now) es t)
    {before : List (Exchange hasher.Salt)} {e : Exchange hasher.Salt} (hlog : e :: before <:+ t.log)
    {u : Uuid} (hreaches : e.Reaches lib env secret u) :
    e.Identifies before u ∨ e.AdmittedAs lib env u ∧
      ∃ g earlier, g :: earlier <:+ before ∧ g.Identifies earlier u := by
  obtain ⟨hfounded, hbefore⟩ := (founded_of_run hsecret hrun).2.of_suffix hlog
  rcases hfounded u hreaches with hidentifies | ⟨hadmitted, g, hg, hgreaches⟩
  · exact Or.inl hidentifies
  · have hrule : Each (fun before e => e.Reaches lib env secret u →
        e.Identifies before u ∨ ∃ g ∈ before, g.Reaches lib env secret u) before :=
      hbefore.mono fun before e h hu => (h u hu).imp_right And.right
    exact Or.inr ⟨hadmitted, hrule.exists_root hg hgreaches⟩

/-! ### A user who signs up and leaves -/

/-- Her signup is answered with a pending token. -/
theorem requestSignup_alice :
    Handlers.requestSignup plainToken plainTextHasher Accounts.containsAt Accounts.plainEnv
        (some Users.empty) Accounts.alice Accounts.aliceDraw =
      StatusCode.OK.reply (.pendingToken (Accounts.aliceMint.token plainToken "k")) :=
  rfl

/-- Her verification creates the user. -/
theorem verifyOtp_alice :
    Handlers.verifyOtp plainToken plainTextHasher Accounts.plainEnv .ok Users.empty
        (Accounts.aliceMint.token plainToken "k") Accounts.aliceDraw.otp 7 =
      (granted plainToken Accounts.plainEnv "k" .CREATED (Accounts.alice.user 7),
        Accounts.registered.users) := by
  have hsecret : Accounts.plainEnv.jwtSecret = some "k" := rfl
  have hdecode : decodePendingToken plainToken Accounts.plainEnv
      (Accounts.aliceMint.token plainToken "k") = .ok _ :=
    (decodePendingToken_eq_ok_iff hsecret (genuine_token (Set.mem_singleton _))).mpr
      ⟨Accounts.aliceMint, rfl, rfl, rfl, by decide⟩
  have hcreate : Users.empty.createUser 7
      { username := "alice", email := "alice@example.com", password := "secret" } =
        .ok (Accounts.alice.user 7, Accounts.registered.users) :=
    Users.createUser_eq_ok_iff.mpr ⟨fun r hr => absurd hr List.not_mem_nil,
      fun r hr => absurd hr List.not_mem_nil, rfl, rfl⟩
  have hverify : plainTextHasher.verify Accounts.aliceDraw.otp Accounts.aliceDraw.otp = some true :=
    congrArg some (decide_eq_true rfl)
  have hauth : Services.authUserResponse plainToken Accounts.plainEnv (Accounts.alice.user 7) = .ok _ :=
    Services.authUserResponse_eq hsecret _
  simp only [Handlers.verifyOtp, Accounts.validateOtp_aliceDraw, if_true, Services.verifyOtp, hdecode,
    hverify, hcreate, hauth]
  rw [intoReply_eq hsecret hauth]
  rfl

theorem reply_verifyOtp (s : AuthSystem hasher.Salt) (pendingToken otp : String) (id : Uuid)
    (lag : Option ℕ) (write : DbResult) :
    (s.exchange lib hasher validateEmail env (.verifyOtp pendingToken otp id) lag write).reply =
      (Handlers.verifyOtp lib hasher { env with now := s.now } write s.users pendingToken otp id).1 :=
  rfl

/-- Her requests: the signup, the verification, and the deletion with her cookies. -/
def aliceEvents : List (AuthEvent plainTextHasher.Salt) :=
  [.request (.signup Accounts.alice Accounts.aliceDraw) (some 0) .ok,
    .request (.verifyOtp (Accounts.aliceMint.token plainToken "k") Accounts.aliceDraw.otp 7) none .ok,
    .request (.deleteUser ((sessionJar plainToken "k" 7 0).header 0) (some 7)) none .ok]

/-- The cookies of a user's verification are handed out. -/
theorem mint_mem_handedOut {Salt : Type} {e : Exchange Salt} {log : List (Exchange Salt)} (he : e ∈ log)
    {env : Env} {status : StatusCode} {u : User} (hreply : e.reply = granted lib env secret status u) :
    Mint.access u.id env.now ∈ HandedOut lib secret log ∧
      Mint.refresh u.id env.now ∈ HandedOut lib secret log := by
  constructor
  · refine ⟨e, he, Or.inl ⟨accessCookie env ((Mint.access u.id env.now).token lib secret), ?_, ?_, rfl⟩⟩
    · rw [hreply]
      exact List.mem_cons_self
    · exact (show 0 < accessTokenTtlSeconds by decide)
  · refine ⟨e, he, Or.inl ⟨refreshCookie env ((Mint.refresh u.id env.now).token lib secret), ?_, ?_, rfl⟩⟩
    · rw [hreply]
      exact List.mem_cons_of_mem _ List.mem_cons_self
    · exact (show 0 < refreshTokenTtlSeconds by decide)

/-- She is admitted with the cookies that her verification was answered with. -/
theorem access_goes_back_of_deletion : ∃ t e before,
    Run (step plainToken plainTextHasher Accounts.containsAt Accounts.plainEnv) (Unforged plainToken "k")
      (start plainTextHasher 0) aliceEvents t ∧ e :: before <:+ t.log ∧
      e.AdmittedAs plainToken Accounts.plainEnv 7 ∧
      (Exchange.Identifies before e 7 ∨ e.AdmittedAs plainToken Accounts.plainEnv 7 ∧
        ∃ g earlier, g :: earlier <:+ before ∧ Exchange.Identifies earlier g 7) := by
  let exchange := fun s : AuthSystem plainTextHasher.Salt =>
    s.exchange plainToken plainTextHasher Accounts.containsAt Accounts.plainEnv
  let e₁ := exchange (start plainTextHasher 0) (.signup Accounts.alice Accounts.aliceDraw) (some 0) .ok
  let e₂ := exchange { now := 0, users := Users.empty, log := [e₁] }
    (.verifyOtp (Accounts.aliceMint.token plainToken "k") Accounts.aliceDraw.otp 7) none .ok
  let e₃ := exchange { now := 0, users := e₂.left, log := [e₂, e₁] }
    (.deleteUser ((sessionJar plainToken "k" 7 0).header 0) (some 7)) none .ok
  have hmint : Accounts.aliceMint ∈ HandedOut plainToken "k" [e₁] :=
    ⟨e₁, List.mem_singleton_self _, Or.inr (congrArg Reply.body requestSignup_alice)⟩
  have hreply : e₂.reply = granted plainToken Accounts.plainEnv "k" .CREATED (Accounts.alice.user 7) :=
    (reply_verifyOtp _ _ _ _ _ _).trans (congrArg Prod.fst verifyOtp_alice)
  have hmints := mint_mem_handedOut (show e₂ ∈ [e₂, e₁] from List.mem_cons_self) hreply
  have htoken := isToken_freshCookies plainToken "k" 7 0
  have hcookie : (sessionJar plainToken "k" 7 0).header 0 = some (cookieHeader _) :=
    header_sessionJar_of_lt (show 0 < 0 + accessTokenTtlSeconds by decide)
  have hadmitted : e₃.AdmittedAs plainToken Accounts.plainEnv 7 := by
    have hsecret : Accounts.plainEnv.jwtSecret = some "k" := rfl
    exact ⟨_, (authenticate_sessionJar hsecret 7 0).trans (if_pos (by decide)), rfl⟩
  have hunforged₁ : (start plainTextHasher 0).Unforged plainToken "k"
      (.request (.signup Accounts.alice Accounts.aliceDraw) (some 0) .ok) := by
    refine ⟨?_, ?_⟩
    · intro cookieStr h
      cases h
    · intro pendingToken otp id h
      cases h
  have hunforged₂ : AuthSystem.Unforged plainToken "k" { now := 0, users := Users.empty, log := [e₁] }
      (.request (.verifyOtp (Accounts.aliceMint.token plainToken "k") Accounts.aliceDraw.otp 7) none .ok) := by
    refine ⟨?_, ?_⟩
    · intro cookieStr h
      cases h
    · intro pendingToken otp id h
      obtain ⟨rfl, rfl, rfl⟩ := Request.verifyOtp.inj h
      exact genuine_token hmint
  have hunforged₃ : AuthSystem.Unforged plainToken "k" { now := 0, users := e₂.left, log := [e₂, e₁] }
      (.request (.deleteUser ((sessionJar plainToken "k" 7 0).header 0) (some 7)) none .ok) := by
    refine ⟨?_, ?_⟩
    · intro cookieStr h name hname token hfirst
      have hparse := parseCookie_eq_some_iff.mpr hfirst
      obtain rfl := Option.some.inj (hcookie.symm.trans h)
      rw [parseCookie_cookieHeader htoken] at hparse
      rcases List.mem_pair.mp hname with rfl | rfl
      · obtain rfl : (Mint.access 7 0).token plainToken "k" = token := Option.some.inj hparse
        exact genuine_token hmints.1
      · obtain rfl : (Mint.refresh 7 0).token plainToken "k" = token := Option.some.inj hparse
        exact genuine_token hmints.2
    · intro pendingToken otp id h
      cases h
  have hrun : Run (step plainToken plainTextHasher Accounts.containsAt Accounts.plainEnv)
      (Unforged plainToken "k") (start plainTextHasher 0) aliceEvents
      { now := 0, users := e₃.left, log := [e₃, e₂, e₁] } :=
    .cons hunforged₁ rfl (.cons hunforged₂ rfl (.single hunforged₃ rfl))
  exact ⟨_, e₃, [e₂, e₁], hrun, List.suffix_rfl, hadmitted,
    access_goes_back rfl hrun List.suffix_rfl (Or.inl hadmitted)⟩

end AuthSystem

end Bittuly.Auth
