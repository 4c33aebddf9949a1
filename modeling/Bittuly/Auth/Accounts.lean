import Bittuly.Auth.Services
import Bittuly.Auth.PlainToken
import Bittuly.Lib.Run

/-!
# Accounts over a run of auth-service

References: `services/auth-service/src/handlers.rs`, `services/auth-service/src/services.rs`.

Every call has one statement, so calls are steps. Pending signups live in their tokens alone; the log of
the successful calls is there for the statements. A call that reads the replica carries what it finds
there, and a client may present any text as a pending token, except that nobody forges signatures.
-/

namespace Bittuly.Auth

open Runs (Run)

/-- A successful call that the statements speak about. -/
inductive Entry
  | signedUp (payload : CreateUserPayload) (otp token : String)
  | verified (token otp : String) (userId : Uuid)
  | updated (userId : Uuid) (payload : UpdateUserPayload)
deriving DecidableEq, Repr

/-- The service at one moment, with the latest successful call first. -/
structure Accounts where
  users : Users
  now : ℕ
  log : List Entry

/-- What happens to it. -/
inductive Call (Salt : Type)
  | tick (seconds : ℕ)
  | requestSignup (replica : Users) (payload : CreateUserPayload) (draw : SignupDraw Salt)
  | verifyOtp (token otp : String) (id : Uuid)
  | login (replica : Users) (email password : String)
  | updateUser (userId : Uuid) (payload : UpdateUserPayload) (salt : Salt)
  | deleteUser (userId : Uuid)

namespace Accounts

variable (lib : JsonWebToken) (hasher : PasswordHasher) (validateEmail : String → Bool) (env : Env)

/-- The surroundings at this moment. -/
def surroundings (s : Accounts) : Env :=
  { env with now := s.now }

/-- The handlers; an invalid payload is answered 422. -/
def step (s : Accounts) : Call hasher.Salt → Option Accounts
  | .tick seconds => some { s with now := s.now + seconds }
  | .requestSignup replica payload draw =>
    if payload.validate validateEmail then
      match Services.requestSignup lib hasher (s.surroundings env) replica payload draw with
      | .ok token => some { s with log := .signedUp payload draw.otp token :: s.log }
      | .error _ => some s
    else some s
  | .verifyOtp token otp id =>
    if validateOtp otp then
      match Services.verifyOtp lib hasher (s.surroundings env) s.users token otp id with
      | (.ok r, users) => some { s with users, log := .verified token otp r.user.id :: s.log }
      | (.error _, users) => some { s with users }
    else some s
  | .login _ _ _ => some s
  | .updateUser userId payload salt =>
    if payload.validate validateEmail then
      match Services.updateUser lib hasher (s.surroundings env) s.users userId payload salt with
      | (.ok _, users) => some { s with users, log := .updated userId payload :: s.log }
      | (.error _, users) => some { s with users }
    else some s
  | .deleteUser userId => some { s with users := s.users.deleteUser userId }

/-- A fresh installation. -/
def start (now : ℕ) : Accounts where
  users := Users.empty
  now := now
  log := []

/-- The tokens that are around: any access and refresh tokens, and the pending tokens handed out. -/
def Minted (secret : String) (s : Accounts) : Set Mint :=
  {m | m.body.isLeft ∨ ∃ payload otp, .signedUp payload otp (m.token lib secret) ∈ s.log}

/-- Nobody forges a pending token. -/
def Unforged (secret : String) (s : Accounts) : Call hasher.Salt → Prop
  | .verifyOtp token _ _ => Genuine lib secret (s.Minted lib secret) token
  | _ => True

/-! ## What a step does -/

variable {lib hasher validateEmail env} {secret : String}

variable (lib validateEmail secret) in
/-- The steps of the service: a call that writes nothing or fails, and the calls that succeed. -/
inductive Change (s : Accounts) : Call hasher.Salt → Accounts → Prop
  | quiet {a : Call hasher.Salt} {now : ℕ} (hnow : s.now ≤ now) : Change s a { s with now }
  | signedUp {replica : Users} {payload : CreateUserPayload} {draw : SignupDraw hasher.Salt}
      {password otpHash : String} (hvalid : payload.validate validateEmail = true)
      (hfree : replica.getUserByEmail payload.email = none)
      (hpassword : hasher.hash draw.salt payload.password = some password)
      (hotp : hasher.hash draw.otpSalt draw.otp = some otpHash) :
      Change s (.requestSignup replica payload draw)
        { s with
          log := .signedUp payload draw.otp ((Mint.pending payload.email payload.username password
            otpHash s.now).token lib secret) :: s.log }
  | verified {m : Mint} {c : OtpClaims} {otp : String} {id : Uuid} {u : User} {users : Users}
      (hvalid : validateOtp otp = true) (hm : m ∈ s.Minted lib secret) (hbody : m.body = .inr c)
      (hlive : m.Live s.now)
      (hverify : hasher.verify otp c.otpHash = some true)
      (hcreate : s.users.createUser id
        { username := c.username, email := c.email, password := c.passwordHash } = .ok (u, users)) :
      Change s (.verifyOtp (m.token lib secret) otp id)
        { s with users, log := .verified (m.token lib secret) otp id :: s.log }
  | updated {userId : Uuid} {payload hashed : UpdateUserPayload} {salt : hasher.Salt} {u : User}
      {users : Users} (hvalid : payload.validate validateEmail = true)
      (hhash : Services.hashPassword hasher salt payload = some hashed)
      (hupdate : s.users.updateUser userId hashed = .ok (u, users)) :
      Change s (.updateUser userId payload salt)
        { s with users, log := .updated userId payload :: s.log }
  | deleted (userId : Uuid) : Change s (.deleteUser userId) { s with users := s.users.deleteUser userId }

/-- Nothing else happens. -/
theorem change_of_step (hsecret : env.jwtSecret = some secret) {s s' : Accounts}
    {a : Call hasher.Salt} (hunforged : s.Unforged lib hasher secret a)
    (h : step lib hasher validateEmail env s a = some s') : Change lib validateEmail secret s a s' := by
  have hsecret' : (s.surroundings env).jwtSecret = some secret := hsecret
  have hsame : Change lib validateEmail secret s a s := .quiet le_rfl
  cases a with
  | tick seconds =>
    obtain rfl := Option.some.inj h
    exact .quiet (Nat.le_add_right _ _)
  | requestSignup replica payload draw =>
    simp only [step] at h
    split at h
    · rename_i hvalid
      split at h
      · rename_i token hok
        obtain ⟨hfree, -, password, otpHash, hpassword, hotp, rfl⟩ :=
          (Services.requestSignup_eq_ok_iff hsecret').mp hok
        obtain rfl := Option.some.inj h
        exact .signedUp hvalid hfree hpassword hotp
      · obtain rfl := Option.some.inj h
        exact hsame
    · obtain rfl := Option.some.inj h
      exact hsame
  | verifyOtp token otp id =>
    simp only [step] at h
    split at h
    · rename_i hvalid
      split at h
      · rename_i r users hok
        obtain ⟨m, hm, c, rfl, hbody, hlive, hverify, u, hcreate⟩ :=
          (Services.verifyOtp_eq_ok_iff hsecret' hunforged).mp ⟨r, hok⟩
        have hid : r.user.id = id := Services.id_of_verifyOtp hsecret' hok
        obtain rfl := Option.some.inj h
        rw [hid]
        exact .verified hvalid hm hbody hlive hverify hcreate
      · rename_i e users herror
        obtain rfl := Services.verifyOtp_error hsecret' herror
        obtain rfl := Option.some.inj h
        exact hsame
    · obtain rfl := Option.some.inj h
      exact hsame
  | login replica email password =>
    obtain rfl := Option.some.inj h
    exact hsame
  | updateUser userId payload salt =>
    simp only [step] at h
    split at h
    · rename_i hvalid
      split at h
      · rename_i r users hok
        obtain ⟨hashed, u, hhash, hupdate⟩ := (Services.updateUser_eq_ok_iff hsecret').mp ⟨r, hok⟩
        obtain rfl := Option.some.inj h
        exact .updated hvalid hhash hupdate
      · rename_i e users herror
        obtain rfl := Services.updateUser_error hsecret' herror
        obtain rfl := Option.some.inj h
        exact hsame
    · obtain rfl := Option.some.inj h
      exact hsame
  | deleteUser userId =>
    obtain rfl := Option.some.inj h
    exact .deleted userId

/-- The calls that succeed. -/
theorem step_signedUp (hsecret : env.jwtSecret = some secret) {s : Accounts} {replica : Users}
    {payload : CreateUserPayload} {draw : SignupDraw hasher.Salt} {password otpHash : String}
    (hvalid : payload.validate validateEmail = true)
    (hfree : replica.getUserByEmail payload.email = none) (hsent : draw.sent = true)
    (hpassword : hasher.hash draw.salt payload.password = some password)
    (hotp : hasher.hash draw.otpSalt draw.otp = some otpHash) :
    step lib hasher validateEmail env s (.requestSignup replica payload draw) =
      some { s with
        log := .signedUp payload draw.otp ((Mint.pending payload.email payload.username password
          otpHash s.now).token lib secret) :: s.log } := by
  have hsecret' : (s.surroundings env).jwtSecret = some secret := hsecret
  have hok : Services.requestSignup lib hasher (s.surroundings env) replica payload draw = .ok _ :=
    (Services.requestSignup_eq_ok_iff hsecret').mpr ⟨hfree, hsent, _, _, hpassword, hotp, rfl⟩
  simp only [step, hvalid, if_true, hok]
  rfl

theorem step_verified (hsecret : env.jwtSecret = some secret) {s : Accounts} {m : Mint}
    {c : OtpClaims} {otp : String} {id : Uuid} {u : User} {users : Users}
    (hvalid : validateOtp otp = true) (hbody : m.body = .inr c) (hlive : m.Live s.now)
    (hverify : hasher.verify otp c.otpHash = some true)
    (hcreate : s.users.createUser id
      { username := c.username, email := c.email, password := c.passwordHash } = .ok (u, users)) :
    step lib hasher validateEmail env s (.verifyOtp (m.token lib secret) otp id) =
      some { s with users, log := .verified (m.token lib secret) otp id :: s.log } := by
  have hsecret' : (s.surroundings env).jwtSecret = some secret := hsecret
  have hgenuine : Genuine lib secret {m} (m.token lib secret) := genuine_token (Set.mem_singleton m)
  obtain ⟨r, hok⟩ := (Services.verifyOtp_eq_ok_iff hsecret' hgenuine).mpr
    ⟨m, rfl, c, rfl, hbody, hlive, hverify, u, hcreate⟩
  simp only [step, hvalid, if_true, hok, Services.id_of_verifyOtp hsecret' hok]

theorem step_updated (hsecret : env.jwtSecret = some secret) {s : Accounts} {userId : Uuid}
    {payload hashed : UpdateUserPayload} {salt : hasher.Salt} {u : User} {users : Users}
    (hvalid : payload.validate validateEmail = true)
    (hhash : Services.hashPassword hasher salt payload = some hashed)
    (hupdate : s.users.updateUser userId hashed = .ok (u, users)) :
    step lib hasher validateEmail env s (.updateUser userId payload salt) =
      some { s with users, log := .updated userId payload :: s.log } := by
  have hsecret' : (s.surroundings env).jwtSecret = some secret := hsecret
  have hok : ∃ r, Services.updateUser lib hasher (s.surroundings env) s.users userId payload salt =
      (.ok r, users) := (Services.updateUser_eq_ok_iff hsecret').mpr ⟨hashed, u, hhash, hupdate⟩
  obtain ⟨r, hok⟩ := hok
  simp only [step, hvalid, if_true, hok]

/-! ## The signups -/

variable (lib hasher secret) in
/-- Each pending token carries the hashes of its password and of its code. -/
def Signups (s : Accounts) : Prop :=
  ∀ payload otp token, .signedUp payload otp token ∈ s.log → ∃ salt otpSalt password otpHash now,
    hasher.hash salt payload.password = some password ∧ hasher.hash otpSalt otp = some otpHash ∧
      token = (Mint.pending payload.email payload.username password otpHash now).token lib secret

theorem signups_step {s s' : Accounts} {a : Call hasher.Salt} (h : Change lib validateEmail secret s a s')
    (hs : s.Signups lib hasher secret) : s'.Signups lib hasher secret := by
  intro payload otp token hmem
  cases h with
  | quiet hnow => exact hs payload otp token hmem
  | signedUp hvalid hfree hpassword hotp =>
    rcases List.mem_cons.mp hmem with h | h
    · obtain ⟨rfl, rfl, rfl⟩ := Entry.signedUp.inj h
      exact ⟨_, _, _, _, _, hpassword, hotp, rfl⟩
    · exact hs payload otp token h
  | verified hvalid hm hbody hlive hverify hcreate =>
    rcases List.mem_cons.mp hmem with h | h
    · cases h
    · exact hs payload otp token h
  | updated hvalid hhash hupdate =>
    rcases List.mem_cons.mp hmem with h | h
    · cases h
    · exact hs payload otp token h
  | deleted userId => exact hs payload otp token hmem

/-- A pending token was handed out by a signup, and is of every signup with its text. -/
theorem exists_signedUp {s : Accounts} {m : Mint} {c : OtpClaims} (hm : m ∈ s.Minted lib secret)
    (hbody : m.body = .inr c) :
    ∃ payload otp, .signedUp payload otp (m.token lib secret) ∈ s.log := by
  rcases hm with hleft | h
  · rw [hbody] at hleft
    cases hleft
  · exact h

theorem claims_of_signedUp {s : Accounts} (hs : s.Signups lib hasher secret) {m : Mint}
    {c : OtpClaims} (hbody : m.body = .inr c) {payload : CreateUserPayload} {otp : String}
    (hmem : .signedUp payload otp (m.token lib secret) ∈ s.log) :
    ∃ salt otpSalt, c.email = payload.email ∧ c.username = payload.username ∧
      hasher.hash salt payload.password = some c.passwordHash ∧
        hasher.hash otpSalt otp = some c.otpHash := by
  obtain ⟨salt, otpSalt, password, otpHash, now, hpassword, hotp, htoken⟩ := hs _ _ _ hmem
  have hclaims : c.toJson = OtpClaims.toJson
      { tokenType := pendingTokenType, email := payload.email, username := payload.username,
        passwordHash := password, otpHash, exp := now + pendingTokenTtlSeconds } := by
    have hpayload := payload_eq_of_token htoken
    rwa [Mint.payload, hbody, Sum.elim_inr] at hpayload
  have heq := congrArg OtpClaims.ofJson hclaims
  rw [OtpClaims.ofJson_toJson, OtpClaims.ofJson_toJson] at heq
  obtain rfl := Option.some.inj heq
  exact ⟨salt, otpSalt, rfl, rfl, hpassword, hotp⟩

/-! ## A first user -/

/-- A plain check of emails. -/
def containsAt (email : String) : Bool :=
  email.toList.contains '@'

def plainEnv : Env where
  jwtSecret := some "k"
  now := 0
  debugAssertions := true

def alice : CreateUserPayload where
  username := "alice"
  email := "alice@example.com"
  password := "secret"

def aliceDraw : SignupDraw plainTextHasher.Salt where
  salt := ()
  otpSalt := ()
  code := 0
  sent := true

/-- Her pending token. -/
def aliceMint : Mint :=
  .pending "alice@example.com" "alice" "secret" aliceDraw.otp 0

/-- The service once Alice has signed up as user 7. -/
def registered : Accounts where
  users :=
    { rows := [alice.user 7], id_nodup := List.nodup_singleton _, email_nodup := List.nodup_singleton _ }
  now := 0
  log := [.verified (aliceMint.token plainToken "k") aliceDraw.otp 7,
    .signedUp alice aliceDraw.otp (aliceMint.token plainToken "k")]

theorem validateOtp_aliceDraw : validateOtp aliceDraw.otp = true := by
  decide

theorem run_registered :
    Run (step plainToken plainTextHasher containsAt plainEnv) (Unforged plainToken plainTextHasher "k")
      (start 0) [.requestSignup Users.empty alice aliceDraw,
        .verifyOtp (aliceMint.token plainToken "k") aliceDraw.otp 7] registered := by
  have hsecret : plainEnv.jwtSecret = some "k" := rfl
  refine .cons trivial (step_signedUp hsecret (by decide) rfl rfl rfl rfl) (.single ?_
    (step_verified (m := aliceMint) (u := alice.user 7) hsecret validateOtp_aliceDraw rfl (by decide) ?_ ?_))
  · exact genuine_token (Or.inr ⟨alice, aliceDraw.otp, List.mem_cons_self⟩)
  · exact congrArg some (decide_eq_true rfl)
  · exact Users.createUser_eq_ok_iff.mpr ⟨fun r hr => absurd hr List.not_mem_nil,
      fun r hr => absurd hr List.not_mem_nil, rfl, rfl⟩

end Accounts

end Bittuly.Auth
