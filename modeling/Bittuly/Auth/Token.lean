import Bittuly.Basic
import Mathlib.Data.String.Basic

/-!
# Tokens

Reference: `libs/shared/src/jwt.rs` (the two claim types, `create_token` and its callers,
`decode_pending_token`).

Access, refresh and pending tokens are signed with one secret and one algorithm; what tells them apart
is the shape of the payload and `token_type`. `JsonWebToken` is what the code uses of the `jsonwebtoken`
crate, and `decode` follows its order of checks: signature, then shape, then `exp`. `Mint` lists the
tokens that the services create.
-/

namespace Bittuly

namespace Uuid

/-- `Uuid::to_string`. -/
def text (u : Uuid) : String :=
  String.ofList (u.hyphenated.map fun b => Char.ofNat b.toNat)

/-- `Uuid::parse_str`, on the texts that `text` writes. -/
def parseStr (s : String) : Option Uuid :=
  let u := digits (s.toList.map fun c => UInt8.ofNat c.toNat)
  if u.text = s then some u else none

@[simp] theorem parseStr_text (u : Uuid) : parseStr u.text = some u := by
  have hbyte : ∀ b : UInt8, UInt8.ofNat (Char.ofNat b.toNat).toNat = b := by
    intro b
    have hvalid : b.toNat.isValidChar := Or.inl (lt_trans b.toNat_lt (by norm_num))
    have hchar : (Char.ofNat b.toNat).toNat = b.toNat := by
      rw [Char.ofNat, dif_pos hvalid]
      rfl
    rw [hchar, UInt8.ofNat_toNat]
  have hbytes : (u.text.toList.map fun c => UInt8.ofNat c.toNat) = u.hyphenated := by
    rw [text, String.toList_ofList, List.map_map]
    exact (List.map_congr_left fun b _ => hbyte b).trans (List.map_id _)
  rw [parseStr, hbytes, digits_hyphenated]
  exact if_pos rfl

end Uuid

namespace Auth

/-! ## Payloads -/

/-- The JSON values that payloads carry. -/
inductive JsonValue
  | str (s : String)
  | num (n : ℕ)
deriving DecidableEq, Repr

/-- A JSON object, its members in order. -/
abbrev JsonObject := List (String × JsonValue)

/-- A string member. -/
def JsonObject.str (o : JsonObject) (name : String) : Option String :=
  match o.lookup name with
  | some (.str s) => some s
  | _ => none

/-- A number member. -/
def JsonObject.num (o : JsonObject) (name : String) : Option ℕ :=
  match o.lookup name with
  | some (.num n) => some n
  | _ => none

/-- `Claims`: the payload of access and refresh tokens. -/
structure Claims where
  sub : Uuid
  exp : ℕ
  tokenType : String
deriving DecidableEq, Repr

/-- `OtpClaims`: the payload of pending tokens. -/
structure OtpClaims where
  tokenType : String
  email : String
  username : String
  passwordHash : String
  otpHash : String
  exp : ℕ
deriving DecidableEq, Repr

/-- `Serialize`. -/
def Claims.toJson (c : Claims) : JsonObject :=
  [("sub", .str c.sub.text), ("exp", .num c.exp), ("token_type", .str c.tokenType)]

/-- `Deserialize`: every field has to be there, other members are ignored. -/
def Claims.ofJson (o : JsonObject) : Option Claims := do
  let sub ← (o.str "sub").bind Uuid.parseStr
  let exp ← o.num "exp"
  let tokenType ← o.str "token_type"
  some { sub, exp, tokenType }

/-- `Serialize`. -/
def OtpClaims.toJson (c : OtpClaims) : JsonObject :=
  [("token_type", .str c.tokenType), ("email", .str c.email), ("username", .str c.username),
    ("password_hash", .str c.passwordHash), ("otp_hash", .str c.otpHash), ("exp", .num c.exp)]

/-- `Deserialize`. -/
def OtpClaims.ofJson (o : JsonObject) : Option OtpClaims := do
  let tokenType ← o.str "token_type"
  let email ← o.str "email"
  let username ← o.str "username"
  let passwordHash ← o.str "password_hash"
  let otpHash ← o.str "otp_hash"
  let exp ← o.num "exp"
  some { tokenType, email, username, passwordHash, otpHash, exp }

@[simp] theorem Claims.ofJson_toJson (c : Claims) : Claims.ofJson c.toJson = some c := by
  simp [Claims.ofJson, Claims.toJson, JsonObject.str, JsonObject.num, List.lookup_cons]

@[simp] theorem OtpClaims.ofJson_toJson (c : OtpClaims) : OtpClaims.ofJson c.toJson = some c := by
  simp [OtpClaims.ofJson, OtpClaims.toJson, JsonObject.str, JsonObject.num, List.lookup_cons]

/-- A pending payload has no `sub`. -/
@[simp] theorem Claims.ofJson_otp (c : OtpClaims) : Claims.ofJson c.toJson = none := by
  simp [Claims.ofJson, OtpClaims.toJson, JsonObject.str, List.lookup_cons]

/-- An access or refresh payload has no `email`. -/
@[simp] theorem OtpClaims.ofJson_claims (c : Claims) : OtpClaims.ofJson c.toJson = none := by
  simp [OtpClaims.ofJson, Claims.toJson, JsonObject.str, List.lookup_cons]

@[simp] theorem Claims.num_exp (c : Claims) : c.toJson.num "exp" = some c.exp := by
  simp [Claims.toJson, JsonObject.num, List.lookup_cons]

@[simp] theorem OtpClaims.num_exp (c : OtpClaims) : c.toJson.num "exp" = some c.exp := by
  simp [OtpClaims.toJson, JsonObject.num, List.lookup_cons]

/-! ## Creating tokens -/

def accessTokenType : String := "access"

def refreshTokenType : String := "refresh"

def pendingTokenType : String := "pending"

def accessTokenTtlSeconds : ℕ := 60 * 15

def refreshTokenTtlSeconds : ℕ := 60 * 60 * 24 * 30

def pendingTokenTtlSeconds : ℕ := 60 * 10

/-- `Validation::leeway`, in seconds. -/
def leeway : ℕ := 60

/-- The characters of a token: base64url and dots. -/
def tokenChar (c : Char) : Bool :=
  c.isAlphanum || c = '-' || c = '_' || c = '.'

/-- What the code uses of `jsonwebtoken`: `encode` with the default header and a secret, and the
signature check of `decode`, which hands on the payload. -/
structure JsonWebToken where
  encode : String → JsonObject → String
  verify : String → String → Option JsonObject
  verify_encode : ∀ secret payload, verify secret (encode secret payload) = some payload
  encode_chars : ∀ secret payload, ∀ c ∈ (encode secret payload).toList, tokenChar c = true

/-- What a service reads from its surroundings: `JWT_SECRET`, the clock in whole seconds and
`cfg(debug_assertions)`. -/
structure Env where
  jwtSecret : Option String
  now : ℕ
  debugAssertions : Bool
deriving DecidableEq, Repr

variable (lib : JsonWebToken)

/-- `create_token`; `none` when the secret is not set. -/
def createToken (env : Env) (userId : Uuid) (tokenType : String) (ttlSeconds : ℕ) : Option String :=
  env.jwtSecret.map fun secret =>
    lib.encode secret (Claims.toJson { sub := userId, exp := env.now + ttlSeconds, tokenType })

def createAccessToken (env : Env) (userId : Uuid) : Option String :=
  createToken lib env userId accessTokenType accessTokenTtlSeconds

def createRefreshToken (env : Env) (userId : Uuid) : Option String :=
  createToken lib env userId refreshTokenType refreshTokenTtlSeconds

def createPendingToken (env : Env) (email username passwordHash otpHash : String) : Option String :=
  env.jwtSecret.map fun secret =>
    lib.encode secret (OtpClaims.toJson
      { tokenType := pendingTokenType, email, username, passwordHash, otpHash,
        exp := env.now + pendingTokenTtlSeconds })

/-- A token that one of the three functions has created, with the time it was created at. -/
inductive Mint
  | access (userId : Uuid) (now : ℕ)
  | refresh (userId : Uuid) (now : ℕ)
  | pending (email username passwordHash otpHash : String) (now : ℕ)
deriving DecidableEq, Repr

namespace Mint

/-- The claims it was created with. -/
def body : Mint → Claims ⊕ OtpClaims
  | access userId now =>
    .inl { sub := userId, exp := now + accessTokenTtlSeconds, tokenType := accessTokenType }
  | refresh userId now =>
    .inl { sub := userId, exp := now + refreshTokenTtlSeconds, tokenType := refreshTokenType }
  | pending email username passwordHash otpHash now =>
    .inr { tokenType := pendingTokenType, email, username, passwordHash, otpHash,
           exp := now + pendingTokenTtlSeconds }

/-- The payload that is signed. -/
def payload (m : Mint) : JsonObject :=
  m.body.elim Claims.toJson OtpClaims.toJson

/-- The end of its life. -/
def exp (m : Mint) : ℕ :=
  m.body.elim Claims.exp OtpClaims.exp

/-- The text that the service hands out. -/
def token (secret : String) (m : Mint) : String :=
  lib.encode secret m.payload

/-- Not expired, as `decode` sees it: `exp` is compared with a leeway. -/
def Live (m : Mint) (now : ℕ) : Prop :=
  now ≤ m.exp + leeway

instance (m : Mint) (now : ℕ) : Decidable (m.Live now) :=
  inferInstanceAs (Decidable (_ ≤ _))

end Mint

/-- Nobody forged this text: if its signature is good, it is one of these tokens. -/
def Genuine (secret : String) (minted : Set Mint) (token : String) : Prop :=
  ∀ payload, lib.verify secret token = some payload →
    ∃ m ∈ minted, token = m.token lib secret ∧ payload = m.payload

variable {lib} {env : Env} {secret : String}

theorem createAccessToken_eq (hsecret : env.jwtSecret = some secret) (userId : Uuid) :
    createAccessToken lib env userId = some ((Mint.access userId env.now).token lib secret) := by
  rw [createAccessToken, createToken, hsecret]
  rfl

theorem createRefreshToken_eq (hsecret : env.jwtSecret = some secret) (userId : Uuid) :
    createRefreshToken lib env userId = some ((Mint.refresh userId env.now).token lib secret) := by
  rw [createRefreshToken, createToken, hsecret]
  rfl

theorem createPendingToken_eq (hsecret : env.jwtSecret = some secret)
    (email username passwordHash otpHash : String) :
    createPendingToken lib env email username passwordHash otpHash =
      some ((Mint.pending email username passwordHash otpHash env.now).token lib secret) := by
  rw [createPendingToken, hsecret]
  rfl

/-! ## Decoding -/

/-- `ErrorKind`, as far as `decode` reports it: a text that is no token or has another signature, a
payload of another shape, a payload without `exp`, and a token whose time is over. -/
inductive ErrorKind
  | InvalidSignature
  | Json
  | MissingRequiredClaim
  | ExpiredSignature
deriving DecidableEq, Repr

variable (lib) in
/-- `decode` with the validation both callers build. -/
def decode {α : Type} (ofJson : JsonObject → Option α) (secret token : String) (now : ℕ) :
    Except ErrorKind α :=
  match lib.verify secret token with
  | none => .error .InvalidSignature
  | some payload =>
    match ofJson payload, payload.num "exp" with
    | none, _ => .error .Json
    | some _, none => .error .MissingRequiredClaim
    | some claims, some exp =>
      if exp < now - leeway then .error .ExpiredSignature else .ok claims

/-- The errors of `decode_pending_token`. -/
inductive PendingError
  | jwtSecret
  | decode (kind : ErrorKind)
  | invalidTokenType
deriving DecidableEq, Repr

variable (lib) in
def decodePendingToken (env : Env) (token : String) : Except PendingError OtpClaims :=
  match env.jwtSecret with
  | none => .error .jwtSecret
  | some secret =>
    match decode lib OtpClaims.ofJson secret token env.now with
    | .error kind => .error (.decode kind)
    | .ok claims =>
      if claims.tokenType ≠ pendingTokenType then .error .invalidTokenType else .ok claims

/-! ## What decodes -/

theorem verify_token (m : Mint) : lib.verify secret (m.token lib secret) = some m.payload :=
  lib.verify_encode secret m.payload

/-- What has been minted is not forged. -/
theorem genuine_token {minted : Set Mint} {m : Mint} (hm : m ∈ minted) :
    Genuine lib secret minted (m.token lib secret) := by
  intro payload hpayload
  rw [verify_token] at hpayload
  exact ⟨m, hm, rfl, (Option.some.inj hpayload).symm⟩

/-- A text names one payload. -/
theorem payload_eq_of_token {m m' : Mint} (h : m.token lib secret = m'.token lib secret) :
    m.payload = m'.payload := by
  have hverify : lib.verify secret (m.token lib secret) = some m.payload := verify_token m
  rw [h, verify_token] at hverify
  exact (Option.some.inj hverify).symm

/-- An access or refresh token is one of `Claims`, and of nothing else. -/
theorem decode_of_inl {m : Mint} {c : Claims} (hbody : m.body = .inl c) (now : ℕ) :
    decode lib Claims.ofJson secret (m.token lib secret) now =
        (if m.Live now then .ok c else .error .ExpiredSignature) ∧
      decode lib OtpClaims.ofJson secret (m.token lib secret) now = .error .Json := by
  have hpayload : m.payload = c.toJson := by rw [Mint.payload, hbody, Sum.elim_inl]
  have hlive : c.exp < now - leeway ↔ ¬ m.Live now := by
    rw [Mint.Live, Mint.exp, hbody, Sum.elim_inl]
    omega
  constructor
  · simp only [decode, verify_token, hpayload, Claims.ofJson_toJson, Claims.num_exp, hlive, ite_not]
  · simp only [decode, verify_token, hpayload, OtpClaims.ofJson_claims]

theorem decode_live {m : Mint} {c : Claims} (hbody : m.body = .inl c) {now : ℕ} (h : m.Live now) :
    decode lib Claims.ofJson secret (m.token lib secret) now = .ok c := by
  rw [(decode_of_inl hbody now).1, if_pos h]

theorem decode_expired {m : Mint} {c : Claims} (hbody : m.body = .inl c) {now : ℕ}
    (h : ¬ m.Live now) :
    decode lib Claims.ofJson secret (m.token lib secret) now = .error .ExpiredSignature := by
  rw [(decode_of_inl hbody now).1, if_neg h]

/-- A pending token is one of `OtpClaims`, and of nothing else. -/
theorem decode_of_inr {m : Mint} {c : OtpClaims} (hbody : m.body = .inr c) (now : ℕ) :
    decode lib OtpClaims.ofJson secret (m.token lib secret) now =
        (if m.Live now then .ok c else .error .ExpiredSignature) ∧
      decode lib Claims.ofJson secret (m.token lib secret) now = .error .Json := by
  have hpayload : m.payload = c.toJson := by rw [Mint.payload, hbody, Sum.elim_inr]
  have hlive : c.exp < now - leeway ↔ ¬ m.Live now := by
    rw [Mint.Live, Mint.exp, hbody, Sum.elim_inr]
    omega
  constructor
  · simp only [decode, verify_token, hpayload, OtpClaims.ofJson_toJson, OtpClaims.num_exp, hlive,
      ite_not]
  · simp only [decode, verify_token, hpayload, Claims.ofJson_otp]

/-- `decode` looks at the payload only once the signature is good. -/
theorem exists_mint {minted : Set Mint} {token : String} (hgenuine : Genuine lib secret minted token)
    {α : Type} {ofJson : JsonObject → Option α} {now : ℕ} {r : Except ErrorKind α}
    (h : decode lib ofJson secret token now = r) (hr : r ≠ .error .InvalidSignature) :
    ∃ m ∈ minted, token = m.token lib secret := by
  unfold decode at h
  split at h
  · exact absurd h.symm hr
  · rename_i payload hpayload
    obtain ⟨m, hm, htoken, -⟩ := hgenuine payload hpayload
    exact ⟨m, hm, htoken⟩

/-- Of a text that nobody forged, `decode` accepts exactly the live tokens of the right kind. -/
theorem decode_claims_eq_ok_iff {minted : Set Mint} {token : String}
    (hgenuine : Genuine lib secret minted token) {now : ℕ} {c : Claims} :
    decode lib Claims.ofJson secret token now = .ok c ↔
      ∃ m ∈ minted, token = m.token lib secret ∧ m.body = .inl c ∧ m.Live now := by
  constructor
  · intro h
    obtain ⟨m, hm, rfl⟩ := exists_mint hgenuine h (by simp)
    cases hbody : m.body with
    | inl c' =>
      rw [(decode_of_inl hbody now).1] at h
      split at h
      · rename_i hlive
        exact ⟨m, hm, rfl, congrArg Sum.inl (Except.ok.inj h) ▸ hbody, hlive⟩
      · cases h
    | inr c' =>
      rw [(decode_of_inr hbody now).2] at h
      cases h
  · rintro ⟨m, -, rfl, hbody, hlive⟩
    exact decode_live hbody hlive

/-- And reports as expired exactly the others of that kind. -/
theorem decode_claims_eq_expired_iff {minted : Set Mint} {token : String}
    (hgenuine : Genuine lib secret minted token) {now : ℕ} :
    decode lib Claims.ofJson secret token now = .error .ExpiredSignature ↔
      ∃ m ∈ minted, token = m.token lib secret ∧ m.body.isLeft ∧ ¬ m.Live now := by
  constructor
  · intro h
    obtain ⟨m, hm, rfl⟩ := exists_mint hgenuine h (by simp)
    cases hbody : m.body with
    | inl c =>
      rw [(decode_of_inl hbody now).1] at h
      split at h
      · cases h
      · rename_i hlive
        exact ⟨m, hm, rfl, by rw [hbody]; rfl, hlive⟩
    | inr c =>
      rw [(decode_of_inr hbody now).2] at h
      cases h
  · rintro ⟨m, -, rfl, hleft, hlive⟩
    obtain ⟨c, hbody⟩ := Sum.isLeft_iff.mp hleft
    exact decode_expired hbody hlive

theorem tokenType_of_inr {m : Mint} {c : OtpClaims} (hbody : m.body = .inr c) :
    c.tokenType = pendingTokenType := by
  cases m with
  | access userId now => cases hbody
  | refresh userId now => cases hbody
  | pending email username passwordHash otpHash now =>
    obtain rfl := Sum.inr.inj hbody
    rfl

/-- `decode_pending_token` accepts exactly the live pending tokens. -/
theorem decodePendingToken_eq_ok_iff (hsecret : env.jwtSecret = some secret) {minted : Set Mint}
    {token : String} (hgenuine : Genuine lib secret minted token) {c : OtpClaims} :
    decodePendingToken lib env token = .ok c ↔
      ∃ m ∈ minted, token = m.token lib secret ∧ m.body = .inr c ∧ m.Live env.now := by
  constructor
  · intro h
    simp only [decodePendingToken, hsecret] at h
    split at h
    · cases h
    · rename_i claims hdecode
      obtain ⟨m, hm, rfl⟩ := exists_mint hgenuine hdecode (by simp)
      cases hbody : m.body with
      | inl c' =>
        rw [(decode_of_inl hbody env.now).2] at hdecode
        cases hdecode
      | inr c' =>
        rw [(decode_of_inr hbody env.now).1] at hdecode
        split at hdecode
        · rename_i hlive
          obtain rfl := Except.ok.inj hdecode
          rw [tokenType_of_inr hbody, if_neg (fun hne => hne rfl)] at h
          exact ⟨m, hm, rfl, congrArg Sum.inr (Except.ok.inj h) ▸ hbody, hlive⟩
        · cases hdecode
  · rintro ⟨m, -, rfl, hbody, hlive⟩
    simp only [decodePendingToken, hsecret, (decode_of_inr hbody env.now).1, if_pos hlive,
      tokenType_of_inr hbody, ne_eq, not_true_eq_false, if_false]

end Auth

end Bittuly
