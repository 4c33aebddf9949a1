import Bittuly.Auth.Cookie
import Bittuly.Auth.PlainToken

/-!
# The authentication middleware

Reference: `libs/shared/src/jwt.rs` (`jwt_auth`, `refresh_access_token`).

`authenticate` is what the two functions do before `next.run`: they refuse the request with a status, or
insert claims and, on the refresh branch, keep a pair of fresh tokens for the response. `jwtAuth` runs the
handler in between.

Access and refresh tokens are told apart by `token_type`, which is looked at only in a token that
decodes: an expired token of either kind leads to the refresh branch.
-/

namespace Bittuly.Auth

/-- A request that goes on to its handler: the inserted claims, and the tokens for the response. -/
structure Admission where
  claims : Claims
  fresh : Option (String × String)
deriving DecidableEq, Repr

variable (lib : JsonWebToken)

/-- `refresh_access_token`, up to `next.run`. -/
def refreshAccessToken (env : Env) (cookieStr secret : String) : Except StatusCode Admission :=
  match parseCookie cookieStr cookieRefresh with
  | none => .error .UNAUTHORIZED
  | some refreshToken =>
    match decode lib Claims.ofJson secret refreshToken env.now with
    | .error _ => .error .UNAUTHORIZED
    | .ok claims =>
      if claims.tokenType ≠ refreshTokenType then .error .UNAUTHORIZED
      else
        match createAccessToken lib env claims.sub, createRefreshToken lib env claims.sub with
        | some newAccess, some newRefresh =>
          .ok { claims := { sub := claims.sub, exp := claims.exp, tokenType := accessTokenType },
                fresh := some (newAccess, newRefresh) }
        | _, _ => .error .INTERNAL_SERVER_ERROR

/-- `jwt_auth`, up to `next.run`. `cookie` is the request's `Cookie` header. -/
def authenticate (env : Env) (cookie : Option String) : Except StatusCode Admission :=
  match cookie.bind toStr with
  | none => .error .UNAUTHORIZED
  | some cookieStr =>
    match parseCookie cookieStr cookieAccess with
    | none => .error .UNAUTHORIZED
    | some accessToken =>
      match env.jwtSecret with
      | none => .error .INTERNAL_SERVER_ERROR
      | some secret =>
        match decode lib Claims.ofJson secret accessToken env.now with
        | .ok claims =>
          if claims.tokenType = accessTokenType then .ok { claims, fresh := none }
          else .error .UNAUTHORIZED
        | .error .ExpiredSignature => refreshAccessToken lib env cookieStr secret
        | .error _ => .error .UNAUTHORIZED

/-- After `next.run`: the refresh branch appends its cookies to the response of the handler. -/
def Admission.finish (env : Env) (a : Admission) (response : Response) : Except StatusCode Response :=
  match a.fresh with
  | none => .ok response
  | some (newAccess, newRefresh) =>
    match setTokenCookies env response newAccess newRefresh with
    | some response => .ok response
    | none => .error .INTERNAL_SERVER_ERROR

/-- `jwt_auth` around the handler `next`. -/
def jwtAuth (env : Env) (cookie : Option String) (next : Claims → Response) :
    Except StatusCode Response :=
  match authenticate lib env cookie with
  | .error status => .error status
  | .ok a => a.finish env (next a.claims)

/-! ## Which requests are admitted -/

variable {lib} {env : Env} {secret cookieStr : String}

/-- The refresh branch admits on a refresh token that decodes. -/
theorem refreshAccessToken_eq_ok_iff (hsecret : env.jwtSecret = some secret) {a : Admission} :
    refreshAccessToken lib env cookieStr secret = .ok a ↔
      ∃ token c, FirstCookie cookieStr cookieRefresh token ∧
        decode lib Claims.ofJson secret token env.now = .ok c ∧ c.tokenType = refreshTokenType ∧
        a = { claims := { c with tokenType := accessTokenType },
              fresh := some ((Mint.access c.sub env.now).token lib secret,
                (Mint.refresh c.sub env.now).token lib secret) } := by
  unfold refreshAccessToken
  constructor
  · intro h
    split at h
    · cases h
    · rename_i token htoken
      split at h
      · cases h
      · rename_i c hdecode
        split at h
        · cases h
        · rename_i htype
          rw [createAccessToken_eq hsecret, createRefreshToken_eq hsecret] at h
          exact ⟨token, c, parseCookie_eq_some_iff.mp htoken, hdecode, not_not.mp htype,
            (Except.ok.inj h).symm⟩
  · rintro ⟨token, c, htoken, hdecode, htype, rfl⟩
    simp only [parseCookie_eq_some_iff.mpr htoken, hdecode, htype, ne_eq, not_true_eq_false,
      if_false, createAccessToken_eq hsecret, createRefreshToken_eq hsecret]

/-- The two branches of the middleware. -/
theorem authenticate_eq_ok_iff (hsecret : env.jwtSecret = some secret)
    (hvisible : toStr cookieStr = some cookieStr) {a : Admission} :
    authenticate lib env (some cookieStr) = .ok a ↔
      ∃ token, FirstCookie cookieStr cookieAccess token ∧
        ((∃ c, decode lib Claims.ofJson secret token env.now = .ok c ∧
            c.tokenType = accessTokenType ∧ a = { claims := c, fresh := none }) ∨
          (decode lib Claims.ofJson secret token env.now = .error .ExpiredSignature ∧
            refreshAccessToken lib env cookieStr secret = .ok a)) := by
  simp only [authenticate, Option.bind_some, hvisible]
  constructor
  · intro h
    split at h
    · cases h
    · rename_i token htoken
      simp only [hsecret] at h
      refine ⟨token, parseCookie_eq_some_iff.mp htoken, ?_⟩
      split at h
      · rename_i c hdecode
        split at h
        · rename_i htype
          exact Or.inl ⟨c, hdecode, htype, (Except.ok.inj h).symm⟩
        · cases h
      · rename_i hdecode
        exact Or.inr ⟨hdecode, h⟩
      · cases h
  · rintro ⟨token, htoken, hcase⟩
    rw [parseCookie_eq_some_iff.mpr htoken, hsecret]
    rcases hcase with ⟨c, hdecode, htype, rfl⟩ | ⟨hdecode, hrefresh⟩
    · simp only [hdecode, htype, if_true]
    · simp only [hdecode, hrefresh]

/-- An admitted request has a header that `to_str` reads. -/
theorem toStr_of_authenticate {a : Admission} (h : authenticate lib env (some cookieStr) = .ok a) :
    toStr cookieStr = some cookieStr := by
  by_cases hall : cookieStr.toList.all visibleChar
  · rw [toStr, if_pos hall]
  · simp [authenticate, toStr, hall] at h

/-- With the secret set, a request is refused with 401 or not at all. -/
theorem status_of_authenticate_eq_error (hsecret : env.jwtSecret = some secret) {cookie : Option String}
    {status : StatusCode} (h : authenticate lib env cookie = .error status) : status = .UNAUTHORIZED := by
  have hrefresh : ∀ {cookieStr}, refreshAccessToken lib env cookieStr secret = .error status →
      status = .UNAUTHORIZED := by
    intro cookieStr h
    unfold refreshAccessToken at h
    simp only [createAccessToken_eq hsecret, createRefreshToken_eq hsecret] at h
    split at h
    · exact (Except.error.inj h).symm
    · split at h
      · exact (Except.error.inj h).symm
      · split at h
        · exact (Except.error.inj h).symm
        · cases h
  unfold authenticate at h
  simp only [hsecret] at h
  split at h
  · exact (Except.error.inj h).symm
  · split at h
    · exact (Except.error.inj h).symm
    · split at h
      · split at h
        · cases h
        · exact (Except.error.inj h).symm
      · exact hrefresh h
      · exact (Except.error.inj h).symm

/-- The fresh cookies of a user. -/
def freshCookies (lib : JsonWebToken) (env : Env) (secret : String) (userId : Uuid) :
    List SetCookie :=
  [accessCookie env ((Mint.access userId env.now).token lib secret),
    refreshCookie env ((Mint.refresh userId env.now).token lib secret)]

/-- What a refreshed response carries. -/
theorem finish_fresh (c : Claims) (userId : Uuid) (response : Response) :
    Admission.finish env
        { claims := c,
          fresh := some ((Mint.access userId env.now).token lib secret,
            (Mint.refresh userId env.now).token lib secret) } response =
      .ok { response with
        setCookie := response.setCookie ++ freshCookies lib env secret userId } := by
  simp only [Admission.finish,
    setTokenCookies_eq env response (isToken_token lib secret _) (isToken_token lib secret _)]
  rfl

/-! ## Token kinds -/

/-- The first `access_token` is a live access token of the user. -/
def Direct (lib : JsonWebToken) (secret : String) (minted : Set Mint) (now : ℕ) (cookieStr : String)
    (userId : Uuid) : Prop :=
  ∃ t, Mint.access userId t ∈ minted ∧ (Mint.access userId t).Live now ∧
    FirstCookie cookieStr cookieAccess ((Mint.access userId t).token lib secret)

/-- The first `access_token` is an expired access or refresh token, of any user, and the first
`refresh_token` is a live refresh token of this one. -/
def Refreshed (lib : JsonWebToken) (secret : String) (minted : Set Mint) (now : ℕ)
    (cookieStr : String) (userId : Uuid) : Prop :=
  (∃ v t, ∃ m ∈ minted, (m = .access v t ∨ m = .refresh v t) ∧ ¬ m.Live now ∧
    FirstCookie cookieStr cookieAccess (m.token lib secret)) ∧
  ∃ t, Mint.refresh userId t ∈ minted ∧ (Mint.refresh userId t).Live now ∧
    FirstCookie cookieStr cookieRefresh ((Mint.refresh userId t).token lib secret)

theorem access_of_body {m : Mint} {c : Claims} (hbody : m.body = .inl c)
    (htype : c.tokenType = accessTokenType) : ∃ t, m = .access c.sub t := by
  cases m with
  | access userId t =>
    obtain rfl := Sum.inl.inj hbody
    exact ⟨t, rfl⟩
  | refresh userId t =>
    obtain rfl := Sum.inl.inj hbody
    exact absurd htype (show refreshTokenType ≠ accessTokenType by decide)
  | pending email username passwordHash otpHash t => cases hbody

theorem refresh_of_body {m : Mint} {c : Claims} (hbody : m.body = .inl c)
    (htype : c.tokenType = refreshTokenType) : ∃ t, m = .refresh c.sub t := by
  cases m with
  | access userId t =>
    obtain rfl := Sum.inl.inj hbody
    exact absurd htype (show accessTokenType ≠ refreshTokenType by decide)
  | refresh userId t =>
    obtain rfl := Sum.inl.inj hbody
    exact ⟨t, rfl⟩
  | pending email username passwordHash otpHash t => cases hbody

theorem isLeft_body_iff {m : Mint} :
    m.body.isLeft ↔ ∃ v t, m = .access v t ∨ m = .refresh v t := by
  cases m with
  | access v t => exact iff_of_true rfl ⟨v, t, Or.inl rfl⟩
  | refresh v t => exact iff_of_true rfl ⟨v, t, Or.inr rfl⟩
  | pending email username passwordHash otpHash t =>
    refine iff_of_false Bool.false_ne_true ?_
    rintro ⟨v, t, h | h⟩ <;> cases h

section Genuine

variable {minted : Set Mint}
  (hgenuine : ∀ name ∈ [cookieAccess, cookieRefresh], ∀ token, FirstCookie cookieStr name token →
    Genuine lib secret minted token)

include hgenuine

/-- The direct branch, in terms of what was minted. -/
theorem direct_iff {userId : Uuid} :
    Direct lib secret minted env.now cookieStr userId ↔
      ∃ token, FirstCookie cookieStr cookieAccess token ∧
        ∃ c, decode lib Claims.ofJson secret token env.now = .ok c ∧
          c.tokenType = accessTokenType ∧ c.sub = userId := by
  constructor
  · rintro ⟨t, hm, hlive, hcookie⟩
    refine ⟨_, hcookie, _, (decode_claims_eq_ok_iff (hgenuine _ (by simp) _ hcookie)).mpr
      ⟨_, hm, rfl, rfl, hlive⟩, rfl, rfl⟩
  · rintro ⟨token, hcookie, c, hdecode, htype, rfl⟩
    obtain ⟨m, hm, rfl, hbody, hlive⟩ :=
      (decode_claims_eq_ok_iff (hgenuine _ (by simp) _ hcookie)).mp hdecode
    obtain ⟨t, rfl⟩ := access_of_body hbody htype
    exact ⟨t, hm, hlive, hcookie⟩

/-- The refresh branch, in terms of what was minted. -/
theorem refreshed_iff {userId : Uuid} :
    Refreshed lib secret minted env.now cookieStr userId ↔
      (∃ token, FirstCookie cookieStr cookieAccess token ∧
        decode lib Claims.ofJson secret token env.now = .error .ExpiredSignature) ∧
      ∃ token c, FirstCookie cookieStr cookieRefresh token ∧
        decode lib Claims.ofJson secret token env.now = .ok c ∧
          c.tokenType = refreshTokenType ∧ c.sub = userId := by
  constructor
  · rintro ⟨⟨v, t, m, hm, hkind, hexpired, hcookie⟩, t', hm', hlive, hcookie'⟩
    refine ⟨⟨_, hcookie, ?_⟩, _, ⟨userId, t' + refreshTokenTtlSeconds, refreshTokenType⟩, hcookie',
      ?_, rfl, rfl⟩
    · exact (decode_claims_eq_expired_iff (hgenuine _ (by simp) _ hcookie)).mpr
        ⟨m, hm, rfl, isLeft_body_iff.mpr ⟨v, t, hkind⟩, hexpired⟩
    · exact (decode_claims_eq_ok_iff (hgenuine _ (by simp) _ hcookie')).mpr ⟨_, hm', rfl, rfl, hlive⟩
  · rintro ⟨⟨token, hcookie, hdecode⟩, token', c, hcookie', hdecode', htype, rfl⟩
    obtain ⟨m, hm, rfl, hleft, hexpired⟩ :=
      (decode_claims_eq_expired_iff (hgenuine _ (by simp) _ hcookie)).mp hdecode
    obtain ⟨v, t, hkind⟩ := isLeft_body_iff.mp hleft
    obtain ⟨m', hm', rfl, hbody, hlive⟩ :=
      (decode_claims_eq_ok_iff (hgenuine _ (by simp) _ hcookie')).mp hdecode'
    obtain ⟨t', rfl⟩ := refresh_of_body hbody htype
    exact ⟨⟨v, t, m, hm, hkind, hexpired, hcookie⟩, t', hm', hlive, hcookie'⟩

/-- The direct branch admits. -/
theorem authenticate_of_direct (hsecret : env.jwtSecret = some secret)
    (hvisible : toStr cookieStr = some cookieStr) {userId : Uuid}
    (h : Direct lib secret minted env.now cookieStr userId) :
    ∃ c : Claims, c.sub = userId ∧
      authenticate lib env (some cookieStr) = .ok { claims := c, fresh := none } := by
  obtain ⟨token, hcookie, c, hdecode, htype, hsub⟩ := (direct_iff hgenuine).mp h
  exact ⟨c, hsub, (authenticate_eq_ok_iff hsecret hvisible).mpr
    ⟨token, hcookie, Or.inl ⟨c, hdecode, htype, rfl⟩⟩⟩

/-- The refresh branch admits, with fresh tokens. -/
theorem authenticate_of_refreshed (hsecret : env.jwtSecret = some secret)
    (hvisible : toStr cookieStr = some cookieStr) {userId : Uuid}
    (h : Refreshed lib secret minted env.now cookieStr userId) :
    ∃ c : Claims, c.sub = userId ∧ authenticate lib env (some cookieStr) = .ok
      { claims := c,
        fresh := some ((Mint.access userId env.now).token lib secret,
          (Mint.refresh userId env.now).token lib secret) } := by
  obtain ⟨⟨token, hcookie, hexpired⟩, token', c, hcookie', hdecode, htype, rfl⟩ :=
    (refreshed_iff hgenuine).mp h
  exact ⟨{ c with tokenType := accessTokenType }, rfl, (authenticate_eq_ok_iff hsecret hvisible).mpr
    ⟨token, hcookie, Or.inr ⟨hexpired, (refreshAccessToken_eq_ok_iff hsecret).mpr
      ⟨token', c, hcookie', hdecode, htype, rfl⟩⟩⟩⟩

/-- An admitted request took one of the two branches. -/
theorem direct_or_refreshed (hsecret : env.jwtSecret = some secret) {a : Admission}
    (h : authenticate lib env (some cookieStr) = .ok a) :
    Direct lib secret minted env.now cookieStr a.claims.sub ∨
      Refreshed lib secret minted env.now cookieStr a.claims.sub := by
  obtain ⟨token, hcookie, ⟨c, hdecode, htype, rfl⟩ | ⟨hexpired, hrefresh⟩⟩ :=
    (authenticate_eq_ok_iff hsecret (toStr_of_authenticate h)).mp h
  · exact Or.inl ((direct_iff hgenuine).mpr ⟨token, hcookie, c, hdecode, htype, rfl⟩)
  · obtain ⟨token', c, hcookie', hdecode, htype, rfl⟩ :=
      (refreshAccessToken_eq_ok_iff hsecret).mp hrefresh
    exact Or.inr ((refreshed_iff hgenuine).mpr
      ⟨⟨token, hcookie, hexpired⟩, token', c, hcookie', hdecode, htype, rfl⟩)

end Genuine

/-- What each token is good for. -/
structure TokenSeparation (lib : JsonWebToken) (env : Env) (secret : String) (minted : Set Mint)
    (cookieStr : String) : Prop where
  /-- The handler runs for exactly these users. -/
  runs : ∀ userId, (∃ a, authenticate lib env (some cookieStr) = .ok a ∧ a.claims.sub = userId) ↔
    Direct lib secret minted env.now cookieStr userId ∨
      Refreshed lib secret minted env.now cookieStr userId
  /-- The middleware adds cookies on the refresh branch, both for the same user. -/
  refreshes : ∀ userId next, Refreshed lib secret minted env.now cookieStr userId →
    ∃ c : Claims, c.sub = userId ∧ jwtAuth lib env (some cookieStr) next =
      .ok { next c with setCookie := (next c).setCookie ++ freshCookies lib env secret userId }
  /-- And on the direct branch none. -/
  passes : ∀ userId next, Direct lib secret minted env.now cookieStr userId →
    ∃ c : Claims, c.sub = userId ∧ jwtAuth lib env (some cookieStr) next = .ok (next c)
  /-- Every other request is answered 401 without running the handler. -/
  refuses : ∀ next, (∀ userId, ¬ Direct lib secret minted env.now cookieStr userId ∧
      ¬ Refreshed lib secret minted env.now cookieStr userId) →
    jwtAuth lib env (some cookieStr) next = .error .UNAUTHORIZED
  /-- A pending token, a live refresh token, or no token at all in the place of the access token does
  not authenticate. -/
  kinds : ∀ a, authenticate lib env (some cookieStr) = .ok a →
    ∃ v t, ∃ m ∈ minted, FirstCookie cookieStr cookieAccess (m.token lib secret) ∧
      (m = .access v t ∨ m = .refresh v t ∧ ¬ m.Live env.now)
  /-- `decode_pending_token` accepts the live pending tokens only. -/
  pending : ∀ token c, Genuine lib secret minted token →
    decodePendingToken lib env token = .ok c →
      ∃ t, Mint.pending c.email c.username c.passwordHash c.otpHash t ∈ minted ∧
        (Mint.pending c.email c.username c.passwordHash c.otpHash t).Live env.now ∧
        token = (Mint.pending c.email c.username c.passwordHash c.otpHash t).token lib secret
  /-- It accepts no access or refresh token. -/
  notPending : ∀ v t c, decodePendingToken lib env ((Mint.access v t).token lib secret) ≠ .ok c ∧
    decodePendingToken lib env ((Mint.refresh v t).token lib secret) ≠ .ok c

/-- **Token kinds cannot be confused.** -/
theorem token_kinds_separate (hsecret : env.jwtSecret = some secret)
    (hvisible : toStr cookieStr = some cookieStr) {minted : Set Mint}
    (hgenuine : ∀ name ∈ [cookieAccess, cookieRefresh], ∀ token, FirstCookie cookieStr name token →
      Genuine lib secret minted token) :
    TokenSeparation lib env secret minted cookieStr := by
  refine ⟨?_, ?_, ?_, ?_, ?_, ?_, ?_⟩
  · intro u
    constructor
    · rintro ⟨a, h, rfl⟩
      exact direct_or_refreshed hgenuine hsecret h
    · rintro (h | h)
      · obtain ⟨c, hsub, hauth⟩ := authenticate_of_direct hgenuine hsecret hvisible h
        exact ⟨_, hauth, hsub⟩
      · obtain ⟨c, hsub, hauth⟩ := authenticate_of_refreshed hgenuine hsecret hvisible h
        exact ⟨_, hauth, hsub⟩
  · intro u next h
    obtain ⟨c, hsub, hauth⟩ := authenticate_of_refreshed hgenuine hsecret hvisible h
    refine ⟨c, hsub, ?_⟩
    rw [jwtAuth, hauth]
    exact finish_fresh c u (next c)
  · intro u next h
    obtain ⟨c, hsub, hauth⟩ := authenticate_of_direct hgenuine hsecret hvisible h
    refine ⟨c, hsub, ?_⟩
    rw [jwtAuth, hauth]
    rfl
  · intro next h
    cases hauth : authenticate lib env (some cookieStr) with
    | ok a =>
      rcases direct_or_refreshed hgenuine hsecret hauth with hd | hr
      · exact absurd hd (h a.claims.sub).1
      · exact absurd hr (h a.claims.sub).2
    | error status =>
      rw [jwtAuth, hauth, status_of_authenticate_eq_error hsecret hauth]
  · intro a hauth
    rcases direct_or_refreshed hgenuine hsecret hauth with
      ⟨t, hm, -, hcookie⟩ | ⟨⟨v, t, m, hm, hkind, hexpired, hcookie⟩, -⟩
    · exact ⟨_, t, _, hm, hcookie, Or.inl rfl⟩
    · exact ⟨v, t, m, hm, hcookie, hkind.imp_right fun h => ⟨h, hexpired⟩⟩
  · intro token c hg hdecode
    obtain ⟨m, hm, rfl, hbody, hlive⟩ := (decodePendingToken_eq_ok_iff hsecret hg).mp hdecode
    cases m with
    | access v t => cases hbody
    | refresh v t => cases hbody
    | pending email username passwordHash otpHash t =>
      obtain rfl := Sum.inr.inj hbody
      exact ⟨t, hm, hlive, rfl⟩
  · intro v t c
    simp only [decodePendingToken, hsecret]
    rw [(decode_of_inl (m := .access v t) rfl env.now).2, (decode_of_inl (m := .refresh v t) rfl env.now).2]
    exact ⟨fun h => (by cases h), fun h => (by cases h)⟩

/-- A request of user 7 whose access token has expired and whose refresh token is live. -/
def expiredCookies : List (String × String) :=
  [(cookieAccess, (Mint.access 7 1000).token plainToken "k"),
    (cookieRefresh, (Mint.refresh 7 1000).token plainToken "k")]

/-- The environment it arrives in. -/
def expiredEnv : Env where
  jwtSecret := some "k"
  now := 5000
  debugAssertions := true

theorem isToken_expiredCookies : ∀ c ∈ expiredCookies, IsToken c.1 ∧ IsToken c.2 := by
  simp only [expiredCookies, List.forall_mem_cons, List.not_mem_nil, false_imp_iff, implies_true,
    and_true]
  exact ⟨⟨isToken_cookieAccess, isToken_token _ _ _⟩, isToken_cookieRefresh, isToken_token _ _ _⟩

theorem genuine_expiredCookies {minted : Set Mint} (haccess : .access 7 1000 ∈ minted)
    (hrefresh : .refresh 7 1000 ∈ minted) :
    ∀ name ∈ [cookieAccess, cookieRefresh], ∀ token,
      FirstCookie (cookieHeader expiredCookies) name token → Genuine plainToken "k" minted token := by
  intro name hname token hcookie
  have hparse := parseCookie_eq_some_iff.mpr hcookie
  rw [parseCookie_cookieHeader isToken_expiredCookies] at hparse
  rcases List.mem_cons.mp hname with rfl | hname
  · obtain rfl : (Mint.access 7 1000).token plainToken "k" = token := Option.some.inj hparse
    exact genuine_token haccess
  · obtain rfl := List.mem_singleton.mp hname
    obtain rfl : (Mint.refresh 7 1000).token plainToken "k" = token := Option.some.inj hparse
    exact genuine_token hrefresh

theorem token_kinds_separate_of_refresh :
    TokenSeparation plainToken expiredEnv "k" {.access 7 1000, .refresh 7 1000}
      (cookieHeader expiredCookies) :=
  token_kinds_separate rfl (toStr_cookieHeader isToken_expiredCookies)
    (genuine_expiredCookies (by simp) (by simp))

end Bittuly.Auth
