import Bittuly.Auth.Middleware

/-!
# Sessions of a client

References: `libs/shared/src/jwt.rs` (`jwt_auth`, the `Max-Age` of the cookies),
`services/auth-service/src/handlers.rs` (`AuthSuccess`, `logout`).

A client keeps the cookies of `Set-Cookie` headers, a later one in the place of an earlier one with its
name and path, drops a cookie once its `Max-Age` has passed, and sends the others. The access cookie goes
when the access token expires, and `decode` grants the token a leeway on top; so a client that keeps to
`Max-Age` never sends an expired access token, and without an access token `jwt_auth` does not look at
the refresh token.
-/

namespace Bittuly.Auth

/-! ## The cookie jar -/

/-- A cookie that a client keeps. -/
structure StoredCookie where
  name : String
  value : String
  path : String
  expiresAt : ℕ
deriving DecidableEq, Repr

abbrev Jar := List StoredCookie

namespace Jar

/-- Take one `Set-Cookie` header. -/
def store (now : ℕ) (jar : Jar) (c : SetCookie) : Jar :=
  (jar.filter fun s => ¬ (s.name = c.name ∧ s.path = c.path)) ++
    [{ name := c.name, value := c.value, path := c.path, expiresAt := now + c.maxAge }]

/-- Take the `Set-Cookie` headers of a response, in order. -/
def receive (jar : Jar) (now : ℕ) (cookies : List SetCookie) : Jar :=
  cookies.foldl (store now) jar

/-- The cookies whose `Max-Age` has not passed. -/
def live (jar : Jar) (now : ℕ) : Jar :=
  jar.filter fun s => now < s.expiresAt

/-- The `Cookie` header of a request; none without cookies. -/
def header (jar : Jar) (now : ℕ) : Option String :=
  match jar.live now with
  | [] => none
  | cookies => some (cookieHeader (cookies.map fun s => (s.name, s.value)))

/-- The client has a cookie of this name. -/
def Holds (jar : Jar) (now : ℕ) (name : String) : Prop :=
  ∃ s ∈ jar.live now, s.name = name

/-- The token cookies are those of the services, which set them for the path `/`. -/
def Rooted (jar : Jar) : Prop :=
  ∀ s ∈ jar, s.name ∈ [cookieAccess, cookieRefresh] → s.path = "/"

instance (jar : Jar) : Decidable jar.Rooted :=
  inferInstanceAs (Decidable (∀ s ∈ jar, _ → _))

theorem Rooted.store {jar : Jar} (h : jar.Rooted) (now : ℕ) {c : SetCookie} (hpath : c.path = "/") :
    (jar.store now c).Rooted := by
  intro s hs hname
  rcases List.mem_append.mp hs with hold | hnew
  · exact h s (List.mem_of_mem_filter hold) hname
  · rw [List.mem_singleton.mp hnew]
    exact hpath

/-- A stored header decides about its name. -/
theorem holds_store_self {jar : Jar} (h : jar.Rooted) {now : ℕ} {c : SetCookie}
    (hpath : c.path = "/") {name : String} (hname : name ∈ [cookieAccess, cookieRefresh])
    (heq : c.name = name) : (jar.store now c).Holds now name ↔ 0 < c.maxAge := by
  unfold Holds live Jar.store
  constructor
  · rintro ⟨s, hs, rfl⟩
    obtain ⟨hmem, hlive⟩ := List.mem_filter.mp hs
    rcases List.mem_append.mp hmem with hold | hnew
    · obtain ⟨hjar, hother⟩ := List.mem_filter.mp hold
      have hrooted := h s hjar hname
      simp [heq, hrooted, hpath] at hother
    · rw [List.mem_singleton.mp hnew] at hlive
      simpa using hlive
  · intro hpos
    refine ⟨_, List.mem_filter.mpr ⟨List.mem_append_right _ (List.mem_singleton_self _), ?_⟩, heq⟩
    simpa using hpos

/-- And leaves the others. -/
theorem holds_store_of_ne {jar : Jar} {now : ℕ} {c : SetCookie} {name : String}
    (hne : c.name ≠ name) : (jar.store now c).Holds now name ↔ jar.Holds now name := by
  unfold Holds live Jar.store
  constructor
  · rintro ⟨s, hs, rfl⟩
    obtain ⟨hmem, hlive⟩ := List.mem_filter.mp hs
    rcases List.mem_append.mp hmem with hold | hnew
    · exact ⟨s, List.mem_filter.mpr ⟨List.mem_of_mem_filter hold, hlive⟩, rfl⟩
    · exact absurd (congrArg StoredCookie.name (List.mem_singleton.mp hnew)).symm hne
  · rintro ⟨s, hs, rfl⟩
    obtain ⟨hjar, hlive⟩ := List.mem_filter.mp hs
    refine ⟨s, List.mem_filter.mpr ⟨List.mem_append_left _ (List.mem_filter.mpr ⟨hjar, ?_⟩), hlive⟩, rfl⟩
    simp [Ne.symm hne]

end Jar

/-! ## Logging out -/

/-- `logout`. -/
def logout (_ : Claims) : Response :=
  clearTokenCookies StatusCode.NO_CONTENT.intoResponse

variable {lib : JsonWebToken} {env : Env} {secret cookieStr : String}

/-- After `clear_token_cookies` alone nothing is left. -/
theorem not_holds_clear {jar : Jar} (h : jar.Rooted) (now : ℕ) (c : Claims) {name : String}
    (hname : name ∈ [cookieAccess, cookieRefresh]) :
    ¬ (jar.receive now (logout c).setCookie).Holds now name := by
  have hset : (logout c).setCookie = [clearCookie cookieAccess, clearCookie cookieRefresh] := rfl
  have h₁ : (jar.store now (clearCookie cookieAccess)).Rooted := h.store now rfl
  rw [hset, Jar.receive, List.foldl_cons, List.foldl_cons, List.foldl_nil]
  have hne : (clearCookie cookieRefresh).name ≠ cookieAccess := by decide
  rcases List.mem_cons.mp hname with rfl | hname'
  · rw [Jar.holds_store_of_ne hne, Jar.holds_store_self h rfl hname rfl]
    exact Nat.lt_irrefl 0
  · obtain rfl := List.mem_singleton.mp hname'
    rw [Jar.holds_store_self h₁ rfl hname rfl]
    exact Nat.lt_irrefl 0

theorem Jar.Rooted.receive {jar : Jar} (h : jar.Rooted) (now : ℕ) {cookies : List SetCookie}
    (hpath : ∀ c ∈ cookies, c.path = "/") : (jar.receive now cookies).Rooted := by
  induction cookies generalizing jar with
  | nil => exact h
  | cons c cs ih =>
    exact ih (h.store now (hpath c List.mem_cons_self)) fun c' hc' => hpath c' (List.mem_cons_of_mem _ hc')

/-- Fresh cookies at the end of a response stay. -/
theorem holds_fresh {jar : Jar} (h : jar.Rooted) (now : ℕ) {cookies : List SetCookie}
    (hpath : ∀ c ∈ cookies, c.path = "/") (userId : Uuid) {name : String}
    (hname : name ∈ [cookieAccess, cookieRefresh]) :
    (jar.receive now (cookies ++ freshCookies lib env secret userId)).Holds now name := by
  have h₁ := h.receive now hpath
  have h₂ : ((jar.receive now cookies).store now
      (accessCookie env ((Mint.access userId env.now).token lib secret))).Rooted := h₁.store now rfl
  rw [Jar.receive, List.foldl_append, freshCookies, List.foldl_cons, List.foldl_cons, List.foldl_nil]
  rcases List.mem_cons.mp hname with rfl | hname'
  · refine (Jar.holds_store_of_ne (show cookieRefresh ≠ cookieAccess by decide)).mpr ?_
    refine (Jar.holds_store_self h₁ rfl hname rfl).mpr ?_
    exact (show 0 < accessTokenTtlSeconds by decide)
  · obtain rfl := List.mem_singleton.mp hname'
    refine (Jar.holds_store_self h₂ rfl hname rfl).mpr ?_
    exact (show 0 < refreshTokenTtlSeconds by decide)

/-- **Logging out drops both cookies exactly if the access token itself authenticates the request.** On
the refresh branch the middleware appends fresh cookies after the handler has cleared the old ones. -/
theorem logout_clears_iff (hsecret : env.jwtSecret = some secret) {response : Response}
    (hok : jwtAuth lib env (some cookieStr) logout = .ok response) {jar : Jar} (hjar : jar.Rooted) :
    (¬ (jar.receive env.now response.setCookie).Holds env.now cookieAccess ∧
      ¬ (jar.receive env.now response.setCookie).Holds env.now cookieRefresh) ↔
    ∃ token c, FirstCookie cookieStr cookieAccess token ∧
      decode lib Claims.ofJson secret token env.now = .ok c := by
  unfold jwtAuth at hok
  split at hok
  · cases hok
  · rename_i a hauth
    have hvisible := toStr_of_authenticate hauth
    obtain ⟨token, hcookie, ⟨c, hdecode, -, rfl⟩ | ⟨hexpired, hrefresh⟩⟩ :=
      (authenticate_eq_ok_iff hsecret hvisible).mp hauth
    · obtain rfl := Except.ok.inj hok
      refine iff_of_true ⟨?_, ?_⟩ ⟨token, c, hcookie, hdecode⟩
      · exact not_holds_clear hjar env.now c (by simp)
      · exact not_holds_clear hjar env.now c (by simp)
    · obtain ⟨-, c, -, -, -, rfl⟩ := (refreshAccessToken_eq_ok_iff hsecret).mp hrefresh
      rw [finish_fresh] at hok
      obtain rfl := Except.ok.inj hok
      refine iff_of_false ?_ ?_
      · rintro ⟨hnone, -⟩
        exact hnone (holds_fresh hjar env.now (by simp [logout, clearTokenCookies, clearCookie,
          StatusCode.intoResponse]) c.sub (by simp))
      · rintro ⟨token', c', hcookie', hdecode⟩
        have heq : token = token' := Option.some.inj
          ((parseCookie_eq_some_iff.mpr hcookie).symm.trans (parseCookie_eq_some_iff.mpr hcookie'))
        rw [← heq, hexpired] at hdecode
        cases hdecode

/-- While its access token is live, the request of user 7 logs the client out. -/
theorem logout_clears_iff_of_live_token : ∃ response,
    jwtAuth plainToken { expiredEnv with now := 1500 } (some (cookieHeader expiredCookies)) logout =
        .ok response ∧
      ¬ (Jar.receive [] 1500 response.setCookie).Holds 1500 cookieAccess ∧
      ¬ (Jar.receive [] 1500 response.setCookie).Holds 1500 cookieRefresh := by
  have hvisible := toStr_cookieHeader isToken_expiredCookies
  have hcookie : FirstCookie (cookieHeader expiredCookies) cookieAccess
      ((Mint.access 7 1000).token plainToken "k") :=
    parseCookie_eq_some_iff.mp (parseCookie_cookieHeader isToken_expiredCookies cookieAccess)
  have hdecode : decode plainToken Claims.ofJson "k" ((Mint.access 7 1000).token plainToken "k") 1500 =
      .ok { sub := 7, exp := 1900, tokenType := accessTokenType } := decode_live rfl (by decide)
  have hok : jwtAuth plainToken { expiredEnv with now := 1500 } (some (cookieHeader expiredCookies))
      logout = .ok (logout { sub := 7, exp := 1900, tokenType := accessTokenType }) := by
    have hauth : authenticate plainToken { expiredEnv with now := 1500 }
        (some (cookieHeader expiredCookies)) =
        .ok { claims := { sub := 7, exp := 1900, tokenType := accessTokenType }, fresh := none } :=
      (authenticate_eq_ok_iff rfl hvisible).mpr ⟨_, hcookie, Or.inl ⟨_, hdecode, rfl, rfl⟩⟩
    rw [jwtAuth, hauth]
    rfl
  have hrooted : Jar.Rooted [] := by decide
  exact ⟨_, hok, (logout_clears_iff rfl hok hrooted).mpr ⟨_, _, hcookie, hdecode⟩⟩

/-- **A logout through the refresh branch leaves the client logged in.** The request of user 7 with an
expired access token and a live refresh token is answered 204 and both cookies are there afterwards. -/
theorem refreshed_logout_keeps_cookies :
    ¬ ∀ (env : Env) (secret cookieStr : String) (response : Response) (jar : Jar),
      env.jwtSecret = some secret → jar.Rooted →
      jwtAuth plainToken env (some cookieStr) logout = .ok response →
        ¬ (jar.receive env.now response.setCookie).Holds env.now cookieAccess ∧
          ¬ (jar.receive env.now response.setCookie).Holds env.now cookieRefresh := by
  intro hall
  have hvisible := toStr_cookieHeader isToken_expiredCookies
  have haccess := parseCookie_eq_some_iff.mp
    (parseCookie_cookieHeader isToken_expiredCookies cookieAccess)
  have hrefresh := parseCookie_eq_some_iff.mp
    (parseCookie_cookieHeader isToken_expiredCookies cookieRefresh)
  have hexpired : decode plainToken Claims.ofJson "k" ((Mint.access 7 1000).token plainToken "k") 5000 =
      .error .ExpiredSignature := decode_expired rfl (by decide)
  have hlive : decode plainToken Claims.ofJson "k" ((Mint.refresh 7 1000).token plainToken "k") 5000 =
      .ok { sub := 7, exp := 2593000, tokenType := refreshTokenType } := decode_live rfl (by decide)
  have hsecret : expiredEnv.jwtSecret = some "k" := rfl
  have hok : jwtAuth plainToken expiredEnv (some (cookieHeader expiredCookies)) logout =
      .ok { status := .NO_CONTENT,
            setCookie := [clearCookie cookieAccess, clearCookie cookieRefresh] ++
              freshCookies plainToken expiredEnv "k" 7 } := by
    have hrefreshed := (refreshAccessToken_eq_ok_iff hsecret).mpr ⟨_, _, hrefresh, hlive, rfl, rfl⟩
    have hauth := (authenticate_eq_ok_iff hsecret hvisible).mpr
      ⟨_, haccess, Or.inr ⟨hexpired, hrefreshed⟩⟩
    rw [jwtAuth, hauth]
    exact finish_fresh _ 7 _
  have hrooted : Jar.Rooted [] := by decide
  have hpath : ∀ c ∈ [clearCookie cookieAccess, clearCookie cookieRefresh], c.path = "/" := by
    intro c hc
    rcases List.mem_pair.mp hc with rfl | rfl <;> rfl
  exact (hall expiredEnv "k" _ _ [] rfl hrooted hok).1
    (holds_fresh hrooted _ hpath 7 (by simp))

/-! ## Staying logged in -/

/-- `AuthSuccess::into_response`. -/
def authSuccess (env : Env) (status : StatusCode) (accessToken refreshToken : String) : Response :=
  match setTokenCookies env status.intoResponse accessToken refreshToken with
  | some response => response
  | none => StatusCode.INTERNAL_SERVER_ERROR.intoResponse

variable (lib) in
/-- The response of `login` and of `update_user` once their user is found: fresh tokens, or `failure`. -/
def userResponse (env : Env) (failure : StatusCode) (userId : Uuid) : Response :=
  match createAccessToken lib env userId, createRefreshToken lib env userId with
  | some token, some refreshToken => authSuccess env .OK token refreshToken
  | _, _ => failure.intoResponse

variable (lib) in
/-- The response of a successful `login`. -/
def login (env : Env) (userId : Uuid) : Response :=
  userResponse lib env .SERVICE_UNAVAILABLE userId

/-- What a protected handler of the two services does, apart from `logout` and `delete_user`: a
successful `update_user` answers with fresh cookies, everything else without. -/
inductive Route
  | updateUser
  | other (status : StatusCode)
deriving DecidableEq, Repr

variable (lib) in
def Route.handler (env : Env) : Route → Claims → Response
  | updateUser, claims => userResponse lib env .INTERNAL_SERVER_ERROR claims.sub
  | other status, _ => status.intoResponse

/-- A request to a protected route. -/
structure Visit where
  now : ℕ
  route : Route
deriving DecidableEq, Repr

variable (lib) in
/-- The client sends the request with the cookies it has left. -/
def Jar.visit (jar : Jar) (env : Env) (v : Visit) : Except StatusCode Response :=
  jwtAuth lib { env with now := v.now } (jar.header v.now) (v.route.handler lib { env with now := v.now })

variable (lib) in
/-- The cookies after the request. -/
def Jar.after (jar : Jar) (env : Env) (v : Visit) : Jar :=
  match jar.visit lib env v with
  | .ok response => jar.receive v.now response.setCookie
  | .error _ => jar

variable (lib) in
/-- `jwt_auth` accepts each of the requests. -/
def Accepted (env : Env) : Jar → List Visit → Prop
  | _, [] => True
  | jar, v :: visits => (∃ response, jar.visit lib env v = .ok response) ∧
      Accepted env (jar.after lib env v) visits

variable (lib) in
/-- The client holds a refresh token at each of the requests. -/
def HoldsRefresh (env : Env) : Jar → List Visit → Prop
  | _, [] => True
  | jar, v :: visits => jar.Holds v.now cookieRefresh ∧ HoldsRefresh env (jar.after lib env v) visits

/-- When the client last received its cookies, after a visit that was accepted on the direct branch. -/
def Visit.received (v : Visit) (last : ℕ) : ℕ :=
  match v.route with
  | .updateUser => v.now
  | .other _ => last

/-- Each request is made within the life of an access token, counted from the last cookies. -/
def Prompt : ℕ → List Visit → Prop
  | _, [] => True
  | last, v :: visits => v.now < last + accessTokenTtlSeconds ∧ Prompt (v.received last) visits

/-- Nothing but what the services set. -/
def Jar.OfServices (jar : Jar) : Prop :=
  ∀ s ∈ jar, (s.name = cookieAccess ∨ s.name = cookieRefresh) ∧ s.path = "/"

variable (lib secret) in
/-- The cookies of a client that last received them at `last`. -/
def sessionJar (userId : Uuid) (last : ℕ) : Jar :=
  [{ name := cookieAccess, value := (Mint.access userId last).token lib secret, path := "/",
     expiresAt := last + accessTokenTtlSeconds },
   { name := cookieRefresh, value := (Mint.refresh userId last).token lib secret, path := "/",
     expiresAt := last + refreshTokenTtlSeconds }]

theorem sessionJar_ofServices (userId : Uuid) (last : ℕ) :
    (sessionJar lib secret userId last).OfServices := by
  intro s hs
  rcases List.mem_pair.mp hs with rfl | rfl
  · exact ⟨Or.inl rfl, rfl⟩
  · exact ⟨Or.inr rfl, rfl⟩

/-- Fresh cookies replace everything. -/
theorem receive_freshCookies {jar : Jar} (hjar : jar.OfServices) (userId : Uuid) :
    jar.receive env.now (freshCookies lib env secret userId) = sessionJar lib secret userId env.now := by
  have hne : cookieAccess ≠ cookieRefresh := by decide
  have hrest : ∀ s ∈ jar, ¬ s.name = cookieRefresh ∨ ¬ s.path = "/" →
      s.name = cookieAccess ∧ s.path = "/" := by
    intro s hs hnot
    obtain ⟨hname | hname, hpath⟩ := hjar s hs
    · exact ⟨hname, hpath⟩
    · exact absurd ⟨hname, hpath⟩ (not_and_or.mpr hnot)
  simpa [Jar.receive, freshCookies, Jar.store, accessCookie, refreshCookie, sessionJar,
    List.filter_filter, hne] using hrest

variable (lib secret) in
theorem isToken_freshCookies (userId : Uuid) (last : ℕ) :
    ∀ c ∈ [(cookieAccess, (Mint.access userId last).token lib secret),
      (cookieRefresh, (Mint.refresh userId last).token lib secret)], IsToken c.1 ∧ IsToken c.2 := by
  intro c hc
  rcases List.mem_pair.mp hc with rfl | rfl
  · exact ⟨isToken_cookieAccess, isToken_token lib secret _⟩
  · exact ⟨isToken_cookieRefresh, isToken_token lib secret _⟩

/-- Within the life of the access cookie both cookies are sent. -/
theorem header_sessionJar_of_lt {userId : Uuid} {last now : ℕ}
    (h : now < last + accessTokenTtlSeconds) :
    (sessionJar lib secret userId last).header now =
      some (cookieHeader [(cookieAccess, (Mint.access userId last).token lib secret),
        (cookieRefresh, (Mint.refresh userId last).token lib secret)]) := by
  have hrefresh : now < last + refreshTokenTtlSeconds :=
    h.trans (Nat.add_lt_add_left (by decide) last)
  simp [Jar.header, Jar.live, sessionJar, h, hrefresh]

variable (lib secret) in
/-- After it the refresh token is sent alone, or nothing. -/
theorem header_sessionJar_of_not_lt (userId : Uuid) {last now : ℕ}
    (h : ¬ now < last + accessTokenTtlSeconds) :
    (sessionJar lib secret userId last).header now =
        some (cookieHeader [(cookieRefresh, (Mint.refresh userId last).token lib secret)]) ∨
      (sessionJar lib secret userId last).header now = none := by
  by_cases hrefresh : now < last + refreshTokenTtlSeconds
  · left
    simp [Jar.header, Jar.live, sessionJar, h, hrefresh]
  · right
    simp [Jar.header, Jar.live, sessionJar, h, hrefresh]

/-- The middleware takes such a request on its direct branch, or not at all. -/
theorem authenticate_sessionJar (hsecret : env.jwtSecret = some secret) (userId : Uuid) (last : ℕ) :
    authenticate lib env ((sessionJar lib secret userId last).header env.now) =
      if env.now < last + accessTokenTtlSeconds then
        .ok { claims := { sub := userId, exp := last + accessTokenTtlSeconds,
                          tokenType := accessTokenType },
              fresh := none }
      else .error .UNAUTHORIZED := by
  have htoken := isToken_freshCookies lib secret userId last
  by_cases h : env.now < last + accessTokenTtlSeconds
  · rw [if_pos h, header_sessionJar_of_lt h]
    refine (authenticate_eq_ok_iff hsecret (toStr_cookieHeader htoken)).mpr
      ⟨(Mint.access userId last).token lib secret, ?_, Or.inl ⟨_, decode_live rfl ?_, rfl, rfl⟩⟩
    · exact parseCookie_eq_some_iff.mp (parseCookie_cookieHeader htoken cookieAccess)
    · exact h.le.trans (Nat.le_add_right _ leeway)
  · rw [if_neg h]
    have hne : (cookieAccess == cookieRefresh) = false := by decide
    have hsingle : ∀ c ∈ [(cookieRefresh, (Mint.refresh userId last).token lib secret)],
        IsToken c.1 ∧ IsToken c.2 := fun c hc => htoken c (List.mem_cons_of_mem _ hc)
    rcases header_sessionJar_of_not_lt lib secret userId h with hheader | hheader
    · simp only [hheader, authenticate, Option.bind_some, toStr_cookieHeader hsingle,
        parseCookie_cookieHeader hsingle, List.lookup_cons, List.lookup_nil, hne]
    · rw [hheader]
      rfl

/-- What a client's request comes to. -/
theorem visit_sessionJar (hsecret : env.jwtSecret = some secret) (userId : Uuid) (last : ℕ) (v : Visit) :
    (sessionJar lib secret userId last).visit lib env v =
      if v.now < last + accessTokenTtlSeconds then
        .ok (v.route.handler lib { env with now := v.now }
          { sub := userId, exp := last + accessTokenTtlSeconds, tokenType := accessTokenType })
      else .error .UNAUTHORIZED := by
  have hsecret' : ({ env with now := v.now } : Env).jwtSecret = some secret := hsecret
  rw [Jar.visit, jwtAuth, authenticate_sessionJar hsecret' userId last]
  by_cases h : v.now < last + accessTokenTtlSeconds
  · rw [if_pos h, if_pos h]
    rfl
  · rw [if_neg h, if_neg h]

/-- `AuthSuccess` sets fresh cookies. -/
theorem setCookie_userResponse (hsecret : env.jwtSecret = some secret) (failure : StatusCode)
    (userId : Uuid) :
    (userResponse lib env failure userId).setCookie = freshCookies lib env secret userId := by
  simp only [userResponse, createAccessToken_eq hsecret, createRefreshToken_eq hsecret, authSuccess,
    setTokenCookies_eq env _ (isToken_token lib secret _) (isToken_token lib secret _)]
  rfl

/-- One visit keeps the jar of a session. -/
theorem after_sessionJar (hsecret : env.jwtSecret = some secret) (userId : Uuid) {last : ℕ} {v : Visit}
    (h : v.now < last + accessTokenTtlSeconds) :
    (sessionJar lib secret userId last).after lib env v =
      sessionJar lib secret userId (v.received last) := by
  have hsecret' : ({ env with now := v.now } : Env).jwtSecret = some secret := hsecret
  rw [Jar.after, visit_sessionJar hsecret, if_pos h]
  cases hroute : v.route with
  | updateUser =>
    simp only [Route.handler, setCookie_userResponse hsecret', Visit.received, hroute]
    exact receive_freshCookies (sessionJar_ofServices userId last) userId
  | other status =>
    simp only [Route.handler, Visit.received, hroute]
    rfl

theorem accepted_sessionJar_iff (hsecret : env.jwtSecret = some secret) (userId : Uuid) (last : ℕ)
    (visits : List Visit) :
    Accepted lib env (sessionJar lib secret userId last) visits ↔ Prompt last visits := by
  induction visits generalizing last with
  | nil => exact iff_of_true trivial trivial
  | cons v visits ih =>
    simp only [Accepted, Prompt, visit_sessionJar hsecret]
    by_cases h : v.now < last + accessTokenTtlSeconds
    · rw [after_sessionJar hsecret userId h, ih]
      simp [h]
    · simp [h]

/-- **A session stays alive exactly as long as no request comes after the access cookie has gone.** Then
the middleware finds no access token and answers 401 without a look at the refresh token, which the
client still sends. -/
theorem session_accepted_iff (hsecret : env.jwtSecret = some secret) {jar : Jar}
    (hjar : jar.OfServices) (userId : Uuid) (visits : List Visit) :
    Accepted lib env (jar.receive env.now (login lib env userId).setCookie) visits ↔
      Prompt env.now visits := by
  rw [login, setCookie_userResponse hsecret, receive_freshCookies hjar]
  exact accepted_sessionJar_iff hsecret userId env.now visits

/-- The surroundings of a login. -/
def loginEnv : Env where
  jwtSecret := some "k"
  now := 0
  debugAssertions := true

/-- Two requests of user 7, each within a quarter of an hour of the last cookies. -/
theorem session_accepted_iff_of_update :
    Accepted plainToken loginEnv (Jar.receive [] 0 (login plainToken loginEnv 7).setCookie)
      [{ now := 600, route := .updateUser }, { now := 1400, route := .other .OK }] := by
  have hprompt : Prompt 0 [{ now := 600, route := .updateUser }, { now := 1400, route := .other .OK }] := by
    simp [Prompt, Visit.received, accessTokenTtlSeconds]
  have hsecret : loginEnv.jwtSecret = some "k" := rfl
  exact (session_accepted_iff hsecret (fun s hs => absurd hs List.not_mem_nil) 7 _).mpr hprompt

/-- **A client that holds a refresh token can still be answered 401.** It logs in and comes back a quarter
of an hour later. -/
theorem quiet_session_refused :
    ¬ ∀ (env : Env) (secret : String) (jar : Jar) (userId : Uuid) (visits : List Visit),
      env.jwtSecret = some secret → jar.OfServices →
      HoldsRefresh plainToken env (jar.receive env.now (login plainToken env userId).setCookie) visits →
        Accepted plainToken env (jar.receive env.now (login plainToken env userId).setCookie) visits := by
  intro hall
  have hsecret : loginEnv.jwtSecret = some "k" := rfl
  have hnil : Jar.OfServices [] := fun s hs => absurd hs List.not_mem_nil
  have hjar : Jar.receive [] loginEnv.now (login plainToken loginEnv 7).setCookie =
      sessionJar plainToken "k" 7 loginEnv.now := by
    rw [login, setCookie_userResponse hsecret, receive_freshCookies hnil]
  have hholds : (sessionJar plainToken "k" 7 loginEnv.now).Holds 900 cookieRefresh :=
    ⟨_, List.mem_filter.mpr ⟨List.mem_cons_of_mem _ List.mem_cons_self, by decide⟩, rfl⟩
  have haccepted := hall loginEnv "k" [] 7 [{ now := 900, route := .other .OK }] hsecret hnil
  rw [hjar, accepted_sessionJar_iff hsecret] at haccepted
  have hprompt := (haccepted ⟨hholds, trivial⟩).1
  exact absurd hprompt (by decide)

end Bittuly.Auth
