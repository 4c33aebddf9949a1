import Bittuly.Auth.Handlers
import Bittuly.Auth.Session
import Bittuly.Lib.Run

/-!
# Who is signed in

References: `web/src/context/AuthContext.tsx` (`AuthProvider`), `web/src/api/client.ts` (`apiRequest`),
`web/src/api/auth.ts`, `web/src/router/ProtectedRoute.tsx`, `web/src/pages/Login.tsx`,
`web/src/pages/VerifyOtp.tsx`, `web/src/pages/Profile.tsx` (`saveEdit`), `web/src/pages/Settings.tsx`
(`handleDeleteAccount`).

A browser knows its user in three places: the token cookies and the id in `localStorage`, which all its tabs
share, and the `AuthContext` of each tab. A `Browser` is these with the requests in flight; the services are
the functions of `Bittuly.Auth`, over any table at each request. The cookies of an answer and what its caller
does with it are one step.

What the services can answer to each request is `answers_of_served`. Answers arrive whole or not at all;
`StrictMode`, which runs effects twice in development, is left out.
-/

namespace Bittuly.Web

open Runs Auth

/-! ## The provider and its callers -/

/-- The state of `AuthProvider`. -/
structure AuthContext where
  user : Option UserJson
  isLoading : Bool
deriving DecidableEq, Repr

/-- What a user does on a page. -/
inductive PageAction (Salt : Type)
  | signup (payload : CreateUserPayload) (draw : SignupDraw Salt)
  | verifyOtp (pendingToken otp : String) (id : Uuid)
  | login (payload : LoginPayload)
  | signOut
  | saveEdit (username email : String) (salt : Salt)
  | handleDeleteAccount (confirmUsername : String)
  /-- Any request to url-service. -/
  | urls (handler : Claims → StatusCode)

namespace AuthContext

variable {Salt : Type}

/-- `ProtectedRoute`: whom the protected pages are shown to. -/
def protectedRoute (c : AuthContext) : Option UserJson :=
  if c.isLoading then none else c.user

/-- The request that a page sends; none if the page is not shown or its button is disabled. -/
def send (c : AuthContext) (cookie : Option String) : PageAction Salt → Option (Auth.Request Salt)
  | .signup payload draw => some (.signup payload draw)
  | .verifyOtp pendingToken otp id => some (.verifyOtp pendingToken otp id)
  | .login payload => some (.login payload)
  | .signOut => c.protectedRoute.map fun _ => .logout cookie
  | .saveEdit username email salt => c.protectedRoute.map fun user =>
    .updateUser cookie (some user.id) { username := some username, email := some email, password := none } salt
  | .handleDeleteAccount confirmUsername =>
    (c.protectedRoute.filter fun user => confirmUsername = user.username).map fun user =>
      .deleteUser cookie (some user.id)
  | .urls handler => c.protectedRoute.map fun _ => .urlService cookie handler

end AuthContext

/-- The user of a body, or `null`. -/
def asUser : Body → Option UserJson
  | .user user => some user
  | _ => none

/-- What `apiRequest` resolves to, `none` if it throws. There is no answer when the request fails; an answer
arrives whole (a body that is cut would be read as `{}` by `res.json().catch`). -/
def apiRequest (answer : Option Reply) : Option Body :=
  answer.bind fun reply => if reply.response.status.isError then none else some reply.body

namespace AuthContext

/-- `localStorage.setItem` and `setUser` with a result; `user.id` throws if there is none. -/
def enter (c : AuthContext) (storedId : Option Uuid) (result : Option Body) : AuthContext × Option Uuid :=
  match result.bind asUser with
  | some user => ({ c with user := some user }, some user.id)
  | none => (c, storedId)

/-- What the caller of a request does with its result: the context and the stored id after it. -/
def receive {Salt : Type} (c : AuthContext) (storedId : Option Uuid) :
    Auth.Request Salt → Option Body → AuthContext × Option Uuid
  -- `AuthProvider`
  | .getUserById _ _, some body => ({ user := asUser body, isLoading := false }, storedId)
  | .getUserById _ _, none => ({ c with isLoading := false }, none)
  | .logout _, _ => ({ c with user := none }, none)
  -- `Login`, `VerifyOtp`, `Profile`
  | .login _, result => c.enter storedId result
  | .verifyOtp _ _ _, result => c.enter storedId result
  | .updateUser _ _ _ _, result => c.enter storedId result
  -- `Settings`
  | .deleteUser _ _, some _ => ({ c with user := none }, none)
  | .deleteUser _ _, none => (c, storedId)
  | .signup _ _, _ => (c, storedId)
  | .urlService _ _, _ => (c, storedId)

end AuthContext

/-! ## The browser -/

/-- A request in flight, with the answer that the services have made. -/
structure AuthCall (Salt : Type) where
  request : Auth.Request Salt
  answer : Option Reply

structure Tab (Salt : Type) where
  context : AuthContext
  calls : List (AuthCall Salt)

structure Browser (Salt : Type) where
  now : ℕ
  /-- `bittuly_user_id` in `localStorage`. -/
  storedId : Option Uuid
  jar : Jar
  tabs : List (Tab Salt)

inductive BrowserEvent (Salt : Type)
  | tick (seconds : ℕ)
  /-- A tab is opened; loading it again is closing and opening it. -/
  | load
  | close (t : ℕ)
  | act (t : ℕ) (action : PageAction Salt)
  /-- The services answer a call of a tab. -/
  | serve (t i : ℕ) (replica : Option Users) (write : DbResult) (users : Users)
  /-- A call fails, or its answer is lost. -/
  | fail (t i : ℕ)
  | arrive (t i : ℕ)

variable (lib : JsonWebToken) (hasher : PasswordHasher) (validateEmail : String → Bool) (env : Env)

namespace Browser

/-- A browser that has not been here before. -/
def start (now : ℕ) : Browser hasher.Salt where
  now := now
  storedId := none
  jar := []
  tabs := []

section

variable {Salt : Type}

/-- `AuthProvider` is mounted. -/
def mounted (b : Browser Salt) : Tab Salt :=
  match b.storedId with
  | none => { context := { user := none, isLoading := false }, calls := [] }
  | some storedId =>
    { context := { user := none, isLoading := true },
      calls := [{ request := .getUserById (b.jar.header b.now) (some storedId), answer := none }] }

/-- A call of a tab. -/
def call? (b : Browser Salt) (t i : ℕ) : Option (Tab Salt × AuthCall Salt) := do
  let tab ← b.tabs[t]?
  let call ← tab.calls[i]?
  some (tab, call)

/-- The cookies of an answer. -/
def cookies (answer : Option Reply) : List SetCookie :=
  answer.elim [] fun reply => reply.response.setCookie

/-- A call is over. -/
def finish (b : Browser Salt) (t i : ℕ) (tab : Tab Salt) (request : Auth.Request Salt)
    (answer : Option Reply) : Browser Salt :=
  let received := tab.context.receive b.storedId request (apiRequest answer)
  { b with
    storedId := received.2
    jar := b.jar.receive b.now (cookies answer)
    tabs := b.tabs.set t { context := received.1, calls := tab.calls.eraseIdx i } }

end

def step (b : Browser hasher.Salt) : BrowserEvent hasher.Salt → Option (Browser hasher.Salt)
  | .tick seconds => some { b with now := b.now + seconds }
  | .load => some { b with tabs := b.tabs ++ [b.mounted] }
  | .close t => some { b with tabs := b.tabs.eraseIdx t }
  | .act t action => do
    let tab ← b.tabs[t]?
    let request ← tab.context.send (b.jar.header b.now) action
    some { b with tabs := b.tabs.set t { tab with calls := tab.calls ++ [{ request, answer := none }] } }
  | .serve t i replica write users => do
    let (tab, call) ← b.call? t i
    let served := serve lib hasher validateEmail { env with now := b.now } replica write users call.request
    if call.answer.isSome then none
    else some { b with
      tabs := b.tabs.set t { tab with calls := tab.calls.set i { call with answer := some served.1 } } }
  | .fail t i => do
    let (tab, call) ← b.call? t i
    some (b.finish t i tab call.request none)
  | .arrive t i => do
    let (tab, call) ← b.call? t i
    let reply ← call.answer
    some (b.finish t i tab call.request (some reply))

/-! ## When all places name one user -/

/-- A token of this user. -/
def TokenOf (secret : String) (userId : Uuid) (value : String) : Prop :=
  ∃ t, value = (Mint.access userId t).token lib secret ∨ value = (Mint.refresh userId t).token lib secret

/-- The stored id, the cookies and the tabs name one user. -/
structure Agrees (secret : String) {Salt : Type} (b : Browser Salt) : Prop where
  shown : ∀ tab ∈ b.tabs, ∀ user ∈ tab.context.user, b.storedId = some user.id
  tokens : ∀ id ∈ b.storedId, ∀ c ∈ b.jar, TokenOf lib secret id c.value

/-- The other tabs show nobody, or the user with this id. -/
def OthersShow {Salt : Type} (b : Browser Salt) (t : ℕ) (id : Option Uuid) : Prop :=
  ∀ tab ∈ b.tabs.eraseIdx t, ∀ user ∈ tab.context.user, id = some user.id

/-- The cookies of an answer are for the signed-in user. -/
def InPlace (secret : String) {Salt : Type} (b : Browser Salt) (answer : Option Reply) : Prop :=
  ∀ id ∈ b.storedId, ∀ c ∈ cookies answer, TokenOf lib secret id c.value

/-- A user signs in while the others show nobody else. -/
def Entering (secret : String) {Salt : Type} (b : Browser Salt) (t : ℕ) (answer : Option Reply)
    (result : Option Body) : Prop :=
  match result.bind asUser with
  | some user => b.OthersShow t (some user.id)
  | none => b.InPlace lib secret answer

/-- The result of a call comes in time: while the user it is about is the one that is signed in, and no tab
shows anybody whom it replaces. -/
def InTime (secret : String) {Salt : Type} (b : Browser Salt) (t : ℕ) (answer : Option Reply) :
    Auth.Request Salt → Option Body → Prop
  | .getUserById _ _, some body => ∀ user ∈ asUser body, b.storedId = some user.id
  | .getUserById _ _, none => ∀ tab ∈ b.tabs, tab.context.user = none
  | .logout _, _ => b.OthersShow t none
  | .login _, result => b.Entering lib secret t answer result
  | .verifyOtp _ _ _, result => b.Entering lib secret t answer result
  | .updateUser _ _ _ _, result => b.Entering lib secret t answer result
  | .deleteUser _ _, some _ => b.OthersShow t none
  -- the session is left alone, but the middleware may have added cookies
  | .deleteUser _ _, none => b.InPlace lib secret answer
  | .signup _ _, _ => b.InPlace lib secret answer
  | .urlService _ _, _ => b.InPlace lib secret answer

/-- The calls of a step come in time. -/
def Timely (secret : String) {Salt : Type} (b : Browser Salt) : BrowserEvent Salt → Prop
  | .fail t i => ∀ tab call, b.call? t i = some (tab, call) →
    b.InTime lib secret t none call.request (apiRequest none)
  | .arrive t i => ∀ tab call, b.call? t i = some (tab, call) →
    b.InTime lib secret t call.answer call.request (apiRequest call.answer)
  | _ => True

variable {lib hasher validateEmail env} {secret : String}

/-! ## What the services answer -/

variable (lib hasher validateEmail secret) in
/-- The services have answered this to the request, at some time and from some tables. -/
def Served (request : Auth.Request hasher.Salt) (reply : Reply) : Prop :=
  ∃ (env : Env) (replica : Option Users) (write : DbResult) (users : Users), env.jwtSecret = some secret ∧
    reply = (serve lib hasher validateEmail env replica write users request).1

variable (lib secret) in
/-- No cookies, or fresh ones of the user. -/
def Refreshes (userId : Uuid) (setCookie : List SetCookie) : Prop :=
  setCookie = [] ∨ ∃ env, setCookie = freshCookies lib env secret userId

variable (lib secret) in
/-- An error, or a user together with new cookies of that user. -/
def SignsIn (reply : Reply) : Prop :=
  (apiRequest (some reply) = none ∧ ∃ userId, Refreshes lib secret userId reply.response.setCookie) ∨
    ∃ user before env, apiRequest (some reply) = some (.user user) ∧ Refreshes lib secret user.id before ∧
      reply.response.setCookie = before ++ freshCookies lib env secret user.id

/-- A token cookie, or a cleared one. -/
def ServiceCookie (c : SetCookie) : Prop :=
  (c.name = cookieAccess ∨ c.name = cookieRefresh) ∧ c.path = "/" ∧ IsToken c.value

variable (lib secret) in
/-- What can be the answer to a request. -/
def Answers {Salt : Type} (reply : Reply) : Auth.Request Salt → Prop
  | .login _ => SignsIn lib secret reply
  | .verifyOtp _ _ _ => SignsIn lib secret reply
  | .updateUser _ _ _ _ => SignsIn lib secret reply
  | .getUserById _ _ => ∃ userId, Refreshes lib secret userId reply.response.setCookie ∧
    (apiRequest (some reply) = none ∨
      ∃ user, apiRequest (some reply) = some (.user user) ∧ user.id = userId)
  | .logout _ => ∀ c ∈ reply.response.setCookie, ServiceCookie c
  | _ => ∃ userId, Refreshes lib secret userId reply.response.setCookie

/-- Fresh cookies are tokens. -/
theorem tokenOf_of_refreshes {userId : Uuid} {cookies : List SetCookie}
    (h : Refreshes lib secret userId cookies) :
    ∀ c ∈ cookies, TokenOf lib secret userId c.value ∧ ServiceCookie c := by
  intro c hc
  rcases h with rfl | ⟨env, rfl⟩
  · cases hc
  · rcases List.mem_pair.mp hc with rfl | rfl
    · exact ⟨⟨env.now, .inl rfl⟩, .inl rfl, rfl, isToken_token lib secret _⟩
    · exact ⟨⟨env.now, .inr rfl⟩, .inr rfl, rfl, isToken_token lib secret _⟩

/-- The cookies of the middleware. -/
theorem refreshes_cookies {env : Env} (hsecret : env.jwtSecret = some secret) {cookie : Option String}
    {a : Admission} (h : authenticate lib env cookie = .ok a) :
    Refreshes lib secret a.claims.sub (a.cookies env) := by
  rcases cookies_of_authenticate hsecret h with hfresh | hfresh
  · left
    rw [Admission.cookies, hfresh]
  · right
    refine ⟨env, ?_⟩
    rw [Admission.cookies, hfresh]
    rfl

/-- The cookies of a protected request whose handler sets none. -/
theorem refreshes_protect {env : Env} (hsecret : env.jwtSecret = some secret) {cookie : Option String}
    {users : Users} {next : Claims → Reply × Users} (hnext : ∀ c, (next c).1.response.setCookie = []) :
    ∃ userId, Refreshes lib secret userId (protect lib env cookie users next).1.response.setCookie := by
  rcases protect_cases cookie users next with ⟨status, -, heq⟩ | ⟨a, hauth, heq⟩
  · rw [heq]
    exact ⟨0, .inl rfl⟩
  · rw [heq]
    refine ⟨a.claims.sub, ?_⟩
    show Refreshes lib secret a.claims.sub ((next a.claims).1.response.setCookie ++ a.cookies env)
    rw [hnext, List.nil_append]
    exact refreshes_cookies hsecret hauth

theorem apiRequest_error {reply : Reply} (h : reply.response.status.isError = true) :
    apiRequest (some reply) = none :=
  if_pos h

theorem signsIn_of_refused {reply : Reply} (h : reply.Refused) : SignsIn lib secret reply :=
  .inl ⟨apiRequest_error h.isError, 0, .inl h.setCookie⟩

theorem signsIn_granted {env : Env} {status : StatusCode} (hstatus : status.isError = false) (u : User) :
    SignsIn lib secret (granted lib env secret status u) := by
  refine .inr ⟨u.toJson, [], env, ?_, .inl rfl, rfl⟩
  show (if status.isError then none else some (Body.user u.toJson)) = _
  rw [hstatus]
  rfl

/-- A refusal, with what the middleware adds to it. -/
theorem signsIn_of_refused_append {reply : Reply} (h : reply.Refused) {cookies : List SetCookie}
    {userId : Uuid} (hcookies : Refreshes lib secret userId cookies) :
    SignsIn lib secret { reply with
      response := { reply.response with setCookie := reply.response.setCookie ++ cookies } } := by
  refine .inl ⟨apiRequest_error h.isError, userId, ?_⟩
  show Refreshes lib secret userId (reply.response.setCookie ++ cookies)
  rw [h.setCookie]
  exact hcookies

theorem signsIn_written {write : DbResult} {failed reply : Reply} {users users' : Users}
    (hfailed : failed.Refused) (hreply : SignsIn lib secret reply) :
    SignsIn lib secret (Handlers.written write failed users users' reply).1 := by
  cases write with
  | ok => exact hreply
  | errApplied => exact signsIn_of_refused hfailed
  | err => exact signsIn_of_refused hfailed

theorem id_of_updateUser {users users' : Users} {userId : Uuid} {payload : UpdateUserPayload} {u : User}
    (h : users.updateUser userId payload = .ok (u, users')) : u.id = userId := by
  obtain ⟨row, -, rfl, rfl, -⟩ := Users.updateUser_eq_ok_iff.mp h
  rfl

/-- **What the services can answer.** -/
theorem answers_of_served {request : Auth.Request hasher.Salt} {reply : Reply}
    (h : Served lib hasher validateEmail secret request reply) : Answers lib secret reply request := by
  obtain ⟨env, replica, write, users, hsecret, rfl⟩ := h
  cases request with
  | signup payload draw =>
    refine ⟨0, .inl ?_⟩
    show (Handlers.requestSignup lib hasher validateEmail env replica payload draw).response.setCookie = []
    rcases Handlers.requestSignup_cases replica payload draw with h | ⟨_, _, _, -, -, -, heq⟩
    · exact h.setCookie
    · rw [heq]
      rfl
  | verifyOtp pendingToken otp id =>
    rcases Handlers.verifyOtp_cases write users pendingToken otp id with
      ⟨h, -⟩ | ⟨secret', c, u, users', hsecret', -, -, -, heq⟩
    · exact signsIn_of_refused h
    · obtain rfl := Option.some.inj (hsecret.symm.trans hsecret')
      show SignsIn lib secret (Handlers.verifyOtp lib hasher env write users pendingToken otp id).1
      rw [heq]
      exact signsIn_written (StatusCode.refused_reply rfl rfl) (signsIn_granted rfl u)
  | login payload =>
    show SignsIn lib secret (Handlers.login lib hasher validateEmail env replica payload)
    rcases Handlers.login_cases replica payload with h | ⟨secret', _, u, hsecret', -, -, -, -, heq⟩
    · exact signsIn_of_refused h
    · obtain rfl := Option.some.inj (hsecret.symm.trans hsecret')
      rw [heq]
      exact signsIn_granted rfl u
  | logout cookie =>
    show ∀ c ∈ (protect lib env cookie users _).1.response.setCookie, ServiceCookie c
    rcases protect_cases cookie users fun _ => (Handlers.logout, users) with
      ⟨status, -, heq⟩ | ⟨a, hauth, heq⟩
    · rw [heq]
      intro c hc
      cases hc
    · rw [heq]
      intro c hc
      rcases List.mem_append.mp hc with hclear | hfresh
      · obtain ⟨name, hname, rfl⟩ := List.mem_map.mp hclear
        exact ⟨List.mem_pair.mp hname, rfl, fun x hx => by cases hx⟩
      · exact (tokenOf_of_refreshes (refreshes_cookies hsecret hauth) c hfresh).2
  | getUserById cookie path =>
    show ∃ userId, Refreshes lib secret userId (protect lib env cookie users _).1.response.setCookie ∧
      (apiRequest (some (protect lib env cookie users _).1) = none ∨
        ∃ user, apiRequest (some (protect lib env cookie users _).1) = some (.user user) ∧ user.id = userId)
    rcases protect_cases cookie users fun c => (Handlers.getUserById replica path c, users) with
      ⟨status, hstatus, heq⟩ | ⟨a, hauth, heq⟩
    · rw [heq]
      exact ⟨0, .inl rfl, .inl (apiRequest_error hstatus)⟩
    · rw [heq]
      refine ⟨a.claims.sub, ?_⟩
      have hcookies := refreshes_cookies hsecret hauth
      rcases Handlers.getUserById_cases replica path a.claims with hrefused | ⟨u, hu, hreply⟩
      · refine ⟨?_, .inl (apiRequest_error hrefused.isError)⟩
        show Refreshes lib secret a.claims.sub (_ ++ _)
        rw [hrefused.setCookie]
        exact hcookies
      · simp only [hreply]
        exact ⟨hcookies, .inr ⟨u.toJson, rfl, hu⟩⟩
  | updateUser cookie path payload salt =>
    show SignsIn lib secret (protect lib env cookie users _).1
    rcases protect_cases cookie users
        (Handlers.updateUser lib hasher validateEmail env write users path payload salt) with
      ⟨status, hstatus, heq⟩ | ⟨a, hauth, heq⟩
    · rw [heq]
      exact .inl ⟨apiRequest_error hstatus, 0, .inl rfl⟩
    · rw [heq]
      have hcookies := refreshes_cookies hsecret hauth
      rcases Handlers.updateUser_cases hsecret write users path payload salt a.claims with
        ⟨hrefused, -⟩ | ⟨hashed, u, users', -, -, hupdate, hreply⟩
      · exact signsIn_of_refused_append hrefused hcookies
      · have hfailed : (StatusCode.INTERNAL_SERVER_ERROR.reply (.error "internal server error")).Refused :=
          StatusCode.refused_reply rfl rfl
        simp only [hreply]
        cases write with
        | errApplied => exact signsIn_of_refused_append hfailed hcookies
        | err => exact signsIn_of_refused_append hfailed hcookies
        | ok =>
          have hid : u.toJson.id = a.claims.sub := id_of_updateUser hupdate
          rcases hcookies with hnone | ⟨env', hfresh⟩
          · refine .inr ⟨u.toJson, [], env, rfl, .inl rfl, ?_⟩
            show freshCookies lib env secret u.id ++ a.cookies env = _
            rw [hnone, List.append_nil]
            rfl
          · refine .inr ⟨u.toJson, freshCookies lib env secret u.id, env', rfl, .inr ⟨env, rfl⟩, ?_⟩
            show freshCookies lib env secret u.id ++ a.cookies env = _
            rw [hfresh, hid]
  | deleteUser cookie path =>
    apply refreshes_protect hsecret
    intro c
    rcases Handlers.deleteUser_cases write users path c with ⟨hrefused, -⟩ | ⟨-, heq⟩
    · exact hrefused.setCookie
    · rw [heq]
      cases write <;> rfl
  | urlService cookie handler =>
    exact refreshes_protect hsecret fun c => rfl

/-- The cookies of an answer are those of the services. -/
theorem serviceCookie_of_answers {Salt : Type} {request : Auth.Request Salt} {reply : Reply}
    (h : Answers lib secret reply request) : ∀ c ∈ reply.response.setCookie, ServiceCookie c := by
  have hrefreshes : ∀ {userId cookies}, Refreshes lib secret userId cookies → ∀ c ∈ cookies, ServiceCookie c :=
    fun hcookies c hc => (tokenOf_of_refreshes hcookies c hc).2
  have hsignsIn : SignsIn lib secret reply → ∀ c ∈ reply.response.setCookie, ServiceCookie c := by
    rintro (⟨-, userId, hcookies⟩ | ⟨user, before, env, -, hbefore, heq⟩)
    · exact hrefreshes hcookies
    · intro c hc
      rw [heq] at hc
      rcases List.mem_append.mp hc with hc | hc
      · exact hrefreshes hbefore c hc
      · exact hrefreshes (.inr ⟨env, rfl⟩) c hc
  cases request with
  | login payload => exact hsignsIn h
  | verifyOtp pendingToken otp id => exact hsignsIn h
  | updateUser cookie path payload salt => exact hsignsIn h
  | logout cookie => exact h
  | getUserById cookie path =>
    obtain ⟨userId, hcookies, -⟩ := h
    exact hrefreshes hcookies
  | signup payload draw =>
    obtain ⟨userId, hcookies⟩ := h
    exact hrefreshes hcookies
  | deleteUser cookie path =>
    obtain ⟨userId, hcookies⟩ := h
    exact hrefreshes hcookies
  | urlService cookie handler =>
    obtain ⟨userId, hcookies⟩ := h
    exact hrefreshes hcookies

end Browser

end Bittuly.Web
