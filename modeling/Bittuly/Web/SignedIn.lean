import Bittuly.Auth.Accounts
import Bittuly.Web.AuthContext

/-!
# Agreement about the user

References: `web/src/context/AuthContext.tsx` (`AuthProvider`), `web/src/pages/Login.tsx`,
`web/src/pages/VerifyOtp.tsx`, `web/src/pages/Profile.tsx`, `web/src/pages/Settings.tsx`,
`libs/shared/src/jwt.rs` (`jwt_auth`).

No result of a call is dropped, however late it comes, and no tab hears of what another one does. So the
stored id, the cookies and the tabs may come to name different users. `one_user_iff` says when they do not:
exactly if each result comes while the user it is about is the one that is signed in, and replaces nobody
that a tab still shows. Then a page acts as the user it shows (`admitted_as_shown`).
-/

namespace Bittuly.Web

open Runs Auth

namespace Browser

variable {lib : JsonWebToken} {hasher : PasswordHasher} {validateEmail : String → Bool} {env : Env}
  {secret : String}

/-! ## The jar -/

/-- The jar of a browser that knows these services only. -/
structure Clean (jar : Jar) : Prop where
  ofServices : jar.OfServices
  isToken : ∀ s ∈ jar, IsToken s.value

theorem Clean.receive {jar : Jar} (h : Clean jar) (now : ℕ) {cookies : List SetCookie}
    (hcookies : ∀ c ∈ cookies, ServiceCookie c) : Clean (jar.receive now cookies) := by
  induction cookies generalizing jar with
  | nil => exact h
  | cons c cs ih =>
    obtain ⟨hname, hpath, htoken⟩ := hcookies c List.mem_cons_self
    refine ih ⟨?_, ?_⟩ fun c' hc' => hcookies c' (List.mem_cons_of_mem _ hc')
    · intro s hs
      rcases List.mem_append.mp hs with hold | hnew
      · exact h.ofServices s (List.mem_of_mem_filter hold)
      · rw [List.mem_singleton.mp hnew]
        exact ⟨hname, hpath⟩
    · intro s hs
      rcases List.mem_append.mp hs with hold | hnew
      · exact h.isToken s (List.mem_of_mem_filter hold)
      · rw [List.mem_singleton.mp hnew]
        exact htoken

variable {b b' : Browser hasher.Salt} {t i : ℕ} {tab : Tab hasher.Salt} {call : AuthCall hasher.Salt}
  {answer : Option Reply}

/-- What holds after one entry is replaced holds of the new one and of the others. -/
theorem forall_mem_set_iff {α : Type*} {l : List α} {k : ℕ} {x y : α} (h : l[k]? = some x) {P : α → Prop} :
    (∀ z ∈ l.set k y, P z) ↔ P y ∧ ∀ z ∈ l.eraseIdx k, P z := by
  obtain ⟨hk, -⟩ := List.getElem?_eq_some_iff.mp h
  rw [List.set_eq_take_append_cons_drop, if_pos hk, List.eraseIdx_eq_take_drop_succ]
  simp only [List.forall_mem_append, List.forall_mem_cons]
  exact and_left_comm

theorem call?_eq_some_iff {Salt : Type} {b : Browser Salt} {tab : Tab Salt} {call : AuthCall Salt} :
    b.call? t i = some (tab, call) ↔ b.tabs[t]? = some tab ∧ tab.calls[i]? = some call := by
  simp only [call?, Option.bind_eq_bind, Option.bind_eq_some_iff, Option.some.injEq, Prod.mk.injEq]
  constructor
  · rintro ⟨tab', htab, call', hcall, rfl, rfl⟩
    exact ⟨htab, hcall⟩
  · rintro ⟨htab, hcall⟩
    exact ⟨tab, htab, call, hcall, rfl, rfl⟩

variable (lib secret) in
/-- The jar has cookies of the services only, and so have the answers. -/
structure Inv {Salt : Type} (b : Browser Salt) : Prop where
  clean : Clean b.jar
  answers : ∀ tab ∈ b.tabs, ∀ call ∈ tab.calls, ∀ reply, call.answer = some reply →
    Answers lib secret reply call.request

/-- Replacing a tab. -/
theorem Inv.set (h : b.Inv lib secret) (t : ℕ) (hcalls : ∀ call ∈ tab.calls, ∀ reply,
    call.answer = some reply → Answers lib secret reply call.request) :
    Inv lib secret { b with tabs := b.tabs.set t tab } where
  clean := h.clean
  answers := by
    intro tab' htab'
    rcases List.mem_or_eq_of_mem_set htab' with hold | rfl
    · exact h.answers tab' hold
    · exact hcalls

theorem Inv.finish (h : b.Inv lib secret) (hcall : b.call? t i = some (tab, call))
    (hanswer : ∀ reply, answer = some reply → call.answer = some reply) :
    (b.finish t i tab call.request answer).Inv lib secret := by
  obtain ⟨htab, hcalls⟩ := call?_eq_some_iff.mp hcall
  have hmem := List.mem_of_getElem? htab
  have hcookies : ∀ c ∈ cookies answer, ServiceCookie c := by
    cases answer with
    | none =>
      intro c hc
      cases hc
    | some reply =>
      exact serviceCookie_of_answers
        (h.answers tab hmem call (List.mem_of_getElem? hcalls) reply (hanswer reply rfl))
  refine ⟨h.clean.receive b.now hcookies, ?_⟩
  intro tab' htab'
  rcases List.mem_or_eq_of_mem_set htab' with hold | rfl
  · exact h.answers tab' hold
  · intro call' hcall'
    exact h.answers tab hmem call' (List.mem_of_mem_eraseIdx hcall')

theorem Inv.step (hsecret : env.jwtSecret = some secret) {e : BrowserEvent hasher.Salt}
    (h : b.Inv lib secret) (hstep : b.step lib hasher validateEmail env e = some b') : b'.Inv lib secret := by
  cases e with
  | tick seconds =>
    obtain rfl := Option.some.inj hstep
    exact ⟨h.clean, h.answers⟩
  | load =>
    obtain rfl := Option.some.inj hstep
    refine ⟨h.clean, ?_⟩
    intro tab htab call hcall reply hreply
    rcases List.mem_append.mp htab with hold | hnew
    · exact h.answers tab hold call hcall reply hreply
    · rw [List.mem_singleton.mp hnew, mounted] at hcall
      split at hcall
      · cases hcall
      · rw [List.mem_singleton.mp hcall] at hreply
        cases hreply
  | close t =>
    obtain rfl := Option.some.inj hstep
    exact ⟨h.clean, fun tab htab => h.answers tab (List.mem_of_mem_eraseIdx htab)⟩
  | act t action =>
    obtain ⟨tab, htab, hstep⟩ := Option.bind_eq_some_iff.mp hstep
    obtain ⟨request, -, hstep⟩ := Option.bind_eq_some_iff.mp hstep
    obtain rfl := Option.some.inj hstep
    apply h.set
    intro call hcall reply hreply
    rcases List.mem_append.mp hcall with hold | hnew
    · exact h.answers tab (List.mem_of_getElem? htab) call hold reply hreply
    · rw [List.mem_singleton.mp hnew] at hreply
      cases hreply
  | serve t i replica write users =>
    obtain ⟨⟨tab, call⟩, hcall, hstep⟩ := Option.bind_eq_some_iff.mp hstep
    obtain ⟨htab, -⟩ := call?_eq_some_iff.mp hcall
    simp only [Option.ite_none_left_eq_some] at hstep
    obtain rfl := Option.some.inj hstep.2
    apply h.set
    intro call' hcall' reply hreply
    rcases List.mem_or_eq_of_mem_set hcall' with hold | rfl
    · exact h.answers tab (List.mem_of_getElem? htab) call' hold reply hreply
    · obtain rfl := Option.some.inj hreply
      exact answers_of_served ⟨{ env with now := b.now }, replica, write, users, hsecret, rfl⟩
  | fail t i =>
    obtain ⟨⟨tab, call⟩, hcall, hstep⟩ := Option.bind_eq_some_iff.mp hstep
    obtain rfl := Option.some.inj hstep
    exact h.finish hcall fun reply hreply => by cases hreply
  | arrive t i =>
    obtain ⟨⟨tab, call⟩, hcall, hstep⟩ := Option.bind_eq_some_iff.mp hstep
    obtain ⟨reply, hreply, hstep⟩ := Option.bind_eq_some_iff.mp hstep
    obtain rfl := Option.some.inj hstep
    exact h.finish hcall fun reply' hreply' => by rw [← hreply', hreply]

/-! ## The end of a call -/

/-- Before the call they named one user. -/
theorem Agrees.othersShow (h : b.Agrees lib secret) (t : ℕ) : b.OthersShow t b.storedId :=
  fun tab htab => h.shown tab (List.mem_of_mem_eraseIdx htab)

theorem Inv.start (now : ℕ) : (start hasher now).Inv lib secret where
  clean := by
    constructor
    · rintro c ⟨⟩
    · rintro c ⟨⟩
  answers tab htab := by cases htab

theorem Agrees.start (now : ℕ) : (start hasher now).Agrees lib secret where
  shown tab htab := by cases htab
  tokens id hid := by cases hid

/-- A tab whose context stays the same. -/
theorem Agrees.set (h : b.Agrees lib secret) (htab : b.tabs[t]? = some tab) {tab' : Tab hasher.Salt}
    (hcontext : tab'.context = tab.context) : Agrees lib secret { b with tabs := b.tabs.set t tab' } where
  shown := by
    refine (forall_mem_set_iff htab).mpr ⟨?_, h.othersShow t⟩
    rw [hcontext]
    exact h.shown tab (List.mem_of_getElem? htab)
  tokens := h.tokens

/-- A login with the password of a row. -/
theorem login_granted (hsecret : env.jwtSecret = some secret) {users : Users} {payload : LoginPayload} {u : User}
    (hvalid : validateEmail payload.email = true) (hu : u ∈ users.rows) (hemail : u.email = payload.email)
    (hverify : hasher.verify payload.password u.password = some true) :
    Handlers.login lib hasher validateEmail env (some users) payload = granted lib env secret .OK u := by
  have hlogin : Services.login lib hasher env users payload.email payload.password =
      Services.authUserResponse lib env u := by
    simp only [Services.login, Users.getUserByEmail_eq_some_iff.mpr ⟨hu, hemail⟩, hverify]
  have hauth : Services.authUserResponse lib env u = .ok _ := Services.authUserResponse_eq hsecret u
  simp only [Handlers.login, hvalid, if_true, hlogin, hauth]
  exact intoReply_eq hsecret hauth .OK

def aliceLogin : LoginPayload where
  email := "alice@example.com"
  password := "secret"

/-- What Alice is answered. -/
def aliceReply : Reply :=
  granted plainToken Accounts.plainEnv "k" .OK (Accounts.alice.user 7)

/-- A browser with Alice signed in. -/
def aliceBrowser : Browser plainTextHasher.Salt where
  now := 0
  storedId := some 7
  jar := sessionJar plainToken "k" 7 0
  tabs := [{ context := { user := some (Accounts.alice.user 7).toJson, isLoading := false }, calls := [] }]

/-- Before that, with her login in flight. -/
def loggingIn (answer : Option Reply) : Browser plainTextHasher.Salt where
  now := 0
  storedId := none
  jar := []
  tabs := [{ context := { user := none, isLoading := false },
             calls := [{ request := .login aliceLogin, answer }] }]

theorem run_aliceBrowser :
    Run (step plainToken plainTextHasher Accounts.containsAt Accounts.plainEnv) (Timely plainToken "k")
      (start plainTextHasher 0)
      [.load, .act 0 (.login aliceLogin), .serve 0 0 (some Accounts.registered.users) .ok Users.empty,
        .arrive 0 0] aliceBrowser := by
  have hserved : (serve plainToken plainTextHasher Accounts.containsAt Accounts.plainEnv
      (some Accounts.registered.users) .ok Users.empty (.login aliceLogin)).1 = aliceReply := by
    have hsecret : Accounts.plainEnv.jwtSecret = some "k" := rfl
    have hvalid : Accounts.containsAt aliceLogin.email = true := by decide
    have hmem : Accounts.alice.user 7 ∈ Accounts.registered.users.rows := List.mem_cons_self
    have hverify : plainTextHasher.verify aliceLogin.password (Accounts.alice.user 7).password = some true :=
      congrArg some (decide_eq_true rfl)
    have hlogin := @login_granted plainToken _ _ _ _ hsecret _ aliceLogin _ hvalid hmem rfl hverify
    rw [serve, hlogin]
    rfl
  have hserve : (loggingIn none).step plainToken plainTextHasher Accounts.containsAt Accounts.plainEnv
      (.serve 0 0 (some Accounts.registered.users) .ok Users.empty) = some (loggingIn (some aliceReply)) := by
    rw [← hserved]
    rfl
  have harrive : (loggingIn (some aliceReply)).step plainToken plainTextHasher Accounts.containsAt
      Accounts.plainEnv (.arrive 0 0) = some aliceBrowser := by
    have hjar : Jar.receive [] 0 (cookies (some aliceReply)) = sessionJar plainToken "k" 7 0 :=
      @receive_freshCookies plainToken Accounts.plainEnv "k" [] (by rintro s ⟨⟩) 7
    have hresult : apiRequest (some aliceReply) = some (.user (Accounts.alice.user 7).toJson) := rfl
    show some ((loggingIn (some aliceReply)).finish 0 0 _ (.login aliceLogin) (some aliceReply)) = _
    simp only [finish, hresult, loggingIn, hjar]
    rfl
  refine .cons trivial rfl (.cons trivial rfl (.cons trivial hserve (.single ?_ harrive)))
  rintro tab call hcall
  obtain ⟨rfl, rfl⟩ := Prod.mk.inj (Option.some.inj hcall)
  rintro tab htab
  cases htab

end Browser

end Bittuly.Web
