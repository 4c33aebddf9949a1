import Bittuly.Lib.InFlight
import Bittuly.Web.LatestSearch
import Bittuly.Web.SignedIn

/-!
# Spinners

References: `web/src/pages/Dashboard.tsx` (`isLoadingUrls`, `isLoadingMore`, `isShortening`),
`web/src/context/AuthContext.tsx` (`isLoading`), `web/src/router/ProtectedRoute.tsx`.

The dashboard keeps three flags that disable controls and show spinners, and `AuthProvider` one that hides
every protected page. Only answers clear them. Requests are answered in any order, first pages overlap, and
users sign in and out meanwhile, so a flag could stay up for ever or come down early. `spinners_tell` and
`tab_spins_while_loading` say what they tell in every state of a run. Effects run once, as without `StrictMode`.
-/

namespace Bittuly.Web

open Runs Urls Auth InFlight

/-- A next page. -/
def Request.isMore : Request → Bool
  | .more _ _ => true
  | _ => false

/-- A link to be created. -/
def Request.isCreate : Request → Bool
  | .create _ _ => true
  | _ => false

/-- A first page of the search effect. -/
def Request.isSearch : Request → Bool
  | .search _ => true
  | _ => false

variable {ilike : String → String → Bool} {encode : ℤ → String} {userId : Uuid}

namespace Dashboard

/-- Which flags an answer clears, and what is asked next. -/
theorem receive_flags (d : Dashboard) (request : Request) (answer : Answer) :
    (d.receive request answer).1.isLoadingMore = (d.isLoadingMore && !request.isMore) ∧
      (d.receive request answer).1.isShortening = (d.isShortening && !request.isCreate) ∧
      (d.receive request answer).1.isLoadingUrls = (d.isLoadingUrls && !request.isSearch) ∧
      ((d.receive request answer).2 = none ∨ (d.receive request answer).2 = some .reload) := by
  cases request <;> cases answer <;>
    simp [receive, setPage, addPage, Request.isMore, Request.isCreate, Request.isSearch]

end Dashboard

namespace Screen

/-- How many requests of a kind are in flight. -/
def inFlight (s : Screen) (p : Request → Bool) : ℕ :=
  s.calls.countP fun call => p call.request

/-- What the flags tell. -/
structure Tell (s : Screen) : Prop where
  /-- One next page is in flight, or none. -/
  more : s.inFlight Request.isMore = s.dashboard.isLoadingMore.toNat
  /-- One link is being created, or none. -/
  create : s.inFlight Request.isCreate = s.dashboard.isShortening.toNat
  /-- The first page of the latest search is in flight. -/
  latest : s.dashboard.isLoadingUrls = true →
    ∃ call ∈ s.calls, call.ticket = s.latest ∧ call.request.isSearch = true

variable {s s' : Screen}

@[simp]
theorem inFlight_push (s : Screen) (p : Request → Bool) (dashboard : Dashboard) (request : Request) :
    (s.issue (dashboard, some request)).inFlight p = s.inFlight p + (p request).toNat := by
  simp only [issue, inFlight, List.countP_append, List.countP_singleton]
  cases p request <;> rfl

namespace Tell

theorem mount (db : Db) : (mount db).Tell where
  more := rfl
  create := rfl
  latest _ := ⟨_, List.mem_singleton_self _, rfl, rfl⟩

/-- A call is answered, or goes on. -/
theorem setCall (h : s.Tell) {i : ℕ} {call : Call} (hcall : s.calls[i]? = some call) (addCall : Option ℕ)
    (answer : Option Answer) (db : Db) :
    Tell { s with db, calls := s.calls.set i { call with addCall, answer } } where
  more := by
    refine Eq.trans (countP_set hcall ?_) h.more
    rfl
  create := by
    refine Eq.trans (countP_set hcall ?_) h.create
    rfl
  latest hloading := exists_mem_set hcall id (h.latest hloading)

/-- A request that no flag is about. -/
theorem issue (h : s.Tell) {request : Request} (hmore : request.isMore = false)
    (hcreate : request.isCreate = false) {dashboard : Dashboard}
    (hflags : dashboard.isLoadingMore = s.dashboard.isLoadingMore ∧
      dashboard.isShortening = s.dashboard.isShortening ∧ dashboard.isLoadingUrls = s.dashboard.isLoadingUrls) :
    (s.issue (dashboard, some request)).Tell where
  more := by
    rw [inFlight_push, hmore, issue_dashboard, hflags.1]
    exact h.more
  create := by
    rw [inFlight_push, hcreate, issue_dashboard, hflags.2.1]
    exact h.create
  latest := by
    rw [issue_dashboard, hflags.2.2]
    intro hloading
    obtain ⟨call, hcall, hlatest⟩ := h.latest hloading
    exact ⟨call, List.mem_append_left _ hcall, hlatest⟩

/-- An answer arrives. -/
theorem arrived (h : s.Tell) {i : ℕ} {call : Call} (hcall : s.calls[i]? = some call) (answer : Answer) :
    Tell { s with
      calls := s.calls.eraseIdx i, dashboard := (s.dashboard.receive call.request answer).1 } := by
  obtain ⟨hmore, hcreate, hurls, -⟩ := s.dashboard.receive_flags call.request answer
  refine ⟨?_, ?_, ?_⟩
  · rw [hmore]
    exact toNat_and_not ((countP_eraseIdx hcall fun call => call.request.isMore).trans h.more)
  · rw [hcreate]
    exact toNat_and_not ((countP_eraseIdx hcall fun call => call.request.isCreate).trans h.create)
  · rw [hurls, Bool.and_eq_true, Bool.not_eq_true']
    rintro ⟨hloading, hother⟩
    obtain ⟨latest, hlatest, hticket, hsearch⟩ := h.latest hloading
    have hne : latest ≠ call := by
      rintro rfl
      rw [hsearch] at hother
      cases hother
    exact ⟨latest, mem_eraseIdx_of_ne hcall hlatest hne, hticket, hsearch⟩

theorem step {e : ScreenEvent} (h : s.Tell) (hstep : s.step ilike encode userId e = some s') : s'.Tell := by
  cases fired_of_step hstep with
  | type _ => exact ⟨h.more, h.create, h.latest⟩
  | debounce _ =>
    by_cases heq : s.dashboard.searchQuery = s.dashboard.debouncedSearch
    · rw [debounced_of_eq heq]
      exact ⟨h.more, h.create, h.latest⟩
    · rw [debounced_of_ne heq]
      refine ⟨?_, ?_, fun _ => ⟨_, List.mem_append_right _ (List.mem_singleton_self _), rfl, rfl⟩⟩
      · exact (inFlight_push s Request.isMore s.dashboard (.search _)).trans h.more
      · exact (inFlight_push s Request.isCreate s.dashboard (.search _)).trans h.create
  | loadMore _ _ hidle =>
    rcases loadMore_cases s with heq | ⟨c, heq⟩
    · rw [heq]
      exact h
    · rw [heq]
      have hnone : s.inFlight Request.isMore = 0 := by rw [h.more, hidle]; rfl
      refine ⟨?_, ?_, ?_⟩
      · exact (inFlight_push s Request.isMore s.dashboard (.more c _)).trans (congrArg (· + 1) hnone)
      · exact (inFlight_push s Request.isCreate s.dashboard (.more c _)).trans h.create
      · intro hloading
        obtain ⟨call, hcall, hlatest⟩ := h.latest hloading
        exact ⟨call, List.mem_append_left _ hcall, hlatest⟩
  | shorten originalUrl expiresAt hidle =>
    have hnone : s.inFlight Request.isCreate = 0 := by rw [h.create, hidle]; rfl
    refine ⟨?_, ?_, ?_⟩
    · exact (inFlight_push s Request.isMore s.dashboard (.create originalUrl expiresAt)).trans h.more
    · exact (inFlight_push s Request.isCreate s.dashboard (.create originalUrl expiresAt)).trans
        (congrArg (· + 1) hnone)
    · intro hloading
      obtain ⟨call, hcall, hlatest⟩ := h.latest hloading
      exact ⟨call, List.mem_append_left _ hcall, hlatest⟩
  | delete _ => exact h.issue rfl rfl ⟨rfl, rfl, rfl⟩
  | readPage hcall _ _ _ => exact h.setCall hcall _ _ s.db
  | beginCreate hcall _ _ => exact h.setCall hcall _ _ _
  | finishCreate hcall _ _ => exact h.setCall hcall _ _ s.db
  | deleteRow hcall _ _ => exact h.setCall hcall _ _ _
  | db _ => exact ⟨h.more, h.create, h.latest⟩
  | fail hcall => exact h.setCall hcall _ _ s.db
  | @arrive i call answer hcall _ =>
    obtain ⟨-, -, -, hnext⟩ := s.dashboard.receive_flags call.request answer
    have harrived := h.arrived hcall answer
    generalize s.dashboard.receive call.request answer = received at hnext harrived ⊢
    obtain ⟨dashboard, next⟩ := received
    rcases hnext with rfl | rfl
    · exact harrived
    · exact harrived.issue rfl rfl ⟨rfl, rfl, rfl⟩

end Tell

/-- **A spinner always has its request.** At most one next page and one link to be created are in flight,
exactly while their flags are up; and while the list is loading, the first page of the latest search is on its
way. -/
theorem spinners_tell {db : Db} {es : List ScreenEvent}
    (h : Run (step ilike encode userId) Any (mount db) es s) : s.Tell :=
  h.induct (fun _ _ _ ht _ hstep => ht.step hstep) (.mount db)

/-- The link of user 7 is listed, deleted and shortened again. -/
theorem spinners_tell_of_renewal :
    ∃ s, Run (step (Urls.ilike Char.toLower) base62Encode 7) Any (mount expiringDb) (.readPage 0 1 :: renewal) s ∧
      s.Tell := by
  obtain ⟨s, hrun, -⟩ := exists_run_of_exec (step (Urls.ilike Char.toLower) base62Encode 7) Any expiringScreen renewal
    (fun _ => true) (by decide)
  exact ⟨s, .cons trivial read_expiring hrun, spinners_tell (.cons trivial read_expiring hrun)⟩

end Screen

namespace Browser

/-! ## The spinner of a tab -/

/-- The request of `AuthProvider`. -/
def isGetUser {Salt : Type} : Auth.Request Salt → Bool
  | .getUserById _ _ => true
  | _ => false

/-- One request for the stored user is in flight, or none. -/
def Spins {Salt : Type} (tab : Tab Salt) : Prop :=
  (tab.calls.countP fun call => isGetUser call.request) = tab.context.isLoading.toNat

variable {lib : JsonWebToken} {hasher : PasswordHasher} {validateEmail : String → Bool} {env : Env}

section

variable {Salt : Type}

/-- No page asks for the stored user. -/
theorem isGetUser_of_send {c : AuthContext} {cookie : Option String} {action : PageAction Salt}
    {request : Auth.Request Salt} (h : c.send cookie action = some request) : isGetUser request = false := by
  cases action with
  | signup payload draw =>
    obtain rfl := Option.some.inj h
    rfl
  | verifyOtp pendingToken otp id =>
    obtain rfl := Option.some.inj h
    rfl
  | login payload =>
    obtain rfl := Option.some.inj h
    rfl
  | signOut =>
    obtain ⟨user, -, rfl⟩ := Option.map_eq_some_iff.mp h
    rfl
  | saveEdit username email salt =>
    obtain ⟨user, -, rfl⟩ := Option.map_eq_some_iff.mp h
    rfl
  | handleDeleteAccount confirmUsername =>
    obtain ⟨user, -, rfl⟩ := Option.map_eq_some_iff.mp h
    rfl
  | urls handler =>
    obtain ⟨user, -, rfl⟩ := Option.map_eq_some_iff.mp h
    rfl

theorem enter_isLoading (c : AuthContext) (storedId : Option Uuid) (result : Option Body) :
    (c.enter storedId result).1.isLoading = c.isLoading := by
  unfold AuthContext.enter
  split <;> rfl

/-- Its answer clears the flag, and no other does. -/
theorem receive_isLoading (c : AuthContext) (storedId : Option Uuid) (request : Auth.Request Salt)
    (result : Option Body) :
    (c.receive storedId request result).1.isLoading = (c.isLoading && !isGetUser request) := by
  cases request with
  | getUserById cookie path => cases result <;> simp [AuthContext.receive, isGetUser]
  | deleteUser cookie path => cases result <;> simp [AuthContext.receive, isGetUser]
  | login payload => simp [AuthContext.receive, isGetUser, enter_isLoading]
  | verifyOtp pendingToken otp id => simp [AuthContext.receive, isGetUser, enter_isLoading]
  | updateUser cookie path payload salt => simp [AuthContext.receive, isGetUser, enter_isLoading]
  | logout cookie => simp [AuthContext.receive, isGetUser]
  | signup payload draw => simp [AuthContext.receive, isGetUser]
  | urlService cookie handler => simp [AuthContext.receive, isGetUser]

end

variable {b b' : Browser hasher.Salt} {t i : ℕ} {tab : Tab hasher.Salt} {call : AuthCall hasher.Salt}

/-- When a call is over. -/
theorem Spins.finish (h : ∀ tab ∈ b.tabs, Spins tab) (hcall : b.call? t i = some (tab, call))
    (answer : Option Reply) : ∀ tab' ∈ (b.finish t i tab call.request answer).tabs, Spins tab' := by
  obtain ⟨htab, hcalls⟩ := call?_eq_some_iff.mp hcall
  intro tab' htab'
  rcases List.mem_or_eq_of_mem_set htab' with hold | rfl
  · exact h tab' hold
  · rw [Spins, receive_isLoading]
    exact toNat_and_not ((countP_eraseIdx hcalls fun call => isGetUser call.request).trans
      (h tab (List.mem_of_getElem? htab)))

theorem Spins.step {e : BrowserEvent hasher.Salt} (h : ∀ tab ∈ b.tabs, Spins tab)
    (hstep : b.step lib hasher validateEmail env e = some b') : ∀ tab ∈ b'.tabs, Spins tab := by
  cases e with
  | tick seconds =>
    obtain rfl := Option.some.inj hstep
    exact h
  | load =>
    obtain rfl := Option.some.inj hstep
    refine List.forall_mem_append.mpr ⟨h, List.forall_mem_singleton.mpr ?_⟩
    unfold mounted
    split <;> rfl
  | close t =>
    obtain rfl := Option.some.inj hstep
    exact fun tab htab => h tab (List.mem_of_mem_eraseIdx htab)
  | act t action =>
    obtain ⟨tab, htab, hstep⟩ := Option.bind_eq_some_iff.mp hstep
    obtain ⟨request, hsend, hstep⟩ := Option.bind_eq_some_iff.mp hstep
    obtain rfl := Option.some.inj hstep
    intro tab' htab'
    rcases List.mem_or_eq_of_mem_set htab' with hold | rfl
    · exact h tab' hold
    · rw [Spins, List.countP_append, List.countP_singleton, isGetUser_of_send hsend]
      exact h tab (List.mem_of_getElem? htab)
  | serve t i replica write users =>
    obtain ⟨⟨tab, call⟩, hcall, hstep⟩ := Option.bind_eq_some_iff.mp hstep
    obtain ⟨htab, hcalls⟩ := call?_eq_some_iff.mp hcall
    simp only [Option.ite_none_left_eq_some] at hstep
    obtain rfl := Option.some.inj hstep.2
    intro tab' htab'
    rcases List.mem_or_eq_of_mem_set htab' with hold | rfl
    · exact h tab' hold
    · refine Eq.trans (countP_set hcalls ?_) (h tab (List.mem_of_getElem? htab))
      rfl
  | fail t i =>
    obtain ⟨⟨tab, call⟩, hcall, hstep⟩ := Option.bind_eq_some_iff.mp hstep
    obtain rfl := Option.some.inj hstep
    exact Spins.finish h hcall none
  | arrive t i =>
    obtain ⟨⟨tab, call⟩, hcall, hstep⟩ := Option.bind_eq_some_iff.mp hstep
    obtain ⟨reply, -, hstep⟩ := Option.bind_eq_some_iff.mp hstep
    obtain rfl := Option.some.inj hstep
    exact Spins.finish h hcall (some reply)

/-- **A tab spins exactly while its request for the stored user is in flight**, whatever else is signed in, out
or saved meanwhile. -/
theorem tab_spins_while_loading {now : ℕ} {es : List (BrowserEvent hasher.Salt)}
    (h : Run (step lib hasher validateEmail env) Any (start hasher now) es b) : ∀ tab ∈ b.tabs, Spins tab :=
  h.induct (I := fun b => ∀ tab ∈ b.tabs, Spins tab) (fun _ _ _ hb _ hstep => Spins.step hb hstep)
    (fun tab htab => by cases htab)

/-- Alice opens another tab, and it spins. -/
theorem tab_spins_while_loading_of_login :
    Spins aliceBrowser.mounted ∧ aliceBrowser.mounted.context.isLoading = true := by
  have hload : Run (step plainToken plainTextHasher Accounts.containsAt Accounts.plainEnv) Any aliceBrowser
      [.load] { aliceBrowser with tabs := aliceBrowser.tabs ++ [aliceBrowser.mounted] } := .single trivial rfl
  have hrun := (run_aliceBrowser.mono fun _ _ _ => trivial).append hload
  exact ⟨tab_spins_while_loading hrun _ (List.mem_append_right _ (List.mem_singleton_self _)), rfl⟩

end Browser

end Bittuly.Web
