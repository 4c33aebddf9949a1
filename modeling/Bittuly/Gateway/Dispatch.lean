import Bittuly.Gateway.Locations
import Bittuly.Lib.Paths

/-!
# Through the gateway to a handler

References: `docker/nginx/nginx.conf`, `services/auth-service/src/main.rs` and `routes.rs`,
`services/url-service/src/main.rs` and `routes.rs`.

nginx picks a location by the path with adjacent slashes merged, and passes the path on as it was sent.
Both services then drop the slashes at its end (`NormalizePathLayer`) before they look it up in their
tables. The two views of one path are put together here: which handler a request from outside reaches.

nginx would first decode percent-encoding and resolve `.` and `..`; paths are those without (`Plain`), in ASCII
and with adjacent slashes only at the end. `Plain` allows characters that no request line has. The method is
left out, a route without it answers 405; and so are the rate limits, which answer 429.
-/

namespace Bittuly.Gateway

open Paths Wildcard

/-- The routes of auth-service. -/
inductive AuthRoute
  | requestSignup
  | verifyOtp
  | login
  | health
  | metrics
  | user
  | logout
  /-- Only in development. -/
  | otpStore
deriving DecidableEq, Repr

/-- The routes of url-service. -/
inductive UrlRoute
  | urls
  | url
  | health
  | metrics
  | redirect
deriving DecidableEq, Repr

/-- `auth_routes`. -/
def authRoutes (development : Bool) : Router AuthRoute :=
  [([.parameter], .user), ([.literal "logout"], .logout), ([.literal "signup"], .requestSignup),
    ([.literal "verify-otp"], .verifyOtp), ([.literal "login"], .login), ([.literal "health"], .health),
    ([.literal "metrics"], .metrics)] ++
  if development then [([.literal "debug", .literal "otp-store"], .otpStore)] else []

/-- The router of auth-service. -/
def authRouter (development : Bool) : Router AuthRoute :=
  (authRoutes development).nest [.literal "api", .literal "auth"]

/-- `url_routes`, the router of url-service. -/
def urlRouter : Router UrlRoute :=
  [([.literal "api", .literal "urls"], .urls), ([.literal "api", .literal "urls", .parameter], .url),
    ([.literal "api", .literal "urls", .literal "health"], .health),
    ([.literal "api", .literal "urls", .literal "metrics"], .metrics), ([.parameter], .redirect)]

/-- The handlers behind the gateway. -/
inductive Endpoint
  | auth (r : AuthRoute)
  | url (r : UrlRoute)
deriving DecidableEq, Repr

/-- The handler that a service picks for a path. -/
def service (development : Bool) (upstream : Upstream) (path : List Char) :
    Option (Endpoint × List (List Char)) :=
  let segments := segmentsOf (trimTrailingSlash path)
  match upstream with
  | .auth => ((authRouter development).find segments).map fun r => (.auth r.1, r.2)
  | .url => (urlRouter.find segments).map fun r => (.url r.1, r.2)
  | .frontend => none

/-- The handler that a request from outside reaches, with the parameters of its path. -/
def reaches (development : Bool) (path : List Char) : Option (Endpoint × List (List Char)) :=
  match (route (String.ofList (mergeSlashes path))).map Location.handler with
  | some (.proxyPass upstream) => service development upstream path
  | _ => none

/-! ## What a path names -/

/-- The handler whose path this is, with the parameters. -/
inductive Names (development : Bool) : List (List Char) → Endpoint → List (List Char) → Prop
  | urls : Names development ["api".toList, "urls".toList] (.url .urls) []
  | url {urlId : List Char} : urlId ∉ ["health".toList, "metrics".toList] →
      Names development ["api".toList, "urls".toList, urlId] (.url .url) [urlId]
  | urlHealth : Names development ["api".toList, "urls".toList, "health".toList] (.url .health) []
  | urlMetrics : Names development ["api".toList, "urls".toList, "metrics".toList] (.url .metrics) []
  | redirect {code : List Char} : Names development [code] (.url .redirect) [code]
  | requestSignup :
      Names development ["api".toList, "auth".toList, "signup".toList] (.auth .requestSignup) []
  | verifyOtp : Names development ["api".toList, "auth".toList, "verify-otp".toList] (.auth .verifyOtp) []
  | login : Names development ["api".toList, "auth".toList, "login".toList] (.auth .login) []
  | authHealth : Names development ["api".toList, "auth".toList, "health".toList] (.auth .health) []
  | authMetrics : Names development ["api".toList, "auth".toList, "metrics".toList] (.auth .metrics) []
  | logout : Names development ["api".toList, "auth".toList, "logout".toList] (.auth .logout) []
  | user {userId : List Char} : userId ∉ ["signup".toList, "verify-otp".toList, "login".toList,
        "health".toList, "metrics".toList, "logout".toList] →
      Names development ["api".toList, "auth".toList, userId] (.auth .user) [userId]
  | otpStore : development = true →
      Names development ["api".toList, "auth".toList, "debug".toList, "otp-store".toList]
        (.auth .otpStore) []

/-- The segment begins as a page or an asset of the frontend does. -/
def IsPage (segment : List Char) : Prop :=
  ∃ w ∈ frontendWords, ∃ ys, ys <+: segment ∧ accepts (regexTokens w.toList) ys = true

/-! ## The tables of the services -/

theorem urlRouter_unambiguous : urlRouter.Unambiguous :=
  ⟨by decide, by decide⟩

theorem authRouter_unambiguous (development : Bool) : (authRouter development).Unambiguous := by
  cases development with
  | true => exact ⟨by decide, by decide⟩
  | false => exact ⟨by decide, by decide⟩

/-- The paths of url-service. -/
theorem urlRouter_find {segments : List (List Char)} (h : ∀ s ∈ segments, IsSegment s) {r : UrlRoute}
    {params : List (List Char)} (development : Bool) :
    urlRouter.find segments = some (r, params) ↔ Names development segments (.url r) params := by
  constructor
  · intro hfind
    obtain ⟨ps, hmem, hfill, -, hno⟩ := (Router.find_eq_some_iff urlRouter_unambiguous).mp hfind
    simp only [urlRouter, List.mem_cons, Prod.mk.injEq, List.not_mem_nil, or_false] at hmem
    rcases hmem with ⟨rfl, rfl⟩ | ⟨rfl, rfl⟩ | ⟨rfl, rfl⟩ | ⟨rfl, rfl⟩ | ⟨rfl, rfl⟩
    · obtain rfl := fill_literals (by decide) hfill
      obtain rfl := Option.some.inj hfill
      exact .urls
    · obtain ⟨urlId, rfl⟩ := List.length_eq_one_iff.mp (length_of_fill hfill)
      obtain rfl := Option.some.inj hfill
      refine .url ?_
      intro hid
      simp only [List.mem_cons, List.not_mem_nil, or_false] at hid
      rcases hid with rfl | rfl
      · exact hno rfl ([.literal "api", .literal "urls", .literal "health"], .health) (by decide) rfl rfl
      · exact hno rfl ([.literal "api", .literal "urls", .literal "metrics"], .metrics) (by decide) rfl rfl
    · obtain rfl := fill_literals (by decide) hfill
      obtain rfl := Option.some.inj hfill
      exact .urlHealth
    · obtain rfl := fill_literals (by decide) hfill
      obtain rfl := Option.some.inj hfill
      exact .urlMetrics
    · obtain ⟨code, rfl⟩ := List.length_eq_one_iff.mp (length_of_fill hfill)
      obtain rfl := Option.some.inj hfill
      exact .redirect
  · intro hnames
    cases hnames with
    | urls => decide
    | @url urlId hid =>
      refine (Router.find_eq_some_iff urlRouter_unambiguous).mpr
        ⟨[.literal "api", .literal "urls", .parameter], by decide, rfl, ?_, ?_⟩
      · intro x hx
        rw [List.mem_singleton.mp hx]
        exact (h urlId (by simp)).1
      · intro _ r hr hstatic hfill
        simp only [urlRouter, List.mem_cons, List.not_mem_nil, or_false] at hr
        rcases hr with rfl | rfl | rfl | rfl | rfl
        · have := congrArg List.length (Option.some.inj hfill)
          cases this
        · cases hstatic
        · have := List.cons.inj (List.cons.inj (List.cons.inj (Option.some.inj hfill)).2).2
          exact hid (by simp [← this.1])
        · have := List.cons.inj (List.cons.inj (List.cons.inj (Option.some.inj hfill)).2).2
          exact hid (by simp [← this.1])
        · cases hstatic
    | urlHealth => decide
    | urlMetrics => decide
    | @redirect code =>
      refine (Router.find_eq_some_iff urlRouter_unambiguous).mpr
        ⟨[.parameter], by decide, rfl, ?_, ?_⟩
      · intro x hx
        rw [List.mem_singleton.mp hx]
        exact (h code (by simp)).1
      · intro _ r hr hstatic hfill
        simp only [urlRouter, List.mem_cons, List.not_mem_nil, or_false] at hr
        rcases hr with rfl | rfl | rfl | rfl | rfl
        · have := congrArg List.length (Option.some.inj hfill)
          cases this
        · cases hstatic
        · have := congrArg List.length (Option.some.inj hfill)
          cases this
        · have := congrArg List.length (Option.some.inj hfill)
          cases this
        · cases hstatic

/-- The paths of auth-service. -/
theorem authRouter_find {segments : List (List Char)} (h : ∀ s ∈ segments, IsSegment s) {r : AuthRoute}
    {params : List (List Char)} {development : Bool} :
    (authRouter development).find segments = some (r, params) ↔
      Names development segments (.auth r) params := by
  constructor
  · intro hfind
    obtain ⟨ps, hmem, hfill, -, hno⟩ :=
      (Router.find_eq_some_iff (authRouter_unambiguous development)).mp hfind
    have hword : ∀ {word : String} {r : AuthRoute}, Static (ps, r) = false →
        ([.literal "api", .literal "auth", .literal word], r) ∈ authRouter development →
          segments ≠ ["api".toList, "auth".toList, word.toList] := by
      rintro word r hparameter hr rfl
      exact hno hparameter _ hr rfl rfl
    simp only [authRouter, authRoutes, Router.nest, List.map_cons, List.cons_append, List.nil_append,
      List.mem_cons, Prod.mk.injEq] at hmem
    rcases hmem with ⟨rfl, rfl⟩ | ⟨rfl, rfl⟩ | ⟨rfl, rfl⟩ | ⟨rfl, rfl⟩ | ⟨rfl, rfl⟩ | ⟨rfl, rfl⟩ |
      ⟨rfl, rfl⟩ | hdebug
    · obtain ⟨userId, rfl⟩ := List.length_eq_one_iff.mp (length_of_fill hfill)
      obtain rfl : segments = ["api".toList, "auth".toList, userId] := (Option.some.inj hfill).symm
      refine .user ?_
      intro hid
      simp only [List.mem_cons, List.not_mem_nil, or_false] at hid
      rcases hid with rfl | rfl | rfl | rfl | rfl | rfl
      · exact hword (r := .requestSignup) rfl (by cases development <;> decide) rfl
      · exact hword (r := .verifyOtp) rfl (by cases development <;> decide) rfl
      · exact hword (r := .login) rfl (by cases development <;> decide) rfl
      · exact hword (r := .health) rfl (by cases development <;> decide) rfl
      · exact hword (r := .metrics) rfl (by cases development <;> decide) rfl
      · exact hword (r := .logout) rfl (by cases development <;> decide) rfl
    · obtain rfl := fill_literals (by decide) hfill
      obtain rfl := Option.some.inj hfill
      exact .logout
    · obtain rfl := fill_literals (by decide) hfill
      obtain rfl := Option.some.inj hfill
      exact .requestSignup
    · obtain rfl := fill_literals (by decide) hfill
      obtain rfl := Option.some.inj hfill
      exact .verifyOtp
    · obtain rfl := fill_literals (by decide) hfill
      obtain rfl := Option.some.inj hfill
      exact .login
    · obtain rfl := fill_literals (by decide) hfill
      obtain rfl := Option.some.inj hfill
      exact .authHealth
    · obtain rfl := fill_literals (by decide) hfill
      obtain rfl := Option.some.inj hfill
      exact .authMetrics
    · cases development with
      | false => cases hdebug
      | true =>
        obtain ⟨rfl, rfl⟩ := Prod.mk.inj (List.mem_singleton.mp hdebug)
        obtain rfl := fill_literals (by decide) hfill
        obtain rfl := Option.some.inj hfill
        exact .otpStore rfl
  · intro hnames
    cases hnames with
    | requestSignup => cases development <;> decide
    | verifyOtp => cases development <;> decide
    | login => cases development <;> decide
    | authHealth => cases development <;> decide
    | authMetrics => cases development <;> decide
    | logout => cases development <;> decide
    | otpStore hmode =>
      subst hmode
      decide
    | @user userId hid =>
      refine (Router.find_eq_some_iff (authRouter_unambiguous development)).mpr
        ⟨[.literal "api", .literal "auth", .parameter], List.mem_cons_self, rfl, ?_, ?_⟩
      · intro x hx
        rw [List.mem_singleton.mp hx]
        exact (h userId (by simp)).1
      · intro _ r hr hstatic hfill
        -- a literal route with this path names its last segment
        have hliteral : ∀ r ∈ authRouter development, Static r = true → ∃ xs, fill r.1 [] = some xs ∧
            (xs.length = 3 → ∃ x ∈ ["signup".toList, "verify-otp".toList, "login".toList, "health".toList,
              "metrics".toList, "logout".toList], xs.getLast? = some x) := by
          cases development <;> decide
        obtain ⟨xs, hxs, hlast⟩ := hliteral r hr hstatic
        obtain rfl := Option.some.inj (hxs.symm.trans hfill)
        obtain ⟨x, hx, heq⟩ := hlast rfl
        obtain rfl := Option.some.inj heq
        exact hid hx

/-! ## The locations of the gateway -/

/-- What the expression of the metrics location takes. -/
theorem accepts_metrics {xs : List Char} :
    accepts (regexTokens "/api/.*/metrics".toList) xs = true ↔
      ∃ mid, xs = "/api/".toList ++ (mid ++ "/metrics".toList) ∧ ∀ c ∈ mid, dot c = true := by
  have hliteral : ∀ {w ys : List Char}, (w.all fun c => c ≠ '.' && c ≠ '*') = true →
      (accepts (regexTokens w) ys = true ↔ ys = w) := by
    intro w ys hw
    simp only [List.all_eq_true, Bool.and_eq_true, decide_eq_true_eq] at hw
    constructor
    · intro h
      exact (eq_of_fits (forall₂_of_accepts (fun hmem => (hw _ hmem).2 rfl) h) fun c hc => (hw c hc).1).symm
    · rintro rfl
      exact accepts_plain fun c hc => (hw c hc).1
  have htokens : regexTokens "/api/.*/metrics".toList =
      regexTokens "/api/".toList ++ .many dot :: regexTokens "/metrics".toList := rfl
  rw [htokens, accepts_append]
  constructor
  · rintro ⟨ys, zs, rfl, hys, hzs⟩
    obtain ⟨mid, us, rfl, hmid, hus⟩ := accepts_many.mp hzs
    rw [(hliteral (by decide)).mp hys, (hliteral (by decide)).mp hus]
    exact ⟨mid, rfl, hmid⟩
  · rintro ⟨mid, rfl, hmid⟩
    refine ⟨_, _, rfl, (hliteral (by decide)).mpr rfl, accepts_many.mpr ⟨mid, _, rfl, hmid, ?_⟩⟩
    exact (hliteral (by decide)).mpr rfl

/-- The last segment of a path of three. -/
theorem accepts_metrics_iff {s id : List Char} (hs : '/' ∉ s) (hid : '/' ∉ id)
    (hline : '\n' ∉ s) {m : ℕ} (hm : m ≤ 1) :
    accepts (regexTokens "/api/.*/metrics".toList) (text ["api".toList, s, id] m) = true ↔
      id = "metrics".toList ∧ m = 0 := by
  have htext : text ["api".toList, s, id] m =
      "/api/".toList ++ (s ++ '/' :: (id ++ List.replicate m '/')) := by
    simp [text]
  rw [accepts_metrics, htext]
  constructor
  · rintro ⟨mid, heq, -⟩
    have hrest : s ++ '/' :: (id ++ List.replicate m '/') = mid ++ '/' :: "metrics".toList :=
      List.append_cancel_left heq
    have hm : m = 0 := by
      by_contra hne
      obtain rfl : m = 1 := by omega
      -- the path would end in a slash and in the word
      rw [← List.cons_append, ← List.append_assoc] at hrest
      have hlast := congrArg List.getLast? hrest
      have hword : ('/' :: "metrics".toList).getLast? = some 's' := by decide
      rw [List.replicate_one, List.getLast?_concat, List.getLast?_append, hword] at hlast
      exact absurd (Option.some.inj hlast) (by decide)
    subst hm
    rw [List.replicate_zero, List.append_nil] at hrest
    exact ⟨((List.append_cons_inj_of_notMem hs hid).mp hrest).2.2, rfl⟩
  · rintro ⟨rfl, rfl⟩
    refine ⟨s, ?_, ?_⟩
    · rw [List.replicate_zero, List.append_nil]
      rfl
    · intro c hc
      have hne : c ≠ '\n' := by
        rintro rfl
        exact hline hc
      simpa [dot] using hne

/-- The frontend takes no path below `/api`. -/
theorem frontend_api (cs : List Char) :
    frontendPages.rule.matchesRegex (String.ofList ('/' :: 'a' :: 'p' :: cs)) = false := by
  rw [Bool.eq_false_iff]
  intro h
  simp only [frontendPages, Rule.matchesRegex, List.any_map, List.any_eq_true, Function.comp_apply,
    Bool.false_eq_true, if_false, toList_slash, String.toList_ofList, accepts_slash] at h
  obtain ⟨w, hw, ys, hys, haccepts⟩ := h
  have hwords : ∀ w ∈ frontendWords, '*' ∉ w.toList ∧ 2 ≤ w.toList.length ∧
      ¬ (w.toList[0]?.any (fun c => c = 'a' || c = '.') &&
        w.toList[1]?.any fun c => c = 'p' || c = '.') := by
    decide
  obtain ⟨hstar, hlength, hno⟩ := hwords w hw
  have hfits := forall₂_of_accepts hstar haccepts
  obtain ⟨c, c', rest, hword⟩ : ∃ c c' rest, w.toList = c :: c' :: rest := by
    cases hword : w.toList with
    | nil =>
      rw [hword] at hlength
      exact absurd hlength (by decide)
    | cons c cs =>
      cases cs with
      | nil =>
        rw [hword] at hlength
        exact absurd hlength (Nat.not_succ_le_self 1)
      | cons c' rest => exact ⟨c, c', rest, rfl⟩
  rw [hword] at hfits hno
  obtain ⟨x, xs, hcx, hrest, rfl⟩ := List.forall₂_cons_left_iff.mp hfits
  obtain ⟨x', xs', hcx', -, rfl⟩ := List.forall₂_cons_left_iff.mp hrest
  obtain ⟨zs, hzs⟩ := hys
  rw [List.cons_append, List.cons_append, List.cons.injEq, List.cons.injEq] at hzs
  obtain ⟨rfl, rfl, -⟩ := hzs
  apply hno
  rcases hcx with rfl | rfl <;> rcases hcx' with rfl | rfl <;> rfl

/-- Where the gateway sends a path. -/
def target (path : List Char) : Option Handler :=
  (route (String.ofList path)).map Location.handler

theorem find_exact_of_ne {path : List Char} (hroot : path ≠ ['/']) :
    (locations.find? fun l => l.rule.matchesExact (String.ofList path)) = none := by
  have hne : "/" ≠ String.ofList path := by
    intro heq
    apply hroot
    rw [← String.toList_ofList (l := path), ← heq]
    rfl
  simp [locations, Rule.matchesExact, frontendPages, catchAll, hne]

/-- The expressions of the locations, in order. -/
theorem find_regex_eq (path : List Char) :
    (locations.find? fun l => l.rule.matchesRegex (String.ofList path)) =
      if accepts (regexTokens "/api/.*/metrics".toList) path then
        some { rule := .regex ["/api/.*/metrics"] true, handler := .status 403 }
      else if frontendPages.rule.matchesRegex (String.ofList path) then some frontendPages else none := by
  have hblocked : (Rule.regex ["/api/.*/metrics"] true).matchesRegex (String.ofList path) =
      accepts (regexTokens "/api/.*/metrics".toList) path := by
    simp only [Rule.matchesRegex, List.any_cons, List.any_nil, Bool.or_false, if_true, List.append_nil,
      String.toList_ofList]
  have hnone : ∀ p, (Rule.exact p).matchesRegex (String.ofList path) = false ∧
      (Rule.starts p).matchesRegex (String.ofList path) = false := fun _ => ⟨rfl, rfl⟩
  simp only [locations, List.find?_cons, hblocked, hnone, catchAll, List.find?_nil]
  cases accepts (regexTokens "/api/.*/metrics".toList) path with
  | true => rfl
  | false =>
    cases hpages : frontendPages.rule.matchesRegex (String.ofList path) with
    | true => rfl
    | false => rfl

/-- The longest beginning decides between the services. -/
theorem longest_starts {path : List Char} (hslash : "/".toList.isPrefixOf path = true) :
    (longest (locations.filter fun l => l.rule.matchesStart (String.ofList path))).map Location.handler =
      some (.proxyPass (if "/api/auth".toList.isPrefixOf path then .auth else .url)) := by
  have hbelow : ∀ {w : String}, "/api/auth".toList <+: w.toList →
      "/api/auth".toList.isPrefixOf path = false → w.toList.isPrefixOf path = false := by
    intro w hw hauth
    rw [Bool.eq_false_iff] at hauth ⊢
    intro hprefix
    exact hauth (List.isPrefixOf_iff_prefix.mpr (hw.trans (List.isPrefixOf_iff_prefix.mp hprefix)))
  simp only [locations, List.filter_cons, List.filter_nil, Rule.matchesStart, frontendPages, catchAll,
    String.toList_ofList, hslash]
  cases hauth : "/api/auth".toList.isPrefixOf path with
  | false =>
    rw [hbelow (w := "/api/auth/login") (by decide) hauth,
      hbelow (w := "/api/auth/signup") (by decide) hauth]
    cases "/api/urls".toList.isPrefixOf path <;> rfl
  | true =>
    cases "/api/auth/login".toList.isPrefixOf path <;> cases "/api/auth/signup".toList.isPrefixOf path <;>
      cases "/api/urls".toList.isPrefixOf path <;> rfl

/-- **Where the gateway sends a path.** -/
theorem target_eq {path : List Char} (hroot : path ≠ ['/']) (hslash : "/".toList.isPrefixOf path = true) :
    target path =
      if accepts (regexTokens "/api/.*/metrics".toList) path then some (.status 403)
      else if frontendPages.rule.matchesRegex (String.ofList path) then some (.proxyPass .frontend)
      else some (.proxyPass (if "/api/auth".toList.isPrefixOf path then .auth else .url)) := by
  rw [target, route, find_exact_of_ne hroot, find_regex_eq]
  cases accepts (regexTokens "/api/.*/metrics".toList) path with
  | true => rfl
  | false =>
    cases hpages : frontendPages.rule.matchesRegex (String.ofList path) with
    | true => rfl
    | false => exact longest_starts hslash

/-- A path below `/api/urls`. -/
theorem target_urls {id : List Char} (hid : '/' ∉ id) {m : ℕ} (hm : m ≤ 1) :
    target (text ["api".toList, "urls".toList, id] m) =
      if id = "metrics".toList ∧ m = 0 then some (.status 403) else some (.proxyPass .url) := by
  have hpath : text ["api".toList, "urls".toList, id] m =
      "/api/urls/".toList ++ (id ++ List.replicate m '/') := by simp [text]
  have hpages := frontend_api ("i/urls/".toList ++ (id ++ List.replicate m '/'))
  rw [target_eq (by simp [text]) (by rw [hpath]; rfl)]
  simp only [accepts_metrics_iff (s := "urls".toList) (by decide) hid (by decide) hm]
  split
  · rfl
  · rw [hpath]
    exact if_neg (Bool.eq_false_iff.mp hpages)

/-- A path below `/api/auth`. -/
theorem target_auth {id : List Char} (hid : '/' ∉ id) {m : ℕ} (hm : m ≤ 1) :
    target (text ["api".toList, "auth".toList, id] m) =
      if id = "metrics".toList ∧ m = 0 then some (.status 403) else some (.proxyPass .auth) := by
  have hpath : text ["api".toList, "auth".toList, id] m =
      "/api/auth/".toList ++ (id ++ List.replicate m '/') := by simp [text]
  have hpages := frontend_api ("i/auth/".toList ++ (id ++ List.replicate m '/'))
  rw [target_eq (by simp [text]) (by rw [hpath]; rfl)]
  simp only [accepts_metrics_iff (s := "auth".toList) (by decide) hid (by decide) hm]
  split
  · rfl
  · rw [hpath]
    exact if_neg (Bool.eq_false_iff.mp hpages)

/-- The frontend takes a path of one segment that begins as one of its pages does. -/
theorem matchesRegex_segment (code : List Char) {m : ℕ} (hm : m ≤ 1) :
    frontendPages.rule.matchesRegex (String.ofList (text [code] m)) = true ↔ IsPage code := by
  have htext : text [code] m = '/' :: (code ++ List.replicate m '/') := by simp [text]
  simp only [frontendPages, Rule.matchesRegex, List.any_map, List.any_eq_true, Function.comp_apply,
    Bool.false_eq_true, if_false, toList_slash, String.toList_ofList, htext, accepts_slash, IsPage]
  refine exists_congr fun w => and_congr_right fun hw => exists_congr fun ys =>
    and_congr_left fun haccepts => ?_
  constructor
  · intro hys
    -- no word ends in what matches a slash
    have hlast : ∀ w ∈ frontendWords, '*' ∉ w.toList ∧
        w.toList.reverse.head?.all (fun c => c ≠ '/' && c ≠ '.') = true := by decide
    obtain ⟨hstar, hlast⟩ := hlast w hw
    rcases (by omega : m = 0 ∨ m = 1) with rfl | rfl
    · simpa using hys
    · rcases List.prefix_concat_iff.mp hys with rfl | hprefix
      · exfalso
        have hfits := List.forall₂_reverse_iff.mpr (forall₂_of_accepts hstar haccepts)
        rw [List.reverse_append] at hfits
        obtain ⟨c, cs, hfit, -, hword⟩ := List.forall₂_cons_right_iff.mp hfits
        rw [hword] at hlast
        rcases hfit with rfl | rfl
        · simp at hlast
        · simp at hlast
      · exact hprefix
  · intro hys
    exact hys.trans (List.prefix_append _ _)

/-- A path of one segment is the frontend's or a short code. -/
theorem target_segment {code : List Char} (h : IsSegment code) {m : ℕ} (hm : m ≤ 1) :
    target (text [code] m) = some (.proxyPass .url) ↔ ¬IsPage code := by
  have htext : text [code] m = '/' :: (code ++ List.replicate m '/') := by simp [text]
  -- what follows a slash is empty
  have hrest : ∀ {w rest : List Char}, code ++ List.replicate m '/' = w ++ '/' :: rest → rest = [] := by
    intro w rest heq
    rcases (by omega : m = 0 ∨ m = 1) with rfl | rfl
    · rw [List.replicate_zero, List.append_nil] at heq
      exact absurd (heq ▸ List.mem_append_right w List.mem_cons_self) h.2
    · exact ((List.append_cons_inj_of_notMem h.2 List.not_mem_nil).mp heq).2.2.symm
  have hmetrics : accepts (regexTokens "/api/.*/metrics".toList) (text [code] m) = false := by
    rw [Bool.eq_false_iff]
    intro haccepts
    obtain ⟨mid, heq, -⟩ := accepts_metrics.mp haccepts
    rw [htext] at heq
    have hnil := hrest (w := "api".toList) (List.cons.inj heq).2
    simp at hnil
  have hauth : "/api/auth".toList.isPrefixOf (text [code] m) = false := by
    rw [Bool.eq_false_iff]
    intro hprefix
    obtain ⟨rest, heq⟩ := List.isPrefixOf_iff_prefix.mp hprefix
    rw [htext] at heq
    have hnil := hrest (w := "api".toList) (List.cons.inj heq).2.symm
    simp at hnil
  have hroot : text [code] m ≠ ['/'] := by
    rw [htext]
    simp [h.1]
  rw [target_eq hroot (by rw [htext]; rfl), hmetrics, hauth, ← matchesRegex_segment code hm]
  cases frontendPages.rule.matchesRegex (String.ofList (text [code] m)) with
  | true => exact iff_of_false (by decide) (by decide)
  | false => exact iff_of_true rfl (by decide)

/-! ## Through both -/

/-- The service of a handler. -/
def Endpoint.upstream : Endpoint → Upstream
  | .auth _ => .auth
  | .url _ => .url

/-- The handlers of `/metrics`. -/
def Endpoint.IsMetrics (e : Endpoint) : Prop :=
  e = .auth .metrics ∨ e = .url .metrics

/-- What a service makes of a path. -/
theorem service_eq_some_iff {development : Bool} {segments : List (List Char)} (hne : segments ≠ [])
    (h : ∀ s ∈ segments, IsSegment s) {upstream : Upstream} {n : ℕ} {e : Endpoint}
    {params : List (List Char)} :
    service development upstream (text segments n) = some (e, params) ↔
      e.upstream = upstream ∧ Names development segments e params := by
  have hsegments : segmentsOf (trimTrailingSlash (text segments n)) = segments := by
    rw [trimTrailingSlash_text hne h, segmentsOf_text h]
  cases upstream with
  | auth =>
    simp only [service, hsegments, Option.map_eq_some_iff, Prod.mk.injEq]
    constructor
    · rintro ⟨⟨r, ps⟩, hfind, rfl, rfl⟩
      exact ⟨rfl, (authRouter_find h).mp hfind⟩
    · rintro ⟨hup, hnames⟩
      cases e with
      | auth r => exact ⟨(r, params), (authRouter_find h).mpr hnames, rfl, rfl⟩
      | url r => cases hup
  | url =>
    simp only [service, hsegments, Option.map_eq_some_iff, Prod.mk.injEq]
    constructor
    · rintro ⟨⟨r, ps⟩, hfind, rfl, rfl⟩
      exact ⟨rfl, (urlRouter_find h development).mp hfind⟩
    · rintro ⟨hup, hnames⟩
      cases e with
      | auth r => cases hup
      | url r => exact ⟨(r, params), (urlRouter_find h development).mpr hnames, rfl, rfl⟩
  | frontend =>
    refine iff_of_false (fun hnone => by cases hnone) ?_
    rintro ⟨hup, -⟩
    cases e <;> cases hup

/-- The gateway sends the path of a handler to its service, but for the two exceptions. -/
theorem target_of_names {development : Bool} {segments : List (List Char)}
    (h : ∀ s ∈ segments, IsSegment s) {e : Endpoint} {params : List (List Char)}
    (hnames : Names development segments e params) {m : ℕ} (hm : m ≤ 1) :
    target (text segments m) = some (.proxyPass e.upstream) ↔
      (e.IsMetrics → m ≠ 0) ∧ (e = .url .redirect → ∀ s ∈ segments, ¬IsPage s) := by
  have hcases : m = 0 ∨ m = 1 := by omega
  cases hnames with
  | urls => rcases hcases with rfl | rfl <;> exact iff_of_true (by decide) (by simp [Endpoint.IsMetrics])
  | @url urlId hid =>
    rw [target_urls (h urlId (by simp)).2 hm, if_neg (by rintro ⟨rfl, -⟩; simp at hid)]
    exact iff_of_true rfl (by simp [Endpoint.IsMetrics])
  | urlHealth =>
    rw [target_urls (by decide) hm, if_neg (fun heq => absurd heq.1 (by decide))]
    exact iff_of_true rfl (by simp [Endpoint.IsMetrics])
  | urlMetrics =>
    rw [target_urls (by decide) hm]
    rcases hcases with rfl | rfl
    · exact iff_of_false (by decide) (fun hand => hand.1 (Or.inr rfl) rfl)
    · exact iff_of_true (by decide) ⟨fun _ => one_ne_zero, fun heq => by cases heq⟩
  | @redirect code =>
    rw [show (Endpoint.url .redirect).upstream = .url from rfl, target_segment (h code (by simp)) hm]
    simp [Endpoint.IsMetrics]
  | requestSignup =>
    rw [target_auth (by decide) hm, if_neg (fun heq => absurd heq.1 (by decide))]
    exact iff_of_true rfl (by simp [Endpoint.IsMetrics])
  | verifyOtp =>
    rw [target_auth (by decide) hm, if_neg (fun heq => absurd heq.1 (by decide))]
    exact iff_of_true rfl (by simp [Endpoint.IsMetrics])
  | login =>
    rw [target_auth (by decide) hm, if_neg (fun heq => absurd heq.1 (by decide))]
    exact iff_of_true rfl (by simp [Endpoint.IsMetrics])
  | authHealth =>
    rw [target_auth (by decide) hm, if_neg (fun heq => absurd heq.1 (by decide))]
    exact iff_of_true rfl (by simp [Endpoint.IsMetrics])
  | authMetrics =>
    rw [target_auth (by decide) hm]
    rcases hcases with rfl | rfl
    · exact iff_of_false (by decide) (fun hand => hand.1 (Or.inl rfl) rfl)
    · exact iff_of_true (by decide) ⟨fun _ => one_ne_zero, fun heq => by cases heq⟩
  | logout =>
    rw [target_auth (by decide) hm, if_neg (fun heq => absurd heq.1 (by decide))]
    exact iff_of_true rfl (by simp [Endpoint.IsMetrics])
  | @user userId hid =>
    rw [target_auth (h userId (by simp)).2 hm, if_neg (by rintro ⟨rfl, -⟩; simp at hid)]
    exact iff_of_true rfl (by simp [Endpoint.IsMetrics])
  | otpStore _ =>
    rcases hcases with rfl | rfl <;> exact iff_of_true (by decide) (by simp [Endpoint.IsMetrics])

/-- A segment that nginx leaves as it is. -/
def Plain (s : List Char) : Prop :=
  IsSegment s ∧ s.all (fun c => c ∉ ['%', '?', '#', '\n']) ∧ s ∉ [".".toList, "..".toList]

instance : DecidablePred Plain := fun s =>
  inferInstanceAs (Decidable (IsSegment s ∧ s.all (fun c => c ∉ ['%', '?', '#', '\n']) ∧
    s ∉ [".".toList, "..".toList]))

/-- **Through the gateway.** A request from outside reaches the handler that its path names, however many
slashes the path ends in, with two exceptions: a code that begins as a page of the frontend does, and the
metrics, which are blocked when their path ends in no slash, and only then. -/
theorem reaches_iff {development : Bool} {segments : List (List Char)} (hne : segments ≠ [])
    (hplain : ∀ s ∈ segments, Plain s) (n : ℕ) (e : Endpoint) (params : List (List Char)) :
    reaches development (text segments n) = some (e, params) ↔
      Names development segments e params ∧ (e.IsMetrics → n ≠ 0) ∧
        (e = .url .redirect → ∀ s ∈ segments, ¬IsPage s) := by
  have h : ∀ s ∈ segments, IsSegment s := fun s hs => (hplain s hs).1
  have hm : min n 1 ≤ 1 := Nat.min_le_right n 1
  have hzero : min n 1 ≠ 0 ↔ n ≠ 0 := by omega
  have hreaches : reaches development (text segments n) = some (e, params) ↔
      target (text segments (min n 1)) = some (.proxyPass e.upstream) ∧
        Names development segments e params := by
    rw [reaches, mergeSlashes_text h, ← target]
    constructor
    · intro hsome
      split at hsome
      · rename_i upstream htarget
        obtain ⟨rfl, hnames⟩ := (service_eq_some_iff hne h).mp hsome
        exact ⟨htarget, hnames⟩
      · cases hsome
    · rintro ⟨htarget, hnames⟩
      rw [htarget]
      exact (service_eq_some_iff hne h).mpr ⟨rfl, hnames⟩
  rw [hreaches, and_comm]
  refine and_congr_right fun hnames => ?_
  rw [target_of_names h hnames hm, hzero]

/-- The block of the metrics does not hold against a slash. -/
theorem reaches_metrics :
    reaches false (text ["api".toList, "urls".toList, "metrics".toList] 1) = some (.url .metrics, []) := by
  refine (reaches_iff (by decide) (by decide) 1 _ _).mpr ⟨.urlMetrics, fun _ => one_ne_zero, ?_⟩
  intro heq
  cases heq

end Bittuly.Gateway
