import Bittuly.Auth.Token
import Bittuly.Text

/-!
# Cookies

Reference: `libs/shared/src/jwt.rs` (`parse_cookie`, `set_token_cookies`, `clear_token_cookies`).

`parse_cookie` reads the first value of a name from a `Cookie` header. The `Set-Cookie` headers that the
services write are records here, checked as header values in their rendered form.
-/

namespace Bittuly.Auth

/-! ## `str::split_once` -/

/-- `str::split_once`. -/
def splitOnce (c : Char) : List Char → Option (List Char × List Char)
  | [] => none
  | x :: s => if x = c then some ([], s) else (splitOnce c s).map fun r => (x :: r.1, r.2)

/-- The split is at the first occurrence. -/
theorem splitOnce_eq_some_iff {c : Char} {s a b : List Char} :
    splitOnce c s = some (a, b) ↔ s = a ++ c :: b ∧ c ∉ a := by
  induction s generalizing a with
  | nil => simp [splitOnce]
  | cons x s ih =>
    by_cases hx : x = c
    · subst hx
      cases a with
      | nil => simp [splitOnce]
      | cons y a => simp +contextual [splitOnce, eq_comm]
    · cases a with
      | nil => simp [splitOnce, hx]
      | cons y a =>
        simp only [splitOnce, if_neg hx, Option.map_eq_some_iff, Prod.mk.injEq, List.cons.injEq,
          List.cons_append, List.mem_cons, not_or, Prod.exists]
        constructor
        · rintro ⟨a', b', hsplit, ⟨rfl, rfl⟩, rfl⟩
          obtain ⟨rfl, hnot⟩ := ih.mp hsplit
          exact ⟨⟨rfl, rfl⟩, Ne.symm hx, hnot⟩
        · rintro ⟨⟨rfl, rfl⟩, -, hnot⟩
          exact ⟨a, b, ih.mpr ⟨rfl, hnot⟩, ⟨rfl, rfl⟩, rfl⟩

/-! ## Reading a `Cookie` header -/

/-- The characters of a header value for which `HeaderValue::to_str` succeeds. -/
def visibleChar (c : Char) : Bool :=
  (32 ≤ c.toNat && c.toNat < 127) || c = '\t'

/-- `HeaderValue::to_str`. -/
def toStr (value : String) : Option String :=
  if value.toList.all visibleChar then some value else none

/-- The closure of `parse_cookie` on one pair. -/
def cookieValue (name : String) (pair : List Char) : Option String :=
  match splitOnce '=' (trim pair) with
  | none => none
  | some (k, v) => if trim k = name.toList then some (String.ofList (trim v)) else none

def parseCookie (cookieHeader name : String) : Option String :=
  (cookieHeader.toList.splitOn ';').findSome? (cookieValue name)

/-- A pair `name=value`, with white space around either of them. -/
def Names (pair : List Char) (name value : String) : Prop :=
  ∃ k v, trim pair = k ++ '=' :: v ∧ '=' ∉ k ∧ trim k = name.toList ∧ trim v = value.toList

/-- `value` is the first value of `name` in the header. -/
def FirstCookie (cookieHeader name value : String) : Prop :=
  ∃ before pair after, cookieHeader.toList.splitOn ';' = before ++ pair :: after ∧
    Names pair name value ∧ ∀ p ∈ before, ∀ v, ¬ Names p name v

theorem cookieValue_eq_some_iff {name value : String} {pair : List Char} :
    cookieValue name pair = some value ↔ Names pair name value := by
  unfold cookieValue Names
  constructor
  · intro h
    split at h
    · cases h
    · rename_i k v hsplit
      split at h
      · rename_i hname
        obtain ⟨hpair, hnot⟩ := splitOnce_eq_some_iff.mp hsplit
        refine ⟨k, v, hpair, hnot, hname, ?_⟩
        rw [← Option.some.inj h, String.toList_ofList]
      · cases h
  · rintro ⟨k, v, hpair, hnot, hname, hvalue⟩
    rw [splitOnce_eq_some_iff.mpr ⟨hpair, hnot⟩]
    simp only [hname, if_true, hvalue, String.ofList_toList]

theorem cookieValue_eq_none_iff {name : String} {pair : List Char} :
    cookieValue name pair = none ↔ ∀ v, ¬ Names pair name v := by
  rw [Option.eq_none_iff_forall_not_mem]
  exact forall_congr' fun v => not_congr cookieValue_eq_some_iff

/-- `parse_cookie` on a pair, wherever its white space is. -/
theorem cookieValue_append_cons {name : String} {k v : List Char} (hk : '=' ∉ k) :
    cookieValue name (k ++ '=' :: v) =
      if trim k = name.toList then some (String.ofList (trim v)) else none := by
  have hsplit : splitOnce '=' (trim (k ++ '=' :: v)) =
      some (k.dropWhile isWhitespace, v.rdropWhile isWhitespace) := by
    refine splitOnce_eq_some_iff.mpr ⟨trim_append_cons (by decide), fun hmem => hk ?_⟩
    exact (List.dropWhile_sublist _).subset hmem
  simp only [cookieValue, hsplit, trim_dropWhile, trim_rdropWhile]

/-- The `?` of the closure leaves the closure, not the search. -/
theorem cookieValue_of_notMem {name : String} {pair : List Char} (h : '=' ∉ pair) :
    cookieValue name pair = none := by
  rw [cookieValue_eq_none_iff]
  rintro v ⟨k, w, hpair, -⟩
  have hmem : '=' ∈ trim pair := by simp [hpair]
  exact h (trim_subset pair hmem)

/-- `parse_cookie` goes through the pieces between the semicolons. -/
theorem parseCookie_intercalate {ss : List (List Char)} (hss : ∀ s ∈ ss, ';' ∉ s) (name : String) :
    parseCookie (String.ofList ([';'].intercalate ss)) name = ss.findSome? (cookieValue name) := by
  rw [parseCookie, String.toList_ofList]
  cases ss with
  | nil => rfl
  | cons s ss => rw [List.splitOn_intercalate _ hss (List.cons_ne_nil _ _)]

/-- **`parse_cookie` finds the first value.** -/
theorem parseCookie_eq_some_iff {cookieHeader name value : String} :
    parseCookie cookieHeader name = some value ↔ FirstCookie cookieHeader name value := by
  rw [parseCookie, List.findSome?_eq_some_iff]
  simp only [FirstCookie, cookieValue_eq_some_iff, cookieValue_eq_none_iff]

/-! ## Writing `Set-Cookie` headers -/

def cookieAccess : String := "access_token"

def cookieRefresh : String := "refresh_token"

/-- The parts of a `Set-Cookie` header. -/
structure SetCookie where
  name : String
  value : String
  flags : String
  maxAge : ℕ
  path : String
deriving DecidableEq, Repr

/-- The header as text. -/
def SetCookie.render (c : SetCookie) : String :=
  s!"{c.name}={c.value}; {c.flags}; Max-Age={c.maxAge}; Path={c.path}"

/-- The status codes of the protected handlers, of `login` and of the middleware. -/
inductive StatusCode
  | OK
  | CREATED
  | NO_CONTENT
  | BAD_REQUEST
  | UNAUTHORIZED
  | FORBIDDEN
  | NOT_FOUND
  | CONFLICT
  | UNPROCESSABLE_ENTITY
  | INTERNAL_SERVER_ERROR
  | SERVICE_UNAVAILABLE
deriving DecidableEq, Repr

/-- A response, with its `Set-Cookie` headers in order. -/
structure Response where
  status : StatusCode
  setCookie : List SetCookie
deriving DecidableEq, Repr

/-- `StatusCode::into_response`. -/
def StatusCode.intoResponse (status : StatusCode) : Response where
  status := status
  setCookie := []

/-- `headers_mut().append(SET_COOKIE, HeaderValue::from_str(..)?)`. -/
def Response.append (r : Response) (c : SetCookie) : Option Response :=
  if c.render.toList.all headerChar then some { r with setCookie := r.setCookie ++ [c] } else none

/-- `HttpOnly` and, outside debug builds, `Secure`. -/
def cookieFlags (env : Env) : String :=
  if env.debugAssertions then "HttpOnly; SameSite=Strict" else "HttpOnly; Secure; SameSite=Strict"

def accessCookie (env : Env) (accessToken : String) : SetCookie where
  name := cookieAccess
  value := accessToken
  flags := cookieFlags env
  maxAge := accessTokenTtlSeconds
  path := "/"

def refreshCookie (env : Env) (refreshToken : String) : SetCookie where
  name := cookieRefresh
  value := refreshToken
  flags := cookieFlags env
  maxAge := refreshTokenTtlSeconds
  path := "/"

/-- `set_token_cookies`; `none` is `InvalidHeaderValue`. -/
def setTokenCookies (env : Env) (r : Response) (accessToken refreshToken : String) :
    Option Response := do
  let r ← r.append (accessCookie env accessToken)
  r.append (refreshCookie env refreshToken)

def clearCookie (name : String) : SetCookie where
  name := name
  value := ""
  flags := "HttpOnly; SameSite=Strict"
  maxAge := 0
  path := "/"

def clearTokenCookies (r : Response) : Response :=
  { r with setCookie := r.setCookie ++ [cookieAccess, cookieRefresh].map clearCookie }

/-- A token is made of letters, digits and three signs. -/
theorem tokenChar_cases {c : Char} (h : tokenChar c = true) :
    (65 ≤ c.toNat ∧ c.toNat ≤ 90) ∨ (97 ≤ c.toNat ∧ c.toNat ≤ 122) ∨
      (48 ≤ c.toNat ∧ c.toNat ≤ 57) ∨ c = '-' ∨ c = '_' ∨ c = '.' := by
  have halpha : c.isAlpha = (c.isUpper || c.isLower) := rfl
  have hupper : c.isUpper = decide (c.val ≥ 65 ∧ c.val ≤ 90) := rfl
  have hlower : c.isLower = (decide (c.val ≥ 97) && decide (c.val ≤ 122)) := rfl
  simp only [tokenChar, Char.isAlphanum, halpha, hupper, hlower, Char.isDigit, Bool.or_eq_true,
    Bool.and_eq_true, decide_eq_true_eq, ge_iff_le, UInt32.le_iff_toNat_le] at h
  rcases h with ((((hupper | hlower) | hdigit) | rfl) | rfl) | rfl
  · exact Or.inl hupper
  · exact Or.inr (Or.inl hlower)
  · exact Or.inr (Or.inr (Or.inl hdigit))
  all_goals simp

theorem headerChar_of_tokenChar {c : Char} (h : tokenChar c = true) : headerChar c = true := by
  have hrange : 32 ≤ c.toNat ∧ c.toNat ≠ 127 := by
    rcases tokenChar_cases h with h | h | h | rfl | rfl | rfl
    · omega
    · omega
    · omega
    all_goals decide
  simp [headerChar, hrange]

theorem headerChar_of_isDigit {c : Char} (h : c.isDigit = true) : headerChar c = true :=
  headerChar_of_tokenChar (by simp [tokenChar, Char.isAlphanum, h])

/-- A header is well formed when its texts are. -/
theorem render_all {c : SetCookie} (hname : c.name.toList.all headerChar = true)
    (hvalue : c.value.toList.all headerChar = true) (hflags : c.flags.toList.all headerChar = true)
    (hpath : c.path.toList.all headerChar = true) : c.render.toList.all headerChar = true := by
  have hsigns : ∀ s ∈ ["=", "; ", "; Max-Age=", "; Path="], s.toList.all headerChar = true := by
    decide
  have hmaxAge : (toString c.maxAge).toList.all headerChar = true := by
    rw [Nat.toString_eq_repr, Nat.toList_repr, List.all_eq_true]
    intro d hd
    exact headerChar_of_isDigit (Nat.isDigit_of_mem_toDigits (by decide) (by decide) hd)
  simp only [SetCookie.render, String.toList_append, List.all_append, Bool.and_eq_true]
  refine ⟨⟨⟨⟨⟨⟨⟨⟨hname, ?_⟩, hvalue⟩, ?_⟩, hflags⟩, ?_⟩, hmaxAge⟩, ?_⟩, hpath⟩
  · exact hsigns "=" (by simp)
  · exact hsigns "; " (by simp)
  · exact hsigns "; Max-Age=" (by simp)
  · exact hsigns "; Path=" (by simp)

theorem cookieFlags_all (env : Env) : (cookieFlags env).toList.all headerChar = true := by
  unfold cookieFlags
  split <;> decide

/-- A text that can go into a header and comes out of `parse_cookie` unchanged. -/
def IsToken (s : String) : Prop :=
  ∀ c ∈ s.toList, tokenChar c = true

theorem isToken_names : ∀ s ∈ [cookieAccess, cookieRefresh], IsToken s := by
  have hall : ∀ s ∈ [cookieAccess, cookieRefresh], s.toList.all tokenChar = true := by decide
  exact fun s hs => List.all_eq_true.mp (hall s hs)

theorem isToken_cookieAccess : IsToken cookieAccess :=
  isToken_names _ (by simp)

theorem isToken_cookieRefresh : IsToken cookieRefresh :=
  isToken_names _ (by simp)

theorem isToken_token (lib : JsonWebToken) (secret : String) (m : Mint) :
    IsToken (m.token lib secret) :=
  lib.encode_chars secret m.payload

/-- Tokens never make `set_token_cookies` fail. -/
theorem setTokenCookies_eq (env : Env) (r : Response) {accessToken refreshToken : String}
    (haccess : IsToken accessToken) (hrefresh : IsToken refreshToken) :
    setTokenCookies env r accessToken refreshToken =
      some { r with
        setCookie := r.setCookie ++ [accessCookie env accessToken, refreshCookie env refreshToken] } := by
  have hvalue : ∀ {s : String}, IsToken s → s.toList.all headerChar = true := by
    intro s hs
    exact List.all_eq_true.mpr fun c hc => headerChar_of_tokenChar (hs c hc)
  have htext : ∀ s ∈ [cookieAccess, cookieRefresh, "/"], s.toList.all headerChar = true := by decide
  have hok₁ : (accessCookie env accessToken).render.toList.all headerChar = true :=
    render_all (htext cookieAccess (by simp)) (hvalue haccess) (cookieFlags_all env)
      (htext "/" (by simp))
  have hok₂ : (refreshCookie env refreshToken).render.toList.all headerChar = true :=
    render_all (htext cookieRefresh (by simp)) (hvalue hrefresh) (cookieFlags_all env)
      (htext "/" (by simp))
  simp only [setTokenCookies, Response.append, hok₁, hok₂, if_true, Option.bind_eq_bind,
    Option.bind_some, List.append_assoc, List.cons_append, List.nil_append]

/-! ## The header a client sends -/

/-- The `Cookie` header for these names and values. -/
def cookieHeader (cookies : List (String × String)) : String :=
  String.intercalate "; " (cookies.map fun c => c.1 ++ "=" ++ c.2)

theorem not_isWhitespace_of_tokenChar {c : Char} (h : tokenChar c = true) :
    isWhitespace c = false := by
  have hrange : 33 ≤ c.toNat ∧ c.toNat ≤ 122 := by
    rcases tokenChar_cases h with h | h | h | rfl | rfl | rfl
    · omega
    · omega
    · omega
    all_goals decide
  simp only [isWhitespace, Bool.or_eq_false_iff, Bool.and_eq_false_iff, decide_eq_false_iff_not]
  omega

theorem IsToken.trim_eq {s : String} (h : IsToken s) : trim s.toList = s.toList :=
  trim_eq_self fun c hc => not_isWhitespace_of_tokenChar (h c hc)

/-- `parse_cookie` on a pair as the client writes it. -/
theorem cookieValue_pair {name n v : String} (hn : IsToken n) (hv : IsToken v) :
    cookieValue name (n.toList ++ '=' :: v.toList) = if n = name then some v else none := by
  have hnot : '=' ∉ n.toList := fun hmem => absurd (hn '=' hmem) (by decide)
  rw [cookieValue_append_cons hnot, hn.trim_eq, hv.trim_eq, String.ofList_toList]
  simp only [String.toList_inj]

/-- The blank that follows each semicolon goes to the next pair. -/
theorem intercalate_blank (x : List Char) (xs : List (List Char)) :
    List.intercalate [';', ' '] (x :: xs) = List.intercalate [';'] (x :: xs.map (' ' :: ·)) := by
  induction xs generalizing x with
  | nil => simp
  | cons y ys ih =>
    rw [List.intercalate_cons_cons, ih, List.map_cons, List.intercalate_cons_cons,
      List.intercalate_cons_cons_left, List.append_assoc, List.append_assoc]
    rfl

/-- The pairs of a header, as characters. -/
def pairs (cookies : List (String × String)) : List (List Char) :=
  cookies.map fun c => c.1.toList ++ '=' :: c.2.toList

theorem toList_cookieHeader (cookies : List (String × String)) :
    (cookieHeader cookies).toList = List.intercalate [';', ' '] (pairs cookies) := by
  rw [cookieHeader, pairs, String.toList_intercalate, List.map_map]
  congr 1
  exact List.map_congr_left fun c _ => by simp

theorem forall_mem_intercalate {P : Char → Prop} {sep : List Char} {ss : List (List Char)}
    (hsep : ∀ c ∈ sep, P c) (hss : ∀ s ∈ ss, ∀ c ∈ s, P c) : ∀ c ∈ sep.intercalate ss, P c := by
  induction ss with
  | nil =>
    intro c hc
    cases hc
  | cons s ss ih =>
    have hrest := ih fun t ht => hss t (List.mem_cons_of_mem _ ht)
    cases ss with
    | nil =>
      rw [List.intercalate_singleton]
      exact hss s List.mem_cons_self
    | cons t ts =>
      rw [List.intercalate_cons_cons]
      intro c hc
      rcases List.mem_append.mp hc with hc | hc
      · rcases List.mem_append.mp hc with hc | hc
        · exact hss s List.mem_cons_self c hc
        · exact hsep c hc
      · exact hrest c hc

/-- And passes `to_str`. -/
theorem toStr_cookieHeader {cookies : List (String × String)}
    (hcookies : ∀ c ∈ cookies, IsToken c.1 ∧ IsToken c.2) :
    toStr (cookieHeader cookies) = some (cookieHeader cookies) := by
  have htoken : ∀ {s : String}, IsToken s → ∀ c ∈ s.toList, visibleChar c = true := by
    intro s hs c hc
    have hrange : 32 ≤ c.toNat ∧ c.toNat < 127 := by
      rcases tokenChar_cases (hs c hc) with h | h | h | rfl | rfl | rfl
      · omega
      · omega
      · omega
      all_goals decide
    simp [visibleChar, hrange]
  have hpairs : ∀ s ∈ pairs cookies, ∀ c ∈ s, visibleChar c = true := by
    intro s hs c hc
    obtain ⟨p, hp, rfl⟩ := List.mem_map.mp hs
    rcases List.mem_append.mp hc with h | h
    · exact htoken (hcookies p hp).1 c h
    · rcases List.mem_cons.mp h with rfl | h
      · decide
      · exact htoken (hcookies p hp).2 c h
  have hsep : ∀ c ∈ [';', ' '], visibleChar c = true := by
    intro c hc
    rcases List.mem_pair.mp hc with rfl | rfl <;> rfl
  have hall : ∀ c ∈ List.intercalate [';', ' '] (pairs cookies), visibleChar c = true :=
    forall_mem_intercalate hsep hpairs
  rw [toStr, toList_cookieHeader, if_pos (List.all_eq_true.mpr hall)]

/-- Searching the pairs is a lookup. -/
theorem findSome?_pairs {cookies : List (String × String)}
    (hcookies : ∀ c ∈ cookies, IsToken c.1 ∧ IsToken c.2) (name : String) :
    (pairs cookies).findSome? (cookieValue name) = cookies.lookup name := by
  induction cookies with
  | nil => rfl
  | cons c cs ih =>
    obtain ⟨hn, hv⟩ := hcookies c List.mem_cons_self
    have hrest := ih fun c' hc' => hcookies c' (List.mem_cons_of_mem _ hc')
    rw [pairs] at hrest ⊢
    rw [List.map_cons, List.findSome?_cons, cookieValue_pair hn hv, hrest, List.lookup_cons]
    by_cases hc : c.1 = name
    · simp [hc]
    · have hne : (name == c.1) = false := by simpa using Ne.symm hc
      simp [hc, hne]

theorem semicolon_notMem_pairs {cookies : List (String × String)}
    (hcookies : ∀ c ∈ cookies, IsToken c.1 ∧ IsToken c.2) : ∀ s ∈ pairs cookies, ';' ∉ s := by
  intro s hs hmem
  obtain ⟨c, hc, rfl⟩ := List.mem_map.mp hs
  rcases List.mem_append.mp hmem with h | h
  · exact absurd ((hcookies c hc).1 ';' h) (by decide)
  · rcases List.mem_cons.mp h with h | h
    · exact absurd h (by decide)
    · exact absurd ((hcookies c hc).2 ';' h) (by decide)

/-- **`parse_cookie` reads a client's header back.** -/
theorem parseCookie_cookieHeader {cookies : List (String × String)}
    (hcookies : ∀ c ∈ cookies, IsToken c.1 ∧ IsToken c.2) (name : String) :
    parseCookie (cookieHeader cookies) name = cookies.lookup name := by
  have hsemi := semicolon_notMem_pairs hcookies
  have hheader : cookieHeader cookies = String.ofList (List.intercalate [';', ' '] (pairs cookies)) := by
    rw [← toList_cookieHeader, String.ofList_toList]
  have hblank : cookieValue name ∘ (' ' :: ·) = cookieValue name := by
    funext s
    rw [Function.comp_apply, cookieValue, cookieValue, trim_cons (by decide)]
  rw [hheader, ← findSome?_pairs hcookies]
  cases hpairs : pairs cookies with
  | nil => rfl
  | cons s ss =>
    rw [hpairs] at hsemi
    rw [intercalate_blank, parseCookie_intercalate]
    · rw [List.findSome?_cons, List.findSome?_map, hblank, ← List.findSome?_cons]
    · intro l hl
      rcases List.mem_cons.mp hl with rfl | hl
      · exact hsemi l List.mem_cons_self
      · obtain ⟨l', hl', rfl⟩ := List.mem_map.mp hl
        intro hmem
        rcases List.mem_cons.mp hmem with h | h
        · exact absurd h (by decide)
        · exact hsemi l' (List.mem_cons_of_mem _ hl') h

end Bittuly.Auth
