import Bittuly.Lib.Wildcard
import Bittuly.Urls.Base62

/-!
# The gateway

Reference: `docker/nginx/nginx.conf` (the locations of the server).

nginx takes an exact location, else the first regular expression in the file that matches, else the longest
beginning. Short codes share the root with the pages and assets of the frontend, whose expression has no
end, so it takes every path that begins with one of its words.
-/

namespace Bittuly.Gateway

open Urls Wildcard

inductive Upstream
  /-- Port 3001. -/
  | auth
  /-- Port 3002. -/
  | url
  /-- Port 5173. -/
  | frontend
deriving DecidableEq, Repr

inductive Handler
  | proxyPass (upstream : Upstream)
  | status (code : ℕ)
deriving DecidableEq, Repr

/-- The kinds of `location`. -/
inductive Rule
  /-- `location = path`. -/
  | exact (path : String)
  /-- `location ~` with an expression anchored at the start: one of these, up to the end or not. -/
  | regex (alternatives : List String) (toEnd : Bool)
  /-- `location path`. -/
  | starts (path : String)
deriving DecidableEq, Repr

structure Location where
  rule : Rule
  handler : Handler
deriving DecidableEq, Repr

/-- The words of the frontend's expression. -/
def frontendWords : List String :=
  ["dashboard", "login", "signup", "verify-otp", "profile", "settings", "insights", "health",
    "unavailable", "assets", "src", "node_modules", "@fs", "@vite", "@react-refresh", "__vite_ping",
    "favicon.ico", "manifest.json"]

/-- The last location: short codes. -/
def catchAll : Location where
  rule := .starts "/"
  handler := .proxyPass .url

/-- The pages and assets of the frontend. -/
def frontendPages : Location where
  rule := .regex (frontendWords.map fun w => "/" ++ w) false
  handler := .proxyPass .frontend

/-- The locations, in the order of the file. -/
def locations : List Location :=
  [{ rule := .regex ["/api/.*/metrics"] true, handler := .status 403 },
    { rule := .starts "/api/auth/login", handler := .proxyPass .auth },
    { rule := .starts "/api/auth/signup", handler := .proxyPass .auth },
    { rule := .starts "/api/auth", handler := .proxyPass .auth },
    { rule := .starts "/api/urls", handler := .proxyPass .url },
    { rule := .exact "/", handler := .proxyPass .frontend },
    frontendPages,
    catchAll]

/-- A dot matches anything but a line break. -/
def dot (c : Char) : Bool :=
  c ≠ '\n'

/-- An expression of literals, dots and `.*`. -/
def regexTokens : List Char → List (Token Char)
  | [] => []
  | '.' :: '*' :: cs => .many dot :: regexTokens cs
  | '.' :: cs => .one dot :: regexTokens cs
  | c :: cs => .one (fun x => x = c) :: regexTokens cs

namespace Rule

def matchesExact (path : String) : Rule → Bool
  | .exact p => p = path
  | _ => false

def matchesRegex (path : String) : Rule → Bool
  | .regex alternatives toEnd => alternatives.any fun a =>
    accepts (regexTokens a.toList ++ if toEnd then [] else [anything]) path.toList
  | _ => false

def matchesStart (path : String) : Rule → Bool
  | .starts p => p.toList.isPrefixOf path.toList
  | _ => false

/-- How much of a path a beginning takes. -/
def length : Rule → ℕ
  | .starts p => p.length
  | _ => 0

end Rule

/-- The location with the longest beginning. -/
def longest (ls : List Location) : Option Location :=
  ls.foldl (fun best l =>
    match best with
    | none => some l
    | some b => if b.rule.length < l.rule.length then some l else some b) none

/-- The location that serves a path. -/
def route (path : String) : Option Location :=
  match locations.find? fun l => l.rule.matchesExact path with
  | some l => some l
  | none =>
    match locations.find? fun l => l.rule.matchesRegex path with
    | some l => some l
    | none => longest (locations.filter fun l => l.rule.matchesStart path)

/-- The path of a link. -/
def linkPath (urlId : ℤ) : String :=
  "/" ++ base62Encode urlId

/-! ## What an expression without `.*` matches -/

/-- A character of such an expression and one that it matches. -/
def Fits (c x : Char) : Prop :=
  c = x ∨ c = '.'

theorem forall₂_of_accepts {w xs : List Char} (hw : '*' ∉ w)
    (h : accepts (regexTokens w) xs = true) : List.Forall₂ Fits w xs := by
  induction w using regexTokens.induct generalizing xs with
  | case1 =>
    rw [regexTokens, accepts_nil] at h
    rw [h]
    exact .nil
  | case2 cs ih => exact absurd (List.mem_cons_of_mem _ List.mem_cons_self) hw
  | case3 cs hstar ih =>
    rw [regexTokens, accepts_one] at h
    · obtain ⟨x, ys, rfl, -, hrest⟩ := h
      exact .cons (Or.inr rfl) (ih (fun hmem => hw (List.mem_cons_of_mem _ hmem)) hrest)
    · exact hstar
  | case4 c cs hdotstar hdot ih =>
    rw [regexTokens, accepts_one] at h
    · obtain ⟨x, ys, rfl, hx, hrest⟩ := h
      have heq : x = c := by simpa using hx
      exact .cons (Or.inl heq.symm) (ih (fun hmem => hw (List.mem_cons_of_mem _ hmem)) hrest)
    · exact hdotstar
    · exact hdot

/-- Without dots either, it matches itself. -/
theorem eq_of_fits {w xs : List Char} (h : List.Forall₂ Fits w xs) (hw : ∀ c ∈ w, c ≠ '.') : w = xs := by
  induction h with
  | nil => rfl
  | cons hcx _ ih =>
    obtain ⟨hc, hrest⟩ := List.forall_mem_cons.mp hw
    rw [hcx.resolve_right hc, ih hrest]

/-- The literals of an expression are in what it matches. -/
theorem mem_of_accepts {w xs : List Char} (h : accepts (regexTokens w) xs = true) {c : Char}
    (hc : c ∈ w) (hdot : c ≠ '.') (hstar : c ≠ '*') : c ∈ xs := by
  induction w using regexTokens.induct generalizing xs with
  | case1 => cases hc
  | case2 cs ih =>
    rw [regexTokens, accepts_many] at h
    obtain ⟨zs, ys, rfl, -, hrest⟩ := h
    have hc' : c ∈ cs := by simpa [hdot, hstar] using hc
    exact List.mem_append_right _ (ih hrest hc')
  | case3 cs hnostar ih =>
    rw [regexTokens, accepts_one] at h
    · obtain ⟨x, ys, rfl, -, hrest⟩ := h
      have hc' : c ∈ cs := by simpa [hdot] using hc
      exact List.mem_cons_of_mem _ (ih hrest hc')
    · exact hnostar
  | case4 c' cs hdotstar hnodot ih =>
    rw [regexTokens, accepts_one] at h
    · obtain ⟨x, ys, rfl, hx, hrest⟩ := h
      have heq : x = c' := by simpa using hx
      rcases List.mem_cons.mp hc with rfl | hc'
      · exact heq ▸ List.mem_cons_self
      · exact List.mem_cons_of_mem _ (ih hrest hc')
    · exact hdotstar
    · exact hnodot

/-! ## Where short codes go -/

/-- The words that a short code can begin with. -/
def reserved : List String :=
  ["dashboard", "login", "signup", "profile", "settings", "insights", "health", "assets", "src"]

/-- The other words have a character that no code has, or are too long and begin with too high a digit. -/
theorem reserved_or : ∀ w ∈ frontendWords, w ∈ reserved ∨
    (∃ c ∈ w.toList, c ≠ '.' ∧ c ≠ '*' ∧ c.isAlphanum = false) ∨
      '*' ∉ w.toList ∧ ∃ c ∈ w.toList.head?, c ≠ '.' ∧ 11 ≤ base62Value c ∧ 11 ≤ w.toList.length := by
  have h : ∀ w ∈ frontendWords, w ∈ reserved ∨
      (w.toList.any fun c => c ≠ '.' && (c ≠ '*' && c.isAlphanum = false)) = true ∨
        '*' ∉ w.toList ∧ (w.toList.head?.any fun c =>
          c ≠ '.' && (11 ≤ base62Value c && 11 ≤ w.toList.length)) = true := by
    decide
  simpa only [List.any_eq_true, Option.any_eq_true, Bool.and_eq_true, decide_eq_true_eq, Option.mem_def] using h

theorem reserved_plain : ∀ w ∈ reserved, w ∈ frontendWords ∧ ∀ c ∈ w.toList, c ≠ '.' ∧ c ≠ '*' := by
  have h : ∀ w ∈ reserved, w ∈ frontendWords ∧ (w.toList.all fun c => c ≠ '.' && c ≠ '*') = true := by
    decide
  simpa only [List.all_eq_true, Bool.and_eq_true, decide_eq_true_eq] using h

/-- A literal word matches itself. -/
theorem regexTokens_plain {w : List Char} (hw : ∀ c ∈ w, c ≠ '.') :
    regexTokens w = (w.map fun c x => decide (x = c)).map .one := by
  induction w with
  | nil => rfl
  | cons c w ih =>
    obtain ⟨hc, hrest⟩ := List.forall_mem_cons.mp hw
    rw [regexTokens, ih hrest]
    · rfl
    · rintro cs rfl
      exact absurd rfl hc
    · rintro rfl
      exact absurd rfl hc

theorem accepts_plain {w : List Char} (hw : ∀ c ∈ w, c ≠ '.') : accepts (regexTokens w) w = true := by
  rw [regexTokens_plain hw, accepts_ones, List.forall₂_map_left_iff, List.forall₂_same]
  intro c _
  exact decide_eq_true rfl

theorem toList_slash (w : String) : ("/" ++ w).toList = '/' :: w.toList := by
  simp

/-- After the slash, a word is matched against the beginning of the code. -/
theorem accepts_slash {w code : List Char} :
    accepts (regexTokens ('/' :: w) ++ [anything]) ('/' :: code) = true ↔
      ∃ ys, ys <+: code ∧ accepts (regexTokens w) ys = true := by
  have htokens : regexTokens ('/' :: w) = .one (fun x => decide (x = '/')) :: regexTokens w := by
    rw [regexTokens]
    · intro cs h
      cases h
    · intro h
      cases h
  rw [htokens, List.cons_append, accepts_one, ← accepts_before]
  constructor
  · rintro ⟨x, ys, h, -, haccepts⟩
    obtain ⟨-, rfl⟩ := List.cons.inj h
    exact haccepts
  · intro haccepts
    exact ⟨'/', code, rfl, rfl, haccepts⟩

/-- The frontend's expression takes the codes that begin with one of nine words. -/
theorem matchesRegex_frontendPages {urlId : ℤ} (hid : urlId ∈ Set.Ioo 0 (2 ^ 63)) :
    frontendPages.rule.matchesRegex (linkPath urlId) = true ↔
      ∃ w ∈ reserved, w.toList <+: (base62Encode urlId).toList := by
  simp only [frontendPages, Rule.matchesRegex, List.any_map, List.any_eq_true, Function.comp_apply,
    Bool.false_eq_true, if_false, linkPath, toList_slash, accepts_slash]
  constructor
  · rintro ⟨w, hw, ys, hys, haccepts⟩
    rcases reserved_or w hw with hres | ⟨c, hc, hdot, hstar, halnum⟩ | ⟨hstar, c, hc, hdot, hdigit, hlong⟩
    · obtain ⟨-, hplain⟩ := reserved_plain w hres
      have hfits := forall₂_of_accepts (fun hmem => (hplain _ hmem).2 rfl) haccepts
      have heq : w.toList = ys := eq_of_fits hfits fun c hc => (hplain c hc).1
      exact ⟨w, hres, heq ▸ hys⟩
    · have hmem := hys.subset (mem_of_accepts haccepts hc hdot hstar)
      rw [isAlphanum_of_mem_base62Encode hid hmem] at halnum
      cases halnum
    · exfalso
      have hfits := forall₂_of_accepts hstar haccepts
      cases hword : w.toList with
      | nil =>
        rw [hword] at hc
        cases hc
      | cons c' cs =>
        rw [hword] at hc hlong hfits
        obtain rfl := Option.some.inj hc
        obtain ⟨x, xs, hcx, hrest, rfl⟩ := List.forall₂_cons_left_iff.mp hfits
        obtain rfl := hcx.resolve_right hdot
        obtain ⟨zs, hcode⟩ := hys
        have hlength : 10 ≤ (xs ++ zs).length := by
          rw [List.length_append, ← hrest.length_eq]
          rw [List.length_cons] at hlong
          omega
        have hlt := base62Value_head_lt hid hcode.symm hlength
        omega
  · rintro ⟨w, hw, hprefix⟩
    obtain ⟨hmem, hplain⟩ := reserved_plain w hw
    exact ⟨w, hmem, w.toList, hprefix, accepts_plain fun c hc => (hplain c hc).1⟩

/-- A location with a second slash takes no code. -/
theorem slash_notMem {urlId : ℤ} (hid : urlId ∈ Set.Ioo 0 (2 ^ 63)) :
    '/' ∉ (base62Encode urlId).toList := by
  intro hmem
  have halnum := isAlphanum_of_mem_base62Encode hid hmem
  exact absurd halnum (by decide)

theorem not_matchesStart {urlId : ℤ} (hid : urlId ∈ Set.Ioo 0 (2 ^ 63)) {w : List Char}
    (hw : '/' ∈ w) : ('/' :: w).isPrefixOf ('/' :: (base62Encode urlId).toList) = false := by
  rw [Bool.eq_false_iff]
  intro hprefix
  obtain ⟨zs, h⟩ := List.isPrefixOf_iff_prefix.mp hprefix
  have hcode := (List.cons.inj h).2
  apply slash_notMem hid
  rw [← hcode]
  exact List.mem_append_left _ hw

theorem find_exact {urlId : ℤ} (hid : urlId ∈ Set.Ioo 0 (2 ^ 63)) :
    (locations.find? fun l => l.rule.matchesExact (linkPath urlId)) = none := by
  have hroot : "/" ≠ linkPath urlId := by
    intro heq
    have hlist := congrArg String.toList heq
    rw [linkPath, toList_slash] at hlist
    exact base62Encode_ne_nil hid (List.cons.inj hlist).2.symm
  simp [locations, Rule.matchesExact, frontendPages, catchAll, hroot]

theorem find_regex {urlId : ℤ} (hid : urlId ∈ Set.Ioo 0 (2 ^ 63)) :
    (locations.find? fun l => l.rule.matchesRegex (linkPath urlId)) =
      if frontendPages.rule.matchesRegex (linkPath urlId) then some frontendPages else none := by
  have hmetrics : (Rule.regex ["/api/.*/metrics"] true).matchesRegex (linkPath urlId) = false := by
    rw [Bool.eq_false_iff]
    intro h
    simp only [Rule.matchesRegex, List.any_cons, List.any_nil, Bool.or_false, if_true, List.append_nil,
      linkPath, toList_slash] at h
    obtain ⟨x, ys, hcode, -, hrest⟩ := accepts_one.mp h
    obtain ⟨-, rfl⟩ := List.cons.inj hcode
    exact slash_notMem hid (mem_of_accepts (w := "api/.*/metrics".toList) hrest (by decide) (by decide)
      (by decide))
  have hnone : ∀ p, (Rule.exact p).matchesRegex (linkPath urlId) = false ∧
      (Rule.starts p).matchesRegex (linkPath urlId) = false := fun _ => ⟨rfl, rfl⟩
  simp only [locations, List.find?_cons, hmetrics, hnone, catchAll, List.find?_nil]
  cases hmatch : frontendPages.rule.matchesRegex (linkPath urlId) with
  | true => rfl
  | false => rfl

/-- The location of a code. -/
theorem route_linkPath {urlId : ℤ} (hid : urlId ∈ Set.Ioo 0 (2 ^ 63)) :
    route (linkPath urlId) =
      if frontendPages.rule.matchesRegex (linkPath urlId) then some frontendPages else some catchAll := by
  have hstart : ∀ w : String, '/' ∈ w.toList.tail → w.toList.head? = some '/' →
      (Rule.starts w).matchesStart (linkPath urlId) = false := by
    intro w hw hhead
    have hcons : w.toList = '/' :: w.toList.tail := (List.cons_head?_tail hhead).symm
    rw [Rule.matchesStart, linkPath, toList_slash, hcons]
    exact not_matchesStart hid hw
  have hroot : (Rule.starts "/").matchesStart (linkPath urlId) = true := by
    rw [Rule.matchesStart, linkPath, toList_slash]
    rfl
  have hfilter : (locations.filter fun l => l.rule.matchesStart (linkPath urlId)) = [catchAll] := by
    simp only [locations, List.filter_cons, frontendPages, catchAll, hroot,
      hstart "/api/auth/login" (by decide) (by decide), hstart "/api/auth/signup" (by decide) (by decide),
      hstart "/api/auth" (by decide) (by decide), hstart "/api/urls" (by decide) (by decide)]
    rfl
  rw [route, find_exact hid, find_regex hid, hfilter]
  by_cases hpages : frontendPages.rule.matchesRegex (linkPath urlId) = true
  · rw [if_pos hpages, if_pos hpages]
  · rw [if_neg hpages, if_neg hpages]
    rfl

/-- **A short code reaches url-service unless it begins with one of nine words.** -/
theorem route_linkPath_iff {urlId : ℤ} (hid : urlId ∈ Set.Ioo 0 (2 ^ 63)) :
    route (linkPath urlId) = some catchAll ↔
      ∀ w ∈ reserved, ¬ w.toList <+: (base62Encode urlId).toList := by
  rw [route_linkPath hid]
  split
  · rename_i h
    obtain ⟨w, hw, hprefix⟩ := (matchesRegex_frontendPages hid).mp h
    refine iff_of_false (by decide) ?_
    intro hall
    exact hall w hw hprefix
  · rename_i h
    refine iff_of_true rfl ?_
    intro w hw hprefix
    exact h ((matchesRegex_frontendPages hid).mpr ⟨w, hw, hprefix⟩)

/-- The first link. -/
theorem route_linkPath_iff_of_first : route (linkPath 1) = some catchAll := by
  refine (route_linkPath_iff (by decide)).mpr ?_
  decide

/-- **A link whose code is `srcA` goes to the frontend.** -/
theorem src_code_unreachable : ¬ ∀ urlId ∈ Set.Ioo (0 : ℤ) (2 ^ 63),
    route (linkPath urlId) = some catchAll := by
  intro hall
  have hroute := hall 13075810 (by decide)
  exact absurd hroute (by decide)

end Bittuly.Gateway
