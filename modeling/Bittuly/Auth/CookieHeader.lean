import Bittuly.Auth.Middleware

/-!
# What `parse_cookie` reads back

Reference: `libs/shared/src/jwt.rs` (`parse_cookie`, `jwt_auth`, `refresh_access_token`).

A `Cookie` header is rendered here from segments: pairs with any white space around their names and values,
and texts without a value. `parse_cookie` finds the first pair of a name among them, and so do the two
branches of the middleware.
-/

namespace Bittuly.Auth

/-! ## Rendered headers -/

/-- A run of white space. -/
structure Blank where
  text : String
  all_isWhitespace : text.toList.all isWhitespace = true

/-- A name and a value that a `Cookie` header can carry. -/
structure CookiePair where
  name : String
  value : String
  name_ne_empty : name ≠ ""
  trim_name : trim name.toList = name.toList
  equals_notMem_name : '=' ∉ name.toList
  semicolon_notMem_name : ';' ∉ name.toList
  trim_value : trim value.toList = value.toList
  semicolon_notMem_value : ';' ∉ value.toList

/-- The white space of a pair. -/
structure Spacing where
  beforeName : Blank
  afterName : Blank
  beforeValue : Blank
  afterValue : Blank

/-- What stands between two semicolons. -/
inductive Segment
  | pair (p : CookiePair) (w : Spacing)
  -- no value; white space is part of the text
  | bare (text : String) (hequals : '=' ∉ text.toList) (hsemicolon : ';' ∉ text.toList)

def Segment.text : Segment → String
  | .pair p w =>
    w.beforeName.text ++ p.name ++ w.afterName.text ++ "=" ++ w.beforeValue.text ++ p.value ++
      w.afterValue.text
  | .bare text _ _ => text

def Segment.cookiePair : Segment → Option CookiePair
  | .pair p _ => some p
  | .bare _ _ _ => none

/-- The header as text. -/
def renderHeader (segments : List Segment) : String :=
  String.intercalate ";" (segments.map Segment.text)

/-- The pairs of a header, in order. -/
def cookiePairs (segments : List Segment) : List CookiePair :=
  segments.filterMap Segment.cookiePair

/-- The first pair of a name. -/
def findPair (segments : List Segment) (name : String) : Option CookiePair :=
  (cookiePairs segments).find? fun p => p.name = name

/-! ## One segment -/

namespace Blank

variable (b : Blank)

theorem isWhitespace_of_mem {c : Char} (hc : c ∈ b.text.toList) : isWhitespace c = true :=
  List.all_eq_true.mp b.all_isWhitespace c hc

theorem notMem {c : Char} (hc : isWhitespace c = false) : c ∉ b.text.toList := by
  intro hmem
  rw [b.isWhitespace_of_mem hmem] at hc
  cases hc

/-- White space on both sides is trimmed. -/
theorem trim_append (b' : Blank) (s : List Char) :
    trim (b.text.toList ++ s ++ b'.text.toList) = trim s := by
  rw [trim_append_right fun _ => b'.isWhitespace_of_mem, trim_append_left fun _ => b.isWhitespace_of_mem]

end Blank

theorem Segment.toList_text_pair (p : CookiePair) (w : Spacing) :
    (Segment.pair p w).text.toList =
      (w.beforeName.text.toList ++ p.name.toList ++ w.afterName.text.toList) ++
        '=' :: (w.beforeValue.text.toList ++ p.value.toList ++ w.afterValue.text.toList) := by
  have hequals : "=".toList = ['='] := rfl
  simp only [Segment.text, String.toList_append, hequals, List.append_assoc, List.nil_append,
    List.cons_append]

theorem Segment.semicolon_notMem_text (s : Segment) : ';' ∉ s.text.toList := by
  have hblank : ∀ b : Blank, ';' ∉ b.text.toList := fun b => b.notMem (by decide)
  cases s with
  | pair p w =>
    rw [toList_text_pair]
    simp [hblank, p.semicolon_notMem_name, p.semicolon_notMem_value]
  | bare text hequals hsemicolon => exact hsemicolon

/-- The closure of `parse_cookie` on a segment: another name or no value is no match. -/
theorem Segment.cookieValue_text (s : Segment) (name : String) :
    cookieValue name s.text.toList =
      s.cookiePair.bind fun p => if p.name = name then some p.value else none := by
  have hblank : ∀ b : Blank, '=' ∉ b.text.toList := fun b => b.notMem (by decide)
  cases s with
  | pair p w =>
    have hname : '=' ∉ w.beforeName.text.toList ++ p.name.toList ++ w.afterName.text.toList := by
      simp [hblank, p.equals_notMem_name]
    rw [toList_text_pair, cookieValue_append_cons hname, Blank.trim_append, Blank.trim_append,
      p.trim_name, p.trim_value, String.ofList_toList]
    simp only [String.toList_inj, cookiePair, Option.bind_some]
  | bare text hequals hsemicolon => exact cookieValue_of_notMem hequals

/-! ## The whole header -/

theorem renderHeader_eq (segments : List Segment) :
    renderHeader segments =
      String.ofList ([';'].intercalate (segments.map fun s => s.text.toList)) := by
  rw [← String.toList_inj, String.toList_ofList, renderHeader, String.toList_intercalate, List.map_map]
  rfl

/-- The search through the segments is a search through their pairs. -/
theorem findSome?_segments (segments : List Segment) (name : String) :
    (segments.map fun s => s.text.toList).findSome? (cookieValue name) =
      (findPair segments name).map CookiePair.value := by
  induction segments with
  | nil => rfl
  | cons s segments ih =>
    rw [List.map_cons, List.findSome?_cons, s.cookieValue_text, ih, findPair, findPair, cookiePairs,
      cookiePairs, List.filterMap_cons]
    cases s.cookiePair with
    | none => rfl
    | some p =>
      by_cases hname : p.name = name
      · simp [hname]
      · simp [hname]

/-- `parse_cookie` on a rendered header is a search for a pair. -/
theorem parseCookie_eq_findPair (segments : List Segment) (name : String) :
    parseCookie (renderHeader segments) name = (findPair segments name).map CookiePair.value := by
  rw [renderHeader_eq, parseCookie_intercalate, findSome?_segments]
  intro t ht
  obtain ⟨s, -, rfl⟩ := List.mem_map.mp ht
  exact s.semicolon_notMem_text

theorem findPair_eq_some_iff {segments : List Segment} {name : String} {p : CookiePair} :
    findPair segments name = some p ↔
      ∃ before after, cookiePairs segments = before ++ p :: after ∧ p.name = name ∧
        ∀ q ∈ before, q.name ≠ name := by
  rw [findPair, List.find?_eq_some_iff_append]
  simp only [decide_eq_true_eq, Bool.not_eq_true', decide_eq_false_iff_not]
  constructor
  · rintro ⟨hname, before, after, hpairs, hbefore⟩
    exact ⟨before, after, hpairs, hname, hbefore⟩
  · rintro ⟨before, after, hpairs, hname, hbefore⟩
    exact ⟨hname, before, after, hpairs, hbefore⟩

theorem findPair_eq_none_iff {segments : List Segment} {name : String} :
    findPair segments name = none ↔ ∀ p ∈ cookiePairs segments, p.name ≠ name := by
  simp [findPair]

theorem findPair_append (l₁ l₂ : List Segment) (name : String) :
    findPair (l₁ ++ l₂) name = (findPair l₁ name).or (findPair l₂ name) := by
  rw [findPair, cookiePairs, List.filterMap_append, List.find?_append]
  rfl

/-- A segment that is no match can be left out. -/
theorem findPair_skip {s : Segment} {name : String} (hs : ∀ p ∈ s.cookiePair, p.name ≠ name)
    (before after : List Segment) :
    findPair (before ++ s :: after) name = findPair (before ++ after) name := by
  have hnone : findPair [s] name = none := by
    rw [findPair_eq_none_iff]
    intro p hp
    obtain ⟨t, ht, hpair⟩ := List.mem_filterMap.mp hp
    obtain rfl := List.mem_singleton.mp ht
    exact hs p hpair
  rw [List.append_cons, findPair_append, findPair_append, findPair_append, hnone, Option.or_none]

theorem parseCookie_skip {s : Segment} {name : String} (hs : ∀ p ∈ s.cookiePair, p.name ≠ name)
    (before after : List Segment) :
    parseCookie (renderHeader (before ++ s :: after)) name =
      parseCookie (renderHeader (before ++ after)) name := by
  rw [parseCookie_eq_findPair, parseCookie_eq_findPair, findPair_skip hs]

/-- `parse_cookie` on a header, for one name. -/
structure LooksUp (segments : List Segment) (name : String) : Prop where
  /-- The value is that of the first pair with exactly that name. -/
  found : ∀ value, parseCookie (renderHeader segments) name = some value ↔
    ∃ (before : List CookiePair) (p : CookiePair) (after : List CookiePair),
      cookiePairs segments = before ++ p :: after ∧ p.name = name ∧ p.value = value ∧
        ∀ q ∈ before, q.name ≠ name
  /-- There is no value when there is no such pair. -/
  missing : parseCookie (renderHeader segments) name = none ↔
    ∀ p ∈ cookiePairs segments, p.name ≠ name
  /-- A text without a value hides nothing. -/
  malformed : ∀ (before : List Segment) text hequals hsemicolon (after : List Segment),
    segments = before ++ .bare text hequals hsemicolon :: after →
      parseCookie (renderHeader segments) name = parseCookie (renderHeader (before ++ after)) name
  /-- Nor does a pair of another name count, also one that begins or ends like `name`. -/
  otherName : ∀ (before : List Segment) p w (after : List Segment),
    segments = before ++ .pair p w :: after → p.name ≠ name →
      parseCookie (renderHeader segments) name = parseCookie (renderHeader (before ++ after)) name

/-- **`parse_cookie` inverts the rendering of a header.** -/
theorem parseCookie_renderHeader (segments : List Segment) (name : String) :
    LooksUp segments name where
  found := by
    intro value
    rw [parseCookie_eq_findPair, Option.map_eq_some_iff]
    constructor
    · rintro ⟨p, hfind, hvalue⟩
      obtain ⟨before, after, hpairs, hname, hbefore⟩ := findPair_eq_some_iff.mp hfind
      exact ⟨before, p, after, hpairs, hname, hvalue, hbefore⟩
    · rintro ⟨before, p, after, hpairs, hname, hvalue, hbefore⟩
      exact ⟨p, findPair_eq_some_iff.mpr ⟨before, after, hpairs, hname, hbefore⟩, hvalue⟩
  missing := by
    rw [parseCookie_eq_findPair, Option.map_eq_none_iff, findPair_eq_none_iff]
  malformed := by
    rintro before text hequals hsemicolon after rfl
    apply parseCookie_skip
    intro p hp
    cases hp
  otherName := by
    rintro before p w after rfl hname
    apply parseCookie_skip
    intro q hq
    obtain rfl := Option.mem_some_iff.mp hq
    exact hname

/-- A pair whose name only begins with the name of the access token. -/
def oldTokenPair : CookiePair where
  name := "access_token_old"
  value := "x"
  name_ne_empty := by decide
  trim_name := by decide
  equals_notMem_name := by decide
  semicolon_notMem_name := by decide
  trim_value := by decide
  semicolon_notMem_value := by decide

/-- A value with an `=` in it. -/
def accessTokenPair : CookiePair where
  name := cookieAccess
  value := "a=b"
  name_ne_empty := by decide
  trim_name := by decide
  equals_notMem_name := by decide
  semicolon_notMem_name := by decide
  trim_value := by decide
  semicolon_notMem_value := by decide

def noSpace : Blank where
  text := ""
  all_isWhitespace := rfl

def oneSpace : Blank where
  text := " "
  all_isWhitespace := rfl

/-- A text without a value, then the two pairs. -/
def sampleSegments : List Segment :=
  [.bare "session" (by decide) (by decide),
    .pair oldTokenPair ⟨oneSpace, noSpace, noSpace, noSpace⟩,
    .pair accessTokenPair ⟨oneSpace, oneSpace, oneSpace, noSpace⟩]

theorem parseCookie_sampleSegments :
    parseCookie "session; access_token_old=x; access_token = a=b" cookieAccess = some "a=b" := by
  have hheader : "session; access_token_old=x; access_token = a=b" = renderHeader sampleSegments := rfl
  have hold : oldTokenPair.name ≠ cookieAccess := by decide
  rw [hheader]
  refine ((parseCookie_renderHeader sampleSegments cookieAccess).found "a=b").mpr
    ⟨[oldTokenPair], accessTokenPair, [], rfl, rfl, rfl, ?_⟩
  intro q hq
  obtain rfl := List.mem_singleton.mp hq
  exact hold

/-! ## Both branches of the middleware -/

theorem mem_intercalate {c : Char} {sep s : List Char} {ss : List (List Char)} (hs : s ∈ ss)
    (hc : c ∈ s) : c ∈ sep.intercalate ss := by
  induction ss with
  | nil => cases hs
  | cons t ts ih =>
    cases ts with
    | nil =>
      obtain rfl := List.mem_singleton.mp hs
      rwa [List.intercalate_singleton]
    | cons u us =>
      rw [List.intercalate_cons_cons, List.append_assoc]
      rcases List.mem_cons.mp hs with rfl | hs
      · exact List.mem_append_left _ hc
      · exact List.mem_append_right _ (List.mem_append_right _ (ih hs))

/-- A header is visible when its segments are. -/
theorem toStr_renderHeader_iff {segments : List Segment} :
    toStr (renderHeader segments) = some (renderHeader segments) ↔
      ∀ s ∈ segments, ∀ c ∈ s.text.toList, visibleChar c = true := by
  have hchars : toStr (renderHeader segments) = some (renderHeader segments) ↔
      ∀ c ∈ [';'].intercalate (segments.map fun s => s.text.toList), visibleChar c = true := by
    rw [toStr, renderHeader_eq, String.toList_ofList, ← List.all_eq_true]
    simp
  rw [hchars]
  constructor
  · intro h s hs c hc
    exact h c (mem_intercalate (List.mem_map.mpr ⟨s, hs, rfl⟩) hc)
  · intro h
    apply forall_mem_intercalate
    · intro c hc
      obtain rfl := List.mem_singleton.mp hc
      decide
    · intro t ht
      obtain ⟨s, hs, rfl⟩ := List.mem_map.mp ht
      exact h s hs

variable {lib : JsonWebToken} {env : Env}

/-- The middleware looks at the first pair of each token's name and at nothing else. -/
theorem authenticate_congr {l₁ l₂ : List Segment}
    (hvisible₁ : toStr (renderHeader l₁) = some (renderHeader l₁))
    (hvisible₂ : toStr (renderHeader l₂) = some (renderHeader l₂))
    (hfind : ∀ name ∈ [cookieAccess, cookieRefresh], findPair l₁ name = findPair l₂ name) :
    authenticate lib env (some (renderHeader l₁)) = authenticate lib env (some (renderHeader l₂)) := by
  have haccess := hfind cookieAccess (by simp)
  have hrefresh := hfind cookieRefresh (by simp)
  simp only [authenticate, refreshAccessToken, Option.bind_some, hvisible₁, hvisible₂,
    parseCookie_eq_findPair, haccess, hrefresh]

/-- **A segment that carries no token does not matter to `jwt_auth`.** -/
theorem jwtAuth_skip {before after : List Segment} {s : Segment}
    (hvisible : toStr (renderHeader (before ++ s :: after)) = some (renderHeader (before ++ s :: after)))
    (hs : ∀ name ∈ [cookieAccess, cookieRefresh], ∀ p ∈ s.cookiePair, p.name ≠ name)
    (next : Claims → Response) :
    jwtAuth lib env (some (renderHeader (before ++ s :: after))) next =
      jwtAuth lib env (some (renderHeader (before ++ after))) next := by
  have hrest : toStr (renderHeader (before ++ after)) = some (renderHeader (before ++ after)) := by
    rw [toStr_renderHeader_iff] at hvisible ⊢
    intro t ht
    refine hvisible t ?_
    rcases List.mem_append.mp ht with ht | ht
    · exact List.mem_append_left _ ht
    · exact List.mem_append_right _ (List.mem_cons_of_mem _ ht)
  have hauth : authenticate lib env (some (renderHeader (before ++ s :: after))) =
      authenticate lib env (some (renderHeader (before ++ after))) := by
    refine authenticate_congr hvisible hrest ?_
    intro name hname
    exact findPair_skip (hs name hname) before after
  rw [jwtAuth, jwtAuth, hauth]

end Bittuly.Auth
