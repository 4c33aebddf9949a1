import Mathlib.Data.List.DropRight
import Mathlib.Tactic.Common

/-!
# Paths of URLs and routers

A path is a list of segments, each after a slash, and the slashes at its end. `mergeSlashes` is what a
server does that compares paths with adjacent slashes merged, and `trimTrailingSlash` what one does that
ignores slashes at the end. A router is a table of patterns whose parts are literals or parameters; a
route of literals only comes before one with parameters.
-/

namespace Paths

/-- The text of a path. -/
def text (segments : List (List Char)) (slashes : ℕ) : List Char :=
  segments.flatMap (fun s => '/' :: s) ++ List.replicate slashes '/'

/-- A segment: some characters, no slash among them. -/
def IsSegment (s : List Char) : Prop :=
  s ≠ [] ∧ '/' ∉ s

instance : DecidablePred IsSegment := fun s => inferInstanceAs (Decidable (s ≠ [] ∧ '/' ∉ s))

/-! ## Slashes -/

/-- Adjacent slashes are one. -/
def mergeSlashes : List Char → List Char
  | [] => []
  | '/' :: '/' :: cs => mergeSlashes ('/' :: cs)
  | c :: cs => c :: mergeSlashes cs

/-- Slashes at the end are none, and of those at the start one is left. -/
def trimTrailingSlash (path : List Char) : List Char :=
  if path.getLast? = some '/' ∨ ['/', '/'] <+: path then
    '/' :: (path.dropWhile (· = '/')).rdropWhile (· = '/')
  else path

theorem mergeSlashes_cons {c : Char} {cs : List Char} (h : c ≠ '/' ∨ cs.head? ≠ some '/') :
    mergeSlashes (c :: cs) = c :: mergeSlashes cs := by
  cases cs with
  | nil => simp [mergeSlashes]
  | cons c' cs =>
    rw [mergeSlashes]
    rintro cs' rfl heq
    obtain ⟨rfl, rfl⟩ := List.cons.inj heq
    rcases h with h | h
    · exact h rfl
    · exact h rfl

theorem mergeSlashes_append {s cs : List Char} (hs : '/' ∉ s) :
    mergeSlashes (s ++ cs) = s ++ mergeSlashes cs := by
  induction s with
  | nil => rfl
  | cons c s ih =>
    rw [List.mem_cons, not_or] at hs
    rw [List.cons_append, mergeSlashes_cons (Or.inl (Ne.symm hs.1)), ih hs.2, List.cons_append]

theorem mergeSlashes_replicate (n : ℕ) :
    mergeSlashes (List.replicate n '/') = List.replicate (min n 1) '/' := by
  induction n with
  | zero => rfl
  | succ n ih =>
    cases n with
    | zero => rfl
    | succ n =>
      rw [List.replicate_succ, List.replicate_succ, mergeSlashes, ← List.replicate_succ, ih]
      congr 1
      omega

/-- Only the slashes at the end are adjacent. -/
theorem mergeSlashes_text {segments : List (List Char)} (h : ∀ s ∈ segments, IsSegment s) (n : ℕ) :
    mergeSlashes (text segments n) = text segments (min n 1) := by
  induction segments with
  | nil => exact mergeSlashes_replicate n
  | cons s segments ih =>
    obtain ⟨⟨hne, hslash⟩, hrest⟩ := List.forall_mem_cons.mp h
    have htext : ∀ m, text (s :: segments) m = '/' :: (s ++ text segments m) := by
      intro m
      simp [text]
    have hhead : (s ++ text segments n).head? ≠ some '/' := by
      cases s with
      | nil => exact absurd rfl hne
      | cons c s =>
        intro heq
        exact hslash (Option.some.inj heq ▸ List.mem_cons_self)
    rw [htext, htext, mergeSlashes_cons (Or.inr hhead), mergeSlashes_append hslash, ih hrest]

theorem text_append (segments : List (List Char)) (n : ℕ) :
    text segments n = text segments 0 ++ List.replicate n '/' := by
  simp [text]

/-- A path of segments begins with one slash. -/
theorem head_text {segments : List (List Char)} (hne : segments ≠ [])
    (h : ∀ s ∈ segments, IsSegment s) : ∃ c cs, text segments 0 = '/' :: c :: cs ∧ c ≠ '/' := by
  obtain ⟨s, segments, rfl⟩ := List.exists_cons_of_ne_nil hne
  obtain ⟨⟨hs, hslash⟩, -⟩ := List.forall_mem_cons.mp h
  cases s with
  | nil => exact absurd rfl hs
  | cons c s =>
    refine ⟨c, s ++ text segments 0, by simp [text], ?_⟩
    rintro rfl
    exact hslash List.mem_cons_self

/-- It ends with no slash. -/
theorem getLast_text {segments : List (List Char)} (hne : segments ≠ [])
    (h : ∀ s ∈ segments, IsSegment s) : ∃ c, (text segments 0).getLast? = some c ∧ c ≠ '/' := by
  obtain ⟨init, last, rfl⟩ := (List.eq_nil_or_concat' segments).resolve_left hne
  obtain ⟨hlast, hslash⟩ := h last (List.mem_append_right _ (List.mem_singleton_self _))
  have htext : text (init ++ [last]) 0 = text init 0 ++ (['/'] ++ last) := by simp [text]
  refine ⟨last.getLast hlast, ?_, fun heq => hslash (heq ▸ List.getLast_mem hlast)⟩
  rw [htext, List.getLast?_append, List.getLast?_append, List.getLast?_eq_some_getLast hlast]
  rfl

theorem rdropWhile_replicate {cs : List Char} {c : Char} (h : cs.getLast? = some c) (hc : c ≠ '/')
    (n : ℕ) : (cs ++ List.replicate n '/').rdropWhile (· = '/') = cs := by
  induction n with
  | zero =>
    obtain ⟨ds, rfl⟩ := List.getLast?_eq_some_iff.mp h
    rw [List.replicate_zero, List.append_nil, List.rdropWhile_concat_neg _ _ _ (by simpa using hc)]
  | succ n ih =>
    rw [List.replicate_succ', ← List.append_assoc, List.rdropWhile_concat_pos _ _ _ (by simp), ih]

/-- The path without the slashes at its end. -/
theorem trimTrailingSlash_text {segments : List (List Char)} (hne : segments ≠ [])
    (h : ∀ s ∈ segments, IsSegment s) (n : ℕ) : trimTrailingSlash (text segments n) = text segments 0 := by
  obtain ⟨c, cs, htext, hc⟩ := head_text hne h
  obtain ⟨l, hlast, hl⟩ := getLast_text hne h
  rw [text_append segments n, trimTrailingSlash]
  split
  · have hdrop : (text segments 0 ++ List.replicate n '/').dropWhile (· = '/') =
        c :: cs ++ List.replicate n '/' := by
      simp [htext, hc]
    have hlast' : (c :: cs).getLast? = some l := by
      rw [htext, List.getLast?_cons_cons] at hlast
      exact hlast
    rw [hdrop, rdropWhile_replicate hlast' hl, htext]
  · rename_i hno
    cases n with
    | zero => simp
    | succ n =>
      -- a slash at the end
      refine absurd (Or.inl ?_) hno
      rw [List.replicate_succ', ← List.append_assoc, List.getLast?_append]
      rfl

/-! ## Routers -/

/-- A part of a route. -/
inductive Part
  | literal (s : String)
  | parameter
deriving DecidableEq, Repr

/-- The parameters of a path that fits a route. -/
def capture : List Part → List (List Char) → Option (List (List Char))
  | [], [] => some []
  | .literal s :: ps, x :: xs => if x = s.toList then capture ps xs else none
  | .parameter :: ps, x :: xs => if x = [] then none else (capture ps xs).map (x :: ·)
  | _, _ => none

/-- The path that has these parameters. -/
def fill : List Part → List (List Char) → Option (List (List Char))
  | [], [] => some []
  | .literal s :: ps, params => (fill ps params).map (s.toList :: ·)
  | .parameter :: ps, x :: params => (fill ps params).map (x :: ·)
  | _, _ => none

/-- **Capturing inverts filling.** -/
theorem capture_eq_some_iff {ps : List Part} {xs params : List (List Char)} :
    capture ps xs = some params ↔ fill ps params = some xs ∧ ∀ x ∈ params, x ≠ [] := by
  induction ps generalizing xs params with
  | nil =>
    cases xs with
    | nil => cases params with
      | nil => simp [capture, fill]
      | cons x params => simp [capture, fill]
    | cons x xs => cases params with
      | nil => simp [capture, fill]
      | cons y params => simp [capture, fill]
  | cons p ps ih =>
    cases p with
    | literal s =>
      cases xs with
      | nil => simp [capture, fill]
      | cons x xs =>
        rw [capture, fill]
        by_cases hx : x = s.toList
        · rw [if_pos hx, ih, Option.map_eq_some_iff]
          constructor
          · rintro ⟨hfill, hparams⟩
            exact ⟨⟨xs, hfill, by rw [hx]⟩, hparams⟩
          · rintro ⟨⟨ys, hfill, heq⟩, hparams⟩
            obtain ⟨-, rfl⟩ := List.cons.inj heq
            exact ⟨hfill, hparams⟩
        · rw [if_neg hx, Option.map_eq_some_iff]
          refine iff_of_false (fun h => by cases h) ?_
          rintro ⟨⟨ys, -, heq⟩, -⟩
          exact hx (List.cons.inj heq).1.symm
    | parameter =>
      cases xs with
      | nil =>
        cases params with
        | nil => simp [capture, fill]
        | cons y params => simp [capture, fill]
      | cons x xs =>
        rw [capture]
        cases params with
        | nil =>
          refine iff_of_false ?_ (fun h => by simp [fill] at h)
          intro h
          split at h
          · cases h
          · simp at h
        | cons y params =>
          rw [fill, Option.map_eq_some_iff, List.forall_mem_cons]
          constructor
          · intro h
            split at h
            · cases h
            · rename_i hx
              obtain ⟨zs, hzs, heq⟩ := Option.map_eq_some_iff.mp h
              obtain ⟨rfl, rfl⟩ := List.cons.inj heq
              obtain ⟨hfill, hparams⟩ := ih.mp hzs
              exact ⟨⟨xs, hfill, rfl⟩, hx, hparams⟩
          · rintro ⟨⟨ys, hfill, heq⟩, hy, hparams⟩
            obtain ⟨rfl, rfl⟩ := List.cons.inj heq
            rw [if_neg hy, ih.mpr ⟨hfill, hparams⟩]
            rfl

theorem length_of_capture {ps : List Part} {xs params : List (List Char)}
    (h : capture ps xs = some params) : xs.length = ps.length := by
  induction ps generalizing xs params with
  | nil =>
    cases xs with
    | nil => rfl
    | cons x xs => cases h
  | cons p ps ih =>
    cases xs with
    | nil => cases p <;> cases h
    | cons x xs =>
      cases p with
      | literal s =>
        rw [capture] at h
        split at h
        · rw [List.length_cons, ih h, List.length_cons]
        · cases h
      | parameter =>
        rw [capture] at h
        split at h
        · cases h
        · obtain ⟨zs, hzs, -⟩ := Option.map_eq_some_iff.mp h
          rw [List.length_cons, ih hzs, List.length_cons]

/-- The parts of a path. -/
def segmentsOf (path : List Char) : List (List Char) :=
  (path.splitOn '/').tail

theorem segmentsOf_text {segments : List (List Char)} (h : ∀ s ∈ segments, IsSegment s) :
    segmentsOf (text segments 0) = segments := by
  have htext : text segments 0 = ['/'].intercalate ([] :: segments) := by
    cases segments with
    | nil => rfl
    | cons s segments =>
      rw [List.intercalate_cons_cons, List.nil_append]
      simp only [text, List.replicate_zero, List.append_nil]
      clear h
      induction segments generalizing s with
      | nil => simp
      | cons s' segments ih =>
        rw [List.flatMap_cons, ih s', List.intercalate_cons_cons]
        simp
  rw [segmentsOf, htext, List.splitOn_intercalate _ _ (List.cons_ne_nil _ _)]
  · rfl
  · intro s hs
    rcases List.mem_cons.mp hs with rfl | hs
    · exact List.not_mem_nil
    · exact (h s hs).2

/-- A table of routes. -/
abbrev Router (E : Type*) := List (List Part × E)

/-- A route without parameters. -/
def Static {E : Type*} (r : List Part × E) : Bool :=
  r.1.all fun p => p ≠ .parameter

/-- The route that fits, with its parameters; one without parameters comes first. -/
def Router.find {E : Type*} (routes : Router E) (segments : List (List Char)) :
    Option (E × List (List Char)) :=
  ((routes.filter Static).findSome? fun r => (capture r.1 segments).map (r.2, ·)).or
    (routes.findSome? fun r => (capture r.1 segments).map (r.2, ·))

/-- No two routes are for one path: those without parameters differ, the others differ in length. -/
structure Router.Unambiguous {E : Type*} (routes : Router E) : Prop where
  literals : (routes.filter Static).Pairwise fun r r' => r.1 ≠ r'.1
  parameters : (routes.filter fun r => !Static r).Pairwise fun r r' => r.1.length ≠ r'.1.length

section Find

variable {E : Type*} {routes : Router E} {segments params : List (List Char)} {e : E}

/-- The first route that fits, among routes of which one at most does. -/
theorem findSome?_capture (segments params : List (List Char)) (e : E) {rs : List (List Part × E)}
    {R : List Part × E → List Part × E → Prop} (hpair : rs.Pairwise R)
    (hone : ∀ r ∈ rs, ∀ r' ∈ rs, R r r' → (capture r.1 segments).isSome → capture r'.1 segments = none) :
    (rs.findSome? fun r => (capture r.1 segments).map (r.2, ·)) = some (e, params) ↔
      ∃ r ∈ rs, r.2 = e ∧ capture r.1 segments = some params := by
  induction rs with
  | nil => simp
  | cons r rs ih =>
    obtain ⟨hr, hrs⟩ := List.pairwise_cons.mp hpair
    have ih := ih hrs fun a ha b hb => hone a (List.mem_cons_of_mem _ ha) b (List.mem_cons_of_mem _ hb)
    rw [List.findSome?_cons, List.exists_mem_cons_iff]
    cases hcapture : capture r.1 segments with
    | none =>
      rw [Option.map_none]
      simp only [ih, reduceCtorEq, and_false, false_or]
    | some ps =>
      rw [Option.map_some]
      have hothers : ∀ r' ∈ rs, capture r'.1 segments = none := by
        intro r' hr'
        refine hone r List.mem_cons_self r' (List.mem_cons_of_mem _ hr') (hr r' hr') ?_
        rw [hcapture]
        rfl
      constructor
      · intro heq
        obtain ⟨rfl, rfl⟩ := Prod.mk.inj (Option.some.inj heq)
        exact Or.inl ⟨rfl, rfl⟩
      · rintro (⟨rfl, heq⟩ | ⟨r', hr', -, heq⟩)
        · rw [Option.some.inj heq]
        · rw [hothers r' hr'] at heq
          cases heq

/-- As many parameters as the route has. -/
theorem length_of_fill {ps : List Part} {xs : List (List Char)} (h : fill ps params = some xs) :
    params.length = ps.count .parameter := by
  induction ps generalizing params xs with
  | nil =>
    cases params with
    | nil => rfl
    | cons x params => cases h
  | cons p ps ih =>
    cases p with
    | literal s =>
      rw [fill] at h
      obtain ⟨ys, hys, -⟩ := Option.map_eq_some_iff.mp h
      rw [ih hys, List.count_cons_of_ne (by simp)]
    | parameter =>
      cases params with
      | nil => cases h
      | cons x params =>
        rw [fill] at h
        obtain ⟨ys, hys, -⟩ := Option.map_eq_some_iff.mp h
        rw [List.length_cons, ih hys, List.count_cons_self]

/-- A route without parameters is its own path. -/
theorem fill_literals {ps : List Part} (h : ∀ p ∈ ps, p ≠ .parameter) {xs : List (List Char)}
    (hfill : fill ps params = some xs) : params = [] := by
  have hcount : ps.count .parameter = 0 := List.count_eq_zero.mpr fun hmem => h _ hmem rfl
  exact List.length_eq_zero_iff.mp ((length_of_fill hfill).trans hcount)

/-- And no other one is for that path. -/
theorem literals_eq {ps qs : List Part} (hps : ∀ p ∈ ps, p ≠ .parameter) (hqs : ∀ p ∈ qs, p ≠ .parameter)
    (h : fill ps [] = fill qs []) (hsome : (fill ps []).isSome) : ps = qs := by
  induction ps generalizing qs with
  | nil =>
    cases qs with
    | nil => rfl
    | cons q qs =>
      cases q with
      | literal s =>
        rw [fill, fill] at h
        cases hq : fill qs [] with
        | none =>
          rw [hq] at h
          cases h
        | some ys =>
          rw [hq] at h
          cases h
      | parameter => exact absurd rfl (hqs _ List.mem_cons_self)
  | cons p ps ih =>
    obtain ⟨hp, hps'⟩ := List.forall_mem_cons.mp hps
    cases p with
    | parameter => exact absurd rfl hp
    | literal s =>
      obtain ⟨xs, hxs⟩ := Option.isSome_iff_exists.mp hsome
      rw [hxs] at h
      rw [fill] at hxs
      obtain ⟨ys, hys, hsys⟩ := Option.map_eq_some_iff.mp hxs
      cases qs with
      | nil =>
        obtain rfl := Option.some.inj h
        cases hsys
      | cons q qs =>
        obtain ⟨hq, hqs'⟩ := List.forall_mem_cons.mp hqs
        cases q with
        | parameter => exact absurd rfl hq
        | literal s' =>
          rw [fill] at h
          obtain ⟨zs, hzs, hszs⟩ := Option.map_eq_some_iff.mp h.symm
          rw [← hsys] at hszs
          obtain ⟨hs, rfl⟩ := List.cons.inj hszs
          rw [ih hps' hqs' (hys.trans hzs.symm) (by rw [hys]; rfl), String.toList_injective hs.symm]

theorem static_iff {r : List Part × E} : Static r = true ↔ ∀ p ∈ r.1, p ≠ .parameter := by
  simp [Static]

/-- Routes that do not fit can be left out. -/
theorem findSome?_filter_of_none {α β : Type*} {f : α → Option β} {p : α → Bool} {l : List α}
    (h : ∀ a ∈ l, p a = false → f a = none) : (l.filter p).findSome? f = l.findSome? f := by
  induction l with
  | nil => rfl
  | cons a l ih =>
    obtain ⟨ha, hl⟩ := List.forall_mem_cons.mp h
    rw [List.filter_cons]
    cases hp : p a with
    | true =>
      rw [if_pos rfl, List.findSome?_cons, List.findSome?_cons, ih hl]
    | false =>
      rw [if_neg (by decide), List.findSome?_cons, ha hp, ih hl]

/-- **What an unambiguous router finds.** The route that fits, unless it has parameters and the path is that
of one without. -/
theorem Router.find_eq_some_iff (h : routes.Unambiguous) :
    routes.find segments = some (e, params) ↔ ∃ ps, (ps, e) ∈ routes ∧ fill ps params = some segments ∧
      (∀ x ∈ params, x ≠ []) ∧
        (Static (ps, e) = false → ∀ r ∈ routes, Static r = true → fill r.1 [] ≠ some segments) := by
  have hliterals : ∀ {r : List Part × E} {params : List (List Char)}, Static r = true →
      capture r.1 segments = some params → params = [] ∧ fill r.1 [] = some segments := by
    intro r params hr hcapture
    obtain ⟨hfill, -⟩ := capture_eq_some_iff.mp hcapture
    obtain rfl := fill_literals (static_iff.mp hr) hfill
    exact ⟨rfl, hfill⟩
  have hstatics := findSome?_capture segments params e h.literals (by
    intro r hr r' hr' hne hsome
    obtain ⟨ps, hps⟩ := Option.isSome_iff_exists.mp hsome
    obtain ⟨-, hr⟩ := List.mem_filter.mp hr
    obtain ⟨-, hr'⟩ := List.mem_filter.mp hr'
    by_contra hsome'
    obtain ⟨ps', hps'⟩ := Option.ne_none_iff_exists'.mp hsome'
    obtain ⟨-, hfill⟩ := hliterals hr hps
    obtain ⟨-, hfill'⟩ := hliterals hr' hps'
    exact hne (literals_eq (static_iff.mp hr) (static_iff.mp hr') (hfill.trans hfill'.symm)
      (by rw [hfill]; rfl)))
  have hparameters := findSome?_capture segments params e h.parameters (by
    intro r _ r' _ hne hsome
    obtain ⟨ps, hps⟩ := Option.isSome_iff_exists.mp hsome
    by_contra hsome'
    obtain ⟨ps', hps'⟩ := Option.ne_none_iff_exists'.mp hsome'
    exact hne ((length_of_capture hps).symm.trans (length_of_capture hps')))
  unfold Router.find
  cases hfirst : (routes.filter Static).findSome? fun r => (capture r.1 segments).map (r.2, ·) with
  | some found =>
    rw [Option.some_or, ← hfirst, hstatics]
    constructor
    · rintro ⟨r, hr, rfl, hcapture⟩
      obtain ⟨hmem, hstatic⟩ := List.mem_filter.mp hr
      obtain ⟨hfill, hne⟩ := capture_eq_some_iff.mp hcapture
      refine ⟨r.1, hmem, hfill, hne, fun hparameter => ?_⟩
      rw [hstatic] at hparameter
      cases hparameter
    · rintro ⟨ps, hmem, hfill, hne, hno⟩
      cases hstatic : Static (ps, e) with
      | true =>
        exact ⟨(ps, e), List.mem_filter.mpr ⟨hmem, hstatic⟩, rfl, capture_eq_some_iff.mpr ⟨hfill, hne⟩⟩
      | false =>
        obtain ⟨r, hr, hcapture⟩ := List.exists_of_findSome?_eq_some hfirst
        obtain ⟨hr, hr'⟩ := List.mem_filter.mp hr
        obtain ⟨params', hcapture, -⟩ := Option.map_eq_some_iff.mp hcapture
        exact absurd (hliterals hr' hcapture).2 (hno hstatic r hr hr')
  | none =>
    rw [Option.none_or]
    have hnone : ∀ r ∈ routes, Static r = true → capture r.1 segments = none := by
      intro r hr hstatic
      have := List.findSome?_eq_none_iff.mp hfirst r (List.mem_filter.mpr ⟨hr, hstatic⟩)
      exact Option.map_eq_none_iff.mp this
    rw [← findSome?_filter_of_none (p := fun r => !Static r) (by
      intro r hr hstatic
      rw [hnone r hr (by simpa using hstatic)]
      rfl), hparameters]
    constructor
    · rintro ⟨r, hr, rfl, hcapture⟩
      obtain ⟨hmem, -⟩ := List.mem_filter.mp hr
      obtain ⟨hfill, hne⟩ := capture_eq_some_iff.mp hcapture
      refine ⟨r.1, hmem, hfill, hne, fun _ r' hr' hstatic hfill' => ?_⟩
      have hcapture' := capture_eq_some_iff.mpr ⟨hfill', List.forall_mem_nil _⟩
      rw [hnone r' hr' hstatic] at hcapture'
      cases hcapture'
    · rintro ⟨ps, hmem, hfill, hne, -⟩
      have hcapture := capture_eq_some_iff.mpr ⟨hfill, hne⟩
      refine ⟨(ps, e), List.mem_filter.mpr ⟨hmem, ?_⟩, rfl, hcapture⟩
      by_contra hstatic
      have hfit := hnone (ps, e) hmem (by simpa using hstatic)
      rw [hcapture] at hfit
      cases hfit

end Find

/-- The routes below a path. -/
def Router.nest {E : Type*} (base : List Part) (routes : Router E) : Router E :=
  routes.map fun r => (base ++ r.1, r.2)

end Paths
