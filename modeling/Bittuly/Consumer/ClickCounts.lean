import Bittuly.Consumer.ClickSafety
import Bittuly.Urls.Repo

/-!
# What flushes do to the table

Reference: `services/consumer-service/src/main.rs` (`increment_click_counts`).

A batch reaches Postgres as two parallel arrays, in the order in which its `HashMap` iterates. The
statement joins the table with them. One click at a time is the plain way to count, and the table that
any batching leaves is the same.
-/

namespace Bittuly.Clicks

open Amqp Runs Urls

/-- `count as i64`. -/
def asI64 (count : ℕ) : ℤ :=
  Int.bmod count (2 ^ 64)

theorem asI64_of_lt {count : ℕ} (h : count < 2 ^ 63) : asI64 count = count := by
  refine Int.bmod_eq_of_le ?_ ?_
  · omega
  · omega

/-- What the join leaves of a row: `none` for a `bigint out of range`. -/
def addDelta (d : List (String × ℤ)) (r : UrlRow) : Option UrlRow :=
  match d.find? fun e => r.shortCode = some e.1 with
  | none => some r
  | some e =>
    let clickCount := r.clickCount + e.2
    if -2 ^ 63 ≤ clickCount ∧ clickCount < 2 ^ 63 then some { r with clickCount } else none

/-- `increment_click_counts`, with the entries of the batch in the order of its iteration. -/
def incrementClickCounts (urls : List UrlRow) (entries : List (Sigma fun _ : String => ℕ)) :
    Option (List UrlRow) :=
  let (codes, deltas) := (entries.map fun e => (e.1, asI64 e.2)).unzip
  urls.mapM (addDelta (codes.zip deltas))

/-- One click. -/
def countClick (urls : List UrlRow) (shortCode : String) : List UrlRow :=
  urls.map fun r =>
    if r.shortCode = some shortCode then { r with clickCount := r.clickCount + 1 } else r

/-- Batches of clicks, each accumulated and flushed once by a statement that commits. -/
inductive Flushed : List UrlRow → List (List String) → List UrlRow → Prop
  | nil (urls : List UrlRow) : Flushed urls [] urls
  | cons {urls urls' urls'' : List UrlRow} {codes : List String} {batches : List (List String)}
      {entries : List (Sigma fun _ : String => ℕ)}
      (horder : entries.Perm (Tally.ofList codes).entries)
      (hok : incrementClickCounts urls entries = some urls') (hrest : Flushed urls' batches urls'') :
      Flushed urls (codes :: batches) urls''

/-! ## Clicks one by one -/

/-- A row with these clicks added. -/
def addClicks (codes : List String) (r : UrlRow) : UrlRow :=
  match r.shortCode with
  | none => r
  | some shortCode => { r with clickCount := r.clickCount + codes.count shortCode }

theorem addClicks_of_none {r : UrlRow} (h : r.shortCode = none) (codes : List String) :
    addClicks codes r = r := by
  simp only [addClicks, h]

theorem addClicks_of_some {r : UrlRow} {c : String} (h : r.shortCode = some c) (codes : List String) :
    addClicks codes r = { r with clickCount := r.clickCount + codes.count c } := by
  simp only [addClicks, h]

theorem addClicks_nil (r : UrlRow) : addClicks [] r = r := by
  unfold addClicks
  split
  · rfl
  · rw [List.count_nil, Nat.cast_zero, Int.add_zero]

theorem addClicks_append (codes codes' : List String) (r : UrlRow) :
    addClicks (codes ++ codes') r = addClicks codes' (addClicks codes r) := by
  cases hcode : r.shortCode with
  | none => simp only [addClicks, hcode]
  | some c =>
    simp only [addClicks, hcode, List.count_append, Nat.cast_add]
    rw [Int.add_assoc]

theorem addClicks_perm {codes codes' : List String} (h : codes.Perm codes') :
    addClicks codes = addClicks codes' := by
  funext r
  simp only [addClicks, h.count_eq]

theorem countClick_eq (urls : List UrlRow) (c : String) :
    countClick urls c = urls.map (addClicks [c]) := by
  apply List.map_congr_left
  intro r _
  cases hcode : r.shortCode with
  | none =>
    rw [addClicks_of_none hcode]
    exact if_neg (Option.some_ne_none c).symm
  | some c' =>
    rw [addClicks_of_some hcode, List.count_singleton, ← hcode]
    by_cases h : c' = c
    · rw [if_pos (hcode.trans (congrArg some h)), if_pos (by simpa using h.symm)]
      rfl
    · rw [if_neg fun heq => h (Option.some.inj (hcode.symm.trans heq)), if_neg (by simpa using Ne.symm h),
        Nat.cast_zero, Int.add_zero]

/-- Counted one after the other, clicks add up. -/
theorem foldl_countClick (urls : List UrlRow) (codes : List String) :
    codes.foldl countClick urls = urls.map (addClicks codes) := by
  induction codes generalizing urls with
  | nil =>
    rw [List.foldl_nil, List.map_congr_left fun r _ => addClicks_nil r]
    exact (List.map_id' urls).symm
  | cons c codes ih =>
    rw [List.foldl_cons, ih, countClick_eq, List.map_map]
    exact List.map_congr_left fun r _ => (addClicks_append [c] codes r).symm

/-- Clicks on a code that no row has. -/
theorem countClick_of_unnamed {urls : List UrlRow} {c : String}
    (h : ∀ r ∈ urls, r.shortCode ≠ some c) : countClick urls c = urls := by
  have hsame : ∀ r ∈ urls, (if r.shortCode = some c then { r with clickCount := r.clickCount + 1 } else r) =
      r := fun r hr => if_neg (h r hr)
  rw [countClick, List.map_congr_left hsame]
  exact List.map_id' urls

/-! ## The statement -/

/-- What the join finds for a code. -/
theorem find_delta {codes : List String} {entries : List (Sigma fun _ : String => ℕ)}
    (horder : entries.Perm (Tally.ofList codes).entries) (c : String) :
    ((entries.map fun e => (e.1, asI64 e.2)).find? fun e => some c = some e.1) =
      if c ∈ codes then some (c, asI64 (codes.count c)) else none := by
  have hlookup : ∀ n, ⟨c, n⟩ ∈ entries → n = codes.count c := by
    intro n hn
    have hn' := AList.mem_lookup_iff.mpr (horder.mem_iff.mp hn)
    rw [← Tally.get_ofList codes c, Tally.get, Option.mem_def.mp hn', Option.getD_some]
  cases hfind : (entries.map fun e => (e.1, asI64 e.2)).find? fun e => some c = some e.1 with
  | some e =>
    obtain ⟨⟨c', n⟩, hmem, rfl⟩ := List.mem_map.mp (List.mem_of_find?_eq_some hfind)
    have hcc : c = c' := by simpa using List.find?_some hfind
    subst hcc
    have hn := hlookup n hmem
    -- an entry of the batch was bumped
    have hpos : 0 < codes.count c := by
      rw [← hn]
      exact Tally.pos_of_mem_ofList (horder.mem_iff.mp hmem)
    rw [if_pos (List.count_pos_iff.mp hpos), hn]
  | none =>
    have hnot : c ∉ codes := by
      intro hc
      have hget : (Tally.ofList codes).get c ≠ 0 := by
        rw [Tally.get_ofList]
        exact (List.count_pos_iff.mpr hc).ne'
      cases hl : (Tally.ofList codes).lookup c with
      | none => exact hget (by rw [Tally.get, hl, Option.getD_none])
      | some n =>
        have hmem := horder.mem_iff.mpr (AList.mem_lookup_iff.mp (Option.mem_def.mpr hl))
        have hno := List.find?_eq_none.mp hfind _ (List.mem_map.mpr ⟨_, hmem, rfl⟩)
        simp at hno
    rw [if_neg hnot]

/-- A row that the statement does not reject has the clicks of its batch. -/
theorem addDelta_eq {codes : List String} {entries : List (Sigma fun _ : String => ℕ)}
    (horder : entries.Perm (Tally.ofList codes).entries) (hsmall : ∀ c, codes.count c < 2 ^ 63)
    {r r' : UrlRow} (h : addDelta (entries.map fun e => (e.1, asI64 e.2)) r = some r') :
    r' = addClicks codes r := by
  unfold addDelta at h
  cases hcode : r.shortCode with
  | none =>
    have hfind : (entries.map fun e => (e.1, asI64 e.2)).find?
        (fun e => (none : Option String) = some e.1) = none := by
      rw [List.find?_eq_none]
      intro e _
      simp
    rw [hcode, hfind] at h
    rw [addClicks_of_none hcode]
    exact (Option.some.inj h).symm
  | some c =>
    rw [hcode, find_delta horder c] at h
    rw [addClicks_of_some hcode]
    by_cases hc : c ∈ codes
    · simp only [if_pos hc, asI64_of_lt (hsmall c)] at h
      split at h
      · rw [← Option.some.inj h, hcode]
      · cases h
    · simp only [if_neg hc] at h
      rw [← Option.some.inj h, List.count_eq_zero_of_not_mem hc]
      simp only [Nat.cast_zero, Int.add_zero]

/-- A statement that commits adds the clicks of its batch. -/
theorem incrementClickCounts_eq {urls urls' : List UrlRow} {codes : List String}
    {entries : List (Sigma fun _ : String => ℕ)}
    (horder : entries.Perm (Tally.ofList codes).entries) (hsmall : ∀ c, codes.count c < 2 ^ 63)
    (h : incrementClickCounts urls entries = some urls') : urls' = urls.map (addClicks codes) := by
  simp only [incrementClickCounts, List.zip_unzip] at h
  induction urls generalizing urls' with
  | nil => exact (Option.some.inj h).symm
  | cons r urls ih =>
    rw [List.mapM_cons] at h
    obtain ⟨r', hr, h⟩ := Option.bind_eq_some_iff.mp h
    obtain ⟨rest, hrest, h⟩ := Option.bind_eq_some_iff.mp h
    obtain rfl := Option.some.inj h
    rw [List.map_cons, addDelta_eq horder hsmall hr, ih hrest]

theorem Flushed.eq_addClicks {urls urls' : List UrlRow} {batches : List (List String)}
    (h : Flushed urls batches urls') (hsmall : ∀ codes ∈ batches, ∀ c, codes.count c < 2 ^ 63) :
    urls' = urls.map (addClicks batches.flatten) := by
  induction h with
  | nil urls =>
    rw [List.flatten_nil, List.map_congr_left fun r _ => addClicks_nil r]
    exact (List.map_id' urls).symm
  | @cons urls urls' urls'' codes batches entries horder hok _ ih =>
    rw [ih fun codes hmem => hsmall codes (List.mem_cons_of_mem _ hmem),
      incrementClickCounts_eq horder (hsmall codes List.mem_cons_self) hok, List.map_map, List.flatten_cons]
    exact List.map_congr_left fun r _ => (addClicks_append codes batches.flatten r).symm

/-! ## Batches and single clicks -/

/-- **Batches count as single clicks do.** However the clicks are cut into batches, and in whatever order
they are counted one by one, the table is the same: each row has the clicks of its code more, nothing else
changes, and clicks on unknown codes do nothing. -/
theorem flushed_eq_one_by_one {urls urls' : List UrlRow} {batches : List (List String)}
    (hsmall : ∀ codes ∈ batches, ∀ c, codes.count c < 2 ^ 63) (h : Flushed urls batches urls')
    {order : List String} (hperm : order.Perm batches.flatten) :
    urls' = order.foldl countClick urls ∧
      urls' = urls.map (addClicks batches.flatten) ∧
      urls' = (order.filter fun c => some c ∈ urls.map UrlRow.shortCode).foldl countClick urls := by
  have hall := h.eq_addClicks hsmall
  refine ⟨?_, hall, ?_⟩
  · rw [foldl_countClick, addClicks_perm hperm, hall]
  · rw [foldl_countClick, hall]
    apply List.map_congr_left
    intro r hr
    unfold addClicks
    split
    · rfl
    · rename_i c hcode
      have hmem : some c ∈ urls.map UrlRow.shortCode := List.mem_map.mpr ⟨r, hr, hcode⟩
      rw [List.count_filter (by simpa using hmem), hperm.count_eq]

/-- The link that two batches of clicks name. -/
def clickedLink : UrlRow where
  urlId := 1
  shortCode := some "1"
  originalUrl := "https://a.example"
  userId := 7
  clickCount := 40
  expiresAt := none
  createdAt := 0
  updatedAt := 0

/-- Two clicks on a link and one on an unknown code. -/
theorem flushed_eq_one_by_one_of_two_batches :
    [{ clickedLink with clickCount := 42 }] = ["1", "1", "x"].foldl countClick [clickedLink] := by
  have hsmall : ∀ codes ∈ [["x", "1"], ["1"]], ∀ c : String, codes.count c < 2 ^ 63 := by
    intro codes hcodes c
    have hlength : codes.length ≤ 2 := by
      rcases List.mem_pair.mp hcodes with rfl | rfl <;> decide
    have hcount := List.count_le_length (a := c) (l := codes)
    omega
  have hfirst : incrementClickCounts [clickedLink] [⟨"1", 1⟩, ⟨"x", 1⟩] =
      some [{ clickedLink with clickCount := 41 }] := by decide
  have hsecond : incrementClickCounts [{ clickedLink with clickCount := 41 }] [⟨"1", 1⟩] =
      some [{ clickedLink with clickCount := 42 }] := by decide
  have hflushed : Flushed [clickedLink] [["x", "1"], ["1"]] [{ clickedLink with clickCount := 42 }] :=
    .cons (by decide) hfirst (.cons (by decide) hsecond (.nil _))
  exact (flushed_eq_one_by_one hsmall hflushed (by decide)).1

/-- A flush that the task has committed counts each of its deliveries once. -/
theorem table_of_flush {s : System} {es : List Event} {P : System → Event → Prop}
    (hrun : Run System.step P System.init es s) {f : Flush} (hf : f ∈ s.flushes)
    (hsmall : f.counted.length < 2 ^ 63) {entries : List (Sigma fun _ : String => ℕ)}
    (horder : entries.Perm f.batch.entries) {urls urls' : List UrlRow}
    (hok : incrementClickCounts urls entries = some urls') :
    urls' = (codes f.counted).foldl countClick urls := by
  obtain ⟨-, hbatch⟩ := (System.clickInv_of_run hrun).flush_eq f hf
  rw [hbatch] at horder
  have hcodes : (codes f.counted).length ≤ f.counted.length := List.length_filterMap_le _ _
  have hcount : ∀ c, (codes f.counted).count c < 2 ^ 63 := fun c =>
    (List.count_le_length.trans hcodes).trans_lt hsmall
  rw [foldl_countClick, incrementClickCounts_eq horder hcount hok]

end Bittuly.Clicks
