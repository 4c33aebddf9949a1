import Bittuly.Lib.Related
import Bittuly.Urls.Base62
import Bittuly.Urls.Mock

/-!
# The mock simulates the database

References: `services/url-service/src/mock.rs`, `services/url-service/src/repository.rs`.

The two repositories hand out different ids: an `INSERT` that runs into the unique constraint has drawn a
value of the sequence, where the mock has looked before. The ids of the mock are renamed to those of the
database by a function that grows with the calls: it goes up by one behind every value that is lost. What the
two keep is the same as long as Postgres takes the values as they are.
-/

namespace Bittuly.Urls

/-! ## Renaming -/

/-- The ids below `n` are handed out and renamed in order; those behind follow one by one. -/
structure Renaming (f : ℤ → ℤ) (n : ℤ) : Prop where
  strictMono : StrictMono f
  zero : f 0 = 0
  pos : 0 < n
  behind : ∀ i, n ≤ i → f (i + 1) = f i + 1

namespace Renaming

variable {f : ℤ → ℤ} {n : ℤ}

theorem initial : Renaming (fun i => i) 1 where
  strictMono := strictMono_id
  zero := rfl
  pos := Int.one_pos
  behind := fun _ _ => rfl

/-- The next id is handed out. -/
theorem succ (h : Renaming f n) : Renaming f (n + 1) where
  strictMono := h.strictMono
  zero := h.zero
  pos := h.pos.trans (Int.lt_succ n)
  behind := fun i hi => h.behind i ((Int.lt_succ n).le.trans hi)

theorem image_pos (h : Renaming f n) {i : ℤ} (hi : 0 < i) : 0 < f i := by
  rw [← h.zero]
  exact h.strictMono hi

/-- The database is never behind the mock. -/
theorem le_image (h : Renaming f n) {i : ℤ} (hi : 0 ≤ i) : i ≤ f i := by
  induction i, hi using Int.leInduction with
  | base => exact h.zero.ge
  | succ i _ ih =>
    have hlt := h.strictMono (Int.lt_succ i)
    omega

/-- The renaming when a value of the sequence is lost. -/
def skip (f : ℤ → ℤ) (n i : ℤ) : ℤ :=
  if i < n then f i else f i + 1

theorem skip_of_lt {i : ℤ} (hi : i < n) : skip f n i = f i :=
  if_pos hi

theorem skip_of_le {i : ℤ} (hi : n ≤ i) : skip f n i = f i + 1 :=
  if_neg hi.not_gt

theorem skipped (h : Renaming f n) : Renaming (skip f n) n where
  strictMono := by
    intro i j hij
    have hlt := h.strictMono hij
    unfold skip
    split <;> split <;> omega
  zero := by
    rw [skip_of_lt h.pos, h.zero]
  pos := h.pos
  behind := by
    intro i hi
    rw [skip_of_le hi, skip_of_le (hi.trans (Int.lt_succ i).le), h.behind i hi]

end Renaming

/-! ## What is the same -/

/-- Two links that differ in their ids, their codes and their times only. -/
structure SameUrl (encode : ℤ → String) (f : ℤ → ℤ) (n : ℤ) (u u' : Url) : Prop where
  range : u.urlId ∈ Set.Ioo 0 n
  urlId : u'.urlId = f u.urlId
  shortCode : u.shortCode = encode u.urlId
  shortCode' : u'.shortCode = encode u'.urlId
  originalUrl : u'.originalUrl = u.originalUrl
  userId : u'.userId = u.userId
  clickCount : u'.clickCount = u.clickCount
  expiresAt : u'.expiresAt = u.expiresAt

/-- A link of the mock and a row of the table. -/
def SameRow (encode : ℤ → String) (f : ℤ → ℤ) (n : ℤ) (u : Url) (r : UrlRow) : Prop :=
  ∃ u', r.decode = some u' ∧ SameUrl encode f n u u'

/-- Two results of one call. -/
inductive Same (encode : ℤ → String) (f : ℤ → ℤ) (n : ℤ) : RepoResult → RepoResult → Prop
  | conflict : Same encode f n (.added (.ok none)) (.added (.ok none))
  | added {u u' : Url} (h : SameUrl encode f n u u') :
      Same encode f n (.added (.ok (some u))) (.added (.ok (some u')))
  | original (result : Option (String × Option Instant)) :
      Same encode f n (.original (.ok result)) (.original (.ok result))
  | unknown : Same encode f n (.deleted (.ok none)) (.deleted (.ok none))
  | deleted {id : ℤ} (hid : id ∈ Set.Ioo 0 n) :
      Same encode f n (.deleted (.ok (some (encode id)))) (.deleted (.ok (some (encode (f id)))))

variable {encode : ℤ → String} {indexed : String → Bool} {f f' : ℤ → ℤ} {n n' last : ℤ}

theorem SameUrl.mono {u u' : Url} (h : SameUrl encode f n u u') (hn : n ≤ n') (hf : ∀ i < n, f' i = f i) :
    SameUrl encode f' n' u u' :=
  { h with
    range := ⟨h.range.1, h.range.2.trans_le hn⟩
    urlId := h.urlId.trans (hf _ h.range.2).symm }

theorem Same.mono {r r' : RepoResult} (h : Same encode f n r r') (hn : n ≤ n') (hf : ∀ i < n, f' i = f i) :
    Same encode f' n' r r' := by
  cases h with
  | conflict => exact .conflict
  | added h => exact .added (h.mono hn hf)
  | original result => exact .original result
  | unknown => exact .unknown
  | deleted hid =>
    rw [← hf _ hid.2]
    exact .deleted ⟨hid.1, hid.2.trans_le hn⟩

/-- The links that two calls have returned. -/
theorem Same.url {r r' : RepoResult} (h : Same encode f n r r') :
    Option.Rel (SameUrl encode f n) r.url r'.url := by
  cases h with
  | conflict => exact .none
  | added h => exact .some h
  | original result => exact .none
  | unknown => exact .none
  | deleted hid => exact .none

/-- A link that the first call has returned was returned by the second. -/
theorem Same.of_added {u : Url} {result' : Except SqlError (Option Url)}
    (h : Same encode f n (.added (.ok (some u))) (.added result')) :
    ∃ u', result' = .ok (some u') ∧ SameUrl encode f n u u' := by
  cases h with
  | added h => exact ⟨_, rfl, h⟩

/-! ## What the table takes -/

/-- Postgres takes the two values of a call as they are. -/
structure Taken (indexed : String → Bool) (originalUrl : String) (expiresAt : Option Instant) : Prop where
  plain : hasNul originalUrl = false
  indexed : indexed originalUrl = true
  kept : keptExpiry expiresAt = some expiresAt

/-- It takes those of every new link. -/
def RepoCall.Taken (indexed : String → Bool) : RepoCall → Prop
  | .addShortenUrl _ originalUrl _ expiresAt => Urls.Taken indexed originalUrl expiresAt
  | _ => True

/-- An `expires_at` that is kept as it is. -/
theorem keptExpiry_eq_self_iff {expiresAt : Option Instant} :
    keptExpiry expiresAt = some expiresAt ↔ ∀ exp ∈ expiresAt, timestamptz exp = some exp := by
  cases expiresAt with
  | none => simp [keptExpiry]
  | some exp => simp [keptExpiry]

/-! ## Lists of links -/

/-- The two repositories between two calls. -/
structure MockSim (encode : ℤ → String) (f : ℤ → ℤ) (m : MockUrlRepo) (p : PgUrlRepo) : Prop where
  renamed : Renaming f m.nextId
  nextval : p.nextval = f m.nextId
  urls : List.Forall₂ (SameRow encode f m.nextId) m.urls p.urls
  ids : (m.urls.map Url.urlId).Nodup

namespace MockSim

variable {m : MockUrlRepo} {p : PgUrlRepo}

theorem initial : MockSim encode (fun i => i) .new .new where
  renamed := .initial
  nextval := rfl
  urls := .nil
  ids := List.nodup_nil

theorem range (h : MockSim encode f m p) {u : Url} (hu : u ∈ m.urls) : u.urlId ∈ Set.Ioo 0 m.nextId := by
  obtain ⟨r, -, u', -, hsame⟩ := Related.exists_of_mem h.urls hu
  exact hsame.range

/-- Another renaming of the same links. -/
theorem rename (h : MockSim encode f m p) {n' : ℤ} (hn : m.nextId ≤ n') (hf : ∀ i < m.nextId, f' i = f i) :
    List.Forall₂ (SameRow encode f' n') m.urls p.urls := by
  apply h.urls.imp
  intro u r hrow
  obtain ⟨u', hdecode, hsame⟩ := hrow
  exact ⟨u', hdecode, hsame.mono hn hf⟩

/-- The same pair of columns is looked for. -/
theorem find_pair (h : MockSim encode f m p) (originalUrl : String) (userId : Uuid) :
    Option.Rel (SameRow encode f m.nextId)
      (m.urls.find? fun u => u.originalUrl = originalUrl ∧ u.userId = userId)
      (p.urls.find? fun r => r.originalUrl = originalUrl ∧ r.userId = userId) := by
  refine Related.find? h.urls fun u r hrow => ?_
  obtain ⟨u', hdecode, hsame⟩ := hrow
  obtain ⟨c, -, rfl⟩ := Option.map_eq_some_iff.mp hdecode
  rw [← hsame.originalUrl, ← hsame.userId]

/-- The ids that both have handed out are below the next one. -/
theorem drawn (h : MockSim encode f m p) (hroom : p.nextval ≤ last) {i : ℤ} (hi : i ∈ Set.Ioo 0 m.nextId) :
    i ∈ Set.Icc 1 last ∧ f i ∈ Set.Icc 1 last := by
  have hpos := h.renamed.image_pos hi.1
  have hle := h.renamed.le_image hi.1.le
  have hlt := h.renamed.strictMono hi.2
  have hnext := h.nextval
  exact ⟨⟨hi.1, by omega⟩, ⟨hpos, by omega⟩⟩

/-- No row has the code of an id that was not handed out. -/
theorem code_unused (h : MockSim encode f m p) (hroom : p.nextval ≤ last)
    (hencode : Set.InjOn encode (Set.Icc 1 last)) :
    ¬ ∃ r ∈ p.urls, r.shortCode = some (encode p.nextval) := by
  rintro ⟨r, hr, hcode⟩
  obtain ⟨u, hu, u', hdecode, hsame⟩ := Related.exists_of_mem h.urls.flip hr
  obtain ⟨c, hc, rfl⟩ := Option.map_eq_some_iff.mp hdecode
  have hrange := h.range hu
  have hnext : f m.nextId ∈ Set.Icc 1 last :=
    ⟨h.renamed.image_pos h.renamed.pos, h.nextval ▸ hroom⟩
  have heq : encode (f u.urlId) = encode (f m.nextId) := by
    rw [← hsame.urlId, ← hsame.shortCode', ← h.nextval]
    exact Option.some.inj (hc.symm.trans hcode)
  exact hrange.2.ne (h.renamed.strictMono.injective (hencode (h.drawn hroom hrange).2 hnext heq))

/-- Two calls with the same result, under a renaming that goes on. -/
def Agree (encode : ℤ → String) (f : ℤ → ℤ) (m m' : MockUrlRepo) (p' : PgUrlRepo)
    (result result' : RepoResult) : Prop :=
  ∃ f', (∀ i < m.nextId, f' i = f i) ∧ m.nextId ≤ m'.nextId ∧ MockSim encode f' m' p' ∧
    Same encode f' m'.nextId result result'

/-- A call that leaves both repositories as they are. -/
theorem agree (h : MockSim encode f m p) {result result' : RepoResult}
    (hsame : Same encode f m.nextId result result') : Agree encode f m m p result result' :=
  ⟨f, fun _ _ => rfl, le_rfl, h, hsame⟩

/-- **A failed `INSERT`** has drawn a value of the sequence. -/
theorem agree_lost (h : MockSim encode f m p) :
    Agree encode f m m { p with nextval := p.nextval + 1 } (.added (.ok none)) (.added (.ok none)) := by
  refine ⟨Renaming.skip f m.nextId, fun i hi => Renaming.skip_of_lt hi, le_rfl, ?_, .conflict⟩
  exact
    { renamed := h.renamed.skipped
      nextval := by rw [Renaming.skip_of_le le_rfl, h.nextval]
      urls := h.rename le_rfl fun i hi => Renaming.skip_of_lt hi
      ids := h.ids }

/-- **A new link** is drawn from both sequences. -/
theorem agree_new (h : MockSim encode f m p) {u u' : Url} (hid : u.urlId = m.nextId)
    (hsame : SameUrl encode f (m.nextId + 1) u u') :
    Agree encode f m { urls := MockUrlRepo.insert m.urls u, nextId := m.nextId + 1 }
      { urls := p.urls ++ [{ u' with shortCode := some u'.shortCode }], nextval := p.nextval + 1 }
      (.added (.ok (some u))) (.added (.ok (some u'))) := by
  have hfresh : u.urlId ∉ m.urls.map Url.urlId := by
    intro hmem
    obtain ⟨v, hv, hvid⟩ := List.mem_map.mp hmem
    have hlt := (h.range hv).2
    omega
  have hinsert : MockUrlRepo.insert m.urls u = m.urls ++ [u] := if_neg hfresh
  refine ⟨f, fun _ _ => rfl, (Int.lt_succ _).le, ?_, .added hsame⟩
  exact
    { renamed := h.renamed.succ
      nextval := by rw [h.renamed.behind _ le_rfl, h.nextval]
      urls := by
        rw [hinsert]
        refine List.rel_append (h.rename (Int.lt_succ _).le fun _ _ => rfl) (.cons ⟨u', rfl, hsame⟩ .nil)
      ids := by
        rw [hinsert, List.map_append, List.map_singleton, List.nodup_append]
        refine ⟨h.ids, List.nodup_singleton _, ?_⟩
        rintro a ha b hb rfl
        exact hfresh (List.mem_singleton.mp hb ▸ ha) }

/-- **An expired link** is revived under its id. -/
theorem agree_reactivated (h : MockSim encode f m p) {u u' : Url} (hu : u ∈ m.urls)
    (hsame : SameUrl encode f m.nextId u u') (expiresAt : Option Instant) (now : Instant) :
    Agree encode f m { m with urls := MockUrlRepo.insert m.urls { u with expiresAt } }
      { p with
        urls := p.urls.map fun r =>
          if r.urlId = u'.urlId then { r with expiresAt, updatedAt := now } else r }
      (.added (.ok (some { u with expiresAt })))
      (.added (.ok (some { u' with expiresAt, updatedAt := now }))) := by
  have hmem : u.urlId ∈ m.urls.map Url.urlId := List.mem_map_of_mem hu
  have hinsert : MockUrlRepo.insert m.urls { u with expiresAt } =
      m.urls.map fun v => if v.urlId = u.urlId then { u with expiresAt } else v := if_pos hmem
  have hrevived : SameUrl encode f m.nextId { u with expiresAt } { u' with expiresAt, updatedAt := now } :=
    { hsame with expiresAt := rfl }
  refine ⟨f, fun _ _ => rfl, le_rfl, ?_, .added hrevived⟩
  exact
    { renamed := h.renamed
      nextval := h.nextval
      urls := by
        rw [hinsert, List.forall₂_map_left_iff, List.forall₂_map_right_iff]
        refine ((List.forall₂_and_left _ _).mpr ⟨fun v hv => hv, h.urls⟩).imp ?_
        rintro v r ⟨hv, v', hdecode, hv'⟩
        obtain ⟨c, hc, rfl⟩ := Option.map_eq_some_iff.mp hdecode
        have hrid : r.urlId = f v.urlId := hv'.urlId
        have hid : r.urlId = u'.urlId ↔ v.urlId = u.urlId := by
          rw [hrid, hsame.urlId]
          exact h.renamed.strictMono.injective.eq_iff
        by_cases heq : v.urlId = u.urlId
        · -- ids are keys of the map
          obtain rfl := List.inj_on_of_nodup_map h.ids hv hu heq
          rw [if_pos heq, if_pos (hid.mpr heq)]
          refine ⟨{ r with shortCode := c, expiresAt, updatedAt := now }, ?_, { hv' with expiresAt := rfl }⟩
          rw [UrlRow.decode, hc]
          rfl
        · rw [if_neg heq, if_neg fun hr => heq (hid.mp hr)]
          exact ⟨_, hdecode, hv'⟩
      ids := by
        have hids : (m.urls.map fun v =>
            if v.urlId = u.urlId then { u with expiresAt } else v).map Url.urlId =
            m.urls.map Url.urlId := by
          rw [List.map_map]
          apply List.map_congr_left
          intro v _
          rw [Function.comp_apply]
          split
          · rename_i heq
            exact heq.symm
          · rfl
        rw [hinsert, hids]
        exact h.ids }

/-- **`add_shorten_url`** agrees, whatever branch each repository takes. -/
theorem addShortenUrl (h : MockSim encode f m p) (hroom : p.nextval ≤ last)
    (hencode : Set.InjOn encode (Set.Icc 1 last)) (now : Instant) {originalUrl : String} (userId : Uuid)
    {expiresAt : Option Instant} (htaken : Taken indexed originalUrl expiresAt) :
    Agree encode f m (m.addShortenUrl encode now originalUrl userId expiresAt).2
      (p.addShortenUrl encode indexed now originalUrl userId expiresAt).2
      (.added (m.addShortenUrl encode now originalUrl userId expiresAt).1)
      (.added (p.addShortenUrl encode indexed now originalUrl userId expiresAt).1) := by
  have hfind := h.find_pair originalUrl userId
  unfold MockUrlRepo.addShortenUrl PgUrlRepo.addShortenUrl
  simp only [htaken.plain, Bool.false_eq_true, if_false]
  cases hm : m.urls.find? fun u => u.originalUrl = originalUrl ∧ u.userId = userId with
  | none =>
    rw [hm] at hfind
    cases hp : p.urls.find? fun r => r.originalUrl = originalUrl ∧ r.userId = userId with
    | some r =>
      rw [hp] at hfind
      cases hfind
    | none =>
      have hpair : ¬ ∃ r ∈ p.urls, r.originalUrl = originalUrl ∧ r.userId = userId := by
        rintro ⟨r, hr, hcols⟩
        exact absurd (decide_eq_true hcols) (List.find?_eq_none.mp hp r hr)
      simp only [PgUrlRepo.insert, htaken.kept, htaken.indexed, Bool.not_true, Bool.false_eq_true, if_false,
        if_neg hpair, if_neg (h.code_unused hroom hencode)]
      have hsame : SameUrl encode f (m.nextId + 1)
          { urlId := m.nextId, shortCode := encode m.nextId, originalUrl, userId, clickCount := 0, expiresAt,
            createdAt := now, updatedAt := now }
          { urlId := p.nextval, shortCode := encode p.nextval, originalUrl, userId, clickCount := 0, expiresAt,
            createdAt := pgNow now, updatedAt := pgNow now } :=
        ⟨⟨h.renamed.pos, Int.lt_succ _⟩, h.nextval, rfl, rfl, rfl, rfl, rfl, rfl⟩
      exact h.agree_new rfl hsame
  | some u =>
    rw [hm] at hfind
    cases hp : p.urls.find? fun r => r.originalUrl = originalUrl ∧ r.userId = userId with
    | none =>
      rw [hp] at hfind
      cases hfind
    | some r =>
      rw [hp] at hfind
      obtain ⟨u', hdecode, hsame⟩ := Option.rel_some_some.mp hfind
      simp only [hdecode, hsame.expiresAt]
      cases u.expiresAt with
      | none =>
        have hpair : ∃ r ∈ p.urls, r.originalUrl = originalUrl ∧ r.userId = userId :=
          ⟨r, List.mem_of_find?_eq_some hp, by simpa using List.find?_some hp⟩
        simp only [PgUrlRepo.insert, htaken.kept, if_pos hpair]
        exact h.agree_lost
      | some exp =>
        by_cases hexpired : exp < now
        · simp only [if_pos hexpired, PgUrlRepo.reactivate, htaken.kept]
          exact h.agree_reactivated (List.mem_of_find?_eq_some hm) hsame expiresAt (pgNow now)
        · simp only [if_neg hexpired]
          exact h.agree .conflict

/-! ## Reading and deleting -/

theorem map_of_rel {a : Option Url} {b : Option UrlRow} (h : Option.Rel (SameRow encode f n) a b) :
    a.map (fun v => (v.originalUrl, v.expiresAt)) = b.map fun r => (r.originalUrl, r.expiresAt) := by
  cases h with
  | none => rfl
  | some hrow =>
    obtain ⟨v', hdecode, hv⟩ := hrow
    obtain ⟨c, -, rfl⟩ := Option.map_eq_some_iff.mp hdecode
    exact congrArg some (Prod.ext hv.originalUrl.symm hv.expiresAt.symm)

/-- **`get_original_url`** agrees on the codes of one link. -/
theorem getOriginalUrl (h : MockSim encode f m p) (hroom : p.nextval ≤ last)
    (hencode : Set.InjOn encode (Set.Icc 1 last))
    (hplain : ∀ urlId ∈ Set.Icc 1 last, hasNul (encode urlId) = false) {u u' : Url}
    (hsame : SameUrl encode f m.nextId u u') :
    Agree encode f m m p (.original (m.getOriginalUrl u.shortCode))
      (.original (p.getOriginalUrl u'.shortCode)) := by
  have hfind : Option.Rel (SameRow encode f m.nextId) (m.urls.find? fun v => v.shortCode = u.shortCode)
      (p.urls.find? fun r => r.shortCode = some u'.shortCode) := by
    refine Related.find? h.urls fun v r hrow => ?_
    obtain ⟨v', hdecode, hv⟩ := hrow
    obtain ⟨c, hc, rfl⟩ := Option.map_eq_some_iff.mp hdecode
    have hcode : c = encode (f v.urlId) := hv.shortCode'.trans (congrArg encode hv.urlId)
    rw [hc, hcode, hv.shortCode, hsame.shortCode, hsame.shortCode', hsame.urlId]
    refine decide_eq_decide.mpr ?_
    obtain ⟨hdrawn, hdrawn'⟩ := h.drawn hroom hv.range
    obtain ⟨hasked, hasked'⟩ := h.drawn hroom hsame.range
    rw [Option.some.injEq, hencode.eq_iff hdrawn hasked, hencode.eq_iff hdrawn' hasked',
      h.renamed.strictMono.injective.eq_iff]
  have hresult : (m.urls.find? fun v => v.shortCode = u.shortCode).map
      (fun v => (v.originalUrl, v.expiresAt)) =
      Urls.getOriginalUrl p.urls u'.shortCode := map_of_rel hfind
  have hcode : hasNul u'.shortCode = false := by
    rw [hsame.shortCode', hsame.urlId]
    exact hplain _ (h.drawn hroom hsame.range).2
  rw [MockUrlRepo.getOriginalUrl, hresult, PgUrlRepo.getOriginalUrl, if_neg (by simp [hcode])]
  exact h.agree (.original (Urls.getOriginalUrl p.urls u'.shortCode))

/-- The links that `delete_url` names. -/
def owned (urlId : ℤ) (userId : Uuid) (u : Url) : Bool :=
  u.urlId = urlId ∧ u.userId = userId

theorem find?_none_and_filter {α : Type*} {p : α → Bool} {as : List α} (h : ∀ a ∈ as, p a = false) :
    as.find? p = none ∧ as.filter (! p ·) = as := by
  constructor
  · exact List.find?_eq_none.mpr fun a ha => by simp [h a ha]
  · exact List.filter_eq_self.mpr fun a ha => by simp [h a ha]

/-- The mock looks an id up and then at its user; ids are keys, so this is one condition. -/
theorem deleteUrl_eq (h : MockSim encode f m p) (urlId : ℤ) (userId : Uuid) :
    m.deleteUrl urlId userId =
      (.ok ((m.urls.find? (owned urlId userId)).map Url.shortCode),
        { m with urls := m.urls.filter (! owned urlId userId ·) }) := by
  unfold MockUrlRepo.deleteUrl
  cases hfind : m.urls.find? fun u => u.urlId = urlId with
  | none =>
    have hnone : ∀ v ∈ m.urls, owned urlId userId v = false := by
      intro v hv
      have hid : v.urlId ≠ urlId := by simpa using List.find?_eq_none.mp hfind v hv
      exact decide_eq_false fun howned => hid howned.1
    obtain ⟨hfound, hfilter⟩ := find?_none_and_filter hnone
    rw [hfound, hfilter]
    rfl
  | some u =>
    have hu := List.mem_of_find?_eq_some hfind
    have hid : u.urlId = urlId := by simpa using List.find?_some hfind
    have hkey : ∀ v ∈ m.urls, v.urlId = urlId → v = u := by
      intro v hv hvid
      exact List.inj_on_of_nodup_map h.ids hv hu (hvid.trans hid.symm)
    by_cases huser : u.userId = userId
    · have howned : m.urls.find? (owned urlId userId) = some u := by
        cases hfound : m.urls.find? (owned urlId userId) with
        | none => exact absurd (decide_eq_true ⟨hid, huser⟩) (List.find?_eq_none.mp hfound u hu)
        | some v =>
          have hv : owned urlId userId v = true := List.find?_some hfound
          rw [hkey v (List.mem_of_find?_eq_some hfound) (of_decide_eq_true hv).1]
      have hfilter : m.urls.filter (fun v => v.urlId ≠ urlId) = m.urls.filter (! owned urlId userId ·) := by
        apply List.filter_congr
        intro v hv
        by_cases hvid : v.urlId = urlId
        · obtain rfl := hkey v hv hvid
          simp [owned, hvid, huser]
        · simp [owned, hvid]
      simp only [if_pos huser, howned, hfilter, Option.map_some]
    · have hnone : ∀ v ∈ m.urls, owned urlId userId v = false := by
        intro v hv
        refine decide_eq_false fun howned => huser ?_
        rw [← hkey v hv howned.1]
        exact howned.2
      obtain ⟨hfound, hfilter⟩ := find?_none_and_filter hnone
      simp only [if_neg huser, hfound, hfilter]
      rfl

/-- **`delete_url`** agrees on the ids of one link. -/
theorem deleteUrl (h : MockSim encode f m p) {u u' : Url} (hsame : SameUrl encode f m.nextId u u')
    (userId : Uuid) :
    Agree encode f m (m.deleteUrl u.urlId userId).2 (p.deleteUrl u'.urlId userId).2
      (.deleted (m.deleteUrl u.urlId userId).1) (.deleted (p.deleteUrl u'.urlId userId).1) := by
  have howned : ∀ v r, SameRow encode f m.nextId v r →
      owned u.urlId userId v = Db.ownedBy u'.urlId userId r := by
    rintro v r ⟨v', hdecode, hv⟩
    obtain ⟨c, hc, rfl⟩ := Option.map_eq_some_iff.mp hdecode
    have hid : r.urlId = f v.urlId := hv.urlId
    have huser : r.userId = v.userId := hv.userId
    rw [owned, Db.ownedBy, hid, huser, hsame.urlId]
    refine decide_eq_decide.mpr (and_congr_left' ?_)
    exact h.renamed.strictMono.injective.eq_iff.symm
  have hurls : List.Forall₂ (SameRow encode f m.nextId) (m.urls.filter (! owned u.urlId userId ·))
      (p.urls.filter (! Db.ownedBy u'.urlId userId ·)) := by
    refine List.rel_filter (fun v r hrow => ?_) h.urls
    simp only [howned v r hrow]
  have hfind := Related.find? h.urls howned
  rw [h.deleteUrl_eq]
  unfold PgUrlRepo.deleteUrl
  refine ⟨f, fun _ _ => rfl, le_rfl, ?_, ?_⟩
  · exact
      { renamed := h.renamed
        nextval := h.nextval
        urls := hurls
        ids := h.ids.sublist (List.filter_sublist.map _) }
  · revert hfind
    generalize m.urls.find? (owned u.urlId userId) = a
    generalize p.urls.find? (Db.ownedBy u'.urlId userId) = b
    rintro (⟨⟨v', hdecode, hv⟩⟩ | _)
    · obtain ⟨c, hc, rfl⟩ := Option.map_eq_some_iff.mp hdecode
      have hcode : c = encode (f _) := hv.shortCode'.trans (congrArg encode hv.urlId)
      simp only [Option.map_some, hc, hv.shortCode, hcode]
      exact .deleted hv.range
    · exact .unknown

end MockSim

/-! ## Scripts -/

/-- The two repositories and their results so far. -/
structure MockSimRun (encode : ℤ → String) (f : ℤ → ℤ) (a : MockUrlRepo × List RepoResult)
    (b : PgUrlRepo × List RepoResult) : Prop where
  repos : MockSim encode f a.1 b.1
  results : List.Forall₂ (Same encode f a.1.nextId) a.2 b.2

namespace MockSimRun

variable {m : MockUrlRepo} {p : PgUrlRepo} {results results' : List RepoResult}

/-- One more result. -/
theorem push (h : MockSimRun encode f (m, results) (p, results')) {m' : MockUrlRepo} {p' : PgUrlRepo}
    {result result' : RepoResult} (hagree : MockSim.Agree encode f m m' p' result result') :
    ∃ f', MockSimRun encode f' (m', results ++ [result]) (p', results' ++ [result']) := by
  obtain ⟨f', hf, hn, hsim, hsame⟩ := hagree
  refine ⟨f', hsim, List.rel_append ?_ (.cons hsame .nil)⟩
  exact h.results.imp fun _ _ hold => hold.mono hn hf

/-- The links that an earlier call has returned. -/
theorem url (h : MockSimRun encode f (m, results) (p, results')) (n : ℕ) :
    Option.Rel (SameUrl encode f m.nextId) (results[n]?.bind RepoResult.url)
      (results'[n]?.bind RepoResult.url) :=
  Related.bind (Related.getElem? h.results n) fun _ _ hsame => hsame.url

/-- **One call** agrees, or is none for both, and draws at most one id. -/
theorem step (h : MockSimRun encode f (m, results) (p, results')) (hroom : p.nextval ≤ last)
    (hencode : Set.InjOn encode (Set.Icc 1 last))
    (hplain : ∀ urlId ∈ Set.Icc 1 last, hasNul (encode urlId) = false) {call : RepoCall}
    (htaken : call.Taken indexed) :
    Option.Rel (fun a b => b.1.nextval ≤ p.nextval + 1 ∧ ∃ f', MockSimRun encode f' a b)
      ((MockUrlRepo.repo encode).step (m, results) call)
      ((PgUrlRepo.repo encode indexed).step (p, results') call) := by
  have hkept : p.nextval ≤ p.nextval + 1 := (Int.lt_succ _).le
  cases call with
  | addShortenUrl now originalUrl userId expiresAt =>
    exact .some ⟨p.nextval_addShortenUrl_le encode indexed now originalUrl userId expiresAt,
      h.push (h.repos.addShortenUrl hroom hencode now userId htaken)⟩
  | getOriginalUrl n =>
    exact Related.map (h.url n) fun _ _ hsame =>
      ⟨hkept, h.push (h.repos.getOriginalUrl hroom hencode hplain hsame)⟩
  | deleteUrl n userId =>
    exact Related.map (h.url n) fun _ _ hsame => ⟨hkept, h.push (h.repos.deleteUrl hsame userId)⟩

/-- **The run lemma** of scripts; `last` is the last id that they can draw. -/
theorem run {a : MockUrlRepo × List RepoResult} {b : PgUrlRepo × List RepoResult}
    (h : MockSimRun encode f a b) (hencode : Set.InjOn encode (Set.Icc 1 last))
    (hplain : ∀ urlId ∈ Set.Icc 1 last, hasNul (encode urlId) = false) {calls : List RepoCall}
    (hroom : b.1.nextval + calls.length ≤ last + 1) (htaken : ∀ call ∈ calls, call.Taken indexed) :
    Option.Rel (fun a b => ∃ f', MockSimRun encode f' a b) (calls.foldlM (MockUrlRepo.repo encode).step a)
      (calls.foldlM (PgUrlRepo.repo encode indexed).step b) := by
  induction calls generalizing f a b with
  | nil => exact .some ⟨f, h⟩
  | cons call calls ih =>
    obtain ⟨hcall, hcalls⟩ := List.forall_mem_cons.mp htaken
    rw [List.length_cons, Nat.cast_succ] at hroom
    rw [List.foldlM_cons, List.foldlM_cons]
    refine Related.bind (step h (by omega) hencode hplain hcall) fun a' b' ⟨hdrawn, f', hnext⟩ => ?_
    exact ih hnext (by omega) hcalls

end MockSimRun

/-- A script is a script for both, and gives the same results up to one renaming of the ids, in order, and of
the codes with them. -/
def Simulates (encode : ℤ → String) (indexed : String → Bool) (calls : List RepoCall) : Prop :=
  Option.Rel (fun a b => ∃ f n, StrictMono f ∧ List.Forall₂ (Same encode f n) a.2 b.2)
    ((MockUrlRepo.repo encode).run .new calls) ((PgUrlRepo.repo encode indexed).run .new calls)

/-- **The mock simulates the database** as long as that takes the values it is given; a script draws no more
ids than it has calls. -/
theorem mock_simulates {calls : List RepoCall} (hencode : Set.InjOn encode (Set.Icc 1 calls.length))
    (hplain : ∀ urlId ∈ Set.Icc (1 : ℤ) calls.length, hasNul (encode urlId) = false)
    (htaken : ∀ call ∈ calls, call.Taken indexed) : Simulates encode indexed calls := by
  have hstart : MockSimRun encode (fun i => i) (.new, []) (.new, []) := ⟨.initial, .nil⟩
  refine Related.imp (hstart.run hencode hplain (Int.add_comm _ _).le htaken) fun a b ⟨f, h⟩ => ?_
  exact ⟨f, a.1.nextId, h.repos.renamed.strictMono, h.results⟩

/-- Letters and digits are no U+0000. -/
theorem hasNul_base62Encode {urlId : ℤ} (hid : urlId ∈ Set.Ioo 0 (2 ^ 63)) :
    hasNul (base62Encode urlId) = false := by
  refine hasNul_eq_false_iff.mpr fun c hc hzero => ?_
  obtain rfl : c = Char.ofNat 0 := Char.toNat_inj.mp hzero
  exact absurd (isAlphanum_of_mem_base62Encode hid hc) (by decide)

/-- What the database returns for a first link that it takes as it is. -/
theorem taken_of_returned {now : Instant} {originalUrl : String} {userId : Uuid} {expiresAt : Option Instant}
    {u : Url} (hexpiry : u.expiresAt = expiresAt)
    (h : (PgUrlRepo.new.addShortenUrl encode indexed now originalUrl userId expiresAt).1 = .ok (some u)) :
    Taken indexed originalUrl expiresAt := by
  simp only [PgUrlRepo.addShortenUrl, PgUrlRepo.new, List.find?_nil, PgUrlRepo.insert, List.not_mem_nil,
    false_and, exists_false, if_false] at h
  split at h
  · cases h
  · rename_i hnul
    split at h
    · cases h
    · rename_i kept hkept
      split at h
      · cases h
      · rename_i hindexed
        obtain rfl := Option.some.inj (Except.ok.inj h)
        exact ⟨by simpa using hnul, by simpa using hindexed, by rw [hkept, ← hexpiry]⟩

/-- **A first link** is the same exactly when the database takes its values as they are. -/
theorem simulates_addShortenUrl_iff {now : Instant} {originalUrl : String} {userId : Uuid}
    {expiresAt : Option Instant} :
    Simulates encode indexed [.addShortenUrl now originalUrl userId expiresAt] ↔
      Taken indexed originalUrl expiresAt := by
  constructor
  · intro h
    obtain ⟨f, n, -, hresults⟩ := Option.rel_some_some.mp h
    obtain ⟨u', hreturned, hsame⟩ := Same.of_added (List.forall₂_cons.mp hresults).1
    exact taken_of_returned hsame.expiresAt hreturned
  · intro htaken
    have hstart : MockSimRun encode (fun i => i) (.new, []) (.new, []) := ⟨.initial, .nil⟩
    have hone : Set.InjOn encode (Set.Icc 1 1) := (Set.subsingleton_Icc_of_ge le_rfl).injOn encode
    obtain ⟨f, h⟩ := hstart.push (hstart.repos.addShortenUrl le_rfl hone now userId htaken)
    exact .some ⟨f, _, h.repos.renamed.strictMono, h.results⟩

/-- A link is shortened twice, another one once, with an end; the first one is deleted by its user. -/
def mockScript : List RepoCall :=
  [.addShortenUrl 0 "https://a.example/" 7 none, .addShortenUrl 1 "https://a.example/" 7 none,
    .addShortenUrl 2 "https://b.example/" 7 (some 5000), .getOriginalUrl 2, .deleteUrl 0 8, .deleteUrl 0 7,
    .getOriginalUrl 0, .addShortenUrl 5001 "https://b.example/" 7 (some 9000)]

theorem mock_simulates_script :
    ∃ a b f n, (MockUrlRepo.repo base62Encode).run .new mockScript = some a ∧
      (PgUrlRepo.repo base62Encode isShort).run .new mockScript = some b ∧ a.1.urls.map Url.urlId = [2] ∧
      b.1.urls.map UrlRow.urlId = [3] ∧ StrictMono f ∧ List.Forall₂ (Same base62Encode f n) a.2 b.2 := by
  have hforever : Taken isShort "https://a.example/" none := ⟨by decide, by decide, rfl⟩
  have hfive : Taken isShort "https://b.example/" (some 5000) := ⟨by decide, by decide, by decide⟩
  have hnine : Taken isShort "https://b.example/" (some 9000) := ⟨by decide, by decide, by decide⟩
  have htaken : ∀ call ∈ mockScript, call.Taken isShort := by
    simp [mockScript, RepoCall.Taken, hforever, hfive, hnine]
  have hids : Set.Icc (1 : ℤ) mockScript.length ⊆ Set.Ioo 0 (2 ^ 63) := by
    rintro i ⟨hpos, hle⟩
    have hlength : (mockScript.length : ℤ) = 8 := rfl
    exact ⟨by omega, by omega⟩
  obtain ⟨f, n, hf, hsame⟩ := Option.rel_some_some.mp
    (mock_simulates (base62Encode_injOn.mono hids) (fun _ hi => hasNul_base62Encode (hids hi)) htaken)
  exact ⟨_, _, f, n, rfl, rfl, rfl, rfl, hf, hsame⟩

/-- A link ends between the time that is kept of its end and the next call. -/
def nanosecondScript : List RepoCall :=
  [.addShortenUrl 0 "https://a.example/" 7 (some (pgEpoch + 900)),
    .addShortenUrl (pgEpoch + 400) "https://a.example/" 7 none]

/-- A text with U+0000. -/
def nulScript : List RepoCall :=
  [.addShortenUrl 0 "https://a.example/\x00" 7 none]

/-- A link that has ended ten thousand years ago. -/
def ancientScript : List RepoCall :=
  [.addShortenUrl 0 "https://a.example/" 7 (some (-315360000000 * second))]

/-- Where the results are the same, links are returned by the same calls. -/
theorem Simulates.isSome_url_eq {calls : List RepoCall} (h : Simulates encode indexed calls) (k : ℕ) :
    (((MockUrlRepo.repo encode).run .new calls).bind fun a => a.2[k]?.bind RepoResult.url).isSome =
      (((PgUrlRepo.repo encode indexed).run .new calls).bind fun b => b.2[k]?.bind RepoResult.url).isSome := by
  have hurls : Option.Rel (fun u u' => ∃ f n, SameUrl encode f n u u')
      (((MockUrlRepo.repo encode).run .new calls).bind fun a => a.2[k]?.bind RepoResult.url)
      (((PgUrlRepo.repo encode indexed).run .new calls).bind fun b => b.2[k]?.bind RepoResult.url) := by
    refine Related.bind h fun a b ⟨f, n, _, hresults⟩ => ?_
    have hsame := Related.bind (Related.getElem? hresults k) fun _ _ hsame => hsame.url
    exact Related.imp hsame fun _ _ hurl => ⟨f, n, hurl⟩
  exact Related.isSome_eq hurls

/-- **The two differ** on a time that the column cuts off or refuses, and on a text that it refuses. -/
theorem mock_differs :
    ¬ Simulates base62Encode isShort nanosecondScript ∧ ¬ Simulates base62Encode isShort nulScript ∧
      ¬ Simulates base62Encode isShort ancientScript := by
  refine ⟨fun h => ?_, fun h => ?_, fun h => ?_⟩
  · exact absurd (h.isSome_url_eq 1) (by decide)
  · exact absurd (h.isSome_url_eq 0) (by decide)
  · exact absurd (h.isSome_url_eq 0) (by decide)

end Bittuly.Urls
