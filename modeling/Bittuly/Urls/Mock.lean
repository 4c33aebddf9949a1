import Bittuly.Text
import Bittuly.Urls.Repo
import Mathlib.Data.Int.ConditionallyCompleteOrder
import Mathlib.Data.List.Find

/-!
# The two repositories

References: `services/url-service/src/repo_trait.rs`, `services/url-service/src/mock.rs`,
`services/url-service/src/repository.rs`.

`UrlRepo` is the trait, as far as its calls write or read single links. A call returns before the next one
is made. The ids and codes that a call is given are those that an earlier one has returned, so a script
names the call. The mock keeps what it is given; Postgres keeps whole microseconds of a `TIMESTAMPTZ` and
fails on a text with U+0000 or with too long an index entry.
-/

namespace Bittuly.Urls

/-- `trait UrlRepo`; `now` is the clock at the call. -/
structure UrlRepo (σ : Type) where
  addShortenUrl (s : σ) (now : Instant) (originalUrl : String) (userId : Uuid)
    (expiresAt : Option Instant) :
    Except SqlError (Option Url) × σ
  getOriginalUrl (s : σ) (shortCode : String) : Except SqlError (Option (String × Option Instant))
  deleteUrl (s : σ) (urlId : ℤ) (userId : Uuid) : Except SqlError (Option String) × σ

/-! ## `MockUrlRepo` -/

/-- The values of the map, in the order it iterates over them, under their `url_id`s. -/
structure MockUrlRepo where
  urls : List Url
  nextId : ℤ

namespace MockUrlRepo

variable (encode : ℤ → String)

def new : MockUrlRepo where
  urls := []
  nextId := 1

/-- `HashMap::insert` under the link's id. -/
def insert (urls : List Url) (url : Url) : List Url :=
  if url.urlId ∈ urls.map Url.urlId then urls.map fun u => if u.urlId = url.urlId then url else u
  else urls ++ [url]

def addShortenUrl (s : MockUrlRepo) (now : Instant) (originalUrl : String) (userId : Uuid)
    (expiresAt : Option Instant) : Except SqlError (Option Url) × MockUrlRepo :=
  match s.urls.find? fun u => u.originalUrl = originalUrl ∧ u.userId = userId with
  | some existing =>
    match existing.expiresAt with
    | some exp =>
      if exp < now then
        let updated := { existing with expiresAt }
        (.ok (some updated), { s with urls := insert s.urls updated })
      else (.ok none, s)
    | none => (.ok none, s)
  | none =>
    let url : Url :=
      { urlId := s.nextId, shortCode := encode s.nextId, originalUrl, userId, clickCount := 0, expiresAt,
        createdAt := now, updatedAt := now }
    (.ok (some url), { urls := insert s.urls url, nextId := s.nextId + 1 })

def getOriginalUrl (s : MockUrlRepo) (shortCode : String) :
    Except SqlError (Option (String × Option Instant)) :=
  .ok ((s.urls.find? fun u => u.shortCode = shortCode).map fun u => (u.originalUrl, u.expiresAt))

def deleteUrl (s : MockUrlRepo) (urlId : ℤ) (userId : Uuid) :
    Except SqlError (Option String) × MockUrlRepo :=
  match s.urls.find? fun u => u.urlId = urlId with
  | some url =>
    if url.userId = userId then
      (.ok (some url.shortCode), { s with urls := s.urls.filter fun u => u.urlId ≠ urlId })
    else (.ok none, s)
  | none => (.ok none, s)

def repo : UrlRepo MockUrlRepo where
  addShortenUrl := addShortenUrl encode
  getOriginalUrl := getOriginalUrl
  deleteUrl := deleteUrl

end MockUrlRepo

/-! ## `PgUrlRepo` -/

/-- The committed rows, with no transaction open, and the next value of the `url_id` sequence. -/
structure PgUrlRepo where
  urls : List UrlRow
  nextval : ℤ

/-- What the column keeps of a bound `expires_at`, unless that is out of range. -/
def keptExpiry : Option Instant → Option (Option Instant)
  | none => some none
  | some exp => (timestamptz exp).map some

namespace PgUrlRepo

variable (encode : ℤ → String) (indexed : String → Bool)

/-- The table as created. -/
def new : PgUrlRepo where
  urls := []
  nextval := 1

/-- The transaction of `add_shorten_url`. The index on `original_url` takes the texts that are `indexed`: those
whose entries fit on a third of a page. -/
def insert (s : PgUrlRepo) (now : Instant) (originalUrl : String) (userId : Uuid)
    (expiresAt : Option Instant) : Except SqlError (Option Url) × PgUrlRepo :=
  match keptExpiry expiresAt with
  | none => (.error .database, s)
  | some expiresAt =>
    let urlId := s.nextval
    -- a sequence value is not given back
    let s := { s with nextval := urlId + 1 }
    if ∃ r ∈ s.urls, r.originalUrl = originalUrl ∧ r.userId = userId then (.ok none, s)
    else if ! indexed originalUrl then (.error .database, s)
    else if ∃ r ∈ s.urls, r.shortCode = some (encode urlId) then (.error .database, s)
    else
      let url : Url :=
        { urlId, shortCode := encode urlId, originalUrl, userId, clickCount := 0, expiresAt,
          createdAt := pgNow now, updatedAt := pgNow now }
      (.ok (some url), { s with urls := s.urls ++ [{ url with shortCode := some url.shortCode }] })

/-- The reactivating `UPDATE`. -/
def reactivate (s : PgUrlRepo) (now : Instant) (existing : Url) (expiresAt : Option Instant) :
    Except SqlError (Option Url) × PgUrlRepo :=
  match keptExpiry expiresAt with
  | none => (.error .database, s)
  | some expiresAt =>
    (.ok (some { existing with expiresAt, updatedAt := pgNow now }),
      { s with
        urls := s.urls.map fun r =>
          if r.urlId = existing.urlId then { r with expiresAt, updatedAt := pgNow now } else r })

def addShortenUrl (s : PgUrlRepo) (now : Instant) (originalUrl : String) (userId : Uuid)
    (expiresAt : Option Instant) : Except SqlError (Option Url) × PgUrlRepo :=
  -- the `SELECT` fails
  if hasNul originalUrl then (.error .database, s)
  else
    match s.urls.find? fun r => r.originalUrl = originalUrl ∧ r.userId = userId with
    | none => s.insert encode indexed now originalUrl userId expiresAt
    | some row =>
      match row.decode with
      | none => (.error .columnDecode, s)
      | some existing =>
        match existing.expiresAt with
        | some exp => if exp < now then s.reactivate now existing expiresAt else (.ok none, s)
        | none => s.insert encode indexed now originalUrl userId expiresAt

def getOriginalUrl (s : PgUrlRepo) (shortCode : String) :
    Except SqlError (Option (String × Option Instant)) :=
  if hasNul shortCode then .error .database else .ok (Urls.getOriginalUrl s.urls shortCode)

/-- The `DELETE`, with the code it returns. -/
def deleteUrl (s : PgUrlRepo) (urlId : ℤ) (userId : Uuid) : Except SqlError (Option String) × PgUrlRepo :=
  let returned : Except SqlError (Option String) :=
    match s.urls.find? (Db.ownedBy urlId userId) with
    | none => .ok none
    | some row =>
      match row.shortCode with
      | some code => .ok (some code)
      | none => .error .columnDecode
  (returned, { s with urls := s.urls.filter (! Db.ownedBy urlId userId ·) })

def repo : UrlRepo PgUrlRepo where
  addShortenUrl := addShortenUrl encode indexed
  getOriginalUrl := getOriginalUrl
  deleteUrl := deleteUrl

theorem nextval_insert_le (s : PgUrlRepo) (now : Instant) (originalUrl : String) (userId : Uuid)
    (expiresAt : Option Instant) :
    (s.insert encode indexed now originalUrl userId expiresAt).2.nextval ≤ s.nextval + 1 := by
  unfold insert
  split
  · exact (Int.lt_succ _).le
  · dsimp only
    -- drawn, whether the statements fail or not
    split
    · exact le_rfl
    · split
      · exact le_rfl
      · split
        · exact le_rfl
        · exact le_rfl

theorem nextval_reactivate (s : PgUrlRepo) (now : Instant) (existing : Url) (expiresAt : Option Instant) :
    (s.reactivate now existing expiresAt).2.nextval = s.nextval := by
  unfold reactivate
  split
  · rfl
  · rfl

/-- A call draws at most one value of the sequence. -/
theorem nextval_addShortenUrl_le (s : PgUrlRepo) (now : Instant) (originalUrl : String) (userId : Uuid)
    (expiresAt : Option Instant) :
    (s.addShortenUrl encode indexed now originalUrl userId expiresAt).2.nextval ≤ s.nextval + 1 := by
  have hkept : s.nextval ≤ s.nextval + 1 := (Int.lt_succ _).le
  unfold addShortenUrl
  split
  · exact hkept
  · split
    · exact nextval_insert_le encode indexed s now originalUrl userId expiresAt
    · split
      · exact hkept
      · split
        · split
          · rw [nextval_reactivate]
            exact hkept
          · exact hkept
        · exact nextval_insert_le encode indexed s now originalUrl userId expiresAt

end PgUrlRepo

/-! ## Scripts -/

/-- A call; `n` is the earlier call that has returned what this one is given. -/
inductive RepoCall
  | addShortenUrl (now : Instant) (originalUrl : String) (userId : Uuid) (expiresAt : Option Instant)
  | getOriginalUrl (n : ℕ)
  | deleteUrl (n : ℕ) (userId : Uuid)

inductive RepoResult
  | added (result : Except SqlError (Option Url))
  | original (result : Except SqlError (Option (String × Option Instant)))
  | deleted (result : Except SqlError (Option String))

/-- The link that a call has returned. -/
def RepoResult.url : RepoResult → Option Url
  | .added (.ok url) => url
  | _ => none

/-- One more call; there is none with an id or a code that was not returned. -/
def UrlRepo.step {σ : Type} (repo : UrlRepo σ) :
    σ × List RepoResult → RepoCall → Option (σ × List RepoResult)
  | (s, results), .addShortenUrl now originalUrl userId expiresAt =>
    let (result, s') := repo.addShortenUrl s now originalUrl userId expiresAt
    some (s', results ++ [.added result])
  | (s, results), .getOriginalUrl n =>
    (results[n]?.bind RepoResult.url).map fun url =>
      (s, results ++ [.original (repo.getOriginalUrl s url.shortCode)])
  | (s, results), .deleteUrl n userId =>
    (results[n]?.bind RepoResult.url).map fun url =>
      let (result, s') := repo.deleteUrl s url.urlId userId
      (s', results ++ [.deleted result])

/-- The results of a script. -/
def UrlRepo.run {σ : Type} (repo : UrlRepo σ) (s : σ) (calls : List RepoCall) :
    Option (σ × List RepoResult) :=
  calls.foldlM repo.step (s, [])

/-! ## The order of the map

A `HashMap` iterates in any order. The mock looks for a pair or a code that at most one of its links has, so
it finds the same link in every order.
-/

namespace MockUrlRepo

variable {encode : ℤ → String}

/-- The columns by which the mock looks for a link. -/
def pair (u : Url) : String × Uuid :=
  (u.originalUrl, u.userId)

/-- No id and no pair twice, and the codes are those of the ids. -/
structure Distinct (encode : ℤ → String) (m : MockUrlRepo) : Prop where
  range : ∀ u ∈ m.urls, u.urlId ∈ Set.Ioo 0 m.nextId
  pos : 0 < m.nextId
  coded : ∀ u ∈ m.urls, u.shortCode = encode u.urlId
  ids : (m.urls.map Url.urlId).Nodup
  pairs : (m.urls.map pair).Nodup

theorem distinct_new : Distinct encode .new where
  range := fun _ hu => nomatch hu
  pos := Int.one_pos
  coded := fun _ hu => nomatch hu
  ids := List.nodup_nil
  pairs := List.nodup_nil

namespace Distinct

variable {m : MockUrlRepo}

/-- A link that takes the place of one with its id, code and pair. -/
theorem revive (h : m.Distinct encode) {u u' : Url} (hu : u ∈ m.urls) (hid : u'.urlId = u.urlId)
    (hcode : u'.shortCode = u.shortCode) (hpair : pair u' = pair u) :
    Distinct encode { m with urls := insert m.urls u' } := by
  have hmem : u'.urlId ∈ m.urls.map Url.urlId := hid ▸ List.mem_map_of_mem hu
  have hinsert : insert m.urls u' = m.urls.map fun v => if v.urlId = u'.urlId then u' else v := if_pos hmem
  -- the link that it replaces is `u`
  have hreplaced : ∀ v ∈ m.urls, v.urlId = u'.urlId → v = u := fun v hv heq =>
    List.inj_on_of_nodup_map h.ids hv hu (heq.trans hid)
  have hkept : ∀ {α : Type} (col : Url → α), col u' = col u →
      (insert m.urls u').map col = m.urls.map col := by
    intro α col hcol
    rw [hinsert, List.map_map]
    apply List.map_congr_left
    intro v hv
    rw [Function.comp_apply]
    split
    · rename_i heq
      rw [hcol, hreplaced v hv heq]
    · rfl
  have hlinks : ∀ v ∈ insert m.urls u', v ∈ m.urls ∨ v = u' := by
    intro v hv
    rw [hinsert] at hv
    obtain ⟨w, hw, rfl⟩ := List.mem_map.mp hv
    split
    · exact .inr rfl
    · exact .inl hw
  refine ⟨?_, h.pos, ?_, ?_, ?_⟩
  · intro v hv
    rcases hlinks v hv with hold | rfl
    · exact h.range v hold
    · rw [hid]
      exact h.range u hu
  · intro v hv
    rcases hlinks v hv with hold | rfl
    · exact h.coded v hold
    · rw [hid, hcode]
      exact h.coded u hu
  · rw [hkept _ hid]
    exact h.ids
  · rw [hkept _ hpair]
    exact h.pairs

/-- A link with the next id. -/
theorem append (h : m.Distinct encode) {u : Url} (hid : u.urlId = m.nextId)
    (hcode : u.shortCode = encode u.urlId) (hpair : pair u ∉ m.urls.map pair) :
    Distinct encode { urls := insert m.urls u, nextId := m.nextId + 1 } := by
  have hfresh : u.urlId ∉ m.urls.map Url.urlId := by
    intro hmem
    obtain ⟨v, hv, hvid⟩ := List.mem_map.mp hmem
    exact (h.range v hv).2.ne (hvid.trans hid)
  have hinsert : insert m.urls u = m.urls ++ [u] := if_neg hfresh
  have hone : ∀ {α : Type} (col : Url → α), (m.urls.map col).Nodup → col u ∉ m.urls.map col →
      ((m.urls ++ [u]).map col).Nodup := by
    intro α col hnodup hnew
    rw [List.map_append, List.map_singleton]
    exact List.nodup_append'.mpr ⟨hnodup, List.nodup_singleton _, List.disjoint_singleton.mpr hnew⟩
  refine ⟨?_, h.pos.trans (Int.lt_succ _), ?_, ?_, ?_⟩
  · intro v hv
    rw [hinsert] at hv
    rcases List.mem_append.mp hv with hold | hnew
    · exact ⟨(h.range v hold).1, (h.range v hold).2.trans (Int.lt_succ _)⟩
    · rw [List.mem_singleton.mp hnew, hid]
      exact ⟨h.pos, Int.lt_succ _⟩
  · intro v hv
    rw [hinsert] at hv
    rcases List.mem_append.mp hv with hold | hnew
    · exact h.coded v hold
    · rw [List.mem_singleton.mp hnew, hcode]
  · rw [hinsert]
    exact hone _ h.ids hfresh
  · rw [hinsert]
    exact hone _ h.pairs hpair

theorem addShortenUrl (h : m.Distinct encode) (now : Instant) (originalUrl : String) (userId : Uuid)
    (expiresAt : Option Instant) :
    (m.addShortenUrl encode now originalUrl userId expiresAt).2.Distinct encode := by
  unfold MockUrlRepo.addShortenUrl
  split
  · rename_i existing hfind
    split
    · split
      · exact h.revive (List.mem_of_find?_eq_some hfind) rfl rfl rfl
      · exact h
    · exact h
  · rename_i hfind
    refine h.append rfl rfl ?_
    intro hmem
    obtain ⟨u, hu, hpair⟩ := List.mem_map.mp hmem
    have hnot := List.find?_eq_none.mp hfind u hu
    exact hnot (decide_eq_true (Prod.mk.inj hpair))

theorem deleteUrl (h : m.Distinct encode) (urlId : ℤ) (userId : Uuid) :
    (m.deleteUrl urlId userId).2.Distinct encode := by
  unfold MockUrlRepo.deleteUrl
  split
  · split
    · exact
        { range := fun u hu => h.range u (List.mem_of_mem_filter hu)
          pos := h.pos
          coded := fun u hu => h.coded u (List.mem_of_mem_filter hu)
          ids := h.ids.sublist (List.filter_sublist.map _)
          pairs := h.pairs.sublist (List.filter_sublist.map _) }
    · exact h
  · exact h

theorem step {a a' : MockUrlRepo × List RepoResult} (h : a.1.Distinct encode) {call : RepoCall}
    (hstep : (repo encode).step a call = some a') : a'.1.Distinct encode := by
  cases call with
  | addShortenUrl now originalUrl userId expiresAt =>
    obtain rfl := Option.some.inj hstep
    exact h.addShortenUrl now originalUrl userId expiresAt
  | getOriginalUrl n =>
    obtain ⟨url, -, rfl⟩ := Option.map_eq_some_iff.mp hstep
    exact h
  | deleteUrl n userId =>
    obtain ⟨url, -, rfl⟩ := Option.map_eq_some_iff.mp hstep
    exact h.deleteUrl url.urlId userId

/-- It holds after every script. -/
theorem run {a a' : MockUrlRepo × List RepoResult} (h : a.1.Distinct encode) {calls : List RepoCall}
    (hrun : calls.foldlM (repo encode).step a = some a') : a'.1.Distinct encode := by
  induction calls generalizing a with
  | nil =>
    obtain rfl := Option.some.inj hrun
    exact h
  | cons call calls ih =>
    obtain ⟨b, hb, hrest⟩ := Option.bind_eq_some_iff.mp hrun
    exact ih (h.step hb) hrest

end Distinct

/-- **The order of the map does not matter** to a mock that a script has reached. -/
theorem find_of_perm {calls : List RepoCall} {a : MockUrlRepo × List RepoResult}
    (hencode : Set.InjOn encode (Set.Ioo 0 a.1.nextId)) (hrun : (repo encode).run .new calls = some a)
    {urls : List Url} (hperm : a.1.urls.Perm urls) :
    (∀ originalUrl userId, (a.1.urls.find? fun u => u.originalUrl = originalUrl ∧ u.userId = userId) =
      urls.find? fun u => u.originalUrl = originalUrl ∧ u.userId = userId) ∧
    (∀ shortCode, (a.1.urls.find? fun u => u.shortCode = shortCode) =
      urls.find? fun u => u.shortCode = shortCode) ∧
    ∀ urlId, (a.1.urls.find? fun u => u.urlId = urlId) = urls.find? fun u => u.urlId = urlId := by
  have h : a.1.Distinct encode := Distinct.run distinct_new hrun
  refine ⟨?_, ?_, ?_⟩
  · intro originalUrl userId
    refine List.find?_eq_find?_of_perm hperm ?_
    rintro u ⟨hu, hcols⟩ v ⟨hv, hcols'⟩
    have hpair : pair u = (originalUrl, userId) := Prod.ext_iff.mpr (of_decide_eq_true hcols)
    have hpair' : pair v = (originalUrl, userId) := Prod.ext_iff.mpr (of_decide_eq_true hcols')
    exact List.inj_on_of_nodup_map h.pairs hu hv (hpair.trans hpair'.symm)
  · intro shortCode
    refine List.find?_eq_find?_of_perm hperm ?_
    rintro u ⟨hu, hcode⟩ v ⟨hv, hcode'⟩
    have heq : encode u.urlId = encode v.urlId := by
      rw [← h.coded u hu, ← h.coded v hv, of_decide_eq_true hcode, of_decide_eq_true hcode']
    exact List.inj_on_of_nodup_map h.ids hu hv (hencode (h.range u hu) (h.range v hv) heq)
  · intro urlId
    refine List.find?_eq_find?_of_perm hperm ?_
    rintro u ⟨hu, hid⟩ v ⟨hv, hid'⟩
    exact List.inj_on_of_nodup_map h.ids hu hv ((of_decide_eq_true hid).trans (of_decide_eq_true hid').symm)

end MockUrlRepo

end Bittuly.Urls
