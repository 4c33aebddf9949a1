import Bittuly.Urls.Repo
import Mathlib.Data.List.Find

/-!
# Concurrent calls for one pair

References: `services/url-service/src/repository.rs` (`add_shorten_url`),
`docker/postgres-urls/init/01-init.sql`.

Any number of `add_shorten_url` calls for one url and one user, at one clock time. Their steps are the
`SELECT`, the reactivating `UPDATE` and the transaction around the `INSERT`, each atomic, put together from
the statements of `Db.step`. `Effect` says what each step does to the row of the pair.

The `expires_at` of a call is what the column keeps of its argument, whole microseconds; the argument itself is
only bound.
-/

namespace Bittuly.Urls

open Runs

/-- One atomic step of a call. -/
inductive CallEvent
  | select (n : ℕ)
  | reactivate (n : ℕ)
  /-- `begin` to `commit`, drawing `urlId` from the sequence. -/
  | transaction (n : ℕ) (urlId : ℤ)
deriving DecidableEq, Repr

/-- The call. -/
def CallEvent.index : CallEvent → ℕ
  | .select n | .reactivate n | .transaction n _ => n

/-- Where the call stands before the step. -/
def CallEvent.At (pc : AddPc) : CallEvent → Prop
  | .select _ => pc = .select
  | .reactivate _ => ∃ urlId, pc = .reactivate urlId
  | .transaction _ _ => pc = .insert

/-- The decision of the `SELECT`. -/
def look (row : Option UrlRow) (now : Instant) : AddPc :=
  match row with
  | none => .insert
  | some row =>
    match row.decode with
    | none => .done (.error .columnDecode)
    | some existing =>
      match existing.expiresAt with
      | some exp => if exp < now then .reactivate existing.urlId else .done (.ok none)
      | none => .insert

/-- An expiry that is not before this time. -/
def LiveAt (now : Instant) (expiresAt : Option Instant) : Prop :=
  ∀ exp ∈ expiresAt, ¬ exp < now

instance (now : Instant) : DecidablePred (LiveAt now) := fun expiresAt =>
  inferInstanceAs (Decidable (∀ exp ∈ expiresAt, _))

/-- What the decision tells about the row. -/
inductive Look (now : Instant) : Option UrlRow → AddPc → Prop
  | absent : Look now none .insert
  | unreadable {r : UrlRow} (hdecode : r.decode = none) : Look now (some r) (.done (.error .columnDecode))
  | expired {r : UrlRow} (hdecode : r.decode.isSome) (hdead : ¬ LiveAt now r.expiresAt) :
      Look now (some r) (.reactivate r.urlId)
  | conflict {r : UrlRow} (hdecode : r.decode.isSome) (hlive : LiveAt now r.expiresAt)
      (hexp : r.expiresAt ≠ none) : Look now (some r) (.done (.ok none))
  | endless {r : UrlRow} (hdecode : r.decode.isSome) (hexp : r.expiresAt = none) : Look now (some r) .insert

theorem look_spec (now : Instant) (row : Option UrlRow) : Look now row (look row now) := by
  unfold look
  split
  · exact .absent
  · rename_i r
    split
    · exact .unreadable ‹_›
    · rename_i existing hdecode
      have hsome := Option.isSome_of_mem hdecode
      obtain ⟨code, -, rfl⟩ := Option.map_eq_some_iff.mp hdecode
      split
      · rename_i exp hexp
        split
        · rename_i hlt
          exact .expired hsome fun hlive => hlive exp hexp hlt
        · rename_i hle
          refine .conflict hsome (fun exp' hexp' => ?_) (Option.ne_none_iff_exists'.mpr ⟨exp, hexp⟩)
          obtain rfl := Option.some.inj (hexp.symm.trans hexp')
          exact hle
      · exact .endless hsome ‹_›

namespace Db

/-- The row of a pair. -/
def row (db : Db) (originalUrl : String) (userId : Uuid) : Option UrlRow :=
  db.urls.find? fun r => r.originalUrl = originalUrl ∧ r.userId = userId

theorem select_eq (db : Db) (call : AddCall) (now : Instant) :
    db.select call now = look (db.row call.originalUrl call.userId) now :=
  rfl

variable (encode : ℤ → String) (now : Instant)

/-- The statements after the `INSERT`, with nobody in between. A statement is not reached once an earlier
one has ended the call. -/
def finish (db : Db) (n : ℕ) : Db :=
  let db := (db.step encode (.assign n)).getD db
  (db.step encode (.commit n .ok)).getD db

/-- The transaction. -/
def transaction (db : Db) (n : ℕ) (urlId : ℤ) : Option Db :=
  (db.step encode (.insert n urlId now)).map fun db => db.finish encode n

/-- One atomic step, at the one clock time. -/
def race (db : Db) : CallEvent → Option Db
  | .select n => db.step encode (.select n now)
  | .reactivate n => db.step encode (.reactivate n now .ok)
  | .transaction n urlId => db.transaction encode now n urlId

variable {encode now} in
/-- A race is a run of the database. -/
theorem exists_run_of_race {db t : Db} {es : List CallEvent} {P : Db → CallEvent → Prop}
    (hrun : Run (race encode now) P db es t) : ∃ as, Run (Db.step encode) Any db as t := by
  have hgetD : ∀ (db : Db) (e : DbEvent),
      ∃ as, Run (Db.step encode) Any db as ((db.step encode e).getD db) := by
    intro db e
    cases hstep : db.step encode e with
    | none => exact ⟨[], .nil db⟩
    | some db' => exact ⟨[e], .single trivial hstep⟩
  have hsim : ∀ (v : Db) (e : CallEvent) (v' w : Db), w = v → P v e → v.race encode now e = some v' →
      ∃ as w', Run (Db.step encode) Any w as w' ∧ w' = v' := by
    rintro v e v' w rfl - hstep
    cases e with
    | select n => exact ⟨[.select n now], v', .single trivial hstep, rfl⟩
    | reactivate n => exact ⟨[.reactivate n now .ok], v', .single trivial hstep, rfl⟩
    | transaction n urlId =>
      obtain ⟨v₁, hinsert, rfl⟩ := Option.map_eq_some_iff.mp hstep
      obtain ⟨as, hassign⟩ := hgetD v₁ (.assign n)
      obtain ⟨bs, hcommit⟩ := hgetD ((v₁.step encode (.assign n)).getD v₁) (.commit n .ok)
      exact ⟨_, _, .cons trivial hinsert (hassign.append hcommit), rfl⟩
  obtain ⟨as, w, hw, rfl⟩ := hrun.simulate (R := fun v w => w = v) hsim rfl
  exact ⟨as, hw⟩

/-- The reactivating `UPDATE` takes effect. -/
def revive (db : Db) (urlId : ℤ) (expiresAt : Option Instant) : Db :=
  db.commitRows (db.urls.map fun r => if r.urlId = urlId then reactivated r expiresAt now else r)

/-- The row that a transaction leaves. -/
def codedRow (call : AddCall) (urlId : ℤ) : UrlRow :=
  { newRow call urlId now with shortCode := some (encode urlId) }

/-- The sequence has moved on. -/
def draw (db : Db) (call : AddCall) (urlId : ℤ) : Db :=
  { db with issued := db.issued ++ [(newRow call urlId now).issue] }

/-- The transaction takes effect. -/
def addRow (db : Db) (call : AddCall) (urlId : ℤ) : Db :=
  (db.draw now call urlId).commitRows (db.urls ++ [codedRow encode now call urlId])

/-- A value that the sequence can still give. -/
def Fresh (db : Db) (urlId : ℤ) : Prop :=
  ¬ (urlId ≤ 0 ∨ 2 ^ 63 ≤ urlId ∨ urlId ∈ db.issued.map Issue.urlId)

/-- The code of this id is in use. -/
def Taken (db : Db) (urlId : ℤ) : Prop :=
  ∃ r ∈ db.urls, r.shortCode = some (encode urlId)

instance (db : Db) : DecidablePred db.Fresh := fun _ => inferInstanceAs (Decidable (¬ _))

instance (db : Db) : DecidablePred (db.Taken encode) := fun _ =>
  inferInstanceAs (Decidable (∃ r ∈ db.urls, _))

variable {encode now}

theorem isSome_row_iff {db : Db} {originalUrl : String} {userId : Uuid} :
    (db.row originalUrl userId).isSome ↔ (originalUrl, userId) ∈ db.urls.map UrlRow.pair := by
  simp [row, List.find?_isSome, UrlRow.pair]

theorem finish_of_done {db : Db} {n : ℕ} {call : AddCall} (hcall : db.calls[n]? = some call)
    {result : Except SqlError (Option Url)} (hpc : call.pc = .done result) : db.finish encode n = db := by
  simp only [finish, step, hcall, hpc, Option.getD_none]

variable (encode now) in
/-- The row of the open transaction is the only pending one. -/
theorem finish_of_assign {db : Db} {n : ℕ} {call : AddCall} {urlId : ℤ} (hcall : db.calls[n]? = some call)
    (hpc : call.pc = .assign urlId) (hpending : db.pending = [newRow call urlId now]) :
    db.finish encode n = if db.Taken encode urlId then
        { db with pending := [] }.setPc n call (.done (.error .database))
      else
        ({ db with pending := [] }.commitRows (db.urls ++ [codedRow encode now call urlId])).setPc n call
          (.done (.ok (codedRow encode now call urlId).decode)) := by
  have hid : (newRow call urlId now).urlId = urlId := rfl
  have hwaits : ¬ ∃ r ∈ db.pending, r.urlId ≠ urlId ∧ r.shortCode = some (encode urlId) := by
    simp [hpending, hid]
  have hassign : db.step encode (.assign n) = db.assign encode n call urlId := by
    simp only [step, hcall, hpc]
  unfold finish
  rw [hassign]
  by_cases htaken : db.Taken encode urlId
  · -- the unique constraint on `short_code` rolls back
    rw [if_pos htaken]
    unfold Taken at htaken
    rw [assign, if_neg hwaits, if_pos htaken]
    have hrollback : db.rollback (some urlId) = { db with pending := [] } := by
      simp [rollback, hpending, hid]
    rw [hrollback, Option.getD_some]
    have hdone := getElem?_setPc_self { db with pending := [] } hcall (.done (.error .database))
    simp only [step, hdone, Option.getD_none]
  · rw [if_neg htaken]
    unfold Taken at htaken
    rw [assign, if_neg hwaits, if_neg htaken]
    have hcoded : (db.pending.map fun r =>
        if r.urlId = urlId then { r with shortCode := some (encode urlId) } else r) =
          [codedRow encode now call urlId] := by
      rw [hpending, List.map_singleton, if_pos hid]
      rfl
    rw [hcoded, Option.getD_some]
    have hcommit := getElem?_setPc_self { db with pending := [codedRow encode now call urlId] } hcall
      (.commit urlId)
    simp only [step, hcommit, Option.getD_some]
    simp [commit, rollback, commitRows, setPc, hid, codedRow, UrlRow.decode, DbResult.applied]

/-- The transaction, read in one piece. -/
theorem transaction_eq {db : Db} (hpending : db.pending = []) {n : ℕ} {call : AddCall}
    (hcall : db.calls[n]? = some call) (hpc : call.pc = .insert) (urlId : ℤ) :
    db.transaction encode now n urlId =
      if db.Fresh urlId then
        some (if (db.row call.originalUrl call.userId).isSome then
          (db.draw now call urlId).setPc n call (.done (.ok none))
        else if db.Taken encode urlId then
          (db.draw now call urlId).setPc n call (.done (.error .database))
        else
          (db.addRow encode now call urlId).setPc n call
            (.done (.ok ((codedRow encode now call urlId).decode))))
      else none := by
  have hstep : db.step encode (.insert n urlId now) = db.insert n call urlId now := by
    simp only [step, hcall, hpc]
  have hpair : (newRow call urlId now).pair ∈ db.urls.map UrlRow.pair ↔
      (db.row call.originalUrl call.userId).isSome := isSome_row_iff.symm
  have hfree : (newRow call urlId now).pair ∉ db.pending.map UrlRow.pair := by simp [hpending]
  rw [transaction, hstep]
  by_cases hfresh : db.Fresh urlId
  · rw [if_pos hfresh]
    unfold Fresh at hfresh
    simp only [insert, if_neg hfresh, if_neg hfree, hpair]
    by_cases hrow : (db.row call.originalUrl call.userId).isSome
    · rw [if_pos hrow, if_pos hrow, Option.map_some]
      exact congrArg some (finish_of_done (getElem?_setPc_self (db.draw now call urlId) hcall _) rfl)
    · rw [if_neg hrow, if_neg hrow, Option.map_some]
      have hopen := getElem?_setPc_self { db.draw now call urlId with pending := [newRow call urlId now] }
        hcall (.assign urlId)
      have hpending' : db.pending ++ [newRow call urlId now] = [newRow call urlId now] := by
        rw [hpending, List.nil_append]
      simp only [hpending']
      have hfinish := finish_of_assign encode now hopen rfl rfl
      refine congrArg some (hfinish.trans ?_)
      by_cases htaken : db.Taken encode urlId
      · rw [if_pos htaken]
        refine (if_pos htaken).trans ?_
        simp [setPc, draw, hpending]
      · rw [if_neg htaken]
        refine (if_neg htaken).trans ?_
        simp [setPc, addRow, draw, commitRows, hpending, codedRow, newRow]
  · rw [if_neg hfresh]
    unfold Fresh at hfresh
    rw [insert, if_pos (not_not.mp hfresh), Option.map_none]

theorem race_select {db : Db} {n : ℕ} {call : AddCall} (hcall : db.calls[n]? = some call)
    (hpc : call.pc = .select) : db.race encode now (.select n) =
      some (db.setPc n call (look (db.row call.originalUrl call.userId) now)) := by
  simp only [race, step, hcall, hpc, select_eq]

/-- The `UPDATE` finds the row by its id. -/
theorem race_reactivate {db : Db} (hids : (db.urls.map UrlRow.urlId).Nodup) {n : ℕ} {call : AddCall}
    (hcall : db.calls[n]? = some call) {r : UrlRow} (hr : r ∈ db.urls) (hpc : call.pc = .reactivate r.urlId)
    {url : Url} (hurl : (reactivated r call.expiresAt now).decode = some url) :
    db.race encode now (.reactivate n) =
      some ((db.revive now r.urlId call.expiresAt).setPc n call (.done (.ok (some url)))) := by
  have hfind : db.urls.find? (fun r' => r'.urlId = r.urlId) = some r := by
    have hsome : (db.urls.find? fun r' => r'.urlId = r.urlId).isSome :=
      List.find?_isSome.mpr ⟨r, hr, by simp⟩
    obtain ⟨r', hr'⟩ := Option.isSome_iff_exists.mp hsome
    have hid : r'.urlId = r.urlId := by simpa using List.find?_some hr'
    rw [hr', List.inj_on_of_nodup_map hids (List.mem_of_find?_eq_some hr') hr hid]
  have happlied : DbResult.ok.applied = true := rfl
  simp only [race, step, hcall, hpc, reactivate, hfind, hurl, happlied, if_true, revive]

/-- The row after an `UPDATE`. -/
theorem row_revive {db : Db} {originalUrl : String} {userId : Uuid} {r : UrlRow}
    (hrow : db.row originalUrl userId = some r) (expiresAt : Option Instant) :
    (db.revive now r.urlId expiresAt).row originalUrl userId = some (reactivated r expiresAt now) := by
  unfold row at hrow ⊢
  simp only [revive, commitRows, List.find?_map]
  have hsame : ((fun r' : UrlRow => decide (r'.originalUrl = originalUrl ∧ r'.userId = userId)) ∘
      fun r' => if r'.urlId = r.urlId then reactivated r' expiresAt now else r') =
        fun r' => decide (r'.originalUrl = originalUrl ∧ r'.userId = userId) := by
    funext r'
    simp only [Function.comp_apply]
    split <;> rfl
  rw [hsame, hrow, Option.map_some, if_pos rfl]

/-- The row after a transaction. -/
theorem row_addRow {db : Db} {originalUrl : String} {userId : Uuid}
    (hrow : db.row originalUrl userId = none) {call : AddCall} (hcall : call.originalUrl = originalUrl ∧ call.userId = userId) (urlId : ℤ) :
    (db.addRow encode now call urlId).row originalUrl userId = some (codedRow encode now call urlId) := by
  have hpair : decide ((codedRow encode now call urlId).originalUrl = originalUrl ∧
      (codedRow encode now call urlId).userId = userId) = true := decide_eq_true hcall
  unfold row at hrow ⊢
  simp only [addRow, commitRows, List.find?_append, hrow, Option.none_or, List.find?_singleton, hpair,
    if_true]

end Db

/-! ## One step -/

/-- Where a call can be between two steps. -/
def Point (row : Option UrlRow) : AddPc → Prop
  | .select | .done _ => True
  | .insert => ∀ r, row = some r → r.decode.isSome
  | .reactivate urlId => ∃ r, row = some r ∧ r.urlId = urlId ∧ r.decode.isSome
  | .assign _ | .commit _ => False

/-- What the calls rely on of their row: its id, and that it decodes. -/
structure Continues (row row' : Option UrlRow) : Prop where
  kept : ∀ r, row = some r → r.decode.isSome → ∃ r', row' = some r' ∧ r'.urlId = r.urlId ∧ r'.decode.isSome
  born : row = none → ∀ r', row' = some r' → r'.decode.isSome

theorem Continues.refl (row : Option UrlRow) : Continues row row where
  kept := fun r hr hdecode => ⟨r, hr, rfl, hdecode⟩
  born := fun hnone r' hr' => by
    rw [hnone] at hr'
    cases hr'

/-- A row takes the place of another with its id, or of none. -/
theorem Continues.some {row : Option UrlRow} {r' : UrlRow} (hid : ∀ r ∈ row, r'.urlId = r.urlId)
    (hdecode : r'.decode.isSome) : Continues row (some r') where
  kept := fun r hr _ => ⟨r', rfl, hid r hr, hdecode⟩
  born := fun _ _ hr => Option.some.inj hr ▸ hdecode

/-- Calls for one pair, and no open transaction. -/
structure Racing (originalUrl : String) (userId : Uuid) (db : Db) : Prop where
  pending : db.pending = []
  owned : ∀ call ∈ db.calls, call.originalUrl = originalUrl ∧ call.userId = userId
  ids : (db.urls.map UrlRow.urlId).Nodup
  known : ∀ r ∈ db.urls, r.urlId ∈ db.issued.map Issue.urlId
  points : ∀ call ∈ db.calls, Point (db.row originalUrl userId) call.pc

variable (encode : ℤ → String) (now : Instant) (originalUrl : String) (userId : Uuid)

open Db in
/-- What the steps do. -/
inductive Effect (db : Db) : CallEvent → Db → Prop
  | select {n : ℕ} {call : AddCall} (hcall : db.calls[n]? = some call) (hpc : call.pc = .select) :
      Effect db (.select n) (db.setPc n call (look (db.row originalUrl userId) now))
  | revived {n : ℕ} {call : AddCall} {r : UrlRow} {url : Url} (hcall : db.calls[n]? = some call)
      (hpc : call.pc = .reactivate r.urlId) (hrow : db.row originalUrl userId = some r)
      (hurl : (reactivated r call.expiresAt now).decode = some url) :
      Effect db (.reactivate n)
        ((db.revive now r.urlId call.expiresAt).setPc n call (.done (.ok (some url))))
  | inserted {n : ℕ} {call : AddCall} {urlId : ℤ} {url : Url} (hcall : db.calls[n]? = some call)
      (hpc : call.pc = .insert) (hfresh : db.Fresh urlId) (hrow : db.row originalUrl userId = none)
      (htaken : ¬ db.Taken encode urlId) (hurl : (codedRow encode now call urlId).decode = some url) :
      Effect db (.transaction n urlId)
        ((db.addRow encode now call urlId).setPc n call (.done (.ok (some url))))
  | collided {n : ℕ} {call : AddCall} {urlId : ℤ} {r : UrlRow} (hcall : db.calls[n]? = some call)
      (hpc : call.pc = .insert) (hfresh : db.Fresh urlId) (hrow : db.row originalUrl userId = some r) :
      Effect db (.transaction n urlId) ((db.draw now call urlId).setPc n call (.done (.ok none)))
  | taken {n : ℕ} {call : AddCall} {urlId : ℤ} (hcall : db.calls[n]? = some call)
      (hpc : call.pc = .insert) (hfresh : db.Fresh urlId) (hrow : db.row originalUrl userId = none)
      (htaken : db.Taken encode urlId) :
      Effect db (.transaction n urlId)
        ((db.draw now call urlId).setPc n call (.done (.error .database)))

variable {encode now originalUrl userId} {db db' : Db}

namespace Racing

theorem mem_row {r : UrlRow} (hrow : db.row originalUrl userId = some r) : r ∈ db.urls :=
  List.mem_of_find?_eq_some hrow

/-- A call and its pair. -/
theorem row_call (h : Racing originalUrl userId db) {n : ℕ} {call : AddCall}
    (hcall : db.calls[n]? = some call) :
    db.row call.originalUrl call.userId = db.row originalUrl userId := by
  obtain ⟨ho, hu⟩ := h.owned call (List.mem_of_getElem? hcall)
  rw [ho, hu]

/-- A step is taken by a call that has come to it. -/
theorem pc_of_race {e : CallEvent} (hstep : db.race encode now e = some db') :
    ∃ call, db.calls[e.index]? = some call ∧ e.At call.pc := by
  cases e with
  | select n =>
    have hselect : db.step encode (.select n now) = some db' := hstep
    cases Db.fired_of_step hselect with
    | select hcall hpc now => exact ⟨_, hcall, hpc⟩
  | reactivate n =>
    have hreactivate : db.step encode (.reactivate n now .ok) = some db' := hstep
    cases Db.fired_of_step hreactivate with
    | reactivate hcall hpc now result => exact ⟨_, hcall, _, hpc⟩
  | transaction n urlId =>
    obtain ⟨db₁, hinsert, -⟩ := Option.map_eq_some_iff.mp hstep
    cases Db.fired_of_step hinsert with
    | insert hcall hpc h => exact ⟨_, hcall, hpc⟩

/-- Every step has one of the effects. -/
theorem effect_of_race (h : Racing originalUrl userId db) {e : CallEvent}
    (hstep : db.race encode now e = some db') : Effect encode now originalUrl userId db e db' := by
  obtain ⟨call, hcall, hpc⟩ := pc_of_race hstep
  cases e with
  | select n =>
    replace hcall : db.calls[n]? = some call := hcall
    rw [Db.race_select hcall hpc, h.row_call hcall] at hstep
    obtain rfl := Option.some.inj hstep
    exact .select hcall hpc
  | reactivate n =>
    replace hcall : db.calls[n]? = some call := hcall
    obtain ⟨urlId, hpc⟩ := hpc
    have hpoint := h.points call (List.mem_of_getElem? hcall)
    rw [hpc] at hpoint
    obtain ⟨r, hrow, rfl, hdecode⟩ := hpoint
    have hrevived : (Db.reactivated r call.expiresAt now).decode.isSome := by
      rwa [UrlRow.decode, Option.isSome_map] at hdecode ⊢
    obtain ⟨url, hurl⟩ := Option.isSome_iff_exists.mp hrevived
    rw [Db.race_reactivate h.ids hcall (mem_row hrow) hpc hurl] at hstep
    obtain rfl := Option.some.inj hstep
    exact .revived hcall hpc hrow hurl
  | transaction n urlId =>
    replace hcall : db.calls[n]? = some call := hcall
    rw [Db.race, Db.transaction_eq h.pending hcall hpc, h.row_call hcall] at hstep
    split at hstep
    · rename_i hfresh
      obtain rfl := Option.some.inj hstep
      cases hrow : db.row originalUrl userId with
      | some r =>
        rw [if_pos (Option.isSome_some)]
        exact .collided hcall hpc hfresh hrow
      | none =>
        rw [if_neg (by simp)]
        by_cases htaken : db.Taken encode urlId
        · rw [if_pos htaken]
          exact .taken hcall hpc hfresh hrow htaken
        · rw [if_neg htaken]
          exact .inserted hcall hpc hfresh hrow htaken rfl
    · cases hstep

/-- And conversely. -/
theorem race_of_effect (h : Racing originalUrl userId db) {e : CallEvent}
    (heffect : Effect encode now originalUrl userId db e db') : db.race encode now e = some db' := by
  cases heffect with
  | @select n call hcall hpc => rw [Db.race_select hcall hpc, h.row_call hcall]
  | revived hcall hpc hrow hurl => exact Db.race_reactivate h.ids hcall (mem_row hrow) hpc hurl
  | @inserted n call urlId url hcall hpc hfresh hrow htaken hurl =>
    rw [Db.race, Db.transaction_eq h.pending hcall hpc, if_pos hfresh, h.row_call hcall, hrow,
      if_neg (by simp), if_neg htaken, hurl]
  | collided hcall hpc hfresh hrow =>
    rw [Db.race, Db.transaction_eq h.pending hcall hpc, if_pos hfresh, h.row_call hcall, hrow,
      if_pos (Option.isSome_some)]
  | taken hcall hpc hfresh hrow htaken =>
    rw [Db.race, Db.transaction_eq h.pending hcall hpc, if_pos hfresh, h.row_call hcall, hrow,
      if_neg (by simp), if_pos htaken]

theorem point_of_row {row row' : Option UrlRow} {pc : AddPc} (h : Point row pc)
    (hrow : Continues row row') : Point row' pc := by
  cases pc with
  | reactivate urlId =>
    obtain ⟨r, hr, rfl, hdecode⟩ := h
    exact hrow.kept r hr hdecode
  | insert =>
    intro r' hr'
    cases hr : row with
    | none => exact hrow.born hr r' hr'
    | some r =>
      obtain ⟨r'', hr'', -, hdecode⟩ := hrow.kept r hr (h r hr)
      obtain rfl := Option.some.inj (hr'.symm.trans hr'')
      exact hdecode
  | select => trivial
  | done result => trivial
  | assign urlId => exact h
  | commit urlId => exact h

/-- Advancing a call. -/
theorem setPc (h : Racing originalUrl userId db) (db₀ : Db) (hcalls : db₀.calls = db.calls)
    (hpending : db₀.pending = db.pending) (hids : (db₀.urls.map UrlRow.urlId).Nodup)
    (hknown : ∀ r ∈ db₀.urls, r.urlId ∈ db₀.issued.map Issue.urlId)
    (hrow : Continues (db.row originalUrl userId) (db₀.row originalUrl userId))
    {n : ℕ} {call : AddCall} (hcall : db.calls[n]? = some call) {pc : AddPc}
    (hpoint : Point (db₀.row originalUrl userId) pc) : Racing originalUrl userId (db₀.setPc n call pc) := by
  refine ⟨hpending.trans h.pending, ?_, hids, hknown, ?_⟩
  · intro c hc
    rcases List.mem_or_eq_of_mem_set hc with hold | rfl
    · exact h.owned c (hcalls ▸ hold)
    · exact h.owned call (List.mem_of_getElem? hcall)
  · intro c hc
    rcases List.mem_or_eq_of_mem_set hc with hold | rfl
    · exact point_of_row (h.points c (hcalls ▸ hold)) hrow
    · exact hpoint

theorem point_of_look {row : Option UrlRow} {pc : AddPc} (h : Look now row pc) : Point row pc := by
  cases h with
  | absent =>
    intro r hr
    cases hr
  | unreadable hdecode => trivial
  | @expired r hdecode hdead => exact ⟨r, rfl, rfl, hdecode⟩
  | conflict hdecode hlive hexp => trivial
  | endless hdecode hexp =>
    intro r hr
    obtain rfl := Option.some.inj hr
    exact hdecode

/-- Every step leaves the calls racing. -/
theorem step (h : Racing originalUrl userId db) {e : CallEvent} (hstep : db.race encode now e = some db') :
    Racing originalUrl userId db' := by
  have hsame := Continues.refl (db.row originalUrl userId)
  have hdraw : ∀ call urlId, ∀ r ∈ db.urls, r.urlId ∈ (db.draw now call urlId).issued.map Issue.urlId := by
    intro call urlId r hr
    rw [Db.draw, List.map_append]
    exact List.mem_append_left _ (h.known r hr)
  cases h.effect_of_race hstep with
  | select hcall hpc => exact h.setPc db rfl rfl h.ids h.known hsame hcall (point_of_look (look_spec now _))
  | @revived n call r url hcall hpc hrow hurl =>
    have hids : (db.revive now r.urlId call.expiresAt).urls.map UrlRow.urlId =
        db.urls.map UrlRow.urlId := by
      rw [Db.revive, Db.commitRows, List.map_map]
      apply List.map_congr_left
      intro r' _
      simp only [Function.comp_apply]
      split <;> rfl
    refine h.setPc (db.revive now r.urlId call.expiresAt) rfl rfl (hids ▸ h.ids) ?_ ?_ hcall trivial
    · intro r' hr'
      have hmem := List.mem_map_of_mem (f := UrlRow.urlId) hr'
      rw [hids] at hmem
      obtain ⟨r₀, hr₀, hid⟩ := List.mem_map.mp hmem
      rw [← hid]
      exact h.known r₀ hr₀
    · rw [hrow, Db.row_revive hrow]
      refine .some (fun r' hr' => ?_) (Option.isSome_of_mem hurl)
      rw [← Option.some.inj hr']
      rfl
  | @inserted n call urlId url hcall hpc hfresh hrow htaken hurl =>
    have hnew : urlId ∉ db.urls.map UrlRow.urlId := by
      intro hmem
      obtain ⟨r, hr, rfl⟩ := List.mem_map.mp hmem
      exact hfresh (Or.inr (Or.inr (h.known r hr)))
    refine h.setPc (db.addRow encode now call urlId) rfl rfl ?_ ?_ ?_ hcall trivial
    · simp only [Db.addRow, Db.commitRows, List.map_append, List.map_singleton]
      refine List.nodup_append.mpr ⟨h.ids, List.nodup_singleton _, ?_⟩
      intro id hid id' hid' heq
      obtain rfl : id' = urlId := List.mem_singleton.mp hid'
      exact hnew (heq ▸ hid)
    · intro r hr
      rcases List.mem_append.mp hr with hold | hr
      · exact hdraw call urlId r hold
      · rw [List.mem_singleton.mp hr]
        simp [Db.addRow, Db.commitRows, Db.draw, Db.codedRow, Db.newRow, UrlRow.issue]
    · rw [hrow, Db.row_addRow hrow (h.owned call (List.mem_of_getElem? hcall))]
      exact .some (fun r hr => by cases hr) rfl
  | @collided n call urlId r hcall hpc hfresh hrow =>
    exact h.setPc (db.draw now call urlId) rfl rfl h.ids (hdraw call urlId) hsame hcall trivial
  | @taken n call urlId hcall hpc hfresh hrow htaken =>
    exact h.setPc (db.draw now call urlId) rfl rfl h.ids (hdraw call urlId) hsame hcall trivial

end Racing

variable (encode now originalUrl userId) in
/-- A step, as far as the row and the call go. -/
inductive View (db : Db) (call : AddCall) : CallEvent → Option UrlRow → AddPc → Prop
  | look {n : ℕ} {pc : AddPc} (hpc : call.pc = .select) (hlook : Look now (db.row originalUrl userId) pc) :
      View db call (.select n) (db.row originalUrl userId) pc
  | revived {n : ℕ} {urlId : ℤ} {r : UrlRow} {url : Url} (hpc : call.pc = .reactivate urlId)
      (hurl : r.decode = some url) (hexp : r.expiresAt = call.expiresAt) :
      View db call (.reactivate n) (some r) (.done (.ok (some url)))
  | inserted {n : ℕ} {urlId : ℤ} {r : UrlRow} {url : Url} (hpc : call.pc = .insert)
      (hrow : db.row originalUrl userId = none) (htaken : ¬ db.Taken encode urlId)
      (hurl : r.decode = some url) (hexp : r.expiresAt = call.expiresAt) :
      View db call (.transaction n urlId) (some r) (.done (.ok (some url)))
  | collided {n : ℕ} {urlId : ℤ} {r : UrlRow} (hpc : call.pc = .insert)
      (hrow : db.row originalUrl userId = some r) :
      View db call (.transaction n urlId) (db.row originalUrl userId) (.done (.ok none))
  | taken {n : ℕ} {urlId : ℤ} (hpc : call.pc = .insert) (hrow : db.row originalUrl userId = none)
      (htaken : db.Taken encode urlId) :
      View db call (.transaction n urlId) (db.row originalUrl userId) (.done (.error .database))

/-- A step moves one call, and shows as much of it. -/
theorem Racing.view (h : Racing originalUrl userId db) {e : CallEvent}
    (hstep : db.race encode now e = some db') : ∃ call pc, db.calls[e.index]? = some call ∧
      db'.calls = db.calls.set e.index { call with pc } ∧
        View encode now originalUrl userId db call e (db'.row originalUrl userId) pc := by
  cases h.effect_of_race hstep with
  | select hcall hpc => exact ⟨_, _, hcall, rfl, .look hpc (look_spec now _)⟩
  | @revived n call r url hcall hpc hrow hurl =>
    refine ⟨_, _, hcall, rfl, ?_⟩
    have hrow' : ((db.revive now r.urlId call.expiresAt).setPc n call (.done (.ok (some url)))).row
        originalUrl userId = some (Db.reactivated r call.expiresAt now) := Db.row_revive hrow call.expiresAt
    rw [hrow']
    exact .revived hpc hurl rfl
  | @inserted n call urlId url hcall hpc hfresh hrow htaken hurl =>
    refine ⟨_, _, hcall, rfl, ?_⟩
    have hrow' : ((db.addRow encode now call urlId).setPc n call (.done (.ok (some url)))).row
        originalUrl userId = some (Db.codedRow encode now call urlId) :=
      Db.row_addRow hrow (h.owned call (List.mem_of_getElem? hcall)) urlId
    rw [hrow']
    exact .inserted hpc hrow htaken hurl rfl
  | collided hcall hpc hfresh hrow => exact ⟨_, _, hcall, rfl, .collided hpc hrow⟩
  | taken hcall hpc hfresh hrow htaken => exact ⟨_, _, hcall, rfl, .taken hpc hrow htaken⟩

end Bittuly.Urls
