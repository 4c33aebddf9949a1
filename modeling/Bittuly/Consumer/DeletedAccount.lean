import Bittuly.Auth.Middleware
import Bittuly.Consumer.Eviction
import Bittuly.Urls.Tenancy
import Mathlib.Tactic.FinCases

/-!
# Links of a deleted account

References: `libs/shared/src/jwt.rs` (`jwt_auth`), `services/auth-service/src/handlers.rs` (`delete_user`),
`services/url-service/src/handlers.rs` (`shorten_url`), `services/consumer-service/src/main.rs` (the second
spawned task).

The two services share the secret and nothing else: url-service takes the user of a request from its
token and never asks whether the account still exists. So a token that outlives the account, or a request
that was accepted before the deletion, can write links after the cascade. The log records which requests
were accepted, which transactions committed and when the cascade ran.
-/

namespace Bittuly.DeletedAccount

open Auth Runs Urls UserDeleted

/-- What has happened. -/
inductive Note
  /-- `jwt_auth` let a `shorten_url` request pass as this user; its call has this number. -/
  | accepted (n : ℕ) (userId : Uuid) (cookieStr : String) (now : ℕ)
  /-- The transaction of a call has committed its row. -/
  | committed (n : ℕ) (urlId : ℤ)
  /-- The consumer's `DELETE` for this user has committed. -/
  | cascaded (userId : Uuid)
deriving DecidableEq, Repr

/-- The three services, with the tokens handed out and the log, the latest note first. -/
structure Platform where
  now : ℕ
  minted : List Mint
  system : System
  db : Db
  log : List Note

inductive PlatformEvent
  | tick (seconds : ℕ)
  /-- `verify_otp`, `login` or `update_user` answers with the tokens of a user. -/
  | signIn (userId : Uuid)
  /-- A request to any other protected route. -/
  | visit (cookieStr : String)
  | shorten (cookieStr originalUrl : String) (expiresAt : Option Instant)
  /-- A step of auth-service, of the broker, or a restart of the consumer. -/
  | others (e : Event)
  /-- The consumer handles its next delivery. -/
  | handle (o : Outcome)
  /-- The next statement of a `shorten_url` call, or a `delete_url`. -/
  | url (e : DbEvent)

namespace Platform

def start (now : ℕ) : Platform where
  now := now
  minted := []
  system := System.init
  db := Db.init
  log := []

variable (lib : JsonWebToken) (env : Env) (format : EventFormat) (encode : ℤ → String)

/-- The surroundings at this moment. -/
def surroundings (s : Platform) : Env :=
  { env with now := s.now }

/-- An access and a refresh token for a user. -/
def mint (s : Platform) (userId : Uuid) : Platform :=
  { s with minted := s.minted ++ [.access userId s.now, .refresh userId s.now] }

/-- The tokens of the refresh branch. -/
def refresh (s : Platform) (a : Admission) : Platform :=
  if a.fresh.isSome then s.mint a.claims.sub else s

/-- The row that a `COMMIT` makes visible. -/
def commitNotes (db : Db) : DbEvent → List Note
  | .commit n result =>
    match db.calls[n]? with
    | some call =>
      match call.pc with
      | .commit urlId => if result.applied then [.committed n urlId] else []
      | _ => []
    | none => []
  | _ => []

/-- The consumer's `DELETE`. -/
def cascade (s : Platform) (userId : Uuid) (result : DbResult) : Platform :=
  { s with
    db := s.db.deleteWhere (fun r => r.userId = userId) result
    log := if result.applied then .cascaded userId :: s.log else s.log }

/-- One step. -/
def step (s : Platform) : PlatformEvent → Option Platform
  | .tick seconds => some { s with now := s.now + seconds }
  | .signIn userId => if userId ∈ s.system.users then some (s.mint userId) else none
  | .visit cookieStr =>
    match authenticate lib (s.surroundings env) (some cookieStr) with
    | .ok a => some (s.refresh a)
    | .error _ => some s
  | .shorten cookieStr originalUrl expiresAt =>
    match authenticate lib (s.surroundings env) (some cookieStr) with
    | .ok a =>
      (s.db.step encode (.call originalUrl a.claims.sub expiresAt)).map fun db =>
        { s.refresh a with
          db, log := .accepted s.db.calls.length a.claims.sub cookieStr s.now :: s.log }
    | .error _ => some s
  | .others e =>
    match e with
    | .handle _ => none
    | e => (s.system.step format e).map fun system => { s with system }
  | .handle o =>
    (s.system.step format (.handle o)).bind fun system =>
      s.system.broker.next.map fun r =>
        match format.fromSlice r.1.msg.data with
        | none => { s with system }
        | some userId => { s with system }.cascade userId o.delete
  | .url e =>
    match e with
    | .call _ _ _ | .cascade _ _ => none
    | e => (s.db.step encode e).map fun db => { s with db, log := commitNotes s.db e ++ s.log }

/-- The tokens that are around; pending tokens may be tried as well. -/
def Minted (s : Platform) : Set Mint :=
  {m | m ∈ s.minted ∨ m.body.isRight}

/-- Nobody forges the token cookies of a request. -/
def Unforged (secret : String) (s : Platform) : PlatformEvent → Prop
  | .visit cookieStr | .shorten cookieStr _ _ =>
    ∀ name ∈ [cookieAccess, cookieRefresh], ∀ token, FirstCookie cookieStr name token →
      Genuine lib secret s.Minted token
  | _ => True

/-- Every statement and every message succeeds, and the consumer does not die. -/
def Smooth (_ : Platform) : PlatformEvent → Prop
  | .others (.deleteUser _ result) => result = .ok
  | .others (.publishDeleted _ _ ok) => ok
  | .others .crash => False
  | .handle o => o = { delete := .ok, publish := true, ack := true }
  | .url (.reactivate _ _ result) | .url (.commit _ result) | .url (.deleteUrl _ _ result) => result = .ok
  | .url (.fail _) => False
  | _ => True

instance (s : Platform) : DecidablePred s.Smooth
  | .others (.deleteUser _ result) => inferInstanceAs (Decidable (result = .ok))
  | .others (.publishDeleted _ _ ok) => inferInstanceAs (Decidable (ok = true))
  | .others .crash | .url (.fail _) => inferInstanceAs (Decidable False)
  | .handle o => inferInstanceAs (Decidable (o = _))
  | .url (.reactivate _ _ result) | .url (.commit _ result) | .url (.deleteUrl _ _ result) =>
    inferInstanceAs (Decidable (result = .ok))
  | .tick _ | .signIn _ | .visit _ | .shorten _ _ _ | .others (.signup _) | .others (.deliver _)
  | .others (.handle _) | .others (.expire _) | .url (.call _ _ _) | .url (.select _ _)
  | .url (.insert _ _ _) | .url (.assign _) | .url (.cascade _ _) => inferInstanceAs (Decidable True)

/-- The event of this user has been acknowledged after its `DELETE`. -/
def Acked (s : Platform) (userId : Uuid) : Prop :=
  ∃ m ∈ s.system.completed, format.fromSlice m.data = some userId

/-- The header authenticated as this user, with tokens that were handed out. -/
def Authentic (secret : String) (s : Platform) (now : ℕ) (cookieStr : String) (userId : Uuid) : Prop :=
  Direct lib secret s.Minted now cookieStr userId ∨ Refreshed lib secret s.Minted now cookieStr userId

end Platform

/-! ## What the statements of url-service do -/

section Statements

variable {encode : ℤ → String}

/-- A call keeps its user. -/
theorem calls_of_step {db db' : Db} (hinv : StoreInv encode db) (htargeted : Targeted db) {e : DbEvent}
    (hnew : ∀ originalUrl userId expiresAt, e ≠ .call originalUrl userId expiresAt)
    (hstep : db.step encode e = some db') {n : ℕ} {call' : AddCall} (hcall' : db'.calls[n]? = some call') :
    ∃ call, db.calls[n]? = some call ∧ call.userId = call'.userId := by
  cases hm : e.callIndex with
  | some m =>
    obtain ⟨call, hcall, db₀, pc, rfl, hmoved⟩ := moved_of_step hinv htargeted hm hstep
    by_cases hmn : m = n
    · subst hmn
      rw [Db.getElem?_setPc_self _ (hmoved.calls ▸ hcall)] at hcall'
      obtain rfl := Option.some.inj hcall'
      exact ⟨call, hcall, rfl⟩
    · rw [Db.setPc, hmoved.calls, List.getElem?_set_ne hmn] at hcall'
      exact ⟨call', hcall', rfl⟩
  | none =>
    obtain ⟨o, u, x, rfl⟩ | ⟨id, u, result, rfl⟩ | ⟨u, result, rfl⟩ := callIndex_eq_none hm
    · exact absurd rfl (hnew o u x)
    · obtain rfl := Option.some.inj hstep
      rw [(deleteWhere_calls db _ result).1] at hcall'
      exact ⟨call', hcall', rfl⟩
    · obtain rfl := Option.some.inj hstep
      rw [(deleteWhere_calls db _ result).1] at hcall'
      exact ⟨call', hcall', rfl⟩

/-- The reactivating `UPDATE` creates no row. -/
theorem issue_of_reactivate {db : Db} {n : ℕ} {call : AddCall} {urlId : ℤ} {now : Instant}
    {result : DbResult} {r : UrlRow} (hr : r ∈ (db.reactivate n call urlId now result).urls) :
    ∃ r₀ ∈ db.urls, r₀.issue = r.issue := by
  have hmap : r ∈ db.urls.map (fun r =>
      if r.urlId = urlId then Db.reactivated r call.expiresAt now else r) ∨ r ∈ db.urls := by
    unfold Db.reactivate at hr
    split at hr
    · exact Or.inr hr
    · cases happlied : result.applied with
      | true =>
        left
        simp only [happlied, if_true] at hr
        split at hr <;> exact hr
      | false =>
        right
        simp only [happlied, Bool.false_eq_true, if_false] at hr
        split at hr <;> exact hr
  rcases hmap with hmap | hold
  · obtain ⟨r₀, hr₀, rfl⟩ := List.mem_map.mp hmap
    refine ⟨r₀, hr₀, ?_⟩
    split <;> rfl
  · exact ⟨r, hold, rfl⟩

/-- The `INSERT` is not visible before its `COMMIT`. -/
theorem urls_insert {db db' : Db} {n : ℕ} {call : AddCall} {urlId : ℤ} {now : Instant}
    (h : db.insert n call urlId now = some db') : db'.urls = db.urls := by
  unfold Db.insert at h
  simp only at h
  split at h
  · cases h
  split at h
  · cases h
  split at h
  · obtain rfl := Option.some.inj h
    rfl
  · obtain rfl := Option.some.inj h
    rfl

/-- Nor is its code. -/
theorem urls_assign {db db' : Db} {n : ℕ} {call : AddCall} {urlId : ℤ}
    (h : db.assign encode n call urlId = some db') : db'.urls = db.urls := by
  unfold Db.assign at h
  simp only at h
  split at h
  · cases h
  split at h
  · obtain rfl := Option.some.inj h
    rfl
  · obtain rfl := Option.some.inj h
    rfl

/-- The rows after a `COMMIT`. -/
theorem mem_urls_commit {db : Db} {n : ℕ} {call : AddCall} {urlId : ℤ} {result : DbResult} {r : UrlRow}
    (hr : r ∈ (db.commit n call urlId result).urls) :
    r ∈ db.urls ∨ result.applied = true ∧ r ∈ db.pending ∧ r.urlId = urlId := by
  unfold Db.commit at hr
  cases happlied : result.applied with
  | true =>
    simp only [happlied, if_true] at hr
    rcases List.mem_append.mp hr with hold | hnew
    · exact Or.inl hold
    · obtain ⟨hpending, hid⟩ := List.mem_filter.mp hnew
      exact Or.inr ⟨rfl, hpending, by simpa using hid⟩
  | false =>
    simp only [happlied, Bool.false_eq_true, if_false] at hr
    exact Or.inl hr

/-- A row was there before, or its transaction has just committed. -/
theorem row_of_step {db db' : Db} (hinv : StoreInv encode db) (htargeted : Targeted db) {e : DbEvent}
    (hstep : db.step encode e = some db') {r : UrlRow} (hr : r ∈ db'.urls) :
    (∃ r₀ ∈ db.urls, r₀.issue = r.issue) ∨
      ∃ n call, db.calls[n]? = some call ∧ call.userId = r.userId ∧
        Platform.commitNotes db e = [.committed n r.urlId] := by
  have hsame : db'.urls = db.urls → ∃ r₀ ∈ db.urls, r₀.issue = r.issue := fun hurls =>
    ⟨r, hurls ▸ hr, rfl⟩
  have hdelete : ∀ p result, db' = db.deleteWhere p result → ∃ r₀ ∈ db.urls, r₀.issue = r.issue := by
    rintro p result rfl
    unfold Db.deleteWhere at hr
    split at hr
    · exact ⟨r, List.mem_of_mem_filter hr, rfl⟩
    · exact ⟨r, hr, rfl⟩
  cases Db.fired_of_step hstep with
  | call originalUrl userId expiresAt => exact Or.inl (hsame rfl)
  | select hcall hpc now => exact Or.inl (hsame rfl)
  | reactivate hcall hpc now result => exact Or.inl (issue_of_reactivate hr)
  | insert hcall hpc h => exact Or.inl (hsame (urls_insert h))
  | assign hcall hpc h => exact Or.inl (hsame (urls_assign h))
  | fail hcall => exact Or.inl (hsame rfl)
  | deleteUrl urlId userId result => exact Or.inl (hdelete _ result rfl)
  | cascade userId result => exact Or.inl (hdelete _ result rfl)
  | @commit n call urlId hcall hpc result =>
    simp only [Platform.commitNotes, hcall, hpc]
    rcases mem_urls_commit hr with hold | ⟨happlied, hpending, rfl⟩
    · exact Or.inl ⟨r, hold, rfl⟩
    · have hissue := htargeted call (List.mem_of_getElem? hcall) r.urlId (by rw [hpc]; rfl)
      have howner := owner_of_issue hinv hissue (Or.inr hpending) rfl
      exact Or.inr ⟨n, call, hcall, howner.symm, if_pos happlied⟩

end Statements

/-! ## What a step does -/

namespace Platform

variable {lib : JsonWebToken} {env : Env} {format : EventFormat} {encode : ℤ → String} {secret : String}

variable (lib env format encode) in
/-- The steps of the platform. -/
inductive Change (s : Platform) : PlatformEvent → Platform → Prop
  | quiet {a : PlatformEvent} {s' : Platform} (hdb : s'.db = s.db) (hlog : s'.log = s.log)
      (hminted : s.minted ⊆ s'.minted) (hcompleted : s'.system.completed = s.system.completed) :
      Change s a s'
  | accepted {cookieStr originalUrl : String} {expiresAt : Option Instant} {a : Admission} {db : Db}
      (hauth : authenticate lib (s.surroundings env) (some cookieStr) = .ok a)
      (hdb : s.db.step encode (.call originalUrl a.claims.sub expiresAt) = some db) :
      Change s (.shorten cookieStr originalUrl expiresAt)
        { s.refresh a with
          db, log := .accepted s.db.calls.length a.claims.sub cookieStr s.now :: s.log }
  | cascaded {o : Outcome} {system : System} {userId : Uuid}
      (hcompleted : ∀ m ∈ system.completed, m ∈ s.system.completed ∨
        o.delete.applied = true ∧ format.fromSlice m.data = some userId) :
      Change s (.handle o) ({ s with system }.cascade userId o.delete)
  | statement {e : DbEvent} {db : Db}
      (hnew : ∀ originalUrl userId expiresAt, e ≠ .call originalUrl userId expiresAt)
      (hdb : s.db.step encode e = some db) :
      Change s (.url e) { s with db, log := commitNotes s.db e ++ s.log }

/-- Minting leaves the rest alone. -/
theorem refresh_spec (s : Platform) (a : Admission) :
    (s.refresh a).db = s.db ∧ (s.refresh a).log = s.log ∧ s.minted ⊆ (s.refresh a).minted ∧
      (s.refresh a).system = s.system := by
  unfold refresh
  split
  · exact ⟨rfl, rfl, List.subset_append_left _ _, rfl⟩
  · exact ⟨rfl, rfl, List.Subset.refl _, rfl⟩

/-- Only the consumer finishes events. -/
theorem completed_of_others {sys sys' : System} {e : Event} (hne : ∀ o, e ≠ .handle o)
    (hstep : sys.step format e = some sys') : sys'.completed = sys.completed := by
  cases hcase : e.ofConsumer with
  | false => exact Cleanup.completed_others hcase hstep
  | true =>
    cases e with
    | handle o => exact absurd rfl (hne o)
    | crash =>
      obtain rfl := Option.some.inj hstep
      rfl
    | signup _ | deleteUser _ _ | publishDeleted _ _ _ | deliver _ | expire _ => cases hcase

/-- The event of a delivery is finished only after a `DELETE` that was applied. -/
theorem completed_of_handle {sys : System} {d : Amqp.Delivery Message} {o : Outcome}
    {userId : Uuid} (hread : format.fromSlice d.msg.data = some userId) {m : Message}
    (hm : m ∈ (sys.handle format d o).completed) :
    m ∈ sys.completed ∨ o.delete.applied = true ∧ format.fromSlice m.data = some userId := by
  simp only [System.handle, hread] at hm
  split at hm
  · rename_i hok
    rcases Cleanup.mem_completed_succeed hm with hold | rfl
    · exact Or.inl hold
    · exact Or.inr ⟨by rw [hok]; rfl, hread⟩
  · rw [Cleanup.completed_retry] at hm
    exact Or.inl hm

/-- A delivery: an unreadable body changes nothing here, any other one runs the cascade. -/
theorem change_of_handle {s s' : Platform} {o : Outcome}
    (h : s.step lib env format encode (.handle o) = some s') :
    Change lib env format encode s (.handle o) s' := by
  simp only [step] at h
  obtain ⟨system, hsystem, h⟩ := Option.bind_eq_some_iff.mp h
  obtain ⟨⟨d, b⟩, hnext, hs'⟩ := Option.map_eq_some_iff.mp h
  obtain ⟨d', b', hnext', rfl⟩ := step_handle hsystem
  obtain ⟨rfl, rfl⟩ := Prod.mk.inj (Option.some.inj (hnext.symm.trans hnext'))
  cases hread : format.fromSlice d.msg.data with
  | none =>
    simp only [hread] at hs'
    subst hs'
    refine .quiet rfl rfl (List.Subset.refl _) ?_
    simp only [System.handle, hread]
    rfl
  | some userId =>
    simp only [hread] at hs'
    subst hs'
    refine .cascaded fun m hm => ?_
    have hor := completed_of_handle hread hm
    exact hor

/-- Nothing else happens. -/
theorem change_of_step {s s' : Platform} {a : PlatformEvent}
    (h : s.step lib env format encode a = some s') : Change lib env format encode s a s' := by
  have hsame : Change lib env format encode s a s := .quiet rfl rfl (List.Subset.refl _) rfl
  cases a with
  | tick seconds =>
    obtain rfl := Option.some.inj h
    exact .quiet rfl rfl (List.Subset.refl _) rfl
  | signIn userId =>
    simp only [step] at h
    split at h
    · obtain rfl := Option.some.inj h
      exact .quiet rfl rfl (List.subset_append_left _ _) rfl
    · cases h
  | visit cookieStr =>
    simp only [step] at h
    split at h
    · rename_i a hauth
      obtain rfl := Option.some.inj h
      obtain ⟨hdb, hlog, hminted, hsystem⟩ := s.refresh_spec a
      exact .quiet hdb hlog hminted (by rw [hsystem])
    · obtain rfl := Option.some.inj h
      exact hsame
  | shorten cookieStr originalUrl expiresAt =>
    simp only [step] at h
    split at h
    · rename_i a hauth
      obtain ⟨db, hdb, rfl⟩ := Option.map_eq_some_iff.mp h
      exact .accepted hauth hdb
    · obtain rfl := Option.some.inj h
      exact hsame
  | others e =>
    simp only [step] at h
    split at h
    · cases h
    · rename_i hne
      obtain ⟨system, hsystem, rfl⟩ := Option.map_eq_some_iff.mp h
      exact .quiet rfl rfl (List.Subset.refl _) (completed_of_others hne hsystem)
  | handle o => exact change_of_handle h
  | url e =>
    simp only [step] at h
    split at h
    · cases h
    · cases h
    · rename_i hcall hcascade
      obtain ⟨db, hdb, rfl⟩ := Option.map_eq_some_iff.mp h
      exact .statement (fun o u x he => hcall o u x he) hdb

/-! ## Rows against the log -/

/-- After each cascade of its user, the transaction of the row was committed, by a call accepted as this
user. -/
def Late (log : List Note) (e : Issue) : Prop :=
  ∀ l₁ l₂, log = l₁ ++ .cascaded e.userId :: l₂ →
    ∃ n cookieStr t, .committed n e.urlId ∈ l₁ ∧ .accepted n e.userId cookieStr t ∈ log

theorem Late.cons {log : List Note} {e : Issue} (h : Late log e) {note : Note}
    (hnote : note ≠ .cascaded e.userId) : Late (note :: log) e := by
  intro l₁ l₂ hlog
  cases l₁ with
  | nil => exact absurd (List.cons.inj hlog).1 hnote
  | cons note' l₁ =>
    obtain ⟨rfl, hrest⟩ := List.cons.inj hlog
    obtain ⟨n, cookieStr, t, hcommitted, haccepted⟩ := h l₁ l₂ hrest
    exact ⟨n, cookieStr, t, List.mem_cons_of_mem _ hcommitted, List.mem_cons_of_mem _ haccepted⟩

theorem Late.append {log : List Note} {e : Issue} (h : Late log e) {notes : List Note}
    (hnotes : .cascaded e.userId ∉ notes) : Late (notes ++ log) e := by
  induction notes with
  | nil => exact h
  | cons note notes ih =>
    obtain ⟨hne, hrest⟩ := List.ne_and_not_mem_of_not_mem_cons hnotes
    exact (ih hrest).cons hne.symm

/-- A row whose transaction commits now is later than every cascade. -/
theorem late_committed {log : List Note} {e : Issue} {n t : ℕ} {cookieStr : String}
    (haccepted : .accepted n e.userId cookieStr t ∈ log) : Late (.committed n e.urlId :: log) e := by
  intro l₁ l₂ hlog
  cases l₁ with
  | nil => cases (List.cons.inj hlog).1
  | cons note l₁ =>
    obtain ⟨rfl, -⟩ := List.cons.inj hlog
    exact ⟨n, cookieStr, t, List.mem_cons_self, List.mem_cons_of_mem _ haccepted⟩

theorem cascaded_notMem_commitNotes (db : Db) (e : DbEvent) (userId : Uuid) :
    .cascaded userId ∉ commitNotes db e := by
  unfold commitNotes
  repeat' split
  all_goals simp

theorem accepted_notMem_commitNotes (db : Db) (e : DbEvent) (n : ℕ) (userId : Uuid) (cookieStr : String)
    (t : ℕ) : .accepted n userId cookieStr t ∉ commitNotes db e := by
  unfold commitNotes
  repeat' split
  all_goals simp

variable (lib format encode secret) in
/-- What holds of every state. -/
structure Inv (s : Platform) : Prop where
  store : StoreInv encode s.db
  targeted : Targeted s.db
  /-- Every call was accepted as its user. -/
  calls : ∀ (n : ℕ) call, s.db.calls[n]? = some call →
    ∃ cookieStr t, .accepted n call.userId cookieStr t ∈ s.log
  /-- A request is accepted on tokens of its user. -/
  authentic : ∀ n userId cookieStr t, .accepted n userId cookieStr t ∈ s.log →
    Authentic lib secret s t cookieStr userId
  late : ∀ r ∈ s.db.urls, Late s.log r.issue
  /-- An event is acknowledged after its cascade. -/
  acked : ∀ userId, Acked format s userId → .cascaded userId ∈ s.log

theorem Authentic.mono {s s' : Platform} (hminted : s.minted ⊆ s'.minted) {now : ℕ} {cookieStr : String}
    {userId : Uuid} (h : Authentic lib secret s now cookieStr userId) :
    Authentic lib secret s' now cookieStr userId := by
  have hsub : s.Minted ⊆ s'.Minted := fun m hm => hm.imp_left (hminted ·)
  rcases h with ⟨t, hm, hlive⟩ | ⟨⟨v, t, m, hm, hexpired⟩, t', hm', hlive⟩
  · exact Or.inl ⟨t, hsub hm, hlive⟩
  · exact Or.inr ⟨⟨v, t, m, hsub hm, hexpired⟩, t', hsub hm', hlive⟩

theorem inv_start (now : ℕ) : Inv lib format encode secret (start now) where
  store := storeInv_init
  targeted := fun _ h => absurd h List.not_mem_nil
  calls := fun _ _ h => by cases h
  authentic := fun _ _ _ _ h => absurd h List.not_mem_nil
  late := fun _ h => absurd h List.not_mem_nil
  acked := fun _ ⟨_, h, _⟩ => absurd h List.not_mem_nil

theorem Inv.quiet {s s' : Platform} (h : Inv lib format encode secret s) (hdb : s'.db = s.db)
    (hlog : s'.log = s.log) (hminted : s.minted ⊆ s'.minted)
    (hcompleted : s'.system.completed = s.system.completed) : Inv lib format encode secret s' := by
  refine ⟨?_, ?_, ?_, ?_, ?_, ?_⟩
  · rw [hdb]
    exact h.store
  · rw [hdb]
    exact h.targeted
  · rw [hdb, hlog]
    exact h.calls
  · rw [hlog]
    exact fun n userId cookieStr t haccepted => (h.authentic n userId cookieStr t haccepted).mono hminted
  · rw [hdb, hlog]
    exact h.late
  · rw [hlog]
    intro userId hacked
    rw [Acked, hcompleted] at hacked
    exact h.acked userId hacked

theorem Inv.accepted (hsecret : env.jwtSecret = some secret) {s : Platform}
    (h : Inv lib format encode secret s) {cookieStr originalUrl : String} {expiresAt : Option Instant}
    (hgenuine : Unforged lib secret s (.shorten cookieStr originalUrl expiresAt)) {a : Admission} {db : Db}
    (hauth : authenticate lib (s.surroundings env) (some cookieStr) = .ok a)
    (hdb : s.db.step encode (.call originalUrl a.claims.sub expiresAt) = some db) :
    Inv lib format encode secret { s.refresh a with
      db, log := .accepted s.db.calls.length a.claims.sub cookieStr s.now :: s.log } := by
  obtain ⟨-, -, hminted, hsystem⟩ := s.refresh_spec a
  have hstore := h.store.statement (Db.statement_of_step hdb)
  have htargeted := targeted_step h.store h.targeted hdb
  obtain rfl := Option.some.inj hdb
  refine ⟨hstore, htargeted, ?_, ?_, ?_, ?_⟩
  · intro n call hcall
    by_cases hn : n < s.db.calls.length
    · rw [List.getElem?_append_left hn] at hcall
      obtain ⟨cookieStr', t, hlog⟩ := h.calls n call hcall
      exact ⟨cookieStr', t, List.mem_cons_of_mem _ hlog⟩
    · -- the new call
      have hlen := (List.getElem?_eq_some_iff.mp hcall).1
      rw [List.length_append, List.length_singleton] at hlen
      obtain rfl : n = s.db.calls.length := by omega
      rw [List.getElem?_append_right (le_refl _), Nat.sub_self] at hcall
      obtain rfl := Option.some.inj hcall
      exact ⟨cookieStr, s.now, List.mem_cons_self⟩
  · intro n userId cookieStr' t haccepted
    refine Authentic.mono (s := s) hminted ?_
    rcases List.mem_cons.mp haccepted with heq | hold
    · obtain ⟨rfl, rfl, rfl, rfl⟩ := Note.accepted.inj heq
      have hsecret' : (s.surroundings env).jwtSecret = some secret := hsecret
      exact direct_or_refreshed hgenuine hsecret' hauth
    · exact h.authentic n userId cookieStr' t hold
  · intro r hr
    exact (h.late r hr).cons (by simp)
  · intro userId hacked
    rw [Acked, hsystem] at hacked
    exact List.mem_cons_of_mem _ (h.acked userId hacked)

theorem Inv.cascaded {s : Platform} (h : Inv lib format encode secret s) {o : Outcome} {system : System}
    {userId : Uuid} (hcompleted : ∀ m ∈ system.completed, m ∈ s.system.completed ∨
      o.delete.applied = true ∧ format.fromSlice m.data = some userId) :
    Inv lib format encode secret ({ s with system }.cascade userId o.delete) := by
  obtain ⟨hcalls, -⟩ := deleteWhere_calls s.db (fun r => r.userId = userId) o.delete
  have hdb : s.db.step encode (.cascade userId o.delete) =
      some (s.db.deleteWhere (fun r => r.userId = userId) o.delete) := rfl
  have hsub : s.log ⊆ ({ s with system }.cascade userId o.delete).log := by
    unfold cascade
    split
    · exact List.subset_cons_self _ _
    · exact List.Subset.refl _
  have hstore := h.store.statement (Db.statement_of_step hdb)
  have htargeted := targeted_step h.store h.targeted hdb
  refine ⟨hstore, htargeted, ?_, ?_, ?_, ?_⟩
  · intro n call hcall
    rw [cascade, hcalls] at hcall
    obtain ⟨cookieStr, t, hlog⟩ := h.calls n call hcall
    exact ⟨cookieStr, t, hsub hlog⟩
  · intro n userId' cookieStr t haccepted
    have hold : .accepted n userId' cookieStr t ∈ s.log := by
      simp only [cascade] at haccepted
      split at haccepted
      · simpa using haccepted
      · exact haccepted
    exact h.authentic n userId' cookieStr t hold
  · intro r hr
    simp only [cascade, Db.deleteWhere] at hr ⊢
    split at hr
    · rename_i happlied
      obtain ⟨hold, hkeep⟩ := List.mem_filter.mp hr
      rw [if_pos happlied]
      refine (h.late r hold).cons fun heq => ?_
      -- the row would have been deleted
      have howner : userId = r.userId := Note.cascaded.inj heq
      simp [howner] at hkeep
    · rename_i happlied
      rw [if_neg happlied]
      exact h.late r hr
  · rintro userId' ⟨m, hm, hread⟩
    rcases hcompleted m hm with hold | ⟨happlied, hread'⟩
    · exact hsub (h.acked userId' ⟨m, hold, hread⟩)
    · obtain rfl := Option.some.inj (hread.symm.trans hread')
      rw [cascade, if_pos happlied]
      exact List.mem_cons_self

theorem Inv.statement {s : Platform} (h : Inv lib format encode secret s) {e : DbEvent} {db : Db}
    (hnew : ∀ originalUrl userId expiresAt, e ≠ .call originalUrl userId expiresAt)
    (hdb : s.db.step encode e = some db) :
    Inv lib format encode secret { s with db, log := commitNotes s.db e ++ s.log } := by
  have hstore := h.store.statement (Db.statement_of_step hdb)
  have htargeted := targeted_step h.store h.targeted hdb
  refine ⟨hstore, htargeted, ?_, ?_, ?_, ?_⟩
  · intro n call' hcall'
    obtain ⟨call, hcall, hsame⟩ := calls_of_step h.store h.targeted hnew hdb hcall'
    obtain ⟨cookieStr, t, hlog⟩ := h.calls n call hcall
    exact ⟨cookieStr, t, List.mem_append_right _ (hsame ▸ hlog)⟩
  · intro n userId cookieStr t haccepted
    rcases List.mem_append.mp haccepted with hnew | hold
    · exact absurd hnew (accepted_notMem_commitNotes s.db e n userId cookieStr t)
    · exact h.authentic n userId cookieStr t hold
  · intro r hr
    rcases row_of_step h.store h.targeted hdb hr with ⟨r₀, hr₀, hissue⟩ | ⟨n, call, hcall, howner, hnotes⟩
    · rw [← hissue]
      exact (h.late r₀ hr₀).append (cascaded_notMem_commitNotes s.db e r₀.issue.userId)
    · obtain ⟨cookieStr, t, hlog⟩ := h.calls n call hcall
      rw [howner] at hlog
      simp only [hnotes]
      exact late_committed (e := r.issue) hlog
  · intro userId hacked
    exact List.mem_append_right _ (h.acked userId hacked)

/-- Every step keeps it. -/
theorem Inv.step (hsecret : env.jwtSecret = some secret) {s s' : Platform}
    (h : Inv lib format encode secret s) {a : PlatformEvent} (hgenuine : Unforged lib secret s a)
    (hstep : s.step lib env format encode a = some s') : Inv lib format encode secret s' := by
  cases change_of_step hstep with
  | quiet hdb hlog hminted hcompleted => exact h.quiet hdb hlog hminted hcompleted
  | accepted hauth hdb => exact h.accepted hsecret hgenuine hauth hdb
  | cascaded hcompleted => exact h.cascaded hcompleted
  | statement hnew hdb => exact h.statement hnew hdb

/-- And so does every run. -/
theorem inv_of_run (hsecret : env.jwtSecret = some secret) {now : ℕ} {as : List PlatformEvent}
    {s : Platform}
    (hrun : Run (Platform.step lib env format encode) (Unforged lib secret) (start now) as s) :
    Inv lib format encode secret s :=
  hrun.induct (fun _ _ _ hinv hgenuine hstep => hinv.step hsecret hgenuine hstep) (inv_start now)

/-- **Links of a deleted account.** Once a deletion event has been processed and acknowledged, every row of
its user was committed after the `DELETE`, by a request that came with tokens of the user. -/
theorem late_links_of_deleted_account (hsecret : env.jwtSecret = some secret) {now : ℕ}
    {as : List PlatformEvent} {s : Platform}
    (hrun : Run (Platform.step lib env format encode) (Unforged lib secret) (start now) as s)
    {userId : Uuid} (hacked : Acked format s userId) :
    .cascaded userId ∈ s.log ∧ ∀ r ∈ s.db.urls, r.userId = userId →
      ∀ l₁ l₂, s.log = l₁ ++ .cascaded userId :: l₂ →
        ∃ n cookieStr t, .committed n r.urlId ∈ l₁ ∧ .accepted n userId cookieStr t ∈ s.log ∧
          Authentic lib secret s t cookieStr userId := by
  have hinv := inv_of_run hsecret hrun
  refine ⟨hinv.acked userId hacked, ?_⟩
  rintro r hr rfl l₁ l₂ hlog
  obtain ⟨n, cookieStr, t, hcommitted, haccepted⟩ := hinv.late r hr l₁ l₂ hlog
  exact ⟨n, cookieStr, t, hcommitted, haccepted, hinv.authentic n _ cookieStr t haccepted⟩

/-! ## A link written after the account -/

/-- User 7 signs in and deletes the account, and the consumer handles the event. -/
def deletion : List PlatformEvent :=
  [.others (.signup 7), .signIn 7, .others (.deleteUser 7 .ok), .others (.publishDeleted 0 [] true),
    .others (.deliver 0), .handle ⟨.ok, true, true⟩]

/-- A state after it. -/
def deleted (system : System) (history : List (List UrlRow)) (log : List Note) : Platform where
  now := 1000
  minted := [.access 7 1000, .refresh 7 1000]
  system := system
  db := { Db.init with history }
  log := log

theorem exists_deleted : ∃ system history log,
    Run (Platform.step plainToken expiredEnv jsonFormat base62Encode)
        (fun s a => Unforged plainToken "k" s a ∧ Smooth s a) (start 1000) deletion
        (deleted system history log) ∧
      7 ∈ system.answered ∧ system.deleting = [] ∧
        ∃ m ∈ system.completed, jsonFormat.fromSlice m.data = some 7 := by
  obtain ⟨s, hrun, hs⟩ := exists_run_of_exec
    (Platform.step plainToken expiredEnv jsonFormat base62Encode) Smooth (start 1000) deletion
    (fun s => s.now = 1000 ∧ s.minted = [.access 7 1000, .refresh 7 1000] ∧ s.db.urls = [] ∧
      s.db.pending = [] ∧ s.db.issued = [] ∧ s.db.calls.length = 0 ∧ 7 ∈ s.system.answered ∧
      s.system.deleting = [] ∧ s.system.completed.any fun m => jsonFormat.fromSlice m.data = some 7)
    (by decide)
  obtain ⟨now, minted, system, ⟨urls, pending, issued, calls, history⟩, log⟩ := s
  simp only [decide_eq_true_eq, List.length_eq_zero_iff, List.any_eq_true] at hs
  obtain ⟨rfl, rfl, rfl, rfl, rfl, rfl, hanswered, hdeleting, hcompleted⟩ := hs
  refine ⟨system, history, log, hrun.mono_of_mem fun a ha s hsmooth => ⟨?_, hsmooth⟩, hanswered,
    hdeleting, hcompleted⟩
  fin_cases ha <;> trivial

/-- A request with a live access token. -/
theorem step_shorten {s : Platform} {cookieStr originalUrl : String} {expiresAt : Option Instant}
    {a : Admission} {db : Db} (hauth : authenticate lib (s.surroundings env) (some cookieStr) = .ok a)
    (hfresh : a.fresh = none) (hdb : s.db.step encode (.call originalUrl a.claims.sub expiresAt) = some db) :
    s.step lib env format encode (.shorten cookieStr originalUrl expiresAt) = some { s with
      db, log := .accepted s.db.calls.length a.claims.sub cookieStr s.now :: s.log } := by
  have hrefresh : s.refresh a = s := by simp [refresh, hfresh]
  simp only [Platform.step, hauth, hdb, hrefresh, Option.map_some]

/-- The access token of user 7 is live for a quarter of an hour, whatever happens to the account. -/
theorem step_shorten_deleted (system : System) (history : List (List UrlRow)) (log : List Note) :
    (deleted system history log).step plainToken expiredEnv jsonFormat base62Encode
        (.shorten (cookieHeader expiredCookies) "https://a.example" none) =
      some { deleted system history log with
        db := { Db.init with calls := [⟨"https://a.example", 7, none, .select⟩], history }
        log := .accepted 0 7 (cookieHeader expiredCookies) 1000 :: log } := by
  have hcookie : FirstCookie (cookieHeader expiredCookies) cookieAccess
      ((Mint.access 7 1000).token plainToken "k") :=
    parseCookie_eq_some_iff.mp (parseCookie_cookieHeader isToken_expiredCookies cookieAccess)
  have hdecode : decode plainToken Claims.ofJson "k" ((Mint.access 7 1000).token plainToken "k") 1000 =
      .ok { sub := 7, exp := 1900, tokenType := accessTokenType } := decode_live rfl (by decide)
  have hsecret : ((deleted system history log).surroundings expiredEnv).jwtSecret = some "k" := rfl
  have hauth : authenticate plainToken ((deleted system history log).surroundings expiredEnv)
      (some (cookieHeader expiredCookies)) =
        .ok { claims := { sub := 7, exp := 1900, tokenType := accessTokenType }, fresh := none } :=
    (authenticate_eq_ok_iff hsecret (toStr_cookieHeader isToken_expiredCookies)).mpr
      ⟨_, hcookie, Or.inl ⟨_, hdecode, rfl, rfl⟩⟩
  exact step_shorten hauth rfl rfl

/-- The link is then written, and the account is gone. -/
theorem exists_link_of_deleted_account : ∃ as s,
    Run (Platform.step plainToken expiredEnv jsonFormat base62Encode)
        (fun s a => Unforged plainToken "k" s a ∧ Smooth s a) (start 1000) as s ∧
      7 ∈ s.system.answered ∧ Acked jsonFormat s 7 ∧ s.system.deleting = [] ∧
      (∀ call ∈ s.db.calls, ∃ result, call.pc = .done result) ∧ ∃ r ∈ s.db.urls, r.userId = 7 := by
  obtain ⟨system, history, log, hbefore, hanswered, hdeleting, hacked⟩ := exists_deleted
  have hunforged : Unforged plainToken "k" (deleted system history log)
      (.shorten (cookieHeader expiredCookies) "https://a.example" none) :=
    genuine_expiredCookies (Or.inl List.mem_cons_self)
      (Or.inl (List.mem_cons_of_mem _ List.mem_cons_self))
  have hafter : Run (Platform.step plainToken expiredEnv jsonFormat base62Encode)
      (fun s a => Unforged plainToken "k" s a ∧ Smooth s a) (deleted system history log)
      [.shorten (cookieHeader expiredCookies) "https://a.example" none, .url (.select 0 1000),
        .url (.insert 0 1 1000), .url (.assign 0), .url (.commit 0 .ok)] _ :=
    .cons ⟨hunforged, trivial⟩ (step_shorten_deleted system history log)
      (.cons ⟨trivial, trivial⟩ rfl (.cons ⟨trivial, trivial⟩ rfl (.cons ⟨trivial, trivial⟩ rfl
        (.single ⟨trivial, rfl⟩ rfl))))
  refine ⟨_, _, hbefore.append hafter, hanswered, hacked, hdeleting, ?_, ?_⟩
  · intro call hcall
    obtain rfl := List.mem_singleton.mp hcall
    exact ⟨_, rfl⟩
  · exact ⟨_, List.mem_singleton_self _, rfl⟩

/-- The link of user 7, written after the cascade. -/
theorem late_links_of_revived_account : ∃ s : Platform, (∃ r ∈ s.db.urls, r.userId = 7) ∧
    .cascaded 7 ∈ s.log ∧ ∀ r ∈ s.db.urls, r.userId = 7 →
      ∀ l₁ l₂, s.log = l₁ ++ .cascaded 7 :: l₂ →
        ∃ n cookieStr t, .committed n r.urlId ∈ l₁ ∧ .accepted n 7 cookieStr t ∈ s.log ∧
          Authentic plainToken "k" s t cookieStr 7 := by
  obtain ⟨as, s, hrun, -, hacked, -, -, hrow⟩ := exists_link_of_deleted_account
  exact ⟨s, hrow, late_links_of_deleted_account rfl (hrun.mono fun _ _ h => h.1) hacked⟩

/-- **A deleted account can own links**, with every message processed and no request left: its access token
outlives it. -/
theorem deleted_account_owns_link :
    ¬ ∀ (lib : JsonWebToken) (env : Env) (format : EventFormat) (encode : ℤ → String) (secret : String)
      (now : ℕ) (as : List PlatformEvent) (s : Platform), env.jwtSecret = some secret →
      Run (Platform.step lib env format encode) (fun s a => Unforged lib secret s a ∧ Smooth s a)
        (start now) as s →
      ∀ userId ∈ s.system.answered, Acked format s userId → s.system.deleting = [] →
        (∀ call ∈ s.db.calls, ∃ result, call.pc = .done result) →
          ∀ r ∈ s.db.urls, r.userId ≠ userId := by
  intro hall
  obtain ⟨as, s, hrun, hanswered, hacked, hdeleting, hcalls, r, hr, howner⟩ :=
    exists_link_of_deleted_account
  exact hall _ _ _ _ _ _ as s rfl hrun 7 hanswered hacked hdeleting hcalls r hr howner

end Platform

end Bittuly.DeletedAccount
