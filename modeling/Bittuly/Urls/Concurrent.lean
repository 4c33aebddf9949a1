import Bittuly.Lib.Serial
import Bittuly.Urls.Base62
import Bittuly.Urls.Race

/-!
# Concurrent shortening

References: `services/url-service/src/repository.rs` (`add_shorten_url`, `test_expired_reactivation`).

The transaction decides about a conflict by itself, from the unique constraint. The reactivating `UPDATE`
relies on what its call has read before: it writes whatever the row has become since, also over a link that
another call has just been given.

An `expires_at` is the value that the column keeps. Called one after the other, the first call that writes a live expiry ends all writing. So calls that ran
concurrently had the effect of some sequence exactly if no `UPDATE` hit a live row and every `INSERT` that
ran into an expired row can be moved behind the write of a live one.
-/

namespace Bittuly.Urls

open Runs

/-- The row of the pair is there and live. -/
def Live (now : Instant) (row : Option UrlRow) : Prop :=
  ∃ r ∈ row, LiveAt now r.expiresAt

instance (now : Instant) : DecidablePred (Live now) := fun row =>
  inferInstanceAs (Decidable (∃ r ∈ row, _))

/-- A call that has not begun or has ended. -/
def Resting (db : Db) (n : ℕ) : Prop :=
  ∀ call, db.calls[n]? = some call → call.pc = .select ∨ ∃ result, call.pc = .done result

/-- The call was given a live link. -/
def AddCall.Given (now : Instant) (call : AddCall) : Prop :=
  ∃ url, call.pc = .done (.ok (some url)) ∧ LiveAt now url.expiresAt

/-- Calls that have not begun, for one pair and on any table: ids are unique and come from the sequence. -/
structure Start (originalUrl : String) (userId : Uuid) (db : Db) : Prop where
  pending : db.pending = []
  owned : ∀ call ∈ db.calls, call.originalUrl = originalUrl ∧ call.userId = userId
  ids : (db.urls.map UrlRow.urlId).Nodup
  known : ∀ r ∈ db.urls, r.urlId ∈ db.issued.map Issue.urlId
  begins : ∀ call ∈ db.calls, call.pc = .select

/-- All calls have ended. -/
def AllEnded (db : Db) : Prop :=
  ∀ call ∈ db.calls, ∃ result, call.pc = .done result

instance (pc : AddPc) : Decidable (∃ result, pc = .done result) :=
  match pc with
  | .done result => isTrue ⟨result, rfl⟩
  | .select | .reactivate _ | .insert | .assign _ | .commit _ => isFalse (by simp)

instance : DecidablePred AllEnded := fun db =>
  inferInstanceAs (Decidable (∀ call ∈ db.calls, _))

instance (now : Instant) : DecidablePred (AddCall.Given now) := fun call =>
  match h : call.pc with
  | .done (.ok (some url)) =>
    decidable_of_iff (LiveAt now url.expiresAt) (by simp [AddCall.Given, h])
  | .done (.ok none) | .done (.error _) | .select | .reactivate _ | .insert | .assign _ | .commit _ =>
    isFalse (by simp [AddCall.Given, h])

variable (encode : ℤ → String) (now : Instant) (originalUrl : String) (userId : Uuid)

/-- The results of the calls and the row. -/
def Db.observe (db : Db) : List AddCall × Option UrlRow :=
  (db.calls, db.row originalUrl userId)

/-- Some sequential order of the calls has the same results and leaves the same row. -/
abbrev Sequential (db t : Db) : Prop :=
  Linearizable (Db.race encode now) CallEvent.index Resting (Db.observe originalUrl userId) db t

/-! ## What goes wrong -/

/-- No `UPDATE` hits a live row. -/
def FindsExpired (db : Db) : CallEvent → Prop
  | .reactivate _ => ¬ Live now (db.row originalUrl userId)
  | _ => True

/-- No `INSERT` runs into an expired row. -/
def NoDeadConflict (db : Db) : CallEvent → Prop
  | .transaction _ _ => ∀ r, db.row originalUrl userId = some r → LiveAt now r.expiresAt
  | _ => True

instance (db : Db) : DecidablePred (FindsExpired now originalUrl userId db)
  | .reactivate _ => inferInstanceAs (Decidable (¬ Live now _))
  | .select _ | .transaction _ _ => inferInstanceAs (Decidable True)

instance (db : Db) : DecidablePred (NoDeadConflict now originalUrl userId db)
  | .transaction _ _ => inferInstanceAs (Decidable (∀ r ∈ db.row originalUrl userId, _))
  | .select _ | .reactivate _ => inferInstanceAs (Decidable True)

/-- No statement writes a live expiry. -/
def NoLiveWrite (db : Db) : CallEvent → Prop
  | .select _ => True
  | .reactivate n => ∀ call, db.calls[n]? = some call → ¬ LiveAt now call.expiresAt
  | .transaction n urlId => ∀ call, db.calls[n]? = some call → db.row originalUrl userId = none →
      ¬ db.Taken encode urlId → ¬ LiveAt now call.expiresAt

variable {encode now originalUrl userId} {db db' : Db}

theorem Start.racing (h : Start originalUrl userId db) : Racing originalUrl userId db where
  pending := h.pending
  owned := h.owned
  ids := h.ids
  known := h.known
  points := fun call hcall => by
    rw [h.begins call hcall]
    trivial

/-! ## Steps and ended calls -/

/-- The call that has moved. -/
theorem getElem?_self {n : ℕ} {call new : AddCall} (hcall : db.calls[n]? = some call)
    (hcalls : db'.calls = db.calls.set n new) : db'.calls[n]? = some new := by
  rw [hcalls]
  exact List.getElem?_set_self (List.getElem?_eq_some_iff.mp hcall).1

/-- A call that is to take a step has not ended. -/
theorem View.running {call : AddCall} {e : CallEvent} {row : Option UrlRow} {pc : AddPc}
    (h : View encode now originalUrl userId db call e row pc) (result : Except SqlError (Option Url)) :
    call.pc ≠ .done result := by
  cases h <;> simp_all

/-- Calls that have ended stay as they are. -/
theorem ended_step (h : Racing originalUrl userId db) {e : CallEvent}
    (hstep : db.race encode now e = some db') {n : ℕ} {call : AddCall} (hcall : db.calls[n]? = some call)
    {result : Except SqlError (Option Url)} (hpc : call.pc = .done result) :
    db'.calls[n]? = some call := by
  obtain ⟨call₀, pc, hcall₀, hcalls, hview⟩ := h.view hstep
  have hne : e.index ≠ n := by
    rintro rfl
    obtain rfl := Option.some.inj (hcall.symm.trans hcall₀)
    exact hview.running result hpc
  rw [hcalls, List.getElem?_set_ne hne]
  exact hcall

theorem ended_run {P : Db → CallEvent → Prop} {as : List CallEvent} {t : Db}
    (hrun : Run (Db.race encode now) P db as t) (h : Racing originalUrl userId db) {n : ℕ} {call : AddCall}
    (hcall : db.calls[n]? = some call) {result : Except SqlError (Option Url)}
    (hpc : call.pc = .done result) : t.calls[n]? = some call := by
  have hboth : Racing originalUrl userId t ∧ t.calls[n]? = some call := by
    refine hrun.induct (I := fun t => Racing originalUrl userId t ∧ t.calls[n]? = some call) ?_ ⟨h, hcall⟩
    rintro v e v' ⟨hv, hold⟩ - hstep
    exact ⟨hv.step hstep, ended_step hv hstep hold hpc⟩
  exact hboth.2

theorem racing_run {P : Db → CallEvent → Prop} {as : List CallEvent} {t : Db}
    (hrun : Run (Db.race encode now) P db as t) (h : Racing originalUrl userId db) :
    Racing originalUrl userId t :=
  hrun.induct (fun _ _ _ hv _ hstep => hv.step hstep) h

/-! ## One call after the other -/

variable (now originalUrl userId) in
/-- What holds along a serial run. -/
structure Serial (db : Db) : Prop where
  /-- A call inside its operation acts on what it has read. -/
  current : ∀ call ∈ db.calls, (∃ urlId, call.pc = .reactivate urlId) ∨ call.pc = .insert →
    Look now (db.row originalUrl userId) call.pc
  /-- A conflict means a live row. -/
  conflict : ∀ call ∈ db.calls, call.pc = .done (.ok none) → Live now (db.row originalUrl userId)
  /-- A call that was given a live link has the row. -/
  winner : ∀ call ∈ db.calls, ∀ url, call.pc = .done (.ok (some url)) → LiveAt now url.expiresAt →
    ∃ r ∈ db.row originalUrl userId, r.decode = some url
  /-- There is one such call. -/
  unique : ∀ (n m : ℕ) call call', db.calls[n]? = some call → db.calls[m]? = some call' →
    call.Given now → call'.Given now → n = m

namespace Look

variable {row : Option UrlRow} {pc : AddPc}

theorem live_of_conflict (h : Look now row pc) (hpc : pc = .done (.ok none)) : Live now row := by
  cases h with
  | conflict hdecode hlive hexp => exact ⟨_, rfl, hlive⟩
  | absent => cases hpc
  | unreadable hdecode => cases hpc
  | expired hdecode hdead => cases hpc
  | endless hdecode hexp => cases hpc

theorem dead_of_reactivate (h : Look now row pc) {urlId : ℤ} (hpc : pc = .reactivate urlId) :
    ¬ Live now row := by
  cases h with
  | expired hdecode hdead =>
    rintro ⟨r, hr, hlive⟩
    obtain rfl := Option.some.inj hr
    exact hdead hlive
  | absent => cases hpc
  | unreadable hdecode => cases hpc
  | conflict hdecode hlive hexp => cases hpc
  | endless hdecode hexp => cases hpc

theorem live_of_insert (h : Look now row pc) (hpc : pc = .insert) {r : UrlRow} (hrow : row = some r) :
    Live now row := by
  cases h with
  | endless hdecode hexp =>
    refine ⟨_, rfl, fun exp h => ?_⟩
    rw [hexp] at h
    cases h
  | absent => cases hrow
  | unreadable hdecode => cases hpc
  | expired hdecode hdead => cases hpc
  | conflict hdecode hlive hexp => cases hpc

theorem ne_some (h : Look now row pc) (url : Url) : pc ≠ .done (.ok (some url)) := by
  rintro rfl
  cases h

end Look

theorem expiresAt_of_decode {r : UrlRow} {url : Url} (h : r.decode = some url) :
    url.expiresAt = r.expiresAt := by
  obtain ⟨code, -, rfl⟩ := Option.map_eq_some_iff.mp h
  rfl

theorem live_of_decode {row : Option UrlRow} {url : Url} (h : ∃ r ∈ row, r.decode = some url)
    (hlive : LiveAt now url.expiresAt) : Live now row := by
  obtain ⟨r, hr, hdecode⟩ := h
  rw [expiresAt_of_decode hdecode] at hlive
  exact ⟨r, hr, hlive⟩

theorem of_getElem?_set_self {calls : List AddCall} {n : ℕ} {new call : AddCall}
    (h : (calls.set n new)[n]? = some call) : n < calls.length ∧ call = new := by
  obtain ⟨hlen, heq⟩ := List.getElem?_eq_some_iff.mp h
  rw [List.getElem_set_self] at heq
  rw [List.length_set] at hlen
  exact ⟨hlen, heq.symm⟩

/-- Who moves, and who does not. -/
theorem mem_set_cases {calls : List AddCall} {n : ℕ} {new call : AddCall} (h : call ∈ calls.set n new) :
    call = new ∨ ∃ m, m ≠ n ∧ calls[m]? = some call := by
  obtain ⟨m, hm⟩ := List.mem_iff_getElem?.mp h
  by_cases hmn : m = n
  · subst hmn
    exact Or.inl (of_getElem?_set_self hm).2
  · rw [List.getElem?_set_ne (Ne.symm hmn)] at hm
    exact Or.inr ⟨m, hmn, hm⟩

namespace Serial

variable (now) in
theorem start (h : Start originalUrl userId db) : Serial now originalUrl userId db where
  current := fun call hcall hpc => by simp [h.begins call hcall] at hpc
  conflict := fun call hcall hpc => by simp [h.begins call hcall] at hpc
  winner := fun call hcall url hpc => by simp [h.begins call hcall] at hpc
  unique := fun n m call call' hcall _ hgiven => by
    simp [AddCall.Given, h.begins call (List.mem_of_getElem? hcall)] at hgiven

/-- The acting call leaves the row. -/
theorem keep (h : Serial now originalUrl userId db) {n : ℕ} {call : AddCall} {pc : AddPc}
    (hcalls : db'.calls = db.calls.set n { call with pc })
    (hrow : db'.row originalUrl userId = db.row originalUrl userId)
    (hlook : (∃ urlId, pc = .reactivate urlId) ∨ pc = .insert → Look now (db.row originalUrl userId) pc)
    (hconflict : pc = .done (.ok none) → Live now (db.row originalUrl userId))
    (hwinner : ∀ url, pc ≠ .done (.ok (some url))) : Serial now originalUrl userId db' := by
  refine ⟨?_, ?_, ?_, ?_⟩
  · rw [hcalls, hrow]
    intro c hc hpc
    rcases mem_set_cases hc with rfl | ⟨m, -, hm⟩
    · exact hlook hpc
    · exact h.current c (List.mem_of_getElem? hm) hpc
  · rw [hcalls, hrow]
    intro c hc hpc
    rcases mem_set_cases hc with rfl | ⟨m, -, hm⟩
    · exact hconflict hpc
    · exact h.conflict c (List.mem_of_getElem? hm) hpc
  · rw [hcalls, hrow]
    intro c hc url hpc hlive
    rcases mem_set_cases hc with rfl | ⟨m, -, hm⟩
    · exact absurd hpc (hwinner url)
    · exact h.winner c (List.mem_of_getElem? hm) url hpc hlive
  · rw [hcalls]
    have hold : ∀ {m : ℕ} {c : AddCall}, (db.calls.set n { call with pc })[m]? = some c →
        c.Given now → db.calls[m]? = some c := by
      rintro m c hc ⟨url, hpc, -⟩
      by_cases hmn : m = n
      · subst hmn
        obtain ⟨-, rfl⟩ := of_getElem?_set_self hc
        exact absurd hpc (hwinner url)
      · rwa [List.getElem?_set_ne (Ne.symm hmn)] at hc
    intro m m' c c' hc hc' hgiven hgiven'
    exact h.unique m m' c c' (hold hc hgiven) (hold hc' hgiven') hgiven hgiven'

/-- The acting call writes an expired or absent row, and nobody else is inside. -/
theorem write (h : Serial now originalUrl userId db) {n : ℕ} {call : AddCall} {r : UrlRow} {url : Url}
    (halone : ∀ m, m ≠ n → Resting db m)
    (hcalls : db'.calls = db.calls.set n { call with pc := .done (.ok (some url)) })
    (hdead : ¬ Live now (db.row originalUrl userId))
    (hrow : db'.row originalUrl userId = some r) (hurl : r.decode = some url) :
    Serial now originalUrl userId db' := by
  refine ⟨?_, ?_, ?_, ?_⟩
  · rw [hcalls]
    intro c hc hpc
    rcases mem_set_cases hc with rfl | ⟨m, hmn, hm⟩
    · simp at hpc
    · rcases halone m hmn c hm with hrest | ⟨result, hrest⟩
      · simp [hrest] at hpc
      · simp [hrest] at hpc
  · rw [hcalls]
    intro c hc hpc
    rcases mem_set_cases hc with rfl | ⟨m, -, hm⟩
    · simp at hpc
    · exact absurd (h.conflict c (List.mem_of_getElem? hm) hpc) hdead
  · rw [hcalls, hrow]
    intro c hc url' hpc hlive
    rcases mem_set_cases hc with rfl | ⟨m, -, hm⟩
    · obtain rfl : url = url' := by simpa using hpc
      exact ⟨r, rfl, hurl⟩
    · exact absurd (live_of_decode (h.winner c (List.mem_of_getElem? hm) url' hpc hlive) hlive) hdead
  · rw [hcalls]
    have hself : ∀ {m : ℕ} {c : AddCall},
        (db.calls.set n { call with pc := .done (.ok (some url)) })[m]? = some c → c.Given now → m = n := by
      rintro m c hc ⟨url', hpc, hlive⟩
      by_contra hmn
      rw [List.getElem?_set_ne (Ne.symm hmn)] at hc
      exact hdead (live_of_decode (h.winner c (List.mem_of_getElem? hc) url' hpc hlive) hlive)
    intro m m' c c' hc hc' hgiven hgiven'
    rw [hself hc hgiven, hself hc' hgiven']

/-- A serial step keeps it. -/
theorem step (h : Serial now originalUrl userId db) (hracing : Racing originalUrl userId db) {e : CallEvent}
    (halone : Alone CallEvent.index Resting db e) (hstep : db.race encode now e = some db') :
    Serial now originalUrl userId db' := by
  obtain ⟨call, pc, hcall, hcalls, hview⟩ := hracing.view hstep
  have hmem := List.mem_of_getElem? hcall
  generalize hrow' : db'.row originalUrl userId = row' at hview
  cases hview with
  | look hpc hlook =>
    exact h.keep hcalls hrow' (fun _ => hlook) hlook.live_of_conflict hlook.ne_some
  | revived hpc hurl hexp =>
    refine h.write halone hcalls ?_ hrow' hurl
    exact (h.current call hmem (Or.inl ⟨_, hpc⟩)).dead_of_reactivate hpc
  | inserted hpc hrow htaken hurl hexp =>
    refine h.write halone hcalls ?_ hrow' hurl
    rw [hrow]
    rintro ⟨r, hr, -⟩
    cases hr
  | collided hpc hrow =>
    refine h.keep hcalls hrow' (fun hpc => by simp at hpc) (fun _ => ?_) (fun url => by simp)
    exact (h.current call hmem (Or.inr hpc)).live_of_insert hpc hrow
  | taken hpc hrow htaken =>
    exact h.keep hcalls hrow' (fun hpc => by simp at hpc) (fun hpc => by simp at hpc) (fun url => by simp)

/-- And so does a serial run. -/
theorem run (h : Serial now originalUrl userId db) (hracing : Racing originalUrl userId db)
    {as : List CallEvent} {t : Db}
    (hrun : Run (Db.race encode now) (Alone CallEvent.index Resting) db as t) :
    Serial now originalUrl userId t := by
  have hboth : Racing originalUrl userId t ∧ Serial now originalUrl userId t := by
    refine hrun.induct (I := fun t => Racing originalUrl userId t ∧ Serial now originalUrl userId t) ?_
      ⟨hracing, h⟩
    rintro v e v' ⟨hv, hserial⟩ halone hstep
    exact ⟨hv.step hstep, hserial.step hv halone hstep⟩
  exact hboth.2

end Serial

/-! ## Concurrent runs -/

variable {as : List CallEvent} {t : Db}

/-- A row that is not live stays so when nobody writes a live expiry. -/
theorem dead_run (hrun : Run (Db.race encode now) (NoLiveWrite encode now originalUrl userId) db as t)
    (h : Racing originalUrl userId db) (hdead : ¬ Live now (db.row originalUrl userId)) :
    ¬ Live now (t.row originalUrl userId) := by
  have hboth : Racing originalUrl userId t ∧ ¬ Live now (t.row originalUrl userId) := by
    refine hrun.induct
      (I := fun t => Racing originalUrl userId t ∧ ¬ Live now (t.row originalUrl userId)) ?_ ⟨h, hdead⟩
    rintro v e v' ⟨hv, hvdead⟩ hwrite hstep
    refine ⟨hv.step hstep, ?_⟩
    obtain ⟨call, pc, hcall, -, hview⟩ := hv.view hstep
    generalize v'.row originalUrl userId = row' at hview ⊢
    cases hview with
    | look hpc hlook => exact hvdead
    | revived hpc hurl hexp =>
      rintro ⟨r, hr, hlive⟩
      obtain rfl := Option.some.inj hr
      exact hwrite call hcall (hexp ▸ hlive)
    | inserted hpc hrow htaken hurl hexp =>
      rintro ⟨r, hr, hlive⟩
      obtain rfl := Option.some.inj hr
      exact hwrite call hcall hrow htaken (hexp ▸ hlive)
    | collided hpc hrow => exact hvdead
    | taken hpc hrow htaken => exact hvdead
  exact hboth.2

/-- A row that is live stays so when every `UPDATE` finds an expired row. -/
theorem live_run (hrun : Run (Db.race encode now) (FindsExpired now originalUrl userId) db as t)
    (h : Racing originalUrl userId db) (hlive : Live now (db.row originalUrl userId)) :
    Live now (t.row originalUrl userId) := by
  have hboth : Racing originalUrl userId t ∧ Live now (t.row originalUrl userId) := by
    refine hrun.induct (I := fun t => Racing originalUrl userId t ∧ Live now (t.row originalUrl userId)) ?_
      ⟨h, hlive⟩
    rintro v e v' ⟨hv, hvlive⟩ hfinds hstep
    refine ⟨hv.step hstep, ?_⟩
    obtain ⟨call, pc, hcall, -, hview⟩ := hv.view hstep
    generalize v'.row originalUrl userId = row' at hview ⊢
    cases hview with
    | look hpc hlook => exact hvlive
    | revived hpc hurl hexp => exact absurd hvlive hfinds
    | inserted hpc hrow htaken hurl hexp =>
      rw [hrow] at hvlive
      obtain ⟨r, hr, -⟩ := hvlive
      cases hr
    | collided hpc hrow => exact hvlive
    | taken hpc hrow htaken => exact hvlive
  exact hboth.2

/-- A row turns live only by a call that ends with it. -/
theorem winner_of_revival {P : Db → CallEvent → Prop} (hrun : Run (Db.race encode now) P db as t)
    (h : Racing originalUrl userId db) (hdead : ¬ Live now (db.row originalUrl userId))
    (hlive : Live now (t.row originalUrl userId)) :
    ∃ (n : ℕ) (call call' : AddCall), db.calls[n]? = some call ∧
      (∀ result, call.pc ≠ .done result) ∧ t.calls[n]? = some call' ∧ call'.Given now := by
  induction hrun with
  | nil v => exact absurd hlive hdead
  | @cons v v' t e es hP hstep hrest ih =>
    obtain ⟨call, pc, hcall, hcalls, hview⟩ := h.view hstep
    by_cases hv' : Live now (v'.row originalUrl userId)
    · have hself := getElem?_self hcall hcalls
      have hrunning := hview.running
      generalize hrow' : v'.row originalUrl userId = row' at hview hv'
      have hwrite : ∀ r url, row' = some r → r.decode = some url → pc = .done (.ok (some url)) →
          ∃ (n : ℕ) (call call' : AddCall), v.calls[n]? = some call ∧
            (∀ result, call.pc ≠ .done result) ∧ t.calls[n]? = some call' ∧ call'.Given now := by
        rintro r url rfl hurl rfl
        obtain ⟨r', hr', hr'live⟩ := hv'
        obtain rfl := Option.some.inj hr'
        rw [← expiresAt_of_decode hurl] at hr'live
        have hend := ended_run hrest (h.step hstep) hself rfl
        exact ⟨e.index, call, _, hcall, hrunning, hend, url, rfl, hr'live⟩
      cases hview with
      | look hpc hlook => exact absurd hv' hdead
      | revived hpc hurl hexp => exact hwrite _ _ rfl hurl rfl
      | inserted hpc hrow htaken hurl hexp => exact hwrite _ _ rfl hurl rfl
      | collided hpc hrow => exact absurd hv' hdead
      | taken hpc hrow htaken => exact absurd hv' hdead
    · obtain ⟨n, call₁, call', hcall₁, hrunning, hrest'⟩ := ih (h.step hstep) hv' hlive
      -- it had not ended before the step either
      cases hcall₀ : v.calls[n]? with
      | none =>
        have hlen : n < v'.calls.length := (List.getElem?_eq_some_iff.mp hcall₁).1
        rw [hcalls, List.length_set] at hlen
        rw [List.getElem?_eq_none_iff] at hcall₀
        omega
      | some call₀ =>
        refine ⟨n, call₀, call', hcall₀, fun result hpc => ?_, hrest'⟩
        have hsame := ended_step h hstep hcall₀ hpc
        obtain rfl := Option.some.inj (hcall₁.symm.trans hsame)
        exact hrunning result hpc

/-- While a call is about to revive the row, a live row is that of a call that has ended with it. -/
def Overtaken (now : Instant) (originalUrl : String) (userId : Uuid) (db : Db) : Prop :=
  (∃ call ∈ db.calls, ∃ urlId, call.pc = .reactivate urlId) → Live now (db.row originalUrl userId) →
    ∃ (n : ℕ) (call : AddCall) (url : Url), db.calls[n]? = some call ∧ call.pc = .done (.ok (some url)) ∧
      ∃ r ∈ db.row originalUrl userId, r.decode = some url

theorem overtaken_step (h : Racing originalUrl userId db) (hover : Overtaken now originalUrl userId db)
    {e : CallEvent} (hstep : db.race encode now e = some db') : Overtaken now originalUrl userId db' := by
  obtain ⟨call, pc, hcall, hcalls, hview⟩ := h.view hstep
  have hself := getElem?_self hcall hcalls
  -- without a write, whoever was overtaken before still is
  have hkeep : db'.row originalUrl userId = db.row originalUrl userId →
      (∀ urlId, pc = .reactivate urlId → ¬ Live now (db.row originalUrl userId)) →
        Overtaken now originalUrl userId db' := by
    rintro hrow hdead ⟨c, hc, urlId, hpc⟩ hlive
    rw [hrow] at hlive ⊢
    rw [hcalls] at hc
    rcases mem_set_cases hc with rfl | ⟨m, -, hm⟩
    · exact absurd hlive (hdead urlId hpc)
    · obtain ⟨n, call', url, hcall', hpc', hr⟩ := hover ⟨c, List.mem_of_getElem? hm, urlId, hpc⟩ hlive
      exact ⟨n, call', url, ended_step h hstep hcall' hpc', hpc', hr⟩
  generalize hrow' : db'.row originalUrl userId = row' at hview hkeep
  cases hview with
  | look hpc hlook => exact hkeep rfl fun urlId => hlook.dead_of_reactivate
  | revived hpc hurl hexp => exact fun _ _ => ⟨_, _, _, hself, rfl, _, hrow', hurl⟩
  | inserted hpc hrow htaken hurl hexp => exact fun _ _ => ⟨_, _, _, hself, rfl, _, hrow', hurl⟩
  | collided hpc hrow => exact hkeep rfl fun urlId hpc => by simp at hpc
  | taken hpc hrow htaken => exact hkeep rfl fun urlId hpc => by simp at hpc

/-! ## What a sequential order rules out -/

theorem Serial.of_sequential (hstart : Start originalUrl userId db)
    (hseq : Sequential encode now originalUrl userId db t) : Serial now originalUrl userId t := by
  obtain ⟨bs, w, hserial, hobserve⟩ := hseq
  obtain ⟨hcalls, hrow⟩ := Prod.mk.inj hobserve
  have hw := (Serial.start now hstart).run hstart.racing hserial
  refine ⟨?_, ?_, ?_, ?_⟩
  · rw [← hcalls, ← hrow]
    exact hw.current
  · rw [← hcalls, ← hrow]
    exact hw.conflict
  · rw [← hcalls, ← hrow]
    exact hw.winner
  · rw [← hcalls]
    exact hw.unique

/-- Somebody else was given the live row that an `UPDATE` is about to hit. -/
theorem given_of_overtaken (hover : Overtaken now originalUrl userId db) {n : ℕ} {call : AddCall}
    {urlId : ℤ} (hcall : db.calls[n]? = some call) (hpc : call.pc = .reactivate urlId)
    (hlive : Live now (db.row originalUrl userId)) :
    ∃ (m : ℕ) (call' : AddCall) (url : Url), m ≠ n ∧ db.calls[m]? = some call' ∧
      call'.pc = .done (.ok (some url)) ∧ LiveAt now url.expiresAt := by
  obtain ⟨m, call', url, hcall', hpc', r, hr, hurl⟩ :=
    hover ⟨call, List.mem_of_getElem? hcall, urlId, hpc⟩ hlive
  refine ⟨m, call', url, ?_, hcall', hpc', ?_⟩
  · rintro rfl
    obtain rfl := Option.some.inj (hcall.symm.trans hcall')
    rw [hpc] at hpc'
    cases hpc'
  · obtain ⟨r', hr', hlive'⟩ := hlive
    obtain rfl := Option.some.inj (hr.symm.trans hr')
    rwa [expiresAt_of_decode hurl]

/-- Two calls that were both given a live link have no order, and an expired link over a live one none
either. -/
theorem findsExpired_of_serial {P : Db → CallEvent → Prop} (hstart : Start originalUrl userId db)
    (hrun : Run (Db.race encode now) P db as t) (hserial : Serial now originalUrl userId t) :
    Run (Db.race encode now) (FindsExpired now originalUrl userId) db as t := by
  refine hrun.of_splits ?_
  intro bs v e v' cs hbefore _ hstep hafter
  have hboth : Racing originalUrl userId v ∧ Overtaken now originalUrl userId v := by
    refine hbefore.induct
      (I := fun v => Racing originalUrl userId v ∧ Overtaken now originalUrl userId v) ?_ ?_
    · rintro v e v' ⟨hv, hover⟩ - hstep
      exact ⟨hv.step hstep, overtaken_step hv hover hstep⟩
    · refine ⟨hstart.racing, ?_⟩
      rintro ⟨call, hcall, urlId, hpc⟩
      simp [hstart.begins call hcall] at hpc
  obtain ⟨hv, hover⟩ := hboth
  have hv' := hv.step hstep
  cases e with
  | select n => trivial
  | transaction n urlId => trivial
  | reactivate n =>
    intro hlive
    obtain ⟨call, pc, hcall, hcalls, hview⟩ := hv.view hstep
    have hself := getElem?_self hcall hcalls
    generalize hrow' : v'.row originalUrl userId = row' at hview
    cases hview with
    | @revived _ urlId r url hpc hurl hexp =>
      -- somebody else was given the live link
      obtain ⟨m, call', url', hne, hcall', hpc', hlive'⟩ := given_of_overtaken hover hcall hpc hlive
      have hended' := ended_step hv hstep hcall' hpc'
      have hend' := ended_run hafter hv' hended' hpc'
      have hend := ended_run hafter hv' hself rfl
      -- so this one was not
      have hdead : ¬ LiveAt now url.expiresAt := fun h =>
        hne (hserial.unique m n call' _ hend' hend ⟨url', hpc', hlive'⟩ ⟨url, rfl, h⟩)
      have hdead' : ¬ Live now (v'.row originalUrl userId) := by
        rw [hrow']
        rintro ⟨r'', hr'', hlive''⟩
        obtain rfl := Option.some.inj hr''
        rw [← expiresAt_of_decode hurl] at hlive''
        exact hdead hlive''
      have hwinner := hserial.winner call' (List.mem_of_getElem? hend') url' hpc' hlive'
      have hlast := live_of_decode hwinner hlive'
      -- and the row is live in the end by a third
      obtain ⟨k, call₁, call₂, hcall₁, hrunning, hcall₂, hgiven⟩ :=
        winner_of_revival hafter hv' hdead' hlast
      obtain rfl : m = k := hserial.unique m k call' call₂ hend' hcall₂ ⟨url', hpc', hlive'⟩ hgiven
      obtain rfl := Option.some.inj (hended'.symm.trans hcall₁)
      exact hrunning _ hpc'

/-- A conflict with an expired row needs a live one to come. -/
theorem noDeadConflict_of_serial (hstart : Start originalUrl userId db)
    (hrun : Run (Db.race encode now) (NoLiveWrite encode now originalUrl userId) db as t)
    (hserial : Serial now originalUrl userId t) :
    Run (Db.race encode now) (NoDeadConflict now originalUrl userId) db as t := by
  refine hrun.of_splits ?_
  intro bs v e v' cs hbefore _ hstep hafter
  have hv := racing_run hbefore hstart.racing
  cases e with
  | select n => trivial
  | reactivate n => trivial
  | transaction n urlId =>
    intro r hr
    by_contra hdead
    obtain ⟨call, pc, hcall, hcalls, hview⟩ := hv.view hstep
    have hself := getElem?_self hcall hcalls
    have hvdead : ¬ Live now (v.row originalUrl userId) := by
      rintro ⟨r', hr', hlive⟩
      obtain rfl := Option.some.inj (hr.symm.trans hr')
      exact hdead hlive
    generalize hrow' : v'.row originalUrl userId = row' at hview
    cases hview with
    | inserted hpc hrow htaken hurl hexp =>
      rw [hrow] at hr
      cases hr
    | taken hpc hrow htaken =>
      rw [hrow] at hr
      cases hr
    | collided hpc hrow =>
      have hend := ended_run hafter (hv.step hstep) hself rfl
      have hlast := hserial.conflict _ (List.mem_of_getElem? hend) rfl
      exact dead_run hafter (hv.step hstep) (by rwa [hrow']) hlast

/-! ## Building a sequential order -/

theorem look_expired {r : UrlRow} (hdecode : r.decode.isSome) (hdead : ¬ LiveAt now r.expiresAt) :
    look (some r) now = .reactivate r.urlId := by
  have hlook := look_spec now (some r)
  generalize look (some r) now = pc at hlook ⊢
  cases hlook with
  | unreadable hnone => simp [hnone] at hdecode
  | expired _ _ => rfl
  | conflict _ hlive _ => exact absurd hlive hdead
  | endless _ hexp =>
    refine absurd (fun exp h => ?_) hdead
    rw [hexp] at h
    cases h

theorem look_live {r : UrlRow} (hdecode : r.decode.isSome) (hlive : LiveAt now r.expiresAt) :
    look (some r) now = .done (.ok none) ∨ look (some r) now = .insert := by
  have hlook := look_spec now (some r)
  generalize look (some r) now = pc at hlook ⊢
  cases hlook with
  | unreadable hnone => simp [hnone] at hdecode
  | expired _ hdead => exact absurd hlive hdead
  | conflict _ _ _ => exact Or.inl rfl
  | endless _ _ => exact Or.inr rfl

variable (originalUrl userId) in
/-- The second copy has run the calls that have ended in the first, but for those that ran into an expired
row: they are kept, with their sequence values, until the row is live. -/
structure Sim (delayed : List (ℕ × ℤ)) (v w : Db) : Prop where
  racing : Racing originalUrl userId w
  urls : w.urls = v.urls
  issued : w.issued.map Issue.urlId ⊆ v.issued.map Issue.urlId
  length : w.calls.length = v.calls.length
  settled : ∀ (n : ℕ) call result, v.calls[n]? = some call → call.pc = .done result →
    n ∉ delayed.map Prod.fst → w.calls[n]? = some call
  waiting : ∀ (n : ℕ) call, v.calls[n]? = some call →
    (n ∈ delayed.map Prod.fst ∨ ∀ result, call.pc ≠ .done result) →
      w.calls[n]? = some { call with pc := .select }
  conflicts : ∀ x ∈ delayed, ∃ call, v.calls[x.1]? = some call ∧ call.pc = .done (.ok none)
  decodes : delayed ≠ [] → ∃ r ∈ v.row originalUrl userId, r.decode.isSome
  indices : (delayed.map Prod.fst).Nodup
  ids : (delayed.map Prod.snd).Nodup
  drawn : ∀ x ∈ delayed, x.2 ∈ v.issued.map Issue.urlId ∧ w.Fresh x.2

/-- What is fresh after more values is fresh after fewer. -/
theorem fresh_of_subset (hsub : db.issued.map Issue.urlId ⊆ db'.issued.map Issue.urlId) {urlId : ℤ}
    (h : db'.Fresh urlId) : db.Fresh urlId := by
  rintro (hlow | hhigh | hmem)
  · exact h (Or.inl hlow)
  · exact h (Or.inr (Or.inl hhigh))
  · exact h (Or.inr (Or.inr (hsub hmem)))

theorem fresh_draw {urlId urlId' : ℤ} (h : db.Fresh urlId) (hne : urlId ≠ urlId') (call : AddCall) :
    (db.draw now call urlId').Fresh urlId := by
  rintro (hlow | hhigh | hdrawn)
  · exact h (Or.inl hlow)
  · exact h (Or.inr (Or.inl hhigh))
  · rw [Db.draw, List.map_append] at hdrawn
    rcases List.mem_append.mp hdrawn with hold | hnew
    · exact h (Or.inr (Or.inr hold))
    · exact hne (List.mem_singleton.mp hnew)

namespace Sim

variable {delayed delayed' : List (ℕ × ℤ)} {v v' w w' : Db}

theorem start (h : Start originalUrl userId db) : Sim originalUrl userId [] db db where
  racing := h.racing
  urls := rfl
  issued := List.Subset.refl _
  length := rfl
  settled := fun n call result hcall _ _ => hcall
  waiting := fun n call hcall _ => by
    rw [hcall, ← h.begins call (List.mem_of_getElem? hcall)]
  conflicts := fun x hx => absurd hx List.not_mem_nil
  decodes := fun hne => absurd rfl hne
  indices := List.nodup_nil
  ids := List.nodup_nil
  drawn := fun x hx => absurd hx List.not_mem_nil

theorem row (h : Sim originalUrl userId delayed v w) :
    w.row originalUrl userId = v.row originalUrl userId := by
  rw [Db.row, Db.row, h.urls]

/-- Between two operations of the copy nobody is inside one. -/
theorem resting (h : Sim originalUrl userId delayed v w) (n : ℕ) : Resting w n := by
  intro call hcall
  have hlen := (List.getElem?_eq_some_iff.mp hcall).1
  rw [h.length] at hlen
  have hv : v.calls[n]? = some v.calls[n] := List.getElem?_eq_getElem hlen
  by_cases hwaits : n ∈ delayed.map Prod.fst ∨ ∀ result, v.calls[n].pc ≠ .done result
  · have hw := h.waiting n _ hv hwaits
    obtain rfl := Option.some.inj (hcall.symm.trans hw)
    exact Or.inl rfl
  · obtain ⟨hn, hended⟩ := not_or.mp hwaits
    obtain ⟨result, hpc⟩ := not_forall_not.mp hended
    have hw := h.settled n _ result hv hpc hn
    obtain rfl := Option.some.inj (hcall.symm.trans hw)
    exact Or.inr ⟨result, hpc⟩

theorem fresh (h : Sim originalUrl userId delayed v w) {urlId : ℤ} (hfresh : v.Fresh urlId) :
    w.Fresh urlId :=
  fresh_of_subset h.issued hfresh

/-- The copy ends a call. -/
theorem settle (h : Sim originalUrl userId delayed v w) {n : ℕ} {call : AddCall}
    {result : Except SqlError (Option Url)} (hracing : Racing originalUrl userId w')
    (hurls : w'.urls = v'.urls) (hissued : w'.issued.map Issue.urlId ⊆ v'.issued.map Issue.urlId)
    (hv : v'.calls = v.calls.set n { call with pc := .done result })
    (hw : w'.calls = w.calls.set n { call with pc := .done result })
    (hsub : delayed'.Sublist delayed) (hn : n ∉ delayed'.map Prod.fst)
    (hrest : ∀ m, m ≠ n → m ∈ delayed.map Prod.fst → m ∈ delayed'.map Prod.fst)
    (hdecodes : delayed' ≠ [] → ∃ r ∈ v'.row originalUrl userId, r.decode.isSome)
    (hdrawn : ∀ x ∈ delayed', x.2 ∈ v'.issued.map Issue.urlId ∧ w'.Fresh x.2) :
    Sim originalUrl userId delayed' v' w' := by
  have hmap : (delayed'.map Prod.fst).Sublist (delayed.map Prod.fst) := hsub.map _
  refine ⟨hracing, hurls, hissued, ?_, ?_, ?_, ?_, hdecodes, h.indices.sublist hmap,
    h.ids.sublist (hsub.map _), hdrawn⟩
  · rw [hv, hw, List.length_set, List.length_set, h.length]
  · rw [hv, hw]
    intro m c result' hc hpc hm
    by_cases hmn : m = n
    · subst hmn
      obtain ⟨hlen, rfl⟩ := of_getElem?_set_self hc
      rw [← h.length] at hlen
      exact List.getElem?_set_self hlen
    · rw [List.getElem?_set_ne (Ne.symm hmn)] at hc ⊢
      exact h.settled m c result' hc hpc fun hold => hm (hrest m hmn hold)
  · rw [hv, hw]
    intro m c hc hwaits
    by_cases hmn : m = n
    · subst hmn
      obtain ⟨-, rfl⟩ := of_getElem?_set_self hc
      rcases hwaits with hm | hended
      · exact absurd hm hn
      · exact absurd rfl (hended result)
    · rw [List.getElem?_set_ne (Ne.symm hmn)] at hc ⊢
      exact h.waiting m c hc (hwaits.imp_left fun hm => hmap.subset hm)
  · rw [hv]
    intro x hx
    have hne : n ≠ x.1 := by
      rintro rfl
      exact hn (List.mem_map_of_mem hx)
    rw [List.getElem?_set_ne hne]
    exact h.conflicts x (hsub.subset hx)

theorem notMem_delayed (h : Sim originalUrl userId delayed v w) {n : ℕ} {call : AddCall}
    (hcall : v.calls[n]? = some call) (hrunning : ∀ result, call.pc ≠ .done result) :
    n ∉ delayed.map Prod.fst := by
  intro hn
  obtain ⟨x, hx, rfl⟩ := List.mem_map.mp hn
  obtain ⟨call', hcall', hpc⟩ := h.conflicts x hx
  obtain rfl := Option.some.inj (hcall.symm.trans hcall')
  exact hrunning _ hpc

variable (encode now) in
/-- The copy looks. -/
theorem select (h : Sim originalUrl userId delayed v w) {n : ℕ} {call : AddCall}
    (hw : w.calls[n]? = some { call with pc := .select }) :
    w.race encode now (.select n) = some (w.setPc n call (look (v.row originalUrl userId) now)) := by
  rw [Db.race_select hw rfl, h.racing.row_call hw, h.row]
  rfl

variable (encode now) in
/-- The copy runs a whole call of two steps. -/
theorem two_steps (h : Sim originalUrl userId delayed v w) {n : ℕ} {call : AddCall}
    (hw : w.calls[n]? = some { call with pc := .select }) {pc : AddPc}
    (hlook : look (v.row originalUrl userId) now = pc) {e : CallEvent} (he : e.index = n)
    (heffect : Effect encode now originalUrl userId (w.setPc n call pc) e w') :
    Run (Db.race encode now) (Alone CallEvent.index Resting) w [.select n, e] w' ∧
      Racing originalUrl userId w' := by
  have hselect : w.race encode now (.select n) = some (w.setPc n call pc) := hlook ▸ h.select encode now hw
  have hracing := h.racing.step hselect
  have hstep := hracing.race_of_effect heffect
  have halone : Alone CallEvent.index Resting (w.setPc n call pc) e := by
    intro m hm c hc
    rw [he] at hm
    rw [Db.setPc, List.getElem?_set_ne (Ne.symm hm)] at hc
    exact h.resting m c hc
  exact ⟨.cons (fun m _ => h.resting m) hselect (.single halone hstep), hracing.step hstep⟩

theorem issued_draw (h : Sim originalUrl userId delayed v w) (call call' : AddCall) (urlId : ℤ) :
    (w.draw now call urlId).issued.map Issue.urlId ⊆ (v.draw now call' urlId).issued.map Issue.urlId := by
  rw [Db.draw, Db.draw, List.map_append, List.map_append]
  exact List.append_subset.mpr ⟨List.subset_append_of_subset_left _ h.issued, List.subset_append_right _ _⟩

variable (now) in
/-- A value drawn now is none of those kept. -/
theorem drawn_draw (h : Sim originalUrl userId delayed v w) (call call' : AddCall) {urlId : ℤ}
    (hne : ∀ x ∈ delayed, x.2 ≠ urlId) : ∀ x ∈ delayed,
      x.2 ∈ (v.draw now call' urlId).issued.map Issue.urlId ∧ (w.draw now call urlId).Fresh x.2 := by
  intro x hx
  obtain ⟨hmem, hfresh⟩ := h.drawn x hx
  refine ⟨?_, fresh_draw hfresh (hne x hx) call⟩
  rw [Db.draw, List.map_append]
  exact List.mem_append_left _ hmem

theorem ne_of_fresh (h : Sim originalUrl userId delayed v w) {urlId : ℤ} (hfresh : v.Fresh urlId) :
    ∀ x ∈ delayed, x.2 ≠ urlId := by
  rintro x hx rfl
  exact hfresh (Or.inr (Or.inr (h.drawn x hx).1))

/-- A call goes on, and the copy waits. -/
theorem advance (h : Sim originalUrl userId delayed v w) {n : ℕ} {call : AddCall}
    (hcall : v.calls[n]? = some call) (hrunning : ∀ result, call.pc ≠ .done result) {pc : AddPc}
    (hpc : ∀ result, pc ≠ .done result) : Sim originalUrl userId delayed (v.setPc n call pc) w := by
  refine { h with length := ?_, settled := ?_, waiting := ?_, conflicts := ?_ }
  · rw [Db.setPc, List.length_set, h.length]
  · intro m c result hc hended hm
    by_cases hmn : m = n
    · subst hmn
      obtain ⟨-, rfl⟩ := of_getElem?_set_self hc
      exact absurd hended (hpc result)
    · rw [Db.setPc, List.getElem?_set_ne (Ne.symm hmn)] at hc
      exact h.settled m c result hc hended hm
  · intro m c hc hwaits
    by_cases hmn : m = n
    · subst hmn
      obtain ⟨-, rfl⟩ := of_getElem?_set_self hc
      exact h.waiting m call hcall (Or.inr hrunning)
    · rw [Db.setPc, List.getElem?_set_ne (Ne.symm hmn)] at hc
      exact h.waiting m c hc hwaits
  · intro x hx
    have hne : n ≠ x.1 := by
      rintro rfl
      exact h.notMem_delayed hcall hrunning (List.mem_map_of_mem hx)
    rw [Db.setPc, List.getElem?_set_ne hne]
    exact h.conflicts x hx

/-- A call runs into an expired row, and the copy keeps it for later. -/
theorem delay (h : Sim originalUrl userId delayed v w) {n : ℕ} {call : AddCall}
    (hcall : v.calls[n]? = some call) (hrunning : ∀ result, call.pc ≠ .done result) {urlId : ℤ}
    (hfresh : v.Fresh urlId) (hdecodes : ∃ r ∈ v.row originalUrl userId, r.decode.isSome) :
    Sim originalUrl userId (delayed ++ [(n, urlId)])
      ((v.draw now call urlId).setPc n call (.done (.ok none))) w := by
  have hn := h.notMem_delayed hcall hrunning
  have hlen := (List.getElem?_eq_some_iff.mp hcall).1
  have hdraw : v.issued.map Issue.urlId ⊆ (v.draw now call urlId).issued.map Issue.urlId := by
    rw [Db.draw, List.map_append]
    exact List.subset_append_left _ _
  have hself : ((v.draw now call urlId).setPc n call (.done (.ok none))).calls[n]? =
      some { call with pc := .done (.ok none) } := List.getElem?_set_self hlen
  have hother : ∀ m, m ≠ n → ((v.draw now call urlId).setPc n call (.done (.ok none))).calls[m]? =
      v.calls[m]? := fun m hm => List.getElem?_set_ne (Ne.symm hm)
  refine ⟨h.racing, h.urls, List.Subset.trans h.issued hdraw, ?_, ?_, ?_, ?_, fun _ => hdecodes, ?_, ?_, ?_⟩
  · rw [Db.setPc, List.length_set, h.length]
    rfl
  · intro m c result hc hended hm
    rw [List.map_append, List.mem_append, not_or] at hm
    have hmn : m ≠ n := fun heq => hm.2 (List.mem_singleton.mpr heq)
    rw [hother m hmn] at hc
    exact h.settled m c result hc hended hm.1
  · intro m c hc hwaits
    by_cases hmn : m = n
    · subst hmn
      obtain rfl := Option.some.inj (hself.symm.trans hc)
      exact h.waiting m call hcall (Or.inr hrunning)
    · rw [hother m hmn] at hc
      refine h.waiting m c hc (hwaits.imp_left fun hm => ?_)
      rw [List.map_append] at hm
      exact (List.mem_append.mp hm).resolve_right fun hnew => hmn (List.mem_singleton.mp hnew)
  · intro x hx
    rcases List.mem_append.mp hx with hold | hnew
    · rw [hother x.1 fun heq => hn (heq ▸ List.mem_map_of_mem hold)]
      exact h.conflicts x hold
    · obtain rfl := List.mem_singleton.mp hnew
      exact ⟨_, hself, rfl⟩
  · rw [List.map_append]
    refine List.nodup_append.mpr ⟨h.indices, List.nodup_singleton _, ?_⟩
    intro m hm m' hm' heq
    obtain rfl : m' = n := List.mem_singleton.mp hm'
    exact hn (heq ▸ hm)
  · rw [List.map_append]
    refine List.nodup_append.mpr ⟨h.ids, List.nodup_singleton _, ?_⟩
    intro id hid id' hid' heq
    obtain ⟨x, hx, rfl⟩ := List.mem_map.mp hid
    exact h.ne_of_fresh hfresh x hx (heq.trans (List.mem_singleton.mp hid'))
  · intro x hx
    rcases List.mem_append.mp hx with hold | hnew
    · exact ⟨hdraw (h.drawn x hold).1, (h.drawn x hold).2⟩
    · obtain rfl := List.mem_singleton.mp hnew
      refine ⟨?_, h.fresh hfresh⟩
      rw [Db.setPc, Db.draw, List.map_append]
      exact List.mem_append_right _ (List.mem_singleton_self _)

variable (encode now) in
/-- The copy runs a whole call that conflicts with a live row. -/
theorem conflict (h : Sim originalUrl userId delayed v w) {n : ℕ} {call : AddCall}
    (hw : w.calls[n]? = some { call with pc := .select }) {r : UrlRow}
    (hrow : v.row originalUrl userId = some r) (hdecode : r.decode.isSome) (hlive : LiveAt now r.expiresAt)
    {urlId : ℤ} (hfresh : w.Fresh urlId) :
    ∃ bs w', Run (Db.race encode now) (Alone CallEvent.index Resting) w bs w' ∧
      Racing originalUrl userId w' ∧ w'.urls = w.urls ∧
      w'.calls = w.calls.set n { call with pc := .done (.ok none) } ∧
      w'.issued.map Issue.urlId ⊆ (w.draw now call urlId).issued.map Issue.urlId := by
  rcases look_live hdecode hlive with hlook | hlook
  · have hselect := h.select encode now hw
    rw [hrow, hlook] at hselect
    refine ⟨_, _, .single (fun m _ => h.resting m) hselect, h.racing.step hselect, rfl, rfl, ?_⟩
    rw [Db.draw, List.map_append]
    exact List.subset_append_left _ _
  · have hw₁ : (w.setPc n call .insert).calls[n]? = _ := Db.getElem?_setPc_self w hw _
    obtain ⟨hrun, hracing⟩ := h.two_steps encode now hw (hrow ▸ hlook) rfl
      (.collided hw₁ rfl hfresh (h.row.trans hrow))
    refine ⟨_, _, hrun, hracing, rfl, ?_, List.Subset.refl _⟩
    simp only [Db.setPc, Db.draw, List.set_set]

/-- The copy revives the row. -/
theorem revived (h : Sim originalUrl userId delayed v w) {n : ℕ} {call : AddCall} {r : UrlRow} {url : Url}
    (hcall : v.calls[n]? = some call) (hpc : call.pc = .reactivate r.urlId)
    (hrow : v.row originalUrl userId = some r) (hdead : ¬ LiveAt now r.expiresAt)
    (hurl : (Db.reactivated r call.expiresAt now).decode = some url) :
    ∃ bs w', Run (Db.race encode now) (Alone CallEvent.index Resting) w bs w' ∧
      Sim originalUrl userId delayed
        ((v.revive now r.urlId call.expiresAt).setPc n call (.done (.ok (some url)))) w' := by
  have hrunning : ∀ result, call.pc ≠ .done result := fun result => by simp [hpc]
  have hw := h.waiting n call hcall (Or.inr hrunning)
  have hdecode : r.decode.isSome := by
    have hsome := Option.isSome_of_mem hurl
    rwa [UrlRow.decode, Option.isSome_map] at hsome ⊢
  have hlook : look (v.row originalUrl userId) now = .reactivate r.urlId := by
    rw [hrow]
    exact look_expired hdecode hdead
  have hw₁ : (w.setPc n call (.reactivate r.urlId)).calls[n]? = _ := Db.getElem?_setPc_self w hw _
  obtain ⟨hrun, hracing⟩ := h.two_steps encode now hw hlook rfl (.revived hw₁ rfl (h.row.trans hrow) hurl)
  refine ⟨_, _, hrun, ?_⟩
  refine h.settle hracing ?_ h.issued rfl ?_ (List.Sublist.refl _) (h.notMem_delayed hcall hrunning)
    (fun _ _ hm => hm) (fun _ => ?_) h.drawn
  · simp only [Db.setPc, Db.revive, Db.commitRows, h.urls]
  · simp only [Db.setPc, Db.revive, Db.commitRows, List.set_set]
  · exact ⟨_, Db.row_revive hrow call.expiresAt, Option.isSome_of_mem hurl⟩

/-- The copy inserts the row, under the same id. -/
theorem inserted (h : Sim originalUrl userId delayed v w) {n : ℕ} {call : AddCall} {urlId : ℤ} {url : Url}
    (hcall : v.calls[n]? = some call) (hpc : call.pc = .insert) (hfresh : v.Fresh urlId)
    (hrow : v.row originalUrl userId = none) (htaken : ¬ v.Taken encode urlId)
    (hurl : (Db.codedRow encode now call urlId).decode = some url) :
    ∃ bs w', Run (Db.race encode now) (Alone CallEvent.index Resting) w bs w' ∧
      Sim originalUrl userId delayed
        ((v.addRow encode now call urlId).setPc n call (.done (.ok (some url)))) w' := by
  have hrunning : ∀ result, call.pc ≠ .done result := fun result => by simp [hpc]
  have hw := h.waiting n call hcall (Or.inr hrunning)
  have hlook : look (v.row originalUrl userId) now = .insert := by rw [hrow, look]
  have hw₁ : (w.setPc n call .insert).calls[n]? = _ := Db.getElem?_setPc_self w hw _
  have htaken' : ¬ (w.setPc n call .insert).Taken encode urlId := by
    rwa [Db.Taken, Db.setPc, h.urls]
  obtain ⟨hrun, hracing⟩ := h.two_steps encode now hw hlook rfl
    (.inserted hw₁ rfl (h.fresh hfresh) (h.row.trans hrow) htaken' hurl)
  refine ⟨_, _, hrun, ?_⟩
  refine h.settle hracing ?_ (h.issued_draw call call urlId) rfl ?_ (List.Sublist.refl _)
    (h.notMem_delayed hcall hrunning) (fun _ _ hm => hm) (fun hne => ?_)
    (h.drawn_draw now call call (h.ne_of_fresh hfresh))
  · simp only [Db.setPc, Db.addRow, Db.commitRows, h.urls]
    rfl
  · simp only [Db.setPc, Db.addRow, Db.draw, Db.commitRows, List.set_set]
  · obtain ⟨r, hr, -⟩ := h.decodes hne
    rw [hrow] at hr
    cases hr

/-- The copy fails on the same code. -/
theorem taken (h : Sim originalUrl userId delayed v w) {n : ℕ} {call : AddCall} {urlId : ℤ}
    (hcall : v.calls[n]? = some call) (hpc : call.pc = .insert) (hfresh : v.Fresh urlId)
    (hrow : v.row originalUrl userId = none) (htaken : v.Taken encode urlId) :
    ∃ bs w', Run (Db.race encode now) (Alone CallEvent.index Resting) w bs w' ∧
      Sim originalUrl userId delayed
        ((v.draw now call urlId).setPc n call (.done (.error .database))) w' := by
  have hrunning : ∀ result, call.pc ≠ .done result := fun result => by simp [hpc]
  have hw := h.waiting n call hcall (Or.inr hrunning)
  have hlook : look (v.row originalUrl userId) now = .insert := by rw [hrow, look]
  have hw₁ : (w.setPc n call .insert).calls[n]? = _ := Db.getElem?_setPc_self w hw _
  have htaken' : (w.setPc n call .insert).Taken encode urlId := by
    rwa [Db.Taken, Db.setPc, h.urls]
  obtain ⟨hrun, hracing⟩ := h.two_steps encode now hw hlook rfl
    (.taken hw₁ rfl (h.fresh hfresh) (h.row.trans hrow) htaken')
  refine ⟨_, _, hrun, ?_⟩
  refine h.settle hracing h.urls (h.issued_draw call call urlId) rfl ?_ (List.Sublist.refl _)
    (h.notMem_delayed hcall hrunning) (fun _ _ hm => hm) h.decodes
    (h.drawn_draw now call call (h.ne_of_fresh hfresh))
  simp only [Db.setPc, Db.draw, List.set_set]

/-- One step: the copy runs the whole call when the call ends, but for a conflict with an expired row. -/
theorem step (h : Sim originalUrl userId delayed v w) (hv : Racing originalUrl userId v) {e : CallEvent}
    (hfinds : FindsExpired now originalUrl userId v e) (hstep : v.race encode now e = some v') :
    ∃ bs w' delayed', Run (Db.race encode now) (Alone CallEvent.index Resting) w bs w' ∧
      Sim originalUrl userId delayed' v' w' ∧
        (NoDeadConflict now originalUrl userId v e → delayed' = delayed) := by
  cases hv.effect_of_race hstep with
  | @select n call hcall hpc =>
    have hrunning : ∀ result, call.pc ≠ .done result := fun result => by simp [hpc]
    have hw := h.waiting n call hcall (Or.inr hrunning)
    by_cases hended : ∃ result, look (v.row originalUrl userId) now = .done result
    · obtain ⟨result, hlook⟩ := hended
      have hselect := h.select encode now hw
      rw [hlook] at hselect ⊢
      refine ⟨_, _, delayed, .single (fun m _ => h.resting m) hselect, ?_, fun _ => rfl⟩
      exact h.settle (h.racing.step hselect) h.urls h.issued rfl rfl (List.Sublist.refl _)
        (h.notMem_delayed hcall hrunning) (fun _ _ hm => hm) h.decodes h.drawn
    · exact ⟨[], w, delayed, .nil w, h.advance hcall hrunning (not_exists.mp hended), fun _ => rfl⟩
  | @revived n call r url hcall hpc hrow hurl =>
    have hdead : ¬ LiveAt now r.expiresAt := fun hlive => hfinds ⟨r, hrow, hlive⟩
    obtain ⟨bs, w', hrun, hsim⟩ := h.revived hcall hpc hrow hdead hurl
    exact ⟨bs, w', delayed, hrun, hsim, fun _ => rfl⟩
  | inserted hcall hpc hfresh hrow htaken hurl =>
    obtain ⟨bs, w', hrun, hsim⟩ := h.inserted hcall hpc hfresh hrow htaken hurl
    exact ⟨bs, w', delayed, hrun, hsim, fun _ => rfl⟩
  | @collided n call urlId r hcall hpc hfresh hrow =>
    have hrunning : ∀ result, call.pc ≠ .done result := fun result => by simp [hpc]
    have hw := h.waiting n call hcall (Or.inr hrunning)
    have hpoint := hv.points call (List.mem_of_getElem? hcall)
    rw [hpc] at hpoint
    have hdecode := hpoint r hrow
    by_cases hlive : LiveAt now r.expiresAt
    · obtain ⟨bs, w', hrun, hracing, hurls, hcalls, hissued⟩ :=
        h.conflict encode now hw hrow hdecode hlive (h.fresh hfresh)
      have hdrawn := h.drawn_draw now call call (h.ne_of_fresh hfresh)
      have hsub := List.Subset.trans hissued (h.issued_draw call call urlId)
      refine ⟨bs, w', delayed, hrun, ?_, fun _ => rfl⟩
      exact h.settle hracing (hurls.trans h.urls) hsub rfl hcalls (List.Sublist.refl _)
        (h.notMem_delayed hcall hrunning) (fun _ _ hm => hm) h.decodes
        fun x hx => ⟨(hdrawn x hx).1, fresh_of_subset hissued (hdrawn x hx).2⟩
    · refine ⟨[], w, _, .nil w, h.delay hcall hrunning hfresh ⟨r, hrow, hdecode⟩, ?_⟩
      exact fun hno => absurd (hno r hrow) hlive
  | taken hcall hpc hfresh hrow htaken =>
    obtain ⟨bs, w', hrun, hsim⟩ := h.taken hcall hpc hfresh hrow htaken
    exact ⟨bs, w', delayed, hrun, hsim, fun _ => rfl⟩

variable (encode) in
/-- Once all calls have ended on a live row, the copy runs those it has kept. -/
theorem complete (h : Sim originalUrl userId delayed v w) (hended : AllEnded v)
    (hlive : delayed ≠ [] → Live now (v.row originalUrl userId)) :
    Sequential encode now originalUrl userId w v := by
  induction delayed generalizing w with
  | nil =>
    have hcalls : w.calls = v.calls := by
      refine List.ext_getElem? fun n => ?_
      cases hcall : v.calls[n]? with
      | none =>
        rw [List.getElem?_eq_none_iff] at hcall ⊢
        exact h.length.trans_le hcall
      | some call =>
        obtain ⟨result, hpc⟩ := hended call (List.mem_of_getElem? hcall)
        exact h.settled n call result hcall hpc List.not_mem_nil
    exact ⟨[], w, .nil w, Prod.ext hcalls h.row⟩
  | cons x rest ih =>
    have hne : x :: rest ≠ [] := List.cons_ne_nil _ _
    obtain ⟨call, hcall, hpc⟩ := h.conflicts x List.mem_cons_self
    obtain ⟨r, hrow, hrlive⟩ := hlive hne
    obtain ⟨r', hrow', hdecode⟩ := h.decodes hne
    obtain rfl := Option.some.inj (hrow.symm.trans hrow')
    have hw := h.waiting x.1 call hcall (Or.inl List.mem_cons_self)
    obtain ⟨hx, hrest⟩ := List.nodup_cons.mp h.indices
    obtain ⟨hxid, -⟩ := List.nodup_cons.mp h.ids
    obtain ⟨bs, w', hrun, hracing, hurls, hcalls, hissued⟩ :=
      h.conflict encode now hw hrow hdecode hrlive (h.drawn x List.mem_cons_self).2
    have hsame : v.calls = v.calls.set x.1 { call with pc := .done (.ok none) } := by
      obtain ⟨hlen, rfl⟩ := List.getElem?_eq_some_iff.mp hcall
      rw [← hpc, List.set_getElem_self]
    have hdrawn : (w.draw now call x.2).issued.map Issue.urlId ⊆ v.issued.map Issue.urlId := by
      rw [Db.draw, List.map_append]
      refine List.append_subset.mpr ⟨h.issued, ?_⟩
      intro id hid
      obtain rfl : id = x.2 := List.mem_singleton.mp hid
      exact (h.drawn x List.mem_cons_self).1
    have hrest : Sim originalUrl userId rest v w' := by
      refine h.settle hracing (hurls.trans h.urls) (List.Subset.trans hissued hdrawn) hsame hcalls
        (List.sublist_cons_self _ _) hx ?_ (fun _ => h.decodes hne) ?_
      · intro m hm hmem
        exact (List.mem_cons.mp hmem).resolve_left hm
      · intro y hy
        obtain ⟨hmem, hfresh⟩ := h.drawn y (List.mem_cons_of_mem _ hy)
        have hyx : y.2 ≠ x.2 := fun heq => hxid (heq ▸ List.mem_map_of_mem hy)
        exact ⟨hmem, fresh_of_subset hissued (fresh_draw hfresh hyx call)⟩
    obtain ⟨cs, w'', hserial, hobserve⟩ := ih hrest fun _ => ⟨r, hrow, hrlive⟩
    exact ⟨bs ++ cs, w'', hrun.append hserial, hobserve⟩

end Sim

/-- Where every `UPDATE` finds an expired row, a live write lasts. -/
theorem noLiveWrite_of_dead (hstart : Start originalUrl userId db)
    (hrun : Run (Db.race encode now) (FindsExpired now originalUrl userId) db as t)
    (hdead : ¬ Live now (t.row originalUrl userId)) :
    Run (Db.race encode now) (NoLiveWrite encode now originalUrl userId) db as t := by
  refine hrun.of_splits ?_
  intro bs v e v' cs hbefore _ hstep hafter
  have hv := racing_run hbefore hstart.racing
  have hdead' : ¬ Live now (v'.row originalUrl userId) := fun hlive =>
    hdead (live_run hafter (hv.step hstep) hlive)
  obtain ⟨call, pc, hcall, -, hview⟩ := hv.view hstep
  generalize v'.row originalUrl userId = row' at hview hdead'
  cases hview with
  | look hpc hlook => trivial
  | revived hpc hurl hexp =>
    intro c hc hlive
    obtain rfl := Option.some.inj (hcall.symm.trans hc)
    exact hdead' ⟨_, rfl, hexp ▸ hlive⟩
  | inserted hpc hrow htaken hurl hexp =>
    intro c hc _ _ hlive
    obtain rfl := Option.some.inj (hcall.symm.trans hc)
    exact hdead' ⟨_, rfl, hexp ▸ hlive⟩
  | collided hpc hrow =>
    intro c _ hnone
    rw [hnone] at hrow
    cases hrow
  | taken hpc hrow htaken => exact fun _ _ _ hfree => absurd htaken hfree

theorem sequential_of_findsExpired (hstart : Start originalUrl userId db)
    (hrun : Run (Db.race encode now) (FindsExpired now originalUrl userId) db as t) (hended : AllEnded t)
    (hconflict : Run (Db.race encode now) (NoDeadConflict now originalUrl userId) db as t ∨
      ¬ Run (Db.race encode now) (NoLiveWrite encode now originalUrl userId) db as t) :
    Sequential encode now originalUrl userId db t := by
  rcases hconflict with hfree | hlively
  · -- nothing is kept
    refine Linearizable.of_simulation
      (R := fun v w => Racing originalUrl userId v ∧ Sim originalUrl userId [] v w) ?_ (hrun.both hfree)
      ⟨hstart.racing, Sim.start hstart⟩ ?_
    · rintro v e v' w ⟨hv, hsim⟩ ⟨hfinds, hno⟩ hstep
      obtain ⟨bs, w', delayed, hserial, hsim', hsame⟩ := hsim.step hv hfinds hstep
      exact ⟨bs, w', hserial, hv.step hstep, hsame hno ▸ hsim'⟩
    · rintro w ⟨-, hsim⟩
      exact hsim.complete encode hended fun hne => absurd rfl hne
  · -- what is kept comes after the live write
    have hlive : Live now (t.row originalUrl userId) := by
      by_contra hdead
      exact hlively (noLiveWrite_of_dead hstart hrun hdead)
    refine Linearizable.of_simulation
      (R := fun v w => Racing originalUrl userId v ∧ ∃ delayed, Sim originalUrl userId delayed v w) ?_ hrun
      ⟨hstart.racing, [], Sim.start hstart⟩ ?_
    · rintro v e v' w ⟨hv, delayed, hsim⟩ hfinds hstep
      obtain ⟨bs, w', delayed', hserial, hsim', -⟩ := hsim.step hv hfinds hstep
      exact ⟨bs, w', hserial, hv.step hstep, delayed', hsim'⟩
    · rintro w ⟨-, delayed, hsim⟩
      exact hsim.complete encode hended fun _ => hlive

/-- **Concurrent calls have the effect of a sequence exactly if** every reactivating `UPDATE` finds its row
expired, and every `INSERT` that runs into an expired row belongs to a run in which a live expiry is
written. -/
theorem sequential_iff (hstart : Start originalUrl userId db)
    (hrun : Run (Db.race encode now) Any db as t) (hended : AllEnded t) :
    Sequential encode now originalUrl userId db t ↔
      Run (Db.race encode now) (FindsExpired now originalUrl userId) db as t ∧
        (Run (Db.race encode now) (NoDeadConflict now originalUrl userId) db as t ∨
          ¬ Run (Db.race encode now) (NoLiveWrite encode now originalUrl userId) db as t) := by
  constructor
  · intro hseq
    have hserial := Serial.of_sequential hstart hseq
    refine ⟨findsExpired_of_serial hstart hrun hserial, ?_⟩
    by_cases hlively : Run (Db.race encode now) (NoLiveWrite encode now originalUrl userId) db as t
    · exact Or.inl (noDeadConflict_of_serial hstart hlively hserial)
    · exact Or.inr hlively
  · rintro ⟨hfinds, hconflict⟩
    exact sequential_of_findsExpired hstart hfinds hended hconflict

/-! ## Two calls -/

/-- Two calls of user 7 for one url. -/
def twoCalls (urls : List UrlRow) : Db :=
  { Db.init with
    urls
    issued := urls.map UrlRow.issue
    calls := [⟨"https://a.example", 7, some 20, .select⟩, ⟨"https://a.example", 7, some 30, .select⟩] }

/-- A link that has expired. -/
def expiredRow : UrlRow where
  urlId := 1
  shortCode := some "1"
  originalUrl := "https://a.example"
  userId := 7
  clickCount := 0
  expiresAt := some 5
  createdAt := 0
  updatedAt := 0

theorem start_twoCalls (urls : List UrlRow) (hids : (urls.map UrlRow.urlId).Nodup) :
    Start "https://a.example" 7 (twoCalls urls) where
  pending := rfl
  owned := by simp [twoCalls]
  ids := hids
  known := fun r hr => by
    rw [twoCalls, List.map_map]
    exact List.mem_map_of_mem (f := UrlRow.urlId) hr
  begins := by simp [twoCalls]

/-- Both have found no row; the second runs into the row of the first. -/
theorem sequential_of_two_inserts : ∃ t : Db, AllEnded t ∧ t.urls.length = 1 ∧
    Sequential base62Encode 9 "https://a.example" 7 (twoCalls []) t := by
  obtain ⟨t, hrun, ht⟩ := exists_run_of_exec (Db.race base62Encode 9)
    (fun db e => FindsExpired 9 "https://a.example" 7 db e ∧ NoDeadConflict 9 "https://a.example" 7 db e)
    (twoCalls []) [.select 0, .select 1, .transaction 0 1, .transaction 1 2]
    (fun t => AllEnded t ∧ t.urls.length = 1) (by decide)
  obtain ⟨hended, hlen⟩ := of_decide_eq_true ht
  have hany := hrun.mono (Q := Any) fun _ _ _ => trivial
  refine ⟨t, hended, hlen, (sequential_iff (start_twoCalls [] List.nodup_nil) hany hended).mpr ?_⟩
  exact ⟨hrun.mono fun _ _ h => h.1, Or.inl (hrun.mono fun _ _ h => h.2)⟩

/-- **A revived link is overwritten.** Both calls have found the expired row; the first is given the link
until 20, the second sets it to 30. -/
theorem second_revival_overwrites :
    ¬ ∀ (originalUrl : String) (userId : Uuid) (db : Db) (es : List CallEvent) (t : Db),
      Start originalUrl userId db → Run (Db.race base62Encode 9) Any db es t → AllEnded t →
        Sequential base62Encode 9 originalUrl userId db t := by
  intro hall
  obtain ⟨t, hrun, ht⟩ := exists_run_of_exec (Db.race base62Encode 9) Any (twoCalls [expiredRow])
    [.select 0, .select 1, .reactivate 0, .reactivate 1]
    (fun t => AllEnded t ∧ (∃ call ∈ t.calls[0]?, call.Given 9) ∧ ∃ call ∈ t.calls[1]?, call.Given 9)
    (by decide)
  obtain ⟨hended, ⟨call, hcall, hgiven⟩, call', hcall', hgiven'⟩ := of_decide_eq_true ht
  have hstart := start_twoCalls [expiredRow] (List.nodup_singleton _)
  have hserial := Serial.of_sequential hstart (hall _ _ _ _ t hstart hrun hended)
  exact absurd (hserial.unique 0 1 call call' hcall hcall' hgiven hgiven') (by decide)

end Bittuly.Urls
