import Bittuly.Urls.Deletion
import Bittuly.Urls.Explained
import Bittuly.Urls.Race

/-!
# Links just created

References: `services/url-service/src/handlers.rs` (`shorten_url`, `get_original_url`) and
`services/url-service/src/repository.rs` (`add_shorten_url`).

Once `shorten_url` has answered 201 the link is promised: the load test follows it at once. The database
and Redis only ever lead to its target, but the write path leaves L1 alone. What an instance has kept of
the code from before, "unknown" or an expiry that has passed, is served for up to three seconds more.

`PromiseSafe` says of a statement that it makes no promise against what is held at the time, and none of
a link whose target is no header value. It is all that is needed: under it every answer keeps the
promises, and without it a request can be sent that is not redirected.
-/

namespace Bittuly.Urls

open Cache Runs

/-! ## What is promised, and what would break it -/

/-- The link of an answer 201. -/
def AddCall.created (call : AddCall) : Option Url :=
  match call.pc with
  | .done (.ok (some url)) => some url
  | _ => none

/-- A row that is there, under a code that `shorten_url` has answered with 201. -/
def Promised (db : Db) (r : UrlRow) : Prop :=
  r ∈ db.urls ∧ ∃ call ∈ db.calls, ∃ url ∈ call.created, r.shortCode = some url.shortCode

instance (db : Db) : DecidablePred (Promised db) := fun _ =>
  inferInstanceAs (Decidable (_ ∧ ∃ call ∈ db.calls, ∃ url ∈ call.created, _))

/-- From now on, as long as the entry is served and the row lives, it is answered with the redirect. -/
def Serves (now : Instant) (r : UrlRow) (en : Entry Instant CachedUrlResult) : Prop :=
  ∀ t, now ≤ t → en.Live t → LiveAt t r.expiresAt →
    respond t en.value = .temporaryRedirect r.originalUrl

/-- What the instances hold for a code: L1 entries, and results of flights on their way there. -/
inductive Held (s : World) (c : String) : Entry Instant CachedUrlResult → Prop
  | l1 {i : ℕ} {en : Entry Instant CachedUrlResult} (hen : s.l1 i c = some en) : Held s c en
  | flight {i : ℕ} {f : Flight} {value : CachedUrlResult} {source : Source} {readAt : Instant}
      (hf : s.flights i c = some f) (hpc : f.pc = .insert value source readAt) :
      Held s c { value, deadline := none }

/-- No instance serves the code or looks it up. -/
def Unserved (s : World) (c : String) : Prop :=
  ∀ i, (s.l1 i).get s.now c = none ∧ s.flights i c = none

variable (encode : ℤ → String)

/-- A row that has expired, or whose target is a header value. -/
def Locatable (now : Instant) (r : UrlRow) : Prop :=
  LiveAt now r.expiresAt → locates r.originalUrl = true

/-- A statement promises a row only when it is locatable and everything held for its code serves it. -/
def PromiseSafe (s : World) : WorldEvent → Prop
  | .db e => ∀ db, s.db.step encode e = some db → ∀ r, Promised db r → ¬ Promised s.db r →
      Locatable s.now r ∧ ∀ c en, r.shortCode = some c → Held s c en → Serves s.now r en
  | _ => True

/-- The answers of a step redirect to every promised row that lives. -/
def Redirected (s : World) (e : WorldEvent) : Prop :=
  ∀ s', s.step encode e = some s' → ∀ a ∈ s'.answers.drop s.answers.length, ∀ r, Promised s.db r →
    r.shortCode = some a.shortCode → LiveAt s.now r.expiresAt →
    a.response = .temporaryRedirect r.originalUrl

/-- A request can be sent from here on and answered, by L1 or by a flight, that is not redirected although
its row is promised and lives. -/
def GetFails (s : World) : Prop :=
  ∃ r c i es u cs t, Promised s.db r ∧ r.shortCode = some c ∧
    Run (World.step encode) AllUp s es u ∧
    cs ⊆ [.redisGet i c true, .dbSelect i c .primary, .insert i c] ∧
    Run (World.step encode) AllUp u (.request i c :: cs) t ∧ t.db = s.db ∧ LiveAt t.now r.expiresAt ∧
    ∃ a, t.answers.getLast? = some a ∧ a.shortCode = c ∧
      a.response ≠ .temporaryRedirect r.originalUrl

/-! ## Values that serve a row -/

variable {encode} {s s' : World} {e : WorldEvent}

theorem Serves.mono {now now' : Instant} (hnow : now ≤ now') {r : UrlRow}
    {en : Entry Instant CachedUrlResult} (h : Serves now r en) : Serves now' r en :=
  fun t ht => h t (hnow.trans ht)

/-- The result of a flight serves a row also as an L1 entry. -/
theorem Serves.insert {now : Instant} {r : UrlRow} {value : CachedUrlResult}
    (h : Serves now r { value, deadline := none }) (deadline : Option Instant) :
    Serves now r { value, deadline } := by
  intro t ht _ hrow
  refine h t ht ?_ hrow
  intro d hd
  cases hd

theorem Locatable.mono {now now' : Instant} (hnow : now ≤ now') {r : UrlRow} (h : Locatable now r) :
    Locatable now' r :=
  fun hlive => h fun exp hexp hlt => hlive exp hexp (hlt.trans_le hnow)

/-- The target alone serves a locatable row. -/
theorem serves_target {now : Instant} {r : UrlRow} (h : Locatable now r) (deadline : Option Instant) :
    Serves now r { value := some (r.originalUrl, none), deadline } := by
  intro t ht _ hrow
  exact redirectTo_eq_iff.mpr ⟨h.mono ht hrow, rfl⟩

/-- So does an entry that is no longer served. -/
theorem serves_of_not_live {now : Instant} {en : Entry Instant CachedUrlResult} (hdead : ¬ en.Live now)
    (r : UrlRow) : Serves now r en := by
  intro t ht hlive _
  exact absurd (fun d hd => ht.trans_lt (hlive d hd)) hdead

/-- So does what the database returns of it. -/
theorem serves_row {now : Instant} {r : UrlRow} (h : Locatable now r) (deadline : Option Instant) :
    Serves now r { value := some (r.originalUrl, r.expiresAt), deadline } := by
  intro t ht _ hrow
  have hto : redirectTo r.originalUrl = .temporaryRedirect r.originalUrl :=
    redirectTo_eq_iff.mpr ⟨h.mono ht hrow, rfl⟩
  cases hexp : r.expiresAt with
  | none => exact hto
  | some exp => exact (if_neg (hrow exp hexp)).trans hto

namespace Promised

variable {db : Db} {r : UrlRow} {c : String}

/-- The database finds a promised row under its code. -/
theorem getOriginalUrl (hencode : Set.InjOn encode (Set.Ioo 0 (2 ^ 63))) (hstore : StoreInv encode db)
    (h : Promised db r) (hcode : r.shortCode = some c) :
    getOriginalUrl db.urls c = some (r.originalUrl, r.expiresAt) := by
  cases hfind : db.urls.find? fun r => r.shortCode = some c with
  | none =>
    have hnot := List.find?_eq_none.mp hfind r h.1
    exact absurd (decide_eq_true hcode) hnot
  | some r' =>
    have hcode' : r'.shortCode = some c := by simpa using List.find?_some hfind
    have hmem := List.mem_of_find?_eq_some hfind
    have hid : r'.urlId = r.urlId :=
      hstore.id_eq_of_code hencode hstore.current hmem hstore.current h.1 (hcode'.trans hcode.symm)
    obtain rfl : r' = r := List.inj_on_of_nodup_map hstore.table.ids hmem h.1 hid
    rw [Urls.getOriginalUrl, hfind]
    rfl

/-- A target committed under its code is that of the row. -/
theorem target_eq (hencode : Set.InjOn encode (Set.Ioo 0 (2 ^ 63))) (hstore : StoreInv encode db)
    (h : Promised db r) (hcode : r.shortCode = some c) {originalUrl : String}
    (hcommitted : Committed db c originalUrl) : originalUrl = r.originalUrl := by
  obtain ⟨_, -, hrow⟩ := hcommitted.theRow hencode hstore
  exact (hrow db.urls hstore.current r h.1 hcode).2.symm

end Promised

/-! ## One step -/

/-- Redis and the fills hold committed targets, L1 and the flights what serves the promised rows. -/
def fresh (s : World) : CacheProp where
  redis c en := Committed s.db c en.value
  l1 c en := ∀ r, Promised s.db r → r.shortCode = some c → Serves s.now r en
  fill f := Committed s.db f.fill.shortCode f.fill.originalUrl
  flight c _ value _ _ := ∀ r, Promised s.db r → r.shortCode = some c →
    Serves s.now r { value, deadline := none }

/-- The rules for a step that is not a statement. -/
theorem fresh_rules (hencode : Set.InjOn encode (Set.Ioo 0 (2 ^ 63))) (hstore : StoreInv encode s.db)
    (hlocatable : ∀ r, Promised s.db r → Locatable s.now r) (hup : AllUp s e) (hdb : s'.db = s.db)
    (hnow : s.now ≤ s'.now) :
    s.Rules e (fresh s) (fresh s') := by
  have hcommitted : ∀ {c originalUrl}, Committed s.db c originalUrl → Committed s'.db c originalUrl := by
    intro c originalUrl h
    rw [hdb]
    exact h
  have hserves : ∀ {c en}, (∀ r, Promised s.db r → r.shortCode = some c → Serves s.now r en) →
      ∀ r, Promised s'.db r → r.shortCode = some c → Serves s'.now r en := by
    intro c en h r hr hcode
    rw [hdb] at hr
    exact (h r hr hcode).mono hnow
  have hlocatable' : ∀ r, Promised s'.db r → Locatable s'.now r := by
    intro r hr
    rw [hdb] at hr
    exact (hlocatable r hr).mono hnow
  refine ⟨fun _ _ => hcommitted, fun _ _ => hserves, fun _ => hcommitted, fun _ _ _ _ _ => hserves,
    ?_, ?_, ?_, ?_, ?_⟩
  · intro k f en _ _ hf hen
    show Committed s'.db f.fill.shortCode en.value
    rw [Fill.entry_value hen]
    exact hcommitted hf
  · intro i c f en _ _ hen _
    apply hserves
    intro r hr hcode
    rw [hr.target_eq hencode hstore hcode hen]
    exact serves_target (hlocatable r hr) none
  · rintro i c f replica urls rfl - htable
    obtain rfl := AllUp.readTable_eq hup htable
    apply hserves
    intro r hr hcode
    rw [hr.getOriginalUrl hencode hstore hcode]
    exact serves_row (hlocatable r hr) none
  · rintro i c f replica urls originalUrl expiresAt - - htable hrow
    exact hcommitted (Committed.of_read (World.readTable_mem hstore htable) hrow)
  · rintro i c f value source readAt - - - h
    apply hserves
    intro r hr hcode
    exact (h r hr hcode).insert _

/-- Only statements change the database. -/
theorem World.Step.db_eq (hstep : s.Step encode e s') (hne : ∀ de, e ≠ .db de) : s'.db = s.db := by
  cases hstep with
  | @db de db hdb => exact absurd rfl (hne de)
  | _ => rfl

/-- The invariant of a run in which no promise is made against what is held. -/
structure FreshInv (encode : ℤ → String) (s : World) : Prop where
  store : StoreInv encode s.db
  locatable : ∀ r, Promised s.db r → Locatable s.now r
  caches : s.Sat (fresh s)

/-- A statement, which leaves the caches alone. -/
theorem FreshInv.statement (h : FreshInv encode s) {de : DbEvent} (hsafe : PromiseSafe encode s (.db de))
    {db : Db} (hdb : s.db.step encode de = some db) (dels : List PendingDel) :
    FreshInv encode { s with db, dels } := by
  have hstmt := Db.statement_of_step hdb
  have hhistory := (Grows.of_statement hstmt).history
  have hserves : ∀ c en, Held s c en →
      (∀ r, Promised s.db r → r.shortCode = some c → Serves s.now r en) →
      ∀ r, Promised db r → r.shortCode = some c → Serves s.now r en := by
    intro c en hheld hold r hr hcode
    by_cases hr' : Promised s.db r
    · exact hold r hr' hcode
    · exact (hsafe db hdb r hr hr').2 c en hcode hheld
  refine ⟨h.store.statement hstmt, ?_, ?_, ?_, ?_, ?_⟩
  · intro r hr
    by_cases hr' : Promised s.db r
    · exact h.locatable r hr'
    · exact (hsafe db hdb r hr hr').1
  · exact fun c en hen => Committed.mono hhistory (h.caches.redis c en hen)
  · exact fun i c en hen => hserves c en (.l1 hen) (h.caches.l1 i c en hen)
  · exact fun f hf => Committed.mono hhistory (h.caches.fills f hf)
  · intro i c f hf value source readAt hpc
    exact hserves c _ (.flight hf hpc) (h.caches.flights i c f hf value source readAt hpc)

theorem FreshInv.step (hencode : Set.InjOn encode (Set.Ioo 0 (2 ^ 63))) (h : FreshInv encode s)
    (hup : AllUp s e) (hsafe : PromiseSafe encode s e) (hstep : s.Step encode e s') :
    FreshInv encode s' := by
  by_cases hstatement : ∃ de, e = .db de
  · obtain ⟨de, rfl⟩ := hstatement
    cases hstep with
    | db hdb => exact h.statement hsafe hdb _
  · have hdb := hstep.db_eq fun de he => hstatement ⟨de, he⟩
    refine ⟨(hstep.store h.store).1, ?_, ?_⟩
    · intro r hr
      rw [hdb] at hr
      exact (h.locatable r hr).mono hstep.now_le
    · exact h.caches.step (fresh_rules hencode h.store h.locatable hup hdb hstep.now_le) hstep

theorem freshInv_init (now : Instant) : FreshInv encode (World.init now) :=
  ⟨storeInv_init, fun _ h => (by cases h.1), World.sat_init now _⟩

/-- Under the invariant the answers keep the promises. -/
theorem FreshInv.redirected (h : FreshInv encode s) (hup : AllUp s e) : Redirected encode s e := by
  intro s' hstep a ha r hr hcode hlive
  obtain ⟨new, hanswers, hnew⟩ := h.caches.step_answers (World.step_cases hstep)
  rw [hanswers, List.drop_left] at ha
  obtain ⟨-, -, hcause⟩ := hnew a ha
  generalize a.response = response at hcause
  cases hcause with
  | hit hp hentry => exact hp r hr hcode s.now le_rfl hentry hlive
  | ended _ _ hp => exact hp r hr hcode s.now le_rfl nofun hlive
  | failed =>
    obtain h' | ⟨-, -, hnever⟩ := hup
    · cases h'
    · exact absurd hcode (hnever _ h.store.current r hr.1)

/-! ## A promise against what is held -/

/-- A live L1 entry answers a request. -/
theorem answers_of_l1 {i : ℕ} {c : String} {en : Entry Instant CachedUrlResult}
    (hen : s.l1 i c = some en) (hlive : en.Live s.now) :
    ∃ t, Run (World.step encode) AllUp s [.request i c] t ∧ t.db = s.db ∧ t.now = s.now ∧
      ∃ a, t.answers.getLast? = some a ∧ a.shortCode = c ∧ a.response = respond s.now en.value := by
  have hstep : World.step encode s (.request i c) = some (s.answerWith i 1 c en.value) := by
    rw [World.step, World.request, TtlMap.get_of_live hen hlive]
  exact ⟨_, .single trivial hstep, rfl, rfl, _, List.getLast?_concat .., rfl, rfl⟩

/-- A flight that has its result answers its callers. -/
theorem answers_of_insert (encode : ℤ → String) {i : ℕ} {c : String} {f : Flight}
    {value : CachedUrlResult} {source : Source} {readAt : Instant} (hf : s.flights i c = some f)
    (hcallers : f.callers ≠ 0) (hpc : f.pc = .insert value source readAt) :
    ∃ t, Run (World.step encode) AllUp s [.insert i c] t ∧ t.db = s.db ∧ t.now = s.now ∧
      ∃ a, t.answers.getLast? = some a ∧ a.shortCode = c ∧ a.response = respond s.now value := by
  obtain ⟨k, hk⟩ := Nat.exists_eq_succ_of_ne_zero hcallers
  have hinsert : ∃ t, World.step encode s (.insert i c) = some t ∧ t.db = s.db ∧ t.now = s.now ∧
      t.answers = s.answers ++ List.replicate (k + 1)
        { shortCode := c, answeredAt := s.now, response := respond s.now value,
          committed := s.db.history.length } := by
    simp only [World.step, hf, hpc, hk]
    exact ⟨_, rfl, rfl, rfl, rfl⟩
  obtain ⟨t, hstep, hdb, hnow, hanswers⟩ := hinsert
  have hlast : t.answers.getLast? = some
      { shortCode := c, answeredAt := s.now, response := respond s.now value,
        committed := s.db.history.length } := by
    rw [hanswers, List.replicate_succ', ← List.append_assoc, List.getLast?_concat]
  exact ⟨t, .single trivial hstep, hdb, hnow, _, hlast, rfl, rfl⟩

/-- Without an L1 entry, a flight that has its result answers a request. -/
theorem answers_of_flight {i : ℕ} {c : String} {f : Flight} {value : CachedUrlResult} {source : Source}
    {readAt : Instant} (hl1 : s.l1 i c = none) (hf : s.flights i c = some f)
    (hpc : f.pc = .insert value source readAt) :
    ∃ t, Run (World.step encode) AllUp s [.request i c, .insert i c] t ∧ t.db = s.db ∧ t.now = s.now ∧
      ∃ a, t.answers.getLast? = some a ∧ a.shortCode = c ∧ a.response = respond s.now value := by
  have hrequest : World.step encode s (.request i c) =
      some (s.setFlight i c (some { f with callers := f.callers + 1 })) := by
    rw [World.step, World.request, TtlMap.get_of_none hl1]
    simp only [hf]
  obtain ⟨t, hrun, hdb, hnow, hanswer⟩ := answers_of_insert encode
    (World.setFlight_self s i c (some { f with callers := f.callers + 1 })) (Nat.succ_ne_zero _) hpc
  exact ⟨t, .cons trivial hrequest hrun, hdb, hnow, hanswer⟩

/-- A request against a held value that does not serve a promised row. -/
theorem getFails_of_held {r : UrlRow} {c : String} {en : Entry Instant CachedUrlResult}
    (hr : Promised s.db r) (hcode : r.shortCode = some c) (hheld : Held s c en)
    (hserves : ¬ Serves s.now r en) : GetFails encode s := by
  simp only [Serves, not_forall, exists_prop] at hserves
  obtain ⟨now, hle, hentry, hlive, hresponse⟩ := hserves
  -- the request is sent at the time `now`
  have htick : World.step encode s (.tick (now - s.now).toNat) = some { s with now } := by
    rw [World.step, Int.toNat_of_nonneg (sub_nonneg.mpr hle), add_sub_cancel]
  have hwait : Run (World.step encode) AllUp s [.tick (now - s.now).toNat] { s with now } :=
    .single trivial htick
  cases hheld with
  | @l1 i en hen =>
    have hu : World.l1 { s with now } i c = some en := hen
    obtain ⟨t, hrun, hdb, hnow, a, ha, hacode, hare⟩ := answers_of_l1 hu hentry
    refine ⟨r, c, i, _, _, [], t, hr, hcode, hwait, List.nil_subset _, hrun, hdb, ?_, a, ha, hacode,
      ?_⟩
    · rw [hnow]
      exact hlive
    · rw [hare]
      exact hresponse
  | @flight i f value source readAt hf hpc =>
    -- L1 may have evicted the code by then
    have hevict : Run (World.step encode) AllUp { s with now } [.evictL1 i c]
        (World.setL1 { s with now } i (TtlMap.remove (s.l1 i) c)) := .single trivial rfl
    have hl1 : (World.setL1 { s with now } i (TtlMap.remove (s.l1 i) c)).l1 i c = none := by
      rw [World.setL1_self]
      exact TtlMap.remove_self _ _
    have hflight : (World.setL1 { s with now } i (TtlMap.remove (s.l1 i) c)).flights i c = some f := hf
    obtain ⟨t, hrun, hdb, hnow, a, ha, hacode, hare⟩ := answers_of_flight hl1 hflight hpc
    refine ⟨r, c, i, _, _, [.insert i c], t, hr, hcode, hwait.append hevict,
      by simp, hrun,
      hdb, ?_, a, ha, hacode, ?_⟩
    · rw [hnow]
      exact hlive
    · rw [hare]
      exact hresponse

/-- The read of a flight has a result. -/
theorem result_of_dbSelect (encode : ℤ → String) {i : ℕ} {c : String} {f : Flight}
    (hf : s.flights i c = some f) (hpc : f.pc = .dbSelect) :
    ∃ t value, World.step encode s (.dbSelect i c .primary) = some t ∧ t.db = s.db ∧ t.now = s.now ∧
      t.flights i c = some { f with pc := .insert value .database s.now } := by
  have hstep : World.step encode s (.dbSelect i c .primary) = s.afterDbSelect i c f .primary := by
    simp only [World.step, hf, hpc, if_true]
  rw [hstep]
  unfold World.afterDbSelect
  simp only [World.readTable]
  cases hrow : getOriginalUrl s.db.urls c with
  | none => exact ⟨_, none, rfl, rfl, rfl, World.setFlight_self _ _ _ _⟩
  | some row => exact ⟨_, some row, rfl, rfl, rfl, World.setFlight_self _ _ _ _⟩

/-- A request that finds neither an L1 entry nor a flight is answered with some result. -/
theorem answers_of_miss (encode : ℤ → String) {i : ℕ} {c : String} (hl1 : s.l1 i c = none)
    (hidle : s.flights i c = none) :
    ∃ cs value t, cs ⊆ [.redisGet i c true, .dbSelect i c .primary, .insert i c] ∧
      Run (World.step encode) AllUp s (.request i c :: cs) t ∧ t.db = s.db ∧ t.now = s.now ∧
      ∃ a, t.answers.getLast? = some a ∧ a.shortCode = c ∧ a.response = respond s.now value := by
  have hrequest : World.step encode s (.request i c) = some (World.setFlight
      { s with ticket := s.ticket + 1 } i c
        (some { ticket := s.ticket, callers := 1, pc := .redisGet })) := by
    rw [World.step, World.request, TtlMap.get_of_none hl1]
    simp only [hidle]
  obtain ⟨u, hu, hudb, hunow, huf⟩ : ∃ u, World.step encode s (.request i c) = some u ∧ u.db = s.db ∧
      u.now = s.now ∧ u.flights i c = some { ticket := s.ticket, callers := 1, pc := .redisGet } :=
    ⟨_, hrequest, rfl, rfl, World.setFlight_self _ _ _ _⟩
  have hredisGet : World.step encode u (.redisGet i c true) = some (u.setFlight i c
      (some { ticket := s.ticket, callers := 1, pc := u.afterRedisGet c true })) := by
    simp only [World.step, huf, if_true]
  obtain ⟨v, hv, hvdb, hvnow, hvf⟩ : ∃ v, World.step encode u (.redisGet i c true) = some v ∧
      v.db = u.db ∧ v.now = u.now ∧
      v.flights i c = some { ticket := s.ticket, callers := 1, pc := u.afterRedisGet c true } :=
    ⟨_, hredisGet, rfl, rfl, World.setFlight_self _ _ _ _⟩
  unfold World.afterRedisGet at hvf
  split at hvf
  · -- Redis has the target
    obtain ⟨t, hrun, hdb, hnow, hanswer⟩ := answers_of_insert encode hvf one_ne_zero rfl
    rw [hvnow, hunow] at hanswer
    exact ⟨[.redisGet i c true, .insert i c], _, t, by simp, .cons trivial hu (.cons rfl hv hrun),
      hdb.trans (hvdb.trans hudb), hnow.trans (hvnow.trans hunow), hanswer⟩
  · obtain ⟨w, value, hw, hwdb, hwnow, hwf⟩ := result_of_dbSelect encode hvf rfl
    obtain ⟨t, hrun, hdb, hnow, hanswer⟩ := answers_of_insert encode hwf one_ne_zero rfl
    rw [hwnow, hvnow, hunow] at hanswer
    exact ⟨_, value, t, List.Subset.refl _,
      .cons trivial hu (.cons rfl hv (.cons (Or.inl rfl) hw hrun)),
      hdb.trans (hwdb.trans (hvdb.trans hudb)), hnow.trans (hwnow.trans (hvnow.trans hunow)), hanswer⟩

/-- A request for a promised row that lives, but whose target is no header value. -/
theorem getFails_of_not_locatable {r : UrlRow} (hr : Promised s.db r)
    (hlocatable : ¬ Locatable s.now r) : GetFails encode s := by
  obtain ⟨hlive, hlocates⟩ := Classical.not_imp.mp hlocatable
  obtain ⟨-, call, -, url, -, hcode⟩ := id hr
  -- L1 has evicted the code, and nobody waits for it
  have hclear : Run (World.step encode) AllUp s [.evictL1 0 url.shortCode, .abandon 0 url.shortCode]
      ((s.setL1 0 (TtlMap.remove (s.l1 0) url.shortCode)).setFlight 0 url.shortCode none) :=
    .cons trivial rfl (.single trivial rfl)
  have hl1 : ((s.setL1 0 (TtlMap.remove (s.l1 0) url.shortCode)).setFlight 0 url.shortCode none).l1 0
      url.shortCode = none := by
    show (s.setL1 0 (TtlMap.remove (s.l1 0) url.shortCode)).l1 0 url.shortCode = none
    rw [World.setL1_self]
    exact TtlMap.remove_self _ _
  obtain ⟨cs, value, t, hcs, hrun, hdb, hnow, a, ha, hacode, hare⟩ :=
    answers_of_miss encode hl1 (World.setFlight_self _ _ _ _)
  refine ⟨r, url.shortCode, 0, _, _, cs, t, hr, hcode, hclear, hcs, hrun, hdb, ?_, a, ha, hacode, ?_⟩
  · rw [hnow]
    exact hlive
  · rw [hare]
    intro hredirect
    exact hlocates (respond_redirect hredirect).1

/-- A step against the condition. -/
theorem getFails_of_not_safe (hstep : s.step encode e = some s') (hsafe : ¬ PromiseSafe encode s e) :
    GetFails encode s' := by
  cases e with
  | db de =>
    simp only [PromiseSafe, not_forall, exists_prop] at hsafe
    obtain ⟨db, hdb, r, hr, -, hbad⟩ := hsafe
    rw [World.step, hdb] at hstep
    obtain rfl := Option.some.inj hstep
    by_cases hlocatable : Locatable s.now r
    · obtain ⟨c, hbad⟩ := not_forall.mp fun h => hbad ⟨hlocatable, h⟩
      simp only [not_forall] at hbad
      obtain ⟨en, hcode, hheld, hserves⟩ := hbad
      refine getFails_of_held hr hcode ?_ hserves
      -- the statement left the caches alone
      cases hheld with
      | l1 hen => exact .l1 hen
      | flight hf hpc => exact .flight hf hpc
    · exact getFails_of_not_locatable hr hlocatable
  | _ => exact absurd trivial hsafe

/-! ## Codes that are not being requested -/

/-- What is held of an unserved code is dead. -/
theorem Unserved.serves {c : String} (h : Unserved s c) {en : Entry Instant CachedUrlResult}
    (hheld : Held s c en) (r : UrlRow) : Serves s.now r en := by
  cases hheld with
  | @l1 i en hen =>
    refine serves_of_not_live (fun hlive => ?_) r
    have hget := (h i).1
    rw [TtlMap.get_of_live hen hlive] at hget
    cases hget
  | @flight i f value source readAt hf hpc =>
    rw [(h i).2] at hf
    cases hf

/-- A statement whose targets are header values, and whose codes no instance serves or looks up, meets the
condition. So it is three seconds after the last request for them. -/
theorem promiseSafe_of_unserved {de : DbEvent}
    (h : ∀ db, s.db.step encode de = some db → ∀ r, Promised db r → ¬ Promised s.db r →
      Locatable s.now r ∧ ∀ c, r.shortCode = some c → Unserved s c) : PromiseSafe encode s (.db de) := by
  intro db hdb r hr hr'
  obtain ⟨hlocatable, hunserved⟩ := h db hdb r hr hr'
  exact ⟨hlocatable, fun c en hcode hheld => (hunserved c hcode).serves hheld r⟩

/-- Statements before the first request meet the condition while every target is a header value. -/
theorem promiseSafe_of_statements {P : World → WorldEvent → Prop} {des : List DbEvent}
    (hlocates : ∀ s e, P s e → ∀ s', s.step encode e = some s' →
      ∀ r ∈ s'.db.urls, locates r.originalUrl = true)
    (hunserved : ∀ c, Unserved s c) (hrun : Run (World.step encode) P s (des.map .db) s') :
    Run (World.step encode) (PromiseSafe encode) s (des.map .db) s' := by
  induction des generalizing s with
  | nil =>
    cases hrun
    exact .nil _
  | cons de des ih =>
    cases hrun with
    | cons hP hstep hrest =>
      refine .cons (promiseSafe_of_unserved ?_) hstep (ih ?_ hrest)
      · intro db hdb r hr _
        refine ⟨fun _ => ?_, fun c _ => hunserved c⟩
        refine hlocates _ _ hP _ hstep r ?_
        rw [World.step, hdb] at hstep
        obtain rfl := Option.some.inj hstep
        exact hr.1
      · cases World.step_cases hstep with
        | db _ => exact hunserved

/-! ## Runs -/

/-- **When a link works as soon as it is created.** In a run in which no promise is made against what is
held, or of a target that is no header value, every answer keeps the promises; and after a statement that
makes one, a request can be sent that is not redirected. -/
theorem works_once_created (hencode : Set.InjOn encode (Set.Ioo 0 (2 ^ 63))) {now : Instant}
    {es : List WorldEvent} (hrun : Run (World.step encode) AllUp (World.init now) es s) :
    (Run (World.step encode) (PromiseSafe encode) (World.init now) es s →
      Run (World.step encode) (Redirected encode) (World.init now) es s) ∧
    ∀ e s', s.step encode e = some s' → ¬ PromiseSafe encode s e → GetFails encode s' := by
  constructor
  · intro hsafe
    refine (hrun.both hsafe).of_splits ?_
    intro bs u e u' cs hbefore hcond hstep hafter
    have hinv : FreshInv encode u := hbefore.induct
      (fun _ _ _ h hP hs => h.step hencode hP.1 hP.2 (World.step_cases hs)) (freshInv_init now)
    exact hinv.redirected hcond.1
  · intro e s' hstep hsafe
    exact getFails_of_not_safe hstep hsafe

/-- A link that is requested right after it was created. -/
theorem works_once_created_of_request :
    ∃ es s, Run (World.step base62Encode) (Redirected base62Encode) (World.init 0) es s ∧
      s.answers.map (fun a => a.response) = [.temporaryRedirect "https://a.example"] := by
  obtain ⟨u, hcreate, hu⟩ := exists_run_of_exec (World.step base62Encode)
    (fun s e => AllUp s e ∧
      ∀ s' ∈ s.step base62Encode e, ∀ r ∈ s'.db.urls, locates r.originalUrl = true)
    (World.init 0) (World.shortenEvents 0 1 "https://a.example" none)
    (fun u => (exec (World.step base62Encode) AllUp u (World.missEvents 0 "1" ++ [.insert 0 "1"])).any
      fun s => s.answers.map (fun a => a.response) = [.temporaryRedirect "https://a.example"])
    (by decide)
  simp only [Option.any_eq_true, decide_eq_true_eq] at hu
  obtain ⟨s, hs, hanswers⟩ := hu
  have hrequest := run_of_exec hs
  have hsafe : Run (World.step base62Encode) (PromiseSafe base62Encode) (World.init 0)
      (List.map WorldEvent.db [.call "https://a.example" 7 none, .select 0 0, .insert 0 1 0, .assign 0,
        .commit 0 .ok]) u :=
    promiseSafe_of_statements (fun _ _ h => h.2) (fun _ _ => ⟨rfl, rfl⟩) hcreate
  have hsafe' : Run (World.step base62Encode) (PromiseSafe base62Encode) u
      (World.missEvents 0 "1" ++ [.insert 0 "1"]) s := by
    refine hrequest.mono_of_mem ?_
    intro e he t _
    simp only [World.missEvents, List.cons_append, List.nil_append, List.mem_cons, List.not_mem_nil,
      or_false] at he
    rcases he with rfl | rfl | rfl | rfl
    all_goals trivial
  exact ⟨_, s, (works_once_created base62Encode_injOn
    ((hcreate.mono fun _ _ h => h.1).append hrequest)).1 (hsafe.append hsafe'), hanswers⟩

/-- The row of that link. -/
def freshRow : UrlRow where
  urlId := 1
  shortCode := some "1"
  originalUrl := "https://a.example"
  userId := 7
  clickCount := 0
  expiresAt := none
  createdAt := 0
  updatedAt := 0

/-- **An early request hides a new link.** The code is requested before it is assigned, and L1 keeps the
404; the link is created, and the request right after it is still answered 404. -/
theorem early_request_hides_link :
    ¬ ∀ (es : List WorldEvent) (s : World),
      Run (World.step base62Encode) (fun s e => AllUp s e ∧ AtFirst e) (World.init 0) es s →
      Run (World.step base62Encode) (Redirected base62Encode) (World.init 0) es s := by
  obtain ⟨u, hcreate, hu⟩ := exists_run_of_exec (World.step base62Encode)
    (fun s e => AllUp s e ∧ AtFirst e) (World.init 0)
    (World.missEvents 0 "1" ++ [.insert 0 "1"] ++ World.shortenEvents 0 1 "https://a.example" none)
    (fun u => Promised u.db freshRow &&
      (exec (World.step base62Encode) (fun s e => AllUp s e ∧ AtFirst e) u [.request 0 "1"]).any
        fun s => s.answers.drop u.answers.length = [⟨⟨"1", 0, .notFound⟩, 2⟩]) (by decide)
  simp only [Bool.and_eq_true, Option.any_eq_true, decide_eq_true_eq] at hu
  obtain ⟨hpromised, s, hs, hanswers⟩ := hu
  have hrequest := run_of_exec hs
  intro hall
  cases (hall _ s (hcreate.append hrequest)).rest hcreate with
  | cons hredirected hstep hrest =>
    cases hrest
    have hlive : LiveAt u.now freshRow.expiresAt := by
      intro exp hexp
      cases hexp
    have h307 := hredirected s hstep _ (hanswers ▸ List.mem_singleton_self _) freshRow hpromised rfl hlive
    cases h307

end Bittuly.Urls
