import Bittuly.Urls.Cache

/-!
# Cached and uncached redirects

One instance answers requests one after the other over a table that does not change. `uncached` is the
answer read off the table. The service agrees with it except in three situations. The request is
`Stale`: the row has expired and the answer comes from an entry without an expiry, one of Redis or one
that L1 took from Redis; Redis TTLs are whole seconds and L1 keeps an entry for three more, so it does
occur. Or the code holds U+0000, which Postgres refuses (503). Or the row lives and its target is no
header value (500).
-/

namespace Bittuly.Urls

open Cache Runs

/-- One instance with its Redis, between two requests. -/
structure Service where
  now : Instant
  l1 : L1Cache
  redis : Redis
  /-- The cache-fill task of the last request. -/
  fill : Option Fill
  answers : List Answer

inductive ServiceEvent
  | get (shortCode : String) (now : Instant)
  | fill (now : Instant)
  | evictL1 (shortCode : String)
  | evictRedis (shortCode : String)
deriving DecidableEq, Repr

variable (urls : List UrlRow)

/-- The answer without caches. -/
def uncached (shortCode : String) (now : Instant) : Response :=
  match getOriginalUrl urls shortCode with
  | none => .notFound
  | some (originalUrl, expiresAt) =>
    if ∃ exp ∈ expiresAt, exp < now then .gone else .temporaryRedirect originalUrl

/-- The row of this code has expired. -/
def Expired (shortCode : String) (now : Instant) : Prop :=
  ∃ originalUrl exp, getOriginalUrl urls shortCode = some (originalUrl, some exp) ∧ exp < now

namespace Service

/-- Empty caches. -/
def init (now : Instant) : Service where
  now := now
  l1 := .empty
  redis := .empty
  fill := none
  answers := []

/-- The future that `try_get_with` runs on a miss, with the fill it spawns; `none` when the `SELECT`
fails, which it does for a code with U+0000. -/
def fetch (s : Service) (shortCode : String) (now : Instant) :
    Option (CachedUrlResult × Option Fill) :=
  match s.redis.get now shortCode with
  | some originalUrl => some (some (originalUrl, none), none)
  | none =>
    if hasNul shortCode then none else
      match getOriginalUrl urls shortCode with
      | some (originalUrl, expiresAt) =>
        some (some (originalUrl, expiresAt), some { shortCode, originalUrl, expiresAt })
      | none => some (none, none)

/-- `try_get_with`: the result or the error, the cache and the fill it spawned. -/
def tryGetWith (s : Service) (shortCode : String) (now : Instant) :
    Option CachedUrlResult × L1Cache × Option Fill :=
  match s.l1.get now shortCode with
  | some value => (some value, s.l1, none)
  | none =>
    match s.fetch urls shortCode now with
    | some (value, fill) => (some value, s.l1.insert now shortCode value, fill)
    -- `Err` is not cached
    | none => (none, s.l1, none)

/-- The answer to what `try_get_with` returned. -/
def respondTo (now : Instant) (result : Option CachedUrlResult) : Response :=
  result.elim .serviceUnavailable (respond now)

/-- `get_original_url`. -/
def getOriginalUrl (s : Service) (shortCode : String) (now : Instant) : Service :=
  let (result, l1, fill) := s.tryGetWith urls shortCode now
  let response := respondTo now result
  { s with
    now
    l1 := l1.afterResponse shortCode response
    fill
    answers := s.answers ++ [{ shortCode, answeredAt := now, response }] }

/-- One request, cache fill or eviction. A request starts when the fill of the one before is done. -/
def step (s : Service) : ServiceEvent → Option Service
  | .get shortCode now =>
    -- requests come after the fill of the one before
    if s.now ≤ now ∧ s.fill = none then some (s.getOriginalUrl urls shortCode now) else none
  | .fill now =>
    match s.fill with
    | some f => if s.now ≤ now then some { s with now, redis := f.run s.redis now, fill := none }
      else none
    | none => none
  | .evictL1 shortCode => some { s with l1 := TtlMap.remove s.l1 shortCode }
  | .evictRedis shortCode => some { s with redis := TtlMap.remove s.redis shortCode }

/-- Every answer so far is the uncached one. -/
def Agrees (s : Service) : Prop :=
  ∀ a ∈ s.answers, a.response = uncached urls a.shortCode a.answeredAt

/-- The row has expired, and the request finds an entry without an expiry: in L1, or in Redis when L1
has none. -/
def Stale (s : Service) : ServiceEvent → Prop
  | .get shortCode now =>
    Expired urls shortCode now ∧
      ((∃ originalUrl, s.l1.get now shortCode = some (some (originalUrl, none))) ∨
        s.l1.get now shortCode = none ∧ (s.redis.get now shortCode).isSome)
  | _ => False

/-- The target of a row that lives is a header value. -/
def Locatable (shortCode : String) (now : Instant) : Prop :=
  ∀ originalUrl expiresAt, Urls.getOriginalUrl urls shortCode = some (originalUrl, expiresAt) →
    (∀ exp ∈ expiresAt, now ≤ exp) → locates originalUrl = true

/-- The code of a request holds no U+0000, the target of a row that lives is a header value, and the
request is not stale. -/
def Answerable (s : Service) : ServiceEvent → Prop
  | .get shortCode now =>
    hasNul shortCode = false ∧ Locatable urls shortCode now ∧ ¬ s.Stale urls (.get shortCode now)
  | _ => True

end Service

/-! ## What the caches hold -/

variable {urls}

/-- A value of the table, or a target of the table without its expiry. -/
def Cached (urls : List UrlRow) (shortCode : String) (value : CachedUrlResult) : Prop :=
  value = getOriginalUrl urls shortCode ∨
    ∃ originalUrl exp, getOriginalUrl urls shortCode = some (originalUrl, exp) ∧
      value = some (originalUrl, none)

/-- Both caches and the fill hold values of the table, under codes that Postgres takes. -/
structure Faithful (urls : List UrlRow) (s : Service) : Prop where
  l1 : TtlMap.All (fun c e => hasNul c = false ∧ Cached urls c e.value) s.l1
  redis : TtlMap.All
    (fun c e => hasNul c = false ∧ ∃ exp, getOriginalUrl urls c = some (e.value, exp)) s.redis
  fill : ∀ f ∈ s.fill, hasNul f.shortCode = false ∧
    getOriginalUrl urls f.shortCode = some (f.originalUrl, f.expiresAt)

/-- The answer to a cached value is the uncached one, unless the row lives and its target is no header
value, or the value dropped the expiry of a row that has expired. -/
theorem respond_eq_uncached_iff {shortCode : String} {value : CachedUrlResult} {now : Instant}
    (h : Cached urls shortCode value) :
    respond now value = uncached urls shortCode now ↔
      Service.Locatable urls shortCode now ∧
        ¬ (Expired urls shortCode now ∧ ∃ originalUrl, value = some (originalUrl, none)) := by
  unfold uncached Expired Service.Locatable
  rcases h with rfl | ⟨originalUrl, exp, hrow, rfl⟩
  · cases hget : getOriginalUrl urls shortCode with
    | none => simp [respond]
    | some row =>
      obtain ⟨originalUrl, exp⟩ := row
      cases exp with
      | none => simp [respond, redirectTo_eq_iff]
      | some exp =>
        by_cases hexp : exp < now
        · simp [respond, hexp]
        · simp [respond, hexp, redirectTo_eq_iff, not_lt.mp hexp]
  · rw [hrow]
    cases exp with
    | none => simp [respond, redirectTo_eq_iff]
    | some exp =>
      by_cases hexp : exp < now
      · simp [respond, hexp, redirectTo_ne_gone]
      · simp [respond, hexp, redirectTo_eq_iff, not_lt.mp hexp]

namespace Faithful

variable {s s' : Service}

/-- The database side of a miss fails, or finds a value of the table. -/
theorem fetch (h : Faithful urls s) {shortCode : String} {now : Instant} {value : CachedUrlResult}
    {fill : Option Fill} (hfetch : s.fetch urls shortCode now = some (value, fill)) :
    (hasNul shortCode = false ∧ Cached urls shortCode value) ∧
      ∀ f ∈ fill, hasNul f.shortCode = false ∧
        getOriginalUrl urls f.shortCode = some (f.originalUrl, f.expiresAt) := by
  unfold Service.fetch at hfetch
  split at hfetch
  · rename_i originalUrl hredis
    obtain ⟨rfl, rfl⟩ := Prod.mk.inj (Option.some.inj hfetch)
    obtain ⟨e, he, rfl, -⟩ := TtlMap.get_eq_some hredis
    obtain ⟨hnul, exp, hrow⟩ := h.redis _ e he
    exact ⟨⟨hnul, Or.inr ⟨e.value, exp, hrow, rfl⟩⟩, nofun⟩
  · split at hfetch
    · cases hfetch
    · rename_i hnul
      have hnul : hasNul shortCode = false := Bool.not_eq_true _ ▸ hnul
      split at hfetch
      · rename_i originalUrl exp hrow
        obtain ⟨rfl, rfl⟩ := Prod.mk.inj (Option.some.inj hfetch)
        refine ⟨⟨hnul, Or.inl hrow.symm⟩, ?_⟩
        intro f hf
        rw [← Option.some.inj hf]
        exact ⟨hnul, hrow⟩
      · rename_i hrow
        obtain ⟨rfl, rfl⟩ := Prod.mk.inj (Option.some.inj hfetch)
        exact ⟨⟨hnul, Or.inl hrow.symm⟩, nofun⟩

/-- It fails for the codes with U+0000. -/
theorem fetch_eq_none_iff (h : Faithful urls s) {shortCode : String} {now : Instant} :
    s.fetch urls shortCode now = none ↔ hasNul shortCode = true := by
  constructor
  · intro hfetch
    unfold Service.fetch at hfetch
    split at hfetch
    · cases hfetch
    · split at hfetch
      · assumption
      · split at hfetch <;> cases hfetch
  · intro hnul
    cases hfetch : s.fetch urls shortCode now with
    | none => rfl
    | some result =>
      obtain ⟨⟨hfalse, -⟩, -⟩ := h.fetch hfetch
      rw [hnul] at hfalse
      cases hfalse

/-- What `try_get_with` leaves behind. -/
theorem tryGetWith (h : Faithful urls s) (shortCode : String) (now : Instant) :
    TtlMap.All (fun c e => hasNul c = false ∧ Cached urls c e.value)
        (s.tryGetWith urls shortCode now).2.1 ∧
      ∀ f ∈ (s.tryGetWith urls shortCode now).2.2, hasNul f.shortCode = false ∧
        getOriginalUrl urls f.shortCode = some (f.originalUrl, f.expiresAt) := by
  unfold Service.tryGetWith
  split
  · exact ⟨h.l1, nofun⟩
  · split
    · rename_i value fill hfetch
      obtain ⟨hvalue, hfill⟩ := h.fetch hfetch
      exact ⟨L1Cache.insert_all h.l1 hvalue, hfill⟩
    · exact ⟨h.l1, nofun⟩

/-- What `try_get_with` returns: an error exactly for the codes with U+0000. -/
theorem tryGetWith_cases (h : Faithful urls s) (shortCode : String) (now : Instant) :
    hasNul shortCode = true ∧ (s.tryGetWith urls shortCode now).1 = none ∨
      hasNul shortCode = false ∧ ∃ value, (s.tryGetWith urls shortCode now).1 = some value ∧
        Cached urls shortCode value := by
  unfold Service.tryGetWith
  split
  · rename_i value hl1
    obtain ⟨e, he, rfl, -⟩ := TtlMap.get_eq_some hl1
    obtain ⟨hnul, hcached⟩ := h.l1 _ e he
    exact Or.inr ⟨hnul, _, rfl, hcached⟩
  · split
    · rename_i value fill hfetch
      obtain ⟨⟨hnul, hcached⟩, -⟩ := h.fetch hfetch
      exact Or.inr ⟨hnul, _, rfl, hcached⟩
    · rename_i hfetch
      exact Or.inl ⟨h.fetch_eq_none_iff.mp hfetch, rfl⟩

/-- For an expired row the value drops the expiry exactly in the stale situation. -/
theorem dropped_iff_stale {shortCode : String} {now : Instant} (hnul : hasNul shortCode = false)
    (hexpired : Expired urls shortCode now) :
    (∃ originalUrl, (s.tryGetWith urls shortCode now).1 = some (some (originalUrl, none))) ↔
      s.Stale urls (.get shortCode now) := by
  obtain ⟨target, exp, hrow, hlt⟩ := id hexpired
  simp only [Service.Stale, hexpired, true_and, Service.tryGetWith]
  cases hl1 : s.l1.get now shortCode with
  | some value => simp
  | none =>
    simp only [Service.fetch]
    cases hredis : s.redis.get now shortCode with
    | some originalUrl => simp
    | none => simp [hrow, hnul]

/-- **One request** answers as the table does exactly when it is answerable. -/
theorem response_iff (h : Faithful urls s) (shortCode : String) (now : Instant) :
    Service.respondTo now (s.tryGetWith urls shortCode now).1 = uncached urls shortCode now ↔
      s.Answerable urls (.get shortCode now) := by
  simp only [Service.Answerable]
  rcases h.tryGetWith_cases shortCode now with ⟨hnul, hnone⟩ | ⟨hnul, value, hvalue, hcached⟩
  · rw [hnone, hnul]
    simp only [Service.respondTo, Option.elim_none, Bool.true_eq_false, false_and, iff_false]
    unfold uncached
    split
    · exact nofun
    · split
      · exact nofun
      · exact nofun
  · rw [hvalue, hnul, Service.respondTo, Option.elim_some, respond_eq_uncached_iff hcached,
      and_iff_right rfl]
    refine and_congr_right fun _ => not_congr ?_
    constructor
    · rintro ⟨hexpired, originalUrl, rfl⟩
      exact (dropped_iff_stale hnul hexpired).mp ⟨originalUrl, hvalue⟩
    · intro hstale
      obtain ⟨originalUrl, hdropped⟩ := (dropped_iff_stale hnul hstale.1).mpr hstale
      rw [hvalue] at hdropped
      exact ⟨hstale.1, originalUrl, Option.some.inj hdropped⟩

/-- Every step keeps the caches faithful. -/
theorem step (h : Faithful urls s) (e : ServiceEvent) (hstep : s.step urls e = some s') :
    Faithful urls s' := by
  cases e with
  | get shortCode now =>
    simp only [Service.step] at hstep
    split at hstep
    · obtain rfl := Option.some.inj hstep
      obtain ⟨hl1, hfill⟩ := h.tryGetWith shortCode now
      exact ⟨L1Cache.afterResponse_all hl1 _ _, h.redis, hfill⟩
    · cases hstep
  | fill now =>
    simp only [Service.step] at hstep
    split at hstep
    · rename_i f hf
      split at hstep
      · obtain rfl := Option.some.inj hstep
        obtain ⟨hnul, hrow⟩ := h.fill f hf
        refine ⟨h.l1, Fill.run_all h.redis fun e he => ⟨hnul, ?_⟩, nofun⟩
        rw [Fill.entry_value he]
        exact ⟨f.expiresAt, hrow⟩
      · cases hstep
    · cases hstep
  | evictL1 shortCode =>
    obtain rfl := Option.some.inj hstep
    exact ⟨TtlMap.All.remove h.l1 _, h.redis, h.fill⟩
  | evictRedis shortCode =>
    obtain rfl := Option.some.inj hstep
    exact ⟨h.l1, TtlMap.All.remove h.redis _, h.fill⟩

/-- A step keeps the answers right exactly when it is answerable. -/
theorem agrees_iff (h : Faithful urls s) (e : ServiceEvent) (hstep : s.step urls e = some s') :
    s'.Agrees urls ↔ s.Agrees urls ∧ s.Answerable urls e := by
  cases e with
  | get shortCode now =>
    simp only [Service.step] at hstep
    split at hstep
    · obtain rfl := Option.some.inj hstep
      rw [← h.response_iff shortCode now]
      simp only [Service.Agrees, Service.getOriginalUrl, List.forall_mem_append,
        List.forall_mem_singleton]
    · cases hstep
  | fill now =>
    simp only [Service.step] at hstep
    split at hstep
    · split at hstep
      · obtain rfl := Option.some.inj hstep
        simp [Service.Agrees, Service.Answerable]
      · cases hstep
    · cases hstep
  | evictL1 shortCode =>
    obtain rfl := Option.some.inj hstep
    simp [Service.Agrees, Service.Answerable]
  | evictRedis shortCode =>
    obtain rfl := Option.some.inj hstep
    simp [Service.Agrees, Service.Answerable]

end Faithful

theorem faithful_init (now : Instant) : Faithful urls (Service.init now) :=
  ⟨TtlMap.All.empty, TtlMap.All.empty, nofun⟩

/-- **When the cached redirect agrees with the uncached one.** Over any table, all answers of a run are
those of the table exactly when every request of the run is answerable. -/
theorem agrees_iff_answerable {now : Instant} {es : List ServiceEvent} {s : Service}
    (hrun : Run (Service.step urls) Any (Service.init now) es s) :
    s.Agrees urls ↔ Run (Service.step urls) (Service.Answerable urls) (Service.init now) es s := by
  have hiff := hrun.iff_of_step (I := Faithful urls) (G := Service.Agrees urls)
    (Q := Service.Answerable urls) (fun _ e _ h _ hstep => h.step e hstep)
    (fun _ e _ h _ hstep => h.agrees_iff e hstep) (faithful_init now)
  have hstart : (Service.init now).Agrees urls := by
    intro a ha
    cases ha
  rw [hiff]
  exact and_iff_right hstart

/-- A link that expires at 10.5 s. -/
def expiringRow : UrlRow where
  urlId := 1
  shortCode := some "1"
  originalUrl := "https://a.example"
  userId := 7
  clickCount := 0
  expiresAt := some 10500000000
  createdAt := 0
  updatedAt := 0

/-- Requests answered by the table, by L1, by Redis and by the table again. -/
theorem agrees_iff_answerable_of_requests : ∃ s : Service, s.answers.length = 4 ∧
    Run (Service.step [expiringRow]) (Service.Answerable [expiringRow]) (Service.init 0)
      [.get "1" 8000000000, .fill 8100000000, .get "1" 9000000000, .evictL1 "1", .get "1" 9500000000,
        .evictL1 "1", .evictRedis "1", .get "1" 10700000000] s := by
  obtain ⟨s, hrun, hs⟩ := exists_run_of_exec (Service.step [expiringRow]) Any (Service.init 0)
    [.get "1" 8000000000, .fill 8100000000, .get "1" 9000000000, .evictL1 "1", .get "1" 9500000000,
      .evictL1 "1", .evictRedis "1", .get "1" 10700000000]
    (fun s => s.answers.length = 4 && s.answers.all fun a =>
      a.response = uncached [expiringRow] a.shortCode a.answeredAt) (by decide)
  simp only [Bool.and_eq_true, decide_eq_true_eq, List.all_eq_true] at hs
  obtain ⟨hlength, hagrees⟩ := hs
  exact ⟨s, hlength, (agrees_iff_answerable hrun).mp hagrees⟩

/-- **A redirect after the expiry.** The fill at 9.9 s stores the link for one second, L1 evicts it, and
Redis answers at 10.7 s. -/
theorem redirect_after_expiry :
    ¬ ∀ (es : List ServiceEvent) (s : Service),
      Run (Service.step [expiringRow]) Any (Service.init 0) es s → s.Agrees [expiringRow] := by
  obtain ⟨s, hrun, hs⟩ := exists_run_of_exec (Service.step [expiringRow]) Any (Service.init 0)
    [.get "1" 9200000000, .fill 9900000000, .evictL1 "1", .get "1" 10700000000]
    (fun s => ⟨"1", 10700000000, .temporaryRedirect "https://a.example"⟩ ∈ s.answers) (by decide)
  intro hall
  have hmem : (⟨"1", 10700000000, .temporaryRedirect "https://a.example"⟩ : Answer) ∈ s.answers := by
    simpa using hs
  exact absurd (hall _ s hrun _ hmem) (by decide)

end Bittuly.Urls
