import Bittuly.Urls.Redirect
import Bittuly.Urls.System

/-!
# Requests one after the other

`Service` answers a request in one step; in `World` a request is a flight of up to four steps, between
which anything may happen. When nothing does, the two agree: every run of `Service` is a run of `World`
that uses one instance, with Redis up and the replica equal to the primary. Reads fail in both for the
codes that Postgres refuses, which no row has.
-/

namespace Bittuly.Urls

open Cache Runs

variable (encode : ℤ → String)

/-- One instance of the world, as a service of its own. -/
def World.service (w : World) (i : ℕ) : Service where
  now := w.now
  l1 := w.l1 i
  redis := w.redis
  fill := w.fills.head?.map PendingFill.fill
  answers := w.answers.map LoggedAnswer.toAnswer

/-- The instance has no flight, and is the service over this table. -/
structure Represents (urls : List UrlRow) (i : ℕ) (s : Service) (w : World) : Prop where
  service : w.service i = s
  urls : w.db.urls = urls
  /-- No row has ever had a code that Postgres refuses. -/
  codes : ∀ c, hasNul c = true → Refused w c
  idle : ∀ c, w.flights i c = none
  oneFill : w.fills.length ≤ 1

/-- The same with one flight, of one request. -/
structure InFlight (urls : List UrlRow) (i : ℕ) (c : String) (pc : FlightPc) (s : Service)
    (w : World) : Prop where
  service : w.service i = s
  urls : w.db.urls = urls
  codes : ∀ c, hasNul c = true → Refused w c
  flight : ∃ ticket, w.flights i c = some { ticket, callers := 1, pc }
  others : ∀ d, d ≠ c → w.flights i d = none
  oneFill : w.fills.length ≤ 1

variable {urls : List UrlRow} {i : ℕ} {c : String} {s : Service} {w : World}

/-- Nothing waits to be written to Redis. -/
theorem fills_eq_nil (hservice : w.service i = s) (hfill : s.fill = none) : w.fills = [] := by
  have hhead : w.fills.head?.map PendingFill.fill = none := by
    rw [← hfill, ← hservice]
    rfl
  rw [Option.map_eq_none_iff] at hhead
  exact List.head?_eq_none_iff.mp hhead

/-! ## The steps of a flight -/

namespace InFlight

/-- A flight begins or moves on. -/
theorem setFlight (hservice : w.service i = s) (hurls : w.db.urls = urls)
    (hcodes : ∀ c, hasNul c = true → Refused w c) (hothers : ∀ d, d ≠ c → w.flights i d = none)
    (hfills : w.fills.length ≤ 1) (ticket : ℕ) (pc : FlightPc) :
    InFlight urls i c pc s (w.setFlight i c (some { ticket, callers := 1, pc })) := by
  refine ⟨hservice, hurls, hcodes, ⟨ticket, World.setFlight_self _ _ _ _⟩, ?_, hfills⟩
  intro d hd
  rw [World.setFlight_of_ne w i hd]
  exact hothers d hd

/-- The L1 lookup finds nothing. -/
theorem start (h : Represents urls i s w) (hl1 : s.l1.get s.now c = none) :
    ∃ w', w.step encode (.request i c) = some w' ∧ InFlight urls i c .redisGet s w' := by
  rw [← h.service] at hl1
  have hmiss : (w.l1 i).get w.now c = none := hl1
  have hstep : w.step encode (.request i c) = some (World.setFlight
      { w with ticket := w.ticket + 1 } i c
        (some { ticket := w.ticket, callers := 1, pc := .redisGet })) := by
    rw [World.step, World.request, hmiss, h.idle c]
  refine ⟨_, hstep, setFlight ?_ ?_ ?_ ?_ ?_ _ _⟩
  · exact h.service
  · exact h.urls
  · exact h.codes
  · intro d _
    exact h.idle d
  · exact h.oneFill

/-- The Redis `GET`. -/
theorem redisGet (h : InFlight urls i c .redisGet s w) :
    ∃ w', w.step encode (.redisGet i c true) = some w' ∧
      InFlight urls i c (w.afterRedisGet c true) s w' := by
  obtain ⟨ticket, hflight⟩ := h.flight
  have hstep : w.step encode (.redisGet i c true) = some (w.setFlight i c
      (some { ticket, callers := 1, pc := w.afterRedisGet c true })) := by
    simp only [World.step, hflight, if_true]
  exact ⟨_, hstep, setFlight h.service h.urls h.codes h.others h.oneFill _ _⟩

/-- The database `SELECT`, with the fill it spawns. -/
theorem dbSelect (h : InFlight urls i c .dbSelect s w) (hfill : s.fill = none) :
    ∃ w', w.step encode (.dbSelect i c .primary) = some w' ∧
      InFlight urls i c (.insert (getOriginalUrl urls c) .database w.now)
        { s with
          fill := (getOriginalUrl urls c).map fun row =>
            { shortCode := c, originalUrl := row.1, expiresAt := row.2 } } w' := by
  obtain ⟨ticket, hflight⟩ := h.flight
  have hnone := fills_eq_nil h.service hfill
  have hstep : w.step encode (.dbSelect i c .primary) =
      w.afterDbSelect i c { ticket, callers := 1, pc := .dbSelect } .primary := by
    simp only [World.step, hflight, if_true]
  rw [hstep]
  unfold World.afterDbSelect
  simp only [World.readTable, h.urls]
  cases hrow : getOriginalUrl urls c with
  | none =>
    refine ⟨_, rfl, setFlight ?_ ?_ ?_ ?_ ?_ _ _⟩
    · rw [← h.service, World.service, World.service, hnone]
      rfl
    · exact h.urls
    · exact h.codes
    · exact h.others
    · exact h.oneFill
  | some row =>
    refine ⟨_, rfl, ?_, h.urls, h.codes, ⟨ticket, World.setFlight_self _ _ _ _⟩, ?_, ?_⟩
    · rw [← h.service, World.service, World.service, hnone]
      rfl
    · intro d hd
      rw [← h.others d hd]
      exact World.setFlight_of_ne _ i hd _
    · rw [hnone]
      exact le_refl _

/-- The database `SELECT`, when it fails. -/
theorem dbError (h : InFlight urls i c .dbSelect s w) :
    ∃ w', w.step encode (.dbSelect i c .error) = some w' ∧
      Represents urls i { s with
        answers := s.answers ++
          [{ shortCode := c, answeredAt := s.now, response := .serviceUnavailable }] } w' := by
  obtain ⟨ticket, hflight⟩ := h.flight
  have hstep : w.step encode (.dbSelect i c .error) =
      some ((w.answer 1 c .serviceUnavailable).setFlight i c none) := by
    simp only [World.step, hflight, if_true]
    rfl
  refine ⟨_, hstep, ?_, h.urls, h.codes, ?_, h.oneFill⟩
  · rw [← h.service]
    show Service.mk _ _ _ _ _ = Service.mk _ _ _ _ _
    rw [Service.mk.injEq]
    exact ⟨rfl, rfl, rfl, rfl, List.map_append⟩
  · intro d
    by_cases hd : d = c
    · subst hd
      exact World.setFlight_self _ i d none
    · rw [World.setFlight_of_ne _ i hd]
      exact h.others d hd

/-- The L1 insert, with the answer. -/
theorem insert {value : CachedUrlResult} {source : Source} {readAt : Instant}
    (h : InFlight urls i c (.insert value source readAt) s w) :
    ∃ w', w.step encode (.insert i c) = some w' ∧
      Represents urls i { s with
        l1 := (s.l1.insert s.now c value).afterResponse c (respond s.now value)
        answers := s.answers ++
          [{ shortCode := c, answeredAt := s.now, response := respond s.now value }] } w' := by
  obtain ⟨ticket, hflight⟩ := h.flight
  have hstep : w.step encode (.insert i c) = some (((w.setL1 i
      ((w.l1 i).insert w.now c value)).answerWith i 1 c value).setFlight i c none) := by
    simp only [World.step, hflight]
  refine ⟨_, hstep, ?_, h.urls, h.codes, ?_, h.oneFill⟩
  · rw [← h.service]
    show Service.mk _ _ _ _ _ = Service.mk _ _ _ _ _
    rw [Service.mk.injEq]
    refine ⟨rfl, ?_, rfl, rfl, List.map_append⟩
    exact (World.answerWith_l1 _ i 1 c value).trans (by rw [World.setL1_self]; rfl)
  · intro d
    by_cases hd : d = c
    · subst hd
      exact World.setFlight_self _ i d none
    · rw [World.setFlight_of_ne _ i hd]
      exact h.others d hd

end InFlight

/-! ## Requests, fills and evictions -/

namespace Represents

/-- Time passes. -/
theorem tick (h : Represents urls i s w) {now : Instant} (hle : s.now ≤ now) :
    ∃ nanos w', w.step encode (.tick nanos) = some w' ∧ Represents urls i { s with now } w' := by
  obtain ⟨rfl, hurls, hcodes, hidle, hone⟩ := h
  obtain ⟨nanos, hnanos⟩ := Int.le.dest hle
  refine ⟨nanos, { w with now }, ?_, rfl, hurls, hcodes, hidle, hone⟩
  rw [← hnanos]
  rfl

/-- A request that L1 answers. -/
theorem hit (h : Represents urls i s w) (hfill : s.fill = none) {value : CachedUrlResult}
    (hl1 : s.l1.get s.now c = some value) :
    ∃ w', w.step encode (.request i c) = some w' ∧
      Represents urls i { s with
        l1 := s.l1.afterResponse c (respond s.now value)
        fill := none
        answers := s.answers ++
          [{ shortCode := c, answeredAt := s.now, response := respond s.now value }] } w' := by
  obtain ⟨rfl, hurls, hcodes, hidle, hone⟩ := h
  have hlive : (w.l1 i).get w.now c = some value := hl1
  have hstep : w.step encode (.request i c) = some (w.answerWith i 1 c value) := by
    rw [World.step, World.request, hlive]
  refine ⟨_, hstep, ?_, hurls, hcodes, hidle, hone⟩
  show Service.mk _ _ _ _ _ = Service.mk _ _ _ _ _
  rw [Service.mk.injEq]
  exact ⟨rfl, World.answerWith_l1 w i 1 c value, rfl, hfill, List.map_append⟩

/-- A request that neither L1 nor Redis can answer, up to its `SELECT`. -/
theorem lookup (h : Represents urls i s w) (hl1 : s.l1.get s.now c = none) :
    ∃ w' pc, Run (World.step encode) AllUp w [.request i c, .redisGet i c true] w' ∧
      InFlight urls i c pc s w' ∧
      ((s.redis.get s.now c = none ∧ pc = .dbSelect) ∨
        ∃ originalUrl, s.redis.get s.now c = some originalUrl ∧
          pc = .insert (some (originalUrl, none)) .redis w'.now) := by
  obtain ⟨w₁, hrequest, h₁⟩ := InFlight.start encode h hl1
  obtain ⟨w₂, hredisGet, h₂⟩ := h₁.redisGet encode
  -- nothing else has moved since the lookup
  have hget : w₁.redis.get w₁.now c = s.redis.get s.now c := by
    rw [← h₁.service]
    rfl
  have hnow : w₂.now = w₁.now := by
    have hnow₁ := congrArg Service.now h₁.service
    exact (congrArg Service.now h₂.service).trans hnow₁.symm
  refine ⟨w₂, _, .cons trivial hrequest (.single rfl hredisGet), h₂, ?_⟩
  unfold World.afterRedisGet
  rw [if_pos rfl, hget, hnow]
  cases s.redis.get s.now c with
  | none => exact Or.inl ⟨rfl, rfl⟩
  | some originalUrl => exact Or.inr ⟨originalUrl, rfl, rfl⟩

/-- A request that L1 cannot answer: its flight gets what the service fetches. -/
theorem miss (h : Represents urls i s w) (hfill : s.fill = none) (hl1 : s.l1.get s.now c = none)
    {value : CachedUrlResult} {fill : Option Fill}
    (hfetch : s.fetch urls c s.now = some (value, fill)) :
    ∃ es w' source readAt, Run (World.step encode) AllUp w es w' ∧
      InFlight urls i c (.insert value source readAt) { s with fill } w' := by
  obtain ⟨w₁, pc, hrun, h₁, ⟨hredis, rfl⟩ | ⟨originalUrl, hredis, rfl⟩⟩ := h.lookup encode hl1
  · simp only [Service.fetch, hredis] at hfetch
    split at hfetch
    · cases hfetch
    obtain ⟨w₂, hdbSelect, h₂⟩ := h₁.dbSelect encode hfill
    have hlast : Run (World.step encode) AllUp w₁ [.dbSelect i c .primary] w₂ :=
      .single (Or.inl rfl) hdbSelect
    refine ⟨_, w₂, .database, w₁.now, hrun.append hlast, ?_⟩
    cases hrow : Urls.getOriginalUrl urls c with
    | none =>
      rw [hrow] at h₂ hfetch
      obtain ⟨rfl, rfl⟩ := Prod.mk.inj (Option.some.inj hfetch)
      exact h₂
    | some row =>
      rw [hrow] at h₂ hfetch
      obtain ⟨rfl, rfl⟩ := Prod.mk.inj (Option.some.inj hfetch)
      exact h₂
  · simp only [Service.fetch, hredis] at hfetch
    obtain ⟨rfl, rfl⟩ := Prod.mk.inj (Option.some.inj hfetch)
    refine ⟨_, w₁, .redis, w₁.now, hrun, ?_⟩
    rw [← hfill]
    exact h₁

/-- A request that the database refuses. -/
theorem refused (h : Represents urls i s w) (hl1 : s.l1.get s.now c = none)
    (hfetch : s.fetch urls c s.now = none) :
    ∃ es w', Run (World.step encode) AllUp w es w' ∧
      Represents urls i { s with
        answers := s.answers ++
          [{ shortCode := c, answeredAt := s.now, response := .serviceUnavailable }] } w' := by
  obtain ⟨w₁, pc, hrun, h₁, ⟨hredis, rfl⟩ | ⟨originalUrl, hredis, rfl⟩⟩ := h.lookup encode hl1
  · simp only [Service.fetch, hredis] at hfetch
    split at hfetch
    · rename_i hnul
      obtain ⟨w₂, hdbError, h₂⟩ := h₁.dbError encode
      have hlast : Run (World.step encode) AllUp w₁ [.dbSelect i c .error] w₂ :=
        .single (Or.inr ⟨rfl, h₁.codes c hnul⟩) hdbError
      exact ⟨_, w₂, hrun.append hlast, h₂⟩
    · split at hfetch
      · cases hfetch
      · cases hfetch
  · simp [Service.fetch, hredis] at hfetch

/-- **A request that runs alone** does what `get_original_url` does in one step. -/
theorem getOriginalUrl (h : Represents urls i s w) (hfill : s.fill = none) (c : String) :
    ∃ es w', Run (World.step encode) AllUp w es w' ∧
      Represents urls i (s.getOriginalUrl urls c s.now) w' := by
  unfold Service.getOriginalUrl Service.tryGetWith
  cases hl1 : s.l1.get s.now c with
  | some value =>
    obtain ⟨w', hstep, h'⟩ := h.hit encode hfill hl1
    exact ⟨[.request i c], w', .single trivial hstep, h'⟩
  | none =>
    cases hfetch : s.fetch urls c s.now with
    | none =>
      obtain ⟨es, w', hrun, h'⟩ := h.refused encode hl1 hfetch
      refine ⟨es, w', hrun, ?_⟩
      rw [← hfill]
      exact h'
    | some result =>
      obtain ⟨value, fill⟩ := result
      obtain ⟨es, w₁, source, readAt, hrun, h₁⟩ := h.miss encode hfill hl1 hfetch
      obtain ⟨w', hinsert, h'⟩ := h₁.insert encode
      have hlast : Run (World.step encode) AllUp w₁ [.insert i c] w' := .single trivial hinsert
      exact ⟨es ++ [.insert i c], w', hrun.append hlast, h'⟩

/-- The fill of the last request. -/
theorem fill (h : Represents urls i s w) {f : Fill} (hfill : s.fill = some f) :
    ∃ w', w.step encode (.fill 0 true) = some w' ∧
      Represents urls i { s with redis := f.run s.redis s.now, fill := none } w' := by
  obtain ⟨rfl, hurls, hcodes, hidle, hone⟩ := h
  obtain ⟨g, hg, rfl⟩ := Option.map_eq_some_iff.mp hfill
  obtain ⟨fills, hfills⟩ := List.head?_eq_some_iff.mp hg
  have hnil : fills = [] := by
    rw [hfills, List.length_cons] at hone
    exact List.length_eq_zero_iff.mp (by omega)
  subst hnil
  have hstep : w.step encode (.fill 0 true) =
      some { w with redis := g.fill.run w.redis w.now, fills := [] } := by
    simp [World.step, hfills]
  exact ⟨_, hstep, rfl, hurls, hcodes, hidle, Nat.zero_le 1⟩

/-- Each step of the service is a run of the world. -/
theorem step (h : Represents urls i s w) {e : ServiceEvent} {s' : Service}
    (hstep : s.step urls e = some s') :
    ∃ es w', Run (World.step encode) AllUp w es w' ∧ Represents urls i s' w' := by
  cases e with
  | get c now =>
    simp only [Service.step] at hstep
    split at hstep
    · rename_i hget
      obtain rfl := Option.some.inj hstep
      obtain ⟨nanos, w₁, htick, h₁⟩ := h.tick encode hget.1
      obtain ⟨es, w', hrun, h'⟩ := h₁.getOriginalUrl encode hget.2 c
      exact ⟨.tick nanos :: es, w', .cons trivial htick hrun, h'⟩
    · cases hstep
  | fill now =>
    simp only [Service.step] at hstep
    split at hstep
    · rename_i f hf
      split at hstep
      · rename_i hle
        obtain rfl := Option.some.inj hstep
        obtain ⟨nanos, w₁, htick, h₁⟩ := h.tick encode hle
        obtain ⟨w', hfill, h'⟩ := h₁.fill encode hf
        exact ⟨[.tick nanos, .fill 0 true], w', .cons trivial htick (.single rfl hfill), h'⟩
      · cases hstep
    · cases hstep
  | evictL1 c =>
    obtain rfl := Option.some.inj hstep
    obtain ⟨rfl, hurls, hcodes, hidle, hone⟩ := h
    refine ⟨[.evictL1 i c], _, .single trivial rfl, ?_, hurls, hcodes, hidle, hone⟩
    show Service.mk _ _ _ _ _ = Service.mk _ _ _ _ _
    rw [World.setL1_self]
    rfl
  | evictRedis c =>
    obtain rfl := Option.some.inj hstep
    obtain ⟨rfl, hurls, hcodes, hidle, hone⟩ := h
    exact ⟨[.evictRedis c], _, .single trivial rfl, rfl, hurls, hcodes, hidle, hone⟩

/-- **One instance used sequentially is the service**: every run of the service is, with the same
answers and the same caches, a run of the world. -/
theorem simulates (h : Represents urls i s w) {es : List ServiceEvent} {s' : Service}
    (hrun : Run (Service.step urls) Any s es s') :
    ∃ es' w', Run (World.step encode) AllUp w es' w' ∧ Represents urls i s' w' :=
  hrun.simulate (R := Represents urls i) (fun _ _ _ _ h _ hstep => h.step encode hstep) h

end Represents

end Bittuly.Urls
