import Bittuly.Lib.TtlMap
import Bittuly.Text
import Bittuly.Urls.Repo
import Mathlib.Tactic.Linarith

/-!
# The two caches in front of the urls table

References: `services/url-service/src/handlers.rs` (`get_original_url`) and
`services/url-service/src/models.rs` (`CachedUrlResult`, `UrlState::new`).

L1 holds answers of one instance for three seconds, an expiry with them when they came from the
database. Redis is shared and holds targets only, under a TTL in whole seconds.
-/

namespace Bittuly.Urls

open Cache

/-- What a redirect looks up: `None` for an unknown code, else the target and its expiry. -/
abbrev CachedUrlResult := Option (String × Option Instant)

/-- The shared Redis: targets by short code. -/
abbrev Redis := TtlMap Instant String String

/-- `l1_cache` of one instance. -/
abbrev L1Cache := TtlMap Instant String CachedUrlResult

/-- `time_to_live(Duration::from_secs(3))`. -/
def l1TimeToLive : ℤ := 3 * second

/-- Store a result in L1. -/
def L1Cache.insert (l1 : L1Cache) (now : Instant) (shortCode : String) (value : CachedUrlResult) :
    L1Cache :=
  TtlMap.put l1 shortCode { value, deadline := some (now + l1TimeToLive) }

/-- The answers of `GET /{short_code}`. -/
inductive Response
  | temporaryRedirect (location : String)
  | gone
  | notFound
  | serviceUnavailable
  | internalServerError
deriving DecidableEq, Repr

/-- A request and its answer. -/
structure Answer where
  shortCode : String
  answeredAt : Instant
  response : Response
deriving DecidableEq, Repr

/-- Does the target fit into a `Location` header? -/
def locates (originalUrl : String) : Bool :=
  originalUrl.toList.all headerChar

example : locates "https://a.example/\x01" = false := by decide

/-- `Redirect::temporary(..).into_response()`: 500 when the target is no header value. -/
def redirectTo (originalUrl : String) : Response :=
  if locates originalUrl then .temporaryRedirect originalUrl else .internalServerError

/-- The end of `get_original_url`: a result is checked against the clock and answered. -/
def respond (now : Instant) : CachedUrlResult → Response
  | none => .notFound
  | some (originalUrl, none) => redirectTo originalUrl
  | some (originalUrl, some exp) => if exp < now then .gone else redirectTo originalUrl

/-- An answer 410 removes the L1 entry. -/
def L1Cache.afterResponse (l1 : L1Cache) (shortCode : String) (response : Response) : L1Cache :=
  if response = .gone then TtlMap.remove l1 shortCode else l1

/-- A spawned task that is to write a database result to Redis. -/
structure Fill where
  shortCode : String
  originalUrl : String
  expiresAt : Option Instant
deriving DecidableEq, Repr

/-- The entry a fill writes at this time: no TTL without an expiry, else a TTL in whole seconds, and
nothing when that is not positive. -/
def Fill.entry (f : Fill) (now : Instant) : Option (Entry Instant String) :=
  match f.expiresAt with
  | none => some { value := f.originalUrl, deadline := none }
  | some exp =>
    let ttl := timestamp exp - timestamp now
    if 0 < ttl then some { value := f.originalUrl, deadline := some (now + ttl * second) } else none

/-- Run a fill: `SET`, `SETEX` or nothing. -/
def Fill.run (f : Fill) (redis : Redis) (now : Instant) : Redis :=
  match f.entry now with
  | none => redis
  | some e => redis.put f.shortCode e

/-! ## What the operations keep -/

theorem L1Cache.insert_all {P : String → Entry Instant CachedUrlResult → Prop} {l1 : L1Cache}
    (h : TtlMap.All P l1) {now : Instant} {shortCode : String} {value : CachedUrlResult}
    (hnew : P shortCode { value, deadline := some (now + l1TimeToLive) }) :
    TtlMap.All P (l1.insert now shortCode value) :=
  TtlMap.All.put h hnew

theorem L1Cache.afterResponse_all {P : String → Entry Instant CachedUrlResult → Prop}
    {l1 : L1Cache} (h : TtlMap.All P l1) (shortCode : String) (response : Response) :
    TtlMap.All P (l1.afterResponse shortCode response) := by
  unfold L1Cache.afterResponse
  split
  · exact TtlMap.All.remove h shortCode
  · exact h

theorem Fill.run_all {P : String → Entry Instant String → Prop} {redis : Redis}
    (h : TtlMap.All P redis) {f : Fill} {now : Instant}
    (hnew : ∀ e, f.entry now = some e → P f.shortCode e) : TtlMap.All P (f.run redis now) := by
  unfold Fill.run
  split
  · exact h
  · rename_i e he
    exact TtlMap.All.put h (hnew e he)

/-- A fill leaves the other keys alone. -/
theorem Fill.run_of_ne {f : Fill} {c : String} (hc : c ≠ f.shortCode) (redis : Redis)
    (now : Instant) : f.run redis now c = redis c := by
  rw [Fill.run]
  cases f.entry now with
  | none => rfl
  | some e => exact TtlMap.put_of_ne redis hc e

/-- A fill without an entry leaves Redis alone. -/
theorem Fill.run_of_none {f : Fill} {now : Instant} (h : f.entry now = none) (redis : Redis) :
    f.run redis now = redis := by
  rw [Fill.run, h]

theorem Fill.entry_value {f : Fill} {now : Instant} {e : Entry Instant String}
    (h : f.entry now = some e) : e.value = f.originalUrl := by
  unfold Fill.entry at h
  split at h
  · rw [← Option.some.inj h]
  · simp only at h
    split at h
    · rw [← Option.some.inj h]
    · cases h

/-- Rounding the TTL to whole seconds lets an entry outlive its row by less than a second. -/
theorem Fill.deadline_lt {f : Fill} {now exp : Instant} {e : Entry Instant String}
    (hexp : f.expiresAt = some exp) (h : f.entry now = some e) :
    ∃ d, e.deadline = some d ∧ d < exp + second := by
  simp only [Fill.entry, hexp] at h
  split at h
  · rw [← Option.some.inj h]
    refine ⟨_, rfl, ?_⟩
    have hexp_floor : timestamp exp * second ≤ exp := Int.ediv_mul_le _ (by decide)
    have hnow_floor : now < (timestamp now + 1) * second :=
      Int.lt_ediv_add_one_mul_self now (by decide)
    show now + (timestamp exp - timestamp now) * second < exp + second
    linarith
  · cases h

/-- A redirect names the target it is asked for. -/
theorem redirectTo_eq_iff {originalUrl location : String} :
    redirectTo originalUrl = .temporaryRedirect location ↔
      locates originalUrl = true ∧ originalUrl = location := by
  unfold redirectTo
  split
  · rename_i hlocates
    rw [Response.temporaryRedirect.injEq]
    exact (and_iff_right hlocates).symm
  · rename_i hlocates
    simp [hlocates]

theorem redirectTo_ne_notFound (originalUrl : String) : redirectTo originalUrl ≠ .notFound := by
  unfold redirectTo
  split
  · exact nofun
  · exact nofun

theorem redirectTo_ne_gone (originalUrl : String) : redirectTo originalUrl ≠ .gone := by
  unfold redirectTo
  split
  · exact nofun
  · exact nofun

theorem redirectTo_eq_error_iff {originalUrl : String} :
    redirectTo originalUrl = .internalServerError ↔ locates originalUrl = false := by
  unfold redirectTo
  split
  · rename_i hlocates
    simp [hlocates]
  · rename_i hlocates
    simp [hlocates]

/-- A target that has not expired is redirected to, or is no header value. -/
theorem respond_target {now : Instant} {value : CachedUrlResult}
    (h : respond now value ≠ .notFound ∧ respond now value ≠ .gone) :
    ∃ originalUrl, respond now value = redirectTo originalUrl ∧
      (value = some (originalUrl, none) ∨ ∃ exp, value = some (originalUrl, some exp) ∧ now ≤ exp) := by
  unfold respond at h ⊢
  split
  · exact absurd rfl h.1
  · rename_i originalUrl
    exact ⟨originalUrl, rfl, Or.inl rfl⟩
  · rename_i originalUrl exp
    split
    · rename_i hexp
      exact absurd (if_pos hexp) h.2
    · rename_i hexp
      exact ⟨originalUrl, rfl, Or.inr ⟨exp, rfl, not_lt.mp hexp⟩⟩

/-- A redirect is to the target, which is a header value. -/
theorem respond_redirect {now : Instant} {value : CachedUrlResult} {originalUrl : String}
    (h : respond now value = .temporaryRedirect originalUrl) :
    locates originalUrl = true ∧
      (value = some (originalUrl, none) ∨ ∃ exp, value = some (originalUrl, some exp) ∧ now ≤ exp) := by
  have hanswer : respond now value ≠ .notFound ∧ respond now value ≠ .gone := by
    rw [h]
    exact ⟨nofun, nofun⟩
  obtain ⟨target, hto, hvalue⟩ := respond_target hanswer
  rw [h] at hto
  obtain ⟨hlocates, rfl⟩ := redirectTo_eq_iff.mp hto.symm
  exact ⟨hlocates, hvalue⟩

theorem respond_notFound {now : Instant} {value : CachedUrlResult}
    (h : respond now value = .notFound) : value = none := by
  unfold respond at h
  split at h
  · rfl
  · exact absurd h (redirectTo_ne_notFound _)
  · split at h
    · cases h
    · exact absurd h (redirectTo_ne_notFound _)

end Bittuly.Urls
