import Bittuly.Urls.Cache
import Bittuly.Urls.Store

/-!
# Instances, Redis and the database, interleaved

References: `services/url-service/src/handlers.rs` (`get_original_url`, `delete_url_handler`) and the
cascade arm of `services/consumer-service/src/main.rs`.

Any number of url-service instances, each with its L1, share one Redis and one database. A redirect is
an L1 lookup; on a miss one flight per instance and code runs Redis `GET`, database `SELECT` and L1
insert as separate steps, and the requests that came meanwhile get its result. Cache fills and the
`DEL`s that follow a `DELETE` are tasks of their own. Every call may fail, and the replica may lag.

`Sat` states a property of everything the caches hold. `Rules` is what has to be shown of one step for
it, and `Sat.step` the invariant rule that follows.
-/

namespace Bittuly.Urls

open Cache Runs

/-- Where a flight got its result. -/
inductive Source
  | redis
  | database
deriving DecidableEq, Repr

/-- The next step of a flight; `insert` with the result and the time it was read. -/
inductive FlightPc
  | redisGet
  | dbSelect
  | insert (value : CachedUrlResult) (source : Source) (readAt : Instant)
deriving DecidableEq, Repr

/-- A future of `try_get_with` and the requests waiting for it. -/
structure Flight where
  ticket : ℕ
  callers : ℕ
  pc : FlightPc
deriving DecidableEq, Repr

/-- A spawned cache fill. -/
structure PendingFill where
  ticket : ℕ
  fill : Fill
deriving DecidableEq, Repr

/-- A Redis `DEL` that is to follow a `DELETE`: of `delete_url_handler` or of the consumer. -/
structure PendingDel where
  shortCode : String
  ofHandler : Bool
deriving DecidableEq, Repr

/-- A redirect's database read: when, and of which committed table. -/
structure DbRead where
  shortCode : String
  readAt : Instant
  urls : List UrlRow
deriving DecidableEq, Repr

/-- An answer, with the number of tables that had been committed by then. -/
structure LoggedAnswer extends Answer where
  committed : ℕ
deriving DecidableEq, Repr

/-- The services, their stores and the history of the run. -/
structure World where
  now : Instant
  db : Db
  redis : Redis
  l1 : ℕ → L1Cache
  flights : ℕ → String → Option Flight
  fills : List PendingFill
  dels : List PendingDel
  /-- Tickets number flights and fills in the order they began. -/
  ticket : ℕ
  /-- Codes of links whose `delete_url_handler` has answered 204. -/
  deleted : List String
  answers : List LoggedAnswer
  reads : List DbRead

/-- What a `SELECT` of a redirect reads: nothing, the primary's table or an older one. -/
inductive Replica
  | error
  | primary
  | lagging (k : ℕ)
deriving DecidableEq, Repr

/-- One step of one party. -/
inductive WorldEvent
  | tick (nanos : ℕ)
  /-- A statement of `add_shorten_url`, or a `DELETE`. -/
  | db (e : DbEvent)
  /-- The `k`-th outstanding Redis `DEL`. -/
  | del (k : ℕ) (ok : Bool)
  /-- The party that is to send the `k`-th `DEL` dies. -/
  | dropDel (k : ℕ)
  /-- A request arrives at instance `i`: the L1 lookup. -/
  | request (i : ℕ) (shortCode : String)
  | redisGet (i : ℕ) (shortCode : String) (ok : Bool)
  | dbSelect (i : ℕ) (shortCode : String) (replica : Replica)
  /-- The flight ends: its result goes to L1 and to its callers. -/
  | insert (i : ℕ) (shortCode : String)
  /-- The callers of a flight are gone. -/
  | abandon (i : ℕ) (shortCode : String)
  | fill (k : ℕ) (ok : Bool)
  | evictL1 (i : ℕ) (shortCode : String)
  | evictRedis (shortCode : String)

namespace World

/-- Empty stores. -/
def init (now : Instant) : World where
  now := now
  db := Db.init
  redis := .empty
  l1 := fun _ => .empty
  flights := fun _ _ => none
  fills := []
  dels := []
  ticket := 0
  deleted := []
  answers := []
  reads := []

/-- The `DEL`s that follow a statement: for the code `delete_url` returned, or for each code the cascade
returned. -/
def delsAfter (db : Db) : DbEvent → List PendingDel
  | .deleteUrl urlId userId .ok =>
    match (db.deleted (Db.ownedBy urlId userId)).head?.bind UrlRow.shortCode with
    | some shortCode => [{ shortCode, ofHandler := true }]
    | none => []
  | .cascade userId .ok =>
    match (db.deleted fun r => r.userId = userId).mapM UrlRow.shortCode with
    | some shortCodes => shortCodes.map fun shortCode => { shortCode, ofHandler := false }
    | none => []
  | _ => []

/-- Replace the flight of one instance and code. -/
def setFlight (s : World) (i : ℕ) (shortCode : String) (f : Option Flight) : World :=
  { s with flights := Function.update s.flights i (Function.update (s.flights i) shortCode f) }

/-- Replace one L1. -/
def setL1 (s : World) (i : ℕ) (l1 : L1Cache) : World :=
  { s with l1 := Function.update s.l1 i l1 }

/-- Answer requests. -/
def answer (s : World) (callers : ℕ) (shortCode : String) (response : Response) : World :=
  { s with
    answers := s.answers ++ List.replicate callers
      { shortCode, answeredAt := s.now, response, committed := s.db.history.length } }

/-- Answer requests with a result, removing an expired one from L1. -/
def answerWith (s : World) (i callers : ℕ) (shortCode : String) (value : CachedUrlResult) : World :=
  let response := respond s.now value
  (s.setL1 i ((s.l1 i).afterResponse shortCode response)).answer callers shortCode response

/-- The table a `SELECT` reads. -/
def readTable (s : World) : Replica → Option (List UrlRow)
  | .error => none
  | .primary => some s.db.urls
  | .lagging k => s.db.history[k]?

/-- The L1 lookup of a request. -/
def request (s : World) (i : ℕ) (shortCode : String) : World :=
  match (s.l1 i).get s.now shortCode with
  | some value => s.answerWith i 1 shortCode value
  | none =>
    match s.flights i shortCode with
    -- coalesced by `try_get_with`
    | some f => s.setFlight i shortCode (some { f with callers := f.callers + 1 })
    | none =>
      { s with ticket := s.ticket + 1 }.setFlight i shortCode
        (some { ticket := s.ticket, callers := 1, pc := .redisGet })

/-- A flight after its Redis `GET`; an error counts as a miss. -/
def afterRedisGet (s : World) (shortCode : String) (ok : Bool) : FlightPc :=
  match if ok then s.redis.get s.now shortCode else none with
  | some originalUrl => .insert (some (originalUrl, none)) .redis s.now
  | none => .dbSelect

/-- A flight after its database `SELECT`; a row spawns a fill, an error answers 503. -/
def afterDbSelect (s : World) (i : ℕ) (shortCode : String) (f : Flight) (replica : Replica) :
    Option World :=
  match replica, s.readTable replica with
  -- `Err` is not cached: every waiting request answers 503
  | .error, _ => some ((s.answer f.callers shortCode .serviceUnavailable).setFlight i shortCode none)
  | _, none => none
  | _, some urls =>
    let value := getOriginalUrl urls shortCode
    let s : World := { s with reads := s.reads ++ [{ shortCode, readAt := s.now, urls }] }
    let s := s.setFlight i shortCode (some { f with pc := .insert value .database s.now })
    match value with
    | some (originalUrl, expiresAt) =>
      let fill : Fill := { shortCode, originalUrl, expiresAt }
      some { s with
        fills := s.fills ++ [{ ticket := s.ticket, fill }]
        ticket := s.ticket + 1 }
    | none => some s

variable (encode : ℤ → String)

/-- One step. -/
def step (s : World) : WorldEvent → Option World
  | .tick nanos => some { s with now := s.now + nanos }
  | .db e => (s.db.step encode e).map fun db => { s with db, dels := s.dels ++ delsAfter s.db e }
  | .del k ok =>
    match s.dels[k]? with
    | none => none
    | some d => some
      { s with
        redis := if ok then s.redis.remove d.shortCode else s.redis
        dels := s.dels.eraseIdx k
        deleted := if d.ofHandler then s.deleted ++ [d.shortCode] else s.deleted }
  | .dropDel k => some { s with dels := s.dels.eraseIdx k }
  | .request i shortCode => some (s.request i shortCode)
  | .redisGet i shortCode ok =>
    match s.flights i shortCode with
    | some f =>
      if f.pc = .redisGet then
        some (s.setFlight i shortCode (some { f with pc := s.afterRedisGet shortCode ok }))
      else none
    | none => none
  | .dbSelect i shortCode replica =>
    match s.flights i shortCode with
    | some f => if f.pc = .dbSelect then s.afterDbSelect i shortCode f replica else none
    | none => none
  | .insert i shortCode =>
    match s.flights i shortCode with
    | some f =>
      match f.pc with
      | .insert value _ _ =>
        let s := s.setL1 i ((s.l1 i).insert s.now shortCode value)
        some ((s.answerWith i f.callers shortCode value).setFlight i shortCode none)
      | _ => none
    | none => none
  | .abandon i shortCode => some (s.setFlight i shortCode none)
  | .fill k ok =>
    match s.fills[k]? with
    | none => none
    | some f => some
      { s with
        redis := if ok then f.fill.run s.redis s.now else s.redis
        fills := s.fills.eraseIdx k }
  | .evictL1 i shortCode => some (s.setL1 i (TtlMap.remove (s.l1 i) shortCode))
  | .evictRedis shortCode => some { s with redis := TtlMap.remove s.redis shortCode }

/-- What a step is, with what `step` has checked. -/
inductive Step (s : World) : WorldEvent → World → Prop
  | tick (nanos : ℕ) : Step s (.tick nanos) { s with now := s.now + nanos }
  | db {e : DbEvent} {db : Db} (hdb : s.db.step encode e = some db) :
      Step s (.db e) { s with db, dels := s.dels ++ delsAfter s.db e }
  | del {k : ℕ} (ok : Bool) {d : PendingDel} (hd : s.dels[k]? = some d) :
      Step s (.del k ok)
        { s with
          redis := if ok then TtlMap.remove s.redis d.shortCode else s.redis
          dels := s.dels.eraseIdx k
          deleted := if d.ofHandler then s.deleted ++ [d.shortCode] else s.deleted }
  | dropDel (k : ℕ) : Step s (.dropDel k) { s with dels := s.dels.eraseIdx k }
  /-- L1 has a result. -/
  | hit {i : ℕ} {c : String} {en : Entry Instant CachedUrlResult} (hen : s.l1 i c = some en)
      (hlive : en.Live s.now) : Step s (.request i c) (s.answerWith i 1 c en.value)
  /-- A flight is under way. -/
  | join {i : ℕ} {c : String} {f : Flight} (hf : s.flights i c = some f) :
      Step s (.request i c) (s.setFlight i c (some { f with callers := f.callers + 1 }))
  /-- A flight begins. -/
  | start (i : ℕ) (c : String) :
      Step s (.request i c) (setFlight { s with ticket := s.ticket + 1 } i c
        (some { ticket := s.ticket, callers := 1, pc := .redisGet }))
  | redisGet {i : ℕ} {c : String} (ok : Bool) {f : Flight} (hf : s.flights i c = some f) :
      Step s (.redisGet i c ok) (s.setFlight i c (some { f with pc := s.afterRedisGet c ok }))
  | dbError {i : ℕ} {c : String} {f : Flight} (hf : s.flights i c = some f) :
      Step s (.dbSelect i c .error)
        ((s.answer f.callers c .serviceUnavailable).setFlight i c none)
  /-- The code was read as unknown. -/
  | dbMissing {i : ℕ} {c : String} {f : Flight} {replica : Replica} {urls : List UrlRow}
      (hf : s.flights i c = some f) (htable : s.readTable replica = some urls)
      (hrow : getOriginalUrl urls c = none) :
      Step s (.dbSelect i c replica)
        (setFlight { s with reads := s.reads ++ [{ shortCode := c, readAt := s.now, urls }] } i c
          (some { f with pc := .insert none .database s.now }))
  /-- A row was read, and a fill is spawned. -/
  | dbRow {i : ℕ} {c : String} {f : Flight} {replica : Replica} {urls : List UrlRow}
      {originalUrl : String} {expiresAt : Option Instant} (hf : s.flights i c = some f)
      (htable : s.readTable replica = some urls)
      (hrow : getOriginalUrl urls c = some (originalUrl, expiresAt)) :
      Step s (.dbSelect i c replica)
        (setFlight { s with
          reads := s.reads ++ [{ shortCode := c, readAt := s.now, urls }]
          fills := s.fills ++
            [{ ticket := s.ticket, fill := { shortCode := c, originalUrl, expiresAt } }]
          ticket := s.ticket + 1 } i c
            (some { f with pc := .insert (some (originalUrl, expiresAt)) .database s.now }))
  | insert {i : ℕ} {c : String} {f : Flight} {value : CachedUrlResult} {source : Source}
      {readAt : Instant} (hf : s.flights i c = some f) (hpc : f.pc = .insert value source readAt) :
      Step s (.insert i c)
        (((s.setL1 i ((s.l1 i).insert s.now c value)).answerWith i f.callers c value).setFlight i c
          none)
  | abandon (i : ℕ) (c : String) : Step s (.abandon i c) (s.setFlight i c none)
  | fill {k : ℕ} (ok : Bool) {f : PendingFill} (hf : s.fills[k]? = some f) :
      Step s (.fill k ok)
        { s with
          redis := if ok then f.fill.run s.redis s.now else s.redis
          fills := s.fills.eraseIdx k }
  | evictL1 (i : ℕ) (c : String) :
      Step s (.evictL1 i c) (s.setL1 i (TtlMap.remove (s.l1 i) c))
  | evictRedis (c : String) : Step s (.evictRedis c) { s with redis := TtlMap.remove s.redis c }

variable {encode}

/-- Every step is one of these. -/
theorem step_cases {s s' : World} {e : WorldEvent} (hstep : s.step encode e = some s') :
    s.Step encode e s' := by
  cases e with
  | tick nanos =>
    obtain rfl := Option.some.inj hstep
    exact .tick nanos
  | db e =>
    obtain ⟨db, hdb, rfl⟩ := Option.map_eq_some_iff.mp hstep
    exact .db hdb
  | del k ok =>
    simp only [step] at hstep
    split at hstep
    · cases hstep
    · rename_i d hd
      obtain rfl := Option.some.inj hstep
      exact .del ok hd
  | dropDel k =>
    obtain rfl := Option.some.inj hstep
    exact .dropDel k
  | request i c =>
    obtain rfl := Option.some.inj hstep
    unfold request
    split
    · rename_i value hget
      obtain ⟨en, hen, rfl, hlive⟩ := TtlMap.get_eq_some hget
      exact .hit hen hlive
    · split
      · rename_i f hf
        exact .join hf
      · exact .start i c
  | redisGet i c ok =>
    simp only [step] at hstep
    split at hstep
    · rename_i f hf
      split at hstep
      · obtain rfl := Option.some.inj hstep
        exact .redisGet ok hf
      · cases hstep
    · cases hstep
  | dbSelect i c replica =>
    simp only [step] at hstep
    split at hstep
    · rename_i f hf
      split at hstep
      · unfold afterDbSelect at hstep
        split at hstep
        · obtain rfl := Option.some.inj hstep
          exact .dbError hf
        · cases hstep
        · rename_i urls _ htable
          simp only at hstep
          split at hstep
          · rename_i originalUrl expiresAt hrow
            obtain rfl := Option.some.inj hstep
            rw [hrow]
            exact .dbRow hf htable hrow
          · rename_i hrow
            obtain rfl := Option.some.inj hstep
            rw [hrow]
            exact .dbMissing hf htable hrow
      · cases hstep
    · cases hstep
  | insert i c =>
    simp only [step] at hstep
    split at hstep
    · rename_i f hf
      split at hstep
      · rename_i value source readAt hpc
        obtain rfl := Option.some.inj hstep
        exact .insert hf hpc
      · cases hstep
    · cases hstep
  | abandon i c =>
    obtain rfl := Option.some.inj hstep
    exact .abandon i c
  | fill k ok =>
    simp only [step] at hstep
    split at hstep
    · cases hstep
    · rename_i f hf
      obtain rfl := Option.some.inj hstep
      exact .fill ok hf
  | evictL1 i c =>
    obtain rfl := Option.some.inj hstep
    exact .evictL1 i c
  | evictRedis c =>
    obtain rfl := Option.some.inj hstep
    exact .evictRedis c

/-! ## Updates -/

@[simp] theorem setFlight_self (s : World) (i : ℕ) (c : String) (f : Option Flight) :
    (s.setFlight i c f).flights i c = f := by
  simp [setFlight]

/-- The flights for other codes stay. -/
theorem setFlight_of_ne (s : World) (i : ℕ) {c d : String} (hd : d ≠ c) (f : Option Flight) :
    (s.setFlight i c f).flights i d = s.flights i d := by
  simp [setFlight, Function.update_of_ne hd]

theorem setFlight_flights {s : World} {i j : ℕ} {c d : String} {f : Option Flight} {g : Flight}
    (h : (s.setFlight i c f).flights j d = some g) :
    (j = i ∧ d = c ∧ f = some g) ∨ s.flights j d = some g := by
  by_cases hi : j = i
  · subst hi
    by_cases hc : d = c
    · subst hc
      rw [setFlight_self] at h
      exact Or.inl ⟨rfl, rfl, h⟩
    · right
      rw [setFlight_of_ne s j hc] at h
      exact h
  · right
    simpa [setFlight, Function.update_of_ne hi] using h

@[simp] theorem setL1_self (s : World) (i : ℕ) (l1 : L1Cache) : (s.setL1 i l1).l1 i = l1 :=
  Function.update_self _ _ _

/-- An answer 410 is all that changes L1. -/
@[simp] theorem answerWith_l1 (s : World) (i callers : ℕ) (c : String) (value : CachedUrlResult) :
    (s.answerWith i callers c value).l1 i = (s.l1 i).afterResponse c (respond s.now value) :=
  Function.update_self _ _ _

/-- The statements of the `n`-th `add_shorten_url` call, when it creates a link undisturbed. -/
def shortenEvents (n : ℕ) (urlId : ℤ) (originalUrl : String) (expiresAt : Option Instant) :
    List WorldEvent :=
  [.db (.call originalUrl 7 expiresAt), .db (.select n 0), .db (.insert n urlId 0), .db (.assign n),
    .db (.commit n .ok)]

/-- The steps of a request to instance `i` that misses both caches, up to its database read. -/
def missEvents (i : ℕ) (shortCode : String) : List WorldEvent :=
  [.request i shortCode, .redisGet i shortCode true, .dbSelect i shortCode .primary]

end World

/-- Postgres refuses a code with U+0000, and no row has ever had one. -/
def Refused (s : World) (shortCode : String) : Prop :=
  hasNul shortCode = true ∧ ∀ urls ∈ s.db.history, ∀ r ∈ urls, r.shortCode ≠ some shortCode

instance (s : World) : DecidablePred (Refused s) := fun _ =>
  inferInstanceAs (Decidable (_ ∧ _))

/-- Redis commands succeed, and the replica equals the primary; a read fails only for a code that is
refused. -/
def AllUp (s : World) : WorldEvent → Prop
  | .redisGet _ _ ok | .del _ ok | .fill _ ok => ok = true
  | .dbSelect _ shortCode replica =>
    replica = .primary ∨ replica = .error ∧ Refused s shortCode
  | _ => True

instance (s : World) : DecidablePred (AllUp s) := by
  intro e
  unfold AllUp
  split <;> infer_instance

/-- Then a read that succeeds reads the primary's table. -/
theorem AllUp.readTable_eq {s : World} {i : ℕ} {c : String} {replica : Replica} {urls : List UrlRow}
    (hup : AllUp s (.dbSelect i c replica)) (htable : s.readTable replica = some urls) :
    urls = s.db.urls := by
  obtain rfl | ⟨rfl, -⟩ := hup
  · exact (Option.some.inj htable).symm
  · cases htable

end Bittuly.Urls
