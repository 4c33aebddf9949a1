import Bittuly.Lib.Total
import Bittuly.Urls.System
import Mathlib.Algebra.Group.Action.Defs
import Mathlib.Tactic.Linarith

/-!
# What coalescing promises

Reference: `services/url-service/src/handlers.rs` (`get_original_url`, "Singleflight Cache Coalescing
(Thundering Herd Protection)").

A `Slot` is what one instance keeps for one code: its flight and its L1 entry. `step_slot` says what a
step of the system does to a slot. Two laws follow for every run. Requests are conserved: each is
answered once, waits for the flight, or was given up with it. And a slot asks Redis and the database at
most once in three seconds, not counting what interrupts it: a `SELECT` that failed, callers that gave
up, an eviction, and each answer 410, which removes the entry it was served from.
-/

namespace Bittuly.Urls

open Cache Runs

/-- The flight and the L1 entry of a code in one instance, at a time. -/
structure Slot where
  now : Instant
  flight : Option Flight
  entry : Option (Entry Instant CachedUrlResult)

/-- What an event is for a slot. -/
inductive SlotEvent
  | tick (nanos : ℕ)
  | request
  | redisGet
  | dbSelect (failed : Bool)
  | insert
  | abandon
  | evict
  | other
deriving DecidableEq, Repr

namespace Slot

/-- L1 serves nothing for the code. -/
def Miss (k : Slot) : Prop :=
  ∀ en ∈ k.entry, ¬en.Live k.now

/-- An entry that was answered from. -/
def afterResponse (now : Instant) (en : Entry Instant CachedUrlResult) :
    Option (Entry Instant CachedUrlResult) :=
  if respond now en.value = .gone then none else some en

/-- What an event does to a slot, and how many requests it answers. -/
inductive Step (k : Slot) : SlotEvent → Slot → ℕ → Prop
  | tick (nanos : ℕ) : Step k (.tick nanos) { k with now := k.now + nanos } 0
  | hit {en : Entry Instant CachedUrlResult} (hen : k.entry = some en) (hlive : en.Live k.now) :
      Step k .request { k with entry := afterResponse k.now en } 1
  | join {f : Flight} (hmiss : k.Miss) (hf : k.flight = some f) :
      Step k .request { k with flight := some { f with callers := f.callers + 1 } } 0
  | start {f : Flight} (hmiss : k.Miss) (hf : k.flight = none) (hcallers : f.callers = 1)
      (hpc : f.pc = .redisGet) : Step k .request { k with flight := some f } 0
  | redisGet {f : Flight} {pc : FlightPc} (hf : k.flight = some f) (hpc : f.pc = .redisGet)
      (hpc' : pc ≠ .redisGet) : Step k .redisGet { k with flight := some { f with pc } } 0
  | selected {f : Flight} {value : CachedUrlResult} (hf : k.flight = some f) (hpc : f.pc = .dbSelect) :
      Step k (.dbSelect false)
        { k with flight := some { f with pc := .insert value .database k.now } } 0
  | failed {f : Flight} (hf : k.flight = some f) (hpc : f.pc = .dbSelect) :
      Step k (.dbSelect true) { k with flight := none } f.callers
  | insert {f : Flight} {value : CachedUrlResult} {source : Source} {readAt : Instant}
      (hf : k.flight = some f) (hpc : f.pc = .insert value source readAt) :
      Step k .insert
        { k with
          flight := none
          entry := afterResponse k.now { value, deadline := some (k.now + l1TimeToLive) } }
        f.callers
  | abandon : Step k .abandon { k with flight := none } 0
  | evict : Step k .evict { k with entry := none } 0
  | other : Step k .other k 0

/-- Requests that wait for the flight. -/
def callers (k : Slot) : ℕ :=
  k.flight.elim 0 Flight.callers

/-- Answers 410 and failures leave no entry behind, and so do evictions and callers that give up. -/
def interrupts (k : Slot) : SlotEvent → Bool
  | .abandon | .evict | .dbSelect true => true
  | .request => k.entry.any fun en => en.Live k.now && respond k.now en.value = .gone
  | .insert => k.flight.any fun f =>
    match f.pc with
    | .insert value _ _ => respond k.now value = .gone
    | _ => false
  | _ => false

end Slot

/-- The steps that a flight takes. -/
def SlotEvent.isOwn : SlotEvent → Bool
  | .redisGet | .dbSelect _ | .insert => true
  | _ => false

/-- The events that ask Redis, or the database. -/
def SlotEvent.asks : Source → SlotEvent → Bool
  | .redis, .redisGet | .database, .dbSelect _ => true
  | _, _ => false

/-- What an event is for the slot of instance `i` and a code. -/
def WorldEvent.at (i : ℕ) (c : String) : WorldEvent → SlotEvent
  | .tick nanos => .tick nanos
  | .request j d => if j = i ∧ d = c then .request else .other
  | .redisGet j d _ => if j = i ∧ d = c then .redisGet else .other
  | .dbSelect j d replica =>
    if j = i ∧ d = c then .dbSelect (decide (replica = .error)) else .other
  | .insert j d => if j = i ∧ d = c then .insert else .other
  | .abandon j d => if j = i ∧ d = c then .abandon else .other
  | .evictL1 j d => if j = i ∧ d = c then .evict else .other
  | _ => .other

namespace World

/-- The slot of instance `i` and a code. -/
def slot (s : World) (i : ℕ) (c : String) : Slot :=
  { now := s.now, flight := s.flights i c, entry := s.l1 i c }

variable (encode : ℤ → String)

/-- How many requests an event of the slot answers. -/
def answered (i : ℕ) (c : String) (s : World) (e : WorldEvent) : ℕ :=
  match e.at i c with
  | .tick _ | .other => 0
  | _ => ((s.step encode e).map fun s' =>
      (s'.answers.drop s.answers.length).countP (·.shortCode = c)).getD 0

variable {encode} {s s' : World} {i : ℕ} {c : String}

/-! ## A step and a slot -/

@[simp] theorem slot_setFlight (s : World) (i : ℕ) (c : String) (f : Option Flight) :
    (s.setFlight i c f).slot i c = { s.slot i c with flight := f } := by
  simp [slot, setFlight]

theorem slot_setFlight_of_ne {j : ℕ} {d : String} (h : ¬(j = i ∧ d = c)) (s : World)
    (f : Option Flight) : (s.setFlight j d f).slot i c = s.slot i c := by
  have hflight : (s.setFlight j d f).flights i c = s.flights i c := by
    by_cases hj : i = j
    · subst hj
      exact setFlight_of_ne s i (fun hd => h ⟨rfl, hd.symm⟩) f
    · show Function.update s.flights j _ i c = _
      rw [Function.update_of_ne hj]
  rw [slot, hflight]
  rfl

@[simp] theorem slot_answer (s : World) (callers : ℕ) (d : String) (r : Response) :
    (s.answer callers d r).slot i c = s.slot i c :=
  rfl

@[simp] theorem slot_setL1 (s : World) (i : ℕ) (c : String) (l1 : L1Cache) :
    (s.setL1 i l1).slot i c = { s.slot i c with entry := l1 c } := by
  simp [slot, setL1]

theorem slot_setL1_of_ne {j : ℕ} {l1 : L1Cache} (h : j = i → l1 c = s.l1 j c) :
    (s.setL1 j l1).slot i c = s.slot i c := by
  have hentry : (s.setL1 j l1).l1 i c = s.l1 i c := by
    by_cases hj : j = i
    · subst hj
      rw [setL1_self, h rfl]
    · show Function.update s.l1 j l1 i c = _
      rw [Function.update_of_ne (Ne.symm hj)]
  rw [slot, hentry]
  rfl

theorem slot_answerWith_of_ne {j : ℕ} {d : String} (h : ¬(j = i ∧ d = c)) (s : World) (callers : ℕ)
    (value : CachedUrlResult) : (s.answerWith j callers d value).slot i c = s.slot i c := by
  refine slot_setL1_of_ne (s := s) fun hj => ?_
  have hc : c ≠ d := fun hc => h ⟨hj, hc.symm⟩
  unfold L1Cache.afterResponse
  split
  · exact TtlMap.remove_of_ne _ hc
  · rfl

/-- Answering from an entry that L1 has. -/
theorem slot_answerWith {en : Entry Instant CachedUrlResult} (hen : s.l1 i c = some en)
    (callers : ℕ) : (s.answerWith i callers c en.value).slot i c =
      { s.slot i c with entry := Slot.afterResponse s.now en } := by
  rw [answerWith, slot_answer, slot_setL1]
  unfold L1Cache.afterResponse Slot.afterResponse
  split
  · rw [TtlMap.remove_self]
  · rw [hen]

/-- Steps of other parties and for other codes leave a slot alone. -/
theorem Step.slot_other {e : WorldEvent} (hstep : s.Step encode e s') (he : e.at i c = .other) :
    s'.slot i c = s.slot i c := by
  have hne : ∀ {j : ℕ} {d : String} {k : SlotEvent}, k ≠ .other →
      (if j = i ∧ d = c then k else .other) = SlotEvent.other → ¬(j = i ∧ d = c) := by
    intro j d k hk hat hjd
    rw [if_pos hjd] at hat
    exact hk hat
  cases hstep with
  | tick nanos => cases he
  | hit _ _ => exact slot_answerWith_of_ne (hne (by decide) he) s _ _
  | join _ => exact slot_setFlight_of_ne (hne (by decide) he) s _
  | start j d =>
    exact slot_setFlight_of_ne (hne (by decide) he) { s with ticket := s.ticket + 1 } _
  | redisGet _ _ => exact slot_setFlight_of_ne (hne (by decide) he) s _
  | dbError _ => exact slot_setFlight_of_ne (hne (by simp) he) (s.answer _ _ _) _
  | dbMissing _ _ _ => exact slot_setFlight_of_ne (hne (by simp) he) _ _
  | dbRow _ _ _ => exact slot_setFlight_of_ne (hne (by simp) he) _ _
  | @insert j d f value source readAt _ _ =>
    have hjd : ¬(j = i ∧ d = c) := hne (by decide) he
    rw [slot_setFlight_of_ne hjd, slot_answerWith_of_ne hjd]
    apply slot_setL1_of_ne
    intro hj
    exact TtlMap.put_of_ne _ (fun hc => hjd ⟨hj, hc.symm⟩) _
  | abandon j d => exact slot_setFlight_of_ne (hne (by decide) he) s _
  | evictL1 j d =>
    have hjd : ¬(j = i ∧ d = c) := hne (by decide) he
    apply slot_setL1_of_ne
    intro hj
    exact TtlMap.remove_of_ne _ (fun hc => hjd ⟨hj, hc.symm⟩)
  | _ => rfl

/-- Requests answered by a step that logs these answers. -/
theorem answered_eq {e : WorldEvent} (hstep : s.step encode e = some s')
    (htick : ∀ n, e.at i c ≠ .tick n) (hother : e.at i c ≠ .other) {callers : ℕ} {r : Response}
    (hanswers : s'.answers = s.answers ++ List.replicate callers
      { shortCode := c, answeredAt := s.now, response := r, committed := s.db.history.length }) :
    answered encode i c s e = callers := by
  unfold answered
  split
  · rename_i n he
    exact absurd he (htick n)
  · rename_i he
    exact absurd he hother
  · rw [hstep, Option.map_some, Option.getD_some, hanswers, List.drop_left, List.countP_replicate,
      if_pos (by simp)]

theorem miss_of_get (h : (s.l1 i).get s.now c = none) : (s.slot i c).Miss := by
  intro en hen hlive
  have hget : (s.l1 i).get s.now c = some en.value := TtlMap.get_of_live hen hlive
  rw [hget] at h
  cases h

/-- A request to the instance, for the code. -/
theorem slot_request (s : World) (i : ℕ) (c : String) :
    (s.slot i c).Step .request ((s.request i c).slot i c)
      (answered encode i c s (.request i c)) := by
  have hat : WorldEvent.at i c (.request i c) = .request := if_pos ⟨rfl, rfl⟩
  have hgiven := @answered_eq encode s _ i c (.request i c) rfl (by simp [hat]) (by simp [hat])
  unfold World.request at hgiven ⊢
  split at hgiven
  · rename_i value hget
    obtain ⟨en, hen, rfl, hlive⟩ := TtlMap.get_eq_some hget
    rw [slot_answerWith hen, @hgiven 1 _ rfl]
    exact .hit hen hlive
  · rename_i hget
    split at hgiven
    · rename_i f hf
      rw [slot_setFlight, @hgiven 0 .notFound (List.append_nil _).symm]
      exact .join (miss_of_get hget) hf
    · rename_i hf
      rw [slot_setFlight, @hgiven 0 .notFound (List.append_nil _).symm]
      exact .start (miss_of_get hget) hf rfl rfl

theorem afterRedisGet_ne (s : World) (c : String) (ok : Bool) : s.afterRedisGet c ok ≠ .redisGet := by
  unfold afterRedisGet
  split
  · exact FlightPc.noConfusion
  · exact FlightPc.noConfusion

/-- **What a step of the system does to a slot.** -/
theorem step_slot {e : WorldEvent} (hstep : s.step encode e = some s') (i : ℕ) (c : String) :
    (s.slot i c).Step (e.at i c) (s'.slot i c) (answered encode i c s e) := by
  by_cases hother : e.at i c = .other
  · have hgiven : answered encode i c s e = 0 := by rw [answered, hother]
    rw [hother, hgiven, (step_cases hstep).slot_other hother]
    exact .other
  · have hself : ∀ {j : ℕ} {d : String} {k : SlotEvent},
        (if j = i ∧ d = c then k else .other) ≠ SlotEvent.other → j = i ∧ d = c := by
      intro j d k hat
      by_contra hjd
      exact hat (if_neg hjd)
    cases e with
    | tick nanos =>
      obtain rfl := Option.some.inj hstep
      exact .tick nanos
    | request j d =>
      obtain ⟨rfl, rfl⟩ := hself hother
      obtain rfl := Option.some.inj hstep
      rw [show WorldEvent.at j d (.request j d) = .request from if_pos ⟨rfl, rfl⟩]
      exact slot_request s j d
    | redisGet j d ok =>
      obtain ⟨rfl, rfl⟩ := hself hother
      have hat : WorldEvent.at j d (.redisGet j d ok) = .redisGet := if_pos ⟨rfl, rfl⟩
      have hgiven := @answered_eq encode s s' j d _ hstep (by simp [hat]) hother
      simp only [step] at hstep
      split at hstep
      · rename_i f hf
        split at hstep
        · rename_i hpc
          obtain rfl := Option.some.inj hstep
          rw [hat, slot_setFlight, @hgiven 0 .notFound (List.append_nil _).symm]
          exact .redisGet hf hpc (afterRedisGet_ne s d ok)
        · cases hstep
      · cases hstep
    | dbSelect j d replica =>
      obtain ⟨rfl, rfl⟩ := hself hother
      have hat : WorldEvent.at j d (.dbSelect j d replica) = .dbSelect (decide (replica = .error)) :=
        if_pos ⟨rfl, rfl⟩
      have hgiven := @answered_eq encode s s' j d _ hstep (by simp [hat]) hother
      have hpc : ∀ f, s.flights j d = some f → f.pc = .dbSelect := by
        intro f hf
        by_contra hpc
        simp [step, hf, hpc] at hstep
      rw [hat]
      cases step_cases hstep with
      | dbError hf =>
        rw [slot_setFlight, slot_answer, hgiven rfl, decide_eq_true rfl]
        exact .failed hf (hpc _ hf)
      | @dbMissing _ _ f _ urls hf htable _ =>
        have hne : replica ≠ .error := by
          rintro rfl
          cases htable
        rw [slot_setFlight, @hgiven 0 .notFound (List.append_nil _).symm, decide_eq_false hne]
        exact .selected hf (hpc _ hf)
      | @dbRow _ _ f _ urls originalUrl expiresAt hf htable _ =>
        have hne : replica ≠ .error := by
          rintro rfl
          cases htable
        rw [slot_setFlight, @hgiven 0 .notFound (List.append_nil _).symm, decide_eq_false hne]
        exact .selected hf (hpc _ hf)
    | insert j d =>
      obtain ⟨rfl, rfl⟩ := hself hother
      have hat : WorldEvent.at j d (.insert j d) = .insert := if_pos ⟨rfl, rfl⟩
      have hgiven := @answered_eq encode s s' j d _ hstep (by simp [hat]) hother
      rw [hat]
      cases step_cases hstep with
      | @insert _ _ f value source readAt hf hpc =>
        have hen : (s.setL1 j ((s.l1 j).insert s.now d value)).l1 j d =
            some { value, deadline := some (s.now + l1TimeToLive) } := by
          rw [setL1_self]
          exact TtlMap.put_self _ _ _
        rw [slot_setFlight, slot_answerWith hen, hgiven rfl, slot_setL1]
        exact .insert hf hpc
    | abandon j d =>
      obtain ⟨rfl, rfl⟩ := hself hother
      have hat : WorldEvent.at j d (.abandon j d) = .abandon := if_pos ⟨rfl, rfl⟩
      have hgiven := @answered_eq encode s s' j d _ hstep (by simp [hat]) hother
      obtain rfl := Option.some.inj hstep
      rw [hat, slot_setFlight, @hgiven 0 .notFound (List.append_nil _).symm]
      exact .abandon
    | evictL1 j d =>
      obtain ⟨rfl, rfl⟩ := hself hother
      have hat : WorldEvent.at j d (.evictL1 j d) = .evict := if_pos ⟨rfl, rfl⟩
      have hgiven := @answered_eq encode s s' j d _ hstep (by simp [hat]) hother
      obtain rfl := Option.some.inj hstep
      rw [hat, slot_setL1, TtlMap.remove_self, @hgiven 0 .notFound (List.append_nil _).symm]
      exact .evict
    | _ => exact absurd rfl hother

end World

/-! ## Requests are conserved -/

namespace Slot

variable {k k' : Slot} {e : SlotEvent} {n : ℕ}

/-- A request joins the callers, and callers leave with an answer or by giving up. -/
theorem Step.callers (h : k.Step e k' n) :
    n + (if e = .abandon then k.callers else 0) + k'.callers =
      (if e = .request then 1 else 0) + k.callers := by
  cases h with
  | hit _ _ => rfl
  | join _ hf => simp [Slot.callers, hf, Nat.add_comm]
  | start _ hf hcallers _ => simp [Slot.callers, hf, hcallers]
  | redisGet hf _ _ => simp [Slot.callers, hf]
  | selected hf _ => simp [Slot.callers, hf]
  | failed hf _ => simp [Slot.callers, hf]
  | insert hf _ => simp [Slot.callers, hf]
  | _ => simp [Slot.callers]

end Slot

namespace World

variable {encode : ℤ → String} {s s' t : World}

end World

/-! ## A flight needs three steps -/

/-- The steps a flight has left. -/
def FlightPc.left : FlightPc → ℕ
  | .redisGet => 3
  | .dbSelect => 2
  | .insert .. => 1

namespace Slot

variable {k k' : Slot} {e : SlotEvent} {n : ℕ}

/-- A flight goes on with its callers, one step further when the step is its own, unless it answers them. -/
theorem Step.flight (h : k.Step e k' n) (habandon : e ≠ .abandon) {f : Flight} (hf : k.flight = some f) :
    f.callers ≤ n ∨ ∃ f', k'.flight = some f' ∧ f.callers ≤ f'.callers ∧
      f'.pc.left ≤ f.pc.left - (if e.isOwn then 1 else 0) := by
  cases h with
  | tick _ => exact Or.inr ⟨f, hf, le_refl _, le_refl _⟩
  | hit _ _ => exact Or.inr ⟨f, hf, le_refl _, le_refl _⟩
  | @join g _ hg =>
    obtain rfl := Option.some.inj (hf.symm.trans hg)
    exact Or.inr ⟨_, rfl, Nat.le_succ _, le_refl _⟩
  | start _ hnone _ _ =>
    rw [hf] at hnone
    cases hnone
  | @redisGet g pc hg hpc hpc' =>
    obtain rfl := Option.some.inj (hf.symm.trans hg)
    refine Or.inr ⟨_, rfl, le_refl _, ?_⟩
    rw [hpc]
    cases pc with
    | redisGet => exact absurd rfl hpc'
    | dbSelect => exact le_refl _
    | insert => exact Nat.le_succ _
  | @selected g value hg hpc =>
    obtain rfl := Option.some.inj (hf.symm.trans hg)
    refine Or.inr ⟨_, rfl, le_refl _, ?_⟩
    rw [hpc]
    exact le_refl _
  | @failed g hg hpc =>
    obtain rfl := Option.some.inj (hf.symm.trans hg)
    exact Or.inl (le_refl _)
  | @insert g _ _ _ hg hpc =>
    obtain rfl := Option.some.inj (hf.symm.trans hg)
    exact Or.inl (le_refl _)
  | abandon => exact absurd rfl habandon
  | evict => exact Or.inr ⟨f, hf, le_refl _, le_refl _⟩
  | other => exact Or.inr ⟨f, hf, le_refl _, le_refl _⟩

end Slot

namespace World

variable {encode : ℤ → String} {s s' t : World}

/-- **Every lookup ends.** A flight can always take a step of its own; and when it has taken three, whatever
else happened in between, everyone who waited for it is answered, unless they gave up. -/
theorem lookup_ends {es : List WorldEvent} (hrun : Run (step encode) Any s es t) {i : ℕ} {c : String}
    {f : Flight} (hf : s.flights i c = some f) (habandon : ∀ e ∈ es, e.at i c ≠ .abandon) :
    (∃ e, (e.at i c).isOwn ∧ (step encode s e).isSome) ∧
      (f.pc.left ≤ es.countP (fun e => (e.at i c).isOwn) →
        f.callers ≤ total (step encode) (answered encode i c) s es) := by
  constructor
  · cases hpc : f.pc with
    | redisGet => exact ⟨.redisGet i c true, by simp [WorldEvent.at, SlotEvent.isOwn], by simp [step, hf, hpc]⟩
    | dbSelect =>
      exact ⟨.dbSelect i c .error, by simp [WorldEvent.at, SlotEvent.isOwn],
        by simp [step, hf, hpc, afterDbSelect]⟩
    | insert => exact ⟨.insert i c, by simp [WorldEvent.at, SlotEvent.isOwn], by simp [step, hf, hpc]⟩
  · induction hrun generalizing f with
    | nil s =>
      intro hleft
      cases hpc : f.pc <;> simp [FlightPc.left, hpc] at hleft
    | @cons s s' t e es _ hstep _ ih =>
      intro hleft
      rw [total_cons hstep]
      have hhead := (step_slot hstep i c).flight (habandon e List.mem_cons_self) hf
      rcases hhead with hnow | ⟨f', hf', hcallers, hleft'⟩
      · exact hnow.trans (Nat.le_add_right _ _)
      · have hlater := ih hf' (fun e he => habandon e (List.mem_cons_of_mem _ he)) (by
          rw [List.countP_cons] at hleft
          omega)
        omega

/-- A request for an unknown code is answered after a `GET`, a `SELECT` and the insert. -/
theorem lookup_ends_of_unknown_code :
    1 ≤ total (step base62Encode) (answered base62Encode 0 "1") ((init 0).request 0 "1")
      [.redisGet 0 "1" true, .tick 5, .dbSelect 0 "1" .primary, .insert 0 "1"] := by
  obtain ⟨t, hrun, _⟩ := exists_run_of_exec (step base62Encode) Any ((init 0).request 0 "1")
    [.redisGet 0 "1" true, .tick 5, .dbSelect 0 "1" .primary, .insert 0 "1"] (fun _ => true) (by decide)
  exact (lookup_ends hrun (f := { ticket := 0, callers := 1, pc := .redisGet }) rfl (by decide)).2
    (by decide)

end World

/-! ## The spacing of questions -/

/-- Has the flight asked, or will it not ask any more? -/
def FlightPc.asked : Source → FlightPc → Bool
  | _, .redisGet => false
  | source, .dbSelect => source = .redis
  | _, .insert .. => true

namespace Slot

variable {k k' : Slot} {e : SlotEvent} {n : ℕ}

/-- The time from which the slot may ask. -/
def readyAt (source : Source) (k : Slot) : Instant :=
  match k.flight with
  | some f => if f.pc.asked source then k.now + l1TimeToLive else k.now
  | none => ((k.entry.bind Entry.deadline).map (max k.now)).getD k.now

/-- Entries live for three seconds at most, and there is no flight beside a live one. -/
structure Kept (k : Slot) : Prop where
  deadline : ∀ en ∈ k.entry, ∃ d, en.deadline = some d ∧ d ≤ k.now + l1TimeToLive
  miss : k.flight.isSome → k.Miss

theorem now_le_readyAt (source : Source) (k : Slot) : k.now ≤ k.readyAt source := by
  unfold readyAt
  split
  · split
    · exact le_add_of_nonneg_right (by decide)
    · exact le_refl _
  · cases k.entry.bind Entry.deadline with
    | none => exact le_refl _
    | some d => exact le_max_left _ _

theorem Kept.readyAt_le (h : k.Kept) (source : Source) :
    k.readyAt source ≤ k.now + l1TimeToLive := by
  have hpos : k.now ≤ k.now + l1TimeToLive := le_add_of_nonneg_right (by decide)
  unfold readyAt
  split
  · split
    · exact le_refl _
    · exact hpos
  · cases hd : k.entry.bind Entry.deadline with
    | none => exact hpos
    | some d =>
      obtain ⟨en, hen, hend⟩ := Option.bind_eq_some_iff.mp hd
      obtain ⟨d', hd', hle⟩ := h.deadline en hen
      obtain rfl := Option.some.inj (hend.symm.trans hd')
      exact max_le hpos hle

theorem Miss.readyAt (h : k.Miss) (hf : k.flight = none) (source : Source) :
    k.readyAt source = k.now := by
  unfold Slot.readyAt
  rw [hf]
  cases hd : k.entry.bind Entry.deadline with
  | none => rfl
  | some d =>
    obtain ⟨en, hen, hend⟩ := Option.bind_eq_some_iff.mp hd
    refine max_eq_left (not_lt.mp fun hlt => h en hen ?_)
    intro d' hd'
    obtain rfl := Option.some.inj (hend.symm.trans hd')
    exact hlt

theorem readyAt_flight {f : Flight} (hf : k.flight = some f) (source : Source) :
    k.readyAt source = k.now + if f.pc.asked source then l1TimeToLive else 0 := by
  unfold Slot.readyAt
  rw [hf]
  show (if f.pc.asked source then k.now + l1TimeToLive else k.now) = _
  split
  · rfl
  · exact (add_zero _).symm

theorem Kept.step (h : k.Kept) (hstep : k.Step e k' n) : k'.Kept := by
  obtain ⟨hdeadline, hmiss⟩ := h
  cases hstep with
  | tick nanos =>
    have hnow : k.now ≤ k.now + nanos := le_add_of_nonneg_right (Int.natCast_nonneg nanos)
    refine ⟨?_, ?_⟩
    · intro en hen
      obtain ⟨d, hd, hle⟩ := hdeadline en hen
      exact ⟨d, hd, hle.trans (add_le_add_left hnow _)⟩
    · intro hf en hen hlive
      exact hmiss hf en hen fun d hd => hnow.trans_lt (hlive d hd)
  | hit hen hlive =>
    refine ⟨?_, fun hf => absurd hlive (hmiss hf _ hen)⟩
    intro en' hen'
    simp only [afterResponse] at hen'
    split at hen'
    · cases hen'
    · obtain rfl := Option.some.inj hen'
      exact hdeadline _ hen
  | join hk _ => exact ⟨hdeadline, fun _ => hk⟩
  | start hk _ _ _ => exact ⟨hdeadline, fun _ => hk⟩
  | redisGet hf _ _ => exact ⟨hdeadline, fun _ => hmiss (by rw [hf]; rfl)⟩
  | selected hf _ => exact ⟨hdeadline, fun _ => hmiss (by rw [hf]; rfl)⟩
  | failed _ _ => exact ⟨hdeadline, fun hf => Bool.noConfusion hf⟩
  | insert _ _ =>
    refine ⟨?_, fun hf => Bool.noConfusion hf⟩
    intro en hen
    simp only [afterResponse] at hen
    split at hen
    · cases hen
    · obtain rfl := Option.some.inj hen
      exact ⟨_, rfl, le_refl _⟩
  | abandon => exact ⟨hdeadline, fun hf => Bool.noConfusion hf⟩
  | evict =>
    refine ⟨?_, ?_⟩
    · intro en hen
      cases hen
    · intro _ en hen
      cases hen
  | other => exact ⟨hdeadline, hmiss⟩

theorem asked_redis {pc : FlightPc} (hpc : pc ≠ .redisGet) : pc.asked .redis = true := by
  cases pc with
  | redisGet => exact absurd rfl hpc
  | dbSelect => rfl
  | insert => rfl

/-- An interruption costs a slot three seconds at most. -/
theorem Kept.interrupted (h : k.Kept) {source : Source} (hasks : e.asks source = false)
    (hinterrupts : k.interrupts e = true) (hnow : k'.now = k.now) :
    (if e.asks source then l1TimeToLive else 0) + k.readyAt source ≤
      (if k.interrupts e then l1TimeToLive else 0) + k'.readyAt source := by
  rw [hasks, if_neg (by decide), if_pos hinterrupts]
  have hle := h.readyAt_le source
  have hle' := now_le_readyAt source k'
  rw [hnow] at hle'
  linarith

/-- A slot that asks was ready, and is ready again three seconds later unless it is interrupted. -/
theorem Step.readyAt (hk : k.Kept) (h : k.Step e k' n) (source : Source) :
    (if e.asks source then l1TimeToLive else 0) + k.readyAt source ≤
      (if k.interrupts e then l1TimeToLive else 0) + k'.readyAt source := by
  have hpos : 0 ≤ l1TimeToLive := by decide
  have hrequest : SlotEvent.request.asks source = false := by cases source <;> rfl
  have hinsert : SlotEvent.insert.asks source = false := by cases source <;> rfl
  cases h with
  | tick nanos =>
    have hnow : k.now ≤ k.now + nanos := le_add_of_nonneg_right (Int.natCast_nonneg nanos)
    have hasks : (SlotEvent.tick nanos).asks source = false := by cases source <;> rfl
    rw [hasks]
    show 0 + _ ≤ 0 + _
    rw [zero_add, zero_add]
    unfold Slot.readyAt
    show (match k.flight with | some f => _ | none => _) ≤ match k.flight with | some f => _ | none => _
    split
    · split
      · exact add_le_add_left hnow _
      · exact hnow
    · cases k.entry.bind Entry.deadline with
      | none => exact hnow
      | some d => exact max_le_max hnow (le_refl d)
  | @hit en hen hlive =>
    by_cases hgone : respond k.now en.value = .gone
    · exact hk.interrupted hrequest (by simp [interrupts, hen, hlive, hgone]) rfl
    · have hentry : afterResponse k.now en = k.entry := by
        rw [hen]
        exact if_neg hgone
      have hquiet : k.interrupts .request = false := by simp [interrupts, hen, hlive, hgone]
      rw [hrequest, hquiet, hentry]
  | @join f hmiss hf =>
    rw [hrequest, if_neg (by decide), zero_add, readyAt_flight hf, readyAt_flight rfl]
    split <;> split <;> linarith
  | @start f hmiss hf hcallers hpc =>
    rw [hrequest, if_neg (by decide), zero_add, hmiss.readyAt hf]
    have hle := now_le_readyAt source { k with flight := some f }
    split <;> linarith
  | @redisGet f pc hf hpc hpc' =>
    rw [readyAt_flight hf, hpc]
    cases source with
    | redis =>
      rw [readyAt_flight rfl, asked_redis hpc']
      simp [SlotEvent.asks, interrupts, FlightPc.asked, add_comm]
    | database =>
      have hle := now_le_readyAt .database { k with flight := some { f with pc } }
      simpa [SlotEvent.asks, interrupts, FlightPc.asked] using hle
  | @selected f value hf hpc =>
    rw [readyAt_flight hf, readyAt_flight rfl, hpc]
    cases source <;> simp [SlotEvent.asks, interrupts, FlightPc.asked, add_comm]
  | @failed f hf hpc =>
    have hle := now_le_readyAt source { k with flight := none }
    rw [readyAt_flight hf, hpc]
    cases source <;> simp [SlotEvent.asks, interrupts, FlightPc.asked] at hle ⊢ <;> linarith
  | @insert f value src readAt hf hpc =>
    by_cases hgone : respond k.now value = .gone
    · exact hk.interrupted hinsert (by simp [interrupts, hf, hpc, hgone]) rfl
    · have hquiet : k.interrupts .insert = false := by simp [interrupts, hf, hpc, hgone]
      rw [hinsert, hquiet, readyAt_flight hf, hpc]
      simp [Slot.readyAt, afterResponse, hgone, hpos, FlightPc.asked]
  | abandon => exact hk.interrupted (by cases source <;> rfl) rfl rfl
  | evict => exact hk.interrupted (by cases source <;> rfl) rfl rfl
  | other =>
    have hasks : SlotEvent.other.asks source = false := by cases source <;> rfl
    rw [hasks]
    exact le_refl _

end Slot

namespace World

variable {encode : ℤ → String} {s s' t : World}

theorem kept_init (now : Instant) (i : ℕ) (c : String) : ((init now).slot i c).Kept := by
  refine ⟨?_, fun hf => Bool.noConfusion hf⟩
  intro en hen
  cases hen

/-- The events that interrupt a slot. -/
def interruptions (encode : ℤ → String) (i : ℕ) (c : String) (s : World) (es : List WorldEvent) : ℕ :=
  total (step encode) (fun s e => if (s.slot i c).interrupts (e.at i c) then 1 else 0) s es

/-- **The herd is held back.** While a reachable system runs, one instance asks Redis, and the database, about
one code at most once in three seconds, and once more for the first time and for each interruption. -/
theorem asks_spaced {now : Instant} {es₀ es : List WorldEvent}
    (hbefore : Run (step encode) Any (init now) es₀ s) (hrun : Run (step encode) Any s es t)
    (source : Source) (i : ℕ) (c : String) :
    es.countP (fun e => (e.at i c).asks source) * l1TimeToLive ≤
      t.now - s.now + (interruptions encode i c s es + 1) * l1TimeToLive := by
  have hstep : ∀ s e s', (s.slot i c).Kept → Any s e → step encode s e = some s' →
      (s'.slot i c).Kept := by
    intro s e s' hkept _ hst
    exact hkept.step (step_slot hst i c)
  have hkept := hbefore.induct hstep (kept_init now i c)
  have hkept' := hrun.induct hstep hkept
  have hsum := Run.total_add_le (P := Any) (I := fun s => (s.slot i c).Kept)
    (fun _ e => if (e.at i c).asks source then l1TimeToLive else 0)
    (fun s e => if (s.slot i c).interrupts (e.at i c) then l1TimeToLive else 0)
    (fun s => (s.slot i c).readyAt source) hstep
    (fun s e s' hkept _ hst => (step_slot hst i c).readyAt hkept source) hrun hkept
  rw [hrun.total_ite (fun _ e => (e.at i c).asks source), hrun.total_count,
    hrun.total_ite fun s e => (s.slot i c).interrupts (e.at i c), nsmul_eq_mul, nsmul_eq_mul] at hsum
  have hle : s.now ≤ (s.slot i c).readyAt source := (s.slot i c).now_le_readyAt source
  have hle' : (t.slot i c).readyAt source ≤ t.now + l1TimeToLive := hkept'.readyAt_le source
  unfold interruptions
  linarith

/-- Two requests three seconds apart, without Redis: two `SELECT`s, as many as the bound allows. -/
theorem asks_spaced_of_two_requests :
    ∃ t : World, ∃ es : List WorldEvent,
      es.countP (fun e => (e.at 0 "1").asks .database) = 2 ∧ t.now = l1TimeToLive ∧
      interruptions base62Encode 0 "1" (init 0) es = 0 ∧
      es.countP (fun e => (e.at 0 "1").asks .database) * l1TimeToLive ≤
        t.now - 0 + (interruptions base62Encode 0 "1" (init 0) es + 1) * l1TimeToLive := by
  let es : List WorldEvent := shortenEvents 0 1 "https://a.example" none ++ missEvents 0 "1" ++
    [.insert 0 "1", .tick 3000000000] ++ missEvents 0 "1"
  obtain ⟨t, hrun, ht⟩ := exists_run_of_exec (step base62Encode) Any (init 0) es
    (fun t => t.now = l1TimeToLive) (by decide)
  exact ⟨t, es, by decide, by simpa using ht, by decide, asks_spaced (.nil _) hrun .database 0 "1"⟩

end World

end Bittuly.Urls
