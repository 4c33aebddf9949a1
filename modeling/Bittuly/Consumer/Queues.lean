import Bittuly.Consumer.UserDeleted
import Bittuly.Lib.Declare

/-!
# Who declares the queues

References: `libs/shared/src/rabbitmq.rs` (`init_rabbitmq_pool`), `services/consumer-service/src/main.rs`
(`main`), `services/auth-service/src/handlers.rs`, `services/url-service/src/handlers.rs`.

Each instance of each service declares the queues when it starts, from two lists in different order. The
broker refuses a declaration that differs from an earlier one, and closes the channel. `queues_agree`: this
never happens, and once all declarations of an instance have been accepted, every queue is there that anyone
publishes to.

An instance that is started may also not come so far: `init_rabbitmq_pool` logs that the broker is away or that
a declaration has failed, and returns the pool all the same.
-/

namespace Bittuly.UserDeleted

open Amqp Runs

/-- The queues that `init_rabbitmq_pool` declares, in source order. -/
def poolQueues : List QueueDecl :=
  [{ name := "user_deleted_dlq" }, { name := "user_deleted_queue" }, { name := "click_events_queue" }] ++
    [3, 9, 27].map fun delay : ℕ =>
      { name := s!"user_deleted_retry_{delay}s"
        deadLetter := some { ttlMs := delay * 1000, exchange := "", routingKey := "user_deleted_queue" } }

inductive Service
  | auth
  | url
  | consumer
deriving DecidableEq, Repr

/-- What an instance declares when it starts. -/
def Service.queues : Service → List QueueDecl
  | .auth | .url => poolQueues
  | .consumer => declaredQueues

/-- The routing keys of its messages. -/
def Service.PublishesTo : Service → String → Prop
  | .auth, key => key = "user_deleted_queue"
  | .url, key => key = "click_events_queue"
  | .consumer, key => ∃ m m', route m = some (key, m')

/-- Instances of the services, which start, declare, stop and start again in any interleaving. -/
abbrev startup : Declare.Registry (Service × ℕ) QueueDecl → Declare.Event (Service × ℕ) →
    Option (Declare.Registry (Service × ℕ) QueueDecl) :=
  Declare.step QueueDecl.name fun i => i.1.queues

theorem queues_perm (service : Service) : service.queues.Perm declaredQueues := by
  cases service with
  | auth => decide
  | url => decide
  | consumer => exact .refl _

theorem declaredQueues_unique :
    ∀ d ∈ declaredQueues, ∀ d' ∈ declaredQueues, d.name = d'.name → d = d' := by
  decide

/-- A power of three that an `i32` holds, of an exponent that comes from an `i32` below three. -/
theorem delaySecs_eq_some {n delay : Int32} (hn : ¬3 ≤ n) (h : delaySecs n = some delay) :
    delay ∈ [3, 9, 27] := by
  obtain ⟨⟨-, hpow⟩, hdelay⟩ := Option.ite_none_right_eq_some.mp h
  have hsmall : n.toUInt32.toNat < 19 := by
    by_contra hge
    have := Nat.pow_le_pow_right (n := 3) (by decide) (show 20 ≤ n.toUInt32.toNat + 1 by omega)
    omega
  have heq : n = (UInt32.ofNat n.toUInt32.toNat).toInt32 := by
    rw [UInt32.ofNat_toNat, Int32.toInt32_toUInt32]
  obtain rfl := Option.some.inj hdelay
  -- nineteen counts are left, and three of them are below three
  clear h hdelay hpow
  generalize n.toUInt32.toNat = k at hsmall heq
  subst heq
  revert k
  decide

/-- A message that fails goes to a queue that is declared. -/
theorem route_declared {m m' : Message} {key : String} (h : route m = some (key, m')) :
    key ∈ declaredQueues.map QueueDecl.name := by
  unfold route at h
  split at h
  · obtain ⟨rfl, -⟩ := Prod.mk.inj (Option.some.inj h)
    decide
  · rename_i hcount
    obtain ⟨delay, hdelay, heq⟩ := Option.map_eq_some_iff.mp h
    obtain ⟨rfl, -⟩ := Prod.mk.inj heq
    have hmem := delaySecs_eq_some hcount hdelay
    simp only [List.mem_cons, List.not_mem_nil, or_false] at hmem
    rcases hmem with rfl | rfl | rfl
    · decide
    · decide
    · decide

theorem publishesTo_declared {service : Service} {key : String} (h : service.PublishesTo key) :
    key ∈ declaredQueues.map QueueDecl.name := by
  cases service with
  | auth =>
    obtain rfl : key = "user_deleted_queue" := h
    decide
  | url =>
    obtain rfl : key = "click_events_queue" := h
    decide
  | consumer =>
    obtain ⟨m, m', hroute⟩ := h
    exact route_declared hroute

/-- **The services agree on the queues**, and an instance whose declarations were all accepted has them. -/
theorem queues_agree {es : List (Declare.Event (Service × ℕ))}
    {s : Declare.Registry (Service × ℕ) QueueDecl} (hrun : Run startup Any Declare.init es s) :
    s.refused = [] ∧ ∀ i, s.todo i = some [] → s.declared.Perm declaredQueues ∧
      ∀ (service : Service) (key : String), service.PublishesTo key →
        key ∈ s.declared.map QueueDecl.name := by
  have hconsistent : Declare.Consistent QueueDecl.name fun i : Service × ℕ => i.1.queues := by
    intro i j d hd d' hd' hname
    exact declaredQueues_unique d ((queues_perm i.1).subset hd) d' ((queues_perm j.1).subset hd') hname
  refine ⟨Declare.never_refused_iff.mpr hconsistent es s hrun, fun i hi => ?_⟩
  have hinv := Declare.inv_of_run hrun
  have hperm : s.declared.Perm declaredQueues := by
    refine (List.perm_ext_iff_of_nodup hinv.nodup (by decide)).mpr fun d => ⟨fun hd => ?_, fun hd => ?_⟩
    · obtain ⟨j, hj⟩ := hinv.scripted d hd
      exact (queues_perm j.1).subset hj
    · exact hinv.through hi d ((queues_perm i.1).symm.subset hd)
  exact ⟨hperm, fun service key hkey => (hperm.map _).symm.subset (publishesTo_declared hkey)⟩

/-- The consumer and url-service start at once; url-service stops and starts again. -/
theorem queues_agree_of_restart : ∃ s : Declare.Registry (Service × ℕ) QueueDecl, s.refused = [] ∧
    s.declared.Perm declaredQueues := by
  obtain ⟨s, hrun, hthrough⟩ := exists_run_of_exec startup Any Declare.init
    [.start (.consumer, 0), .declare (.consumer, 0), .start (.url, 0), .declare (.url, 0), .declare (.url, 0),
      .declare (.consumer, 0), .stop (.url, 0), .declare (.consumer, 0), .start (.url, 0),
      .declare (.consumer, 0), .declare (.url, 0), .declare (.consumer, 0), .declare (.consumer, 0)]
    (fun s => decide (s.todo (.consumer, 0) = some [])) (by decide)
  obtain ⟨hrefused, hdeclared⟩ := queues_agree hrun
  exact ⟨s, hrefused, (hdeclared (.consumer, 0) (of_decide_eq_true hthrough)).1⟩

end Bittuly.UserDeleted
