import Mathlib.Data.List.Basic
import Mathlib.Tactic.Ring

/- This file keeps a session attached to its project's daemon, and shows how it backs off. -/

namespace Codegraph.Daemon

/-- A duration counts nanoseconds. -/
def durationMax : Nat := (2 ^ 64 - 1) * 10 ^ 9 + 999999999

def fromMillis (millis : Nat) : Nat := millis * 10 ^ 6

structure DaemonRetryPolicy where
  base : Nat
  max : Nat

/-- The cap is never below the base. -/
def DaemonRetryPolicy.fromMillis (baseMs maxMs : UInt64) : DaemonRetryPolicy :=
  ⟨Daemon.fromMillis baseMs.toNat, Daemon.fromMillis (Max.max maxMs.toNat baseMs.toNat)⟩

def DaemonRetryPolicy.retries (policy : DaemonRetryPolicy) : Bool := decide (policy.base ≠ 0)

def DaemonRetryPolicy.next (policy : DaemonRetryPolicy) (delay : Nat) : Nat :=
  min (min (delay * 2) durationMax) policy.max

inductive Attach where
  | justSpawned
  | startIfAbsent
  deriving DecidableEq

/-- What the keeper did. A retry has waited its delay and was allowed. -/
inductive KeeperEffect where
  | attach (mode : Attach) (attached : Bool)
  | poll (live : Bool)
  | retry (delay : Nat)
  deriving DecidableEq

inductive KeeperPlace where
  | attaching
  | holding
  | unattached
  | stopped
  deriving DecidableEq

/-- The field `log` is newest first, and no step reads it. -/
structure LeaseKeeper where
  place : KeeperPlace
  mode : Attach
  delay : Nat
  log : List KeeperEffect

/-- How the injected effects answer. -/
structure KeeperAnswer where
  attaches : Bool
  waits : Bool
  live : Bool
  mayRetry : Bool

def keeperStep (policy : DaemonRetryPolicy) (keeper : LeaseKeeper) (answer : KeeperAnswer) : LeaseKeeper :=
  match keeper.place with
  | .attaching =>
    let log := .attach keeper.mode answer.attaches :: keeper.log
    if answer.attaches then { keeper with place := .holding, delay := policy.base, log }
    else { keeper with place := .unattached, log }
  | .holding =>
    if !answer.waits then { keeper with place := .stopped }
    else { keeper with
        place := if answer.live then .holding else .unattached, log := .poll answer.live :: keeper.log }
  | .unattached =>
    if !policy.retries || !answer.waits || !answer.mayRetry then { keeper with place := .stopped }
    else ⟨.attaching, .startIfAbsent, policy.next keeper.delay, .retry keeper.delay :: keeper.log⟩
  | .stopped => keeper

def runKeeper (policy : DaemonRetryPolicy) (answers : List KeeperAnswer) : LeaseKeeper :=
  answers.foldl (keeperStep policy) ⟨.attaching, .justSpawned, policy.base, []⟩

/-- The retries since the keeper last held a lease. -/
def retriesSinceLease : List KeeperEffect → Nat
  | [] => 0
  | .attach _ attached :: earlier => if attached then 0 else retriesSinceLease earlier
  | .poll _ :: earlier => retriesSinceLease earlier
  | .retry _ :: earlier => retriesSinceLease earlier + 1

/-- The delay doubles with every retry up to the cap. -/
def DaemonRetryPolicy.backoff (policy : DaemonRetryPolicy) (retries : Nat) : Nat :=
  min (policy.base * 2 ^ retries) policy.max

/-- Where the keeper stands after its newest effect. -/
def placeAfter : List KeeperEffect → KeeperPlace
  | [] | .retry _ :: _ => .attaching
  | .attach _ ready :: _ | .poll ready :: _ => if ready then .holding else .unattached

/-- Only the first attach trusts the daemon just spawned. No attach and no retry comes while a lease is live, every
later attach comes right after a retry, and every retry waits for its backoff. -/
def Orderly (policy : DaemonRetryPolicy) : List KeeperEffect → Prop
  | [] => True
  | effect :: earlier =>
    (match effect with
      | .attach mode _ => placeAfter earlier = .attaching ∧ (mode = .justSpawned ↔ earlier = [])
      | .poll _ => placeAfter earlier = .holding
      | .retry delay =>
        placeAfter earlier = .unattached ∧ policy.retries = true ∧
          delay = policy.backoff (retriesSinceLease earlier)) ∧
      Orderly policy earlier

/-- The keeper waits within the policy, and its place fits its mode. -/
structure Kept (policy : DaemonRetryPolicy) (keeper : LeaseKeeper) : Prop where
  orderly : Orderly policy keeper.log
  place : keeper.place = .stopped ∨ placeAfter keeper.log = keeper.place
  delay : keeper.delay = policy.backoff (retriesSinceLease keeper.log)
  mode : keeper.place = .attaching → (keeper.mode = .justSpawned ↔ keeper.log = [])

variable {policy : DaemonRetryPolicy}

theorem next_backoff (room : policy.max * 2 ≤ durationMax) (retries : Nat) :
    policy.next (policy.backoff retries) = policy.backoff (retries + 1) := by
  have doubled : policy.base * 2 ^ (retries + 1) = policy.base * 2 ^ retries * 2 := by ring
  unfold DaemonRetryPolicy.next DaemonRetryPolicy.backoff
  omega

theorem backoff_zero (capped : policy.base ≤ policy.max) : policy.base = policy.backoff 0 := by
  simp [DaemonRetryPolicy.backoff, capped]

/-- No answer takes the keeper out of its policy. -/
theorem keeperStep_keeps {keeper : LeaseKeeper} (capped : policy.base ≤ policy.max)
    (room : policy.max * 2 ≤ durationMax)
    (answer : KeeperAnswer) (kept : Kept policy keeper) : Kept policy (keeperStep policy keeper answer) := by
  obtain ⟨orderly, place, delay, mode⟩ := kept
  unfold keeperStep
  cases here : keeper.place with
  | attaching =>
    have stands : placeAfter keeper.log = .attaching := (place.resolve_left (by rw [here]; decide)).trans here
    have ordered : Orderly policy (.attach keeper.mode answer.attaches :: keeper.log) :=
      ⟨⟨stands, mode here⟩, orderly⟩
    dsimp only
    split
    next yes =>
      exact ⟨ordered, .inr (by simp [placeAfter, yes]),
        by simpa [retriesSinceLease, yes] using backoff_zero capped, nofun⟩
    next no => exact ⟨ordered, .inr (by simp [placeAfter, no]), by simpa [retriesSinceLease, no] using delay, nofun⟩
  | holding =>
    have stands : placeAfter keeper.log = .holding := (place.resolve_left (by rw [here]; decide)).trans here
    dsimp only
    split
    · exact ⟨orderly, .inl rfl, delay, nofun⟩
    · refine ⟨⟨stands, orderly⟩, .inr rfl, delay, ?_⟩
      cases answer.live <;> nofun
  | unattached =>
    have stands : placeAfter keeper.log = .unattached := (place.resolve_left (by rw [here]; decide)).trans here
    dsimp only
    split
    · exact ⟨orderly, .inl rfl, delay, nofun⟩
    next open_ =>
      have retries : policy.retries = true := by cases enabled : policy.retries <;> simp [enabled] at open_ ⊢
      refine ⟨⟨⟨stands, retries, delay⟩, orderly⟩, .inr rfl, ?_, fun _ => ⟨nofun, nofun⟩⟩
      rw [delay, next_backoff room, retriesSinceLease]
  | stopped => exact ⟨orderly, .inl here, delay, fun other => absurd (here.symm.trans other) (by decide)⟩

theorem runKeeper_keeps (capped : policy.base ≤ policy.max) (room : policy.max * 2 ≤ durationMax)
    (answers : List KeeperAnswer) : Kept policy (runKeeper policy answers) :=
  List.foldlRecOn answers _ ⟨trivial, .inr rfl, backoff_zero capped, fun _ => ⟨fun _ => rfl, fun _ => rfl⟩⟩
    fun _ kept answer _ => keeperStep_keeps capped room answer kept

/-- Whatever the daemon does, the keeper's attaches and retries are orderly. -/
theorem keeper_backs_off (baseMs maxMs : UInt64) (answers : List KeeperAnswer) :
    Orderly (.fromMillis baseMs maxMs) (runKeeper (.fromMillis baseMs maxMs) answers).log := by
  have below := baseMs.toNat_lt
  have below' := maxMs.toNat_lt
  refine (runKeeper_keeps ?_ ?_ answers).orderly
  · simp only [DaemonRetryPolicy.fromMillis, Daemon.fromMillis]
    omega
  · simp only [DaemonRetryPolicy.fromMillis, Daemon.fromMillis, durationMax]
    omega

end Codegraph.Daemon
