import Codegraph.Library.Interruptible

/- This file holds the health of a project's watcher and the errors that change it. -/

namespace Codegraph.Watch

inductive NotifyErrorKind where
  | io (rawOsError : Option Int)
  | maxFilesWatch
  | other
  deriving DecidableEq

structure NotifyError where
  kind : NotifyErrorKind
  text : String
  deriving DecidableEq

inductive WatchErrorClass where
  | degrade
  | warn
  | other
  deriving DecidableEq

def emfile : Int := 24

def enfile : Int := 23

def enospc : Int := 28

/-- File-table exhaustion degrades, and watch-count exhaustion warns. -/
def classifyWatchError (rawOsError : Option Int) : WatchErrorClass :=
  if rawOsError = some emfile ∨ rawOsError = some enfile then .degrade
  else if rawOsError = some enospc then .warn
  else .other

def classifyNotifyError (error : NotifyError) : WatchErrorClass :=
  match error.kind with
  | .io rawOsError => classifyWatchError rawOsError
  | .maxFilesWatch => .warn
  | .other => .other

/-- A degraded watcher is stopped for good unless it is recovering. -/
structure DegradedState where
  degraded : Bool
  recovering : Bool
  reason : Option String
  deriving DecidableEq

namespace DegradedState

def initial : DegradedState := ⟨false, false, none⟩

def mark (_state : DegradedState) (reason : String) : DegradedState := ⟨true, false, some reason⟩

def markRecovering (_state : DegradedState) (reason : String) : DegradedState := ⟨true, true, some reason⟩

/-- A committed full sync ends a recovery and leaves a stopped watcher stopped. -/
def recover (state : DegradedState) : DegradedState :=
  if state.recovering then ⟨false, false, none⟩ else state

end DegradedState

inductive WatchHealth where
  | healthy
  | recovering (reason : String)
  | disabled (reason : String)
  deriving DecidableEq

def DegradedState.health (state : DegradedState) : WatchHealth :=
  let reason := state.reason.getD ""
  if !state.degraded then .healthy
  else if state.recovering then .recovering reason
  else .disabled reason

def WatchHealth.isRecovering : WatchHealth → Bool
  | .recovering _ => true
  | _ => false

def WatchHealth.isDisabled : WatchHealth → Bool
  | .disabled _ => true
  | _ => false

/-- What the watcher tells its host. -/
inductive Notice where
  | degraded (reason : String)
  | syncError (text : String)
  | syncComplete (triggerPaths : List String)
  deriving DecidableEq

def Notice.isDegraded : Notice → Bool
  | .degraded _ => true
  | _ => false

theorem DegradedState.health_isDisabled (state : DegradedState) :
    state.health.isDisabled = (state.degraded && !state.recovering) := by
  rcases state with ⟨degraded, recovering, reason⟩
  cases degraded <;> cases recovering <;> rfl

theorem DegradedState.health_isRecovering (state : DegradedState) :
    state.health.isRecovering = (state.degraded && state.recovering) := by
  rcases state with ⟨degraded, recovering, reason⟩
  cases degraded <;> cases recovering <;> rfl

end Codegraph.Watch
