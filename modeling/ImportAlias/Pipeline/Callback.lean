import ImportAlias.Action
import ImportAlias.Error
import ImportAlias.Pipeline.Request

/-!
# Callbacks

A resolution answers its caller through a callback, which is declined when it
is called without arguments. Beside its answer a callback may carry a log, the
stack of the resolution and the set of paths found missing. There is one stack
and one set per resolution, the caller's; a log is the caller's own or a buffer
that is flushed into the log of an outer callback. A fault on the way leaves the
resolution without an answer.
-/

namespace ImportAlias.Pipeline

/-- Where log lines go. -/
inductive Channel where
  | caller
  | buffer (index : Nat)
  deriving DecidableEq, Repr

/-- What a callback carries beside its answer. -/
structure Carried where
  log : Option Channel
  stack : Bool
  missing : Bool
  deriving DecidableEq, Repr

/-- One entry of a request into a stage, with what its callback carries. -/
structure Call where
  stage : String
  message : String
  request : Request
  carried : Carried

/-- What a resolution has done so far. -/
structure Trail where
  calls : List Call
  actions : List Action
  buffers : List (List String)
  log : List String
  stack : List String
  missing : List String
  answers : List (List Value)
  fault : Option Unreported

abbrev Resolution (α : Type) := StateM Trail α

namespace Resolution

def record (call : Call) : Resolution Unit :=
  modify fun trail => { trail with calls := trail.calls ++ [call] }

def trace (action : Action) : Resolution Unit :=
  modify fun trail => { trail with actions := trail.actions ++ [action] }

def push (entry : String) : Resolution Unit :=
  modify fun trail => { trail with stack := trail.stack ++ [entry] }

/-- Adds a path to the missing ones. -/
def miss (path : String) : Resolution Unit :=
  modify fun trail =>
    { trail with
      missing := if path ∈ trail.missing then trail.missing else trail.missing ++ [path] }

/-- Gives the caller its arguments. -/
def answer (args : List Value) : Resolution Unit :=
  modify fun trail => { trail with answers := trail.answers ++ [args] }

/-- Ends the resolution with a fault. Nobody is called back; only the first fault counts. -/
def fail (fault : Unreported) : Resolution Unit :=
  modify fun trail => { trail with fault := trail.fault.or (some fault) }

/-- Makes an empty buffer. -/
def newBuffer : Resolution Nat :=
  modifyGet fun trail =>
    (trail.buffers.length, { trail with buffers := trail.buffers ++ [[]] })

def buffered (index : Nat) : Resolution (List String) :=
  return (← get).buffers[index]?.getD []

end Resolution

namespace Channel

def write (channel : Channel) (line : String) : Resolution Unit :=
  modify fun trail =>
    match channel with
    | caller => { trail with log := trail.log ++ [line] }
    | buffer index => { trail with buffers := trail.buffers.modify index (· ++ [line]) }

end Channel

/-- The lines that a buffer is flushed as: under its message, indented, when it has one. An
optional message without lines under it is left out. -/
def flushed (message : Option String) (isOptional : Bool) (lines : List String) : List String :=
  match message.filter (· ≠ "") with
  | none => lines
  | some message =>
    if isOptional && lines.isEmpty then [] else message :: lines.map ("  " ++ ·)

structure Callback where
  invoke : List Value → Resolution Unit
  carried : Carried

namespace Callback

def decline (callback : Callback) : Resolution Unit :=
  callback.invoke []

/-- Writes a line if there is a log. -/
def write (callback : Callback) (line : String) : Resolution Unit :=
  match callback.carried.log with
  | some channel => channel.write line
  | none => return

/-- The callback of a caller: what it is called with is its answer. -/
def ofCaller (carried : Carried) : Callback :=
  ⟨Resolution.answer, carried⟩

/-- A callback for a nested resolution. It carries what `outer` carries, but its lines are buffered
and flushed to the outer log each time before it goes on with its arguments. The buffer is kept, so
calling it again flushes the same lines again. -/
def nested (goOn : List Value → Resolution Unit) (outer : Carried) (message : Option String)
    (isOptional : Bool) : Resolution Callback :=
  match outer.log with
  | none => return ⟨goOn, outer⟩
  | some channel => do
    let index ← Resolution.newBuffer
    let invoke := fun args => do
      (flushed message isOptional (← Resolution.buffered index)).forM channel.write
      goOn args
    return ⟨invoke, { outer with log := some (.buffer index) }⟩

end Callback

end ImportAlias.Pipeline
