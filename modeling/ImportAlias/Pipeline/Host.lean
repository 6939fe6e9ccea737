import ImportAlias.Pipeline.Handler

/-!
# The host

A host keeps handlers on named stages and a set of files. The handlers of a
stage are asked in the order of their registration; when all have declined, the
stage falls back to what it does by itself. A resolution may enter stages a
limited number of times, so that aliases that lead to each other come to an
end.
-/

namespace ImportAlias.Pipeline

structure Host where
  handlers : List (String × Handler)
  files : List String

namespace Host

def empty : Host := ⟨[], []⟩

def register (host : Host) (stage : String) (handler : Handler) : Host :=
  { host with handlers := host.handlers ++ [(stage, handler)] }

def handlersOf (host : Host) (stage : String) : List Handler :=
  (host.handlers.filter (·.1 = stage)).map (·.2)

def addFile (host : Host) (path : String) : Host :=
  { host with files := if path ∈ host.files then host.files else host.files ++ [path] }

def removeFile (host : Host) (path : String) : Host :=
  { host with files := host.files.filter (· ≠ path) }

def applyModuleRoot (host : Host) (rule : ModuleRoot) : Host :=
  host.register rule.source (.moduleRoot rule)

/-- Registers the directory lookup of a plugin, if it has one, and a handler for each of its
active mappings. -/
def applyAliases (host : Host) (plugin : AliasPlugin) : Host :=
  let host := plugin.moduleRoot?.elim host host.applyModuleRoot
  plugin.table.active.foldl
    (fun host mapping => host.register plugin.source (.mapped plugin mapping)) host

/-- How often a resolution may enter a stage. -/
def callLimit : Nat := 12

/-- Asks handlers in turn, numbered from `index`. Declining goes on to the next one. -/
def inTurn (resolve : Resolver) (fallback : Resolution Unit) (stage : String) (request : Request)
    (callback : Callback) : List Handler → Nat → Resolution Unit
  | [], _ => fallback
  | handler :: rest, index => do
    let advance := fun args =>
      if args.isEmpty then inTurn resolve fallback stage request callback rest (index + 1)
      else callback.invoke args
    let nested ← Callback.nested advance callback.carried (some s!"{stage}#{index}") true
    handler.handle resolve request nested

/-- Looks a path up among the files. -/
def lookUp (host : Host) (candidate : String) (callback : Callback) : Resolution Unit := do
  if candidate ∈ host.files then callback.invoke [.null, .string candidate]
  else
    callback.write s!"no file {candidate}"
    if callback.carried.missing then Resolution.miss candidate
    callback.decline

/-- What a stage does when every handler has declined: a described request is resolved, and a
resolved one is looked up as a file, or as a module when it is bare. -/
def fallback (host : Host) (resolve : Resolver) (stage : String) (request : Request)
    (callback : Callback) : Resolution Unit :=
  if stage = sourceStage then resolve targetStage request "default" callback
  else if stage ≠ targetStage then callback.decline
  else
    match request.wanted? with
    | none => callback.decline
    | some specifier =>
      match specifier.toList.head? with
      | some '/' => host.lookUp specifier callback
      | some '.' =>
        let joined := (Path.ofString request.path / Path.ofString specifier).normalize
        host.lookUp joined.toString callback
      | _ => resolve moduleStage request "resolve as module" callback

/-- Sends a request into a stage. Every call made on the way counts, so no more than `depth` calls
lie inside each other while the limit is not reached. -/
def resolveWithin (host : Host) : Nat → Resolver
  | 0, stage, request, message, callback => do
    Resolution.record ⟨stage, message, request, callback.carried⟩
    callback.invoke [.string "call limit"]
  | depth + 1, stage, request, message, callback => do
    Resolution.record ⟨stage, message, request, callback.carried⟩
    if (← get).calls.length > callLimit then callback.invoke [.string "call limit"]
    else
      if callback.carried.stack then Resolution.push (stage ++ ": " ++ request.request.getD "")
      let resolve := host.resolveWithin depth
      inTurn resolve (host.fallback resolve stage request callback) stage request callback
        (host.handlersOf stage) 0

def resolve (host : Host) : Resolver :=
  host.resolveWithin (callLimit + 1)

end Host

/-- What the caller of a resolution brings: whether it logs, its stack and its missing paths. -/
structure Caller where
  log : Bool
  stack : Option (List String)
  missing : Option (List String)

namespace Caller

def carried (caller : Caller) : Carried :=
  ⟨if caller.log then some .caller else none, caller.stack.isSome, caller.missing.isSome⟩

/-- The trail that a resolution starts with. -/
def trail (caller : Caller) : Trail :=
  ⟨[], [], [], [], caller.stack.getD [], (caller.missing.getD []).eraseDups, [], none⟩

def callback (caller : Caller) : Callback :=
  .ofCaller caller.carried

end Caller

/-- Runs a request for a caller. -/
def Host.run (host : Host) (caller : Caller) (stage : String) (request : Request) :
    Except Unreported Trail :=
  let trail := ((host.resolve stage request "" caller.callback).run caller.trail).2
  trail.fault.elim (.ok trail) .error

end ImportAlias.Pipeline
