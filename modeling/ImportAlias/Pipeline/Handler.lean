import ImportAlias.Pipeline.Callback
import ImportAlias.Subject

/-!
# Handlers

A handler of a stage either declines a request, and the next one is asked, or
takes it and calls back itself. The handlers of an alias plugin take what their
mapping claims: the redirected request enters the target stage, and if that finds
nothing the caller is told so, without a fall back to the specifier as it was.
-/

namespace ImportAlias.Pipeline

/-- The stage where aliases are asked for. -/
def sourceStage : String := "described-resolve"

/-- The stage where redirected requests go on. -/
def targetStage : String := "resolve"

/-- The stage where bare specifiers are looked up. -/
def moduleStage : String := "module"

/-- Sends a request into a stage. -/
abbrev Resolver := String → Request → String → Callback → Resolution Unit

/-- Looks up bare specifiers as paths below a fixed directory. -/
structure ModuleRoot where
  source : String
  path : String
  target : String

/-- Applies the mappings of a table to the subject of each request. -/
structure AliasPlugin where
  table : Table
  subject : Request → Value
  source : String
  target : String
  traced : Bool

/-- A handler that does as it is told: it writes its lines and calls back with each list of
arguments, for one specifier only or for every one. -/
structure Script where
  only : Option String
  lines : List String
  answers : List (List Value)

/-- Goes on with a redirect, in place of the request, and finishes the callback for each time that
the nested resolution calls back. -/
def delegate (resolve : Resolver) (target : String) (traced : Bool) (request : Request)
    (redirect : Redirect) (callback : Callback) : Resolution Unit := do
  let done := fun args => do
    if args.isEmpty then
      if traced then Resolution.trace (.suppress redirect.specifier redirect.description)
      callback.invoke [.null, .null]
    else callback.invoke args
  let nested ← Callback.nested done callback.carried none false
  resolve target { request with request := some redirect.specifier } redirect.description nested

namespace ModuleRoot

def handle (rule : ModuleRoot) (resolve : Resolver) (request : Request) (callback : Callback) :
    Resolution Unit :=
  match request.wanted? with
  | none => callback.decline
  | some specifier => do
    let message := s!"looking for modules in {rule.path}"
    let nested ← Callback.nested callback.invoke callback.carried (some message) true
    resolve rule.target { request with path := rule.path, request := some ("./" ++ specifier) }
      message nested

end ModuleRoot

namespace AliasPlugin

/-- The handler of one mapping. -/
def handle (plugin : AliasPlugin) (mapping : Mapping) (resolve : Resolver) (request : Request)
    (callback : Callback) : Resolution Unit := do
  match mapping.matchFrom? (plugin.subject request) with
  | .error fault => Resolution.fail fault
  | .ok none =>
    if plugin.traced then Resolution.trace .passthrough
    callback.decline
  | .ok (some found) =>
    let redirect := found.toRedirect plugin.table.baseDirectory
    if plugin.traced then Resolution.trace (.redirect redirect)
    delegate resolve plugin.target plugin.traced request redirect callback

/-- The directory lookup that goes with a base URL. -/
def moduleRoot? (plugin : AliasPlugin) : Option ModuleRoot :=
  if plugin.table.baseUrl.isVacant then none
  else some ⟨moduleStage, plugin.table.baseDirectory.toString, plugin.target⟩

end AliasPlugin

namespace Script

def handle (script : Script) (request : Request) (callback : Callback) : Resolution Unit :=
  if script.only.isSome ∧ script.only ≠ request.request then callback.decline
  else do
    script.lines.forM callback.write
    script.answers.forM callback.invoke

end Script

inductive Handler where
  | mapped (plugin : AliasPlugin) (mapping : Mapping)
  | moduleRoot (rule : ModuleRoot)
  | scripted (script : Script)

namespace Handler

def handle (handler : Handler) (resolve : Resolver) (request : Request) (callback : Callback) :
    Resolution Unit :=
  match handler with
  | .mapped plugin mapping => plugin.handle mapping resolve request callback
  | .moduleRoot rule => rule.handle resolve request callback
  | .scripted script => script.handle request callback

end Handler

end ImportAlias.Pipeline
