import ImportAlias.Action
import ImportAlias.Json.Printer
import ImportAlias.Settings.Load
import ImportAlias.Subject
import ImportAlias.Value.Shown

/-!
# The tool server

Assistants ask a server two things: what a specifier is redirected to, and which
mappings a project has. The project is named by a path, a directory or a
configuration file, and is the workspace by default. Configurations are loaded
again for every request.
-/

namespace ImportAlias

/-- A tool as it is offered. -/
structure Tool where
  name : String
  description : String
  inputSchema : Value

/-- A resource as it is offered. -/
structure Resource where
  uri : String
  name : String
  description : String
  mimeType : String

/-- A server for a workspace, the working directory unless one is given. -/
structure ToolServer where
  workspace : Option String

namespace ToolServer

def property (description : String) : Value :=
  .object [("type", .string "string"), ("description", .string description)]

def pathProperty : String × Value :=
  ("path", property "Project directory or configuration file (default: workspace)")

def resolveTool : Tool where
  name := "pathalias_resolve"
  description :=
    "Resolve an import specifier through the project's path aliases (tsconfig \"paths\").\n\n" ++
    "USE THIS TOOL WHEN:\n" ++
    "- An import like '@app/widgets/button' needs to be mapped to a real location\n" ++
    "- You need to know which alias rule claims a specifier\n\n" ++
    "RETURNS: The rewritten specifier and the alias rule applied, or 'passthrough' when no " ++
    "alias matches."
  inputSchema := .object
    [("type", .string "object"),
     ("properties", .object [("specifier", property "Import specifier to resolve"), pathProperty]),
     ("required", .array [.string "specifier"])]

def mappingsTool : Tool where
  name := "pathalias_mappings"
  description :=
    "List the path alias mappings configured for a project, in the order they are tried.\n\n" ++
    "RETURNS: Base directory and one line per alias -> target rule."
  inputSchema := .object
    [("type", .string "object"), ("properties", .object [pathProperty])]

def tools : List Tool :=
  [resolveTool, mappingsTool]

def mappingsResource : Resource :=
  ⟨"pathalias://mappings", "Path Aliases", "The workspace's compiled alias mappings",
    "application/json"⟩

def resources : List Resource :=
  [mappingsResource]

/-- The extensions of paths that name a configuration file even where there is none. -/
def configExtensions : List String :=
  [".json", ".toml"]

def namesConfig (path : String) : Bool :=
  configExtensions.any fun ending => ending.toList.isSuffixOf path.toList

/-- The table of the project that a path names; without a path, of the workspace. -/
def loadTable (server : ToolServer) (tree : FileTree) (path : Option String) : Load Table :=
  let given := fun (text : Option String) => text.filter (· ≠ "")
  let path := ((given path).or (given server.workspace)).getD tree.current.toString
  if tree.opensAsFile path || namesConfig path then
    tree.loadTable (some (Path.directoryOf path)) (some path)
  else tree.loadTable (some path) none

/-- The path that an argument gives. A vacant one gives none. -/
def givenPath (argument : Value) : Except Unreported (Option String) :=
  match argument with
  | .string path => .ok (some path)
  | other => if other.isVacant then .ok none else .error (.pathNotText other)

/-- The table of the project that the arguments name. -/
def namedTable (server : ToolServer) (tree : FileTree) (arguments : Entries Value) :
    Except Error Table := do
  let path ← (givenPath (Value.under arguments "path")).mapError .unreported
  (server.loadTable tree path).result

/-- What a specifier is redirected to. -/
def handleResolve (server : ToolServer) (tree : FileTree) (arguments : Entries Value) :
    Except Error String :=
  match arguments.get? "specifier" with
  | none => .error (.unreported (.missingArgument "specifier"))
  | some specifier => do
    let table ← server.namedTable tree arguments
    match ← (table.resolveFrom specifier).mapError Error.unreported with
    | .redirect redirect =>
      return s!"{specifier.shown} -> {redirect.specifier}\nalias: {redirect.mapping.key}"
    | _ => return s!"{specifier.shown}: passthrough (no alias matches)"

def mappingLine (mapping : Mapping) : String :=
  s!"- `{mapping.key}` -> `{mapping.target}`" ++
    if mapping.isTypings then " (typings, inactive)" else ""

/-- All mappings, one on a line. -/
def formatTable (table : Table) : String :=
  let heading := [s!"# Path aliases (base: {table.baseDirectory.toString})", ""]
  let body :=
    if table.mappings.isEmpty then ["No aliases configured."] else table.mappings.map mappingLine
  "\n".intercalate (heading ++ body)

def handleMappings (server : ToolServer) (tree : FileTree) (arguments : Entries Value) :
    Except Error String := do
  return formatTable (← server.namedTable tree arguments)

/-- Calls a tool by its name. Every error becomes a text. -/
def callTool (server : ToolServer) (tree : FileTree) (name : String) (arguments : Entries Value) :
    String :=
  let result :=
    if name = resolveTool.name then server.handleResolve tree arguments
    else if name = mappingsTool.name then server.handleMappings tree arguments
    else .ok s!"Unknown tool: {name}"
  match result with
  | .ok text => text
  | .error e => s!"Error: {e.message}"

def mappingValue (mapping : Mapping) : Value :=
  .object [("alias", .string mapping.key), ("target", .string mapping.target),
    ("typings", .bool mapping.isTypings)]

/-- Reads a resource by its address. -/
def readResource (server : ToolServer) (tree : FileTree) (uri : String) : Except Error String :=
  if uri ≠ mappingsResource.uri then .ok s!"Unknown resource: {uri}"
  else do
    let table ← (server.loadTable tree none).result
    return Json.print (.indented 2) (.object
      [("base_directory", .string table.baseDirectory.toString),
       ("mappings", .array (table.mappings.map mappingValue))])

end ToolServer

end ImportAlias
