import Interchange.Convention
import Interchange.Plan.Compile
import Interchange.Plan.Manifest
import Interchange.Registry.Validation
import Interchange.Settings

/-! # Codecs

A `Codec` is everything that is generated for one namespace: a table of plans, the operations that
each of its entries offers, and the plans of functions and events. `Codec.generate` makes it.
-/

namespace Interchange

open Plan Schema

structure FunctionPlan where
  name : String
  params : ObjectPlan
  /-- The parameters of the callback, for a function that has one. -/
  results : Option ObjectPlan

structure EventPlan where
  name : String
  qualified : String
  params : ObjectPlan

structure Codec where
  name : String
  convention : Convention
  table : Table
  /-- The entries of the declared types. -/
  types : Dict Nat
  /-- The operations of each entry, in the order of the table. -/
  operations : List Operations
  /-- The entry of the manifest's root. -/
  manifest : Option Nat
  functions : Dict FunctionPlan
  events : Dict EventPlan

namespace Codec

/-- A declared type as a definition. -/
def typeDefinition (space name : String) (t : Ty) : Definition :=
  ⟨qualify space name, qualify space name, space, t⟩

/-- The key of the manifest's root. -/
def manifestKey (space : String) : String := space ++ "::manifest_keys"

def manifestName (t : Ty) : String := t.name.getD "ManifestKeys"

def manifestDefinition (space : String) (t : Ty) : Definition :=
  ⟨manifestKey space, qualify space (manifestName t), space, t⟩

/-- The references in functions and events, in order. -/
def callTargets (ns : Namespace) : List String :=
  (ns.functions.values.flatMap fun f => paramTargets f.params ++ paramTargets (f.results.getD [])) ++
  ns.events.values.flatMap fun e => paramTargets e.params

/-- What a namespace defines itself, and what its functions and events refer to (`callTargets`). -/
def roots (r : Registry) (ns : Namespace) : List Definition :=
  (ns.types.entries.map fun (name, t) => typeDefinition ns.name name t) ++
  (ns.manifest.toList.map (manifestDefinition ns.name)) ++
  r.destinations ns.name (callTargets ns)

/-- All definitions that a namespace needs, in the order in which `Discovery.finish` meets them from
the `roots`. -/
def definitions (r : Registry) (ns : Namespace) : List Definition :=
  ((Discovery.mk [] []).enterAll (roots r ns)).finish r

/-- The origin of a declared type is that of the type it leads to (`Registry.follow`). -/
def origins (r : Registry) (ns : Namespace) : Except GenerateError (List Origin) :=
  ns.types.values.mapM fun t => (r.follow ns.name t).map (·.type.origin)

/-- The root of a manifest has to be an object. -/
def checkManifest (r : Registry) (ns : Namespace) : Except GenerateError Unit :=
  match ns.manifest with
  | none => .ok ()
  | some root => do
    let resolved ← r.follow ns.name root
    match resolved.type.kind with
    | .object _ _ => .ok ()
    | k => .error (.manifestNotObject (manifestName root) k.name)

def functionPlan (r : Registry) (keys : List String) (space name : String) (f : FunctionDecl) :
    FunctionPlan where
  name := name
  params := ofParams r keys space (qualify space name ++ ".params") f.params
  results := f.results.map (ofParams r keys space (qualify space name ++ ".results"))

def eventPlan (r : Registry) (keys : List String) (space name : String) (e : EventDecl) : EventPlan where
  name := name
  qualified := qualify space name
  params := ofParams r keys space (qualify space name) e.params

/-- The entry of a definition, behind all aliases (`Table.target?`). -/
def entryOf (t : Table) (keys : List String) (key : String) : Nat :=
  (t.target? (.named (keys.idxOf key))).getD (keys.idxOf key)

/-- The operations of each entry, of which there are `n`: all that are marked for it, by
`Operations.union`. -/
def operationsOf (n : Nat) (marks : Table.Marks) : List Operations :=
  (List.range n).map fun id =>
    ((marks.filter (·.1 == id)).map (·.2)).foldl Operations.union {}

/-- Generates the codec of a namespace. All namespaces of the registry are validated first
(`Registry.validate`). -/
def generate (r : Registry) (settings : Settings) (name : String) : Except GenerateError Codec := do
  r.validate
  let ns ← r.getNamespace name
  let origins ← origins r ns
  checkManifest r ns
  let definitions := definitions r ns
  let keys := definitions.map (·.key)
  let table ← Table.ofEntries (definitions.map (ofDefinition r keys))
  let ids := ns.types.keys.map fun name => entryOf table keys (qualify ns.name name)
  let manifest := ns.manifest.map fun _ => keys.idxOf (manifestKey ns.name)
  let marks ←
    match manifest with
    | none => .ok []
    | some root => table.manifestMarks root
  return {
    name := ns.name
    convention := settings.convention.getD (.ofErrorMessages ns.errorMessages)
    table
    types := ⟨ns.types.keys.zip ids⟩
    operations := operationsOf table.size (ids.zip (origins.map .ofOrigin) ++ marks)
    manifest
    functions := ⟨ns.functions.entries.map fun (name, f) => (name, functionPlan r keys ns.name name f)⟩
    events := ⟨ns.events.entries.map fun (name, e) => (name, eventPlan r keys ns.name name e)⟩ }

end Codec

end Interchange
