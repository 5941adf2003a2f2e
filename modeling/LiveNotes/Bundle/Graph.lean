import LiveNotes.Bundle.Analysis
import LiveNotes.Text.Split

/-! The modules of a bundle, the imports between them, and the chunks that they are loaded in. -/

namespace LiveNotes.Bundle

structure Module where
  id : String
  source : String
  analysis : Analysis
  deriving Repr, Inhabited

/-- An import that was resolved to a module. -/
structure Edge where
  importer : String
  specifier : String
  target : String
  dynamic : Bool
  deriving DecidableEq, Repr

structure ModuleGraph where
  /-- The modules by their index. -/
  modules : List Module := []
  edges : List Edge := []
  deriving Repr, Inhabited

/-- A list without entries that equal the one in front. -/
def dropRepeats : List Nat → List Nat
  | [] => []
  | a :: rest =>
    match dropRepeats rest with
    | b :: more => if a = b then b :: more else a :: b :: more
    | [] => [a]

namespace ModuleGraph

def add (g : ModuleGraph) (m : Module) : ModuleGraph := { g with modules := g.modules ++ [m] }

def get? (g : ModuleGraph) (index : Nat) : Option Module := g.modules[index]?

def size (g : ModuleGraph) : Nat := g.modules.length

/-- The index of the last module with the given id. -/
def indexOf? (g : ModuleGraph) (id : String) : Option Nat :=
  (g.modules.zipIdx.filter fun (m, _) => m.id == id).getLast?.map (·.2)

/-- The indices of the modules that `m` imports: when it is loaded, or when a call is made. -/
def targets (g : ModuleGraph) (dynamic : Bool) (m : Module) : List Nat :=
  dropRepeats ((g.edges.filter fun e => e.importer == m.id && e.dynamic == dynamic).filterMap
    fun e => g.indexOf? e.target)

def dependencies (g : ModuleGraph) (m : Module) : List Nat := g.targets false m

def dynamicDependencies (g : ModuleGraph) (m : Module) : List Nat := g.targets true m

/-- The module that a specifier stands for in the module `importer`. -/
def resolve? (g : ModuleGraph) (importer specifier : String) : Option Nat :=
  if g.modules.any (·.id == importer) then
    (g.edges.filter fun e => e.importer == importer && e.specifier == specifier).reverse.findSome?
      fun e => g.indexOf? e.target
  else none

/-! ### An order in which modules stand behind what they import -/

/-- The pairs of a module and one that imports it, importers in their order. -/
def links (g : ModuleGraph) : List (Nat × Nat) :=
  g.modules.zipIdx.flatMap fun (m, index) => (g.dependencies m).map fun d => (d, index)

/-- Counts off an import of each of `importers`; those without any left are queued. -/
def release (waiting : List Nat) (queue : List Nat) : List Nat → List Nat × List Nat
  | [] => (waiting, queue)
  | i :: importers =>
    let left := waiting.getD i 0 - 1
    release (waiting.set i left) (if left = 0 then queue ++ [i] else queue) importers

/-- Takes modules from the queue; `waiting` counts the imports that each module still waits for. -/
def sortFrom (links : List (Nat × Nat)) : Nat → List Nat → List Nat → List Nat
  | 0, _, _ => []
  | _, _, [] => []
  | fuel + 1, waiting, i :: queue =>
    let importers := (links.filter (·.1 == i)).map (·.2)
    let (waiting, queue) := release waiting queue importers
    i :: sortFrom links fuel waiting queue

/-- All modules, each behind those it imports; modules in a circle come last. -/
def sorted (g : ModuleGraph) : List Nat :=
  let links := g.links
  let indices := List.range g.size
  let waiting := indices.map fun i => (links.filter (·.2 == i)).length
  let ready := indices.filter fun i => waiting.getD i 0 == 0
  let order := sortFrom links g.size waiting ready
  order ++ indices.filter (!order.contains ·)

end ModuleGraph

/-! ### Chunks

Modules that are loaded together. Without inlining, what is imported by a call starts a chunk of its own. -/

structure Chunk where
  id : Nat
  name : String
  /-- The modules in the order they are found. -/
  modules : List Nat
  entry : Nat
  isEntry : Bool
  /-- The chunks that are loaded when they are asked for. -/
  dependencies : List Nat
  deriving DecidableEq, Repr, Inhabited

namespace ModuleGraph

/-- The modules that are loaded with the module `index`. -/
def loadedWith (g : ModuleGraph) (followDynamic : Bool) (index : Nat) : List Nat :=
  match g.get? index with
  | some m => g.dependencies m ++ (if followDynamic then g.dynamicDependencies m else [])
  | none => []

/-- The modules reached from those on the stack, first ones first, without going on at `splits` other
than `start`. -/
def reach (g : ModuleGraph) (splits : List Nat) (followDynamic : Bool) (start : Nat) :
    Nat → List Nat → List Nat → List Nat
  | 0, _, _ => []
  | _, _, [] => []
  | fuel + 1, visited, i :: stack =>
    if visited.contains i then reach g splits followDynamic start fuel visited stack
    else if i != start && splits.contains i then
      reach g splits followDynamic start fuel (i :: visited) stack
    else
      let next := (g.loadedWith followDynamic i).filter fun d => !(i :: visited).contains d
      i :: reach g splits followDynamic start fuel (i :: visited) (next ++ stack)

/-- The most entries that the stack may have in all. -/
def reachBound (g : ModuleGraph) : Nat := 1 + 2 * g.modules.length * (g.edges.length + 1)

def reachFrom (g : ModuleGraph) (splits : List Nat) (followDynamic : Bool) (start : Nat) :
    List Nat :=
  g.reach splits followDynamic start g.reachBound [] [start]

/-- The modules that are imported by calls, in the order of their indices. -/
def splitPoints (g : ModuleGraph) : List Nat :=
  let targets := g.modules.flatMap g.dynamicDependencies
  (List.range g.size).filter targets.contains

/-- The name of a chunk that starts with the module `id`: that of its file up to the first dot. -/
def chunkName (id : String) : String :=
  let file := (id.toList.reverse.takeWhile (· != '/')).reverse
  let stem := file.takeWhile (· != '.')
  if stem.isEmpty then "chunk" else String.ofList stem

/-- The chunks that start with `entry`, the main one first. -/
def chunks (g : ModuleGraph) (entry : Nat) (inlineDynamic : Bool) : List Chunk :=
  let splits := if inlineDynamic then [] else g.splitPoints
  let others := splits.filter (· != entry)
  let main := g.reachFrom splits inlineDynamic entry
  let lazy := others.zipIdx.filterMap fun (split, n) => (g.get? split).map fun m =>
    (⟨n + 1, chunkName m.id, g.reachFrom others false split, split, false, []⟩ : Chunk)
  ⟨0, "main", main, entry, true, lazy.map (·.id)⟩ :: lazy

end ModuleGraph

end LiveNotes.Bundle
