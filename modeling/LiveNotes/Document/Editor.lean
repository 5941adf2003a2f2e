import LiveNotes.Fragment.Plan
import LiveNotes.Fragment.Scan
import LiveNotes.Scope.Graph

/-! The passes that an editor makes over its document with each change. A pass finds the fragments,
plans their keys and wires their scopes into a chain: each reads from the scope that the one before
it writes, and the first one from the scope of the page. -/

namespace LiveNotes

/-- What an editor shows when a pass is made. -/
structure EditorView where
  /-- The path of the document, if it has one. -/
  file : Option String
  /-- Whether fragments are rendered in place. -/
  livePreview : Bool := true
  text : String
  /-- The byte that the cursor is at. -/
  cursor : Option Nat := none
  deriving DecidableEq, Repr, Inhabited

/-- Where to render a fragment, and under which key. -/
structure RenderInstruction where
  index : Nat
  kind : FragmentKind
  key : String
  /-- Whether what is rendered under the key already is kept. -/
  reused : Bool
  start : Nat
  stop : Nat
  content : String
  component : Option String
  /-- The scopes that it reads from and writes to. -/
  read : String
  write : String
  deriving DecidableEq, Repr, Inhabited

structure EditorPass where
  fragments : List Fragment := []
  decisions : List KeyDecision := []
  instructions : List RenderInstruction := []
  deriving DecidableEq, Repr, Inhabited

def RenderInstruction.toJson (i : RenderInstruction) : Json :=
  .object [("index", .nat i.index), ("kind", .text i.kind.name), ("key", .text i.key),
    ("reused", .bool i.reused), ("from", .nat i.start), ("to", .nat i.stop),
    ("content", .text i.content), ("shortcutComponent", .optionalText i.component),
    ("readScope", .text i.read), ("writeScope", .text i.write)]

def EditorPass.toJson (p : EditorPass) : Json :=
  .object [("fragments", .array (p.fragments.map Fragment.toJson)),
    ("decisions", .array (p.decisions.map KeyDecision.toJson)),
    ("instructions", .array (p.instructions.map RenderInstruction.toJson))]

/-- What is kept from one pass to the next. -/
structure Editor where
  cache : List CacheEntry := []
  /-- How many keys have been drawn. -/
  drawn : Nat := 0
  deriving DecidableEq, Repr, Inhabited

namespace Editor

variable {V : Type}

/-- The instruction for a fragment in a document of `size` bytes. -/
def instruction (size index : Nat) (f : Fragment) (d : KeyDecision) (read write : String) :
    RenderInstruction :=
  ⟨index, f.kind, d.key, !d.fresh, (f.decoration size).1, (f.decoration size).2, f.content,
    f.component, read, write⟩

/-- Puts the scope of each fragment below the one before, and gives the instructions for those that
are rendered. Fragments with a fresh key start with an empty scope. -/
def wire (page : String) (size : Nat) :
    Nat → String → List (Fragment × KeyDecision) → ScopeGraph V →
      List RenderInstruction × ScopeGraph V
  | _, _, [], g => ([], g)
  | index, read, (f, d) :: rest, g =>
    let write := fragmentScopeId page index
    let g := g.child read write
    let g := if d.fresh then g.reset write else g
    let (more, g) := wire page size (index + 1) write rest g
    (if d.skip then more else instruction size index f d read write :: more, g)

/-- Removes the scopes of the fragments from `index` on. -/
def disposeFrom (g : ScopeGraph V) (page : String) (index : Nat) : ScopeGraph V :=
  g.dispose (fragmentScopeId page index)

/-- Makes a pass. Without a file or a live preview all is forgotten. -/
def process (newKey : KeySource) (s : Editor) (g : ScopeGraph V) (view : EditorView) :
    EditorPass × Editor × ScopeGraph V :=
  match view.file, view.livePreview with
  | some path, true =>
    let page := pageScopeId path
    match Document.scan view.text view.cursor with
    | [] => ({}, { s with cache := [] }, disposeFrom g page 0)
    | f :: fs =>
      let fragments := f :: fs
      let plan := planPass newKey s.drawn s.cache fragments
      let (instructions, g) := wire page view.text.utf8ByteSize 0 page
        (fragments.zip plan.decisions) (g.child rootScopeId page)
      (⟨fragments, plan.decisions, instructions⟩, ⟨plan.cache, plan.drawn⟩,
        disposeFrom g page fragments.length)
  | _, _ => ({}, { s with cache := [] }, g)

/-- Makes a pass if the document or the selection has changed. -/
def update (newKey : KeySource) (s : Editor) (g : ScopeGraph V) (view : EditorView)
    (textChanged selectionChanged : Bool) : Option EditorPass × Editor × ScopeGraph V :=
  if textChanged || selectionChanged then
    let (pass, s, g) := process newKey s g view
    (some pass, s, g)
  else (none, s, g)

end Editor

/-- Whether the scopes of an instruction are there to evaluate its fragment in. -/
def RenderInstruction.hasScopes {V : Type} (i : RenderInstruction) (g : ScopeGraph V) : Bool :=
  g.isLive i.read && g.isLive i.write

end LiveNotes
