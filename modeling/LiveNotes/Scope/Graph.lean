import LiveNotes.Json.Value
import LiveNotes.Table
import LiveNotes.Text.Quoted

/-! Scopes, which bind names to values and stand below each other. A name is looked for in a scope and
in those above it. Scopes are known by their ids: what refers to a scope holds its id, and finds
nothing there once the scope is gone. -/

namespace LiveNotes

/-- The id of the scope that all others are below. -/
def rootScopeId : String := "root"

/-- The id of the scope of the document at a path. -/
def pageScopeId (path : String) : String := "page/" ++ path

/-- The id of the scope of a document without a path. -/
def anonymousScopeId (key : String) : String := "anon-doc/" ++ key

/-- The id of the scope of a fragment in the document with scope `page`. -/
def fragmentScopeId (page : String) (index : Nat) : String := page ++ "/" ++ toString index

/-- What listeners of a scope are told. -/
inductive ScopeEvent where
  | bindingsChanged
  | childAttached (id : String)
  | childDetached (id : String)
  deriving DecidableEq, Repr, Inhabited

def ScopeEvent.shown : ScopeEvent → String
  | .bindingsChanged => "BindingsChanged"
  | .childAttached id => "ChildAttached(" ++ Text.shown id ++ ")"
  | .childDetached id => "ChildDetached(" ++ Text.shown id ++ ")"

/-- Is told of events; it may look for a name at that time. -/
structure Listener where
  number : Nat
  name : Option String
  deriving DecidableEq, Repr, Inhabited

/-- What a listener has heard, and the value it found. -/
structure Heard (V : Type) where
  listener : Nat
  event : ScopeEvent
  value : Option V
  deriving DecidableEq, Repr, Inhabited

structure Scope (V : Type) where
  parent : Option String
  children : List String := []
  bindings : Table V := []
  /-- Whether what the scope binds is still being worked out. -/
  blocked : Bool := false
  listeners : List Listener := []
  /-- How many scopes were made before this one. -/
  birth : Nat
  deriving Repr, Inhabited

structure ScopeGraph (V : Type) where
  scopes : Table (Scope V)
  /-- How many scopes have been made. -/
  births : Nat
  /-- How many listeners there have been. -/
  listenersMade : Nat := 0
  /-- What listeners have heard, first things first. -/
  heard : List (Heard V) := []
  deriving Repr, Inhabited

namespace ScopeGraph

variable {V : Type}

/-- The graph with the root scope alone. -/
def new : ScopeGraph V := { scopes := [(rootScopeId, { parent := none, birth := 0 })], births := 1 }

/-! ### Reading -/

def scope? (g : ScopeGraph V) (id : String) : Option (Scope V) := g.scopes.get? id

def isLive (g : ScopeGraph V) (id : String) : Bool := g.scopes.has id

def size (g : ScopeGraph V) : Nat := g.scopes.length

def parent? (g : ScopeGraph V) (id : String) : Option String := (g.scope? id).bind (·.parent)

def children (g : ScopeGraph V) (id : String) : List String := ((g.scope? id).map (·.children)).getD []

def isBlocked (g : ScopeGraph V) (id : String) : Bool := ((g.scope? id).map (·.blocked)).getD false

/-- The names that a scope itself binds, in order. -/
def names (g : ScopeGraph V) (id : String) : List String :=
  ((g.scope? id).map (·.bindings.names)).getD []

/-- A scope and those above it, at most `count` of them. -/
def upwards (g : ScopeGraph V) : Nat → String → List (Scope V)
  | 0, _ => []
  | count + 1, id =>
    match g.scope? id with
    | none => []
    | some s => s :: (s.parent.map (g.upwards count)).getD []

/-- A scope and those above it, the top one last. -/
def path (g : ScopeGraph V) (id : String) : List (Scope V) := g.upwards g.size id

/-- The value of a name in the nearest scope that binds it. -/
def get? (g : ScopeGraph V) (id name : String) : Option V :=
  (g.path id).findSome? fun s => s.bindings.get? name

def has (g : ScopeGraph V) (id name : String) : Bool :=
  (g.path id).any fun s => s.bindings.has name

/-! ### Changes -/

def modify (g : ScopeGraph V) (id : String) (f : Scope V → Scope V) : ScopeGraph V :=
  { g with scopes := g.scopes.map fun (n, s) => (n, if n = id then f s else s) }

/-- Tells the listeners of a scope of an event. -/
def notify (g : ScopeGraph V) (id : String) (event : ScopeEvent) : ScopeGraph V :=
  { g with heard := g.heard ++ (((g.scope? id).map (·.listeners)).getD []).map fun l =>
      ⟨l.number, event, l.name.bind (g.get? id)⟩ }

/-- Changes what a live scope binds. -/
def rebind (g : ScopeGraph V) (id : String) (f : Table V → Table V) : ScopeGraph V :=
  if g.isLive id then
    (g.modify id fun s => { s with bindings := f s.bindings }).notify id .bindingsChanged
  else g

/-- Binds names in a scope; others keep their values. -/
def setMany (g : ScopeGraph V) (id : String) (bindings : List (String × V)) : ScopeGraph V :=
  g.rebind id (·.extend bindings)

def set (g : ScopeGraph V) (id name : String) (value : V) : ScopeGraph V :=
  g.setMany id [(name, value)]

def reset (g : ScopeGraph V) (id : String) : ScopeGraph V := g.rebind id fun _ => []

def block (g : ScopeGraph V) (id : String) : ScopeGraph V :=
  g.modify id fun s => { s with blocked := true }

def unblock (g : ScopeGraph V) (id : String) : ScopeGraph V :=
  g.modify id fun s => { s with blocked := false }

def dropChild (g : ScopeGraph V) (parent id : String) : ScopeGraph V :=
  g.modify parent fun s => { s with children := s.children.filter (· != id) }

def addChild (g : ScopeGraph V) (parent id : String) : ScopeGraph V :=
  g.modify parent fun s => { s with children := s.children ++ [id] }

/-- Moves a live scope from the scope `old` below another one. -/
def move (g : ScopeGraph V) (old : Option String) (parent id : String) : ScopeGraph V :=
  let g := match old with
    | some o => g.dropChild o id
    | none => g
  let g := (g.modify id fun s => { s with parent := some parent }).addChild parent id
  match old with
  | some o => g.notify o (.childDetached id)
  | none => g

/-- Makes the scope `id` a child of `parent`, and makes it at all if need be. -/
def child (g : ScopeGraph V) (parent id : String) : ScopeGraph V :=
  -- Nothing can be put below itself, nor below a scope that is gone.
  if id == parent || !g.isLive parent then g
  else match g.scope? id with
    | none =>
      let g := { g with
        scopes := g.scopes.insert id { parent := some parent, birth := g.births }
        births := g.births + 1 }
      (g.addChild parent id).notify parent (.childAttached id)
    | some s =>
      if s.parent == some parent then g
      else (g.move s.parent parent id).notify parent (.childAttached id)

theorem length_erase_lt {α : Type} {t : Table α} {name : String} {a : α} (h : t.get? name = some a) :
    (t.erase name).length < t.length := by
  induction t with
  | nil => simp [Table.get?] at h
  | cons p t ih =>
    obtain ⟨n, v⟩ := p
    by_cases hn : n = name
    · subst hn
      simp only [Table.erase, List.filter_cons, bne_self_eq_false, List.length_cons]
      exact Nat.lt_succ_of_le (List.length_filter_le _ _)
    · have ht : Table.get? t name = some a := by
        simpa [Table.get?, List.lookup_cons, beq_false_of_ne (Ne.symm hn)] using h
      have := ih ht
      simpa [Table.erase, List.filter_cons, hn] using this

/-- The scopes that are left without some of them and all below these. -/
def without (scopes : Table (Scope V)) (ids : List String) : Table (Scope V) :=
  match ids with
  | [] => scopes
  | id :: rest =>
    match _h : scopes.get? id with
    | none => without scopes rest
    | some s => without (scopes.erase id) (s.children ++ rest)
termination_by (scopes.length, ids.length)
decreasing_by
  · exact Prod.Lex.right _ (by simp)
  · exact Prod.Lex.left _ _ (length_erase_lt _h)

def disposeDescendants (g : ScopeGraph V) (id : String) : ScopeGraph V :=
  match g.scope? id with
  | none => g
  | some s =>
    let g := g.modify id fun s => { s with children := [] }
    s.children.foldl (fun g c => g.notify id (.childDetached c))
      { g with scopes := without g.scopes s.children }

def dispose (g : ScopeGraph V) (id : String) : ScopeGraph V :=
  match g.scope? id with
  | none => g
  | some s =>
    match s.parent with
    | none => { g with scopes := without g.scopes [id] }
    | some p =>
      let g := g.dropChild p id
      { g with scopes := without g.scopes [id] }.notify p (.childDetached id)

/-! ### Listeners -/

/-- Adds a listener to a scope, and tells its number. -/
def listen (g : ScopeGraph V) (id : String) (name : Option String) : Nat × ScopeGraph V :=
  let number := g.listenersMade + 1
  let g : ScopeGraph V := { g with listenersMade := number }
  (number, g.modify id fun s => { s with listeners := s.listeners ++ [Listener.mk number name] })

def unlisten (g : ScopeGraph V) (id : String) (number : Nat) : ScopeGraph V :=
  g.modify id fun s => { s with listeners := s.listeners.filter (·.number != number) }

/-! ### Inspection -/

def shownScope (id : String) : String := "Scope(" ++ Text.shown id ++ ")"

def shown (g : ScopeGraph V) : String := "ScopeGraph \x7b nodes: " ++ toString g.size ++ " \x7d"

end ScopeGraph

inductive ScopeTree where
  | node (id : String) (names : List String) (blocked : Bool) (children : List ScopeTree)
  /-- A scope that is shown elsewhere in the tree. -/
  | again (id : String)
  deriving Repr, Inhabited

namespace ScopeTree

mutual

def toJson : ScopeTree → Json
  | .again id => .text id
  | .node id names blocked children =>
    .object [("id", .text id), ("names", .texts names), ("blocked", .bool blocked),
      ("children", .array (listToJson children))]

def listToJson : List ScopeTree → List Json
  | [] => []
  | t :: ts => t.toJson :: listToJson ts

end

end ScopeTree

namespace ScopeGraph

variable {V : Type}

mutual

/-- The tree below a scope, and all scopes that are shown by then. -/
def treeFrom (g : ScopeGraph V) : Nat → List String → String → ScopeTree × List String
  | 0, shown, id => (.again id, shown)
  | depth + 1, shown, id =>
    if shown.contains id then (.again id, shown)
    else
      let (children, shown) := treesFrom g depth (id :: shown) (g.children id)
      (.node id (g.names id) (g.isBlocked id) children, shown)

def treesFrom (g : ScopeGraph V) (depth : Nat) (shown : List String) :
    List String → List ScopeTree × List String
  | [] => ([], shown)
  | id :: ids =>
    let (t, shown) := treeFrom g depth shown id
    let (ts, shown) := treesFrom g depth shown ids
    (t :: ts, shown)

end

def tree (g : ScopeGraph V) (id : String) : ScopeTree := (g.treeFrom (g.size + 2) [] id).1

end ScopeGraph

/-! ### Waiting -/

/-- Waits until a scope and those above it are not blocked. -/
structure ScopeWait where
  /-- The scope it has come to. -/
  id : String
  /-- The birth of that scope, once it was found blocked. -/
  birth : Option Nat := none
  deriving DecidableEq, Repr, Inhabited

namespace ScopeGraph

variable {V : Type}

/-- Whether a wait does not need to wait for the scope it has come to. -/
def letsGo (g : ScopeGraph V) (w : ScopeWait) : Bool :=
  match g.scope? w.id with
  | none => true
  -- The scope that was found blocked may be gone and a new one have its id.
  | some s => !s.blocked || (w.birth.any (· != s.birth))

/-- The wait with the scope it has come to found blocked. -/
def hold (g : ScopeGraph V) (w : ScopeWait) : ScopeWait :=
  { w with birth := (g.scope? w.id).map (·.birth) }

/-- Goes on with a wait through at most `count` scopes; `none` when it is over. -/
def goOn (g : ScopeGraph V) : Nat → ScopeWait → Option ScopeWait
  | 0, w => some w
  | count + 1, w =>
    if g.letsGo w then
      match g.parent? w.id with
      | none => none
      | some p => g.goOn count { id := p }
    else some (g.hold w)

/-- Goes on with a wait as far as can be; `none` when it is over. -/
def await? (g : ScopeGraph V) (w : ScopeWait) : Option ScopeWait := g.goOn (g.size + 1) w

end ScopeGraph

end LiveNotes
