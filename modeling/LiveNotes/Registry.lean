import LiveNotes.Table
import LiveNotes.Text.Quoted

/-! The modules that a page offers to the code in it, by the names they are imported by. -/

namespace LiveNotes

/-- The values that modules export, by their names. -/
abbrev Exports (V : Type) := Table V

structure Registry (V : Type) where
  modules : Table V := []
  deriving Repr, Inhabited

namespace Registry

variable {V : Type}

/-- The modules that each page offers. -/
def hostModules : List String :=
  ["react", "react/jsx-runtime", "react-dom", "react-dom/client", "obsidian", "livedoc"]

def insert (r : Registry V) (source : String) (module : V) : Registry V :=
  ⟨r.modules.insert source module⟩

def remove (r : Registry V) (source : String) : Registry V := ⟨r.modules.erase source⟩

def get? (r : Registry V) (source : String) : Option V := r.modules.get? source

def contains (r : Registry V) (source : String) : Bool := r.modules.has source

/-- The names of all modules, in order. -/
def sources (r : Registry V) : List String := r.modules.names

def size (r : Registry V) : Nat := r.modules.length

def isEmpty (r : Registry V) : Bool := r.modules.isEmpty

/-- A registry in which each of some names stands for a value made from it. -/
def ofSources (module : String → V) (names : List String) : Registry V :=
  names.foldl (fun r n => r.insert n (module n)) {}

/-- The list of the names, for inspection. -/
def shown (r : Registry V) : String := Text.shownList r.sources

@[simp] theorem get?_insert (r : Registry V) (source other : String) (module : V) :
    (r.insert source module).get? other = if other = source then some module else r.get? other :=
  Table.get?_insert source other module r.modules

end Registry

end LiveNotes
