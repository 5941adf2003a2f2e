import LiveNotes.Fragment

/-! The keys under which the outputs of fragments are kept. A fragment keeps its key as long as its
output may be reused; the plan for one version of a document depends on that of the version before. -/

namespace LiveNotes

/-- What is remembered of a fragment for the next plan. -/
structure CacheEntry where
  kind : FragmentKind
  content : String
  key : String
  cursorInside : Bool
  deriving DecidableEq, Repr, Inhabited

structure KeyDecision where
  key : String
  /-- Whether the key is new; then what the fragment exported before is forgotten. -/
  fresh : Bool
  /-- Whether the cursor is inside, so that nothing is rendered. -/
  skip : Bool
  deriving DecidableEq, Repr, Inhabited

def CacheEntry.toJson (e : CacheEntry) : Json :=
  .object [("kind", .text e.kind.name), ("content", .text e.content), ("key", .text e.key),
    ("cursorInside", .bool e.cursorInside)]

def KeyDecision.toJson (d : KeyDecision) : Json :=
  .object [("key", .text d.key), ("fresh", .bool d.fresh), ("resetScope", .bool d.fresh),
    ("skip", .bool d.skip)]

abbrev KeySource := Nat → String

namespace Plan

/-- What the fragments so far ask of those behind them. -/
structure Demand where
  /-- The cursor is inside one of them: keys are kept. -/
  keep : Bool := false
  /-- Statements changed in one of them: keys are renewed. -/
  renew : Bool := false
  deriving DecidableEq, Repr

def touchesStatements (before after : FragmentKind) : Bool :=
  before == .blockStatement || after == .blockStatement

/-- The key that a fragment keeps, if it keeps one, and what is demanded behind it. -/
def decide (d : Demand) (before : Option CacheEntry) (f : Fragment) : Option String × Demand :=
  let d := { d with keep := d.keep || f.cursorInside }
  match before with
  | none => (none, d)
  | some e =>
    let changed := { d with renew := d.renew || touchesStatements e.kind f.kind }
    -- A fragment that the cursor has left is renewed, wherever the cursor is now.
    if e.cursorInside && !f.cursorInside then (none, changed)
    else if d.keep then (some e.key, d)
    else if d.renew then (none, d)
    else if e.kind == f.kind && e.content == f.content then (some e.key, d)
    else (none, changed)

/-- The entry and the decision for each fragment, and the number of keys drawn. -/
def walk (newKey : KeySource) (drawn : Nat) (d : Demand) :
    List CacheEntry → List Fragment → List (CacheEntry × KeyDecision) × Nat
  | _, [] => ([], drawn)
  | before, f :: fs =>
    let (kept, d') := decide d before.head? f
    let key := kept.getD (newKey drawn)
    let drawn' := if kept.isNone then drawn + 1 else drawn
    let (rest, last) := walk newKey drawn' d' before.tail fs
    ((⟨f.kind, f.content, key, f.cursorInside⟩, ⟨key, kept.isNone, f.cursorInside⟩) :: rest, last)

end Plan

structure PassPlan where
  cache : List CacheEntry
  decisions : List KeyDecision
  /-- How many keys have been drawn from the source. -/
  drawn : Nat
  deriving DecidableEq, Repr, Inhabited

/-- Plans the keys of fragments, given what is remembered of the version before. -/
def planPass (newKey : KeySource) (drawn : Nat) (previous : List CacheEntry)
    (fragments : List Fragment) : PassPlan :=
  let (pairs, last) := Plan.walk newKey drawn {} previous fragments
  ⟨pairs.map (·.1), pairs.map (·.2), last⟩

namespace Plan

theorem length_walk (newKey : KeySource) (drawn : Nat) (d : Demand) (before : List CacheEntry)
    (fs : List Fragment) : (walk newKey drawn d before fs).1.length = fs.length := by
  induction fs generalizing drawn d before with
  | nil => rfl
  | cons f fs ih => simp [walk, ih]

end Plan

end LiveNotes
