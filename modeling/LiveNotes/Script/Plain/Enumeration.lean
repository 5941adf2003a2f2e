import LiveNotes.Script.Plain.Lowering
import LiveNotes.Script.Scopes

/-! Enumerations as objects that map names to values and numbers back to names. The values of members
are computed where they are constants; the initial values say so before types are left out of them,
which is why each one is given in both forms. -/

namespace LiveNotes.Script.Plain

open LiveNotes.Decimal

/-- The tree of a number, which may have a sign. -/
def numberTree (v : Binary64) : Tree :=
  match v with
  | .nan => readOf "NaN"
  | .infinity s => if s then new (.unary .minus) [readOf "Infinity"] else readOf "Infinity"
  | .finite s m e =>
    let digits := if m = 0 then "0" else String.ofList (plainDigits (shortest m e))
    let t := new (.number digits) []
    if s then new (.unary .minus) [t] else t

def Constant.toTree : Constant → Tree
  | .number v => numberTree v
  | .text s => textOf s

def Constant.isText : Constant → Bool
  | .text _ => true
  | .number _ => false

mutual

/-- Reads of the members `known` of the enumeration `enum`, as accesses to it. A name that is bound
further inside is left alone there. -/
def qualify (enum : String) (known : List String) : Tree → Tree
  | .node label span ks =>
    match label with
    | .read x => if known.contains x then propertyOf enum x else .node label span ks
    | _ =>
      let bound := scopeNames label ks
      .node label span (qualifyAll enum (known.filter (!bound.contains ·)) ks)

def qualifyAll (enum : String) (known : List String) : List Tree → List Tree
  | [] => []
  | t :: ts => qualify enum known t :: qualifyAll enum known ts

end

/-- The value of a member by its own name, or through an enumeration that is complete. -/
def knownValue (members : Members) (complete : List (String × Members)) :
    List String → Option Constant
  | [x] => (members.lookup x).join
  | [e, x] => ((complete.lookup e).bind (·.lookup x)).join
  | _ => none

/-- A member whose initial value is given as it is written and in plain form. -/
structure EnumMember where
  name : String
  span : Span
  written : Tree
  plain : Tree

/-- The members of an enumeration, from their trees as they are written and in plain form. -/
def enumMembers (written plain : List Tree) : List EnumMember :=
  (written.zip plain).filterMap fun pair => match pair with
    | (.node (.enumMember name) span [w], .node (.enumMember _) _ [p]) => some ⟨name, span, w, p⟩
    | _ => none

/-- The value of a member: its tree, its constant if it is one, and whether it is a text. -/
structure EnumValue where
  tree : Tree
  constant : Option Constant
  isText : Bool

def EnumValue.ofConstant (v : Constant) : EnumValue := ⟨v.toTree, some v, v.isText⟩

/-- The value of a member without an initial one, behind the member `last`. -/
def nextValue (enum : String) (last : Option (String × Option Constant)) : EnumValue :=
  match last with
  | none => .ofConstant (.number (.ofNat 0))
  | some (_, some (.number v)) => .ofConstant (.number (v.add (.ofNat 1)))
  | some (name, _) =>
    ⟨new (.binary .add) [new (.number "1") [], new (.index false) [readOf enum, textOf name]], none,
      false⟩

/-- The value of a member behind `members`, of which the latest comes first. -/
def memberValue (enum : String) (complete : List (String × Members)) (members : Members)
    (last : Option (String × Option Constant)) (m : EnumMember) : EnumValue :=
  if m.written.isHole then nextValue enum last
  else match constant? (knownValue members complete) m.written with
    | some v => .ofConstant v
    | none =>
      let isText := match m.written.label with
        | .string _ _ | .template => true
        | _ => false
      ⟨qualify enum (m.name :: members.map (·.1)) m.plain, none, isText⟩

/-- The statement that gives a member its value, and a number its name. -/
def memberStatement (enum : String) (m : EnumMember) (v : EnumValue) : Tree :=
  let set := assignOf (new (.index false) [readOf enum, textOf m.name]) v.tree
  statementOf m.span (if v.isText then set
    else assignOf (new (.index false) [readOf enum, set]) (textOf m.name))

/-- The statements that define members behind `members`, and all members then. -/
def memberStatements (enum : String) (complete : List (String × Members)) :
    Members → Option (String × Option Constant) → List EnumMember → List Tree × Members
  | members, _, [] => ([], members)
  | members, last, m :: rest =>
    let v := memberValue enum complete members last m
    let (ss, all) := memberStatements enum complete ((m.name, v.constant) :: members)
      (some (m.name, v.constant)) rest
    (memberStatement enum m v :: ss, all)

/-- Whether making a member's value may have an effect. -/
def EnumMember.hasEffect (m : EnumMember) : Bool :=
  match m.written.label with
  | .call _ _ | .new _ => true
  | _ => false

/-- How an enumeration is declared. -/
structure EnumPlace where
  exported : Bool
  /-- Whether it stands at the top of the script. -/
  top : Bool
  /-- Whether its name was declared before, so that it adds to that object. -/
  again : Bool

/-- The statement for an enumeration. -/
def enumeration (place : EnumPlace) (span : Span) (name : String) (members : List EnumMember) :
    Lowering Tree := do
  let m ← get
  let earlier := (m.enums.lookup name).getD []
  let (body, values) := memberStatements name m.enums earlier none members
  set { m with enums := (name, values) :: m.enums }
  let f := functionOf name (body ++ [new .returnStatement [readOf name]])
  let empty := new (.object false) []
  let own := (place.exported || !place.top) && !place.again
  let argument := if own then empty else orOf (readOf name) empty
  let call := new (.call false (!(members.any EnumMember.hasEffect))) [f, argument]
  if place.again then pure (statementOf span (assignOf (targetOf name) call))
  else
    let kind := if place.exported || !place.top then VariableKind.letKind else .var
    let t := variableOf kind span name call
    pure (if place.exported then .node .exportDecl span [t] else t)

theorem qualifyAll_eq_map (enum : String) (known : List String) (ts : List Tree) :
    qualifyAll enum known ts = ts.map (qualify enum known) := by
  induction ts with
  | nil => rfl
  | cons t ts ih => simp [qualifyAll, ih]

end LiveNotes.Script.Plain
