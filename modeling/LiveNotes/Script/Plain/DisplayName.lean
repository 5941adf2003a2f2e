import LiveNotes.Script.Plain.Constant

/-! Names for the components that a script makes of objects. An object that becomes a component is
given the name of what holds the component, as the name to show for it: that of the nearest variable,
property or exported default around the call, in the same statement. -/

namespace LiveNotes.Script.Plain

/-- The text that a key spells, in brackets or not. -/
def spelledKey? (key : Tree) : Option String :=
  match key.label with
  | .name x => some x
  | .number ds => some (numberString (numberValue ds))
  | .bigint ds => some ds
  | .nullLiteral => some "null"
  | .regex p f => some ("/" ++ p ++ "/" ++ f)
  | _ => literalKey? key

/-- The name of what is assigned to, if it is a variable or a property. -/
def targetName? : Tree → Option String
  | .node (.target x) _ _ | .node (.member x _) _ _ => some x
  | .node (.index _) _ [_, key] => literalKey? key
  | .node (.typed _) _ [t] => targetName? t
  | _ => none

def variableName? (pattern : Tree) : Option String :=
  match pattern.label with
  | .binding x => some x
  | _ => none

/-- Whether a function makes a component of an object. -/
def makesComponent : Tree → Bool
  | .node (.read x) _ _ => x == "createReactClass"
  | .node (.member x _) _ [o] => x == "createClass" && o.unparen.label == .read "React"
  | .node (.index _) _ [o, key] =>
    literalKey? key == some "createClass" && o.unparen.label == .read "React"
  | _ => false

def isDisplayName (property : Tree) : Bool :=
  match property with
  | .node (.property ..) _ (key :: _) => spelledKey? key == some "displayName"
  | _ => false

/-- The arguments of a call that makes a component named `name`: a single object that says no name
itself is given this one. -/
def withDisplayName (name : String) (args : List Tree) : List Tree :=
  match args with
  | [.node (.object comma) span ps] =>
    if ps.any isDisplayName then args
    else
      let shown := Tree.node (.property .value false false) ⟨0, 0⟩
        [.node (.name "displayName") ⟨0, 0⟩ [], .node (.string name false) ⟨0, 0⟩ []]
      [.node (.object comma) span (shown :: ps)]
  | _ => args

mutual

/-- A tree whose components have names; `file` names a default, and `near` is the nearest name. -/
def nameComponents (file : String) (near : Option String) : Tree → Tree
  | .node label span ks =>
    match label with
    | .assign _ => match ks with
      | [t, v] =>
        .node label span [nameComponents file near t, nameComponents file (targetName? t) v]
      | _ => .node label span ks
    | .declarator => match ks with
      | [p, v] =>
        .node label span [nameComponents file near p, nameComponents file (variableName? p) v]
      | _ => .node label span ks
    | .property .. => match ks with
      | [k, v] =>
        .node label span [nameComponents file near k, nameComponents file (spelledKey? k) v]
      | _ => .node label span ks
    | .arrow form => match ks with
      | [ps, body] =>
        .node label span [nameComponents file near ps,
          nameComponents file (if form.concise then none else near) body]
      | _ => .node label span ks
    | .call _ _ => match ks with
      | f :: args =>
        let args' := nameComponentsAll file near args
        .node label span (nameComponents file near f :: (match makesComponent f, near with
          | true, some name => withDisplayName name args'
          | _, _ => args'))
      | [] => .node label span []
    | .exportDefault => .node label span (nameComponentsAll file (some file) ks)
    | .functionBody | .staticBlock => .node label span (nameComponentsAll file none ks)
    | _ => .node label span (nameComponentsAll file near ks)

def nameComponentsAll (file : String) (near : Option String) : List Tree → List Tree
  | [] => []
  | t :: ts => nameComponents file near t :: nameComponentsAll file near ts

end

theorem nameComponentsAll_eq_map (file : String) (near : Option String) (ts : List Tree) :
    nameComponentsAll file near ts = ts.map (nameComponents file near) := by
  induction ts with
  | nil => rfl
  | cons t ts ih => simp [nameComponentsAll, ih]

end LiveNotes.Script.Plain
