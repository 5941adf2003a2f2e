import LiveNotes.Decimal.Binary64
import LiveNotes.Table

/-! Values of JSON. The fields of an object are in the order of their names, each name once. -/

namespace LiveNotes

inductive Json where
  | null
  | bool (value : Bool)
  | int (value : Int)
  | float (value : Decimal.Binary64)
  | text (value : String)
  | array (items : List Json)
  | object (fields : List (String × Json))
  deriving Repr, Inhabited

namespace Json

/-- The object of some fields; of two with one name the last one counts. -/
def ofFields (fields : List (String × Json)) : Json :=
  .object (Table.ofList fields)

def nat (n : Nat) : Json := .int n

/-- A list of texts. -/
def texts (ts : List String) : Json := .array (ts.map .text)

/-- A value that may be left out stands as `null`. -/
def ofOption (value : Option Json) : Json := value.getD .null

def optionalText (s : Option String) : Json := s.elim .null .text

def field? (name : String) : Json → Option Json
  | .object fields => fields.lookup name
  | _ => none

def asText? : Json → Option String
  | .text s => some s
  | _ => none

def asBool? : Json → Option Bool
  | .bool b => some b
  | _ => none

def asNat? : Json → Option Nat
  | .int n => if 0 ≤ n then some n.toNat else none
  | _ => none

def asItems? : Json → Option (List Json)
  | .array items => some items
  | _ => none

def asFields? : Json → Option (List (String × Json))
  | .object fields => some fields
  | _ => none

end Json

end LiveNotes
