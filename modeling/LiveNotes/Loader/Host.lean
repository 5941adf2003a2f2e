import LiveNotes.Bundle.Analysis
import LiveNotes.Registry

/-! Where modules run. A module is registered under a URL, imported from there, and its URL is given
back. The static host runs nothing: what a module exports stands for itself as an expression. -/

namespace LiveNotes

/-- The code that is registered under URLs. -/
structure UrlTable where
  /-- How many URLs have been made. -/
  made : Nat := 0
  live : List (String × String) := []
  deriving DecidableEq, Repr, Inhabited

namespace UrlTable

def url (number : Nat) : String := "blob:livedoc/" ++ toString number

/-- Registers code under a new URL. -/
def create (t : UrlTable) (code : String) : String × UrlTable :=
  (url t.made, ⟨t.made + 1, (url t.made, code) :: t.live⟩)

def code? (t : UrlTable) (url : String) : Option String := t.live.lookup url

def revoke (t : UrlTable) (url : String) : UrlTable :=
  { t with live := t.live.filter (·.1 != url) }

def size (t : UrlTable) : Nat := t.live.length

end UrlTable

/-- Runs modules, whose exports have values in `V`. -/
structure Host (V : Type) where
  createUrl : UrlTable → (code : String) → String × UrlTable := UrlTable.create
  revokeUrl : UrlTable → (url : String) → UrlTable := UrlTable.revoke
  /-- What the module at a URL exports. -/
  evaluate : UrlTable → (url : String) → Except Error (Exports V)
  /-- Calls a function without arguments. -/
  call : V → Except Error V
  /-- The text that is shown for a value. -/
  display : V → String

namespace StaticHost

/-- The rest of a text in quotes up to the closing one: what is quoted, as it is written, and what
follows. A backslash takes the next character with it, unless it is a line break. -/
def quotedRest? : List Char → Option (List Char × List Char)
  | [] => none
  | '\x22' :: cs => some ([], cs)
  | '\x5c' :: '\n' :: _ => none
  | '\x5c' :: c :: cs => (quotedRest? cs).map fun (s, rest) => ('\x5c' :: c :: s, rest)
  | ['\x5c'] => none
  | c :: cs => (quotedRest? cs).map fun (s, rest) => (c :: s, rest)

/-- The source that a text starts with a read of, where `global` is the registry, and what follows. -/
def readAt? (global cs : List Char) : Option (List Char × List Char) :=
  match Text.afterStart? (global ++ ['[', '\x22']) cs with
  | none => none
  | some inner =>
    match quotedRest? inner with
    | some (source, ']' :: rest) => some (source, rest)
    | _ => none

/-- The sources that a text reads from the registry, of which the first `skip` characters belong to a
read before. -/
def readsFrom (global : List Char) : (skip : Nat) → List Char → List String
  | _, [] => []
  | skip + 1, _ :: cs => readsFrom global skip cs
  | 0, c :: cs =>
    match readAt? global (c :: cs) with
    | some (source, rest) =>
      String.ofList source :: readsFrom global (cs.length - rest.length) cs
    | none => readsFrom global 0 cs

/-- The sources that code reads from the registry, in order. -/
def registryReads (global code : String) : List String := readsFrom global.toList 0 code.toList

/-- What keeps code from running: a source that is not in the registry, or its form. -/
def exports (registry : Option (Registry String × String)) (code url : String) :
    Except Error (Exports String) :=
  let missing := match registry with
    | some (r, global) => (registryReads global code).find? fun s => !r.contains s
    | none => none
  match missing with
  | some source => .error (.evaluation ("Module \"" ++ source ++ "\" is not registered") none)
  | none =>
    match Bundle.analyze code url with
    | .ok a => .ok (Table.ofList a.exports)
    | .error e => .error (.evaluation e.summary none)

def evaluate (registry : Option (Registry String × String)) (urls : UrlTable) (url : String) :
    Except Error (Exports String) :=
  match urls.code? url with
  | some code => exports registry code url
  | none =>
    .error (.evaluation ("Failed to fetch dynamically imported module: " ++ url) none)

end StaticHost

/-- The host that runs nothing. With a registry, given with the expression for it, modules may only
read what is in there. -/
def staticHost (registry : Option (Registry String × String)) : Host String where
  evaluate := StaticHost.evaluate registry
  call function := .ok (function ++ "()")
  display value := value

end LiveNotes
