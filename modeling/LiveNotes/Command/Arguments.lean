import LiveNotes.Command.Usage

/-! The arguments that the program is called with, read as what it is asked to do. -/

namespace LiveNotes

/-- What the program is asked to do. -/
inductive Action where
  | transpile (file : String) (scope : Option String) (registerImports : Bool)
  | bundle (entry : Option String)
  | plan (document : String) (cursor : Option String)
  | preview (document : String)
  | refresh
  | watch
  | report
  deriving DecidableEq, Repr, Inhabited

structure Invocation where
  action : Action
  vault : Option String := none
  json : Bool := false
  deriving DecidableEq, Repr, Inhabited

namespace Command

/-- What arguments may ask for instead of an action, or what is wrong with them. -/
inductive Usage where
  | help (text : String)
  | version
  | fault (message : String)
  deriving DecidableEq, Repr

/-- What has been read of the arguments of a command, or of those in front of one. -/
structure Reading where
  /-- Options with their values, or with an empty text. -/
  given : List (String × String) := []
  operand : Option String := none
  /-- Whether two dashes have been read, which no options follow. -/
  closed : Bool := false
  deriving DecidableEq, Repr, Inhabited

def Reading.value? (r : Reading) (name : String) : Option String := r.given.lookup name

def Reading.has (r : Reading) (name : String) : Bool := (r.value? name).isSome

def unexpected (token : String) : Usage := .fault ("unexpected argument '" ++ token ++ "' found")

def valueMissing (name : String) : Usage :=
  .fault ("a value is required for '--" ++ name ++ "' but none was supplied")

/-- Whether a token may be the value of the option before it. -/
def isValue (token : String) : Bool := token == "-" || !Text.hasPrefix "-" token

/-- Notes an option with its value. -/
def Reading.give (r : Reading) (s : Switch) (value : String) : Except Usage Reading :=
  if r.has s.name && !s.repeats then
    .error (.fault ("the argument '--" ++ s.name ++ "' cannot be used multiple times"))
  else if s.filled && value == "" then
    .error (valueMissing s.name)
  else .ok { r with given := (s.name, value) :: r.given }

/-- What is read by one command: its options, what they show, and its operand. -/
structure Grammar where
  switches : List Switch
  operand : Option Operand
  help : String

/-- Notes an option without a value, or shows what it asks for. -/
def Grammar.flag (g : Grammar) (r : Reading) (s : Switch) : Except Usage Reading :=
  if s.name == helpSwitch.name then .error (.help g.help)
  else if s.name == versionSwitch.name then .error .version
  else r.give s ""

/-- Reads options that are given by their letters. -/
def Grammar.letters (g : Grammar) (r : Reading) : List Char → Except Usage Reading
  | [] => .ok r
  | c :: cs =>
    match g.switches.find? (·.letter == some c) with
    | some s => do g.letters (← g.flag r s) cs
    | none => .error (unexpected ("-" ++ String.singleton c))

/-- An option and the value that is attached to its name. -/
def longParts (body : List Char) : String × Option String :=
  match Text.splitAtFirst ['='] body with
  | some (name, value) => (String.ofList name, some (String.ofList value))
  | none => (String.ofList body, none)

/-- Notes what a command is about. -/
def Grammar.takeOperand (g : Grammar) (r : Reading) (token : String) : Except Usage Reading :=
  match g.operand, r.operand with
  | some o, none =>
    if o.filled && token == "" then
      .error (.fault ("a value is required for '<" ++ o.name ++ ">' but none was supplied"))
    else .ok { r with operand := some token }
  | _, _ => .error (unexpected token)

/-- Notes an option that is given by its name. Its value is attached to it or is the next token, and
then that one is used up. -/
def Grammar.long (g : Grammar) (r : Reading) (body : List Char) (next : Option String) :
    Except Usage (Reading × Bool) :=
  let (name, attached) := longParts body
  match g.switches.find? (·.name == name) with
  | none => .error (unexpected ("--" ++ name))
  | some s =>
    match s.value, attached with
    | none, none => (g.flag r s).map fun r => (r, false)
    | none, some v => .error (.fault ("unexpected value '" ++ v ++ "' for '--" ++ name ++ "' found"))
    | some _, some v => (r.give s v).map fun r => (r, false)
    | some _, none =>
      match next with
      | some v => if isValue v then (r.give s v).map fun r => (r, true) else .error (valueMissing name)
      | none => .error (valueMissing name)

/-- Reads a token, and tells whether the next one is used up as well. -/
def Grammar.token (g : Grammar) (r : Reading) (token : String) (next : Option String) :
    Except Usage (Reading × Bool) :=
  let alone (r : Except Usage Reading) : Except Usage (Reading × Bool) := r.map fun r => (r, false)
  if r.closed then alone (g.takeOperand r token)
  else match token.toList with
    | ['-', '-'] => .ok ({ r with closed := true }, false)
    | '-' :: '-' :: body => g.long r body next
    | '-' :: c :: cs => alone (g.letters r (c :: cs))
    | _ => alone (g.takeOperand r token)

/-- Reads tokens up to the first one that `stops`, which is left with those behind it. With `skip` the
first one is used up already. -/
def Grammar.read (g : Grammar) (stops : String → Bool) (skip : Bool) (r : Reading) :
    List String → Except Usage (Reading × List String)
  | [] => .ok (r, [])
  | token :: tokens =>
    if skip then g.read stops false r tokens
    else if !r.closed && stops token then .ok (r, token :: tokens)
    else match g.token r token tokens.head? with
      | .error u => .error u
      | .ok (r, usesNext) => g.read stops usesNext r tokens

/-- The grammar of what stands in front of a command. -/
def frontGrammar (vault : Option String) : Grammar :=
  ⟨commonSwitches ++ [helpSwitch, versionSwitch], none, programHelp vault⟩

def Form.grammar (f : Form) (vault : Option String) : Grammar :=
  ⟨f.switches ++ commonSwitches ++ [helpSwitch], f.operand, f.help vault⟩

/-- The action of a command whose arguments have been read. -/
def actionOf (f : Form) (r : Reading) : Action :=
  let operand := r.operand.getD ""
  match f.name with
  | "transpile" => .transpile operand (r.value? "scope") (!r.has "no-rewrite-imports")
  | "bundle" => .bundle (r.value? "entry")
  | "plan" => .plan operand (r.value? "cursor")
  | "preview" => .preview operand
  | "refresh" => .refresh
  | "watch" => .watch
  | _ => .report

/-- What is shown when help is asked for by a word. -/
def helpFor (vault : Option String) : List String → Usage
  | [] => .help (programHelp vault)
  | [name] =>
    match form? name with
    | some f => .help (f.help vault)
    | none => .fault ("unrecognized subcommand '" ++ name ++ "'")
  | _ :: name :: _ => .fault ("unrecognized subcommand '" ++ name ++ "'")

/-- Reads arguments. The value that the surroundings give for the vault counts where the arguments
name none; it must not be empty. -/
def readArguments (vault : Option String) (arguments : List String) : Except Usage Invocation := do
  let isCommand (token : String) : Bool := token == "help" || (form? token).isSome
  let (front, rest) ← (frontGrammar vault).read isCommand false {} arguments
  match rest with
  | [] => throw (.fault "a subcommand is required")
  | name :: tokens =>
    match form? name with
    | none => throw (helpFor vault tokens)
    | some f =>
      let (own, _) ← (f.grammar vault).read (fun _ => false) false {} tokens
      if f.operand.isSome && own.operand.isNone then
        throw (.fault "the following required arguments were not provided")
      if vault == some "" && !(own.has "vault" && front.has "vault") then
        throw (valueMissing "vault")
      return {
        action := actionOf f own
        vault := (own.value? "vault").or ((front.value? "vault").or vault)
        json := own.has "json" || front.has "json" }

end Command

end LiveNotes
