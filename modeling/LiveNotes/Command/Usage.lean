import LiveNotes.Text.Split

/-! The commands of the program with their arguments and options, and the help that is shown for them. -/

namespace LiveNotes.Command

def programName : String := "livedoc"

def versionText : String := programName ++ " 0.2.0\n"

/-- The variable of the surroundings that may name the vault. -/
def vaultVariable : String := "LIVEDOC_VAULT"

/-- An option that is given by its name. -/
structure Switch where
  name : String
  letter : Option Char := none
  /-- What its value stands for, if it takes one. -/
  value : Option String := none
  /-- Whether its value must not be empty. -/
  filled : Bool := false
  /-- Whether it may be given more than once. -/
  repeats : Bool := false
  about : String
  deriving DecidableEq, Repr, Inhabited

/-- The argument that a command needs. -/
structure Operand where
  name : String
  /-- Whether it must not be empty. -/
  filled : Bool := false
  about : String
  deriving DecidableEq, Repr, Inhabited

structure Form where
  name : String
  about : String
  operand : Option Operand := none
  switches : List Switch := []
  deriving DecidableEq, Repr, Inhabited

/-- The options of all commands, which may stand in front of a command as well. -/
def commonSwitches : List Switch :=
  [{ name := "verbose", letter := some 'v', repeats := true,
     about := "Increase logging verbosity (-v for DEBUG, -vv for TRACE)" },
   { name := "json", about := "Emit JSON formatted output (stable, machine-readable)" },
   { name := "vault", value := some "PATH", filled := true,
     about := "Vault root (default: nearest directory holding .livedoc or .obsidian)" }]

def helpSwitch : Switch := { name := "help", letter := some 'h', about := "Print help" }

def versionSwitch : Switch := { name := "version", letter := some 'V', about := "Print version" }

def documentOperand : Operand := { name := "DOCUMENT", about := "Vault-relative markdown document" }

def forms : List Form :=
  [{ name := "transpile", about := "Transpile one file and print the resulting module code"
     operand := some { name := "FILE", filled := true,
                       about := "File to transpile; its extension picks the dialect" }
     switches :=
      [{ name := "scope", value := some "ID", about := "Rewrite free identifiers against this scope id" },
       { name := "no-rewrite-imports", about := "Keep bare imports as they are" }] },
   { name := "bundle", about := "Bundle the components folder into a single module"
     switches :=
      [{ name := "entry", value := some "PATH",
         about := "Vault-relative entry file (default: the components index)" }] },
   { name := "plan", about := "Show the editor pass for a document"
     operand := some documentOperand
     switches :=
      [{ name := "cursor", value := some "LINE:COL", about := "Cursor position, 1-based" }] },
   { name := "preview", about := "Evaluate every fragment of a document as reading mode would"
     operand := some documentOperand },
   { name := "refresh", about := "Load the components module once" },
   { name := "watch", about := "Watch the vault and reload components on change" },
   { name := "report", about := "Print the last load's diagnostic report" }]

def form? (name : String) : Option Form := forms.find? (·.name == name)

/-! ### Help -/

/-- Pairs in two columns. -/
def columns (pairs : List (String × String)) : List String :=
  let width := (pairs.map (·.1.length)).foldl max 0
  pairs.map fun (left, right) =>
    "  " ++ left ++ String.ofList (List.replicate (width - left.length + 2) ' ') ++ right

/-- A section of the help, unless it is empty. -/
def helpSection (title : String) (pairs : List (String × String)) : List String :=
  if pairs.isEmpty then [] else "" :: (title ++ ":") :: columns pairs

/-- An option as it is given. -/
def Switch.shown (s : Switch) : String :=
  (match s.letter with
    | some c => "-" ++ String.singleton c ++ ", "
    | none => "    ") ++
  "--" ++ s.name ++ (s.value.elim "" fun v => " <" ++ v ++ ">") ++ (if s.repeats then "..." else "")

/-- What orders options of one rank: the letter, or else the name. -/
def Switch.sortKey (s : Switch) : String :=
  match s.letter with
  | some c => String.ofList [c, '0']
  | none => s.name

/-- The options of a command in the order of help: by their places in the lists they are from. -/
def helpSwitches (own : List Switch) : List Switch :=
  let ranked := (own ++ commonSwitches).zip (List.range own.length ++ List.range commonSwitches.length)
  (ranked.mergeSort fun (a, i) (b, j) => i < j || (i == j && decide (a.sortKey ≤ b.sortKey))).map (·.1)

/-- Options with what they are for. Where the vault may be named by a variable, its value is shown. -/
def switchRows (vault : Option String) (switches : List Switch) : List (String × String) :=
  switches.map fun s =>
    (s.shown, s.about ++
      (if s.name == "vault" then " [env: " ++ vaultVariable ++ "=" ++ vault.getD "" ++ "]" else ""))

/-- The help of the program. -/
def programHelp (vault : Option String) : String :=
  let commands := forms.map (fun f => (f.name, f.about)) ++
    [("help", "Print this message or the help of the given subcommand(s)")]
  "\n".intercalate (["Live code fragments for markdown vaults", "",
      "Usage: " ++ programName ++ " [OPTIONS] <COMMAND>"] ++ helpSection "Commands" commands ++
    helpSection "Options" (switchRows vault (helpSwitches [] ++ [helpSwitch, versionSwitch]))) ++ "\n"

/-- The help of a command. -/
def Form.help (f : Form) (vault : Option String) : String :=
  let operand := f.operand.elim [] fun o => [("<" ++ o.name ++ ">", o.about)]
  "\n".intercalate ([f.about, "", "Usage: " ++ programName ++ " " ++ f.name ++ " [OPTIONS]" ++
      String.join (operand.map fun o => " " ++ o.1)] ++ helpSection "Arguments" operand ++
    helpSection "Options" (switchRows vault (helpSwitches f.switches ++ [helpSwitch]))) ++ "\n"

end LiveNotes.Command
