import ReversePolish.Compilation

/-!
# What a compilation logs

Every stage of a compilation notes for itself what it did: scanning notes each stray character and
then the counts of what it found, and the other two stages note that they succeeded. A stage that
fails notes nothing, and none comes after it.

* `Log`: a log entry, with `Log.render` for its line. `Level.isShown` says which entries a run of a
  given verbosity shows.
* `Logged`: a computation that keeps a log.
* `Logged.scan`, `Logged.parse`, `Logged.write`: the stages. `Logged.lower` does the last two, as
  `lower` does.
-/

namespace ReversePolish.CommandLine

/-! ## Entries -/

/-- The levels of log entries, the least urgent first. -/
inductive Level where
  | trace
  | debug
  | info
  | warn
  deriving DecidableEq, Repr

namespace Level

/-- The name of a level. -/
def name : Level → String
  | .trace => "TRACE"
  | .debug => "DEBUG"
  | .info => "INFO"
  | .warn => "WARN"

/-- How urgent the entries of a level are. -/
def urgency : Level → Nat
  | .trace => 0
  | .debug => 1
  | .info => 2
  | .warn => 3

/-- The least urgent level that a run of the verbosity shows. -/
def least : (verbosity : Nat) → Level
  | 0 => .info
  | 1 => .debug
  | _ => .trace

/-- Whether a run of the verbosity shows the entries of the level. -/
def isShown (verbosity : Nat) (level : Level) : Bool :=
  decide ((least verbosity).urgency ≤ level.urgency)

end Level

/-- A log entry: its level, a message, and named values. -/
structure Log where
  level : Level
  message : String
  fields : List (String × String)
  deriving DecidableEq, Repr

namespace Log

/-- The line of a log entry. -/
def render (log : Log) : String :=
  log.level.name ++ " " ++ log.message ++
    String.join (log.fields.map fun field => " " ++ field.1 ++ "=" ++ field.2)

/-- A stray character was skipped. -/
def strayCharacter (w : Warning) : Log :=
  ⟨.warn, "unexpected character", [("position", w.offset.repr), ("character", w.char.toString)]⟩

/-- The source was scanned. -/
def scanned (scan : Scan) : Log :=
  ⟨.debug, "tokenized input",
    [("tokens", scan.tokens.length.repr), ("warnings", scan.warnings.length.repr)]⟩

/-- The tokens spell an expression. -/
def parsed (tokens : List Token) : Log :=
  ⟨.debug, "parsed expression", [("tokens", tokens.length.repr)]⟩

/-- The reverse Polish text is written. -/
def written (rpn : String) : Log :=
  ⟨.debug, "generated postfix", [("len", rpn.utf8ByteSize.repr)]⟩

/-- Warnings made a strict run fail. -/
def strictFailure (warnings : List Warning) : Log :=
  ⟨.info, "strict mode: failing on lex warnings", [("warnings", warnings.length.repr)]⟩

end Log

/-! ## Stages -/

/-- A computation that keeps a log. -/
abbrev Logged := StateM (List Log)

namespace Logged

/-- Adds an entry to the log. -/
def note (entry : Log) : Logged Unit := modify fun log => log ++ [entry]

/-- Scans a source. -/
def scan (source : String) : Logged Scan := do
  let scan := Scan.ofSource source
  scan.warnings.forM fun w => note (.strayCharacter w)
  note (.scanned scan)
  return scan

/-- Does a stage that may fail, and notes an entry for its result if it does not. -/
def stage {α : Type} (result : Except Error α) (entry : α → Log) : ExceptT Error Logged α := do
  let a ← result
  note (entry a)
  return a

/-- Reads tokens as an expression. -/
def parse (tokens : List Token) : ExceptT Error Logged Expr :=
  stage (Expr.ofTokens tokens) fun _ => .parsed tokens

/-- Writes an expression as reverse Polish text. -/
def write (expr : Expr) : ExceptT Error Logged String := stage expr.toRpn .written

/-- Compiles tokens. -/
def lower (tokens : List Token) : ExceptT Error Logged Lowered := do
  let expr ← parse tokens
  let rpn ← write expr
  return ⟨Outline.ofExpr expr, rpn⟩

end Logged

end ReversePolish.CommandLine
