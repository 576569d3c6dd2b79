import ReversePolish.CommandLine.Files
import ReversePolish.CommandLine.Log
import ReversePolish.CommandLine.Options

/-!
# What a command line answers

The exit code, the two output streams and the log of a run, as a function of its options and its
source.

* `Output.ofSource`: the exit code and the streams for a source that is not blank. Tokens are listed
  before they are read as an expression, so that they stay visible when that fails.
* `Reply.ofSource`: the answer for a source, with the entries of its log that are shown.
* `Manual`: the texts that depend on how arguments are declared, not on what a run does.
* `reply`: the answer for a list of arguments, with sources fetched as the surroundings allow.
-/

namespace ReversePolish.CommandLine

/-! ## Output -/

/-- One line for each token. -/
def listing (tokens : List Token) : String :=
  String.join (tokens.map fun t => t.describe ++ "\n")

/-- What a view prints before the tokens are read as an expression. -/
def View.opening (tokens : List Token) : View → String
  | .tokens => listing tokens
  | .all => "Tokens:\n" ++ listing tokens
  | _ => ""

/-- What a view prints of a compilation once it has succeeded. -/
def View.closing (c : Compilation) : View → String
  | .tokens => ""
  | .tree => c.tree.text
  | .rpn => c.rpn ++ "\n"
  | .json => c.report ++ "\n"
  | .all => "Parse tree:\n" ++ c.tree.text ++ "Postfix:\n" ++ c.rpn ++ "\n"

/-- One line for each warning. -/
def warningLines (warnings : List Warning) : String :=
  String.join (warnings.map fun w => "warning: " ++ w.describe ++ "\n")

/-- An error with its stage, and the place it is anchored at. -/
def errorLines (source : String) (e : Error) : String :=
  e.stage.title ++ ": " ++ e.message ++ "\n" ++ e.render source ++ "\n"

/-- The exit code of a run, and the text on its two streams. -/
structure Output where
  exitCode : Nat
  stdout : String
  stderr : String
  deriving DecidableEq, Repr

/-- Compiles a source and prints what the options ask for. -/
def Output.ofSource (o : Options) (source : String) : Logged Output := do
  let scan ← Logged.scan source
  let warned := warningLines scan.warnings
  let opening := o.view.opening scan.tokens
  match ← (Logged.lower scan.tokens).run with
  | .error e => return ⟨1, opening, warned ++ errorLines source e⟩
  | .ok lowered =>
    let shown := opening ++
      o.view.closing ⟨scan.tokens, scan.warnings, lowered.tree, lowered.rpn⟩
    if o.strict && !scan.warnings.isEmpty then
      Logged.note (.strictFailure scan.warnings)
      return ⟨1, shown, warned⟩
    else return ⟨0, shown, warned⟩

/-! ## Replies -/

/-- What a command line answers: the exit code, the text on the two streams, and the log. -/
structure Reply where
  exitCode : Nat
  stdout : String
  stderr : String
  log : List Log
  deriving DecidableEq, Repr

/-- What is said about the arguments of a command line. It follows from how they are declared, and
is no part of what a run does. -/
structure Manual where
  /-- The text of `--help`. -/
  help : String
  /-- What is said about arguments that are refused. -/
  complaint : List String → String

/-- The manual of the command. Of a complaint it gives the last line alone, which is the same for
all refused arguments. -/
def Manual.standard : Manual where
  help :=
    "Compile arithmetic expressions into postfix notation\n" ++
    "\nUsage: rpnc [OPTIONS] [EXPR]\n" ++
    "\nArguments:\n" ++
    "  [EXPR]  Expression to compile, e.g. \"(2+3)*4\"\n" ++
    "\nOptions:\n" ++
    "  -f, --file <FILE>  Read the expression from a file, or `-` for stdin\n" ++
    "      --emit <EMIT>  Which sections to print [default: all] " ++
      "[possible values: tokens, tree, postfix, json, all]\n" ++
    "      --strict       Exit with failure when the input contained unrecognised characters\n" ++
    "  -v, --verbose...   Increase log verbosity (-v debug, -vv trace)\n" ++
    "  -h, --help         Print help\n" ++
    "  -V, --version      Print version\n"
  complaint _ := "For more information, try '--help'.\n"

namespace Reply

/-- The answer to a run that fails before anything is compiled. -/
def failure (message : String) : Reply := ⟨1, "", "Error: " ++ message ++ "\n", []⟩

/-- The answer when a source cannot be read. -/
def readFailure (subject : String) (e : ReadFailure) : Reply :=
  failure ("failed to read " ++ subject ++ "\n\nCaused by:\n    " ++ e.cause)

/-- The answer for a source. One with nothing left between the white space at its ends is not
compiled. -/
def ofSource (o : Options) (source : String) : Reply :=
  if (Text.trimmed source.toList).isEmpty then failure "Please enter some code."
  else
    let (output, log) := (Output.ofSource o source).run []
    let shown := log.filter fun entry => entry.level.isShown o.verbosity
    ⟨output.exitCode, output.stdout, output.stderr, shown⟩

/-- The answer when the arguments ask for no run. -/
def ofStop (manual : Manual) (args : List String) : Stop → Reply
  | .usage => ⟨2, "", manual.complaint args, []⟩
  | .version => ⟨0, "rpnc 0.1.0\n", "", []⟩
  | .help => ⟨0, manual.help, "", []⟩

end Reply

/-! ## Command lines -/

/-- What reading a source that is not given in the arguments is called. -/
def Source.subject : Source → String
  | .file path => "`" ++ path ++ "`"
  | _ => "stdin"

/-- The answer for the contents of a fetched source. -/
def Reply.ofContents (o : Options) (contents : Except ReadFailure ByteArray) : Reply :=
  match contents >>= decode with
  | .ok source => .ofSource o source
  | .error e => .readFailure o.source.subject e

/-- The answer for a list of arguments. Nothing is fetched but the one source they name. -/
def reply {m : Type → Type} [Monad m] (manual : Manual)
    (fetch : Source → m (Except ReadFailure ByteArray)) (args : List String) : m Reply :=
  match Options.ofArgs args with
  | .error stop => pure (.ofStop manual args stop)
  | .ok o =>
    match o.source with
    | .text source => pure (.ofSource o source)
    | source => return .ofContents o (← fetch source)

/-- What a command line can read from: the standard input and the files of its working directory. -/
structure Surroundings where
  stdin : ByteArray
  files : List (String × ByteArray)

namespace Surroundings

/-- The files within reach. Besides those of the working directory these are two devices: one
that is always empty, and the standard input under a path of its own. -/
def tree (s : Surroundings) : FileTree :=
  ⟨("/dev/null", .empty) :: ("/dev/stdin", s.stdin) :: s.files⟩

/-- The bytes of a source. -/
def fetch (s : Surroundings) : Source → Except ReadFailure ByteArray
  | .text source => .ok source.toUTF8
  | .stdin => .ok s.stdin
  | .file path => s.tree.read path

/-- The answer for a list of arguments in given surroundings. -/
def reply (s : Surroundings) (args : List String) : Reply :=
  Id.run (CommandLine.reply .standard s.fetch args)

end Surroundings

end ReversePolish.CommandLine
