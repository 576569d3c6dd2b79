/-!
# Command-line options

Reads the arguments of a command line from left to right. The first argument that settles the
outcome wins: a mistake, a request for the version or a request for help, whichever stands first.
A source that is missing or given twice over shows only once all arguments are read.

* `Argument.ofString`: the four forms of an argument.
* `Settings.readAll`: what the arguments say, option by option.
* `Options.ofArgs`: the options of a run, which name exactly one source.

The options are `-f PATH` or `--file PATH`, `--emit VIEW`, `--strict`, `-v` or `--verbose`, `-V` or
`--version`, `-h` or `--help`. A value may also be attached: `--emit=tree`, `-fPATH`, `-f=PATH`.
Short options may share a dash, as in `-vvfPATH`. After `--` every argument is positional.
-/

namespace ReversePolish.CommandLine

/-! ## Options -/

/-- Which parts of a compilation are printed. -/
inductive View where
  | tokens
  | tree
  | rpn
  | json
  | all
  deriving DecidableEq, Repr

/-- The view of a given name. -/
def View.ofName? : String → Option View
  | "tokens" => some .tokens
  | "tree" => some .tree
  | "postfix" => some .rpn
  | "json" => some .json
  | "all" => some .all
  | _ => none

/-- Where the source of a run comes from. -/
inductive Source where
  | text (source : String)
  | stdin
  | file (path : String)
  deriving DecidableEq, Repr

/-- The source that a path names; a lone dash is the standard input. -/
def Source.ofPath (path : String) : Source := if path = "-" then .stdin else .file path

/-- The options of a run. -/
structure Options where
  source : Source
  view : View
  strict : Bool
  verbosity : Nat
  deriving DecidableEq, Repr

/-- Why no run follows from the arguments. -/
inductive Stop where
  | usage
  | version
  | help
  deriving DecidableEq, Repr

/-! ## Arguments -/

/-- The forms of an argument. -/
inductive Argument where
  | endOfOptions
  | long (name : String) (value : Option String)
  | short (cluster : List Char)
  | plain (text : String)
  deriving DecidableEq, Repr

/-- The form of an argument: two dashes end the options, a long option has a name and perhaps a
value after the first `=`, a dash with characters behind it is a cluster of short options, and
all else, a lone dash included, is plain. -/
def Argument.ofString (arg : String) : Argument :=
  match arg.toList with
  | ['-', '-'] => .endOfOptions
  | '-' :: '-' :: body =>
    .long (String.ofList (body.takeWhile (· != '=')))
      ((body.dropWhile (· != '=')).tail?.map String.ofList)
  | '-' :: c :: cs => .short (c :: cs)
  | _ => .plain arg

/-! ## Settings -/

/-- What the arguments read so far say. -/
structure Settings where
  text : Option String
  path : Option String
  view : Option View
  strict : Bool
  verbosity : Nat
  deriving DecidableEq, Repr

/-- The greatest verbosity. Asking for more has no effect. -/
def verbosityLimit : Nat := 255

/-- The options that take a value. -/
inductive ValueOption where
  | file
  | emit
  deriving DecidableEq, Repr

namespace Settings

/-- Before the first argument. -/
def initial : Settings := ⟨none, none, none, false, 0⟩

/-- Gives an option its value, which must not be empty, at most once. -/
def setValue (s : Settings) : ValueOption → String → Except Stop Settings
  | .file, path =>
    if s.path.isSome || path.isEmpty then .error .usage else .ok { s with path := some path }
  | .emit, name =>
    match s.view, View.ofName? name with
    | none, some view => .ok { s with view := some view }
    | _, _ => .error .usage

/-- Takes a positional argument, at most one. -/
def addText (s : Settings) (text : String) : Except Stop Settings :=
  if s.text.isSome then .error .usage else .ok { s with text := some text }

/-- Turns strictness on, at most once. -/
def setStrict (s : Settings) : Except Stop Settings :=
  if s.strict then .error .usage else .ok { s with strict := true }

/-- One level more of logging, up to the greatest one. -/
def moreVerbose (s : Settings) : Settings :=
  { s with verbosity := if s.verbosity < verbosityLimit then s.verbosity + 1 else s.verbosity }

/-- Settings, and the option whose value has to be the next argument. -/
abbrev Awaiting := Settings × Option ValueOption

/-- Reads a long option. -/
def readLong (s : Settings) : String → Option String → Except Stop Awaiting
  | "file", some path => (s.setValue .file path).map (·, none)
  | "file", none => .ok (s, some .file)
  | "emit", some name => (s.setValue .emit name).map (·, none)
  | "emit", none => .ok (s, some .emit)
  | "strict", none => s.setStrict.map (·, none)
  | "verbose", none => .ok (s.moreVerbose, none)
  | "version", none => .error .version
  | "help", none => .error .help
  | _, _ => .error .usage

/-- Reads a cluster of short options. The option that takes a value takes the rest of the cluster,
less a leading `=`, and if nothing is left, the next argument. -/
def readCluster (s : Settings) : List Char → Except Stop Awaiting
  | [] => .ok (s, none)
  | 'v' :: cs => s.moreVerbose.readCluster cs
  | 'V' :: _ => .error .version
  | 'h' :: _ => .error .help
  | ['f'] => .ok (s, some .file)
  | 'f' :: '=' :: cs => (s.setValue .file (String.ofList cs)).map (·, none)
  | 'f' :: cs => (s.setValue .file (String.ofList cs)).map (·, none)
  | _ :: _ => .error .usage

/-- Reads the arguments in order. A value that an option waits for has to be a plain argument. -/
def readAll : Awaiting → List String → Except Stop Settings
  | (s, none), [] => .ok s
  | (_, some _), [] => .error .usage
  | (s, some option), arg :: args =>
    match Argument.ofString arg with
    | .plain value => do readAll (← s.setValue option value, none) args
    | _ => .error .usage
  | (s, none), arg :: args =>
    match Argument.ofString arg with
    | .endOfOptions => args.foldlM addText s
    | .long name value => do readAll (← s.readLong name value) args
    | .short cluster => do readAll (← s.readCluster cluster) args
    | .plain text => do readAll (← s.addText text, none) args

/-- The options that the settings amount to. Exactly one source has to be given. -/
def toOptions (s : Settings) : Except Stop Options :=
  match s.text, s.path with
  | some text, none => .ok ⟨.text text, s.view.getD .all, s.strict, s.verbosity⟩
  | none, some path => .ok ⟨.ofPath path, s.view.getD .all, s.strict, s.verbosity⟩
  | _, _ => .error .usage

end Settings

/-- The options that the arguments give. -/
def Options.ofArgs (args : List String) : Except Stop Options := do
  let settings ← Settings.readAll (.initial, none) args
  settings.toOptions

end ReversePolish.CommandLine
