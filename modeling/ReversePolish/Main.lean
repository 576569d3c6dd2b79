import ReversePolish.CommandLine.Reply

/-!
# The command

Reads the arguments and the source they name, and prints the answer.
-/

namespace ReversePolish.CommandLine

/-- Whether an error code is that of the system's error `n`, which may be given with a minus. -/
def isSystemError (code n : UInt32) : Bool := code == n || code == -n

/-- The cause of a failed read. -/
def ReadFailure.ofError (e : IO.Error) : ReadFailure :=
  match e with
  | .noFileOrDirectory .. => .missing
  | .inappropriateType _ code _ =>
    if isSystemError code 20 then .notDirectory
    else if isSystemError code 21 then .isDirectory
    else .other e.toString
  | .invalidArgument _ code _ =>
    if isSystemError code 36 then .nameTooLong else .other e.toString
  | _ => .other e.toString

/-- The bytes of a source, from the file system or the standard input. -/
def Source.fetch (source : Source) : IO (Except ReadFailure ByteArray) := do
  try
    match source with
    | .text given => return .ok given.toUTF8
    | .stdin => return .ok (← (← IO.getStdin).readBinToEnd)
    | .file path => return .ok (← IO.FS.readBinFile path)
  catch e => return .error (.ofError e)

/-- Prints a reply, the log in front of the other diagnostics. -/
def Reply.print (r : Reply) : IO Unit := do
  IO.print r.stdout
  for log in r.log do
    IO.eprintln log.render
  IO.eprint r.stderr

end ReversePolish.CommandLine

open ReversePolish.CommandLine in
def main (args : List String) : IO UInt32 := do
  let answer ← reply .standard Source.fetch args
  answer.print
  return answer.exitCode.toUInt32
