import Tokenweave.Cli.Run
/-!
# The command line of the tokenizer tool

Reads the command line, the files it names and standard input, runs the tool, and writes its
outputs and exit code. Everything the tool decides is in `Tokenweave.Cli`; this is only the
shell around it.
-/

namespace Tokenweave.Cli

/-- The text of an operating-system error number. -/
def osMessage : UInt32 → String
  | 1 => "Operation not permitted"
  | 2 => "No such file or directory"
  | 5 => "Input/output error"
  | 6 => "No such device or address"
  | 12 => "Cannot allocate memory"
  | 13 => "Permission denied"
  | 19 => "No such device"
  | 20 => "Not a directory"
  | 21 => "Is a directory"
  | 22 => "Invalid argument"
  | 23 => "Too many open files in system"
  | 24 => "Too many open files"
  | 26 => "Text file busy"
  | 27 => "File too large"
  | 36 => "File name too long"
  | 40 => "Too many levels of symbolic links"
  | 75 => "Value too large for defined data type"
  | n => "Unknown error " ++ toString n

/-- The error number an operating-system error carries, if any. -/
def osCode? : IO.Error → Option UInt32
  | .alreadyExists _ c _ | .otherError c _ | .resourceBusy c _ | .resourceVanished c _
  | .unsupportedOperation c _ | .hardwareFault c _ | .unsatisfiedConstraints c _
  | .illegalOperation c _ | .protocolError c _ | .timeExpired c _ | .interrupted _ c _
  | .noFileOrDirectory _ c _ | .invalidArgument _ c _ | .permissionDenied _ c _
  | .resourceExhausted _ c _ | .inappropriateType _ c _ | .noSuchThing _ c _ => some c
  | _ => none

/-- The reason an operating-system error gives: its text and number. -/
def ioReason (e : IO.Error) : String :=
  match osCode? e with
  | some c => osMessage c ++ " (os error " ++ toString c ++ ")"
  | none => toString e

/-- Text read as UTF-8. -/
def decodeText (bytes : ByteArray) : Except String String :=
  match String.fromUTF8? bytes with
  | some s => .ok s
  | none => .error "stream did not contain valid UTF-8"

/-- The text of a file, or the reason it cannot be read. -/
def readText (path : String) : IO (Except String String) := do
  try
    let bytes ← IO.FS.readBinFile path
    pure (decodeText bytes)
  catch e =>
    pure (.error (ioReason e))

/-- All that standard input holds. -/
partial def readAll (stream : IO.FS.Stream) (acc : ByteArray) : IO ByteArray := do
  let chunk ← stream.read 65536
  if chunk.isEmpty then pure acc else readAll stream (acc ++ chunk)

/-- The world a request sees: the files it names, standard input if it uses it, and whether
both outputs are terminals. -/
def hostFor (r : Request) : IO Host := do
  let mut files : List (String × Except String String) := []
  for path in r.files do
    files := files ++ [(path, ← readText path)]
  let stdin ← if r.readsStdin then do
      try
        pure (decodeText (← readAll (← IO.getStdin) ByteArray.empty))
      catch e =>
        pure (.error (ioReason e))
    else pure (.ok "")
  let terminal := (← (← IO.getStdout).isTty) && (← (← IO.getStderr).isTty)
  let found := files
  pure { stdin, terminal, read := fun path => (found.lookup path).getD (.error "not read") }

end Tokenweave.Cli

open Tokenweave.Cli in
/-- Run the tool. -/
def main (args : List String) : IO UInt32 := do
  let outcome ← match request args with
    | .error s => pure s.outcome
    | .ok r => do pure (r.run (← hostFor r))
  let out ← IO.getStdout
  out.putStr outcome.stdout
  out.flush
  let err ← IO.getStderr
  err.putStr outcome.stderr
  err.flush
  pure outcome.code.toUInt32
