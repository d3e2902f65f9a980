import PipelineConfig.Tool.Process

/-!
# The command-line program
-/

namespace PipelineConfig

/-- Why the running system could not read something. A code may come with either
sign. -/
def ReadFailure.ofError (e : IO.Error) : ReadFailure :=
  match e with
  | .noFileOrDirectory .. => .notFound
  | .inappropriateType _ code _ | .invalidArgument _ code _ =>
    match code.toInt32.toInt.natAbs with
    | 20 => .notDirectory
    | 21 => .isDirectory
    | 36 => .nameTooLong
    | _ => .other (toString e)
  | e => .other (toString e)

/-- The text of some bytes. -/
def textOfBytes (bytes : ByteArray) : Except ReadFailure String :=
  match String.fromUTF8? bytes with
  | some text => .ok text
  | none => .error .notText

/-- The text that reading bytes ends in. -/
def readText (action : IO ByteArray) : IO (Except ReadFailure String) := do
  try
    return textOfBytes (← action)
  catch e =>
    return .error (.ofError e)

/-- The files and the standard input of the running process. -/
def runningHost : Host IO where
  file path :=
    if path.contains '\x00' then pure (.error .nameInvalid)
    else readText (IO.FS.readBinFile path)
  input := readText do (← IO.getStdin).readBinToEnd

end PipelineConfig

/-- Runs the command line and exits with its status. -/
def main (args : List String) : IO UInt32 := do
  let result ← PipelineConfig.execute PipelineConfig.runningHost args
  IO.print result.output
  IO.eprint result.errors
  return result.status.toUInt32
