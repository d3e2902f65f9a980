/-!
# The tool's surroundings

The tool reads named files and its standard input. It asks a host for them, so
that a directory in memory serves as well as the one it runs in.
-/

namespace PipelineConfig

/-- Why a text cannot be read. -/
inductive ReadFailure where
  /-- Nothing has the name. -/
  | notFound
  /-- The name is that of a directory. -/
  | isDirectory
  /-- The name goes through something that is no directory. -/
  | notDirectory
  /-- The name, or a part of it, is too long. -/
  | nameTooLong
  /-- The name has a character that names cannot have. -/
  | nameInvalid
  /-- The bytes are no UTF-8 text. -/
  | notText
  /-- The host has another reason. -/
  | other (reason : String)
  deriving DecidableEq, Repr

/-- The failure in words. -/
def ReadFailure.message : ReadFailure → String
  | notFound => "No such file or directory (os error 2)"
  | isDirectory => "Is a directory (os error 21)"
  | notDirectory => "Not a directory (os error 20)"
  | nameTooLong => "File name too long (os error 36)"
  | nameInvalid => "file name contained an unexpected NUL byte"
  | notText => "stream did not contain valid UTF-8"
  | other reason => reason

/-- What the tool can read. -/
structure Host (m : Type → Type) where
  /-- The text of a file. -/
  file : String → m (Except ReadFailure String)
  /-- The text of the standard input. -/
  input : m (Except ReadFailure String)

end PipelineConfig
