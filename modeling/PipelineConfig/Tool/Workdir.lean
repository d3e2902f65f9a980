import PipelineConfig.Tool.Host

/-!
# Working directories in memory

A working directory holds files and empty directories. A path is followed part by
part from it; a part that is empty or a dot stays where it is, and two dots lead
out again. Outside of the working directory there are directories only.
-/

namespace PipelineConfig

/-- What a name stands for. -/
inductive Content where
  /-- A file, with its text if its bytes are one. -/
  | file (text : Option String)
  /-- A directory with nothing in it. -/
  | directory
  deriving DecidableEq, Repr

/-- The contents of a working directory by name. -/
abbrev Workdir := List (String × Content)

/-- A place that a path can lead to. -/
inductive Place where
  /-- The working directory. -/
  | home
  /-- Something in it. -/
  | entry (content : Content)
  /-- A directory outside of it. -/
  | outside
  deriving DecidableEq, Repr

namespace Content

/-- The text of a file. -/
def read : Content → Except ReadFailure String
  | file (some text) => .ok text
  | file none => .error .notText
  | directory => .error .isDirectory

end Content

namespace Workdir

/-- The longest name that a file can have, in bytes. -/
def maxName : Nat := 255

/-- The longest path that can be followed, in bytes. -/
def maxPath : Nat := 4095

/-- The directory around a place. -/
def around : Place → Place
  | .home | .outside => .outside
  | .entry _ => .home

/-- Where the next part of a path leads. -/
def step (dir : Workdir) : Place → String → Except ReadFailure Place
  | .entry (.file _), _ => .error .notDirectory
  | place, part =>
    if part = "" ∨ part = "." then .ok place
    else if part = ".." then .ok (around place)
    else if maxName < part.utf8ByteSize then .error .nameTooLong
    else match place, dir.lookup part with
      | .home, some content => .ok (.entry content)
      | _, _ => .error .notFound

/-- Where the parts of a path lead. -/
def follow (dir : Workdir) (place : Place) : List String → Except ReadFailure Place
  | [] => .ok place
  | part :: rest => do dir.follow (← dir.step place part) rest

/-- The text of the file that a path leads to. -/
def read (dir : Workdir) (path : String) : Except ReadFailure String := do
  if path.contains '\x00' then .error .nameInvalid
  if path.isEmpty then .error .notFound
  if maxPath < path.utf8ByteSize then .error .nameTooLong
  match ← dir.follow (if path.startsWith "/" then .outside else .home) (path.splitOn "/") with
  | .entry content => content.read
  | .home | .outside => .error .isDirectory

/-- A host with this working directory and standard input. -/
def host (dir : Workdir) (input : Content) : Host Id := ⟨dir.read, input.read⟩

end Workdir

end PipelineConfig
