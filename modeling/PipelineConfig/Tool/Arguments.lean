/-!
# Command lines

A command line names one command and then its options, in any order and each at
most once. An option takes the value after it, or the one attached to it by an
equals sign. What is asked for first is answered first: help, or a mistake that
shows before it.
-/

namespace PipelineConfig

/-- What the tool can be told to do. -/
inductive Command where
  /-- Validate the configuration of a stage, from a file or the standard input. -/
  | validate (category typeKey : String) (input config : Option String)
  /-- Show the schema of a stage. -/
  | describe (category typeKey : String) (config : Option String)
  /-- Show the stage types, perhaps of one category. -/
  | list (category config : Option String)
  /-- Check the file of a catalog. -/
  | checkCatalog (catalog : String)
  deriving DecidableEq, Repr

/-- Why a command line is not a command. -/
inductive UsageError where
  /-- Help is asked for. -/
  | help
  /-- The version is asked for. -/
  | version
  /-- Nothing is asked for. -/
  | nothingAsked
  /-- There is no such command. -/
  | unknownCommand
  /-- The command has no such option, or takes no such value. -/
  | unknownArgument
  /-- An option is there twice. -/
  | repeatedOption
  /-- An option has no value, or an empty one where it needs a path. -/
  | valueMissing
  /-- A value is attached to something that takes none. -/
  | valueUnexpected
  /-- An option that the command needs is not there. -/
  | optionMissing
  deriving DecidableEq, Repr

namespace UsageError

/-- The error in words. -/
def message : UsageError → String
  | help => "help is asked for"
  | version => "the version is asked for"
  | nothingAsked => "a command is needed"
  | unknownCommand => "there is no such command"
  | unknownArgument => "the command takes no such argument"
  | repeatedOption => "an option is there twice"
  | valueMissing => "an option has no value"
  | valueUnexpected => "a value is attached to something that takes none"
  | optionMissing => "an option that the command needs is not there"

end UsageError

/-- An option of a command. -/
inductive CommandOption where
  /-- The category of a stage. -/
  | category
  /-- The type of a stage. -/
  | type
  /-- The file to validate. -/
  | input
  /-- The file of the tool's configuration. -/
  | config
  /-- The file of a catalog. -/
  | catalog
  deriving DecidableEq, Repr

namespace CommandOption

/-- The name of the option without its dashes. -/
def name : CommandOption → String
  | category => "category"
  | type => "type"
  | input => "input"
  | config => "config"
  | catalog => "catalog"

/-- Whether the option's value is a path, which cannot be empty. -/
def isPath : CommandOption → Bool
  | category | type => false
  | input | config | catalog => true

end CommandOption

/-- The values given to options. -/
abbrev OptionValues := List (CommandOption × String)

/-- The names of the commands. -/
inductive CommandName where
  /-- See `Command.validate`. -/
  | validate
  /-- See `Command.describe`. -/
  | describe
  /-- See `Command.list`. -/
  | list
  /-- See `Command.checkCatalog`. -/
  | checkCatalog
  deriving DecidableEq, Repr

namespace CommandName

/-- All names. -/
def all : List CommandName := [validate, describe, list, checkCatalog]

/-- The name as written. -/
def text : CommandName → String
  | validate => "validate"
  | describe => "describe"
  | list => "list"
  | checkCatalog => "check-catalog"

/-- The name that is written so. -/
def ofText? (s : String) : Option CommandName := all.find? fun name => name.text == s

/-- The options that the command takes. -/
def options : CommandName → List CommandOption
  | validate => [.category, .type, .input, .config]
  | describe => [.category, .type, .config]
  | list => [.category, .config]
  | checkCatalog => [.catalog]

/-- The command with the values of its options, if those it needs are there. -/
def withValues (name : CommandName) (values : OptionValues) : Option Command :=
  match name with
  | validate => do
    pure (.validate (← values.lookup .category) (← values.lookup .type) (values.lookup .input)
      (values.lookup .config))
  | describe => do
    pure (.describe (← values.lookup .category) (← values.lookup .type) (values.lookup .config))
  | list => some (.list (values.lookup .category) (values.lookup .config))
  | checkCatalog => do pure (.checkCatalog (← values.lookup .catalog))

end CommandName

/-- How one argument reads. -/
inductive Argument where
  /-- Two dashes, after which nothing is an option. -/
  | dashes
  /-- A name after two dashes, perhaps with a value attached. -/
  | long (name : String) (value : Option String)
  /-- Letters after one dash. -/
  | short (first : Char)
  /-- Anything else. -/
  | plain (text : String)
  deriving DecidableEq, Repr

namespace Argument

/-- A long option, cut at its first equals sign. -/
def cut (s : List Char) : Argument :=
  let name := String.ofList (s.takeWhile (· != '='))
  match s.dropWhile (· != '=') with
  | [] => .long name none
  | _ :: value => .long name (some (String.ofList value))

/-- Reads an argument. -/
def ofText (s : String) : Argument :=
  match s.toList with
  | ['-', '-'] => .dashes
  | '-' :: '-' :: rest => cut rest
  | '-' :: c :: _ => .short c
  | _ => .plain s

end Argument

/-- An option whose value is complete or still to come. -/
abbrev Pending := CommandOption × Option String

namespace OptionValues

/-- Adds the option that was waiting, if there is one. -/
def settle (values : OptionValues) : Option Pending → Except UsageError OptionValues
  | none => .ok values
  | some (_, none) => .error .valueMissing
  | some (option, some value) =>
    if (values.lookup option).isSome then .error .repeatedOption
    else if option.isPath && value.isEmpty then .error .valueMissing
    else .ok (values ++ [(option, value)])

/-- Reads the options of a command. An option is added only when the next one is
met, so that an argument that cannot be read is the first mistake. -/
def read (options : List CommandOption) (values : OptionValues) (pending : Option Pending) :
    List String → Except UsageError OptionValues
  | [] => values.settle pending
  | s :: rest =>
    match Argument.ofText s with
    | .dashes => if rest.isEmpty then values.settle pending else .error .unknownArgument
    | .short 'h' => do
      let _ ← values.settle pending
      .error .help
    | .short _ => .error .unknownArgument
    | .long "help" none => do
      let _ ← values.settle pending
      .error .help
    | .long "help" (some _) => .error .valueUnexpected
    | .long name value =>
      match options.find? fun option => option.name == name with
      | none => .error .unknownArgument
      | some option => do
        let settled ← values.settle pending
        match value with
        | none => read options settled (some (option, none)) rest
        | some value => do
          let settled ← settled.settle (some (option, some value))
          read options settled none rest
    | .plain value =>
      match pending with
      | some (option, none) => read options values (some (option, some value)) rest
      | _ => .error .unknownArgument

end OptionValues

namespace Command

/-- Reads the command of the given name. -/
def ofOptions (name : CommandName) (args : List String) : Except UsageError Command := do
  let values ← OptionValues.read name.options [] none args
  match name.withValues values with
  | some command => .ok command
  | none => .error .optionMissing

/-- What is asked of help for the given words: a command can be named. -/
def helpFor : List String → UsageError
  | [] => .help
  | [s] => if s = "help" ∨ (CommandName.ofText? s).isSome then .help else .unknownCommand
  | _ => .unknownCommand

/-- Reads a command line. -/
def ofArguments : List String → Except UsageError Command
  | [] => .error .nothingAsked
  | s :: rest =>
    match CommandName.ofText? s, Argument.ofText s with
    | some name, _ => ofOptions name rest
    | none, .dashes =>
      match rest with
      | [] => .error .nothingAsked
      | other :: _ =>
        if other = "help" ∨ (CommandName.ofText? other).isSome then .error .unknownArgument
        else .error .unknownCommand
    | none, .long "help" none | none, .short 'h' => .error .help
    | none, .long "version" none | none, .short 'V' => .error .version
    | none, .long "help" (some _) | none, .long "version" (some _) => .error .valueUnexpected
    | none, .long _ _ | none, .short _ => .error .unknownArgument
    | none, .plain "help" => .error (helpFor rest)
    | none, .plain _ => .error .unknownCommand

end Command

end PipelineConfig
