import ComponentDecl.Command.Argument
import ComponentDecl.Settings.Basic
import ComponentDecl.Text.Quoted

/-! # Refusals

    Why a command is not carried out at all, and how the user is told. -/

namespace ComponentDecl.Command

/-- A part of the command line that names a file. -/
inductive FilePlace where
  | files
  | comments
  | output
  deriving DecidableEq, Repr

/-- How a part is called in messages. -/
def FilePlace.label : FilePlace → String
  | .files => "'FILES...'"
  | .comments => "'--comments'"
  | .output => "'-o' / '--output'"

/-- Why a command is refused. -/
inductive Refusal where
  | argument (e : ArgumentError)
  /-- No file is named. -/
  | noFiles
  /-- A named file does not exist. -/
  | absentFile (place : FilePlace) (path : String)
  /-- A named file is a directory. -/
  | directory (place : FilePlace) (path : String)
  /-- No policy has this name. -/
  | unknownPolicy (name : String)
  /-- The result is to go to two places. -/
  | twoDestinations
  /-- Several results are to go to one place. -/
  | sharedDestination
  /-- Several files are to have the same comments. -/
  | sharedComments
  deriving DecidableEq, Repr

/-- A hint at the options that may have been meant. -/
def suggestion : List String → String
  | [] => ""
  | [name] => s!" Did you mean {Text.quoted name}?"
  | names => " (Did you mean one of: " ++ ", ".intercalate (names.map Text.quoted) ++ "?)"

/-- The wording of an argument error.  An option with two dashes may have been
    misspelt. -/
def ArgumentError.message : ArgumentError → String
  | .unknownOption name =>
    let similar :=
      if "--".isPrefixOf name then Text.similarTo name (longNames.map (·.1)) else []
    s!"No such option {Text.quoted name}." ++ suggestion similar
  | .missingValue name => s!"Option {Text.quoted name} requires an argument."
  | .unexpectedValue name => s!"Option {Text.quoted name} does not take a value."

namespace Refusal

/-- The names of the policies as a message lists them. -/
def policyNames : String :=
  ", ".intercalate ([ArgumentPolicy.ignore, .warn, .error].map fun p => Text.quoted p.word)

/-- The wording of a refusal. -/
def message : Refusal → String
  | .argument e => e.message
  | .noFiles => "Missing argument 'FILES...'."
  | .absentFile place path =>
    s!"Invalid value for {place.label}: File {Text.quoted path} does not exist."
  | .directory place path =>
    s!"Invalid value for {place.label}: File {Text.quoted path} is a directory."
  | .unknownPolicy name =>
    s!"Invalid value for '--type-argument-policy': {Text.quoted name} is not one of " ++
      s!"{policyNames}."
  | .twoDestinations => "--output and --in-place are mutually exclusive"
  | .sharedDestination => "Multiple files require --in-place"
  | .sharedComments => "--comments can only be used with a single file"

/-- Holds of the refusals that remind of the usage: all but a wrong count of
    values for an option. -/
def recallsUsage : Refusal → Bool
  | .argument (.missingValue _) | .argument (.unexpectedValue _) => false
  | _ => true

/-- The usage of the command and where to find more. -/
def usage : String :=
  "Usage: sveltedts [OPTIONS] FILES...\nTry 'sveltedts --help' for help.\n\n"

/-- What the user is told. -/
def report (r : Refusal) : String :=
  (if r.recallsUsage then usage else "") ++ s!"Error: {r.message}\n"

end Refusal

end ComponentDecl.Command
