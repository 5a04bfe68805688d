/-! # Settings

    What can be chosen about a pass: the helper variable, the treatment of
    unexpected type arguments, what happens on failure, and the indentation of
    the generated namespace. -/

namespace ComponentDecl

/-- What to do when the base class does not have exactly three type
    arguments. -/
inductive ArgumentPolicy where
  /-- Leave them as they are. -/
  | ignore
  /-- Leave them as they are and say so. -/
  | warn
  /-- Fail. -/
  | error
  deriving DecidableEq, Repr

/-- The word for a policy. -/
def ArgumentPolicy.word : ArgumentPolicy → String
  | .ignore => "ignore"
  | .warn => "warn"
  | .error => "error"

/-- The policy that a word names. -/
def ArgumentPolicy.ofWord? (w : String) : Option ArgumentPolicy :=
  [ArgumentPolicy.ignore, .warn, .error].find? (·.word == w)

/-- The settings of a pass. -/
structure Settings where
  /-- The variable whose type holds the props, events and slots. -/
  helperVariable : String
  /-- What to do with another number of type arguments than three. -/
  argumentPolicy : ArgumentPolicy
  /-- Whether a failed pass gives the module its former text back. -/
  rollbackOnFailure : Bool
  /-- How many spaces indent the members of the generated namespace. -/
  indentWidth : Nat
  deriving DecidableEq, Repr

/-- The settings where nothing is chosen. -/
def Settings.standard : Settings where
  helperVariable := "__propDef"
  argumentPolicy := .warn
  rollbackOnFailure := true
  indentWidth := 4

end ComponentDecl
