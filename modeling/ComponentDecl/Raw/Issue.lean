/-! # Issues of raw values

    What can be wrong with a value from outside, where it stands, and how that
    is worded. -/

namespace ComponentDecl

/-- Whether a value was read from a JSON text on its way in, or was a value
    already.  The two word missing tables differently. -/
inductive Origin where
  | json
  | value
  deriving DecidableEq, Repr

/-- What is wrong with a value. -/
inductive IssueKind where
  /-- A text that is no JSON. -/
  | unreadableJson
  /-- No table where recovered comments are expected. -/
  | notComments (origin : Origin)
  /-- No table where a table is expected. -/
  | notTable (origin : Origin)
  /-- No text where a text is expected. -/
  | notText
  /-- No whole number, and nothing that could stand for one. -/
  | notInteger
  /-- A text that spells no whole number. -/
  | unreadableInteger
  /-- A number with a fraction. -/
  | fractionalInteger
  /-- A number that is infinite or none. -/
  | notFinite
  /-- A number too large to be read as a whole one. -/
  | oversizedInteger
  /-- A number below zero. -/
  | belowZero
  /-- Neither true nor false, and nothing that could stand for one. -/
  | notFlag
  /-- A text or number that stands for neither true nor false. -/
  | unreadableFlag
  /-- No policy. -/
  | notPolicy
  /-- A name that means nothing. -/
  | unknownName
  deriving DecidableEq, Repr

namespace IssueKind

/-- The word for an issue. -/
def word : IssueKind → String
  | .unreadableJson => "json_invalid"
  | .notComments _ => "model_type"
  | .notTable _ => "dict_type"
  | .notText => "string_type"
  | .notInteger => "int_type"
  | .unreadableInteger => "int_parsing"
  | .fractionalInteger => "int_from_float"
  | .notFinite => "finite_number"
  | .oversizedInteger => "int_parsing_size"
  | .belowZero => "greater_than_equal"
  | .notFlag => "bool_type"
  | .unreadableFlag => "bool_parsing"
  | .notPolicy => "enum"
  | .unknownName => "extra_forbidden"

/-- The wording of an issue; that of an unreadable text is not fixed. -/
def message : IssueKind → Option String
  | .unreadableJson => none
  | .notComments .json | .notTable .json => some "Input should be an object"
  | .notComments .value =>
    some "Input should be a valid dictionary or instance of JSDocResults"
  | .notTable .value => some "Input should be a valid dictionary"
  | .notText => some "Input should be a valid string"
  | .notInteger => some "Input should be a valid integer"
  | .unreadableInteger =>
    some "Input should be a valid integer, unable to parse string as an integer"
  | .fractionalInteger =>
    some "Input should be a valid integer, got a number with a fractional part"
  | .notFinite => some "Input should be a finite number"
  | .oversizedInteger =>
    some "Unable to parse input string as an integer, exceeded maximum size"
  | .belowZero => some "Input should be greater than or equal to 0"
  | .notFlag => some "Input should be a valid boolean"
  | .unreadableFlag => some "Input should be a valid boolean, unable to interpret input"
  | .notPolicy => some "Input should be 'ignore', 'warn' or 'error'"
  | .unknownName => some "Extra inputs are not permitted"

end IssueKind

/-- An issue at its place. -/
structure Issue where
  /-- The names that lead to the value, from the outside in. -/
  place : List String
  kind : IssueKind
  deriving DecidableEq, Repr

/-- A value, or all the issues found in its place. -/
abbrev Checked (α : Type) := Except (List Issue) α

/-- Both values, or the issues of the first followed by those of the second. -/
def Checked.both {α β : Type} (a : Checked α) (b : Checked β) : Checked (α × β) :=
  match a, b with
  | .ok x, .ok y => .ok (x, y)
  | .error is, .ok _ => .error is
  | .ok _, .error js => .error js
  | .error is, .error js => .error (is ++ js)

end ComponentDecl
