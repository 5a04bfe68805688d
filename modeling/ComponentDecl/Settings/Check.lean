import ComponentDecl.Raw.Issue
import ComponentDecl.Raw.Number
import ComponentDecl.Raw.Value
import ComponentDecl.Settings.Basic
import ComponentDecl.Text.Blank

/-! # Checking settings

    From raw values to settings.  Texts and numbers may stand for whole numbers
    and for true and false where their meaning is plain. -/

namespace ComponentDecl.Settings

/-! ## Whole numbers -/

/-- Holds of the characters that may surround a written number. -/
def isPadding (c : Char) : Bool :=
  Text.isBlank c && !(0x1c ≤ c.toNat && c.toNat ≤ 0x1f)

/-- Digits of a number's size: single underscores may stand between two of
    them. -/
def joinedDigits? : List Char → Option (List Char)
  | [] => none
  | [d] => if d.isDigit then some [d] else none
  | d :: '_' :: rest => if d.isDigit then (joinedDigits? rest).map (d :: ·) else none
  | d :: rest => if d.isDigit then (joinedDigits? rest).map (d :: ·) else none

/-- A size without the zeros, and the underscores among them, that lead it.  A
    size of zeros keeps its last character. -/
def dropLeadingZeros (s : List Char) : List Char :=
  match s with
  | '0' :: _ =>
    match s.dropWhile fun c => c == '0' || c == '_' with
    | [] => s.drop (s.length - 1)
    | '.' :: rest =>
      let zeros := s.takeWhile fun c => c == '0' || c == '_'
      zeros.drop (zeros.length - 1) ++ '.' :: rest
    | rest => rest
  | _ => s

/-- A size without a point and zeros at its end. -/
def dropZeroFraction (s : List Char) : List Char :=
  let fraction := s.dropWhile (· != '.')
  if !fraction.isEmpty && (fraction.drop 1).all (· == '0') then s.takeWhile (· != '.') else s

/-- The whole number that a text spells. -/
def integerOf? (s : String) : Option Int :=
  match Text.trimWhile isPadding s.toList with
  | '-' :: rest =>
    let size := dropZeroFraction rest
    let size := match size with
      | '_' :: more => more
      | _ => size
    (joinedDigits? size).map fun ds => -(Raw.ofDigits 10 ds : Int)
  | '+' :: rest => size? rest
  | rest => size? rest
where
  /-- The number of a size without a sign. -/
  size? (s : List Char) : Option Int :=
    match s with
    | c :: _ =>
      if c.isDigit then
        (joinedDigits? (dropZeroFraction (dropLeadingZeros s))).map fun ds =>
          (Raw.ofDigits 10 ds : Int)
      else none
    | [] => none

/-- The longest text that is read as a whole number. -/
def maxIntegerLength : Nat := 4300

/-- The size from which on a floating-point number is not read as a whole
    one. -/
def maxFloatInteger : Float := 9223372036854775808.0

/-- The whole number that a floating-point number equals. -/
def integerOfFloat (f : Float) : Except IssueKind Int :=
  if f.isNaN || f.isInf then .error .notFinite
  else if f.floor != f then .error .fractionalInteger
  else if f.abs < maxFloatInteger then .ok f.toInt64.toInt
  else .error .oversizedInteger

/-- The whole number that a raw value stands for. -/
def integer : Raw → Except IssueKind Int
  | .int i => .ok i
  | .bool b => .ok (if b then 1 else 0)
  | .float f => integerOfFloat f
  | .text s =>
    match integerOf? s with
    | some i => if s.length > maxIntegerLength then .error .oversizedInteger else .ok i
    | none => .error .unreadableInteger
  | _ => .error .notInteger

/-! ## The fields -/

/-- Checks the name of the helper variable. -/
def checkHelper : Raw → Except IssueKind String
  | .text s => .ok s
  | _ => .error .notText

/-- Checks the policy. -/
def checkPolicy : Raw → Except IssueKind ArgumentPolicy
  | .text s =>
    match ArgumentPolicy.ofWord? s with
    | some p => .ok p
    | none => .error .notPolicy
  | _ => .error .notPolicy

/-- The texts that stand for true. -/
def trueWords : List String := ["1", "on", "t", "true", "y", "yes"]

/-- The texts that stand for false. -/
def falseWords : List String := ["0", "off", "f", "false", "n", "no"]

/-- The flag that a whole number stands for. -/
def flagOfInteger (i : Int) : Except IssueKind Bool :=
  if i = 0 then .ok false else if i = 1 then .ok true else .error .unreadableFlag

/-- The smallest whole number of 64 bits. -/
def smallestInteger : Int := -9223372036854775808

/-- The largest whole number of 64 bits. -/
def largestInteger : Int := 9223372036854775807

/-- Checks whether a failed pass is undone. -/
def checkFlag : Raw → Except IssueKind Bool
  | .bool b => .ok b
  | .int i => if smallestInteger ≤ i ∧ i ≤ largestInteger then flagOfInteger i else .error .notFlag
  | .float f =>
    match integerOfFloat f with
    | .ok i => flagOfInteger i
    | .error _ => .error .notFlag
  | .text s =>
    let word := s.map Char.toLower
    if trueWords.contains word then .ok true
    else if falseWords.contains word then .ok false
    else .error .unreadableFlag
  | _ => .error .notFlag

/-- Checks the width of the indentation. -/
def checkWidth (value : Raw) : Except IssueKind Nat :=
  match integer value with
  | .error issue => .error issue
  | .ok i => if i < 0 then .error .belowZero else .ok i.toNat

/-! ## All fields -/

/-- The names of the fields, in the order in which they are checked. -/
def fieldNames : List String :=
  ["helper_variable", "type_argument_policy", "rollback_on_failure", "indent_width"]

/-- Checks one field; a missing one has its standard value. -/
def checkField {α : Type} (entries : List (String × Raw)) (name : String)
    (check : Raw → Except IssueKind α) (standard : α) : Checked α :=
  match Raw.lookup? entries name with
  | none => .ok standard
  | some value => (check value).mapError fun issue => [⟨[name], issue⟩]

/-- Refuses the names that are no fields. -/
def checkNames (entries : List (String × Raw)) : Checked Unit :=
  match entries.filter fun e => !fieldNames.contains e.1 with
  | [] => .ok ()
  | unknown => .error (unknown.map fun e => ⟨[e.1], .unknownName⟩)

/-- Checks settings. -/
def check (entries : List (String × Raw)) : Checked Settings :=
  let helper := checkField entries "helper_variable" checkHelper standard.helperVariable
  let policy := checkField entries "type_argument_policy" checkPolicy standard.argumentPolicy
  let rollback := checkField entries "rollback_on_failure" checkFlag standard.rollbackOnFailure
  let width := checkField entries "indent_width" checkWidth standard.indentWidth
  (helper.both (policy.both (rollback.both (width.both (checkNames entries))))).map
    fun (h, p, r, w, _) => ⟨h, p, r, w⟩

end ComponentDecl.Settings
