import ComponentDecl.Text.Blank

/-! # Decimal numbers

    From the digits of a written number to its value. -/

namespace ComponentDecl.Raw

/-- The value of a digit in bases up to sixteen. -/
def digitValue (c : Char) : Nat :=
  if '0' ≤ c && c ≤ '9' then c.toNat - '0'.toNat
  else if 'a' ≤ c && c ≤ 'f' then c.toNat - 'a'.toNat + 10
  else if 'A' ≤ c && c ≤ 'F' then c.toNat - 'A'.toNat + 10
  else 0

/-- The number that digits spell in a base. -/
def ofDigits (base : Nat) (digits : List Char) : Nat :=
  digits.foldl (fun n d => n * base + digitValue d) 0

/-- The number of a sign and a size. -/
def signed (negative : Bool) (n : Nat) : Int :=
  if negative then -(n : Int) else n

/-- The floating-point number nearest to a decimal: whole digits, fraction
    digits and an exponent of ten.  Beyond some thousand places the number is
    zero or infinite. -/
def floatOf (negative : Bool) (whole fraction : List Char) (exponent : Int) : Float :=
  let mantissa := ofDigits 10 (whole ++ fraction)
  let scale := exponent - fraction.length
  let size :=
    if mantissa = 0 then 0
    else if scale > 5000 then 1 / 0
    else if scale + (whole.length + fraction.length : Nat) < -5000 then 0
    else Float.ofScientific mantissa (scale < 0) scale.natAbs
  if negative then -size else size

end ComponentDecl.Raw
