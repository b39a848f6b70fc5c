import EnumReflection.IntType
import EnumReflection.Text.Blank
import EnumReflection.Text.Decimal
import EnumReflection.Text.Digit
import EnumReflection.Text.Quoted
import EnumReflection.Trivia

/-!
# Integer literals

A literal is an optional sign and then digits: decimal ones, or others after `0x`, `0o` or
`0b`. Underscores may stand among the digits and a type name may follow them. The magnitude is
read into 128 bits, and the value has to be a signed integer of 128 bits.
-/
namespace EnumReflection

/-- Why a run of digits is no number of 128 bits. -/
inductive DigitError
  | invalid
  | tooLarge
  deriving DecidableEq, Repr

def DigitError.message : DigitError → Text
  | .invalid => "invalid digit found in string".toList
  | .tooLarge => "number too large to fit in target type".toList

/-- Why a text is no integer literal. -/
inductive LiteralError
  | notInteger (text : Text)
  | badDigits (text : Text) (radix : Nat) (cause : DigitError)
  | outOfRange (text : Text)
  deriving DecidableEq, Repr

/-- The messages of an error, the cause last. -/
def LiteralError.chain : LiteralError → List Text
  | .notInteger text => [Text.Quoted.encode text.trim ++ " is not an integer literal".toList]
  | .badDigits text radix cause =>
    [Text.Quoted.encode text.trim ++ " is not a valid base-".toList ++ Text.decimal radix ++
      " literal".toList, cause.message]
  | .outOfRange text => [Text.Quoted.encode text.trim ++ " is out of range".toList]

namespace Literal

/-- The type names that may follow the digits. -/
def suffixes : List Text :=
  ["i128", "isize", "i64", "i32", "i16", "i8", "u128", "usize", "u64", "u32", "u16", "u8"].map
    String.toList

/-- The sign at the head of a text, and what follows it and the trivia after it. -/
def sign : Text → Bool × Text
  | '-' :: r => (true, Trivia.skip r)
  | '+' :: r => (false, Trivia.skip r)
  | t => (false, t)

/-- The radix that a text announces, and what follows the announcement. -/
def radix : Text → Nat × Text
  | '0' :: 'x' :: r | '0' :: 'X' :: r => (16, r)
  | '0' :: 'o' :: r | '0' :: 'O' :: r => (8, r)
  | '0' :: 'b' :: r | '0' :: 'B' :: r => (2, r)
  | t => (10, t)

/-- Whether a character belongs to the run of digits. Below sixteen the run takes every decimal
digit, and one that is too large for the radix is an error. -/
def inRun (radix : Nat) (c : Char) : Bool :=
  c == '_' || (if radix = 16 then (Text.digitValue? c).isSome else c.isDigit)

/-- The text after a type name at its head. -/
def afterSuffix (t : Text) : Text := (suffixes.findSome? (List.isPrefixOf? · t)).getD t

/-- The number of 128 bits that digits continue. -/
def accumulate (radix acc : Nat) : Text → Except DigitError Nat
  | [] => .ok acc
  | c :: r =>
    match Text.digitValue? c with
    | none => .error .invalid
    | some d =>
      if radix ≤ d then .error .invalid
      else if IntType.u128.Contains (acc * radix + d : Nat) then
        accumulate radix (acc * radix + d) r
      else .error .tooLarge

/-- The magnitude that is written after the sign. The whole text is for the message. -/
def magnitude (whole rest : Text) : Except LiteralError Nat :=
  let (base, t) := radix rest
  let digits := (t.takeWhile (inRun base)).filter (· ≠ '_')
  if ¬ Trivia.isBlank (afterSuffix (t.dropWhile (inRun base))) ∨ digits = [] then
    .error (.notInteger whole)
  else (accumulate base 0 digits).mapError (.badDigits whole base)

def withSign (negative : Bool) (m : Nat) : Int := if negative then -m else m

/-- The value of an integer literal with trivia around it. -/
def parse (text : Text) : Except LiteralError Int :=
  let (negative, rest) := sign (Trivia.skip text)
  match magnitude text rest with
  | .error e => .error e
  | .ok m =>
    if IntType.i128.Contains (withSign negative m) then .ok (withSign negative m)
    else .error (.outOfRange text)

end Literal

end EnumReflection
