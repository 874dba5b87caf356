/-!
# Reading numbers

A number on the command line is read as a signed 64-bit decimal: an optional `+` or `-`, then
one or more digits. The digits are read from left to right, and the first problem met decides
the error: a character that is not a digit, or a value that leaves the 64-bit range in the
direction of the sign. A count then has to lie between 0 and 4294967295.
-/

namespace Tokenweave.Cli

/-- Why a text is not a signed 64-bit decimal. -/
inductive NumberError where
  | empty
  | invalidDigit
  | tooLarge
  | tooSmall
  deriving Repr, DecidableEq

/-- The text of a number error. -/
def NumberError.message : NumberError → String
  | .empty => "cannot parse integer from empty string"
  | .invalidDigit => "invalid digit found in string"
  | .tooLarge => "number too large to fit in target type"
  | .tooSmall => "number too small to fit in target type"

/-- The largest magnitude of a 64-bit value in the direction of the sign. -/
def magnitudeLimit (negative : Bool) : Nat :=
  if negative then 9223372036854775808 else 9223372036854775807

/-- Read digits onto `acc`, stopping at the first problem. -/
def readDigits (negative : Bool) : List Char → Nat → Except NumberError Nat
  | [], acc => .ok acc
  | c :: rest, acc =>
    if c.isDigit then
      let acc := acc * 10 + (c.toNat - '0'.toNat)
      if acc > magnitudeLimit negative then .error (if negative then .tooSmall else .tooLarge)
      else readDigits negative rest acc
    else .error .invalidDigit

/-- Read a signed 64-bit decimal. -/
def readSigned (s : String) : Except NumberError Int :=
  match s.toList with
  | [] => .error .empty
  | ['+'] | ['-'] => .error .invalidDigit
  | '+' :: ds => (readDigits false ds 0).map Int.ofNat
  | '-' :: ds => (readDigits true ds 0).map fun n => -Int.ofNat n
  | ds => (readDigits false ds 0).map Int.ofNat

/-- The largest count. -/
def countLimit : Nat := 4294967295

end Tokenweave.Cli
