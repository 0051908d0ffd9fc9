/-
  Number - reading a number from an argument.

  A number is decimal digits, with a plus sign before them at most.  The text
  is read from its start, and the first thing that is wrong is reported.

  * `digits` reads the digits, `parseNumber` the whole text;
  * `NumberError` is what may be wrong.
-/
namespace PaulaReplay.Console

/-- What may be wrong with a number. -/
inductive NumberError where
  | empty
  | invalidDigit
  | tooLarge
deriving DecidableEq, Repr

/-- The wording of a wrong number. -/
def NumberError.message : NumberError → String
  | empty => "cannot parse integer from empty string"
  | invalidDigit => "invalid digit found in string"
  | tooLarge => "number too large to fit in target type"

/-- The number of some digits after others, not above a limit. -/
def digits (limit : Nat) : List Char → (sofar : Nat) → Except NumberError Nat
  | [], n => .ok n
  | c :: rest, n =>
    if ¬ c.isDigit then .error .invalidDigit
    else
      let n := n * 10 + (c.toNat - '0'.toNat)
      if limit < n then .error .tooLarge else digits limit rest n

/-- The number that a text says, not above a limit. -/
def parseNumber (limit : Nat) (s : String) : Except NumberError Nat :=
  match s.toList with
  | [] => .error .empty
  | ['+'] => .error .invalidDigit
  | '+' :: cs => digits limit cs 0
  | cs => digits limit cs 0

end PaulaReplay.Console
