/-
  Column - numbers written in columns.

  * `right` sets a text against the right edge of a column of blanks;
  * `decimal` is a number in decimal digits, at least so many;
  * `hex` is a number in lower-case hexadecimal digits, at least so many.

  A number too long for its column is written in full.
-/
namespace PaulaReplay.Column

/-- The text with `fill` before it, up to a width. -/
def padded (fill : Char) (width : Nat) (s : String) : String :=
  String.ofList (List.replicate (width - s.length) fill) ++ s

/-- The text at the right edge of a column. -/
def right (width : Nat) (s : String) : String :=
  padded ' ' width s

/-- A number in decimal digits, with zeros in front up to a width. -/
def decimal (width n : Nat) : String :=
  padded '0' width (String.ofList (Nat.toDigits 10 n))

/-- A number in hexadecimal digits, with zeros in front up to a width. -/
def hex (width n : Nat) : String :=
  padded '0' width (String.ofList (Nat.toDigits 16 n))

end PaulaReplay.Column
