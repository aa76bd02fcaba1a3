import ByteJump.Text.Class
import ByteJump.Text.Number

set_option autoImplicit false

/-!
# Line markers

A preprocessor leaves lines such as `# 12 "lib.bbj" 1 3` behind, saying that the next line is line
12 of `lib.bbj`.  A marker is a `#`, perhaps the word `line`, white space, decimal digits of any
script, at least one white space, and a file name between quotes; up to four kinds of flags may
follow, each a digit from 1 to 4 after white space.  What stands behind them does not matter.

The pieces of a marker cannot be cut in two ways: a digit is no white space, and neither starts the
word `line` nor is a quote.  So each piece is the longest run there is.
-/

-- powers of natural numbers are the built-in ones
attribute [local instance (high)] instPowNat

namespace ByteJump

/-- A line marker: the digits of its number, the file it names, and its flags. -/
structure LineMap.Marker where
  digits : List Char
  file : String
  flags : List Nat
  deriving DecidableEq, Repr

/-- Line numbers have 64 bits: they lie below this bound. -/
def LineMap.lineBound : Nat := 2 ^ (64 : Nat)

namespace LineMap.Marker

open Text

/-- The text behind the word `line`, if it starts with it. -/
def dropWord : List Char → List Char
  | 'l' :: 'i' :: 'n' :: 'e' :: rest => rest
  | text => text

/-- The flags at the start of a text; `ready` says that white space was seen since the last one. -/
def readFlags (ready : Bool) : List Char → List Nat
  | [] => []
  | c :: cs =>
      if isWhite c then readFlags true cs
      else if ready && ('1' ≤ c && c ≤ '4') then (c.toNat - '0'.toNat) :: readFlags false cs
      else []

/-- The quoted file name at the start of a text and the flags behind it. -/
def readFile (digits : List Char) : List Char → Option Marker
  | '"' :: rest =>
      match rest.dropWhile (· != '"') with
      | '"' :: behind =>
          some ⟨digits, String.ofList (rest.takeWhile (· != '"')), readFlags false behind⟩
      | _ => none
  | _ => none

/-- The marker a line starts with, if there is one. -/
def read? (line : List Char) : Option Marker :=
  match line with
  | '#' :: rest =>
      let rest := (dropWord rest).dropWhile isWhite
      let digits := rest.takeWhile isDecimalDigit
      let rest := rest.dropWhile isDecimalDigit
      if digits.isEmpty || (rest.takeWhile isWhite).isEmpty then none
      else readFile digits (rest.dropWhile isWhite)
  | _ => none

/-- The line number, when its digits are ASCII and it has 64 bits. -/
def number? (m : Marker) : Option Nat := (digitsBelow lineBound 0 m.digits).toOption

end LineMap.Marker

end ByteJump
