import ShadeTree.Number.Single
import ShadeTree.Value

/-!
# Tuples

The text of a literal: up to four numbers apart by blanks. Reading never fails. A token counts as far
as its longest prefix that is a number, and as zero when it has none; what was not entirely a number,
and how many tokens were too many, is told beside the value.

A number is an optional sign, decimal digits with an optional point among or around them, and an
optional exponent.
-/

namespace ShadeTree

namespace Token

/-- A blank between tokens: space, tab, line feed, form feed or carriage return. -/
def isBlank (c : Char) : Bool :=
  c = ' ' || c = '\t' || c = '\n' || c = '\x0c' || c = '\x0d'

/-- The maximal runs of characters that are no blanks. `word` holds the current run, last first. -/
def splitFrom (word : List Char) : List Char → List (List Char)
  | [] => if word.isEmpty then [] else [word.reverse]
  | c :: rest =>
    if isBlank c then
      if word.isEmpty then splitFrom [] rest else word.reverse :: splitFrom [] rest
    else
      splitFrom (c :: word) rest

/-- The tokens of a text. -/
def split (text : List Char) : List (List Char) := splitFrom [] text

/-- The digits a text begins with, and the rest of it. -/
def digits (cs : List Char) : List Char × List Char :=
  (cs.takeWhile Char.isDigit, cs.dropWhile Char.isDigit)

theorem digits_append (cs : List Char) : (digits cs).1 ++ (digits cs).2 = cs :=
  List.takeWhile_append_dropWhile

theorem digits_length (cs : List Char) :
    (digits cs).1.length + (digits cs).2.length = cs.length := by
  rw [← List.length_append, digits_append]

/-- The sign a text begins with, as whether it is a minus, and the rest of it. -/
def sign : List Char → Bool × List Char
  | '-' :: rest => (true, rest)
  | '+' :: rest => (false, rest)
  | rest => (false, rest)

/-- The number a list of decimal digits writes. -/
def natural (ds : List Char) : Nat := ds.foldl (fun n d => 10 * n + (d.toNat - '0'.toNat)) 0

/-- The digits before and after the point, and the rest. The point is taken when there is a digit on
one of its sides. -/
def mantissa (cs : List Char) : List Char × List Char × List Char :=
  let (whole, rest) := digits cs
  match rest with
  | '.' :: afterPoint =>
    let (fraction, rest') := digits afterPoint
    if whole.isEmpty && fraction.isEmpty then (whole, [], rest) else (whole, fraction, rest')
  | _ => (whole, [], rest)

/-- The exponent, and the rest. It is taken when it has a digit. -/
def exponent (cs : List Char) : Int × List Char :=
  match cs with
  | 'e' :: rest | 'E' :: rest =>
    let (negative, rest) := sign rest
    let (ds, rest) := digits rest
    if ds.isEmpty then (0, cs)
    else (if negative then -(natural ds : Int) else natural ds, rest)
  | _ => (0, cs)

/-- The single nearest to `± n · 10 ^ e`. -/
def nearest (negative : Bool) (n : Nat) (e : Int) : Float32 :=
  let magnitude := Float32.ofScientific n (e < 0) e.natAbs
  if negative then -magnitude else magnitude

/-- The value of the longest prefix that is a number, and what follows it. -/
def read (token : List Char) : Float32 × List Char :=
  let (negative, rest) := sign token
  let (whole, fraction, rest) := mantissa rest
  if whole.isEmpty && fraction.isEmpty then (0, token)
  else
    let (e, rest) := exponent rest
    (nearest negative (natural (whole ++ fraction)) (e - fraction.length), rest)

/-- The value of the longest prefix that is a number, or zero. -/
def value (token : List Char) : Float32 := (read token).1

/-- The whole token is a number. -/
def isNumber (token : List Char) : Bool := (read token).2.isEmpty

end Token

/-- A literal as it was read. -/
structure Tuple where
  value : Value
  /-- The tokens that were not entirely numbers, in order. -/
  malformed : List String
  /-- How many tokens came after the fourth. -/
  extra : Nat
  deriving BEq, Repr, Inhabited

namespace Tuple

/-- Zero, with nothing to tell. -/
def zero : Tuple := ⟨.zero, [], 0⟩

/-- Every token was a number, and there were four at most. -/
def isClean (t : Tuple) : Bool := t.malformed.isEmpty && t.extra == 0

/-- Read a literal. -/
def ofText (text : String) : Tuple :=
  let tokens := Token.split text.toList
  let used := tokens.take 4
  { value := .ofComponents (used.map Token.value)
    malformed := (used.filter fun token => !Token.isNumber token).map String.ofList
    extra := tokens.length - 4 }

end Tuple

end ShadeTree
