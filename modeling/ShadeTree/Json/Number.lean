import ShadeTree.Number.Shortest
import ShadeTree.Number.Single
import ShadeTree.Tuple

/-!
# Numbers of JSON documents

A `Numeral` is a number as it is written, and a `Number` is its value: an integer if it is written as
one and fits 64 bits, and a double otherwise. A double is read from the leading digits that fit a
64-bit word: they are rounded to a double, which is then scaled by powers of ten in double
arithmetic. A numeral too large for a double has no value.
-/

namespace ShadeTree.Json

/-- A number as it is written. -/
structure Numeral where
  negative : Bool
  /-- The digits before the point. -/
  whole : List Char
  /-- The digits after the point, none when there is no point. -/
  fraction : List Char
  /-- The exponent's sign and digits. -/
  exponent : Option (Bool × List Char)
  deriving DecidableEq, Repr

/-- The value of a number. -/
inductive Number where
  | integer (n : Int)
  | real (x : Float)
  deriving BEq, Repr

namespace Numeral

/-- The least number beyond a 64-bit word. -/
def wordSize : Nat := UInt64.size

/-- The digits appended to a word for as long as it has room, and the digits left over. -/
def take (word : Nat) : List Char → Nat × List Char
  | [] => (word, [])
  | d :: ds =>
    let more := 10 * word + Token.natural [d]
    if more < wordSize then take more ds else (word, d :: ds)

/-- The greatest power of ten that is a double. -/
def greatestPower : Nat := 308

/-- A power of ten as a double. -/
def power (k : Nat) : Float := Float.ofScientific 1 false k

/-- `x` divided by `10 ^ k`, in steps of the greatest power of ten. -/
def divide (x : Float) (k : Nat) : Float :=
  if k ≤ greatestPower then x / power k
  else if x == 0 then x
  else divide (x / power greatestPower) (k - greatestPower)
termination_by k
decreasing_by simp only [greatestPower] at *; omega

/-- `x` multiplied by `10 ^ k`, unless that is too large for a double. -/
def multiply (x : Float) (k : Nat) : Option Float :=
  if k ≤ greatestPower then
    let y := x * power k
    if y.isInf then none else some y
  else if x == 0 then some x
  else none

/-- `x` scaled by `10 ^ e`. -/
def scale (x : Float) (e : Int) : Option Float :=
  if e < 0 then some (divide x e.natAbs) else multiply x e.toNat

/-- The greatest exponent that is taken as it is written. -/
def greatestExponent : Nat := 2147483647

/-- The size of a numeral as a double. -/
def magnitude (n : Numeral) : Option Float :=
  let (word, wholeLeft) := take 0 n.whole
  let (word, fractionLeft) := take word n.fraction
  let shift : Int := wholeLeft.length - (n.fraction.length - fractionLeft.length : Nat)
  match n.exponent with
  | none => scale (.ofNat word) shift
  | some (negative, ds) =>
    let e := Token.natural ds
    if greatestExponent < e then
      if negative || word == 0 then some 0 else none
    else
      scale (.ofNat word) (if negative then shift - e else shift + e)

/-- The double a numeral is read as. -/
def real? (n : Numeral) : Option Number :=
  n.magnitude.map fun x => .real (if n.negative then -x else x)

/-- The value of a numeral. A negative zero is a double. -/
def value? (n : Numeral) : Option Number :=
  let k := Token.natural n.whole
  if n.fraction.isEmpty && n.exponent.isNone then
    if n.negative then
      if 0 < k && k ≤ wordSize / 2 then some (.integer (-k)) else n.real?
    else
      if k < wordSize then some (.integer k) else n.real?
  else
    n.real?

/-- The numeral is written as an unsigned integer, and fits a 64-bit word. -/
def natural? (n : Numeral) : Option Nat :=
  match n.value? with
  | some (.integer k) => if n.negative then none else some k.toNat
  | _ => none

end Numeral

namespace Number

/-- The text of a number: an integer in decimal, a double as its shortest decimal. -/
def text : Number → List Char
  | integer n => (toString n).toList
  | real x => Shortest.text x

/-- The single nearest to a number. -/
def toSingle : Number → Float32
  | integer n => Float32.ofInt n
  | real x => Single.ofDouble x

end Number

end ShadeTree.Json
