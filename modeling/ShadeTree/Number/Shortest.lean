/-!
# Shortest decimals

The text of a double is the shortest decimal that reads back as that double. The reals that round to
`m · 2 ^ e` form an interval around it; of the grids of multiples of a power of ten the coarsest one
with a point in the interval is taken, and on it the point nearest the value.

`Spelling` fixes how the digits are laid out: which magnitudes are written positionally, and how an
exponent is signed.
-/

namespace ShadeTree.Shortest

open Float.Model

/-- Ten to a power. -/
def tenTo (k : Nat) : Nat := Nat.pow 10 k

/-- A decimal `digits · 10 ^ exponent`. -/
structure Decimal where
  digits : Nat
  exponent : Int
  deriving DecidableEq, Repr

/-- The interval of reals that round to a double, over one denominator. -/
structure Interval where
  low : Nat
  value : Nat
  high : Nat
  denominator : Nat
  /-- The ends belong to the interval. -/
  closed : Bool

/-- The interval of `m · 2 ^ e`. Below a power of two the neighbour is half as far away, except at
the least exponent. -/
def interval (m : Nat) (e : Int) : Interval :=
  let step := if m = 1 <<< 52 ∧ -1074 < e then 1 else 2
  let scale := 1 <<< (e - 2).toNat
  { low := (4 * m - step) * scale
    value := 4 * m * scale
    high := (4 * m + 2) * scale
    denominator := 1 <<< (2 - e).toNat
    closed := m % 2 = 0 }

namespace Interval

/-- The decimal lies in the interval. -/
def holds (i : Interval) (d : Decimal) : Bool :=
  let num := d.digits * tenTo d.exponent.toNat * i.denominator
  let low := i.low * tenTo (-d.exponent).toNat
  let high := i.high * tenTo (-d.exponent).toNat
  if i.closed then low ≤ num && num ≤ high else low < num && num < high

/-- The multiple of `10 ^ exponent` nearest the value, if it lies in the interval, and else its
other neighbour, if that does. Of two equally near the even multiple is taken. -/
def nearest (i : Interval) (exponent : Int) : Option Decimal :=
  let num := i.value * tenTo (-exponent).toNat
  let den := i.denominator * tenTo exponent.toNat
  let below : Decimal := ⟨num / den, exponent⟩
  let above : Decimal := ⟨num / den + 1, exponent⟩
  match i.holds below, i.holds above with
  | true, true =>
    match compare (2 * (num % den)) den with
    | .lt => some below
    | .gt => some above
    | .eq => if below.digits % 2 = 0 then some below else some above
  | true, false => some below
  | false, true => some above
  | false, false => none

end Interval

/-- The shortest decimal that reads back as `m · 2 ^ e`: the first grid with a point in the
interval, from a power of ten above the value downwards. -/
def decimal (m : Nat) (e : Int) : Decimal :=
  let i := interval m e
  let top : Int := (m.log2 + e + 1) * 30103 / 100000 + 1
  ((List.range 24).findSome? fun (k : Nat) => i.nearest (top - k)).getD ⟨0, 0⟩

/-- How a number is laid out. -/
structure Spelling where
  /-- The least decimal exponent written positionally. -/
  positionalFrom : Int
  /-- The decimal exponent from which a number is no longer written positionally. -/
  positionalBelow : Int

/-- Documents write numbers positionally from `1e-5` up to `1e16`. -/
def Spelling.document : Spelling := ⟨-5, 16⟩

/-- The text of `0.d₁d₂… · 10 ^ point`, for a nonempty list of digits. A positional number always has
a fraction, and an exponent always a sign. -/
def Spelling.layOut (style : Spelling) (digits : List Char) (point : Int) : List Char :=
  let exponent := point - 1
  if style.positionalFrom ≤ exponent ∧ exponent < style.positionalBelow then
    if point ≤ 0 then
      '0' :: '.' :: (List.replicate (-point).toNat '0' ++ digits)
    else if digits.length ≤ point.toNat then
      digits ++ List.replicate (point.toNat - digits.length) '0' ++ ['.', '0']
    else
      digits.take point.toNat ++ '.' :: digits.drop point.toNat
  else
    let fraction := match digits.drop 1 with
      | [] => []
      | rest => '.' :: rest
    let sign := if exponent < 0 then '-' else '+'
    digits.take 1 ++ fraction ++ 'e' :: sign :: Nat.toDigits 10 exponent.natAbs

/-- The characters of a sign. -/
def signText : UnpackedFloat.Sign → List Char
  | .positive => []
  | .negative => ['-']

/-- The text of a double in a document: its shortest decimal. Documents hold finite numbers only; of
the others only the names are kept. -/
def text (x : Float) : List Char :=
  match x.toModel.unpack with
  | .notANumber => "NaN".toList
  | .infinity s => signText s ++ "inf".toList
  | .zero s => signText s ++ "0.0".toList
  | .finite s m e _ =>
    let d := decimal m e
    let digits := Nat.toDigits 10 d.digits
    signText s ++ Spelling.document.layOut digits (digits.length + d.exponent)

end ShadeTree.Shortest
