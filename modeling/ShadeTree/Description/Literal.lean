import ShadeTree.Json.Basic

/-!
# Literals in JSON documents

A literal may be written as a number, a boolean, a string, an array of numbers, or an object that tags
one of these. Its text is what a socket reads.
-/

namespace ShadeTree

/-- Why a JSON value is no literal. -/
inductive LiteralError where
  /-- An item of an array is no number. -/
  | nonNumericElement (index : Nat)
  /-- The value is of no supported form; it is given by its text. -/
  | unsupported (text : String)
  deriving DecidableEq, Repr

/-- The text of the error. -/
def LiteralError.message : LiteralError → String
  | nonNumericElement index => s!"literal array element {index} is not a number"
  | unsupported text => s!"unsupported literal json: {text}"

namespace Literal

/-- The tags of a literal, in the order they are looked for. -/
def tags : List String := ["color", "vec4", "vec3", "float", "value", "text"]

/-- The texts of numbers, the first of them at `index`. -/
def numberTexts (index : Nat) : List Json → Except LiteralError (List String)
  | [] => .ok []
  | .number n :: rest => (numberTexts (index + 1) rest).map (String.ofList n.text :: ·)
  | _ :: _ => .error (.nonNumericElement index)

/-- The first tag that an object has. -/
def tag? (members : List (String × Json)) : Option String :=
  tags.find? fun tag => members.any (·.1 == tag)

mutual

/-- The text of a literal. -/
def text : Json → Except LiteralError String
  | .number n => .ok (String.ofList n.text)
  | .boolean b => .ok (if b then "1" else "0")
  | .string s => .ok s
  | .array items => (numberTexts 0 items).map (" ".intercalate ·)
  | .object members =>
    match tag? members with
    | some tag => textUnder tag members
    | none => .error (.unsupported (Json.object members).text)
  | .null => .error (.unsupported "null")

/-- The text of the literal under a name. -/
def textUnder (name : String) : List (String × Json) → Except LiteralError String
  | [] => .error (.unsupported "null")
  | (n, value) :: rest => if n = name then text value else textUnder name rest

end

end Literal

end ShadeTree
