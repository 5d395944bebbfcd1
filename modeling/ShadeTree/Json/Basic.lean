import ShadeTree.Json.Number

/-!
# JSON values

A JSON value, and its compact text. The members of an object stand in the order of the document; a
name that is given again keeps its place and takes the later value.
-/

namespace ShadeTree

/-- A JSON value. -/
inductive Json where
  | null
  | boolean (b : Bool)
  | number (n : Json.Number)
  | string (s : String)
  | array (items : List Json)
  | object (members : List (String × Json))
  deriving Repr, Inhabited

namespace Json

/-- The members with one more: a new name at the end, a known one in its place. -/
def insert {α : Type} (name : String) (value : α) : List (String × α) → List (String × α)
  | [] => [(name, value)]
  | (n, v) :: rest => if n = name then (n, value) :: rest else (n, v) :: insert name value rest

/-- The spelling of one character of a string. -/
def escape (c : Char) : List Char :=
  if c = '"' then ['\\', '"']
  else if c = '\\' then ['\\', '\\']
  else if c = '\x08' then ['\\', 'b']
  else if c = '\x0c' then ['\\', 'f']
  else if c = '\n' then ['\\', 'n']
  else if c = '\x0d' then ['\\', 'r']
  else if c = '\t' then ['\\', 't']
  else if c.toNat < 0x10 then ['\\', 'u', '0', '0', '0'] ++ Nat.toDigits 16 c.toNat
  else if c.toNat < 0x20 then ['\\', 'u', '0', '0'] ++ Nat.toDigits 16 c.toNat
  else [c]

/-- A string between double quotes. -/
def quoted (s : String) : List Char := '"' :: s.toList.flatMap escape ++ ['"']

mutual

/-- The compact text of a value. -/
def chars : Json → List Char
  | null => ['n', 'u', 'l', 'l']
  | boolean true => ['t', 'r', 'u', 'e']
  | boolean false => ['f', 'a', 'l', 's', 'e']
  | number n => n.text
  | string s => quoted s
  | array items => '[' :: itemChars items ++ [']']
  | object members => '\x7b' :: memberChars members ++ ['\x7d']

/-- The texts of items, apart by commas. -/
def itemChars : List Json → List Char
  | [] => []
  | item :: rest => chars item ++ (if rest.isEmpty then [] else ',' :: itemChars rest)

/-- The texts of members, apart by commas. -/
def memberChars : List (String × Json) → List Char
  | [] => []
  | (name, value) :: rest =>
    quoted name ++ ':' :: chars value ++ (if rest.isEmpty then [] else ',' :: memberChars rest)

end

/-- The compact text of a value. -/
def text (j : Json) : String := String.ofList j.chars

end Json

end ShadeTree
