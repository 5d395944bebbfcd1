import ShadeTree.Json.Written

/-!
# Records in JSON documents

A record is written as an object of its fields, or as an array of them in order. A field may be left
out, in an array from the end only. Members with other names are skipped, but no field may be given
twice. Each reader here takes the room for nesting that is left where its part stands.
-/

namespace ShadeTree.Json.Written

/-- The names of the members, if each names a text. -/
def names? : List (Option String × Written) → Option (List String)
  | [] => some []
  | (none, _) :: _ => none
  | (some name, _) :: rest => (names? rest).map (name :: ·)

/-- The member of a name. -/
def member? (name : String) (members : List (Option String × Written)) : Option Written :=
  (members.find? (·.1 == some name)).map (·.2)

/-- The fields of a record in order, each with its part of the document if it is given. -/
def fields? (names : List String) : Written → Option (List (Option Written))
  | .array items =>
    if names.length < items.length then none
    else some ((List.range names.length).map (items[·]?))
  | .object members => do
    let given ← names? members
    if names.any fun name => 1 < given.count name then none
    else some (names.map fun name => member? name members)
  | _ => none

/-- A field that may be left out. -/
def orElse {α : Type} (absent : α) (read : Written → Option α) : Option Written → Option α
  | none => some absent
  | some w => read w

/-- A boolean. -/
def boolean? : Written → Option Bool
  | .boolean b => some b
  | _ => none

/-- An unsigned integer of 64 bits. -/
def natural? : Written → Option Nat
  | .number n => n.natural?
  | _ => none

/-- A number, as the single nearest to it. -/
def single? : Written → Option Float32
  | .number n => n.value?.map Number.toSingle
  | _ => none

/-- A string, or a null for none. -/
def string? : Written → Option (Option String)
  | .null => some none
  | .string s => s.map some
  | _ => none

/-- The items of an array. -/
def items? (room : Nat) : Written → Option (List Written)
  | .array items => if room = 0 then none else some items
  | _ => none

/-- The members of an object. -/
def members? (room : Nat) (w : Written) : Option (List (String × Json)) :=
  match w.value? room with
  | some (.object members) => some members
  | _ => none

end ShadeTree.Json.Written
