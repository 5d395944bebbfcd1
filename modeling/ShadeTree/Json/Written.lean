import ShadeTree.Json.Basic
import ShadeTree.Json.Token

/-!
# JSON documents as they are written

The tokens of a document form a `Written` tree, whatever its numerals and strings stand for and
however deep it goes: a part of a document that nobody reads need only be this much. Reading a part
gives it a value, if its numerals fit, its strings name texts and its nesting stays within bounds.

A tree is built token by token over the stack of the containers still open.
-/

namespace ShadeTree.Json

/-- A document as it is written. A member's name is the text it names, if it names one. -/
inductive Written where
  | null
  | boolean (b : Bool)
  | number (n : Numeral)
  | string (s : Option String)
  | array (items : List Written)
  | object (members : List (Option String × Written))
  deriving Repr, Inhabited

/-! ### Building the tree -/

/-- A container still open, with its parts so far, last first. -/
inductive Frame where
  | array (items : List Written)
  | object (members : List (Option String × Written))
  /-- An object with the name of a member whose value is to come. -/
  | member (members : List (Option String × Written)) (name : Option String)

/-- What the next token has to be. -/
inductive Expected where
  | value
  /-- A value, or the end of an array that has none yet. -/
  | item
  /-- A member's name. -/
  | name
  /-- A member's name, or the end of an object that has none yet. -/
  | firstName
  | colon
  /-- A comma, or the end of the container. -/
  | separator
  /-- Nothing: the document is complete. -/
  | nothing (root : Written)

/-- The state between two tokens. -/
structure Reading where
  frames : List Frame
  expected : Expected

namespace Reading

/-- Before the first token. -/
def start : Reading := ⟨[], .value⟩

/-- A complete value goes into the innermost container, or is the document. -/
def deliver (w : Written) : List Frame → Option Reading
  | [] => some ⟨[], .nothing w⟩
  | .array items :: frames => some ⟨.array (w :: items) :: frames, .separator⟩
  | .member members name :: frames => some ⟨.object ((name, w) :: members) :: frames, .separator⟩
  | .object _ :: _ => none

/-- A token where a value has to be. -/
def beginValue (frames : List Frame) : Token → Option Reading
  | .null => deliver .null frames
  | .boolean b => deliver (.boolean b) frames
  | .number n => deliver (.number n) frames
  | .string s => deliver (.string s) frames
  | .openArray => some ⟨.array [] :: frames, .item⟩
  | .openObject => some ⟨.object [] :: frames, .firstName⟩
  | _ => none

/-- A token where a container may end. -/
def close : List Frame → Token → Option Reading
  | .array items :: frames, .closeArray => deliver (.array items.reverse) frames
  | .object members :: frames, .closeObject => deliver (.object members.reverse) frames
  | _, _ => none

/-- A token where a member's name has to be. -/
def beginMember : List Frame → Token → Option Reading
  | .object members :: frames, .string s => some ⟨.member members s :: frames, .colon⟩
  | _, _ => none

/-- A token where a comma or the end of a container has to be. -/
def separate : List Frame → Token → Option Reading
  | .array items :: frames, .comma => some ⟨.array items :: frames, .value⟩
  | .object members :: frames, .comma => some ⟨.object members :: frames, .name⟩
  | frames, t => close frames t

/-- One token more. -/
def step (r : Reading) (t : Token) : Option Reading :=
  match r.expected with
  | .value => beginValue r.frames t
  | .item => if t = .closeArray then close r.frames t else beginValue r.frames t
  | .name => beginMember r.frames t
  | .firstName => if t = .closeObject then close r.frames t else beginMember r.frames t
  | .colon => if t = .colon then some ⟨r.frames, .value⟩ else none
  | .separator => separate r.frames t
  | .nothing _ => none

/-- The document, if it is complete. -/
def root? (r : Reading) : Option Written :=
  match r.expected with
  | .nothing w => some w
  | _ => none

end Reading

/-- The tree of a document. -/
def Written.ofText? (text : String) : Option Written := do
  let tokens ← tokens? text.toList
  let reading ← tokens.foldlM Reading.step .start
  reading.root?

/-! ### Values -/

/-- Members in the order their names first came, each with the value that came last. -/
def ofMembers {α : Type} (members : List (String × α)) : List (String × α) :=
  members.foldl (fun ms (name, value) => insert name value ms) []

/-- Containers of a document may stand in one another this many deep. -/
def greatestDepth : Nat := 127

mutual

/-- The value of a tree, if its containers stand at most `room` deep. -/
def Written.value? (room : Nat) : Written → Option Json
  | .null => some .null
  | .boolean b => some (.boolean b)
  | .number n => n.value?.map .number
  | .string s => s.map .string
  | .array items => if room = 0 then none else (itemValues? (room - 1) items).map .array
  | .object members =>
    if room = 0 then none
    else (memberValues? (room - 1) members).map fun ms => .object (ofMembers ms)

/-- The values of items. -/
def itemValues? (room : Nat) : List Written → Option (List Json)
  | [] => some []
  | w :: rest =>
    match w.value? room, itemValues? room rest with
    | some v, some vs => some (v :: vs)
    | _, _ => none

/-- The names and values of members. -/
def memberValues? (room : Nat) : List (Option String × Written) → Option (List (String × Json))
  | [] => some []
  | (name, w) :: rest =>
    match name, w.value? room, memberValues? room rest with
    | some name, some v, some vs => some ((name, v) :: vs)
    | _, _, _ => none

end

/-- The value of a document. -/
def ofText? (text : String) : Option Json := (Written.ofText? text).bind (Written.value? greatestDepth)

end ShadeTree.Json
