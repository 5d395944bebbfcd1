/-!
# Characters and names of XML

Which characters a document may hold, and which of them make a name. A qualified name has at most one
colon; what stands before it is the qualifier, which a namespace declaration binds.
-/

namespace ShadeTree.Xml

/-- A blank of XML: space, tab, line feed or carriage return. -/
def isSpace (c : Char) : Bool := c = ' ' || c = '\t' || c = '\n' || c = '\x0d'

/-- A character that a document may hold. -/
def isDocumentChar (c : Char) : Bool :=
  if c.toNat < 0x20 then isSpace c else c.toNat != 0xFFFE && c.toNat != 0xFFFF

/-- The character lies in one of the ranges, ends included. -/
def inRanges (ranges : List (Nat × Nat)) (c : Char) : Bool :=
  ranges.any fun (first, last) => first ≤ c.toNat && c.toNat ≤ last

/-- The ranges of characters beyond ASCII that a name may begin with. -/
def nameStartRanges : List (Nat × Nat) :=
  [(0xC0, 0xD6), (0xD8, 0xF6), (0xF8, 0x2FF), (0x370, 0x37D), (0x37F, 0x1FFF), (0x200C, 0x200D),
    (0x2070, 0x218F), (0x2C00, 0x2FEF), (0x3001, 0xD7FF), (0xF900, 0xFDCF), (0xFDF0, 0xFFFD),
    (0x10000, 0xEFFFF)]

/-- The ranges of characters beyond ASCII that a name may only go on with. -/
def namePartRanges : List (Nat × Nat) := [(0xB7, 0xB7), (0x300, 0x36F), (0x203F, 0x2040)]

/-- A character that a name may begin with, the colon apart. -/
def isNameStart (c : Char) : Bool := c.isAlpha || c = '_' || inRanges nameStartRanges c

/-- A character that a name may go on with, the colon apart. -/
def isNamePart (c : Char) : Bool :=
  isNameStart c || c.isDigit || c = '-' || c = '.' || inRanges namePartRanges c

/-- A name and its qualifier, which is empty when there is none. -/
structure QualifiedName where
  qualifier : String
  base : String
  deriving DecidableEq, Repr, Inhabited

/-- The text is a name without a colon. -/
def isName : List Char → Bool
  | [] => false
  | c :: rest => isNameStart c && rest.all isNamePart

/-- The part of a name up to a colon or its end, and what follows. -/
def namePart (cs : List Char) : List Char × List Char :=
  (cs.takeWhile isNamePart, cs.dropWhile isNamePart)

theorem namePart_append (cs : List Char) : (namePart cs).1 ++ (namePart cs).2 = cs :=
  List.takeWhile_append_dropWhile

theorem namePart_length (cs : List Char) :
    (namePart cs).1.length + (namePart cs).2.length = cs.length := by
  rw [← List.length_append, namePart_append]

/-- The qualified name a text begins with, and the rest of it. A colon at the front qualifies by
nothing. -/
def qualifiedName? (cs : List Char) : Option (QualifiedName × List Char) :=
  match namePart cs with
  | (first, ':' :: rest) =>
    match namePart rest with
    | (_, ':' :: _) => none
    | (second, rest) =>
      if (first.isEmpty || isName first) && isName second then
        some (⟨String.ofList first, String.ofList second⟩, rest)
      else none
  | (first, rest) => if isName first then some (⟨"", String.ofList first⟩, rest) else none

theorem qualifiedName?_length {cs rest : List Char} {n : QualifiedName}
    (h : qualifiedName? cs = some (n, rest)) : rest.length < cs.length := by
  have isName_length {ds : List Char} (hd : isName ds = true) : 0 < ds.length := by
    cases ds <;> simp_all [isName]
  have hlen := namePart_length cs
  unfold qualifiedName? at h
  split at h
  · rename_i first tail heq
    have htail := namePart_length tail
    rw [heq] at hlen
    split at h
    · simp at h
    · rename_i second rest' _ heq'
      rw [heq'] at htail
      split at h
      · simp only [Option.some.injEq, Prod.mk.injEq] at h
        obtain ⟨_, rfl⟩ := h
        simp only [List.length_cons] at hlen htail
        omega
      · simp at h
  · rename_i first tail _ heq
    rw [heq] at hlen
    split at h
    · rename_i hname
      have := isName_length hname
      simp only [Option.some.injEq, Prod.mk.injEq] at h
      obtain ⟨_, rfl⟩ := h
      simp only at hlen
      omega
    · simp at h

/-- The name of a processing instruction a text begins with, colons included, and the rest of it. -/
def instructionName? (cs : List Char) : Option (List Char × List Char) :=
  match cs with
  | [] => none
  | c :: rest =>
    if isNameStart c || c = ':' then
      some (c :: rest.takeWhile fun c => isNamePart c || c = ':',
        rest.dropWhile fun c => isNamePart c || c = ':')
    else none

theorem instructionName?_length {cs n rest : List Char}
    (h : instructionName? cs = some (n, rest)) : rest.length < cs.length := by
  unfold instructionName? at h
  split at h
  · simp at h
  · rename_i c tail
    split at h
    · simp only [Option.some.injEq, Prod.mk.injEq] at h
      obtain ⟨_, rfl⟩ := h
      have := (List.dropWhile_suffix (fun c => isNamePart c || c = ':') (l := tail)).length_le
      simp only [List.length_cons]
      omega
    · simp at h

end ShadeTree.Xml
