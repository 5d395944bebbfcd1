import ShadeTree.Xml.Name

/-!
# Tokens of XML documents

The lexical side of a document: tags with their attributes, character data, and what is skipped
(comments and processing instructions). There is no document type, so the only references are those to
characters and to the five predefined entities.
-/

namespace ShadeTree.Xml

/-- A lexical unit. -/
inductive Token where
  | openTag (name : QualifiedName) (attributes : List (QualifiedName × String)) (isEmpty : Bool)
  | closeTag (name : QualifiedName)
  /-- Character data, as whether it is blank. -/
  | text (blank : Bool)
  /-- A comment or a processing instruction. -/
  | skipped
  deriving Repr

/-! ### References -/

/-- The value of a hexadecimal digit. -/
def hexDigit? (c : Char) : Option Nat :=
  if c.isDigit then some (c.toNat - '0'.toNat)
  else if 'a' ≤ c && c ≤ 'f' then some (c.toNat - 'a'.toNat + 10)
  else if 'A' ≤ c && c ≤ 'F' then some (c.toNat - 'A'.toNat + 10)
  else none

/-- The number that digits write in a base. -/
def number (base : Nat) (ds : List Char) : Nat :=
  ds.foldl (fun n d => base * n + (hexDigit? d).getD 0) 0

/-- The character of a number of 32 bits. A number of no character gives the replacement character. -/
def charOf? (n : Nat) : Option Char :=
  if n < UInt32.size then
    let c := if n.isValidChar then Char.ofNat n else '\ufffd'
    if isDocumentChar c then some c else none
  else none

/-- The character of a predefined entity. -/
def entity? (name : List Char) : Option Char :=
  if name = ['q', 'u', 'o', 't'] then some '"'
  else if name = ['a', 'm', 'p'] then some '&'
  else if name = ['a', 'p', 'o', 's'] then some '\''
  else if name = ['l', 't'] then some '<'
  else if name = ['g', 't'] then some '>'
  else none

/-- What a reference writes between its ampersand and its semicolon, as a character. -/
def referenced? : List Char → Option Char
  | '#' :: 'x' :: ds =>
    if ds.isEmpty || ds.any fun d => (hexDigit? d).isNone then none else charOf? (number 16 ds)
  | '#' :: ds => if ds.isEmpty || !ds.all Char.isDigit then none else charOf? (number 10 ds)
  | name => entity? name

/-- The character a reference stands for, from after its ampersand, and what follows it. -/
def reference? (cs : List Char) : Option (Char × List Char) :=
  match cs.dropWhile (· != ';') with
  | [] => none
  | _ :: rest => (referenced? (cs.takeWhile (· != ';'))).map fun c => (c, rest)

theorem reference?_length {cs rest : List Char} {c : Char} (h : reference? cs = some (c, rest)) :
    rest.length < cs.length := by
  unfold reference? at h
  split at h
  · simp at h
  · rename_i d tail heq
    have := (List.dropWhile_suffix (· != ';') (l := cs)).length_le
    rw [heq] at this
    simp only [Option.map_eq_some_iff, Prod.mk.injEq] at h
    obtain ⟨_, _, _, rfl⟩ := h
    simp only [List.length_cons] at this
    omega

/-- Character data with its references resolved. A literal tab or line end counts as a space, a
carriage return and the line feed after it as one; a character that a reference stands for is kept. -/
def normalize? : List Char → Option (List Char)
  | [] => some []
  | '&' :: rest =>
    match h : reference? rest with
    | none => none
    | some (c, rest') =>
      have := reference?_length h
      (normalize? rest').map (c :: ·)
  | '\x0d' :: '\n' :: rest => (normalize? rest).map (' ' :: ·)
  | c :: rest => (normalize? rest).map ((if isSpace c then ' ' else c) :: ·)
termination_by cs => cs.length

/-! ### Tags -/

theorem length_dropWhile_le (p : Char → Bool) (cs : List Char) :
    (cs.dropWhile p).length ≤ cs.length :=
  (List.dropWhile_suffix p).length_le

/-- A text without the blanks it begins with. -/
def skipSpaces (cs : List Char) : List Char := cs.dropWhile isSpace

/-- The characters up to the first of some kind, if the document may hold them all, and the rest from
there on. -/
def upTo? (stop : Char → Bool) (cs : List Char) : Option (List Char × List Char) :=
  let taken := cs.takeWhile fun c => !stop c
  if taken.all isDocumentChar then some (taken, cs.dropWhile fun c => !stop c) else none

theorem upTo?_length {stop : Char → Bool} {cs taken rest : List Char}
    (h : upTo? stop cs = some (taken, rest)) : rest.length ≤ cs.length := by
  unfold upTo? at h
  dsimp only at h
  split at h
  · simp only [Option.some.injEq, Prod.mk.injEq] at h
    obtain ⟨_, rfl⟩ := h
    exact length_dropWhile_le _ cs
  · simp at h

/-- The quoted text that follows an equals sign, as it is written, and what follows it. No less-than
sign stands in it. -/
def quotedValue? (cs : List Char) : Option (List Char × List Char) :=
  match skipSpaces cs with
  | '=' :: rest =>
    match skipSpaces rest with
    | quote :: rest =>
      if quote = '"' || quote = '\'' then
        match upTo? (fun c => c == quote || c == '<') rest with
        | some (value, close :: rest) => if close = quote then some (value, rest) else none
        | _ => none
      else none
    | [] => none
  | _ => none

theorem quotedValue?_length {cs value rest : List Char}
    (h : quotedValue? cs = some (value, rest)) : rest.length < cs.length := by
  unfold quotedValue? at h
  split at h
  · rename_i tail heq
    have h₁ := length_dropWhile_le isSpace cs
    rw [show cs.dropWhile isSpace = _ from heq] at h₁
    split at h
    · rename_i quote tail' heq'
      have h₂ := length_dropWhile_le isSpace tail
      rw [show tail.dropWhile isSpace = _ from heq'] at h₂
      split at h
      · split at h
        · rename_i hup
          have h₃ := upTo?_length hup
          split at h
          · simp only [Option.some.injEq, Prod.mk.injEq] at h
            obtain ⟨_, rfl⟩ := h
            simp only [List.length_cons] at h₁ h₂ h₃
            omega
          · simp at h
        · simp at h
      · simp at h
    · simp at h
  · simp at h

/-- The attribute a text begins with, and what follows it. -/
def attribute? (cs : List Char) : Option ((QualifiedName × String) × List Char) := do
  let (name, cs) ← qualifiedName? cs
  let (value, cs) ← quotedValue? cs
  let value ← normalize? value
  some ((name, String.ofList value), cs)

theorem attribute?_length {cs rest : List Char} {a : QualifiedName × String}
    (h : attribute? cs = some (a, rest)) : rest.length < cs.length := by
  simp only [attribute?, Option.bind_eq_bind, Option.bind_eq_some_iff, Prod.exists,
    Option.some.injEq, Prod.mk.injEq] at h
  obtain ⟨_, _, hn, _, _, hv, _, _, _, rfl⟩ := h
  have := qualifiedName?_length hn
  have := quotedValue?_length hv
  omega

/-- The rest of a tag after its name: its attributes, whether the tag closes itself, and what follows.
A blank stands before each attribute. -/
def attributes? (cs : List Char) :
    Option (List (QualifiedName × String) × Bool × List Char) :=
  match skipSpaces cs with
  | '>' :: rest => some ([], false, rest)
  | '/' :: '>' :: rest => some ([], true, rest)
  | _ =>
    match cs with
    | [] => none
    | c :: tail =>
      if isSpace c then
        match h : attribute? (skipSpaces tail) with
        | none => none
        | some (a, rest) =>
          have := attribute?_length h
          have := length_dropWhile_le isSpace tail
          (attributes? rest).map fun (as, isEmpty, rest) => (a :: as, isEmpty, rest)
      else none
termination_by cs.length
decreasing_by
  simp only [skipSpaces, List.length_cons] at *
  omega

/-- The tag that opens an element, from after its less-than sign, and what follows it. -/
def openTag? (cs : List Char) : Option (Token × List Char) := do
  let (name, cs) ← qualifiedName? cs
  let (attributes, isEmpty, cs) ← attributes? cs
  some (.openTag name attributes isEmpty, cs)

/-- The tag that closes an element, from after its slash, and what follows it. -/
def closeTag? (cs : List Char) : Option (Token × List Char) := do
  let (name, cs) ← qualifiedName? cs
  match skipSpaces cs with
  | '>' :: rest => some (.closeTag name, rest)
  | _ => none

/-! ### Other markup -/

/-- What follows a comment, from after its opening. Two hyphens stand in it at its end only. -/
def comment? : List Char → Option (List Char)
  | [] => none
  | '-' :: '-' :: rest =>
    match rest with
    | '>' :: rest => some rest
    | _ => none
  | c :: rest => if isDocumentChar c then comment? rest else none

/-- What follows a section of character data, from after its opening. -/
def section? : List Char → Option (List Char)
  | [] => none
  | ']' :: ']' :: '>' :: rest => some rest
  | c :: rest => if isDocumentChar c then section? rest else none

/-- What follows a processing instruction, from after its name. -/
def instruction? : List Char → Option (List Char)
  | [] => none
  | '?' :: '>' :: rest => some rest
  | c :: rest => if isDocumentChar c then instruction? rest else none

/-- The mark that ends a section of character data stands in a text. -/
def hasSectionEnd : List Char → Bool
  | [] => false
  | ']' :: ']' :: '>' :: _ => true
  | _ :: rest => hasSectionEnd rest

/-- The character data a text begins with, and what follows it. -/
def text? (cs : List Char) : Option (Token × List Char) := do
  let (data, rest) ← upTo? (· == '<') cs
  if hasSectionEnd data then none
  else do
    let _ ← normalize? data
    some (.text (data.all isSpace), rest)

/-- The token a text begins with, and the rest of it. A declaration has no place here. -/
def Token.next? : List Char → Option (Token × List Char)
  | '<' :: '!' :: '-' :: '-' :: rest => (comment? rest).map fun rest => (.skipped, rest)
  | '<' :: '!' :: '[' :: 'C' :: 'D' :: 'A' :: 'T' :: 'A' :: '[' :: rest =>
    (section? rest).map fun rest => (.text false, rest)
  | '<' :: '!' :: _ => none
  | '<' :: '?' :: 'x' :: 'm' :: 'l' :: ' ' :: _ => none
  | '<' :: '?' :: rest => do
    let (_, rest) ← instructionName? rest
    let rest ← instruction? (skipSpaces rest)
    some (.skipped, rest)
  | '<' :: '/' :: rest => closeTag? rest
  | '<' :: rest => openTag? rest
  | cs => text? cs

/-! ### Documents -/

theorem attributes?_length {cs rest : List Char} {as : List (QualifiedName × String)}
    {isEmpty : Bool} (h : attributes? cs = some (as, isEmpty, rest)) : rest.length < cs.length := by
  fun_induction attributes? cs generalizing as rest isEmpty with
  | case1 cs tail heq =>
    have := length_dropWhile_le isSpace cs
    simp only [Option.some.injEq, Prod.mk.injEq] at h
    obtain ⟨_, _, rfl⟩ := h
    rw [show cs.dropWhile isSpace = _ from heq, List.length_cons] at this
    omega
  | case2 cs tail heq =>
    have := length_dropWhile_le isSpace cs
    simp only [Option.some.injEq, Prod.mk.injEq] at h
    obtain ⟨_, _, rfl⟩ := h
    rw [show cs.dropWhile isSpace = _ from heq, List.length_cons, List.length_cons] at this
    omega
  | case3 => simp at h
  | case4 => simp at h
  | case5 c tail _ _ _ a rest' _ hlen hdrop ih =>
    simp only [Option.map_eq_some_iff, Prod.exists, Prod.mk.injEq] at h
    obtain ⟨_, _, _, hrest, _, _, rfl⟩ := h
    have := ih hrest
    simp only [skipSpaces, List.length_cons] at *
    omega
  | case6 => simp at h

theorem openTag?_length {cs rest : List Char} {t : Token} (h : openTag? cs = some (t, rest)) :
    rest.length < cs.length := by
  simp only [openTag?, Option.bind_eq_bind, Option.bind_eq_some_iff, Prod.exists,
    Option.some.injEq, Prod.mk.injEq] at h
  obtain ⟨_, _, hn, _, _, _, ha, _, rfl⟩ := h
  have := qualifiedName?_length hn
  have := attributes?_length ha
  omega

theorem closeTag?_length {cs rest : List Char} {t : Token} (h : closeTag? cs = some (t, rest)) :
    rest.length < cs.length := by
  simp only [closeTag?, Option.bind_eq_bind, Option.bind_eq_some_iff, Prod.exists] at h
  obtain ⟨_, cs', hn, hmatch⟩ := h
  have hname := qualifiedName?_length hn
  have hdrop := length_dropWhile_le isSpace cs'
  split at hmatch
  · rename_i heq
    rw [show cs'.dropWhile isSpace = _ from heq, List.length_cons] at hdrop
    simp only [Option.some.injEq, Prod.mk.injEq] at hmatch
    obtain ⟨_, rfl⟩ := hmatch
    omega
  · simp at hmatch

theorem comment?_length {cs rest : List Char} (h : comment? cs = some rest) :
    rest.length < cs.length := by
  fun_induction comment? cs with
  | case1 => cases h
  | case2 tail =>
    obtain rfl := Option.some.inj h
    simp only [List.length_cons]
    omega
  | case3 => cases h
  | case4 c tail _ _ ih =>
    have := ih h
    simp only [List.length_cons]
    omega
  | case5 => cases h

theorem section?_length {cs rest : List Char} (h : section? cs = some rest) :
    rest.length < cs.length := by
  fun_induction section? cs with
  | case1 => cases h
  | case2 tail =>
    obtain rfl := Option.some.inj h
    simp only [List.length_cons]
    omega
  | case3 c tail _ _ ih =>
    have := ih h
    simp only [List.length_cons]
    omega
  | case4 => cases h

theorem instruction?_length {cs rest : List Char} (h : instruction? cs = some rest) :
    rest.length < cs.length := by
  fun_induction instruction? cs with
  | case1 => cases h
  | case2 tail =>
    obtain rfl := Option.some.inj h
    simp only [List.length_cons]
    omega
  | case3 c tail _ _ ih =>
    have := ih h
    simp only [List.length_cons]
    omega
  | case4 => cases h

theorem text?_length {c : Char} {cs rest : List Char} {t : Token} (hc : c ≠ '<')
    (h : text? (c :: cs) = some (t, rest)) : rest.length < (c :: cs).length := by
  simp only [text?, Option.bind_eq_bind, Option.bind_eq_some_iff, Prod.exists] at h
  obtain ⟨data, rest', hup, hif⟩ := h
  have hrest : rest'.length < (c :: cs).length := by
    have := length_dropWhile_le (fun c => !(c == '<')) cs
    simp only [upTo?, Option.ite_none_right_eq_some, Option.some.injEq, Prod.mk.injEq] at hup
    obtain ⟨_, _, rfl⟩ := hup
    rw [List.dropWhile_cons_of_pos (by simp [hc])]
    simp only [List.length_cons]
    omega
  split at hif
  · simp at hif
  · simp only [Option.bind_eq_some_iff, Option.some.injEq, Prod.mk.injEq] at hif
    obtain ⟨_, _, _, rfl⟩ := hif
    exact hrest

theorem Token.next?_length {cs rest : List Char} {t : Token}
    (h : Token.next? cs = some (t, rest)) (hcs : cs ≠ []) : rest.length < cs.length := by
  unfold Token.next? at h
  split at h
  · simp only [Option.map_eq_some_iff, Prod.mk.injEq] at h
    obtain ⟨_, hr, _, rfl⟩ := h
    have := comment?_length hr
    simp only [List.length_cons]
    omega
  · simp only [Option.map_eq_some_iff, Prod.mk.injEq] at h
    obtain ⟨_, hr, _, rfl⟩ := h
    have := section?_length hr
    simp only [List.length_cons]
    omega
  · simp at h
  · simp at h
  · simp only [Option.bind_eq_bind, Option.bind_eq_some_iff, Prod.exists, Option.some.injEq,
      Prod.mk.injEq] at h
    obtain ⟨_, tail, hn, _, hr, _, rfl⟩ := h
    have := instructionName?_length hn
    have := instruction?_length hr
    have := length_dropWhile_le isSpace tail
    simp only [skipSpaces, List.length_cons] at *
    omega
  · have := closeTag?_length h
    simp only [List.length_cons]
    omega
  · have := openTag?_length h
    simp only [List.length_cons]
    omega
  · cases cs with
    | nil => exact absurd rfl hcs
    | cons c tail =>
      refine text?_length ?_ h
      rintro rfl
      simp_all

/-- The tokens of a text. -/
def tokens? (cs : List Char) : Option (List Token) :=
  if hcs : cs = [] then some []
  else
    match h : Token.next? cs with
    | none => none
    | some (t, rest) =>
      have := Token.next?_length h hcs
      (tokens? rest).map (t :: ·)
termination_by cs.length

end ShadeTree.Xml
