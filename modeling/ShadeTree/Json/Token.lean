import ShadeTree.Json.Number

/-!
# Tokens of JSON documents

The lexical side of a document: marks, words, numerals and strings, with blanks between them. A string
is lexically right whatever its escapes name; when they name no text, as a lone surrogate does, the
token holds none.
-/

namespace ShadeTree.Json

/-- A lexical unit. -/
inductive Token where
  | openObject
  | closeObject
  | openArray
  | closeArray
  | colon
  | comma
  | null
  | boolean (b : Bool)
  | number (n : Numeral)
  /-- A string, and the text it names if it names one. -/
  | string (s : Option String)
  deriving DecidableEq, Repr

/-- A blank between tokens. -/
def isBlank (c : Char) : Bool := c = ' ' || c = '\t' || c = '\n' || c = '\x0d'

/-! ### Strings -/

/-- A piece of a string: a character, or a UTF-16 unit written by its number. -/
inductive Piece where
  | char (c : Char)
  | unit (u : Nat)

/-- The number a hexadecimal digit writes. -/
def hexDigit? (c : Char) : Option Nat :=
  if c.isDigit then some (c.toNat - '0'.toNat)
  else if 'a' ≤ c && c ≤ 'f' then some (c.toNat - 'a'.toNat + 10)
  else if 'A' ≤ c && c ≤ 'F' then some (c.toNat - 'A'.toNat + 10)
  else none

/-- The UTF-16 unit that four hexadecimal digits write. -/
def hexUnit? (a b c d : Char) : Option Nat := do
  let a ← hexDigit? a
  let b ← hexDigit? b
  let c ← hexDigit? c
  let d ← hexDigit? d
  some (((a * 16 + b) * 16 + c) * 16 + d)

/-- The character that a letter after a backslash names. -/
def escaped? (c : Char) : Option Char :=
  if c = '"' || c = '\\' || c = '/' then some c
  else if c = 'b' then some '\x08'
  else if c = 'f' then some '\x0c'
  else if c = 'n' then some '\n'
  else if c = 'r' then some '\x0d'
  else if c = 't' then some '\t'
  else none

/-- The pieces of a string from after its opening quote, and what follows its closing one. -/
def pieces? : List Char → Option (List Piece × List Char)
  | [] => none
  | '"' :: rest => some ([], rest)
  | '\\' :: 'u' :: a :: b :: c :: d :: rest => do
    let u ← hexUnit? a b c d
    let (ps, rest) ← pieces? rest
    some (.unit u :: ps, rest)
  | '\\' :: e :: rest => do
    let c ← escaped? e
    let (ps, rest) ← pieces? rest
    some (.char c :: ps, rest)
  | c :: rest =>
    if c.toNat < 0x20 then none
    else do
      let (ps, rest) ← pieces? rest
      some (.char c :: ps, rest)

theorem pieces?_length {cs : List Char} {ps : List Piece} {rest : List Char}
    (h : pieces? cs = some (ps, rest)) : rest.length < cs.length := by
  fun_induction pieces? cs generalizing ps rest with
  | case1 => cases h
  | case2 tail =>
    obtain ⟨-, rfl⟩ := Prod.mk.inj (Option.some.inj h)
    simp only [List.length_cons]
    omega
  | case3 a b c d tail ih =>
    simp only [Option.bind_eq_bind, Option.bind_eq_some_iff, Prod.exists, Option.some.injEq,
      Prod.mk.injEq] at h
    obtain ⟨_, _, _, _, htail, _, rfl⟩ := h
    have := ih htail
    simp only [List.length_cons]
    omega
  | case4 e tail _ ih =>
    simp only [Option.bind_eq_bind, Option.bind_eq_some_iff, Prod.exists, Option.some.injEq,
      Prod.mk.injEq] at h
    obtain ⟨_, _, _, _, htail, _, rfl⟩ := h
    have := ih htail
    simp only [List.length_cons]
    omega
  | case5 => cases h
  | case6 c tail _ _ _ _ ih =>
    simp only [Option.bind_eq_bind, Option.bind_eq_some_iff, Prod.exists, Option.some.injEq,
      Prod.mk.injEq] at h
    obtain ⟨_, _, htail, _, rfl⟩ := h
    have := ih htail
    simp only [List.length_cons]
    omega

/-- A unit that opens a surrogate pair. -/
def isHighSurrogate (u : Nat) : Bool := 0xD800 ≤ u && u < 0xDC00

/-- A unit that closes a surrogate pair. -/
def isLowSurrogate (u : Nat) : Bool := 0xDC00 ≤ u && u < 0xE000

/-- The characters of the pieces. A surrogate counts only in a pair. -/
def decode? : List Piece → Option (List Char)
  | [] => some []
  | .char c :: rest => (decode? rest).map (c :: ·)
  | .unit u :: .unit v :: rest =>
    if isHighSurrogate u then
      if isLowSurrogate v then
        (decode? rest).map (Char.ofNat (0x10000 + (u - 0xD800) * 0x400 + (v - 0xDC00)) :: ·)
      else none
    else if isLowSurrogate u then none
    else (decode? (.unit v :: rest)).map (Char.ofNat u :: ·)
  | .unit u :: rest =>
    if isHighSurrogate u || isLowSurrogate u then none
    else (decode? rest).map (Char.ofNat u :: ·)

/-! ### Numerals -/

/-- The digits before the point: a zero stands alone. -/
def whole? (cs : List Char) : Option (List Char × List Char) :=
  match Token.digits cs with
  | ([], _) => none
  | (['0'], rest) => some (['0'], rest)
  | ('0' :: _ :: _, _) => none
  | (ds, rest) => some (ds, rest)

/-- The digits after the point, if there is one. -/
def fraction? : List Char → Option (List Char × List Char)
  | '.' :: rest =>
    match Token.digits rest with
    | ([], _) => none
    | (ds, rest) => some (ds, rest)
  | cs => some ([], cs)

/-- The exponent, if there is one. -/
def exponent? : List Char → Option (Option (Bool × List Char) × List Char)
  | 'e' :: rest | 'E' :: rest =>
    let (negative, rest) := Token.sign rest
    match Token.digits rest with
    | ([], _) => none
    | (ds, rest) => some (some (negative, ds), rest)
  | cs => some (none, cs)

/-- Whether a text begins with a minus, and what follows it. -/
def minus : List Char → Bool × List Char
  | '-' :: rest => (true, rest)
  | cs => (false, cs)

/-- The numeral a text begins with, and the rest of it. -/
def numeral? (cs : List Char) : Option (Numeral × List Char) := do
  let (negative, cs) := minus cs
  let (whole, cs) ← whole? cs
  let (fraction, cs) ← fraction? cs
  let (exponent, cs) ← exponent? cs
  some (⟨negative, whole, fraction, exponent⟩, cs)

theorem whole?_length {cs ds rest : List Char} (h : whole? cs = some (ds, rest)) :
    rest.length < cs.length := by
  have hlen := Token.digits_length cs
  unfold whole? at h
  split at h
  · cases h
  · rename_i rest' heq
    obtain ⟨-, rfl⟩ := Prod.mk.inj (Option.some.inj h)
    simp only [heq, List.length_cons, List.length_nil] at hlen
    omega
  · cases h
  · rename_i ds' rest' hnil _ _ heq
    obtain ⟨-, rfl⟩ := Prod.mk.inj (Option.some.inj h)
    have : 0 < ds'.length := List.length_pos_iff.2 fun he => hnil he
    simp only [heq] at hlen
    omega

theorem fraction?_length {cs ds rest : List Char} (h : fraction? cs = some (ds, rest)) :
    rest.length ≤ cs.length := by
  unfold fraction? at h
  split at h
  · rename_i tail
    have hlen := Token.digits_length tail
    split at h
    · cases h
    · rename_i heq
      obtain ⟨-, rfl⟩ := Prod.mk.inj (Option.some.inj h)
      simp only [heq] at hlen
      simp only [List.length_cons]
      omega
  · obtain ⟨-, rfl⟩ := Prod.mk.inj (Option.some.inj h)
    exact Nat.le_refl _

theorem exponent?_length {cs rest : List Char} {e : Option (Bool × List Char)}
    (h : exponent? cs = some (e, rest)) : rest.length ≤ cs.length := by
  have sign_length (cs : List Char) : (Token.sign cs).2.length ≤ cs.length := by
    unfold Token.sign
    split <;> simp
  -- Both letters open an exponent, and what follows is read alike.
  have written (tail : List Char) (h : exponent? ('e' :: tail) = some (e, rest)) :
      rest.length ≤ tail.length := by
    have hsign := sign_length tail
    have hlen := Token.digits_length (Token.sign tail).2
    simp only [exponent?] at h
    split at h
    · cases h
    · rename_i heq
      obtain ⟨-, rfl⟩ := Prod.mk.inj (Option.some.inj h)
      simp only [heq] at hlen
      omega
  unfold exponent? at h
  split at h
  · exact Nat.le_succ_of_le (written _ h)
  · exact Nat.le_succ_of_le (written _ h)
  · obtain ⟨-, rfl⟩ := Prod.mk.inj (Option.some.inj h)
    exact Nat.le_refl _

theorem numeral?_length {cs rest : List Char} {n : Numeral} (h : numeral? cs = some (n, rest)) :
    rest.length < cs.length := by
  have minus_length : (minus cs).2.length ≤ cs.length := by
    unfold minus
    split <;> simp
  simp only [numeral?, Option.bind_eq_bind, Option.bind_eq_some_iff, Prod.exists,
    Option.some.injEq, Prod.mk.injEq] at h
  obtain ⟨_, _, hw, _, _, hf, _, _, he, _, rfl⟩ := h
  have := whole?_length hw
  have := fraction?_length hf
  have := exponent?_length he
  omega

/-! ### Documents -/

/-- The token a text begins with, and the rest of it. -/
def Token.next? : List Char → Option (Token × List Char)
  | '\x7b' :: rest => some (.openObject, rest)
  | '\x7d' :: rest => some (.closeObject, rest)
  | '[' :: rest => some (.openArray, rest)
  | ']' :: rest => some (.closeArray, rest)
  | ':' :: rest => some (.colon, rest)
  | ',' :: rest => some (.comma, rest)
  | 'n' :: 'u' :: 'l' :: 'l' :: rest => some (.null, rest)
  | 't' :: 'r' :: 'u' :: 'e' :: rest => some (.boolean true, rest)
  | 'f' :: 'a' :: 'l' :: 's' :: 'e' :: rest => some (.boolean false, rest)
  | '"' :: rest => (pieces? rest).map fun (ps, rest) =>
    (.string ((decode? ps).map String.ofList), rest)
  | cs => (numeral? cs).map fun (n, rest) => (.number n, rest)

theorem Token.next?_length {cs rest : List Char} {t : Token}
    (h : Token.next? cs = some (t, rest)) : rest.length < cs.length := by
  unfold Token.next? at h
  split at h <;> simp only [Option.map_eq_some_iff, Option.some.injEq, Prod.mk.injEq] at h
  case h_10 tail =>
    obtain ⟨_, hp, _, rfl⟩ := h
    have := pieces?_length hp
    simp only [List.length_cons]
    omega
  case h_11 =>
    obtain ⟨_, hn, _, rfl⟩ := h
    exact numeral?_length hn
  all_goals
    obtain ⟨_, rfl⟩ := h
    simp only [List.length_cons]
    omega

theorem length_dropWhile_le (p : Char → Bool) (cs : List Char) :
    (cs.dropWhile p).length ≤ cs.length :=
  (List.dropWhile_suffix p).length_le

/-- The tokens of a document. -/
def tokens? (cs : List Char) : Option (List Token) :=
  match h : cs.dropWhile isBlank with
  | [] => some []
  | c :: tail =>
    match ht : Token.next? (c :: tail) with
    | none => none
    | some (t, rest) =>
      have := Token.next?_length ht
      have := h ▸ length_dropWhile_le isBlank cs
      (tokens? rest).map (t :: ·)
termination_by cs.length

end ShadeTree.Json
