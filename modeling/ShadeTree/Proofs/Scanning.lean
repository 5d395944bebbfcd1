import ShadeTree.Proofs.Numerals

/-!
# The reading of literals

A literal is text, and its text is bytes. A reader that goes through the bytes of a token keeps a
position and moves it past a sign, past digits, past a point and past an exponent (`numeralEnd?`);
what stands before the position is then cut out of the text and given to a parser of numbers
(`scan`). Two things could go wrong: a position within a character, and a text that the parser
refuses. Neither does, whatever characters the token has. A byte that the reader moves past is a
character by itself, so that its position is always one where a character begins (`Begins`); and
what it cuts out is a numeral.

`Tuple.ofText_reads` puts this together with what the tokens of a literal are (`Runs`) and what the
literal is read as.
-/

namespace ShadeTree

namespace Token

/-! ### Tokens -/

/-- The maximal runs of characters that are no blanks, in order. -/
inductive Runs : List Char → List (List Char) → Prop where
  | nil : Runs [] []
  | blank {c : Char} {text : List Char} {tokens : List (List Char)} : isBlank c = true →
      Runs text tokens → Runs (c :: text) tokens
  /-- A run ends with the text or before a blank. -/
  | token {token text : List Char} {tokens : List (List Char)} : token ≠ [] →
      (∀ c ∈ token, isBlank c = false) → (∀ c ∈ text.head?, isBlank c = true) →
        Runs text tokens → Runs (token ++ text) (token :: tokens)

theorem Runs.ne_nil {text : List Char} {tokens : List (List Char)} (h : Runs text tokens) :
    ∀ token ∈ tokens, token ≠ [] := by
  induction h with
  | nil => simp
  | blank _ _ ih => exact ih
  | token hne _ _ _ ih => exact List.forall_mem_cons.mpr ⟨hne, ih⟩

/-- The run that is being taken counts with the text that is left. -/
theorem runs_splitFrom (text : List Char) :
    ∀ word : List Char, (∀ c ∈ word, isBlank c = false) →
      Runs (word.reverse ++ text) (splitFrom word text) := by
  induction text with
  | nil =>
    intro word hword
    cases word with
    | nil => exact .nil
    | cons c word =>
      exact .token (by simp) (fun d hd => hword d (List.mem_reverse.mp hd)) (by simp) .nil
  | cons c text ih =>
    intro word hword
    by_cases hc : isBlank c = true
    · have hrest : Runs (c :: text) (splitFrom [] text) := .blank hc (ih [] (by simp))
      cases word with
      | nil => simpa [splitFrom, hc] using hrest
      | cons d word =>
        have hsplit : splitFrom (d :: word) (c :: text)
            = (d :: word).reverse :: splitFrom [] text := by
          simp [splitFrom, hc]
        rw [hsplit]
        refine .token (by simp) (fun e he => hword e (List.mem_reverse.mp he)) ?_ hrest
        rintro _ ⟨⟩
        exact hc
    · have hword' : ∀ d ∈ c :: word, isBlank d = false :=
        List.forall_mem_cons.mpr ⟨Bool.eq_false_iff.mpr hc, hword⟩
      have hruns := ih (c :: word) hword'
      rw [List.reverse_cons, List.append_assoc, List.singleton_append] at hruns
      rwa [splitFrom, if_neg hc]

/-- A run is taken as far as the text goes on without a blank. -/
theorem splitFrom_append {token text : List Char} (htoken : ∀ c ∈ token, isBlank c = false)
    (htext : ∀ c ∈ text.head?, isBlank c = true) (word : List Char)
    (hne : word.reverse ++ token ≠ []) :
    splitFrom word (token ++ text) = (word.reverse ++ token) :: split text := by
  induction token generalizing word with
  | nil =>
    have hword : word.isEmpty = false := by simpa using hne
    cases text with
    | nil => simp [splitFrom, split, hword]
    | cons c text => simp [splitFrom, split, hword, htext c rfl]
  | cons c token ih =>
    rw [List.forall_mem_cons] at htoken
    have hrest := ih htoken.2 (c :: word) (by simp)
    rw [List.cons_append, splitFrom, htoken.1, if_neg Bool.false_ne_true, hrest]
    simp

/-- A text is split into its runs, and these are determined. -/
theorem runs_iff {text : List Char} {tokens : List (List Char)} :
    Runs text tokens ↔ tokens = split text := by
  constructor
  · intro h
    induction h with
    | nil => rfl
    | blank hc _ ih => simpa [split, splitFrom, hc] using ih
    | token hne htoken htext _ ih =>
      rw [split, splitFrom_append htoken htext [] hne, ← ih]
      rfl
  · rintro rfl
    exact runs_splitFrom text [] (by simp)

/-! ### Bytes -/

/-- The bytes of a text. -/
def bytes (text : List Char) : List UInt8 := text.flatMap String.utf8EncodeChar

@[simp] theorem bytes_nil : bytes [] = [] := rfl

@[simp] theorem bytes_cons (c : Char) (text : List Char) :
    bytes (c :: text) = String.utf8EncodeChar c ++ bytes text := rfl

@[simp] theorem bytes_append (text rest : List Char) :
    bytes (text ++ rest) = bytes text ++ bytes rest := List.flatMap_append

theorem toNat_toUInt8 {c : Char} (h : c.toNat < 128) : c.toUInt8.toNat = c.toNat := by
  have hmod : c.toUInt8.toNat = c.toNat % 256 := rfl
  omega

theorem bytes_eq_nil_iff {text : List Char} : bytes text = [] ↔ text = [] := by
  cases text with
  | nil => simp
  | cons c text =>
    have hpos := c.utf8Size_pos
    have hlength := String.length_utf8EncodeChar c
    rw [bytes_cons, List.append_eq_nil_iff, ← List.length_eq_zero_iff, hlength]
    exact iff_of_false (fun h => by omega) (List.cons_ne_nil _ _)

/-- A character is a byte by itself, or its first byte is none that a character is by itself. -/
theorem encode_cases (c : Char) :
    (c.toNat < 128 ∧ String.utf8EncodeChar c = [c.toUInt8]) ∨
      (128 ≤ c.toNat ∧ ∃ b bs, String.utf8EncodeChar c = b :: bs ∧ 128 ≤ b.toNat) := by
  by_cases hc : c.toNat < 128
  · refine .inl ⟨hc, String.utf8EncodeChar_eq_singleton (Char.utf8Size_eq_one_iff.mpr ?_)⟩
    exact UInt32.le_iff_toNat_le.mpr (Nat.le_of_lt_succ hc)
  · refine .inr ⟨by omega, ?_⟩
    rw [String.utf8EncodeChar.eq_def]
    have hv : ¬ c.val.toNat ≤ 127 := by
      have : c.toNat = c.val.toNat := rfl
      omega
    simp only [hv, if_false]
    split
    · exact ⟨_, _, rfl, by rw [UInt8.toNat_ofNat']; omega⟩
    · split
      · exact ⟨_, _, rfl, by rw [UInt8.toNat_ofNat']; omega⟩
      · exact ⟨_, _, rfl, by rw [UInt8.toNat_ofNat']; omega⟩

/-- A test of bytes finds the characters with a property, all of them ASCII. -/
structure Finds (q : UInt8 → Bool) (p : Char → Bool) : Prop where
  char : ∀ c, p c = true → c.toNat < 128
  byte : ∀ b, q b = true → b.toNat < 128
  agree : ∀ c : Char, c.toNat < 128 → q c.toUInt8 = p c

theorem finds_char {d : Char} (hd : d.toNat < 128) : Finds (· == d.toUInt8) (· == d) := by
  refine ⟨fun c hc => beq_iff_eq.mp hc ▸ hd, fun b hb => ?_, fun c hc => ?_⟩
  · rw [beq_iff_eq.mp hb, toNat_toUInt8 hd]
    exact hd
  · rw [Bool.eq_iff_iff, beq_iff_eq, beq_iff_eq]
    refine ⟨fun h => ?_, fun h => h ▸ rfl⟩
    have hnat := congrArg UInt8.toNat h
    rw [toNat_toUInt8 hc, toNat_toUInt8 hd] at hnat
    exact Char.toNat_inj.mp hnat

theorem Finds.or {q q' : UInt8 → Bool} {p p' : Char → Bool} (h : Finds q p) (h' : Finds q' p') :
    Finds (fun b => q b || q' b) (fun c => p c || p' c) := by
  refine ⟨fun c hc => ?_, fun b hb => ?_, fun c hc => ?_⟩
  · exact (Bool.or_eq_true_iff.mp hc).elim (h.char c) (h'.char c)
  · exact (Bool.or_eq_true_iff.mp hb).elim (h.byte b) (h'.byte b)
  · exact congrArg₂ (· || ·) (h.agree c hc) (h'.agree c hc)

def isDigitByte (b : UInt8) : Bool := '0'.toUInt8 ≤ b && b ≤ '9'.toUInt8

def isSignByte (b : UInt8) : Bool := b == '+'.toUInt8 || b == '-'.toUInt8

def isPointByte (b : UInt8) : Bool := b == '.'.toUInt8

def isExponentByte (b : UInt8) : Bool := b == 'e'.toUInt8 || b == 'E'.toUInt8

theorem isDigit_iff (c : Char) : c.isDigit = true ↔ 48 ≤ c.toNat ∧ c.toNat ≤ 57 := by
  rw [Char.isDigit, Bool.and_eq_true, decide_eq_true_iff, decide_eq_true_iff, ge_iff_le,
    UInt32.le_iff_toNat_le, UInt32.le_iff_toNat_le]
  exact Iff.rfl

theorem isDigitByte_iff (b : UInt8) : isDigitByte b = true ↔ 48 ≤ b.toNat ∧ b.toNat ≤ 57 := by
  rw [isDigitByte, Bool.and_eq_true, decide_eq_true_iff, decide_eq_true_iff,
    UInt8.le_iff_toNat_le, UInt8.le_iff_toNat_le]
  exact Iff.rfl

theorem finds_digit : Finds isDigitByte Char.isDigit where
  char c hc := by
    have hrange := (isDigit_iff c).mp hc
    omega
  byte b hb := by
    have hrange := (isDigitByte_iff b).mp hb
    omega
  agree c hc := by
    rw [Bool.eq_iff_iff, isDigitByte_iff, isDigit_iff, toNat_toUInt8 hc]

theorem finds_sign : Finds isSignByte (fun c => c == '+' || c == '-') :=
  (finds_char (by decide)).or (finds_char (by decide))

theorem finds_point : Finds isPointByte (· == '.') := finds_char (by decide)

theorem finds_exponent : Finds isExponentByte (fun c => c == 'e' || c == 'E') :=
  (finds_char (by decide)).or (finds_char (by decide))

section Finds

variable {q : UInt8 → Bool} {p : Char → Bool} (h : Finds q p)
include h

/-- What is found first among the bytes of a text is its first character. -/
theorem Finds.head (text : List Char) : (bytes text).head?.any q = text.head?.any p := by
  cases text with
  | nil => rfl
  | cons c text =>
    rw [bytes_cons]
    rcases encode_cases c with ⟨hc, hencode⟩ | ⟨hc, b, bs, hencode, hb⟩
    · simp [hencode, h.agree c hc]
    · have hq : q b = false := Bool.eq_false_iff.mpr fun hq => by have := h.byte b hq; omega
      have hp : p c = false := Bool.eq_false_iff.mpr fun hp => by have := h.char c hp; omega
      simp [hencode, hq, hp]

theorem Finds.bytes_cons_of_pos {c : Char} (hc : p c = true) (text : List Char) :
    bytes (c :: text) = c.toUInt8 :: bytes text := by
  have hascii := h.char c hc
  rw [bytes_cons]
  rcases encode_cases c with ⟨-, hencode⟩ | ⟨hge, -⟩
  · rw [hencode]
    rfl
  · omega

/-- Among the bytes of a text as many are found in a row as characters at its head. -/
theorem Finds.length_takeWhile (text : List Char) :
    ((bytes text).takeWhile q).length = (text.takeWhile p).length := by
  induction text with
  | nil => rfl
  | cons c text ih =>
    have hhead := h.head (c :: text)
    cases hc : p c with
    | true =>
      have hq : q c.toUInt8 = true := (h.agree c (h.char c hc)).trans hc
      rw [h.bytes_cons_of_pos hc, List.takeWhile_cons_of_pos hq, List.takeWhile_cons_of_pos hc,
        List.length_cons, List.length_cons, ih]
    | false =>
      have hnone : (bytes (c :: text)).takeWhile q = [] := by
        cases hbytes : bytes (c :: text) with
        | nil => rfl
        | cons b bs =>
          rw [hbytes] at hhead
          exact List.takeWhile_cons_of_neg (by simpa [hc] using hhead)
      rw [hnone, List.takeWhile_cons_of_neg (by simp [hc])]
      rfl

theorem Finds.length_bytes (text : List Char) (hall : ∀ c ∈ text, p c = true) :
    (bytes text).length = text.length := by
  induction text with
  | nil => rfl
  | cons c text ih =>
    rw [List.forall_mem_cons] at hall
    rw [h.bytes_cons_of_pos hall.1, List.length_cons, List.length_cons, ih hall.2]

end Finds

/-! ### The pass over the bytes -/

/-- Past a sign at a position, if there is one. -/
def pastSign (bs : List UInt8) (i : ℕ) : ℕ := if bs[i]?.any isSignByte then i + 1 else i

/-- Past the digits from a position on. -/
def pastDigits (bs : List UInt8) (i : ℕ) : ℕ := i + ((bs.drop i).takeWhile isDigitByte).length

/-- Past a mantissa from a position on; none if it has no digit. Where a point follows the digits,
those on both sides of it count. -/
def pastMantissa? (bs : List UInt8) (i : ℕ) : Option ℕ :=
  let afterWhole := pastDigits bs i
  if bs[afterWhole]?.any isPointByte then
    let afterFraction := pastDigits bs (afterWhole + 1)
    if (afterWhole - i) + (afterFraction - (afterWhole + 1)) = 0 then none else some afterFraction
  else
    if afterWhole - i = 0 then none else some afterWhole

/-- Past an exponent at a position, if there is one with a digit. -/
def pastExponent (bs : List UInt8) (i : ℕ) : ℕ :=
  if bs[i]?.any isExponentByte then
    let start := pastSign bs (i + 1)
    let stop := pastDigits bs start
    if start < stop then stop else i
  else i

/-- The position where the numeral ends that the bytes begin with, if they begin with one. -/
def numeralEnd? (bs : List UInt8) : Option ℕ :=
  (pastMantissa? bs (pastSign bs 0)).map (pastExponent bs)

/-- The rest of a text begins at a position among its bytes. -/
def Begins (text : List Char) (i : ℕ) (rest : List Char) : Prop :=
  ∃ before, text = before ++ rest ∧ (bytes before).length = i

section Begins

variable {text rest : List Char} {i : ℕ}

theorem begins_zero (text : List Char) : Begins text 0 text := ⟨[], rfl, rfl⟩

theorem Begins.drop (h : Begins text i rest) : (bytes text).drop i = bytes rest := by
  obtain ⟨before, rfl, rfl⟩ := h
  rw [bytes_append, List.drop_left]

theorem Begins.append {taken : List Char} (h : Begins text i (taken ++ rest)) :
    Begins text (i + (bytes taken).length) rest := by
  obtain ⟨before, rfl, rfl⟩ := h
  exact ⟨before ++ taken, by simp, by simp⟩

/-- What is found at a position is the character that begins there. -/
theorem Begins.found {q : UInt8 → Bool} {p : Char → Bool} (h : Begins text i rest)
    (hfinds : Finds q p) : (bytes text)[i]?.any q = rest.head?.any p := by
  rw [← hfinds.head, ← h.drop, List.head?_drop]

theorem Begins.succ {q : UInt8 → Bool} {p : Char → Bool} {c : Char}
    (h : Begins text i (c :: rest)) (hfinds : Finds q p) (hc : p c = true) :
    Begins text (i + 1) rest := by
  have hone : (bytes [c]).length = 1 := by rw [hfinds.bytes_cons_of_pos hc]; rfl
  rw [← hone]
  exact h.append

theorem Begins.pastDigits_eq (h : Begins text i rest) :
    pastDigits (bytes text) i = i + (digits rest).1.length := by
  rw [pastDigits, h.drop, finds_digit.length_takeWhile]
  rfl

theorem begins_pastDigits (h : Begins text i rest) :
    Begins text (pastDigits (bytes text) i) (digits rest).2 := by
  rw [h.pastDigits_eq, ← finds_digit.length_bytes _ (isDigit_digits rest)]
  rw [← digits_append rest] at h
  exact h.append

theorem begins_pastSign (h : Begins text i rest) :
    Begins text (pastSign (bytes text) i) (sign rest).2 := by
  have hfound := h.found finds_sign
  rw [pastSign, hfound]
  cases rest with
  | nil => exact h
  | cons c rest =>
    by_cases hc : (c == '+' || c == '-') = true
    · rw [if_pos (by simpa using hc)]
      have hnext := h.succ finds_sign hc
      rcases (by simpa using hc : c = '+' ∨ c = '-') with rfl | rfl <;> exact hnext
    · rw [if_neg (by simpa using hc)]
      simp only [Bool.or_eq_true, beq_iff_eq, not_or] at hc
      have hsign : sign (c :: rest) = (false, c :: rest) := Signed.none.sign_append hc.1 hc.2
      rwa [hsign]

/-- The pass over the bytes takes the mantissa that is read. -/
theorem begins_pastMantissa (h : Begins text i rest) :
    ((mantissa rest).1 ++ (mantissa rest).2.1 = [] ∧ pastMantissa? (bytes text) i = none) ∨
      ((mantissa rest).1 ++ (mantissa rest).2.1 ≠ [] ∧
        ∃ j, pastMantissa? (bytes text) i = some j ∧ Begins text j (mantissa rest).2.2) := by
  have hwhole := begins_pastDigits h
  have hfound := hwhole.found finds_point
  have hcount := h.pastDigits_eq
  rw [pastMantissa?]
  dsimp only
  rw [hfound]
  by_cases hpoint : (digits rest).2.head? = some '.'
  · obtain ⟨afterPoint, hrest⟩ := List.head?_eq_some_iff.mp hpoint
    rw [hrest] at hwhole
    have hafter := hwhole.succ finds_point rfl
    have hfraction := begins_pastDigits hafter
    have hcount' := hafter.pastDigits_eq
    have hthere : (digits rest).2.head?.any (· == '.') = true := by rw [hpoint]; rfl
    rw [mantissa_of_point hrest, hthere, if_pos rfl]
    by_cases hnone : (digits rest).1 = [] ∧ (digits afterPoint).1 = []
    · rw [if_pos hnone]
      rw [hnone.1, List.length_nil] at hcount
      rw [hnone.2, List.length_nil] at hcount'
      exact .inl ⟨rfl, if_pos (by omega)⟩
    · have hsome : (digits rest).1 ++ (digits afterPoint).1 ≠ [] :=
        fun h => hnone (List.append_eq_nil_iff.mp h)
      have hpos := List.length_pos_iff.mpr hsome
      rw [List.length_append] at hpos
      rw [if_neg hnone]
      exact .inr ⟨hsome, _, if_neg (by omega), hfraction⟩
  · have hother : (digits rest).2.head?.any (· == '.') = false := by
      cases hhead : (digits rest).2.head? <;> simp_all
    rw [mantissa_of_not_point hpoint, hother, if_neg Bool.false_ne_true, List.append_nil]
    by_cases hnone : (digits rest).1 = []
    · rw [hnone, List.length_nil] at hcount
      exact .inl ⟨hnone, if_pos (by omega)⟩
    · have hpos := List.length_pos_iff.mpr hnone
      exact .inr ⟨hnone, _, if_neg (by omega), hwhole⟩

/-- The pass over the bytes takes the exponent that is read. -/
theorem begins_pastExponent (h : Begins text i rest) :
    Begins text (pastExponent (bytes text) i) (exponent rest).2 := by
  have hfound := h.found finds_exponent
  rw [pastExponent, hfound]
  cases rest with
  | nil => exact h
  | cons c rest =>
    by_cases hc : (c == 'e' || c == 'E') = true
    · have hsign := begins_pastSign (h.succ finds_exponent hc)
      have hdigits := begins_pastDigits hsign
      have hlength := hsign.pastDigits_eq
      rw [if_pos (by simpa using hc), exponent_cons (by simpa using hc)]
      dsimp only
      by_cases hnone : (digits (sign rest).2).1 = []
      · rw [if_pos hnone, if_neg (by rw [hlength, hnone]; simp)]
        exact h
      · have hpos := List.length_pos_iff.mpr hnone
        rw [if_neg hnone, if_pos (by omega)]
        exact hdigits
    · rw [if_neg (by simpa using hc), exponent_of_head (by simpa using hc)]
      exact h

/-- The pass over the bytes ends where the reading of the token does. -/
theorem numeralEnd?_cases (token : List Char) :
    ((∀ p v, p <+: token → ¬ Numeral p v) ∧ value token = 0 ∧ numeralEnd? (bytes token) = none) ∨
      ∃ p, Longest token p (value token) ∧ numeralEnd? (bytes token) = some (bytes p).length := by
  rcases begins_pastMantissa (begins_pastSign (begins_zero token)) with
    ⟨hnone, hend⟩ | ⟨hsome, i, hend, hbegins⟩
  · refine .inl ⟨not_numeral_of_nil hnone, ?_, ?_⟩
    · rw [value, read_of_nil hnone]
    · rw [numeralEnd?, hend]
      rfl
  · obtain ⟨p, hp, hlongest⟩ := exists_longest hsome
    have hrest : (read token).2 = (exponent (mantissa (sign token).2).2.2).2 := by
      rw [read_of_ne_nil hsome]
    obtain ⟨before, hbefore, hlength⟩ := begins_pastExponent hbegins
    have heq : before = p := List.append_cancel_right (hbefore.symm.trans (hrest ▸ hp))
    refine .inr ⟨p, hlongest, ?_⟩
    rw [numeralEnd?, hend, ← heq, hlength]
    rfl

end Begins

/-! ### The number cut out of a token -/

/-- The characters that the first bytes of a text make up; none if they end within a character or
there are not so many. -/
def upTo? : List Char → ℕ → Option (List Char)
  | [], n => if n = 0 then some [] else none
  | c :: text, n =>
    if n = 0 then some []
    else if n < (String.utf8EncodeChar c).length then none
    else (upTo? text (n - (String.utf8EncodeChar c).length)).map (c :: ·)

theorem upTo?_append (text rest : List Char) :
    upTo? (text ++ rest) (bytes text).length = some text := by
  induction text with
  | nil => cases rest <;> rfl
  | cons c text ih =>
    have hpos : 0 < (String.utf8EncodeChar c).length := by
      rw [String.length_utf8EncodeChar]
      exact c.utf8Size_pos
    rw [List.cons_append, bytes_cons, List.length_append, upTo?, if_neg (by omega),
      if_neg (by omega), Nat.add_sub_cancel_left, ih]
    rfl

/-- How the reading of a token ends. -/
inductive Ending where
  /-- The token begins with no numeral. -/
  | nothing
  /-- A number, and how many bytes were taken for it. -/
  | number (value : Float32) (stop : ℕ)
  /-- The parser refused what was cut out. -/
  | refused
  /-- The numeral ended within a character. -/
  | severed
  deriving DecidableEq

/-- What the token counts as. -/
def Ending.value : Ending → Float32
  | .number value _ => value
  | _ => 0

/-- How many bytes of the token are used. -/
def Ending.consumed : Ending → ℕ
  | .number _ stop => stop
  | _ => 0

/-- Read a token byte by byte, with a parser for what is cut out of it. -/
def scan (parse : List Char → Option Float32) (token : List Char) : Ending :=
  match numeralEnd? (bytes token) with
  | none => .nothing
  | some stop =>
    match upTo? token stop with
    | none => .severed
    | some p =>
      match parse p with
      | none => .refused
      | some v => .number v stop

section Parser

variable {parse : List Char → Option Float32}
  (hparse : ∀ text v, Numeral text v → parse text = some v)
include hparse

/-- With a parser that accepts every numeral and gives its value, the reading of a token ends in the
number that its longest numeral is, or in none. -/
theorem scan_cases (token : List Char) :
    ((∀ p v, p <+: token → ¬ Numeral p v) ∧ value token = 0 ∧ scan parse token = .nothing) ∨
      ∃ p, Longest token p (value token) ∧
        scan parse token = .number (value token) (bytes p).length := by
  rcases numeralEnd?_cases token with ⟨hnone, hzero, hend⟩ | ⟨p, hlongest, hend⟩
  · exact .inl ⟨hnone, hzero, by rw [scan, hend]⟩
  · obtain ⟨rest, hrest⟩ := hlongest.heads
    have hcut : upTo? token (bytes p).length = some p := by rw [← hrest, upTo?_append]
    refine .inr ⟨p, hlongest, ?_⟩
    simp only [scan, hend, hcut, hparse p _ hlongest.numeral]

theorem value_scan (token : List Char) : (scan parse token).value = value token := by
  rcases scan_cases hparse token with ⟨-, hzero, hscan⟩ | ⟨p, -, hscan⟩
  · rw [hscan, hzero]
    rfl
  · rw [hscan]
    rfl

/-- The bytes of a token are all used when it is a numeral, and only then. -/
theorem consumed_scan_iff {token : List Char} (hne : token ≠ []) :
    (scan parse token).consumed = (bytes token).length ↔ IsNumeral token := by
  rcases scan_cases hparse token with ⟨hnone, -, hscan⟩ | ⟨p, hlongest, hscan⟩
  · have hpos : (bytes token).length ≠ 0 := by
      rw [Ne, List.length_eq_zero_iff, bytes_eq_nil_iff]
      exact hne
    rw [hscan]
    refine ⟨fun h => absurd h.symm hpos, ?_⟩
    rintro ⟨v, hnumeral⟩
    exact absurd hnumeral (hnone token v (List.prefix_refl token))
  · obtain ⟨rest, rfl⟩ := hlongest.heads
    rw [hscan]
    change (bytes p).length = _ ↔ _
    have hrest : (bytes p).length = (bytes (p ++ rest)).length ↔ rest = [] := by
      rw [bytes_append, List.length_append, ← bytes_eq_nil_iff, ← List.length_eq_zero_iff]
      omega
    rw [hrest]
    constructor
    · rintro rfl
      rw [List.append_nil]
      exact ⟨_, hlongest.numeral⟩
    · rintro ⟨v, hnumeral⟩
      have hlength := hlongest.longest _ v (List.prefix_refl _) hnumeral
      rw [List.length_append] at hlength
      exact List.length_eq_zero_iff.mp (by omega)

end Parser

end Token

namespace Tuple

/-- A token counts as a number: the longest of its prefixes that is a numeral, or zero if there is
none. -/
inductive Counts (token : List Char) : Float32 → Prop where
  | number {p : List Char} {v : Float32} : Token.Longest token p v → Counts token v
  | nothing : (∀ p v, p <+: token → ¬ Token.Numeral p v) → Counts token 0

/-- What the tokens of a literal are read as. -/
structure Reads (t : Tuple) (tokens : List (List Char)) : Prop where
  component : ∀ i < 4, ∀ token, tokens[i]? = some token →
    ∃ v, t.value.components[i]? = some v ∧ Counts token v
  remaining : ∀ i < 4, tokens[i]? = none → t.value.components[i]? = some 0
  malformed : t.malformed =
    ((tokens.take 4).filter fun token => ¬ Token.IsNumeral token).map String.ofList
  extra : t.extra = tokens.length - 4
  isClean : t.isClean = true ↔ tokens.length ≤ 4 ∧ ∀ token ∈ tokens, Token.IsNumeral token

theorem counts_value (token : List Char) : Counts token (Token.value token) := by
  rcases Token.read_cases token with ⟨hread, hnone⟩ | ⟨p, -, hlongest⟩
  · rw [Token.value, hread]
    exact .nothing hnone
  · exact .number hlongest

theorem components_ofText (text : String) {i : ℕ} (hi : i < 4) :
    (ofText text).value.components[i]? =
      some (((Token.split text.toList)[i]?.map Token.value).getD 0) := by
  have hgetD : (ofText text).value.components[i]? =
      some ((((Token.split text.toList).take 4).map Token.value).getD i 0) := by
    match i, hi with
    | 0, _ => rfl
    | 1, _ => rfl
    | 2, _ => rfl
    | 3, _ => rfl
  rw [hgetD, List.getD_eq_getElem?_getD, List.getElem?_map, List.getElem?_take_of_lt hi]

theorem reads_ofText (text : String) : (ofText text).Reads (Token.split text.toList) := by
  have hne : ∀ token ∈ Token.split text.toList, token ≠ [] := (Token.runs_iff.mpr rfl).ne_nil
  have hfilter : ((Token.split text.toList).take 4).filter (fun token => !Token.isNumber token) =
      ((Token.split text.toList).take 4).filter fun token => ¬ Token.IsNumeral token := by
    refine List.filter_congr fun token htoken => ?_
    have hiff := Token.isNumber_iff (hne token (List.mem_of_mem_take htoken))
    rw [Bool.eq_iff_iff, Bool.not_eq_true', decide_eq_true_iff, ← hiff, Bool.not_eq_true]
  have hmalformed : (ofText text).malformed = _ := congrArg (List.map String.ofList) hfilter
  refine ⟨?_, ?_, hmalformed, rfl, ?_⟩
  · intro i hi token htoken
    refine ⟨Token.value token, ?_, counts_value token⟩
    rw [components_ofText text hi, htoken]
    rfl
  · intro i hi hnone
    rw [components_ofText text hi, hnone]
    rfl
  · rw [isClean, Bool.and_eq_true, List.isEmpty_iff, hmalformed, List.map_eq_nil_iff,
      List.filter_eq_nil_iff, beq_iff_eq, and_comm]
    have hextra : (ofText text).extra = 0 ↔ (Token.split text.toList).length ≤ 4 :=
      Nat.sub_eq_zero_iff_le
    rw [hextra]
    refine and_congr_right fun hfour => ?_
    rw [List.take_of_length_le hfour]
    simp

/-- **The reading of literals**, with any parser that accepts every numeral and gives its value. The
tokens of a literal are its runs; each of the first four counts as the longest numeral that it
begins with, or as zero; those that are no numerals are told, in order, and how many come after the
fourth. The pass over the bytes of a token, whatever its characters are, takes this numeral and ends
with it or with none: it neither severs a character nor does the parser refuse. -/
theorem ofText_reads {parse : List Char → Option Float32}
    (hparse : ∀ text v, Token.Numeral text v → parse text = some v) :
    (∀ token : List Char,
      ((∀ p v, p <+: token → ¬ Token.Numeral p v) ∧ Token.scan parse token = .nothing) ∨
        ∃ p v, Token.Longest token p v ∧
          Token.scan parse token = .number v (Token.bytes p).length) ∧
    ∀ text : String, ∃ tokens, Token.Runs text.toList tokens ∧
      (ofText text).Reads tokens ∧
      (∀ i < 4, ∀ token, tokens[i]? = some token →
        (ofText text).value.components[i]? = some (Token.scan parse token).value) ∧
      ∀ token ∈ tokens, (Token.scan parse token).consumed = (Token.bytes token).length ↔
        Token.IsNumeral token := by
  refine ⟨fun token => ?_, fun text => ?_⟩
  · rcases Token.scan_cases hparse token with ⟨hnone, -, hscan⟩ | ⟨p, hlongest, hscan⟩
    · exact .inl ⟨hnone, hscan⟩
    · exact .inr ⟨p, _, hlongest, hscan⟩
  · have hruns : Token.Runs text.toList (Token.split text.toList) := Token.runs_iff.mpr rfl
    refine ⟨_, hruns, reads_ofText text, fun i hi token htoken => ?_, fun token htoken => ?_⟩
    · rw [components_ofText text hi, htoken, Token.value_scan hparse]
      rfl
    · exact Token.consumed_scan_iff hparse (hruns.ne_nil token htoken)

/-- A literal of five tokens, three of which are no numerals; one has a character of two bytes. -/
theorem ofText_reads_mixed :
    (∀ text v, Token.Numeral text v → Token.numeral? text = some v) ∧
    (∃ tokens, Token.Runs "1.5é 3e+ . -2E1 7".toList tokens ∧
      (ofText "1.5é 3e+ . -2E1 7").Reads tokens ∧
      (∀ i < 4, ∀ token, tokens[i]? = some token →
        (ofText "1.5é 3e+ . -2E1 7").value.components[i]? =
          some (Token.scan Token.numeral? token).value) ∧
      ∀ token ∈ tokens, (Token.scan Token.numeral? token).consumed = (Token.bytes token).length ↔
        Token.IsNumeral token) ∧
      (ofText "1.5é 3e+ . -2E1 7").value.components = [1.5, 3, 0, -20] ∧
      (ofText "1.5é 3e+ . -2E1 7").malformed = ["1.5é", "3e+", "."] ∧
      (ofText "1.5é 3e+ . -2E1 7").extra = 1 ∧
      Token.scan Token.numeral? "1.5é".toList = .number 1.5 3 := by
  have hparse : ∀ text v, Token.Numeral text v → Token.numeral? text = some v :=
    fun _ _ => Token.Numeral.numeral?_eq
  refine ⟨hparse, (ofText_reads hparse).2 _, ?_, ?_, ?_, ?_⟩ <;> decide +kernel

end Tuple

end ShadeTree
