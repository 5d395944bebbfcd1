import ShadeTree.Tuple
import Mathlib.Data.Int.Notation
import Mathlib.Data.List.Basic

/-!
# Numerals

A token counts as far as it is a number. The reader finds out how far by going through it once: past
a sign, past digits, past a point if there is a digit on one of its sides, past an exponent if that
has a digit. Here numerals are given by a grammar (`Numeral`), and it is proved that going through
the token in this way finds the longest of its prefixes that the grammar allows (`read_cases`).

Two facts make up the proof. What the reader takes is a numeral, part by part (`exists_sign`,
`exists_mantissa`, `exists_exponent`). And the reader goes at least as far as any numeral that the
token begins with (`Numeral.read_append`): within a numeral it cannot stop, because each part is
told from the next by its first character, and past its end it only takes more.
-/

namespace ShadeTree.Token

/-! ### The grammar -/

/-- Decimal digits, one or more. -/
structure Digits (ds : List Char) : Prop where
  ne_nil : ds ≠ []
  isDigit : ∀ c ∈ ds, c.isDigit = true

/-- A sign or none, as whether it is a minus. -/
inductive Signed : List Char → Bool → Prop where
  | none : Signed [] false
  | plus : Signed ['+'] false
  | minus : Signed ['-'] true

/-- Digits with an optional point among or around them, as the digits before it and after it. -/
inductive Mantissa : List Char → List Char → List Char → Prop where
  | whole {ds : List Char} : Digits ds → Mantissa ds ds []
  | pointed {ds : List Char} : Digits ds → Mantissa (ds ++ ['.']) ds []
  | both {ds fs : List Char} : Digits ds → Digits fs → Mantissa (ds ++ '.' :: fs) ds fs
  | fraction {fs : List Char} : Digits fs → Mantissa ('.' :: fs) [] fs

/-- An exponent or none. -/
inductive Exponent : List Char → ℤ → Prop where
  | none : Exponent [] 0
  | some {e : Char} {s ds : List Char} {negative : Bool} : e = 'e' ∨ e = 'E' → Signed s negative →
      Digits ds →
        Exponent (e :: (s ++ ds)) (if negative then -(natural ds : ℤ) else (natural ds : ℤ))

/-- A numeral, with the single nearest to the number it writes. -/
inductive Numeral : List Char → Float32 → Prop where
  | mk {s m x whole fraction : List Char} {negative : Bool} {e : ℤ} : Signed s negative →
      Mantissa m whole fraction → Exponent x e →
        Numeral (s ++ (m ++ x))
          (nearest negative (natural (whole ++ fraction)) (e - fraction.length))

/-- The longest prefix of a token that is a numeral. -/
structure Longest (token p : List Char) (v : Float32) : Prop where
  heads : p <+: token
  numeral : Numeral p v
  longest : ∀ q w, q <+: token → Numeral q w → q.length ≤ p.length

/-! ### Digits and signs -/

variable {ds fs rest token : List Char}

theorem isDigit_digits (cs : List Char) : ∀ c ∈ (digits cs).1, c.isDigit = true :=
  List.all_eq_true.mp List.all_takeWhile

theorem Digits.of_digits {cs : List Char} (h : (digits cs).1 ≠ []) : Digits (digits cs).1 :=
  ⟨h, isDigit_digits cs⟩

theorem length_digits_le (cs : List Char) : (digits cs).2.length ≤ cs.length := by
  have hlength := digits_length cs
  omega

/-- Digits are taken, and those that follow with them. -/
theorem Digits.digits_append (h : Digits ds) (rest : List Char) :
    digits (ds ++ rest) = (ds ++ (digits rest).1, (digits rest).2) := by
  rw [digits, List.takeWhile_append_of_pos h.isDigit, List.dropWhile_append_of_pos h.isDigit]
  rfl

theorem digits_of_head (h : ∀ c ∈ rest.head?, c.isDigit = false) : digits rest = ([], rest) := by
  cases rest with
  | nil => rfl
  | cons c rest =>
    have hc : c.isDigit = false := h c rfl
    simp [digits, hc]

/-- Digits are taken up to what is no digit. -/
theorem Digits.digits_eq (h : Digits ds) (hrest : ∀ c ∈ rest.head?, c.isDigit = false) :
    digits (ds ++ rest) = (ds, rest) := by
  rw [h.digits_append, digits_of_head hrest, List.append_nil]

/-- Digits are taken up to a point. -/
theorem Digits.digits_point (h : Digits ds) (rest : List Char) :
    digits (ds ++ '.' :: rest) = (ds, '.' :: rest) :=
  h.digits_eq (by simp)

theorem digits_point (rest : List Char) : digits ('.' :: rest) = ([], '.' :: rest) :=
  digits_of_head (by simp)

theorem Digits.exists_cons (h : Digits ds) : ∃ d rest, ds = d :: rest ∧ d.isDigit = true := by
  obtain ⟨d, rest, rfl⟩ := List.exists_cons_of_ne_nil h.ne_nil
  exact ⟨d, rest, rfl, h.isDigit d List.mem_cons_self⟩

theorem exists_sign (cs : List Char) : ∃ s, cs = s ++ (sign cs).2 ∧ Signed s (sign cs).1 := by
  rw [sign.eq_def]
  split
  · exact ⟨['-'], rfl, .minus⟩
  · exact ⟨['+'], rfl, .plus⟩
  · exact ⟨[], rfl, .none⟩

/-- A sign is taken and no second one. -/
theorem Signed.sign_append {s : List Char} {negative : Bool} (hs : Signed s negative) {c : Char}
    (hplus : c ≠ '+') (hminus : c ≠ '-') :
    sign (s ++ c :: rest) = (negative, c :: rest) := by
  cases hs with
  | none =>
    rw [List.nil_append, sign.eq_def]
    split <;> simp_all
  | plus => rfl
  | minus => rfl

theorem not_sign_of_isDigit {c : Char} (h : c.isDigit = true) : c ≠ '+' ∧ c ≠ '-' := by
  constructor <;> rintro rfl <;> cases h

theorem Signed.sign_digits {s : List Char} {negative : Bool} (hs : Signed s negative)
    (hds : Digits ds) : sign (s ++ (ds ++ rest)) = (negative, ds ++ rest) := by
  obtain ⟨d, ds, rfl, hd⟩ := hds.exists_cons
  obtain ⟨hplus, hminus⟩ := not_sign_of_isDigit hd
  exact hs.sign_append hplus hminus

/-! ### Mantissas -/

/-- A mantissa begins with a digit or with the point. -/
theorem Mantissa.exists_cons {m whole fraction : List Char} (h : Mantissa m whole fraction) :
    ∃ c rest, m = c :: rest ∧ c ≠ '+' ∧ c ≠ '-' := by
  have hdigits : ∀ ds rest, Digits ds → ∃ c rest', ds ++ rest = c :: rest' ∧ c ≠ '+' ∧ c ≠ '-' := by
    intro ds rest hds
    obtain ⟨d, ds, rfl, hd⟩ := hds.exists_cons
    exact ⟨d, ds ++ rest, rfl, not_sign_of_isDigit hd⟩
  cases h with
  | whole hds => simpa using hdigits m [] hds
  | pointed hds => exact hdigits whole ['.'] hds
  | both hds _ => exact hdigits whole ('.' :: fraction) hds
  | fraction _ => exact ⟨'.', fraction, rfl, by decide, by decide⟩

theorem mantissa_of_point {cs afterPoint : List Char} (h : (digits cs).2 = '.' :: afterPoint) :
    mantissa cs =
      if (digits cs).1 = [] ∧ (digits afterPoint).1 = [] then ([], [], cs)
      else ((digits cs).1, (digits afterPoint).1, (digits afterPoint).2) := by
  have happend := digits_append cs
  rw [h] at happend
  rw [mantissa]
  simp only [h, Bool.and_eq_true, List.isEmpty_iff]
  split
  · rename_i hnone
    rw [hnone.1] at happend ⊢
    rw [← happend, List.nil_append]
  · rfl

theorem mantissa_of_not_point {cs : List Char} (h : (digits cs).2.head? ≠ some '.') :
    mantissa cs = ((digits cs).1, [], (digits cs).2) := by
  rw [mantissa]
  dsimp only
  split
  · rename_i hpoint
    rw [hpoint] at h
    exact absurd rfl h
  · rfl

/-- What is taken for a mantissa is one, if it has a digit. -/
theorem exists_mantissa {cs : List Char} (h : (mantissa cs).1 ++ (mantissa cs).2.1 ≠ []) :
    ∃ m, cs = m ++ (mantissa cs).2.2 ∧ Mantissa m (mantissa cs).1 (mantissa cs).2.1 := by
  have happend := digits_append cs
  cases hpoint : (digits cs).2.head? == some '.' with
  | false =>
    rw [mantissa_of_not_point (by simpa using hpoint)] at h ⊢
    rw [List.append_nil] at h
    exact ⟨(digits cs).1, happend.symm, .whole (.of_digits h)⟩
  | true =>
    obtain ⟨afterPoint, hrest⟩ := List.head?_eq_some_iff.mp (beq_iff_eq.mp hpoint)
    have happend' := digits_append afterPoint
    rw [mantissa_of_point hrest] at h ⊢
    split at h
    · exact absurd rfl h
    · rename_i hsome
      rw [if_neg hsome]
      rw [hrest, ← happend'] at happend
      by_cases hwhole : (digits cs).1 = []
      · have hfraction : (digits afterPoint).1 ≠ [] := fun hnone => hsome ⟨hwhole, hnone⟩
        rw [hwhole] at happend ⊢
        exact ⟨'.' :: (digits afterPoint).1, happend.symm, .fraction (.of_digits hfraction)⟩
      · by_cases hfraction : (digits afterPoint).1 = []
        · rw [hfraction] at happend ⊢
          exact ⟨(digits cs).1 ++ ['.'], by simpa using happend.symm, .pointed (.of_digits hwhole)⟩
        · exact ⟨(digits cs).1 ++ '.' :: (digits afterPoint).1, by simpa using happend.symm,
            .both (.of_digits hwhole) (.of_digits hfraction)⟩

theorem mantissa_of_digits {cs afterPoint : List Char} (h : digits cs = (ds, '.' :: afterPoint))
    (hsome : ds ++ (digits afterPoint).1 ≠ []) :
    mantissa cs = (ds, (digits afterPoint).1, (digits afterPoint).2) := by
  rw [mantissa_of_point (congrArg Prod.snd h), h, if_neg]
  simpa using hsome

/-- A mantissa is taken as it is when what follows could not be part of it. -/
theorem Mantissa.mantissa_eq {m whole fraction : List Char} (h : Mantissa m whole fraction)
    (hdigit : ∀ c ∈ rest.head?, c.isDigit = false) (hpoint : rest.head? ≠ some '.') :
    mantissa (m ++ rest) = (whole, fraction, rest) := by
  cases h with
  | whole hds =>
    have hdigits := hds.digits_eq hdigit
    rw [mantissa_of_not_point (by rwa [hdigits]), hdigits]
  | pointed hds =>
    have hdigits := hds.digits_point rest
    have hmantissa := mantissa_of_digits hdigits (by simp [hds.ne_nil])
    rw [digits_of_head hdigit] at hmantissa
    rwa [List.append_assoc, List.singleton_append]
  | both hds hfs =>
    have hdigits := hds.digits_point (fraction ++ rest)
    have hmantissa := mantissa_of_digits hdigits (by simp [hds.ne_nil])
    rw [hfs.digits_eq hdigit] at hmantissa
    rwa [List.append_assoc, List.cons_append]
  | fraction hfs =>
    have hdigits := digits_point (fraction ++ rest)
    have hfraction := hfs.digits_eq hdigit
    have hmantissa := mantissa_of_digits hdigits (by simp [hfraction, hfs.ne_nil])
    rwa [hfraction] at hmantissa

/-- A mantissa is taken, and more of what follows may be taken with it. -/
theorem Mantissa.mantissa_append {m whole fraction : List Char} (h : Mantissa m whole fraction)
    (rest : List Char) :
    (mantissa (m ++ rest)).1 ++ (mantissa (m ++ rest)).2.1 ≠ [] ∧
      (mantissa (m ++ rest)).2.2.length ≤ rest.length := by
  have hrest := length_digits_le rest
  cases h with
  | whole hds =>
    have hdigits := hds.digits_append rest
    cases hpoint : (digits rest).2.head? == some '.' with
    | false =>
      rw [mantissa_of_not_point (by simpa [hdigits] using hpoint), hdigits]
      exact ⟨by simp [hds.ne_nil], hrest⟩
    | true =>
      obtain ⟨afterPoint, hafter⟩ := List.head?_eq_some_iff.mp (beq_iff_eq.mp hpoint)
      have hlength := length_digits_le afterPoint
      rw [hafter] at hdigits hrest
      rw [List.length_cons] at hrest
      rw [mantissa_of_digits hdigits (by simp [hds.ne_nil])]
      exact ⟨by simp [hds.ne_nil], by dsimp only; omega⟩
  | pointed hds =>
    have hdigits := hds.digits_point rest
    rw [List.append_assoc, List.singleton_append,
      mantissa_of_digits hdigits (by simp [hds.ne_nil])]
    exact ⟨by simp [hds.ne_nil], hrest⟩
  | both hds hfs =>
    have hdigits := hds.digits_point (fraction ++ rest)
    rw [List.append_assoc, List.cons_append, mantissa_of_digits hdigits (by simp [hds.ne_nil]),
      hfs.digits_append]
    exact ⟨by simp [hds.ne_nil], hrest⟩
  | fraction hfs =>
    have hdigits := digits_point (fraction ++ rest)
    have hfraction := hfs.digits_append rest
    rw [List.cons_append, mantissa_of_digits hdigits (by simp [hfraction, hfs.ne_nil]), hfraction]
    exact ⟨by simp [hfs.ne_nil], hrest⟩

/-! ### Exponents -/

theorem exponent_cons {e : Char} (he : e = 'e' ∨ e = 'E') (cs : List Char) :
    exponent (e :: cs) =
      if (digits (sign cs).2).1 = [] then (0, e :: cs)
      else
        (if (sign cs).1 then -(natural (digits (sign cs).2).1 : ℤ)
          else (natural (digits (sign cs).2).1 : ℤ), (digits (sign cs).2).2) := by
  rcases he with rfl | rfl <;> simp only [exponent, List.isEmpty_iff]

theorem exponent_of_head {cs : List Char} (h : ∀ c ∈ cs.head?, c ≠ 'e' ∧ c ≠ 'E') :
    exponent cs = (0, cs) := by
  rw [exponent.eq_def]
  split
  · exact absurd rfl (h 'e' rfl).1
  · exact absurd rfl (h 'E' rfl).2
  · rfl

/-- What is taken for an exponent is one. -/
theorem exists_exponent (cs : List Char) :
    ∃ x, cs = x ++ (exponent cs).2 ∧ Exponent x (exponent cs).1 := by
  by_cases hhead : ∀ c ∈ cs.head?, c ≠ 'e' ∧ c ≠ 'E'
  · rw [exponent_of_head hhead]
    exact ⟨[], rfl, .none⟩
  · simp only [not_forall, not_and_or, not_not] at hhead
    obtain ⟨e, hmem, he⟩ := hhead
    obtain ⟨rest, rfl⟩ := List.head?_eq_some_iff.mp hmem
    rw [exponent_cons he]
    split
    · exact ⟨[], rfl, .none⟩
    · rename_i hsome
      obtain ⟨s, hs, hsigned⟩ := exists_sign rest
      have happend := digits_append (sign rest).2
      refine ⟨e :: (s ++ (digits (sign rest).2).1), ?_, .some he hsigned (.of_digits hsome)⟩
      rw [List.cons_append, List.append_assoc, happend, ← hs]

theorem length_exponent_le (cs : List Char) : (exponent cs).2.length ≤ cs.length := by
  obtain ⟨x, hx, -⟩ := exists_exponent cs
  conv_rhs => rw [hx]
  simp

/-- An exponent is taken, and more of what follows may be taken with it. -/
theorem Exponent.exponent_append {x : List Char} {e : ℤ} (h : Exponent x e) (rest : List Char) :
    (exponent (x ++ rest)).2.length ≤ rest.length ∧ exponent x = (e, []) := by
  cases h with
  | none => exact ⟨length_exponent_le rest, rfl⟩
  | @some c s ds negative hc hs hds =>
    have htaken : ∀ rest, exponent (c :: (s ++ (ds ++ rest))) =
        (if negative then -(natural (ds ++ (digits rest).1) : ℤ)
          else (natural (ds ++ (digits rest).1) : ℤ), (digits rest).2) := by
      intro rest
      rw [exponent_cons hc, hs.sign_digits hds, hds.digits_append, if_neg (by simp [hds.ne_nil])]
    have hnil : digits [] = ([], []) := rfl
    refine ⟨?_, by simpa [hnil] using htaken []⟩
    rw [List.cons_append, List.append_assoc, htaken]
    exact length_digits_le rest

/-- What follows a mantissa in a numeral could not be part of it. -/
theorem Exponent.head {x : List Char} {e : ℤ} (h : Exponent x e) :
    (∀ c ∈ x.head?, c.isDigit = false) ∧ x.head? ≠ Option.some '.' := by
  cases h with
  | none => simp
  | some hc _ _ => rcases hc with rfl | rfl <;> simp

/-! ### Numerals -/

/-- The digits that are found before the exponent. -/
def significand (token : List Char) : List Char :=
  (mantissa (sign token).2).1 ++ (mantissa (sign token).2).2.1

theorem read_of_nil (h : significand token = []) : read token = (0, token) := by
  obtain ⟨hwhole, hfraction⟩ := List.append_eq_nil_iff.mp h
  rw [read]
  simp [hwhole, hfraction]

theorem read_of_ne_nil (h : significand token ≠ []) :
    read token =
      (nearest (sign token).1 (natural (significand token))
        ((exponent (mantissa (sign token).2).2.2).1 - (mantissa (sign token).2).2.1.length),
        (exponent (mantissa (sign token).2).2.2).2) := by
  have hsome : ((mantissa (sign token).2).1.isEmpty && (mantissa (sign token).2).2.1.isEmpty)
      = false := by
    rw [← Bool.not_eq_true, Bool.and_eq_true, List.isEmpty_iff, List.isEmpty_iff]
    exact fun hnone => h (List.append_eq_nil_iff.mpr hnone)
  rw [read]
  simp only [hsome, Bool.false_eq_true, if_false]
  rfl

/-- What is read is a numeral, and what it is read as is its value. -/
theorem exists_numeral (h : significand token ≠ []) :
    ∃ p, token = p ++ (read token).2 ∧ Numeral p (read token).1 := by
  obtain ⟨s, hs, hsigned⟩ := exists_sign token
  obtain ⟨m, hm, hmantissa⟩ := exists_mantissa h
  obtain ⟨x, hx, hexponent⟩ := exists_exponent (mantissa (sign token).2).2.2
  rw [read_of_ne_nil h]
  refine ⟨s ++ (m ++ x), ?_, .mk hsigned hmantissa hexponent⟩
  rw [List.append_assoc, List.append_assoc, ← hx, ← hm, ← hs]

section Reading

variable {p q : List Char} {v w : Float32}

/-- A numeral is read as its value, to its end. -/
theorem Numeral.read_eq (h : Numeral p v) : read p = (v, []) := by
  obtain @⟨s, m, x, whole, fraction, negative, e, hs, hm, hx⟩ := h
  obtain ⟨c, rest, hc, hplus, hminus⟩ := hm.exists_cons
  have hsign : sign (s ++ (m ++ x)) = (negative, m ++ x) := by
    rw [hc]
    exact hs.sign_append hplus hminus
  have hmantissa := hm.mantissa_eq hx.head.1 hx.head.2
  have hsome : significand (s ++ (m ++ x)) ≠ [] := by
    have happend := (hm.mantissa_append x).1
    rwa [significand, hsign]
  rw [read_of_ne_nil hsome, significand, hsign, hmantissa, (hx.exponent_append []).2]

/-- A token is read at least as far as any numeral that it begins with. -/
theorem Numeral.read_append (h : Numeral p v) (rest : List Char) :
    significand (p ++ rest) ≠ [] ∧ (read (p ++ rest)).2.length ≤ rest.length := by
  obtain @⟨s, m, x, whole, fraction, negative, e, hs, hm, hx⟩ := h
  obtain ⟨c, m', hc, hplus, hminus⟩ := hm.exists_cons
  have hsign : sign (s ++ (m ++ x) ++ rest) = (negative, m ++ (x ++ rest)) := by
    rw [List.append_assoc, List.append_assoc, hc]
    exact hs.sign_append hplus hminus
  obtain ⟨hsome, hrest⟩ := hm.mantissa_append (x ++ rest)
  have hsignificand : significand (s ++ (m ++ x) ++ rest) ≠ [] := by
    rwa [significand, hsign]
  refine ⟨hsignificand, ?_⟩
  rw [read_of_ne_nil hsignificand, hsign]
  -- Only where there is no exponent can the mantissa go on past the numeral.
  cases hx with
  | none => exact Nat.le_trans (length_exponent_le _) hrest
  | @some c t ds _ hc ht hds =>
    have hexponent := Exponent.some hc ht hds
    have hmantissa : mantissa (m ++ (c :: (t ++ ds) ++ rest)) = (whole, fraction, _) :=
      hm.mantissa_eq hexponent.head.1 hexponent.head.2
    rw [hmantissa]
    exact (hexponent.exponent_append rest).1

theorem not_numeral_of_nil (h : significand token = []) :
    ∀ p v, p <+: token → ¬ Numeral p v := by
  rintro p v ⟨rest, rfl⟩ hp
  exact (hp.read_append rest).1 h

theorem exists_longest (h : significand token ≠ []) :
    ∃ p, token = p ++ (read token).2 ∧ Longest token p (read token).1 := by
  obtain ⟨p, hp, hnumeral⟩ := exists_numeral h
  refine ⟨p, hp, ⟨(read token).2, hp.symm⟩, hnumeral, ?_⟩
  rintro q w ⟨rest, hq⟩ hnumeral'
  have hread := (hnumeral'.read_append rest).2
  have hlength : p.length + (read token).2.length = q.length + rest.length := by
    rw [← List.length_append, ← List.length_append, ← hp, hq]
  rw [hq] at hread
  omega

/-- **Reading a token**: it is read as the value of the longest of its prefixes that is a numeral,
and what follows that is left. If none of them is, it is read as zero and all of it is left. -/
theorem read_cases (token : List Char) :
    (read token = (0, token) ∧ ∀ p v, p <+: token → ¬ Numeral p v) ∨
      ∃ p, token = p ++ (read token).2 ∧ Longest token p (read token).1 := by
  by_cases h : significand token = []
  · exact .inl ⟨read_of_nil h, not_numeral_of_nil h⟩
  · exact .inr (exists_longest h)

/-- A text is a numeral. -/
def IsNumeral (text : List Char) : Prop := ∃ v, Numeral text v

theorem not_isNumeral_nil : ¬ IsNumeral [] := by
  rintro ⟨v, h⟩
  exact (h.read_append []).1 rfl

theorem isNumber_iff (h : token ≠ []) : isNumber token = true ↔ IsNumeral token := by
  rw [isNumber, List.isEmpty_iff]
  constructor
  · intro hrest
    rcases read_cases token with ⟨hread, -⟩ | ⟨p, hp, hlongest⟩
    · rw [hread] at hrest
      exact absurd hrest h
    · rw [hrest, List.append_nil] at hp
      exact ⟨(read token).1, hp.symm.subst (motive := (Numeral · _)) hlongest.numeral⟩
  · rintro ⟨v, hnumeral⟩
    rw [hnumeral.read_eq]

instance (text : List Char) : Decidable (IsNumeral text) :=
  if h : text = [] then .isFalse (h ▸ not_isNumeral_nil) else decidable_of_iff _ (isNumber_iff h)

/-- A parser of numerals, and of nothing else. -/
def numeral? (text : List Char) : Option Float32 :=
  if IsNumeral text then some (value text) else none

theorem Numeral.numeral?_eq (h : Numeral p v) : numeral? p = some v := by
  rw [numeral?, if_pos ⟨v, h⟩, value, h.read_eq]

end Reading

end ShadeTree.Token
