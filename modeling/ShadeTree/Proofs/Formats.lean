import ShadeTree.Description.Json
import ShadeTree.Json.Written
import ShadeTree.Proofs.Effect
import ShadeTree.Proofs.Neighbours
import ShadeTree.Proofs.Nesting
import ShadeTree.Proofs.Precision
import ShadeTree.Proofs.Printing

/-!
# One number in two formats

A number is given to a socket in two ways. From an XML document its text comes as it is written, and
is rounded to a single once. From a JSON document it is read as an integer or a double, printed, and
what is printed is rounded to a single. For integers this makes no difference. For doubles it does,
where the number that is written and the number that is printed lie on either side of the middle
between two singles; they are so near to each other that this happens close to a middle only, and
that the two singles are neighbours then (`Assembly.value_of_either_format`).
-/

namespace ShadeTree

namespace Json

/-! ### Numerals of documents -/

theorem whole?_eq_some {cs ds rest : List Char} (h : whole? cs = some (ds, rest)) :
    cs = ds ++ rest ∧ Token.Digits ds := by
  have happend := Token.digits_append cs
  have hdigits := Token.isDigit_digits cs
  rw [whole?] at h
  split at h
  · cases h
  · rename_i rest' heq
    obtain ⟨rfl, rfl⟩ := Prod.mk.inj (Option.some.inj h)
    rw [heq] at happend hdigits
    exact ⟨happend.symm, List.cons_ne_nil _ _, hdigits⟩
  · cases h
  · rename_i ds' rest' hne _ _ heq
    obtain ⟨rfl, rfl⟩ := Prod.mk.inj (Option.some.inj h)
    rw [heq] at happend hdigits
    exact ⟨happend.symm, hne, hdigits⟩

theorem fraction?_eq_some {cs fs rest : List Char} (h : fraction? cs = some (fs, rest)) :
    fs = [] ∧ cs = rest ∨ Token.Digits fs ∧ cs = '.' :: (fs ++ rest) := by
  rw [fraction?.eq_def] at h
  split at h
  · rename_i afterPoint
    have happend := Token.digits_append afterPoint
    have hdigits := Token.isDigit_digits afterPoint
    split at h
    · cases h
    · rename_i fs' rest' hne heq
      obtain ⟨rfl, rfl⟩ := Prod.mk.inj (Option.some.inj h)
      rw [heq] at happend hdigits
      exact .inr ⟨⟨hne, hdigits⟩, congrArg ('.' :: ·) happend.symm⟩
  · obtain ⟨rfl, rfl⟩ := Prod.mk.inj (Option.some.inj h)
    exact .inl ⟨rfl, rfl⟩

theorem exponent?_cons {e : Char} (he : e = 'e' ∨ e = 'E') (tail : List Char) :
    exponent? (e :: tail) = if (Token.digits (Token.sign tail).2).1 = [] then none
      else some (some ((Token.sign tail).1, (Token.digits (Token.sign tail).2).1),
        (Token.digits (Token.sign tail).2).2) := by
  rcases he with rfl | rfl <;>
    rcases hdigits : Token.digits (Token.sign tail).2 with ⟨_ | ⟨d, ds⟩, rest⟩ <;>
      simp [exponent?, hdigits]

theorem exponent?_eq_some {cs rest : List Char} {exponent : Option (Bool × List Char)}
    (h : exponent? cs = some (exponent, rest)) (n : Numeral) (hn : n.exponent = exponent) :
    ∃ x, cs = x ++ rest ∧ Token.Exponent x n.scaling := by
  have hsome {e : Char} {tail : List Char} (he : e = 'e' ∨ e = 'E')
      (h : exponent? (e :: tail) = some (exponent, rest)) :
      ∃ x, e :: tail = x ++ rest ∧ Token.Exponent x n.scaling := by
    rw [exponent?_cons he] at h
    split_ifs at h with hnil
    obtain ⟨hexponent, hrest⟩ := Prod.mk.inj (Option.some.inj h)
    obtain ⟨s, hs, hsigned⟩ := Token.exists_sign tail
    refine ⟨e :: (s ++ (Token.digits (Token.sign tail).2).1), ?_, ?_⟩
    · rw [← hrest, List.cons_append, List.append_assoc, Token.digits_append, ← hs]
    · rw [Numeral.scaling, hn, ← hexponent]
      exact .some he hsigned ⟨hnil, Token.isDigit_digits _⟩
  have hcs := h
  rw [exponent?.eq_def] at h
  split at h
  · exact hsome (.inl rfl) hcs
  · exact hsome (.inr rfl) hcs
  · obtain ⟨rfl, rfl⟩ := Prod.mk.inj (Option.some.inj h)
    refine ⟨[], rfl, ?_⟩
    rw [Numeral.scaling, hn]
    exact .none

theorem exists_minus (cs : List Char) :
    ∃ s, cs = s ++ (minus cs).2 ∧ Token.Signed s (minus cs).1 := by
  rw [minus.eq_def]
  split
  · exact ⟨['-'], rfl, .minus⟩
  · exact ⟨[], rfl, .none⟩

/-- A number of a document is a numeral of tuples, and both count it the same. -/
theorem writes_of_numeral? {cs rest : List Char} {n : Numeral} (h : numeral? cs = some (n, rest)) :
    n.OfDigits ∧ ∃ text, cs = text ++ rest ∧ Token.Writes text n.negative n.size := by
  simp only [numeral?, Option.bind_eq_bind, Option.bind_eq_some_iff, Prod.exists,
    Option.some.injEq, Prod.mk.injEq] at h
  obtain ⟨whole, cs', hwhole, fraction, cs'', hfraction, exponent, rest', hexponent, rfl, rfl⟩ := h
  obtain ⟨s, hs, hsigned⟩ := exists_minus cs
  obtain ⟨hsplit, hds⟩ := whole?_eq_some hwhole
  obtain ⟨x, hx, hscaling⟩ := exponent?_eq_some hexponent
    ⟨(minus cs).1, whole, fraction, exponent⟩ rfl
  rcases fraction?_eq_some hfraction with ⟨rfl, rfl⟩ | ⟨hfs, rfl⟩
  · refine ⟨⟨hds.isDigit, by simp⟩, s ++ (whole ++ x), ?_, .mk hsigned (.whole hds) hscaling⟩
    rw [List.append_assoc, List.append_assoc, ← hx, ← hsplit, ← hs]
  · refine ⟨⟨hds.isDigit, hfs.isDigit⟩, s ++ (whole ++ '.' :: fraction ++ x), ?_,
      .mk hsigned (.both hds hfs) hscaling⟩
    rw [List.append_assoc, List.append_assoc, List.append_assoc, List.cons_append, ← hx, ← hsplit,
      ← hs]

theorem next?_of_numeral? {cs rest : List Char} {n : Numeral} (h : numeral? cs = some (n, rest)) :
    Token.next? cs = some (.number n, rest) := by
  rw [Token.next?.eq_def]
  split
  case h_11 => rw [h]; rfl
  all_goals exact absurd h (by simp [numeral?, minus, whole?, Token.digits])

theorem dropWhile_isBlank_of_numeral? {cs rest : List Char} {n : Numeral}
    (h : numeral? cs = some (n, rest)) : cs.dropWhile isBlank = cs := by
  cases cs with
  | nil => rfl
  | cons c tail =>
    rw [List.dropWhile_cons_of_neg]
    intro hc
    simp only [isBlank, Bool.or_eq_true, decide_eq_true_eq, or_assoc] at hc
    rcases hc with rfl | rfl | rfl | rfl <;>
      exact absurd h (by simp [numeral?, minus, whole?, Token.digits])

theorem tokens?_of_numeral? {cs : List Char} {n : Numeral} (h : numeral? cs = some (n, [])) :
    tokens? cs = some [.number n] := by
  have hnil : tokens? [] = some [] := by
    rw [tokens?.eq_def]
    rfl
  rw [tokens?.eq_def]
  split
  · rename_i hcs
    rw [dropWhile_isBlank_of_numeral? h] at hcs
    subst hcs
    cases h
  · rename_i c tail hcs
    rw [dropWhile_isBlank_of_numeral? h] at hcs
    subst hcs
    split
    · rename_i hnext
      rw [next?_of_numeral? h] at hnext
      cases hnext
    · rename_i t rest hnext
      rw [next?_of_numeral? h] at hnext
      cases hnext
      rw [hnil]
      rfl

/-- A document that is a number and nothing else has the value of its numeral. -/
theorem ofText?_of_numeral? {text : String} {n : Numeral}
    (h : numeral? text.toList = some (n, [])) : ofText? text = n.value?.map .number := by
  rw [ofText?, Written.ofText?, tokens?_of_numeral? h]
  rfl

/-- The number that a numeral writes. -/
def Numeral.number (n : Numeral) : ℚ := Single.signed (Token.signOf n.negative) n.size

/-! ### What is printed -/

/-- A number is near to another, or both come to nothing as singles. -/
def Near (q r : ℚ) : Prop :=
  Within (1 / 2 ^ 49) q r ∨ q < 2 ^ (-151 : ℤ) ∧ r < 2 ^ (-151 : ℤ)

/-- What is printed of a double comes near to what the double comes near to. -/
theorem exists_writes_of_close {x : Float} {negative : Bool} {q : ℚ} (hq : 0 ≤ q)
    (h : Double.Close (Token.signOf negative) q x) :
    ∃ r, Token.Writes (Shortest.text x) negative r ∧ Near q r := by
  cases h with
  | near hx hwithin =>
    obtain ⟨m, e, hm, hview, hfull, rfl⟩ := hx
    obtain ⟨r, hwrites, hhalf⟩ := Shortest.exists_writes_text hview
    have hprinted : Within (1 / 2 ^ 53) (m * 2 ^ e) r := by
      refine hhalf.trans ?_
      calc (2 : ℚ) ^ (e - 1) = 1 / 2 ^ 53 * 2 ^ (52 + e) := by
            rw [zpow_sub₀ two_ne_zero, zpow_add₀ two_ne_zero]
            norm_num
            ring
        _ ≤ 1 / 2 ^ 53 * (m * 2 ^ e) := by
            gcongr
            exact Double.zpow_le_mul hfull hm
    exact ⟨r, hwrites, .inl ((hwithin.trans hprinted (by norm_num)).mono hq (by norm_num))⟩
  | small hx hsmall =>
    have hsmall' : q < 2 ^ (-151 : ℤ) :=
      hsmall.trans_le (zpow_le_zpow_right₀ one_le_two (by decide))
    generalize hview : Double.view x = u at hx
    cases hx with
    | zero => exact ⟨0, Shortest.writes_text_zero hview, .inr ⟨hsmall', by positivity⟩⟩
    | @finite m e hm hlt hle =>
      obtain ⟨r, hwrites, hhalf⟩ := Shortest.exists_writes_text hview
      refine ⟨r, hwrites, .inr ⟨hsmall', ?_⟩⟩
      have hr : r ≤ m * 2 ^ e + 2 ^ (e - 1) := by
        have := (abs_le.mp hhalf).2
        linarith
      have hone : (2 : ℚ) ^ (e - 1) ≤ 2 ^ (53 + e) := zpow_le_zpow_right₀ one_le_two (by omega)
      calc r ≤ m * 2 ^ e + 2 ^ (e - 1) := hr
        _ < 2 ^ (53 + e) + 2 ^ (53 + e) := add_lt_add_of_lt_of_le (Double.mul_lt_zpow hlt) hone
        _ = 2 ^ (53 + e + 1) := by
            rw [zpow_add_one₀ two_ne_zero]
            ring
        _ ≤ 2 ^ (-151 : ℤ) := zpow_le_zpow_right₀ one_le_two (by omega)

theorem Numeral.writes_of_integer {n : Numeral} {k : ℤ} (h : n.value? = some (.integer k)) :
    Token.Writes (Number.integer k).text n.negative n.size := by
  have hreal : n.real? ≠ some (.integer k) := by
    intro h
    obtain ⟨x, -, hx⟩ := Option.map_eq_some_iff.mp h
    cases hx
  have hsize (hwhole : n.fraction = [] ∧ n.exponent = none) : n.size = Token.natural n.whole := by
    rw [size, scaling, hwhole.1, hwhole.2, List.append_nil, List.length_nil, Nat.cast_zero,
      sub_zero, zpow_zero, mul_one]
  have hprinted := Number.writes_integer k
  rw [value?] at h
  split_ifs at h with hwhole hnegative hpositive hfits
  · obtain rfl : -(Token.natural n.whole : ℤ) = k := Number.integer.inj (Option.some.inj h)
    rw [Bool.and_eq_true, decide_eq_true_eq] at hpositive
    rw [Int.natAbs_neg, Int.natAbs_natCast, decide_eq_true (by omega)] at hprinted
    rw [hsize (by simpa using hwhole), hnegative]
    exact hprinted
  · exact absurd h hreal
  · obtain rfl : (Token.natural n.whole : ℤ) = k := Number.integer.inj (Option.some.inj h)
    rw [Int.natAbs_natCast, decide_eq_false (by omega)] at hprinted
    rw [hsize (by simpa using hwhole), Bool.eq_false_iff.mpr hnegative]
    exact hprinted
  · exact absurd h hreal
  · exact absurd h hreal

/-- A number that is read and printed again comes near to the number that was written, with its
sign; and an integer is the number that was written. -/
theorem Numeral.exists_writes_text {n : Numeral} (hn : n.OfDigits) {number : Number}
    (h : n.value? = some number) : ∃ r, Token.Writes number.text n.negative r ∧
      (Near n.size r ∨ n.Unread ∧ r = 0) ∧ ∀ k, number = .integer k → r = n.size := by
  cases number with
  | integer k =>
    refine ⟨n.size, writes_of_integer h, .inl (.inl ?_), fun _ _ => rfl⟩
    rw [Within, sub_self, abs_zero]
    exact mul_nonneg (by norm_num) n.size_nonneg
  | real x =>
    have hreal : n.real? = some (.real x) := by
      rw [value?] at h
      split_ifs at h with hinteger <;> first | exact h | cases h
    rcases close_of_real? hn hreal with hclose | ⟨hunread, hzero⟩
    · obtain ⟨r, hwrites, hnear⟩ := exists_writes_of_close n.size_nonneg hclose
      exact ⟨r, hwrites, .inl hnear, fun k hk => by cases hk⟩
    · exact ⟨0, Shortest.writes_text_zero hzero, .inr ⟨hunread, rfl⟩, fun k hk => by cases hk⟩

end Json

/-! ### Singles -/

namespace Single

open Float.Model.UnpackedFloat (Sign)

/-- Two numbers of one sign that come near to each other are rounded to one single, or to neighbours
whose middle is as near. -/
theorem eq_or_adjacent_of_near (s : Sign) {q r : ℚ} (hq : 0 ≤ q) (hr : 0 ≤ r) (h : Json.Near q r) :
    ofView (near s r) = ofView (near s q) ∨
      Adjacent (ofView (near s r)) (ofView (near s q)) ∧
        |middle (ofView (near s r)) (ofView (near s q)) - signed s q| ≤ |signed s q| / 2 ^ 49 := by
  rcases h with hwithin | ⟨hq', hr'⟩
  · have hsum : |signed s r + signed s q| = r + q := by
      have hsigned : signed s r + signed s q = signed s (r + q) := by
        cases s
        · exact (neg_add r q).symm
        · rfl
      rw [hsigned, abs_signed, abs_of_nonneg (add_nonneg hr hq)]
    have hdiff : |signed s r - signed s q| ≤ q / 2 ^ 49 := by
      rw [signed_sub, abs_signed]
      exact hwithin.trans_eq (by ring)
    have hnear : |signed s r - signed s q| ≤ |signed s r + signed s q| / 2 ^ 40 := by
      rw [hsum]
      refine hdiff.trans ?_
      norm_num
      linarith
    rcases (isNearest_near_of_nonneg s hr).adjacent (isNearest_near_of_nonneg s hq) hnear with
      hplace | ⟨hadjacent, hmiddle⟩
    · exact .inl (ofView_near_eq_of_place_eq s hr hq hplace)
    · refine .inr ⟨hadjacent, hmiddle.trans ?_⟩
      rwa [abs_signed, abs_of_nonneg hq]
  · have hzero {q : ℚ} (hq : 0 ≤ q) (hlt : q < 2 ^ (-151 : ℤ)) : near s q = .zero s := by
      rcases hq.eq_or_lt with rfl | hpos
      · exact near_zero s
      · exact near_of_lt s hpos hlt
    rw [hzero hq hq', hzero hr hr']
    exact .inl rfl

end Single

/-! ### Sockets -/

namespace Node

theorem socket?_setLink {n : Node} {name : String} {s : Socket Node} (hs : n.socket? name = some s)
    (link : Link Node) : (n.setLink name link).socket? name = some { s with link := link } := by
  rw [← getElem?_place, place_congr (map_declared_setLink n name link), getElem?_setLink,
    getElem?_place, hs, Option.map_some, if_pos rfl]

end Node

namespace Tuple

/-- The text of a number is read as the single nearest to it. -/
theorem value_ofText {text : String} {negative : Bool} {q : ℚ}
    (h : Token.Writes text.toList negative q) :
    (ofText text).value = .scalar (Single.ofView (Single.near (Token.signOf negative) q)) := by
  have hsplit := split_ofList h
  rw [String.ofList_toList] at hsplit
  rw [ofText]
  simp only [hsplit, List.take_succ_cons, List.take_nil, List.map_cons, List.map_nil, Token.value,
    h.numeral.read_eq]
  rfl

end Tuple

namespace PropertyValue

theorem ofJson_number (number : Json.Number) :
    ofJson (.number number) = .literal (String.ofList number.text) := by
  rw [ofJson, literalOfJson, Literal.text]
  intro members h
  cases h

/-- An element that is of neither of the two types describes the text of its attribute. -/
theorem ofElement_literal {e : Xml.Element} {name t : String} (hname : e.get? "name" = some name)
    (hnode : e.get? "type" ≠ some "node") (href : e.get? "type" ≠ some "ref")
    (htext : e.get? "value" = some t) : ofElement e = (name, .literal t) := by
  rw [ofElement_eq, hname]
  dsimp only
  rw [if_neg hnode, if_neg href, ofAttribute, htext]

end PropertyValue

namespace Value

theorem eq_of_components {v w : Value} (h : v.components = w.components) : v = w := by
  obtain ⟨x, y, z, a⟩ := v
  obtain ⟨x', y', z', a'⟩ := w
  simp only [components, List.cons.injEq] at h
  obtain ⟨rfl, rfl, rfl, rfl, -⟩ := h
  rfl

end Value

namespace Assembly

section Format

variable (ctx : Context) (templates : Templates)
  (assemble : Option (NodeDesc → String → Node → Assembly)) (path : String)

/-- What a socket of colours or numbers holds of a literal. -/
theorem socket?_applyProperty_literal {a : Assembly} {name : String} {s : Socket Node}
    (hs : a.node.socket? name = some s) (hkind : s.kind = .color ∨ s.kind = .float)
    (text : String) :
    (applyProperty ctx templates assemble path a (name, .literal text)).node.socket? name =
      some { s with link := .literal (Tuple.ofText text).value } := by
  have hkind? : a.node.socketKind? name = some s.kind := by rw [Node.socketKind?, hs]; rfl
  have heffect : effect ctx templates assemble path (some s.kind) (name, .literal text) =
      .set (.literal (Tuple.ofText text).value) [] (literalReport path name (.ofText text)) := by
    rcases hkind with hkind | hkind <;> rw [hkind] <;> rfl
  rw [applyProperty_eq, hkind?, heffect]
  exact Node.socket?_setLink hs _

/-- **A number is worth the same in either format**, or nearly. What a socket holds of the text in
an XML property is the single nearest to the number that the text writes. The number in a JSON
document gives the same single if it is an integer; if not, it gives the same or its neighbour, and
that only where the number is as near to the middle between the two as a part in `2 ^ 49`. -/
theorem value_of_either_format {t : String} {n : Json.Numeral} {number : Json.Number}
    (hnumeral : Json.numeral? t.toList = some (n, []))
    (hread : Json.ofText? t = some (.number number))
    {e : Xml.Element} {name : String} (hname : e.get? "name" = some name)
    (hnode : e.get? "type" ≠ some "node") (href : e.get? "type" ≠ some "ref")
    (htext : e.get? "value" = some t) {a : Assembly} {s : Socket Node}
    (hs : a.node.socket? name = some s) (hkind : s.kind = .color ∨ s.kind = .float) :
    ∃ v v' : Float32,
      (applyProperty ctx templates assemble path a
        (name, PropertyValue.ofJson (.number number))).node.socket? name =
          some { s with link := .literal (.scalar v) } ∧
      (applyProperty ctx templates assemble path a (PropertyValue.ofElement e)).node.socket? name =
        some { s with link := .literal (.scalar v') } ∧
      Single.IsNearest n.number v' ∧
      ((∃ k, number = .integer k) → v = v') ∧
      (v = v' ∨ Single.Adjacent v v' ∧
        |Single.middle v v' - n.number| ≤ |n.number| / 2 ^ 49 ∨ n.Unread ∧ Single.place v = 0) := by
  rw [Json.ofText?_of_numeral? hnumeral, Option.map_eq_some_iff] at hread
  obtain ⟨number', hnumber, heq⟩ := hread
  rw [Json.number.inj heq] at hnumber
  obtain ⟨hdigits, text, hsplit, hwrites⟩ := Json.writes_of_numeral? hnumeral
  obtain rfl : t.toList = text := by rw [hsplit, List.append_nil]
  obtain ⟨r, hprinted, hr, hinteger⟩ := Json.Numeral.exists_writes_text hdigits hnumber
  rw [← String.toList_ofList (l := number.text)] at hprinted
  rw [PropertyValue.ofJson_number, PropertyValue.ofElement_literal hname hnode href htext,
    socket?_applyProperty_literal ctx templates assemble path hs hkind,
    socket?_applyProperty_literal ctx templates assemble path hs hkind,
    Tuple.value_ofText hwrites, Tuple.value_ofText hprinted]
  refine ⟨_, _, rfl, rfl, Single.isNearest_near_of_nonneg _ n.size_nonneg, ?_, ?_⟩
  · rintro ⟨k, hk⟩
    rw [hinteger k hk]
  · rcases hr with hnear | ⟨hunread, rfl⟩
    · have hsame := Single.eq_or_adjacent_of_near (Token.signOf n.negative) n.size_nonneg
        hprinted.nonneg hnear
      exact hsame.imp_right .inl
    · refine .inr (.inr ⟨hunread, ?_⟩)
      rw [Single.near_zero, Single.place, Single.view_ofView_zero, Single.placeOf_zero]

end Format

/-- A number just below the middle between one and the single after it. Its double is that middle,
and what is printed of the double is just above. -/
def belowMiddle : String := "1.0000000596046447"

/-- A property that gives the number to a colour. -/
def colorOf (t : String) : Xml.Element :=
  .mk ⟨none, "Property"⟩ [(⟨none, "name"⟩, "Color"), (⟨none, "value"⟩, t)] []

theorem numeral_belowMiddle : ∃ n number, Json.numeral? belowMiddle.toList = some (n, []) ∧
    Json.ofText? belowMiddle = some (.number number) ∧
      String.ofList number.text = "1.0000000596046448" := by
  have hprinted : (((Json.numeral? belowMiddle.toList).bind (·.1.value?)).map
      fun number => String.ofList number.text) = some "1.0000000596046448" := by decide +kernel
  have hrest : (Json.numeral? belowMiddle.toList).map (·.2) = some [] := by decide
  obtain ⟨number, hnumber, htext⟩ := Option.map_eq_some_iff.mp hprinted
  obtain ⟨⟨n, rest⟩, hn, hvalue⟩ := Option.bind_eq_some_iff.mp hnumber
  rw [hn, Option.map_some, Option.some.injEq] at hrest
  have hnumeral : Json.numeral? belowMiddle.toList = some (n, []) := by rw [hn, ← hrest]
  have hread : Json.ofText? belowMiddle = some (.number number) := by
    rw [Json.ofText?_of_numeral? hnumeral, hvalue]
    rfl
  exact ⟨n, number, hnumeral, hread, htext⟩

theorem get?_name_colorOf (t : String) : (colorOf t).get? "name" = some "Color" := rfl

theorem socket?_color_lambert : (start (Node.new .lambert)).node.socket? "Color" =
    some ⟨"Color", .color, .literal .zero⟩ := rfl

theorem value_belowMiddle :
    ∃ n number, Json.numeral? belowMiddle.toList = some (n, []) ∧
      Json.ofText? belowMiddle = some (.number number) ∧ ∃ v v' : Float32,
        (applyProperty ⟨.builtin, .standard⟩ [] none "Lambert" (start (Node.new .lambert))
          ("Color", PropertyValue.ofJson (.number number))).node.socket? "Color" =
            some ⟨"Color", .color, .literal (.scalar v)⟩ ∧
        (applyProperty ⟨.builtin, .standard⟩ [] none "Lambert" (start (Node.new .lambert))
          (PropertyValue.ofElement (colorOf belowMiddle))).node.socket? "Color" =
            some ⟨"Color", .color, .literal (.scalar v')⟩ ∧
        Single.IsNearest n.number v' ∧
        ((∃ k, number = .integer k) → v = v') ∧
        (v = v' ∨ Single.Adjacent v v' ∧
          |Single.middle v v' - n.number| ≤ |n.number| / 2 ^ 49 ∨
            n.Unread ∧ Single.place v = 0) := by
  obtain ⟨n, number, hnumeral, hread, -⟩ := numeral_belowMiddle
  exact ⟨n, number, hnumeral, hread, value_of_either_format ⟨.builtin, .standard⟩ [] none "Lambert"
    hnumeral hread (get?_name_colorOf belowMiddle) (by decide) (by decide) rfl
    socket?_color_lambert (.inl rfl)⟩

/-- Rounded twice, the number goes up; rounded once, it goes down. -/
theorem formats_belowMiddle_ne :
    ∃ n number, Json.numeral? belowMiddle.toList = some (n, []) ∧
      Json.ofText? belowMiddle = some (.number number) ∧ ∃ v v' : Float32,
        (applyProperty ⟨.builtin, .standard⟩ [] none "Lambert" (start (Node.new .lambert))
          ("Color", PropertyValue.ofJson (.number number))).node.socket? "Color" =
            some ⟨"Color", .color, .literal (.scalar v)⟩ ∧
        (applyProperty ⟨.builtin, .standard⟩ [] none "Lambert" (start (Node.new .lambert))
          (PropertyValue.ofElement (colorOf belowMiddle))).node.socket? "Color" =
            some ⟨"Color", .color, .literal (.scalar v')⟩ ∧
        v.toBits = 0x3f800001 ∧ v'.toBits = 0x3f800000 := by
  obtain ⟨n, number, hnumeral, hread, htext⟩ := numeral_belowMiddle
  have hsocket := socket?_applyProperty_literal ⟨.builtin, .standard⟩ [] none "Lambert"
    socket?_color_lambert (.inl rfl)
  have hjson : (Tuple.ofText "1.0000000596046448").value = .scalar (.ofBits 0x3f800001) :=
    Value.eq_of_components (by decide +kernel)
  have hxml : (Tuple.ofText belowMiddle).value = .scalar (.ofBits 0x3f800000) :=
    Value.eq_of_components (by decide +kernel)
  refine ⟨n, number, hnumeral, hread, .ofBits 0x3f800001, .ofBits 0x3f800000, ?_, ?_, rfl, rfl⟩
  · rw [PropertyValue.ofJson_number, htext, hsocket, hjson]
  · rw [PropertyValue.ofElement_literal (t := belowMiddle) (get?_name_colorOf belowMiddle)
      (by decide) (by decide) rfl, hsocket, hxml]

end Assembly

end ShadeTree
