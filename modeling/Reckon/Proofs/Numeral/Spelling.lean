import Reckon.Proofs.Numeral.ReadBack

/-!
# Which texts are numbers

A text is a number when it is spelled as one.  A minus sign may stand in front, and behind it
there is one of two words or a decimal literal.

Other readers of doubles let more pass: a plus sign, and the names of the values that are not
finite in any casing, short or in full.  Here such texts are names of variables.  The two rules
meet where a text announces a number by the way it begins: of the texts that do, the freer reader
takes the same ones, and for the same values.

## Main definitions

* `Decimal.IsLiteral cs` — the grammar of decimal literals.
* `Numeral.IsSpelling cs` — the grammar of numbers.
* `Numeral.readFreely?` — the freer reader.
* `Numeral.announces text` — the text begins as a number does.

## Main results

* `Decimal.isSome_read?_iff` — the literals that are read are those of the grammar.
* `Numeral.isSome_read?_iff` — so are the numbers.
* `Numeral.read?_eq_readFreely?` — a number is what announces one and is read freely.
* `Numeral.numbers_and_variables` — **which texts are numbers**, and which are variables
  therefore.
-/

namespace Reckon

namespace Decimal

/-! ### The grammar of literals -/

/-- At least one digit, and nothing else. -/
def IsRow (cs : List Char) : Prop := cs ≠ [] ∧ IsDigits cs

/-- What stands before the exponent. -/
inductive IsMantissa : List Char → Prop where
  /-- Digits alone. -/
  | whole {digits : List Char} (h : IsRow digits) : IsMantissa digits
  /-- Digits and a point; those behind the point may be left out. -/
  | point {digits fraction : List Char} (h : IsRow digits) (hfraction : IsDigits fraction) :
      IsMantissa (digits ++ '.' :: fraction)
  /-- A point with digits behind it alone. -/
  | fraction {fraction : List Char} (h : IsRow fraction) : IsMantissa ('.' :: fraction)

/-- A letter, a sign that may be left out, and digits. -/
inductive IsExponent : List Char → Prop where
  | mk {letter : Char} {sign digits : List Char} (hletter : letter ∈ ['e', 'E'])
      (hsign : sign ∈ [[], ['+'], ['-']]) (h : IsRow digits) :
      IsExponent (letter :: (sign ++ digits))

/-- A decimal literal; the exponent may be left out. -/
inductive IsLiteral : List Char → Prop where
  | plain {mantissa : List Char} (h : IsMantissa mantissa) : IsLiteral mantissa
  | scaled {mantissa exponent : List Char} (h : IsMantissa mantissa)
      (hexponent : IsExponent exponent) : IsLiteral (mantissa ++ exponent)

variable {cs digits fraction rest : List Char}

/-! ### What is read is in the grammar -/

theorem isSome_readDigits?_iff : (readDigits? cs).isSome ↔ IsRow cs := by
  rw [readDigits?, IsRow, IsDigits, ← List.all_eq_true]
  split
  · next h => exact iff_of_true rfl h
  · next h => exact iff_of_false (by simp) h

theorem isSome_readExponent?_iff : (readExponent? cs).isSome ↔ cs = [] ∨ IsExponent cs := by
  constructor
  · intro h
    unfold readExponent? at h
    split at h
    · exact .inl rfl
    · next letter cs =>
      split at h
      · next hletter =>
        have hmem : letter ∈ ['e', 'E'] := by simpa using hletter
        have hrow : ∀ {sign digits : List Char}, sign ∈ [[], ['+'], ['-']] →
            readDigits? digits ≠ none → IsExponent (letter :: (sign ++ digits)) :=
          fun hsign hread => .mk hmem hsign
            (isSome_readDigits?_iff.mp (Option.isSome_iff_ne_none.mpr hread))
        split at h
        · exact .inr (hrow (by simp : ['-'] ∈ _) fun hnone => by rw [hnone] at h; cases h)
        · exact .inr (hrow (by simp : ['+'] ∈ _) fun hnone => by rw [hnone] at h; cases h)
        · exact .inr (hrow (by simp : [] ∈ _) fun hnone => by rw [hnone] at h; cases h)
      · cases h
  · rintro (rfl | ⟨hletter, hsign, hrow⟩)
    · rfl
    · obtain ⟨n, hread⟩ := Option.isSome_iff_exists.mp (isSome_readDigits?_iff.mpr hrow)
      simp only [List.mem_cons, List.not_mem_nil, or_false] at hletter hsign
      rcases hsign with rfl | rfl | rfl
      · rw [List.nil_append, readExponent?_digits hletter hrow.2, hread]
        rfl
      · simp only [List.cons_append, List.nil_append, readExponent?, if_pos hletter, hread]
        rfl
      · simp only [List.cons_append, List.nil_append, readExponent?, if_pos hletter, hread]
        rfl

/-- What stands behind the whole digits is a point with a fraction, or has no fraction. -/
theorem splitFraction_cases (cs : List Char) :
    cs = '.' :: ((splitFraction cs).1 ++ (splitFraction cs).2) ∨
      (splitFraction cs).1 = [] ∧ (splitFraction cs).2 = cs := by
  unfold splitFraction
  split
  · exact .inl (by rw [List.takeWhile_append_dropWhile])
  · exact .inr ⟨rfl, rfl⟩

/-- **What is read as a literal**, part by part. -/
theorem exists_parts_of_read? (h : (read? cs).isSome) : ∃ whole fraction rest, IsDigits whole ∧
    IsDigits fraction ∧ whole ++ fraction ≠ [] ∧ (readExponent? rest).isSome ∧
      (cs = whole ++ '.' :: (fraction ++ rest) ∨ fraction = [] ∧ cs = whole ++ rest) := by
  have hcs := List.takeWhile_append_dropWhile (p := Char.isDigit) (l := cs)
  unfold read? at h
  dsimp only at h
  split at h
  · cases h
  · next digits hdigits =>
    obtain ⟨hne, hrow⟩ := isSome_readDigits?_iff.mp (Option.isSome_of_eq_some hdigits)
    obtain ⟨hwhole, hfraction⟩ := List.forall_mem_append.mp hrow
    rw [Option.isSome_map] at h
    refine ⟨_, _, _, hwhole, hfraction, hne, h, ?_⟩
    rcases splitFraction_cases (cs.dropWhile Char.isDigit) with hpoint | ⟨hnone, hrest⟩
    · exact .inl (by rw [← hpoint, hcs])
    · exact .inr ⟨hnone, by rw [hrest, hcs]⟩

theorem isLiteral_of_isMantissa (h : IsMantissa digits) (hrest : rest = [] ∨ IsExponent rest) :
    IsLiteral (digits ++ rest) := by
  rcases hrest with rfl | hrest
  · rw [List.append_nil]
    exact .plain h
  · exact .scaled h hrest

/-- What can follow the digits of a literal starts with neither a digit nor a point. -/
theorem IsExponent.head?_ne (h : rest = [] ∨ IsExponent rest) :
    Ends rest ∧ rest.head? ≠ some '.' := by
  rcases h with rfl | ⟨hletter, -, -⟩
  · simp [Ends]
  · simp only [List.mem_cons, List.not_mem_nil, or_false] at hletter
    rcases hletter with rfl | rfl
    · simp [Ends]
    · simp [Ends]

/-- **The literals that are read are those of the grammar.** -/
theorem isSome_read?_iff : (read? cs).isSome ↔ IsLiteral cs := by
  constructor
  · intro h
    obtain ⟨whole, fraction, rest, hwhole, hfraction, hne, hrest, hcs⟩ := exists_parts_of_read? h
    rw [isSome_readExponent?_iff] at hrest
    rcases hcs with rfl | ⟨rfl, rfl⟩
    · rw [← List.cons_append, ← List.append_assoc]
      refine isLiteral_of_isMantissa ?_ hrest
      by_cases hnil : whole = []
      · subst hnil
        exact .fraction ⟨hne, hfraction⟩
      · exact .point ⟨hnil, hwhole⟩ hfraction
    · rw [List.append_nil] at hne
      exact isLiteral_of_isMantissa (.whole ⟨hne, hwhole⟩) hrest
  · have hread : ∀ {mantissa rest : List Char}, IsMantissa mantissa → rest = [] ∨ IsExponent rest →
        (read? (mantissa ++ rest)).isSome := by
      intro mantissa rest hmantissa hrest
      obtain ⟨hends, hpoint⟩ := IsExponent.head?_ne hrest
      rw [← isSome_readExponent?_iff] at hrest
      cases hmantissa with
      | whole h => rw [read?_digits h.2 h.1 hends hpoint, Option.isSome_map, hrest]
      | point h hfraction =>
        rw [List.append_assoc, List.cons_append, read?_point h.2 hfraction (by simp [h.1]) hends,
          Option.isSome_map, hrest]
      | fraction h =>
        have hread := read?_point (by simp [IsDigits] : IsDigits []) h.2 h.1 hends
        rw [List.nil_append] at hread
        rw [List.cons_append, hread, Option.isSome_map, hrest]
    rintro (h | ⟨h, hexponent⟩)
    · have := hread h (.inl rfl)
      rwa [List.append_nil] at this
    · exact hread h (.inr hexponent)

/-- A literal starts with a digit or a point. -/
theorem IsLiteral.exists_cons (h : IsLiteral cs) :
    ∃ c rest, cs = c :: rest ∧ (c.isDigit ∨ c = '.') := by
  have hmantissa : ∀ {mantissa : List Char}, IsMantissa mantissa →
      ∃ c rest, mantissa = c :: rest ∧ (c.isDigit ∨ c = '.') := by
    intro mantissa h
    have hrow : ∀ {digits : List Char}, IsRow digits →
        ∃ c rest, digits = c :: rest ∧ (c.isDigit ∨ c = '.') := by
      rintro digits ⟨hne, hdigits⟩
      obtain ⟨c, rest, rfl⟩ := List.exists_cons_of_ne_nil hne
      exact ⟨c, rest, rfl, .inl (hdigits c List.mem_cons_self)⟩
    cases h with
    | whole h => exact hrow h
    | point h _ =>
      obtain ⟨c, rest, rfl, hc⟩ := hrow h
      exact ⟨c, _, rfl, hc⟩
    | fraction _ => exact ⟨'.', _, rfl, .inr rfl⟩
  cases h with
  | plain h => exact hmantissa h
  | scaled h _ =>
    obtain ⟨c, rest, rfl, hc⟩ := hmantissa h
    exact ⟨c, _, rfl, hc⟩

end Decimal

namespace Numeral

open Decimal (IsLiteral)

variable {cs : List Char} {text : String}

/-! ### The grammar of numbers -/

/-- What a number is without its sign. -/
inductive IsMagnitude : List Char → Prop where
  | infinity : IsMagnitude "Infinity".toList
  | nan : IsMagnitude "NaN".toList
  | literal {cs : List Char} (h : IsLiteral cs) : IsMagnitude cs

/-- How numbers are spelled: one minus sign may stand in front. -/
inductive IsSpelling : List Char → Prop where
  | unsigned {cs : List Char} (h : IsMagnitude cs) : IsSpelling cs
  | minus {cs : List Char} (h : IsMagnitude cs) : IsSpelling ('-' :: cs)

theorem isSome_readCode?_iff : (readCode? cs).isSome ↔ IsMagnitude cs := by
  unfold readCode?
  split
  · next h => exact iff_of_true rfl (h ▸ .infinity)
  · next hinfinity =>
    split
    · next h => exact iff_of_true rfl (h ▸ .nan)
    · next hnan =>
      rw [Option.isSome_map, Decimal.isSome_read?_iff]
      constructor
      · exact .literal
      · rintro (_ | _ | h)
        · exact absurd rfl hinfinity
        · exact absurd rfl hnan
        · exact h

/-- **The numbers that are read are those of the grammar.** -/
theorem isSome_read?_iff : (read? text).isSome ↔ IsSpelling text.toList := by
  unfold read?
  split
  · next cs hcs =>
    rw [hcs, Option.isSome_map, isSome_readCode?_iff]
    constructor
    · exact .minus
    · rintro (h | h)
      · rw [← isSome_readCode?_iff, readCode?_minus] at h
        cases h
      · exact h
  · next hsign =>
    rw [Option.isSome_map, isSome_readCode?_iff]
    constructor
    · exact .unsigned
    · intro h
      generalize text.toList = cs at h hsign
      rcases h with h | h
      · exact h
      · exact absurd rfl (hsign _)

/-! ### A freer reader -/

/-- The code of a number without its sign, for a reader that takes the names of the values that are
not finite in any casing, and the first one short too. -/
def readFreeCode? (cs : List Char) : Option Nat :=
  let lower := cs.map Char.toLower
  if lower = "infinity".toList ∨ lower = "inf".toList then some Binary64.infinity
  else if lower = "nan".toList then some Binary64.nan
  else (Decimal.read? cs).map Decimal.nearest

/-- The value of a number for such a reader, which takes either sign. -/
def readFreely? (text : String) : Option Float :=
  match text.toList with
  | '-' :: cs => (readFreeCode? cs).map (ofCode true)
  | '+' :: cs => (readFreeCode? cs).map (ofCode false)
  | cs => (readFreeCode? cs).map (ofCode false)

/-- What is left when a minus sign in front is taken off. -/
def unsigned : List Char → List Char
  | '-' :: cs => cs
  | cs => cs

/-- Behind the sign, a text begins as a number does: it is one of the two words, or starts with a
digit or a point. -/
def opens (cs : List Char) : Bool :=
  cs == "Infinity".toList || cs == "NaN".toList || cs.head?.any fun c => c.isDigit || c == '.'

/-- The text announces a number. -/
def announces (text : String) : Bool := opens (unsigned text.toList)

theorem unsigned_eq (h : ∀ rest, cs ≠ '-' :: rest) : unsigned cs = cs := by
  unfold unsigned
  split
  · exact absurd rfl (h _)
  · rfl

theorem IsMagnitude.opens (h : IsMagnitude cs) : opens cs := by
  cases h with
  | infinity => rfl
  | nan => rfl
  | literal h =>
    obtain ⟨c, rest, rfl, hc⟩ := h.exists_cons
    simp [Numeral.opens, hc]

theorem readCode?_eq_none (h : opens cs = false) : readCode? cs = none := by
  rw [← Option.not_isSome_iff_eq_none, isSome_readCode?_iff]
  intro hcs
  rw [hcs.opens] at h
  cases h

/-- A text that starts with no letter is no word. -/
theorem ne_of_isAlpha {as bs : List Char} (ha : as.head?.any Char.isAlpha = false)
    (hb : bs.head?.any Char.isAlpha) : as ≠ bs := by
  rintro rfl
  rw [ha] at hb
  cases hb

theorem not_isAlpha_of_opens {c : Char} (h : c.isDigit || c == '.') : c.isAlpha = false := by
  simp only [Bool.or_eq_true, beq_iff_eq] at h
  rcases h with h | rfl
  · simp [Char.isDigit, Char.isAlpha, Char.isUpper, Char.isLower, UInt32.le_iff_toNat_le] at *
    omega
  · decide

/-- What begins as a number does is read alike by both readers. -/
theorem readFreeCode?_eq (h : opens cs) : readFreeCode? cs = readCode? cs := by
  simp only [opens, Bool.or_eq_true, beq_iff_eq, Option.any_eq_true] at h
  rcases h with (rfl | rfl) | ⟨c, hc, hopens⟩
  · rfl
  · rfl
  · -- no word starts with a digit or a point
    have halpha : cs.head?.any Char.isAlpha = false := by
      rw [hc]
      exact not_isAlpha_of_opens (by simpa using hopens)
    have hlower : (cs.map Char.toLower).head?.any Char.isAlpha = false := by
      rw [List.head?_map, hc]
      simpa using not_isAlpha_of_opens (by simpa using hopens)
    rw [readFreeCode?, readCode?, if_neg (ne_of_isAlpha halpha (by decide)),
      if_neg (ne_of_isAlpha halpha (by decide)), if_neg, if_neg (ne_of_isAlpha hlower (by decide))]
    exact not_or.mpr ⟨ne_of_isAlpha hlower (by decide), ne_of_isAlpha hlower (by decide)⟩

/-- **A number is what announces one and is read freely.** -/
theorem read?_eq_readFreely? (text : String) :
    read? text = if announces text then readFreely? text else none := by
  unfold read? announces readFreely?
  generalize text.toList = cs
  split
  · next cs =>
    rw [unsigned]
    cases hopens : opens cs with
    | true =>
      rw [if_pos rfl]
      exact congrArg (Option.map (ofCode true)) (readFreeCode?_eq hopens).symm
    | false => rw [if_neg Bool.false_ne_true, readCode?_eq_none hopens, Option.map_none]
  · next hminus =>
    rw [unsigned_eq hminus]
    cases hopens : opens cs with
    | true =>
      rw [if_pos rfl]
      -- nothing that opens as a number starts with a plus sign
      split
      · exact absurd rfl (hminus _)
      · cases hopens
      · rw [readFreeCode?_eq hopens]
    | false => rw [if_neg Bool.false_ne_true, readCode?_eq_none hopens, Option.map_none]

theorem read?_eq_none (h : announces text = false) : read? text = none := by
  rw [read?_eq_readFreely?, h, if_neg Bool.false_ne_true]

/-! ### Variables -/

/-- A text that starts neither as a word nor with a digit, a point or a minus sign is a variable. -/
theorem read?_eq_none_of_cons {c : Char} {rest : List Char} (htext : text.toList = c :: rest)
    (hdigit : ¬c.isDigit) (hpoint : c ≠ '.') (hminus : c ≠ '-') (hinfinity : text ≠ "Infinity")
    (hnan : text ≠ "NaN") : read? text = none := by
  have hne : ∀ {word : String}, text ≠ word → c :: rest ≠ word.toList :=
    fun hne heq => hne (String.toList_injective (htext.trans heq))
  refine read?_eq_none ?_
  rw [announces, htext, unsigned_eq fun _ h => hminus (List.cons.inj h).1]
  simp only [opens, List.head?_cons, Option.any_some, Bool.or_eq_false_iff, beq_eq_false_iff_ne]
  exact ⟨⟨hne hinfinity, hne hnan⟩, by simpa using hdigit, hpoint⟩

/-- No number has two signs in front. -/
theorem read?_eq_none_of_signs {a b : Char} {rest : List Char}
    (htext : text.toList = a :: b :: rest) (ha : a ∈ ['+', '-']) (hb : b ∈ ['+', '-']) :
    read? text = none := by
  refine read?_eq_none ?_
  rw [announces, htext]
  simp only [List.mem_cons, List.not_mem_nil, or_false] at ha hb
  rcases ha with rfl | rfl
  · rfl
  · rcases hb with rfl | rfl
    · rfl
    · rfl

/-- The names of the values that are not finite, in lower case. -/
def names : List String := ["inf", "infinity", "nan"]

theorem exists_isAlpha_of_names {word : List Char}
    (h : String.ofList (word.map Char.toLower) ∈ names) :
    ∃ c rest, word = c :: rest ∧ c.isAlpha := by
  have hfirst : ∀ name ∈ names, name.toList.head?.any Char.isAlpha := by decide
  have hlower := hfirst _ h
  rw [String.toList_ofList, List.head?_map] at hlower
  cases word with
  | nil => cases hlower
  | cons c rest => exact ⟨c, rest, rfl, by simpa using hlower⟩

/-- A name in a casing of its own is that of a variable, whatever sign is in front. -/
theorem read?_eq_none_of_names {sign word : List Char} (htext : text.toList = sign ++ word)
    (hsign : sign ∈ [[], ['+'], ['-']]) (hname : String.ofList (word.map Char.toLower) ∈ names)
    (hinfinity : word ≠ "Infinity".toList) (hnan : word ≠ "NaN".toList) : read? text = none := by
  obtain ⟨c, rest, rfl, hc⟩ := exists_isAlpha_of_names hname
  have hopens : opens (c :: rest) = false := by
    have hfirst : (c.isDigit || c == '.') = false := by
      rw [← Bool.not_eq_true]
      intro h
      rw [not_isAlpha_of_opens h] at hc
      cases hc
    simp only [opens, List.head?_cons, Option.any_some, hfirst, Bool.or_eq_false_iff,
      beq_eq_false_iff_ne]
    exact ⟨⟨hinfinity, hnan⟩, trivial⟩
  refine read?_eq_none ?_
  rw [announces, htext]
  simp only [List.mem_cons, List.not_mem_nil, or_false] at hsign
  rcases hsign with rfl | rfl | rfl
  · have hminus : ∀ more, c :: rest ≠ '-' :: more := by
      rintro more ⟨⟩
      cases hc
    rw [List.nil_append, unsigned_eq hminus, hopens]
  · rfl
  · exact hopens

/-- **Which texts are numbers**: those that are spelled as one.  So a text that starts neither as a
word nor with a digit, a point or a minus sign is a variable, and so is one that starts with two
signs, or is the name of a value that is not finite in another spelling.  A reader to which all
those names are numbers gives the same answer, if it is asked about what announces a number. -/
theorem numbers_and_variables (text : String) :
    ((read? text).isSome ↔ IsSpelling text.toList) ∧
      (∀ sign word, text.toList = sign ++ word → sign ∈ [[], ['+'], ['-']] →
        String.ofList (word.map Char.toLower) ∈ ["inf", "infinity", "nan"] →
          word ≠ "Infinity".toList → word ≠ "NaN".toList → read? text = none) ∧
      (∀ c rest, text.toList = c :: rest → ¬c.isDigit → c ≠ '.' → c ≠ '-' →
        text ≠ "Infinity" → text ≠ "NaN" → read? text = none) ∧
      (∀ a b rest, text.toList = a :: b :: rest → a ∈ ['+', '-'] → b ∈ ['+', '-'] →
        read? text = none) ∧
      read? text = if announces text then readFreely? text else none :=
  ⟨isSome_read?_iff, fun _ _ => read?_eq_none_of_names, fun _ _ => read?_eq_none_of_cons,
    fun _ _ _ => read?_eq_none_of_signs, read?_eq_readFreely? text⟩

/-- A literal with everything that may be left out but the digits before the point, and variables
that resemble numbers. -/
theorem numbers_and_variables_alike :
    (read? "-.5E+07").isSome ∧ read? "-infinity" = none ∧ read? "é1" = none ∧
      read? "-+1" = none := by
  refine ⟨(numbers_and_variables "-.5E+07").1.mpr ?_, ?_, ?_, ?_⟩
  · have hfive : Decimal.IsRow ['5'] := Decimal.isSome_readDigits?_iff.mp rfl
    have hseven : Decimal.IsRow ['0', '7'] := Decimal.isSome_readDigits?_iff.mp rfl
    exact .minus (.literal (.scaled (.fraction hfive)
      (.mk (by decide : 'E' ∈ _) (by decide : ['+'] ∈ _) hseven)))
  · exact (numbers_and_variables "-infinity").2.1 ['-'] "infinity".toList (by decide) (by decide)
      (by decide) (by decide) (by decide)
  · exact (numbers_and_variables "é1").2.2.1 'é' ['1'] (by decide) (by decide) (by decide)
      (by decide) (by decide) (by decide)
  · exact (numbers_and_variables "-+1").2.2.2.1 '-' '+' ['1'] (by decide) (by decide) (by decide)

end Numeral

end Reckon
