import SolverPortfolio.Json
import SolverPortfolio.Json.Record

/-!
# Strings and numerals read back

What is written for the leaves of a JSON value is read back.
-/

namespace SolverPortfolio.Json

/-!
## Quoted strings read back

What `encode` writes, `decode` reads back up to the closing quote, whatever follows it
(`Json.decode_encode`). Control characters without an escape of their own are written by number
and come back as sixteen-bit units, so characters are first matched with the pieces they are read
as (`Json.pieces_encodeChar`), and the pieces then with what they spell (`Json.spell?_cons`). No
control character is half of a surrogate pair, so its unit stands for itself.
-/

/-- The characters with an escape of one letter. -/
def hasLetter (c : Char) : Bool :=
  c = '"' || c = '\\' || c = '\x08' || c = '\x0c' || c = '\n' || c = '\r' || c = '\t'

/-- What a written character is read as. -/
def pieceOf (c : Char) : Piece := if hasLetter c || 32 ≤ c.toNat then .char c else .unit c.toNat

/-! ### Characters -/

theorem unit?_hexDigit {n : Nat} (hn : n < 32) :
    unit? '0' '0' (hexDigit (n / 16)) (hexDigit (n % 16)) = some n := by
  have hall : ∀ n : Fin 32,
      unit? '0' '0' (hexDigit (n / 16)) (hexDigit (n % 16)) = some n.val := by decide
  exact hall ⟨n, hn⟩

theorem pieces_escape {e c : Char} (he : escapeTarget? e = some c) (rest : List Char) :
    pieces ('\\' :: e :: rest) = (pieces rest).map fun x => (.char c :: x.1, x.2) := by
  have hne : e ≠ 'u' := by
    rintro rfl
    cases he
  rw [pieces]
  · rw [he]
    cases pieces rest <;> rfl
  · intro a b c d rest' heq
    exact absurd heq hne

theorem pieces_unit {a b c d : Char} {u : Nat} (hu : unit? a b c d = some u) (rest : List Char) :
    pieces ('\\' :: 'u' :: a :: b :: c :: d :: rest) =
      (pieces rest).map fun x => (.unit u :: x.1, x.2) := by
  rw [pieces, hu]
  cases pieces rest <;> rfl

theorem pieces_plain {c : Char} (hquote : c ≠ '"') (hescape : c ≠ '\\') (hlow : 32 ≤ c.toNat)
    (rest : List Char) : pieces (c :: rest) = (pieces rest).map fun x => (.char c :: x.1, x.2) := by
  have hread : (decide (c.toNat < 32) || decide (c = '\\')) = false := by
    simp [hescape, Nat.not_lt.mpr hlow]
  rw [pieces]
  · rw [hread]
    cases pieces rest <;> rfl
  all_goals simp_all

/-- A written character is read as its piece. -/
theorem pieces_encodeChar (c : Char) (rest : List Char) :
    pieces (encodeChar c ++ rest) = (pieces rest).map fun x => (pieceOf c :: x.1, x.2) := by
  by_cases hletter : hasLetter c = true
  · have hpiece : pieceOf c = .char c := by
      rw [pieceOf, hletter]
      rfl
    rw [hpiece]
    simp only [hasLetter, Bool.or_eq_true, decide_eq_true_eq] at hletter
    rcases hletter with (((((rfl | rfl) | rfl) | rfl) | rfl) | rfl) | rfl
    all_goals exact pieces_escape rfl rest
  · have hletter := Bool.not_eq_true _ ▸ hletter
    have hplain := hletter
    simp only [hasLetter, Bool.or_eq_false_iff, decide_eq_false_iff_not] at hplain
    obtain ⟨⟨⟨⟨⟨⟨h1, h2⟩, h3⟩, h4⟩, h5⟩, h6⟩, h7⟩ := hplain
    rw [encodeChar, if_neg h1, if_neg h2, if_neg h3, if_neg h4, if_neg h5, if_neg h6, if_neg h7]
    split
    · rename_i hlow
      have hpiece : pieceOf c = .unit c.toNat := by
        rw [pieceOf, hletter]
        simp [Nat.not_le.mpr hlow]
      rw [hpiece]
      exact pieces_unit (unit?_hexDigit hlow) rest
    · rename_i hlow
      have hpiece : pieceOf c = .char c := by
        rw [pieceOf]
        simp [Nat.le_of_not_lt hlow]
      rw [hpiece]
      exact pieces_plain h1 h2 (Nat.le_of_not_lt hlow) rest

/-! ### Strings -/

theorem pieces_encode (cs rest : List Char) :
    pieces (encode cs ++ '"' :: rest) = some (cs.map pieceOf, rest) := by
  induction cs with
  | nil => rfl
  | cons c cs ih =>
      rw [encode, List.append_assoc, pieces_encodeChar, ih]
      rfl

/-- A piece spells its character, whatever follows. -/
theorem spell?_cons (c : Char) (ps : List Piece) :
    spell? (pieceOf c :: ps) = (spell? ps).map (c :: ·) := by
  unfold pieceOf
  split
  · rfl
  · rename_i hunit
    have hlow : c.toNat < 32 := by
      simp only [Bool.or_eq_true, decide_eq_true_eq, not_or] at hunit
      exact Nat.lt_of_not_le hunit.2
    have hsurrogate : isHighSurrogate c.toNat = false ∧ isLowSurrogate c.toNat = false := by
      simp only [isHighSurrogate, isLowSurrogate, Bool.and_eq_false_iff, decide_eq_false_iff_not]
      omega
    cases ps with
    | nil => simp [spell?, hsurrogate, Char.ofNat_toNat]
    | cons p ps =>
        cases p with
        | char d =>
            simp only [spell?, hsurrogate, Bool.or_self, Bool.false_eq_true, if_false,
              Char.ofNat_toNat, Option.map_map]
            rfl
        | unit v => simp [spell?, hsurrogate, Char.ofNat_toNat]

theorem spell?_pieces (cs : List Char) : spell? (cs.map pieceOf) = some cs := by
  induction cs with
  | nil => rfl
  | cons c cs ih =>
      rw [List.map_cons, spell?_cons, ih]
      rfl

/-- **What is written between quotes is read back.** -/
theorem decode_encode (cs rest : List Char) :
    decode (encode cs ++ '"' :: rest) = some (some cs, rest) := by
  simp only [decode, pieces_encode, Option.map_some, spell?_pieces]

end SolverPortfolio.Json

namespace SolverPortfolio

/-!
## Numerals read back

A numeral without superfluous zeros in front (`Decimal.Numeral.IsProper`) is read back from the
characters it is written with, as long as what follows cannot go on with it
(`Json.readNumeral_chars`). Whole numbers and doubles are written as such numerals
(`Decimal.Numeral.isProper_ofNat`, `Decimal.Layout.isProper_numeral`), and a whole number of 64
bits is read as itself (`Json.number?_ofNat`). Which double a numeral stands for is another
matter, as the reader of doubles can be off by the last bit.
-/

namespace Decimal

/-! ### Digits -/

theorem lt_of_mem_digits {n d : Nat} (hd : d ∈ digits n) : d < 10 := by
  induction n using Nat.strongRecOn with
  | _ n ih =>
    rw [digits] at hd
    split at hd
    · rw [List.mem_singleton] at hd
      omega
    · rcases List.mem_append.mp hd with hd | hd
      · exact ih (n / 10) (by omega) hd
      · rw [List.mem_singleton] at hd
        omega

/-- The first digit is not zero, but for zero itself. -/
theorem exists_digits_eq {n : Nat} (hn : n ≠ 0) : ∃ d ds, digits n = d :: ds ∧ d ≠ 0 := by
  induction n using Nat.strongRecOn with
  | _ n ih =>
    rw [digits]
    split
    · exact ⟨n, [], rfl, hn⟩
    · obtain ⟨d, ds, heq, hd⟩ := ih (n / 10) (by omega) (by omega)
      exact ⟨d, ds ++ [n % 10], by rw [heq]; rfl, hd⟩

theorem digits_zero : digits 0 = [0] := by
  rw [digits]
  rfl

theorem digitOf?_digitChar {d : Nat} (hd : d < 10) : digitOf? (digitChar d) = some d := by
  have hall : ∀ d : Fin 10, digitOf? (digitChar d) = some d.val := by decide
  exact hall ⟨d, hd⟩

/-- What follows cannot go on with a numeral. -/
def EndsNumeral (rest : List Char) : Prop :=
  ∀ c ∈ rest.head?, isDigit c = false ∧ c ≠ '.' ∧ c ≠ 'e' ∧ c ≠ 'E'

theorem spanDigits_digitChars {ds : List Nat} (hds : ∀ d ∈ ds, d < 10) {rest : List Char}
    (hrest : ∀ c ∈ rest.head?, isDigit c = false) :
    spanDigits (digitChars ds ++ rest) = (ds, rest) := by
  induction ds with
  | nil =>
      cases rest with
      | nil => rfl
      | cons c cs =>
          have hnone : digitOf? c = none := by
            simpa [isDigit] using hrest c rfl
          show spanDigits (c :: cs) = _
          rw [spanDigits, hnone]
  | cons d ds ih =>
      rw [List.forall_mem_cons] at hds
      show spanDigits (digitChar d :: (digitChars ds ++ rest)) = _
      rw [spanDigits, digitOf?_digitChar hds.1, ih hds.2]

namespace Numeral

/-- Digits on both sides are digits, and there is no zero in front of others. -/
structure IsProper (n : Numeral) : Prop where
  whole_ne : n.whole ≠ []
  whole_lt : ∀ d ∈ n.whole, d < 10
  fraction_lt : ∀ d ∈ n.fraction, d < 10
  leading : ∀ ds, n.whole = 0 :: ds → ds = []

theorem isProper_ofNat (n : Nat) : (ofNat n).IsProper where
  whole_ne := digits_ne_nil n
  whole_lt _ := lt_of_mem_digits
  fraction_lt := nofun
  leading := by
    intro ds heq
    by_cases hn : n = 0
    · subst hn
      rw [ofNat, digits_zero] at heq
      exact (List.cons.inj heq).2.symm
    · obtain ⟨d, ds', hdigits, hd⟩ := exists_digits_eq hn
      rw [ofNat, hdigits] at heq
      exact absurd (List.cons.inj heq).1 hd

end Numeral

/-- Every layout writes a proper numeral. -/
theorem Layout.isProper_numeral (l : Layout) (x : BinaryFraction) : (l.numeral x).IsProper := by
  simp only [numeral]
  generalize (shortest l.tie x).1 = d
  generalize (shortest l.tie x).2 = e
  have hlt : ∀ c ∈ digits d, c < 10 := fun _ => lt_of_mem_digits
  have hzeros : ∀ n : Nat, ∀ c ∈ List.replicate n 0, c < 10 := by
    intro n c hc
    rw [(List.mem_replicate.mp hc).2]
    decide
  by_cases hzero : d = 0
  · -- Zero has one digit, which stands alone or behind the point.
    subst hzero
    rw [digits_zero]
    simp only [decide_true, Bool.true_or, if_true, List.append_nil]
    split
    · refine ⟨List.cons_ne_nil _ _, by simp, ?_, fun ds heq => (List.cons.inj heq).2.symm⟩
      split <;> simp
    · split
      · refine ⟨by simp, by simp, by simp, fun ds heq => ?_⟩
        simpa using heq.symm
      · refine ⟨List.cons_ne_nil _ _, by simp, ?_, fun ds heq => (List.cons.inj heq).2.symm⟩
        intro c hc
        rcases List.mem_append.mp hc with hc | hc
        · exact hzeros _ c hc
        · simp only [List.mem_singleton] at hc
          omega
  · obtain ⟨first, others, hdigits, hfirst⟩ := exists_digits_eq hzero
    have hleading : ∀ (front : List Nat) (ds : List Nat), first :: front = 0 :: ds → ds = [] :=
      fun _ _ heq => absurd (List.cons.inj heq).1 hfirst
    rw [hdigits] at hlt ⊢
    split
    · split
      · refine ⟨List.cons_ne_nil _ _, ?_, ?_, hleading _⟩
        · intro c hc
          rcases List.mem_append.mp hc with hc | hc
          · exact hlt c hc
          · exact hzeros _ c hc
        · split <;> simp
      · split
        · refine ⟨List.cons_ne_nil _ _, fun c hc => hlt c (List.mem_of_mem_take hc),
            fun c hc => hlt c (List.mem_of_mem_drop hc), hleading _⟩
        · refine ⟨List.cons_ne_nil _ _, by simp, ?_, fun ds heq => (List.cons.inj heq).2.symm⟩
          intro c hc
          rcases List.mem_append.mp hc with hc | hc
          · exact hzeros _ c hc
          · exact hlt c hc
    · exact ⟨List.cons_ne_nil _ _, fun c hc => hlt c (List.mem_of_mem_take hc),
        fun c hc => hlt c (List.mem_of_mem_drop hc), hleading _⟩

end Decimal

namespace Json

open Decimal

/-! ### Numerals -/

theorem readDigits_digitChars {ds : List Nat} (hne : ds ≠ []) (hds : ∀ d ∈ ds, d < 10)
    {rest : List Char} (hrest : ∀ c ∈ rest.head?, isDigit c = false) :
    readDigits (digitChars ds ++ rest) = some (ds, rest) := by
  rw [readDigits, spanDigits_digitChars hds hrest]
  cases ds with
  | nil => exact absurd rfl hne
  | cons d ds => rfl

theorem readWhole_digitChars {n : Numeral} (hn : n.IsProper) {rest : List Char}
    (hrest : ∀ c ∈ rest.head?, isDigit c = false) :
    readWhole (digitChars n.whole ++ rest) = some (n.whole, rest) := by
  rw [readWhole, readDigits_digitChars hn.whole_ne hn.whole_lt hrest]
  split
  · rename_i heq
    have hnil := hn.leading _ (Prod.mk.inj (Option.some.inj heq)).1
    cases hnil
  · rfl

theorem readExponent_of_ends {rest : List Char} (hrest : EndsNumeral rest) :
    readExponent rest = some (none, rest) := by
  cases rest with
  | nil => rfl
  | cons c cs =>
      obtain ⟨-, -, hlower, hupper⟩ := hrest c rfl
      have hexponent : ¬(decide (c = 'e') || decide (c = 'E')) = true := by simp [hlower, hupper]
      exact if_neg hexponent

theorem readExponent_exponentText (e : Int) {rest : List Char} (hrest : EndsNumeral rest) :
    readExponent (Numeral.exponentText true e ++ rest) = some (some e, rest) := by
  have hdigits : ∀ n : Nat, readDigits (digitChars (digits n) ++ rest) = some (digits n, rest) :=
    fun n => readDigits_digitChars (digits_ne_nil n) (fun _ => lt_of_mem_digits)
      fun c hc => (hrest c hc).1
  cases e with
  | ofNat n =>
      show (readDigits (digitChars (digits n) ++ rest)).map _ = _
      simp only [hdigits, Option.map_some, ofDigits_digits]
      rfl
  | negSucc n =>
      show (readDigits (digitChars (digits (n + 1)) ++ rest)).map _ = _
      simp only [hdigits, Option.map_some, ofDigits_digits]
      rfl

/-- The characters of the exponent. -/
def exponentChars (n : Numeral) : List Char :=
  match n.exponent with
  | none => []
  | some e => Numeral.exponentText true e

theorem readExponent_chars (n : Numeral) {rest : List Char} (hrest : EndsNumeral rest) :
    readExponent (exponentChars n ++ rest) = some (n.exponent, rest) := by
  unfold exponentChars
  cases n.exponent with
  | none => exact readExponent_of_ends hrest
  | some e => exact readExponent_exponentText e hrest

theorem head?_exponentChars (n : Numeral) {rest : List Char} (hrest : EndsNumeral rest) :
    ∀ c ∈ (exponentChars n ++ rest).head?, isDigit c = false ∧ c ≠ '.' := by
  unfold exponentChars
  cases n.exponent with
  | none => exact fun c hc => ⟨(hrest c hc).1, (hrest c hc).2.1⟩
  | some e =>
      intro c hc
      cases e with
      | ofNat k =>
          obtain rfl : 'e' = c := Option.some.inj hc
          decide
      | negSucc k =>
          obtain rfl : 'e' = c := Option.some.inj hc
          decide

/-- The characters of the fraction, with the point. -/
def fractionChars (n : Numeral) : List Char :=
  if n.fraction.isEmpty then [] else '.' :: digitChars n.fraction

theorem readFraction_chars {n : Numeral} (hn : n.IsProper) {rest : List Char}
    (hrest : ∀ c ∈ rest.head?, isDigit c = false ∧ c ≠ '.') :
    readFraction (fractionChars n ++ rest) = some (n.fraction, rest) := by
  unfold fractionChars
  cases hfraction : n.fraction with
  | nil =>
      cases rest with
      | nil => rfl
      | cons c cs =>
          have hpoint := (hrest c rfl).2
          show readFraction (c :: cs) = _
          rw [readFraction]
          intro cs' heq
          exact absurd (List.cons.inj heq).1 hpoint
  | cons d ds =>
      have hlt := hn.fraction_lt
      rw [hfraction] at hlt
      exact readDigits_digitChars (List.cons_ne_nil _ _) hlt fun c hc => (hrest c hc).1

theorem chars_eq (n : Numeral) : n.chars true =
    (if n.negative then ['-'] else []) ++
      (digitChars n.whole ++ (fractionChars n ++ exponentChars n)) := by
  rw [Numeral.chars, List.append_assoc, List.append_assoc]
  rfl

theorem readUnsigned_chars {n : Numeral} (hn : n.IsProper) {rest : List Char}
    (hrest : EndsNumeral rest) : readUnsigned n.negative
      (digitChars n.whole ++ (fractionChars n ++ (exponentChars n ++ rest))) = some (n, rest) := by
  have hexponent := head?_exponentChars n hrest
  have hfraction : ∀ c ∈ (fractionChars n ++ (exponentChars n ++ rest)).head?,
      isDigit c = false := by
    unfold fractionChars
    split
    · exact fun c hc => (hexponent c hc).1
    · intro c hc
      obtain rfl : '.' = c := Option.some.inj hc
      decide
  simp only [readUnsigned, readWhole_digitChars hn hfraction, readFraction_chars hn hexponent,
    readExponent_chars n hrest, Option.bind_eq_bind, Option.bind_some]
  rfl

/-- **A proper numeral is read back.** -/
theorem readNumeral_chars {n : Numeral} (hn : n.IsProper) {rest : List Char}
    (hrest : EndsNumeral rest) : readNumeral (n.chars true ++ rest) = some (n, rest) := by
  have hread := readUnsigned_chars hn hrest
  rw [chars_eq]
  simp only [List.append_assoc]
  cases hsign : n.negative with
  | true =>
      rw [hsign] at hread
      exact hread
  | false =>
      rw [hsign] at hread
      show readNumeral (digitChars n.whole ++ _) = _
      obtain ⟨d, ds, hwhole⟩ := List.exists_cons_of_ne_nil hn.whole_ne
      have hdigit : digitChar d ≠ '-' := by
        have hd := hn.whole_lt d (hwhole ▸ List.mem_cons_self)
        have hall : ∀ d : Fin 10, digitChar d ≠ '-' := by decide
        exact hall ⟨d, hd⟩
      rw [← hread, hwhole]
      show readNumeral (digitChar d :: _) = _
      rw [readNumeral]
      · rfl
      · intro cs heq
        exact absurd (List.cons.inj heq).1 hdigit

/-! ### Whole numbers -/

theorem le_ofDigitsFrom (ds : List Nat) (start : Nat) : start ≤ ofDigitsFrom start ds := by
  induction ds generalizing start with
  | nil => exact Nat.le_refl start
  | cons d ds ih =>
      have hle := ih (10 * start + d)
      show start ≤ ofDigitsFrom (10 * start + d) ds
      omega

/-- A number that fits has all its digits taken. -/
theorem takeDigits_eq {ds : List Nat} {start : Nat} (h : ofDigitsFrom start ds < wordLimit) :
    takeDigits start ds = (ofDigitsFrom start ds, []) := by
  induction ds generalizing start with
  | nil => rfl
  | cons d ds ih =>
      have hle : 10 * start + d ≤ ofDigitsFrom (10 * start + d) ds := le_ofDigitsFrom ds _
      have hfits : 10 * start + d < wordLimit := Nat.lt_of_le_of_lt hle h
      rw [takeDigits, if_pos hfits]
      exact ih h

theorem number?_ofNat {n : Nat} (hn : n < wordLimit) :
    number? (Numeral.ofNat n) = some (.natural n) := by
  have hvalue : ofDigitsFrom 0 (digits n) = n := ofDigits_digits n
  have htake : takeDigits 0 (digits n) = (n, []) := by
    rw [takeDigits_eq (hvalue.symm ▸ hn), hvalue]
  simp only [number?, Numeral.ofNat, htake]
  rfl

end Json

end SolverPortfolio
