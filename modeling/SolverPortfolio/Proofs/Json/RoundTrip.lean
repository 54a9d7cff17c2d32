import SolverPortfolio.Json
import SolverPortfolio.Proofs.Json.Tokens

/-!
# JSON texts read back

A tree of proper numerals that is not nested too deeply (`Json.Writable`) is read back from its
text, whether that is indented (`Json.parse_pretty`) or compact (`Json.parse_compact`). The two
texts differ in blanks only, so the proof is about texts with any blanks in the places between the
parts (`Json.Spacing`).

The proof follows the tree. What is written for a value starts with a character that neither is
blank nor closes an array (`Json.exists_spaced_eq`), so the reader takes the same branch as
the writer, and what follows a value in a text starts with a comma, a blank or a closing bracket,
so a numeral ends where it was meant to. Every call of a reader is one for a part of the text
that was written for a part of the tree, and the fuel of twice the length of the text is enough
for it (`Json.readValue_spaced`).
-/

namespace SolverPortfolio.Json

open Decimal

/-! ## Trees that can be written -/

mutual

/-- Proper numerals, nothing broken, and arrays and objects nested at most `n` deep. -/
def Writable : Nat → Json → Prop
  | _, .null => True
  | _, .bool _ => True
  | _, .number n => n.IsProper
  | _, .string _ => True
  | 0, .array _ => False
  | n + 1, .array items => WritableItems n items
  | 0, .object _ => False
  | n + 1, .object fields => WritableFields n fields
  | _, .broken => False

def WritableItems (n : Nat) : List Json → Prop
  | [] => True
  | x :: xs => Writable n x ∧ WritableItems n xs

def WritableFields (n : Nat) : List (String × Json) → Prop
  | [] => True
  | (_, v) :: fs => Writable n v ∧ WritableFields n fs

end

mutual

/-- Nothing is cut off. -/
theorem cut_of_writable : ∀ {n : Nat} {j : Json}, Writable n j → cut n j = j
  | n, .null, _ => by cases n <;> simp [cut]
  | n, .bool _, _ => by cases n <;> simp [cut]
  | n, .number _, _ => by cases n <;> simp [cut]
  | n, .string _, _ => by cases n <;> simp [cut]
  | n + 1, .array items, h => by
      rw [cut, cutItems_of_writable (by simpa only [Writable] using h)]
  | n + 1, .object fields, h => by
      rw [cut, cutFields_of_writable (by simpa only [Writable] using h)]

theorem cutItems_of_writable {n : Nat} :
    ∀ {items : List Json}, WritableItems n items → cutItems n items = items
  | [], _ => rfl
  | x :: xs, h => by
      rw [cutItems, cut_of_writable h.1, cutItems_of_writable h.2]

theorem cutFields_of_writable {n : Nat} :
    ∀ {fields : List (String × Json)}, WritableFields n fields → cutFields n fields = fields
  | [], _ => rfl
  | (k, v) :: fs, h => by
      rw [cutFields, cut_of_writable h.1, cutFields_of_writable h.2]

end

/-! ## Blanks -/

theorem skipBlanks_append {blanks : List Char} (h : ∀ c ∈ blanks, isBlank c = true)
    (cs : List Char) : skipBlanks (blanks ++ cs) = skipBlanks cs := by
  induction blanks with
  | nil => rfl
  | cons c blanks ih =>
      rw [List.forall_mem_cons] at h
      rw [List.cons_append, skipBlanks, h.1]
      exact ih h.2

theorem skipBlanks_cons {c : Char} (hc : isBlank c = false) (cs : List Char) :
    skipBlanks (c :: cs) = c :: cs := by
  rw [skipBlanks, hc]
  rfl

theorem endsNumeral_cons {c : Char} (hc : isDigit c = false ∧ c ≠ '.' ∧ c ≠ 'e' ∧ c ≠ 'E')
    (cs : List Char) : EndsNumeral (c :: cs) := by
  intro d hd
  obtain rfl : c = d := Option.some.inj hd
  exact hc

theorem endsNumeral_append {blanks cs : List Char} (h : ∀ c ∈ blanks, isBlank c = true)
    (hcs : EndsNumeral cs) : EndsNumeral (blanks ++ cs) := by
  cases blanks with
  | nil => exact hcs
  | cons c blanks =>
      have hc := h c (List.mem_cons_self ..)
      simp only [isBlank, Bool.or_eq_true, decide_eq_true_eq] at hc
      rcases hc with ((rfl | rfl) | rfl) | rfl
      all_goals exact endsNumeral_cons (by decide) _

/-- The blanks of a text: what stands before the parts of a value and before its closing bracket,
by nesting depth, and what stands after a colon. -/
structure Spacing where
  line : Nat → List Char
  colon : List Char
  line_blank : ∀ depth, ∀ c ∈ line depth, isBlank c = true
  colon_blank : ∀ c ∈ colon, isBlank c = true

namespace Spacing

def none : Spacing := ⟨fun _ => [], [], nofun, nofun⟩

def indented : Spacing where
  line := newline
  colon := [' ']
  line_blank depth c hc := by
    rcases List.mem_cons.mp hc with rfl | hc
    · rfl
    · rw [(List.mem_replicate.mp hc).2]
      rfl
  colon_blank := List.forall_mem_singleton.mpr rfl

end Spacing

/-! ## Texts with blanks -/

mutual

def spaced (sp : Spacing) (depth : Nat) : Json → List Char
  | .null => ['n', 'u', 'l', 'l']
  | .bool b => boolChars b
  | .number n => n.chars true
  | .string s => quotedChars s
  | .broken => ['n', 'u', 'l', 'l']
  | .array [] => ['[', ']']
  | .array (x :: xs) =>
    '[' :: (sp.line (depth + 1) ++ (spaced sp (depth + 1) x ++ spacedItems sp depth xs))
  | .object [] => ['\x7b', '\x7d']
  | .object ((k, v) :: fs) =>
    '\x7b' :: (sp.line (depth + 1) ++ (quotedChars k ++ ':' :: (sp.colon ++
      (spaced sp (depth + 1) v ++ spacedFields sp depth fs))))

def spacedItems (sp : Spacing) (depth : Nat) : List Json → List Char
  | [] => sp.line depth ++ [']']
  | x :: xs =>
    ',' :: (sp.line (depth + 1) ++ (spaced sp (depth + 1) x ++ spacedItems sp depth xs))

def spacedFields (sp : Spacing) (depth : Nat) : List (String × Json) → List Char
  | [] => sp.line depth ++ ['\x7d']
  | (k, v) :: fs =>
    ',' :: (sp.line (depth + 1) ++ (quotedChars k ++ ':' :: (sp.colon ++
      (spaced sp (depth + 1) v ++ spacedFields sp depth fs))))

end

mutual

theorem prettyChars_eq : ∀ (depth : Nat) (j : Json), prettyChars depth j = spaced .indented depth j
  | _, .null => by rw [prettyChars, spaced]
  | _, .bool _ => by rw [prettyChars, spaced]
  | _, .number _ => by rw [prettyChars, spaced]
  | _, .string _ => by rw [prettyChars, spaced]
  | _, .broken => by rw [prettyChars, spaced]
  | _, .array [] => by rw [prettyChars, spaced]
  | depth, .array (x :: xs) => by
      rw [prettyChars, spaced, prettyChars_eq (depth + 1) x, prettyItems_eq depth xs]
      rfl
  | _, .object [] => by rw [prettyChars, spaced]
  | depth, .object ((k, v) :: fs) => by
      rw [prettyChars, spaced, prettyChars_eq (depth + 1) v, prettyFields_eq depth fs]
      rfl

theorem prettyItems_eq : ∀ (depth : Nat) (xs : List Json),
    prettyItems depth xs = spacedItems .indented depth xs
  | _, [] => by rw [prettyItems, spacedItems]; rfl
  | depth, x :: xs => by
      rw [prettyItems, spacedItems, prettyChars_eq (depth + 1) x, prettyItems_eq depth xs]
      rfl

theorem prettyFields_eq : ∀ (depth : Nat) (fs : List (String × Json)),
    prettyFields depth fs = spacedFields .indented depth fs
  | _, [] => by rw [prettyFields, spacedFields]; rfl
  | depth, (k, v) :: fs => by
      rw [prettyFields, spacedFields, prettyChars_eq (depth + 1) v, prettyFields_eq depth fs]
      rfl

end

mutual

theorem compactChars_eq : ∀ (depth : Nat) (j : Json), compactChars j = spaced .none depth j
  | _, .null => by rw [compactChars, spaced]
  | _, .bool _ => by rw [compactChars, spaced]
  | _, .number _ => by rw [compactChars, spaced]
  | _, .string _ => by rw [compactChars, spaced]
  | _, .broken => by rw [compactChars, spaced]
  | _, .array [] => by rw [compactChars, spaced]
  | depth, .array (x :: xs) => by
      rw [compactChars, spaced, compactChars_eq (depth + 1) x, compactItems_eq depth xs]
      rfl
  | _, .object [] => by rw [compactChars, spaced]
  | depth, .object ((k, v) :: fs) => by
      rw [compactChars, spaced, compactChars_eq (depth + 1) v, compactFields_eq depth fs]
      rfl

theorem compactItems_eq : ∀ (depth : Nat) (xs : List Json),
    compactItems xs = spacedItems .none depth xs
  | _, [] => by rw [compactItems, spacedItems]; rfl
  | depth, x :: xs => by
      rw [compactItems, spacedItems, compactChars_eq (depth + 1) x, compactItems_eq depth xs]
      rfl

theorem compactFields_eq : ∀ (depth : Nat) (fs : List (String × Json)),
    compactFields fs = spacedFields .none depth fs
  | _, [] => by rw [compactFields, spacedFields]; rfl
  | depth, (k, v) :: fs => by
      rw [compactFields, spacedFields, compactChars_eq (depth + 1) v, compactFields_eq depth fs]
      rfl

end

variable {sp : Spacing}

/-! ## What a text starts with -/

theorem exists_chars_eq {n : Numeral} (hn : n.IsProper) :
    ∃ c cs, n.chars true = c :: cs ∧ (c = '-' ∨ ∃ d < 10, c = digitChar d) := by
  rw [chars_eq]
  cases n.negative with
  | true => exact ⟨'-', _, rfl, Or.inl rfl⟩
  | false =>
      obtain ⟨d, ds, hwhole⟩ := List.exists_cons_of_ne_nil hn.whole_ne
      rw [hwhole]
      exact ⟨digitChar d, _, rfl, Or.inr ⟨d, hn.whole_lt d (hwhole ▸ List.mem_cons_self), rfl⟩⟩

theorem digitChar_mem {d : Nat} (hd : d < 10) :
    isBlank (digitChar d) = false ∧ digitChar d ≠ ']' := by
  have hall : ∀ d : Fin 10, isBlank (digitChar d) = false ∧ digitChar d ≠ ']' := by decide
  exact hall ⟨d, hd⟩

/-- A value starts with a character that is not blank and closes nothing. -/
theorem exists_spaced_eq {n : Nat} {j : Json} (h : Writable n j) (depth : Nat) :
    ∃ c cs, spaced sp depth j = c :: cs ∧ isBlank c = false ∧ c ≠ ']' := by
  cases j with
  | null => exact ⟨'n', _, by rw [spaced], by decide⟩
  | bool b =>
      cases b with
      | true => exact ⟨'t', _, by rw [spaced]; rfl, by decide⟩
      | false => exact ⟨'f', _, by rw [spaced]; rfl, by decide⟩
  | number m =>
      have hm : m.IsProper := by
        cases n <;> simpa only [Writable] using h
      obtain ⟨c, cs, heq, rfl | ⟨d, hd, rfl⟩⟩ := exists_chars_eq hm
      · exact ⟨'-', cs, by rw [spaced, heq], by decide⟩
      · exact ⟨digitChar d, cs, by rw [spaced, heq], digitChar_mem hd⟩
  | string s => exact ⟨'"', _, by rw [spaced]; rfl, by decide⟩
  | array items =>
      cases items with
      | nil => exact ⟨'[', _, by rw [spaced], by decide⟩
      | cons x xs => exact ⟨'[', _, by rw [spaced], by decide⟩
  | object fields =>
      cases fields with
      | nil => exact ⟨'\x7b', _, by rw [spaced], by decide⟩
      | cons f fs => exact ⟨'\x7b', _, by rw [spaced], by decide⟩
  | broken => cases n <;> simp only [Writable] at h

theorem skipBlanks_spaced {n : Nat} {j : Json} (h : Writable n j) (depth : Nat)
    (rest : List Char) :
    skipBlanks (spaced sp depth j ++ rest) = spaced sp depth j ++ rest := by
  obtain ⟨c, cs, heq, hc, -⟩ := exists_spaced_eq h depth
  rw [heq]
  exact skipBlanks_cons hc _

/-! ## One call of a reader -/

/-- A character that starts a numeral starts nothing else. -/
theorem readValue_numeral {fuel : Nat} {c : Char} {cs cs' : List Char}
    (hc : c = '-' ∨ ∃ d < 10, c = digitChar d) (hcs : skipBlanks cs = c :: cs') :
    readValue (fuel + 1) cs = (readNumeral (c :: cs')).map fun x => (.number x.1, x.2) := by
  have hread : (readNumeral (c :: cs')).map (fun x => (Json.number x.1, x.2)) =
      (readNumeral (c :: cs')).bind fun x => some (.number x.1, x.2) := by
    cases readNumeral (c :: cs') <;> rfl
  rw [hread, readValue, hcs]
  rcases hc with rfl | ⟨d, hd, rfl⟩
  · rfl
  · obtain rfl | rfl | rfl | rfl | rfl | rfl | rfl | rfl | rfl | rfl : d = 0 ∨ d = 1 ∨ d = 2 ∨
        d = 3 ∨ d = 4 ∨ d = 5 ∨ d = 6 ∨ d = 7 ∨ d = 8 ∨ d = 9 := by omega
    all_goals rfl

theorem decode_quoted (s : String) (rest : List Char) :
    decode (encode s.toList ++ ('"' :: rest)) = some (some s.toList, rest) :=
  decode_encode s.toList rest

theorem readValue_chars {fuel : Nat} {m : Numeral} (hm : m.IsProper) {cs rest : List Char}
    (hcs : skipBlanks cs = m.chars true ++ rest) (hrest : EndsNumeral rest) :
    readValue (fuel + 1) cs = some (.number m, rest) := by
  obtain ⟨c, cs', heq, hc⟩ := exists_chars_eq hm
  have hread := readNumeral_chars hm hrest
  rw [heq] at hcs hread
  rw [readValue_numeral hc hcs]
  show (readNumeral ((c :: cs') ++ rest)).map _ = _
  rw [hread]
  rfl

theorem readValue_quoted {fuel : Nat} {s : String} {cs rest : List Char}
    (hcs : skipBlanks cs = quotedChars s ++ rest) :
    readValue (fuel + 1) cs = some (.string s, rest) := by
  rw [quotedChars] at hcs
  simp only [List.cons_append, List.append_assoc, List.nil_append] at hcs
  rw [readValue, hcs]
  simp only [decode_quoted]
  show some (Json.string (String.ofList s.toList), rest) = _
  rw [String.ofList_toList]

/-- The items from one on, once the first of them is read. -/
theorem readItems_cons {fuel : Nat} {cs more rest : List Char} {x : Json} {xs : List Json}
    (hvalue : readValue fuel cs = some (x, ',' :: more))
    (hmore : readItems fuel more = some (xs, rest)) :
    readItems (fuel + 1) cs = some (x :: xs, rest) := by
  rw [readItems, hvalue]
  simp only [Option.bind_eq_bind, Option.bind_some]
  rw [skipBlanks_cons (by decide)]
  show (readItems fuel more).bind _ = _
  rw [hmore]
  rfl

theorem readItems_last {fuel depth : Nat} {cs rest : List Char} {x : Json}
    (hvalue : readValue fuel cs = some (x, spacedItems sp depth [] ++ rest)) :
    readItems (fuel + 1) cs = some ([x], rest) := by
  rw [readItems, hvalue]
  simp only [Option.bind_eq_bind, Option.bind_some]
  rw [spacedItems, List.append_assoc, skipBlanks_append (sp.line_blank depth)]
  rfl

theorem readValue_array {fuel : Nat} {c : Char} {cs more items rest : List Char} {xs : List Json}
    (hcs : skipBlanks cs = '[' :: more) (hmore : skipBlanks more = c :: items) (hclose : c ≠ ']')
    (hitems : readItems fuel (c :: items) = some (xs, rest)) :
    readValue (fuel + 1) cs = some (.array xs, rest) := by
  rw [readValue, hcs]
  simp only [hmore]
  split
  · rename_i heq
    exact absurd (List.cons.inj heq).1 hclose
  · rw [hitems]
    rfl

/-- The name of a field, and what follows it. -/
def named (sp : Spacing) (k : String) (rest : List Char) : List Char :=
  '"' :: (encode k.toList ++ ('"' :: ':' :: (sp.colon ++ rest)))

theorem readFields_cons {fuel : Nat} {k : String} {v : Json} {fs : List (String × Json)}
    {cs value more rest : List Char} (hcs : skipBlanks cs = named sp k value)
    (hvalue : readValue fuel (sp.colon ++ value) = some (v, ',' :: more))
    (hmore : readFields fuel more = some (some fs, rest)) :
    readFields (fuel + 1) cs = some (some ((k, v) :: fs), rest) := by
  rw [readFields, hcs, named]
  simp only [decode_quoted, Option.bind_eq_bind, Option.bind_some]
  rw [skipBlanks_cons (by decide)]
  simp only [hvalue, Option.bind_some]
  rw [skipBlanks_cons (by decide)]
  show (readFields fuel more).bind _ = _
  rw [hmore]
  show some (some ((String.ofList k.toList, v) :: fs), rest) = _
  rw [String.ofList_toList]

theorem readFields_last {fuel depth : Nat} {k : String} {v : Json} {cs value rest : List Char}
    (hcs : skipBlanks cs = named sp k value)
    (hvalue : readValue fuel (sp.colon ++ value) = some (v, spacedFields sp depth [] ++ rest)) :
    readFields (fuel + 1) cs = some (some [(k, v)], rest) := by
  rw [readFields, hcs, named]
  simp only [decode_quoted, Option.bind_eq_bind, Option.bind_some]
  rw [skipBlanks_cons (by decide)]
  simp only [hvalue, Option.bind_some]
  rw [spacedFields, List.append_assoc, skipBlanks_append (sp.line_blank depth)]
  show some (some [(String.ofList k.toList, v)], rest) = _
  rw [String.ofList_toList]

theorem readValue_object {fuel : Nat} {k : String} {cs more value rest : List Char}
    {fs : List (String × Json)} (hcs : skipBlanks cs = '\x7b' :: more)
    (hmore : skipBlanks more = named sp k value)
    (hfields : readFields fuel (named sp k value) = some (some fs, rest)) :
    readValue (fuel + 1) cs = some (.object fs, rest) := by
  rw [readValue, hcs]
  simp only [hmore]
  show (readFields fuel (named sp k value)).bind _ = _
  rw [hfields]
  rfl

/-! ## What is written for the parts -/

theorem spacedItems_length (sp : Spacing) (depth : Nat) (xs : List Json) :
    0 < (spacedItems sp depth xs).length := by
  cases xs <;>
    · rw [spacedItems]
      simp

theorem spacedFields_length (sp : Spacing) (depth : Nat) (fs : List (String × Json)) :
    0 < (spacedFields sp depth fs).length := by
  cases fs <;>
    · rw [spacedFields]
      simp

theorem spacedItems_cons (depth : Nat) (x : Json) (xs : List Json) (rest : List Char) :
    spacedItems sp depth (x :: xs) ++ rest = ',' :: (sp.line (depth + 1) ++
      (spaced sp (depth + 1) x ++ (spacedItems sp depth xs ++ rest))) := by
  rw [spacedItems]
  simp only [List.cons_append, List.append_assoc]

theorem spaced_array (depth : Nat) (x : Json) (xs : List Json) (rest : List Char) :
    spaced sp depth (.array (x :: xs)) ++ rest = '[' :: (sp.line (depth + 1) ++
      (spaced sp (depth + 1) x ++ (spacedItems sp depth xs ++ rest))) := by
  rw [spaced]
  simp only [List.cons_append, List.append_assoc]

theorem spacedFields_cons (depth : Nat) (k : String) (v : Json) (fs : List (String × Json))
    (rest : List Char) :
    spacedFields sp depth ((k, v) :: fs) ++ rest = ',' :: (sp.line (depth + 1) ++
      named sp k (spaced sp (depth + 1) v ++ (spacedFields sp depth fs ++ rest))) := by
  rw [spacedFields, quotedChars, named]
  simp only [List.cons_append, List.append_assoc, List.nil_append]

theorem spaced_object (depth : Nat) (k : String) (v : Json) (fs : List (String × Json))
    (rest : List Char) :
    spaced sp depth (.object ((k, v) :: fs)) ++ rest = '\x7b' :: (sp.line (depth + 1) ++
      named sp k (spaced sp (depth + 1) v ++ (spacedFields sp depth fs ++ rest))) := by
  rw [spaced, quotedChars, named]
  simp only [List.cons_append, List.append_assoc, List.nil_append]

theorem endsNumeral_spacedItems (depth : Nat) (xs : List Json) (rest : List Char) :
    EndsNumeral (spacedItems sp depth xs ++ rest) := by
  cases xs with
  | nil =>
      rw [spacedItems, List.append_assoc]
      exact endsNumeral_append (sp.line_blank depth) (endsNumeral_cons (by decide) _)
  | cons x xs =>
      rw [spacedItems_cons]
      exact endsNumeral_cons (by decide) _

theorem endsNumeral_spacedFields (depth : Nat) (fs : List (String × Json)) (rest : List Char) :
    EndsNumeral (spacedFields sp depth fs ++ rest) := by
  cases fs with
  | nil =>
      rw [spacedFields, List.append_assoc]
      exact endsNumeral_append (sp.line_blank depth) (endsNumeral_cons (by decide) _)
  | cons f fs =>
      rw [spacedFields_cons]
      exact endsNumeral_cons (by decide) _

theorem skipBlanks_named (depth : Nat) (k : String) (rest : List Char) :
    skipBlanks (sp.line depth ++ named sp k rest) = named sp k rest := by
  rw [skipBlanks_append (sp.line_blank depth)]
  exact skipBlanks_cons (by decide) _

theorem skipBlanks_colon {n : Nat} {v : Json} (hv : Writable n v) (depth : Nat)
    (rest : List Char) : skipBlanks (sp.colon ++ (spaced sp (depth + 1) v ++ rest)) =
      spaced sp (depth + 1) v ++ rest := by
  rw [skipBlanks_append sp.colon_blank, skipBlanks_spaced hv]

/-! ## Reading what was written -/

mutual

/-- **A value is read back from its text**, whatever follows. -/
theorem readValue_spaced : ∀ {n : Nat} {j : Json}, Writable n j → ∀ {depth fuel : Nat}
    {cs rest : List Char}, skipBlanks cs = spaced sp depth j ++ rest → EndsNumeral rest →
      2 * (spaced sp depth j).length ≤ fuel → readValue fuel cs = some (j, rest)
  | n, .null, _, depth, fuel + 1, cs, rest, hcs, _, _ => by
      rw [spaced] at hcs
      rw [readValue, hcs]
      rfl
  | n, .bool b, _, depth, fuel + 1, cs, rest, hcs, _, _ => by
      rw [spaced] at hcs
      rw [readValue, hcs]
      cases b <;> rfl
  | n, .number m, h, depth, fuel + 1, cs, rest, hcs, hrest, _ => by
      have hm : m.IsProper := by
        cases n <;> simpa only [Writable] using h
      rw [spaced] at hcs
      exact readValue_chars hm hcs hrest
  | n, .string s, _, depth, fuel + 1, cs, rest, hcs, _, _ => by
      rw [spaced] at hcs
      exact readValue_quoted hcs
  | n, .array [], _, depth, fuel + 1, cs, rest, hcs, _, _ => by
      rw [spaced] at hcs
      rw [readValue, hcs]
      rfl
  | n + 1, .array (x :: xs), h, depth, fuel + 1, cs, rest, hcs, hrest, hfuel => by
      rw [Writable, WritableItems] at h
      rw [spaced_array] at hcs
      rw [spaced, List.length_cons, List.length_append, List.length_append] at hfuel
      obtain ⟨c, front, heq, hblank, hclose⟩ := exists_spaced_eq h.1 (depth + 1)
      have hskip : skipBlanks (sp.line (depth + 1) ++
          (spaced sp (depth + 1) x ++ (spacedItems sp depth xs ++ rest))) =
            c :: (front ++ (spacedItems sp depth xs ++ rest)) := by
        rw [skipBlanks_append (sp.line_blank _), heq]
        exact skipBlanks_cons hblank _
      have hstart : skipBlanks (c :: (front ++ (spacedItems sp depth xs ++ rest))) =
          spaced sp (depth + 1) x ++ (spacedItems sp depth xs ++ rest) := by
        rw [skipBlanks_cons hblank, heq]
        rfl
      exact readValue_array hcs hskip hclose (readItems_spaced h.1 h.2 hstart hrest (by omega))
  | n, .object [], _, depth, fuel + 1, cs, rest, hcs, _, _ => by
      rw [spaced] at hcs
      rw [readValue, hcs]
      rfl
  | n + 1, .object ((k, v) :: fs), h, depth, fuel + 1, cs, rest, hcs, hrest, hfuel => by
      rw [Writable, WritableFields] at h
      rw [spaced_object] at hcs
      rw [spaced] at hfuel
      simp only [List.length_cons, List.length_append] at hfuel
      exact readValue_object hcs (skipBlanks_named _ _ _)
        (readFields_spaced h.1 h.2 (skipBlanks_cons (by decide) _) hrest (by omega))
  | 0, .array (x :: xs), h, _, _, _, _, _, _, _ => by simp only [Writable] at h
  | 0, .object (f :: fs), h, _, _, _, _, _, _, _ => by simp only [Writable] at h
  | n, .broken, h, _, _, _, _, _, _, _ => by cases n <;> simp only [Writable] at h
  | n, j, h, depth, 0, _, _, _, _, hfuel => by
      obtain ⟨c, cs, heq, -, -⟩ := exists_spaced_eq h depth
      rw [heq, List.length_cons] at hfuel
      omega
termination_by structural _ _ _ _ fuel => fuel

theorem readItems_spaced : ∀ {n : Nat} {x : Json} {xs : List Json}, Writable n x →
    WritableItems n xs → ∀ {depth fuel : Nat} {cs rest : List Char},
      skipBlanks cs = spaced sp (depth + 1) x ++ (spacedItems sp depth xs ++ rest) →
        EndsNumeral rest →
          2 * ((spaced sp (depth + 1) x).length + (spacedItems sp depth xs).length) ≤ fuel →
            readItems fuel cs = some (x :: xs, rest)
  | n, x, xs, hx, hxs, depth, 0, _, _, _, _, hfuel => by
      have hlength := spacedItems_length sp depth xs
      omega
  | n, x, [], hx, _, depth, fuel + 1, cs, rest, hcs, hrest, hfuel => by
      have hlength := spacedItems_length sp depth []
      exact readItems_last
        (readValue_spaced hx hcs (endsNumeral_spacedItems depth [] rest) (by omega))
  | n, x, y :: ys, hx, hxs, depth, fuel + 1, cs, rest, hcs, hrest, hfuel => by
      rw [WritableItems] at hxs
      have hlength := spacedItems_length sp depth (y :: ys)
      have hvalue : readValue fuel cs = some (x, spacedItems sp depth (y :: ys) ++ rest) :=
        readValue_spaced hx hcs (endsNumeral_spacedItems depth (y :: ys) rest) (by omega)
      rw [spacedItems_cons] at hvalue
      rw [spacedItems, List.length_cons, List.length_append, List.length_append] at hfuel
      have hstart : skipBlanks (sp.line (depth + 1) ++
          (spaced sp (depth + 1) y ++ (spacedItems sp depth ys ++ rest))) =
            spaced sp (depth + 1) y ++ (spacedItems sp depth ys ++ rest) := by
        rw [skipBlanks_append (sp.line_blank _), skipBlanks_spaced hxs.1]
      exact readItems_cons hvalue (readItems_spaced hxs.1 hxs.2 hstart hrest (by omega))
termination_by structural _ _ _ _ _ _ fuel => fuel

theorem readFields_spaced : ∀ {n : Nat} {k : String} {v : Json} {fs : List (String × Json)},
    Writable n v → WritableFields n fs → ∀ {depth fuel : Nat} {cs rest : List Char},
      skipBlanks cs = named sp k (spaced sp (depth + 1) v ++ (spacedFields sp depth fs ++ rest)) →
        EndsNumeral rest →
          2 * ((spaced sp (depth + 1) v).length + (spacedFields sp depth fs).length) ≤ fuel →
            readFields fuel cs = some (some ((k, v) :: fs), rest)
  | n, k, v, fs, hv, hfs, depth, 0, _, _, _, _, hfuel => by
      have hlength := spacedFields_length sp depth fs
      omega
  | n, k, v, [], hv, _, depth, fuel + 1, cs, rest, hcs, hrest, hfuel => by
      have hlength := spacedFields_length sp depth []
      exact readFields_last hcs (readValue_spaced hv (skipBlanks_colon hv depth _)
        (endsNumeral_spacedFields depth [] rest) (by omega))
  | n, k, v, (k', v') :: fs, hv, hfs, depth, fuel + 1, cs, rest, hcs, hrest, hfuel => by
      rw [WritableFields] at hfs
      have hlength := spacedFields_length sp depth ((k', v') :: fs)
      have hvalue : readValue fuel (sp.colon ++ (spaced sp (depth + 1) v ++
          (spacedFields sp depth ((k', v') :: fs) ++ rest))) =
            some (v, spacedFields sp depth ((k', v') :: fs) ++ rest) :=
        readValue_spaced hv (skipBlanks_colon hv depth _)
          (endsNumeral_spacedFields depth _ rest) (by omega)
      rw [spacedFields_cons] at hvalue
      rw [spacedFields_cons] at hcs
      rw [spacedFields] at hfuel
      simp only [List.length_cons, List.length_append] at hfuel
      exact readFields_cons hcs hvalue
        (readFields_spaced hfs.1 hfs.2 (skipBlanks_named _ _ _) hrest (by omega))
termination_by structural _ _ _ _ _ _ _ fuel => fuel

end

theorem parse_spaced {j : Json} (h : Writable depthLimit j) (sp : Spacing) :
    parse (String.ofList (spaced sp 0 j)) = some j := by
  have hread : readValue (2 * (spaced sp 0 j).length + 2) (spaced sp 0 j) = some (j, []) := by
    have hstart : skipBlanks (spaced sp 0 j ++ []) = spaced sp 0 j ++ [] :=
      skipBlanks_spaced h 0 []
    rw [List.append_nil] at hstart
    refine readValue_spaced h (hstart.trans (List.append_nil _).symm) nofun ?_
    omega
  rw [parse, String.toList_ofList, parseChars, hread]
  exact congrArg some (cut_of_writable h)

/-- **A tree is read back from its text.** -/
theorem parse_pretty {j : Json} (h : Writable depthLimit j) : parse j.pretty = some j := by
  rw [pretty, prettyChars_eq]
  exact parse_spaced h .indented

theorem parse_compact {j : Json} (h : Writable depthLimit j) : parse j.compact = some j := by
  rw [compact, compactChars_eq 0]
  exact parse_spaced h .none

end SolverPortfolio.Json
