import Mathlib.Data.List.Basic
import SolverPortfolio.Proofs.Text.Replace
import SolverPortfolio.Text

/-!
# Searching lines

A text as its lines, and patterns that see one line at a time.
-/

namespace SolverPortfolio.Text

/-!
## Lines and words

A text is its lines with line feeds between them (`Text.unlines_lines`, `Text.lines_unlines`). Seen
from its first line, it goes on by the further lines, each behind a line feed (`Text.furtherLines`).
Words are what blanks part: everything about them follows from one equation
(`Text.words_append_blank`).
-/

/-! ### Lines -/

def lines (text : String) : List (List Char) := text.toList.splitOn '\n'

def unlines (ls : List (List Char)) : String := String.ofList (['\n'].intercalate ls)

/-- What follows a line. -/
def furtherLines (ls : List (List Char)) : List Char := ls.flatMap ('\n' :: ·)

def isBlankLine (line : List Char) : Bool := line.all isBlank

theorem furtherLines_cons (l : List Char) (ls : List (List Char)) :
    furtherLines (l :: ls) = '\n' :: (l ++ furtherLines ls) := rfl

theorem intercalate_eq (l : List Char) (ls : List (List Char)) :
    ['\n'].intercalate (l :: ls) = l ++ furtherLines ls := by
  induction ls generalizing l with
  | nil => rw [List.intercalate_singleton, furtherLines, List.flatMap_nil, List.append_nil]
  | cons l' ls ih =>
      rw [List.intercalate_cons_cons, ih, furtherLines_cons, List.append_assoc]
      rfl

theorem lineFeed_notMem_of_mem_splitOn {cs l : List Char} (h : l ∈ cs.splitOn '\n') : '\n' ∉ l := by
  induction cs generalizing l with
  | nil =>
      rw [List.splitOn_nil, List.mem_singleton] at h
      exact h ▸ List.not_mem_nil
  | cons c cs ih =>
      rw [List.splitOn_cons_eq_if_modifyHead] at h
      obtain ⟨first, rest, hsplit⟩ := List.exists_cons_of_ne_nil (List.splitOn_ne_nil '\n' cs)
      rw [hsplit] at h ih
      split at h
      · rcases List.mem_cons.mp h with rfl | h
        · exact List.not_mem_nil
        · exact ih h
      · rename_i hne
        rw [List.modifyHead_cons] at h
        rcases List.mem_cons.mp h with rfl | h
        · rw [List.mem_cons, not_or]
          exact ⟨fun heq => hne (beq_iff_eq.mpr heq.symm), ih List.mem_cons_self⟩
        · exact ih (List.mem_cons_of_mem _ h)

theorem lines_ne_nil (text : String) : lines text ≠ [] := List.splitOn_ne_nil _ _

theorem unlines_lines (text : String) : unlines (lines text) = text := by
  rw [unlines, lines, List.intercalate_splitOn, String.ofList_toList]

theorem lines_unlines {ls : List (List Char)} (h : ∀ l ∈ ls, '\n' ∉ l) (hne : ls ≠ []) :
    lines (unlines ls) = ls := by
  rw [lines, unlines, String.toList_ofList, List.splitOn_intercalate _ h hne]

/-- What follows a line begins with no other character than a line feed. -/
theorem eq_lineFeed_of_furtherLines_eq {ls : List (List Char)} {c : Char} {cs : List Char}
    (h : furtherLines ls = c :: cs) : c = '\n' := by
  cases ls with
  | nil => cases h
  | cons l ls => exact (List.cons.inj h).1.symm

/-- A phrase does not go on behind a line. -/
theorem after?_append_furtherLines {phrase : List Char} (h : '\n' ∉ phrase) (l : List Char)
    (ls : List (List Char)) :
    after? phrase (l ++ furtherLines ls) = (after? phrase l).map (· ++ furtherLines ls) := by
  induction phrase generalizing l with
  | nil => rfl
  | cons p phrase ih =>
      rw [List.mem_cons, not_or] at h
      cases l with
      | nil =>
          cases hfurther : furtherLines ls with
          | nil => rfl
          | cons c cs =>
              have hne : p ≠ c := fun heq =>
                h.1 ((eq_lineFeed_of_furtherLines_eq hfurther).symm.trans heq.symm)
              exact if_neg hne
      | cons c l =>
          rw [List.cons_append, after?, after?, ih h.2]
          split <;> rfl

/-! ### Words -/

theorem wordsAfter_append_blank {c : Char} (h : isBlank c = true) (word xs ys : List Char) :
    wordsAfter word (xs ++ c :: ys) = wordsAfter word xs ++ words ys := by
  induction xs generalizing word with
  | nil =>
      rw [List.nil_append, wordsAfter, wordsAfter, if_pos h]
      split <;> rfl
  | cons x xs ih =>
      rw [List.cons_append, wordsAfter, wordsAfter, ih, ih]
      split
      · split <;> rfl
      · rfl

/-- A blank parts words. -/
theorem words_append_blank {c : Char} (h : isBlank c = true) (xs ys : List Char) :
    words (xs ++ c :: ys) = words xs ++ words ys := wordsAfter_append_blank h [] xs ys

theorem words_blanks_append {xs : List Char} (h : ∀ c ∈ xs, isBlank c = true) (ys : List Char) :
    words (xs ++ ys) = words ys := by
  induction xs with
  | nil => rfl
  | cons x xs ih =>
      rw [List.forall_mem_cons] at h
      exact (words_append_blank h.1 [] (xs ++ ys)).trans (ih h.2)

theorem words_append_blanks {ys : List Char} (h : ∀ c ∈ ys, isBlank c = true) (xs : List Char) :
    words (xs ++ ys) = words xs := by
  cases ys with
  | nil => rw [List.append_nil]
  | cons y ys =>
      rw [List.forall_mem_cons] at h
      have hys : words ys = [] := by
        have hwords := words_blanks_append h.2 []
        rwa [List.append_nil] at hwords
      rw [words_append_blank h.1, hys, List.append_nil]

/-- A text without the blanks at its end. -/
def trimEnd : List Char → List Char
  | [] => []
  | c :: cs => if isBlankLine (c :: cs) then [] else c :: trimEnd cs

theorem words_trimEnd (cs : List Char) : words (trimEnd cs) = words cs := by
  have hblanks : ∃ blanks, isBlankLine blanks = true ∧ cs = trimEnd cs ++ blanks := by
    induction cs with
    | nil => exact ⟨[], rfl, rfl⟩
    | cons c cs ih =>
        rw [trimEnd]
        split
        · rename_i h
          exact ⟨c :: cs, h, rfl⟩
        · obtain ⟨blanks, hblanks, heq⟩ := ih
          exact ⟨blanks, hblanks, congrArg (c :: ·) heq⟩
  obtain ⟨blanks, hblanks, heq⟩ := hblanks
  have hwords := words_append_blanks (List.all_eq_true.mp hblanks) (trimEnd cs)
  rw [← heq] at hwords
  exact hwords.symm

end SolverPortfolio.Text

namespace SolverPortfolio.Text.Pattern

/-!
## Patterns that read lines

A pattern reads lines if what it finds at the beginning of a line depends on that line alone,
whatever lines follow, and if it takes no more than that line and the blank lines that come next
(`Text.Pattern.Reads`). Blanks up to the end of a line are such a pattern, although a line feed is a
blank (`Text.Pattern.Reads.blanks`), and so is what is put in front of such a pattern: there is one
lemma for each way of building patterns.

A pattern that reads lines and finds nothing in blank ones finds in a text what it finds in the
single lines (`Text.Pattern.Reads.findAll_eq`): no match begins within a line, and the further lines
a match takes are blank.
-/

variable {α : Type} {pattern next : Pattern α} {read : List Char → Option α}

/-- At the beginning of a line the pattern finds what the line says, and takes the line and the
blank lines that follow. -/
def Reads (pattern : Pattern α) (read : List Char → Option α) : Prop :=
  ∀ l ls, '\n' ∉ l → (∀ l' ∈ ls, '\n' ∉ l') →
    pattern (l ++ furtherLines ls) =
      (read l).map fun group => (group, (l ++ furtherLines (ls.takeWhile isBlankLine)).length)

/-! ### Searching -/

theorem findAllFrom_skip (pattern : Pattern α) (xs cs : List Char) (b : Bool) :
    ∃ b', findAllFrom pattern xs.length b (xs ++ cs) = findAllFrom pattern 0 b' cs := by
  induction xs generalizing b with
  | nil => exact ⟨b, rfl⟩
  | cons x xs ih => exact ih _

theorem findAllFrom_skip_blankLines (pattern : Pattern α) (l : List Char) (ls : List (List Char))
    (b : Bool) :
    ∃ b', findAllFrom pattern (l ++ furtherLines (ls.takeWhile isBlankLine)).length b
        (l ++ furtherLines ls) =
      findAllFrom pattern 0 b' (furtherLines (ls.dropWhile isBlankLine)) := by
  have hsplit : l ++ furtherLines ls = l ++ furtherLines (ls.takeWhile isBlankLine) ++
      furtherLines (ls.dropWhile isBlankLine) := by
    rw [List.append_assoc, furtherLines, furtherLines, furtherLines, ← List.flatMap_append,
      List.takeWhile_append_dropWhile]
  rw [hsplit]
  exact findAllFrom_skip pattern _ _ b

/-- No match begins within a line. -/
theorem findAllFrom_within (pattern : Pattern α) {l : List Char} (h : '\n' ∉ l) (cs : List Char) :
    findAllFrom pattern 0 false (l ++ cs) = findAllFrom pattern 0 false cs := by
  induction l with
  | nil => rfl
  | cons c l ih =>
      rw [List.mem_cons, not_or] at h
      rw [List.cons_append, findAllFrom, beq_false_of_ne (Ne.symm h.1)]
      exact ih h.2

theorem filterMap_dropWhile_isBlankLine (hblank : ∀ l, isBlankLine l = true → read l = none)
    (ls : List (List Char)) :
    (ls.dropWhile isBlankLine).filterMap read = ls.filterMap read := by
  induction ls with
  | nil => rfl
  | cons l ls ih =>
      rw [List.dropWhile_cons]
      split
      · rename_i h
        rw [ih, List.filterMap_cons_none (hblank l h)]
      · rfl

namespace Reads

/-- One line: what it says is found, and the search goes on at the next line, or at the next that is
not blank. -/
theorem findAllFrom_cons (h : Reads pattern read)
    (hblank : ∀ l, isBlankLine l = true → read l = none) (b : Bool) {l : List Char}
    {ls : List (List Char)} (hls : ∀ l' ∈ l :: ls, '\n' ∉ l') :
    ∃ b', findAllFrom pattern 0 b (furtherLines (l :: ls)) =
      (read l).elim (findAllFrom pattern 0 b' (furtherLines ls)) fun group =>
        group :: findAllFrom pattern 0 b' (furtherLines (ls.dropWhile isBlankLine)) := by
  have hlineFeed : pattern ('\n' :: (l ++ furtherLines ls)) = none := by
    have hline := h [] (l :: ls) List.not_mem_nil hls
    rwa [hblank [] rfl, Option.map_none] at hline
  have hbegin : (if b = true then pattern ('\n' :: (l ++ furtherLines ls)) else none) = none := by
    rw [hlineFeed, ite_self]
  rw [List.forall_mem_cons] at hls
  rw [furtherLines_cons, findAllFrom, hbegin]
  cases l with
  | nil =>
      rw [hblank [] rfl]
      exact ⟨true, rfl⟩
  | cons c l =>
      have hline := h (c :: l) ls hls.1 hls.2
      rw [List.cons_append] at hline
      simp only [beq_self_eq_true]
      rw [List.cons_append, findAllFrom, if_pos rfl, hline]
      cases read (c :: l) with
      | none =>
          have hne : c ≠ '\n' := fun heq => hls.1 (heq ▸ List.mem_cons_self)
          rw [Option.map_none, beq_false_of_ne hne]
          exact ⟨false, findAllFrom_within pattern (mt (List.mem_cons_of_mem _) hls.1) _⟩
      | some group =>
          obtain ⟨b', hskip⟩ := findAllFrom_skip_blankLines pattern l ls (c == '\n')
          refine ⟨b', ?_⟩
          rw [Option.map_some, List.cons_append, List.length_cons, Option.elim_some, ← hskip]
          rfl

theorem findAllFrom_furtherLines (h : Reads pattern read)
    (hblank : ∀ l, isBlankLine l = true → read l = none) (b : Bool) (ls : List (List Char))
    (hls : ∀ l ∈ ls, '\n' ∉ l) :
    findAllFrom pattern 0 b (furtherLines ls) = ls.filterMap read := by
  -- a match may take several lines, so the induction is on their number
  induction hn : ls.length using Nat.strongRecOn generalizing b ls with
  | ind n ih =>
      subst hn
      cases ls with
      | nil => rfl
      | cons l ls =>
          obtain ⟨b', hstep⟩ := h.findAllFrom_cons hblank b hls
          rw [List.forall_mem_cons] at hls
          rw [hstep]
          cases hread : read l with
          | none =>
              rw [List.filterMap_cons_none hread]
              exact ih _ (Nat.lt_succ_self _) b' ls hls.2 rfl
          | some group =>
              have hlt : (ls.dropWhile isBlankLine).length < (l :: ls).length :=
                Nat.lt_succ_of_le (List.dropWhile_sublist _).length_le
              have hmem : ∀ l' ∈ ls.dropWhile isBlankLine, '\n' ∉ l' := fun l' hl' =>
                hls.2 l' ((List.dropWhile_sublist _).mem hl')
              rw [List.filterMap_cons_some hread, ← filterMap_dropWhile_isBlankLine hblank ls]
              exact congrArg (group :: ·) (ih _ hlt b' _ hmem rfl)

/-- The matches in a text are what the single lines say. -/
theorem findAll_eq (h : Reads pattern read) (hblank : ∀ l, isBlankLine l = true → read l = none)
    (text : String) : findAll pattern text = (lines text).filterMap read := by
  have hmem : ∀ l ∈ lines text, '\n' ∉ l := fun l hl => lineFeed_notMem_of_mem_splitOn hl
  have hfurther := h.findAllFrom_furtherLines hblank false (lines text) hmem
  obtain ⟨l, ls, hlines⟩ := List.exists_cons_of_ne_nil (lines_ne_nil text)
  have htext := congrArg String.toList (unlines_lines text)
  rw [unlines, String.toList_ofList, hlines, intercalate_eq] at htext
  rw [← hfurther, hlines, findAll, ← htext]
  rfl

/-! ### Parts of patterns -/

theorem char (h : Reads next read) {expected : Char} (hne : '\n' ≠ expected) :
    Reads (Pattern.char expected next) fun l => (after? [expected] l).bind read := by
  intro l ls hl hls
  dsimp only
  cases l with
  | nil =>
      cases hfurther : furtherLines ls with
      | nil => rfl
      | cons c cs => exact if_neg (eq_lineFeed_of_furtherLines_eq hfurther ▸ hne)
  | cons c l =>
      rcases eq_or_ne expected c with rfl | hc
      · have hnext := h l ls (mt (List.mem_cons_of_mem _) hl) hls
        have hafter : after? [expected] (expected :: l) = some l := if_pos rfl
        rw [List.cons_append, Pattern.char, if_pos rfl, hnext, hafter, Option.bind_some]
        cases read l <;> rfl
      · rw [List.cons_append, Pattern.char, if_neg hc.symm, after?, if_neg hc]
        rfl

/-- All characters of the kind are taken, if what follows them is always found, or never before
their end. -/
theorem many (h : Reads next read) {kind : Char → Bool} (hlineFeed : kind '\n' = false)
    (hend : (∀ l, (read l).isSome = true) ∨ ∀ c cs, kind c = true → next (c :: cs) = none) :
    Reads (Pattern.many kind next) fun l => read (l.dropWhile kind) := by
  intro l ls hl hls
  dsimp only
  induction l with
  | nil =>
      rw [List.dropWhile_nil, ← h [] ls hl hls, List.nil_append]
      cases hfurther : furtherLines ls with
      | nil => rfl
      | cons c cs =>
          rw [Pattern.many, eq_lineFeed_of_furtherLines_eq hfurther, hlineFeed,
            if_neg Bool.false_ne_true]
  | cons c l ih =>
      have hnext := h (c :: l) ls hl hls
      rw [List.cons_append] at hnext ⊢
      cases hkind : kind c with
      | false =>
          rw [Pattern.many, hkind, if_neg Bool.false_ne_true, hnext,
            List.dropWhile_cons_of_neg (by rw [hkind]; exact Bool.false_ne_true)]
      | true =>
          rw [Pattern.many, hkind, if_pos rfl, ih (mt (List.mem_cons_of_mem _) hl),
            List.dropWhile_cons_of_pos hkind]
          rcases hend with hsome | hnone
          · obtain ⟨group, hgroup⟩ := Option.isSome_iff_exists.mp (hsome (l.dropWhile kind))
            rw [hgroup]
            rfl
          · rw [hnone c _ hkind, Option.or_none]
            cases read (l.dropWhile kind) <;> rfl

/-- The first phrase is found behind which the line says something. -/
theorem oneOf {β : Type} {next : Pattern Unit} {read : List Char → Option Unit}
    (h : Reads next read) {phrases : List β} {text : β → String}
    (htext : ∀ phrase ∈ phrases, '\n' ∉ (text phrase).toList) :
    Reads (Pattern.oneOf phrases text next) fun l =>
      phrases.find? fun phrase => ((after? (text phrase).toList l).bind read).isSome := by
  intro l ls hl hls
  dsimp only [Pattern.oneOf]
  induction phrases with
  | nil => rfl
  | cons phrase phrases ih =>
      rw [List.forall_mem_cons] at htext
      rw [List.findSome?_cons, List.find?_cons, ih htext.2,
        after?_append_furtherLines htext.1]
      cases hafter : after? (text phrase).toList l with
      | none => rfl
      | some rest =>
          obtain rfl := after?_eq_some_iff.mp hafter
          have hrest : '\n' ∉ rest := mt (List.mem_append_right _) hl
          simp only [Option.map_some, Option.bind_eq_bind, Option.bind_some, h rest ls hrest hls]
          cases read rest with
          | none => rfl
          | some _ =>
              have hlength : ∀ cs, (rest ++ cs).length + (text phrase).length =
                  ((text phrase).toList ++ rest ++ cs).length := by
                intro cs
                simp only [List.length_append, String.length_toList]
                omega
              exact congrArg (fun taken => some (phrase, taken)) (hlength _)

/-! ### Blanks -/

theorem many_lineEnd_append {l cs : List Char} {n : Nat} (hl : '\n' ∉ l)
    (h : Pattern.many isBlank lineEnd cs = some ((), n)) :
    Pattern.many isBlank lineEnd (l ++ cs) =
      if isBlankLine l then some ((), l.length + n) else none := by
  induction l with
  | nil => rw [List.nil_append, h, List.length_nil, Nat.zero_add]; rfl
  | cons c l ih =>
      rw [List.mem_cons, not_or] at hl
      have hend : lineEnd (c :: (l ++ cs)) = none := if_neg (Ne.symm hl.1)
      rw [List.cons_append, Pattern.many, hend, Option.or_none, ih hl.2, isBlankLine, isBlankLine,
        List.all_cons]
      cases isBlank c with
      | false => rfl
      | true =>
          cases l.all isBlank with
          | false => rfl
          | true => exact congrArg (fun taken => some ((), taken)) (Nat.add_right_comm ..)

/-- Before a line feed, all the blank lines are taken that come next. -/
theorem many_lineEnd_furtherLines {ls : List (List Char)} (hls : ∀ l ∈ ls, '\n' ∉ l) :
    Pattern.many isBlank lineEnd (furtherLines ls) =
      some ((), (furtherLines (ls.takeWhile isBlankLine)).length) := by
  induction ls with
  | nil => rfl
  | cons l ls ih =>
      rw [List.forall_mem_cons] at hls
      have hblank : isBlank '\n' = true := by decide
      rw [furtherLines_cons, Pattern.many, if_pos hblank, many_lineEnd_append hls.1 (ih hls.2),
        List.takeWhile_cons]
      cases isBlankLine l with
      | false => rfl
      | true => exact congrArg (fun taken => some ((), taken + 1)) List.length_append.symm

theorem blanks : Reads (Pattern.many isBlank lineEnd) fun l =>
    if isBlankLine l then some () else none := by
  intro l ls hl hls
  dsimp only
  rw [many_lineEnd_append hl (many_lineEnd_furtherLines hls), List.length_append]
  split <;> rfl

theorem few_of_next {kind : Char → Bool} {next : Pattern Unit} {cs : List Char} {n : Nat}
    (h : next cs = some ((), n)) : Pattern.few kind next cs = some ([], n) := by
  cases cs with
  | nil => rw [Pattern.few, h]; rfl
  | cons c cs => rw [Pattern.few, h]

/-- What stands before blanks and the end of a line is the line without blanks at its end. -/
theorem few_blanks :
    Reads (Pattern.few (· != '\n') (Pattern.many isBlank lineEnd)) fun l => some (trimEnd l) := by
  intro l ls hl hls
  rw [Option.map_some]
  induction l with
  | nil => exact few_of_next (many_lineEnd_furtherLines hls)
  | cons c l ih =>
      have hnext := blanks (c :: l) ls hl hls
      dsimp only at hnext
      rw [List.mem_cons, not_or] at hl
      rw [trimEnd]
      split
      · rename_i hblank
        rw [if_pos hblank] at hnext
        exact few_of_next hnext
      · rename_i hblank
        rw [if_neg hblank, List.cons_append] at hnext
        have hkind : (c != '\n') = true := bne_iff_ne.mpr (Ne.symm hl.1)
        rw [List.cons_append, Pattern.few, hnext, hkind, ih hl.2]
        rfl

end Reads

end SolverPortfolio.Text.Pattern
