import SolverPortfolio.Proofs.Text.Pattern
import SolverPortfolio.Registry

/-!
# Output of solvers, line by line

Both patterns read lines (`reads_statusLine`, `reads_valueLine`), so searching the whole output
comes to reading one line after the other: the first line that reports a status decides
(`status?_eq`), and the words of all value lines are the certificate (`certificate_eq`).

What a line says does not change by a carriage return at its end, and a line that begins neither
like a status nor like values says nothing. Hence the outcome depends neither on how lines are ended
nor on other lines in between.
-/

namespace SolverPortfolio

namespace SolverOutput

open Text Text.Pattern

/-! ## What a line says -/

/-- The line is an `s`, spaces, the phrase of the status, and blanks. -/
def ReportsStatus (line : List Char) (s : SolverStatus) : Prop :=
  ∃ spaces blanks, spaces ≠ [] ∧ (∀ c ∈ spaces, c = ' ') ∧ (∀ c ∈ blanks, isBlank c = true) ∧
    line = 's' :: (spaces ++ (s.phrase.toList ++ blanks))

/-- The words behind a `v` and a space. -/
def tokens : List Char → List String
  | 'v' :: ' ' :: rest => (words rest).map String.ofList
  | _ => []

/-- What follows a mark and the spaces behind it. -/
def afterMark? (mark : Char) (line : List Char) : Option (List Char) :=
  ((after? [mark] line).bind (after? [' '])).map (·.dropWhile (· == ' '))

def blank? (line : List Char) : Option Unit := if isBlankLine line then some () else none

/-- The status whose phrase a text is, but for blanks at the end. -/
def phrased? (cs : List Char) : Option SolverStatus :=
  SolverStatus.all.find? fun s => ((after? s.phrase.toList cs).bind blank?).isSome

def lineStatus? (line : List Char) : Option SolverStatus := (afterMark? 's' line).bind phrased?

theorem afterMark?_eq_some_iff {mark : Char} {line cs : List Char} :
    afterMark? mark line = some cs ↔
      ∃ spaces, spaces ≠ [] ∧ (∀ c ∈ spaces, c = ' ') ∧ cs.head? ≠ some ' ' ∧
        line = mark :: (spaces ++ cs) := by
  simp only [afterMark?, Option.map_eq_some_iff, Option.bind_eq_some_iff, after?_eq_some_iff]
  constructor
  · rintro ⟨rest, ⟨_, rfl, rfl⟩, rfl⟩
    refine ⟨' ' :: rest.takeWhile (· == ' '), List.cons_ne_nil _ _, ?_, ?_, ?_⟩
    · rw [List.forall_mem_cons]
      exact ⟨rfl, fun c hc => beq_iff_eq.mp (List.all_eq_true.mp List.all_takeWhile c hc)⟩
    · intro hhead
      have hnot := List.head?_dropWhile_not (· == ' ') rest
      rw [hhead] at hnot
      exact absurd hnot (by decide)
    · exact congrArg (mark :: ' ' :: ·) List.takeWhile_append_dropWhile.symm
  · rintro ⟨spaces, hne, hspaces, hhead, rfl⟩
    obtain ⟨space, spaces, rfl⟩ := List.exists_cons_of_ne_nil hne
    rw [List.forall_mem_cons] at hspaces
    obtain ⟨rfl, hspaces⟩ := hspaces
    have hdrop : cs.dropWhile (· == ' ') = cs := by
      cases cs with
      | nil => rfl
      | cons c cs =>
          exact List.dropWhile_cons_of_neg fun hc => hhead (congrArg some (beq_iff_eq.mp hc))
    refine ⟨spaces ++ cs, ⟨_, rfl, rfl⟩, ?_⟩
    rw [List.dropWhile_append_of_pos fun c hc => beq_iff_eq.mpr (hspaces c hc), hdrop]

theorem isSome_blank? (line : List Char) : (blank? line).isSome = isBlankLine line := by
  rw [blank?]
  cases isBlankLine line <;> rfl

theorem eq_of_phrase_append_eq {s s' : SolverStatus} {xs ys : List Char}
    (h : s.phrase.toList ++ xs = s'.phrase.toList ++ ys) : s = s' := by
  revert h
  cases s <;> cases s' <;> simp [SolverStatus.phrase]

theorem phrased?_eq_some_iff {cs : List Char} {s : SolverStatus} :
    phrased? cs = some s ↔
      ∃ blanks, (∀ c ∈ blanks, isBlank c = true) ∧ cs = s.phrase.toList ++ blanks := by
  have hphrase : ∀ s : SolverStatus, ((after? s.phrase.toList cs).bind blank?).isSome = true ↔
      ∃ blanks, (∀ c ∈ blanks, isBlank c = true) ∧ cs = s.phrase.toList ++ blanks := by
    intro s
    simp only [Option.isSome_bind, Option.any_eq_true, isSome_blank?, isBlankLine,
      List.all_eq_true, after?_eq_some_iff]
    exact exists_congr fun _ => and_comm
  rw [← hphrase]
  refine ⟨fun h => (List.find?_some h :), fun h => find?_eq_some_of_unique ?_ h fun s' h' => ?_⟩
  · cases s <;> decide
  · obtain ⟨_, -, heq⟩ := (hphrase s).mp h
    obtain ⟨_, -, heq'⟩ := (hphrase s').mp h'
    exact eq_of_phrase_append_eq (heq'.symm.trans heq)

theorem lineStatus?_eq_some_iff {line : List Char} {s : SolverStatus} :
    lineStatus? line = some s ↔ ReportsStatus line s := by
  rw [lineStatus?, Option.bind_eq_some_iff]
  constructor
  · rintro ⟨cs, hmark, hphrase⟩
    obtain ⟨spaces, hne, hspaces, -, rfl⟩ := afterMark?_eq_some_iff.mp hmark
    obtain ⟨blanks, hblanks, rfl⟩ := phrased?_eq_some_iff.mp hphrase
    exact ⟨spaces, blanks, hne, hspaces, hblanks, rfl⟩
  · rintro ⟨spaces, blanks, hne, hspaces, hblanks, rfl⟩
    refine ⟨s.phrase.toList ++ blanks, afterMark?_eq_some_iff.mpr ⟨spaces, hne, hspaces, ?_, rfl⟩,
      phrased?_eq_some_iff.mpr ⟨blanks, hblanks, rfl⟩⟩
    cases s <;> exact nofun

theorem tokens_eq (line : List Char) :
    tokens line = ((afterMark? 'v' line).elim [] words).map String.ofList := by
  cases hmark : afterMark? 'v' line with
  | none =>
      unfold tokens
      split
      · exact absurd hmark nofun
      · rfl
  | some cs =>
      obtain ⟨spaces, hne, hspaces, -, rfl⟩ := afterMark?_eq_some_iff.mp hmark
      obtain ⟨space, spaces, rfl⟩ := List.exists_cons_of_ne_nil hne
      rw [List.forall_mem_cons] at hspaces
      obtain ⟨rfl, hspaces⟩ := hspaces
      have hblank : ∀ c ∈ spaces, isBlank c = true := fun c hc => hspaces c hc ▸ by decide
      exact congrArg (List.map String.ofList) (words_blanks_append hblank cs)

/-! ## What the patterns find -/

theorem reads_marked {α : Type} {next : Pattern α} {read : List Char → Option α}
    (h : Reads next read) {mark : Char} (hmark : '\n' ≠ mark)
    (hend : (∀ l, (read l).isSome = true) ∨ ∀ c cs, (c == ' ') = true → next (c :: cs) = none) :
    Reads (char mark (spaces next)) fun line => (afterMark? mark line).bind read := by
  have hreads := ((h.many (by decide) hend).char (by decide : '\n' ≠ ' ')).char hmark
  have hread : (fun line => (afterMark? mark line).bind read) = fun line =>
      (after? [mark] line).bind fun rest => (after? [' '] rest).bind fun rest =>
        read (rest.dropWhile (· == ' ')) := by
    funext line
    rw [afterMark?, Option.bind_map, Option.bind_assoc]
    rfl
  rw [hread]
  exact hreads

theorem reads_statusLine : Reads statusLine lineStatus? := by
  have hphrases : Reads (oneOf SolverStatus.all SolverStatus.phrase blanksToLineEnd) phrased? :=
    Reads.blanks.oneOf (by decide)
  refine reads_marked hphrases (by decide) (Or.inr fun c cs hc => ?_)
  rw [beq_iff_eq.mp hc]
  rfl

theorem reads_valueLine : Reads valueLine fun line => (afterMark? 'v' line).map trimEnd := by
  have hread : (fun line => (afterMark? 'v' line).map trimEnd) = fun line =>
      (afterMark? 'v' line).bind fun cs => some (trimEnd cs) := by
    funext line
    exact Option.map_eq_bind
  rw [hread]
  exact reads_marked Reads.few_blanks (by decide) (Or.inl fun _ => rfl)

theorem afterMark?_of_isBlankLine {mark : Char} (hmark : isBlank mark = false) {line : List Char}
    (h : isBlankLine line = true) : afterMark? mark line = none := by
  cases hafter : afterMark? mark line with
  | none => rfl
  | some cs =>
      obtain ⟨spaces, -, -, -, rfl⟩ := afterMark?_eq_some_iff.mp hafter
      rw [isBlankLine, List.all_cons, hmark] at h
      cases h

/-- The first line with a status decides. -/
theorem status?_eq (output : String) : status? output = (lines output).findSome? lineStatus? := by
  have hblank : ∀ l, isBlankLine l = true → lineStatus? l = none := fun l hl => by
    rw [lineStatus?, afterMark?_of_isBlankLine (by decide) hl, Option.bind_none]
  rw [status?, reads_statusLine.findAll_eq hblank, List.head?_filterMap]

theorem certificate_eq (output : String) : certificate output = (lines output).flatMap tokens := by
  have hblank : ∀ l, isBlankLine l = true → (afterMark? 'v' l).map trimEnd = none := fun l hl => by
    rw [afterMark?_of_isBlankLine (by decide) hl, Option.map_none]
  rw [certificate, reads_valueLine.findAll_eq hblank]
  induction lines output with
  | nil => rfl
  | cons l ls ih =>
      rw [List.flatMap_cons, ← ih, tokens_eq]
      cases hmark : afterMark? 'v' l with
      | none => rw [List.filterMap_cons_none (by rw [hmark]; rfl)]; rfl
      | some cs =>
          rw [List.filterMap_cons_some (by rw [hmark]; rfl), List.flatMap_cons, List.map_append,
            words_trimEnd]
          rfl

/-! ## Reading line by line -/

/-- What a status and a certificate amount to. -/
def verdict (format : OutputFormat) (s : SolverStatus) (certificate : List String) : Outcome :=
  if s = .unsatisfiable then .negative
  else if format = .satCompetition ∧ s = .satisfiable then
    .positive (if certificate = [] then none else some certificate)
  else if format = .pbCompetition ∧ (s = .satisfiable ∨ s = .optimumFound) ∧ certificate ≠ [] then
    .positive (some certificate)
  else .unsolved

/-- The outcome of lines that are read one by one. -/
inductive LineByLine (format : OutputFormat) (ls : List (List Char)) : Outcome → Prop where
  | status {before after : List (List Char)} {line : List Char} {s : SolverStatus}
      (heq : ls = before ++ line :: after) (hfirst : ∀ l ∈ before, ∀ s, ¬ReportsStatus l s)
      (hline : ReportsStatus line s) : LineByLine format ls (verdict format s (ls.flatMap tokens))
  | silent (h : ∀ l ∈ ls, ∀ s, ¬ReportsStatus l s) : LineByLine format ls .unsolved

theorem judge_eq_verdict (format : OutputFormat) (s : SolverStatus) (certificate : List String) :
    format.judge s certificate = verdict format s certificate := by
  cases format <;> cases s <;> cases certificate <;> rfl

def readLines (format : OutputFormat) (ls : List (List Char)) : Outcome :=
  (ls.findSome? lineStatus?).elim .unsolved fun s => verdict format s (ls.flatMap tokens)

theorem read_eq (format : OutputFormat) (output : String) :
    format.read output = readLines format (lines output) := by
  rw [OutputFormat.read, status?_eq, certificate_eq, readLines]
  cases (lines output).findSome? lineStatus? with
  | none => rfl
  | some s => exact judge_eq_verdict format s _

theorem lineStatus?_eq_none_iff {line : List Char} :
    lineStatus? line = none ↔ ∀ s, ¬ReportsStatus line s := by
  simp only [Option.eq_none_iff_forall_ne_some, ne_eq, lineStatus?_eq_some_iff]

theorem lineByLine_iff {format : OutputFormat} {ls : List (List Char)} {outcome : Outcome} :
    LineByLine format ls outcome ↔ readLines format ls = outcome := by
  constructor
  · rintro (⟨heq, hfirst, hline⟩ | h)
    · have hfind := List.findSome?_eq_some_iff.mpr ⟨_, _, _, heq, lineStatus?_eq_some_iff.mpr hline,
        fun l hl => lineStatus?_eq_none_iff.mpr (hfirst l hl)⟩
      rw [readLines, hfind, Option.elim_some]
    · have hfind : ls.findSome? lineStatus? = none :=
        List.findSome?_eq_none_iff.mpr fun l hl => lineStatus?_eq_none_iff.mpr (h l hl)
      rw [readLines, hfind, Option.elim_none]
  · rintro rfl
    rw [readLines]
    cases hfind : ls.findSome? lineStatus? with
    | none =>
        exact .silent fun l hl =>
          lineStatus?_eq_none_iff.mp (List.findSome?_eq_none_iff.mp hfind l hl)
    | some s =>
        obtain ⟨before, line, after, heq, hline, hfirst⟩ := List.findSome?_eq_some_iff.mp hfind
        exact .status heq (fun l hl => lineStatus?_eq_none_iff.mp (hfirst l hl))
          (lineStatus?_eq_some_iff.mp hline)

/-! ## Other lines, and ends of lines -/

theorem tokens_eq_nil {line : List Char} (h : ¬['v', ' '] <+: line) : tokens line = [] := by
  unfold tokens
  split
  · exact absurd (List.prefix_append ['v', ' '] _) h
  · rfl

theorem prefix_of_reportsStatus {line : List Char} {s : SolverStatus} (h : ReportsStatus line s) :
    ['s', ' '] <+: line := by
  obtain ⟨spaces, blanks, hne, hspaces, -, rfl⟩ := h
  obtain ⟨space, spaces, rfl⟩ := List.exists_cons_of_ne_nil hne
  obtain rfl := hspaces space List.mem_cons_self
  exact List.prefix_append ['s', ' '] _

theorem readLines_insert (format : OutputFormat) (before after : List (List Char))
    {inserted : List (List Char)}
    (h : ∀ l ∈ inserted, ¬['s', ' '] <+: l ∧ ¬['v', ' '] <+: l) :
    readLines format (before ++ inserted ++ after) = readLines format (before ++ after) := by
  have hstatus : inserted.findSome? lineStatus? = none :=
    List.findSome?_eq_none_iff.mpr fun l hl =>
      lineStatus?_eq_none_iff.mpr fun _ hs => (h l hl).1 (prefix_of_reportsStatus hs)
  have htokens : inserted.flatMap tokens = [] :=
    List.flatMap_eq_nil_iff.mpr fun l hl => tokens_eq_nil (h l hl).2
  simp only [readLines, List.findSome?_append, List.flatMap_append, hstatus, htokens,
    Option.or_none, List.append_nil]

theorem reportsStatus_append_return (line : List Char) (s : SolverStatus) :
    ReportsStatus (line ++ ['\r']) s ↔ ReportsStatus line s := by
  constructor
  · rintro ⟨spaces, blanks, hne, hspaces, hblanks, heq⟩
    rcases List.eq_nil_or_concat blanks with rfl | ⟨blanks, c, rfl⟩
    · have hlast := congrArg List.getLast? heq
      cases s <;> simp [SolverStatus.phrase, List.getLast?_cons, List.getLast?_append] at hlast
    · rw [List.concat_eq_append] at hblanks heq
      rw [List.forall_mem_append] at hblanks
      rw [← List.append_assoc, ← List.append_assoc, ← List.cons_append] at heq
      exact ⟨spaces, blanks, hne, hspaces, hblanks.1, by
        rw [← List.append_assoc]; exact List.append_inj_left' heq rfl⟩
  · rintro ⟨spaces, blanks, hne, hspaces, hblanks, rfl⟩
    refine ⟨spaces, blanks ++ ['\r'], hne, hspaces, ?_, by simp⟩
    rw [List.forall_mem_append, List.forall_mem_singleton]
    exact ⟨hblanks, by decide⟩

theorem tokens_append_return (line : List Char) : tokens (line ++ ['\r']) = tokens line := by
  by_cases hprefix : ['v', ' '] <+: line
  · obtain ⟨rest, rfl⟩ := hprefix
    have hblank : ∀ c ∈ ['\r'], isBlank c = true := List.forall_mem_singleton.mpr (by decide)
    exact congrArg (List.map String.ofList) (words_append_blanks hblank rest)
  · rw [tokens_eq_nil hprefix, tokens_eq_nil]
    rw [List.prefix_concat_iff, not_or]
    refine ⟨fun heq => ?_, hprefix⟩
    exact absurd (congrArg List.getLast? heq) (by simp)

/-- Lines that may have a carriage return more at their ends. -/
def WithReturns : List (List Char) → List (List Char) → Prop :=
  List.Forall₂ fun l l' => l' = l ∨ l' = l ++ ['\r']

theorem withReturns_lines (text : String) :
    WithReturns (lines text) (lines (replaceAll "\n" "\r\n" text)) := by
  rw [lines, lines, replaceAll, String.toList_ofList, WithReturns]
  induction text.toList with
  | nil => exact .cons (Or.inl rfl) .nil
  | cons c cs ih =>
      rcases eq_or_ne c '\n' with rfl | hne
      · have hreplace : replaceFrom "\n".toList "\r\n".toList 0 ('\n' :: cs) =
            '\r' :: '\n' :: replaceFrom "\n".toList "\r\n".toList 0 cs := rfl
        rw [hreplace, List.splitOn_cons_eq_if_modifyHead, List.splitOn_cons_eq_if_modifyHead,
          List.splitOn_cons_eq_if_modifyHead]
        exact .cons (Or.inr rfl) ih
      · have hprefix : ¬"\n".toList <+: c :: cs := fun h => hne (List.cons_prefix_cons.mp h).1.symm
        rw [replaceFrom_cons hprefix, List.splitOn_cons_eq_if_modifyHead,
          List.splitOn_cons_eq_if_modifyHead, if_neg (mt beq_iff_eq.mp hne),
          if_neg (mt beq_iff_eq.mp hne)]
        generalize cs.splitOn '\n' = ls at ih ⊢
        generalize (replaceFrom "\n".toList "\r\n".toList 0 cs).splitOn '\n' = ls' at ih ⊢
        cases ih with
        | nil => exact .nil
        | cons h hrest =>
            refine .cons ?_ hrest
            rcases h with rfl | rfl
            · exact Or.inl rfl
            · exact Or.inr rfl

theorem readLines_withReturns {ls ls' : List (List Char)} (h : WithReturns ls ls')
    (format : OutputFormat) : readLines format ls' = readLines format ls := by
  have hline : ∀ {l l' : List Char}, l' = l ∨ l' = l ++ ['\r'] →
      lineStatus? l' = lineStatus? l ∧ tokens l' = tokens l := by
    rintro l _ (rfl | rfl)
    · exact ⟨rfl, rfl⟩
    · refine ⟨Option.ext fun s => ?_, tokens_append_return l⟩
      rw [lineStatus?_eq_some_iff, lineStatus?_eq_some_iff, reportsStatus_append_return]
  have hlines : ls'.findSome? lineStatus? = ls.findSome? lineStatus? ∧
      ls'.flatMap tokens = ls.flatMap tokens := by
    induction h with
    | nil => exact ⟨rfl, rfl⟩
    | cons h _ ih =>
        rw [List.findSome?_cons, List.findSome?_cons, List.flatMap_cons, List.flatMap_cons,
          (hline h).1, (hline h).2, ih.1, ih.2]
        exact ⟨rfl, rfl⟩
  rw [readLines, readLines, hlines.1, hlines.2]

end SolverOutput

namespace OutputFormat

open Text SolverOutput

/-- Output is read line by line; what ends the lines, and other lines in between, do not matter. -/
theorem read_line_by_line (format : OutputFormat) (output : String) :
    (∀ outcome, format.read output = outcome ↔ LineByLine format (lines output) outcome) ∧
      format.read (replaceAll "\n" "\r\n" output) = format.read output ∧
      ∀ before inserted after : List (List Char), lines output = before ++ after →
        (∀ l ∈ inserted, '\n' ∉ l ∧ ¬['s', ' '] <+: l ∧ ¬['v', ' '] <+: l) →
        format.read (unlines (before ++ inserted ++ after)) = format.read output := by
  refine ⟨fun outcome => ?_, ?_, fun before inserted after hlines hinserted => ?_⟩
  · rw [read_eq, lineByLine_iff]
  · rw [read_eq, read_eq, readLines_withReturns (withReturns_lines output)]
  · have hne : before ++ inserted ++ after ≠ [] := by
      intro hnil
      simp only [List.append_eq_nil_iff] at hnil
      rw [hnil.1.1, hnil.2] at hlines
      exact lines_ne_nil output hlines
    have hlineFeed : ∀ l ∈ before ++ after, '\n' ∉ l := by
      rw [← hlines]
      exact fun l hl => lineFeed_notMem_of_mem_splitOn hl
    have hmem : ∀ l ∈ before ++ inserted ++ after, '\n' ∉ l := by
      simp only [List.forall_mem_append] at hlineFeed ⊢
      exact ⟨⟨hlineFeed.1, fun l hl => (hinserted l hl).1⟩, hlineFeed.2⟩
    rw [read_eq, read_eq, lines_unlines hmem hne, hlines,
      readLines_insert format before after fun l hl => (hinserted l hl).2]

/-- A comment between the status, which a blank line follows, and the values. -/
theorem read_line_by_line_comment :
    satCompetition.read "s SATISFIABLE \n\nv 1\nv 0" = .positive (some ["1", "0"]) ∧
      LineByLine satCompetition (lines "s SATISFIABLE \n\nv 1\nv 0")
        (.positive (some ["1", "0"])) ∧
      satCompetition.read (unlines (["s SATISFIABLE ".toList, []] ++ ["c done".toList] ++
        ["v 1".toList, "v 0".toList])) = .positive (some ["1", "0"]) := by
  obtain ⟨hlines, -, hinsert⟩ :=
    read_line_by_line satCompetition "s SATISFIABLE \n\nv 1\nv 0"
  have hread : satCompetition.read "s SATISFIABLE \n\nv 1\nv 0" =
      .positive (some ["1", "0"]) := by
    decide
  refine ⟨hread, (hlines _).mp hread, (hinsert _ _ _ (by decide) ?_).trans hread⟩
  rw [List.forall_mem_singleton]
  decide

end OutputFormat

end SolverPortfolio
