import SolverPortfolio.Proofs.Text.Replace
import SolverPortfolio.Registry

/-!
# Arguments of solvers

An argument is a text with places. Its pieces are read in one pass from the left (`pieces`), and
filling it writes a value for every place and every other character as it is (`fill`).

Rendering makes three passes instead. The argument with its places written out is the argument
itself (`write_piecesFrom`), and a pass over a text written from pieces writes something else for
one place, as long as the text has no occurrence of the place beside those pieces
(`replaceFrom_write`). So the passes fill the argument exactly if putting the task in makes no
further place (`KeepsPlaces`), be it within the path or across its ends. If it makes one, too much
is replaced, and the result shows it: every replacement takes one opening brace away. A path
without opening braces makes none unless the argument has one of its own
(`keepsPlaces_of_brace_notMem`).
-/

namespace SolverPortfolio.SolverCommand

open Text

/-! ## Places -/

/-- What can be filled in. -/
inductive Place where
  | task
  | seed
  | budget
deriving DecidableEq

namespace Place

def all : List Place := [task, seed, budget]

def text : Place → List Char
  | task => taskPlace.toList
  | seed => seedPlace.toList
  | budget => budgetPlace.toList

/-- The text behind the opening brace. -/
def body (p : Place) : List Char := p.text.tail

theorem mem_all (p : Place) : p ∈ all := by
  cases p <;> decide

theorem text_eq (p : Place) : p.text = '{' :: p.body := by
  cases p <;> rfl

theorem text_ne_nil (p : Place) : p.text ≠ [] := by
  rw [text_eq]
  exact List.cons_ne_nil _ _

theorem brace_notMem_body (p : Place) : '{' ∉ p.body := by
  cases p <;> decide

theorem eq_of_prefix {p q : Place} {cs : List Char} (h : p.text <+: q.text ++ cs) : p = q := by
  obtain ⟨rest, h⟩ := h
  revert h
  cases p <;> cases q <;> simp [text, taskPlace, seedPlace, budgetPlace]

end Place

/-! ## Pieces of an argument -/

inductive Piece where
  | char (c : Char)
  | place (p : Place)
deriving DecidableEq

/-- The pieces of a text; the first `skip` characters belong to a place that has been read. -/
def piecesFrom : Nat → List Char → List Piece
  | _, [] => []
  | skip + 1, _ :: cs => piecesFrom skip cs
  | 0, c :: cs =>
    match Place.all.find? fun p => (after? p.text (c :: cs)).isSome with
    | some p => .place p :: piecesFrom (p.text.length - 1) cs
    | none => .char c :: piecesFrom 0 cs

def pieces (argument : String) : List Piece := piecesFrom 0 argument.toList

/-- A text that is written from pieces, given what stands for each place. -/
def write (value : Place → List Char) : List Piece → List Char
  | [] => []
  | .char c :: ps => c :: write value ps
  | .place p :: ps => value p ++ write value ps

/-- What is put in for the places. -/
def values (task : String) (seed budget : Nat) : Place → List Char
  | .task => task.toList
  | .seed => (toString seed).toList
  | .budget => (toString budget).toList

/-- Fill in the places of an argument in one pass: what is put in is not looked at again. -/
def fill (task : String) (seed budget : Nat) (argument : String) : String :=
  String.ofList (write (values task seed budget) (pieces argument))

theorem piecesFrom_skip (xs cs : List Char) :
    piecesFrom xs.length (xs ++ cs) = piecesFrom 0 cs := by
  induction xs with
  | nil => rfl
  | cons x xs ih => exact ih

theorem piecesFrom_place (p : Place) (cs : List Char) :
    piecesFrom 0 (p.text ++ cs) = .place p :: piecesFrom 0 cs := by
  have hfind : Place.all.find? (fun q => (after? q.text (p.text ++ cs)).isSome) = some p :=
    find?_eq_some_of_unique p.mem_all (isSome_after?_iff.mpr (List.prefix_append _ _)) fun _ hq =>
      Place.eq_of_prefix (isSome_after?_iff.mp hq)
  rw [p.text_eq, List.cons_append] at hfind
  rw [p.text_eq, List.cons_append, piecesFrom, hfind]
  simp only
  rw [p.text_eq, List.length_cons, Nat.add_sub_cancel, piecesFrom_skip]

theorem piecesFrom_char {c : Char} {cs : List Char} (h : ∀ p : Place, ¬p.text <+: c :: cs) :
    piecesFrom 0 (c :: cs) = .char c :: piecesFrom 0 cs := by
  have hfind : Place.all.find? (fun q => (after? q.text (c :: cs)).isSome) = none := by
    rw [List.find?_eq_none]
    exact fun p _ hp => h p (isSome_after?_iff.mp hp)
  rw [piecesFrom, hfind]

theorem write_piecesFrom (cs : List Char) : write Place.text (piecesFrom 0 cs) = cs := by
  induction cs using phrases_induction Place.text_ne_nil with
  | nil => rfl
  | phrase_append p cs ih => rw [piecesFrom_place, write, ih]
  | cons c cs hchar ih => rw [piecesFrom_char hchar, write, ih]

theorem occurrences_text_append (p q : Place) (cs : List Char) :
    occurrences p.text (q.text ++ cs) = occurrences p.text cs + if q = p then 1 else 0 := by
  rcases eq_or_ne q p with rfl | hne
  · rw [if_pos rfl, q.text_eq, occurrences_phrase_append q.brace_notMem_body]
  · have hprefix : ¬p.text <+: '{' :: (q.body ++ cs) := by
      rw [← List.cons_append, ← q.text_eq]
      exact fun h => hne (Place.eq_of_prefix h).symm
    rw [if_neg hne, q.text_eq, List.cons_append, occurrences, if_neg hprefix, p.text_eq,
      occurrences_append_of_notMem q.brace_notMem_body, Nat.zero_add, Nat.add_zero]

theorem count_char_cons (p : Place) (c : Char) (ps : List Piece) :
    (Piece.char c :: ps).count (.place p) = ps.count (.place p) :=
  List.count_cons_of_ne Piece.noConfusion

theorem count_place_cons (p q : Place) (ps : List Piece) :
    (Piece.place q :: ps).count (.place p) = ps.count (.place p) + if q = p then 1 else 0 := by
  rw [List.count_cons]
  simp only [beq_iff_eq, Piece.place.injEq]

/-- The places among the pieces are the occurrences. -/
theorem count_piecesFrom (p : Place) (cs : List Char) :
    (piecesFrom 0 cs).count (.place p) = occurrences p.text cs := by
  induction cs using phrases_induction Place.text_ne_nil with
  | nil => rfl
  | phrase_append q cs ih =>
      rw [piecesFrom_place, count_place_cons, occurrences_text_append, ih]
  | cons c cs hchar ih =>
      rw [piecesFrom_char hchar, count_char_cons, occurrences, if_neg (hchar p), ih, Nat.zero_add]

/-! ## Passes -/

section passes

variable {value : Place → List Char} {p : Place}

theorem count_le_occurrences (h : value p = p.text) (ps : List Piece) :
    ps.count (.place p) ≤ occurrences p.text (write value ps) := by
  induction ps with
  | nil => exact Nat.le_refl _
  | cons piece ps ih =>
      cases piece with
      | char c =>
          rw [count_char_cons]
          exact Nat.le_trans ih (occurrences_le_append p.text [c] _)
      | place q =>
          rw [write, count_place_cons]
          rcases eq_or_ne q p with rfl | hne
          · rw [h, occurrences_text_append]
            exact Nat.add_le_add_right ih _
          · rw [if_neg hne]
            exact Nat.le_trans ih (occurrences_le_append _ _ _)

/-- A pass over a text without other occurrences of a place than its pieces. -/
theorem replaceFrom_write (h : value p = p.text) (put : List Char) {ps : List Piece}
    (hcount : occurrences p.text (write value ps) = ps.count (.place p)) :
    replaceFrom p.text put 0 (write value ps) = write (Function.update value p put) ps := by
  induction ps with
  | nil => rfl
  | cons piece ps ih =>
      have hle := count_le_occurrences h ps
      cases piece with
      | char c =>
          rw [count_char_cons, write, occurrences] at hcount
          have hprefix : ¬p.text <+: c :: write value ps := by
            intro hprefix
            rw [if_pos hprefix] at hcount
            omega
          rw [if_neg hprefix, Nat.zero_add] at hcount
          rw [write, replaceFrom_cons hprefix, ih hcount, write]
      | place q =>
          rw [write, count_place_cons] at hcount
          rcases eq_or_ne q p with rfl | hne
          · rw [h, occurrences_text_append] at hcount
            rw [write, h, replaceFrom_phrase q.text_ne_nil, ih (Nat.add_right_cancel hcount), write,
              Function.update_self]
          · rw [if_neg hne] at hcount
            have hrest := occurrences_le_append p.text (value q) (write value ps)
            have heq : occurrences p.text (write value ps) = ps.count (.place p) := by omega
            rw [write, replaceFrom_append_of_occurrences_eq (hcount.trans heq.symm), ih heq, write,
              Function.update_of_ne hne]

theorem count_write_update (h : value p = p.text) {put : List Char} (hput : '{' ∉ put)
    (ps : List Piece) :
    (write (Function.update value p put) ps).count '{' + ps.count (.place p) =
      (write value ps).count '{' := by
  induction ps with
  | nil => rfl
  | cons piece ps ih =>
      cases piece with
      | char c =>
          rw [count_char_cons, write, write, List.count_cons, List.count_cons, ← ih]
          omega
      | place q =>
          rw [write, write, List.count_append, List.count_append, count_place_cons, ← ih]
          rcases eq_or_ne q p with rfl | hne
          · rw [if_pos rfl, Function.update_self, h, q.text_eq, List.count_cons_self,
              List.count_eq_zero_of_not_mem hput,
              List.count_eq_zero_of_not_mem q.brace_notMem_body]
            omega
          · rw [if_neg hne, Function.update_of_ne hne]
            omega

end passes

/-! ## Numbers -/

theorem isDigit_of_mem_toString {n : Nat} {c : Char} (h : c ∈ (toString n).toList) :
    c.isDigit = true := by
  rw [show (toString n).toList = Nat.toDigits 10 n from Nat.toList_repr] at h
  exact Nat.isDigit_of_mem_toDigits (by decide) (by decide) h

theorem not_isDigit_of_mem_text {p : Place} {c : Char} (h : c ∈ p.text) : c.isDigit = false := by
  have hall : p.text.all (fun c => !c.isDigit) = true := by
    cases p <;> decide
  rw [← Bool.not_eq_true']
  exact List.all_eq_true.mp hall c h

/-- A number begins, and is written, with characters no place has. -/
theorem exists_toString_eq_cons (n : Nat) : ∃ first put,
    (toString n).toList = first :: put ∧ ∀ p : Place, ∀ c ∈ p.text, c ∉ first :: put := by
  have hne : (toString n).toList ≠ [] := by
    rw [show (toString n).toList = Nat.toDigits 10 n from Nat.toList_repr]
    exact Nat.toDigits_ne_nil
  obtain ⟨first, put, heq⟩ := List.exists_cons_of_ne_nil hne
  refine ⟨first, put, heq, fun p c hc hmem => ?_⟩
  rw [← heq] at hmem
  exact absurd (isDigit_of_mem_toString hmem) (by rw [not_isDigit_of_mem_text hc]; decide)

/-! ## Rendering -/

/-- What the first of two passes puts in makes and breaks no occurrence for the second. -/
theorem occurrences_budget (seed : Nat) (cs : List Char) :
    occurrences (Place.text .budget)
        (replaceFrom (Place.text .seed) (toString seed).toList 0 cs) =
      occurrences (Place.text .budget) cs := by
  obtain ⟨first, put, heq, hput⟩ := exists_toString_eq_cons seed
  have hbrace : '{' ∉ first :: put := hput .seed '{' (by decide)
  have hfirst : first ∉ Place.body .budget := fun h =>
    hput .budget first (List.mem_of_mem_tail h) List.mem_cons_self
  have hdistinct : ∀ cs, ¬Place.text .budget <+: Place.text .seed ++ cs := fun cs h =>
    nomatch Place.eq_of_prefix h
  rw [heq]
  exact occurrences_replaceFrom (Place.brace_notMem_body .seed) (Place.brace_notMem_body .budget)
    hdistinct hbrace hfirst cs

/-- The passes for the seed and the budget fill all the pieces, and no more, if their places do not
occur elsewhere. -/
theorem passes_eq_write_iff (value : Place → List Char) (hseed : value .seed = Place.text .seed)
    (hbudget : value .budget = Place.text .budget) (seed budget : Nat) (ps : List Piece) :
    replaceFrom (Place.text .budget) (toString budget).toList 0
          (replaceFrom (Place.text .seed) (toString seed).toList 0 (write value ps)) =
        write (Function.update (Function.update value .seed (toString seed).toList) .budget
          (toString budget).toList) ps ↔
      ∀ p ≠ Place.task, occurrences p.text (write value ps) = ps.count (.place p) := by
  have hbudget' : Function.update value .seed (toString seed).toList .budget =
      Place.text .budget := hbudget
  constructor
  · intro heq
    have hbrace : ∀ n : Nat, '{' ∉ (toString n).toList := fun n h =>
      absurd (isDigit_of_mem_toString h) (by decide)
    -- the braces that the passes take away, and those that filling takes away
    have hpassSeed := count_replaceFrom (Place.brace_notMem_body .seed) (hbrace seed)
      (write value ps)
    have hpassBudget := count_replaceFrom (Place.brace_notMem_body .budget) (hbrace budget)
      (replaceFrom (Place.text .seed) (toString seed).toList 0 (write value ps))
    have hfillSeed := count_write_update hseed (hbrace seed) ps
    have hfillBudget := count_write_update hbudget' (hbrace budget) ps
    rw [← Place.text_eq] at hpassSeed hpassBudget
    rw [occurrences_budget, heq] at hpassBudget
    have hleSeed := count_le_occurrences hseed ps
    have hleBudget := count_le_occurrences hbudget ps
    intro p hp
    cases p with
    | task => exact absurd rfl hp
    | seed => omega
    | budget => omega
  · intro hcount
    rw [replaceFrom_write hseed _ (hcount .seed nofun)]
    refine replaceFrom_write hbudget' _ ?_
    rw [← replaceFrom_write hseed _ (hcount .seed nofun), occurrences_budget]
    exact hcount .budget nofun

/-- With the task put in, the argument has the same places for the seed and the budget. -/
def KeepsPlaces (task argument : String) : Prop :=
  ∀ p ≠ Place.task,
    occurrences p.text (replaceAll taskPlace task argument).toList =
      occurrences p.text argument.toList

theorem toList_replaceAll_task (task argument : String) :
    (replaceAll taskPlace task argument).toList =
      write (Function.update Place.text .task task.toList) (pieces argument) := by
  have hcount : occurrences (Place.text .task) (write Place.text (pieces argument)) =
      (pieces argument).count (.place .task) := by
    rw [pieces, write_piecesFrom, count_piecesFrom]
  have hpass : replaceFrom (Place.text .task) task.toList 0 (write Place.text (pieces argument)) =
      write (Function.update Place.text .task task.toList) (pieces argument) :=
    replaceFrom_write rfl task.toList hcount
  rw [replaceAll, String.toList_ofList, ← hpass, pieces, write_piecesFrom]
  rfl

theorem update_eq_values (task : String) (seed budget : Nat) :
    Function.update (Function.update (Function.update Place.text .task task.toList) .seed
      (toString seed).toList) .budget (toString budget).toList = values task seed budget := by
  funext p
  cases p <;> rfl

theorem renderArgument_eq_fill_iff (task argument : String) (seed budget : Nat) :
    renderArgument task seed budget argument = fill task seed budget argument ↔
      KeepsPlaces task argument := by
  have hpasses := passes_eq_write_iff (Function.update Place.text .task task.toList) rfl rfl
    seed budget (pieces argument)
  rw [update_eq_values, ← toList_replaceAll_task] at hpasses
  rw [← String.toList_inj, KeepsPlaces, fill, String.toList_ofList]
  simp only [pieces, count_piecesFrom] at hpasses
  rw [← pieces] at hpasses
  rw [← hpasses, renderArgument, replaceAll, replaceAll, String.toList_ofList,
    String.toList_ofList]
  rfl

example : fill "/\x7bseed\x7d.cnf" 42 300 "\x7btask\x7d" = "/\x7bseed\x7d.cnf" := by decide

example : renderArgument "/\x7bseed\x7d.cnf" 42 300 "\x7btask\x7d" = "/42.cnf" := by decide

example : renderArgument "seed" 42 300 "\x7b\x7btask\x7d\x7d" = "42" := by decide

theorem occurrences_write_of_brace_notMem {value : Place → List Char} {p : Place}
    (hvalue : ∀ q, value q = q.text ∨ q ≠ p ∧ '{' ∉ value q) {ps : List Piece}
    (hps : Piece.char '{' ∉ ps) : occurrences p.text (write value ps) = ps.count (.place p) := by
  induction ps with
  | nil => rfl
  | cons piece ps ih =>
      rw [List.mem_cons, not_or] at hps
      cases piece with
      | char c =>
          have hprefix : ¬p.text <+: c :: write value ps := by
            rw [p.text_eq]
            exact fun h => hps.1 (congrArg Piece.char (List.cons_prefix_cons.mp h).1)
          rw [write, occurrences, if_neg hprefix, count_char_cons, ih hps.2, Nat.zero_add]
      | place q =>
          rw [write, count_place_cons, ← ih hps.2]
          rcases hvalue q with htext | ⟨hne, hbrace⟩
          · rw [htext, occurrences_text_append]
          · rw [if_neg hne, Nat.add_zero, p.text_eq, occurrences_append_of_notMem hbrace]

/-- A path without an opening brace keeps the places of an argument that has no opening brace
beside theirs. -/
theorem keepsPlaces_of_brace_notMem {task argument : String} (htask : '{' ∉ task.toList)
    (hargument : Piece.char '{' ∉ pieces argument) : KeepsPlaces task argument := by
  intro p hp
  rw [toList_replaceAll_task, ← count_piecesFrom p argument.toList]
  refine occurrences_write_of_brace_notMem (fun q => ?_) hargument
  rcases eq_or_ne q .task with rfl | hq
  · exact Or.inr ⟨hp.symm, htask⟩
  · exact Or.inl (Function.update_of_ne hq _ _)

/-- Rendering fills the arguments in one pass exactly if the path of the task keeps the places of
every argument. -/
theorem render_eq_fill_iff (c : SolverCommand) (task : String) (seed budget : Nat) :
    c.render task seed budget = c.arguments.map (fill task seed budget) ↔
      ∀ argument ∈ c.arguments, KeepsPlaces task argument := by
  rw [render, List.map_inj_left]
  exact forall₂_congr fun argument _ => renderArgument_eq_fill_iff task argument seed budget

end SolverPortfolio.SolverCommand
