import Mathlib.Data.List.Basic
import SolverPortfolio.Text

/-!
# Replacing a phrase

A text either begins with the phrase or goes on by a character (`Text.phrase_induction`), and
replacing follows these two cases. Where no occurrence begins in a part of the text, that part is
left alone (`Text.replaceFrom_append_of_occurrences_eq`).

Phrases that begin with a mark of their own, which none of them has anywhere else, do not overlap.
Replacing one of them by a text without the mark takes away as many marks as it has occurrences
(`Text.count_replaceFrom`), and neither makes nor breaks an occurrence of another
(`Text.occurrences_replaceFrom`).
-/

namespace SolverPortfolio.Text

/-! ## Occurrences -/

/-- How often a phrase stands in a text. -/
def occurrences (phrase : List Char) : List Char → Nat
  | [] => 0
  | c :: cs => (if phrase <+: c :: cs then 1 else 0) + occurrences phrase cs

theorem after?_eq_some_iff {phrase cs rest : List Char} :
    after? phrase cs = some rest ↔ cs = phrase ++ rest := by
  induction phrase generalizing cs with
  | nil => exact Option.some_inj
  | cons p phrase ih =>
      cases cs with
      | nil => exact iff_of_false nofun nofun
      | cons c cs =>
          rw [after?, List.cons_append, List.cons_eq_cons, ← ih]
          split
          · rename_i heq
            rw [and_iff_right heq.symm]
          · rename_i hne
            exact iff_of_false nofun fun h => hne h.1.symm

theorem isSome_after?_iff {phrase cs : List Char} :
    (after? phrase cs).isSome = true ↔ phrase <+: cs := by
  simp only [Option.isSome_iff_exists, after?_eq_some_iff]
  exact exists_congr fun _ => eq_comm

theorem find?_eq_some_of_unique {α : Type} {p : α → Bool} {l : List α} {a : α} (hmem : a ∈ l)
    (ha : p a = true) (h : ∀ b, p b = true → b = a) : l.find? p = some a := by
  obtain ⟨b, hb⟩ := Option.isSome_iff_exists.mp (List.find?_isSome.mpr ⟨a, hmem, ha⟩)
  rw [hb, h b (List.find?_some hb)]

theorem occurrences_le_append (phrase xs cs : List Char) :
    occurrences phrase cs ≤ occurrences phrase (xs ++ cs) := by
  induction xs with
  | nil => exact Nat.le_refl _
  | cons x xs ih => exact Nat.le_trans ih (Nat.le_add_left _ _)

/-- A text begins with one of some phrases or with none of them. -/
theorem phrases_induction {ι : Type} {phrase : ι → List Char} (hne : ∀ i, phrase i ≠ [])
    {P : List Char → Prop} (nil : P []) (phrase_append : ∀ i cs, P cs → P (phrase i ++ cs))
    (cons : ∀ c cs, (∀ i, ¬phrase i <+: c :: cs) → P cs → P (c :: cs)) (cs : List Char) : P cs := by
  induction hn : cs.length using Nat.strongRecOn generalizing cs with
  | ind n ih =>
      subst hn
      by_cases hprefix : ∃ i, phrase i <+: cs
      · obtain ⟨i, rest, rfl⟩ := hprefix
        have hlt : rest.length < (phrase i ++ rest).length := by
          rw [List.length_append]
          exact Nat.lt_add_of_pos_left (List.length_pos_iff.mpr (hne i))
        exact phrase_append i rest (ih _ hlt rest rfl)
      · cases cs with
        | nil => exact nil
        | cons c cs => exact cons c cs (not_exists.mp hprefix) (ih _ (Nat.lt_succ_self _) cs rfl)

theorem phrase_induction {phrase : List Char} (hne : phrase ≠ []) {P : List Char → Prop}
    (nil : P []) (phrase_append : ∀ cs, P cs → P (phrase ++ cs))
    (cons : ∀ c cs, ¬phrase <+: c :: cs → P cs → P (c :: cs)) (cs : List Char) : P cs :=
  phrases_induction (fun _ : Unit => hne) nil (fun _ => phrase_append)
    (fun c cs h => cons c cs (h ())) cs

/-! ## Replacing -/

theorem replaceFrom_skip (phrase put xs cs : List Char) :
    replaceFrom phrase put xs.length (xs ++ cs) = replaceFrom phrase put 0 cs := by
  induction xs with
  | nil => rfl
  | cons x xs ih => exact ih

theorem replaceFrom_phrase {phrase : List Char} (hne : phrase ≠ []) (put cs : List Char) :
    replaceFrom phrase put 0 (phrase ++ cs) = put ++ replaceFrom phrase put 0 cs := by
  obtain ⟨p, ps, rfl⟩ := List.exists_cons_of_ne_nil hne
  have hafter : (after? (p :: ps) (p :: (ps ++ cs))).isSome = true :=
    isSome_after?_iff.mpr (List.prefix_append (p :: ps) cs)
  rw [List.cons_append, replaceFrom, if_pos hafter, List.length_cons, Nat.add_sub_cancel,
    replaceFrom_skip]

theorem replaceFrom_cons {phrase : List Char} {c : Char} {cs : List Char}
    (h : ¬phrase <+: c :: cs) (put : List Char) :
    replaceFrom phrase put 0 (c :: cs) = c :: replaceFrom phrase put 0 cs := by
  rw [replaceFrom, if_neg (mt isSome_after?_iff.mp h)]

/-- Where no occurrence begins nothing changes. -/
theorem replaceFrom_append_of_occurrences_eq {phrase xs cs : List Char}
    (h : occurrences phrase (xs ++ cs) = occurrences phrase cs) (put : List Char) :
    replaceFrom phrase put 0 (xs ++ cs) = xs ++ replaceFrom phrase put 0 cs := by
  induction xs with
  | nil => rfl
  | cons x xs ih =>
      have hle := occurrences_le_append phrase xs cs
      rw [List.cons_append, occurrences] at h
      have hprefix : ¬phrase <+: x :: (xs ++ cs) := by
        intro hprefix
        rw [if_pos hprefix] at h
        omega
      rw [if_neg hprefix, Nat.zero_add] at h
      rw [List.cons_append, replaceFrom_cons hprefix, ih h]
      rfl

/-! ## Marked phrases -/

section marked

variable {mark : Char} {body : List Char}

theorem occurrences_append_of_notMem {xs : List Char} (h : mark ∉ xs) (cs : List Char) :
    occurrences (mark :: body) (xs ++ cs) = occurrences (mark :: body) cs := by
  induction xs with
  | nil => rfl
  | cons x xs ih =>
      rw [List.mem_cons, not_or] at h
      have hprefix : ¬mark :: body <+: x :: (xs ++ cs) := fun hprefix =>
        h.1 (List.cons_prefix_cons.mp hprefix).1
      rw [List.cons_append, occurrences, if_neg hprefix, Nat.zero_add, ih h.2]

theorem occurrences_phrase_append (h : mark ∉ body) (cs : List Char) :
    occurrences (mark :: body) (mark :: body ++ cs) = occurrences (mark :: body) cs + 1 := by
  have hprefix : mark :: body <+: mark :: (body ++ cs) := List.prefix_append (mark :: body) cs
  rw [List.cons_append, occurrences, if_pos hprefix, occurrences_append_of_notMem h, Nat.add_comm]

/-- Every occurrence that is replaced takes its mark away. -/
theorem count_replaceFrom (h : mark ∉ body) {put : List Char} (hput : mark ∉ put)
    (cs : List Char) :
    (replaceFrom (mark :: body) put 0 cs).count mark + occurrences (mark :: body) cs =
      cs.count mark := by
  induction cs using phrase_induction (List.cons_ne_nil mark body) with
  | nil => rfl
  | phrase_append cs ih =>
      rw [replaceFrom_phrase (List.cons_ne_nil _ _), occurrences_phrase_append h,
        List.count_append, List.count_append, List.count_eq_zero_of_not_mem hput,
        List.count_cons_self, List.count_eq_zero_of_not_mem h]
      omega
  | cons c cs hprefix ih =>
      rw [replaceFrom_cons hprefix, occurrences, if_neg hprefix, List.count_cons, List.count_cons]
      omega

section other

variable {first : Char} {put : List Char}

theorem not_prefix_cons {c : Char} {xs : List Char} (hne : xs ≠ []) (h : c ∉ xs)
    (cs : List Char) : ¬xs <+: c :: cs := by
  obtain ⟨x, xs, rfl⟩ := List.exists_cons_of_ne_nil hne
  intro hprefix
  exact h ((List.cons_prefix_cons.mp hprefix).1 ▸ List.mem_cons_self)

/-- Neither the phrase nor what is put in for it begins a text in which their first characters do
not occur. -/
theorem prefix_replaceFrom_iff {xs : List Char} (hmark : mark ∉ xs) (hfirst : first ∉ xs)
    (cs : List Char) : xs <+: replaceFrom (mark :: body) (first :: put) 0 cs ↔ xs <+: cs := by
  induction cs using phrase_induction (List.cons_ne_nil mark body) generalizing xs with
  | nil => rfl
  | phrase_append cs _ =>
      rw [replaceFrom_phrase (List.cons_ne_nil _ _)]
      rcases eq_or_ne xs [] with rfl | hne
      · exact iff_of_true List.nil_prefix List.nil_prefix
      · exact iff_of_false (not_prefix_cons hne hfirst _) (not_prefix_cons hne hmark _)
  | cons c cs hprefix ih =>
      rw [replaceFrom_cons hprefix]
      cases xs with
      | nil => exact iff_of_true List.nil_prefix List.nil_prefix
      | cons x xs =>
          rw [List.mem_cons, not_or] at hmark hfirst
          rw [List.cons_prefix_cons, List.cons_prefix_cons, ih hmark.2 hfirst.2]

/-- Another phrase of the same mark is found as often as before. -/
theorem occurrences_replaceFrom {other : List Char} (hbody : mark ∉ body) (hother : mark ∉ other)
    (hdistinct : ∀ cs, ¬mark :: other <+: mark :: body ++ cs) (hput : mark ∉ first :: put)
    (hfirst : first ∉ other) (cs : List Char) :
    occurrences (mark :: other) (replaceFrom (mark :: body) (first :: put) 0 cs) =
      occurrences (mark :: other) cs := by
  induction cs using phrase_induction (List.cons_ne_nil mark body) with
  | nil => rfl
  | phrase_append cs ih =>
      have hphrase : occurrences (mark :: other) (mark :: body ++ cs) =
          occurrences (mark :: other) cs := by
        have hprefix : ¬mark :: other <+: mark :: (body ++ cs) := hdistinct cs
        rw [List.cons_append, occurrences, if_neg hprefix, Nat.zero_add,
          occurrences_append_of_notMem hbody]
      rw [replaceFrom_phrase (List.cons_ne_nil _ _), occurrences_append_of_notMem hput, ih, hphrase]
  | cons c cs hprefix ih =>
      have hiff : mark :: other <+: c :: replaceFrom (mark :: body) (first :: put) 0 cs ↔
          mark :: other <+: c :: cs := by
        rw [List.cons_prefix_cons, List.cons_prefix_cons, prefix_replaceFrom_iff hother hfirst]
      rw [replaceFrom_cons hprefix, occurrences, occurrences, ih]
      simp only [hiff]

end other

end marked

end SolverPortfolio.Text
