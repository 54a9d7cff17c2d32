import Mathlib.Data.List.Dedup
import Mathlib.Data.List.Sort
import SolverPortfolio.Run

/-!
# Sorted lists

Stable sorting, and lists that are sorted by name.
-/

namespace SolverPortfolio

/-!
## Stable sorting

Sorting by a total preorder leaves elements that are tied in the order they had
(`filter_mergeSort`), and that order is all a sorted list can remember of another one: two lists
in which the tied elements stand in the same order are sorted to the same list
(`mergeSort_congr`).
-/

variable {β : Type} {le : β → β → Bool} {l l' : List β}

/-- Neither of two elements has to stand before the other. -/
def tied (le : β → β → Bool) (a b : β) : Bool := le a b && le b a

theorem tied_iff {a b : β} : tied le a b = true ↔ le a b = true ∧ le b a = true :=
  Bool.and_eq_true_iff

section

variable (htotal : ∀ a b, (le a b || le b a) = true)

include htotal

theorem tied_self (a : β) : tied le a a = true := by
  have hself := htotal a a
  rw [Bool.or_self] at hself
  exact tied_iff.mpr ⟨hself, hself⟩

theorem mem_iff_of_tied (h : ∀ a, l.filter (tied le a) = l'.filter (tied le a)) (a : β) :
    a ∈ l ↔ a ∈ l' := by
  have hclass : ∀ l : List β, a ∈ l.filter (tied le a) ↔ a ∈ l :=
    fun l => List.mem_filter.trans (and_iff_left (tied_self htotal a))
  rw [← hclass l, h, hclass]

/-- Sorted lists in which the tied elements stand in the same order are the same. -/
theorem eq_of_sorted_of_tied (hl : l.Pairwise fun a b => le a b = true)
    (hl' : l'.Pairwise fun a b => le a b = true)
    (h : ∀ a, l.filter (tied le a) = l'.filter (tied le a)) : l = l' := by
  have hmem := mem_iff_of_tied htotal h
  induction l generalizing l' with
  | nil =>
      refine (List.eq_nil_iff_forall_not_mem.mpr fun a ha => ?_).symm
      cases (hmem a).mpr ha
  | cons a l ih =>
      obtain ⟨hfirst, hrest⟩ := List.pairwise_cons.mp hl
      cases l' with
      | nil => cases (hmem a).mp (List.mem_cons_self ..)
      | cons b l' =>
          obtain ⟨hfirst', hrest'⟩ := List.pairwise_cons.mp hl'
          have hself := tied_self htotal
          -- Each of the first elements has its place in the other list, so they are tied.
          have hab : tied le a b = true := by
            rw [tied_iff]
            constructor
            · rcases List.mem_cons.mp ((hmem b).mpr (List.mem_cons_self ..)) with rfl | hb
              · exact (tied_iff.mp (hself b)).1
              · exact hfirst b hb
            · rcases List.mem_cons.mp ((hmem a).mp (List.mem_cons_self ..)) with rfl | ha
              · exact (tied_iff.mp (hself a)).1
              · exact hfirst' a ha
          have hsame := h a
          rw [List.filter_cons_of_pos (hself a), List.filter_cons_of_pos hab] at hsame
          obtain rfl : a = b := (List.cons.inj hsame).1
          have htail : ∀ c, l.filter (tied le c) = l'.filter (tied le c) := by
            intro c
            have hc := h c
            rw [List.filter_cons, List.filter_cons] at hc
            split at hc
            · exact (List.cons.inj hc).2
            · exact hc
          exact congrArg (a :: ·) (ih hrest hrest' htail (mem_iff_of_tied htotal htail))

end

variable (htrans : ∀ a b c, le a b = true → le b c = true → le a c = true)
  (htotal : ∀ a b, (le a b || le b a) = true)

include htrans htotal

/-- Elements that are tied to each other keep their order. -/
theorem filter_mergeSort {q : β → Bool}
    (hq : ∀ a ∈ l, ∀ b ∈ l, q a = true → q b = true → le a b = true) :
    (l.mergeSort le).filter q = l.filter q := by
  have hpairwise : (l.filter q).Pairwise (fun a b => le a b = true) := by
    refine List.pairwise_iff_forall_sublist.mpr fun {a b} hab => ?_
    have hsub := hab.subset
    obtain ⟨ha, hqa⟩ := List.mem_filter.mp (hsub (List.mem_cons_self ..))
    obtain ⟨hb, hqb⟩ := List.mem_filter.mp (hsub (List.mem_cons_of_mem _ (List.mem_cons_self ..)))
    exact hq a ha b hb hqa hqb
  have hsublist : ((l.filter q).filter q).Sublist ((l.mergeSort le).filter q) :=
    (List.sublist_mergeSort htrans htotal hpairwise List.filter_sublist).filter q
  rw [List.filter_filter, List.filter_congr (q := q) fun a _ => Bool.and_self _] at hsublist
  exact (hsublist.eq_of_length ((List.mergeSort_perm l le).filter q).length_eq.symm).symm

/-- What comes out depends only on the order of the elements that are tied. -/
theorem mergeSort_congr (h : ∀ a, l.filter (tied le a) = l'.filter (tied le a)) :
    l.mergeSort le = l'.mergeSort le := by
  refine eq_of_sorted_of_tied htotal (List.pairwise_mergeSort htrans htotal l)
    (List.pairwise_mergeSort htrans htotal l') fun a => ?_
  have hclass : ∀ b c, tied le a b = true → tied le a c = true → le b c = true :=
    fun b c hb hc => htrans b a c (tied_iff.mp hb).2 (tied_iff.mp hc).1
  rw [filter_mergeSort htrans htotal fun b _ c _ => hclass b c,
    filter_mergeSort htrans htotal fun b _ c _ => hclass b c, h]

end SolverPortfolio

namespace SolverPortfolio

/-!
## Sorted names

A sorted list that names everything once is determined by what it names (`eq_of_sorted`), so
`sortedNames` cannot tell in what order, or how often, the names stood before. An association list
that is sorted by name is what comes out when its entries are put in one after the other
(`foldl_insertSorted`).
-/

theorem nodup_eraseDups (names : List String) : names.eraseDups.Nodup := by
  cases names with
  | nil => exact List.nodup_nil
  | cons n names =>
      rw [List.eraseDups_cons, List.nodup_cons]
      refine ⟨fun hmem => ?_, nodup_eraseDups _⟩
      have hne := (List.mem_filter.mp (List.mem_eraseDups.mp hmem)).2
      rw [beq_self_eq_true] at hne
      cases hne
termination_by names.length
decreasing_by
  have hle := List.length_filter_le (fun b => !b == n) names
  rw [List.length_cons]
  omega

@[simp] theorem mem_sortedNames {n : String} {names : List String} :
    n ∈ sortedNames names ↔ n ∈ names := by
  rw [sortedNames, List.mem_mergeSort, List.mem_eraseDups]

theorem nodup_sortedNames (names : List String) : (sortedNames names).Nodup :=
  List.nodup_mergeSort.mpr (nodup_eraseDups names)

theorem pairwise_sortedNames (names : List String) : (sortedNames names).Pairwise (· ≤ ·) := by
  have htrans (a b c : String) (hab : decide (a ≤ b) = true) (hbc : decide (b ≤ c) = true) :
      decide (a ≤ c) = true :=
    decide_eq_true (String.le_trans (of_decide_eq_true hab) (of_decide_eq_true hbc))
  have htotal (a b : String) : (decide (a ≤ b) || decide (b ≤ a)) = true := by
    rw [Bool.or_eq_true, decide_eq_true_iff, decide_eq_true_iff]
    exact String.le_total a b
  exact (List.pairwise_mergeSort htrans htotal names.eraseDups).imp of_decide_eq_true

/-- No name stands twice, so they ascend. -/
theorem pairwise_lt_sortedNames (names : List String) :
    (sortedNames names).Pairwise (· < ·) :=
  ((pairwise_sortedNames names).and (nodup_sortedNames names)).imp fun hab =>
    String.not_le.mp fun hle => hab.2 (String.le_antisymm hab.1 hle)

theorem eq_of_sorted {names names' : List String} (hnodup : names.Nodup)
    (hnodup' : names'.Nodup) (hsorted : names.Pairwise (· ≤ ·))
    (hsorted' : names'.Pairwise (· ≤ ·)) (h : ∀ n, n ∈ names ↔ n ∈ names') : names = names' :=
  ((List.perm_ext_iff_of_nodup hnodup hnodup').mpr h).eq_of_pairwise
    (fun _ _ _ _ => String.le_antisymm) hsorted hsorted'

theorem sortedNames_congr {names names' : List String} (h : ∀ n, n ∈ names ↔ n ∈ names') :
    sortedNames names = sortedNames names' :=
  eq_of_sorted (nodup_sortedNames _) (nodup_sortedNames _) (pairwise_sortedNames _)
    (pairwise_sortedNames _) fun n => by rw [mem_sortedNames, mem_sortedNames, h]

/-- Looking up a name in a table that has an entry for each of some names. -/
theorem lookup_map_names {β : Type} (f : String → β) (n : String) (names : List String) :
    (names.map fun m => (m, f m)).lookup n = if n ∈ names then some (f n) else none := by
  induction names with
  | nil => rfl
  | cons m names ih =>
      rw [List.map_cons, List.lookup_cons, ih]
      by_cases heq : n = m
      · subst heq
        simp
      · rw [beq_eq_false_iff_ne.mpr heq]
        simp [heq]

/-! ### Association lists -/

section

variable {β : Type}

/-- Ascending by name, each name once. -/
def SortedByName (entries : List (String × β)) : Prop :=
  (entries.map Prod.fst).Pairwise (· < ·)

theorem SortedByName.nil : SortedByName ([] : List (String × β)) := List.Pairwise.nil

theorem mem_of_mem_insertSorted {name : String} {value : β} {entries : List (String × β)} :
    ∀ e ∈ insertSorted name value entries, e = (name, value) ∨ e ∈ entries := by
  induction entries with
  | nil => exact fun e he => Or.inl (List.mem_singleton.mp he)
  | cons entry rest ih =>
      intro e he
      unfold insertSorted at he
      split at he
      · exact List.mem_cons.mp he
      · split at he
        · rcases List.mem_cons.mp he with rfl | he
          · exact Or.inl rfl
          · exact Or.inr (List.mem_cons_of_mem _ he)
        · rcases List.mem_cons.mp he with rfl | he
          · exact Or.inr List.mem_cons_self
          · exact (ih e he).imp_right (List.mem_cons_of_mem _)

theorem SortedByName.insertSorted {entries : List (String × β)} (h : SortedByName entries)
    (name : String) (value : β) : SortedByName (insertSorted name value entries) := by
  induction entries with
  | nil => exact List.pairwise_singleton _ _
  | cons entry rest ih =>
      obtain ⟨hfirst, hrest⟩ := List.pairwise_cons.mp h
      unfold SolverPortfolio.insertSorted
      split
      · rename_i hlt
        refine List.pairwise_cons.mpr ⟨fun n hn => ?_, h⟩
        rcases List.mem_cons.mp hn with rfl | hn
        · exact hlt
        · exact String.lt_trans hlt (hfirst n hn)
      · rename_i hnlt
        split
        · rename_i heq
          subst heq
          exact List.pairwise_cons.mpr ⟨hfirst, hrest⟩
        · rename_i hne
          refine List.pairwise_cons.mpr ⟨fun n hn => ?_, ih hrest⟩
          obtain ⟨e, he, rfl⟩ := List.mem_map.mp hn
          rcases mem_of_mem_insertSorted e he with rfl | he
          · exact String.not_le.mp fun hle => hne (String.le_antisymm (String.not_lt.mp hnlt) hle)
          · exact hfirst _ (List.mem_map_of_mem he)

theorem insertSorted_eq_append {name : String} {value : β} {entries : List (String × β)}
    (h : ∀ e ∈ entries, e.1 < name) :
    insertSorted name value entries = entries ++ [(name, value)] := by
  induction entries with
  | nil => rfl
  | cons entry rest ih =>
      rw [List.forall_mem_cons] at h
      have hne : entry.1 ≠ name := fun heq => String.lt_irrefl name (heq ▸ h.1)
      rw [insertSorted, if_neg (String.lt_asymm h.1), if_neg hne, ih h.2]
      rfl

/-- A sorted association list is put together again from its entries. -/
theorem foldl_insertSorted {entries : List (String × β)} (h : SortedByName entries) :
    entries.foldl (fun ts e => insertSorted e.1 e.2 ts) [] = entries := by
  have hfold : ∀ front : List (String × β), SortedByName (front ++ entries) →
      entries.foldl (fun ts e => insertSorted e.1 e.2 ts) front = front ++ entries := by
    induction entries with
    | nil => exact fun front _ => (List.append_nil front).symm
    | cons entry rest ih =>
        intro front hfront
        have hlast : ∀ e ∈ front, e.1 < entry.1 := by
          intro e he
          unfold SortedByName at hfront
          rw [List.map_append, List.pairwise_append] at hfront
          exact hfront.2.2 _ (List.mem_map_of_mem he) _ List.mem_cons_self
        rw [List.append_cons] at hfront ⊢
        rw [List.foldl_cons, insertSorted_eq_append hlast]
        exact ih (List.pairwise_cons.mp h).2 _ hfront
  exact hfold [] h

theorem sortedByName_foldl {front : List (String × β)} (h : SortedByName front)
    (entries : List (String × β)) :
    SortedByName (entries.foldl (fun ts e => insertSorted e.1 e.2 ts) front) := by
  induction entries generalizing front with
  | nil => exact h
  | cons entry rest ih => exact ih (h.insertSorted entry.1 entry.2)

theorem mem_of_mem_foldl {entries front : List (String × β)} :
    ∀ e ∈ entries.foldl (fun ts e => insertSorted e.1 e.2 ts) front, e ∈ front ∨ e ∈ entries := by
  induction entries generalizing front with
  | nil => exact fun e he => Or.inl he
  | cons entry rest ih =>
      intro e he
      rcases ih e he with he | he
      · rcases mem_of_mem_insertSorted e he with rfl | he
        · exact Or.inr List.mem_cons_self
        · exact Or.inl he
      · exact Or.inr (List.mem_cons_of_mem _ he)

theorem sortedByName_sortedNames (f : String → β) (names : List String) :
    SortedByName ((sortedNames names).map fun n => (n, f n)) := by
  have hnames : ((sortedNames names).map fun n => (n, f n)).map Prod.fst = sortedNames names := by
    rw [List.map_map]
    exact List.map_id _
  rw [SortedByName, hnames]
  exact pairwise_lt_sortedNames names

end

end SolverPortfolio
