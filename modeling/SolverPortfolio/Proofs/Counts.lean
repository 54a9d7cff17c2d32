import Mathlib.Algebra.BigOperators.Intervals
import Mathlib.Algebra.Order.BigOperators.Group.Finset
import SolverPortfolio.Counts
import SolverPortfolio.Mixture

/-!
# Count arrays

Cells, the tallies they make up, and the totals of their rows.
-/

namespace SolverPortfolio

/-!
## Histories as tallies

A count array has a cell for every action and every outcome (`Counts.IsSized`); one more in a
cell leaves the others alone (`Counts.get_bump`), and it is one more as long as the cell has room
(`Counts.toNat_get_bump`). A cell without room stops the library (`Counts.record_eq_some_iff`).

The history of a session has a column for every kind of outcome (`Counts.Tallies`).
Recording an outcome adds one to its cell and leaves the others alone
(`Tallies.toNat_get_of_record`), and a history is nothing but its cells (`Tallies.ext`): in what
order outcomes were recorded cannot be told from it.
-/

@[simp] theorem OutcomeKind.index_inj {k l : OutcomeKind} : k.index = l.index ↔ k = l := by
  cases k <;> cases l <;> decide

/-- Every column is that of some kind. -/
theorem OutcomeKind.exists_index {j : Nat} (h : j < count) : ∃ k : OutcomeKind, k.index = j := by
  match j, h with
  | 0, _ => exact ⟨.unsolved, rfl⟩
  | 1, _ => exact ⟨.positive, rfl⟩
  | 2, _ => exact ⟨.negative, rfl⟩

/-- A row of a list is its entries. -/
theorem take_drop_eq_map_range {β : Type} {xs : List β} {a k : Nat} (h : (a + 1) * k ≤ xs.length)
    (b : β) : (xs.drop (a * k)).take k = (List.range k).map fun j => xs.getD (a * k + j) b := by
  rw [Nat.succ_mul] at h
  refine List.ext_getElem? fun j => ?_
  rw [List.getElem?_map]
  by_cases hj : j < k
  · have hplace : a * k + j < xs.length := by omega
    rw [List.getElem?_take_of_lt hj, List.getElem?_drop, List.getElem?_range hj, Option.map_some,
      List.getD_eq_getElem?_getD, List.getElem?_eq_getElem hplace, Option.getD_some]
  · rw [List.getElem?_eq_none (by rw [List.length_take]; omega),
      List.getElem?_eq_none (by rw [List.length_range]; omega), Option.map_none]

namespace Counts

/-! ### Cells -/

theorem place_inj {c : Counts} {i j d e : Nat} (hd : d < c.noutcomes) (he : e < c.noutcomes) :
    c.place i d = c.place j e ↔ i = j ∧ d = e := by
  constructor
  · intro h
    have hpos := Nat.zero_lt_of_lt hd
    have hdiv := congrArg (· / c.noutcomes) h
    have hmod := congrArg (· % c.noutcomes) h
    simp only [place, Nat.mul_comm _ c.noutcomes, Nat.mul_add_div hpos, Nat.mul_add_mod,
      Nat.div_eq_of_lt hd, Nat.div_eq_of_lt he, Nat.mod_eq_of_lt hd, Nat.mod_eq_of_lt he,
      Nat.add_zero] at hdiv hmod
    exact ⟨hdiv, hmod⟩
  · rintro ⟨rfl, rfl⟩
    rfl

/-- One more in one cell, and nothing else. -/
theorem get_bump {c : Counts} {i j d e : Nat} (hd : d < c.noutcomes) (he : e < c.noutcomes)
    (hlt : c.place i d < c.cells.length) :
    (c.bump i d).get j e = c.get j e + if j = i ∧ e = d then 1 else 0 := by
  have hplace := place_inj (c := c) (i := i) (j := j) hd he
  show ((c.cells.modify (c.place i d) (· + 1)).getD (c.place j e) 0) =
    c.cells.getD (c.place j e) 0 + _
  rw [List.getD_eq_getElem?_getD, List.getD_eq_getElem?_getD, List.getElem?_modify]
  by_cases heq : c.place i d = c.place j e
  · obtain ⟨rfl, rfl⟩ := hplace.mp heq
    rw [if_pos ⟨rfl, rfl⟩, List.getElem?_eq_getElem hlt]
    simp
  · have hne : ¬(j = i ∧ e = d) := fun h => heq (hplace.mpr ⟨h.1.symm, h.2.symm⟩)
    rw [if_neg hne, UInt32.add_zero]
    simp [heq]

/-! ### Room for one more -/

theorem plus?_eq_some_iff {x y z : UInt32} :
    plus? x y = some z ↔ x.toNat + y.toNat < UInt32.size ∧ x + y = z := by
  rw [plus?, Option.ite_none_right_eq_some, Option.some_inj]

theorem hasRoom_iff {c : Counts} {i d : Nat} :
    c.hasRoom i d = true ↔ (c.get i d).toNat + 1 < UInt32.size := by
  rw [hasRoom, Option.isSome_iff_exists]
  simp only [plus?_eq_some_iff, exists_and_left, exists_eq', and_true]
  rfl

theorem increment_eq_some_iff {c c' : Counts} {i d : Nat} :
    c.increment i d = some c' ↔ c.hasRoom i d = true ∧ c' = c.bump i d := by
  rw [increment, Option.ite_none_right_eq_some, Option.some_inj, eq_comm (a := c')]

theorem record_eq_some_iff {c c' : Counts} {i : Nat} {k : OutcomeKind} :
    c.record i k = some c' ↔ c.hasRoom i k.index = true ∧ c' = c.bump i k.index :=
  increment_eq_some_iff

theorem record_eq_some {c : Counts} {i : Nat} {k : OutcomeKind}
    (h : c.hasRoom i k.index = true) : c.record i k = some (c.bump i k.index) := if_pos h

theorem record_eq_none {c : Counts} {i : Nat} {k : OutcomeKind}
    (h : ¬c.hasRoom i k.index = true) : c.record i k = none := if_neg h

/-- With room for it, one more is one more. -/
theorem toNat_get_bump {c : Counts} {i j d e : Nat} (hd : d < c.noutcomes) (he : e < c.noutcomes)
    (hlt : c.place i d < c.cells.length) (hroom : c.hasRoom i d = true) :
    ((c.bump i d).get j e).toNat = (c.get j e).toNat + if j = i ∧ e = d then 1 else 0 := by
  rw [get_bump hd he hlt, UInt32.toNat_add]
  by_cases heq : j = i ∧ e = d
  · obtain ⟨rfl, rfl⟩ := heq
    rw [if_pos ⟨rfl, rfl⟩, if_pos ⟨rfl, rfl⟩]
    exact Nat.mod_eq_of_lt (hasRoom_iff.mp hroom)
  · rw [if_neg heq, if_neg heq]
    exact Nat.mod_eq_of_lt (c.get j e).toNat_lt

/-! ### Sizes -/

/-- There is a cell for each of `n` actions and each of `k` outcomes. -/
structure IsSized (c : Counts) (n k : Nat) : Prop where
  nactions : c.nactions = n
  noutcomes : c.noutcomes = k
  length : c.cells.length = n * k

namespace IsSized

variable {c : Counts} {n k : Nat}

theorem place_lt (h : c.IsSized n k) {i d : Nat} (hi : i < n) (hd : d < k) :
    c.place i d < c.cells.length := by
  have hle : (i + 1) * k ≤ n * k := Nat.mul_le_mul_right k hi
  rw [Nat.succ_mul] at hle
  rw [place, h.noutcomes, h.length]
  omega

theorem bump (h : c.IsSized n k) (i d : Nat) : (c.bump i d).IsSized n k :=
  ⟨h.nactions, h.noutcomes, (List.length_modify ..).trans h.length⟩

theorem row_eq (h : c.IsSized n k) {a : Nat} (ha : a < n) :
    c.row a = (List.range k).map (c.get a) := by
  have hle : (a + 1) * k ≤ c.cells.length := by
    rw [h.length]
    exact Nat.mul_le_mul_right k ha
  have hrow := take_drop_eq_map_range hle 0
  rw [← h.noutcomes] at hrow ⊢
  exact hrow

end IsSized

/-! ### Histories -/

/-- There is a cell for each of `n` actions and each kind of outcome. -/
structure Tallies (c : Counts) (n : Nat) : Prop where
  nactions : c.nactions = n
  noutcomes : c.noutcomes = OutcomeKind.count
  length : c.cells.length = n * OutcomeKind.count

theorem tallies_fresh (n : Nat) : (fresh n).Tallies n := ⟨rfl, rfl, List.length_replicate⟩

@[simp] theorem get_fresh (n i j : Nat) : (fresh n).get i j = 0 := by
  rw [get, List.getD_eq_getElem?_getD, fresh, zeros, List.getElem?_replicate]
  split <;> rfl

theorem get_of_isZero {c : Counts} (h : c.isZero = true) (a d : Nat) : c.get a d = 0 := by
  rw [get, List.getD_eq_getElem?_getD]
  cases hcell : c.cells[c.place a d]? with
  | none => rfl
  | some u => exact beq_iff_eq.mp (List.all_eq_true.mp h u (List.mem_of_getElem? hcell))

theorem isZero_fresh (n : Nat) : (fresh n).isZero = true := by
  rw [isZero, fresh, zeros, List.all_eq_true]
  intro c hc
  rw [List.eq_of_mem_replicate hc]
  rfl

namespace Tallies

variable {c c' : Counts} {n : Nat}

theorem isSized (h : c.Tallies n) : c.IsSized n OutcomeKind.count :=
  ⟨h.nactions, h.noutcomes, h.length⟩

theorem bump (h : c.Tallies n) (i d : Nat) : (c.bump i d).Tallies n :=
  ⟨h.nactions, h.noutcomes, (List.length_modify ..).trans h.length⟩

theorem record (h : c.Tallies n) {i : Nat} {k : OutcomeKind} (hc : c.record i k = some c') :
    c'.Tallies n := by
  obtain ⟨-, rfl⟩ := record_eq_some_iff.mp hc
  exact h.bump i k.index

theorem place_lt (h : c.Tallies n) {i : Nat} (hi : i < n) (k : OutcomeKind) :
    c.place i k.index < c.cells.length :=
  h.isSized.place_lt hi k.index_lt_count

/-- One more in the cell of the action and the kind, and nothing else. -/
theorem toNat_get_of_record (h : c.Tallies n) {i : Nat} (hi : i < n) {k : OutcomeKind}
    (hc : c.record i k = some c') (j : Nat) (l : OutcomeKind) :
    (c'.get j l.index).toNat = (c.get j l.index).toNat + if j = i ∧ l = k then 1 else 0 := by
  obtain ⟨hroom, rfl⟩ := record_eq_some_iff.mp hc
  rw [toNat_get_bump (h.noutcomes ▸ k.index_lt_count) (h.noutcomes ▸ l.index_lt_count)
    (h.place_lt hi k) hroom]
  simp only [OutcomeKind.index_inj]

/-- A history is its cells. -/
theorem ext (h : c.Tallies n) (h' : c'.Tallies n)
    (hget : ∀ i < n, ∀ k : OutcomeKind, c.get i k.index = c'.get i k.index) : c = c' := by
  have hcells : c.cells = c'.cells := by
    refine List.ext_getElem (h.length.trans h'.length.symm) fun p hp hp' => ?_
    have hlt : p < n * 3 := lt_of_lt_of_eq hp h.length
    obtain ⟨k, hk⟩ := OutcomeKind.exists_index (j := p % 3) (Nat.mod_lt p (by decide))
    have hplace : p / 3 * OutcomeKind.count + k.index = p := by
      rw [hk, OutcomeKind.count]
      omega
    have hcell := hget (p / 3) (by omega) k
    rw [get, get, place, place, h.noutcomes, h'.noutcomes, hplace, List.getD_eq_getElem?_getD,
      List.getD_eq_getElem?_getD, List.getElem?_eq_getElem hp,
      List.getElem?_eq_getElem hp'] at hcell
    exact hcell
  have hn := h.nactions.trans h'.nactions.symm
  have ho := h.noutcomes.trans h'.noutcomes.symm
  obtain ⟨_, _, _⟩ := c
  obtain ⟨_, _, _⟩ := c'
  exact mk.injEq .. ▸ ⟨hn, ho, hcells⟩

end Tallies

end Counts

/-!
## Row totals

The total of a row is the number of its observations, so it is zero for the rows without outcomes
and for no others (`Counts.total_eq_zero_iff`), and one more outcome is one more in it
(`Counts.IsSized.total_bump_self`). As it is added up, a total is a word of 32 bits: it is that
number where it fits, and there is none where it does not (`Counts.total?_eq`,
`Counts.hasTotals_iff`). A mixture gets through the histories whose totals fit
(`Mixture.canRead_iff`).
-/

namespace Counts

/-! ### Totals as they are added up -/

theorem total_eq_sum (c : Counts) (a : ℕ) :
    c.total a = ((c.row a).map UInt32.toNat).sum := by
  rw [total, List.sum_eq_foldl, List.foldl_map]

theorem foldlM_plus?_eq (xs : List UInt32) (u : UInt32) :
    xs.foldlM plus? u =
      if u.toNat + (xs.map UInt32.toNat).sum < UInt32.size then
        some (UInt32.ofNat (u.toNat + (xs.map UInt32.toNat).sum))
      else none := by
  induction xs generalizing u with
  | nil => simpa using u.toNat_lt
  | cons x xs ih =>
      rw [List.foldlM_cons, List.map_cons, List.sum_cons, ← Nat.add_assoc]
      by_cases hsum : u.toNat + x.toNat < UInt32.size
      · have htoNat : (u + x).toNat = u.toNat + x.toNat := by
          rw [UInt32.toNat_add]
          exact Nat.mod_eq_of_lt hsum
        rw [plus?_eq_some_iff.mpr ⟨hsum, rfl⟩, Option.bind_eq_bind, Option.bind_some, ih, htoNat]
      · have hnone : plus? u x = none := if_neg hsum
        have hfull : ¬u.toNat + x.toNat + (xs.map UInt32.toNat).sum < UInt32.size := by omega
        rw [hnone, if_neg hfull]
        rfl

/-- A total that fits into a word is the number of observations, and any other one is none. -/
theorem total?_eq (c : Counts) (a : ℕ) : c.total? a =
    if c.total a < UInt32.size then some (UInt32.ofNat (c.total a)) else none := by
  rw [total?, foldlM_plus?_eq, UInt32.toNat_zero, Nat.zero_add, total_eq_sum]

theorem hasTotals_iff {c : Counts} {n : ℕ} :
    c.hasTotals n = true ↔ ∀ a < n, c.total a < UInt32.size := by
  have hfits : ∀ a, (c.total? a).isSome = true ↔ c.total a < UInt32.size := by
    intro a
    rw [total?_eq]
    split <;> simp [*]
  simp only [hasTotals, List.all_eq_true, List.mem_range, hfits]

/-! ### Rows with outcomes -/

/-- Some outcome is counted for the action. -/
def HasOutcomes (c : Counts) (a : ℕ) : Prop := ∃ u ∈ c.row a, u ≠ 0

instance (c : Counts) (a : ℕ) : Decidable (c.HasOutcomes a) :=
  inferInstanceAs (Decidable (∃ u ∈ c.row a, u ≠ 0))

theorem hasOutcomes_iff {c : Counts} {a : ℕ} : c.HasOutcomes a ↔ c.total a ≠ 0 := by
  rw [HasOutcomes, total_eq_sum, Ne, List.sum_eq_zero_iff]
  simp [← UInt32.toNat_inj]

theorem total_of_isZero {c : Counts} (h : c.isZero = true) (a : ℕ) : c.total a = 0 := by
  by_contra hne
  obtain ⟨u, hu, hzero⟩ := hasOutcomes_iff.mpr hne
  have hmem := List.mem_of_mem_drop (List.mem_of_mem_take hu)
  exact hzero (beq_iff_eq.mp (List.all_eq_true.mp h u hmem))

theorem total_bne_zero (c : Counts) (a : ℕ) :
    (c.total a != 0) = decide (c.HasOutcomes a) := by
  rw [Bool.eq_iff_iff, bne_iff_ne, decide_eq_true_iff, hasOutcomes_iff]

/-- A total that is not a word is not zero either. -/
theorem total?_bne (c : Counts) (a : ℕ) : (c.total? a != some 0) = (c.total a != 0) := by
  rw [Bool.eq_iff_iff, bne_iff_ne, bne_iff_ne, total?_eq]
  split
  · rename_i hfits
    rw [Ne, Option.some_inj, ← UInt32.toNat_inj, UInt32.toNat_ofNat_of_lt' hfits]
    rfl
  · rename_i hlarge
    exact iff_of_true nofun fun hzero => hlarge (hzero ▸ by decide)

/-! ### One more outcome -/

namespace IsSized

variable {c : Counts} {n k : ℕ} (h : c.IsSized n k) {a : ℕ} (ha : a < n)

include h ha

theorem total_eq : c.total a = ∑ d ∈ Finset.range k, (c.get a d).toNat := by
  rw [total_eq_sum, h.row_eq ha, List.map_map]
  rfl

theorem total_eq_zero_iff : c.total a = 0 ↔ ∀ d < k, c.get a d = 0 := by
  rw [h.total_eq ha, Finset.sum_eq_zero_iff]
  refine forall_congr' fun d => ?_
  rw [Finset.mem_range, ← UInt32.toNat_inj]
  rfl

/-- One more outcome of an action is one more in its total. -/
theorem total_bump_self {d : ℕ} (hd : d < k) (hroom : c.hasRoom a d = true) :
    (c.bump a d).total a = c.total a + 1 := by
  have hcell : ∀ e ∈ Finset.range k, ((c.bump a d).get a e).toNat =
      (c.get a e).toNat + if e = d then 1 else 0 := by
    intro e he
    rw [toNat_get_bump (h.noutcomes ▸ hd) (h.noutcomes ▸ Finset.mem_range.mp he)
      (h.place_lt ha hd) hroom]
    simp
  rw [(h.bump a d).total_eq ha, h.total_eq ha, Finset.sum_congr rfl hcell,
    Finset.sum_add_distrib, Finset.sum_ite_eq', if_pos (Finset.mem_range.mpr hd)]

omit ha in
/-- It leaves the totals of the others alone. -/
theorem total_bump {d b : ℕ} (ha : a < n) (hd : d < k) (hb : b < n) (hne : b ≠ a) :
    (c.bump a d).total b = c.total b := by
  have hrow : (c.bump a d).row b = c.row b := by
    rw [(h.bump a d).row_eq hb, h.row_eq hb]
    refine List.map_congr_left fun e he => ?_
    rw [get_bump (h.noutcomes ▸ hd) (h.noutcomes ▸ List.mem_range.mp he) (h.place_lt ha hd),
      if_neg fun heq => hne heq.1, UInt32.add_zero]
  rw [total, total, hrow]

end IsSized

end Counts

/-! ### Histories that add up -/

section

variable {α : Type} [Analytic α] [GammaFunctions α]

theorem Mixture.isSome_logLikelihood?_iff {m : Mixture α} {component : List α} {c : Counts} :
    (m.logLikelihood? component c).isSome = true ↔
      ∀ a < m.nactions, c.total a < UInt32.size := by
  rw [← Counts.hasTotals_iff, logLikelihood?]
  split <;> simp [*]

/-- A mixture gets through the histories whose totals are words. -/
theorem Mixture.canRead_iff {m : Mixture α} (hne : m.components ≠ []) {c : Counts} :
    m.canRead c = true ↔ ∀ a < m.nactions, c.total a < UInt32.size := by
  rw [canRead, Bool.or_eq_true, List.all_eq_true]
  simp only [isSome_logLikelihood?_iff]
  constructor
  · rintro (hzero | hall) a ha
    · rw [Counts.total_of_isZero hzero]
      decide
    · obtain ⟨component, hmem⟩ := List.exists_mem_of_ne_nil _ hne
      exact hall component hmem a ha
  · exact fun htotals => Or.inr fun _ _ => htotals

end

end SolverPortfolio
