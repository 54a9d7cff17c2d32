import SolverPortfolio.Proofs.Counts
import SolverPortfolio.Proofs.Portfolio.Checked
import SolverPortfolio.Proofs.Scalar.Rounded
import SolverPortfolio.Proofs.World

/-!
# Runs as readings

Whatever is counted, it goes into a count array item by item. An item that is not known stops the
count, and so does one for whose cell there is no room any more (`Counts.Collects`). A tally does
not know the order of what it counts (`Counts.tally_perm`, since recording commutes), and neither
does whether there is room for everything (`Counts.Fits`); so what is counted neither depends on
the order of the items (`Collects.perm`) nor on how they are grouped (`Collects.append`).

A recorded run is counted once for every rung it reaches; `World.readings` lists what it is
counted as, and the count array of a list of runs is the tally of their readings
(`World.collects_runs`). A run that does not even reach the first rung has no readings, so it can
be left out (`World.tallyOf_filter`).

In a checked world ceilings rise, so the rungs a run reaches are those it was given enough for
(`World.mem_reached`), and names tell solvers apart: what an action counts of a run can be read
off the run and the ceiling alone (`World.mem_readings`).
-/

namespace SolverPortfolio

open Scalar Rounded

/-! ## Tallies -/

namespace Counts

theorem bump_comm (c : Counts) (i j d e : Nat) :
    (c.bump i d).bump j e = (c.bump j e).bump i d := by
  have hplace : ∀ (x y : Nat), ((c.cells.modify x (· + 1)).modify y (· + 1)) =
      (c.cells.modify y (· + 1)).modify x (· + 1) := by
    intro x y
    refine List.ext_getElem? fun n => ?_
    simp only [List.getElem?_modify]
    cases c.cells[n]? with
    | none => rfl
    | some v => by_cases hx : x = n <;> by_cases hy : y = n <;> simp [hx, hy]
  simp only [bump, place, hplace]

/-- The history in which these outcomes were recorded. -/
def tally (n : Nat) (readings : List (Nat × OutcomeKind)) : Counts :=
  readings.foldl (fun c e => c.bump e.1 e.2.index) (fresh n)

theorem tally_perm {n : Nat} {es es' : List (Nat × OutcomeKind)} (h : es.Perm es') :
    tally n es = tally n es' :=
  h.foldl_eq' (fun _ _ _ _ c => c.bump_comm _ _ _ _) _

theorem tally_concat (n : Nat) (es : List (Nat × OutcomeKind)) (e : Nat × OutcomeKind) :
    tally n (es ++ [e]) = (tally n es).bump e.1 e.2.index := List.foldl_concat ..

theorem tallies_tally (n : Nat) (es : List (Nat × OutcomeKind)) : (tally n es).Tallies n := by
  induction es using List.reverseRecOn with
  | nil => exact tallies_fresh n
  | append_singleton es e ih =>
      rw [tally_concat]
      exact ih.bump e.1 e.2.index

theorem get_tally {n : Nat} {es : List (Nat × OutcomeKind)} (h : ∀ e ∈ es, e.1 < n) (i : Nat)
    (k : OutcomeKind) : (tally n es).get i k.index = UInt32.ofNat (es.count (i, k)) := by
  induction es using List.reverseRecOn with
  | nil => exact get_fresh n i k.index
  | append_singleton es e ih =>
      have htallies := tallies_tally n es
      rw [List.forall_mem_append, List.forall_mem_singleton] at h
      rw [tally_concat, get_bump (htallies.noutcomes ▸ e.2.index_lt_count)
        (htallies.noutcomes ▸ k.index_lt_count) (htallies.place_lt h.2 e.2), ih h.1,
        List.count_append, UInt32.ofNat_add, List.count_singleton]
      simp only [OutcomeKind.index_inj]
      congr 1
      by_cases heq : i = e.1 ∧ k = e.2
      · obtain ⟨rfl, rfl⟩ := heq
        simp
      · have hne : e ≠ (i, k) := by
          rintro rfl
          exact heq ⟨rfl, rfl⟩
        rw [if_neg heq, if_neg (by simpa using hne)]
        rfl

/-! ## Room for a tally -/

/-- A list of lists without repetitions has a member as often as there are lists that have it. -/
theorem count_flatMap_of_nodup {β γ : Type} [BEq γ] [LawfulBEq γ] {f : β → List γ}
    (hf : ∀ x, (f x).Nodup) (xs : List β) (y : γ) :
    (xs.flatMap f).count y = xs.countP fun x => (f x).contains y := by
  induction xs with
  | nil => rfl
  | cons x xs ih =>
      rw [List.flatMap_cons, List.count_append, ih, (hf x).count, List.countP_cons, Nat.add_comm]
      simp

/-- There is room in the cells for each of the outcomes. -/
def Fits (readings : List (Nat × OutcomeKind)) : Prop :=
  ∀ e ∈ readings, readings.count e < UInt32.size

instance (readings : List (Nat × OutcomeKind)) : Decidable (Fits readings) :=
  inferInstanceAs (Decidable (∀ e ∈ readings, readings.count e < UInt32.size))

section

variable {es es' : List (Nat × OutcomeKind)}

theorem fits_iff : Fits es ↔ ∀ e, es.count e < UInt32.size := by
  refine ⟨fun h e => ?_, fun h e _ => h e⟩
  by_cases he : e ∈ es
  · exact h e he
  · rw [List.count_eq_zero_of_not_mem he]
    decide

theorem fits_nil : Fits [] := nofun

theorem fits_perm (h : es.Perm es') : Fits es ↔ Fits es' := by
  simp only [fits_iff, h.count_eq]

theorem Fits.of_sublist (h : Fits es') (hsub : es.Sublist es') : Fits es :=
  fits_iff.mpr fun e => (hsub.count_le e).trans_lt (fits_iff.mp h e)

/-- As long as there is room for all that was recorded, the cells are its numbers. -/
theorem Fits.toNat_get_tally {n : Nat} (h : Fits es) (hes : ∀ e ∈ es, e.1 < n) (i : Nat)
    (k : OutcomeKind) : ((tally n es).get i k.index).toNat = es.count (i, k) := by
  rw [get_tally hes, UInt32.toNat_ofNat_of_lt' (fits_iff.mp h (i, k))]

/-- There is room for one more outcome if its cell has room. -/
theorem Fits.concat_iff {n : Nat} {e : Nat × OutcomeKind} (h : Fits es)
    (hes : ∀ x ∈ es, x.1 < n) :
    Fits (es ++ [e]) ↔ (tally n es).hasRoom e.1 e.2.index = true := by
  rw [hasRoom_iff, h.toNat_get_tally hes]
  constructor
  · intro hfits
    have hlast := fits_iff.mp hfits e
    rwa [List.count_append, List.count_singleton_self] at hlast
  · intro hroom
    refine fits_iff.mpr fun x => ?_
    rw [List.count_append, List.count_singleton]
    split
    · rename_i heq
      obtain rfl := beq_iff_eq.mp heq
      exact hroom
    · exact fits_iff.mp h x

/-- Recording goes on until there is no room. -/
theorem foldlM_record_eq {n : Nat} (h : Fits es) (hes : ∀ e ∈ es, e.1 < n)
    (hes' : ∀ e ∈ es', e.1 < n) :
    es'.foldlM (fun c e => c.record e.1 e.2) (tally n es) =
      if Fits (es ++ es') then some (tally n (es ++ es')) else none := by
  induction es' generalizing es with
  | nil => rw [List.append_nil, if_pos h]; rfl
  | cons e es' ih =>
      rw [List.forall_mem_cons] at hes'
      have happend : es ++ e :: es' = (es ++ [e]) ++ es' := by simp
      rw [List.foldlM_cons, happend]
      by_cases hroom : (tally n es).hasRoom e.1 e.2.index = true
      · have hes₁ : ∀ x ∈ es ++ [e], x.1 < n := by
          rw [List.forall_mem_append, List.forall_mem_singleton]
          exact ⟨hes, hes'.1⟩
        rw [record_eq_some hroom, ← ih ((h.concat_iff hes).mpr hroom) hes₁ hes'.2, tally_concat]
        rfl
      · have hfull : ¬Fits (es ++ [e] ++ es') := fun hfits =>
          hroom ((h.concat_iff hes).mp (hfits.of_sublist (List.sublist_append_left ..)))
        rw [record_eq_none hroom, if_neg hfull]
        rfl

end

/-! ## Two tallies together -/

/-- Cell by cell, what two count arrays hold together. -/
def plus (c c' : Counts) : Counts := { c with cells := List.zipWith (· + ·) c.cells c'.cells }

theorem get_plus {c c' : Counts} {n : Nat} (h : c.Tallies n) (h' : c'.Tallies n) (i : Nat)
    (k : OutcomeKind) : (c.plus c').get i k.index = c.get i k.index + c'.get i k.index := by
  have hlen : c.cells.length = c'.cells.length := h.length.trans h'.length.symm
  simp only [get, place, plus, h.noutcomes, h'.noutcomes, List.getD_eq_getElem?_getD,
    List.getElem?_zipWith]
  by_cases hp : i * OutcomeKind.count + k.index < c.cells.length
  · simp [List.getElem?_eq_getElem hp, List.getElem?_eq_getElem (hlen ▸ hp)]
  · simp [List.getElem?_eq_none (not_lt.mp hp), List.getElem?_eq_none (not_lt.mp (hlen ▸ hp))]

theorem Tallies.plus {c c' : Counts} {n : Nat} (h : c.Tallies n) (h' : c'.Tallies n) :
    (c.plus c').Tallies n where
  nactions := h.nactions
  noutcomes := h.noutcomes
  length := by simp [Counts.plus, h.length, h'.length]

/-- What is recorded in one of two count arrays is recorded in both together. -/
theorem plus_bump {c c' : Counts} {n : Nat} (h : c.Tallies n) (h' : c'.Tallies n) (i : Nat)
    (k : OutcomeKind) : c.plus (c'.bump i k.index) = (c.plus c').bump i k.index := by
  have hplace : c'.place i k.index = (c.plus c').place i k.index := by
    simp [place, Counts.plus, h.noutcomes, h'.noutcomes]
  simp only [bump, Counts.plus, hplace, mk.injEq, true_and]
  refine List.ext_getElem? fun p => ?_
  simp only [List.getElem?_modify, List.getElem?_zipWith]
  cases c.cells[p]? <;> cases c'.cells[p]? <;> simp
  split <;> simp [UInt32.add_assoc]

theorem tally_append (n : Nat) (es es' : List (Nat × OutcomeKind)) :
    tally n (es ++ es') = (tally n es).plus (tally n es') := by
  induction es' using List.reverseRecOn with
  | nil =>
      have htallies := tallies_tally n es
      rw [List.append_nil]
      refine htallies.ext (htallies.plus (tallies_tally n [])) fun i _ k => ?_
      have hzero : (tally n []).get i k.index = 0 := get_fresh n i k.index
      rw [get_plus htallies (tallies_tally n []), hzero, UInt32.add_zero]
  | append_singleton es' e ih =>
      rw [← List.append_assoc, tally_concat, tally_concat, ih,
        plus_bump (tallies_tally n es) (tallies_tally n es')]

/-! ## Counting that may be refused -/

/-- Counting goes through a list and tallies what each item is read as; the first item that is
not known is reported, unless there was no room before. -/
def Collects {α β : Type} (count : List β → Decision α Counts) (n : Nat)
    (readings : β → List (Nat × OutcomeKind)) (known : β → Bool) (fault : β → PortfolioError α) :
    Prop :=
  ∀ xs, count xs =
    if Fits ((xs.takeWhile known).flatMap readings) then
      match xs.find? (fun x => !known x) with
      | some x => .error (fault x)
      | none => .ok (tally n (xs.flatMap readings))
    else .error .overflow

/-- Adding item by item is such a count. -/
theorem collects_foldlM {α β : Type} {add : Counts → β → Decision α Counts} {n : Nat}
    {readings : β → List (Nat × OutcomeKind)} {known : β → Bool} {fault : β → PortfolioError α}
    (hreadings : ∀ x, ∀ e ∈ readings x, e.1 < n)
    (hok : ∀ c x, known x = true →
      add c x = .inWords ((readings x).foldlM (fun c e => c.record e.1 e.2) c))
    (herror : ∀ c x, known x = false → add c x = .error (fault x)) :
    Collects (fun xs => xs.foldlM add (fresh n)) n readings known fault := by
  intro xs
  -- what was recorded before the rest of the list is counted
  suffices hfrom : ∀ es, (∀ e ∈ es, e.1 < n) → Fits es → xs.foldlM add (tally n es) =
      if Fits (es ++ (xs.takeWhile known).flatMap readings) then
        match xs.find? (fun x => !known x) with
        | some x => .error (fault x)
        | none => .ok (tally n (es ++ xs.flatMap readings))
      else .error .overflow from hfrom [] nofun fits_nil
  induction xs with
  | nil =>
      intro es _ hfits
      rw [List.takeWhile_nil, List.flatMap_nil, List.append_nil, if_pos hfits]
      rfl
  | cons x xs ih =>
      intro es hes hfits
      rw [List.foldlM_cons, List.find?_cons, List.takeWhile_cons]
      cases hx : known x with
      | true =>
          simp only [if_true, Bool.not_true, List.flatMap_cons, ← List.append_assoc]
          rw [hok _ x hx, foldlM_record_eq hfits hes (hreadings x)]
          by_cases hroom : Fits (es ++ readings x)
          · rw [if_pos hroom, ← ih _ (List.forall_mem_append.mpr ⟨hes, hreadings x⟩) hroom]
            rfl
          · have hfull : ¬Fits (es ++ readings x ++ (xs.takeWhile known).flatMap readings) :=
              fun h => hroom (h.of_sublist (List.sublist_append_left ..))
            rw [if_neg hroom, if_neg hfull]
            rfl
      | false =>
          simp only [Bool.false_eq_true, if_false, List.flatMap_nil, List.append_nil]
          rw [herror _ x hx, if_pos hfits]
          rfl

namespace Collects

variable {α β : Type} {count : List β → Decision α Counts} {n : Nat}
  {readings : β → List (Nat × OutcomeKind)} {known : β → Bool} {fault : β → PortfolioError α}
  {xs ys : List β}

/-- With room for everything, only unknown items are reported. -/
theorem eq_of_fits (h : Collects count n readings known fault)
    (hfits : Fits (xs.flatMap readings)) : count xs =
      match xs.find? (fun x => !known x) with
      | some x => .error (fault x)
      | none => .ok (tally n (xs.flatMap readings)) := by
  rw [h xs, if_pos (hfits.of_sublist ((List.takeWhile_sublist _).flatMap _))]

/-- Without unknown items only room decides. -/
theorem eq_of_known (h : Collects count n readings known fault)
    (hall : ∀ x ∈ xs, known x = true) : count xs =
      if Fits (xs.flatMap readings) then .ok (tally n (xs.flatMap readings))
      else .error .overflow := by
  have hnone : xs.find? (fun x => !known x) = none :=
    List.find?_eq_none.mpr fun x hx => by simp [hall x hx]
  rw [h xs, List.takeWhile_eq_self_iff.mpr hall, hnone]

/-- The error is that of an unknown item, or there is no room. -/
theorem eq_error (h : Collects count n readings known fault) {e : PortfolioError α}
    (he : count xs = .error e) : (∃ x ∈ xs, known x = false ∧ e = fault x) ∨
      e = .overflow ∧ ¬Fits (xs.flatMap readings) := by
  rw [h xs] at he
  split at he
  · cases hfind : xs.find? fun x => !known x with
    | none =>
        rw [hfind] at he
        cases he
    | some x =>
        rw [hfind] at he
        refine Or.inl ⟨x, List.mem_of_find?_eq_some hfind, ?_, (Except.error.inj he).symm⟩
        simpa using List.find?_some hfind
  · rename_i hfull
    refine Or.inr ⟨(Except.error.inj he).symm, fun hfits => hfull (hfits.of_sublist ?_)⟩
    exact (List.takeWhile_sublist _).flatMap _

theorem eq_ok_iff (h : Collects count n readings known fault) {c : Counts} :
    count xs = .ok c ↔ (∀ x ∈ xs, known x = true) ∧ Fits (xs.flatMap readings) ∧
      c = tally n (xs.flatMap readings) := by
  by_cases hall : ∀ x ∈ xs, known x = true
  · rw [h.eq_of_known hall]
    constructor
    · intro hc
      split at hc
      · rename_i hfits
        exact ⟨hall, hfits, (Except.ok.inj hc).symm⟩
      · cases hc
    · rintro ⟨-, hfits, rfl⟩
      rw [if_pos hfits]
  · refine iff_of_false (fun hc => ?_) fun hc => hall hc.1
    obtain ⟨x, hx⟩ : ∃ x, xs.find? (fun x => !known x) = some x := by
      rw [← Option.isSome_iff_exists, List.find?_isSome]
      simpa using hall
    rw [h xs, hx] at hc
    split at hc <;> cases hc

theorem fails_iff (h : Collects count n readings known fault) :
    (∃ e, count xs = .error e) ↔
      (∃ x ∈ xs, known x = false) ∨ ¬Fits (xs.flatMap readings) := by
  constructor
  · rintro ⟨e, he⟩
    rcases h.eq_error he with ⟨x, hmem, hx, -⟩ | ⟨-, hfull⟩
    · exact Or.inl ⟨x, hmem, hx⟩
    · exact Or.inr hfull
  · intro hfault
    cases hc : count xs with
    | error e => exact ⟨e, rfl⟩
    | ok c =>
        obtain ⟨hall, hfits, -⟩ := h.eq_ok_iff.mp hc
        rcases hfault with ⟨x, hmem, hx⟩ | hfull
        · rw [hall x hmem] at hx
          cases hx
        · exact absurd hfits hfull

theorem perm (h : Collects count n readings known fault) (hp : xs.Perm ys) {c : Counts} :
    count xs = .ok c ↔ count ys = .ok c := by
  have hreadings := hp.flatMap_right readings
  rw [h.eq_ok_iff, h.eq_ok_iff, tally_perm hreadings, fits_perm hreadings]
  simp only [hp.mem_iff]

/-- With room for both, two lists are counted together as they are one after the other. -/
theorem append (h : Collects count n readings known fault)
    (hfits : Fits ((xs ++ ys).flatMap readings)) :
    count (xs ++ ys) = (count xs).bind fun c => (count ys).map c.plus := by
  rw [h.eq_of_fits hfits]
  rw [List.flatMap_append] at hfits ⊢
  rw [h.eq_of_fits (hfits.of_sublist (List.sublist_append_left ..)),
    h.eq_of_fits (hfits.of_sublist (List.sublist_append_right ..)), List.find?_append]
  cases xs.find? (fun x => !known x) with
  | some x => rfl
  | none =>
      cases ys.find? (fun x => !known x) with
      | some y => rfl
      | none =>
          rw [tally_append]
          rfl

end Collects

end Counts

/-! ## Readings -/

namespace World

section readings

variable {α : Type} [Scalar α]

/-- What a run is counted as: for each rung it reaches, the action of its solver there and the
kind of outcome. A solver outside the world has no actions. -/
def readings (w : World α) (run : RecordedRun α) : List (Nat × OutcomeKind) :=
  (w.solverIndex? run.solver).toList.flatMap fun s =>
    (w.reached run).map fun r => (w.index s r, w.kindAt run r)

/-- The counts of all readings of some runs. -/
def tallyOf (w : World α) (runs : List (RecordedRun α)) : Counts :=
  Counts.tally w.nactions (runs.flatMap w.readings)

/-- There is room for all readings of some runs. -/
def HasCounts (w : World α) (runs : List (RecordedRun α)) : Prop :=
  Counts.Fits (runs.flatMap w.readings)

instance (w : World α) (runs : List (RecordedRun α)) : Decidable (w.HasCounts runs) :=
  inferInstanceAs (Decidable (Counts.Fits (runs.flatMap w.readings)))

/-- The run is of a solver of the world and reaches the first rung. -/
def isUsable (w : World α) (run : RecordedRun α) : Bool :=
  (w.solverIndex? run.solver).isSome && w.reaches run 0

variable {w : World α} {run : RecordedRun α}

theorem fst_lt_of_mem_readings {e : Nat × OutcomeKind} (h : e ∈ w.readings run) :
    e.1 < w.nactions := by
  simp only [readings, List.mem_flatMap, Option.mem_toList, List.mem_map] at h
  obtain ⟨s, hs, r, hr, rfl⟩ := h
  obtain ⟨hs, _⟩ := List.idxOf?_eq_some_iff.mp hs
  exact index_lt_nactions hs (List.mem_range.mp (List.takeWhile_subset _ hr))

/-- Runs are counted by their readings, and a solver outside the world is reported. -/
theorem collects_runs (w : World α) : Counts.Collects w.countsFromRuns w.nactions w.readings
    (fun run => (w.solverIndex? run.solver).isSome) fun run => .unknownSolver run.solver := by
  refine Counts.collects_foldlM (fun _ _ => fst_lt_of_mem_readings) (fun c run h => ?_)
    fun c run h => ?_
  · obtain ⟨s, hs⟩ := Option.isSome_iff_exists.mp h
    simp only [addRun, readings, hs, expand, Option.toList_some, List.flatMap_singleton,
      List.foldlM_map]
  · rw [Option.isSome_eq_false_iff, Option.isNone_iff_eq_none] at h
    rw [addRun, h]

theorem countsFromRuns_eq {runs : List (RecordedRun α)}
    (h : ∀ run ∈ runs, (w.solverIndex? run.solver).isSome = true) :
    w.countsFromRuns runs =
      if w.HasCounts runs then .ok (w.tallyOf runs) else .error .overflow :=
  (collects_runs w).eq_of_known h

theorem countsFromRuns_eq_ok_iff {runs : List (RecordedRun α)} {c : Counts} :
    w.countsFromRuns runs = .ok c ↔
      (∀ run ∈ runs, (w.solverIndex? run.solver).isSome = true) ∧ w.HasCounts runs ∧
        c = w.tallyOf runs :=
  (collects_runs w).eq_ok_iff

/-- Runs can be counted if the world has their solvers and there is room for them. -/
theorem exists_countsFromRuns_iff {runs : List (RecordedRun α)} :
    (∃ c, w.countsFromRuns runs = .ok c) ↔
      (∀ run ∈ runs, (w.solverIndex? run.solver).isSome = true) ∧ w.HasCounts runs := by
  simp only [countsFromRuns_eq_ok_iff, ← and_assoc, exists_and_left, exists_eq, and_true]

/-- A run that does not reach the first rung reaches none. -/
theorem reached_eq_nil (h : w.reaches run 0 = false) : w.reached run = [] := by
  rw [reached]
  cases w.nbudgets with
  | zero => rfl
  | succ n => rw [List.range_succ_eq_map, List.takeWhile_cons, h, if_neg Bool.false_ne_true]

theorem readings_eq_nil (h : w.isUsable run = false) : w.readings run = [] := by
  rcases Bool.and_eq_false_iff.mp h with hsolver | hrung
  · rw [Option.isSome_eq_false_iff, Option.isNone_iff_eq_none] at hsolver
    rw [readings, hsolver]
    rfl
  · simp only [readings, reached_eq_nil hrung, List.map_nil, List.flatMap_eq_nil_iff,
      implies_true]

/-- Runs that are not usable have no readings. -/
theorem flatMap_readings_filter {p : RecordedRun α → Bool}
    (hp : ∀ run, w.isUsable run = true → p run = true) (runs : List (RecordedRun α)) :
    (runs.filter p).flatMap w.readings = runs.flatMap w.readings := by
  induction runs with
  | nil => rfl
  | cons run runs ih =>
      rw [List.filter_cons, List.flatMap_cons, ← ih]
      split
      · rw [List.flatMap_cons]
      · rename_i hrun
        have hnot : w.isUsable run = false := Bool.eq_false_iff.mpr fun h => hrun (hp run h)
        rw [readings_eq_nil hnot, List.nil_append]

/-- Runs that are not usable do not count. -/
theorem tallyOf_filter {p : RecordedRun α → Bool} (hp : ∀ run, w.isUsable run = true → p run = true)
    (runs : List (RecordedRun α)) : w.tallyOf (runs.filter p) = w.tallyOf runs := by
  rw [tallyOf, tallyOf, flatMap_readings_filter hp]

theorem hasCounts_filter {p : RecordedRun α → Bool}
    (hp : ∀ run, w.isUsable run = true → p run = true) (runs : List (RecordedRun α)) :
    w.HasCounts (runs.filter p) ↔ w.HasCounts runs := by
  rw [HasCounts, HasCounts, flatMap_readings_filter hp]

/-- The readings are those of the usable runs, in any order. -/
theorem flatMap_readings_perm {runs runs' : List (RecordedRun α)}
    (h : (runs.filter w.isUsable).Perm (runs'.filter w.isUsable)) :
    (runs.flatMap w.readings).Perm (runs'.flatMap w.readings) := by
  rw [← flatMap_readings_filter (fun _ => id) runs, ← flatMap_readings_filter (fun _ => id) runs']
  exact h.flatMap_right w.readings

theorem tallyOf_eq_of_usable {runs runs' : List (RecordedRun α)}
    (h : (runs.filter w.isUsable).Perm (runs'.filter w.isUsable)) :
    w.tallyOf runs = w.tallyOf runs' :=
  Counts.tally_perm (flatMap_readings_perm h)

theorem hasCounts_iff_of_usable {runs runs' : List (RecordedRun α)}
    (h : (runs.filter w.isUsable).Perm (runs'.filter w.isUsable)) :
    w.HasCounts runs ↔ w.HasCounts runs' :=
  Counts.fits_perm (flatMap_readings_perm h)

/-- Only usable runs leave a trace. -/
theorem exists_usable_of_readings {runs : List (RecordedRun α)}
    (h : runs.flatMap w.readings ≠ []) : ∃ run ∈ runs, w.isUsable run = true := by
  by_contra hnone
  have hfilter : runs.filter w.isUsable = [] :=
    List.filter_eq_nil_iff.mpr fun run hrun hu => hnone ⟨run, hrun, hu⟩
  rw [← flatMap_readings_filter (fun _ => id), hfilter] at h
  exact h rfl

/-- And if there is room for them, the trace is seen. -/
theorem HasCounts.isZero_tallyOf_iff {runs : List (RecordedRun α)} (h : w.HasCounts runs) :
    (w.tallyOf runs).isZero = true ↔ runs.flatMap w.readings = [] := by
  constructor
  · intro hzero
    refine List.eq_nil_iff_forall_not_mem.mpr fun e he => ?_
    have hcount := h.toNat_get_tally
      (fun e he => fst_lt_of_mem_readings (List.mem_flatMap.mp he).choose_spec.2) e.1 e.2
    have hcell : (w.tallyOf runs).get e.1 e.2.index = 0 := Counts.get_of_isZero hzero _ _
    rw [tallyOf] at hcell
    rw [hcell] at hcount
    exact (List.count_pos_iff.mpr he).ne hcount
  · intro hnone
    rw [tallyOf, hnone]
    exact Counts.isZero_fresh _

end readings

/-! ## Checked worlds -/

theorem nodup_of_firstRepeat? : ∀ {seen names : List String}, firstRepeat? seen names = none →
    names.Nodup ∧ ∀ n ∈ names, n ∉ seen
  | _, [], _ => ⟨List.nodup_nil, nofun⟩
  | seen, n :: names, h => by
      rw [firstRepeat?] at h
      split at h
      · cases h
      · rename_i hseen
        rw [List.contains_iff_mem] at hseen
        obtain ⟨hnodup, hnew⟩ := nodup_of_firstRepeat? h
        refine ⟨List.nodup_cons.mpr ⟨fun hmem => ?_, hnodup⟩, fun m hm => ?_⟩
        · exact hnew n hmem (List.mem_cons_self ..)
        · rcases List.mem_cons.mp hm with rfl | hm
          · exact hseen
          · exact fun hmem => hnew m hm (List.mem_cons_of_mem n hmem)

section checked

variable {α : Type} [Scalar α] {w : World α}

theorem nodup_solvers (hw : w.check = .ok ()) : w.solvers.Nodup := by
  unfold check at hw
  split at hw
  · cases hw
  · split at hw
    · cases hw
    · rename_i hrepeat
      exact (nodup_of_firstRepeat? hrepeat).1

theorem solverIndex?_eq_some_iff (hw : w.check = .ok ()) (name : String) {s : Nat}
    (hs : s < w.nsolvers) : w.solverIndex? name = some s ↔ name = w.solvers.getD s "" := by
  have hlen : s < w.solvers.length := hs
  have hget : w.solvers.getD s "" = w.solvers[s] := by
    rw [List.getD_eq_getElem?_getD, List.getElem?_eq_getElem hlen, Option.getD_some]
  rw [solverIndex?, List.idxOf?_eq_some_iff, hget]
  constructor
  · rintro ⟨_, h, _⟩
    exact h.symm
  · rintro rfl
    refine ⟨hlen, rfl, fun j hj heq => ?_⟩
    exact hj.ne ((nodup_solvers hw).getElem_inj_iff.mp heq)

variable [Rounded α]

/-- Ceilings rise. -/
theorem budget_mono (hw : w.check = .ok ()) {i j : Nat} (h : i ≤ j) :
    w.ladder.budget i ≤ w.ladder.budget j := by
  obtain ⟨step, hpos, hstep⟩ := exists_step_value hw
  have hcast : ((i + 1 : ℕ) : ℝ) ≤ ((j + 1 : ℕ) : ℝ) := by exact_mod_cast Nat.succ_le_succ h
  have hnonneg : .real 0 ≤ nearest α ((i + 1 : ℕ) : ℝ) := by
    rw [← nearest_zero α]
    exact nearest_mono (Nat.cast_nonneg _)
  rw [le_iff, Ladder.budget, Ladder.budget, value_mul, value_mul, value_ofNat, value_ofNat, hstep]
  exact Exact.rounded_mono (Exact.mul_le_mul_left hpos hnonneg (nearest_mono hcast))

theorem reaches_of_le (hw : w.check = .ok ()) {run : RecordedRun α} {i j : Nat} (h : i ≤ j)
    (hj : w.reaches run j = true) : w.reaches run i = true := by
  rw [reaches, Bool.not_eq_true', decide_eq_false_iff_not] at hj ⊢
  have hle := (le_iff _ _).mp (budget_mono hw h)
  rw [lt_iff] at hj ⊢
  intro hlt
  exact hj ⟨hlt.1, hle.2.1, hlt.2.2.trans_le hle.2.2⟩

/-- A test that is passed before wherever it is passed loses nothing by stopping early. -/
theorem mem_takeWhile_iff {β : Type} {p : β → Bool} {x : β} : ∀ {xs : List β},
    xs.Pairwise (fun a b => p b = true → p a = true) → (x ∈ xs.takeWhile p ↔ x ∈ xs ∧ p x = true)
  | [], _ => by simp
  | y :: ys, h => by
      obtain ⟨hy, hys⟩ := List.pairwise_cons.mp h
      rw [List.takeWhile_cons]
      split
      · rename_i hpy
        rw [List.mem_cons, List.mem_cons, mem_takeWhile_iff hys, or_and_right]
        refine or_congr_left (iff_self_and.mpr ?_)
        rintro rfl
        exact hpy
      · rename_i hpy
        refine iff_of_false List.not_mem_nil ?_
        rintro ⟨hmem, hx⟩
        rcases List.mem_cons.mp hmem with rfl | hmem
        · exact hpy hx
        · exact hpy (hy x hmem hx)

theorem mem_reached (hw : w.check = .ok ()) {run : RecordedRun α} {r : Nat} :
    r ∈ w.reached run ↔ r < w.nbudgets ∧ w.reaches run r = true := by
  have hdown : (List.range w.nbudgets).Pairwise fun i j =>
      w.reaches run j = true → w.reaches run i = true :=
    List.pairwise_lt_range.imp fun h => reaches_of_le hw h.le
  rw [reached, mem_takeWhile_iff hdown, List.mem_range]

/-- An action counts a run of its solver if the run was given enough for its ceiling. -/
theorem mem_readings (hw : w.check = .ok ()) {run : RecordedRun α} {a : Nat}
    (ha : a < w.nactions) {k : OutcomeKind} :
    (a, k) ∈ w.readings run ↔ run.solver = (w.action a).solver ∧
      w.reaches run (w.rungOf a) = true ∧ w.kindAt run (w.rungOf a) = k := by
  have hsolver := solverIndex?_eq_some_iff hw run.solver (solver_lt ha)
  have hrung := rungOf_lt (nbudgets_pos hw) a
  simp only [readings, List.mem_flatMap, Option.mem_toList, List.mem_map, Prod.mk.injEq]
  constructor
  · rintro ⟨s, hs, r, hr, rfl, rfl⟩
    have hr' := (mem_reached hw).mp hr
    rw [rungOf_index hr'.1]
    exact ⟨hsolver.mp (by rw [splitIndex_index hr'.1, hs]), hr'.2, rfl⟩
  · rintro ⟨hname, hreach, rfl⟩
    exact ⟨_, hsolver.mpr hname, _, (mem_reached hw).mpr ⟨hrung, hreach⟩, index_splitIndex a, rfl⟩

end checked

end World

end SolverPortfolio
