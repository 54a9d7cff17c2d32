import SolverPortfolio.Json.Record
import SolverPortfolio.Proofs.Json.RoundTrip
import SolverPortfolio.Proofs.Scalar.Binary.Packing

/-!
# Written trees as documents

What is written for a value is asked for as a document when it is read. A tree answers the same
whether it is looked at as it is or held until its meaning is known (`Json.IsView`), so the
readers of the parts undo their writers in both cases.

The reader of doubles can be off by the last bit, so that a double is read back is a condition on
the double (`Json.ReadsBack`). One that is not finite never is, as it is written as `null`
(`Json.double_of_not_finite`).

A tree that is saved has to survive two passes: the text is read into a tree again, and what is
held must not have a number in it that is too large (`Json.IsSavable`).
-/

namespace SolverPortfolio.Json

open Decimal Document

/-! ## Doubles -/

/-- What is written for the double is read as the double. -/
def ReadsBack (x : Float) : Prop := toDouble? (double x) = some x

open Float.Model UnpackedFloat in
/-- A double with another exponent than the highest one is finite. -/
theorem isFinite_unpack {b : BitVec 64} (h : b.toNat / fractionBits % Nat.pow 2 11 ≠ 2047) :
    (UnpackedFloat.unpack Format.binary64 b).isFinite = true := by
  have hexponent : (@unpackExponent Format.binary64 b).toNat =
      b.toNat / fractionBits % Nat.pow 2 11 := by
    show (BitVec.extractLsb (52 + 11 - 1) 52 b).toNat = _
    rw [BitVec.extractLsb_toNat, Nat.shiftRight_eq_div_pow]
    rfl
  have hones : @unpackExponent Format.binary64 b ≠ -1#11 := by
    intro heq
    rw [heq] at hexponent
    exact h hexponent.symm
  unfold UnpackedFloat.unpack
  dsimp only
  rw [if_neg hones]
  split
  · split <;> rfl
  · rfl

theorem double_of_not_finite {x : Float} (h : x.isFinite = false) : double x = .null := by
  have hbiased : x.toBits.toNat / fractionBits % Nat.pow 2 11 = 2047 := by
    refine Decidable.byContradiction fun hne => ?_
    have hfinite : x.isFinite = true := isFinite_unpack hne
    rw [h] at hfinite
    cases hfinite
  simp only [double, magnitude, hbiased, if_true]
  split
  · rename_i heq
    split at heq <;> cases heq
  · rfl

/-- Doubles are compared by their bits. -/
theorem readsBack_of_toBits {x : Float}
    (h : (toDouble? (double x)).map Float.toBits = some x.toBits) : ReadsBack x := by
  have hinj : ∀ y : Float, y.toBits = x.toBits → y = x := by
    rintro ⟨⟨_, _⟩⟩ hy
    obtain ⟨⟨_, _⟩⟩ := x
    obtain rfl : _ = _ := hy
    rfl
  obtain ⟨y, hread, hy⟩ := Option.map_eq_some_iff.mp h
  rw [ReadsBack, hread, hinj y hy]

theorem ReadsBack.exists_numeral {x : Float} (h : ReadsBack x) :
    ∃ n : Numeral, double x = .number n ∧ n.IsProper ∧
      (number? n).map Number.toDouble = some x := by
  unfold ReadsBack double at h
  unfold double
  split at h
  · rename_i v _
    exact ⟨_, rfl, Layout.isProper_numeral _ v, h⟩
  · cases h

theorem ReadsBack.isFinite {x : Float} (h : ReadsBack x) : x.isFinite = true := by
  cases hx : x.isFinite with
  | true => rfl
  | false =>
      rw [ReadsBack, double_of_not_finite hx] at h
      cases h

/-! ## Trees that survive -/

/-- Read back from its text if nested `n` deep, and fit to be held. -/
structure IsSavable (n : Nat) (j : Json) : Prop where
  writable : Writable n j
  holdable : holdable j = true

theorem isSavable_string (n : Nat) (s : String) : IsSavable n (.string s) := by
  cases n <;> exact ⟨by simp [Writable], rfl⟩

theorem isSavable_bool (n : Nat) (b : Bool) : IsSavable n (.bool b) := by
  cases n <;> exact ⟨by simp [Writable], rfl⟩

theorem isSavable_number {m : Numeral} (hm : m.IsProper) (h : (number? m).isSome = true)
    (n : Nat) : IsSavable n (.number m) := by
  cases n <;> exact ⟨by simpa only [Writable] using hm, h⟩

theorem isSavable_nat {k : Nat} (hk : k < wordLimit) (n : Nat) : IsSavable n (nat k) := by
  refine isSavable_number (Numeral.isProper_ofNat k) ?_ n
  rw [number?_ofNat hk]
  rfl

theorem isSavable_double {x : Float} (hx : ReadsBack x) (n : Nat) : IsSavable n (double x) := by
  obtain ⟨m, heq, hm, hread⟩ := hx.exists_numeral
  rw [heq]
  refine isSavable_number hm ?_ n
  obtain ⟨_, hsome, _⟩ := Option.map_eq_some_iff.mp hread
  rw [hsome]
  rfl

theorem isSavable_option {α : Type} {write : α → Json} {o : Option α} {n : Nat}
    (h : ∀ a ∈ o, IsSavable n (write a)) : IsSavable n (option write o) := by
  cases o with
  | none => cases n <;> exact ⟨by simp [option, Writable], rfl⟩
  | some a => exact h a rfl

theorem isSavable_array {n : Nat} {items : List Json} (h : ∀ j ∈ items, IsSavable n j) :
    IsSavable (n + 1) (.array items) := by
  have hitems : WritableItems n items ∧ holdableItems items = true := by
    induction items with
    | nil => exact ⟨trivial, rfl⟩
    | cons x xs ih =>
        rw [List.forall_mem_cons] at h
        obtain ⟨hwritable, hholdable⟩ := ih h.2
        refine ⟨⟨h.1.writable, hwritable⟩, ?_⟩
        rw [holdableItems, h.1.holdable, hholdable]
        rfl
  exact ⟨by simpa only [Writable] using hitems.1, hitems.2⟩

theorem isSavable_list {α : Type} {write : α → Json} {xs : List α} {n : Nat}
    (h : ∀ x ∈ xs, IsSavable n (write x)) : IsSavable (n + 1) (list write xs) := by
  refine isSavable_array fun j hj => ?_
  obtain ⟨x, hx, rfl⟩ := List.mem_map.mp hj
  exact h x hx

theorem isSavable_object {n : Nat} {fields : List (String × Json)}
    (h : ∀ f ∈ fields, IsSavable n f.2) : IsSavable (n + 1) (.object fields) := by
  have hfields : WritableFields n fields ∧ holdableFields fields = true := by
    induction fields with
    | nil => exact ⟨trivial, rfl⟩
    | cons f fs ih =>
        rw [List.forall_mem_cons] at h
        obtain ⟨hwritable, hholdable⟩ := ih h.2
        refine ⟨⟨h.1.writable, hwritable⟩, ?_⟩
        rw [holdableFields, h.1.holdable, hholdable]
        rfl
  exact ⟨by simpa only [Writable] using hfields.1, hfields.2⟩

/-! ## Views -/

/-- A way to look at trees as documents that changes no answer. -/
structure IsView {δ : Type} [Document δ] (view : Json → δ) : Prop where
  isNull : ∀ j, isNull (view j) = isNull j
  toBool : ∀ j, toBool? (view j) = toBool? j
  toText : ∀ j, toText? (view j) = toText? j
  toWhole : ∀ j, toWhole? (view j) = toWhole? j
  toDouble : ∀ j, toDouble? (view j) = toDouble? j
  toItems : ∀ items, toItems? (view (.array items)) = some (items.map view)
  toEntries : ∀ fields, toEntries? (view (.object fields)) =
    some (fields.map fun f => (f.1, view f.2))
  toChoice : ∀ s, toChoice? (view (.string s)) = some s

theorem isView_id : IsView (id : Json → Json) where
  isNull _ := rfl
  toBool _ := rfl
  toText _ := rfl
  toWhole _ := rfl
  toDouble _ := rfl
  toItems items := by
    rw [List.map_id]
    rfl
  toEntries fields := by
    show some fields = some (fields.map id)
    rw [List.map_id]
  toChoice _ := rfl

theorem isView_held : IsView Held.mk where
  isNull _ := rfl
  toBool _ := rfl
  toText _ := rfl
  toWhole _ := rfl
  toDouble _ := rfl
  toItems _ := rfl
  toEntries _ := rfl
  toChoice _ := rfl

/-! ## Readers of the parts -/

theorem fields_object (names : List String) (fields : List (String × Json)) :
    fields? names (Json.object fields) = some ⟨false, fields⟩ := rfl

namespace IsView

variable {δ : Type} [Document δ] {view : Json → δ} (hview : IsView view)

include hview

theorem toNat_nat {limit k : Nat} (hk : k < limit) (hlimit : limit ≤ wordLimit) :
    toNat? limit (view (nat k)) = some k := by
  have hwhole : toWhole? (view (nat k)) = some (k : Int) := by
    rw [hview.toWhole]
    show (number? (Numeral.ofNat k)).bind Number.toWhole? = _
    rw [number?_ofNat (Nat.lt_of_lt_of_le hk hlimit)]
    rfl
  have hrange : (0 : Int) ≤ k ∧ (k : Int) < limit := by omega
  rw [toNat?, hwhole]
  exact if_pos hrange

theorem toDouble_double {x : Float} (hx : ReadsBack x) :
    toDouble? (view (double x)) = some x :=
  (hview.toDouble _).trans hx

theorem toText_string (s : String) : toText? (view (.string s)) = some s := hview.toText _

theorem toBool_bool (b : Bool) : toBool? (view (.bool b)) = some b := hview.toBool _

theorem toNamed_string {α : Type} (table : List (String × α)) (s : String) :
    toNamed? table (view (.string s)) = table.lookup s := by
  rw [toNamed?, hview.toChoice]
  rfl

theorem toList_list {α : Type} {write : α → Json} {read : δ → Option α} {xs : List α}
    (h : ∀ x ∈ xs, read (view (write x)) = some x) :
    toList? read (view (list write xs)) = some xs := by
  have hitems : ((xs.map write).map view).mapM read = some xs := by
    induction xs with
    | nil => rfl
    | cons x xs ih =>
        rw [List.forall_mem_cons] at h
        rw [List.map_cons, List.map_cons, List.mapM_cons, h.1, ih h.2]
        rfl
  rw [toList?, list, hview.toItems]
  exact hitems

theorem toOption_option {α : Type} {write : α → Json} {read : δ → Option α} {o : Option α}
    (h : ∀ a ∈ o, read (view (write a)) = some a ∧ Document.isNull (write a) = false) :
    toOption? read (view (option write o)) = some o := by
  cases o with
  | none =>
      rw [toOption?, hview.isNull]
      rfl
  | some a =>
      obtain ⟨hread, hnull⟩ := h a rfl
      show toOption? read (view (write a)) = _
      rw [toOption?, hview.isNull, hnull, hread]
      rfl

theorem fields_object (names : List String) (fields : List (String × Json)) :
    fields? names (view (.object fields)) =
      some ⟨false, fields.map fun f => (f.1, view f.2)⟩ := by
  rw [fields?, hview.toEntries]

end IsView

theorem ReadsBack.isNull_eq {x : Float} (h : ReadsBack x) : isNull (double x) = false := by
  obtain ⟨m, heq, _⟩ := h.exists_numeral
  rw [heq]
  rfl

/-! ## Tagged records -/

/-- The tag in front is found, and the other fields are left. -/
theorem tagged_object {tag s : String} {fields : List (String × Json)}
    (htag : ∀ f ∈ fields, f.1 ≠ tag) (h : holdable (.object fields) = true) :
    tagged? tag (.object ((tag, .string s) :: fields)) = some (s, ⟨.object fields⟩) := by
  have hnone : fields.filter (fun f => f.1 == tag) = [] := by
    rw [List.filter_eq_nil_iff]
    intro f hf
    simpa using htag f hf
  have hall : fields.filter (fun f => !(f.1 == tag)) = fields := by
    rw [List.filter_eq_self]
    intro f hf
    simpa using htag f hf
  rw [tagged?, List.filter_cons_of_pos (by simp), hnone]
  simp only [List.filter_cons, beq_self_eq_true, Bool.not_true, Bool.false_eq_true, if_false, hall,
    h, if_true]

end SolverPortfolio.Json
