import SolverPortfolio.Json.Record

/-!
# Trees that say the same

A reader asks for fields by name, so it cannot tell in what order they stand or what other fields
there are. `Form` says which fields a reader knows, at any depth, and `Rewritten` relates a tree to
those it can be rewritten to without touching what the reader knows. A reader that gives the same
for both respects the form (`Respects`).

That a reader of records respects its form is a matter of its fields: what is found for each known
name is the same up to rewriting (`SameFields`), and so is whatever is read from it. A tagged
record is held until its tag is known, so a field that is added to it must be one that can be held
(`TaggedReader.read_cons`).
-/

namespace SolverPortfolio

open Document

/-! ## What is found under a name -/

namespace Document.Fields

variable {δ : Type} {positional : Bool} {entries entries' : List (String × δ)} {name : String}

/-- Only the entries of that name matter, and their number if there are several. -/
theorem find?_congr
    (h : entries.filter (fun e => e.1 == name) = entries'.filter (fun e => e.1 == name)) :
    find? ⟨positional, entries'⟩ name = find? ⟨positional, entries⟩ name := by
  rw [find?, find?, h]

theorem find?_perm (h : entries.Perm entries') (name : String) :
    find? ⟨positional, entries'⟩ name = find? ⟨positional, entries⟩ name := by
  have hperm := h.filter fun e => e.1 == name
  rw [find?, find?]
  generalize entries.filter (fun e => e.1 == name) = found at hperm
  generalize entries'.filter (fun e => e.1 == name) = found' at hperm
  rcases found with _ | ⟨e, _ | ⟨e', rest⟩⟩
  · rw [hperm.nil_eq]
  · rw [hperm.singleton_eq]
  · have hlength := hperm.length_eq
    rcases found' with _ | ⟨d, _ | ⟨d', rest'⟩⟩
    · cases hlength
    · cases hlength
    · rfl

theorem find?_cons_of_ne {e : String × δ} (h : e.1 ≠ name) :
    find? ⟨positional, e :: entries⟩ name = find? ⟨positional, entries⟩ name :=
  find?_congr (List.filter_cons_of_neg (by simpa using h)).symm

end Document.Fields

namespace Json

/-! ## Rewriting -/

/-- What a reader knows of a tree: nothing that could be rewritten, the names of the fields of a
record and what it knows of each, or the names that go with each value of a tag. -/
inductive Form where
  | leaf
  | record (names : List String) (inner : String → Form)
  | tagged (tag : String) (names : String → List String)

/-- Fields are put in another order, added under names that are not known, or given another value
under such a name, at any depth. The fields of a record may also be given by position. -/
inductive Rewritten : Form → Json → Json → Prop
  | refl (form : Form) (j : Json) : Rewritten form j j
  | trans {form : Form} {i j k : Json} (first : Rewritten form i j) (next : Rewritten form j k) :
      Rewritten form i k
  | reordered {names : List String} {inner : String → Form} {fs fs' : List (String × Json)}
      (perm : fs.Perm fs') : Rewritten (.record names inner) (.object fs) (.object fs')
  | added {names : List String} {inner : String → Form} {fs : List (String × Json)} {name : String}
      (v : Json) (unknown : name ∉ names) :
      Rewritten (.record names inner) (.object fs) (.object ((name, v) :: fs))
  | ignored {names : List String} {inner : String → Form} {before after : List (String × Json)}
      {name : String} (v v' : Json) (unknown : name ∉ names) :
      Rewritten (.record names inner) (.object (before ++ (name, v) :: after))
        (.object (before ++ (name, v') :: after))
  | field {names : List String} {inner : String → Form} {before after : List (String × Json)}
      {name : String} {v v' : Json} (below : Rewritten (inner name) v v') :
      Rewritten (.record names inner) (.object (before ++ (name, v) :: after))
        (.object (before ++ (name, v') :: after))
  | position {names : List String} {inner : String → Form} {before after : List Json}
      {name : String} {v v' : Json} (place : names[before.length]? = some name)
      (below : Rewritten (inner name) v v') :
      Rewritten (.record names inner) (.array (before ++ v :: after))
        (.array (before ++ v' :: after))
  | reorderedTagged {tag : String} {names : String → List String} {fs fs' : List (String × Json)}
      (perm : fs.Perm fs') : Rewritten (.tagged tag names) (.object fs) (.object fs')
  | addedTagged {tag : String} {names : String → List String} {fs : List (String × Json)}
      {name : String} {v : Json} (held : v.holdable = true) (other : name ≠ tag)
      (unknown : ∀ s, (tag, .string s) ∈ fs → name ∉ names s) :
      Rewritten (.tagged tag names) (.object fs) (.object ((name, v) :: fs))
  | ignoredTagged {tag : String} {names : String → List String}
      {before after : List (String × Json)} {name : String} {v v' : Json}
      (held : v'.holdable = v.holdable) (other : name ≠ tag)
      (unknown : ∀ s, (tag, .string s) ∈ before ++ after → name ∉ names s) :
      Rewritten (.tagged tag names) (.object (before ++ (name, v) :: after))
        (.object (before ++ (name, v') :: after))

/-- The reader gives the same for a tree and for what it is rewritten to. -/
def Respects {β : Type} (read : Json → Option β) (form : Form) : Prop :=
  ∀ ⦃j j' : Json⦄, Rewritten form j j' → read j' = read j

theorem eq_of_rewritten_leaf {j j' : Json} (h : Rewritten .leaf j j') : j' = j := by
  generalize hform : Form.leaf = form at h
  induction h with
  | refl form j => rfl
  | trans first next ih ih' => rw [ih' hform, ih hform]
  | _ => cases hform

theorem respects_leaf {β : Type} (read : Json → Option β) : Respects read .leaf :=
  fun _ _ h => congrArg read (eq_of_rewritten_leaf h)

/-! ## Records -/

/-- What is found is the same up to rewriting. -/
inductive SameFound (form : Form) : Option (Option Json) → Option (Option Json) → Prop
  | refused : SameFound form none none
  | missing : SameFound form (some none) (some none)
  | there {v v' : Json} (value : Rewritten form v v') :
      SameFound form (some (some v)) (some (some v'))

theorem SameFound.of_eq {form : Form} {found found' : Option (Option Json)} (h : found' = found) :
    SameFound form found found' := by
  subst h
  rcases found' with _ | _ | v
  · exact .refused
  · exact .missing
  · exact .there (.refl form v)

/-- For each known name the same is found up to rewriting. -/
structure SameFields (names : List String) (inner : String → Form) (f f' : Fields Json) : Prop where
  positional : f'.positional = f.positional
  found : ∀ name ∈ names, SameFound (inner name) (f.find? name) (f'.find? name)

namespace SameFields

variable {β : Type} {names : List String} {inner : String → Form} {f f' : Fields Json}
  {read : Json → Option β}

theorem required (h : SameFields names inner f f') (name : String) (hname : name ∈ names)
    (hread : Respects read (inner name)) : f'.required name read = f.required name read := by
  have hfound := h.found name hname
  rw [Fields.required, Fields.required]
  generalize f.find? name = found, f'.find? name = found' at hfound ⊢
  cases hfound with
  | refused => rfl
  | missing => rfl
  | there value => exact hread value

theorem defaulted (h : SameFields names inner f f') (name : String) (hname : name ∈ names)
    (fallback : β) (hread : Respects read (inner name)) :
    f'.defaulted name fallback read = f.defaulted name fallback read := by
  have hfound := h.found name hname
  rw [Fields.defaulted, Fields.defaulted]
  generalize f.find? name = found, f'.find? name = found' at hfound ⊢
  cases hfound with
  | refused => rfl
  | missing => rfl
  | there value => exact hread value

theorem optional (h : SameFields names inner f f') (name : String) (hname : name ∈ names)
    (hread : Respects (toOption? read) (inner name)) :
    f'.optional name read = f.optional name read := by
  rw [Fields.optional, Fields.optional, h.positional, h.required name hname hread,
    h.defaulted name hname none hread]

/-- One value is rewritten, if its name is known at all. -/
theorem replaced {positional : Bool} {before after : List (String × Json)} {name : String}
    {v v' : Json} (below : name ∈ names → Rewritten (inner name) v v') :
    SameFields names inner ⟨positional, before ++ (name, v) :: after⟩
      ⟨positional, before ++ (name, v') :: after⟩ where
  positional := rfl
  found name' hname' := by
    by_cases heq : name = name'
    · subst heq
      simp only [Fields.find?, List.filter_append, List.filter_cons, beq_self_eq_true, if_true]
      generalize before.filter (fun e => e.1 == name) = front
      generalize after.filter (fun e => e.1 == name) = back
      rcases front with _ | ⟨e, _ | ⟨e', rest⟩⟩
      · cases back with
        | nil => exact .there (below hname')
        | cons e rest => exact .refused
      · exact .refused
      · exact .refused
    · refine .of_eq (Fields.find?_congr ?_)
      simp only [List.filter_append, List.filter_cons, beq_eq_false_iff_ne.mpr heq,
        Bool.false_eq_true, if_false]

end SameFields

theorem fields_array (names : List String) (items : List Json) :
    fields? names (Json.array items) =
      if items.length ≤ names.length then some ⟨true, names.zip items⟩ else none := by
  have hentries : toEntries? (Json.array items) = none := rfl
  have hpositions : toPositions? names.length (Json.array items) = upTo? names.length items := rfl
  rw [fields?, hentries, hpositions, upTo?]
  by_cases hfits : items.length ≤ names.length
  · rw [if_pos hfits, if_pos hfits]
  · rw [if_neg hfits, if_neg hfits]

/-- A record is read the same if that is so for its fields. -/
theorem respects_record {β : Type} {names : List String} {inner : String → Form}
    {read : Json → Option β} {readFields : Fields Json → Option β}
    (hread : ∀ j, read j = (fields? names j).bind readFields)
    (h : ∀ ⦃f f' : Fields Json⦄, SameFields names inner f f' → readFields f' = readFields f) :
    Respects read (.record names inner) := by
  intro j j' hrewritten
  generalize hform : Form.record names inner = form at hrewritten
  induction hrewritten with
  | refl form j => rfl
  | trans first next ih ih' => rw [ih' hform, ih hform]
  | reordered perm =>
      obtain ⟨rfl, rfl⟩ := Form.record.inj hform
      rw [hread, hread]
      exact h ⟨rfl, fun name _ => .of_eq (Fields.find?_perm perm name)⟩
  | added v unknown =>
      obtain ⟨rfl, rfl⟩ := Form.record.inj hform
      rw [hread, hread]
      refine h ⟨rfl, fun known hknown => .of_eq (Fields.find?_cons_of_ne ?_)⟩
      rintro rfl
      exact unknown hknown
  | ignored v v' unknown =>
      obtain ⟨rfl, rfl⟩ := Form.record.inj hform
      rw [hread, hread]
      exact h (.replaced fun known => absurd known unknown)
  | field below _ =>
      obtain ⟨rfl, rfl⟩ := Form.record.inj hform
      rw [hread, hread]
      exact h (.replaced fun _ => below)
  | @position _ _ before after name v v' place below _ =>
      obtain ⟨rfl, rfl⟩ := Form.record.inj hform
      rw [hread, hread, fields_array, fields_array]
      have hlength : (before ++ v' :: after).length = (before ++ v :: after).length := by
        rw [List.length_append, List.length_append]
        rfl
      rw [hlength]
      split
      · obtain ⟨hlt, hname⟩ := List.getElem?_eq_some_iff.mp place
        have hnames : names =
            names.take before.length ++ name :: names.drop (before.length + 1) := by
          rw [← hname, List.getElem_cons_drop, List.take_append_drop]
        have hzip : ∀ v : Json, names.zip (before ++ v :: after) =
            (names.take before.length).zip before ++
              (name, v) :: (names.drop (before.length + 1)).zip after := by
          intro v
          have htake : (names.take before.length).length = before.length := by
            rw [List.length_take]
            omega
          rw [← List.zip_cons_cons, ← List.zip_append htake, ← hnames]
        rw [Option.bind_some, Option.bind_some, hzip, hzip]
        exact h (.replaced fun _ => below)
      · rfl
  | reorderedTagged perm => cases hform
  | addedTagged held other unknown => cases hform
  | ignoredTagged held other unknown => cases hform

/-! ## Tagged records -/

theorem holdable_object (fs : List (String × Json)) :
    holdable (.object fs) = fs.all fun f => f.2.holdable := by
  show holdableFields fs = _
  induction fs with
  | nil => rfl
  | cons f fs ih => rw [holdableFields, ih, List.all_cons]

/-- The text under a name that is given once. -/
def soleText? : List (String × Json) → Option String
  | [(_, .string s)] => some s
  | _ => none

theorem soleText?_perm {fs fs' : List (String × Json)} (h : fs.Perm fs') :
    soleText? fs' = soleText? fs := by
  rcases fs with _ | ⟨f, _ | ⟨g, rest⟩⟩
  · rw [h.nil_eq]
  · rw [h.singleton_eq]
  · have hlength := h.length_eq
    rcases fs' with _ | ⟨f', _ | ⟨g', rest'⟩⟩
    · cases hlength
    · cases hlength
    · rw [soleText?.eq_2, soleText?.eq_2] <;> simp

theorem mem_of_soleText? {tag s : String} {fs : List (String × Json)}
    (h : soleText? (fs.filter fun e => e.1 == tag) = some s) : (tag, .string s) ∈ fs := by
  have hall : ∀ e ∈ fs.filter (fun e => e.1 == tag), e ∈ fs ∧ e.1 = tag := by
    intro e he
    obtain ⟨hmem, htag⟩ := List.mem_filter.mp he
    exact ⟨hmem, beq_iff_eq.mp htag⟩
  generalize fs.filter (fun e => e.1 == tag) = found at h hall
  unfold soleText? at h
  split at h
  · obtain ⟨hmem, rfl⟩ := hall _ (List.mem_singleton_self _)
    obtain rfl := Option.some.inj h
    exact hmem
  · cases h

/-- The fields besides the tag. -/
def untagged (tag : String) (fs : List (String × Json)) : List (String × Json) :=
  fs.filter fun e => !(e.1 == tag)

theorem tagged?_object (tag : String) (fs : List (String × Json)) :
    tagged? tag (.object fs) = (soleText? (fs.filter fun e => e.1 == tag)).bind fun s =>
      if (Json.object (untagged tag fs)).holdable then some (s, ⟨.object (untagged tag fs)⟩)
      else none := by
  rw [tagged?]
  split
  · rename_i heq
    rw [heq]
    rfl
  · rename_i hother
    rw [soleText?.eq_2 _ hother]
    rfl

/-- A reader of tagged records: what it reads from the other fields under each tag does not depend
on their order, nor on fields that are not known under that tag. -/
structure TaggedReader {β : Type} (tag : String) (names : String → List String)
    (read : Json → Option β) (readRest : String → Held → Option β) : Prop where
  read_eq : ∀ j, read j = (tagged? tag j).bind fun r => readRest r.1 r.2
  perm : ∀ ⦃s : String⦄ ⦃fs fs' : List (String × Json)⦄, fs.Perm fs' →
    readRest s ⟨.object fs'⟩ = readRest s ⟨.object fs⟩
  cons : ∀ ⦃s : String⦄ ⦃fs : List (String × Json)⦄ ⦃name : String⦄ (v : Json), name ∉ names s →
    readRest s ⟨.object ((name, v) :: fs)⟩ = readRest s ⟨.object fs⟩

namespace TaggedReader

variable {β : Type} {tag : String} {names : String → List String} {read : Json → Option β}
  {readRest : String → Held → Option β} {fs fs' : List (String × Json)} {name : String}

theorem read_perm (h : TaggedReader tag names read readRest) (hperm : fs.Perm fs') :
    read (.object fs') = read (.object fs) := by
  have hrest : (untagged tag fs).Perm (untagged tag fs') := hperm.filter _
  have hholdable : (Json.object (untagged tag fs')).holdable =
      (Json.object (untagged tag fs)).holdable := by
    rw [holdable_object, holdable_object]
    exact hrest.all_eq.symm
  rw [h.read_eq, h.read_eq, tagged?_object, tagged?_object, soleText?_perm (hperm.filter _),
    hholdable]
  cases soleText? (fs.filter fun e => e.1 == tag) with
  | none => rfl
  | some s =>
      rw [Option.bind_some, Option.bind_some]
      split
      · exact h.perm hrest
      · rfl

/-- A field that is not known only matters in that it has to be held. -/
theorem read_cons (h : TaggedReader tag names read readRest) (v : Json) (other : name ≠ tag)
    (unknown : ∀ s, (tag, .string s) ∈ fs → name ∉ names s) :
    read (.object ((name, v) :: fs)) = if v.holdable then read (.object fs) else none := by
  have hskip : (name == tag) = false := beq_eq_false_iff_ne.mpr other
  have huntagged : untagged tag ((name, v) :: fs) = (name, v) :: untagged tag fs :=
    List.filter_cons_of_pos (by simp [hskip])
  have hholdable : (Json.object ((name, v) :: untagged tag fs)).holdable =
      (v.holdable && (Json.object (untagged tag fs)).holdable) := by
    rw [holdable_object, holdable_object, List.all_cons]
  rw [h.read_eq, h.read_eq, tagged?_object, tagged?_object, huntagged,
    List.filter_cons_of_neg (by simp [hskip]), hholdable]
  cases hsole : soleText? (fs.filter fun e => e.1 == tag) with
  | none => simp
  | some s =>
      have hcons : readRest s ⟨.object ((name, v) :: untagged tag fs)⟩ =
          readRest s ⟨.object (untagged tag fs)⟩ := h.cons v (unknown s (mem_of_soleText? hsole))
      cases v.holdable with
      | false => simp
      | true =>
          rw [Bool.true_and, Option.bind_some, Option.bind_some]
          split
          · exact hcons
          · rfl

theorem respects (h : TaggedReader tag names read readRest) :
    Respects read (.tagged tag names) := by
  intro j j' hrewritten
  generalize hform : Form.tagged tag names = form at hrewritten
  induction hrewritten with
  | refl form j => rfl
  | trans first next ih ih' => rw [ih' hform, ih hform]
  | reorderedTagged perm =>
      obtain ⟨rfl, rfl⟩ := Form.tagged.inj hform
      exact h.read_perm perm
  | addedTagged held other unknown =>
      obtain ⟨rfl, rfl⟩ := Form.tagged.inj hform
      rw [h.read_cons _ other unknown, if_pos held]
  | ignoredTagged held other unknown =>
      obtain ⟨rfl, rfl⟩ := Form.tagged.inj hform
      rw [h.read_perm List.perm_middle.symm, h.read_perm List.perm_middle.symm,
        h.read_cons _ other unknown, h.read_cons _ other unknown, held]
  | reordered perm => cases hform
  | added v unknown => cases hform
  | ignored v v' unknown => cases hform
  | field below => cases hform
  | position place below => cases hform

end TaggedReader

end Json

end SolverPortfolio
