import QuickNote.Firestore.Mutation
import Mathlib.Data.List.Induction

/-!
# Overlays

The client does not replay the pending mutations of a document each time it is
read.  It keeps one mutation for each document, its overlay, and applies that.
For writes of whole documents and of top-level fields the overlay makes of the
document what the replay makes of it, and it stays right while the copy of the
server's document changes, as long as the document exists or not as before.
-/

namespace QuickNote.Firestore

open SortedEntries

section Read

variable {κ α : Type} [LinearOrder κ]

namespace ObjectValue

/-- The value of a top-level field. -/
def read (self : ObjectValue κ α) (field : κ) : Option (Value κ α) := self.fields.lookup field

theorem get_field (self : ObjectValue κ α) (field : κ) : self.get [field] = self.read field :=
  get_singleton self.ordered.ascending field

/-- A document is its top-level fields. -/
theorem ext_read {a b : ObjectValue κ α} (same : ∀ field, a.read field = b.read field) : a = b :=
  ext (a.ordered.ascending.ext b.ordered.ascending same)

theorem read_empty (field : κ) : (empty : ObjectValue κ α).read field = none := rfl

/-- The mask names top-level fields that the value has. -/
def Covers (value : ObjectValue κ α) (mask : FieldMask κ) : Prop :=
  ∀ path ∈ mask, ∃ field, path = [field] ∧ value.read field ≠ none

theorem lookup_foldl_set {data : List (FieldPath κ × Value κ α)} {value : ObjectValue κ α}
    (fields : ∀ e ∈ data, ∃ field, e.1 = [field] ∧ value.read field = some e.2)
    {old : List (κ × Value κ α)} (ordered : (Value.map old).Ordered) (field : κ) :
    (data.foldl (fun fields e => set e.1 e.2 fields) old).lookup field =
      if [field] ∈ data.map Prod.fst then value.read field else old.lookup field := by
  induction data generalizing old with
  | nil => simp
  | cons e rest ih =>
    obtain ⟨name, path, known⟩ := fields e (by simp)
    have sorted : e.2.Ordered := value.ordered.of_lookup known
    rw [List.foldl_cons, ih (fun e' member => fields e' (by simp [member]))
      (ordered_set ordered e.1 sorted)]
    have placed : set e.1 e.2 old = insertEntry name e.2 old := by
      rw [path]
      exact (set_append_singleton ordered [] name e.2).trans (by rw [sorted.sortFields_eq]; rfl)
    rw [placed, lookup_insertEntry, List.map_cons, path]
    by_cases here : field = name
    · subst here
      simp [known]
    · by_cases later : [field] ∈ rest.map Prod.fst
      · rw [if_pos later, if_pos (List.mem_cons_of_mem _ later)]
      · rw [if_neg later, if_neg here, if_neg (by simp [here, later])]

/-- A patch of top-level fields writes those of its mask and no others. -/
theorem read_patch {value : ObjectValue κ α} {mask : FieldMask κ} (covers : value.Covers mask)
    (self : ObjectValue κ α) (field : κ) :
    (self.patch value mask).read field =
      if [field] ∈ mask then value.read field else self.read field := by
  obtain ⟨data, named, fields⟩ : ∃ data : List (FieldPath κ × Value κ α),
      data.map Prod.fst = mask ∧
        ∀ e ∈ data, ∃ field, e.1 = [field] ∧ value.read field = some e.2 := by
    induction mask with
    | nil => exact ⟨[], rfl, by simp⟩
    | cons path rest ih =>
      obtain ⟨name, same, present⟩ := covers path (by simp)
      obtain ⟨data, named, fields⟩ := ih fun path' member => covers path' (by simp [member])
      obtain ⟨content, known⟩ := Option.ne_none_iff_exists'.mp present
      refine ⟨(path, content) :: data, by simp [named], fun e member => ?_⟩
      rcases List.mem_cons.mp member with rfl | later
      · exact ⟨name, same, known⟩
      · exact fields e later
  have patched : getPatch value.fields mask = data.map fun e => (e.1, some e.2) := by
    have all : mask.filter (· ≠ []) = mask := List.filter_eq_self.mpr fun path member => by
      obtain ⟨name, same, _⟩ := covers path member
      simp [same]
    rw [getPatch, all, ← named, List.map_map]
    refine List.map_congr_left fun e member => ?_
    obtain ⟨name, path, known⟩ := fields e member
    have found : value.get e.1 = some e.2 := by rw [path, get_field, known]
    exact congrArg (Prod.mk e.1) found
  show (setAll (getPatch value.fields mask) self.fields).lookup field = _
  rw [patched, setAll_eq_foldl_set self.ordered ?_ ?_, lookup_foldl_set fields self.ordered, named]
  · rfl
  · intro e member
    obtain ⟨name, path, _⟩ := fields e member
    simp [path]
  · intro e member
    obtain ⟨name, _, known⟩ := fields e member
    exact value.ordered.of_lookup known

theorem read_copyFrom {source : ObjectValue κ α} {name : κ} (present : source.read name ≠ none)
    (self : ObjectValue κ α) (field : κ) :
    (self.copyFrom source [name]).read field =
      if field = name then source.read name else self.read field := by
  obtain ⟨content, known⟩ := Option.ne_none_iff_exists'.mp present
  have found : source.get [name] = some content := by rw [get_field, known]
  have sorted : content.Ordered := source.ordered.of_lookup known
  rw [copyFrom]
  split
  · rename_i value here
    rw [found, Option.some.injEq] at here
    subst here
    show (set [name] content self.fields).lookup field = _
    have placed := set_append_singleton self.ordered [] name content
    rw [List.nil_append, sorted.sortFields_eq] at placed
    rw [placed, atParentMap, lookup_insertEntry, known]
    rfl
  · rename_i here
    rw [found] at here
    exact absurd here (by simp)

end ObjectValue

namespace Mutation

/-- What the loop of `CalculateOverlayMutation` has collected from the document. -/
structure OverlayPatch.Collected (doc : ObjectValue κ α) (overlay : OverlayPatch κ α) : Prop where
  sorted : overlay.maskSet.Pairwise (· < ·)
  taken : ∀ field, [field] ∈ overlay.maskSet → overlay.patchValue.read field = doc.read field

theorem OverlayPatch.Collected.add {doc : ObjectValue κ α} {overlay : OverlayPatch κ α}
    (h : Collected doc overlay) {name : κ} (present : doc.read name ≠ none) :
    Collected doc (overlay.add doc [name]) ∧
      (∀ path, path ∈ (overlay.add doc [name]).maskSet ↔ path = [name] ∨ path ∈ overlay.maskSet) ∧
      ∀ field, (overlay.add doc [name]).patchValue.read field =
        if field = name then doc.read name else overlay.patchValue.read field := by
  have top : (doc.get [name]).isNone = false := by
    rw [ObjectValue.get_field]
    exact Option.isNone_eq_false_iff.mpr (Option.isSome_iff_ne_none.mpr present)
  rw [OverlayPatch.add]
  by_cases seen : [name] ∈ overlay.maskSet
  · rw [if_pos seen]
    refine ⟨h, fun path => ?_, fun field => ?_⟩
    · constructor
      · exact Or.inr
      · rintro (rfl | old)
        · exact seen
        · exact old
    · by_cases here : field = name
      · rw [if_pos here, here]
        exact h.taken name seen
      · rw [if_neg here]
  · simp only [if_neg seen, top, Bool.false_eq_true, false_and, if_false]
    have copied := ObjectValue.read_copyFrom present overlay.patchValue
    refine ⟨⟨insertKey_pairwise [name] h.sorted, fun field member => ?_⟩, fun path => mem_insertKey,
      copied⟩
    rw [copied]
    by_cases here : field = name
    · rw [if_pos here, here]
    · rw [if_neg here]
      rcases mem_insertKey.mp member with same | old
      · exact absurd (List.cons.inj same).1 here
      · exact h.taken field old

/-- The overlay of a patched document takes the fields of the mask from it. -/
theorem overlayPatch_spec {doc : ObjectValue κ α} {mask : FieldMask κ} (covers : doc.Covers mask)
    (sorted : mask.Pairwise (· < ·)) :
    (mask.foldl (OverlayPatch.add doc) { patchValue := .empty, maskSet := [] }).maskSet = mask ∧
      ∀ field, (mask.foldl (OverlayPatch.add doc)
          { patchValue := .empty, maskSet := [] }).patchValue.read field =
        if [field] ∈ mask then doc.read field else none := by
  have run : ∀ {mask : FieldMask κ} {start : OverlayPatch κ α}, doc.Covers mask →
      OverlayPatch.Collected doc start →
      OverlayPatch.Collected doc (mask.foldl (OverlayPatch.add doc) start) ∧
        (∀ path, path ∈ (mask.foldl (OverlayPatch.add doc) start).maskSet ↔
          path ∈ mask ∨ path ∈ start.maskSet) ∧
        ∀ field, (mask.foldl (OverlayPatch.add doc) start).patchValue.read field =
          if [field] ∈ mask then doc.read field else start.patchValue.read field := by
    intro mask
    induction mask with
    | nil => exact fun _ h => ⟨h, by simp, by simp⟩
    | cons path rest ih =>
      intro start covers h
      obtain ⟨name, rfl, present⟩ := covers path (by simp)
      obtain ⟨next, members, reads⟩ := h.add present
      obtain ⟨final, membersRest, readsRest⟩ := ih (fun p member => covers p (by simp [member])) next
      refine ⟨final, fun p => ?_, fun field => ?_⟩
      · rw [List.foldl_cons, membersRest, members, List.mem_cons]
        tauto
      · rw [List.foldl_cons, readsRest, reads]
        by_cases later : [field] ∈ rest
        · rw [if_pos later, if_pos (List.mem_cons_of_mem _ later)]
        · rw [if_neg later]
          by_cases here : field = name
          · rw [if_pos here, here, if_pos (by simp)]
          · rw [if_neg here, if_neg (by simp [here, later])]
  have nothing : OverlayPatch.Collected doc { patchValue := .empty, maskSet := [] } :=
    ⟨List.Pairwise.nil, by simp⟩
  obtain ⟨final, members, reads⟩ := run covers nothing
  exact ⟨eq_of_mem_iff final.sorted sorted fun path => by simp [members], reads⟩

end Mutation

end Read

section Replay

variable {δ κ α : Type} [LinearOrder κ]

theorem MutableDocument.ext {a b : MutableDocument δ κ α} (key : a.key = b.key)
    (documentType : a.documentType = b.documentType) (version : a.version = b.version)
    (value : a.value = b.value) (documentState : a.documentState = b.documentState) : a = b := by
  cases a
  cases b
  simp_all

namespace Mutation

/-- Sets and deletes of whole documents without precondition, and patches of
top-level fields with a value for each: what `setData`, `setData(merge: true)`,
`updateData` and `delete` send for flat data. -/
def Plain (mutation : Mutation δ κ α) : Prop :=
  match mutation.operation with
  | .set _ => mutation.precondition = .none
  | .patch value mask => (∀ time, mutation.precondition ≠ .updateTime time) ∧ value.Covers mask
  | .delete => mutation.precondition = .none

/-- What replaying plain mutations can have made of a document. -/
structure Replayed (base : MutableDocument δ κ α)
    (result : MutableDocument δ κ α × Option (FieldMask κ)) : Prop where
  key : result.1.key = base.key
  untouched : result.1.hasLocalMutations = false → result = (base, some [])
  version : result.1.hasLocalMutations = true → result.1.version = 0
  written : result.2 = none → result.1.hasLocalMutations = true ∧
    (result.1.documentType = .foundDocument ∨
      (result.1.documentType = .noDocument ∧ result.1.value = .empty))
  patched : ∀ mask, result.2 = some mask → mask.Pairwise (· < ·) ∧ result.1.value.Covers mask ∧
    (result.1.hasLocalMutations = true → result.1.documentType = .foundDocument) ∧
    ∀ field, [field] ∉ mask → result.1.value.read field = base.value.read field

theorem Replayed.refl {base : MutableDocument δ κ α} (remote : base.hasLocalMutations = false) :
    Replayed base (base, some []) where
  key := rfl
  untouched := fun _ => rfl
  version := fun touched => absurd touched (by simp [remote])
  written := fun none_left => absurd none_left (by simp)
  patched := by
    intro mask here
    rw [Option.some.injEq] at here
    subst here
    exact ⟨List.Pairwise.nil, fun path member => absurd member (by simp),
      fun touched => absurd touched (by simp [remote]), fun _ _ => rfl⟩

theorem Replayed.step {base document : MutableDocument δ κ α} {mask : Option (FieldMask κ)}
    (h : Replayed base (document, mask)) {mutation : Mutation δ κ α} (plain : mutation.Plain) :
    Replayed base (mutation.applyToLocalView document mask) := by
  rw [applyToLocalView]
  by_cases valid : mutation.precondition.isValidFor document = true
  · rw [if_pos valid]
    rw [Plain] at plain
    cases kind : mutation.operation with
    | set value =>
      exact ⟨h.key, by simp [MutableDocument.hasLocalMutations, MutableDocument.setHasLocalMutations],
        fun _ => rfl, fun _ => ⟨rfl, Or.inl rfl⟩, by simp⟩
    | delete =>
      exact ⟨h.key, by simp [MutableDocument.hasLocalMutations, MutableDocument.setHasLocalMutations],
        fun _ => rfl, fun _ => ⟨rfl, Or.inr ⟨rfl, rfl⟩⟩, by simp⟩
    | patch value fields =>
      rw [kind] at plain
      have reads := ObjectValue.read_patch plain.2 document.value
      refine ⟨h.key,
        by simp [MutableDocument.hasLocalMutations, MutableDocument.setHasLocalMutations],
        fun _ => rfl, fun _ => ⟨rfl, Or.inl rfl⟩, fun merged here => ?_⟩
      obtain ⟨previous, before, rfl⟩ := Option.map_eq_some_iff.mp here
      obtain ⟨sorted, covers, _, others⟩ := h.patched previous before
      refine ⟨foldr_insertKey_pairwise fields sorted, fun path member => ?_, fun _ => rfl,
        fun field absent => ?_⟩
      · rcases mem_foldr_insertKey.mp member with new | old
        · obtain ⟨field, rfl, present⟩ := plain.2 path new
          refine ⟨field, rfl, ?_⟩
          show (document.value.patch value fields).read field ≠ none
          rw [reads, if_pos new]
          exact present
        · obtain ⟨field, rfl, present⟩ := covers path old
          refine ⟨field, rfl, ?_⟩
          show (document.value.patch value fields).read field ≠ none
          rw [reads]
          by_cases new : [field] ∈ fields
          · rw [if_pos new]
            obtain ⟨name, same, known⟩ := plain.2 [field] new
            exact (List.cons.inj same).1 ▸ known
          · rw [if_neg new]
            exact present
      · rw [mem_foldr_insertKey, not_or] at absent
        show (document.value.patch value fields).read field = _
        rw [reads, if_neg absent.1]
        exact others field absent.2
  · rw [if_neg valid]
    exact h

theorem replay_append (first second : List (Mutation δ κ α)) (document : MutableDocument δ κ α)
    (mask : Option (FieldMask κ)) :
    replay (first ++ second) document mask =
      replay second (replay first document mask).1 (replay first document mask).2 := by
  rw [replay, List.foldl_append]
  rfl

/-- Every replay of plain mutations over a copy of the server's document. -/
theorem replayed {base : MutableDocument δ κ α} (remote : base.hasLocalMutations = false)
    {mutations : List (Mutation δ κ α)} (plain : ∀ mutation ∈ mutations, mutation.Plain) :
    Replayed base (replay mutations base (some [])) := by
  induction mutations using List.reverseRecOn with
  | nil => exact Replayed.refl remote
  | append_singleton mutations mutation ih =>
    rw [replay_append]
    exact (ih fun m member => plain m (by simp [member])).step (plain mutation (by simp))

/-- The view of a document and the mask of its mutated fields, from its overlay
(`LocalDocumentsView::ComputeViews`, `local_documents_view.cc:243`). -/
def viewed (base : MutableDocument δ κ α) :
    Option (Mutation δ κ α) → MutableDocument δ κ α × Option (FieldMask κ)
  | none => (base, some [])
  | some overlay => ((overlay.applyToLocalView base none).1, overlay.fieldMask)

/-- The document that a mutation makes does not depend on the mask. -/
theorem applyToLocalView_fst (mutation : Mutation δ κ α) (document : MutableDocument δ κ α)
    (first second : Option (FieldMask κ)) :
    (mutation.applyToLocalView document first).1 = (mutation.applyToLocalView document second).1 := by
  rw [applyToLocalView, applyToLocalView]
  by_cases valid : mutation.precondition.isValidFor document = true
  · rw [if_pos valid, if_pos valid]
    cases mutation.operation <;> rfl
  · rw [if_neg valid, if_neg valid]

/-- An overlay that is not a patch makes the same of every document of its key. -/
theorem viewed_of_not_patch {overlay : Mutation δ κ α} (always : overlay.precondition = .none)
    (whole : overlay.isPatch = false) {a b : MutableDocument δ κ α} (same : a.key = b.key) :
    viewed a (some overlay) = viewed b (some overlay) := by
  have valid : ∀ document : MutableDocument δ κ α,
      overlay.precondition.isValidFor document = true := fun document => by rw [always]; rfl
  rw [viewed, viewed, applyToLocalView, applyToLocalView, if_pos (valid a), if_pos (valid b)]
  cases kind : overlay.operation with
  | set value =>
    exact congrArg (fun document => (document, overlay.fieldMask))
      (MutableDocument.ext same rfl rfl rfl rfl)
  | delete =>
    exact congrArg (fun document => (document, overlay.fieldMask))
      (MutableDocument.ext same rfl rfl rfl rfl)
  | patch value mask => simp [isPatch, fieldMask, kind] at whole

/-- The overlay of a replay takes the document to where the replay took it. -/
theorem Replayed.viewed_eq {base : MutableDocument δ κ α}
    {result : MutableDocument δ κ α × Option (FieldMask κ)} (h : Replayed base result) :
    viewed base (calculateOverlayMutation result.1 result.2) = result := by
  unfold calculateOverlayMutation
  cases touched : result.1.hasLocalMutations with
  | false => exact (h.untouched touched).symm
  | true =>
    rw [if_pos rfl]
    have state : result.1.documentState = .hasLocalMutations := by
      simpa [MutableDocument.hasLocalMutations] using touched
    have version := h.version touched
    cases here : result.2 with
    | none =>
      rcases (h.written here).2 with found | ⟨gone, nothing⟩
      · have notGone : result.1.isNoDocument = false := by
          simp [MutableDocument.isNoDocument, found]
        simp only [notGone, Bool.false_eq_true, if_false]
        refine Prod.ext (MutableDocument.ext h.key.symm found.symm version.symm rfl state.symm) ?_
        exact here.symm
      · have isGone : result.1.isNoDocument = true := by simp [MutableDocument.isNoDocument, gone]
        simp only [isGone, if_true]
        refine Prod.ext (MutableDocument.ext h.key.symm gone.symm version.symm nothing.symm
          state.symm) ?_
        exact here.symm
    | some mask =>
      obtain ⟨sorted, covers, found, others⟩ := h.patched mask here
      obtain ⟨collected, reads⟩ := overlayPatch_spec covers sorted
      have taken : (mask.foldl (OverlayPatch.add result.1.value)
          { patchValue := .empty, maskSet := [] }).patchValue.Covers mask := by
        intro path member
        obtain ⟨field, rfl, present⟩ := covers path member
        exact ⟨field, rfl, by rw [reads, if_pos member]; exact present⟩
      refine Prod.ext (MutableDocument.ext h.key.symm (found touched).symm version.symm ?_
        state.symm) ?_
      · refine ObjectValue.ext_read fun field => ?_
        show (base.value.patch _ _).read field = _
        rw [collected, ObjectValue.read_patch taken, reads]
        by_cases member : [field] ∈ mask
        · rw [if_pos member, if_pos member]
        · rw [if_neg member]
          exact (others field member).symm
      · show some _ = _
        rw [collected, here]

/-- The overlay that the pending mutations of a document come to. -/
def overlayOf (mutations : List (Mutation δ κ α)) (base : MutableDocument δ κ α) :
    Option (Mutation δ κ α) :=
  calculateOverlayMutation (replay mutations base (some [])).1 (replay mutations base (some [])).2

/-- The one overlay of a document does what all its pending mutations do. -/
theorem viewed_overlayOf {base : MutableDocument δ κ α} (remote : base.hasLocalMutations = false)
    {mutations : List (Mutation δ κ α)} (plain : ∀ mutation ∈ mutations, mutation.Plain) :
    viewed base (overlayOf mutations base) = replay mutations base (some []) :=
  (replayed remote plain).viewed_eq

/-- Two replays that come to the same overlay. -/
structure Alike (a b : MutableDocument δ κ α × Option (FieldMask κ)) : Prop where
  key : a.1.key = b.1.key
  mask : a.2 = b.2
  found : a.1.isFoundDocument = b.1.isFoundDocument
  touched : a.1.hasLocalMutations = b.1.hasLocalMutations
  written : a.2 = none → a.1.value = b.1.value ∧ a.1.isNoDocument = b.1.isNoDocument
  patched : ∀ mask, a.2 = some mask → ∀ field, [field] ∈ mask →
    a.1.value.read field = b.1.value.read field

theorem Plain.isValidFor_eq {mutation : Mutation δ κ α} (plain : mutation.Plain)
    {a b : MutableDocument δ κ α} (found : a.isFoundDocument = b.isFoundDocument) :
    mutation.precondition.isValidFor a = mutation.precondition.isValidFor b := by
  cases condition : mutation.precondition with
  | none => rfl
  | exist expected => rw [Precondition.isValidFor, Precondition.isValidFor, found]
  | updateTime time =>
    rw [Plain] at plain
    cases kind : mutation.operation with
    | set value => simp [kind, condition] at plain
    | delete => simp [kind, condition] at plain
    | patch value mask =>
      rw [kind] at plain
      exact absurd condition (plain.1 time)

theorem Alike.step {a b : MutableDocument δ κ α × Option (FieldMask κ)} (h : Alike a b)
    {mutation : Mutation δ κ α} (plain : mutation.Plain) :
    Alike (mutation.applyToLocalView a.1 a.2) (mutation.applyToLocalView b.1 b.2) := by
  rw [applyToLocalView, applyToLocalView, plain.isValidFor_eq h.found]
  by_cases valid : mutation.precondition.isValidFor b.1 = true
  · rw [if_pos valid, if_pos valid]
    rw [Plain] at plain
    cases kind : mutation.operation with
    | set value => exact ⟨h.key, rfl, rfl, rfl, fun _ => ⟨rfl, rfl⟩, by simp⟩
    | delete => exact ⟨h.key, rfl, rfl, rfl, fun _ => ⟨rfl, rfl⟩, by simp⟩
    | patch value fields =>
      rw [kind] at plain
      refine ⟨h.key, by rw [h.mask], rfl, rfl, fun none_left => ⟨?_, rfl⟩, fun merged here field
        member => ?_⟩
      · have same := (h.written (Option.map_eq_none_iff.mp none_left)).1
        show a.1.value.patch value fields = b.1.value.patch value fields
        rw [same]
      · obtain ⟨previous, before, rfl⟩ := Option.map_eq_some_iff.mp here
        show (a.1.value.patch value fields).read field = (b.1.value.patch value fields).read field
        rw [ObjectValue.read_patch plain.2, ObjectValue.read_patch plain.2]
        by_cases new : [field] ∈ fields
        · rw [if_pos new, if_pos new]
        · rw [if_neg new, if_neg new]
          rcases mem_foldr_insertKey.mp member with listed | old
          · exact absurd listed new
          · exact h.patched previous before field old
  · rw [if_neg valid, if_neg valid]
    exact h

theorem alike_replay {mutations : List (Mutation δ κ α)}
    (plain : ∀ mutation ∈ mutations, mutation.Plain)
    {a b : MutableDocument δ κ α × Option (FieldMask κ)} (h : Alike a b) :
    Alike (replay mutations a.1 a.2) (replay mutations b.1 b.2) := by
  induction mutations generalizing a b with
  | nil => exact h
  | cons mutation rest ih =>
    exact ih (fun m member => plain m (by simp [member])) (h.step (plain mutation (by simp)))

theorem Alike.calculateOverlayMutation_eq {a b : MutableDocument δ κ α × Option (FieldMask κ)}
    (h : Alike a b) {baseA baseB : MutableDocument δ κ α} (ha : Replayed baseA a)
    (hb : Replayed baseB b) :
    calculateOverlayMutation a.1 a.2 = calculateOverlayMutation b.1 b.2 := by
  unfold calculateOverlayMutation
  rw [h.touched]
  by_cases touched : b.1.hasLocalMutations = true
  · rw [if_pos touched, if_pos touched]
    cases here : a.2 with
    | none =>
      obtain ⟨value, gone⟩ := h.written here
      rw [← h.mask, here]
      simp only [h.key, value, gone]
    | some mask =>
      have there : b.2 = some mask := by rw [← h.mask, here]
      rw [there]
      obtain ⟨sorted, coversA, _, _⟩ := ha.patched mask here
      obtain ⟨_, coversB, _, _⟩ := hb.patched mask there
      obtain ⟨maskA, readsA⟩ := overlayPatch_spec coversA sorted
      obtain ⟨maskB, readsB⟩ := overlayPatch_spec coversB sorted
      have same : (mask.foldl (OverlayPatch.add a.1.value)
          { patchValue := .empty, maskSet := [] }).patchValue =
          (mask.foldl (OverlayPatch.add b.1.value)
            { patchValue := .empty, maskSet := [] }).patchValue := by
        refine ObjectValue.ext_read fun field => ?_
        rw [readsA, readsB]
        by_cases member : [field] ∈ mask
        · rw [if_pos member, if_pos member]
          exact h.patched mask here field member
        · rw [if_neg member, if_neg member]
      simp only [maskA, maskB, same, h.key]
  · rw [if_neg touched, if_neg touched]

/-- The overlay does not change with the server's document as long as that exists or
not as before. -/
theorem overlayOf_congr {mutations : List (Mutation δ κ α)}
    (plain : ∀ mutation ∈ mutations, mutation.Plain) {a b : MutableDocument δ κ α}
    (remoteA : a.hasLocalMutations = false) (remoteB : b.hasLocalMutations = false)
    (key : a.key = b.key) (found : a.isFoundDocument = b.isFoundDocument) :
    overlayOf mutations a = overlayOf mutations b := by
  have start : Alike (a, some []) (b, some []) :=
    ⟨key, rfl, found, by rw [remoteA, remoteB], by simp, fun mask here field member => by
      rw [Option.some.injEq] at here
      simp [← here] at member⟩
  exact (alike_replay plain start).calculateOverlayMutation_eq (replayed remoteA plain)
    (replayed remoteB plain)

end Mutation

end Replay

end QuickNote.Firestore
