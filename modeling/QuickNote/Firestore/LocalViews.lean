import QuickNote.Firestore.LocalStore
import Mathlib.Data.List.Dedup

/-!
# What the local store shows

The client reads a document by its overlay.  The pending batches replayed over the
copy of the server's document say what it should read.
-/

namespace QuickNote.Firestore

open SortedEntries

section Replaying

variable {δ κ α : Type} [LinearOrder κ]

@[simp] theorem Mutation.key_applyToLocalView (mutation : Mutation δ κ α)
    (document : MutableDocument δ κ α) (mask : Option (FieldMask κ)) :
    (mutation.applyToLocalView document mask).1.key = document.key := by
  rw [Mutation.applyToLocalView]
  by_cases valid : mutation.precondition.isValidFor document = true
  · rw [if_pos valid]
    cases mutation.operation <;> rfl
  · rw [if_neg valid]

/-- A document with local mutations keeps them. -/
theorem Mutation.hasLocalMutations_applyToLocalView (mutation : Mutation δ κ α)
    {document : MutableDocument δ κ α} (touched : document.hasLocalMutations = true)
    (mask : Option (FieldMask κ)) :
    (mutation.applyToLocalView document mask).1.hasLocalMutations = true := by
  rw [Mutation.applyToLocalView]
  by_cases valid : mutation.precondition.isValidFor document = true
  · rw [if_pos valid]
    cases mutation.operation <;> rfl
  · rw [if_neg valid]
    exact touched

theorem Mutation.key_replay (mutations : List (Mutation δ κ α)) (document : MutableDocument δ κ α)
    (mask : Option (FieldMask κ)) : (Mutation.replay mutations document mask).1.key = document.key := by
  induction mutations generalizing document mask with
  | nil => rfl
  | cons mutation rest ih =>
    exact (ih _ _).trans (mutation.key_applyToLocalView document mask)

theorem Mutation.hasLocalMutations_replay (mutations : List (Mutation δ κ α))
    {document : MutableDocument δ κ α} (touched : document.hasLocalMutations = true)
    (mask : Option (FieldMask κ)) :
    (Mutation.replay mutations document mask).1.hasLocalMutations = true := by
  induction mutations generalizing document mask with
  | nil => exact touched
  | cons mutation rest ih =>
    exact ih (mutation.hasLocalMutations_applyToLocalView touched mask) _

theorem Mutation.calculateOverlayMutation_eq_none_iff {document : MutableDocument δ κ α}
    {mask : Option (FieldMask κ)} :
    Mutation.calculateOverlayMutation document mask = none ↔
      document.hasLocalMutations = false := by
  unfold Mutation.calculateOverlayMutation
  by_cases touched : document.hasLocalMutations = true
  · rw [if_pos touched]
    cases mask with
    | none => by_cases gone : document.isNoDocument = true <;> simp [gone, touched]
    | some mask => simp [touched]
  · rw [if_neg touched]
    simpa using touched

theorem Mutation.precondition_calculateOverlayMutation {document : MutableDocument δ κ α}
    {mask : Option (FieldMask κ)} {overlay : Mutation δ κ α}
    (made : Mutation.calculateOverlayMutation document mask = some overlay) :
    overlay.precondition = .none := by
  unfold Mutation.calculateOverlayMutation at made
  by_cases touched : document.hasLocalMutations = true
  · rw [if_pos touched] at made
    cases mask with
    | none =>
      by_cases gone : document.isNoDocument = true
      · simp only [if_pos gone, Option.some.injEq] at made
        exact made ▸ rfl
      · simp only [if_neg gone, Option.some.injEq] at made
        exact made ▸ rfl
    | some mask =>
      simp only [Option.some.injEq] at made
      exact made ▸ rfl
  · rw [if_neg touched] at made
    simp at made

namespace Mutation

theorem Plain.precondition_eq {mutation : Mutation δ κ α} (plain : mutation.Plain)
    (whole : mutation.isPatch = false) : mutation.precondition = .none := by
  rw [Plain] at plain
  cases kind : mutation.operation with
  | set value =>
    rw [kind] at plain
    exact plain
  | delete =>
    rw [kind] at plain
    exact plain
  | patch value mask => simp [isPatch, fieldMask, kind] at whole

/-- A write of a whole document makes what it is applied to irrelevant. -/
theorem alike_of_whole {mutation : Mutation δ κ α} (always : mutation.precondition = .none)
    (whole : mutation.isPatch = false) {a b : MutableDocument δ κ α × Option (FieldMask κ)}
    (key : a.1.key = b.1.key) :
    Alike (mutation.applyToLocalView a.1 a.2) (mutation.applyToLocalView b.1 b.2) := by
  have valid : ∀ document : MutableDocument δ κ α,
      mutation.precondition.isValidFor document = true := fun document => by rw [always]; rfl
  rw [applyToLocalView, applyToLocalView, if_pos (valid a.1), if_pos (valid b.1)]
  cases kind : mutation.operation with
  | set value => exact ⟨key, rfl, rfl, rfl, fun _ => ⟨rfl, rfl⟩, by simp⟩
  | delete => exact ⟨key, rfl, rfl, rfl, fun _ => ⟨rfl, rfl⟩, by simp⟩
  | patch value mask => simp [isPatch, fieldMask, kind] at whole

theorem mask_ne_none_of_patch {mutation : Mutation δ κ α} (patch : mutation.isPatch = true)
    (document : MutableDocument δ κ α) {mask : Option (FieldMask κ)} (masked : mask ≠ none) :
    (mutation.applyToLocalView document mask).2 ≠ none := by
  rw [applyToLocalView]
  by_cases valid : mutation.precondition.isValidFor document = true
  · rw [if_pos valid]
    cases kind : mutation.operation with
    | set value => simp [isPatch, fieldMask, kind] at patch
    | delete => simp [isPatch, fieldMask, kind] at patch
    | patch value fields => simpa using masked
  · rw [if_neg valid]
    exact masked

/-- Once the mask is gone, some write was of the whole document. -/
theorem alike_of_unmasked {mutations : List (Mutation δ κ α)}
    (plain : ∀ mutation ∈ mutations, mutation.Plain)
    {a b : MutableDocument δ κ α × Option (FieldMask κ)} (key : a.1.key = b.1.key)
    (masked : a.2 ≠ none) (unmasked : (replay mutations a.1 a.2).2 = none) :
    Alike (replay mutations a.1 a.2) (replay mutations b.1 b.2) := by
  induction mutations generalizing a b with
  | nil => exact absurd unmasked masked
  | cons mutation rest ih =>
    have plainRest : ∀ m ∈ rest, m.Plain := fun m member => plain m (by simp [member])
    have first : mutation.Plain := plain mutation (by simp)
    show Alike (replay rest (mutation.applyToLocalView a.1 a.2).1
        (mutation.applyToLocalView a.1 a.2).2)
      (replay rest (mutation.applyToLocalView b.1 b.2).1 (mutation.applyToLocalView b.1 b.2).2)
    cases kind : mutation.isPatch with
    | false => exact alike_replay plainRest (alike_of_whole (first.precondition_eq kind) kind key)
    | true =>
      refine ih plainRest ?_ (mask_ne_none_of_patch kind a.1 masked) unmasked
      rw [key_applyToLocalView, key_applyToLocalView, key]

/-- An overlay that is not a patch does not depend on what the server has. -/
theorem overlayOf_of_not_patch {mutations : List (Mutation δ κ α)}
    (plain : ∀ mutation ∈ mutations, mutation.Plain) {a b : MutableDocument δ κ α}
    (remoteA : a.hasLocalMutations = false) (remoteB : b.hasLocalMutations = false)
    (key : a.key = b.key) {overlay : Mutation δ κ α} (made : overlayOf mutations a = some overlay)
    (whole : overlay.isPatch = false) : overlayOf mutations b = some overlay := by
  have unmasked : (replay mutations a (some [])).2 = none := by
    unfold overlayOf calculateOverlayMutation at made
    by_cases touched : (replay mutations a (some [])).1.hasLocalMutations = true
    · rw [if_pos touched] at made
      cases mask : (replay mutations a (some [])).2 with
      | none => rfl
      | some fields =>
        rw [mask] at made
        simp only [Option.some.injEq] at made
        rw [← made] at whole
        simp [isPatch, fieldMask] at whole
    · rw [if_neg touched] at made
      simp at made
  have same : Alike (replay mutations a (some [])) (replay mutations b (some [])) :=
    alike_of_unmasked (a := (a, some [])) (b := (b, some [])) plain key (by simp) unmasked
  rw [← made]
  exact (same.calculateOverlayMutation_eq (replayed remoteA plain) (replayed remoteB plain)).symm

end Mutation

end Replaying

section Recalculating

variable {δ κ α : Type} [DecidableEq δ] [LinearOrder κ]

/-- The mutations of one document in a batch. -/
def MutationBatch.mutationsOf (self : MutationBatch δ κ α) (key : δ) : List (Mutation δ κ α) :=
  self.mutations.filter (·.key = key)

theorem MutationBatch.mem_keys {batch : MutationBatch δ κ α} {key : δ} :
    key ∈ batch.keys ↔ ∃ m ∈ batch.mutations, m.key = key := by
  simp [keys]

theorem MutationBatch.nodup_keys (batch : MutationBatch δ κ α) : batch.keys.Nodup :=
  List.nodup_dedup _

theorem MutationBatch.mutationsOf_eq_nil {batch : MutationBatch δ κ α} {key : δ}
    (absent : key ∉ batch.keys) : batch.mutationsOf key = [] := by
  refine List.filter_eq_nil_iff.mpr fun m member => ?_
  have other : m.key ≠ key := fun same => absent (mem_keys.mpr ⟨m, member, same⟩)
  simpa using other

/-- A batch does to a document what its mutations of that document do. -/
theorem MutationBatch.applyToLocalView_eq (batch : MutationBatch δ κ α)
    (document : MutableDocument δ κ α) (mask : Option (FieldMask κ)) :
    batch.applyToLocalView document mask =
      Mutation.replay (batch.mutationsOf document.key) document mask := by
  rw [applyToLocalView, mutationsOf]
  induction batch.mutations generalizing document mask with
  | nil => rfl
  | cons mutation rest ih =>
    rw [List.foldl_cons]
    by_cases own : mutation.key = document.key
    · rw [List.filter_cons_of_pos (by simpa using own)]
      simp only [if_pos own]
      have next := ih (mutation.applyToLocalView document mask).1
        (mutation.applyToLocalView document mask).2
      rw [Mutation.key_applyToLocalView] at next
      exact next
    · rw [List.filter_cons_of_neg (by simpa using own)]
      simp only [if_neg own]
      exact ih document mask

/-- The mutations of a document that are still in the queue, oldest first. -/
def MutationQueue.pending (self : MutationQueue δ κ α) (key : δ) : List (Mutation δ κ α) :=
  self.allMutationBatches.flatMap (·.mutationsOf key)

/-- Of the batches with a mutation of the document, the newest has this id. -/
structure MutationBatch.IsNewest (batches : List (MutationBatch δ κ α)) (key : δ) (batchId : ℕ) :
    Prop where
  member : ∃ batch ∈ batches, batch.batchId = batchId ∧ key ∈ batch.keys
  newest : ∀ batch ∈ batches, key ∈ batch.keys → batch.batchId ≤ batchId

theorem MutationBatch.IsNewest.unique {batches : List (MutationBatch δ κ α)} {key : δ}
    {first second : ℕ} (hf : IsNewest batches key first) (hs : IsNewest batches key second) :
    first = second := by
  obtain ⟨⟨a, memberA, rfl, touchedA⟩, aboveA⟩ := hf
  obtain ⟨⟨b, memberB, rfl, touchedB⟩, aboveB⟩ := hs
  exact le_antisymm (aboveB a memberA touchedA) (aboveA b memberB touchedB)

namespace Recalculation

variable {batch : MutationBatch δ κ α} (keys : List δ)

/-- One batch reaches each of its documents once. -/
theorem foldl_applyTo {documents : List δ} (distinct : documents.Nodup)
    (start : Recalculation δ κ α) (ascending : Ascending start.documentsByBatchId) :
    Ascending (documents.foldl (applyTo batch keys) start).documentsByBatchId ∧
    (∀ key, ((documents.foldl (applyTo batch keys) start).docs key,
        (documents.foldl (applyTo batch keys) start).masks key) =
      if key ∈ documents ∧ key ∈ keys then
        ((batch.applyToLocalView (start.docs key) ((start.masks key).getD (some []))).1,
          some (batch.applyToLocalView (start.docs key) ((start.masks key).getD (some []))).2)
      else (start.docs key, start.masks key)) ∧
    ∀ batchId key,
      key ∈ ((documents.foldl (applyTo batch keys) start).documentsByBatchId.lookup batchId).getD [] ↔
        key ∈ (start.documentsByBatchId.lookup batchId).getD [] ∨
          (batchId = batch.batchId ∧ key ∈ documents ∧ key ∈ keys) := by
  induction documents generalizing start with
  | nil => exact ⟨ascending, by simp, by simp⟩
  | cons first rest ih =>
    obtain ⟨absent, distinctRest⟩ := List.nodup_cons.mp distinct
    rw [List.foldl_cons]
    by_cases wanted : first ∈ keys
    · have made : applyTo batch keys start first = {
          docs := Function.update start.docs first
            (batch.applyToLocalView (start.docs first) ((start.masks first).getD (some []))).1
          masks := Function.update start.masks first
            (some (batch.applyToLocalView (start.docs first)
              ((start.masks first).getD (some []))).2)
          documentsByBatchId := insertEntry batch.batchId
            (first :: (start.documentsByBatchId.lookup batch.batchId).getD [])
            start.documentsByBatchId } := by
        rw [applyTo, if_pos wanted]
      obtain ⟨sorted, views, groups⟩ := ih distinctRest (applyTo batch keys start first)
        (by rw [made]; exact ascending.insert _ _)
      refine ⟨sorted, fun key => ?_, fun batchId key => ?_⟩
      · rw [views, made]
        by_cases here : key = first
        · subst here
          simp [absent, wanted]
        · simp [here]
      · rw [groups, made, lookup_insertEntry]
        by_cases same : batchId = batch.batchId
        · subst same
          simp only [if_true, Option.getD_some, List.mem_cons]
          by_cases here : key = first
          · simp [here, wanted]
          · simp [here]
        · simp [same]
    · have skipped : applyTo batch keys start first = start := by rw [applyTo, if_neg wanted]
      rw [skipped]
      obtain ⟨sorted, views, groups⟩ := ih distinctRest start ascending
      refine ⟨sorted, fun key => ?_, fun batchId key => ?_⟩
      · rw [views]
        by_cases here : key = first
        · simp [here, wanted]
        · simp [here]
      · rw [groups]
        by_cases here : key = first
        · simp [here, wanted]
        · simp [here]

variable {keys}

/-- What the first loop has found after the given batches. -/
structure After (keys : List δ) (docs : δ → MutableDocument δ κ α)
    (done : List (MutationBatch δ κ α)) (r : Recalculation δ κ α) : Prop where
  ascending : Ascending r.documentsByBatchId
  replayed : ∀ key ∈ keys, (r.docs key, (r.masks key).getD (some [])) =
    Mutation.replay (done.flatMap (·.mutationsOf key)) (docs key) (some [])
  reached : ∀ key ∈ keys, r.masks key ≠ none ↔ ∃ batch ∈ done, key ∈ batch.keys
  grouped : ∀ batchId key, key ∈ (r.documentsByBatchId.lookup batchId).getD [] ↔
    key ∈ keys ∧ ∃ batch ∈ done, batch.batchId = batchId ∧ key ∈ batch.keys

theorem After.step {docs : δ → MutableDocument δ κ α} (keyed : ∀ key, (docs key).key = key)
    {done : List (MutationBatch δ κ α)} {r : Recalculation δ κ α} (h : After keys docs done r)
    (batch : MutationBatch δ κ α) :
    After keys docs (done ++ [batch]) (batch.keys.foldl (applyTo batch keys) r) := by
  obtain ⟨sorted, views, groups⟩ := foldl_applyTo keys batch.nodup_keys r h.ascending
  refine ⟨sorted, fun key wanted => ?_, fun key wanted => ?_, fun batchId key => ?_⟩
  · have before := h.replayed key wanted
    have owner : (r.docs key).key = key := by
      have := congrArg (fun view => view.1.key) before
      simpa [Mutation.key_replay, keyed key] using this
    have now := views key
    rw [List.flatMap_append, Mutation.replay_append, ← before]
    by_cases touched : key ∈ batch.keys
    · rw [if_pos ⟨touched, wanted⟩, Prod.mk.injEq] at now
      rw [now.1, now.2, MutationBatch.applyToLocalView_eq, owner]
      simp
    · rw [if_neg fun both => touched both.1, Prod.mk.injEq] at now
      rw [now.1, now.2]
      simp [MutationBatch.mutationsOf_eq_nil touched, Mutation.replay]
  · have now := congrArg Prod.snd (views key)
    by_cases touched : key ∈ batch.keys
    · rw [if_pos ⟨touched, wanted⟩] at now
      simp only at now
      rw [now]
      simp [touched]
    · rw [if_neg fun both => touched both.1] at now
      simp only at now
      rw [now, h.reached key wanted]
      simp [touched]
  · rw [groups, h.grouped]
    constructor
    · rintro (⟨wanted, other, member, same, inside⟩ | ⟨rfl, inside, wanted⟩)
      · exact ⟨wanted, other, by simp [member], same, inside⟩
      · exact ⟨wanted, batch, by simp, rfl, inside⟩
    · rintro ⟨wanted, other, member, same, inside⟩
      rcases List.mem_append.mp member with old | new
      · exact Or.inl ⟨wanted, other, old, same, inside⟩
      · rw [List.mem_singleton] at new
        subst new
        exact Or.inr ⟨same.symm, inside, wanted⟩

theorem after_applyAll {docs : δ → MutableDocument δ κ α} (keyed : ∀ key, (docs key).key = key)
    (batches : List (MutationBatch δ κ α)) :
    After keys docs batches
      (applyAll batches keys { docs, masks := fun _ => none, documentsByBatchId := [] }) := by
  induction batches using List.reverseRecOn with
  | nil => exact ⟨Ascending.nil, fun _ _ => rfl, by simp [applyAll], by simp [applyAll]⟩
  | append_singleton batches batch ih =>
    rw [applyAll, List.foldl_append]
    exact ih.step keyed batch

/-- A document that is dealt with already keeps its overlay; another one gets it from
the first batch in the list that has it. -/
theorem save_eq (r : Recalculation δ κ α) (groups : List (ℕ × List δ))
    (overlays : δ → Option (Overlay δ κ α)) (processed : List δ) (key : δ) :
    r.save overlays groups processed key =
      if key ∈ processed then overlays key
      else
        match groups.find? fun group => key ∈ group.2 with
        | none => overlays key
        | some group =>
            match r.overlay key with
            | some mutation => some { largestBatchId := group.1, mutation }
            | none => overlays key := by
  induction groups generalizing overlays processed with
  | nil => simp [save]
  | cons group rest ih =>
    rw [save, ih]
    by_cases dealt : key ∈ processed
    · simp [dealt]
    · by_cases here : key ∈ group.2
      · rw [List.find?_cons_of_pos (by simpa using here)]
        cases made : r.overlay key with
        | none => simp [dealt, here]
        | some mutation => simp [dealt, here]
      · rw [List.find?_cons_of_neg (by simpa using here)]
        simp [dealt, here]

/-- After both loops the overlay of a document is the one that its pending mutations
come to, under the id of the newest of their batches; where they come to none, it is
the old one. -/
theorem After.save_eq {docs : δ → MutableDocument δ κ α}
    {batches : List (MutationBatch δ κ α)} {r : Recalculation δ κ α}
    (h : After keys docs batches r) (overlays : δ → Option (Overlay δ κ α)) (key : δ) :
    (key ∉ keys ∨ (∀ batch ∈ batches, key ∉ batch.keys) →
      r.save overlays r.documentsByBatchId.reverse [] key = overlays key) ∧
    (∀ batch ∈ batches, key ∈ batch.keys → key ∈ keys →
      match Mutation.overlayOf (batches.flatMap (·.mutationsOf key)) (docs key) with
      | some mutation => ∃ batchId, MutationBatch.IsNewest batches key batchId ∧
          r.save overlays r.documentsByBatchId.reverse [] key =
            some { largestBatchId := batchId, mutation }
      | none => r.save overlays r.documentsByBatchId.reverse [] key = overlays key) := by
  have grouped : ∀ group ∈ r.documentsByBatchId, key ∈ group.2 →
      key ∈ keys ∧ ∃ batch ∈ batches, batch.batchId = group.1 ∧ key ∈ batch.keys := by
    intro group member inside
    refine (h.grouped group.1 key).mp ?_
    rw [h.ascending.lookup_of_mem member]
    exact inside
  rw [Recalculation.save_eq, if_neg (by simp)]
  constructor
  · intro outside
    have nowhere : (r.documentsByBatchId.reverse.find? fun group => key ∈ group.2) = none := by
      refine List.find?_eq_none.mpr fun group member => ?_
      intro inside
      obtain ⟨wanted, batch, listed, _, touched⟩ :=
        grouped group (List.mem_reverse.mp member) (by simpa using inside)
      rcases outside with unwanted | untouched
      · exact unwanted wanted
      · exact untouched batch listed touched
    rw [nowhere]
  · intro batch member touched wanted
    have listed : ∀ other ∈ batches, key ∈ other.keys → ∃ documents,
        (other.batchId, documents) ∈ r.documentsByBatchId.reverse ∧ key ∈ documents := by
      intro other member touches
      have inside := (h.grouped other.batchId key).mpr ⟨wanted, other, member, rfl, touches⟩
      cases here : r.documentsByBatchId.lookup other.batchId with
      | none => simp [here] at inside
      | some documents =>
        rw [here, Option.getD_some] at inside
        exact ⟨documents, List.mem_reverse.mpr (mem_keys_of_lookup here), inside⟩
    obtain ⟨group, found⟩ : ∃ group,
        (r.documentsByBatchId.reverse.find? fun group => key ∈ group.2) = some group := by
      obtain ⟨documents, inside, here⟩ := listed batch member touched
      exact Option.isSome_iff_exists.mp
        (List.find?_isSome.mpr ⟨(batch.batchId, documents), inside, by simpa using here⟩)
    have newest : MutationBatch.IsNewest batches key group.1 := by
      refine ⟨(grouped group (List.mem_reverse.mp (List.mem_of_find?_eq_some found))
        (by simpa using List.find?_some found)).2, fun other member touches => ?_⟩
      obtain ⟨documents, inside, here⟩ := listed other member touches
      exact h.ascending.le_of_find?_reverse found (List.mem_reverse.mp inside) (by simpa using here)
    have masked : ∃ mask, r.masks key = some mask :=
      Option.ne_none_iff_exists'.mp ((h.reached key wanted).mpr ⟨batch, member, touched⟩)
    obtain ⟨mask, here⟩ := masked
    have view := h.replayed key wanted
    rw [here, Option.getD_some] at view
    have same : r.overlay key =
        Mutation.overlayOf (batches.flatMap (·.mutationsOf key)) (docs key) := by
      rw [overlay, here, Option.getD_some, Mutation.overlayOf, ← view]
    rw [found]
    simp only [same]
    cases made : Mutation.overlayOf (batches.flatMap (·.mutationsOf key)) (docs key) with
    | none => rfl
    | some mutation => exact ⟨group.1, newest, rfl⟩

end Recalculation

theorem MutationQueue.pending_affecting (queue : MutationQueue δ κ α) {keys : List δ} {key : δ}
    (wanted : key ∈ keys) :
    (queue.affecting keys).flatMap (·.mutationsOf key) = queue.pending key := by
  rw [affecting, pending]
  induction queue.allMutationBatches with
  | nil => rfl
  | cons batch rest ih =>
    by_cases touches : ∃ m ∈ batch.mutations, m.key ∈ keys
    · rw [List.filter_cons_of_pos (by simpa using touches), List.flatMap_cons, List.flatMap_cons, ih]
    · have nothing : batch.mutationsOf key = [] := MutationBatch.mutationsOf_eq_nil fun member => by
        obtain ⟨m, inside, rfl⟩ := MutationBatch.mem_keys.mp member
        exact touches ⟨m, inside, wanted⟩
      rw [List.filter_cons_of_neg (by simpa using touches), List.flatMap_cons, nothing, ih]
      rfl

theorem MutationQueue.isNewest_affecting (queue : MutationQueue δ κ α) {keys : List δ} {key : δ}
    (wanted : key ∈ keys) {batchId : ℕ} :
    MutationBatch.IsNewest (queue.affecting keys) key batchId ↔
      MutationBatch.IsNewest queue.allMutationBatches key batchId := by
  have kept : ∀ batch : MutationBatch δ κ α, key ∈ batch.keys →
      (batch ∈ queue.affecting keys ↔ batch ∈ queue.allMutationBatches) := by
    intro batch touches
    obtain ⟨m, inside, rfl⟩ := MutationBatch.mem_keys.mp touches
    rw [affecting, List.mem_filter]
    exact and_iff_left (by simpa using ⟨m, inside, wanted⟩)
  constructor
  · rintro ⟨⟨batch, member, id, touches⟩, newest⟩
    exact ⟨⟨batch, (kept batch touches).mp member, id, touches⟩,
      fun other there touched => newest other ((kept other touched).mpr there) touched⟩
  · rintro ⟨⟨batch, member, id, touches⟩, newest⟩
    exact ⟨⟨batch, (kept batch touches).mpr member, id, touches⟩,
      fun other there touched => newest other ((kept other touched).mp there) touched⟩

/-- The overlay that is stored for a document after its pending mutations were summed
up over `doc`: under the id of the newest of their batches, or the old one where they
come to nothing. -/
def Resettled (queue : MutationQueue δ κ α) (doc : MutableDocument δ κ α)
    (old new : Option (Overlay δ κ α)) : Prop :=
  match Mutation.overlayOf (queue.pending doc.key) doc with
  | some mutation => ∃ batchId, MutationBatch.IsNewest queue.allMutationBatches doc.key batchId ∧
      new = some { largestBatchId := batchId, mutation }
  | none => new = old

theorem resettled_iff {queue : MutationQueue δ κ α} {doc : MutableDocument δ κ α}
    {old new : Option (Overlay δ κ α)} :
    Resettled queue doc old new ↔
      (∀ mutation, Mutation.overlayOf (queue.pending doc.key) doc = some mutation →
        ∃ batchId, MutationBatch.IsNewest queue.allMutationBatches doc.key batchId ∧
          new = some { largestBatchId := batchId, mutation }) ∧
      (Mutation.overlayOf (queue.pending doc.key) doc = none → new = old) := by
  rw [Resettled]
  cases Mutation.overlayOf (queue.pending doc.key) doc with
  | none => simp
  | some mutation => simp

namespace LocalStore

theorem recalculateAndSaveOverlays_spec {store : LocalStore δ κ α}
    (consistent : store.mutationQueue.Consistent) (keys : List δ)
    {docs : δ → MutableDocument δ κ α} (keyed : ∀ key, (docs key).key = key)
    (remote : ∀ key, (docs key).hasLocalMutations = false) :
    ∃ overlays recalculated,
      store.recalculateAndSaveOverlays keys docs = some ({ store with overlays }, recalculated) ∧
      ∀ key, (key ∉ keys → overlays key = store.overlays key) ∧
        (key ∈ keys →
          Resettled store.mutationQueue (docs key) (store.overlays key) (overlays key)) := by
  let recalculated := Recalculation.applyAll (store.mutationQueue.affecting keys) keys
    { docs, masks := fun _ => none, documentsByBatchId := [] }
  have after : Recalculation.After keys docs (store.mutationQueue.affecting keys) recalculated :=
    Recalculation.after_applyAll keyed _
  refine ⟨recalculated.save store.overlays recalculated.documentsByBatchId.reverse [],
    recalculated, ?_, fun key => ?_⟩
  · rw [recalculateAndSaveOverlays,
      consistent.allMutationBatchesAffectingDocumentKeys_eq keys]
    rfl
  · obtain ⟨outside, inside⟩ := after.save_eq store.overlays key
    refine ⟨fun unwanted => outside (Or.inl unwanted), fun wanted => ?_⟩
    rw [store.mutationQueue.pending_affecting wanted] at inside
    rw [Resettled, keyed]
    by_cases touched : ∃ batch ∈ store.mutationQueue.affecting keys, key ∈ batch.keys
    · obtain ⟨batch, member, touches⟩ := touched
      have saved := inside batch member touches wanted
      cases made : Mutation.overlayOf (store.mutationQueue.pending key) (docs key) with
      | none =>
        rw [made] at saved
        exact saved
      | some mutation =>
        rw [made] at saved
        obtain ⟨batchId, newest, new⟩ := saved
        exact ⟨batchId, (store.mutationQueue.isNewest_affecting wanted).mp newest, new⟩
    · have untouched : ∀ batch ∈ store.mutationQueue.affecting keys, key ∉ batch.keys :=
        fun batch member touches => touched ⟨batch, member, touches⟩
      have nothing : store.mutationQueue.pending key = [] := by
        rw [← store.mutationQueue.pending_affecting wanted]
        exact List.flatMap_eq_nil_iff.mpr fun batch member =>
          MutationBatch.mutationsOf_eq_nil (untouched batch member)
      have none_made : Mutation.overlayOf (store.mutationQueue.pending key) (docs key) = none := by
        rw [nothing]
        exact Mutation.calculateOverlayMutation_eq_none_iff.mpr (remote key)
      rw [none_made]
      exact outside (Or.inr untouched)

end LocalStore

end Recalculating

end QuickNote.Firestore
