import QuickNote.Firestore.LocalViews

/-!
# Steps of the local store

What writing, an answer of the server to a write and documents that the server sends
make of the overlays.
-/

namespace QuickNote.Firestore

open SortedEntries

variable {δ κ α : Type} [DecidableEq δ] [LinearOrder κ]

namespace LocalStore

/-- The document with all the batches in the queue that change it. -/
def replayed (self : LocalStore δ κ α) (key : δ) : MutableDocument δ κ α :=
  self.getDocumentReplaying key (self.mutationQueue.affecting [key])

/-- Reading the document by its overlay gives what replaying the queue gives. -/
def AgreeAt (store : LocalStore δ κ α) (key : δ) : Prop :=
  store.getDocument key = store.replayed key

/-- The mutation that the pending ones of a document come to. -/
def overlayOf (self : LocalStore δ κ α) (key : δ) : Option (Mutation δ κ α) :=
  Mutation.overlayOf (self.mutationQueue.pending key) (self.remoteDocuments key)

/-- The overlay of a document has no condition and was made for a batch in the queue that
changes the document. -/
def Backed (queue : MutationQueue δ κ α) (key : δ) (overlay : Option (Overlay δ κ α)) : Prop :=
  ∀ stored ∈ overlay, stored.mutation.precondition = .none ∧
    ∃ batch ∈ queue.allMutationBatches,
      batch.batchId = stored.largestBatchId ∧ key ∈ batch.keys

/-- What holds of the store whether its overlays are right or not. -/
structure Valid (store : LocalStore δ κ α) : Prop where
  queue : store.mutationQueue.Consistent
  keyed : ∀ key, (store.remoteDocuments key).key = key
  remote : ∀ key, (store.remoteDocuments key).hasLocalMutations = false
  backed : ∀ key, Backed store.mutationQueue key (store.overlays key)

/-- The document has the overlay that its pending mutations come to. -/
def SettledAt (store : LocalStore δ κ α) (key : δ) : Prop :=
  Resettled store.mutationQueue (store.remoteDocuments key) none (store.overlays key)

/-- The overlay of the document is what the mutations come to. -/
def StandsFor (store : LocalStore δ κ α) (key : δ) (mutations : List (Mutation δ κ α)) : Prop :=
  (store.overlays key).map Overlay.mutation =
    Mutation.overlayOf mutations (store.remoteDocuments key)

/-- An overlay can sum up what is pending for the document. -/
def PlainAt (store : LocalStore δ κ α) (key : δ) : Prop :=
  ∀ m ∈ store.mutationQueue.pending key, m.Plain

section Reading

variable {store : LocalStore δ κ α}

omit [DecidableEq δ] in
theorem StandsFor.overlayOf_eq {key : δ} {mutations : List (Mutation δ κ α)}
    (stands : store.StandsFor key mutations) {overlay : Overlay δ κ α}
    (here : store.overlays key = some overlay) :
    Mutation.overlayOf mutations (store.remoteDocuments key) = some overlay.mutation := by
  rw [StandsFor, here] at stands
  exact stands.symm

theorem SettledAt.standsFor (valid : store.Valid) {key : δ} (settled : store.SettledAt key) :
    store.StandsFor key (store.mutationQueue.pending key) := by
  have here := resettled_iff.mp settled
  rw [valid.keyed] at here
  rw [StandsFor]
  cases made : Mutation.overlayOf (store.mutationQueue.pending key) (store.remoteDocuments key) with
  | none =>
    rw [here.2 made]
    rfl
  | some mutation =>
    obtain ⟨_, _, new⟩ := here.1 mutation made
    rw [new]
    rfl

/-- Replaying batches starts each one with an empty mask, which makes no difference. -/
theorem getDocumentReplaying_eq (valid : store.Valid) (key : δ)
    (batches : List (MutationBatch δ κ α)) :
    store.getDocumentReplaying key batches =
      (Mutation.replay (batches.flatMap (·.mutationsOf key)) (store.remoteDocuments key)
        (some [])).1 := by
  have masks : ∀ (mutations : List (Mutation δ κ α)) (document : MutableDocument δ κ α)
      (first second : Option (FieldMask κ)), (Mutation.replay mutations document first).1 =
        (Mutation.replay mutations document second).1 := by
    intro mutations
    induction mutations with
    | nil => exact fun _ _ _ => rfl
    | cons mutation rest ih =>
      intro document first second
      show (Mutation.replay rest (mutation.applyToLocalView document first).1 _).1 =
        (Mutation.replay rest (mutation.applyToLocalView document second).1 _).1
      rw [mutation.applyToLocalView_fst document first second]
      exact ih _ _ _
  rw [getDocumentReplaying]
  induction batches using List.reverseRecOn with
  | nil => rfl
  | append_singleton batches batch ih =>
    have owner : (Mutation.replay (batches.flatMap (·.mutationsOf key)) (store.remoteDocuments key)
        (some [])).1.key = key := (Mutation.key_replay _ _ _).trans (valid.keyed key)
    rw [List.foldl_append, ih, List.foldl_cons, List.foldl_nil, batch.applyToLocalView_eq, owner,
      List.flatMap_append, Mutation.replay_append, List.flatMap_singleton]
    exact masks _ _ _ _

theorem replayed_eq (valid : store.Valid) (key : δ) :
    store.replayed key =
      (Mutation.replay (store.mutationQueue.pending key) (store.remoteDocuments key)
        (some [])).1 := by
  rw [replayed, getDocumentReplaying_eq valid, store.mutationQueue.pending_affecting (by simp)]

theorem overlayOf_eq_none_iff (valid : store.Valid) (key : δ) :
    store.overlayOf key = none ↔ (store.replayed key).hasLocalMutations = false := by
  rw [overlayOf, Mutation.overlayOf, Mutation.calculateOverlayMutation_eq_none_iff,
    replayed_eq valid]

/-- Reading by the overlay that mutations come to gives their replay. -/
theorem StandsFor.getDocument_eq (valid : store.Valid) {key : δ}
    {mutations : List (Mutation δ κ α)} (stands : store.StandsFor key mutations)
    (plain : ∀ m ∈ mutations, m.Plain) :
    store.getDocument key =
      (Mutation.replay mutations (store.remoteDocuments key) (some [])).1 := by
  have shown := Mutation.viewed_overlayOf (valid.remote key) plain
  rw [← shown, ← show (store.overlays key).map Overlay.mutation = _ from stands, getDocument,
    getBaseDocument]
  cases stored : store.overlays key with
  | none => rfl
  | some overlay =>
    have always := (valid.backed key overlay stored).1
    have masked := overlay.mutation.applyToLocalView_fst (store.remoteDocuments key) (some []) none
    cases patch : overlay.mutation.isPatch with
    | true =>
      simp only [Option.all_some, patch, if_true, Option.map_some, Mutation.viewed]
      exact masked
    | false =>
      simp only [Option.all_some, patch, Bool.false_eq_true, if_false]
      have same := Mutation.viewed_of_not_patch always patch
        (a := .invalidDocument key) (b := store.remoteDocuments key) (valid.keyed key).symm
      rw [Option.map_some, ← same]
      exact overlay.mutation.applyToLocalView_fst _ _ _

theorem SettledAt.agreeAt (valid : store.Valid) {key : δ} (plain : store.PlainAt key)
    (settled : store.SettledAt key) : store.AgreeAt key := by
  rw [AgreeAt, replayed_eq valid]
  exact (settled.standsFor valid).getDocument_eq valid plain

end Reading

end LocalStore

namespace MutationBatch.DocumentSet

variable {batch : MutationBatch δ κ α} {key : δ}

theorem apply_of_ne (set : DocumentSet δ κ α) (batch : MutationBatch δ κ α)
    {mutation : Mutation δ κ α} (other : mutation.key ≠ key) :
    (set.apply batch mutation).documents key = set.documents key ∧
      (set.apply batch mutation).overlays key = set.overlays key := by
  rw [apply]
  exact ⟨Function.update_of_ne other.symm _ _, Function.update_of_ne other.symm _ _⟩

/-- The first overlay of a document is kept. -/
theorem overlays_foldl_of_some {set : DocumentSet δ κ α} {overlay : Mutation δ κ α}
    (known : set.overlays key = some overlay) (mutations : List (Mutation δ κ α)) :
    (mutations.foldl (apply batch) set).overlays key = some overlay := by
  induction mutations generalizing set with
  | nil => exact known
  | cons mutation rest ih =>
    refine ih ?_
    by_cases own : mutation.key = key
    · subst own
      rw [apply]
      simp [known]
    · rw [(apply_of_ne _ _ own).2, known]

/-- Only documents of the batch get overlays from it. -/
theorem mem_keys_of_overlays {views : δ → MutableDocument δ κ α × Option (FieldMask κ)}
    {overlay : Mutation δ κ α}
    (made : (batch.applyToLocalDocumentSet views).overlays key = some overlay) :
    key ∈ batch.keys := by
  by_contra absent
  have others : ∀ m ∈ batch.mutations, m.key ≠ key := fun m member same =>
    absent (MutationBatch.mem_keys.mpr ⟨m, member, same⟩)
  have run : ∀ (mutations : List (Mutation δ κ α)) (set : DocumentSet δ κ α),
      (∀ m ∈ mutations, m.key ≠ key) →
        (mutations.foldl (apply batch) set).overlays key = set.overlays key := by
    intro mutations
    induction mutations with
    | nil => exact fun _ _ => rfl
    | cons mutation rest ih =>
      intro set other
      rw [List.foldl_cons, ih _ fun m member => other m (by simp [member])]
      exact (apply_of_ne set batch (other mutation (by simp))).2
  rw [applyToLocalDocumentSet, run _ _ others] at made
  simp at made

theorem precondition_of_overlays
    {views : δ → MutableDocument δ κ α × Option (FieldMask κ)} {overlay : Mutation δ κ α}
    (made : (batch.applyToLocalDocumentSet views).overlays key = some overlay) :
    overlay.precondition = .none := by
  have run : ∀ (mutations : List (Mutation δ κ α)) (set : DocumentSet δ κ α),
      (∀ overlay ∈ set.overlays key, overlay.precondition = .none) →
        ∀ overlay ∈ (mutations.foldl (apply batch) set).overlays key,
          overlay.precondition = .none := by
    intro mutations
    induction mutations with
    | nil => exact fun _ holds => holds
    | cons mutation rest ih =>
      intro set holds
      refine ih _ fun overlay member => ?_
      by_cases own : mutation.key = key
      · subst own
        rw [apply] at member
        simp only [Function.update_self, Option.mem_def, Option.or_eq_some_iff] at member
        rcases member with old | ⟨_, new⟩
        · exact holds overlay old
        · exact Mutation.precondition_calculateOverlayMutation new
      · rw [(apply_of_ne set batch own).2] at member
        exact holds overlay member
  exact run _ _ (by simp) overlay made

/-- A document that the batch does nothing to has no overlay, however often the batch
is applied to it. -/
theorem overlays_foldl_of_none {base : MutableDocument δ κ α} (keyed : base.key = key)
    (remote : base.hasLocalMutations = false) (plain : ∀ m ∈ batch.mutationsOf key, m.Plain)
    (nothing : Mutation.overlayOf (batch.mutationsOf key) base = none) {set : DocumentSet δ κ α}
    {shown : MutableDocument δ κ α} (view : set.documents key = (shown, some []))
    (same : shown.key = key) (untouched : shown.hasLocalMutations = false)
    (found : shown.isFoundDocument = base.isFoundDocument) (unknown : set.overlays key = none)
    (mutations : List (Mutation δ κ α)) :
    (mutations.foldl (apply batch) set).overlays key = none := by
  induction mutations generalizing set shown with
  | nil => exact unknown
  | cons mutation rest ih =>
    rw [List.foldl_cons]
    by_cases own : mutation.key = key
    · subst own
      have overlay : Mutation.overlayOf (batch.mutationsOf mutation.key) shown = none := by
        rw [← nothing]
        exact Mutation.overlayOf_congr plain untouched remote (same.trans keyed.symm) found
      have result := Mutation.calculateOverlayMutation_eq_none_iff.mp overlay
      have kept := (Mutation.replayed untouched plain).untouched result
      have applied : batch.applyToLocalView shown (some []) = (shown, some []) := by
        rw [batch.applyToLocalView_eq, same, kept]
      have none_made : Mutation.calculateOverlayMutation shown (some []) = none :=
        Mutation.calculateOverlayMutation_eq_none_iff.mpr untouched
      have next : (set.apply batch mutation).overlays mutation.key = none := by
        rw [apply, view]
        simp [applied, unknown, none_made]
      by_cases valid : shown.isValidDocument = true
      · have view' : (set.apply batch mutation).documents mutation.key = (shown, some []) := by
          rw [apply, view]
          simp [applied, valid]
        exact ih view' same untouched found next
      · have view' : (set.apply batch mutation).documents mutation.key =
            (shown.convertToNoDocument 0, some []) := by
          rw [apply, view]
          simp [applied, valid]
        have invalid : shown.documentType = .invalid := by
          simpa [MutableDocument.isValidDocument] using valid
        have missing : (shown.convertToNoDocument 0).isFoundDocument = base.isFoundDocument := by
          rw [← found]
          simp [MutableDocument.isFoundDocument, MutableDocument.convertToNoDocument, invalid]
        exact ih view' same rfl missing next
    · obtain ⟨document, overlay⟩ := apply_of_ne set batch own
      exact ih (document.trans view) same untouched found (overlay.trans unknown)

end MutationBatch.DocumentSet

/-- A batch that is written gives each of its documents the overlay of all its pending
mutations. -/
theorem MutationBatch.overlays_applyToLocalDocumentSet {batch : MutationBatch δ κ α}
    {views : δ → MutableDocument δ κ α × Option (FieldMask κ)} {key : δ}
    {base : MutableDocument δ κ α} (keyed : base.key = key)
    (remote : base.hasLocalMutations = false) {pending : List (Mutation δ κ α)}
    (plain : ∀ m ∈ pending ++ batch.mutationsOf key, m.Plain)
    (view : views key = Mutation.replay pending base (some [])) :
    (batch.applyToLocalDocumentSet views).overlays key =
      if key ∈ batch.keys then Mutation.overlayOf (pending ++ batch.mutationsOf key) base
      else none := by
  have applied : batch.applyToLocalView (views key).1 (views key).2 =
      Mutation.replay (pending ++ batch.mutationsOf key) base (some []) := by
    rw [batch.applyToLocalView_eq, view, Mutation.key_replay, keyed, Mutation.replay_append]
  have run : ∀ (mutations : List (Mutation δ κ α)) (set : DocumentSet δ κ α),
      set.documents key = views key → set.overlays key = none →
        (mutations.foldl (DocumentSet.apply batch) set).overlays key =
          if ∃ m ∈ mutations, m.key = key then
            Mutation.overlayOf (pending ++ batch.mutationsOf key) base
          else none := by
    intro mutations
    induction mutations with
    | nil => exact fun set _ unknown => by simpa using unknown
    | cons mutation rest ih =>
      intro set document unknown
      by_cases own : mutation.key = key
      · subst own
        rw [if_pos ⟨mutation, by simp, rfl⟩]
        cases made : Mutation.overlayOf (pending ++ batch.mutationsOf mutation.key) base with
        | some overlay =>
          refine DocumentSet.overlays_foldl_of_some ?_ rest
          rw [DocumentSet.apply, document, applied]
          simp only [Function.update_self, unknown, Option.none_or]
          exact made
        | none =>
          -- Nothing has been done to the document, by the pending mutations neither.
          have untouched := Mutation.calculateOverlayMutation_eq_none_iff.mp made
          have before : (Mutation.replay pending base (some [])).1.hasLocalMutations = false := by
            by_contra touched
            rw [Mutation.replay_append, Mutation.hasLocalMutations_replay _ (by simpa using touched)]
              at untouched
            exact absurd untouched (by simp)
          have start := (Mutation.replayed remote fun m member =>
            plain m (List.mem_append_left _ member)).untouched before
          refine DocumentSet.overlays_foldl_of_none keyed remote
            (fun m member => plain m (List.mem_append_right _ member)) ?_
            (document.trans (view.trans start)) keyed remote rfl unknown (mutation :: rest)
          rw [Mutation.overlayOf, Mutation.replay_append, start] at made
          exact made
      · obtain ⟨documents, overlays⟩ := DocumentSet.apply_of_ne set batch own
        rw [List.foldl_cons, ih _ (documents.trans document) (overlays.trans unknown)]
        simp [own]
  rw [applyToLocalDocumentSet, run _ _ rfl rfl]
  simp [MutationBatch.mem_keys]

/-- An overlay that is right stays so where the pending mutations still come to it. -/
theorem Resettled.transfer {queue queue' : MutationQueue δ κ α} {doc doc' : MutableDocument δ κ α}
    {overlay : Option (Overlay δ κ α)} (settled : Resettled queue doc none overlay)
    (same : Mutation.overlayOf (queue'.pending doc'.key) doc' =
      Mutation.overlayOf (queue.pending doc.key) doc)
    (newest : ∀ batchId, MutationBatch.IsNewest queue.allMutationBatches doc.key batchId →
      MutationBatch.IsNewest queue'.allMutationBatches doc'.key batchId) :
    Resettled queue' doc' overlay overlay := by
  obtain ⟨made, nothing⟩ := resettled_iff.mp settled
  refine resettled_iff.mpr ⟨fun mutation found => ?_, fun _ => rfl⟩
  obtain ⟨batchId, isNewest, new⟩ := made mutation (same ▸ found)
  exact ⟨batchId, newest batchId isNewest, new⟩

theorem Resettled.backed {queue : MutationQueue δ κ α} {doc : MutableDocument δ κ α}
    {old new : Option (Overlay δ κ α)} (resettled : Resettled queue doc old new)
    (backed : LocalStore.Backed queue doc.key old) : LocalStore.Backed queue doc.key new := by
  obtain ⟨made, nothing⟩ := resettled_iff.mp resettled
  cases found : Mutation.overlayOf (queue.pending doc.key) doc with
  | none =>
    rw [nothing found]
    exact backed
  | some mutation =>
    obtain ⟨batchId, newest, new⟩ := made mutation found
    rw [new]
    intro stored here
    rw [Option.mem_def, Option.some.injEq] at here
    subst here
    exact ⟨Mutation.precondition_calculateOverlayMutation found, newest.member⟩

/-- Copies of the server's document that both exist or both do not are as good. -/
theorem Resettled.congr {queue : MutationQueue δ κ α} {doc doc' : MutableDocument δ κ α}
    {old new : Option (Overlay δ κ α)} (resettled : Resettled queue doc old new)
    (plain : ∀ m ∈ queue.pending doc.key, m.Plain) (remote : doc.hasLocalMutations = false)
    (remote' : doc'.hasLocalMutations = false) (key : doc'.key = doc.key)
    (found : doc'.isFoundDocument = doc.isFoundDocument) : Resettled queue doc' old new := by
  rw [Resettled, key, Mutation.overlayOf_congr plain remote' remote key found]
  exact resettled

namespace LocalStore

variable {store store' : LocalStore δ κ α}

/-- Without changes of existence the views are made from the overlays as they are. -/
theorem computeViews_eq (consistent : store.mutationQueue.Consistent) (keys : List δ)
    {docs : δ → MutableDocument δ κ α} (keyed : ∀ key, (docs key).key = key)
    (remote : ∀ key, (docs key).hasLocalMutations = false) :
    store.computeViews keys docs [] = some (store, fun key =>
      Mutation.viewed (docs key) ((store.overlays key).map Overlay.mutation)) := by
  have none_flagged : (keys.filter fun key => key ∈ ([] : List δ) ∧
      ((store.overlays key).all fun overlay => overlay.mutation.isPatch)) = [] := by simp
  obtain ⟨overlays, recalculated, made, kept⟩ :=
    recalculateAndSaveOverlays_spec consistent [] keyed remote
  have same : overlays = store.overlays := funext fun key => (kept key).1 (by simp)
  rw [computeViews, none_flagged, made, same]
  simp

/-- What a written batch adds to the queue. -/
structure Written (queue queue' : MutationQueue δ κ α) (batch : MutationBatch δ κ α) : Prop where
  batches : queue'.allMutationBatches = queue.allMutationBatches ++ [batch]
  behind : ∀ other ∈ queue.allMutationBatches, other.batchId ≤ batch.batchId

omit [DecidableEq δ] in
theorem Written.of_add {queue queue' : MutationQueue δ κ α} (consistent : queue.Consistent)
    {mutations : List (Mutation δ κ α)} {batch : MutationBatch δ κ α}
    (added : queue.addMutationBatch mutations = some (queue', batch)) :
    queue'.Consistent ∧ batch.mutations = mutations ∧ Written queue queue' batch := by
  obtain ⟨next, given, id, rows⟩ := consistent.add added
  refine ⟨next, given, ?_, fun other member => ?_⟩
  · rw [MutationQueue.allMutationBatches, rows, List.map_append]
    rfl
  · obtain ⟨row, inside, rfl⟩ := List.mem_map.mp member
    rw [(consistent.named row inside).1, id]
    exact (consistent.fresh row inside).le

theorem Written.pending {queue queue' : MutationQueue δ κ α} {batch : MutationBatch δ κ α}
    (h : Written queue queue' batch) (key : δ) :
    queue'.pending key = queue.pending key ++ batch.mutationsOf key := by
  rw [MutationQueue.pending, MutationQueue.pending, h.batches, List.flatMap_append,
    List.flatMap_singleton]

theorem Written.isNewest_of_mem {queue queue' : MutationQueue δ κ α} {batch : MutationBatch δ κ α}
    (h : Written queue queue' batch) {key : δ} (touched : key ∈ batch.keys) :
    MutationBatch.IsNewest queue'.allMutationBatches key batch.batchId := by
  refine ⟨⟨batch, by simp [h.batches], rfl, touched⟩, fun other member _ => ?_⟩
  rw [h.batches, List.mem_append, List.mem_singleton] at member
  rcases member with old | rfl
  · exact h.behind other old
  · exact le_refl _

theorem Written.isNewest_of_not_mem {queue queue' : MutationQueue δ κ α}
    {batch : MutationBatch δ κ α} (h : Written queue queue' batch) {key : δ}
    (untouched : key ∉ batch.keys) {batchId : ℕ}
    (newest : MutationBatch.IsNewest queue.allMutationBatches key batchId) :
    MutationBatch.IsNewest queue'.allMutationBatches key batchId := by
  obtain ⟨⟨other, member, id, touched⟩, above⟩ := newest
  refine ⟨⟨other, by simp [h.batches, member], id, touched⟩, fun another there touches => ?_⟩
  rw [h.batches, List.mem_append, List.mem_singleton] at there
  rcases there with old | rfl
  · exact above another old touches
  · exact absurd touches untouched

/-- What writing does: an overlay of a document of the batch that stood for some
mutations stands for them and those of the batch, unless these come to nothing. -/
structure Wrote (batch : MutationBatch δ κ α) (store store' : LocalStore δ κ α) : Prop where
  queue : Written store.mutationQueue store'.mutationQueue batch
  documents : store'.remoteDocuments = store.remoteDocuments
  others : ∀ key, key ∉ batch.keys → store'.overlays key = store.overlays key
  own : ∀ key ∈ batch.keys, ∀ earlier : List (Mutation δ κ α),
    (∀ m ∈ earlier ++ batch.mutationsOf key, m.Plain) → store.StandsFor key earlier →
      store'.overlays key =
        ((Mutation.overlayOf (earlier ++ batch.mutationsOf key) (store.remoteDocuments key)).map
          (Overlay.mk batch.batchId)).or (store.overlays key)

theorem writeLocally_spec (valid : store.Valid) {mutations : List (Mutation δ κ α)}
    {views : δ → MutableDocument δ κ α × Option (FieldMask κ)}
    (written : store.writeLocally mutations = some (store', views)) :
    store'.Valid ∧ ∃ batch, batch.mutations = mutations ∧ Wrote batch store store' := by
  rw [writeLocally, computeViews_eq valid.queue _ valid.keyed valid.remote] at written
  simp only [Option.bind_eq_bind, Option.bind_some] at written
  obtain ⟨⟨queue, batch⟩, added, result⟩ := Option.bind_eq_some_iff.mp written
  simp only [Option.some.injEq, Prod.mk.injEq] at result
  obtain ⟨rfl, _⟩ := result
  obtain ⟨consistent, given, h⟩ := Written.of_add valid.queue added
  refine ⟨⟨consistent, valid.keyed, valid.remote, fun key => ?_⟩, batch, given,
    h, rfl, fun key untouched => ?_, fun key touched earlier plain stands => ?_⟩
  · intro stored here
    simp only at here
    split at here
    · rename_i made
      obtain rfl := Option.some.inj here
      exact ⟨MutationBatch.DocumentSet.precondition_of_overlays made, batch, by simp [h.batches],
        rfl, MutationBatch.DocumentSet.mem_keys_of_overlays made⟩
    · obtain ⟨always, other, member, names⟩ := valid.backed key stored here
      exact ⟨always, other, by simp [h.batches, member], names⟩
  · dsimp only
    split
    · rename_i made
      exact absurd (MutationBatch.DocumentSet.mem_keys_of_overlays made) untouched
    · rfl
  · have view : Mutation.viewed (store.remoteDocuments key)
        ((store.overlays key).map Overlay.mutation) =
          Mutation.replay earlier (store.remoteDocuments key) (some []) := by
      rw [show (store.overlays key).map Overlay.mutation = _ from stands]
      exact Mutation.viewed_overlayOf (valid.remote key) fun m member =>
        plain m (List.mem_append_left _ member)
    have overlay : (batch.applyToLocalDocumentSet fun key => Mutation.viewed
        (store.remoteDocuments key) ((store.overlays key).map Overlay.mutation)).overlays key =
          if key ∈ batch.keys then Mutation.overlayOf (earlier ++ batch.mutationsOf key)
            (store.remoteDocuments key)
          else none :=
      MutationBatch.overlays_applyToLocalDocumentSet (valid.keyed key) (valid.remote key) plain view
    rw [if_pos touched] at overlay
    dsimp only
    rw [overlay]
    cases Mutation.overlayOf (earlier ++ batch.mutationsOf key) (store.remoteDocuments key) <;> rfl

/-- Where the overlay of a document was right, writing leaves the one that all its
pending mutations come to. -/
theorem Wrote.resettled (valid : store.Valid) {batch : MutationBatch δ κ α}
    (wrote : Wrote batch store store') {key : δ} (plain : store'.PlainAt key)
    (settled : store.SettledAt key) :
    Resettled store'.mutationQueue (store'.remoteDocuments key) (store.overlays key)
      (store'.overlays key) := by
  have pending := wrote.queue.pending key
  rw [wrote.documents]
  by_cases touched : key ∈ batch.keys
  · rw [PlainAt, pending] at plain
    have overlay := wrote.own key touched _ plain (settled.standsFor valid)
    rw [Resettled, valid.keyed, pending]
    cases made : Mutation.overlayOf
        (store.mutationQueue.pending key ++ batch.mutationsOf key) (store.remoteDocuments key) with
    | none => rw [overlay, made, Option.map_none, Option.none_or]
    | some mutation =>
      refine ⟨batch.batchId, wrote.queue.isNewest_of_mem touched, ?_⟩
      rw [overlay, made, Option.map_some, Option.some_or]
  · rw [wrote.others key touched]
    refine settled.transfer ?_ ?_
    · rw [valid.keyed, pending, MutationBatch.mutationsOf_eq_nil touched, List.append_nil]
    · rw [valid.keyed]
      exact fun batchId => wrote.queue.isNewest_of_not_mem touched

/-- What a removed batch takes from the queue. -/
structure Removed (queue queue' : MutationQueue δ κ α) (batch : MutationBatch δ κ α) : Prop where
  batches : queue'.allMutationBatches =
    queue.allMutationBatches.filter (·.batchId ≠ batch.batchId)
  only : ∀ other ∈ queue.allMutationBatches, other.batchId = batch.batchId → other = batch

theorem Removed.of_remove {queue queue' : MutationQueue δ κ α} (consistent : queue.Consistent)
    {batch : MutationBatch δ κ α} (stored : queue.lookupMutationBatch batch.batchId = some batch)
    (removed : queue.removeMutationBatch batch = some queue') :
    queue'.Consistent ∧ Removed queue queue' batch := by
  obtain ⟨next, rows⟩ := consistent.remove stored removed
  refine ⟨next, ?_, fun other member same => ?_⟩
  · rw [MutationQueue.allMutationBatches, MutationQueue.allMutationBatches, rows, without,
      List.filter_map]
    refine congrArg (List.map Prod.snd) (List.filter_congr fun row inside => ?_)
    simp [(consistent.named row inside).1]
  · obtain ⟨row, inside, rfl⟩ := List.mem_map.mp member
    rw [(consistent.named row inside).1] at same
    exact consistent.row_unique (same ▸ inside) (mem_keys_of_lookup stored)

omit [DecidableEq δ] in
/-- When the oldest batch leaves the queue, the others stay. -/
theorem Removed.of_oldest {queue queue' : MutationQueue δ κ α} {batch : MutationBatch δ κ α}
    (h : Removed queue queue' batch) (consistent : queue.Consistent)
    {batches : List (MutationBatch δ κ α)} (whole : queue.allMutationBatches = batch :: batches) :
    queue'.allMutationBatches = batches := by
  have ids := consistent.ids_ascending
  rw [whole, List.map_cons, List.pairwise_cons] at ids
  rw [h.batches, whole, List.filter_cons_of_neg (by simp)]
  refine List.filter_eq_self.mpr fun other member => ?_
  have later : batch.batchId < other.batchId := ids.1 _ (List.mem_map_of_mem member)
  exact decide_eq_true later.ne'

theorem Removed.pending {queue queue' : MutationQueue δ κ α} {batch : MutationBatch δ κ α}
    (h : Removed queue queue' batch) {key : δ} (untouched : key ∉ batch.keys) :
    queue'.pending key = queue.pending key := by
  rw [MutationQueue.pending, MutationQueue.pending, h.batches]
  have only := h.only
  generalize queue.allMutationBatches = batches at only
  induction batches with
  | nil => rfl
  | cons other rest ih =>
    have kept := ih fun another member => only another (List.mem_cons_of_mem _ member)
    by_cases same : other.batchId = batch.batchId
    · have equal : other = batch := only other (by simp) same
      rw [List.filter_cons_of_neg (by simpa using same), kept, List.flatMap_cons, equal,
        MutationBatch.mutationsOf_eq_nil untouched, List.nil_append]
    · rw [List.filter_cons_of_pos (by simpa using same), List.flatMap_cons, List.flatMap_cons, kept]

theorem Removed.isNewest {queue queue' : MutationQueue δ κ α} {batch : MutationBatch δ κ α}
    (h : Removed queue queue' batch) {key : δ} {batchId : ℕ} (other : batchId ≠ batch.batchId)
    (newest : MutationBatch.IsNewest queue.allMutationBatches key batchId) :
    MutationBatch.IsNewest queue'.allMutationBatches key batchId := by
  obtain ⟨⟨another, member, id, touched⟩, above⟩ := newest
  refine ⟨⟨another, ?_, id, touched⟩, fun third there touches => ?_⟩
  · rw [h.batches, List.mem_filter]
    exact ⟨member, by simpa [id] using other⟩
  · rw [h.batches] at there
    exact above third (List.mem_filter.mp there).1 touches

/-- An overlay is stored under the id of the newest batch of its document. -/
theorem SettledAt.isNewest (valid : store.Valid) {key : δ} (settled : store.SettledAt key)
    {overlay : Overlay δ κ α} (here : store.overlays key = some overlay) :
    MutationBatch.IsNewest store.mutationQueue.allMutationBatches key overlay.largestBatchId := by
  obtain ⟨made, nothing⟩ := resettled_iff.mp settled
  rw [valid.keyed] at made nothing
  cases found : Mutation.overlayOf (store.mutationQueue.pending key)
      (store.remoteDocuments key) with
  | none => simp [nothing found] at here
  | some mutation =>
    obtain ⟨batchId, newest, new⟩ := made mutation found
    rw [new, Option.some.injEq] at here
    exact here ▸ newest

/-- What the end of a batch does: only overlays that were made for it go, and those of
its documents are recalculated. -/
structure Ended (batch : MutationBatch δ κ α) (store store' : LocalStore δ κ α) : Prop where
  queue : Removed store.mutationQueue store'.mutationQueue batch
  others : ∀ key, key ∉ batch.keys → store'.remoteDocuments key = store.remoteDocuments key ∧
    store'.overlays key = (store.overlays key).filter (·.largestBatchId ≠ batch.batchId)
  own : ∀ key ∈ batch.keys, Resettled store'.mutationQueue (store'.remoteDocuments key)
    ((store.overlays key).filter (·.largestBatchId ≠ batch.batchId)) (store'.overlays key)

/-- A batch leaves the queue and the overlays of its documents are recalculated. -/
theorem ended_of_removed (valid : store.Valid) {batch : MutationBatch δ κ α}
    (stored : store.mutationQueue.lookupMutationBatch batch.batchId = some batch)
    {queue : MutationQueue δ κ α}
    (removed : store.mutationQueue.removeMutationBatch batch = some queue)
    {docs : δ → MutableDocument δ κ α} (keyed : ∀ key, (docs key).key = key)
    (remote : ∀ key, (docs key).hasLocalMutations = false)
    (others : ∀ key, key ∉ batch.keys → docs key = store.remoteDocuments key)
    {recalculated : Recalculation δ κ α}
    (saved : (removeOverlaysForBatchId
        { store with mutationQueue := queue, remoteDocuments := docs }
          batch.batchId).recalculateAndSaveOverlays batch.keys docs = some (store', recalculated)) :
    store'.Valid ∧ Ended batch store store' := by
  obtain ⟨consistent, h⟩ := Removed.of_remove valid.queue stored removed
  let middle := removeOverlaysForBatchId
    { store with mutationQueue := queue, remoteDocuments := docs } batch.batchId
  have middleConsistent : middle.mutationQueue.Consistent := consistent
  obtain ⟨overlays, _, made, kept⟩ :=
    recalculateAndSaveOverlays_spec middleConsistent batch.keys keyed remote
  obtain ⟨rfl, _⟩ : { middle with overlays } = store' ∧ _ := by
    simpa using made.symm.trans saved
  refine ⟨⟨consistent, keyed, remote, fun key => ?_⟩, h,
    fun key untouched => ⟨others key untouched, (kept key).1 untouched⟩,
    fun key touched => (kept key).2 touched⟩
  have backed : Backed queue (docs key).key (middle.overlays key) := by
    rw [keyed]
    intro overlay here
    obtain ⟨there, other⟩ := Option.filter_eq_some_iff.mp here
    obtain ⟨always, batch', member, id, touched⟩ := valid.backed key overlay there
    refine ⟨always, batch', ?_, id, touched⟩
    rw [h.batches, List.mem_filter, id]
    exact ⟨member, other⟩
  by_cases touched : key ∈ batch.keys
  · have result := ((kept key).2 touched).backed backed
    rw [keyed] at result
    exact result
  · show Backed queue key (overlays key)
    rw [(kept key).1 touched]
    rw [keyed] at backed
    exact backed

/-- Where the overlay of a document was right, it is so after the end of the document's
newest batch; one that was made for a newer batch stays where the rest comes to
nothing. -/
theorem Ended.resettled (valid : store.Valid) {batch : MutationBatch δ κ α}
    (ended : Ended batch store store') {key : δ} (settled : store.SettledAt key) :
    (MutationBatch.IsNewest store.mutationQueue.allMutationBatches key batch.batchId →
      Resettled store'.mutationQueue (store'.remoteDocuments key) none (store'.overlays key)) ∧
    (¬ MutationBatch.IsNewest store.mutationQueue.allMutationBatches key batch.batchId →
      Resettled store'.mutationQueue (store'.remoteDocuments key) (store.overlays key)
        (store'.overlays key)) := by
  have gone (newest : MutationBatch.IsNewest store.mutationQueue.allMutationBatches key
      batch.batchId) :
      (store.overlays key).filter (·.largestBatchId ≠ batch.batchId) = none := by
    rw [Option.filter_eq_none_iff]
    intro overlay here
    have same : overlay.largestBatchId = batch.batchId :=
      (settled.isNewest valid here).unique newest
    simp [same]
  have stays (older : ¬ MutationBatch.IsNewest store.mutationQueue.allMutationBatches key
      batch.batchId) :
      (store.overlays key).filter (·.largestBatchId ≠ batch.batchId) = store.overlays key := by
    cases here : store.overlays key with
    | none => rfl
    | some overlay =>
      refine Option.filter_eq_some_iff.mpr ⟨rfl, decide_eq_true fun same => older ?_⟩
      exact same ▸ settled.isNewest valid here
  by_cases touched : key ∈ batch.keys
  · have resettled := ended.own key touched
    exact ⟨fun newest => gone newest ▸ resettled, fun older => stays older ▸ resettled⟩
  · have older : ¬ MutationBatch.IsNewest store.mutationQueue.allMutationBatches key
        batch.batchId := by
      rintro ⟨⟨other, member, id, touches⟩, _⟩
      exact touched (ended.queue.only other member id ▸ touches)
    obtain ⟨document, overlay⟩ := ended.others key touched
    refine ⟨fun newest => absurd newest older, fun _ => ?_⟩
    rw [overlay, stays older, document]
    refine settled.transfer (by rw [valid.keyed, ended.queue.pending touched]) ?_
    rw [valid.keyed]
    exact fun batchId newest =>
      ended.queue.isNewest (fun equal => older (equal ▸ newest)) newest

/-- What the server made of the writes in a batch is no local change. -/
theorem applyToRemoteDocument_spec (batch : MutationBatch δ κ α)
    {document : MutableDocument δ κ α} (remote : document.hasLocalMutations = false)
    (versions : List SnapshotVersion) :
    (batch.applyToRemoteDocument document versions).key = document.key ∧
      (batch.applyToRemoteDocument document versions).hasLocalMutations = false := by
  rw [MutationBatch.applyToRemoteDocument]
  induction batch.mutations.zip versions generalizing document with
  | nil => exact ⟨rfl, remote⟩
  | cons result rest ih =>
    have one : (result.1.applyToRemoteDocument document result.2).key = document.key ∧
        (result.1.applyToRemoteDocument document result.2).hasLocalMutations = false := by
      rw [Mutation.applyToRemoteDocument]
      cases result.1.operation with
      | set value => exact ⟨rfl, rfl⟩
      | delete => exact ⟨rfl, rfl⟩
      | patch value mask =>
        by_cases valid : result.1.precondition.isValidFor document = true
        · simp only [if_pos valid]
          exact ⟨rfl, rfl⟩
        · simp only [if_neg valid]
          exact ⟨rfl, rfl⟩
    rw [List.foldl_cons]
    by_cases own : result.1.key = document.key
    · rw [if_pos own]
      obtain ⟨key, local_free⟩ := ih one.2
      exact ⟨key.trans one.1, local_free⟩
    · rw [if_neg own]
      exact ih remote

theorem acknowledgedDocument_spec (batch : MutationBatch δ κ α) (versions : List SnapshotVersion)
    (key : δ) {document : MutableDocument δ κ α} (remote : document.hasLocalMutations = false) :
    (acknowledgedDocument batch versions key document).key = document.key ∧
      (acknowledgedDocument batch versions key document).hasLocalMutations = false := by
  rw [acknowledgedDocument]
  dsimp only
  split
  · split
    · exact applyToRemoteDocument_spec batch remote versions
    · exact ⟨rfl, remote⟩
  · exact ⟨rfl, remote⟩

/-- The server's answer to a single write. -/
theorem acknowledgedDocument_single {batch : MutationBatch δ κ α}
    {m : Mutation δ κ α} (mutations : batch.mutations = [m]) {doc : MutableDocument δ κ α}
    (own : m.key = doc.key) {version : SnapshotVersion} (later : doc.version < version) :
    acknowledgedDocument batch [version] doc.key doc = m.applyToRemoteDocument doc version := by
  have valid : (m.applyToRemoteDocument doc version).isValidDocument = true := by
    rw [Mutation.applyToRemoteDocument]
    cases m.operation with
    | set value => rfl
    | delete => rfl
    | patch value mask =>
      by_cases applies : m.precondition.isValidFor doc = true
      · simp only [if_pos applies]
        rfl
      · simp only [if_neg applies]
        rfl
  have answered : (([m.key].zip [version]).reverse.lookup doc.key).getD 0 = version := by
    simp [own]
  have applied : batch.applyToRemoteDocument doc [version] = m.applyToRemoteDocument doc version := by
    rw [MutationBatch.applyToRemoteDocument, mutations]
    exact if_pos own
  rw [acknowledgedDocument, mutations, List.map_singleton]
  simp only [answered, applied, valid]
  rw [if_pos ⟨by simp [MutationBatch.keys, mutations, own], later⟩]
  rfl

theorem acknowledgeBatch_spec (valid : store.Valid) {batch : MutationBatch δ κ α}
    (stored : store.mutationQueue.lookupMutationBatch batch.batchId = some batch)
    {versions : List SnapshotVersion}
    (acknowledged : store.acknowledgeBatch batch versions = some store') :
    store'.Valid ∧ Ended batch store store' := by
  rw [acknowledgeBatch] at acknowledged
  obtain ⟨applied, result, acknowledged⟩ := Option.bind_eq_some_iff.mp acknowledged
  obtain ⟨_, _, acknowledged⟩ := Option.bind_eq_some_iff.mp acknowledged
  obtain ⟨⟨_, recalculated⟩, saved, same⟩ := Option.bind_eq_some_iff.mp acknowledged
  rw [Option.some.injEq] at same
  subst same
  rw [applyBatchResult] at result
  obtain ⟨_, _, result⟩ := Option.bind_eq_some_iff.mp result
  obtain ⟨queue, removed, result⟩ := Option.bind_eq_some_iff.mp result
  rw [Option.some.injEq] at result
  subst result
  refine ended_of_removed valid stored removed (fun key => ?_) (fun key => ?_)
    (fun key untouched => if_neg fun both => untouched both.1) saved
  · exact (acknowledgedDocument_spec batch versions key (valid.remote key)).1.trans (valid.keyed key)
  · exact (acknowledgedDocument_spec batch versions key (valid.remote key)).2

theorem rejectBatch_spec (valid : store.Valid) {batchId : ℕ}
    (rejected : store.rejectBatch batchId = some store') :
    store'.Valid ∧ ∃ batch, batch.batchId = batchId ∧ Ended batch store store' := by
  rw [rejectBatch] at rejected
  obtain ⟨toReject, stored, rejected⟩ := Option.bind_eq_some_iff.mp rejected
  obtain ⟨queue, removed, rejected⟩ := Option.bind_eq_some_iff.mp rejected
  obtain ⟨_, _, rejected⟩ := Option.bind_eq_some_iff.mp rejected
  obtain ⟨⟨_, recalculated⟩, saved, same⟩ := Option.bind_eq_some_iff.mp rejected
  rw [Option.some.injEq] at same
  subst same
  obtain ⟨rfl, _⟩ := valid.queue.lookupMutationBatch_eq stored
  obtain ⟨still, ended⟩ :=
    ended_of_removed valid stored removed valid.keyed valid.remote (fun _ _ => rfl) saved
  exact ⟨still, toReject, rfl, ended⟩

theorem caches_recalculateAndSaveOverlays {keys : List δ}
    {docs : δ → MutableDocument δ κ α} {recalculated : Recalculation δ κ α}
    (saved : store.recalculateAndSaveOverlays keys docs = some (store', recalculated)) :
    store'.mutationQueue = store.mutationQueue ∧ store'.remoteDocuments = store.remoteDocuments := by
  obtain ⟨_, _, same⟩ := Option.bind_eq_some_iff.mp saved
  simp only [Option.some.injEq, Prod.mk.injEq] at same
  rw [← same.1]
  exact ⟨rfl, rfl⟩

theorem caches_computeViews {keys changed : List δ} {docs : δ → MutableDocument δ κ α}
    {views : δ → MutableDocument δ κ α × Option (FieldMask κ)}
    (computed : store.computeViews keys docs changed = some (store', views)) :
    store'.mutationQueue = store.mutationQueue ∧ store'.remoteDocuments = store.remoteDocuments := by
  obtain ⟨⟨_, _⟩, saved, same⟩ := Option.bind_eq_some_iff.mp computed
  simp only [Option.some.injEq, Prod.mk.injEq] at same
  rw [← same.1]
  exact caches_recalculateAndSaveOverlays saved

/-- What a step does to the queue and to the copies of the server's documents. -/
theorem caches_writeLocally {mutations : List (Mutation δ κ α)}
    {views : δ → MutableDocument δ κ α × Option (FieldMask κ)}
    (written : store.writeLocally mutations = some (store', views)) :
    (store.mutationQueue.addMutationBatch mutations).map Prod.fst = some store'.mutationQueue ∧
      store'.remoteDocuments = store.remoteDocuments := by
  obtain ⟨⟨middle, _⟩, computed, written⟩ := Option.bind_eq_some_iff.mp written
  obtain ⟨⟨queue, batch⟩, added, same⟩ := Option.bind_eq_some_iff.mp written
  simp only [Option.some.injEq, Prod.mk.injEq] at same
  obtain ⟨unchanged, documents⟩ := caches_computeViews computed
  rw [← unchanged, added, ← documents, ← same.1]
  exact ⟨rfl, rfl⟩

theorem caches_acknowledgeBatch {batch : MutationBatch δ κ α} {versions : List SnapshotVersion}
    (acknowledged : store.acknowledgeBatch batch versions = some store') :
    store.mutationQueue.removeMutationBatch batch = some store'.mutationQueue ∧
      store'.remoteDocuments =
        fun key => acknowledgedDocument batch versions key (store.remoteDocuments key) := by
  obtain ⟨applied, result, acknowledged⟩ := Option.bind_eq_some_iff.mp acknowledged
  obtain ⟨_, _, acknowledged⟩ := Option.bind_eq_some_iff.mp acknowledged
  obtain ⟨⟨_, _⟩, saved, same⟩ := Option.bind_eq_some_iff.mp acknowledged
  rw [Option.some.injEq] at same
  subst same
  obtain ⟨_, _, result⟩ := Option.bind_eq_some_iff.mp result
  obtain ⟨queue, removed, result⟩ := Option.bind_eq_some_iff.mp result
  rw [Option.some.injEq] at result
  subst result
  obtain ⟨unchanged, documents⟩ := caches_recalculateAndSaveOverlays saved
  exact ⟨unchanged ▸ removed, documents⟩

theorem caches_rejectBatch {batchId : ℕ} (rejected : store.rejectBatch batchId = some store') :
    (store.mutationQueue.lookupMutationBatch batchId).bind
        store.mutationQueue.removeMutationBatch = some store'.mutationQueue ∧
      store'.remoteDocuments = store.remoteDocuments := by
  obtain ⟨toReject, stored, rejected⟩ := Option.bind_eq_some_iff.mp rejected
  obtain ⟨queue, removed, rejected⟩ := Option.bind_eq_some_iff.mp rejected
  obtain ⟨_, _, rejected⟩ := Option.bind_eq_some_iff.mp rejected
  obtain ⟨⟨_, _⟩, saved, same⟩ := Option.bind_eq_some_iff.mp rejected
  rw [Option.some.injEq] at same
  subst same
  obtain ⟨unchanged, documents⟩ := caches_recalculateAndSaveOverlays saved
  refine ⟨?_, documents⟩
  rw [stored, unchanged]
  exact removed

end LocalStore

end QuickNote.Firestore
