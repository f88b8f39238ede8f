import QuickNote.Firestore.LocalSteps

/-!
# Documents from the server

What the documents of a remote event make of the cached ones and of the overlays, and
when the client fails an assertion on them.
-/

namespace QuickNote.Firestore

variable {δ κ α : Type} [DecidableEq δ] [LinearOrder κ]

namespace LocalStore

variable {store store' : LocalStore δ κ α}

/-- A document of an event is taken over, and removed from the cache where access to it
was lost, or ignored. -/
theorem DocumentChanges.add_cases {existingDocs : δ → MutableDocument δ κ α}
    {readTime : SnapshotVersion} {changes next : DocumentChanges δ κ α}
    {doc : MutableDocument δ κ α} (remote : doc.hasLocalMutations = false)
    (added : changes.add existingDocs readTime doc = some next) :
    ((∃ stored : MutableDocument δ κ α, stored.key = doc.key ∧ stored.hasLocalMutations = false ∧
        stored.isFoundDocument = doc.isFoundDocument ∧
        next.remoteDocuments = Function.update changes.remoteDocuments doc.key stored) ∧
        next.changedDocs = doc :: changes.changedDocs ∨
      next.remoteDocuments = changes.remoteDocuments ∧
        next.changedDocs = changes.changedDocs) ∧
    ∀ key, key ∈ next.existenceChangedKeys ↔
      (key = doc.key ∧ doc.isFoundDocument ≠ (existingDocs doc.key).isFoundDocument) ∨
        key ∈ changes.existenceChangedKeys := by
  have flag : ∀ key, key ∈ (if doc.isFoundDocument ≠ (existingDocs doc.key).isFoundDocument then
        doc.key :: changes.existenceChangedKeys else changes.existenceChangedKeys) ↔
      (key = doc.key ∧ doc.isFoundDocument ≠ (existingDocs doc.key).isFoundDocument) ∨
        key ∈ changes.existenceChangedKeys := by
    intro key
    by_cases differs : doc.isFoundDocument ≠ (existingDocs doc.key).isFoundDocument
    · simp [differs]
    · simp [differs]
  rw [DocumentChanges.add] at added
  by_cases lost : doc.isNoDocument ∧ doc.version = 0
  · have missing : doc.documentType = .noDocument := by
      simpa [MutableDocument.isNoDocument] using lost.1
    have neither : (MutableDocument.invalidDocument doc.key : MutableDocument δ κ α).isFoundDocument =
        doc.isFoundDocument := by
      simp [MutableDocument.isFoundDocument, missing, MutableDocument.invalidDocument]
    rw [if_pos lost, Option.some.injEq] at added
    subst added
    exact ⟨Or.inl ⟨⟨.invalidDocument doc.key, rfl, rfl, neither, rfl⟩, rfl⟩, flag⟩
  · rw [if_neg lost] at added
    by_cases newer : Newer (existingDocs doc.key) doc
    · rw [if_pos newer, Option.ite_none_left_eq_some, Option.some.injEq] at added
      obtain ⟨_, rfl⟩ := added
      exact ⟨Or.inl ⟨⟨doc, rfl, remote, rfl, rfl⟩, rfl⟩, flag⟩
    · rw [if_neg newer, Option.some.injEq] at added
      subst added
      exact ⟨Or.inr ⟨rfl, rfl⟩, flag⟩

/-- The document goes into the cache. -/
def DocumentChanges.Adds (existingDoc doc : MutableDocument δ κ α) : Prop :=
  ¬ (doc.isNoDocument = true ∧ doc.version = 0) ∧ Newer existingDoc doc

/-- Only a document that goes into the cache needs a read time. -/
theorem DocumentChanges.add_isSome_iff {existingDocs : δ → MutableDocument δ κ α}
    {readTime : SnapshotVersion} {changes : DocumentChanges δ κ α} {doc : MutableDocument δ κ α} :
    (changes.add existingDocs readTime doc).isSome = true ↔
      (Adds (existingDocs doc.key) doc → readTime ≠ 0) := by
  rw [DocumentChanges.add, Adds]
  by_cases lost : doc.isNoDocument = true ∧ doc.version = 0
  · simp [lost]
  · by_cases newer : Newer (existingDocs doc.key) doc
    · by_cases undated : readTime = 0
      · simp [lost, newer, undated]
      · simp [lost, newer, undated]
    · simp [lost, newer]

/-- What the loop over the documents of an event has done after some of them. -/
structure DocumentChanges.Made (existingDocs : δ → MutableDocument δ κ α)
    (done : List (MutableDocument δ κ α)) (changes : DocumentChanges δ κ α) : Prop where
  unchanged : ∀ key, (∀ doc ∈ changes.changedDocs, doc.key ≠ key) →
    changes.remoteDocuments key = existingDocs key
  changed : ∀ doc ∈ changes.changedDocs, doc ∈ done ∧
    (changes.remoteDocuments doc.key).key = doc.key ∧
    (changes.remoteDocuments doc.key).hasLocalMutations = false ∧
    (changes.remoteDocuments doc.key).isFoundDocument = doc.isFoundDocument ∧
    (doc.key ∈ changes.existenceChangedKeys ↔
      doc.isFoundDocument ≠ (existingDocs doc.key).isFoundDocument)
  flagged : ∀ key ∈ changes.existenceChangedKeys, ∃ doc ∈ done, doc.key = key

theorem DocumentChanges.Made.add {existingDocs : δ → MutableDocument δ κ α}
    {readTime : SnapshotVersion} {done : List (MutableDocument δ κ α)}
    {changes next : DocumentChanges δ κ α} (h : Made existingDocs done changes)
    {doc : MutableDocument δ κ α} (new : ∀ other ∈ done, other.key ≠ doc.key)
    (remote : doc.hasLocalMutations = false)
    (added : changes.add existingDocs readTime doc = some next) :
    Made existingDocs (done ++ [doc]) next := by
  obtain ⟨taken, flags⟩ := add_cases remote added
  have unflagged : doc.key ∉ changes.existenceChangedKeys := fun member => by
    obtain ⟨other, old, same⟩ := h.flagged doc.key member
    exact new other old same
  have flagged : ∀ key ∈ next.existenceChangedKeys,
      ∃ other ∈ done ++ [doc], other.key = key := by
    intro key member
    rcases (flags key).mp member with ⟨rfl, _⟩ | old
    · exact ⟨doc, by simp, rfl⟩
    · obtain ⟨other, before, same⟩ := h.flagged key old
      exact ⟨other, by simp [before], same⟩
  have others : ∀ other ∈ changes.changedDocs,
      (other.key ∈ next.existenceChangedKeys ↔
        other.isFoundDocument ≠ (existingDocs other.key).isFoundDocument) := by
    intro other member
    obtain ⟨before, _, _, _, flag⟩ := h.changed other member
    rw [flags, flag]
    simp [new other before]
  rcases taken with ⟨⟨stored, key, local_free, found, documents⟩, docs⟩ | ⟨documents, docs⟩
  · refine ⟨fun key absent => ?_, fun other member => ?_, flagged⟩
    · rw [docs] at absent
      rw [documents, Function.update_of_ne (absent doc (by simp)).symm]
      exact h.unchanged key fun other member => absent other (by simp [member])
    · rw [docs, List.mem_cons] at member
      rcases member with rfl | old
      · rw [documents, Function.update_self]
        refine ⟨by simp, key, local_free, found, ?_⟩
        rw [flags]
        simp [unflagged]
      · obtain ⟨before, same⟩ := h.changed other old
        rw [documents, Function.update_of_ne (new other before)]
        exact ⟨by simp [before], same.1, same.2.1, same.2.2.1, others other old⟩
  · refine ⟨fun key absent => ?_, fun other member => ?_, flagged⟩
    · rw [docs] at absent
      rw [documents]
      exact h.unchanged key absent
    · rw [docs] at member
      obtain ⟨before, same⟩ := h.changed other member
      rw [documents]
      exact ⟨by simp [before], same.1, same.2.1, same.2.2.1, others other member⟩

theorem populateDocumentChanges_made {documents : List (MutableDocument δ κ α)}
    {globalVersion : SnapshotVersion} (distinct : (documents.map MutableDocument.key).Nodup)
    (remote : ∀ doc ∈ documents, doc.hasLocalMutations = false) {changes : DocumentChanges δ κ α}
    (populated : store.populateDocumentChanges documents globalVersion = some changes) :
    DocumentChanges.Made store.remoteDocuments documents changes := by
  rw [populateDocumentChanges] at populated
  induction documents using List.reverseRecOn generalizing changes with
  | nil =>
    obtain rfl := Option.some.inj populated
    exact ⟨fun _ _ => rfl, by simp, by simp⟩
  | append_singleton documents doc ih =>
    rw [List.map_append, List.nodup_append] at distinct
    rw [List.foldlM_append] at populated
    obtain ⟨before, made, populated⟩ := Option.bind_eq_some_iff.mp populated
    obtain ⟨next, added, same⟩ := Option.bind_eq_some_iff.mp populated
    obtain rfl := Option.some.inj same
    refine (ih distinct.1 (fun other member => remote other (by simp [member])) made).add ?_
      (remote doc (by simp)) added
    exact fun other member => distinct.2.2 other.key (List.mem_map_of_mem member) doc.key (by simp)

theorem populateDocumentChanges_isSome_iff {documents : List (MutableDocument δ κ α)}
    {globalVersion : SnapshotVersion} :
    (store.populateDocumentChanges documents globalVersion).isSome = true ↔
      ∀ doc ∈ documents, DocumentChanges.Adds (store.remoteDocuments doc.key) doc →
        globalVersion ≠ 0 := by
  have run : ∀ changes : DocumentChanges δ κ α,
      (documents.foldlM (DocumentChanges.add store.remoteDocuments globalVersion)
        changes).isSome = true ↔
        ∀ doc ∈ documents, DocumentChanges.Adds (store.remoteDocuments doc.key) doc →
          globalVersion ≠ 0 := by
    induction documents with
    | nil => simp
    | cons doc rest ih =>
      intro changes
      have first : (changes.add store.remoteDocuments globalVersion doc).isSome = true ↔
          (DocumentChanges.Adds (store.remoteDocuments doc.key) doc → globalVersion ≠ 0) :=
        DocumentChanges.add_isSome_iff
      rw [List.foldlM_cons, List.forall_mem_cons, ← first]
      cases changes.add store.remoteDocuments globalVersion doc with
      | none => simp
      | some next => simpa using ih next
  exact run _

/-- A changed document is one of the event, and the cache has a copy with its
existence. -/
theorem DocumentChanges.Made.docs_cases {existingDocs : δ → MutableDocument δ κ α}
    {done : List (MutableDocument δ κ α)} {changes : DocumentChanges δ κ α}
    (made : Made existingDocs done changes) (key : δ) :
    (changes.docs key = existingDocs key ∧ changes.remoteDocuments key = existingDocs key ∧
        key ∉ changes.changedDocs.map MutableDocument.key) ∨
      ∃ doc ∈ changes.changedDocs, doc.key = key ∧ changes.docs key = doc := by
  rw [DocumentChanges.docs]
  cases found : changes.changedDocs.find? (·.key = key) with
  | none =>
    have absent : ∀ doc ∈ changes.changedDocs, doc.key ≠ key := fun doc member => by
      simpa using List.find?_eq_none.mp found doc member
    have same := made.unchanged key absent
    exact Or.inl ⟨same, same, by simpa using absent⟩
  | some doc =>
    have own : doc.key = key := by simpa using List.find?_some found
    exact Or.inr ⟨doc, List.mem_of_find?_eq_some found, own, rfl⟩

/-- The documents of an event are copies of the server's, and so are those in the cache
after it. -/
theorem DocumentChanges.Made.docs_spec {existingDocs : δ → MutableDocument δ κ α}
    {done : List (MutableDocument δ κ α)} {changes : DocumentChanges δ κ α}
    (made : Made existingDocs done changes) (keyed : ∀ key, (existingDocs key).key = key)
    (remote : ∀ key, (existingDocs key).hasLocalMutations = false)
    (sent : ∀ doc ∈ done, doc.hasLocalMutations = false) (key : δ) :
    ((changes.docs key).key = key ∧ (changes.docs key).hasLocalMutations = false) ∧
      (changes.remoteDocuments key).key = key ∧
      (changes.remoteDocuments key).hasLocalMutations = false ∧
      (changes.remoteDocuments key).isFoundDocument = (changes.docs key).isFoundDocument := by
  rcases made.docs_cases key with ⟨same, remains, _⟩ | ⟨doc, member, own, same⟩
  · rw [same, remains]
    exact ⟨⟨keyed key, remote key⟩, keyed key, remote key, rfl⟩
  · obtain ⟨before, stored, local_free, found, _⟩ := made.changed doc member
    rw [own] at stored local_free found
    rw [same]
    exact ⟨⟨own, sent doc before⟩, stored, local_free, found⟩

/-- The documents whose views are calculated anew. -/
def recalculated (self : LocalStore δ κ α) (changes : DocumentChanges δ κ α) : List δ :=
  (changes.changedDocs.map MutableDocument.key).filter fun key =>
    key ∈ changes.existenceChangedKeys ∧
      ((self.overlays key).all fun overlay => overlay.mutation.isPatch)

/-- An event goes through if its documents have a read time where they need one and its
version does not go back; then the overlays of some documents are recalculated. -/
theorem applyRemoteEvent_eq (valid : store.Valid) {documents : List (MutableDocument δ κ α)}
    {snapshotVersion : SnapshotVersion} (distinct : (documents.map MutableDocument.key).Nodup)
    (sent : ∀ doc ∈ documents, doc.hasLocalMutations = false) {changes : DocumentChanges δ κ α}
    (populated : store.populateDocumentChanges documents snapshotVersion = some changes) :
    ∃ overlays, (∀ key, (key ∉ store.recalculated changes → overlays key = store.overlays key) ∧
        (key ∈ store.recalculated changes → Resettled store.mutationQueue (changes.docs key)
          (store.overlays key) (overlays key))) ∧
      store.applyRemoteEvent documents snapshotVersion =
        if snapshotVersion = 0 ∨ store.lastRemoteSnapshotVersion ≤ snapshotVersion then
          some { mutationQueue := store.mutationQueue
                 remoteDocuments := changes.remoteDocuments
                 overlays
                 lastRemoteSnapshotVersion :=
                  if snapshotVersion = 0 then store.lastRemoteSnapshotVersion else snapshotVersion }
        else none := by
  have made := populateDocumentChanges_made distinct sent populated
  have spec := made.docs_spec valid.keyed valid.remote sent
  let middle : LocalStore δ κ α := { store with
    remoteDocuments := changes.remoteDocuments
    lastRemoteSnapshotVersion :=
      if snapshotVersion = 0 then store.lastRemoteSnapshotVersion else snapshotVersion }
  have consistent : middle.mutationQueue.Consistent := valid.queue
  obtain ⟨overlays, result, saved, resettled⟩ := recalculateAndSaveOverlays_spec consistent
    (store.recalculated changes) (fun key => (spec key).1.1) (fun key => (spec key).1.2)
  refine ⟨overlays, resettled, ?_⟩
  obtain ⟨views, computed⟩ : ∃ views, middle.computeViews
      (changes.changedDocs.map MutableDocument.key) changes.docs changes.existenceChangedKeys =
        some ({ middle with overlays }, views) := by
    have flagged : middle.computeViews (changes.changedDocs.map MutableDocument.key) changes.docs
        changes.existenceChangedKeys = (middle.recalculateAndSaveOverlays
          (store.recalculated changes) changes.docs).bind _ := rfl
    rw [flagged, saved]
    exact ⟨_, rfl⟩
  rw [applyRemoteEvent, populated]
  by_cases dated : snapshotVersion = 0 ∨ store.lastRemoteSnapshotVersion ≤ snapshotVersion
  · simp only [dated, guard_true, Option.bind_eq_bind, Option.bind_some, Option.pure_def, if_true]
    exact Option.bind_eq_some_iff.mpr ⟨_, computed, rfl⟩
  · simp [dated]

theorem applyRemoteEvent_isSome_iff (valid : store.Valid)
    {documents : List (MutableDocument δ κ α)} {snapshotVersion : SnapshotVersion}
    (distinct : (documents.map MutableDocument.key).Nodup)
    (sent : ∀ doc ∈ documents, doc.hasLocalMutations = false) :
    (store.applyRemoteEvent documents snapshotVersion).isSome = true ↔
      (∀ doc ∈ documents, DocumentChanges.Adds (store.remoteDocuments doc.key) doc →
        snapshotVersion ≠ 0) ∧
      (snapshotVersion = 0 ∨ store.lastRemoteSnapshotVersion ≤ snapshotVersion) := by
  rw [← populateDocumentChanges_isSome_iff]
  cases populated : store.populateDocumentChanges documents snapshotVersion with
  | none => simp [applyRemoteEvent, populated]
  | some changes =>
    obtain ⟨overlays, _, applied⟩ := applyRemoteEvent_eq valid distinct sent populated
    rw [applied]
    by_cases dated : snapshotVersion = 0 ∨ store.lastRemoteSnapshotVersion ≤ snapshotVersion
    · simp [dated]
    · simp [dated]

/-- What is pending comes to the same for a document that is not calculated anew. -/
theorem overlayOf_of_not_recalculated (valid : store.Valid) {changes : DocumentChanges δ κ α}
    {documents : List (MutableDocument δ κ α)}
    (made : changes.Made store.remoteDocuments documents)
    (sent : ∀ doc ∈ documents, doc.hasLocalMutations = false) {key : δ} (plain : store.PlainAt key)
    (settled : store.SettledAt key) (kept : key ∉ store.recalculated changes) :
    Mutation.overlayOf (store.mutationQueue.pending key) (changes.remoteDocuments key) =
      Mutation.overlayOf (store.mutationQueue.pending key) (store.remoteDocuments key) := by
  obtain ⟨_, cachedKey, cachedFree, _⟩ := made.docs_spec valid.keyed valid.remote sent key
  rcases made.docs_cases key with ⟨_, remains, _⟩ | ⟨doc, member, same, _⟩
  · rw [remains]
  · obtain ⟨_, _, _, found, flag⟩ := made.changed doc member
    rw [same] at found flag
    by_cases differs : doc.isFoundDocument = (store.remoteDocuments key).isFoundDocument
    · exact Mutation.overlayOf_congr plain cachedFree (valid.remote key)
        (cachedKey.trans (valid.keyed key).symm) (found.trans differs)
    · -- The overlay of a document that came or went is kept only if it is no patch.
      have listed : key ∈ changes.changedDocs.map MutableDocument.key :=
        List.mem_map.mpr ⟨doc, member, same⟩
      have notPatch : ¬ (store.overlays key).all fun overlay => overlay.mutation.isPatch := by
        intro patch
        exact kept (List.mem_filter.mpr ⟨listed, decide_eq_true ⟨flag.mpr differs, patch⟩⟩)
      cases here : store.overlays key with
      | none => simp [here] at notPatch
      | some overlay =>
        have whole : overlay.mutation.isPatch = false := by simpa [here] using notPatch
        have comes := (settled.standsFor valid).overlayOf_eq here
        rw [comes]
        exact Mutation.overlayOf_of_not_patch plain (valid.remote key) cachedFree
          ((valid.keyed key).trans cachedKey.symm) comes whole

/-- Documents that come from the server leave the overlays right, save for one that is
kept where the pending mutations come to nothing any more. -/
theorem applyRemoteEvent_spec (valid : store.Valid) {documents : List (MutableDocument δ κ α)}
    {snapshotVersion : SnapshotVersion} (distinct : (documents.map MutableDocument.key).Nodup)
    (sent : ∀ doc ∈ documents, doc.hasLocalMutations = false)
    (applied : store.applyRemoteEvent documents snapshotVersion = some store') :
    store'.mutationQueue = store.mutationQueue ∧
      (∃ changes, store.populateDocumentChanges documents snapshotVersion = some changes ∧
        store'.remoteDocuments = changes.remoteDocuments) ∧
      store'.Valid ∧
      ∀ key, store'.PlainAt key → store.SettledAt key → Resettled store'.mutationQueue
        (store'.remoteDocuments key) (store.overlays key) (store'.overlays key) := by
  obtain ⟨changes, populated, _⟩ := Option.bind_eq_some_iff.mp applied
  have made := populateDocumentChanges_made distinct sent populated
  have spec := made.docs_spec valid.keyed valid.remote sent
  obtain ⟨overlays, resettled, result⟩ := applyRemoteEvent_eq valid distinct sent populated
  rw [result, Option.ite_none_right_eq_some, Option.some.injEq] at applied
  obtain ⟨_, rfl⟩ := applied
  refine ⟨rfl, ⟨changes, populated, rfl⟩, ⟨valid.queue, fun key => (spec key).2.1,
    fun key => (spec key).2.2.1, fun key => ?_⟩, fun key plain settled => ?_⟩
  · by_cases wanted : key ∈ store.recalculated changes
    · have backed : Backed store.mutationQueue (changes.docs key).key (store.overlays key) := by
        rw [(spec key).1.1]
        exact valid.backed key
      have after := ((resettled key).2 wanted).backed backed
      rw [(spec key).1.1] at after
      exact after
    · show Backed store.mutationQueue key (overlays key)
      rw [(resettled key).1 wanted]
      exact valid.backed key
  obtain ⟨⟨own, free⟩, cachedKey, cachedFree, sameFound⟩ := spec key
  by_cases wanted : key ∈ store.recalculated changes
  · exact ((resettled key).2 wanted).congr (by rw [own]; exact plain) free cachedFree
      (cachedKey.trans own.symm) sameFound
  · show Resettled store.mutationQueue (changes.remoteDocuments key) (store.overlays key)
      (overlays key)
    rw [(resettled key).1 wanted]
    have same := overlayOf_of_not_recalculated valid made sent plain settled wanted
    refine settled.transfer ?_ fun batchId newest => ?_
    · rw [cachedKey, valid.keyed]
      exact same
    · rw [cachedKey]
      rw [valid.keyed] at newest
      exact newest

/-- An overlay of a whole document is not calculated anew. -/
theorem overlays_applyRemoteEvent (valid : store.Valid) {documents : List (MutableDocument δ κ α)}
    {snapshotVersion : SnapshotVersion} (distinct : (documents.map MutableDocument.key).Nodup)
    (sent : ∀ doc ∈ documents, doc.hasLocalMutations = false)
    (applied : store.applyRemoteEvent documents snapshotVersion = some store') {key : δ}
    {overlay : Overlay δ κ α} (here : store.overlays key = some overlay)
    (whole : overlay.mutation.isPatch = false) : store'.overlays key = store.overlays key := by
  obtain ⟨changes, populated, _⟩ := Option.bind_eq_some_iff.mp applied
  obtain ⟨overlays, resettled, result⟩ := applyRemoteEvent_eq valid distinct sent populated
  rw [result, Option.ite_none_right_eq_some, Option.some.injEq] at applied
  obtain ⟨_, rfl⟩ := applied
  refine (resettled key).1 fun wanted => ?_
  have patch := (of_decide_eq_true (List.mem_filter.mp wanted).2).2
  simp [here, whole] at patch

end LocalStore

end QuickNote.Firestore
