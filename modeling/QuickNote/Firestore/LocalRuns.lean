import QuickNote.Firestore.RemoteEvents

/-!
# Runs of the local store

Writes, answers of the server to them and documents that the server sends reach the
local store in any order.  What a document is read as by its overlay is compared in
every state with the replay of the pending batches.
-/

namespace QuickNote.Firestore

open SortedEntries

/-- A document that is not there has no fields. -/
def MutableDocument.Fieldless {δ κ α : Type} [LinearOrder κ] (document : MutableDocument δ κ α) :
    Prop :=
  document.isFoundDocument = false → document.value = .empty

/-- `DocumentUpdateMap` (`core/src/model/model_fwd.h`): at most one copy of each
document, as the server has it. -/
structure DocumentUpdates (δ κ α : Type) [LinearOrder κ] where
  documents : List (MutableDocument δ κ α)
  nodup : (documents.map MutableDocument.key).Nodup
  sent : ∀ doc ∈ documents, doc.documentState = .synced ∧ doc.Fieldless

namespace DocumentUpdates

variable {δ κ α : Type} [LinearOrder κ]

def single (doc : MutableDocument δ κ α) (synced : doc.documentState = .synced)
    (fieldless : doc.Fieldless) : DocumentUpdates δ κ α where
  documents := [doc]
  nodup := List.nodup_singleton doc.key
  sent := fun other member => by
    rw [List.mem_singleton.mp member]
    exact ⟨synced, fieldless⟩

theorem remote (updates : DocumentUpdates δ κ α) :
    ∀ doc ∈ updates.documents, doc.hasLocalMutations = false := by
  intro doc member
  simp [MutableDocument.hasLocalMutations, (updates.sent doc member).1]

end DocumentUpdates

namespace LocalStore

/-- The calls that change the store. -/
inductive Event (δ κ α : Type) [LinearOrder κ] where
  | start
  | writeLocally (mutations : List (Mutation δ κ α))
  | acknowledgeBatch (batchId : ℕ) (versions : List SnapshotVersion)
  | rejectBatch (batchId : ℕ)
  | applyRemoteEvent (updates : DocumentUpdates δ κ α) (snapshotVersion : SnapshotVersion)

variable {δ κ α : Type} [DecidableEq δ] [LinearOrder κ]

/-- The write pipeline acknowledges a batch as it was read from the queue. -/
def step (self : LocalStore δ κ α) : Event δ κ α → Option (LocalStore δ κ α)
  | .start => some { self with mutationQueue := self.mutationQueue.start }
  | .writeLocally mutations => (self.writeLocally mutations).map Prod.fst
  | .acknowledgeBatch batchId versions =>
      (self.mutationQueue.lookupMutationBatch batchId).bind (self.acknowledgeBatch · versions)
  | .rejectBatch batchId => self.rejectBatch batchId
  | .applyRemoteEvent updates snapshotVersion =>
      self.applyRemoteEvent updates.documents snapshotVersion

def system (δ κ α : Type) [DecidableEq δ] [LinearOrder κ] :
    EventSystem (LocalStore δ κ α) (Event δ κ α) where
  init := empty
  step := step

namespace Event

/-- The batch that leaves the queue. -/
def removes : Event δ κ α → Option ℕ
  | .acknowledgeBatch batchId _ | .rejectBatch batchId => some batchId
  | _ => none

/-- Of the batches that change the document the newest leaves the queue. -/
def RemovesNewest (event : Event δ κ α) (store : LocalStore δ κ α) (key : δ) : Prop :=
  ∃ batchId ∈ event.removes,
    MutationBatch.IsNewest store.mutationQueue.allMutationBatches key batchId

/-- All that is written to the document is of a kind. -/
def Writes (kind : Mutation δ κ α → Prop) (key : δ) : Event δ κ α → Prop
  | .writeLocally mutations => ∀ m ∈ mutations, m.key = key → kind m
  | _ => True

/-- The event as the queue sees it. -/
def onQueue : Event δ κ α → Option (MutationQueue.Event δ κ α)
  | .start => some .start
  | .writeLocally mutations => some (.addMutationBatch mutations)
  | .acknowledgeBatch batchId _ | .rejectBatch batchId => some (.removeMutationBatch batchId)
  | .applyRemoteEvent _ _ => none

end Event

/-- Where changes of the document are pending, the step keeps some, unless the newest
batch of the document leaves the queue. -/
def KeepsAt (key : δ) (store : LocalStore δ κ α) (e : Event δ κ α) (store' : LocalStore δ κ α) :
    Prop :=
  (store.replayed key).hasLocalMutations = true →
    (store'.replayed key).hasLocalMutations = true ∨ e.RemovesNewest store key

variable {store store' : LocalStore δ κ α} {key : δ}

theorem Valid.empty : (empty : LocalStore δ κ α).Valid :=
  ⟨MutationQueue.Consistent.nothing, fun _ => rfl, fun _ => rfl,
    fun _ _ here => by simp [LocalStore.empty] at here⟩

theorem SettledAt.empty : (empty : LocalStore δ κ α).SettledAt key := rfl

/-- Every step leaves the overlay of a document that its pending mutations come to, or
the one from before where they come to nothing and the newest stays in the queue. -/
theorem step_spec (valid : store.Valid) {e : Event δ κ α} (taken : store.step e = some store') :
    store'.Valid ∧ ∀ key, store'.PlainAt key → store.SettledAt key →
      (e.RemovesNewest store key →
        Resettled store'.mutationQueue (store'.remoteDocuments key) none (store'.overlays key)) ∧
      (¬ e.RemovesNewest store key →
        Resettled store'.mutationQueue (store'.remoteDocuments key) (store.overlays key)
          (store'.overlays key)) := by
  have remained : e.removes = none → ∀ key, ¬ e.RemovesNewest store key := by
    intro removes key newest
    rw [Event.RemovesNewest, removes] at newest
    simp at newest
  have ended : ∀ {batchId : ℕ}, e.removes = some batchId → ∀ key,
      (e.RemovesNewest store key ↔
        MutationBatch.IsNewest store.mutationQueue.allMutationBatches key batchId) := by
    intro batchId removes key
    rw [Event.RemovesNewest, removes]
    simp
  cases e with
  | start =>
    rw [step, Option.some.injEq] at taken
    subst taken
    refine ⟨⟨valid.queue.start, valid.keyed, valid.remote, valid.backed⟩,
      fun key _ settled => ⟨fun newest => absurd newest (remained rfl key), fun _ => ?_⟩⟩
    exact settled.transfer rfl fun _ newest => newest
  | writeLocally mutations =>
    obtain ⟨⟨next, views⟩, written, rfl⟩ := Option.map_eq_some_iff.mp taken
    obtain ⟨still, batch, _, wrote⟩ := writeLocally_spec valid written
    exact ⟨still, fun key plain settled => ⟨fun newest => absurd newest (remained rfl key),
      fun _ => wrote.resettled valid plain settled⟩⟩
  | acknowledgeBatch batchId versions =>
    obtain ⟨batch, stored, acknowledged⟩ := Option.bind_eq_some_iff.mp taken
    obtain ⟨rfl, _⟩ := valid.queue.lookupMutationBatch_eq stored
    obtain ⟨still, done⟩ := acknowledgeBatch_spec valid stored acknowledged
    refine ⟨still, fun key _ settled => ?_⟩
    rw [ended rfl key]
    exact done.resettled valid settled
  | rejectBatch batchId =>
    obtain ⟨still, batch, rfl, done⟩ := rejectBatch_spec valid taken
    refine ⟨still, fun key _ settled => ?_⟩
    rw [ended rfl key]
    exact done.resettled valid settled
  | applyRemoteEvent updates snapshotVersion =>
    obtain ⟨_, _, still, resettled⟩ :=
      applyRemoteEvent_spec valid updates.nodup updates.remote taken
    exact ⟨still, fun key plain settled => ⟨fun newest => absurd newest (remained rfl key),
      fun _ => resettled key plain settled⟩⟩

theorem reachable_valid (reachable : (system δ κ α).Reachable store) : store.Valid :=
  reachable.invariant Valid.empty fun _ _ _ valid taken => (step_spec valid taken).1

/-- In every state of every run a document without pending writes reads as the server's
copy of it: no overlay outlives the writes it was made of. -/
theorem getDocument_of_no_pending (reachable : (system δ κ α).Reachable store) {key : δ}
    (none_pending : store.mutationQueue.affecting [key] = []) :
    store.getDocument key = store.remoteDocuments key := by
  have valid := reachable_valid reachable
  have nothing : store.overlays key = none := by
    cases here : store.overlays key with
    | none => rfl
    | some overlay =>
      obtain ⟨_, batch, member, _, touched⟩ := valid.backed key overlay here
      obtain ⟨m, inside, own⟩ := MutationBatch.mem_keys.mp touched
      have listed : batch ∈ store.mutationQueue.affecting [key] :=
        List.mem_filter.mpr ⟨member, by simpa using ⟨m, inside, own⟩⟩
      rw [none_pending] at listed
      simp at listed
  rw [getDocument, nothing]
  simp [getBaseDocument]

/-- The server has the document. -/
def sentDocument (value : ObjectValue ℕ ℕ) : Event Bool ℕ ℕ :=
  .applyRemoteEvent (.single (.foundDocument true 3 value) rfl fun missing => by cases missing) 3

/-- The server's document is deleted, and the server has the deletion. -/
def deleted : List (Event Bool ℕ ℕ) :=
  [sentDocument .empty, .writeLocally [⟨true, .none, .delete⟩], .acknowledgeBatch 1 [4]]

theorem getDocument_of_no_pending_deleted :
    ∃ store, (system Bool ℕ ℕ).Reaches deleted store ∧
      (store.getDocument true).documentState = .hasCommittedMutations := by
  have run : (system Bool ℕ ℕ).Reaches deleted _ := rfl
  refine ⟨_, run, ?_⟩
  rw [getDocument_of_no_pending ⟨deleted, run⟩]
  · rfl
  · rfl

/-- What the callers see to: a write is not empty, an answer is to a batch in the queue,
with a version for each of its mutations, and a remote event has a version if a document
of it goes into the cache, which is not before the last one. -/
def Event.Admissible (store : LocalStore δ κ α) : Event δ κ α → Prop
  | .start => True
  | .writeLocally mutations => mutations ≠ []
  | .acknowledgeBatch batchId versions =>
      ∃ batch, store.mutationQueue.lookupMutationBatch batchId = some batch ∧
        batch.mutations.length = versions.length
  | .rejectBatch batchId => ∃ batch, store.mutationQueue.lookupMutationBatch batchId = some batch
  | .applyRemoteEvent updates snapshotVersion =>
      (∀ doc ∈ updates.documents, DocumentChanges.Adds (store.remoteDocuments doc.key) doc →
        snapshotVersion ≠ 0) ∧
      (snapshotVersion = 0 ∨ store.lastRemoteSnapshotVersion ≤ snapshotVersion)

/-- The end of a batch in the queue meets all assertions. -/
theorem removed_isSome (valid : store.Valid) {batch : MutationBatch δ κ α}
    (stored : store.mutationQueue.lookupMutationBatch batch.batchId = some batch)
    {docs : δ → MutableDocument δ κ α} (keyed : ∀ key, (docs key).key = key)
    (remote : ∀ key, (docs key).hasLocalMutations = false) :
    ∃ queue, store.mutationQueue.removeMutationBatch batch = some queue ∧
      queue.performConsistencyCheck = true ∧
      ∃ result, (removeOverlaysForBatchId
        { store with mutationQueue := queue, remoteDocuments := docs }
          batch.batchId).recalculateAndSaveOverlays batch.keys docs = some result := by
  obtain ⟨queue, removed⟩ : ∃ queue, store.mutationQueue.removeMutationBatch batch = some queue := by
    rw [MutationQueue.lookupMutationBatch] at stored
    rw [MutationQueue.removeMutationBatch, stored]
    exact ⟨_, rfl⟩
  have consistent := (valid.queue.remove stored removed).1
  let middle := removeOverlaysForBatchId
    { store with mutationQueue := queue, remoteDocuments := docs } batch.batchId
  have middleConsistent : middle.mutationQueue.Consistent := consistent
  obtain ⟨overlays, recalculated, made, _⟩ :=
    recalculateAndSaveOverlays_spec middleConsistent batch.keys keyed remote
  exact ⟨queue, removed, consistent.performConsistencyCheck_eq, _, made⟩

theorem Valid.isSome_step_iff (valid : store.Valid) (e : Event δ κ α) :
    (store.step e).isSome = true ↔ e.Admissible store := by
  rw [Option.isSome_iff_exists]
  cases e with
  | start => exact iff_of_true ⟨_, rfl⟩ trivial
  | writeLocally mutations =>
    show (∃ store', (store.writeLocally mutations).map Prod.fst = some store') ↔ mutations ≠ []
    rw [writeLocally, computeViews_eq valid.queue _ valid.keyed valid.remote]
    simp only [Option.bind_eq_bind, Option.bind_some, MutationQueue.addMutationBatch]
    by_cases nothing : mutations = []
    · simp [nothing]
    · simp [nothing]
  | acknowledgeBatch batchId versions =>
    constructor
    · rintro ⟨store', taken⟩
      obtain ⟨batch, stored, acknowledged⟩ := Option.bind_eq_some_iff.mp taken
      obtain ⟨_, result, _⟩ := Option.bind_eq_some_iff.mp acknowledged
      obtain ⟨_, same, _⟩ := Option.bind_eq_some_iff.mp result
      refine ⟨batch, stored, ?_⟩
      by_contra differs
      simp [differs] at same
    · rintro ⟨batch, stored, same⟩
      obtain ⟨rfl, _⟩ := valid.queue.lookupMutationBatch_eq stored
      have keyed : ∀ key, (acknowledgedDocument batch versions key
          (store.remoteDocuments key)).key = key := fun key =>
        (acknowledgedDocument_spec batch versions key (valid.remote key)).1.trans (valid.keyed key)
      obtain ⟨queue, removed, checked, ⟨next, recalculated⟩, made⟩ := removed_isSome valid stored
        keyed fun key => (acknowledgedDocument_spec batch versions key (valid.remote key)).2
      refine ⟨next, Option.bind_eq_some_iff.mpr ⟨batch, stored, ?_⟩⟩
      rw [acknowledgeBatch, applyBatchResult]
      simp only [Option.bind_eq_bind, Option.bind_some, same, removed, checked, guard_true,
        Option.pure_def]
      exact Option.bind_eq_some_iff.mpr ⟨(next, recalculated), made, rfl⟩
  | rejectBatch batchId =>
    constructor
    · rintro ⟨store', taken⟩
      obtain ⟨batch, stored, _⟩ := Option.bind_eq_some_iff.mp taken
      exact ⟨batch, stored⟩
    · rintro ⟨batch, stored⟩
      obtain ⟨rfl, _⟩ := valid.queue.lookupMutationBatch_eq stored
      obtain ⟨queue, removed, checked, ⟨next, recalculated⟩, made⟩ :=
        removed_isSome valid stored valid.keyed valid.remote
      refine ⟨next, ?_⟩
      rw [step, rejectBatch, stored]
      simp only [Option.bind_eq_bind, Option.bind_some, removed, checked, guard_true, Option.pure_def]
      exact Option.bind_eq_some_iff.mpr ⟨(next, recalculated), made, rfl⟩
  | applyRemoteEvent updates snapshotVersion =>
    rw [← Option.isSome_iff_exists]
    exact applyRemoteEvent_isSome_iff valid updates.nodup updates.remote

omit [DecidableEq δ] in
/-- A document that is read by a mutation without condition has local mutations. -/
theorem hasLocalMutations_getDocument {key : δ} {overlay : Overlay δ κ α}
    (stored : store.overlays key = some overlay) (always : overlay.mutation.precondition = .none) :
    (store.getDocument key).hasLocalMutations = true := by
  have valid : ∀ document : MutableDocument δ κ α,
      overlay.mutation.precondition.isValidFor document = true := fun _ => by rw [always]; rfl
  rw [getDocument, stored]
  simp only
  rw [Mutation.applyToLocalView, if_pos (valid _)]
  cases overlay.mutation.operation <;> rfl

/-- Only an overlay that was there before can be left where none is called for. -/
theorem overlays_left (valid : store.Valid) (settled : store.SettledAt key) {e : Event δ κ α}
    (taken : store.step e = some store') (plain : store'.PlainAt key)
    (nothing : store'.overlayOf key = none) (remains : ¬ e.RemovesNewest store key) :
    store'.overlays key = store.overlays key := by
  obtain ⟨still, specified⟩ := step_spec valid taken
  have after := resettled_iff.mp ((specified key plain settled).2 remains)
  rw [still.keyed] at after
  exact after.2 nothing

/-- A step that keeps the pending changes of a document leaves its overlay right. -/
theorem SettledAt.step (valid : store.Valid) (settled : store.SettledAt key) {e : Event δ κ α}
    (taken : store.step e = some store') (plain : store'.PlainAt key)
    (keeps : KeepsAt key store e store') : store'.SettledAt key := by
  obtain ⟨still, specified⟩ := step_spec valid taken
  have resettled := specified key plain settled
  refine resettled_iff.mpr ⟨?_, fun nothing => ?_⟩
  · by_cases removes : e.RemovesNewest store key
    · exact (resettled_iff.mp (resettled.1 removes)).1
    · exact (resettled_iff.mp (resettled.2 removes)).1
  · rw [still.keyed] at nothing
    by_cases removes : e.RemovesNewest store key
    · have after := resettled_iff.mp (resettled.1 removes)
      rw [still.keyed] at after
      exact after.2 nothing
    · rw [overlays_left valid settled taken plain nothing removes]
      cases touched : (store.replayed key).hasLocalMutations with
      | false =>
        have nothing : store.overlayOf key = none := (overlayOf_eq_none_iff valid key).mpr touched
        exact Option.map_eq_none_iff.mp ((settled.standsFor valid).trans nothing)
      | true =>
        have untouched := (overlayOf_eq_none_iff still key).mp nothing
        rcases keeps touched with kept | newest
        · simp [untouched] at kept
        · exact absurd newest removes

/-- A step that does not keep the pending changes leaves the overlay that was made of
them. -/
theorem overlays_of_not_keepsAt (valid : store.Valid) (settled : store.SettledAt key)
    {e : Event δ κ α} (taken : store.step e = some store') (plain : store'.PlainAt key)
    (lost : ¬ KeepsAt key store e store') :
    ∃ overlay, store.overlays key = some overlay ∧ store'.overlays key = some overlay ∧
      (store'.replayed key).hasLocalMutations = false := by
  rw [KeepsAt, Classical.not_imp, not_or, Bool.not_eq_true] at lost
  obtain ⟨touched, untouched, remains⟩ := lost
  have stale := overlays_left valid settled taken plain
    ((overlayOf_eq_none_iff (step_spec valid taken).1 key).mpr untouched) remains
  have stands : (store.overlays key).map Overlay.mutation = store.overlayOf key :=
    settled.standsFor valid
  cases here : store.overlays key with
  | none =>
    rw [here, Option.map_none, eq_comm, overlayOf_eq_none_iff valid, touched] at stands
    cases stands
  | some overlay => exact ⟨overlay, rfl, stale.trans here, untouched⟩

/-- A step that does not keep the pending changes leaves the document marked as
mutated. -/
theorem keepsAt_of_marked (valid : store.Valid) (settled : store.SettledAt key) {e : Event δ κ α}
    (taken : store.step e = some store') (plain : store'.PlainAt key)
    (marked : (store'.getDocument key).hasLocalMutations = true →
      (store'.replayed key).hasLocalMutations = true) : KeepsAt key store e store' := by
  by_contra lost
  obtain ⟨overlay, here, stale, untouched⟩ :=
    overlays_of_not_keepsAt valid settled taken plain lost
  have shown := hasLocalMutations_getDocument stale (valid.backed key overlay here).1
  rw [marked shown] at untouched
  cases untouched

/-- After a step from a store where the overlay of the document is right, reading by the
overlay agrees with the replay exactly if the step keeps the pending changes. -/
theorem agreeAt_step (valid : store.Valid) (settled : store.SettledAt key) {e : Event δ κ α}
    (taken : store.step e = some store') (plain : store'.PlainAt key) :
    store'.AgreeAt key ↔ KeepsAt key store e store' := by
  constructor
  · intro agree
    refine keepsAt_of_marked valid settled taken plain fun shown => ?_
    rw [← show store'.getDocument key = store'.replayed key from agree]
    exact shown
  · intro keeps
    exact (settled.step valid taken plain keeps).agreeAt (step_spec valid taken).1 plain

/-- Every step of the store is a step of its queue or leaves that alone. -/
theorem step_queue (valid : store.Valid) {event : Event δ κ α}
    (taken : store.step event = some store') :
    match event.onQueue with
    | some queued => store.mutationQueue.step queued = some store'.mutationQueue
    | none => store'.mutationQueue = store.mutationQueue := by
  cases event with
  | start =>
    rw [step, Option.some.injEq] at taken
    subst taken
    rfl
  | writeLocally mutations =>
    obtain ⟨⟨_, _⟩, written, rfl⟩ := Option.map_eq_some_iff.mp taken
    exact (caches_writeLocally written).1
  | acknowledgeBatch batchId versions =>
    obtain ⟨batch, stored, acknowledged⟩ := Option.bind_eq_some_iff.mp taken
    exact Option.bind_eq_some_iff.mpr
      ⟨batch, stored, (caches_acknowledgeBatch acknowledged).1⟩
  | rejectBatch batchId => exact (caches_rejectBatch taken).1
  | applyRemoteEvent updates snapshotVersion =>
    exact (applyRemoteEvent_spec valid updates.nodup updates.remote taken).1

/-- A batch gets into the queue by being written and leaves it by its answer. -/
theorem step_batches (valid : store.Valid) {event : Event δ κ α}
    (taken : store.step event = some store') :
    (∀ batch ∈ store'.mutationQueue.allMutationBatches,
      batch ∈ store.mutationQueue.allMutationBatches ∨ event = .writeLocally batch.mutations) ∧
    ∀ batch ∈ store.mutationQueue.allMutationBatches,
      batch ∈ store'.mutationQueue.allMutationBatches ∨ event.removes = some batch.batchId := by
  have queued := step_queue valid taken
  cases event with
  | applyRemoteEvent updates snapshotVersion =>
    have same : store'.mutationQueue = store.mutationQueue := queued
    rw [same]
    exact ⟨fun _ member => Or.inl member, fun _ member => Or.inl member⟩
  | start =>
    have queued : store.mutationQueue.step .start = some store'.mutationQueue := queued
    obtain ⟨come, stay⟩ := valid.queue.step_batches queued
    exact ⟨fun batch member => (come batch member).imp_right (by simp),
      fun batch member => (stay batch member).imp_right (by simp)⟩
  | writeLocally mutations =>
    have queued : store.mutationQueue.step (.addMutationBatch mutations) =
        some store'.mutationQueue := queued
    obtain ⟨come, stay⟩ := valid.queue.step_batches queued
    exact ⟨fun batch member => (come batch member).imp_right (by simp),
      fun batch member => (stay batch member).imp_right (by simp)⟩
  | acknowledgeBatch batchId versions =>
    have queued : store.mutationQueue.step (.removeMutationBatch batchId) =
        some store'.mutationQueue := queued
    obtain ⟨come, stay⟩ := valid.queue.step_batches queued
    exact ⟨fun batch member => (come batch member).imp_right (by simp),
      fun batch member => (stay batch member).imp_right (by simp [Event.removes])⟩
  | rejectBatch batchId =>
    have queued : store.mutationQueue.step (.removeMutationBatch batchId) =
        some store'.mutationQueue := queued
    obtain ⟨come, stay⟩ := valid.queue.step_batches queued
    exact ⟨fun batch member => (come batch member).imp_right (by simp),
      fun batch member => (stay batch member).imp_right (by simp [Event.removes])⟩

/-- What is pending for a document is of the kind that is written to it. -/
theorem Event.Writes.pending (valid : store.Valid) {kind : Mutation δ κ α → Prop}
    {event : Event δ κ α} (writes : event.Writes kind key)
    (pending : ∀ m ∈ store.mutationQueue.pending key, kind m)
    (taken : store.step event = some store') :
    ∀ m ∈ store'.mutationQueue.pending key, kind m := by
  intro m member
  obtain ⟨batch, queued, inside⟩ := List.mem_flatMap.mp member
  rcases (step_batches valid taken).1 batch queued with old | rfl
  · exact pending m (List.mem_flatMap.mpr ⟨batch, old, inside⟩)
  · obtain ⟨own, same⟩ := List.mem_filter.mp inside
    exact writes m own (of_decide_eq_true same)

/-- While the writes of a document are plain, what is pending for it is. -/
theorem always_valid_plainAt {events : List (Event δ κ α)}
    (plain : ∀ e ∈ events, e.Writes Mutation.Plain key) :
    (system δ κ α).Always (fun store => store.Valid ∧ store.PlainAt key) events := by
  refine (EventSystem.everyStep_of_forall_mem plain).always ⟨Valid.empty, ?_⟩ ?_
  · intro m member
    cases member
  · intro store e store' _ h taken writes
    exact ⟨(step_spec h.1 taken).1, writes.pending h.1 h.2 taken⟩

theorem always_settledAt {events : List (Event δ κ α)}
    (plain : ∀ e ∈ events, e.Writes Mutation.Plain key)
    (keeps : (system δ κ α).EveryStep (KeepsAt key) events) :
    (system δ κ α).Always (fun store => store.SettledAt key) events := by
  have known := EventSystem.EveryStep.and.mpr ⟨(always_valid_plainAt plain).everyStep, keeps⟩
  refine known.always SettledAt.empty ?_
  rintro store e store' _ settled taken ⟨⟨before, after⟩, kept⟩
  exact settled.step before.1 taken after.2 kept

/-- Along every run of writes, answers and remote events, reading a document by its
overlay gives what replaying the queue gives in every state, exactly if no step takes
the pending changes of the document away while its newest batch stays in the queue. -/
theorem always_agree_iff {events : List (Event δ κ α)} {key : δ}
    (plain : ∀ e ∈ events, e.Writes Mutation.Plain key) :
    (system δ κ α).Always (·.AgreeAt key) events ↔
      (system δ κ α).EveryStep (KeepsAt key) events := by
  refine (always_valid_plainAt plain).everyStep.always_iff (J := fun store => store.SettledAt key)
    (SettledAt.empty.agreeAt Valid.empty fun _ member => by cases member) SettledAt.empty ?_ ?_
  · intro store e store' _ settled taken known _ agree
    exact settled.step known.1.1 taken known.2.2
      ((agreeAt_step known.1.1 settled taken known.2.2).mp agree)
  · intro store e store' _ _ settled taken known
    exact agreeAt_step known.1.1 settled taken known.2.2

theorem always_agree_iff_deleted : (system Bool ℕ ℕ).EveryStep (KeepsAt true) deleted := by
  refine (always_agree_iff fun e member => ?_).mp fun before store pre run => ?_
  · simp only [deleted, List.mem_cons, List.not_mem_nil, or_false] at member
    rcases member with rfl | rfl | rfl
    · trivial
    · simp [Event.Writes, Mutation.Plain]
    · trivial
  · have passed : before ∈ deleted.inits := (List.mem_inits before deleted).mpr pre
    simp only [deleted, List.inits, List.mem_cons, List.map_cons, List.map_nil, List.not_mem_nil,
      or_false] at passed
    rcases passed with rfl | rfl | rfl | rfl
    all_goals
      obtain rfl := Option.some.inj run
      rfl

section Unconditional

/-- Of the writes of the app, only `updateData` has a condition: that the document
exists. -/
def Unconditional (mutation : Mutation δ κ α) : Prop := mutation.precondition = .none

/-- Without conditions each pending write changes the document. -/
theorem hasLocalMutations_replayed_iff (valid : store.Valid)
    (always : ∀ m ∈ store.mutationQueue.pending key, Unconditional m) :
    (store.replayed key).hasLocalMutations = true ↔
      ∃ batch ∈ store.mutationQueue.allMutationBatches, key ∈ batch.keys := by
  rw [replayed_eq valid]
  have pending : (∃ batch ∈ store.mutationQueue.allMutationBatches, key ∈ batch.keys) ↔
      store.mutationQueue.pending key ≠ [] := by
    rw [MutationQueue.pending, ne_eq, List.flatMap_eq_nil_iff]
    simp only [MutationBatch.mutationsOf, List.filter_eq_nil_iff, MutationBatch.mem_keys]
    simp
  rw [pending]
  cases mutations : store.mutationQueue.pending key with
  | nil => simpa [Mutation.replay] using valid.remote key
  | cons first rest =>
    rw [mutations] at always
    have applies : first.precondition.isValidFor (store.remoteDocuments key) = true := by
      rw [show first.precondition = .none from always first (by simp)]
      rfl
    have touched : (first.applyToLocalView (store.remoteDocuments key)
        (some [])).1.hasLocalMutations = true := by
      rw [Mutation.applyToLocalView, if_pos applies]
      cases first.operation <;> rfl
    exact iff_of_true (Mutation.hasLocalMutations_replay rest touched _) (by simp)

/-- The pending changes of a document go when its last batch leaves the queue. -/
theorem keepsAt_of_unconditional (valid : store.Valid) (valid' : store'.Valid)
    (always : ∀ m ∈ store.mutationQueue.pending key, Unconditional m)
    (always' : ∀ m ∈ store'.mutationQueue.pending key, Unconditional m) {e : Event δ κ α}
    (taken : store.step e = some store') : KeepsAt key store e store' := by
  intro touched
  rw [hasLocalMutations_replayed_iff valid always] at touched
  rw [hasLocalMutations_replayed_iff valid' always']
  by_cases left : ∃ batch ∈ store'.mutationQueue.allMutationBatches, key ∈ batch.keys
  · exact Or.inl left
  · have removed : ∀ batch ∈ store.mutationQueue.allMutationBatches, key ∈ batch.keys →
        e.removes = some batch.batchId := fun batch member touches =>
      ((step_batches valid taken).2 batch member).resolve_left
        fun stays => left ⟨batch, stays, touches⟩
    obtain ⟨batch, member, touches⟩ := touched
    refine Or.inr ⟨batch.batchId, removed batch member touches,
      ⟨batch, member, rfl, touches⟩, fun other there also => ?_⟩
    have same := (removed other there also).symm.trans (removed batch member touches)
    exact (Option.some.inj same).le

/-- While the client only sets, merges and deletes a document, reading it by its overlay
gives what replaying the queue gives in every state of every run. -/
theorem always_agree_of_unconditional {events : List (Event δ κ α)} {key : δ}
    (plain : ∀ e ∈ events, e.Writes Mutation.Plain key)
    (unconditional : ∀ e ∈ events, e.Writes Unconditional key) :
    (system δ κ α).Always (·.AgreeAt key) events := by
  have known := EventSystem.EveryStep.and.mpr
    ⟨(always_valid_plainAt plain).everyStep, EventSystem.everyStep_of_forall_mem unconditional⟩
  have held : (system δ κ α).Always (fun store => store.SettledAt key ∧
      ∀ m ∈ store.mutationQueue.pending key, Unconditional m) events := by
    refine known.always ⟨SettledAt.empty, fun m member => by cases member⟩ ?_
    rintro store e store' _ ⟨settled, always⟩ taken ⟨⟨before, after⟩, writes⟩
    have always' := writes.pending before.1 always taken
    exact ⟨settled.step before.1 taken after.2
      (keepsAt_of_unconditional before.1 after.1 always always' taken), always'⟩
  intro before store pre run
  obtain ⟨valid, plainAt⟩ := always_valid_plainAt plain before store pre run
  exact (held before store pre run).1.agreeAt valid plainAt

theorem always_agree_of_unconditional_deleted :
    (system Bool ℕ ℕ).Always (·.AgreeAt true) deleted := by
  refine always_agree_of_unconditional (fun e member => ?_) fun e member => ?_
  all_goals
    simp only [deleted, List.mem_cons, List.not_mem_nil, or_false] at member
    rcases member with rfl | rfl | rfl
    · trivial
    · simp [Event.Writes, Mutation.Plain, Unconditional]
    · trivial

end Unconditional

section Deletion

/-- The writes are `updateData` of a document. -/
def Updates (mutations : List (Mutation δ κ α)) : Prop :=
  ∀ m ∈ mutations, m.isPatch = true ∧ m.precondition = .exist true

omit [DecidableEq δ] in
/-- Updates of a document that does not exist do nothing. -/
theorem Updates.replay_missing {mutations : List (Mutation δ κ α)} (updates : Updates mutations)
    {document : MutableDocument δ κ α} (missing : document.isFoundDocument = false)
    (mask : Option (FieldMask κ)) : Mutation.replay mutations document mask = (document, mask) := by
  induction mutations with
  | nil => rfl
  | cons first rest ih =>
    have refused : first.precondition.isValidFor document = false := by
      simp [(updates first (by simp)).2, Precondition.isValidFor, missing]
    show Mutation.replay rest (first.applyToLocalView document mask).1
      (first.applyToLocalView document mask).2 = _
    rw [Mutation.applyToLocalView, refused]
    exact ih fun m member => updates m (by simp [member])

omit [DecidableEq δ] in
/-- Updates of a document that exists add their fields to the mask. -/
theorem Updates.replay_found {mutations : List (Mutation δ κ α)} (updates : Updates mutations)
    {document : MutableDocument δ κ α} (found : document.isFoundDocument = true)
    (mask : FieldMask κ) : ∃ all, (Mutation.replay mutations document (some mask)).2 = some all ∧
      (∀ path, path ∈ all ↔
        path ∈ mask ∨ ∃ m ∈ mutations, ∃ fields ∈ m.fieldMask, path ∈ fields) ∧
      (mutations ≠ [] →
        (Mutation.replay mutations document (some mask)).1.hasLocalMutations = true) := by
  induction mutations generalizing document mask with
  | nil => exact ⟨mask, rfl, by simp, by simp⟩
  | cons first rest ih =>
    obtain ⟨patch, condition⟩ := updates first (by simp)
    have applies : first.precondition.isValidFor document = true := by
      simp [condition, Precondition.isValidFor, found]
    cases kind : first.operation with
    | set value => simp [Mutation.isPatch, Mutation.fieldMask, kind] at patch
    | delete => simp [Mutation.isPatch, Mutation.fieldMask, kind] at patch
    | patch value fields =>
      have next : first.applyToLocalView document (some mask) =
          ((document.convertToFoundDocument document.version
            (document.value.patch value fields)).setHasLocalMutations,
            some (fields.foldr insertKey mask)) := by
        rw [Mutation.applyToLocalView, if_pos applies, kind]
        rfl
      have exists_still : ((document.convertToFoundDocument document.version
          (document.value.patch value fields)).setHasLocalMutations).isFoundDocument = true := rfl
      obtain ⟨all, collected, members, _⟩ := ih (fun m member => updates m (by simp [member]))
        exists_still (fields.foldr insertKey mask)
      have own : first.fieldMask = some fields := by rw [Mutation.fieldMask, kind]
      show ∃ all, (Mutation.replay rest (first.applyToLocalView document (some mask)).1
        (first.applyToLocalView document (some mask)).2).2 = some all ∧ _ ∧ (_ →
          (Mutation.replay rest (first.applyToLocalView document (some mask)).1
            (first.applyToLocalView document (some mask)).2).1.hasLocalMutations = true)
      rw [next]
      refine ⟨all, collected, fun path => ?_, fun _ => Mutation.hasLocalMutations_replay rest rfl _⟩
      rw [members, mem_foldr_insertKey]
      simp only [List.mem_cons, exists_eq_or_imp, own, Option.mem_def, Option.some.injEq]
      constructor
      · rintro ((new | old) | later)
        · exact Or.inr (Or.inl ⟨fields, rfl, new⟩)
        · exact Or.inl old
        · exact Or.inr (Or.inr later)
      · rintro (old | ⟨_, rfl, new⟩ | later)
        · exact Or.inl (Or.inr old)
        · exact Or.inl (Or.inl new)
        · exact Or.inr later

/-- The version is later than that of the copy, or the copy is of that version and a
write that the server has was made to it.  The snapshot is not older than the last. -/
def Current (store : LocalStore δ κ α) (key : δ) (version readTime : SnapshotVersion) : Prop :=
  0 < version ∧ ((store.remoteDocuments key).version < version ∨
    version = (store.remoteDocuments key).version ∧
      (store.remoteDocuments key).hasPendingWrites = true) ∧
    0 < readTime ∧ store.lastRemoteSnapshotVersion ≤ readTime

instance (store : LocalStore δ κ α) (key : δ) (version readTime : SnapshotVersion) :
    Decidable (store.Current key version readTime) :=
  inferInstanceAs (Decidable (_ ∧ _))

/-- A current document goes through and replaces the cached one. -/
theorem applyRemoteEvent_current (valid : store.Valid) {doc : MutableDocument δ κ α}
    {readTime : SnapshotVersion} (remote : doc.hasLocalMutations = false)
    (current : store.Current doc.key doc.version readTime) :
    ∃ store', store.applyRemoteEvent [doc] readTime = some store' ∧
      store'.remoteDocuments = Function.update store.remoteDocuments doc.key doc := by
  obtain ⟨dated, newer, timed, later⟩ := current
  have distinct : ([doc].map MutableDocument.key).Nodup := List.nodup_singleton _
  have sent : ∀ other ∈ [doc], other.hasLocalMutations = false := fun other member => by
    rw [List.mem_singleton.mp member]
    exact remote
  obtain ⟨store', applied⟩ := Option.isSome_iff_exists.mp
    ((applyRemoteEvent_isSome_iff valid distinct sent).mpr
      ⟨fun _ _ _ => timed.ne', Or.inr later⟩)
  obtain ⟨_, ⟨changes, populated, documents⟩, _⟩ :=
    applyRemoteEvent_spec valid distinct sent applied
  refine ⟨store', applied, documents.trans ?_⟩
  have known : ¬ (doc.isNoDocument = true ∧ doc.version = 0) := fun both =>
    absurd both.2 dated.ne'
  have added : DocumentChanges.Newer (store.remoteDocuments doc.key) doc := Or.inr newer
  rw [populateDocumentChanges, List.foldlM_cons, DocumentChanges.add, if_neg known, if_pos added,
    if_neg timed.ne'] at populated
  obtain rfl := Option.some.inj populated
  rfl

omit [DecidableEq δ] in
/-- Updates of a document that exists come to a patch of their fields. -/
theorem Updates.overlayOf_found {mutations : List (Mutation δ κ α)} (updates : Updates mutations)
    (plain : ∀ m ∈ mutations, m.Plain) (some_update : mutations ≠ [])
    {base : MutableDocument δ κ α} (remote : base.hasLocalMutations = false)
    (found : base.isFoundDocument = true) :
    ∃ owner value fields,
      Mutation.overlayOf mutations base = some ⟨owner, .none, .patch value fields⟩ ∧
      (∀ path, path ∈ fields ↔ ∃ m ∈ mutations, ∃ mask ∈ m.fieldMask, path ∈ mask) ∧
      value.Covers fields ∧ ∀ field, [field] ∈ fields →
        value.read field = (Mutation.replay mutations base (some [])).1.value.read field := by
  obtain ⟨mask, collected, members, touched⟩ := updates.replay_found found []
  obtain ⟨sorted, covers, _⟩ := (Mutation.replayed remote plain).patched mask collected
  obtain ⟨maskSet, reads⟩ := Mutation.overlayPatch_spec covers sorted
  let result := (Mutation.replay mutations base (some [])).1
  let patch := mask.foldl (Mutation.OverlayPatch.add result.value)
    { patchValue := .empty, maskSet := [] }
  have made : Mutation.overlayOf mutations base =
      some ⟨result.key, .none, .patch patch.patchValue patch.maskSet⟩ := by
    unfold Mutation.overlayOf Mutation.calculateOverlayMutation
    rw [if_pos (touched some_update), collected]
  refine ⟨_, _, _, made, fun path => ?_, fun path member => ?_, fun field member => ?_⟩
  · rw [maskSet, members]
    simp
  · rw [maskSet] at member
    obtain ⟨field, rfl, present⟩ := covers path member
    exact ⟨field, rfl, by rw [reads, if_pos member]; exact present⟩
  · rw [maskSet] at member
    rw [reads, if_pos member]

/-- While only updates of a document are pending, it is deleted on the server.  The
replay comes to nothing, and so the patch of the updated fields stays its overlay. -/
theorem SettledAt.deleted (valid : store.Valid) (plain : store.PlainAt key)
    (settled : store.SettledAt key) {version readTime : SnapshotVersion}
    (found : (store.remoteDocuments key).isFoundDocument = true)
    (current : store.Current key version readTime)
    (some_pending : store.mutationQueue.pending key ≠ [])
    (updates : Updates (store.mutationQueue.pending key)) :
    ∃ store', store.applyRemoteEvent [.noDocument key version] readTime = some store' ∧
      store'.replayed key = .noDocument key version ∧
      (store'.getDocument key).isFoundDocument = true ∧
      ∀ field, (store'.getDocument key).value.read field =
        if ∃ m ∈ store.mutationQueue.pending key, ∃ mask ∈ m.fieldMask, [field] ∈ mask then
          (store.getDocument key).value.read field
        else none := by
  let gone : MutableDocument δ κ α := .noDocument key version
  obtain ⟨store', applied, documents⟩ :
      ∃ store', store.applyRemoteEvent [gone] readTime = some store' ∧
        store'.remoteDocuments = Function.update store.remoteDocuments key gone :=
    applyRemoteEvent_current valid rfl current
  have distinct : ([gone].map MutableDocument.key).Nodup := List.nodup_singleton key
  obtain ⟨queue, _, valid', specified⟩ := applyRemoteEvent_spec valid distinct
    (fun doc member => by rw [List.mem_singleton.mp member]; rfl) applied
  have resettled := specified key (by rw [PlainAt, queue]; exact plain) settled
  have deleted : store'.remoteDocuments key = .noDocument key version := by
    rw [documents]
    exact Function.update_self _ _ _
  have nothing : Mutation.replay (store.mutationQueue.pending key) (.noDocument key version)
      (some []) = (.noDocument key version, some []) := updates.replay_missing rfl _
  have replayed : store'.replayed key = .noDocument key version := by
    rw [replayed_eq valid', queue, deleted, nothing]
  obtain ⟨owner, value, fields, made, members, covers, reads⟩ :=
    updates.overlayOf_found plain some_pending (valid.remote key) found
  have before : store.getDocument key = (Mutation.replay (store.mutationQueue.pending key)
      (store.remoteDocuments key) (some [])).1 :=
    (settled.agreeAt valid plain).trans (replayed_eq valid key)
  obtain ⟨overlay, stored, same⟩ :=
    Option.map_eq_some_iff.mp ((settled.standsFor valid).trans made)
  -- The replay comes to nothing, and so the patch stays.
  have stale : store'.overlays key = some overlay := by
    have kept := (resettled_iff.mp resettled).2
    rw [deleted] at kept
    rw [← stored]
    refine kept (Mutation.calculateOverlayMutation_eq_none_iff.mpr ?_)
    show (Mutation.replay (store'.mutationQueue.pending key) (.noDocument key version)
      (some [])).1.hasLocalMutations = false
    rw [queue, nothing]
    rfl
  have shown : store'.getDocument key =
      ((MutableDocument.noDocument key version).convertToFoundDocument version
        (ObjectValue.empty.patch value fields)).setHasLocalMutations := by
    have isPatch : overlay.mutation.isPatch = true := by
      rw [same]
      rfl
    rw [getDocument, stale, getBaseDocument]
    simp only [Option.all_some, isPatch, if_true, deleted]
    rw [same]
    rfl
  refine ⟨store', applied, replayed, by rw [shown]; rfl, fun field => ?_⟩
  rw [shown, before]
  show (ObjectValue.empty.patch value fields).read field = _
  rw [ObjectValue.read_patch covers]
  by_cases member : [field] ∈ fields
  · rw [if_pos member, if_pos ((members [field]).mp member), reads field member]
  · rw [if_neg member, if_neg fun listed => member ((members [field]).mpr listed)]
    rfl

/-- After the deletion, reading the document by its overlay shows one that has the
updated fields and no others, where the replay says that there is none. -/
theorem getDocument_after_deletion {events : List (Event δ κ α)} {store : LocalStore δ κ α}
    (run : (system δ κ α).Reaches events store) {key : δ}
    (plain : ∀ e ∈ events, e.Writes Mutation.Plain key)
    (keeps : (system δ κ α).EveryStep (KeepsAt key) events) {version readTime : SnapshotVersion}
    (found : (store.remoteDocuments key).isFoundDocument = true)
    (current : store.Current key version readTime)
    (some_pending : store.mutationQueue.pending key ≠ [])
    (updates : Updates (store.mutationQueue.pending key)) :
    ∃ store', store.applyRemoteEvent [.noDocument key version] readTime = some store' ∧
      store'.replayed key = .noDocument key version ∧
      (store'.getDocument key).isFoundDocument = true ∧
      ∀ field, (store'.getDocument key).value.read field =
        if ∃ m ∈ store.mutationQueue.pending key, ∃ mask ∈ m.fieldMask, [field] ∈ mask then
          (store.getDocument key).value.read field
        else none := by
  obtain ⟨valid, plainAt⟩ := always_valid_plainAt plain events store (List.prefix_refl _) run
  have settled := always_settledAt plain keeps events store (List.prefix_refl _) run
  exact settled.deleted valid plainAt found current some_pending updates

def twoFields : ObjectValue ℕ ℕ where
  fields := [(0, .scalar 7), (1, .scalar 8)]
  ordered := .map (by decide) fun e member => by
    simp only [List.mem_cons, List.not_mem_nil, or_false] at member
    rcases member with rfl | rfl <;> exact .scalar _

def oneField : ObjectValue ℕ ℕ where
  fields := [(1, .scalar 9)]
  ordered := .map (by decide) fun e member => by
    rw [List.mem_singleton.mp member]
    exact .scalar 9

/-- The second field of a document is updated. -/
def updated : List (Event Bool ℕ ℕ) :=
  [sentDocument twoFields, .writeLocally [⟨true, .exist true, .patch oneField [[1]]⟩]]

theorem plain_updated : ∀ e ∈ updated, e.Writes Mutation.Plain true := by
  have covers : oneField.Covers [[1]] := fun path member =>
    ⟨1, List.mem_singleton.mp member, by decide⟩
  intro e member
  simp only [updated, List.mem_cons, List.not_mem_nil, or_false] at member
  rcases member with rfl | rfl
  · trivial
  · simp [Event.Writes, Mutation.Plain, covers]

/-- After the deletion the document has the field that was updated and not the other. -/
theorem getDocument_after_deletion_updated :
    ∃ store store', (system Bool ℕ ℕ).Reaches updated store ∧
      store.applyRemoteEvent [.noDocument true 5] 5 = some store' ∧
      (store'.getDocument true).isFoundDocument = true ∧
      (store'.getDocument true).value.read 0 = none ∧
      (store'.getDocument true).value.read 1 = some (.scalar 9) := by
  have keeps : (system Bool ℕ ℕ).EveryStep (KeepsAt true) updated := by
    have quiet : (system Bool ℕ ℕ).EveryStep
        (fun store _ _ => (store.replayed true).hasLocalMutations = false) updated := by
      decide
    intro before e store store' pre run taken touched
    rw [quiet before e store store' pre run taken] at touched
    cases touched
  have run : (system Bool ℕ ℕ).Reaches updated _ := rfl
  have updates : ∀ m : Mutation Bool ℕ ℕ, m ∈ [⟨true, .exist true, .patch oneField [[1]]⟩] →
      m.isPatch = true ∧ m.precondition = .exist true := by
    intro m member
    rw [List.mem_singleton.mp member]
    exact ⟨rfl, rfl⟩
  obtain ⟨store', applied, _, found, fields⟩ := getDocument_after_deletion run plain_updated keeps
    rfl (by decide : LocalStore.Current _ true 5 5) (List.cons_ne_nil _ []) updates
  refine ⟨_, store', run, applied, found, ?_, ?_⟩
  · rw [fields]
    rfl
  · rw [fields]
    rfl

end Deletion

end LocalStore

end QuickNote.Firestore
