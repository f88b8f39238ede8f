import QuickNote.Firestore.MutationQueue

/-!
# The local store

`LocalStore` and `LocalDocumentsView` (`core/src/local`): the client's copies of the
server's documents, the queue of its own writes and the overlays that save replaying
the queue.  Documents that the source keeps in maps from keys are functions of the
key here.  Where the client fails a `HARD_ASSERT` the result is `none`.
-/

namespace QuickNote.Firestore

open SortedEntries

/-- `Overlay` (`core/src/model/overlay.h`). -/
structure Overlay (δ κ α : Type) [LinearOrder κ] where
  largestBatchId : ℕ
  mutation : Mutation δ κ α

namespace MutationBatch

variable {δ κ α : Type} [DecidableEq δ] [LinearOrder κ]

/-- `MutationBatch::keys` (`mutation_batch.cc:148`). -/
def keys (self : MutationBatch δ κ α) : List δ := (self.mutations.map Mutation.key).dedup

/-- `ApplyToLocalView` and `ApplyToLocalDocument` (`mutation_batch.cc:60`, `:88`). -/
def applyToLocalView (self : MutationBatch δ κ α) (document : MutableDocument δ κ α)
    (mutatedFields : Option (FieldMask κ)) : MutableDocument δ κ α × Option (FieldMask κ) :=
  self.mutations.foldl (fun acc mutation =>
    if mutation.key = acc.1.key then mutation.applyToLocalView acc.1 acc.2 else acc)
    (document, mutatedFields)

/-- `ApplyToRemoteDocument` (`mutation_batch.cc:44`), with the version that the server
gave each write. -/
def applyToRemoteDocument (self : MutationBatch δ κ α) (document : MutableDocument δ κ α)
    (versions : List SnapshotVersion) : MutableDocument δ κ α :=
  (self.mutations.zip versions).foldl (fun document result =>
    if result.1.key = document.key then result.1.applyToRemoteDocument document result.2
    else document) document

/-- The views of documents with their masks, and the overlays collected for them. -/
structure DocumentSet (δ κ α : Type) [LinearOrder κ] where
  documents : δ → MutableDocument δ κ α × Option (FieldMask κ)
  overlays : δ → Option (Mutation δ κ α)

/-- The batch is applied to the document of one of its mutations; `emplace` keeps the
first overlay of a document. -/
def DocumentSet.apply (batch : MutationBatch δ κ α) (self : DocumentSet δ κ α)
    (mutation : Mutation δ κ α) : DocumentSet δ κ α :=
  let view := self.documents mutation.key
  let (document, mutatedFields) := batch.applyToLocalView view.1 view.2
  let overlay := Mutation.calculateOverlayMutation document mutatedFields
  let shown := if document.isValidDocument then document else document.convertToNoDocument 0
  { documents := Function.update self.documents mutation.key (shown, view.2)
    overlays := Function.update self.overlays mutation.key
      ((self.overlays mutation.key).or overlay) }

/-- `ApplyToLocalDocumentSet` (`mutation_batch.cc:116`).  The whole batch is applied
once for each of its mutations. -/
def applyToLocalDocumentSet (self : MutationBatch δ κ α)
    (documents : δ → MutableDocument δ κ α × Option (FieldMask κ)) : DocumentSet δ κ α :=
  self.mutations.foldl (DocumentSet.apply self) { documents, overlays := fun _ => none }

end MutationBatch

/-- The caches of `LocalStore`. -/
structure LocalStore (δ κ α : Type) [LinearOrder κ] where
  /-- `RemoteDocumentCache::Get`: an invalid document where there is none. -/
  remoteDocuments : δ → MutableDocument δ κ α
  mutationQueue : MutationQueue δ κ α
  overlays : δ → Option (Overlay δ κ α)
  /-- Of the target cache, `GetLastRemoteSnapshotVersion`; zero is
  `SnapshotVersion::None()`. -/
  lastRemoteSnapshotVersion : SnapshotVersion

/-- What `RecalculateAndSaveOverlays` has at hand after some of the batches. -/
structure Recalculation (δ κ α : Type) [LinearOrder κ] where
  docs : δ → MutableDocument δ κ α
  masks : δ → Option (Option (FieldMask κ))
  documentsByBatchId : List (ℕ × List δ)

namespace Recalculation

variable {δ κ α : Type} [DecidableEq δ] [LinearOrder κ]

/-- A batch is applied to one of its documents. -/
def applyTo (batch : MutationBatch δ κ α) (keys : List δ) (self : Recalculation δ κ α) (key : δ) :
    Recalculation δ κ α :=
  if key ∈ keys then
    let (document, mask) := batch.applyToLocalView (self.docs key) ((self.masks key).getD (some []))
    { docs := Function.update self.docs key document
      masks := Function.update self.masks key (some mask)
      documentsByBatchId :=
        insertEntry batch.batchId
          (key :: (self.documentsByBatchId.lookup batch.batchId).getD []) self.documentsByBatchId }
  else self

/-- The first loop of `RecalculateAndSaveOverlays` (`local_documents_view.cc:313`). -/
def applyAll (batches : List (MutationBatch δ κ α)) (keys : List δ) (self : Recalculation δ κ α) :
    Recalculation δ κ α :=
  batches.foldl (fun acc batch => batch.keys.foldl (applyTo batch keys) acc) self

/-- `CalculateOverlayMutation(*docs_it->second, masks[key])`. -/
def overlay (self : Recalculation δ κ α) (key : δ) : Option (Mutation δ κ α) :=
  Mutation.calculateOverlayMutation (self.docs key) ((self.masks key).getD none)

/-- The second loop (`local_documents_view.cc:339`): from the largest batch id down,
documents that have been dealt with are skipped, and a document without overlay
mutation keeps the overlay it has. -/
def save (self : Recalculation δ κ α) (overlays : δ → Option (Overlay δ κ α)) :
    List (ℕ × List δ) → List δ → δ → Option (Overlay δ κ α)
  | [], _ => overlays
  | (batchId, keys) :: rest, processed =>
      let fresh := keys.filter (· ∉ processed)
      self.save (fun key =>
          if key ∈ fresh then
            match self.overlay key with
            | some mutation => some { largestBatchId := batchId, mutation }
            | none => overlays key
          else overlays key)
        rest (fresh ++ processed)

end Recalculation

namespace LocalStore

variable {δ κ α : Type} [DecidableEq δ] [LinearOrder κ]

def empty : LocalStore δ κ α where
  remoteDocuments := MutableDocument.invalidDocument
  mutationQueue := .empty
  overlays := fun _ => none
  lastRemoteSnapshotVersion := 0

/-- `LocalDocumentsView::RecalculateAndSaveOverlays` (`local_documents_view.cc:287`) of
the given documents. -/
def recalculateAndSaveOverlays (self : LocalStore δ κ α) (keys : List δ)
    (docs : δ → MutableDocument δ κ α) : Option (LocalStore δ κ α × Recalculation δ κ α) := do
  let batches ← self.mutationQueue.allMutationBatchesAffectingDocumentKeys keys
  let recalculated := Recalculation.applyAll batches keys
    { docs, masks := fun _ => none, documentsByBatchId := [] }
  let overlays := recalculated.save self.overlays recalculated.documentsByBatchId.reverse []
  some ({ self with overlays }, recalculated)

/-- `RemoveOverlaysForBatchId`. -/
def removeOverlaysForBatchId (self : LocalStore δ κ α) (batchId : ℕ) : LocalStore δ κ α :=
  { self with overlays := fun key => (self.overlays key).filter (·.largestBatchId ≠ batchId) }

/-- `LocalDocumentsView::ComputeViews` (`local_documents_view.cc:243`). -/
def computeViews (self : LocalStore δ κ α) (keys : List δ) (docs : δ → MutableDocument δ κ α)
    (existenceStateChanged : List δ) :
    Option (LocalStore δ κ α × (δ → MutableDocument δ κ α × Option (FieldMask κ))) := do
  let recalculateDocuments := keys.filter fun key =>
    key ∈ existenceStateChanged ∧ ((self.overlays key).all fun overlay => overlay.mutation.isPatch)
  let (store, recalculated) ← self.recalculateAndSaveOverlays recalculateDocuments docs
  some (store, fun key =>
    if key ∈ recalculateDocuments then (recalculated.docs key, (recalculated.masks key).getD none)
    else Mutation.viewed (docs key) ((self.overlays key).map Overlay.mutation))

/-- `LocalStore::WriteLocally` (`local_store.cc:193`), with the views it returns. -/
def writeLocally (self : LocalStore δ κ α) (mutations : List (Mutation δ κ α)) :
    Option (LocalStore δ κ α × (δ → MutableDocument δ κ α × Option (FieldMask κ))) := do
  let keys := (mutations.map Mutation.key).dedup
  let (store, overlayedDocuments) ← self.computeViews keys self.remoteDocuments []
  let (mutationQueue, batch) ← store.mutationQueue.addMutationBatch mutations
  let set := batch.applyToLocalDocumentSet overlayedDocuments
  some ({ store with
      mutationQueue
      overlays := fun key =>
        match set.overlays key with
        | some mutation => some { largestBatchId := batch.batchId, mutation }
        | none => store.overlays key },
    set.documents)

/-- The loop of `ApplyBatchResult`: the writes of the batch go to a copy that is older
than what the server answered. -/
def acknowledgedDocument (batch : MutationBatch δ κ α) (versions : List SnapshotVersion) (key : δ)
    (doc : MutableDocument δ κ α) : MutableDocument δ κ α :=
  let ackVersion := (((batch.mutations.map Mutation.key).zip versions).reverse.lookup key).getD 0
  if key ∈ batch.keys ∧ doc.version < ackVersion then
    let applied := batch.applyToRemoteDocument doc versions
    if applied.isValidDocument then applied else doc
  else doc

/-- `LocalStore::ApplyBatchResult` (`local_store.cc:269`). -/
def applyBatchResult (self : LocalStore δ κ α) (batch : MutationBatch δ κ α)
    (versions : List SnapshotVersion) : Option (LocalStore δ κ α) := do
  -- The server gives every mutation a version.
  guard (batch.mutations.length = versions.length)
  let mutationQueue ← self.mutationQueue.removeMutationBatch batch
  some { self with
    mutationQueue
    remoteDocuments := fun key => acknowledgedDocument batch versions key (self.remoteDocuments key) }

/-- `LocalStore::AcknowledgeBatch` (`local_store.cc:252`). -/
def acknowledgeBatch (self : LocalStore δ κ α) (batch : MutationBatch δ κ α)
    (versions : List SnapshotVersion) : Option (LocalStore δ κ α) := do
  let applied ← self.applyBatchResult batch versions
  guard applied.mutationQueue.performConsistencyCheck
  let removed := applied.removeOverlaysForBatchId batch.batchId
  -- `GetKeysWithTransformResults` returns all keys of the batch.
  let (store, _) ← removed.recalculateAndSaveOverlays batch.keys removed.remoteDocuments
  some store

/-- `LocalStore::RejectBatch` (`local_store.cc:293`). -/
def rejectBatch (self : LocalStore δ κ α) (batchId : ℕ) : Option (LocalStore δ κ α) := do
  let toReject ← self.mutationQueue.lookupMutationBatch batchId
  let mutationQueue ← self.mutationQueue.removeMutationBatch toReject
  guard mutationQueue.performConsistencyCheck
  let removed := { self with mutationQueue }.removeOverlaysForBatchId batchId
  let (store, _) ← removed.recalculateAndSaveOverlays toReject.keys removed.remoteDocuments
  some store

/-- `changed_docs`, `condition_changed` and the cache in the loop of
`PopulateDocumentChanges`. -/
structure DocumentChanges (δ κ α : Type) [LinearOrder κ] where
  remoteDocuments : δ → MutableDocument δ κ α
  changedDocs : List (MutableDocument δ κ α)
  existenceChangedKeys : List δ

/-- The document of an event is newer than the cached one. -/
def DocumentChanges.Newer (existingDoc doc : MutableDocument δ κ α) : Prop :=
  ¬ existingDoc.isValidDocument ∨ existingDoc.version < doc.version ∨
    (doc.version = existingDoc.version ∧ existingDoc.hasPendingWrites)

omit [DecidableEq δ] in
instance (existingDoc doc : MutableDocument δ κ α) :
    Decidable (DocumentChanges.Newer existingDoc doc) :=
  inferInstanceAs (Decidable (_ ∨ _))

/-- The loop of `PopulateDocumentChanges`. -/
def DocumentChanges.add (existingDocs : δ → MutableDocument δ κ α) (readTime : SnapshotVersion)
    (self : DocumentChanges δ κ α) (doc : MutableDocument δ κ α) :
    Option (DocumentChanges δ κ α) :=
  let existingDoc := existingDocs doc.key
  let existenceChangedKeys :=
    if doc.isFoundDocument ≠ existingDoc.isFoundDocument then doc.key :: self.existenceChangedKeys
    else self.existenceChangedKeys
  -- A manufactured event: access to the document was lost.
  if doc.isNoDocument ∧ doc.version = 0 then
    some { remoteDocuments := Function.update self.remoteDocuments doc.key (.invalidDocument doc.key)
           changedDocs := doc :: self.changedDocs, existenceChangedKeys }
  else if Newer existingDoc doc then
    if readTime = 0 then none
    else
      some { remoteDocuments := Function.update self.remoteDocuments doc.key doc
             changedDocs := doc :: self.changedDocs, existenceChangedKeys }
  -- An outdated update is ignored.
  else some { self with existenceChangedKeys }

/-- `LocalStore::PopulateDocumentChanges` (`local_store.cc:709`) with no versions of
single documents, as `ApplyRemoteEvent` calls it. -/
def populateDocumentChanges (self : LocalStore δ κ α) (documents : List (MutableDocument δ κ α))
    (globalVersion : SnapshotVersion) : Option (DocumentChanges δ κ α) :=
  documents.foldlM (DocumentChanges.add self.remoteDocuments globalVersion)
    { remoteDocuments := self.remoteDocuments, changedDocs := [], existenceChangedKeys := [] }

/-- The document of the event, or else the cached one. -/
def DocumentChanges.docs (self : DocumentChanges δ κ α) (key : δ) : MutableDocument δ κ α :=
  (self.changedDocs.find? (·.key = key)).getD (self.remoteDocuments key)

/-- `LocalStore::ApplyRemoteEvent` (`local_store.cc:322`): the documents, each at most
once, and the snapshot version. -/
def applyRemoteEvent (self : LocalStore δ κ α) (documents : List (MutableDocument δ κ α))
    (snapshotVersion : SnapshotVersion) : Option (LocalStore δ κ α) := do
  let changes ← self.populateDocumentChanges documents snapshotVersion
  -- Only events made up by the client have no version.
  guard (snapshotVersion = 0 ∨ self.lastRemoteSnapshotVersion ≤ snapshotVersion)
  let lastRemoteSnapshotVersion :=
    if snapshotVersion = 0 then self.lastRemoteSnapshotVersion else snapshotVersion
  let (store, _) ← { self with
      remoteDocuments := changes.remoteDocuments
      lastRemoteSnapshotVersion }.computeViews (changes.changedDocs.map MutableDocument.key)
    changes.docs changes.existenceChangedKeys
  some store

/-- `LocalDocumentsView::GetBaseDocument` (`local_documents_view.cc:360`). -/
def getBaseDocument (self : LocalStore δ κ α) (key : δ) (overlay : Option (Overlay δ κ α)) :
    MutableDocument δ κ α :=
  if overlay.all fun overlay => overlay.mutation.isPatch then self.remoteDocuments key
  else .invalidDocument key

/-- `LocalDocumentsView::GetDocument` (`local_documents_view.cc:194`). -/
def getDocument (self : LocalStore δ κ α) (key : δ) : MutableDocument δ κ α :=
  let overlay := self.overlays key
  let document := self.getBaseDocument key overlay
  match overlay with
  | some overlay => (overlay.mutation.applyToLocalView document (some [])).1
  | none => document

/-- `LocalDocumentsView::GetDocument` with batches to replay
(`local_documents_view.cc:67`). -/
def getDocumentReplaying (self : LocalStore δ κ α) (key : δ)
    (batches : List (MutationBatch δ κ α)) : MutableDocument δ κ α :=
  batches.foldl (fun document batch => (batch.applyToLocalView document (some [])).1)
    (self.remoteDocuments key)

end LocalStore

end QuickNote.Firestore
