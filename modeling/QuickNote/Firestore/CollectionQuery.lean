import QuickNote.Firestore.LocalRuns

/-!
# Queries of a collection

`GetDocumentsMatchingCollectionQuery` of `LocalDocumentsView` goes through the cached
documents of a collection and the overlays in it, where `GetDocument` reads one
document.  Both give the same documents.
-/

namespace QuickNote.Firestore

/-- What a query asks of a document that is there: the collection, and the filters,
orders and bounds. -/
structure Query (δ κ α : Type) [LinearOrder κ] where
  inCollection : δ → Bool
  accepts : δ → ObjectValue κ α → Bool

variable {δ κ α : Type} [LinearOrder κ]

/-- `Query::Matches` (`query.cc:233`). -/
def Query.isMatchedBy (self : Query δ κ α) (document : MutableDocument δ κ α) : Bool :=
  document.isFoundDocument && self.inCollection document.key &&
    self.accepts document.key document.value

namespace LocalStore

/-- `RemoteDocumentCache::GetDocumentsMatchingQuery` and `GetAllExisting`
(`leveldb_remote_document_cache.cc:225`, `:175`) at a key. -/
def getRemoteDocumentMatchingQuery (self : LocalStore δ κ α) (query : Query δ κ α) (key : δ)
    (mutated : Bool) : Option (MutableDocument δ κ α) :=
  let document := self.remoteDocuments key
  if query.inCollection key ∧ document.isFoundDocument ∧ (query.isMatchedBy document ∨ mutated) then
    some document
  else none

/-- `LocalDocumentsView::GetDocumentsMatchingCollectionQuery`
(`local_documents_view.cc:155`) at a key, without an offset to start from. -/
def getDocumentMatchingCollectionQuery (self : LocalStore δ κ α) (query : Query δ κ α) (key : δ) :
    Option (MutableDocument δ κ α) :=
  let overlay := if query.inCollection key then self.overlays key else none
  -- A document might match because of its overlay.
  let remote := (self.getRemoteDocumentMatchingQuery query key overlay.isSome).or
    (overlay.map fun _ => .invalidDocument key)
  let document := remote.map fun document =>
    match overlay with
    | some overlay => (overlay.mutation.applyToLocalView document (some [])).1
    | none => document
  document.filter query.isMatchedBy

variable [DecidableEq δ] {store : LocalStore δ κ α}

/-- Documents that are not there have no fields. -/
def Fieldless (store : LocalStore δ κ α) : Prop := ∀ key, (store.remoteDocuments key).Fieldless

omit [DecidableEq δ] in
theorem fieldless_applyToRemoteDocument (mutation : Mutation δ κ α)
    (document : MutableDocument δ κ α) (version : SnapshotVersion) :
    (mutation.applyToRemoteDocument document version).Fieldless := by
  intro missing
  rw [Mutation.applyToRemoteDocument] at missing ⊢
  cases kind : mutation.operation with
  | set value =>
    rw [kind] at missing
    cases missing
  | delete => rfl
  | patch value mask =>
    rw [kind] at missing
    by_cases valid : mutation.precondition.isValidFor document = true
    · simp only [if_pos valid] at missing
      cases missing
    · simp only [if_neg valid]
      rfl

theorem fieldless_acknowledgedDocument (batch : MutationBatch δ κ α)
    (versions : List SnapshotVersion) (key : δ) {document : MutableDocument δ κ α}
    (fieldless : document.Fieldless) :
    (acknowledgedDocument batch versions key document).Fieldless := by
  have run : ∀ (results : List (Mutation δ κ α × SnapshotVersion))
      (document : MutableDocument δ κ α), document.Fieldless →
      (results.foldl (fun document result =>
        if result.1.key = document.key then result.1.applyToRemoteDocument document result.2
        else document) document).Fieldless := by
    intro results
    induction results with
    | nil => exact fun _ holds => holds
    | cons result rest ih =>
      intro document holds
      refine ih _ ?_
      dsimp only
      split
      · exact fieldless_applyToRemoteDocument _ _ _
      · exact holds
  rw [acknowledgedDocument]
  dsimp only
  split
  · split
    · exact run _ _ fieldless
    · exact fieldless
  · exact fieldless

theorem DocumentChanges.fieldless_add {existingDocs : δ → MutableDocument δ κ α}
    {readTime : SnapshotVersion} {changes next : DocumentChanges δ κ α}
    (fieldless : ∀ key, (changes.remoteDocuments key).Fieldless) {doc : MutableDocument δ κ α}
    (sent : doc.Fieldless) (added : changes.add existingDocs readTime doc = some next) (key : δ) :
    (next.remoteDocuments key).Fieldless := by
  have gone : (MutableDocument.invalidDocument doc.key : MutableDocument δ κ α).Fieldless :=
    fun _ => rfl
  have taken : ∀ stored : MutableDocument δ κ α, stored.Fieldless →
      (Function.update changes.remoteDocuments doc.key stored key).Fieldless := by
    intro stored holds
    by_cases same : key = doc.key
    · subst same
      rwa [Function.update_self]
    · rw [Function.update_of_ne same]
      exact fieldless key
  rw [DocumentChanges.add] at added
  by_cases lost : doc.isNoDocument ∧ doc.version = 0
  · rw [if_pos lost, Option.some.injEq] at added
    subst added
    exact taken _ gone
  · rw [if_neg lost] at added
    by_cases newer : DocumentChanges.Newer (existingDocs doc.key) doc
    · rw [if_pos newer, Option.ite_none_left_eq_some, Option.some.injEq] at added
      obtain ⟨_, rfl⟩ := added
      exact taken _ sent
    · rw [if_neg newer, Option.some.injEq] at added
      subst added
      exact fieldless key

theorem fieldless_populateDocumentChanges (fieldless : store.Fieldless)
    {documents : List (MutableDocument δ κ α)} (sent : ∀ doc ∈ documents, doc.Fieldless)
    {globalVersion : SnapshotVersion} {changes : DocumentChanges δ κ α}
    (populated : store.populateDocumentChanges documents globalVersion = some changes) (key : δ) :
    (changes.remoteDocuments key).Fieldless := by
  rw [populateDocumentChanges] at populated
  induction documents using List.reverseRecOn generalizing changes key with
  | nil =>
    obtain rfl := Option.some.inj populated
    exact fieldless key
  | append_singleton documents doc ih =>
    rw [List.foldlM_append] at populated
    obtain ⟨before, made, populated⟩ := Option.bind_eq_some_iff.mp populated
    obtain ⟨next, added, same⟩ := Option.bind_eq_some_iff.mp populated
    obtain rfl := Option.some.inj same
    exact DocumentChanges.fieldless_add
      (ih (fun other member => sent other (by simp [member])) made) (sent doc (by simp)) added key

theorem reachable_fieldless (reachable : (system δ κ α).Reachable store) : store.Fieldless := by
  have both : store.Valid ∧ store.Fieldless := by
    refine reachable.invariant (I := fun store => store.Valid ∧ store.Fieldless)
      ⟨Valid.empty, fun _ _ => rfl⟩ ?_
    rintro store e store' ⟨valid, fieldless⟩ taken
    refine ⟨(step_spec valid taken).1, fun key => ?_⟩
    cases e with
    | start =>
      obtain rfl := Option.some.inj taken
      exact fieldless key
    | writeLocally mutations =>
      obtain ⟨⟨_, _⟩, written, rfl⟩ := Option.map_eq_some_iff.mp taken
      rw [(caches_writeLocally written).2]
      exact fieldless key
    | acknowledgeBatch batchId versions =>
      obtain ⟨batch, _, acknowledged⟩ := Option.bind_eq_some_iff.mp taken
      rw [(caches_acknowledgeBatch acknowledged).2]
      exact fieldless_acknowledgedDocument batch versions key (fieldless key)
    | rejectBatch batchId =>
      rw [(caches_rejectBatch taken).2]
      exact fieldless key
    | applyRemoteEvent updates snapshotVersion =>
      obtain ⟨_, ⟨changes, populated, caches⟩, _⟩ :=
        applyRemoteEvent_spec valid updates.nodup updates.remote taken
      rw [caches]
      exact fieldless_populateDocumentChanges fieldless
        (fun doc member => (updates.sent doc member).2) populated key
  exact both.2

omit [DecidableEq δ] in
/-- An overlay makes the same of documents with the same key, and the same fields if it is
a patch. -/
theorem applyToLocalView_congr {overlay : Mutation δ κ α} (always : overlay.precondition = .none)
    {a b : MutableDocument δ κ α} (key : a.key = b.key)
    (value : overlay.isPatch = true → a.value = b.value) :
    (overlay.applyToLocalView a (some [])).1 = (overlay.applyToLocalView b (some [])).1 := by
  cases patch : overlay.isPatch with
  | false =>
    have same := congrArg Prod.fst (Mutation.viewed_of_not_patch always patch key)
    exact (overlay.applyToLocalView_fst a _ _).trans
      (same.trans (overlay.applyToLocalView_fst b _ _))
  | true =>
    have valid : ∀ document : MutableDocument δ κ α,
        overlay.precondition.isValidFor document = true := fun document => by rw [always]; rfl
    rw [Mutation.applyToLocalView, Mutation.applyToLocalView, if_pos (valid a), if_pos (valid b)]
    cases kind : overlay.operation with
    | set value => simp [Mutation.isPatch, Mutation.fieldMask, kind] at patch
    | delete => simp [Mutation.isPatch, Mutation.fieldMask, kind] at patch
    | patch fields mask =>
      refine MutableDocument.ext key rfl rfl ?_ rfl
      show a.value.patch fields mask = b.value.patch fields mask
      rw [value patch]

theorem key_getDocument (valid : store.Valid) (key : δ) : (store.getDocument key).key = key := by
  rw [getDocument, getBaseDocument]
  cases store.overlays key with
  | none => exact valid.keyed key
  | some overlay =>
    show (overlay.mutation.applyToLocalView _ _).1.key = key
    rw [Mutation.key_applyToLocalView]
    split
    · exact valid.keyed key
    · rfl

/-- A query lists the documents that match it when they are read one by one, whether
their overlays are right or not. -/
theorem Valid.matching_eq (valid : store.Valid) (fieldless : store.Fieldless) (query : Query δ κ α)
    (key : δ) : store.getDocumentMatchingCollectionQuery query key =
      (some (store.getDocument key)).filter query.isMatchedBy := by
  rw [getDocumentMatchingCollectionQuery, getRemoteDocumentMatchingQuery]
  by_cases inside : query.inCollection key = true
  · simp only [inside, if_true, true_and]
    cases stored : store.overlays key with
    | none =>
      have read : store.getDocument key = store.remoteDocuments key := by
        rw [getDocument, stored]
        rfl
      rw [read]
      by_cases matched : query.isMatchedBy (store.remoteDocuments key) = true
      · have found : (store.remoteDocuments key).isFoundDocument = true := by
          simp only [Query.isMatchedBy, Bool.and_eq_true] at matched
          exact matched.1.1
        simp [matched, found]
      · simp [matched, Option.filter_some]
    | some overlay =>
      have always : overlay.mutation.precondition = .none := (valid.backed key overlay stored).1
      have read : store.getDocument key = (overlay.mutation.applyToLocalView
          (if overlay.mutation.isPatch then store.remoteDocuments key else .invalidDocument key)
          (some [])).1 := by
        rw [getDocument, stored]
        rfl
      rw [read]
      by_cases found : (store.remoteDocuments key).isFoundDocument = true
      · have same := applyToLocalView_congr always (a := store.remoteDocuments key)
          (b := if overlay.mutation.isPatch then store.remoteDocuments key
            else .invalidDocument key)
          (by split <;> first | rfl | exact valid.keyed key) (fun patch => by rw [if_pos patch])
        simp [found, same]
      · have same := applyToLocalView_congr always (a := .invalidDocument key)
          (b := if overlay.mutation.isPatch then store.remoteDocuments key
            else .invalidDocument key)
          (by split <;> first | rfl | exact (valid.keyed key).symm) (fun patch => by
            rw [if_pos patch]
            exact (fieldless key (by simpa using found)).symm)
        simp [found, same]
  · have outside : query.isMatchedBy (store.getDocument key) = false := by
      rw [Query.isMatchedBy, key_getDocument valid]
      simp [inside]
    simp [inside, outside, Option.filter_some]

/-- In every state of every run, a query of a collection lists exactly the documents that
match it when they are read one by one, though it goes through the cached documents and
the overlays. -/
theorem getDocumentMatchingCollectionQuery_eq (reachable : (system δ κ α).Reachable store)
    (query : Query δ κ α) (key : δ) :
    store.getDocumentMatchingCollectionQuery query key =
      (some (store.getDocument key)).filter query.isMatchedBy :=
  (reachable_valid reachable).matching_eq (reachable_fieldless reachable) query key

theorem getDocumentMatchingCollectionQuery_eq_updated :
    ∃ store, (system Bool ℕ ℕ).Reaches updated store ∧
      ((store.getDocumentMatchingCollectionQuery ⟨fun key => key, fun _ _ => true⟩ true).bind
        (·.value.read 1)) = some (.scalar 9) := by
  refine ⟨_, rfl, ?_⟩
  have reachable : (system Bool ℕ ℕ).Reachable _ := ⟨updated, rfl⟩
  rw [getDocumentMatchingCollectionQuery_eq reachable]
  rfl

end LocalStore

end QuickNote.Firestore
