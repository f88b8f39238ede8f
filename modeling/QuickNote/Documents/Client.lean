import QuickNote.Documents.Requests
import QuickNote.Firestore.LocalRuns

/-!
# The database as a client sees it

What a client reads is modelled as the database on the server with the client's own
queued writes on top.  Here the local store of the Firestore client goes through the
same events beside that model: the writes of the app, the answers of the server to
them and the documents that it sends.
-/

namespace QuickNote.Documents

open Firestore DocumentStore

abbrev ClientStore := LocalStore DocumentReference String FieldValue

/-- The database with the queue of one client, and that client's local store. -/
structure Client where
  database : Queued Unit DocumentReference String FieldValue
  store : ClientStore

/-- A document as the server sends it. -/
def serverDocument (key : DocumentReference) (stored : Option DocumentData)
    (version : SnapshotVersion) : ClientDocument :=
  match stored with
  | some fields => .foundDocument key version (dictionary fields).toObjectValue
  | none => .noDocument key version

theorem serverDocument_key (key : DocumentReference) (stored : Option DocumentData)
    (version : SnapshotVersion) : (serverDocument key stored version).key = key := by
  cases stored <;> rfl

theorem serverDocument_version (key : DocumentReference) (stored : Option DocumentData)
    (version : SnapshotVersion) : (serverDocument key stored version).version = version := by
  cases stored <;> rfl

theorem serverDocument_synced (key : DocumentReference) (stored : Option DocumentData)
    (version : SnapshotVersion) : (serverDocument key stored version).documentState = .synced := by
  cases stored <;> rfl

theorem fieldless_serverDocument (key : DocumentReference) (stored : Option DocumentData)
    (version : SnapshotVersion) : (serverDocument key stored version).Fieldless := by
  intro missing
  cases stored with
  | none => rfl
  | some fields => cases missing

def serverUpdates (key : DocumentReference) (stored : Option DocumentData)
    (version : SnapshotVersion) : DocumentUpdates DocumentReference String FieldValue :=
  .single (serverDocument key stored version) (serverDocument_synced key stored version)
    (fieldless_serverDocument key stored version)

namespace Client

inductive Event where
  | write (w : DatabaseWrite) (topLevel : TopLevel w)
  /-- The server has the oldest pending write. -/
  | answered (version : SnapshotVersion)
  | refused
  /-- Another client has changed a document; the snapshot with it is of the read time. -/
  | received (key : DocumentReference) (stored : Option DocumentData)
      (version readTime : SnapshotVersion)

/-- The call of the local store; none when the client throws or nothing is pending. -/
def Event.call (store : ClientStore) :
    Event → Option (LocalStore.Event DocumentReference String FieldValue)
  | .write w _ => (request w).map fun m => .writeLocally [m]
  | .answered version =>
      store.mutationQueue.allMutationBatches.head?.map fun batch =>
        .acknowledgeBatch batch.batchId [version]
  | .refused =>
      store.mutationQueue.allMutationBatches.head?.map fun batch => .rejectBatch batch.batchId
  | .received key stored version readTime =>
      some (.applyRemoteEvent (serverUpdates key stored version) readTime)

/-- The event in the model. -/
def Event.change (database : Queued Unit DocumentReference String FieldValue) :
    Event → Option (Queued Unit DocumentReference String FieldValue)
  | .write w _ => some (database.issue () w)
  | .answered _ => database.applyHead ()
  | .refused => database.refuseHead ()
  | .received key stored _ _ =>
      some { database with
        server := match stored with
          | some fields => database.server.insert key fields
          | none => database.server.erase key }

/-- The versions that the server gives to a document increase, and snapshots come in
order. -/
def Event.Current (store : ClientStore) : Event → Prop
  | .answered version =>
      ∀ batch ∈ store.mutationQueue.allMutationBatches.head?, ∀ key ∈ batch.keys,
        (store.remoteDocuments key).version < version
  | .received key _ version readTime => store.Current key version readTime
  | .write _ _ | .refused => True

instance (store : ClientStore) : (e : Event) → Decidable (e.Current store)
  | .answered version =>
      inferInstanceAs (Decidable (∀ batch ∈ store.mutationQueue.allMutationBatches.head?,
        ∀ key ∈ batch.keys, (store.remoteDocuments key).version < version))
  | .received key _ version readTime =>
      inferInstanceAs (Decidable (store.Current key version readTime))
  | .write _ _ | .refused => inferInstanceAs (Decidable True)

def step (c : Client) (e : Event) : Option Client :=
  if e.Current c.store then do
    let call ← e.call c.store
    let store ← c.store.step call
    let database ← e.change c.database
    some { database, store }
  else none

/-- Nothing is stored and nothing is known. -/
def system : EventSystem Client Event where
  init := { database := { server := ∅, pending := fun _ => [] }, store := .empty }
  step := step

/-- The pending writes of a document. -/
def writes (c : Client) (key : DocumentReference) : List DatabaseWrite :=
  (c.database.pending ()).filter (·.key = key)

/-- The copies of the server's documents and the queue are those of the model. -/
structure Linked (c : Client) : Prop where
  valid : c.store.Valid
  remote : ∀ key, Represents (c.store.remoteDocuments key) (c.database.server.lookup key)
  queued : List.Forall₂ (fun write batch => ∃ m, batch.mutations = [m] ∧ Requests write m)
    (c.database.pending ()) c.store.mutationQueue.allMutationBatches

theorem linked_init : system.init.Linked :=
  ⟨LocalStore.Valid.empty, fun _ => ⟨rfl, fun _ => rfl⟩, .nil⟩

variable {c c' : Client}

theorem Linked.pending (linked : c.Linked) (key : DocumentReference) :
    List.Forall₂ Requests (c.writes key) (c.store.mutationQueue.pending key) := by
  have queued := linked.queued
  rw [writes, MutationQueue.pending]
  generalize c.database.pending () = writes, c.store.mutationQueue.allMutationBatches = batches
    at queued
  induction queued with
  | nil => exact .nil
  | @cons write batch writes batches first rest ih =>
    obtain ⟨m, mutations, requests⟩ := first
    rw [List.flatMap_cons, MutationBatch.mutationsOf, mutations]
    by_cases own : write.key = key
    · rw [List.filter_cons_of_pos (by simpa using own),
        List.filter_cons_of_pos (by simpa [requests.key] using own)]
      exact .cons requests ih
    · rw [List.filter_cons_of_neg (by simpa using own),
        List.filter_cons_of_neg (by simpa [requests.key] using own)]
      exact ih

theorem Linked.plainAt (linked : c.Linked) (key : DocumentReference) : c.store.PlainAt key :=
  plain_of_requests (linked.pending key)

/-- Replaying the queue gives what the model has the client read. -/
theorem Linked.replayed (linked : c.Linked) (key : DocumentReference) :
    Represents (c.store.replayed key) ((c.database.view ()).lookup key) := by
  rw [LocalStore.replayed_eq linked.valid, Queued.view, lookup_overlay]
  exact (linked.remote key).replay (linked.pending key) _

theorem Linked.hasLocalMutations_iff (linked : c.Linked) (key : DocumentReference) :
    (c.store.replayed key).hasLocalMutations = true ↔
      Effective (c.writes key) (c.database.server.lookup key) := by
  rw [LocalStore.replayed_eq linked.valid]
  exact (linked.remote key).hasLocalMutations_replay_iff (linked.valid.remote key)
    (linked.pending key) _

theorem step_eq_some {e : Event} (taken : c.step e = some c') :
    e.Current c.store ∧ ∃ call, e.call c.store = some call ∧
      c.store.step call = some c'.store ∧ e.change c.database = some c'.database := by
  rw [step] at taken
  by_cases current : e.Current c.store
  · rw [if_pos current] at taken
    obtain ⟨call, called, taken⟩ := Option.bind_eq_some_iff.mp taken
    obtain ⟨store, stepped, taken⟩ := Option.bind_eq_some_iff.mp taken
    obtain ⟨database, changed, same⟩ := Option.bind_eq_some_iff.mp taken
    obtain rfl := Option.some.inj same
    exact ⟨current, call, called, stepped, changed⟩
  · rw [if_neg current] at taken
    cases taken

/-- What is received takes the place of the document that it is about. -/
theorem Event.change_received {database changed : Queued Unit DocumentReference String FieldValue}
    {key : DocumentReference} {stored : Option DocumentData} {version readTime : SnapshotVersion}
    (received : (Event.received key stored version readTime).change database = some changed) :
    changed.pending = database.pending ∧ ∀ other, changed.server.lookup other =
      if other = key then stored else database.server.lookup other := by
  obtain rfl := Option.some.inj received
  refine ⟨rfl, fun other => ?_⟩
  by_cases own : other = key
  · subst own
    cases stored with
    | none => simp
    | some fields => simp
  · cases stored with
    | none => simp [AList.lookup_erase_ne own, own]
    | some fields => simp [AList.lookup_insert_ne own, own]

theorem represents_serverDocument (key : DocumentReference) (stored : Option DocumentData)
    (version : SnapshotVersion) : Represents (serverDocument key stored version) stored := by
  cases stored with
  | none => exact ⟨rfl, fun _ => rfl⟩
  | some fields => exact ⟨rfl, read_dictionary fields⟩

/-- The oldest write of the model and the oldest batch. -/
theorem Linked.oldest (linked : c.Linked) {batch : MutationBatch DocumentReference String FieldValue}
    (first : c.store.mutationQueue.allMutationBatches.head? = some batch) :
    ∃ w rest batches m, c.database.pending () = w :: rest ∧
      c.store.mutationQueue.allMutationBatches = batch :: batches ∧ batch.mutations = [m] ∧
      Requests w m ∧
      List.Forall₂ (fun write batch => ∃ m, batch.mutations = [m] ∧ Requests write m) rest batches := by
  have queued := linked.queued
  cases whole : c.store.mutationQueue.allMutationBatches with
  | nil => simp [whole] at first
  | cons other batches =>
    rw [whole, List.head?_cons, Option.some.injEq] at first
    subst first
    rw [whole] at queued
    obtain ⟨w, rest, ⟨m, mutations, requests⟩, others, pending⟩ :=
      List.forall₂_cons_right_iff.mp queued
    exact ⟨w, rest, batches, m, pending, rfl, mutations, requests, others⟩

/-- The oldest write leaves the queue of the model and its batch that of the store. -/
theorem Linked.oldest_left (linked : c.Linked)
    {batch : MutationBatch DocumentReference String FieldValue}
    (first : c.store.mutationQueue.allMutationBatches.head? = some batch)
    {queue : MutationQueue DocumentReference String FieldValue}
    (removed : c.store.mutationQueue.removeMutationBatch batch = some queue) {w : DatabaseWrite}
    {database : Queued Unit DocumentReference String FieldValue}
    (left : Queued.HeadLeft c.database () w database) :
    (∃ m, batch.mutations = [m] ∧ Requests w m) ∧
      List.Forall₂ (fun write batch => ∃ m, batch.mutations = [m] ∧ Requests write m)
        (database.pending ()) queue.allMutationBatches := by
  obtain ⟨oldest, rest, batches, m, pending, whole, mutations, requests, others⟩ :=
    linked.oldest first
  have found := linked.valid.queue.lookup_oldest first
  have head := left.queue
  rw [pending, List.cons.injEq] at head
  obtain ⟨rfl, rfl⟩ := head
  rw [(LocalStore.Removed.of_remove linked.valid.queue found removed).2.of_oldest
    linked.valid.queue whole]
  exact ⟨⟨m, mutations, requests⟩, others⟩

theorem Linked.step (linked : c.Linked) {e : Event} (taken : c.step e = some c') : c'.Linked := by
  obtain ⟨current, call, called, stepped, changed⟩ := step_eq_some taken
  have valid : c'.store.Valid := (LocalStore.step_spec linked.valid stepped).1
  cases e with
  | write w topLevel =>
    obtain ⟨m, made, rfl⟩ := Option.map_eq_some_iff.mp called
    obtain ⟨⟨_, views⟩, written, rfl⟩ := Option.map_eq_some_iff.mp stepped
    obtain ⟨added, documents⟩ := LocalStore.caches_writeLocally written
    obtain ⟨⟨queue, batch⟩, added, same⟩ := Option.map_eq_some_iff.mp added
    obtain ⟨_, mutations, _, _⟩ := linked.valid.queue.add added
    have issued : c.database.issue () w = c'.database := Option.some.inj changed
    refine ⟨valid, fun key => ?_, ?_⟩
    · rw [documents, ← issued]
      exact linked.remote key
    · have batches : c'.store.mutationQueue.allMutationBatches =
          c.store.mutationQueue.allMutationBatches ++ [batch] :=
        same ▸ linked.valid.queue.batches_add added
      have pending : c'.database.pending () = c.database.pending () ++ [w] := by
        rw [← issued]
        simp [Queued.issue]
      rw [batches, pending]
      exact List.rel_append linked.queued
        (.cons ⟨m, mutations, requests_of_request topLevel made⟩ .nil)
  | answered version =>
    obtain ⟨batch, first, rfl⟩ := Option.map_eq_some_iff.mp called
    obtain ⟨stored, found, acknowledged⟩ := Option.bind_eq_some_iff.mp stepped
    obtain ⟨removed, documents⟩ := LocalStore.caches_acknowledgeBatch acknowledged
    obtain ⟨w, left, server⟩ := Queued.applyHead_eq_some changed
    obtain rfl : batch = stored :=
      Option.some.inj ((linked.valid.queue.lookup_oldest first).symm.trans found)
    obtain ⟨⟨m, mutations, requests⟩, queued⟩ := linked.oldest_left first removed left
    refine ⟨valid, fun key => ?_, queued⟩
    rw [documents, server, Write.lookup_apply]
    have keys : batch.keys = [m.key] := by simp [MutationBatch.keys, mutations]
    by_cases own : key = w.key
    · subst own
      have version_later : (c.store.remoteDocuments w.key).version < version :=
        current batch first w.key (by rw [keys, requests.key]; simp)
      have own : m.key = (c.store.remoteDocuments w.key).key := by
        rw [linked.valid.keyed, requests.key]
      have acknowledged := LocalStore.acknowledgedDocument_single mutations own version_later
      rw [linked.valid.keyed] at acknowledged
      rw [if_pos rfl]
      show Represents (LocalStore.acknowledgedDocument batch [version] w.key
        (c.store.remoteDocuments w.key)) _
      rw [acknowledged]
      exact (linked.remote w.key).applyToRemoteDocument requests version
    · rw [if_neg own]
      have untouched : key ∉ batch.keys := by
        rw [keys, requests.key]
        simpa using own
      have kept : LocalStore.acknowledgedDocument batch [version] key
          (c.store.remoteDocuments key) = c.store.remoteDocuments key :=
        if_neg fun both => untouched both.1
      simp only [kept]
      exact linked.remote key
  | refused =>
    obtain ⟨batch, first, rfl⟩ := Option.map_eq_some_iff.mp called
    obtain ⟨removed, documents⟩ := LocalStore.caches_rejectBatch stepped
    obtain ⟨w, left, server⟩ := Queued.refuseHead_eq_some changed
    rw [linked.valid.queue.lookup_oldest first, Option.bind_some] at removed
    obtain ⟨_, queued⟩ := linked.oldest_left first removed left
    refine ⟨valid, fun key => ?_, queued⟩
    rw [documents, server]
    exact linked.remote key
  | received key stored version readTime =>
    obtain rfl := Option.some.inj called
    have remote : (serverDocument key stored version).hasLocalMutations = false := by
      cases stored <;> rfl
    have current' : c.store.Current (serverDocument key stored version).key
        (serverDocument key stored version).version readTime := by
      rw [serverDocument_key, serverDocument_version]
      exact current
    obtain ⟨next, applied, documents⟩ :=
      LocalStore.applyRemoteEvent_current linked.valid remote current'
    obtain rfl : next = c'.store := Option.some.inj (applied.symm.trans stepped)
    rw [serverDocument_key] at documents
    obtain ⟨queue, _⟩ := LocalStore.applyRemoteEvent_spec linked.valid
      (serverUpdates key stored version).nodup (serverUpdates key stored version).remote stepped
    obtain ⟨pending, server⟩ := Event.change_received changed
    refine ⟨valid, fun other => ?_, ?_⟩
    · rw [documents, server]
      by_cases own : other = key
      · subst own
        rw [Function.update_self, if_pos rfl]
        exact represents_serverDocument _ _ _
      · rw [Function.update_of_ne own, if_neg own]
        exact linked.remote other
    · rw [queue, pending]
      exact linked.queued

theorem reachable_linked (reachable : system.Reachable c) : c.Linked :=
  reachable.invariant linked_init fun _ _ _ linked taken => linked.step taken

/-- What the app and the server see to. -/
def Event.Admissible (c : Client) : Event → Prop
  | .write w _ => ∀ name ∈ names w, validatePathSegment name = true
  | .answered _ | .refused => c.database.pending () ≠ []
  | .received _ _ _ _ => True

theorem Linked.exists_oldest (linked : c.Linked) :
    (∃ batch, c.store.mutationQueue.allMutationBatches.head? = some batch) ↔
      c.database.pending () ≠ [] := by
  have same := linked.queued.length_eq
  cases whole : c.store.mutationQueue.allMutationBatches with
  | nil =>
    rw [whole, List.length_nil, List.length_eq_zero_iff] at same
    simp [same]
  | cons batch batches =>
    refine iff_of_true ⟨batch, rfl⟩ fun empty => ?_
    rw [whole, empty] at same
    simp at same

/-- In every state of every run, the client neither throws nor fails an assertion if the
names that the app writes are allowed and the server answers pending writes only. -/
theorem step_isSome_iff_admissible (reachable : system.Reachable c) (e : Event) :
    (c.step e).isSome = true ↔ e.Current c.store ∧ e.Admissible c := by
  have linked := reachable_linked reachable
  rw [step]
  by_cases current : e.Current c.store
  · rw [if_pos current, and_iff_right current, Option.isSome_iff_exists]
    have proceeds : ∀ {call : LocalStore.Event DocumentReference String FieldValue}
        (called : e.call c.store = some call), call.Admissible c.store →
        (∃ database, e.change c.database = some database) →
          ∃ c', (do
            let call ← e.call c.store
            let store ← c.store.step call
            let database ← e.change c.database
            some ({ database, store } : Client)) = some c' := by
      rintro call called admissible ⟨database, changed⟩
      obtain ⟨store, stepped⟩ := Option.isSome_iff_exists.mp
        ((linked.valid.isSome_step_iff call).mpr admissible)
      exact ⟨⟨database, store⟩, by simp [called, changed, show c.store.step call = _ from stepped]⟩
    cases e with
    | write w topLevel =>
      have spec := request_spec topLevel
      by_cases allowed : ∀ name ∈ names w, validatePathSegment name = true
      · rw [if_pos allowed] at spec
        obtain ⟨m, made, _⟩ := spec
        have called : Event.call c.store (.write w topLevel) = some (.writeLocally [m]) := by
          rw [Event.call, made]
          rfl
        exact iff_of_true (proceeds called (List.cons_ne_nil m []) ⟨_, rfl⟩) allowed
      · rw [if_neg allowed] at spec
        refine iff_of_false ?_ allowed
        rintro ⟨c', taken⟩
        simp [Event.call, spec] at taken
    | answered version =>
      rw [Event.Admissible, ← linked.exists_oldest]
      constructor
      · rintro ⟨c', taken⟩
        obtain ⟨call, called, _⟩ := Option.bind_eq_some_iff.mp taken
        obtain ⟨batch, first, _⟩ := Option.map_eq_some_iff.mp called
        exact ⟨batch, first⟩
      · rintro ⟨batch, first⟩
        obtain ⟨w, rest, _, m, pending, _, mutations, _⟩ := linked.oldest first
        have called : Event.call c.store (.answered version) =
            some (.acknowledgeBatch batch.batchId [version]) := by
          rw [Event.call, first]
          rfl
        have changed : (Event.change c.database (.answered version)).isSome = true := by
          rw [Event.change, Queued.applyHead, pending]
          rfl
        exact proceeds called ⟨batch, linked.valid.queue.lookup_oldest first, by rw [mutations]; rfl⟩
          (Option.isSome_iff_exists.mp changed)
    | refused =>
      rw [Event.Admissible, ← linked.exists_oldest]
      constructor
      · rintro ⟨c', taken⟩
        obtain ⟨call, called, _⟩ := Option.bind_eq_some_iff.mp taken
        obtain ⟨batch, first, _⟩ := Option.map_eq_some_iff.mp called
        exact ⟨batch, first⟩
      · rintro ⟨batch, first⟩
        obtain ⟨w, rest, _, m, pending, _⟩ := linked.oldest first
        have called : Event.call c.store .refused = some (.rejectBatch batch.batchId) := by
          rw [Event.call, first]
          rfl
        have changed : (Event.change c.database .refused).isSome = true := by
          rw [Event.change, Queued.refuseHead, pending]
          rfl
        exact proceeds called ⟨batch, linked.valid.queue.lookup_oldest first⟩
          (Option.isSome_iff_exists.mp changed)
    | received key stored version readTime =>
      obtain ⟨_, _, timed, later⟩ := current
      exact iff_of_true (proceeds rfl ⟨fun _ _ _ => timed.ne', Or.inr later⟩ ⟨_, rfl⟩) trivial
  · rw [if_neg current]
    exact iff_of_false (by simp) fun both => current both.1

def someNotes : CollectionReference := ⟨["users", "a@b", "Notes"], rfl⟩

def someNote : DocumentID := ⟨"list", by decide, by decide⟩

/-- A note is received and its details are changed. -/
def edited : List Event :=
  [.received (someNotes.listed someNote) (some (noteData "t" "d" "")) 3 4,
    .write (.update (someNotes.listed someNote) (detailsData "e"))
      (topLevel_details _ "e")]

theorem step_isSome_iff_admissible_edited :
    ∃ c, system.Reaches edited c ∧ (c.step (.answered 5)).isSome = true := by
  have run : system.Reaches edited _ := rfl
  refine ⟨_, run, (step_isSome_iff_admissible ⟨edited, run⟩ (.answered 5)).mpr ⟨?_, ?_⟩⟩
  · decide
  · exact List.cons_ne_nil _ []

/-- Pending writes that change the document still do so after the step, unless the last
of them has left the queue. -/
def KeepsAt (key : DocumentReference) (c : Client) (_ : Event) (c' : Client) : Prop :=
  Effective (c.writes key) (c.database.server.lookup key) →
    Effective (c'.writes key) (c'.database.server.lookup key) ∨ c'.writes key = []

def Keeps (c : Client) (e : Event) (c' : Client) : Prop := ∀ key, KeepsAt key c e c'

/-- Nothing is pending for a document that no batch changes. -/
theorem filter_eq_nil_iff_of_queued {writes : List DatabaseWrite}
    {batches : List (MutationBatch DocumentReference String FieldValue)}
    (queued : List.Forall₂ (fun write batch => ∃ m, batch.mutations = [m] ∧ Requests write m)
      writes batches) (key : DocumentReference) :
    writes.filter (·.key = key) = [] ↔ ∀ batch ∈ batches, key ∉ batch.keys := by
  induction queued with
  | nil => simp
  | @cons write batch writes batches first rest ih =>
    obtain ⟨m, mutations, requests⟩ := first
    have own : key ∈ batch.keys ↔ write.key = key := by
      simp [MutationBatch.keys, mutations, requests.key, eq_comm]
    rw [List.forall_mem_cons, own, ← ih]
    by_cases same : write.key = key
    · rw [List.filter_cons_of_pos (by simpa using same)]
      simp [same]
    · rw [List.filter_cons_of_neg (by simpa using same)]
      simp [same]

/-- The oldest batch is the newest of a document if it is the only one. -/
theorem Linked.isNewest_iff (linked : c.Linked)
    {batch : MutationBatch DocumentReference String FieldValue}
    (first : c.store.mutationQueue.allMutationBatches.head? = some batch) {w : DatabaseWrite}
    (left : c.database.HeadLeft () w c'.database) (key : DocumentReference) :
    MutationBatch.IsNewest c.store.mutationQueue.allMutationBatches key batch.batchId ↔
      c.writes key ≠ [] ∧ c'.writes key = [] := by
  obtain ⟨_, rest, batches, m, pending, whole, mutations, requests, others⟩ := linked.oldest first
  have head := left.queue
  rw [pending, List.cons.injEq] at head
  have ids := linked.valid.queue.ids_ascending
  rw [whole, List.map_cons, List.pairwise_cons] at ids
  have before := filter_eq_nil_iff_of_queued linked.queued key
  have after := filter_eq_nil_iff_of_queued others key
  rw [writes, writes, ← head.2, ne_eq, before, after, whole, List.forall_mem_cons]
  constructor
  · rintro ⟨⟨other, member, id, touches⟩, above⟩
    have later : ∀ other ∈ batches, key ∉ other.keys := fun other member touches => by
      have below := above other (List.mem_cons_of_mem _ member) touches
      exact absurd (ids.1 _ (List.mem_map_of_mem member)) below.not_gt
    refine ⟨fun none_touches => ?_, later⟩
    rcases List.mem_cons.mp member with rfl | deeper
    · exact none_touches.1 touches
    · exact later other deeper touches
  · rintro ⟨some_touches, later⟩
    have touches : key ∈ batch.keys := by
      by_contra untouched
      exact some_touches ⟨untouched, later⟩
    refine ⟨⟨batch, by simp, rfl, touches⟩, fun other member touched => ?_⟩
    rcases List.mem_cons.mp member with rfl | deeper
    · exact le_refl _
    · exact absurd touched (later other deeper)

theorem Linked.removesNewest_iff (linked : c.Linked) {e : Event} (taken : c.step e = some c')
    {call : LocalStore.Event DocumentReference String FieldValue}
    (called : e.call c.store = some call) (key : DocumentReference) :
    call.RemovesNewest c.store key ↔ c.writes key ≠ [] ∧ c'.writes key = [] := by
  obtain ⟨_, _, _, _, changed⟩ := step_eq_some taken
  cases e with
  | write w topLevel =>
    obtain ⟨m, _, rfl⟩ := Option.map_eq_some_iff.mp called
    have issued : c.database.issue () w = c'.database := Option.some.inj changed
    have pending : c'.database.pending () = c.database.pending () ++ [w] := by
      rw [← issued]
      simp [Queued.issue]
    refine iff_of_false (fun removes => ?_) fun both => both.1 ?_
    · simp [LocalStore.Event.RemovesNewest, LocalStore.Event.removes] at removes
    · have none_after := both.2
      rw [writes, pending, List.filter_append, List.append_eq_nil_iff] at none_after
      exact none_after.1
  | answered version =>
    obtain ⟨batch, first, rfl⟩ := Option.map_eq_some_iff.mp called
    obtain ⟨w, left, _⟩ := Queued.applyHead_eq_some changed
    rw [← linked.isNewest_iff first left key]
    simp [LocalStore.Event.RemovesNewest, LocalStore.Event.removes]
  | refused =>
    obtain ⟨batch, first, rfl⟩ := Option.map_eq_some_iff.mp called
    obtain ⟨w, left, _⟩ := Queued.refuseHead_eq_some changed
    rw [← linked.isNewest_iff first left key]
    simp [LocalStore.Event.RemovesNewest, LocalStore.Event.removes]
  | received other stored version readTime =>
    obtain rfl := Option.some.inj called
    have same : c'.writes key = c.writes key := by
      rw [writes, ← Option.some.inj changed]
      rfl
    refine iff_of_false (fun removes => ?_) fun both => both.1 (same ▸ both.2)
    simp [LocalStore.Event.RemovesNewest, LocalStore.Event.removes] at removes

/-- The step keeps pending changes in the model as it does in the store. -/
theorem Linked.keepsAt_iff (linked : c.Linked) {e : Event} (taken : c.step e = some c')
    {call : LocalStore.Event DocumentReference String FieldValue}
    (called : e.call c.store = some call) (key : DocumentReference) :
    LocalStore.KeepsAt key c.store call c'.store ↔ KeepsAt key c e c' := by
  rw [LocalStore.KeepsAt, linked.hasLocalMutations_iff,
    (linked.step taken).hasLocalMutations_iff, linked.removesNewest_iff taken called]
  refine imp_congr_right fun effective => or_congr_right (and_iff_right ?_)
  obtain ⟨w, member, _⟩ := effective
  exact List.ne_nil_of_mem member

/-- What the app reads of the document by the local store is what the model has it read,
and the document is said to have pending writes if one of them changes it. -/
def ShowsAt (c : Client) (key : DocumentReference) : Prop :=
  Represents (c.store.getDocument key) ((c.database.view ()).lookup key) ∧
    ((c.store.getDocument key).hasLocalMutations = true ↔
      Effective (c.writes key) (c.database.server.lookup key))

def Shows (c : Client) : Prop := ∀ key, c.ShowsAt key

variable {key : DocumentReference}

theorem Linked.showsAt (linked : c.Linked) (settled : c.store.SettledAt key) : c.ShowsAt key := by
  have read : c.store.getDocument key = c.store.replayed key :=
    settled.agreeAt linked.valid (linked.plainAt key)
  rw [ShowsAt, read]
  exact ⟨linked.replayed key, linked.hasLocalMutations_iff key⟩

/-- A step that keeps pending changes of a document leaves its overlay right. -/
theorem Linked.settledAt_step (linked : c.Linked) (settled : c.store.SettledAt key) {e : Event}
    (taken : c.step e = some c') (keeps : KeepsAt key c e c') : c'.store.SettledAt key := by
  obtain ⟨_, call, called, stepped, _⟩ := step_eq_some taken
  exact settled.step linked.valid stepped ((linked.step taken).plainAt key)
    ((linked.keepsAt_iff taken called key).mpr keeps)

/-- A step that does not is seen in the document. -/
theorem Linked.keepsAt_of_showsAt (linked : c.Linked) (settled : c.store.SettledAt key) {e : Event}
    (taken : c.step e = some c') (shown : c'.ShowsAt key) : KeepsAt key c e c' := by
  obtain ⟨_, call, called, stepped, _⟩ := step_eq_some taken
  have linked' := linked.step taken
  refine (linked.keepsAt_iff taken called key).mp
    (LocalStore.keepsAt_of_marked linked.valid settled stepped (linked'.plainAt key) ?_)
  exact fun marked => (linked'.hasLocalMutations_iff key).mpr (shown.2.mp marked)

theorem settledAt_init : system.init.store.SettledAt key := LocalStore.SettledAt.empty

/-- Along every run, in every state, the local store shows the app the documents of the
model, exactly if no step takes the effect of a document's pending writes away while
some stay pending. -/
theorem always_shows_iff (events : List Event) :
    system.Always Shows events ↔ system.EveryStep Keeps events := by
  refine EventSystem.always_iff_everyStep (M := system)
    (J := fun c => c.Linked ∧ ∀ key, c.store.SettledAt key)
    (fun key => linked_init.showsAt settledAt_init)
    ⟨linked_init, fun key => settledAt_init⟩ ?_ ?_ events
  · intro c e c' _ h taken _ shown
    exact ⟨h.1.step taken, fun key => h.1.settledAt_step (h.2 key) taken
      (h.1.keepsAt_of_showsAt (h.2 key) taken (shown key))⟩
  · intro c e c' _ _ h taken
    exact ⟨fun shown key => h.1.keepsAt_of_showsAt (h.2 key) taken (shown key),
      fun keeps key => (h.1.step taken).showsAt (h.1.settledAt_step (h.2 key) taken (keeps key))⟩

end Client

end QuickNote.Documents
