import QuickNote.Documents.Client
import QuickNote.Firestore.CollectionQuery

/-!
# Notes that a client lists

A load queries the notes of an account in the local store.  While no step takes the
effect of pending writes away, the query lists the documents of the model.  When
another client deletes a note whose details were changed here meanwhile, it lists what
was changed as a note without title, which the load loop cannot cast.
-/

namespace QuickNote.Documents

open Firestore DocumentStore

/-- `db.collection(…)`, all documents of it. -/
def queryOf (notes : CollectionReference) : Query DocumentReference String FieldValue where
  inCollection key := (notes.idOf key).isSome
  accepts _ _ := true

namespace Client

variable {c c' : Client}

/-- The document that a load lists under an identifier. -/
def listed (c : Client) (notes : CollectionReference) (id : DocumentID) : Option ClientDocument :=
  c.store.getDocumentMatchingCollectionQuery (queryOf notes) (notes.listed id)

theorem Linked.fieldless (linked : c.Linked) : c.store.Fieldless := by
  intro key missing
  obtain ⟨found, read⟩ := linked.remote key
  rw [missing] at found
  have nothing : c.database.server.lookup key = none := by simpa using found.symm
  refine ObjectValue.ext_read fun field => ?_
  rw [read, nothing]
  rfl

/-- A note is listed if it reads as there. -/
theorem Linked.listed_eq (linked : c.Linked) (notes : CollectionReference) (id : DocumentID) :
    c.listed notes id =
      if (c.store.getDocument (notes.listed id)).isFoundDocument = true then
        some (c.store.getDocument (notes.listed id))
      else none := by
  have own : (notes.idOf (notes.listed id)).isSome = true := by rw [idOf_eq_some.mpr rfl]; rfl
  rw [listed, linked.valid.matching_eq linked.fieldless, Option.filter_some, Query.isMatchedBy,
    LocalStore.key_getDocument linked.valid]
  simp [queryOf, own]

/-- What holds while the pending changes of a document are kept. -/
theorem settledAt_of_keepsAt {events : List Event} {key : DocumentReference}
    (keeps : system.EveryStep (KeepsAt key) events) (run : system.Reaches events c) :
    c.Linked ∧ c.store.SettledAt key := by
  have held : system.Always (fun c => c.Linked ∧ c.store.SettledAt key) events :=
    keeps.always ⟨linked_init, settledAt_init⟩ fun c e c' _ h taken kept =>
      ⟨h.1.step taken, h.1.settledAt_step h.2 taken kept⟩
  exact held events c (List.prefix_refl _) run

/-- While pending changes are kept, a load lists the notes that the model has it read,
with their fields, and no others. -/
theorem listed_of_keeps {events : List Event} (keeps : system.EveryStep Keeps events)
    (run : system.Reaches events c) (notes : CollectionReference) (id : DocumentID) :
    Option.Rel (fun doc data => Represents doc (some data)) (c.listed notes id)
      ((c.database.view ()).lookup (notes.listed id)) := by
  have kept : system.EveryStep (KeepsAt (notes.listed id)) events :=
    fun before e c c' pre run taken => keeps before e c c' pre run taken _
  obtain ⟨linked, settled⟩ := settledAt_of_keepsAt kept run
  have shown := (linked.showsAt settled).1
  rw [linked.listed_eq]
  cases read : (c.database.view ()).lookup (notes.listed id) with
  | none =>
    rw [read] at shown
    rw [if_neg (by simp [shown.found])]
    exact .none
  | some data =>
    rw [read] at shown
    have found : (c.store.getDocument (notes.listed id)).isFoundDocument = true := shown.found
    rw [if_pos found]
    exact .some shown

theorem keeps_edited : system.EveryStep Keeps edited := by
  intro before e c c' pre run taken key effective
  have unwritten : c.writes key = [] := by
    obtain ⟨rest, whole⟩ := pre
    have passed : before ∈ edited.inits := (List.mem_inits before edited).mpr
      ⟨e :: rest, by rw [← whole]; simp⟩
    simp only [edited, List.inits, List.mem_cons, List.map_cons, List.map_nil, List.not_mem_nil,
      or_false] at passed
    rcases passed with rfl | rfl | rfl
    · obtain rfl := Option.some.inj run
      rfl
    · obtain rfl := Option.some.inj run
      rfl
    · simp [edited] at whole
  obtain ⟨w, member, _⟩ := effective
  rw [unwritten] at member
  cases member

theorem listed_of_keeps_edited :
    ∃ c, system.Reaches edited c ∧ (c.listed someNotes someNote).isSome = true := by
  have run : system.Reaches edited _ := rfl
  have listed := listed_of_keeps keeps_edited run someNotes someNote
  have same : ∀ {doc : Option ClientDocument} {data : Option DocumentData},
      Option.Rel (fun doc data => Represents doc (some data)) doc data → doc.isSome = data.isSome := by
    rintro _ _ (_ | _) <;> rfl
  exact ⟨_, run, (same listed).trans rfl⟩

/-- The last details that were saved are read. -/
theorem lookup_details {writes : List DatabaseWrite} {key : DocumentReference} {text : String}
    (edits : ∀ w ∈ writes, ∃ old, w = .update key (detailsData old)) {stored : Option DocumentData}
    (there : stored.isSome = true) :
    ((writes ++ [Write.update key (detailsData text)]).foldl
      (fun stored (w : DatabaseWrite) => w.document stored) stored).bind (·.lookup "details") =
        some (.string text) := by
  have kept : (writes.foldl (fun stored w => w.document stored) stored).isSome = true := by
    induction writes generalizing stored with
    | nil => exact there
    | cons w rest ih =>
      obtain ⟨old, rfl⟩ := edits w (by simp)
      refine ih (fun w' member => edits w' (by simp [member])) ?_
      show (stored.map _).isSome = true
      rw [Option.isSome_map, there]
  obtain ⟨data, read⟩ := Option.isSome_iff_exists.mp kept
  rw [List.foldl_append, read]
  show (detailsData text ∪ data).lookup "details" = _
  rw [AList.lookup_union_left (mem_detailsData text)]
  rfl

theorem lookup_detailsData (text field : String) :
    (detailsData text).lookup field = if field = "details" then some (.string text) else none := by
  rw [detailsData, AList.lookup_to_alist]
  by_cases same : field = "details"
  · subst same
    rfl
  · simp [same]

theorem exists_of_requests {writes : List DatabaseWrite} {mutations : List Request}
    (requests : List.Forall₂ Requests writes mutations) {m : Request} (member : m ∈ mutations) :
    ∃ w ∈ writes, Requests w m := by
  induction requests with
  | nil => cases member
  | cons first rest ih =>
    rcases List.mem_cons.mp member with rfl | later
    · exact ⟨_, by simp, first⟩
    · obtain ⟨w, inside, holds⟩ := ih later
      exact ⟨w, by simp [inside], holds⟩

/-- The mutations of edits write the details and no other field. -/
theorem fieldMask_of_edits {writes : List DatabaseWrite} {key : DocumentReference}
    (edits : ∀ w ∈ writes, ∃ text, w = .update key (detailsData text))
    {mutations : List Request} (requests : List.Forall₂ Requests writes mutations) {m : Request}
    (member : m ∈ mutations) : m.precondition = .exist true ∧
      ∃ mask, m.fieldMask = some mask ∧ ∀ path, path ∈ mask ↔ path = ["details"] := by
  obtain ⟨w, inside, holds⟩ := exists_of_requests requests member
  obtain ⟨text, rfl⟩ := edits w inside
  cases holds
  refine ⟨rfl, _, rfl, fun path => ?_⟩
  rw [mem_flatMask_pairs]
  constructor
  · rintro ⟨field, inside, rfl⟩
    have same : field ∈ ["details"] := inside
    rw [List.mem_singleton.mp same]
  · rintro rfl
    exact ⟨"details", mem_detailsData text, rfl⟩

/-- Only edits of the details of a note are pending when its deletion by another client
arrives.  Then it is listed with the details that were read before and nothing else. -/
theorem Linked.deleted (linked : c.Linked) {notes : CollectionReference} {id : DocumentID}
    (settled : c.store.SettledAt (notes.listed id)) {version readTime : SnapshotVersion}
    (stored : (c.database.server.lookup (notes.listed id)).isSome = true)
    (current : c.store.Current (notes.listed id) version readTime)
    (some_pending : c.writes (notes.listed id) ≠ [])
    (edits : ∀ w ∈ c.writes (notes.listed id), ∃ text,
      w = .update (notes.listed id) (detailsData text)) :
    ∃ c', c.step (.received (notes.listed id) none version readTime) = some c' ∧
      (c'.database.view ()).lookup (notes.listed id) = none ∧
      ∃ doc, c'.listed notes id = some doc ∧ doc.isFoundDocument = true ∧
        ∀ field, doc.value.read field = if field = "details" then
          (c.store.getDocument (notes.listed id)).value.read "details" else none := by
  have requests := linked.pending (notes.listed id)
  have masks := fun m member => fieldMask_of_edits edits requests (m := m) member
  obtain ⟨m, rest, whole⟩ : ∃ m rest, c.store.mutationQueue.pending (notes.listed id) = m :: rest := by
    refine List.exists_cons_of_ne_nil fun empty => some_pending ?_
    rw [empty] at requests
    exact List.forall₂_nil_right_iff.mp requests
  obtain ⟨store', applied, replayed, found, reads⟩ := settled.deleted linked.valid
    (linked.plainAt _) (by rw [(linked.remote _).found]; exact stored) current
    (by rw [whole]; exact List.cons_ne_nil m rest) fun m member => by
      obtain ⟨condition, mask, named, _⟩ := masks m member
      exact ⟨by rw [Mutation.isPatch, named]; rfl, condition⟩
  let c' : Client :=
    { database := { c.database with server := c.database.server.erase (notes.listed id) }
      store := store' }
  have taken : c.step (.received (notes.listed id) none version readTime) = some c' := by
    have now : (Event.received (notes.listed id) none version readTime).Current c.store := current
    rw [Client.step, if_pos now]
    exact Option.bind_eq_some_iff.mpr ⟨_, rfl, Option.bind_eq_some_iff.mpr ⟨store', applied, rfl⟩⟩
  have linked' := linked.step taken
  have gone : (c'.database.view ()).lookup (notes.listed id) = none := by
    have shown := (linked'.replayed (notes.listed id)).found
    rw [show c'.store.replayed (notes.listed id) = _ from replayed] at shown
    exact Option.not_isSome_iff_eq_none.mp (by rw [← shown]; exact Bool.false_ne_true)
  refine ⟨c', taken, gone, _, by rw [linked'.listed_eq, if_pos found], found, fun field => ?_⟩
  rw [reads]
  by_cases same : field = "details"
  · subst same
    obtain ⟨_, mask, named, paths⟩ := masks m (by simp [whole])
    rw [if_pos ⟨m, by simp [whole], mask, named, (paths _).mpr rfl⟩, if_pos rfl]
  · rw [if_neg same, if_neg]
    rintro ⟨m, member, mask, named, inside⟩
    obtain ⟨_, mask', named', paths⟩ := masks m member
    obtain rfl : mask' = mask := Option.some.inj (named'.symm.trans named)
    exact same (List.singleton_inj.mp ((paths _).mp inside))

/-- The load loop traps on a document without title. -/
theorem appendNotes_eq_none {notes : CollectionReference} {document : Document}
    (untitled : document.data.lookup "title" = none) {documents : List Document}
    (member : document ∈ documents) (cached : List Note) :
    DataSource.appendNotes notes documents cached = none := by
  by_contra listed
  obtain ⟨result, appended⟩ := Option.ne_none_iff_exists'.mp listed
  obtain ⟨fresh, decoded, _⟩ := appendNotes_eq_some.mp appended
  have trap : Note.ofDocument notes document = none := by
    simp [Note.ofDocument, DocumentData.string, untitled]
  have inside : Note.ofDocument notes document ∈ documents.map (Note.ofDocument notes) :=
    List.mem_map_of_mem member
  rw [decoded, trap] at inside
  simp at inside

/-- Only edits of the details of a note are pending when its deletion by another client
arrives, and they have kept their effect so far.  Then a load lists the last details as
a note of their own, though the model has it list none, and the load loop traps. -/
theorem note_after_deletion {events : List Event} {notes : CollectionReference} {id : DocumentID}
    (keeps : system.EveryStep (KeepsAt (notes.listed id)) events) (run : system.Reaches events c)
    {version readTime : SnapshotVersion} {earlier : List DatabaseWrite} {text : String}
    (stored : (c.database.server.lookup (notes.listed id)).isSome = true)
    (current : c.store.Current (notes.listed id) version readTime)
    (edits : ∀ w ∈ earlier, ∃ old, w = .update (notes.listed id) (detailsData old))
    (pending : c.writes (notes.listed id) =
      earlier ++ [.update (notes.listed id) (detailsData text)]) :
    ∃ c', c.step (.received (notes.listed id) none version readTime) = some c' ∧
      (c'.database.view ()).lookup (notes.listed id) = none ∧
      (∃ doc, c'.listed notes id = some doc ∧ Represents doc (some (detailsData text))) ∧
      ∀ documents cached, ⟨id, detailsData text⟩ ∈ documents →
        DataSource.appendNotes notes documents cached = none := by
  obtain ⟨linked, settled⟩ := settledAt_of_keepsAt keeps run
  obtain ⟨c', taken, gone, doc, listed, found, reads⟩ := linked.deleted settled stored current
    (by rw [pending]; simp) fun w member => by
      rw [pending, List.mem_append, List.mem_singleton] at member
      rcases member with old | rfl
      · exact edits w old
      · exact ⟨text, rfl⟩
  refine ⟨c', taken, gone, ⟨doc, listed, found, fun field => ?_⟩,
    fun documents cached member => appendNotes_eq_none rfl member cached⟩
  show doc.value.read field = ((detailsData text).lookup field).map .scalar
  rw [reads, lookup_detailsData]
  by_cases same : field = "details"
  · rw [if_pos same, if_pos same, (linked.showsAt settled).1.read, Queued.view, lookup_overlay]
    rw [writes] at pending
    rw [pending, lookup_details edits stored]
  · rw [if_neg same, if_neg same]
    rfl

theorem note_after_deletion_edited :
    ∃ c c', system.Reaches edited c ∧
      c.step (.received (someNotes.listed someNote) none 5 6) = some c' ∧
      (c'.listed someNotes someNote).isSome = true ∧
      DataSource.appendNotes someNotes [⟨someNote, detailsData "e"⟩] [] = none := by
  have run : system.Reaches edited _ := rfl
  have keeps : system.EveryStep (KeepsAt (someNotes.listed someNote)) edited :=
    fun before e c c' pre run taken => keeps_edited before e c c' pre run taken _
  have edits : ∀ w ∈ ([] : List DatabaseWrite), ∃ old,
      w = .update (someNotes.listed someNote) (detailsData old) := by
    intro w member
    cases member
  obtain ⟨c', taken, _, ⟨doc, listed, _⟩, traps⟩ :=
    note_after_deletion keeps run rfl (by decide : LocalStore.Current _ _ 5 6) edits rfl
  exact ⟨_, c', run, taken, by rw [listed]; rfl, traps _ _ (by simp)⟩

end Client

end QuickNote.Documents
