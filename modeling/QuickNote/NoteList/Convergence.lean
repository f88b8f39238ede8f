import QuickNote.AddNote.Source
import QuickNote.NoteList.Accounts

/-!
# Where the list ends up

One signed-in client and its database: writes are queued and reach the server
later in their order, a load's result is what the client reads at some moment of
the load's life, and the completion of an Add runs after its write has reached the
server.  Every operation ends in a load that sees its write, so at rest the last
load has seen everything; the list shows that result together with every other
delivered since the last call, and agrees with the database exactly when the
others were empty.

`Client.issued` and `Client.applied` number the writes.
-/

namespace QuickNote.NoteList

open Firestore DocumentStore

structure Client where
  list : State
  database : Queued Unit DocumentReference String FieldValue
  issued : Nat := 0
  applied : Nat := 0
  /-- The writes of Add presses whose completion has not run. -/
  saving : List Nat := []
  /-- What the loads have read, by load. -/
  results : List (Nat × List Document) := []

inductive ClientEvent where
  /-- What the list and detail screens do, other than completions. -/
  | list (event : Event)
  /-- Add is pressed in a sheet that holds the given draft. -/
  | addButtonPressed (sheet : AddNoteViewController) (uuid : DocumentID)
  | writeApplied
  | addSaveCompleted (write : Nat)
  | resultTaken (load : Nat) (documents : List Document)
  | resultDelivered (load : Nat)

/-- The events of the list and detail screens that are not completions and leave
the account signed in. -/
def Event.isLocal : Event → Bool
  | .sessionChanged _ | .addSaveCompleted | .getDocumentsCompleted _ _ => false
  | _ => true

namespace Client

/-- The documents that the client reads in a collection. -/
def documents (c : Client) (notes : CollectionReference) : List Document :=
  documentsOf notes (c.database.view ())

/-- A screen's event; the writes that it issues are queued. -/
def listEvent (c : Client) (e : Event) : Option Client := do
  if e.isLocal then
    let after ← NoteList.step c.list e
    let writes := (after.detailWrites.drop c.list.detailWrites.length).map DetailWrite.write
    return { c with
      list := after
      database := writes.foldl (fun database write => database.issue () write) c.database
      issued := c.issued + writes.length }
  else none

def addButtonPressed (c : Client) (sheet : AddNoteViewController) (uuid : DocumentID) :
    Option Client := do
  match ← sheet.addButtonPressed c.list.currentUser uuid with
  | none => some c
  | some write =>
    some { c with
      database := c.database.issue () write
      issued := c.issued + 1
      saving := c.saving ++ [c.issued] }

/-- The success branch of the completion of `setData`. -/
def addSaveCompleted (c : Client) (k : Nat) : Option Client := do
  if k ∈ c.saving ∧ k < c.applied then
    let after ← NoteList.step c.list .addSaveCompleted
    return { c with list := after, saving := c.saving.erase k }
  else none

def resultTaken (c : Client) (id : Nat) (documents : List Document) : Option Client := do
  let load ← c.list.loads.find? (·.id = id)
  if c.results.lookup id = none ∧ documents.Perm (c.documents load.collection) then
    some { c with results := c.results ++ [(id, documents)] }
  else none

def resultDelivered (c : Client) (id : Nat) : Option Client := do
  let documents ← c.results.lookup id
  let after ← NoteList.step c.list (.getDocumentsCompleted id ⟨some documents, none⟩)
  return { c with list := after }

/-- Nothing is pending any more. -/
def AtRest (c : Client) : Prop :=
  c.database.pending () = [] ∧ c.saving = [] ∧ c.list.loads = []

end Client

def clientStep (c : Client) : ClientEvent → Option Client
  | .list e => c.listEvent e
  | .addButtonPressed sheet uuid => c.addButtonPressed sheet uuid
  | .writeApplied => do
      let database ← c.database.applyHead ()
      return { c with database := database, applied := c.applied + 1 }
  | .addSaveCompleted k => c.addSaveCompleted k
  | .resultTaken id documents => c.resultTaken id documents
  | .resultDelivered id => c.resultDelivered id

/-- The client of an account over what the server holds. -/
def clientSystem (user : String) (server : Database) : EventSystem Client ClientEvent where
  init := { list := (system (some user)).init, database := ⟨server, fun _ => []⟩ }
  step := clientStep

/-- At rest every list screen shows the documents of the account's notes, each once
and as they are now. -/
def Converged (user : String) (c : Client) : Prop :=
  c.AtRest → ∀ notes ∈ collection (notesPath user), ∀ home ∈ c.list.homes,
    (home.controller.notes.map some).Perm ((c.documents notes).map (Note.ofDocument notes))

/-- At rest, with a list screen, every result delivered since the last call of
`loadNoteDataFromFirebase` is empty, but for that of the last load. -/
def LastResultAlone (c : Client) : Prop :=
  c.AtRest → c.list.homes ≠ [] → ∀ delivery ∈ c.list.delivered,
    delivery.load.id + 1 ≠ c.list.issued → delivery.documents = []

instance (user : String) : DecidablePred (Converged user) := by
  intro c
  unfold Converged Client.AtRest
  infer_instance

/-! ## Loads and deliveries of one account -/

/-- The loads on their way and those delivered since the last call. -/
def State.asked (s : State) : List Load := s.loads ++ s.delivered.map Delivery.load

/-- With one account signed in, loads are numbered in the order of their calls,
they are all for its notes, and the last one is on its way or has been delivered
since the last call. -/
structure LoadsOrdered (user : String) (s : State) : Prop where
  signedIn : s.currentUser = some user
  collections : ∀ load ∈ s.asked, collection (notesPath user) = some load.collection
  distinct : (s.asked.map Load.id).Nodup
  bounded : ∀ load ∈ s.asked, load.id < s.issued
  last : s.issued ≠ 0 → ∃ load ∈ s.asked, load.id + 1 = s.issued
  homes : s.homes ≠ [] → s.issued ≠ 0

theorem loadsOrdered_called {user : String} {s t : State} {e : Event}
    (ordered : LoadsOrdered user s) (called : Called s e t) :
    LoadsOrdered user t ∧ t.issued = s.issued + 1 := by
  obtain ⟨notes, parsed, loads, issued⟩ := called.requested user ordered.signedIn
  have asked : t.asked = s.loads ++ [⟨s.issued, notes⟩] := by
    rw [State.asked, called.delivered, loads, List.map_nil, List.append_nil]
  have old : ∀ load ∈ s.loads, load ∈ s.asked := fun load => List.mem_append_left _
  refine ⟨?_, issued⟩
  exact {
    signedIn := called.currentUser.trans ordered.signedIn
    collections := by
      intro load member
      rw [asked] at member
      rcases List.mem_append.mp member with member | new
      · exact ordered.collections load (old load member)
      · rw [List.mem_singleton.mp new]
        exact parsed
    distinct := by
      rw [asked, List.map_append, List.nodup_append]
      refine ⟨?_, List.nodup_singleton _, ?_⟩
      · exact ordered.distinct.sublist ((List.sublist_append_left _ _).map _)
      · intro a first b second same
        obtain ⟨load, member, rfl⟩ := List.mem_map.mp first
        have bound := ordered.bounded load (old load member)
        rw [List.mem_singleton.mp second] at same
        simp only at same
        omega
    bounded := by
      intro load member
      rw [asked] at member
      rw [issued]
      rcases List.mem_append.mp member with member | new
      · have bound := ordered.bounded load (old load member)
        omega
      · rw [List.mem_singleton.mp new]
        simp
    last := by
      intro _
      exact ⟨⟨s.issued, notes⟩, by simp [asked], issued.symm⟩
    homes := by
      intro _
      omega }

/-- A load that is on its way is delivered: nothing else changes about what has
been asked for. -/
theorem Completed.perm_asked {s t : State} {e : Event} {delivery : Delivery} {fresh : List Note}
    (completed : Completed s e t delivery fresh) (distinct : (s.asked.map Load.id).Nodup) :
    t.asked.Perm s.asked := by
  obtain ⟨front, back, shape⟩ := List.append_of_mem (List.mem_of_find?_eq_some completed.load)
  have ids : (s.loads.map Load.id).Nodup :=
    distinct.sublist ((List.sublist_append_left _ _).map _)
  have others : ∀ load ∈ front ++ back, load.id ≠ delivery.load.id := by
    intro load member same
    rw [shape, List.map_append, List.map_cons, List.nodup_middle, List.nodup_cons,
      ← List.map_append] at ids
    exact ids.1 (same ▸ List.mem_map_of_mem member)
  have kept : s.loads.filter (·.id ≠ delivery.load.id) = front ++ back := by
    have all : (front ++ back).filter (·.id ≠ delivery.load.id) = front ++ back := by
      rw [List.filter_eq_self]
      exact fun load member => decide_eq_true (others load member)
    rw [List.filter_append] at all
    simpa [shape] using all
  have asked : t.asked = s.loads.filter (·.id ≠ delivery.load.id) ++
      (s.delivered.map Delivery.load ++ [delivery.load]) := by
    rw [completed.after, State.asked]
    simp [State.post]
  rw [asked, kept, State.asked, shape]
  have moved : (s.delivered.map Delivery.load ++ [delivery.load]).Perm
      (delivery.load :: s.delivered.map Delivery.load) := List.perm_append_singleton _ _
  refine (moved.append_left (front ++ back)).trans ?_
  rw [List.append_assoc, List.append_assoc, List.cons_append]
  have middle : (back ++ delivery.load :: s.delivered.map Delivery.load).Perm
      (delivery.load :: (back ++ s.delivered.map Delivery.load)) := List.perm_middle
  exact middle.append_left front

theorem loadsOrdered_completed {user : String} {s t : State} {e : Event} {delivery : Delivery}
    {fresh : List Note} (ordered : LoadsOrdered user s)
    (completed : Completed s e t delivery fresh) : LoadsOrdered user t ∧ t.issued = s.issued := by
  have asked := completed.perm_asked ordered.distinct
  have issued : t.issued = s.issued := by rw [completed.after]; rfl
  refine ⟨?_, issued⟩
  exact {
    signedIn := by
      rw [completed.after]
      exact ordered.signedIn
    collections := fun load member => ordered.collections load (asked.mem_iff.mp member)
    distinct := (asked.map Load.id).nodup_iff.mpr ordered.distinct
    bounded := by
      rw [issued]
      exact fun load member => ordered.bounded load (asked.mem_iff.mp member)
    last := by
      rw [issued]
      intro some
      obtain ⟨load, member, last⟩ := ordered.last some
      exact ⟨load, asked.mem_iff.mpr member, last⟩
    homes := by
      rw [issued]
      intro some
      refine ordered.homes ?_
      rw [completed.after] at some
      simpa [State.post] using some }

theorem loadsOrdered_quiet {user : String} {s t : State} {e : Event}
    (ordered : LoadsOrdered user s) (quiet : Quiet s e t) (isLocal : e.isLocal) :
    LoadsOrdered user t ∧ t.issued = s.issued := by
  have stays : ∀ user, e ≠ .sessionChanged user := by
    rintro user rfl
    cases isLocal
  have pending : ∀ id result, e ≠ .getDocumentsCompleted id result := by
    rintro id result rfl
    cases isLocal
  have asked : t.asked = s.asked := by
    rw [State.asked, State.asked, quiet.loads pending, quiet.delivered]
  refine ⟨?_, quiet.issued⟩
  exact {
    signedIn := (quiet.currentUser stays).trans ordered.signedIn
    collections := asked ▸ ordered.collections
    distinct := asked ▸ ordered.distinct
    bounded := by
      rw [asked, quiet.issued]
      exact ordered.bounded
    last := by
      rw [asked, quiet.issued]
      exact ordered.last
    homes := by
      rw [quiet.issued]
      intro some
      refine ordered.homes (fun none => some ?_)
      have fewer := quiet.homes
      rw [none] at fewer
      exact List.sublist_nil.mp fewer }

/-! ## The database and what loads have read of it -/

/-- Everything one step of the client can do. -/
inductive ClientTaken (c : Client) : ClientEvent → Client → Prop where
  | list (e : Event) (after : State) (isLocal : e.isLocal) (taken : step c.list e = some after)
      (database : Queued Unit DocumentReference String FieldValue) (issued : Nat)
      (same : after.detailWrites = c.list.detailWrites → database = c.database) :
      ClientTaken c (.list e) { c with list := after, database := database, issued := issued }
  | pressIgnored (sheet : AddNoteViewController) (uuid : DocumentID) :
      ClientTaken c (.addButtonPressed sheet uuid) c
  | pressed (sheet : AddNoteViewController) (uuid : DocumentID) (write : DatabaseWrite) :
      ClientTaken c (.addButtonPressed sheet uuid) { c with
        database := c.database.issue () write
        issued := c.issued + 1
        saving := c.saving ++ [c.issued] }
  | writeApplied (database : Queued Unit DocumentReference String FieldValue)
      (applied : c.database.applyHead () = some database) :
      ClientTaken c .writeApplied { c with database := database, applied := c.applied + 1 }
  | addSaveCompleted (k : Nat) (after : State) (taken : step c.list .addSaveCompleted = some after) :
      ClientTaken c (.addSaveCompleted k) { c with list := after, saving := c.saving.erase k }
  | resultTaken (id : Nat) (documents : List Document) (load : Load)
      (found : c.list.loads.find? (·.id = id) = some load)
      (read : documents.Perm (c.documents load.collection)) :
      ClientTaken c (.resultTaken id documents) { c with
        results := c.results ++ [(id, documents)] }
  | resultDelivered (id : Nat) (documents : List Document) (after : State)
      (read : c.results.lookup id = some documents)
      (taken : step c.list (.getDocumentsCompleted id ⟨some documents, none⟩) = some after) :
      ClientTaken c (.resultDelivered id) { c with list := after }

theorem clientStep_cases {c d : Client} {e : ClientEvent} (taken : clientStep c e = some d) :
    ClientTaken c e d := by
  cases e with
  | list e =>
    simp only [clientStep, Client.listEvent] at taken
    by_cases isLocal : e.isLocal
    · rw [if_pos isLocal] at taken
      obtain ⟨after, ran, taken⟩ := Option.bind_eq_some_iff.mp taken
      cases taken
      refine .list e after isLocal ran _ _ ?_
      intro same
      rw [same, List.drop_length]
      rfl
    · rw [if_neg isLocal] at taken
      cases taken
  | addButtonPressed sheet uuid =>
    obtain ⟨write, _, taken⟩ := Option.bind_eq_some_iff.mp taken
    cases write with
    | none =>
      cases taken
      exact .pressIgnored sheet uuid
    | some write =>
      cases taken
      exact .pressed sheet uuid write
  | writeApplied =>
    obtain ⟨database, applied, taken⟩ := Option.bind_eq_some_iff.mp taken
    cases taken
    exact .writeApplied database applied
  | addSaveCompleted k =>
    simp only [clientStep, Client.addSaveCompleted] at taken
    by_cases may : k ∈ c.saving ∧ k < c.applied
    · rw [if_pos may] at taken
      obtain ⟨after, ran, taken⟩ := Option.bind_eq_some_iff.mp taken
      cases taken
      exact .addSaveCompleted k after ran
    · rw [if_neg may] at taken
      cases taken
  | resultTaken id documents =>
    obtain ⟨load, found, taken⟩ := Option.bind_eq_some_iff.mp taken
    by_cases may : c.results.lookup id = none ∧ documents.Perm (c.documents load.collection)
    · rw [if_pos may] at taken
      cases taken
      exact .resultTaken id documents load found may.2
    · rw [if_neg may] at taken
      cases taken
  | resultDelivered id =>
    obtain ⟨documents, read, taken⟩ := Option.bind_eq_some_iff.mp taken
    obtain ⟨after, ran, taken⟩ := Option.bind_eq_some_iff.mp taken
    cases taken
    exact .resultDelivered id documents after read ran

/-- The documents are those that the client reads in the account's notes. -/
def Client.Current (user : String) (c : Client) (documents : List Document) : Prop :=
  ∀ notes ∈ collection (notesPath user), documents.Perm (c.documents notes)

/-- While no Add is on its way, what the last load has read is what the client
reads: every write since has called for another load. -/
structure Client.Consistent (user : String) (c : Client) : Prop where
  list : (system (some user)).Reachable c.list
  ordered : LoadsOrdered user c.list
  bounded : ∀ result ∈ c.results, result.1 < c.list.issued
  taken : c.saving = [] → ∀ result ∈ c.results, result.1 + 1 = c.list.issued →
    c.Current user result.2
  delivered : c.saving = [] → ∀ delivery ∈ c.list.delivered,
    delivery.load.id + 1 = c.list.issued → c.Current user delivery.documents

/-- A call makes an unread load the last one. -/
theorem consistent_called {user : String} {c : Client} {e : Event} {after : State}
    (consistent : c.Consistent user) (taken : step c.list e = some after)
    (called : Called c.list e after) (database : Queued Unit DocumentReference String FieldValue)
    (issued applied : Nat) (saving : List Nat) :
    Client.Consistent user ⟨after, database, issued, applied, saving, c.results⟩ := by
  obtain ⟨ordered, next⟩ := loadsOrdered_called consistent.ordered called
  exact {
    list := consistent.list.step taken
    ordered := ordered
    bounded := by
      intro result member
      have bound := consistent.bounded result member
      simp only [next]
      omega
    taken := by
      intro _ result member last
      have bound := consistent.bounded result member
      simp only [next] at last
      omega
    delivered := by
      intro _ delivery member
      simp only [called.delivered] at member
      cases member }

theorem clientConsistent_step {user : String} {c d : Client} {e : ClientEvent}
    (consistent : c.Consistent user) (taken : clientStep c e = some d) : d.Consistent user := by
  cases clientStep_cases taken with
  | list e after isLocal ran database issued same =>
    rcases step_cases ran with quiet | called | ⟨delivery, fresh, completed⟩
    · obtain ⟨ordered, next⟩ := loadsOrdered_quiet consistent.ordered quiet isLocal
      have unwritten := same quiet.detailWrites
      subst unwritten
      exact {
        list := consistent.list.step ran
        ordered := ordered
        bounded := by
          simp only [next]
          exact consistent.bounded
        taken := by
          simp only [next]
          exact consistent.taken
        delivered := by
          simp only [next, quiet.delivered]
          exact consistent.delivered }
    · exact consistent_called consistent ran called database issued c.applied c.saving
    · obtain ⟨result, rfl⟩ := completed.event
      cases isLocal
  | pressIgnored sheet uuid => exact consistent
  | pressed sheet uuid write =>
    have busy : c.saving ++ [c.issued] ≠ [] := by simp
    exact {
      list := consistent.list
      ordered := consistent.ordered
      bounded := consistent.bounded
      taken := fun none => absurd none busy
      delivered := fun none => absurd none busy }
  | writeApplied database applied =>
    have same : ∀ documents, c.Current user documents →
        Client.Current user { c with database := database, applied := c.applied + 1 }
          documents := by
      intro documents current notes parsed
      simp only [Client.documents, Queued.view_applyHead_self applied]
      exact current notes parsed
    exact {
      list := consistent.list
      ordered := consistent.ordered
      bounded := consistent.bounded
      taken := fun idle result member last => same _ (consistent.taken idle result member last)
      delivered := fun idle delivery member last =>
        same _ (consistent.delivered idle delivery member last) }
  | addSaveCompleted k after ran =>
    exact consistent_called consistent ran (called_of_addSaveCompleted ran) c.database c.issued
      c.applied (c.saving.erase k)
  | resultTaken id documents load found read =>
    have named : load.id = id := by simpa using List.find?_some found
    have asked : load ∈ c.list.asked :=
      List.mem_append_left _ (List.mem_of_find?_eq_some found)
    have current : c.Current user documents := by
      intro notes parsed
      have own := consistent.ordered.collections load asked
      obtain rfl := Option.some.inj (parsed.symm.trans own)
      exact read
    exact { consistent with
      bounded := by
        intro result member
        rcases List.mem_append.mp member with old | new
        · exact consistent.bounded result old
        · rw [List.mem_singleton.mp new]
          exact named ▸ consistent.ordered.bounded load asked
      taken := by
        intro idle result member last
        rcases List.mem_append.mp member with old | new
        · exact consistent.taken idle result old last
        · rw [List.mem_singleton.mp new]
          exact current }
  | resultDelivered id documents after read ran =>
    rcases step_cases ran with quiet | called | ⟨delivery, fresh, completed⟩
    · cases quiet.documents
    · cases called.documents
    · obtain ⟨ordered, next⟩ := loadsOrdered_completed consistent.ordered completed
      have accepted : documents = delivery.documents := Option.some.inj completed.documents
      have named : id = delivery.load.id := by
        obtain ⟨result, same⟩ := completed.event
        exact (Event.getDocumentsCompleted.inj same).1
      have result : (id, documents) ∈ c.results := by
        obtain ⟨front, back, shape, _⟩ := List.lookup_eq_some_iff.mp read
        simp [shape]
      exact {
        list := consistent.list.step (e := .getDocumentsCompleted id ⟨some documents, none⟩) ran
        ordered := ordered
        bounded := by
          simp only [next]
          exact consistent.bounded
        taken := by
          simp only [next]
          exact consistent.taken
        delivered := by
          simp only [next]
          intro idle other member last
          rw [completed.after] at member
          rcases List.mem_append.mp member with old | new
          · exact consistent.delivered idle other old last
          · obtain rfl := List.mem_singleton.mp new
            exact accepted ▸ consistent.taken idle _ result (named ▸ last) }

theorem clientConsistent {user : String} {server : Database} {c : Client}
    (reachable : (clientSystem user server).Reachable c) : c.Consistent user := by
  refine reachable.invariant ?_ (fun c e d holds taken => clientConsistent_step holds taken)
  exact {
    list := ⟨[], EventSystem.reaches_nil.mpr rfl⟩
    ordered := {
      signedIn := rfl
      collections := by simp [clientSystem, system, State.asked]
      distinct := by simp [clientSystem, system, State.asked]
      bounded := by simp [clientSystem, system, State.asked]
      last := fun some => absurd rfl some
      homes := fun some => absurd rfl some }
    bounded := by simp [clientSystem]
    taken := by simp [clientSystem]
    delivered := by simp [clientSystem, system] }

/-! ## The list at rest -/

/-- A concatenation is a permutation of one of its parts exactly when the others
are empty. -/
theorem flatMap_perm_iff {α β : Type} {f : α → List β} {front back : List α} {x : α}
    {target : List β} (part : (f x).Perm target) :
    ((front ++ x :: back).flatMap f).Perm target ↔ ∀ y ∈ front ++ back, f y = [] := by
  have whole : (front ++ x :: back).flatMap f = front.flatMap f ++ (f x ++ back.flatMap f) := by
    simp
  rw [whole]
  refine ⟨?_, ?_⟩
  · intro same
    have length := same.length_eq
    rw [List.length_append, List.length_append, ← part.length_eq] at length
    have frontEmpty : front.flatMap f = [] := List.length_eq_zero_iff.mp (by omega)
    have backEmpty : back.flatMap f = [] := List.length_eq_zero_iff.mp (by omega)
    intro y member
    rcases List.mem_append.mp member with inside | inside
    · exact List.flatMap_eq_nil_iff.mp frontEmpty y inside
    · exact List.flatMap_eq_nil_iff.mp backEmpty y inside
  · intro empty
    have frontEmpty : front.flatMap f = [] :=
      List.flatMap_eq_nil_iff.mpr (fun y inside => empty y (List.mem_append_left _ inside))
    have backEmpty : back.flatMap f = [] :=
      List.flatMap_eq_nil_iff.mpr (fun y inside => empty y (List.mem_append_right _ inside))
    rw [frontEmpty, backEmpty, List.nil_append, List.append_nil]
    exact part

/-- At rest the result of the last load has been delivered, and it is what the
client reads. -/
theorem Client.Consistent.lastDelivered {user : String} {c : Client}
    (consistent : c.Consistent user) (atRest : c.AtRest) (homes : c.list.homes ≠ []) :
    ∃ front last back, c.list.delivered = front ++ last :: back ∧
      collection (notesPath user) = some last.load.collection ∧
      last.documents.Perm (c.documents last.load.collection) ∧
      ∀ delivery ∈ c.list.delivered,
        delivery ∈ front ++ back ↔ delivery.load.id + 1 ≠ c.list.issued := by
  obtain ⟨_, idle, noLoads⟩ := atRest
  have ordered := consistent.ordered
  have asked : c.list.asked = c.list.delivered.map Delivery.load := by
    rw [State.asked, noLoads, List.nil_append]
  obtain ⟨load, member, final⟩ := ordered.last (ordered.homes homes)
  have parsed := ordered.collections load member
  rw [asked] at member
  obtain ⟨last, delivered, rfl⟩ := List.mem_map.mp member
  obtain ⟨front, back, shape⟩ := List.append_of_mem delivered
  have current := consistent.delivered idle last delivered final
  refine ⟨front, last, back, shape, parsed, current _ parsed, ?_⟩
  have distinct := ordered.distinct
  rw [asked, shape] at distinct
  simp only [List.map_append, List.map_cons, List.map_map] at distinct
  rw [List.nodup_middle, List.nodup_cons, ← List.map_append] at distinct
  intro delivery given
  refine ⟨?_, ?_⟩
  · intro other same
    have equal : delivery.load.id = last.load.id := by omega
    exact distinct.1 (equal ▸ List.mem_map_of_mem (f := Load.id ∘ Delivery.load) other)
  · intro different
    rw [shape] at given
    rcases List.mem_append.mp given with inside | inside
    · exact List.mem_append_left _ inside
    · rcases List.mem_cons.mp inside with rfl | inside
      · exact absurd final different
      · exact List.mem_append_right _ inside

/-- At rest the list agrees with the database exactly when the last result came
alone. -/
theorem converged_iff_lastResultAlone {user : String} {c : Client}
    (consistent : c.Consistent user) : Converged user c ↔ LastResultAlone c := by
  unfold Converged LastResultAlone
  refine imp_congr_right (fun atRest => ?_)
  by_cases homes : c.list.homes = []
  · simp [homes]
  obtain ⟨front, last, back, shape, parsed, read, others⟩ :=
    consistent.lastDelivered atRest homes
  have delivered : c.list.delivered ≠ [] := by simp [shape]
  have shown : ∀ home ∈ c.list.homes,
      home.controller.notes.map some = c.list.delivered.flatMap Delivery.decoded := by
    intro home member
    rw [cacheShown consistent.list delivered home member, cacheHolds consistent.list]
  have lists : (c.list.delivered.flatMap Delivery.decoded).Perm
        ((c.documents last.load.collection).map (Note.ofDocument last.load.collection)) ↔
      ∀ delivery ∈ c.list.delivered, delivery.load.id + 1 ≠ c.list.issued →
        delivery.documents = [] := by
    have part : last.decoded.Perm
        ((c.documents last.load.collection).map (Note.ofDocument last.load.collection)) :=
      read.map _
    have empty : ∀ delivery : Delivery, delivery.decoded = [] ↔ delivery.documents = [] :=
      fun delivery => List.map_eq_nil_iff
    rw [shape, flatMap_perm_iff part, ← shape]
    simp only [empty]
    refine ⟨?_, ?_⟩
    · intro none delivery member different
      exact none delivery ((others delivery member).mpr different)
    · intro none delivery member
      have given : delivery ∈ c.list.delivered := by
        rw [shape]
        rcases List.mem_append.mp member with inside | inside
        · exact List.mem_append_left _ inside
        · exact List.mem_append_right _ (List.mem_cons_of_mem _ inside)
      exact none delivery given ((others delivery given).mp member)
  rw [← lists]
  refine ⟨?_, ?_⟩
  · intro converged _
    obtain ⟨home, member⟩ := List.exists_mem_of_ne_nil _ homes
    rw [← shown home member]
    exact converged _ parsed home member
  · intro same notes given home member
    obtain rfl := Option.some.inj (parsed.symm.trans given)
    rw [shown home member]
    exact same homes

/-- Along every run of one client, the list shows the account's notes whenever
everything is at rest if and only if, whenever everything is at rest, no result but
that of the last load has added notes since the last call. -/
theorem converged_iff_lastResultsAlone (user : String) (server : Database)
    (events : List ClientEvent) :
    (clientSystem user server).Always (Converged user) events ↔
      (clientSystem user server).Always LastResultAlone events :=
  EventSystem.always_congr
    (fun _ reachable => converged_iff_lastResultAlone (clientConsistent reachable)) events

/-- The note that `milk` is, as the server holds it. -/
def milkStored : Database :=
  Write.apply (.set ⟨["users", "ann@mail.org", "Notes", "milk"], rfl⟩ milk.data) ∅

def bread : Document :=
  { documentID := ⟨"bread", by decide, by decide⟩, data := noteData "Bread" "" "" }

/-- A note is deleted while the load that an Add has called for is on its way. -/
def deletedWhileLoading : List ClientEvent :=
  [.list .homeViewDidLoad, .resultTaken 0 [milk], .resultDelivered 0, .list (.didSelectRow 0 0),
    .addButtonPressed { titleTextField := some "Bread" } bread.documentID, .writeApplied,
    .addSaveCompleted 0, .resultTaken 1 [bread, milk], .list (.deleteConfirmed 0), .writeApplied,
    .resultTaken 2 [bread], .resultDelivered 2, .resultDelivered 1]

/-- At rest the list shows the deleted note, and the other one twice. -/
theorem deletedWhileLoading_not_converged :
    ¬ (clientSystem "ann@mail.org" milkStored).Always (Converged "ann@mail.org")
      deletedWhileLoading := by
  decide +kernel

end QuickNote.NoteList
