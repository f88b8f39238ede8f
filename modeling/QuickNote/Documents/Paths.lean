import QuickNote.Auth.Registration
import QuickNote.Documents.Casts

/-!
# Where the documents of an account lie

The address of an account is put into paths as it is.  Add and the two writers of
profiles hand it to `document(_:)` of `users`, which drops a slash that comes first;
the load and the detail screen put it behind `users/`, where the same slash makes the
path one that is refused.  So an address with a slash in front shares the documents of
the address without it, and it is the only kind that does.
-/

namespace QuickNote.Documents

open Firestore DocumentStore Segments

/-- The characters of an atom. -/
def atext (c : Char) : Bool :=
  c.isAlphanum || c ∈ "!#$%&'*+-/=?^_`\x7b|\x7d~".toList

/-- Atoms with single dots between them. -/
def dotAtom (text : String) : Bool :=
  (text.toList.splitOn '.').all fun atom => !atom.isEmpty && atom.all atext

/-- The address of an account. -/
structure Address where
  localPart : String
  domain : String
  atoms : dotAtom localPart = true
  noAt : '@' ∉ domain.toList
  noSlash : '/' ∉ domain.toList

def Address.email (self : Address) : String := self.localPart ++ "@" ++ self.domain

/-- The document that a press writes; none when its path is refused. -/
def documentOf (pressed : Option (Option DatabaseWrite)) : Option DocumentReference := do
  return (← ← pressed).key

/-- The document that a load lists under an identifier. -/
def listedDocument (dataSource : DataSource) (email : String) (id : DocumentID) :
    Option DocumentReference := do
  let (_, requested) ← dataSource.loadNoteDataFromFirebase (some email)
  return (← requested).listed id

/-- Add, the load, Save and Delete mean one document by the identifier of a note, or
all of their paths are refused. -/
def PathsAgree (email : String) : Prop :=
  ∀ (sheet : AddNoteViewController) (dataSource : DataSource) (detail : DetailViewController),
    let listed := listedDocument dataSource email detail.note.id
    documentOf (sheet.addButtonPressed (some email) detail.note.id) = listed ∧
      documentOf ((detail.saveButtonPressed (some email)).map Prod.snd) = listed ∧
      documentOf (detail.deleteConfirmed (some email)) = listed

/-- Nothing that is written for the first address is the profile of the second or
listed by its loads. -/
def Isolated (first second : String) : Prop :=
  first ≠ second → ∀ (e : Event) (client : Nat) (write : DatabaseWrite),
    e.email = some first → e.write = some (client, write) →
      Auth.profile second ≠ some write.key ∧
        ∀ (dataSource : DataSource) (id : DocumentID),
          listedDocument dataSource second id ≠ some write.key

/-- The address begins with a slash, no two slashes are adjacent and the number of its
segments is odd. -/
def SlashDropped (email : String) : Prop :=
  email.toList.head? = some '/' ∧ ¬ ['/', '/'] <:+: email.toList ∧
    (segmentsOf email).length % 2 = 1

/-- One of the addresses is the other with a slash in front that is dropped. -/
def Collide (first second : String) : Prop :=
  first = "/" ++ second ∧ SlashDropped first ∨ second = "/" ++ first ∧ SlashDropped second

/-! ## Addresses -/

theorem at_not_mem_of_dotAtom {text : String} (atoms : dotAtom text = true) :
    '@' ∉ text.toList := by
  intro member
  have inside : '@' ∈ (segments '.' text.toList).flatten := by
    rw [flatten_segments, List.mem_filter]
    exact ⟨member, by decide⟩
  obtain ⟨atom, piece, within⟩ := List.mem_flatten.mp inside
  have allowed := List.all_eq_true.mp atoms atom (List.mem_of_mem_filter piece)
  rw [Bool.and_eq_true, List.all_eq_true] at allowed
  exact absurd (allowed.2 '@' within) (by decide)

theorem Address.plainDomain (self : Address) : PlainDomain self.email := by
  have absent := at_not_mem_of_dotAtom self.atoms
  have shape : self.email.toList = self.localPart.toList ++ '@' :: self.domain.toList := by
    simp [Address.email]
  refine ⟨?_, ?_⟩
  · rw [OneAt, shape, List.count_append, List.count_cons_self, List.count_eq_zero.mpr absent,
      List.count_eq_zero.mpr self.noAt]
  · rw [shape, List.dropWhile_append_of_pos]
    · simp [self.noSlash]
    · intro c inside
      exact decide_eq_true (fun same : c = '@' => absent (same ▸ inside))

theorem PlainDomain.ne_empty {email : String} (plain : PlainDomain email) : email ≠ "" := by
  rintro rfl
  exact absurd plain.1 (by decide)

theorem PlainDomain.getLast_ne {email : String} (plain : PlainDomain email) :
    email.toList.getLast? ≠ some '/' := by
  obtain ⟨front, back, shape, tail⟩ := plain.split
  rw [shape, List.getLast?_append_of_ne_nil _ (List.cons_ne_nil _ _)]
  intro last
  have member := List.mem_of_getLast? last
  simp [tail] at member

/-! ## The templates -/

theorem collection_users : collection "users" = some ⟨["users"], rfl⟩ := by decide

theorem profile_eq_document (email : String) :
    Auth.profile email = CollectionReference.document ⟨["users"], rfl⟩ email := by
  rw [Auth.profile, collection_users]
  rfl

/-- The profile of an address. -/
theorem profile_eq_some {email : String} (plain : PlainDomain email) {key : DocumentReference} :
    Auth.profile email = some key ↔
      ¬ ['/', '/'] <:+: email.toList ∧ key.path = "users" :: segmentsOf email := by
  rw [profile_eq_document, document_eq_some_iff]
  exact and_iff_right plain.ne_empty

/-- The document of a note that Add writes. -/
theorem added_eq_some {email : String} (plain : PlainDomain email)
    {sheet : AddNoteViewController} {id : DocumentID} {key : DocumentReference} :
    documentOf (sheet.addButtonPressed (some email) id) = some key ↔
      ¬ ['/', '/'] <:+: email.toList ∧ key.path = segmentsOf (notesPath email) ++ [id.name] := by
  have unfolded : documentOf (sheet.addButtonPressed (some email) id) =
      CollectionReference.document ⟨["users"], rfl⟩ (email ++ "/Notes/" ++ id.name) := by
    unfold AddNoteViewController.addButtonPressed
    simp only [collection_users, Option.bind_eq_bind, Option.bind_some]
    cases CollectionReference.document ⟨["users"], rfl⟩ (email ++ "/Notes/" ++ id.name) with
    | none => rfl
    | some document => rfl
  have single : ['/', '/'] <:+: (email ++ "/Notes/" ++ id.name).toList ↔
      ['/', '/'] <:+: email.toList := by
    rw [pair_infix_note]
    exact or_iff_left plain.getLast_ne
  rw [unfolded, document_eq_some_iff, single, ← segmentsOf_note]
  exact and_iff_right (note_ne_empty email id)

/-- The notes that a load lists. -/
theorem listedDocument_eq_some {email : String} (plain : PlainDomain email)
    {dataSource : DataSource} {id : DocumentID} {key : DocumentReference} :
    listedDocument dataSource email id = some key ↔ email.toList.head? ≠ some '/' ∧
      ¬ ['/', '/'] <:+: email.toList ∧ key.path = segmentsOf (notesPath email) ++ [id.name] := by
  have unfolded : listedDocument dataSource email id =
      (collection (notesPath email)).map (·.listed id) := by
    rw [listedDocument, DataSource.loadNoteDataFromFirebase_some]
    cases collection (notesPath email) with
    | none => rfl
    | some notes => rfl
  have single : ¬ ['/', '/'] <:+: (notesPath email).toList ↔
      email.toList.head? ≠ some '/' ∧ ¬ ['/', '/'] <:+: email.toList := by
    rw [pair_infix_notesPath plain.ne_empty, not_or, not_or]
    exact and_congr_right fun _ => and_iff_left plain.getLast_ne
  rw [unfolded, Option.map_eq_some_iff, ← and_assoc, ← single]
  constructor
  · rintro ⟨notes, parsed, rfl⟩
    obtain ⟨plain, path⟩ := collection_eq_some parsed
    exact ⟨plain, by rw [listed_path, path]⟩
  · rintro ⟨plain, path⟩
    have odd : (segmentsOf (notesPath email)).length % 2 = 1 := by
      have even := key.even
      rw [path, List.length_append, List.length_singleton] at even
      omega
    refine ⟨⟨segmentsOf (notesPath email), odd⟩,
      collection_eq_some_iff.mpr ⟨notesPath_ne_empty email, plain, rfl⟩, ?_⟩
    exact document_ext path.symm

/-- Save and Delete mean the documents that the load lists. -/
theorem document_eq_listedDocument (dataSource : DataSource) (detail : DetailViewController)
    (email : String) : detail.document email = listedDocument dataSource email detail.note.id := by
  rw [DetailViewController.document, listedDocument, DataSource.loadNoteDataFromFirebase_some]
  cases collection (notesPath email) with
  | none => rfl
  | some notes => exact document_name notes detail.note.id

theorem pressed_eq_listedDocument (dataSource : DataSource) (detail : DetailViewController)
    (email : String) :
    documentOf ((detail.saveButtonPressed (some email)).map Prod.snd) =
        listedDocument dataSource email detail.note.id ∧
      documentOf (detail.deleteConfirmed (some email)) =
        listedDocument dataSource email detail.note.id := by
  rw [← document_eq_listedDocument, DetailViewController.saveButtonPressed,
    DetailViewController.deleteConfirmed]
  cases detail.document email with
  | none => simp [documentOf]
  | some document => simp [documentOf, Write.key]

/-- The document of a note exists exactly when the address has an odd number of
segments. -/
theorem exists_note_iff (email : String) (id : DocumentID) :
    (∃ key : DocumentReference, key.path = segmentsOf (notesPath email) ++ [id.name]) ↔
      (segmentsOf email).length % 2 = 1 := by
  have length : (segmentsOf (notesPath email) ++ [id.name]).length =
      (segmentsOf email).length + 3 := by
    simp [segmentsOf_notesPath]
  constructor
  · rintro ⟨key, path⟩
    have even := key.even
    rw [path, length] at even
    omega
  · intro odd
    exact ⟨⟨segmentsOf (notesPath email) ++ [id.name], by omega⟩, rfl⟩

/-- The templates disagree about an address exactly when its slash in front is dropped
by one and refused by the others. -/
theorem pathsAgree_iff {email : String} (plain : PlainDomain email) :
    PathsAgree email ↔ ¬ SlashDropped email := by
  constructor
  · rintro agree ⟨lead, single, odd⟩
    let id : DocumentID := ⟨"n", by decide, by decide⟩
    obtain ⟨key, path⟩ := (exists_note_iff email id).mpr odd
    have added := (agree {} {} (.viewDidLoad ⟨id, "", "", "", key⟩)).1
    have listed := added.symm.trans ((added_eq_some plain).mpr ⟨single, path⟩)
    exact ((listedDocument_eq_some plain).mp listed).1 lead
  · intro kept sheet dataSource detail
    refine ⟨?_, pressed_eq_listedDocument dataSource detail email⟩
    ext key
    rw [added_eq_some plain, listedDocument_eq_some plain]
    refine ⟨?_, fun listed => listed.2⟩
    rintro ⟨single, path⟩
    have odd := (exists_note_iff email detail.note.id).mp ⟨key, path⟩
    exact ⟨fun lead => kept ⟨lead, single, odd⟩, single, path⟩

/-! ## Documents of different accounts -/

/-- The document is the profile of the address or a note of it. -/
def Located (email : String) (key : DocumentReference) : Prop :=
  ¬ ['/', '/'] <:+: email.toList ∧ (key.path = "users" :: segmentsOf email ∨
    ∃ id : DocumentID, key.path = segmentsOf (notesPath email) ++ [id.name])

/-- What is written for an account is written where its documents lie. -/
theorem Written.located {email : String} {write : DatabaseWrite} (plain : PlainDomain email)
    (written : Written email write) : Located email write.key := by
  have detail : ∀ {detail : DetailViewController} {document : DocumentReference},
      detail.document email = some document → Located email document := by
    intro detail document found
    rw [document_eq_listedDocument {}, listedDocument_eq_some plain] at found
    exact ⟨found.2.1, Or.inr ⟨detail.note.id, found.2.2⟩⟩
  cases written with
  | profile users parsed found =>
    have profile : Auth.profile email = some write.key := by
      rw [Auth.profile, parsed]
      exact found
    rw [profile_eq_some plain] at profile
    exact ⟨profile.1, Or.inl profile.2⟩
  | note users uuid document title details doc parsed found =>
    have single := (document_eq_some found).1
    rw [pair_infix_note, not_or] at single
    exact ⟨single.1, Or.inr ⟨uuid, path_of_note parsed found⟩⟩
  | details _ document text found => exact detail found
  | delete _ document found => exact detail found

/-- Two addresses share a document only if they have the same segments, and then an
odd number of them. -/
theorem segments_of_located {first second : String} {key : DocumentReference}
    (plain : PlainDomain first) (plain' : PlainDomain second) (own : Located first key)
    (other : Located second key) :
    segmentsOf first = segmentsOf second ∧ (segmentsOf first).length % 2 = 1 := by
  rcases own.2 with profile | ⟨id, note⟩
  · have even := key.even
    rcases other.2 with profile' | ⟨id', note'⟩
    · rw [profile] at even profile'
      refine ⟨(List.cons.inj profile').2, ?_⟩
      rw [List.length_cons] at even
      omega
    · exact absurd (profile.symm.trans note') (segments_profile_ne plain plain'.1 id')
  · rcases other.2 with profile' | ⟨id', note'⟩
    · exact absurd (profile'.symm.trans note) (segments_profile_ne plain' plain.1 id)
    · have paths := note.symm.trans note'
      rw [segmentsOf_notesPath, segmentsOf_notesPath] at paths
      refine ⟨?_, (exists_note_iff first id).mp ⟨key, note⟩⟩
      simpa using (List.append_inj' (List.append_inj' paths rfl).1 rfl).1

/-- Addresses that share a document are equal up to a slash in front. -/
theorem collide_of_located {first second : String} {key : DocumentReference}
    (plain : PlainDomain first) (plain' : PlainDomain second) (different : first ≠ second)
    (own : Located first key) (other : Located second key) : Collide first second := by
  obtain ⟨same, odd⟩ := segments_of_located plain plain' own other
  have pieces : segments '/' first.toList = segments '/' second.toList :=
    List.map_injective_iff.mpr (fun _ _ => String.ofList_injective) same
  have slash : ∀ {a b : String}, a.toList = '/' :: b.toList → a = "/" ++ b := by
    intro a b shape
    exact String.toList_inj.mp (by simpa using shape)
  rcases segments_injective_of_head own.1 other.1 plain.getLast_ne plain'.getLast_ne pieces with
    equal | lead | lead
  · exact absurd (String.toList_inj.mp equal) different
  · exact Or.inl ⟨slash lead, by simp [lead], own.1, odd⟩
  · exact Or.inr ⟨slash lead, by simp [lead], other.1, same ▸ odd⟩

/-- The profile of an address with a slash in front that is dropped is that of the
address without it. -/
theorem profile_of_slashDropped {email rest : String} (plain : PlainDomain email)
    (plain' : PlainDomain rest) (lead : email = "/" ++ rest) (dropped : SlashDropped email) :
    ∃ key, Auth.profile email = some key ∧ Auth.profile rest = some key := by
  obtain ⟨_, single, odd⟩ := dropped
  have shape : email.toList = '/' :: rest.toList := by simp [lead]
  have same : segmentsOf email = segmentsOf rest := by
    rw [segmentsOf, segmentsOf, shape, segments_cons_self]
  have single' : ¬ ['/', '/'] <:+: rest.toList := by
    rw [shape, pair_infix_cons, not_or] at single
    exact single.2
  refine ⟨⟨"users" :: segmentsOf email, by rw [List.length_cons]; omega⟩, ?_, ?_⟩
  · exact (profile_eq_some plain).mpr ⟨single, rfl⟩
  · exact (profile_eq_some plain').mpr ⟨single', congrArg ("users" :: ·) same⟩

/-- Whoever registers writes the profile of the address. -/
theorem registerUser_write (userRequest : RegisterUserRequest) {key : DocumentReference}
    (profile : Auth.profile userRequest.email = some key) (client : Nat) :
    (Event.registerUser client userRequest).write =
      some (client, .set key (AuthService.registerData userRequest)) := by
  rw [profile_eq_document] at profile
  simp [Event.write, AuthService.createUserCompletion, collection_users, profile]

/-- Two accounts are isolated exactly when their addresses do not differ by a slash in
front that is dropped. -/
theorem isolated_iff {first second : String} (plain : PlainDomain first)
    (plain' : PlainDomain second) : Isolated first second ↔ ¬ Collide first second := by
  constructor
  · intro isolated collide
    have shared : ∃ key, Auth.profile first = some key ∧ Auth.profile second = some key := by
      rcases collide with ⟨lead, dropped⟩ | ⟨lead, dropped⟩
      · exact profile_of_slashDropped plain plain' lead dropped
      · obtain ⟨key, own, other⟩ := profile_of_slashDropped plain' plain lead dropped
        exact ⟨key, other, own⟩
    have different : first ≠ second := by
      rintro rfl
      rcases collide with ⟨lead, _⟩ | ⟨lead, _⟩ <;>
        exact absurd (congrArg (·.toList.length) lead) (by simp)
    obtain ⟨key, own, other⟩ := shared
    exact (isolated different _ 0 _ rfl
      (registerUser_write ⟨"", first, ""⟩ own 0)).1 other
  · intro apart different e client write account issued
    obtain ⟨email, account', written⟩ := written_of_issued issued
    obtain rfl : first = email := Option.some.inj (account.symm.trans account')
    have own : Located first write.key := written.located plain
    have elsewhere : ¬ Located second write.key :=
      fun other => apart (collide_of_located plain plain' different own other)
    refine ⟨?_, ?_⟩
    · intro profile
      obtain ⟨single, path⟩ := (profile_eq_some plain').mp profile
      exact elsewhere ⟨single, Or.inl path⟩
    · intro dataSource id listed
      obtain ⟨_, single, path⟩ := (listedDocument_eq_some plain').mp listed
      exact elsewhere ⟨single, Or.inr ⟨id, path⟩⟩

/-- The templates agree about an address, and two accounts keep to their own documents,
if and only if no slash in front of an address is dropped. -/
theorem paths_iff (e e1 e2 : Address) :
    (PathsAgree e.email ↔ ¬ SlashDropped e.email) ∧
      (Isolated e1.email e2.email ↔ ¬ Collide e1.email e2.email) :=
  ⟨pathsAgree_iff e.plainDomain, isolated_iff e1.plainDomain e2.plainDomain⟩

def ann : Address := ⟨"ann", "mail.org", by decide, by decide, by decide⟩

def slashAnn : Address := ⟨"/ann", "mail.org", by decide, by decide, by decide⟩

def slashAnnNote : Note where
  id := ⟨"tea", by decide, by decide⟩
  title := "milk"
  details := ""
  doc := ""
  readFrom := ⟨["users", "ann@mail.org", "Notes", "tea"], rfl⟩

def slashAnnRequest : RegisterUserRequest :=
  { username := "ann", email := slashAnn.email, password := "secret" }

/-- A note that `/ann@mail.org` adds is written to the notes of `ann@mail.org`, while
its own loads are refused, and the two share their profile. -/
theorem slashAnn_paths : ¬ PathsAgree slashAnn.email ∧ ¬ Isolated slashAnn.email ann.email := by
  refine ⟨?_, ?_⟩
  · intro agree
    have added := (agree {} {} (.viewDidLoad slashAnnNote)).1
    exact absurd added (by decide)
  · intro isolated
    have shared := (isolated (by decide) (.registerUser 0 slashAnnRequest) 0
      (.set ⟨["users", "ann@mail.org"], rfl⟩ (AuthService.registerData slashAnnRequest)) rfl rfl).1
    exact absurd shared (by decide)

end QuickNote.Documents
