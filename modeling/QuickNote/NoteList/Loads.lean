import QuickNote.NoteList.System

/-!
# What overlapping loads post

`loadNoteDataFromFirebase` clears the shared cache when it is called, while its
completion appends to whatever the cache holds by then.  So a posted list is the
result it belongs to exactly when nothing has been delivered since the last
call.
-/

namespace QuickNote.NoteList

open Firestore

/-- The posted list is the delivered result, and no identifier occurs twice. -/
def Post.Exact (post : Post) : Prop :=
  post.delivery.decoded = post.notes.map some ∧ (post.notes.map Note.id).Nodup

/-- What a list screen shows is the result whose completion notified it last. -/
def Home.Exact (home : Home) : Prop :=
  ∀ post ∈ home.received, post.delivery.decoded = home.controller.notes.map some ∧
    (home.controller.notes.map Note.id).Nodup

/-- Every list posted so far, and every list on screen since, is exactly the
result of one load. -/
def PostsExact (s : State) : Prop :=
  (∀ post ∈ s.posts, post.Exact) ∧ ∀ home ∈ s.homes, home.Exact

/-- A result is delivered only while everything delivered since the last call of
`loadNoteDataFromFirebase` was empty. -/
def ResultIsolated (s : State) (e : Event) (_ : State) : Prop :=
  e.documents.isSome → ∀ earlier ∈ s.delivered, earlier.documents = []

instance (post : Post) : Decidable post.Exact := by
  unfold Post.Exact
  infer_instance

instance (home : Home) : Decidable home.Exact := by
  unfold Home.Exact
  infer_instance

instance : DecidablePred PostsExact := by
  intro s
  unfold PostsExact
  infer_instance

/-- The cache holds the results delivered since the last call, one after the
other. -/
def CacheHolds (s : State) : Prop :=
  s.delivered.flatMap Delivery.decoded = s.dataSource.notes.map some

theorem cacheHolds {user : Option String} {s : State}
    (reachable : (system user).Reachable s) : CacheHolds s := by
  refine reachable.invariant rfl ?_
  intro s e t holds taken
  unfold CacheHolds at holds ⊢
  rcases step_cases taken with quiet | called | ⟨delivery, fresh, completed⟩
  · rw [quiet.delivered, quiet.dataSource, holds]
  · rw [called.delivered, called.cleared]
    rfl
  · rw [completed.after]
    simp [State.post, holds, completed.decoded]

/-- The cache is empty exactly when nothing but empty results has arrived since
the last call. -/
theorem CacheHolds.empty_iff {s : State} (holds : CacheHolds s) :
    s.dataSource.notes = [] ↔ ∀ earlier ∈ s.delivered, earlier.documents = [] := by
  have same : s.dataSource.notes = [] ↔ s.delivered.flatMap Delivery.decoded = [] := by
    rw [holds, List.map_eq_nil_iff]
  simp [same, List.flatMap_eq_nil_iff, Delivery.decoded]

/-- A delivery posts its own result exactly when the cache was empty. -/
theorem Completed.exact_iff {s t : State} {e : Event} {delivery : Delivery} {fresh : List Note}
    (completed : Completed s e t delivery fresh) :
    Post.Exact ⟨delivery, s.dataSource.notes ++ fresh⟩ ↔ s.dataSource.notes = [] := by
  have ids : fresh.map Note.id = delivery.documents.map Document.documentID :=
    ids_of_decoded completed.decoded
  refine ⟨?_, ?_⟩
  · rintro ⟨same, _⟩
    rw [completed.decoded, List.map_append] at same
    simpa using same
  · intro empty
    refine ⟨by simpa [empty] using completed.decoded, ?_⟩
    simpa [empty, ids] using completed.distinct

/-- Only a delivery can spoil what is posted and shown. -/
theorem postsExact_step {user : Option String} {s t : State} {e : Event}
    (reachable : (system user).Reachable s) (exact : PostsExact s)
    (taken : (system user).step s e = some t) : PostsExact t ↔ ResultIsolated s e t := by
  rcases step_cases taken with quiet | called | ⟨delivery, fresh, completed⟩
  · have isolated : ResultIsolated s e t := by simp [ResultIsolated, quiet.documents]
    have kept : PostsExact t :=
      ⟨quiet.posts ▸ exact.1, fun home member => exact.2 home (quiet.homes.subset member)⟩
    exact ⟨fun _ => isolated, fun _ => kept⟩
  · have isolated : ResultIsolated s e t := by simp [ResultIsolated, called.documents]
    have kept : PostsExact t := by
      refine ⟨called.posts ▸ exact.1, fun home member => ?_⟩
      rcases called.homes home member with old | ⟨_, unnotified⟩
      · exact exact.2 home old
      · simp [Home.Exact, unnotified]
    exact ⟨fun _ => isolated, fun _ => kept⟩
  · have isolated : ResultIsolated s e t ↔ s.dataSource.notes = [] := by
      rw [(cacheHolds reachable).empty_iff]
      simp [ResultIsolated, completed.documents]
    rw [isolated, ← completed.exact_iff, completed.after]
    refine ⟨?_, ?_⟩
    · intro after
      exact after.1 _ (by simp [State.post])
    · intro posted
      refine ⟨?_, ?_⟩
      · intro post member
        rcases List.mem_append.mp member with member | member
        · exact exact.1 post member
        · exact List.mem_singleton.mp member ▸ posted
      · intro home member
        obtain ⟨old, _, rfl⟩ := List.mem_map.mp member
        intro post received
        cases received
        exact posted

/-- Along every run, every posted and every shown list is exactly the result of
the load whose completion posted it if and only if no result is delivered on
top of another non-empty one without a call of `loadNoteDataFromFirebase` in
between. -/
theorem postsExact_iff_resultsIsolated (user : Option String) (events : List Event) :
    (system user).Always PostsExact events ↔ (system user).EveryStep ResultIsolated events :=
  EventSystem.always_iff_everyStep (J := fun _ => True)
    ⟨by simp [system], by simp [system]⟩ trivial (fun _ _ _ _ _ _ _ _ => trivial)
    (fun _ _ _ reachable exact _ taken => postsExact_step reachable exact taken) events

def milk : Document :=
  { documentID := ⟨"milk", by decide, by decide⟩, data := noteData "Milk" "two litres" "" }

/-- Two loads overlap, and both see the one note there is. -/
def overlappingLoads : List Event :=
  [.homeViewDidLoad, .addSaveCompleted, .getDocumentsCompleted 0 ⟨some [milk], none⟩,
    .getDocumentsCompleted 1 ⟨some [milk], none⟩]

/-- The second completion posts the note twice. -/
theorem overlappingLoads_not_exact :
    ¬ (system (some "ann@mail.org")).Always PostsExact overlappingLoads := by
  decide

end QuickNote.NoteList
