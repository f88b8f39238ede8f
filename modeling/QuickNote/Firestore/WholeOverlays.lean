import QuickNote.Firestore.LocalRuns

/-!
# Overlays of whole documents

An overlay that sets or deletes its document says all about it, whatever the server has.
It can outlive the changes that it was made for, but it goes on standing for mutations
that were pending together, until one of its document leaves the queue.
-/

namespace QuickNote.Firestore

namespace Mutation

variable {δ κ α : Type} [LinearOrder κ]

theorem mask_applyToLocalView_none (mutation : Mutation δ κ α) (document : MutableDocument δ κ α) :
    (mutation.applyToLocalView document none).2 = none := by
  rw [applyToLocalView]
  by_cases valid : mutation.precondition.isValidFor document = true
  · rw [if_pos valid]
    cases mutation.operation <;> rfl
  · rw [if_neg valid]

theorem mask_replay_none (mutations : List (Mutation δ κ α)) (document : MutableDocument δ κ α) :
    (replay mutations document none).2 = none := by
  induction mutations generalizing document with
  | nil => rfl
  | cons first rest ih =>
    show (replay rest (first.applyToLocalView document none).1
      (first.applyToLocalView document none).2).2 = none
    rw [first.mask_applyToLocalView_none]
    exact ih _

/-- After a write of the whole document there is no mask. -/
theorem mask_replay_of_whole {mutations : List (Mutation δ κ α)}
    (plain : ∀ m ∈ mutations, m.Plain) {mutation : Mutation δ κ α} (member : mutation ∈ mutations)
    (whole : mutation.isPatch = false) (document : MutableDocument δ κ α)
    (mask : Option (FieldMask κ)) : (replay mutations document mask).2 = none := by
  obtain ⟨before, after, rfl⟩ := List.append_of_mem member
  have always : mutation.precondition = .none :=
    (plain mutation (by simp)).precondition_eq whole
  have applied : ∀ (document : MutableDocument δ κ α) (mask : Option (FieldMask κ)),
      (mutation.applyToLocalView document mask).2 = none := by
    intro document mask
    have valid : mutation.precondition.isValidFor document = true := by rw [always]; rfl
    rw [applyToLocalView, if_pos valid]
    cases kind : mutation.operation with
    | set value => rfl
    | delete => rfl
    | patch value fields => simp [isPatch, fieldMask, kind] at whole
  rw [replay_append]
  show (replay after (mutation.applyToLocalView _ _).1 (mutation.applyToLocalView _ _).2).2 = none
  rw [applied]
  exact mask_replay_none after _

/-- The overlay is a patch if a mask is left. -/
theorem isPatch_overlayOf {mutations : List (Mutation δ κ α)} {base : MutableDocument δ κ α}
    {overlay : Mutation δ κ α} (made : overlayOf mutations base = some overlay) :
    overlay.isPatch = (replay mutations base (some [])).2.isSome := by
  unfold overlayOf calculateOverlayMutation at made
  by_cases touched : (replay mutations base (some [])).1.hasLocalMutations = true
  · rw [if_pos touched] at made
    cases mask : (replay mutations base (some [])).2 with
    | none =>
      rw [mask] at made
      by_cases gone : (replay mutations base (some [])).1.isNoDocument = true
      · simp only [if_pos gone, Option.some.injEq] at made
        rw [← made]
        rfl
      · simp only [if_neg gone, Option.some.injEq] at made
        rw [← made]
        rfl
    | some fields =>
      rw [mask, Option.some.injEq] at made
      rw [← made]
      rfl
  · rw [if_neg touched] at made
    cases made

/-- More mutations leave an overlay of the whole document one. -/
theorem overlayOf_append {mutations : List (Mutation δ κ α)} {base : MutableDocument δ κ α}
    {overlay : Mutation δ κ α} (made : overlayOf mutations base = some overlay)
    (whole : overlay.isPatch = false) (more : List (Mutation δ κ α)) :
    ∃ next, overlayOf (mutations ++ more) base = some next ∧ next.isPatch = false := by
  have unmasked : (replay mutations base (some [])).2 = none := by
    rw [isPatch_overlayOf made] at whole
    exact Option.not_isSome_iff_eq_none.mp (by simp [whole])
  have touched : (replay mutations base (some [])).1.hasLocalMutations = true := by
    by_contra untouched
    rw [overlayOf, calculateOverlayMutation_eq_none_iff.mpr (by simpa using untouched)] at made
    cases made
  have later : (replay (mutations ++ more) base (some [])).1.hasLocalMutations = true := by
    rw [replay_append]
    exact hasLocalMutations_replay more touched _
  obtain ⟨next, made'⟩ : ∃ next, overlayOf (mutations ++ more) base = some next := by
    refine Option.ne_none_iff_exists'.mp fun none_made => ?_
    rw [overlayOf, calculateOverlayMutation_eq_none_iff, later] at none_made
    cases none_made
  refine ⟨next, made', ?_⟩
  rw [isPatch_overlayOf made', replay_append, unmasked, mask_replay_none]
  rfl

end Mutation

namespace LocalStore

variable {δ κ α : Type} [DecidableEq δ] [LinearOrder κ]

/-- What the event writes to the document. -/
def Event.written (key : δ) : Event δ κ α → List (Mutation δ κ α)
  | .writeLocally mutations => mutations.filter (·.key = key)
  | _ => []

/-- The document has an overlay of the whole document, which stands for the mutations. -/
structure WholeAt (store : LocalStore δ κ α) (key : δ) (mutations : List (Mutation δ κ α)) :
    Prop where
  stands : store.StandsFor key mutations
  whole : ∃ overlay, store.overlays key = some overlay ∧ overlay.mutation.isPatch = false

variable {store store' : LocalStore δ κ α} {key : δ} {earlier : List (Mutation δ κ α)}

omit [DecidableEq δ] in
/-- The overlay is the one that the mutations come to. -/
theorem WholeAt.overlay (h : store.WholeAt key earlier) :
    ∃ overlay, store.overlays key = some overlay ∧ overlay.mutation.isPatch = false ∧
      Mutation.overlayOf earlier (store.remoteDocuments key) = some overlay.mutation := by
  obtain ⟨overlay, here, whole⟩ := h.whole
  exact ⟨overlay, here, whole, h.stands.overlayOf_eq here⟩

/-- The overlay is as good for any other copy of the server's document. -/
theorem WholeAt.transfer (h : store.WholeAt key earlier) (valid : store.Valid)
    (valid' : store'.Valid) (plain : ∀ m ∈ earlier, m.Plain)
    (same : store'.overlays key = store.overlays key) : store'.WholeAt key earlier := by
  obtain ⟨overlay, here, whole, made⟩ := h.overlay
  have keyed : (store.remoteDocuments key).key = (store'.remoteDocuments key).key :=
    (valid.keyed key).trans (valid'.keyed key).symm
  refine ⟨?_, overlay, same.trans here, whole⟩
  rw [StandsFor, same, here]
  exact (Mutation.overlayOf_of_not_patch plain (valid.remote key) (valid'.remote key) keyed made
    whole).symm

/-- What is written to the document is added to what the overlay stands for. -/
theorem WholeAt.wrote (h : store.WholeAt key earlier) {batch : MutationBatch δ κ α}
    (wrote : Wrote batch store store')
    (plain : ∀ m ∈ earlier ++ batch.mutationsOf key, m.Plain) (touched : key ∈ batch.keys) :
    store'.WholeAt key (earlier ++ batch.mutationsOf key) := by
  obtain ⟨overlay, here, whole, made⟩ := h.overlay
  obtain ⟨next, made', whole'⟩ := Mutation.overlayOf_append made whole (batch.mutationsOf key)
  have stored := wrote.own key touched earlier plain h.stands
  rw [made', Option.map_some, Option.some_or] at stored
  refine ⟨?_, _, stored, whole'⟩
  rw [StandsFor, stored, wrote.documents]
  exact made'.symm

/-- When a batch of the document ends, the overlay becomes right or stays. -/
theorem WholeAt.ended (h : store.WholeAt key earlier) (valid : store.Valid)
    {batch : MutationBatch δ κ α} (ended : Ended batch store store') :
    store'.SettledAt key ∨ store'.overlays key = store.overlays key := by
  obtain ⟨overlay, here, _⟩ := h.whole
  by_cases made_for : overlay.largestBatchId = batch.batchId
  · left
    obtain ⟨_, other, member, id, touches⟩ := valid.backed key overlay here
    have same : other = batch := ended.queue.only other member (id.trans made_for)
    have own := ended.own key (same ▸ touches)
    rw [here, Option.filter_some, if_neg (by simpa using made_for)] at own
    exact own
  · have kept : (store.overlays key).filter (·.largestBatchId ≠ batch.batchId) =
        store.overlays key := by
      rw [here, Option.filter_some, if_pos (by simpa using made_for)]
    by_cases touched : key ∈ batch.keys
    · have own := resettled_iff.mp (ended.own key touched)
      rw [kept] at own
      cases made : Mutation.overlayOf (store'.mutationQueue.pending
          (store'.remoteDocuments key).key) (store'.remoteDocuments key) with
      | none => exact Or.inr (own.2 made)
      | some mutation =>
        exact Or.inl (resettled_iff.mpr ⟨own.1, fun nothing => by simp [made] at nothing⟩)
    · exact Or.inr ((ended.others key touched).2.trans kept)

/-- After a step the overlay is right, or one of the whole document that stands for what
the old one did and what the step has written. -/
theorem WholeAt.step (h : store.WholeAt key earlier) (valid : store.Valid) {e : Event δ κ α}
    (taken : store.step e = some store') (plain : ∀ m ∈ earlier ++ e.written key, m.Plain) :
    store'.SettledAt key ∨ store'.WholeAt key (earlier ++ e.written key) := by
  have valid' := (step_spec valid taken).1
  obtain ⟨overlay, here, whole⟩ := h.whole
  have stays (nothing : e.written key = []) (same : store'.overlays key = store.overlays key) :
      store'.WholeAt key (earlier ++ e.written key) := by
    rw [nothing, List.append_nil] at plain ⊢
    exact h.transfer valid valid' plain same
  cases e with
  | start =>
    obtain rfl := Option.some.inj taken
    exact Or.inr (stays rfl rfl)
  | writeLocally mutations =>
    obtain ⟨⟨_, views⟩, written, rfl⟩ := Option.map_eq_some_iff.mp taken
    obtain ⟨_, batch, given, wrote⟩ := writeLocally_spec valid written
    have own : Event.written key (.writeLocally mutations) = batch.mutationsOf key := by
      rw [Event.written, ← given]
      rfl
    by_cases touched : key ∈ batch.keys
    · rw [own] at plain ⊢
      exact Or.inr (h.wrote wrote plain touched)
    · exact Or.inr (stays (own.trans (MutationBatch.mutationsOf_eq_nil touched))
        (wrote.others key touched))
  | acknowledgeBatch batchId versions =>
    obtain ⟨batch, stored, acknowledged⟩ := Option.bind_eq_some_iff.mp taken
    obtain ⟨rfl, _⟩ := valid.queue.lookupMutationBatch_eq stored
    exact (h.ended valid (acknowledgeBatch_spec valid stored acknowledged).2).imp_right (stays rfl)
  | rejectBatch batchId =>
    obtain ⟨_, batch, _, ended⟩ := rejectBatch_spec valid taken
    exact (h.ended valid ended).imp_right (stays rfl)
  | applyRemoteEvent updates snapshotVersion =>
    exact Or.inr (stays rfl
      (overlays_applyRemoteEvent valid updates.nodup updates.remote taken here whole))

end LocalStore

end QuickNote.Firestore
