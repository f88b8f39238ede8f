import Mathlib.Data.Set.Insert
import QuickNote.Library.DocumentStore

/-!
# Documents that are created once

Clients share a store through their queues of writes.  A document is created under
a key that nobody has used, and a client changes and deletes only what it has read:
any state the store has been in, overlaid with the writes in its own queue.  So
while the creating write of a document is queued, every other write to the document
stands behind it in the same queue, and a document that has been deleted is gone for
good.
-/

namespace DocumentStore

variable {ι κ φ ν : Type} [DecidableEq κ] [DecidableEq φ]

/-- The write may bring a document into existence. -/
def Write.Creates : Write κ φ ν → Prop
  | .set _ _ | .merge _ _ => True
  | .update _ _ | .delete _ => False

omit [DecidableEq κ] in
theorem Write.document_none {w : Write κ φ ν} (other : ¬ w.Creates) : w.document none = none := by
  cases w with
  | set key fields => exact absurd trivial other
  | merge key fields => exact absurd trivial other
  | update key fields => rfl
  | delete key => rfl

theorem Write.mem_apply {w : Write κ φ ν} {store : Store κ φ ν} {k : κ}
    (member : k ∈ w.apply store) : k = w.key ∨ k ∈ store := by
  rw [← AList.lookup_isSome, lookup_apply] at member
  by_cases own : k = w.key
  · exact Or.inl own
  · rw [if_neg own, AList.lookup_isSome] at member
    exact Or.inr member

/-- What does not exist comes into existence by a creating write to it only. -/
theorem Write.not_mem_apply {w : Write κ φ ν} {store : Store κ φ ν} {k : κ} (absent : k ∉ store)
    (other : w.key = k → ¬ w.Creates) : k ∉ w.apply store := by
  rw [← AList.lookup_eq_none] at absent ⊢
  rw [lookup_apply]
  by_cases own : k = w.key
  · rw [if_pos own, absent, document_none (other own.symm)]
  · rw [if_neg own, absent]

theorem mem_overlay {store : Store κ φ ν} {writes : List (Write κ φ ν)} {k : κ}
    (member : k ∈ overlay store writes) : k ∈ store ∨ ∃ w ∈ writes, w.key = k := by
  induction writes generalizing store with
  | nil => exact Or.inl member
  | cons w writes ih =>
    rcases ih member with applied | ⟨v, queued, same⟩
    · rcases Write.mem_apply applied with own | stored
      · exact Or.inr ⟨w, List.mem_cons_self, own.symm⟩
      · exact Or.inl stored
    · exact Or.inr ⟨v, List.mem_cons_of_mem w queued, same⟩

theorem not_mem_overlay {store : Store κ φ ν} {writes : List (Write κ φ ν)} {k : κ}
    (absent : k ∉ store) (others : ∀ w ∈ writes, w.key = k → ¬ w.Creates) :
    k ∉ overlay store writes := by
  induction writes generalizing store with
  | nil => exact absent
  | cons w writes ih =>
    have first : k ∉ w.apply store := Write.not_mem_apply absent (others w List.mem_cons_self)
    exact ih first (fun v member => others v (List.mem_cons_of_mem w member))

/-- A queued store, the states that the shared store has been in, the keys that have
been used, and the keys of the documents that each client has read. -/
structure Shared (ι κ φ ν : Type) [DecidableEq κ] [DecidableEq φ] where
  queued : Queued ι κ φ ν
  history : List (Store κ φ ν)
  used : Set κ
  known : ι → Set κ

namespace Shared

variable [DecidableEq ι]

inductive Step (s : Shared ι κ φ ν) : Shared ι κ φ ν → Prop where
  | create (client : ι) (w : Write κ φ ν) (used : Set κ) (fresh : w.key ∉ s.used)
      (more : s.used ⊆ used) (own : w.key ∈ used) :
      Step s { s with queued := s.queued.issue client w, used := used }
  | read (client : ι) (store : Store κ φ ν) (keys : Set κ) (past : store ∈ s.history)
      (exist : ∀ k ∈ keys, k ∈ overlay store (s.queued.pending client)) :
      Step s { s with known := Function.update s.known client (s.known client ∪ keys) }
  | write (client : ι) (w : Write κ φ ν) (other : ¬ w.Creates) (known : w.key ∈ s.known client) :
      Step s { s with queued := s.queued.issue client w }
  | apply (client : ι) (queued : Queued ι κ φ ν)
      (applied : s.queued.applyHead client = some queued) :
      Step s { s with queued := queued, history := s.history ++ [queued.server] }
  | refuse (client : ι) (queued : Queued ι κ φ ν)
      (refused : s.queued.refuseHead client = some queued) :
      Step s { s with queued := queued }

/-- Every key that occurs has been used.  A creating write is the first write to its
document in its queue, and while it is queued no state of the store has had the
document and no other client has read or written it. -/
structure CreatedOnce (s : Shared ι κ φ ν) : Prop where
  present : s.queued.server ∈ s.history
  stored : ∀ store ∈ s.history, ∀ k ∈ store, k ∈ s.used
  pending : ∀ client, ∀ w ∈ s.queued.pending client, w.key ∈ s.used
  known : ∀ client, ∀ k ∈ s.known client, k ∈ s.used
  first : ∀ client, (s.queued.pending client).Pairwise fun v w => w.Creates → v.key ≠ w.key
  unborn : ∀ client, ∀ w ∈ s.queued.pending client, w.Creates →
    (∀ store ∈ s.history, w.key ∉ store) ∧
      ∀ other, other ≠ client →
        (∀ v ∈ s.queued.pending other, v.key ≠ w.key) ∧ w.key ∉ s.known other

/-- The document does not exist and no queued write creates it. -/
structure Gone (key : κ) (s : Shared ι κ φ ν) : Prop where
  absent : key ∉ s.queued.server
  pending : ∀ client, ∀ w ∈ s.queued.pending client, w.key = key → ¬ w.Creates
  used : key ∈ s.used

variable {s t : Shared ι κ φ ν} {client : ι}

omit [DecidableEq ι] in
/-- Nothing is queued and nothing has been read yet. -/
theorem CreatedOnce.start (history : s.history = [s.queued.server])
    (pending : ∀ client, s.queued.pending client = []) (known : ∀ client, s.known client = ∅)
    (stored : ∀ k ∈ s.queued.server, k ∈ s.used) : s.CreatedOnce := by
  exact {
    present := by rw [history]; exact List.mem_singleton_self _
    stored := by
      intro store past
      rw [history, List.mem_singleton] at past
      exact past ▸ stored
    pending := fun client w member => absurd (pending client ▸ member) List.not_mem_nil
    known := fun client k member => absurd (known client ▸ member) (Set.notMem_empty k)
    first := fun client => (pending client).symm ▸ List.Pairwise.nil
    unborn := fun client w member => absurd (pending client ▸ member) List.not_mem_nil }

theorem CreatedOnce.create (once : s.CreatedOnce) {w : Write κ φ ν} {used : Set κ}
    (fresh : w.key ∉ s.used) (more : s.used ⊆ used) (own : w.key ∈ used) :
    CreatedOnce { s with queued := s.queued.issue client w, used := used } := by
  have new : ∀ holder, ∀ v ∈ s.queued.pending holder, v.key ≠ w.key :=
    fun holder v member same => fresh (same ▸ once.pending holder v member)
  exact {
    present := once.present
    stored := fun store past k member => more (once.stored store past k member)
    pending := by
      intro holder v member
      rcases Queued.mem_pending_issue.mp member with old | ⟨_, rfl⟩
      · exact more (once.pending holder v old)
      · exact own
    known := fun holder k member => more (once.known holder k member)
    first := Queued.pairwise_pending_issue once.first (fun v member _ => new client v member)
    unborn := by
      intro holder v member creates
      rcases Queued.mem_pending_issue.mp member with old | ⟨rfl, rfl⟩
      · obtain ⟨never, apart⟩ := once.unborn holder v old creates
        refine ⟨never, fun other different => ⟨?_, (apart other different).2⟩⟩
        intro u queued
        rcases Queued.mem_pending_issue.mp queued with before | ⟨_, rfl⟩
        · exact (apart other different).1 u before
        · exact Ne.symm (new holder v old)
      · refine ⟨fun store past stored => fresh (once.stored store past v.key stored), ?_⟩
        intro other different
        refine ⟨?_, fun known => fresh (once.known other v.key known)⟩
        intro u queued
        rcases Queued.mem_pending_issue.mp queued with before | ⟨same, _⟩
        · exact new other u before
        · exact absurd same different }

/-- What a client newly reads it has not read of another client's queue. -/
theorem CreatedOnce.read (once : s.CreatedOnce) {store : Store κ φ ν} {keys : Set κ}
    (past : store ∈ s.history) (exist : ∀ k ∈ keys, k ∈ overlay store (s.queued.pending client)) :
    CreatedOnce { s with known := Function.update s.known client (s.known client ∪ keys) } := by
  have known : ∀ holder, ∀ k ∈ Function.update s.known client (s.known client ∪ keys) holder,
      k ∈ s.known holder ∨ holder = client ∧ k ∈ overlay store (s.queued.pending client) := by
    intro holder k member
    by_cases own : holder = client
    · subst own
      rw [Function.update_self] at member
      exact member.imp_right (fun new => ⟨rfl, exist k new⟩)
    · rw [Function.update_of_ne own] at member
      exact Or.inl member
  exact { once with
    known := by
      intro holder k member
      rcases known holder k member with old | ⟨_, read⟩
      · exact once.known holder k old
      · rcases mem_overlay read with stored | ⟨w, queued, rfl⟩
        · exact once.stored store past k stored
        · exact once.pending client w queued
    unborn := by
      intro holder w member creates
      obtain ⟨never, apart⟩ := once.unborn holder w member creates
      refine ⟨never, fun other different => ⟨(apart other different).1, ?_⟩⟩
      intro held
      rcases known other w.key held with old | ⟨rfl, read⟩
      · exact (apart other different).2 old
      · rcases mem_overlay read with stored | ⟨v, queued, same⟩
        · exact never store past stored
        · exact (apart other different).1 v queued same }

theorem CreatedOnce.write (once : s.CreatedOnce) {w : Write κ φ ν} (other : ¬ w.Creates)
    (known : w.key ∈ s.known client) :
    CreatedOnce { s with queued := s.queued.issue client w } := by
  exact { once with
    pending := by
      intro holder v member
      rcases Queued.mem_pending_issue.mp member with old | ⟨_, rfl⟩
      · exact once.pending holder v old
      · exact once.known client v.key known
    first := Queued.pairwise_pending_issue once.first (fun _ _ creates => absurd creates other)
    unborn := by
      intro holder v member creates
      rcases Queued.mem_pending_issue.mp member with old | ⟨_, rfl⟩
      · obtain ⟨never, apart⟩ := once.unborn holder v old creates
        refine ⟨never, fun another different => ⟨?_, (apart another different).2⟩⟩
        intro u queued
        rcases Queued.mem_pending_issue.mp queued with before | ⟨rfl, rfl⟩
        · exact (apart another different).1 u before
        · exact fun same => (apart another different).2 (same ▸ known)
      · exact absurd creates other }

/-- The first write of a queue is about another document than any creating write
that stays queued. -/
theorem CreatedOnce.head_key_ne (once : s.CreatedOnce) {head : Write κ φ ν}
    {queued : Queued ι κ φ ν} (left : Queued.HeadLeft s.queued client head queued) {holder : ι}
    {w : Write κ φ ν} (member : w ∈ queued.pending holder) (creates : w.Creates) :
    head.key ≠ w.key := by
  by_cases own : holder = client
  · subst own
    have ordered := once.first holder
    rw [left.queue, List.pairwise_cons] at ordered
    exact ordered.1 w member creates
  · rw [left.others holder own] at member
    exact ((once.unborn holder w member creates).2 client (Ne.symm own)).1 head left.mem

/-- A write leaves its queue; the states of the store since are those of the history
and the present one. -/
theorem CreatedOnce.leave (once : s.CreatedOnce) {head : Write κ φ ν} {queued : Queued ι κ φ ν}
    {history : List (Store κ φ ν)} (left : Queued.HeadLeft s.queued client head queued)
    (present : queued.server ∈ history)
    (states : ∀ store ∈ history, store ∈ s.history ∨ store = head.apply s.queued.server) :
    CreatedOnce { s with queued := queued, history := history } := by
  have kept : ∀ holder, ∀ w ∈ queued.pending holder, w ∈ s.queued.pending holder :=
    fun holder w member => (left.sublist holder).subset member
  exact {
    present := present
    stored := by
      intro store past k member
      rcases states store past with old | rfl
      · exact once.stored store old k member
      · rcases Write.mem_apply member with own | stored
        · exact own ▸ once.pending client head left.mem
        · exact once.stored _ once.present k stored
    pending := fun holder w member => once.pending holder w (kept holder w member)
    known := once.known
    first := fun holder => (once.first holder).sublist (left.sublist holder)
    unborn := by
      intro holder w member creates
      obtain ⟨never, apart⟩ := once.unborn holder w (kept holder w member) creates
      refine ⟨?_, ?_⟩
      · intro store past
        rcases states store past with old | rfl
        · exact never store old
        · refine Write.not_mem_apply (never _ once.present) (fun same => ?_)
          exact absurd same (once.head_key_ne left member creates)
      · intro other different
        refine ⟨?_, (apart other different).2⟩
        exact fun v queued => (apart other different).1 v (kept other v queued) }

/-- Documents are created once along every step. -/
theorem CreatedOnce.step (once : s.CreatedOnce) (taken : s.Step t) : t.CreatedOnce := by
  cases taken with
  | create client w used fresh more own => exact once.create fresh more own
  | read client store keys past exist => exact once.read past exist
  | write client w other known => exact once.write other known
  | apply client queued applied =>
    obtain ⟨head, left, server⟩ := Queued.applyHead_eq_some applied
    refine once.leave left (List.mem_append_right _ (List.mem_singleton_self _)) ?_
    intro store past
    rcases List.mem_append.mp past with old | new
    · exact Or.inl old
    · exact Or.inr ((List.mem_singleton.mp new).trans server)
  | refuse client queued refused =>
    obtain ⟨head, left, server⟩ := Queued.refuseHead_eq_some refused
    exact once.leave left (server ▸ once.present) (fun store past => Or.inl past)

/-- When a deletion reaches the store, no write that creates the document is queued
any more. -/
theorem CreatedOnce.gone (once : s.CreatedOnce) {key : κ} {rest : List (Write κ φ ν)}
    {queued : Queued ι κ φ ν} {history : List (Store κ φ ν)}
    (queue : s.queued.pending client = .delete key :: rest)
    (applied : s.queued.applyHead client = some queued) :
    Gone key { s with queued := queued, history := history } := by
  obtain ⟨head, left, server⟩ := Queued.applyHead_eq_some applied
  obtain rfl : Write.delete key = head := by
    have same := queue.symm.trans left.queue
    exact (List.cons.inj same).1
  exact {
    absent := by
      rw [server, ← AList.lookup_eq_none, Write.lookup_apply]
      exact if_pos rfl
    pending := by
      intro holder w member same creates
      exact once.head_key_ne left member creates same.symm
    used := once.pending client (.delete key) (by rw [queue]; exact List.mem_cons_self) }

/-- A document that is gone stays gone. -/
theorem Gone.step {key : κ} (gone : s.Gone key) (taken : s.Step t) : t.Gone key := by
  cases taken with
  | create client w used fresh more own =>
    exact {
      absent := gone.absent
      pending := by
        intro holder v member same
        rcases Queued.mem_pending_issue.mp member with old | ⟨_, rfl⟩
        · exact gone.pending holder v old same
        · exact absurd (same ▸ gone.used) fresh
      used := more gone.used }
  | read client store keys past exist => exact { gone with }
  | write client w other known =>
    exact { gone with
      pending := by
        intro holder v member same
        rcases Queued.mem_pending_issue.mp member with old | ⟨_, rfl⟩
        · exact gone.pending holder v old same
        · exact other }
  | apply client queued applied =>
    obtain ⟨head, left, server⟩ := Queued.applyHead_eq_some applied
    exact {
      absent := by
        rw [server]
        exact Write.not_mem_apply gone.absent (gone.pending client head left.mem)
      pending := fun holder w member =>
        gone.pending holder w ((left.sublist holder).subset member)
      used := gone.used }
  | refuse client queued refused =>
    obtain ⟨head, left, server⟩ := Queued.refuseHead_eq_some refused
    exact {
      absent := server ▸ gone.absent
      pending := fun holder w member =>
        gone.pending holder w ((left.sublist holder).subset member)
      used := gone.used }

omit [DecidableEq ι] in
/-- No client reads a document that is gone. -/
theorem Gone.not_mem_view {key : κ} (gone : s.Gone key) (client : ι) :
    key ∉ s.queued.view client :=
  not_mem_overlay gone.absent (gone.pending client)

end Shared

end DocumentStore
