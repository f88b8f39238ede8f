import Mathlib.Data.List.AList

/-!
# Document stores with queued writes

A store maps keys to documents and a document maps field names to values.
Clients issue writes into queues of their own; a queued write reaches the shared
store later, in the order its client issued it.  A client reads the shared store
overlaid with its own queue.

The rules at the end lift a property of single documents to everything that any
client can read, from one obligation for each kind of write.
-/

namespace DocumentStore

variable {κ φ ν : Type} [DecidableEq κ] [DecidableEq φ]

abbrev Fields (φ ν : Type) := AList (fun _ : φ => ν)

/-- Equality of documents by their entries, which evaluates. -/
instance [DecidableEq ν] : DecidableEq (Fields φ ν) := fun a b =>
  decidable_of_iff (a.entries = b.entries) AList.ext_iff.symm

abbrev Store (κ φ ν : Type) := AList (fun _ : κ => Fields φ ν)

/-- `set` replaces the whole document, `merge` only the named fields of it,
`update` does so only when the document exists. -/
inductive Write (κ φ ν : Type) where
  | set (key : κ) (fields : Fields φ ν)
  | merge (key : κ) (fields : Fields φ ν)
  | update (key : κ) (fields : Fields φ ν)
  | delete (key : κ)

namespace Write

def key : Write κ φ ν → κ
  | .set key _ | .merge key _ | .update key _ | .delete key => key

/-- What the write makes of the document at its key. -/
def document : Write κ φ ν → Option (Fields φ ν) → Option (Fields φ ν)
  | .set _ fields, _ => some fields
  | .merge _ fields, old => some (fields ∪ old.getD ∅)
  | .update _ fields, old => old.map (fields ∪ ·)
  | .delete _, _ => none

def apply (w : Write κ φ ν) (store : Store κ φ ν) : Store κ φ ν :=
  match w.document (store.lookup w.key) with
  | some fields => store.insert w.key fields
  | none => store.erase w.key

theorem lookup_apply (w : Write κ φ ν) (store : Store κ φ ν) (k : κ) :
    (w.apply store).lookup k =
      if k = w.key then w.document (store.lookup k) else store.lookup k := by
  unfold apply
  by_cases equal : k = w.key
  · subst equal
    cases made : w.document (store.lookup w.key) with
    | none => simp
    | some fields => simp
  · cases w.document (store.lookup w.key) with
    | none => simp [AList.lookup_erase_ne equal, equal]
    | some fields => simp [AList.lookup_insert_ne equal, equal]

/-- A write that may only turn a document with property `I` into one. -/
def Respects (I : κ → Fields φ ν → Prop) (w : Write κ φ ν) : Prop :=
  ∀ old, (∀ fields ∈ old, I w.key fields) → ∀ fields ∈ w.document old, I w.key fields

end Write

/-- Every document of the store has property `I`. -/
def Holds (I : κ → Fields φ ν → Prop) (store : Store κ φ ν) : Prop :=
  ∀ key, ∀ fields ∈ store.lookup key, I key fields

def overlay (store : Store κ φ ν) (writes : List (Write κ φ ν)) : Store κ φ ν :=
  writes.foldl (fun store w => w.apply store) store

/-- A document of the overlay comes from the writes with its key. -/
theorem lookup_overlay (store : Store κ φ ν) (writes : List (Write κ φ ν)) (key : κ) :
    (overlay store writes).lookup key =
      (writes.filter (·.key = key)).foldl (fun stored w => w.document stored) (store.lookup key) := by
  induction writes generalizing store with
  | nil => rfl
  | cons w writes ih =>
    show (overlay (w.apply store) writes).lookup key = _
    rw [ih, Write.lookup_apply]
    by_cases own : w.key = key
    · rw [if_pos own.symm, List.filter_cons_of_pos (by simpa using own)]
      rfl
    · rw [if_neg (Ne.symm own), List.filter_cons_of_neg (by simpa using own)]

section Invariant

variable {I : κ → Fields φ ν → Prop}

theorem Holds.apply {store : Store κ φ ν} {w : Write κ φ ν} (holds : Holds I store)
    (respects : w.Respects I) : Holds I (w.apply store) := by
  intro key fields found
  rw [Write.lookup_apply] at found
  by_cases equal : key = w.key
  · subst equal
    rw [if_pos rfl] at found
    exact respects _ (holds w.key) fields found
  · rw [if_neg equal] at found
    exact holds key fields found

theorem Holds.overlay {store : Store κ φ ν} {writes : List (Write κ φ ν)}
    (holds : Holds I store) (respects : ∀ w ∈ writes, w.Respects I) :
    Holds I (overlay store writes) := by
  induction writes generalizing store with
  | nil => exact holds
  | cons w writes ih =>
    exact ih (holds.apply (respects w (by simp)))
      (fun other member => respects other (by simp [member]))

end Invariant

/-- A shared store and the writes each client still has queued, oldest first. -/
structure Queued (ι κ φ ν : Type) [DecidableEq κ] [DecidableEq φ] where
  server : Store κ φ ν
  pending : ι → List (Write κ φ ν)

namespace Queued

variable {ι : Type} [DecidableEq ι]

/-- What a client reads: the shared store with its own queued writes on top. -/
def view (q : Queued ι κ φ ν) (client : ι) : Store κ φ ν :=
  overlay q.server (q.pending client)

def issue (q : Queued ι κ φ ν) (client : ι) (w : Write κ φ ν) : Queued ι κ φ ν :=
  { q with pending := Function.update q.pending client (q.pending client ++ [w]) }

/-- The oldest queued write of a client reaches the shared store. -/
def applyHead (q : Queued ι κ φ ν) (client : ι) : Option (Queued ι κ φ ν) :=
  match q.pending client with
  | [] => none
  | w :: rest =>
    some { server := w.apply q.server, pending := Function.update q.pending client rest }

/-- The oldest queued write of a client is refused and forgotten. -/
def refuseHead (q : Queued ι κ φ ν) (client : ι) : Option (Queued ι κ φ ν) :=
  match q.pending client with
  | [] => none
  | _ :: rest => some { q with pending := Function.update q.pending client rest }

theorem mem_pending_issue {q : Queued ι κ φ ν} {client other : ι} {v w : Write κ φ ν} :
    v ∈ (q.issue client w).pending other ↔ v ∈ q.pending other ∨ (other = client ∧ v = w) := by
  unfold issue
  by_cases own : other = client
  · subst own
    simp
  · simp [own]

theorem pairwise_pending_issue {R : Write κ φ ν → Write κ φ ν → Prop} {q : Queued ι κ φ ν}
    {client : ι} {w : Write κ φ ν} (ordered : ∀ other, (q.pending other).Pairwise R)
    (last : ∀ v ∈ q.pending client, R v w) (other : ι) :
    ((q.issue client w).pending other).Pairwise R := by
  unfold issue
  by_cases own : other = client
  · subst own
    simp only [Function.update_self, List.pairwise_append]
    refine ⟨ordered other, List.pairwise_singleton R w, ?_⟩
    intro v member u new
    rw [List.mem_singleton.mp new]
    exact last v member
  · simp only [Function.update_of_ne own]
    exact ordered other

/-- The client's queue loses its first write, which is `w`, and the other queues stay
as they are. -/
structure HeadLeft (q : Queued ι κ φ ν) (client : ι) (w : Write κ φ ν) (q' : Queued ι κ φ ν) :
    Prop where
  queue : q.pending client = w :: q'.pending client
  others : ∀ other, other ≠ client → q'.pending other = q.pending other

theorem applyHead_eq_some {q q' : Queued ι κ φ ν} {client : ι}
    (applied : q.applyHead client = some q') :
    ∃ w, HeadLeft q client w q' ∧ q'.server = w.apply q.server := by
  unfold applyHead at applied
  cases queue : q.pending client with
  | nil => simp [queue] at applied
  | cons w rest =>
    simp only [queue, Option.some.injEq] at applied
    subst applied
    exact ⟨w, ⟨by simp [queue], fun other different => Function.update_of_ne different _ _⟩, rfl⟩

theorem refuseHead_eq_some {q q' : Queued ι κ φ ν} {client : ι}
    (refused : q.refuseHead client = some q') :
    ∃ w, HeadLeft q client w q' ∧ q'.server = q.server := by
  unfold refuseHead at refused
  cases queue : q.pending client with
  | nil => simp [queue] at refused
  | cons w rest =>
    simp only [queue, Option.some.injEq] at refused
    subst refused
    exact ⟨w, ⟨by simp [queue], fun other different => Function.update_of_ne different _ _⟩, rfl⟩

omit [DecidableEq ι] in
theorem HeadLeft.mem {q q' : Queued ι κ φ ν} {client : ι} {w : Write κ φ ν}
    (left : HeadLeft q client w q') : w ∈ q.pending client := by
  rw [left.queue]
  exact List.mem_cons_self

theorem HeadLeft.sublist {q q' : Queued ι κ φ ν} {client : ι} {w : Write κ φ ν}
    (left : HeadLeft q client w q') (other : ι) :
    (q'.pending other).Sublist (q.pending other) := by
  by_cases own : other = client
  · rw [own, left.queue]
    exact List.sublist_cons_self w _
  · rw [left.others other own]

/-- When a write reaches the shared store, what its client reads stays as it
was. -/
theorem view_applyHead_self {q q' : Queued ι κ φ ν} {client : ι}
    (applied : q.applyHead client = some q') : q'.view client = q.view client := by
  obtain ⟨w, left, server⟩ := applyHead_eq_some applied
  rw [view, view, left.queue, server]
  rfl

/-- Every stored document has property `I` and every queued write respects it. -/
def Invariant (I : κ → Fields φ ν → Prop) (q : Queued ι κ φ ν) : Prop :=
  Holds I q.server ∧ ∀ client, ∀ w ∈ q.pending client, w.Respects I

variable {I : κ → Fields φ ν → Prop} {q q' : Queued ι κ φ ν} {client : ι}

omit [DecidableEq ι] in
/-- Every document that any client can read has property `I`. -/
theorem Invariant.view (h : Invariant I q) (client : ι) : Holds I (q.view client) :=
  h.1.overlay (h.2 client)

theorem Invariant.issue (h : Invariant I q) {w : Write κ φ ν} (respects : w.Respects I) :
    Invariant I (q.issue client w) := by
  refine ⟨h.1, ?_⟩
  intro other v member
  rcases mem_pending_issue.mp member with old | ⟨_, rfl⟩
  · exact h.2 other v old
  · exact respects

theorem Invariant.applyHead (h : Invariant I q) (applied : q.applyHead client = some q') :
    Invariant I q' := by
  obtain ⟨w, left, server⟩ := applyHead_eq_some applied
  have head : w.Respects I := h.2 client w left.mem
  refine ⟨?_, fun other v member => h.2 other v ((left.sublist other).subset member)⟩
  rw [server]
  exact h.1.apply head

theorem Invariant.refuseHead (h : Invariant I q) (refused : q.refuseHead client = some q') :
    Invariant I q' := by
  obtain ⟨w, left, server⟩ := refuseHead_eq_some refused
  refine ⟨?_, fun other v member => h.2 other v ((left.sublist other).subset member)⟩
  rw [server]
  exact h.1

end Queued

end DocumentStore
