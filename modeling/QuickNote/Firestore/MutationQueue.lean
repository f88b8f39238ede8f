import QuickNote.Firestore.Overlay
import QuickNote.Library.EventSystem

/-!
# The queue of pending writes

`LevelDbMutationQueue` (`core/src/local/leveldb_mutation_queue.cc`), which keeps the
batches of writes that the server does not have yet in two tables of the local
database: the batches by their ids, and an index of the ids by document key.  Where
the client fails a `HARD_ASSERT` or runs into `HARD_FAIL` the result is `none`.
The tables are those of one user.
-/

namespace QuickNote.Firestore

open SortedEntries

/-- `MutationBatch` (`core/src/model/mutation_batch.h`).  The base mutations, which
only field transforms have, and the write time are left out. -/
structure MutationBatch (δ κ α : Type) [LinearOrder κ] where
  batchId : ℕ
  mutations : List (Mutation δ κ α)

/-- The two tables and `next_batch_id_`. -/
structure MutationQueue (δ κ α : Type) [LinearOrder κ] where
  nextBatchId : ℕ
  rows : List (ℕ × MutationBatch δ κ α)
  references : List (δ × ℕ)

namespace MutationQueue

variable {δ κ α : Type} [LinearOrder κ]

def empty : MutationQueue δ κ α := { nextBatchId := 1, rows := [], references := [] }

/-- `Start` (`leveldb_mutation_queue.cc:137`): the id after the largest one stored. -/
def start (self : MutationQueue δ κ α) : MutationQueue δ κ α :=
  { self with nextBatchId := (self.rows.map Prod.fst).foldr max 0 + 1 }

/-- `AddMutationBatch` (`leveldb_mutation_queue.cc:160`). -/
def addMutationBatch (self : MutationQueue δ κ α) (mutations : List (Mutation δ κ α)) :
    Option (MutationQueue δ κ α × MutationBatch δ κ α) :=
  -- Cannot create an empty mutation batch.
  if mutations = [] then none
  else
    let batch : MutationBatch δ κ α := { batchId := self.nextBatchId, mutations }
    some ({
      nextBatchId := self.nextBatchId + 1
      rows := insertEntry batch.batchId batch self.rows
      references := mutations.map (fun m => (m.key, batch.batchId)) ++ self.references }, batch)

def lookupMutationBatch (self : MutationQueue δ κ α) (batchId : ℕ) :
    Option (MutationBatch δ κ α) :=
  self.rows.lookup batchId

def allMutationBatches (self : MutationQueue δ κ α) : List (MutationBatch δ κ α) :=
  self.rows.map Prod.snd

/-- `NextMutationBatchAfterBatchId` (`leveldb_mutation_queue.cc:353`). -/
def nextMutationBatchAfterBatchId (self : MutationQueue δ κ α) (batchId : ℕ) :
    Option (MutationBatch δ κ α) :=
  (self.rows.dropWhile fun row => row.1 < batchId + 1).head?.map Prod.snd

/-- `AllMutationBatchesWithIds` (`leveldb_mutation_queue.cc:434`). -/
def allMutationBatchesWithIds (self : MutationQueue δ κ α) (batchIds : List ℕ) :
    Option (List (MutationBatch δ κ α)) :=
  batchIds.mapM fun batchId => self.rows.lookup batchId

/-- `PerformConsistencyCheck` (`leveldb_mutation_queue.cc:395`). -/
def performConsistencyCheck (self : MutationQueue δ κ α) : Bool :=
  !self.rows.isEmpty || self.references.isEmpty

/-- The ids ascend below the next one, and the index lists the documents of the
stored batches. -/
structure Consistent (queue : MutationQueue δ κ α) : Prop where
  ascending : Ascending queue.rows
  fresh : ∀ row ∈ queue.rows, row.1 < queue.nextBatchId
  named : ∀ row ∈ queue.rows, row.2.batchId = row.1 ∧ row.2.mutations ≠ []
  indexed : ∀ key batchId, (key, batchId) ∈ queue.references ↔
    ∃ batch, (batchId, batch) ∈ queue.rows ∧ ∃ m ∈ batch.mutations, m.key = key

namespace Consistent

variable {queue queue' : MutationQueue δ κ α}

theorem nothing : (empty : MutationQueue δ κ α).Consistent :=
  ⟨Ascending.nil, by simp [empty], by simp [empty], by simp [empty]⟩

theorem start (h : queue.Consistent) : queue.start.Consistent := by
  refine ⟨h.ascending, fun row member => ?_, h.named, h.indexed⟩
  have bound : ∀ ids : List ℕ, ∀ id ∈ ids, id < ids.foldr max 0 + 1 := by
    intro ids
    induction ids with
    | nil => simp
    | cons first rest ih =>
      intro id member
      rw [List.foldr_cons]
      rcases List.mem_cons.mp member with rfl | later
      · omega
      · have := ih id later
        omega
  exact bound _ row.1 (List.mem_map_of_mem member)

/-- A new batch goes behind all the others. -/
theorem add (h : queue.Consistent) {mutations : List (Mutation δ κ α)}
    {batch : MutationBatch δ κ α} (added : queue.addMutationBatch mutations = some (queue', batch)) :
    queue'.Consistent ∧ batch.mutations = mutations ∧ batch.batchId = queue.nextBatchId ∧
      queue'.rows = queue.rows ++ [(batch.batchId, batch)] := by
  rw [addMutationBatch] at added
  by_cases none_given : mutations = []
  · simp [none_given] at added
  · rw [if_neg none_given, Option.some.injEq, Prod.mk.injEq] at added
    obtain ⟨rfl, rfl⟩ := added
    have behind : ∀ {rows : List (ℕ × MutationBatch δ κ α)} (batch : MutationBatch δ κ α),
        (∀ row ∈ rows, row.1 < queue.nextBatchId) →
          insertEntry queue.nextBatchId batch rows = rows ++ [(queue.nextBatchId, batch)] := by
      intro rows batch
      induction rows with
      | nil => exact fun _ => rfl
      | cons row rest ih =>
        intro before
        have first : row.1 < queue.nextBatchId := before row (by simp)
        rw [insertEntry, if_neg first.asymm, if_neg first.ne',
          ih fun row' member => before row' (by simp [member])]
        rfl
    refine ⟨⟨h.ascending.insert _ _, fun row member => ?_, fun row member => ?_, ?_⟩, rfl, rfl,
      behind _ h.fresh⟩
    · rcases mem_insertEntry member with rfl | old
      · exact Nat.lt_succ_self _
      · exact Nat.lt_succ_of_lt (h.fresh row old)
    · rcases mem_insertEntry member with rfl | old
      · exact ⟨rfl, none_given⟩
      · exact h.named row old
    · intro key batchId
      simp only [behind _ h.fresh, List.mem_append, List.mem_map, List.mem_singleton,
        Prod.mk.injEq, h.indexed key batchId]
      constructor
      · rintro (⟨m, member, rfl, rfl⟩ | ⟨batch, row, holds⟩)
        · exact ⟨_, Or.inr ⟨rfl, rfl⟩, m, member, rfl⟩
        · exact ⟨batch, Or.inl row, holds⟩
      · rintro ⟨batch, row | ⟨rfl, rfl⟩, m, member, rfl⟩
        · exact Or.inr ⟨batch, row, m, member, rfl⟩
        · exact Or.inl ⟨m, member, rfl, rfl⟩

end Consistent

section Keys

variable [DecidableEq δ]

/-- `RemoveMutationBatch` (`leveldb_mutation_queue.cc:188`). -/
def removeMutationBatch (self : MutationQueue δ κ α) (batch : MutationBatch δ κ α) :
    Option (MutationQueue δ κ α) :=
  match self.rows.lookup batch.batchId with
  | none => none
  | some _ =>
      some { self with
        rows := without self.rows [batch.batchId]
        references := self.references.filter fun reference =>
          reference ∉ batch.mutations.map fun m => (m.key, batch.batchId) }

/-- `AllMutationBatchesAffectingDocumentKeys` (`leveldb_mutation_queue.cc:226`). -/
def allMutationBatchesAffectingDocumentKeys (self : MutationQueue δ κ α) (keys : List δ) :
    Option (List (MutationBatch δ κ α)) :=
  self.allMutationBatchesWithIds
    (((self.references.filter fun reference => reference.1 ∈ keys).map Prod.snd).foldr insertKey [])

/-- The batches with a mutation of one of the documents. -/
def affecting (self : MutationQueue δ κ α) (keys : List δ) : List (MutationBatch δ κ α) :=
  self.allMutationBatches.filter fun batch => ∃ m ∈ batch.mutations, m.key ∈ keys

namespace Consistent

variable {queue queue' : MutationQueue δ κ α}

omit [DecidableEq δ] in
/-- Two rows with one id are the same row. -/
theorem row_unique (h : queue.Consistent) {batchId : ℕ} {a b : MutationBatch δ κ α}
    (ha : (batchId, a) ∈ queue.rows) (hb : (batchId, b) ∈ queue.rows) : a = b := by
  have first : queue.rows.lookup batchId = some a := h.ascending.lookup_of_mem ha
  have second : queue.rows.lookup batchId = some b := h.ascending.lookup_of_mem hb
  rw [first, Option.some.injEq] at second
  exact second

/-- A stored batch is removed with all its index entries. -/
theorem remove (h : queue.Consistent) {batch : MutationBatch δ κ α}
    (stored : queue.lookupMutationBatch batch.batchId = some batch)
    (removed : queue.removeMutationBatch batch = some queue') :
    queue'.Consistent ∧ queue'.rows = without queue.rows [batch.batchId] := by
  have row : (batch.batchId, batch) ∈ queue.rows := mem_keys_of_lookup stored
  rw [lookupMutationBatch] at stored
  rw [removeMutationBatch, stored] at removed
  simp only [Option.some.injEq] at removed
  subst removed
  have kept : ∀ {row : ℕ × MutationBatch δ κ α},
      row ∈ without queue.rows [batch.batchId] ↔ row ∈ queue.rows ∧ row.1 ≠ batch.batchId := by
    simp [without]
  refine ⟨⟨h.ascending.remove _, fun row member => h.fresh row (kept.mp member).1,
    fun row member => h.named row (kept.mp member).1, fun key batchId => ?_⟩, rfl⟩
  rw [List.mem_filter, h.indexed key batchId]
  constructor
  · rintro ⟨⟨other, here, m, member, owner⟩, absent⟩
    refine ⟨other, kept.mpr ⟨here, fun same => ?_⟩, m, member, owner⟩
    have different : batchId = batch.batchId := same
    subst different
    have equal : other = batch := h.row_unique here row
    subst equal
    exact of_decide_eq_true absent (List.mem_map.mpr ⟨m, member, by rw [owner]⟩)
  · rintro ⟨other, here, m, member, owner⟩
    obtain ⟨still, different⟩ := kept.mp here
    refine ⟨⟨other, still, m, member, owner⟩, decide_eq_true fun listed => ?_⟩
    obtain ⟨_, _, same⟩ := List.mem_map.mp listed
    exact different (congrArg Prod.snd same).symm

/-- The ids read from the index lead to the batches with a mutation of one of the
documents, in the order of the queue. -/
theorem allMutationBatchesAffectingDocumentKeys_eq (h : queue.Consistent) (keys : List δ) :
    queue.allMutationBatchesAffectingDocumentKeys keys = some (queue.affecting keys) := by
  have chosen : ((queue.references.filter fun reference => reference.1 ∈ keys).map
      Prod.snd).foldr insertKey [] =
        (queue.rows.filter fun row => ∃ m ∈ row.2.mutations, m.key ∈ keys).map Prod.fst := by
    refine eq_of_mem_iff (foldr_insertKey_pairwise _ List.Pairwise.nil)
      (List.pairwise_map.mpr (h.ascending.sublist List.filter_sublist)) fun batchId => ?_
    rw [mem_foldr_insertKey]
    constructor
    · rintro (listed | nothing)
      · obtain ⟨⟨key, id⟩, inside, rfl⟩ := List.mem_map.mp listed
        obtain ⟨reference, wanted⟩ := List.mem_filter.mp inside
        obtain ⟨batch, row, m, member, owner⟩ := (h.indexed key id).mp reference
        have touches : m.key ∈ keys := owner ▸ of_decide_eq_true wanted
        exact List.mem_map.mpr ⟨(id, batch),
          List.mem_filter.mpr ⟨row, decide_eq_true ⟨m, member, touches⟩⟩, rfl⟩
      · simp at nothing
    · intro listed
      obtain ⟨⟨id, batch⟩, inside, rfl⟩ := List.mem_map.mp listed
      obtain ⟨row, holds⟩ := List.mem_filter.mp inside
      obtain ⟨m, member, wanted⟩ := of_decide_eq_true holds
      have reference : (m.key, id) ∈ queue.references :=
        (h.indexed m.key id).mpr ⟨batch, row, m, member, rfl⟩
      exact Or.inl (List.mem_map.mpr ⟨(m.key, id),
        List.mem_filter.mpr ⟨reference, decide_eq_true wanted⟩, rfl⟩)
  have found : ∀ {rows : List (ℕ × MutationBatch δ κ α)}, (∀ row ∈ rows, row ∈ queue.rows) →
      (rows.map Prod.fst).mapM (fun batchId => queue.rows.lookup batchId) =
        some (rows.map Prod.snd) := by
    intro rows
    induction rows with
    | nil => exact fun _ => rfl
    | cons row rest ih =>
      intro within
      have first : queue.rows.lookup row.1 = some row.2 :=
        h.ascending.lookup_of_mem (within row (by simp))
      rw [List.map_cons, List.mapM_cons, first,
        ih fun row' member => within row' (by simp [member])]
      rfl
  rw [allMutationBatchesAffectingDocumentKeys, allMutationBatchesWithIds, chosen,
    found fun row member => (List.mem_filter.mp member).1, affecting, allMutationBatches,
    List.filter_map]
  rfl

omit [DecidableEq δ] in
/-- Seeking past an id finds the first batch behind it. -/
theorem nextMutationBatchAfterBatchId_eq (h : queue.Consistent) (batchId : ℕ) :
    queue.nextMutationBatchAfterBatchId batchId =
      (queue.allMutationBatches.filter fun batch => batchId < batch.batchId).head? := by
  have seek : ∀ {rows : List (ℕ × MutationBatch δ κ α)},
      (∀ row ∈ rows, row.2.batchId = row.1) →
        (rows.dropWhile fun row => row.1 < batchId + 1).head?.map Prod.snd =
          ((rows.map Prod.snd).filter fun batch => batchId < batch.batchId).head? := by
    intro rows
    induction rows with
    | nil => exact fun _ => rfl
    | cons row rest ih =>
      intro named
      have name : row.2.batchId = row.1 := named row (by simp)
      rw [List.map_cons]
      by_cases before : row.1 < batchId + 1
      · rw [List.dropWhile_cons_of_pos (by simpa using before),
          List.filter_cons_of_neg (by simp only [name, decide_eq_true_eq]; omega)]
        exact ih fun row' member => named row' (by simp [member])
      · rw [List.dropWhile_cons_of_neg (by simpa using before),
          List.filter_cons_of_pos (by simp only [name, decide_eq_true_eq]; omega)]
        rfl
  exact seek fun row member => (h.named row member).1

omit [DecidableEq δ] in
/-- An empty queue leaves nothing in the index. -/
theorem performConsistencyCheck_eq (h : queue.Consistent) : queue.performConsistencyCheck = true := by
  rw [performConsistencyCheck]
  cases rows : queue.rows with
  | cons row rest => rfl
  | nil =>
    cases references : queue.references with
    | nil => rfl
    | cons reference rest =>
      obtain ⟨batch, row, _⟩ := (h.indexed reference.1 reference.2).mp (by simp [references])
      simp [rows] at row

omit [DecidableEq δ] in
theorem ids_ascending (h : queue.Consistent) :
    (queue.allMutationBatches.map MutationBatch.batchId).Pairwise (· < ·) := by
  have ids : queue.allMutationBatches.map MutationBatch.batchId = queue.rows.map Prod.fst := by
    rw [allMutationBatches, List.map_map]
    exact List.map_congr_left fun row member => (h.named row member).1
  rw [ids]
  exact List.pairwise_map.mpr h.ascending

omit [DecidableEq δ] in
/-- The oldest batch is found by its id. -/
theorem lookup_oldest (h : queue.Consistent) {batch : MutationBatch δ κ α}
    (oldest : queue.allMutationBatches.head? = some batch) :
    queue.lookupMutationBatch batch.batchId = some batch := by
  obtain ⟨row, stored, rfl⟩ := List.mem_map.mp (List.mem_of_mem_head? oldest)
  rw [lookupMutationBatch, (h.named row stored).1]
  exact h.ascending.lookup_of_mem stored

omit [DecidableEq δ] in
theorem batches_add (h : queue.Consistent) {mutations : List (Mutation δ κ α)}
    {batch : MutationBatch δ κ α} (added : queue.addMutationBatch mutations = some (queue', batch)) :
    queue'.allMutationBatches = queue.allMutationBatches ++ [batch] := by
  rw [allMutationBatches, (h.add added).2.2.2, List.map_append]
  rfl

omit [DecidableEq δ] in
theorem lookupMutationBatch_eq (h : queue.Consistent) {batchId : ℕ} {batch : MutationBatch δ κ α}
    (found : queue.lookupMutationBatch batchId = some batch) :
    batch.batchId = batchId ∧ batch ∈ queue.allMutationBatches := by
  have row : (batchId, batch) ∈ queue.rows := mem_keys_of_lookup found
  exact ⟨(h.named _ row).1, List.mem_map_of_mem row⟩

end Consistent

/-- The calls that change the queue; a batch is removed as it was read from there. -/
inductive Event (δ κ α : Type) [LinearOrder κ] where
  | start
  | addMutationBatch (mutations : List (Mutation δ κ α))
  | removeMutationBatch (batchId : ℕ)

def step (queue : MutationQueue δ κ α) : Event δ κ α → Option (MutationQueue δ κ α)
  | .start => some queue.start
  | .addMutationBatch mutations => (queue.addMutationBatch mutations).map Prod.fst
  | .removeMutationBatch batchId =>
      (queue.lookupMutationBatch batchId).bind queue.removeMutationBatch

def system (δ κ α : Type) [DecidableEq δ] [LinearOrder κ] :
    EventSystem (MutationQueue δ κ α) (Event δ κ α) where
  init := empty
  step := step

theorem Consistent.step {queue queue' : MutationQueue δ κ α} (h : queue.Consistent)
    {event : Event δ κ α} (taken : queue.step event = some queue') : queue'.Consistent := by
  cases event with
  | start =>
    rw [MutationQueue.step, Option.some.injEq] at taken
    exact taken ▸ h.start
  | addMutationBatch mutations =>
    obtain ⟨⟨next, batch⟩, added, rfl⟩ := Option.map_eq_some_iff.mp taken
    exact (h.add added).1
  | removeMutationBatch batchId =>
    obtain ⟨batch, found, removed⟩ := Option.bind_eq_some_iff.mp taken
    obtain ⟨rfl, _⟩ := h.lookupMutationBatch_eq found
    exact (h.remove found removed).1

/-- A batch gets into the queue by being written and leaves it by its id. -/
theorem Consistent.step_batches {queue queue' : MutationQueue δ κ α} (h : queue.Consistent)
    {event : Event δ κ α} (taken : queue.step event = some queue') :
    (∀ batch ∈ queue'.allMutationBatches,
      batch ∈ queue.allMutationBatches ∨ event = .addMutationBatch batch.mutations) ∧
    ∀ batch ∈ queue.allMutationBatches,
      batch ∈ queue'.allMutationBatches ∨ event = .removeMutationBatch batch.batchId := by
  cases event with
  | start =>
    rw [MutationQueue.step, Option.some.injEq] at taken
    subst taken
    exact ⟨fun _ member => Or.inl member, fun _ member => Or.inl member⟩
  | addMutationBatch mutations =>
    obtain ⟨⟨next, new⟩, added, rfl⟩ := Option.map_eq_some_iff.mp taken
    obtain ⟨_, given, _, _⟩ := h.add added
    rw [h.batches_add added]
    refine ⟨fun batch member => ?_, fun batch member => Or.inl (List.mem_append_left _ member)⟩
    rcases List.mem_append.mp member with old | here
    · exact Or.inl old
    · rw [List.mem_singleton.mp here, given]
      exact Or.inr rfl
  | removeMutationBatch batchId =>
    obtain ⟨old, found, removed⟩ := Option.bind_eq_some_iff.mp taken
    obtain ⟨rfl, _⟩ := h.lookupMutationBatch_eq found
    obtain ⟨_, rows⟩ := h.remove found removed
    have kept : ∀ {row : ℕ × MutationBatch δ κ α},
        row ∈ queue'.rows ↔ row ∈ queue.rows ∧ row.1 ≠ old.batchId := by
      intro row
      rw [rows]
      simp [without]
    refine ⟨fun batch member => ?_, fun batch member => ?_⟩
    · obtain ⟨row, inside, rfl⟩ := List.mem_map.mp member
      exact Or.inl (List.mem_map_of_mem (kept.mp inside).1)
    · obtain ⟨row, inside, rfl⟩ := List.mem_map.mp member
      by_cases same : row.1 = old.batchId
      · rw [(h.named row inside).1, same]
        exact Or.inr rfl
      · exact Or.inl (List.mem_map_of_mem (kept.mpr ⟨inside, same⟩))

/-- In every state that the queue gets into, the index of documents leads to the
batches that change them and to no others, in the order they were written; seeking
past a batch finds the one behind it; and the consistency check passes. -/
theorem system_reads {queue : MutationQueue δ κ α} (reachable : (system δ κ α).Reachable queue) :
    (∀ keys, queue.allMutationBatchesAffectingDocumentKeys keys = some (queue.affecting keys)) ∧
      (∀ batchId, queue.nextMutationBatchAfterBatchId batchId =
        (queue.allMutationBatches.filter fun batch => batchId < batch.batchId).head?) ∧
      (queue.allMutationBatches.map MutationBatch.batchId).Pairwise (· < ·) ∧
      queue.performConsistencyCheck = true := by
  have consistent : queue.Consistent :=
    reachable.invariant Consistent.nothing fun _ _ _ h taken => h.step taken
  exact ⟨consistent.allMutationBatchesAffectingDocumentKeys_eq,
    consistent.nextMutationBatchAfterBatchId_eq, consistent.ids_ascending,
    consistent.performConsistencyCheck_eq⟩

/-- Two writes of a document are queued, the client starts again and the first write
is answered. -/
def writtenTwice : List (Event Bool ℕ ℕ) :=
  [.addMutationBatch [⟨true, .none, .delete⟩], .addMutationBatch [⟨true, .exist true, .delete⟩],
    .start, .removeMutationBatch 1]

theorem system_reads_writtenTwice :
    ∃ queue, (system Bool ℕ ℕ).run writtenTwice = some queue ∧
      queue.allMutationBatchesAffectingDocumentKeys [true] =
        some [⟨2, [⟨true, .exist true, .delete⟩]⟩] := by
  refine ⟨_, rfl, ?_⟩
  exact ((system_reads ⟨writtenTwice, rfl⟩).1 [true]).trans rfl

end Keys

end MutationQueue

end QuickNote.Firestore
