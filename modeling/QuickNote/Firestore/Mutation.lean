import QuickNote.Firestore.FieldMask

/-!
# Mutations of documents

The writes of the Firestore client as it holds them until the server has them:
`SetMutation`, `PatchMutation` and `DeleteMutation` (`core/src/model`), applied to
the client's own view of a document or to its copy of the server's, and
`CalculateOverlayMutation`, which sums up all the writes pending for a document
in one.  Field transforms (server timestamps and the like) are not modelled.
-/

namespace QuickNote.Firestore

open SortedEntries

/-- `SnapshotVersion`: a time on the server, `None()` being the least. -/
abbrev SnapshotVersion := ℕ

/-- `MutableDocument::DocumentType`. -/
inductive DocumentType where
  | invalid
  | foundDocument
  | noDocument
  | unknownDocument
deriving DecidableEq

/-- `MutableDocument::DocumentState`. -/
inductive DocumentState where
  | synced
  | hasLocalMutations
  | hasCommittedMutations
deriving DecidableEq

/-- `MutableDocument` (`core/src/model/mutable_document.h`). -/
structure MutableDocument (δ κ α : Type) [LinearOrder κ] where
  key : δ
  documentType : DocumentType
  version : SnapshotVersion
  value : ObjectValue κ α
  documentState : DocumentState

namespace MutableDocument

variable {δ κ α : Type} [LinearOrder κ]

def invalidDocument (key : δ) : MutableDocument δ κ α :=
  { key, documentType := .invalid, version := 0, value := .empty, documentState := .synced }

def isValidDocument (self : MutableDocument δ κ α) : Bool := self.documentType ≠ .invalid

def isFoundDocument (self : MutableDocument δ κ α) : Bool := self.documentType = .foundDocument

def isNoDocument (self : MutableDocument δ κ α) : Bool := self.documentType = .noDocument

def hasLocalMutations (self : MutableDocument δ κ α) : Bool :=
  self.documentState = .hasLocalMutations

def hasCommittedMutations (self : MutableDocument δ κ α) : Bool :=
  self.documentState = .hasCommittedMutations

def hasPendingWrites (self : MutableDocument δ κ α) : Bool :=
  self.hasLocalMutations || self.hasCommittedMutations

def convertToFoundDocument (self : MutableDocument δ κ α) (version : SnapshotVersion)
    (value : ObjectValue κ α) : MutableDocument δ κ α :=
  { self with version, documentType := .foundDocument, value, documentState := .synced }

def convertToNoDocument (self : MutableDocument δ κ α) (version : SnapshotVersion) :
    MutableDocument δ κ α :=
  { self with version, documentType := .noDocument, value := .empty, documentState := .synced }

def convertToUnknownDocument (self : MutableDocument δ κ α) (version : SnapshotVersion) :
    MutableDocument δ κ α :=
  { self with
    version, documentType := .unknownDocument, value := .empty,
    documentState := .hasCommittedMutations }

def setHasCommittedMutations (self : MutableDocument δ κ α) : MutableDocument δ κ α :=
  { self with documentState := .hasCommittedMutations }

def setHasLocalMutations (self : MutableDocument δ κ α) : MutableDocument δ κ α :=
  { self with documentState := .hasLocalMutations, version := 0 }

/-- `FoundDocument` and `NoDocument` (`mutable_document.cc:34`): what the server sends. -/
def foundDocument (key : δ) (version : SnapshotVersion) (value : ObjectValue κ α) :
    MutableDocument δ κ α :=
  (invalidDocument key).convertToFoundDocument version value

def noDocument (key : δ) (version : SnapshotVersion) : MutableDocument δ κ α :=
  (invalidDocument key).convertToNoDocument version

end MutableDocument

/-- `Precondition` (`core/src/model/precondition.h`). -/
inductive Precondition where
  | none
  | exist (expected : Bool)
  | updateTime (time : SnapshotVersion)
deriving DecidableEq

/-- `Precondition::IsValidFor` (`precondition.cc:50`). -/
def Precondition.isValidFor {δ κ α : Type} [LinearOrder κ] :
    Precondition → MutableDocument δ κ α → Bool
  | .none, _ => true
  | .exist expected, document => expected = document.isFoundDocument
  | .updateTime time, document => document.isFoundDocument ∧ document.version = time

/-- What a mutation does, by its `Type`. -/
inductive Operation (κ α : Type) [LinearOrder κ] where
  | set (value : ObjectValue κ α)
  | patch (value : ObjectValue κ α) (mask : FieldMask κ)
  | delete

/-- `Mutation` (`core/src/model/mutation.h`). -/
structure Mutation (δ κ α : Type) [LinearOrder κ] where
  key : δ
  precondition : Precondition
  operation : Operation κ α

namespace Mutation

variable {δ κ α : Type} [LinearOrder κ]

/-- `field_mask()`: only a patch has one. -/
def fieldMask (self : Mutation δ κ α) : Option (FieldMask κ) :=
  match self.operation with
  | .patch _ mask => some mask
  | _ => none

def isPatch (self : Mutation δ κ α) : Bool := self.fieldMask.isSome

/-- `ApplyToLocalView` of the three kinds (`set_mutation.cc:84`,
`patch_mutation.cc:99`, `delete_mutation.cc:59`).  The mask holds the fields
patched so far; there is none once the whole document was written. -/
def applyToLocalView (self : Mutation δ κ α) (document : MutableDocument δ κ α)
    (previousMask : Option (FieldMask κ)) : MutableDocument δ κ α × Option (FieldMask κ) :=
  if self.precondition.isValidFor document then
    match self.operation with
    | .set value =>
        ((document.convertToFoundDocument document.version value).setHasLocalMutations, none)
    | .patch value mask =>
        ((document.convertToFoundDocument document.version
            (document.value.patch value mask)).setHasLocalMutations,
          previousMask.map fun previous => mask.foldr insertKey previous)
    | .delete => ((document.convertToNoDocument 0).setHasLocalMutations, none)
  else (document, previousMask)

/-- `ApplyToRemoteDocument` of the three kinds (`set_mutation.cc:69`,
`patch_mutation.cc:77`, `delete_mutation.cc:42`), once the server has the write. -/
def applyToRemoteDocument (self : Mutation δ κ α) (document : MutableDocument δ κ α)
    (version : SnapshotVersion) : MutableDocument δ κ α :=
  match self.operation with
  | .set value => (document.convertToFoundDocument version value).setHasCommittedMutations
  | .patch value mask =>
      if self.precondition.isValidFor document then
        (document.convertToFoundDocument version
          (document.value.patch value mask)).setHasCommittedMutations
      -- The cache does not have the version that the precondition matched on the server.
      else document.convertToUnknownDocument version
  | .delete => (document.convertToNoDocument version).setHasCommittedMutations

/-- `patch_value` and `mask_set` in the loop of `CalculateOverlayMutation`. -/
structure OverlayPatch (κ α : Type) [LinearOrder κ] where
  patchValue : ObjectValue κ α
  maskSet : FieldMask κ

def OverlayPatch.add (docValue : ObjectValue κ α) (self : OverlayPatch κ α) (path : FieldPath κ) :
    OverlayPatch κ α :=
  if path ∈ self.maskSet then self
  else
    -- The deletion of a nested field is told by its immediate parent.
    let path := if (docValue.get path).isNone ∧ 1 < path.length then path.dropLast else path
    { patchValue := self.patchValue.copyFrom docValue path, maskSet := insertKey path self.maskSet }

/-- `Mutation::CalculateOverlayMutation` (`mutation.cc:168`). -/
def calculateOverlayMutation (doc : MutableDocument δ κ α) (mask : Option (FieldMask κ)) :
    Option (Mutation δ κ α) :=
  if doc.hasLocalMutations then
    match mask with
    | none =>
        if doc.isNoDocument then some { key := doc.key, precondition := .none, operation := .delete }
        else some { key := doc.key, precondition := .none, operation := .set doc.value }
    | some mask =>
        let overlay := mask.foldl (OverlayPatch.add doc.value) { patchValue := .empty, maskSet := [] }
        some {
          key := doc.key, precondition := .none,
          operation := .patch overlay.patchValue overlay.maskSet }
  else none

/-- The loop of `MutationBatch::ApplyToLocalDocument` (`mutation_batch.cc:98`) over
mutations of one document. -/
def replay (mutations : List (Mutation δ κ α)) (document : MutableDocument δ κ α)
    (mask : Option (FieldMask κ)) : MutableDocument δ κ α × Option (FieldMask κ) :=
  mutations.foldl (fun acc mutation => mutation.applyToLocalView acc.1 acc.2) (document, mask)

end Mutation

end QuickNote.Firestore
