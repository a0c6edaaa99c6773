import Mathlib.Logic.Function.Basic
import LibMpq.Lookup
import LibMpq.Writer

set_option autoImplicit false

-- `update_apply` of `mpq-update.c` with the helpers it edits the hash table by. Only the
-- tables are followed: contents that are read, packed or copied come in as what a call finds,
-- and any such step may be refused.

namespace LibMpq

open Effect Bits

namespace Updating

open Reading Writing

inductive Action
  -- With the locale and platform of the new options, if there are any.
  | replace (identity : Option (UInt16 × UInt16))
  | remove
  | rename (newName : Bytes)
deriving DecidableEq

def Action.newName : Action → Option Bytes
  | .rename newName => some newName
  | _ => none

structure Packed where
  writer : Writer
  offset : Nat
  total : Nat

structure World where
  attributes : Except Error Unit
  listfile : Except Error Unit
  rows : Except Error Unit
  content : Packed
  lines : Packed
  table : Packed

def deletedEntry : HashEntry where
  hashA := 0
  hashB := 0
  locale := 0
  platform := 0
  blockTableIndex := hashDeleted

-- `update_hash_slot`
def hashSlot (a : ReadArchive) (name : Bytes) (block : Nat) : Option Nat :=
  (List.range (hashTableSize a)).find? fun i =>
    (a.hash i).blockTableIndex.toNat = block ∧ (a.hash i).hashA = (fileHash name).hash2 ∧
      (a.hash i).hashB = (fileHash name).hash3

def refers (a : ReadArchive) (block i : Nat) : Bool :=
  (a.hash i).blockTableIndex.toNat < a.header.blockTableCount.toNat ∧ (a.hash i).blockTableIndex.toNat = block

-- `update_block_references`
def blockReferences (a : ReadArchive) (block : Nat) : Nat :=
  ((List.range (hashTableSize a)).filter (refers a block)).length

-- `update_reserved_name`
def reservedName (name : Bytes) : Bool :=
  [attributesName, listfileName, signatureName].any fun reserved =>
    (fileHash name).hash2 = (fileHash reserved).hash2 ∧ (fileHash name).hash3 = (fileHash reserved).hash3

-- `update_delete_hash`
def deleteHash (a : ReadArchive) (slot : Nat) : ReadArchive :=
  { a with hash := Function.update a.hash slot deletedEntry }

-- The loop of `update_insert_hash`: the first deleted slot on the way to a free one, or that one.
def candidate (a : ReadArchive) (home : Nat) : Nat → Nat → Option Nat → Option Nat
  | 0, _, found => found
  | fuel + 1, i, found =>
    let slot := (home + i) % hashTableSize a
    let index := (a.hash slot).blockTableIndex
    let found := if index = hashDeleted ∧ found = none then some slot else found
    if index = hashFree then (if found = none then some slot else found)
    else candidate a home fuel (i + 1) found

-- `update_insert_hash`
def insertHash (a : ReadArchive) (name : Bytes) (original : HashEntry) : Except Error ReadArchive :=
  if hashTableSize a = 0 then .error .format
  else
    match candidate a ((fileHash name).hash1.toNat % hashTableSize a) (hashTableSize a) 0 none with
    | none => .error .size
    | some slot =>
      let entry := { original with hashA := (fileHash name).hash2, hashB := (fileHash name).hash3 }
      .ok { a with hash := Function.update a.hash slot entry }

def clearBlock (a : ReadArchive) (block : Nat) : ReadArchive :=
  { a with
    block := Function.update a.block block { offset := 0, packedSize := 0, unpackedSize := 0, flags := 0 }
    blockEx := Function.update a.blockEx block 0 }

-- What `update_encode` leaves in the tables.
def encodeBlock (p : Packed) (block : Nat) (a : ReadArchive) : Op Error Faults ReadArchive := do
  request .write
  pure { a with
    block := Function.update a.block block (blockEntry p.writer p.offset p.total)
    blockEx := Function.update a.blockEx block (UInt16.ofNat (p.offset >>> 32)) }

-- The handle on the rebuilt file counts its map anew; where that file keeps its parts is left out.
def reopened (a : ReadArchive) : ReadArchive :=
  let map := buildMap a.block a.header.blockTableCount.toNat
  { a with files := map.files, blockTableIndices := map.indices, blockTableDiff := map.diff }

-- The internal member of a name, which nothing else may share.
def internalBlock (a : ReadArchive) (name : Bytes) : Op Error Faults (Option Nat) :=
  match fileNumber a name with
  | .error _ => pure none
  | .ok number => do
    failIf (blockReferences a (entryIndex a number) ≠ 1) .format
    pure (some (entryIndex a number))

def attributesBlock (w : World) (a : ReadArchive) : Op Error Faults (Option Nat) :=
  match w.attributes with
  | .error .exist => pure none
  | .error e => throw e
  | .ok () => do
    let block ← internalBlock a attributesName
    failIf (block = none) .format
    fromExcept w.rows
    pure block

-- An encrypted member is packed again, since its key comes from its name.
def repacks (a : ReadArchive) (block : Nat) : Action → Bool
  | .remove => false
  | .replace _ => true
  | .rename _ => has (a.block block).flags Flag.encrypted

def checkIdentity (entry : HashEntry) : Action → Op Error Faults Unit
  | .replace (some (locale, platform)) => failIf (locale ≠ entry.locale ∨ platform ≠ entry.platform) .format
  | _ => pure ()

def checkNewName (a : ReadArchive) (action : Action) : Op Error Faults Unit :=
  match action.newName with
  | none => pure ()
  | some newName =>
    match fileNumber a newName with
    | .ok _ => throw .exist
    | .error e => failIf (e ≠ .exist) e

def listfileBlock (w : World) (a : ReadArchive) : Op Error Faults (Option Nat) := do
  let block ← internalBlock a listfileName
  fromExcept (if block = none then .ok () else w.listfile)
  pure block

def removeMember (a : ReadArchive) (slot block : Nat) : ReadArchive :=
  let edited := deleteHash a slot
  if blockReferences edited block = 0 then clearBlock edited block else edited

def encodeSome (p : Packed) (block : Option Nat) (a : ReadArchive) : Op Error Faults ReadArchive :=
  match block with
  | none => pure a
  | some block => encodeBlock p block a

def editMember (w : World) (a : ReadArchive) (slot block : Nat) (action : Action) :
    Op Error Faults ReadArchive := do
  let edited ← encodeSome w.content (if repacks a block action then some block else none) a
  match action with
  | .remove => pure (removeMember edited slot block)
  | .replace _ => pure edited
  | .rename newName => fromExcept (insertHash (deleteHash edited slot) newName (a.hash slot))

def dropSignature (a : ReadArchive) (signature : Option Nat) : ReadArchive :=
  match signature with
  | none => a
  | some block =>
    clearBlock { a with
      hash := fun i =>
        if i < hashTableSize a ∧ (a.hash i).blockTableIndex.toNat = block then deletedEntry else a.hash i } block

-- Before it is adopted, the rebuilt file is asked for both names.
def checkGone (check : ReadArchive) (oldName : Bytes) : Action → Op Error Faults Unit
  | .replace _ => pure ()
  | _ =>
    match fileNumber check oldName with
    | .ok _ => throw .format
    | .error e => failIf (e ≠ .exist) e

def checkMember (check : ReadArchive) (oldName : Bytes) : Action → Op Error Faults Unit
  | .remove => pure ()
  | action => do
    let _ ← fromExcept (fileNumber check (action.newName.getD oldName))
    request .read

-- `update_apply`, from the working copy to the handle on the one that replaces it
def updateApply (w : World) (a : ReadArchive) (oldName : Bytes) (action : Action) :
    Op Error Faults ReadArchive := do
  failIf (oldName = [] ∨ action.newName = some []) .exist
  failIf (reservedName oldName = true ∨ action.newName.any reservedName = true) .format
  request .openFile
  let number ← fromExcept (fileNumber a oldName)
  let block := entryIndex a number
  let slot ← fromExcept ((hashSlot a oldName block).elim (.error .format) .ok)
  checkIdentity (a.hash slot) action
  failIf (repacks a block action = true ∧ blockReferences a block > 1) .format
  checkNewName a action
  request .read
  let listfile ← listfileBlock w a
  let attributes ← attributesBlock w a
  let signature ← internalBlock a signatureName
  request .write
  let edited ← editMember w a slot block action
  let edited ← encodeSome w.lines listfile (dropSignature edited signature)
  let edited ← encodeSome w.table attributes edited
  request .write
  checkGone (reopened edited) oldName action
  checkMember (reopened edited) oldName action
  pure (reopened edited)

end Updating

end LibMpq
