import Silhouette.Lib.Bytes
import Silhouette.Mech.FlushCover

/-!
# The invariants of the mechanisms

The entries of an undo journal, a replication and a log-structured write, and the check of their
invariants.  A check compares the sequence number of a fence with that of another store; it ends
the program when the fence is missing, so it returns an option here.

The messages for debugging are left out; those that are logged always are kept for the fences they
read.
-/

namespace Silhouette
namespace Mech

open Lib Lib.Bytes Cache Trace OpTrace

/-- What other passes attach to a record: its old bytes, which come together with the new ones,
and the address of the structure it is in. -/
structure RecordInfo where
  ovEntry : TraceEntry → Option (List UInt8)
  structAddr : TraceEntry → Option Int
  values : ∀ e, (ovEntry e).isSome = e.svEntry.isSome

namespace MechPMStoreEntry

/-- `fence_op.seq` -/
def fenceSeq (e : MechPMStoreEntry) : Option Int := e.fenceOp.map TraceEntry.seq

/-- `first_fence_op.seq` -/
def firstFenceSeq (e : MechPMStoreEntry) : Option Int := e.firstFenceOp.map TraceEntry.seq

end MechPMStoreEntry

/-! ## Undo journals -/

inductive UndoJnlInvariantErrorType where
  | noHeadUpdateOrTxCommit
  | noTailUpdate
  | noLoggingEntry
  | noLoggingWrite
  | noLoggingCommit
  | noInPlaceWrite
  | tooManyLoggedData
  | tooManyLoggingCommit
  | loggingWriteFencedAfterLoggingCommit
  | loggingCommitFencedAfterHeadUpdate
  | loggingCommitFencedAfterInPlaceWrite
  | inPlaceWriteFencedAfterHeadUpdate
  | loggedDataNotMatchInPlaceWrite
  deriving DecidableEq, Repr

structure UndoJnlLoggingEntry where
  loggingWriteList : List MechPMStoreEntry := []
  loggedAddr : Option Int := none
  loggedSize : Option Int := none
  loggingDataList : List MechPMStoreEntry := []
  loggingCommitList : List MechPMStoreEntry := []
  inPlaceWriteList : List MechPMStoreEntry := []

structure MechUndoJnlEntry where
  preAlloc : Bool := false
  headStore : Option MechPMStoreEntry := none
  tailStore : Option MechPMStoreEntry := none
  txCommitStore : Option MechPMStoreEntry := none
  pmAddr : Int := 0
  loggingEntryMap : Dict Int UndoJnlLoggingEntry := Dict.empty
  /-- Stores to be persisted alone, or left out alone, to break the invariant. -/
  unsafePselfSet : Finset Int := ∅
  unsafePotherSet : Finset Int := ∅

namespace UndoJnlLoggingEntry

/-- The text for a mismatch prints the fences of all logging writes. -/
def dbgStr (le : UndoJnlLoggingEntry) : Option Unit :=
  le.loggingWriteList.forM fun w => w.fenceSeq.map fun _ => ()

def loggedSizeSet (le : UndoJnlLoggingEntry) : Bool := le.loggedSize.any (· ≠ 0)

end UndoJnlLoggingEntry

namespace MechUndoJnlEntry

open UndoJnlInvariantErrorType

/-- All stores of the transaction. -/
def stores (e : MechUndoJnlEntry) : List MechPMStoreEntry :=
  e.headStore.toList ++ e.tailStore.toList ++ e.txCommitStore.toList ++
    e.loggingEntryMap.values.flatMap fun le =>
      le.loggingWriteList ++ le.loggingDataList ++ le.loggingCommitList ++ le.inPlaceWriteList

/-- The store that ends the transaction: the head, or else the commit. -/
def endStore (e : MechUndoJnlEntry) : Option MechPMStoreEntry := e.headStore.or e.txCommitStore

/-- The error of a fence that comes too late. -/
def fencedAfter (err : UndoJnlInvariantErrorType) (seq : Int) (fenceSeq : Option Int) :
    Option (List UndoJnlInvariantErrorType) :=
  fenceSeq.map fun fenceSeq => if fenceSeq > seq then [err] else []

def checkCommit (e : MechUndoJnlEntry) (commit : MechPMStoreEntry) :
    Option (List UndoJnlInvariantErrorType) :=
  match e.endStore with
  | none => some []
  | some head => fencedAfter loggingCommitFencedAfterHeadUpdate head.op.seq commit.fenceSeq

/-- In one cacheline a fence between the stores is enough. -/
def checkLoggingWrite (commit w : MechPMStoreEntry) : Option (List UndoJnlInvariantErrorType) :=
  if w.op.seq = commit.op.seq then some []
  else
    fencedAfter loggingWriteFencedAfterLoggingCommit commit.op.seq
      (if alignToFloor w.addr cachelineBytes = alignToFloor commit.addr cachelineBytes then
        w.firstFenceSeq
      else w.fenceSeq)

def checkCommitBeforeInPlace (commit w : MechPMStoreEntry) :
    Option (List UndoJnlInvariantErrorType) :=
  if commit.op.seq = w.op.seq then some []
  else fencedAfter loggingCommitFencedAfterInPlaceWrite w.op.seq commit.fenceSeq

/-- Unlike the other comparisons, a fence at the head itself is too late. -/
def checkInPlaceBeforeHead (e : MechUndoJnlEntry) (w : MechPMStoreEntry) :
    Option (List UndoJnlInvariantErrorType) :=
  match e.endStore with
  | none => some []
  | some head => w.fenceSeq.map fun fenceSeq =>
    if fenceSeq ≥ head.op.seq then [inPlaceWriteFencedAfterHeadUpdate] else []

section

variable (info : RecordInfo) (checkDataMatch : Bool)

/-- The logged bytes against those that the write replaced. -/
def checkData (e : MechUndoJnlEntry) (le : UndoJnlLoggingEntry)
    (logged : Option MechPMStoreEntry) (w : MechPMStoreEntry) :
    Option (List UndoJnlInvariantErrorType) :=
  match logged with
  | none => some []
  | some d =>
    if checkDataMatch ∧ some d.op.size = le.loggedSize then do
      let offset := w.op.addr - e.pmAddr - (← le.loggedAddr)
      if (← info.ovEntry w.op) ≠ slice (← d.op.svEntry) offset (offset + w.op.size) then
        let _ ← le.dbgStr
        return [loggedDataNotMatchInPlaceWrite]
      else return []
    else some []

def checkInPlaceWrite (e : MechUndoJnlEntry) (le : UndoJnlLoggingEntry)
    (commit : MechPMStoreEntry) (logged : Option MechPMStoreEntry) (w : MechPMStoreEntry) :
    Option (List UndoJnlInvariantErrorType) := do
  let order ← checkCommitBeforeInPlace commit w
  let late ← e.checkInPlaceBeforeHead w
  let data ← e.checkData info checkDataMatch le logged w
  return order ++ late ++ data

/-- A loop over stores, with an error when there are none. -/
def checkStores (missing : UndoJnlInvariantErrorType)
    (check : MechPMStoreEntry → Option (List UndoJnlInvariantErrorType))
    (stores : List MechPMStoreEntry) : Option (List UndoJnlInvariantErrorType) :=
  if stores = [] then some [missing] else (stores.mapM check).map List.flatten

/-- The store that holds the logged data, when there is only one. -/
def loggedData (le : UndoJnlLoggingEntry) :
    List UndoJnlInvariantErrorType × Option MechPMStoreEntry :=
  match le.loggingDataList with
  | [d] => ([], some d)
  | _ => ([tooManyLoggedData], none)

/-- The check of a logging entry whose commit is known. -/
def checkCommitted (e : MechUndoJnlEntry) (le : UndoJnlLoggingEntry) (commit : MechPMStoreEntry) :
    Option (List UndoJnlInvariantErrorType) := do
  let committed ← e.checkCommit commit
  let writes ← checkStores noLoggingWrite (checkLoggingWrite commit) le.loggingWriteList
  if le.loggingDataList = [] ∨ le.loggedSizeSet = false then return committed ++ writes
  else
    let (data, logged) := loggedData le
    let inPlace ← checkStores noInPlaceWrite
      (e.checkInPlaceWrite info checkDataMatch le commit logged) le.inPlaceWriteList
    return committed ++ writes ++ data ++ inPlace

def checkLoggingEntry (e : MechUndoJnlEntry) (tail : MechPMStoreEntry) (le : UndoJnlLoggingEntry) :
    Option (List UndoJnlInvariantErrorType) :=
  if e.preAlloc then
    match le.loggingCommitList with
    | [] => some [noLoggingCommit]
    | [commit] => e.checkCommitted info checkDataMatch le commit
    | _ => some [tooManyLoggingCommit]
  else e.checkCommitted info checkDataMatch le tail

def invariantCheck (e : MechUndoJnlEntry) : Option (List UndoJnlInvariantErrorType) :=
  if e.headStore.isNone ∧ e.txCommitStore.isNone then some [noHeadUpdateOrTxCommit]
  else
    match e.tailStore with
    | none => some [noTailUpdate]
    | some tail =>
      if e.loggingEntryMap.items = [] then some [noLoggingEntry]
      else (e.loggingEntryMap.values.mapM (e.checkLoggingEntry info checkDataMatch tail)).map
        List.flatten

end

end MechUndoJnlEntry

/-! ## Replications -/

inductive ReplInvariantErrorType where
  | noStoreToPrimary
  | storeToPrimaryFencedAfterMemcpy
  | storeToPrimaryNotInSameStruct
  | primaryAndReplicaDataNotMatch
  deriving DecidableEq, Repr

structure MechMemcpyEntry where
  opLd : TraceEntry
  opSt : TraceEntry

structure MechReplEntry where
  storeOp : MechMemcpyEntry
  storesToPrimaryReplica : List MechPMStoreEntry := []
  unsafePselfSet : Finset Int := ∅
  unsafePotherSet : Finset Int := ∅

namespace MechReplEntry

open ReplInvariantErrorType

variable (info : RecordInfo)

/-- One store to the primary.  The address of the structure is 0 until one is known. -/
def checkPrimaryStore (mcpSeq : Int) (x : List ReplInvariantErrorType × Int)
    (pmStore : MechPMStoreEntry) : Option (List ReplInvariantErrorType × Int) := do
  let errList :=
    if (← pmStore.fenceSeq) ≥ mcpSeq then x.1 ++ [storeToPrimaryFencedAfterMemcpy] else x.1
  match info.structAddr pmStore.op with
  | none => return (errList, x.2)
  | some addr =>
    if x.2 = 0 then return (errList, addr)
    else if x.2 ≠ addr then return (errList ++ [storeToPrimaryNotInSameStruct], x.2)
    else return (errList, x.2)

/-- The primary as the stores leave it, from the old bytes of the replica. -/
def primaryData (srcStructAddr : Int) (stores : List MechPMStoreEntry) (old : List UInt8) :
    List UInt8 :=
  stores.foldl (fun data pmStore =>
    match pmStore.op.svEntry with
    | none => data
    | some bytes =>
      let offset := pmStore.addr - srcStructAddr
      setSlice data offset (offset + pmStore.size) bytes) old

def invariantCheck (e : MechReplEntry) : Option (List ReplInvariantErrorType) :=
  if e.storesToPrimaryReplica = [] then some [noStoreToPrimary]
  else do
    let (errList, srcStructAddr) ←
      e.storesToPrimaryReplica.foldlM (checkPrimaryStore info e.storeOp.opSt.seq) ([], 0)
    if storeToPrimaryNotInSameStruct ∈ errList ∨ srcStructAddr = 0 then return errList
    else
      match e.storeOp.opSt.svEntry with
      | none => return errList
      | some replica => do
        let old ← info.ovEntry e.storeOp.opSt
        if primaryData srcStructAddr e.storesToPrimaryReplica old ≠ replica then
          return errList ++ [primaryAndReplicaDataNotMatch]
        else return errList

end MechReplEntry

/-! ## Log-structured writes -/

inductive LSWInvariantErrorType where
  | logWritesIncorrectPersistenceTime
  deriving DecidableEq, Repr

structure MechLSWEntry where
  preAlloc : Bool := false
  tailStore : MechPMStoreEntry
  logWrites : List MechPMStoreEntry := []

namespace MechLSWEntry

open LSWInvariantErrorType

def stores (e : MechLSWEntry) : List MechPMStoreEntry := e.tailStore :: e.logWrites

/-- Write after write; the warning prints the fences of both stores. -/
def checkLogWrite (e : MechLSWEntry) (errDict : Dict Int LSWInvariantErrorType)
    (w : MechPMStoreEntry) : Option (Dict Int LSWInvariantErrorType) := do
  let failed ←
    if e.preAlloc then e.tailStore.fenceSeq.map fun seq => decide (w.op.seq ≤ seq)
    else w.fenceSeq.map fun seq => decide (seq ≥ e.tailStore.op.seq)
  if failed then
    let _ ← e.tailStore.fenceSeq
    let _ ← w.fenceSeq
    return errDict.set w.op.seq logWritesIncorrectPersistenceTime
  else return errDict

def invariantCheck (e : MechLSWEntry) : Option (List LSWInvariantErrorType) :=
  (e.logWrites.foldlM e.checkLogWrite Dict.empty).map Dict.values

end MechLSWEntry

end Mech
end Silhouette
