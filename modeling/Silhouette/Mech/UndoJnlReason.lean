import Silhouette.CheatSheet.Computation
import Silhouette.Mech.InvariantCheck
import Silhouette.Mech.SheetUpdates

/-!
# Finding undo journals

`MechUndoJnlReason` walks the stores of an operation and puts the transactions of the journal
together.  A transaction starts with a store to the tail where the log space is allocated first, else
with a store to a log entry, and ends with a store to the head.  Behind the walk, every transaction
takes the stores to the ranges that it logged.

`transactions` cuts the stores at the same places without looking at what they store, and `EntryOf`
says which entry belongs to each.
-/

namespace Silhouette
namespace Mech

open Lib Trace CheatSheet

/-- A computation as it is made from its list. -/
structure FreshSheet where
  comp : ComputationSheet
  blank : comp.blank = comp
  evaluable : Evaluable comp

/-- Every list in reverse Polish notation makes one. -/
def FreshSheet.ofSpells {words : List RpnWord} {e : Lib.Rpn.Expr Operand ArithOp}
    {comp : ComputationSheet} (h : List.Forall₂ Spells words e.rpn)
    (hnew : ComputationSheet.new words = some comp) : FreshSheet where
  comp := comp
  blank := by
    rw [ComputationSheet.new_of_spells e.rpn_ne_nil h, Option.some.injEq] at hnew
    rw [← hnew]
    exact ComputationSheet.blank_view e.rpn
  evaluable := evaluable_of_spells h hnew

/-- The sheet of one unsigned variable. -/
def FreshSheet.ofVar (st v : String) (hst : '.' ∉ st.toList) (hv : '.' ∉ v.toList) : FreshSheet :=
  have hwords : List.Forall₂ Spells [.text (st ++ "." ++ v ++ ".unsigned")]
      (Lib.Rpn.Expr.leaf (Operand.var st v false) : Lib.Rpn.Expr Operand ArithOp).rpn :=
    .cons (.var false hst hv (by simp)) .nil
  .ofSpells hwords (ComputationSheet.new_of_spells (List.cons_ne_nil _ _) hwords)

/-- The sheet of an undo journal with what only the reasoner reads. -/
structure UndoJnlSheet where
  base : UndoJnlCheatSheetBase
  loggedAddr : FreshSheet
  loggedSize : FreshSheet
  loggedData : ComputationSheet
  loggingCommit : Option ComputationSheet
  txCommitVar : Option FreshSheet
  txCommitVarVal : Option Int

/-- The computations that the reasoner sets.  Those of the data and the commit are only asked for their
variables. -/
structure TxComputations (sheet : UndoJnlSheet) where
  loggedAddr : ComputationSheet
  loggedSize : ComputationSheet
  txCommit : Option ComputationSheet
  addr_made : loggedAddr.blank = sheet.loggedAddr.comp
  size_made : loggedSize.blank = sheet.loggedSize.comp
  commit_made : txCommit.map ComputationSheet.blank = sheet.txCommitVar.map FreshSheet.comp

theorem blank_setValue (c : ComputationSheet) (st v : String) (data : List UInt8) :
    (c.setValue st v data).2.blank = c.blank := by
  rw [ComputationSheet.setValue]
  split_ifs
  · rfl
  · exact ComputationSheet.blank_mapValues c _
  · rfl

namespace TxComputations

variable {sheet : UndoJnlSheet}

def new (sheet : UndoJnlSheet) : TxComputations sheet where
  loggedAddr := sheet.loggedAddr.comp
  loggedSize := sheet.loggedSize.comp
  txCommit := sheet.txCommitVar.map FreshSheet.comp
  addr_made := sheet.loggedAddr.blank
  size_made := sheet.loggedSize.blank
  commit_made := by
    cases sheet.txCommitVar with
    | none => rfl
    | some f => exact congrArg some f.blank

def setAddr (x : TxComputations sheet) (st v : String) (data : List UInt8) : TxComputations sheet :=
  { x with
    loggedAddr := (x.loggedAddr.setValue st v data).2
    addr_made := (blank_setValue _ _ _ _).trans x.addr_made }

def setSize (x : TxComputations sheet) (st v : String) (data : List UInt8) : TxComputations sheet :=
  { x with
    loggedSize := (x.loggedSize.setValue st v data).2
    size_made := (blank_setValue _ _ _ _).trans x.size_made }

def setCommit (x : TxComputations sheet) (st v : String) (data : List UInt8) :
    TxComputations sheet :=
  { x with
    txCommit := x.txCommit.map fun c => (c.setValue st v data).2
    commit_made := by
      rw [← x.commit_made, Option.map_map]
      exact congrArg (Option.map · x.txCommit) (funext fun c => blank_setValue c st v data) }

end TxComputations

/-! ## The code -/

namespace MechUndoJnlEntry

/-- The logging entry at an address is made when it is not there. -/
def updateLog (e : MechUndoJnlEntry) (a : Int) (new : UndoJnlLoggingEntry)
    (f : UndoJnlLoggingEntry → UndoJnlLoggingEntry) : MechUndoJnlEntry :=
  { e with loggingEntryMap :=
      e.loggingEntryMap.set a (f ((e.loggingEntryMap.get? a).getD new)) }

end MechUndoJnlEntry

section

variable (info : TraceEntry → Deduced) (structAddr : TraceEntry → Int) (sheet : UndoJnlSheet)

/-- A size that is a number is known from the start. -/
def newLog (loggedSize : ComputationSheet) : UndoJnlLoggingEntry :=
  if loggedSize.isPureNumber then { loggedSize := loggedSize.pureNum } else {}

/-- What the lookups change: the computations and the entry of the transaction. -/
abbrev JnlTx := TxComputations sheet × MechUndoJnlEntry

section

variable (x : JnlTx sheet) (pm : MechPMStoreEntry) (stName varName : String)

def lookupLoggingWrites : Bool × JnlTx sheet :=
  if sheet.base.logEntryStruct.contains stName then
    (true, x.1, x.2.updateLog (structAddr pm.op) (newLog x.1.loggedSize) fun le =>
      { le with loggingWriteList := le.loggingWriteList ++ [pm] })
  else (false, x)

def lookupLoggedAddr : Option (JnlTx sheet) :=
  if x.1.loggedAddr.containVar stName varName then do
    let c := x.1.setAddr stName varName (← pm.op.svEntry)
    if c.loggedAddr.isFinalized then do
      let addr ← c.loggedAddr.evaluate.toOption
      return (c, x.2.updateLog (structAddr pm.op) (newLog c.loggedSize) fun le =>
        { le with loggedAddr := addr })
    else return (c, x.2)
  else some x

def lookupLoggedSize : Option (JnlTx sheet) :=
  if x.1.loggedSize.isPureNumber then some x
  else if x.1.loggedSize.containVar stName varName then do
    let c := x.1.setSize stName varName (← pm.op.svEntry)
    if c.loggedSize.isFinalized then do
      let size ← c.loggedSize.evaluate.toOption
      return (c, x.2.updateLog (structAddr pm.op) {} fun le => { le with loggedSize := size })
    else return (c, x.2)
  else some x

def lookupLoggedData : JnlTx sheet :=
  if sheet.loggedData.containVar stName varName then
    (x.1, x.2.updateLog (structAddr pm.op) (newLog x.1.loggedSize) fun le =>
      { le with loggingDataList := le.loggingDataList ++ [pm] })
  else x

/-- Address, size and data are a part of the logging writes. -/
def lookupLogging : Option (Bool × JnlTx sheet) := do
  let r := lookupLoggingWrites structAddr sheet x pm stName
  if r.1 then
    let x ← lookupLoggedAddr structAddr sheet r.2 pm stName varName
    let x ← lookupLoggedSize structAddr sheet x pm stName varName
    return (true, lookupLoggedData structAddr sheet x pm stName varName)
  else return (false, x)

def lookupLogCommit : JnlTx sheet :=
  if sheet.loggingCommit.any fun c => c.containVar stName varName then
    (x.1, x.2.updateLog (structAddr pm.op) (newLog x.1.loggedSize) fun le =>
      { le with loggingCommitList := le.loggingCommitList ++ [pm] })
  else x

/-- A logging entry is made, whatever the value is. -/
def lookupTxCommit : Option (Bool × JnlTx sheet) :=
  match x.1.txCommit with
  | none => some (false, x)
  | some commit =>
    if commit.containVar stName varName then do
      let data ← pm.op.svEntry
      let c := x.1.setCommit stName varName data
      let commit := (commit.setValue stName varName data).2
      if commit.isFinalized then do
        let val ← commit.evaluate.toOption
        return (decide (val = sheet.txCommitVarVal), c, x.2.updateLog (structAddr pm.op) {} id)
      else return (false, c, x.2)
    else some (false, x)

end

/-- The state of the walk. -/
structure JnlScan where
  txStarted : Bool
  jnl : UndoJnlCheatSheetBase
  tx : JnlTx sheet
  entryList : List MechUndoJnlEntry

namespace JnlScan

variable {sheet}

/-- A store to the tail is kept, and the address evaluated. -/
def updateTail (s : JnlScan sheet) (pm : MechPMStoreEntry) : Option (Bool × JnlScan sheet) :=
  let r := s.jnl.updateTail info pm.op
  if r.1 then
    r.2.tailComputation.evaluate.toOption.map fun _ =>
      (true, { s with jnl := r.2, tx := (s.tx.1, { s.tx.2 with tailStore := some pm }) })
  else some (false, { s with jnl := r.2 })

/-- The head ends the transaction.  The entry for the next one is made without `pre_alloc`. -/
def updateHead (s : JnlScan sheet) (pmAddr : Int) (pm : MechPMStoreEntry) :
    Option (Bool × JnlScan sheet) :=
  let r := s.jnl.updateHead info pm.op
  if r.1 then do
    let _ ← r.2.headComputation.evaluate.toOption
    let _ ← r.2.tailComputation.evaluate.toOption
    return (true, { s with
      txStarted := false
      jnl := r.2
      tx := (s.tx.1, { pmAddr := pmAddr })
      entryList := s.entryList ++ [{ s.tx.2 with headStore := some pm }] })
  else some (false, { s with jnl := r.2 })

end JnlScan

/-- A store that is matched to one variable. -/
def scanMatched (pmAddr : Int) (s : JnlScan sheet) (pm : MechPMStoreEntry)
    (stName varName : String) : Option (JnlScan sheet) :=
  if s.txStarted then do
    let s := (← s.updateTail info pm).2
    let tx := (← lookupLogging structAddr sheet s.tx pm stName varName).2
    let s := { s with tx := lookupLogCommit structAddr sheet tx pm stName varName }
    let (ended, s) ← s.updateHead info pmAddr pm
    if ended then return s
    else
      let (committed, tx) ← lookupTxCommit structAddr sheet s.tx pm stName varName
      if committed then
        return { s with tx := (tx.1, { tx.2 with txCommitStore := some pm }) }
      else return { s with tx := tx }
  else if sheet.base.preAlloc then do
    let (started, s) ← s.updateTail info pm
    return { s with txStarted := started }
  else do
    let (started, tx) ← lookupLogging structAddr sheet s.tx pm stName varName
    return { s with txStarted := started, tx := tx }

def scanJnlStore (pmAddr : Int) (s : JnlScan sheet) (pm : MechPMStoreEntry) :
    Option (JnlScan sheet) :=
  match (info pm.op).structName, (info pm.op).varNames with
  | some st, [v] => scanMatched info structAddr sheet pmAddr s pm st v
  | _, _ => some s

/-- The state before the first store. -/
def JnlScan.init (pmAddr : Int) : JnlScan sheet where
  txStarted := false
  jnl := sheet.base
  tx := (.new sheet, { pmAddr := pmAddr, preAlloc := sheet.base.preAlloc })
  entryList := []

end

/-- `isOverlapping` of two inclusive ranges. -/
def isOverlapping (x y : Int × Int) : Bool := x.1 ≤ y.2 ∧ y.1 ≤ x.2

section

variable (pmstore : MechPMStoreEntry) (checkCommit : Bool)

/-- The test of `__lookup_inplace_write`.  An entry that logs nothing may be a commit. -/
def UndoJnlLoggingEntry.takes (le : UndoJnlLoggingEntry) : Bool :=
  (!checkCommit || match le.loggingCommitList with
    | [commit] => decide (commit.op.seq ≤ pmstore.op.seq)
    | _ => false) &&
  match le.loggedAddr, le.loggedSize with
  | some addr, some size => addr ≠ 0 && size ≠ 0 &&
      isOverlapping (addr, addr + size - 1) (pmstore.phyAddr, pmstore.phyAddr + pmstore.size - 1)
  | _, _ => false

def MechUndoJnlEntry.lookupInplaceWrite (e : MechUndoJnlEntry) : MechUndoJnlEntry :=
  { e with loggingEntryMap := e.loggingEntryMap.mapValues fun le =>
      if le.takes pmstore checkCommit then
        { le with inPlaceWriteList := le.inPlaceWriteList ++ [pmstore] }
      else le }

/-- The window of a transaction.  Without a head it has no end, which is an error where the tail is the
commit. -/
def MechUndoJnlEntry.takeInPlace (preAlloc : Bool) (e : MechUndoJnlEntry) :
    Option MechUndoJnlEntry :=
  match e.endStore, e.tailStore with
  | some _, some tail =>
    if preAlloc then
      if e.txCommitStore.any fun c => pmstore.op.seq < c.op.seq then
        some (e.lookupInplaceWrite pmstore true)
      else if e.headStore.any fun h => pmstore.op.seq < h.op.seq then
        some (e.lookupInplaceWrite pmstore true)
      else some e
    else if pmstore.op.seq > tail.op.seq then
      e.headStore.map fun h =>
        if pmstore.op.seq < h.op.seq then e.lookupInplaceWrite pmstore false else e
    else some e
  | _, _ => some e

end

/-- `__init_entries_from_sheet`.  The entry that is open at the end is none of the list. -/
def MechUndoJnlReason.entries (info : TraceEntry → Deduced) (structAddr : TraceEntry → Int)
    (pmAddr : Int) (sheet : UndoJnlSheet) (pmstores : List MechPMStoreEntry) :
    Option (List MechUndoJnlEntry) := do
  let _ ← sheet.base.headComputation.evaluate.toOption
  let _ ← sheet.base.tailComputation.evaluate.toOption
  let s ← pmstores.foldlM (scanJnlStore info structAddr sheet pmAddr) (.init sheet pmAddr)
  let found :=
    if s.tx.2.tailStore.isSome ∨ s.tx.2.loggingEntryMap.items ≠ [] then s.entryList ++ [s.tx.2]
    else s.entryList
  pmstores.foldlM (fun l pm => l.mapM fun e => e.takeInPlace pm sheet.base.preAlloc) found

/-! ## What should be found -/

section

variable (info : TraceEntry → Deduced) (structAddr : TraceEntry → Int) (sheet : UndoJnlSheet)

/-- A store cuts the open transaction behind it, or opens one. -/
def splitTx (u : UndoJnlCheatSheetBase)
    (x : List (List MechPMStoreEntry) × Option (List MechPMStoreEntry)) (pm : MechPMStoreEntry) :
    List (List MechPMStoreEntry) × Option (List MechPMStoreEntry) :=
  match x.2 with
  | none => (x.1, if opens info u pm.op then some [pm] else none)
  | some cur =>
    if (u.headComputation.update info pm.op).1 then (x.1 ++ [cur ++ [pm]], none)
    else (x.1, some (cur ++ [pm]))

/-- The stores of each transaction that a store to the head ends. -/
def transactions (u : UndoJnlCheatSheetBase) (pmstores : List MechPMStoreEntry) :
    List (List MechPMStoreEntry) :=
  (pmstores.foldl (splitTx info u) ([], none)).1

/-- The store is matched to one variable, and that is one of `p`. -/
def storesVar (p : String → String → Bool) (pm : MechPMStoreEntry) : Bool :=
  match (info pm.op).structName, (info pm.op).varNames with
  | some st, [v] => p st v
  | _, _ => false

def isTailStore (pm : MechPMStoreEntry) : Bool := (sheet.base.tailComputation.update info pm.op).1

def isLogWrite : MechPMStoreEntry → Bool :=
  storesVar info fun st _ => sheet.base.logEntryStruct.contains st

def isLoggedData : MechPMStoreEntry → Bool :=
  storesVar info fun st v =>
    sheet.base.logEntryStruct.contains st && sheet.loggedData.containVar st v

def isLogCommit : MechPMStoreEntry → Bool :=
  storesVar info fun st v => sheet.loggingCommit.any fun c => c.containVar st v

/-- The stores of the struct at an address. -/
def atStruct (a : Int) (l : List MechPMStoreEntry) : List MechPMStoreEntry :=
  l.filter fun pm => structAddr pm.op = a

/-- The first store only opens the transaction where the log space is allocated by it. -/
def loggingStores (txn : List MechPMStoreEntry) : List MechPMStoreEntry :=
  if sheet.base.preAlloc then txn.tail else txn

/-- The first store is to a log entry where the tail is stored later. -/
def tailStores (txn : List MechPMStoreEntry) : List MechPMStoreEntry :=
  if sheet.base.preAlloc then txn else txn.tail

namespace MechUndoJnlEntry

/-- The logging entry at an address, empty if there is none. -/
def logAt (e : MechUndoJnlEntry) (a : Int) : UndoJnlLoggingEntry :=
  (e.loggingEntryMap.get? a).getD {}

/-- The entry has the stores of a transaction. -/
structure Gathers (txn : List MechPMStoreEntry) (e : MechUndoJnlEntry) : Prop where
  tail : e.tailStore = ((tailStores sheet txn).filter (isTailStore info sheet)).getLast?
  writes : ∀ a, (e.logAt a).loggingWriteList =
    atStruct structAddr a ((loggingStores sheet txn).filter (isLogWrite info sheet))
  data : ∀ a, (e.logAt a).loggingDataList =
    atStruct structAddr a ((loggingStores sheet txn).filter (isLoggedData info sheet))
  commits : ∀ a, (e.logAt a).loggingCommitList =
    atStruct structAddr a (txn.tail.filter (isLogCommit info sheet))
  txCommit : ∀ c, e.txCommitStore = some c → c ∈ txn

/-- The entry is that of a transaction, which its head ends. -/
structure EntryOf (txn : List MechPMStoreEntry) (e : MechUndoJnlEntry) : Prop extends
    Gathers info structAddr sheet txn e where
  head : e.headStore = txn.getLast?

end MechUndoJnlEntry

/-- Head and tail can be evaluated. -/
def evaluates (u : UndoJnlCheatSheetBase) : Bool :=
  u.headComputation.evaluate.toOption.isSome && u.tailComputation.evaluate.toOption.isSome

/-- The lookups take the bytes of a store without asking whether there are any: of the addresses and
sizes in log entries, and of the commits. -/
def needsBytes (x : Bool × UndoJnlCheatSheetBase) (pm : MechPMStoreEntry) : Bool :=
  storesVar info (fun st v =>
    ((x.1 || !sheet.base.preAlloc) && sheet.base.logEntryStruct.contains st &&
      (sheet.loggedAddr.comp.containVar st v || sheet.loggedSize.comp.containVar st v)) ||
    (x.1 && !(x.2.headComputation.update info pm.op).1 &&
      sheet.txCommitVar.any fun f => f.comp.containVar st v)) pm

/-- Wherever the walk stands, head and tail can be evaluated, and the bytes it takes are there. -/
def Readable (x : Bool × UndoJnlCheatSheetBase) : List MechPMStoreEntry → Prop
  | [] => evaluates x.2 = true
  | pm :: rest => evaluates x.2 = true ∧
    (needsBytes info sheet x pm = true → pm.op.svEntry.isSome = true) ∧
    Readable (scanStore info x pm.op) rest

end

/-! ## The lookups -/

section

variable {structAddr : TraceEntry → Int}

theorem atStruct_append (a : Int) (l m : List MechPMStoreEntry) :
    atStruct structAddr a (l ++ m) = atStruct structAddr a l ++ atStruct structAddr a m :=
  List.filter_append _ _

namespace MechUndoJnlEntry

/-- What the lookups do to an entry: they add logging writes, logged data and commits. -/
structure Adds (structAddr : TraceEntry → Int) (writes data commits : List MechPMStoreEntry)
    (e e' : MechUndoJnlEntry) : Prop where
  preAlloc : e'.preAlloc = e.preAlloc
  headStore : e'.headStore = e.headStore
  tailStore : e'.tailStore = e.tailStore
  txCommitStore : e'.txCommitStore = e.txCommitStore
  writes : ∀ a, (e'.logAt a).loggingWriteList =
    (e.logAt a).loggingWriteList ++ atStruct structAddr a writes
  data : ∀ a, (e'.logAt a).loggingDataList =
    (e.logAt a).loggingDataList ++ atStruct structAddr a data
  commits : ∀ a, (e'.logAt a).loggingCommitList =
    (e.logAt a).loggingCommitList ++ atStruct structAddr a commits
  inPlace : ∀ a, (e'.logAt a).inPlaceWriteList = (e.logAt a).inPlaceWriteList

theorem Adds.refl (e : MechUndoJnlEntry) : Adds structAddr [] [] [] e e where
  preAlloc := rfl
  headStore := rfl
  tailStore := rfl
  txCommitStore := rfl
  writes := fun _ => (List.append_nil _).symm
  data := fun _ => (List.append_nil _).symm
  commits := fun _ => (List.append_nil _).symm
  inPlace := fun _ => rfl

theorem Adds.trans {w d c w' d' c' : List MechPMStoreEntry} {e e' e'' : MechUndoJnlEntry}
    (h : Adds structAddr w d c e e') (h' : Adds structAddr w' d' c' e' e'') :
    Adds structAddr (w ++ w') (d ++ d') (c ++ c') e e'' where
  preAlloc := h'.preAlloc.trans h.preAlloc
  headStore := h'.headStore.trans h.headStore
  tailStore := h'.tailStore.trans h.tailStore
  txCommitStore := h'.txCommitStore.trans h.txCommitStore
  writes := by
    intro a
    rw [h'.writes, h.writes, atStruct_append, List.append_assoc]
  data := by
    intro a
    rw [h'.data, h.data, atStruct_append, List.append_assoc]
  commits := by
    intro a
    rw [h'.commits, h.commits, atStruct_append, List.append_assoc]
  inPlace := fun a => (h'.inPlace a).trans (h.inPlace a)

theorem logAt_updateLog (e : MechUndoJnlEntry) (a b : Int) (new : UndoJnlLoggingEntry)
    (f : UndoJnlLoggingEntry → UndoJnlLoggingEntry) :
    (e.updateLog a new f).logAt b =
      if b = a then f ((e.loggingEntryMap.get? a).getD new) else e.logAt b := by
  rw [logAt, updateLog, Dict.get?_set]
  by_cases hb : b = a
  · rw [if_pos hb, if_pos hb]
    rfl
  · rw [if_neg hb, if_neg hb]
    rfl

/-- A list of the logging entries gets the stores that the update adds to it. -/
theorem list_updateLog {π : UndoJnlLoggingEntry → List MechPMStoreEntry}
    {f : UndoJnlLoggingEntry → UndoJnlLoggingEntry} {pm : MechPMStoreEntry}
    {added : List MechPMStoreEntry} {new : UndoJnlLoggingEntry} (hnew : π new = π {})
    (hadded : ∀ s ∈ added, s = pm) (hf : ∀ le, π (f le) = π le ++ added) (e : MechUndoJnlEntry)
    (b : Int) : π ((e.updateLog (structAddr pm.op) new f).logAt b) =
      π (e.logAt b) ++ atStruct structAddr b added := by
  rw [logAt_updateLog]
  by_cases hb : b = structAddr pm.op
  · have hall : atStruct structAddr b added = added := by
      rw [atStruct, List.filter_eq_self]
      intro s hs
      rw [hadded s hs, hb]
      exact decide_eq_true rfl
    rw [if_pos hb, hf, hall, hb, logAt]
    cases e.loggingEntryMap.get? (structAddr pm.op) with
    | none => exact congrArg (· ++ added) hnew
    | some le => rfl
  · have hnone : atStruct structAddr b added = [] := by
      rw [atStruct, List.filter_eq_nil_iff]
      intro s hs
      rw [hadded s hs, decide_eq_true_eq]
      exact fun heq => hb heq.symm
    rw [if_neg hb, hnone, List.append_nil]

theorem Adds.updateLog (structAddr : TraceEntry → Int)
    {f : UndoJnlLoggingEntry → UndoJnlLoggingEntry} {pm : MechPMStoreEntry} {new : UndoJnlLoggingEntry} {w d c : List MechPMStoreEntry} (e : MechUndoJnlEntry)
    (hnew : new.loggingWriteList = [] ∧ new.loggingDataList = [] ∧ new.loggingCommitList = [] ∧
      new.inPlaceWriteList = [])
    (hw : ∀ s ∈ w, s = pm) (hd : ∀ s ∈ d, s = pm) (hc : ∀ s ∈ c, s = pm)
    (hf : ∀ le, (f le).loggingWriteList = le.loggingWriteList ++ w ∧
      (f le).loggingDataList = le.loggingDataList ++ d ∧
      (f le).loggingCommitList = le.loggingCommitList ++ c ∧
      (f le).inPlaceWriteList = le.inPlaceWriteList) :
    Adds structAddr w d c e (e.updateLog (structAddr pm.op) new f) where
  preAlloc := rfl
  headStore := rfl
  tailStore := rfl
  txCommitStore := rfl
  writes := list_updateLog (π := UndoJnlLoggingEntry.loggingWriteList) hnew.1 hw
    (fun le => (hf le).1) e
  data := list_updateLog (π := UndoJnlLoggingEntry.loggingDataList) hnew.2.1 hd
    (fun le => (hf le).2.1) e
  commits := list_updateLog (π := UndoJnlLoggingEntry.loggingCommitList) hnew.2.2.1 hc
    (fun le => (hf le).2.2.1) e
  inPlace := by
    intro a
    have hlist : ((e.updateLog (structAddr pm.op) new f).logAt a).inPlaceWriteList =
        (e.logAt a).inPlaceWriteList ++ atStruct structAddr a [] :=
      list_updateLog (π := UndoJnlLoggingEntry.inPlaceWriteList) hnew.2.2.2
        (fun s hs => absurd hs List.not_mem_nil)
        (fun le => ((hf le).2.2.2).trans (List.append_nil _).symm) e a
    rw [hlist]
    exact List.append_nil _

end MechUndoJnlEntry

end

section

variable {structAddr : TraceEntry → Int} {sheet : UndoJnlSheet}

theorem containVar_eq_of_blank {c c' : ComputationSheet} (h : c.blank = c') (st v : String) :
    c.containVar st v = c'.containVar st v := by
  rw [← h, ComputationSheet.blank, ComputationSheet.containVar_mapValues]

/-- A new logging entry has no stores. -/
theorem newLog_lists (c : ComputationSheet) :
    (newLog c).loggingWriteList = [] ∧ (newLog c).loggingDataList = [] ∧
      (newLog c).loggingCommitList = [] ∧ (newLog c).inPlaceWriteList = [] := by
  rw [newLog]
  split_ifs
  · exact ⟨rfl, rfl, rfl, rfl⟩
  · exact ⟨rfl, rfl, rfl, rfl⟩

/-- A lookup that takes the bytes of the stores to a variable. -/
theorem takesBytes_spec {β : Type} {P : β → Prop} {contains : Bool} {sv : Option (List UInt8)}
    {k : List UInt8 → Option β} {y : β} (hy : P y) (hk : ∀ data, ∃ z, k data = some z ∧ P z) :
    ((if contains then sv.bind k else some y).isSome = true ↔
      (contains = true → sv.isSome = true)) ∧
    ∀ z, (if contains then sv.bind k else some y) = some z → P z := by
  cases contains with
  | false =>
    refine ⟨iff_of_true rfl (fun h => nomatch h), fun z hz => ?_⟩
    rw [← Option.some.inj hz]
    exact hy
  | true =>
    cases sv with
    | none =>
      refine ⟨iff_of_false (fun h => nomatch h) (fun h => nomatch h rfl), fun z hz => nomatch hz⟩
    | some data =>
      obtain ⟨z, hz, hP⟩ := hk data
      rw [if_pos rfl, Option.bind_some, hz]
      refine ⟨iff_of_true rfl (fun _ => rfl), fun z' hz' => ?_⟩
      rw [← Option.some.inj hz']
      exact hP

variable (x : JnlTx sheet) (pm : MechPMStoreEntry) (st v : String)

/-- An update that leaves the lists alone. -/
theorem adds_nothing (structAddr : TraceEntry → Int)
    {f : UndoJnlLoggingEntry → UndoJnlLoggingEntry} {new : UndoJnlLoggingEntry} (e : MechUndoJnlEntry)
    (hnew : new.loggingWriteList = [] ∧ new.loggingDataList = [] ∧ new.loggingCommitList = [] ∧
      new.inPlaceWriteList = [])
    (hf : ∀ le, (f le).loggingWriteList = le.loggingWriteList ∧
      (f le).loggingDataList = le.loggingDataList ∧
      (f le).loggingCommitList = le.loggingCommitList ∧
      (f le).inPlaceWriteList = le.inPlaceWriteList) :
    MechUndoJnlEntry.Adds structAddr [] [] [] e (e.updateLog (structAddr pm.op) new f) := by
  refine .updateLog structAddr e hnew (List.forall_mem_nil _) (List.forall_mem_nil _)
    (List.forall_mem_nil _) (fun le => ⟨?_, ?_, ?_, (hf le).2.2.2⟩)
  · exact (hf le).1.trans (List.append_nil _).symm
  · exact (hf le).2.1.trans (List.append_nil _).symm
  · exact (hf le).2.2.1.trans (List.append_nil _).symm

variable (structAddr) in
theorem adds_lookupLoggingWrites :
    (lookupLoggingWrites structAddr sheet x pm st).1 = sheet.base.logEntryStruct.contains st ∧
      MechUndoJnlEntry.Adds structAddr
        (if sheet.base.logEntryStruct.contains st then [pm] else []) [] [] x.2
        (lookupLoggingWrites structAddr sheet x pm st).2.2 := by
  rw [lookupLoggingWrites]
  by_cases h : sheet.base.logEntryStruct.contains st = true
  · rw [if_pos h, if_pos h]
    refine ⟨h.symm, ?_⟩
    dsimp only
    refine .updateLog structAddr (w := [pm]) x.2 (newLog_lists _) (fun s => List.mem_singleton.mp)
      (List.forall_mem_nil _) (List.forall_mem_nil _) ?_
    intro le
    exact ⟨rfl, (List.append_nil _).symm, (List.append_nil _).symm, rfl⟩
  · rw [if_neg h, if_neg h]
    exact ⟨(Bool.eq_false_of_not_eq_true h).symm, .refl x.2⟩

variable (structAddr) in
theorem lookupLoggedAddr_spec :
    ((lookupLoggedAddr structAddr sheet x pm st v).isSome = true ↔
      (sheet.loggedAddr.comp.containVar st v = true → pm.op.svEntry.isSome = true)) ∧
    ∀ x', lookupLoggedAddr structAddr sheet x pm st v = some x' →
      MechUndoJnlEntry.Adds structAddr [] [] [] x.2 x'.2 := by
  rw [lookupLoggedAddr, containVar_eq_of_blank x.1.addr_made]
  apply takesBytes_spec (P := fun x' : JnlTx sheet =>
    MechUndoJnlEntry.Adds structAddr [] [] [] x.2 x'.2)
  · exact .refl x.2
  · intro data
    by_cases hfin : (x.1.setAddr st v data).loggedAddr.isFinalized = true
    · obtain ⟨n, hn⟩ := sheet.loggedAddr.evaluable _ (x.1.setAddr st v data).addr_made hfin
      simp only [if_pos hfin, hn]
      refine ⟨_, rfl, ?_⟩
      dsimp only
      refine adds_nothing pm structAddr x.2 (newLog_lists _) ?_
      intro le
      exact ⟨rfl, rfl, rfl, rfl⟩
    · simp only [if_neg hfin]
      exact ⟨_, rfl, .refl x.2⟩

variable (structAddr) in
theorem lookupLoggedSize_spec :
    ((lookupLoggedSize structAddr sheet x pm st v).isSome = true ↔
      (sheet.loggedSize.comp.containVar st v = true → pm.op.svEntry.isSome = true)) ∧
    ∀ x', lookupLoggedSize structAddr sheet x pm st v = some x' →
      MechUndoJnlEntry.Adds structAddr [] [] [] x.2 x'.2 := by
  have hguard : lookupLoggedSize structAddr sheet x pm st v =
      if sheet.loggedSize.comp.containVar st v then pm.op.svEntry.bind fun data =>
        if (x.1.setSize st v data).loggedSize.isFinalized then
          (x.1.setSize st v data).loggedSize.evaluate.toOption.bind fun size =>
            some (x.1.setSize st v data, x.2.updateLog (structAddr pm.op) {} fun le =>
              { le with loggedSize := size })
        else some (x.1.setSize st v data, x.2)
      else some x := by
    rw [lookupLoggedSize, containVar_eq_of_blank x.1.size_made]
    by_cases h : sheet.loggedSize.comp.containVar st v = true
    · rw [if_neg, if_pos h, if_pos h]
      · rfl
      · rw [← containVar_eq_of_blank x.1.size_made] at h
        exact Bool.eq_false_iff.mp (ComputationSheet.not_isPureNumber_of_containVar h)
    · rw [if_neg h, if_neg h, ite_self]
  rw [hguard]
  apply takesBytes_spec (P := fun x' : JnlTx sheet =>
    MechUndoJnlEntry.Adds structAddr [] [] [] x.2 x'.2)
  · exact .refl x.2
  · intro data
    by_cases hfin : (x.1.setSize st v data).loggedSize.isFinalized = true
    · obtain ⟨n, hn⟩ := sheet.loggedSize.evaluable _ (x.1.setSize st v data).size_made hfin
      simp only [if_pos hfin, hn]
      refine ⟨_, rfl, ?_⟩
      dsimp only
      refine adds_nothing pm structAddr x.2 ⟨rfl, rfl, rfl, rfl⟩ ?_
      intro le
      exact ⟨rfl, rfl, rfl, rfl⟩
    · simp only [if_neg hfin]
      exact ⟨_, rfl, .refl x.2⟩

theorem adds_lookupLoggedData :
    MechUndoJnlEntry.Adds structAddr [] (if sheet.loggedData.containVar st v then [pm] else []) []
      x.2 (lookupLoggedData structAddr sheet x pm st v).2 := by
  rw [lookupLoggedData]
  by_cases h : sheet.loggedData.containVar st v = true
  · rw [if_pos h, if_pos h]
    dsimp only
    refine .updateLog structAddr (d := [pm]) x.2 (newLog_lists _) (List.forall_mem_nil _)
      (fun s => List.mem_singleton.mp) (List.forall_mem_nil _) ?_
    intro le
    exact ⟨(List.append_nil _).symm, rfl, (List.append_nil _).symm, rfl⟩
  · rw [if_neg h, if_neg h]
    exact .refl x.2

theorem adds_lookupLogCommit :
    MechUndoJnlEntry.Adds structAddr [] []
      (if sheet.loggingCommit.any fun c => c.containVar st v then [pm] else [])
      x.2 (lookupLogCommit structAddr sheet x pm st v).2 := by
  rw [lookupLogCommit]
  by_cases h : (sheet.loggingCommit.any fun c => c.containVar st v) = true
  · rw [if_pos h, if_pos h]
    dsimp only
    refine .updateLog structAddr (c := [pm]) x.2 (newLog_lists _) (List.forall_mem_nil _)
      (List.forall_mem_nil _) (fun s => List.mem_singleton.mp) ?_
    intro le
    exact ⟨(List.append_nil _).symm, (List.append_nil _).symm, rfl, rfl⟩
  · rw [if_neg h, if_neg h]
    exact .refl x.2

theorem lookupTxCommit_spec :
    ((lookupTxCommit structAddr sheet x pm st v).isSome = true ↔
      ((sheet.txCommitVar.any fun f => f.comp.containVar st v) = true →
        pm.op.svEntry.isSome = true)) ∧
    ∀ r, lookupTxCommit structAddr sheet x pm st v = some r →
      MechUndoJnlEntry.Adds structAddr [] [] [] x.2 r.2.2 := by
  have hmade := x.1.commit_made
  rw [lookupTxCommit]
  cases hcommit : x.1.txCommit with
  | none =>
    rw [hcommit, Option.map_none, eq_comm, Option.map_eq_none_iff] at hmade
    rw [hmade]
    refine ⟨iff_of_true rfl (fun hc => nomatch hc), fun r hr => ?_⟩
    rw [← Option.some.inj hr]
    exact .refl x.2
  | some commit =>
    rw [hcommit, Option.map_some, eq_comm, Option.map_eq_some_iff] at hmade
    obtain ⟨f, hf, hcomp⟩ := hmade
    rw [hf, Option.any_some, ← containVar_eq_of_blank hcomp.symm]
    apply takesBytes_spec (P := fun r : Bool × JnlTx sheet =>
      MechUndoJnlEntry.Adds structAddr [] [] [] x.2 r.2.2)
    · exact .refl x.2
    · intro data
      by_cases hfin : (commit.setValue st v data).2.isFinalized = true
      · obtain ⟨n, hn⟩ := f.evaluable _ ((blank_setValue _ _ _ _).trans hcomp.symm) hfin
        simp only [if_pos hfin, hn]
        refine ⟨_, rfl, adds_nothing pm structAddr x.2 ⟨rfl, rfl, rfl, rfl⟩ ?_⟩
        intro le
        exact ⟨rfl, rfl, rfl, rfl⟩
      · simp only [if_neg hfin]
        exact ⟨_, rfl, .refl x.2⟩

/-- The lookups of a store to a log entry. -/
theorem lookupLogging_spec :
    ((lookupLogging structAddr sheet x pm st v).isSome = true ↔
      ((sheet.base.logEntryStruct.contains st && (sheet.loggedAddr.comp.containVar st v ||
        sheet.loggedSize.comp.containVar st v)) = true → pm.op.svEntry.isSome = true)) ∧
    ∀ r, lookupLogging structAddr sheet x pm st v = some r →
      r.1 = sheet.base.logEntryStruct.contains st ∧
      MechUndoJnlEntry.Adds structAddr
        (if sheet.base.logEntryStruct.contains st then [pm] else [])
        (if sheet.base.logEntryStruct.contains st && sheet.loggedData.containVar st v then [pm]
          else []) [] x.2 r.2.2 := by
  obtain ⟨hfst, hwrites⟩ := adds_lookupLoggingWrites structAddr x pm st
  rw [lookupLogging]
  by_cases h : sheet.base.logEntryStruct.contains st = true
  · rw [h] at hfst hwrites ⊢
    rw [if_pos rfl] at hwrites
    simp only [hfst, if_true, Bool.true_and, Bool.or_eq_true]
    obtain ⟨haddrSome, haddr⟩ := lookupLoggedAddr_spec structAddr
      (lookupLoggingWrites structAddr sheet x pm st).2 pm st v
    cases hx : lookupLoggedAddr structAddr sheet (lookupLoggingWrites structAddr sheet x pm st).2
        pm st v with
    | none =>
      rw [hx] at haddrSome
      refine ⟨iff_of_false (fun hc => nomatch hc) ?_, fun r hr => nomatch hr⟩
      intro hall
      exact absurd (haddrSome.mpr fun ha => hall (Or.inl ha)) Bool.false_ne_true
    | some x1 =>
      rw [hx] at haddrSome
      have hneeds := haddrSome.mp rfl
      have hadds := hwrites.trans (haddr x1 hx)
      obtain ⟨hsizeSome, hsize⟩ := lookupLoggedSize_spec structAddr x1 pm st v
      simp only [Option.bind_eq_bind, Option.bind_some]
      cases hx2 : lookupLoggedSize structAddr sheet x1 pm st v with
      | none =>
        rw [hx2] at hsizeSome
        refine ⟨iff_of_false (fun hc => nomatch hc) ?_, fun r hr => nomatch hr⟩
        intro hall
        exact absurd (hsizeSome.mpr fun hs => hall (Or.inr hs)) Bool.false_ne_true
      | some x2 =>
        rw [hx2] at hsizeSome
        refine ⟨iff_of_true rfl ?_, fun r hr => ?_⟩
        · intro hc
          rcases hc with ha | hs
          · exact hneeds ha
          · exact hsizeSome.mp rfl hs
        · rw [← Option.some.inj hr]
          exact ⟨rfl, (hadds.trans (hsize x2 hx2)).trans (adds_lookupLoggedData x2 pm st v)⟩
  · rw [Bool.not_eq_true] at h
    rw [h] at hfst hwrites ⊢
    simp only [hfst, Bool.false_eq_true, if_false, Bool.false_and]
    refine ⟨iff_of_true rfl (fun hc => nomatch hc), fun r hr => ?_⟩
    rw [← Option.some.inj hr]
    exact ⟨rfl, .refl x.2⟩

end

end Mech
end Silhouette
