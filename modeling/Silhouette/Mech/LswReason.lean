import Silhouette.CheatSheet.Computation
import Silhouette.Mech.ReplReason
import Silhouette.Mech.SheetUpdates

/-!
# Log-structured writes

`MechLSWReason` walks the stores of an operation, keeps the tail of each log by its location, and
makes an entry of every store that moves one.  Behind the walk, an entry that moves its tail by less
than the size of the log space gets the stores between its two ends.

The size is to come from an expression of its own, but the sheet evaluates the expression of the tail
for it.  `log_writes_right_iff` says when that makes no difference.
-/

namespace Silhouette
namespace Mech

open Lib Trace CheatSheet

/-- The sheet of a log with what the reasoner reads of it.  The computation of the size is there from
its first use on. -/
structure LswSheet where
  base : LSWCheatSheetBase
  preAlloc : Bool
  logSpaceSize : ComputationSheet
  logSpaceSizeComputation : Option ComputationSheet

/-- The test of a number that may be missing. -/
def truthy (x : Option Int) : Bool := x.any fun n => n ≠ 0

section

variable (info : TraceEntry → Deduced)

namespace LswSheet

/-- `update_log_space_size`, with the expression that it uses. -/
def updateLogSpaceSize (sheet : LswSheet) (e : TraceEntry) : Bool × ComputationSheet :=
  (sheet.logSpaceSizeComputation.getD sheet.base.tail).update info e

/-- The value of a tail, when it has one.  Evaluating may fail. -/
def readTail (c : ComputationSheet) : Option (Option Int) :=
  if c.isFinalized then c.evaluate.toOption else some none

/-- What `update_tail` returns: whether the store goes to a tail, and the addresses before and after.
0 is not a valid tail address. -/
def tailAddrs (sheet : LswSheet) (e : TraceEntry) : Option (Bool × Option Int × Option Int) :=
  if sheet.base.tail.tracks info e then do
    let old ← readTail (sheet.base.compAt e.addr)
    let curr := ((sheet.base.compAt e.addr).update info e).2
    let new ← readTail curr
    if curr.isFinalized then
      if truthy old then return (true, old, new)
      else return (true, new, none)
    else return (true, old, none)
  else some (false, none, none)

end LswSheet

/-- An entry with the ends of the log that it is for. -/
structure LswFound where
  entry : MechLSWEntry
  oldTailAddr : Int
  newTailAddr : Int

/-- The size, the sheet and the entries found so far. -/
abbrev LswScan := Option Int × LswSheet × List LswFound

/-- Look for the size, until there is one. -/
def scanSize (x : Option Int × LswSheet) (e : TraceEntry) : Option (Option Int × LswSheet) :=
  if truthy x.1 then some x
  else
    let r := x.2.updateLogSpaceSize info e
    let sheet := { x.2 with logSpaceSizeComputation := some r.2 }
    if r.1 then r.2.evaluate.toOption.map fun size => (size, sheet)
    else some (x.1, sheet)

/-- The entry of a store, if it moves a tail. -/
def foundAt (preAlloc : Bool) (pm : MechPMStoreEntry) : Bool × Option Int × Option Int →
    List LswFound
  | (true, some old, some new) =>
    if old ≠ 0 ∧ new ≠ 0 then [⟨{ preAlloc := preAlloc, tailStore := pm }, old, new⟩] else []
  | _ => []

/-- One turn of the first loop. -/
def scanLswStore (s : LswScan) (pm : MechPMStoreEntry) : Option LswScan :=
  match (info pm.op).structName, (info pm.op).varNames with
  | some _, [_] => do
    let (size, sheet) ← scanSize info (s.1, s.2.1) pm.op
    let addrs ← sheet.tailAddrs info pm.op
    return (size, { sheet with base := sheet.base.updateTail info pm.op },
      s.2.2 ++ foundAt sheet.preAlloc pm addrs)
  | _, _ => some s

end

/-- In-place writes of a journal and the stores of a replication may be repeated. -/
def safeWriteSeq (jnls : List MechUndoJnlEntry) (reps : List MechReplEntry) : List Int :=
  (jnls.flatMap fun jnl => jnl.loggingEntryMap.values.flatMap fun le =>
    le.inPlaceWriteList.map fun w => w.op.seq) ++
  reps.flatMap fun rep =>
    rep.storeOp.opSt.seq :: rep.storesToPrimaryReplica.map fun w => w.op.seq

section

variable (pmAddr : Int) (pmstores : List MechPMStoreEntry) (safe : List Int)

/-- The second loop.  Without a size no writes are looked for; the message about it prints the fence
of the tail. -/
def findLogWrites (size : Option Int) (f : LswFound) : Option LswFound :=
  if truthy size then
    if 0 < f.newTailAddr - f.oldTailAddr ∧ f.newTailAddr - f.oldTailAddr < size.getD 0 then
      some { f with entry := { f.entry with
        logWrites := (MechReplReason.getEntryByAddrSeqRange pmstores 0 maxSize
          (f.oldTailAddr + pmAddr) (f.newTailAddr + pmAddr)).filter fun w => w.op.seq ∉ safe } }
    else some f
  else f.entry.tailStore.fenceSeq.map fun _ => f

end

/-- `__init_entries`, and the sheet behind it. -/
def MechLSWReason.entries (info : TraceEntry → Deduced) (pmAddr : Int)
    (pmstores : List MechPMStoreEntry) (jnls : List MechUndoJnlEntry) (reps : List MechReplEntry)
    (sheet : LswSheet) : Option (List LswFound × LswSheet) :=
  (pmstores.foldlM (scanLswStore info) (none, sheet, [])).bind fun s =>
    (s.2.2.mapM (findLogWrites pmAddr pmstores (safeWriteSeq jnls reps) s.1)).map fun found =>
      (found, s.2.1)

/-! ## What should be found -/

section

variable (info : TraceEntry → Deduced)

/-- The value of an expression whose variables are all set. -/
def tailValue (c : ComputationSheet) : Option Int :=
  if c.isFinalized then c.evaluate.toOption.join else none

/-- The update that a store makes of a tail, from one address to another: the values at the location
of the store, before and behind it. -/
def updateAt (l : LSWCheatSheetBase) (pm : MechPMStoreEntry) :
    List (MechPMStoreEntry × Int × Int) :=
  match tailValue (l.compAt pm.op.addr), tailValue ((l.compAt pm.op.addr).update info pm.op).2 with
  | some old, some new =>
    if l.tail.tracks info pm.op = true ∧ old ≠ 0 ∧ new ≠ 0 then [(pm, old, new)] else []
  | _, _ => []

def tailUpdates (l : LSWCheatSheetBase) :
    List MechPMStoreEntry → List (MechPMStoreEntry × Int × Int)
  | [] => []
  | pm :: rest => updateAt info l pm ++ tailUpdates (l.updateTail info pm.op) rest

/-- The stores to the log between two addresses, less the safe ones. -/
def unprotected (pmAddr : Int) (pmstores : List MechPMStoreEntry) (safe : List Int)
    (old new : Int) : List MechPMStoreEntry :=
  pmstores.filter fun w =>
    MechReplReason.overlaps w.addr w.size (old + pmAddr) (new + pmAddr) ∧ w.op.seq ∉ safe

/-- For a log space of the size `size`, the reasoner finds the updates of tails, and gives each its
writes if it stays below the size. -/
def LogWritesRight (pmAddr : Int) (pmstores : List MechPMStoreEntry) (jnls : List MechUndoJnlEntry)
    (reps : List MechReplEntry) (sheet : LswSheet) (size : Int) : Prop :=
  ∃ found sheet', MechLSWReason.entries info pmAddr pmstores jnls reps sheet =
      some (found, sheet') ∧
    (found.map fun f => (f.entry.tailStore, f.oldTailAddr, f.newTailAddr)) =
      tailUpdates info sheet.base pmstores ∧
    ∀ f ∈ found, f.entry.logWrites =
      if 0 < f.newTailAddr - f.oldTailAddr ∧ f.newTailAddr - f.oldTailAddr < size then
        unprotected pmAddr pmstores (safeWriteSeq jnls reps) f.oldTailAddr f.newTailAddr
      else []

/-- The first value other than 0 that stores give to an expression, or 0 if there is none.  The
expression has to have a value at each store up to that one. -/
def firstValue : ComputationSheet → List TraceEntry → Option Int
  | _, [] => some 0
  | c, e :: rest =>
    if (c.update info e).1 then
      (c.update info e).2.evaluate.toOption.bind fun v =>
        if truthy v then v else firstValue (c.update info e).2 rest
    else firstValue c rest

/-- The tail has a first value, and an update with unprotected stores is below that if and only if it
is below the size; the numbers of these stores do not exceed those that are looked for.  If the
value is 0, the stores that update the tail are fenced. -/
def SizesAgree (pmAddr : Int) (pmstores : List MechPMStoreEntry) (jnls : List MechUndoJnlEntry)
    (reps : List MechReplEntry) (sheet : LswSheet) (size : Int) : Prop :=
  ∃ z, firstValue info (sheet.logSpaceSizeComputation.getD sheet.base.tail)
      (pmstores.map MechPMStoreEntry.op) = some z ∧
    ∀ u ∈ tailUpdates info sheet.base pmstores,
      (z = 0 → u.1.fenceOp.isSome = true) ∧
      (0 < u.2.2 - u.2.1 →
        ∀ w ∈ unprotected pmAddr pmstores (safeWriteSeq jnls reps) u.2.1 u.2.2,
          (u.2.2 - u.2.1 < z ∧ 0 ≤ w.op.seq ∧ w.op.seq ≤ maxSize ↔ u.2.2 - u.2.1 < size))

/-- The value of the declared expression, once the stores have set its variables. -/
def LswSheet.Declares (sheet : LswSheet) (pmstores : List MechPMStoreEntry) (size : Int) : Prop :=
  (sheet.logSpaceSize.after info (pmstores.map MechPMStoreEntry.op)).isFinalized = true ∧
    (sheet.logSpaceSize.after info (pmstores.map MechPMStoreEntry.op)).evaluate = .ok (some size)

end

/-! ## The walk -/

section

variable {info : TraceEntry → Deduced}

variable (info) in
/-- A store that is not matched to one variable is passed over. -/
theorem considered_or_unmatched (e : TraceEntry) :
    (∃ st v, (info e).structName = some st ∧ (info e).varNames = [v]) ∨
      matchedVar info e = none ∧ ∀ (s : LswScan) (pm : MechPMStoreEntry), pm.op = e →
        scanLswStore info s pm = some s := by
  rcases matched_or info e with hmatched | hskip
  · exact Or.inl hmatched
  · refine Or.inr ⟨hskip _ none, ?_⟩
    intro s pm hpm
    rw [scanLswStore, hpm]
    exact hskip _ (some s)

theorem update_of_unmatched {e : TraceEntry} (h : matchedVar info e = none) (c : ComputationSheet) :
    c.update info e = (false, c) := by
  rw [ComputationSheet.update, h]

theorem not_tracks_of_unmatched {e : TraceEntry} (h : matchedVar info e = none)
    (c : ComputationSheet) : c.tracks info e = false := by
  rw [ComputationSheet.tracks, h]
  rfl

theorem updateTail_of_not_tracks {l : LSWCheatSheetBase} {e : TraceEntry}
    (h : l.tail.tracks info e = false) : l.updateTail info e = l := by
  rw [LSWCheatSheetBase.updateTail, if_neg (by rw [h]; decide)]

/-- The size when the walk goes on from a state: the one that is there, or the first value. -/
def sizeFrom (info : TraceEntry → Deduced) (size : Option Int) (c : ComputationSheet)
    (ops : List TraceEntry) : Option Int :=
  if truthy size then some (size.getD 0) else firstValue info c ops

theorem getD_of_not_truthy {x : Option Int} (h : truthy x = false) : x.getD 0 = 0 := by
  cases x with
  | none => rfl
  | some n => simpa [truthy] using h

theorem eq_some_of_truthy {x : Option Int} (h : truthy x = true) : x = some (x.getD 0) := by
  cases x with
  | none => cases h
  | some n => rfl

/-- Looking for the size changes nothing else. -/
theorem base_scanSize {x x' : Option Int × LswSheet} {e : TraceEntry}
    (h : scanSize info x e = some x') :
    x'.2.base = x.2.base ∧ x'.2.preAlloc = x.2.preAlloc := by
  simp only [scanSize] at h
  split_ifs at h
  · rw [← Option.some.inj h]
    exact ⟨rfl, rfl⟩
  · obtain ⟨size, -, heq⟩ := Option.map_eq_some_iff.mp h
    rw [← heq]
    exact ⟨rfl, rfl⟩
  · rw [← Option.some.inj h]
    exact ⟨rfl, rfl⟩

variable (info) in
/-- Looking for the size at a store. -/
theorem sizeFrom_cons (x : Option Int × LswSheet) (e : TraceEntry) (ops : List TraceEntry) :
    sizeFrom info x.1 (x.2.logSpaceSizeComputation.getD x.2.base.tail) (e :: ops) =
      (scanSize info x e).bind fun x' =>
        sizeFrom info x'.1 (x'.2.logSpaceSizeComputation.getD x.2.base.tail) ops := by
  by_cases hsize : truthy x.1 = true
  · rw [scanSize, if_pos hsize, Option.bind_some, sizeFrom, sizeFrom, if_pos hsize, if_pos hsize]
  · have hupdate : (x.2.logSpaceSizeComputation.getD x.2.base.tail).update info e =
        x.2.updateLogSpaceSize info e := rfl
    rw [sizeFrom, if_neg hsize, firstValue, hupdate]
    cases hr : x.2.updateLogSpaceSize info e with
    | mk matched c =>
      simp only [scanSize, if_neg hsize, hr]
      cases matched with
      | false =>
        have hsame := update_eq_of_fst (congrArg Prod.fst (hupdate.trans hr))
        rw [hupdate, hr] at hsame
        have hc : c = x.2.logSpaceSizeComputation.getD x.2.base.tail := hsame
        simp only [Bool.false_eq_true, if_false, Option.bind_some, Option.getD_some, sizeFrom,
          if_neg hsize, hc]
      | true =>
        simp only [if_true]
        cases c.evaluate.toOption with
        | none => rfl
        | some v =>
          simp only [Option.bind_some, Option.map_some, Option.getD_some, sizeFrom]
          by_cases hv : truthy v = true
          · rw [if_pos hv, if_pos hv]
            exact eq_some_of_truthy hv
          · rw [if_neg hv, if_neg hv]

/-- Where the tail has a value, evaluating does not fail. -/
theorem readTail_eq {tail c : ComputationSheet} (hev : Evaluable tail) (hc : c.blank = tail) :
    LswSheet.readTail c = some (tailValue c) := by
  rw [LswSheet.readTail, tailValue]
  by_cases hfin : c.isFinalized = true
  · obtain ⟨v, hv⟩ := hev c hc hfin
    rw [if_pos hfin, if_pos hfin, hv]
    rfl
  · rw [if_neg hfin, if_neg hfin]

theorem updateAt_of_not_tracks {l : LSWCheatSheetBase} {pm : MechPMStoreEntry}
    (h : l.tail.tracks info pm.op = false) : updateAt info l pm = [] := by
  rw [updateAt]
  split
  · exact if_neg (by rw [h]; simp)
  · rfl

/-- The entry that the first loop makes of an update. -/
def LswFound.ofUpdate (preAlloc : Bool) (u : MechPMStoreEntry × Int × Int) : LswFound :=
  ⟨{ preAlloc := preAlloc, tailStore := u.1 }, u.2.1, u.2.2⟩

variable (info) in
/-- What `update_tail` returns gives an entry where the tail is updated, and nowhere else. -/
theorem foundAt_tailAddrs {sheet : LswSheet} (hev : Evaluable sheet.base.tail)
    (pm : MechPMStoreEntry) : ∃ addrs, sheet.tailAddrs info pm.op = some addrs ∧
      foundAt sheet.preAlloc pm addrs =
        (updateAt info sheet.base pm).map (LswFound.ofUpdate sheet.preAlloc) := by
  by_cases htracks : sheet.base.tail.tracks info pm.op = true
  · have hold := readTail_eq hev (sheet.base.blank_compAt pm.op.addr)
    have hblank : ((sheet.base.compAt pm.op.addr).update info pm.op).2.blank = sheet.base.tail := by
      rw [ComputationSheet.update_snd, ComputationSheet.blank_mapValues, sheet.base.blank_compAt]
    have hnew := readTail_eq hev hblank
    have hfin : ((sheet.base.compAt pm.op.addr).update info pm.op).2.isFinalized = true ↔
        (tailValue ((sheet.base.compAt pm.op.addr).update info pm.op).2).isSome = true := by
      rw [tailValue]
      by_cases hf : ((sheet.base.compAt pm.op.addr).update info pm.op).2.isFinalized = true
      · obtain ⟨v, hv⟩ := hev _ hblank hf
        rw [if_pos hf, hv]
        exact iff_of_true hf rfl
      · rw [if_neg hf]
        exact iff_of_false hf (by decide)
    simp only [LswSheet.tailAddrs, hold, hnew, Option.bind_eq_bind,
      Option.bind_some, updateAt, htracks, hfin, true_and]
    cases tailValue (sheet.base.compAt pm.op.addr) with
    | none =>
      cases tailValue ((sheet.base.compAt pm.op.addr).update info pm.op).2 with
      | none => exact ⟨_, rfl, rfl⟩
      | some new => exact ⟨_, rfl, rfl⟩
    | some old =>
      cases tailValue ((sheet.base.compAt pm.op.addr).update info pm.op).2 with
      | none => exact ⟨_, rfl, rfl⟩
      | some new =>
        by_cases h0 : old = 0
        · rw [h0]
          exact ⟨(true, some new, none), rfl, rfl⟩
        · refine ⟨(true, some old, some new), by simp [truthy, h0], ?_⟩
          show (if old ≠ 0 ∧ new ≠ 0 then _ else _) =
            (if old ≠ 0 ∧ new ≠ 0 then [(pm, old, new)] else []).map _
          by_cases hn : old ≠ 0 ∧ new ≠ 0
          · rw [if_pos hn, if_pos hn]
            rfl
          · rw [if_neg hn, if_neg hn]
            rfl
  · refine ⟨_, if_neg htracks, ?_⟩
    rw [updateAt_of_not_tracks (Bool.eq_false_of_not_eq_true htracks)]
    rfl

variable (info) in
/-- The size and the entries behind the first loop.  It fails where the size does. -/
theorem foldlM_scanLswStore (pmstores : List MechPMStoreEntry) {size : Option Int}
    {sheet : LswSheet} (hev : Evaluable sheet.base.tail) (found : List LswFound) :
    (pmstores.foldlM (scanLswStore info) (size, sheet, found)).map
        (fun s => (s.1.getD 0, s.2.2)) =
      (sizeFrom info size (sheet.logSpaceSizeComputation.getD sheet.base.tail)
          (pmstores.map MechPMStoreEntry.op)).map fun z =>
        (z, found ++ (tailUpdates info sheet.base pmstores).map (LswFound.ofUpdate sheet.preAlloc))
    := by
  induction pmstores generalizing size sheet found with
  | nil =>
    have hsize : sizeFrom info size (sheet.logSpaceSizeComputation.getD sheet.base.tail) [] =
        some (size.getD 0) := by
      rw [sizeFrom, firstValue]
      by_cases h : truthy size = true
      · rw [if_pos h]
      · rw [if_neg h, getD_of_not_truthy (Bool.eq_false_of_not_eq_true h)]
    rw [List.map_nil, hsize]
    simp [tailUpdates]
  | cons pm rest ih =>
    rw [List.foldlM_cons, List.map_cons, tailUpdates]
    rcases considered_or_unmatched info pm.op with hmatched | ⟨hnone, hskip⟩
    · obtain ⟨st, v, hst, hv⟩ := hmatched
      have hstep := sizeFrom_cons info (size, sheet) pm.op
        (rest.map MechPMStoreEntry.op)
      rw [hstep]
      simp only [scanLswStore, hst, hv]
      cases hscan : scanSize info (size, sheet) pm.op with
      | none => rfl
      | some x =>
        obtain ⟨hbase, halloc⟩ := base_scanSize hscan
        have hevx : Evaluable x.2.base.tail := by rw [hbase]; exact hev
        obtain ⟨addrs, haddrs, hfound⟩ := foundAt_tailAddrs info hevx pm
        have htail : (x.2.base.updateTail info pm.op).tail = sheet.base.tail := by
          rw [hbase, sheet.base.tail_updateTail]
        have hrest := @ih x.1 { x.2 with base := x.2.base.updateTail info pm.op }
          (by rw [htail]; exact hev) (found ++ foundAt x.2.preAlloc pm addrs)
        simp only [Option.bind_eq_bind, Option.bind_some, haddrs, Option.pure_def]
        rw [hrest, htail, hfound, hbase, halloc, List.map_append, List.append_assoc]
    · have htracks := not_tracks_of_unmatched hnone sheet.base.tail
      have hsize : sizeFrom info size (sheet.logSpaceSizeComputation.getD sheet.base.tail)
          (pm.op :: rest.map MechPMStoreEntry.op) =
          sizeFrom info size (sheet.logSpaceSizeComputation.getD sheet.base.tail)
            (rest.map MechPMStoreEntry.op) := by
        rw [sizeFrom, sizeFrom, firstValue, update_of_unmatched hnone]
        rfl
      rw [hskip _ _ rfl, hsize, updateAt_of_not_tracks htracks, updateTail_of_not_tracks htracks]
      exact ih hev found

/-! ## The writes of an update -/

section

variable (pmAddr : Int) (pmstores : List MechPMStoreEntry) (safe : List Int) (preAlloc : Bool) (z : Int)

/-- The writes that an update gets for the size `z`. -/
def writesFor (u : MechPMStoreEntry × Int × Int) : List MechPMStoreEntry :=
  if 0 < u.2.2 - u.2.1 ∧ u.2.2 - u.2.1 < z then
    (unprotected pmAddr pmstores safe u.2.1 u.2.2).filter fun w =>
      0 ≤ w.op.seq ∧ w.op.seq ≤ maxSize
  else []

/-- The entry of an update behind both loops. -/
def LswFound.withWrites (u : MechPMStoreEntry × Int × Int) : LswFound :=
  ⟨{ preAlloc := preAlloc, tailStore := u.1,
     logWrites := writesFor pmAddr pmstores safe z u }, u.2.1, u.2.2⟩

theorem findLogWrites_getD (size : Option Int) (f : LswFound) :
    findLogWrites pmAddr pmstores safe size f =
      findLogWrites pmAddr pmstores safe (some (size.getD 0)) f := by
  cases size with
  | none => rfl
  | some n => rfl

/-- Without a size it takes the fence of the tail. -/
theorem findLogWrites_ofUpdate (u : MechPMStoreEntry × Int × Int) :
    findLogWrites pmAddr pmstores safe (some z) (.ofUpdate preAlloc u) =
      if z = 0 ∧ u.1.fenceOp = none then none
      else some (.withWrites pmAddr pmstores safe preAlloc z u) := by
  by_cases hz : z = 0
  · have hwrites : LswFound.withWrites pmAddr pmstores safe preAlloc z u = .ofUpdate preAlloc u := by
      rw [LswFound.withWrites, LswFound.ofUpdate, writesFor, if_neg (by omega)]
    rw [findLogWrites, if_neg (by simp [truthy, hz]), hwrites]
    simp only [hz, true_and]
    show (u.1.fenceOp.map TraceEntry.seq).map _ = _
    cases u.1.fenceOp with
    | none => rfl
    | some fence => rfl
  · rw [if_neg (fun h : z = 0 ∧ u.1.fenceOp = none => hz h.1), findLogWrites,
      if_pos (by simp [truthy, hz]), LswFound.withWrites, writesFor]
    show (if 0 < u.2.2 - u.2.1 ∧ u.2.2 - u.2.1 < z then _
      else some (LswFound.ofUpdate preAlloc u)) = _
    by_cases hd : 0 < u.2.2 - u.2.1 ∧ u.2.2 - u.2.1 < z
    · have hlist : (MechReplReason.getEntryByAddrSeqRange pmstores 0 maxSize (u.2.1 + pmAddr)
            (u.2.2 + pmAddr)).filter (fun w => w.op.seq ∉ safe) =
          (unprotected pmAddr pmstores safe u.2.1 u.2.2).filter fun w =>
            0 ≤ w.op.seq ∧ w.op.seq ≤ maxSize := by
        rw [MechReplReason.getEntryByAddrSeqRange, unprotected, List.filter_filter,
          List.filter_filter]
        refine List.filter_congr (fun w _ => ?_)
        rw [Bool.eq_iff_iff]
        simp only [Bool.and_eq_true, decide_eq_true_eq]
        tauto
      rw [if_pos hd, if_pos hd, LswFound.ofUpdate, hlist]
    · rw [if_neg hd, if_neg hd]
      rfl

/-- The writes are the right ones if the two sizes agree on them. -/
theorem writesFor_eq_iff (u : MechPMStoreEntry × Int × Int) (size : Int) :
    (writesFor pmAddr pmstores safe z u =
      if 0 < u.2.2 - u.2.1 ∧ u.2.2 - u.2.1 < size then unprotected pmAddr pmstores safe u.2.1 u.2.2
      else []) ↔
    (0 < u.2.2 - u.2.1 → ∀ w ∈ unprotected pmAddr pmstores safe u.2.1 u.2.2,
      (u.2.2 - u.2.1 < z ∧ 0 ≤ w.op.seq ∧ w.op.seq ≤ maxSize ↔ u.2.2 - u.2.1 < size)) := by
  rw [writesFor]
  by_cases hpos : 0 < u.2.2 - u.2.1
  · by_cases hz : u.2.2 - u.2.1 < z
    · by_cases hs : u.2.2 - u.2.1 < size
      · simp only [hpos, hz, hs, true_and, if_true, iff_true, List.filter_eq_self,
          decide_eq_true_eq, true_implies]
      · simp only [hpos, hz, hs, true_and, if_true, and_false, if_false, iff_false,
          List.filter_eq_nil_iff, decide_eq_true_eq, true_implies]
    · by_cases hs : u.2.2 - u.2.1 < size
      · simp only [hpos, hz, hs, and_false, false_and, if_false, and_self, if_true, true_implies,
          false_iff, not_true]
        exact eq_comm.trans List.eq_nil_iff_forall_not_mem
      · simp only [hz, hs, and_false, false_and, if_false, iff_self, implies_true]
  · simp only [hpos, false_and, if_false, false_implies]

/-- The second loop. -/
theorem mapM_findLogWrites (us : List (MechPMStoreEntry × Int × Int)) (found : List LswFound) :
    (us.map (LswFound.ofUpdate preAlloc)).mapM (findLogWrites pmAddr pmstores safe (some z)) =
        some found ↔
      (∀ u ∈ us, z = 0 → u.1.fenceOp.isSome = true) ∧
        found = us.map (.withWrites pmAddr pmstores safe preAlloc z) := by
  induction us generalizing found with
  | nil =>
    show some [] = some found ↔ _
    rw [Option.some.injEq, eq_comm]
    exact (and_iff_right (fun u hu => absurd hu List.not_mem_nil)).symm
  | cons u rest ih =>
    rw [List.map_cons, List.mapM_cons, findLogWrites_ofUpdate]
    by_cases hu : z = 0 ∧ u.1.fenceOp = none
    · rw [if_pos hu]
      refine iff_of_false (fun h => nomatch h) (fun h => ?_)
      have hsome := h.1 u List.mem_cons_self hu.1
      rw [hu.2] at hsome
      cases hsome
    · have hfence : z = 0 → u.1.fenceOp.isSome = true := by
        intro hz
        exact Option.isSome_iff_ne_none.mpr fun hnone => hu ⟨hz, hnone⟩
      rw [if_neg hu]
      simp only [Option.bind_eq_bind, Option.bind_some, Option.pure_def, Option.bind_eq_some_iff,
        Option.some.injEq, ih, List.forall_mem_cons, List.map_cons]
      constructor
      · intro h
        obtain ⟨tail, hall, heq⟩ := h
        exact ⟨⟨hfence, hall.1⟩, by rw [← heq, hall.2]⟩
      · intro h
        exact ⟨_, ⟨h.1.2, rfl⟩, h.2.symm⟩

end

end

/-! ## The size that is used and the size that is declared -/

section

variable (info : TraceEntry → Deduced) (pmAddr : Int) (pmstores : List MechPMStoreEntry)
  (jnls : List MechUndoJnlEntry) (reps : List MechReplEntry)

/-- The entries come from the first value of the tail, if there is one. -/
theorem entries_eq_some_iff {sheet : LswSheet} (hev : Evaluable sheet.base.tail)
    (found : List LswFound) :
    (∃ sheet', MechLSWReason.entries info pmAddr pmstores jnls reps sheet = some (found, sheet')) ↔
      ∃ z, firstValue info (sheet.logSpaceSizeComputation.getD sheet.base.tail)
          (pmstores.map MechPMStoreEntry.op) = some z ∧
        (∀ u ∈ tailUpdates info sheet.base pmstores, z = 0 → u.1.fenceOp.isSome = true) ∧
        found = (tailUpdates info sheet.base pmstores).map
          (.withWrites pmAddr pmstores (safeWriteSeq jnls reps) sheet.preAlloc z) := by
  have hscan := @foldlM_scanLswStore info pmstores none sheet hev []
  rw [sizeFrom, if_neg (by decide)] at hscan
  cases hrun : pmstores.foldlM (scanLswStore info) (none, sheet, []) with
  | none =>
    rw [hrun, Option.map_none, eq_comm, Option.map_eq_none_iff] at hscan
    simp only [MechLSWReason.entries, hrun, Option.bind_none, reduceCtorEq, exists_false, hscan,
      false_and]
  | some s =>
    obtain ⟨size, sheet', fs⟩ := s
    rw [hrun, Option.map_some, eq_comm, Option.map_eq_some_iff] at hscan
    obtain ⟨z, hz, heq⟩ := hscan
    obtain ⟨hsize, hfs⟩ := Prod.mk.inj heq
    have hget : findLogWrites pmAddr pmstores (safeWriteSeq jnls reps) size =
        findLogWrites pmAddr pmstores (safeWriteSeq jnls reps) (some z) := by
      funext f
      rw [findLogWrites_getD, ← hsize]
    have hfs' : fs =
        (tailUpdates info sheet.base pmstores).map (LswFound.ofUpdate sheet.preAlloc) := hfs.symm
    simp only [MechLSWReason.entries, hrun, Option.bind_some, hget, hfs', hz, Option.some.injEq]
    rw [exists_eq_left', ← mapM_findLogWrites]
    constructor
    · intro h
      obtain ⟨sheet'', hmap⟩ := h
      obtain ⟨found', hfound, hpair⟩ := Option.map_eq_some_iff.mp hmap
      rw [← (Prod.mk.inj hpair).1]
      exact hfound
    · intro h
      exact ⟨sheet', Option.map_eq_some_iff.mpr ⟨found, h, rfl⟩⟩

/-- For any size, the reasoner is right if and only if the size agrees with what it uses. -/
theorem logWritesRight_iff_sizesAgree {sheet : LswSheet} (hev : Evaluable sheet.base.tail)
    (size : Int) : LogWritesRight info pmAddr pmstores jnls reps sheet size ↔
      SizesAgree info pmAddr pmstores jnls reps sheet size := by
  constructor
  · intro h
    obtain ⟨found, sheet', hentries, -, hwrites⟩ := h
    obtain ⟨z, hz, hfence, hfound⟩ :=
      (entries_eq_some_iff info pmAddr pmstores jnls reps hev found).mp ⟨sheet', hentries⟩
    refine ⟨z, hz, fun u hu => ⟨hfence u hu, ?_⟩⟩
    rw [hfound, List.forall_mem_map] at hwrites
    exact (writesFor_eq_iff pmAddr pmstores _ z u size).mp (hwrites u hu)
  · intro h
    obtain ⟨z, hz, hagree⟩ := h
    obtain ⟨sheet', hentries⟩ := (entries_eq_some_iff info pmAddr pmstores jnls reps hev _).mpr
      ⟨z, hz, fun u hu => (hagree u hu).1, rfl⟩
    refine ⟨_, sheet', hentries, ?_, ?_⟩
    · rw [List.map_map]
      exact List.map_id _
    · rw [List.forall_mem_map]
      intro u hu
      exact (writesFor_eq_iff pmAddr pmstores _ z u size).mpr (hagree u hu).2

/-- With a tail in reverse Polish notation, the updates of tails get the writes for the declared size
if and only if that size agrees with the first value of the tail. -/
theorem log_writes_right_iff {sheet : LswSheet} {words : List RpnWord}
    {e : Lib.Rpn.Expr Operand ArithOp} (hwords : List.Forall₂ Spells words e.rpn)
    (htail : ComputationSheet.new words = some sheet.base.tail) :
    (∀ size, sheet.Declares info pmstores size →
        LogWritesRight info pmAddr pmstores jnls reps sheet size) ↔
      ∀ size, sheet.Declares info pmstores size →
        SizesAgree info pmAddr pmstores jnls reps sheet size := by
  have hev := evaluable_of_spells hwords htail
  constructor
  · intro h size hsize
    exact (logWritesRight_iff_sizesAgree info pmAddr pmstores jnls reps hev size).mp (h size hsize)
  · intro h size hsize
    exact (logWritesRight_iff_sizesAgree info pmAddr pmstores jnls reps hev size).mpr (h size hsize)

end

/-- The log of NOVA's inodes, with one block of log space. -/
def inodeLog : LswSheet where
  base :=
    { tail := ⟨[.var "nova_inode" "log_tail" false none]⟩
      tailLocToComputationDict := Dict.empty
      tail_blank := rfl
      made := fun _ _ hc => nomatch hc }
  preAlloc := false
  logSpaceSize := ⟨[.number (some 4096)]⟩
  logSpaceSizeComputation := none

theorem spells_logTail : List.Forall₂ Spells [.text "nova_inode.log_tail.unsigned"]
    (Lib.Rpn.Expr.leaf (.var "nova_inode" "log_tail" false) : Lib.Rpn.Expr Operand ArithOp).rpn :=
  .cons (.var false (by decide) (by decide) (by decide)) .nil

/-- Persistent memory starts at 4294967296, and the tail of an inode is 4104 bytes behind that. -/
def inodeInfo (e : TraceEntry) : Deduced :=
  if e.addr = 4294971400 then ⟨some "nova_inode", ["log_tail"]⟩ else ⟨none, []⟩

def fenced (op : TraceEntry) : MechPMStoreEntry :=
  { op := op
    addr := op.addr
    size := op.size
    phyAddr := op.addr - 4294967296
    fenceOp := some (.plain .fence (op.seq + 1) 0 0) }

def logTailStore (seq : Int) (data : List UInt8) : MechPMStoreEntry :=
  fenced { TraceEntry.plain .store seq 4294971400 8 with svEntry := some data }

/-- The tail goes from 65536 two blocks on, behind a write to the first of them. -/
def twoBlocksOn : List MechPMStoreEntry :=
  [logTailStore 1 [0, 0, 1, 0, 0, 0, 0, 0], fenced (.plain .store 3 4295032832 64),
    logTailStore 5 [0, 32, 1, 0, 0, 0, 0, 0]]

theorem log_writes_right_twoBlocksOn :
    (∀ size, inodeLog.Declares inodeInfo twoBlocksOn size →
        LogWritesRight inodeInfo 4294967296 twoBlocksOn [] [] inodeLog size) ↔
      ∀ size, inodeLog.Declares inodeInfo twoBlocksOn size →
        SizesAgree inodeInfo 4294967296 twoBlocksOn [] [] inodeLog size :=
  log_writes_right_iff inodeInfo 4294967296 twoBlocksOn [] [] spells_logTail (by decide)

/-- The update is not below the declared size, and gets the write nevertheless. -/
theorem two_blocks_get_writes : inodeLog.Declares inodeInfo twoBlocksOn 4096 ∧
    ¬ LogWritesRight inodeInfo 4294967296 twoBlocksOn [] [] inodeLog 4096 := by
  refine ⟨⟨by decide, by decide⟩, ?_⟩
  intro h
  obtain ⟨found, sheet', hentries, -, hwrites⟩ := h
  have hrun : (MechLSWReason.entries inodeInfo 4294967296 twoBlocksOn [] [] inodeLog).map (fun x =>
      x.1.map fun f => (f.oldTailAddr, f.newTailAddr, f.entry.logWrites.length)) =
        some [(65536, 73728, 1)] := by decide +kernel
  rw [hentries, Option.map_some, Option.some.injEq] at hrun
  obtain ⟨f, hf, hshape⟩ := List.mem_map.mp (hrun ▸ List.mem_singleton_self _ :
    ((65536 : Int), (73728 : Int), 1) ∈ found.map fun f =>
      (f.oldTailAddr, f.newTailAddr, f.entry.logWrites.length))
  obtain ⟨hold, hrest⟩ := Prod.mk.inj hshape
  obtain ⟨hnew, hlength⟩ := Prod.mk.inj hrest
  rw [hwrites f hf, hold, hnew, if_neg (by decide)] at hlength
  cases hlength

end Mech
end Silhouette
