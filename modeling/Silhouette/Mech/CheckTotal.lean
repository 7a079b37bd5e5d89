import Silhouette.Mech.InvariantCheck

/-!
# When the checks of the mechanisms go through

A check comes to an end when every fence that it reads was found, and the stores that it requires
to be fenced before others are caught when they are never flushed and fenced.  The two do not go
together: for such a store there is no fence to read.

The module states for each mechanism which orders it requires and which of them the check compares,
and says exactly when the check ends with the errors for all stores that are not persisted.
-/

namespace Silhouette
namespace Mech

open Lib Lib.Bytes Cache Trace OpTrace

/-- The check comes to an end, and every store that has to be fenced before another one, and is
never flushed and fenced, has its error. -/
def Catches {ε : Type} (op : OpTraceEntry) (check : Option (List ε))
    (required : List (MechPMStoreEntry × ε)) : Prop :=
  ∃ errs, check = some errs ∧ ∀ r ∈ required, ¬ Persisted op r.1.op → r.2 ∈ errs

/-! ## Undo journals -/

/-- A store that has to be fenced before another one, and the error when it is not. -/
structure JnlOrder where
  first : MechPMStoreEntry
  second : MechPMStoreEntry
  err : UndoJnlInvariantErrorType

namespace MechUndoJnlEntry

open UndoJnlInvariantErrorType

def commitOrders (e : MechUndoJnlEntry) (commit : MechPMStoreEntry) :
    List JnlOrder :=
  e.endStore.toList.map fun head => ⟨commit, head, loggingCommitFencedAfterHeadUpdate⟩

def writeOrders (commit w : MechPMStoreEntry) : List JnlOrder :=
  if w.op.seq = commit.op.seq then []
  else [⟨w, commit, loggingWriteFencedAfterLoggingCommit⟩]

def inPlaceOrders (commit w : MechPMStoreEntry) : List JnlOrder :=
  if commit.op.seq = w.op.seq then []
  else [⟨commit, w, loggingCommitFencedAfterInPlaceWrite⟩]

def headOrders (e : MechUndoJnlEntry) (w : MechPMStoreEntry) :
    List JnlOrder :=
  e.endStore.toList.map fun head => ⟨w, head, inPlaceWriteFencedAfterHeadUpdate⟩

/-- The stores that commit a logging entry: its own ones, or the update of the tail. -/
def commits (e : MechUndoJnlEntry) (le : UndoJnlLoggingEntry) : List MechPMStoreEntry :=
  if e.preAlloc then le.loggingCommitList else e.tailStore.toList

/-- Logging writes before the commit, the commit before the in-place writes, all of it before the
head moves. -/
def required (e : MechUndoJnlEntry) : List JnlOrder :=
  e.loggingEntryMap.values.flatMap fun le =>
    ((e.commits le).flatMap fun commit =>
      e.commitOrders commit ++ le.loggingWriteList.flatMap (writeOrders commit) ++
        le.inPlaceWriteList.flatMap (inPlaceOrders commit)) ++
      le.inPlaceWriteList.flatMap e.headOrders

/-- The check goes on to the in-place writes. -/
def checksInPlace (le : UndoJnlLoggingEntry) : Prop :=
  le.loggingDataList ≠ [] ∧ le.loggedSizeSet = true

instance (le : UndoJnlLoggingEntry) : Decidable (checksInPlace le) :=
  inferInstanceAs (Decidable (_ ∧ _))

def comparedCommitted (e : MechUndoJnlEntry) (le : UndoJnlLoggingEntry)
    (commit : MechPMStoreEntry) : List JnlOrder :=
  e.commitOrders commit ++ le.loggingWriteList.flatMap (writeOrders commit) ++
    if checksInPlace le then
      le.inPlaceWriteList.flatMap fun w => inPlaceOrders commit w ++ e.headOrders w
    else []

/-- The entry has a head or a commit, and a tail. -/
def Complete (e : MechUndoJnlEntry) : Prop := e.endStore.isSome ∧ e.tailStore.isSome

instance (e : MechUndoJnlEntry) : Decidable e.Complete := inferInstanceAs (Decidable (_ ∧ _))

/-- The orders that the check compares. -/
def compared (e : MechUndoJnlEntry) : List JnlOrder :=
  if e.Complete then
    e.loggingEntryMap.values.flatMap fun le =>
      match e.commits le with
      | [commit] => e.comparedCommitted le commit
      | _ => []
  else []

end MechUndoJnlEntry

namespace JnlOrder

open UndoJnlInvariantErrorType

variable (o : JnlOrder)

/-- A logging write in the cacheline of its commit. -/
def SameLine : Prop :=
  o.err = loggingWriteFencedAfterLoggingCommit ∧
    alignToFloor o.first.addr cachelineBytes = alignToFloor o.second.addr cachelineBytes

instance : Decidable o.SameLine := inferInstanceAs (Decidable (_ ∧ _))

/-- The fence that is compared with the second store. -/
def fence : Option TraceEntry := if o.SameLine then o.first.firstFenceOp else o.first.fenceOp

def Late : Prop :=
  ∃ g, o.fence = some g ∧
    if o.err = inPlaceWriteFencedAfterHeadUpdate then g.seq ≥ o.second.op.seq
    else g.seq > o.second.op.seq

/-- There is a fence to compare. -/
def Readable (op : OpTraceEntry) : Prop :=
  if o.SameLine then o.first.firstFenceOp.isSome = true else Persisted op o.first.op

end JnlOrder

namespace MechUndoJnlEntry

open UndoJnlInvariantErrorType

/-- The errors about the order of fences. -/
def orderErrors : List UndoJnlInvariantErrorType :=
  [loggingWriteFencedAfterLoggingCommit, loggingCommitFencedAfterHeadUpdate,
    loggingCommitFencedAfterInPlaceWrite, inPlaceWriteFencedAfterHeadUpdate]

/-- The check ends when all its orders have a fence, and reports the late ones. -/
structure Reports (x : Option (List UndoJnlInvariantErrorType)) (ok : Prop)
    (os : List JnlOrder) : Prop where
  isSome_iff : x.isSome ↔ ok ∧ ∀ o ∈ os, o.fence.isSome
  mem_iff : ∀ errs, x = some errs → ∀ t ∈ orderErrors, t ∈ errs ↔ ∃ o ∈ os, o.err = t ∧ o.Late

namespace Reports

variable {x y : Option (List UndoJnlInvariantErrorType)} {ok ok' : Prop}
  {os os' : List JnlOrder}

/-- Errors that are not about the order of fences. -/
theorem other (hsome : x.isSome ↔ ok) (h : ∀ errs, x = some errs → ∀ t ∈ orderErrors, t ∉ errs) :
    Reports x ok [] where
  isSome_iff := by simp [hsome]
  mem_iff errs heq t ht := by simp [h errs heq t ht]

theorem const {errs : List UndoJnlInvariantErrorType} (h : ∀ t ∈ orderErrors, t ∉ errs) :
    Reports (some errs) True [] :=
  other (by simp) fun errs' heq => Option.some.inj heq ▸ h

theorem append (hx : Reports x ok os) (hy : Reports y ok' os') :
    Reports (x.bind fun a => y.bind fun b => some (a ++ b)) (ok ∧ ok') (os ++ os') where
  isSome_iff := by
    have hsome : (x.bind fun a => y.bind fun b => some (a ++ b)).isSome ↔
        x.isSome ∧ y.isSome := by
      cases x <;> cases y <;> simp
    rw [hsome, hx.isSome_iff, hy.isSome_iff, List.forall_mem_append]
    tauto
  mem_iff errs heq t ht := by
    obtain ⟨a, ha, heq⟩ := Option.bind_eq_some_iff.mp heq
    obtain ⟨b, hb, heq⟩ := Option.bind_eq_some_iff.mp heq
    rw [← Option.some.inj heq, List.mem_append, hx.mem_iff a ha t ht, hy.mem_iff b hb t ht]
    constructor
    · rintro (⟨o, ho, h⟩ | ⟨o, ho, h⟩)
      · exact ⟨o, List.mem_append_left _ ho, h⟩
      · exact ⟨o, List.mem_append_right _ ho, h⟩
    · rintro ⟨o, ho, h⟩
      exact (List.mem_append.mp ho).imp (fun ho => ⟨o, ho, h⟩) fun ho => ⟨o, ho, h⟩

/-- A loop over stores. -/
theorem flatten {α : Type} {f : α → Option (List UndoJnlInvariantErrorType)} {okOf : α → Prop}
    {osOf : α → List JnlOrder} {l : List α}
    (h : ∀ a ∈ l, Reports (f a) (okOf a) (osOf a)) :
    Reports ((l.mapM f).map List.flatten) (∀ a ∈ l, okOf a) (l.flatMap osOf) := by
  induction l with
  | nil =>
    refine ⟨by simp, fun errs heq t ht => ?_⟩
    rw [← Option.some.inj heq]
    simp
  | cons a rest ih =>
    have hrest := ih fun b hb => h b (List.mem_cons_of_mem _ hb)
    have hall := append (h a List.mem_cons_self) hrest
    have heq : (((a :: rest).mapM f).map List.flatten) = (f a).bind fun u =>
        ((rest.mapM f).map List.flatten).bind fun v => some (u ++ v) := by
      rw [List.mapM_cons]
      cases f a with
      | none => rfl
      | some u => cases rest.mapM f <;> rfl
    rw [heq, List.flatMap_cons]
    refine ⟨?_, hall.mem_iff⟩
    rw [hall.isSome_iff, List.forall_mem_cons]

theorem congr {ok' : Prop} (hx : Reports x ok os) (h : ok ↔ ok') : Reports x ok' os :=
  ⟨hx.isSome_iff.trans (and_congr_left' h), hx.mem_iff⟩

/-- One comparison. -/
theorem compare (o : JnlOrder) (late : Int → Prop)
    [DecidablePred late] (hx : x = (o.fence.map TraceEntry.seq).map fun fenceSeq =>
      if late fenceSeq then [o.err] else [])
    (hlate : ∀ g, o.fence = some g → (late g.seq ↔ o.Late)) : Reports x True [o] := by
  cases hfence : o.fence with
  | none =>
    rw [hfence] at hx
    rw [hx]
    exact ⟨by simp [hfence], fun errs heq => by cases heq⟩
  | some g =>
    rw [hfence] at hx
    rw [hx]
    refine ⟨by simp [hfence], fun errs heq t _ => ?_⟩
    rw [← Option.some.inj heq]
    by_cases hg : late g.seq
    · simp [hg, (hlate g hfence).mp hg, eq_comm]
    · simp [hg, mt (hlate g hfence).mpr hg]

end Reports

section

variable {e : MechUndoJnlEntry} {le : UndoJnlLoggingEntry} {commit w : MechPMStoreEntry}

theorem late_iff {o : JnlOrder} {g : TraceEntry}
    (h : o.fence = some g) : o.Late ↔
      if o.err = inPlaceWriteFencedAfterHeadUpdate then g.seq ≥ o.second.op.seq
      else g.seq > o.second.op.seq := by
  constructor
  · rintro ⟨g', hg', hlate⟩
    rw [h] at hg'
    rwa [Option.some.inj hg']
  · exact fun hlate => ⟨g, h, hlate⟩

/-- One of the three comparisons that allow a fence at the second store. -/
theorem reports_fencedAfter (o : JnlOrder)
    (h : o.err ≠ inPlaceWriteFencedAfterHeadUpdate) :
    Reports (fencedAfter o.err o.second.op.seq (o.fence.map TraceEntry.seq)) True [o] := by
  refine Reports.compare o (fun fenceSeq => fenceSeq > o.second.op.seq) rfl fun g hg => ?_
  rw [late_iff hg, if_neg h]

theorem reports_checkCommit : Reports (e.checkCommit commit) True (e.commitOrders commit) := by
  rw [checkCommit, commitOrders]
  cases e.endStore with
  | none => exact Reports.const fun t _ => List.not_mem_nil
  | some head => exact reports_fencedAfter ⟨commit, head, _⟩ (by simp)

theorem reports_checkLoggingWrite :
    Reports (checkLoggingWrite commit w) True (writeOrders commit w) := by
  rw [checkLoggingWrite, writeOrders]
  by_cases hseq : w.op.seq = commit.op.seq
  · rw [if_pos hseq, if_pos hseq]
    exact Reports.const fun t _ => List.not_mem_nil
  · rw [if_neg hseq, if_neg hseq]
    have hcompare := reports_fencedAfter ⟨w, commit, loggingWriteFencedAfterLoggingCommit⟩ (by simp)
    by_cases hline : alignToFloor w.addr cachelineBytes = alignToFloor commit.addr cachelineBytes
    · rw [JnlOrder.fence, if_pos ⟨rfl, hline⟩] at hcompare
      rw [if_pos hline]
      exact hcompare
    · rw [JnlOrder.fence, if_neg fun h => hline h.2] at hcompare
      rw [if_neg hline]
      exact hcompare

theorem reports_commitBeforeInPlace :
    Reports (checkCommitBeforeInPlace commit w) True (inPlaceOrders commit w) := by
  rw [checkCommitBeforeInPlace, inPlaceOrders]
  by_cases hseq : commit.op.seq = w.op.seq
  · rw [if_pos hseq, if_pos hseq]
    exact Reports.const fun t _ => List.not_mem_nil
  · rw [if_neg hseq, if_neg hseq]
    exact reports_fencedAfter ⟨commit, w, _⟩ (by simp)

theorem reports_inPlaceBeforeHead :
    Reports (e.checkInPlaceBeforeHead w) True (e.headOrders w) := by
  rw [checkInPlaceBeforeHead, headOrders]
  cases e.endStore with
  | none => exact Reports.const fun t _ => List.not_mem_nil
  | some head =>
    refine Reports.compare ⟨w, head, _⟩ (fun fenceSeq => fenceSeq ≥ head.op.seq) rfl fun g hg => ?_
    rw [late_iff hg, if_pos rfl]

theorem reports_checkStores {missing : UndoJnlInvariantErrorType}
    {check : MechPMStoreEntry → Option (List UndoJnlInvariantErrorType)}
    {okOf : MechPMStoreEntry → Prop}
    {osOf : MechPMStoreEntry → List JnlOrder}
    {stores : List MechPMStoreEntry} (hmissing : missing ∉ orderErrors)
    (h : ∀ v ∈ stores, Reports (check v) (okOf v) (osOf v)) :
    Reports (checkStores missing check stores) (∀ v ∈ stores, okOf v) (stores.flatMap osOf) := by
  rw [checkStores]
  split
  · rename_i hnil
    rw [hnil]
    refine (Reports.const fun t ht hmem => ?_).congr (by simp)
    rw [List.mem_singleton.mp hmem] at ht
    exact hmissing ht
  · exact Reports.flatten h

/-- The data of a logging entry can be compared with the bytes that a write replaced: they are
recorded, and the logging writes that the message for a mismatch prints are fenced. -/
def DataReadable (op : OpTraceEntry) (info : RecordInfo) (checkDataMatch : Bool)
    (e : MechUndoJnlEntry) (le : UndoJnlLoggingEntry) (w : MechPMStoreEntry) : Prop :=
  ∀ d, le.loggingDataList = [d] → checkDataMatch = true ∧ some d.op.size = le.loggedSize →
    ∃ addr old logged, le.loggedAddr = some addr ∧ info.ovEntry w.op = some old ∧
      d.op.svEntry = some logged ∧
      (old = slice logged (w.op.addr - e.pmAddr - addr) (w.op.addr - e.pmAddr - addr + w.op.size) ∨
        ∀ v ∈ le.loggingWriteList, Persisted op v.op)

theorem loggedData_eq_some {d : MechPMStoreEntry} :
    (loggedData le).2 = some d ↔ le.loggingDataList = [d] := by
  rw [loggedData]
  split
  · rename_i d' hd'
    rw [hd', Option.some_inj, List.singleton_inj]
  · rename_i h
    exact ⟨fun h' => (nomatch h'), fun h' => absurd h' (h d)⟩

theorem dbgStr_isSome_iff {op : OpTraceEntry}
    (hf : ∀ v ∈ le.loggingWriteList, v.fenceOp.isSome ↔ Persisted op v.op) :
    le.dbgStr.isSome ↔ ∀ v ∈ le.loggingWriteList, Persisted op v.op := by
  rw [UndoJnlLoggingEntry.dbgStr]
  generalize le.loggingWriteList = l at hf
  induction l with
  | nil => simp
  | cons v rest ih =>
    obtain ⟨hv, hrest⟩ := List.forall_mem_cons.mp hf
    rw [List.forall_mem_cons, ← ih hrest, ← hv, List.forM, MechPMStoreEntry.fenceSeq]
    cases v.fenceOp with
    | none => simp
    | some g => simp

theorem reports_checkData {op : OpTraceEntry} (info : RecordInfo) (checkDataMatch : Bool)
    (hf : ∀ v ∈ le.loggingWriteList, v.fenceOp.isSome ↔ Persisted op v.op) :
    Reports (e.checkData info checkDataMatch le (loggedData le).2 w)
      (DataReadable op info checkDataMatch e le w) [] := by
  cases hlogged : (loggedData le).2 with
  | none =>
    refine (Reports.const fun t _ => List.not_mem_nil).congr (iff_of_true trivial fun d hd _ => ?_)
    rw [loggedData_eq_some.mpr hd] at hlogged
    cases hlogged
  | some d =>
    have hd := loggedData_eq_some.mp hlogged
    rw [checkData.eq_def]
    by_cases hcond : checkDataMatch ∧ some d.op.size = le.loggedSize
    · simp only [if_pos hcond]
      have hread : DataReadable op info checkDataMatch e le w ↔ ∃ addr old logged,
          le.loggedAddr = some addr ∧ info.ovEntry w.op = some old ∧ d.op.svEntry = some logged ∧
          (old = slice logged (w.op.addr - e.pmAddr - addr)
            (w.op.addr - e.pmAddr - addr + w.op.size) ∨
          ∀ v ∈ le.loggingWriteList, Persisted op v.op) := by
        refine ⟨fun h => h d hd hcond, fun h d' hd' _ => ?_⟩
        rw [hd] at hd'
        rwa [← List.singleton_inj.mp hd']
      rw [← dbgStr_isSome_iff hf] at hread
      refine Reports.congr ?_ hread.symm
      cases le.loggedAddr with
      | none => exact Reports.other (by simp) fun errs heq => nomatch heq
      | some addr =>
        cases info.ovEntry w.op with
        | none => exact Reports.other (by simp) fun errs heq => nomatch heq
        | some old =>
          cases d.op.svEntry with
          | none => exact Reports.other (by simp) fun errs heq => nomatch heq
          | some logged =>
            by_cases hold : old = slice logged (w.op.addr - e.pmAddr - addr)
                (w.op.addr - e.pmAddr - addr + w.op.size)
            · refine Reports.other (by simp [hold]) fun errs heq t ht => ?_
              rw [← Option.some.inj (by simpa [hold] using heq : some [] = some errs)]
              exact List.not_mem_nil
            · -- the message is printed before the error is put in the list
              cases le.dbgStr with
              | none =>
                refine Reports.other (by simp [hold]) fun errs heq => ?_
                simp [hold] at heq
              | some u =>
                refine Reports.other (by simp [hold]) fun errs heq t ht hmem => ?_
                have herrs : [loggedDataNotMatchInPlaceWrite] = errs := by simpa [hold] using heq
                rw [← herrs, List.mem_singleton] at hmem
                rw [hmem] at ht
                exact absurd ht (by decide)
    · simp only [if_neg hcond]
      refine (Reports.const fun t _ => List.not_mem_nil).congr
        (iff_of_true trivial fun d' hd' h => absurd ?_ hcond)
      rw [hd] at hd'
      rwa [List.singleton_inj.mp hd']

variable {op : OpTraceEntry} (info : RecordInfo) (checkDataMatch : Bool)

theorem reports_checkInPlaceWrite
    (hf : ∀ v ∈ le.loggingWriteList, v.fenceOp.isSome ↔ Persisted op v.op) :
    Reports (e.checkInPlaceWrite info checkDataMatch le commit (loggedData le).2 w)
      (DataReadable op info checkDataMatch e le w)
      (inPlaceOrders commit w ++ e.headOrders w) := by
  have hall := (Reports.append (Reports.append (@reports_commitBeforeInPlace commit w)
    (@reports_inPlaceBeforeHead e w)) (@reports_checkData e le w op info checkDataMatch hf))
  rw [List.append_nil] at hall
  refine Reports.congr (Eq.subst (motive := fun x => Reports x _ _) ?_ hall) (by simp)
  rw [checkInPlaceWrite]
  simp only [Option.bind_assoc, Option.bind_some, Option.bind_eq_bind, Option.pure_def]

theorem reports_checkCommitted
    (hf : ∀ v ∈ le.loggingWriteList, v.fenceOp.isSome ↔ Persisted op v.op) :
    Reports (e.checkCommitted info checkDataMatch le commit)
      (checksInPlace le → ∀ w ∈ le.inPlaceWriteList, DataReadable op info checkDataMatch e le w)
      (e.comparedCommitted le commit) := by
  have hfront := Reports.append (@reports_checkCommit e commit)
    (reports_checkStores (by decide : noLoggingWrite ∉ orderErrors)
      fun v (_ : v ∈ le.loggingWriteList) => @reports_checkLoggingWrite commit v)
  rw [checkCommitted, comparedCommitted]
  by_cases hin : checksInPlace le
  · have hskip : ¬ (le.loggingDataList = [] ∨ le.loggedSizeSet = false) := by
      rintro (h | h)
      · exact hin.1 h
      · rw [hin.2] at h
        cases h
    have hdata : Reports (some (loggedData le).1) True [] := by
      rw [loggedData]
      split
      · exact Reports.const fun t _ => List.not_mem_nil
      · exact Reports.const (by decide)
    have hplace := reports_checkStores (by decide : noInPlaceWrite ∉ orderErrors)
      fun v (_ : v ∈ le.inPlaceWriteList) =>
        @reports_checkInPlaceWrite e le commit v op info checkDataMatch hf
    have hall := Reports.append (Reports.append hfront hdata) hplace
    rw [List.append_nil] at hall
    rw [if_pos hin]
    refine Reports.congr (Eq.subst (motive := fun x => Reports x _ _) ?_ hall) (by simp [hin])
    simp only [if_neg hskip, Option.bind_assoc, Option.bind_some, Option.bind_eq_bind,
      Option.pure_def]
  · have hskip : le.loggingDataList = [] ∨ le.loggedSizeSet = false := by
      by_contra h
      rw [not_or, Bool.not_eq_false] at h
      exact hin h
    rw [if_neg hin, List.append_nil]
    refine Reports.congr (Eq.subst (motive := fun x => Reports x _ _) ?_ hfront) (by simp [hin])
    simp only [if_pos hskip, Option.bind_eq_bind, Option.pure_def]

/-- The logged data can be read wherever the check compares it. -/
def DataRead (e : MechUndoJnlEntry) (op : OpTraceEntry) : Prop :=
  e.Complete → ∀ le ∈ e.loggingEntryMap.values, (e.commits le).length = 1 → checksInPlace le →
    ∀ w ∈ le.inPlaceWriteList, DataReadable op info checkDataMatch e le w

theorem reports_checkLoggingEntry {tail : MechPMStoreEntry} (htail : e.tailStore = some tail)
    (hf : ∀ v ∈ le.loggingWriteList, v.fenceOp.isSome ↔ Persisted op v.op) :
    Reports (e.checkLoggingEntry info checkDataMatch tail le)
      ((e.commits le).length = 1 → checksInPlace le →
        ∀ w ∈ le.inPlaceWriteList, DataReadable op info checkDataMatch e le w)
      (match e.commits le with
        | [commit] => e.comparedCommitted le commit
        | _ => []) := by
  have hone := fun commit => @reports_checkCommitted e le commit op info checkDataMatch hf
  rw [checkLoggingEntry, commits]
  by_cases hpre : e.preAlloc = true
  · rw [if_pos hpre, if_pos hpre]
    match le.loggingCommitList with
    | [] => exact (Reports.const (by decide)).congr (by simp)
    | [commit] => exact (hone commit).congr (by simp)
    | _ :: _ :: _ => exact (Reports.const (by decide)).congr (by simp)
  · rw [if_neg hpre, if_neg hpre, htail]
    exact (hone tail).congr (by simp)

theorem reports_invariantCheck
    (hf : ∀ le ∈ e.loggingEntryMap.values, ∀ v ∈ le.loggingWriteList,
      v.fenceOp.isSome ↔ Persisted op v.op) :
    Reports (e.invariantCheck info checkDataMatch) (e.DataRead info checkDataMatch op)
      e.compared := by
  have hend : e.endStore.isSome ↔ ¬ (e.headStore.isNone ∧ e.txCommitStore.isNone) := by
    rw [endStore]
    cases e.headStore <;> cases e.txCommitStore <;> simp
  rw [invariantCheck, compared]
  by_cases hcomplete : e.Complete
  · obtain ⟨tail, htail⟩ := Option.isSome_iff_exists.mp hcomplete.2
    rw [if_neg (hend.mp hcomplete.1), if_pos hcomplete, htail]
    have hall := Reports.flatten fun le hle =>
      @reports_checkLoggingEntry e le op info checkDataMatch tail htail (hf le hle)
    have hok : e.DataRead info checkDataMatch op ↔ ∀ le ∈ e.loggingEntryMap.values,
        (e.commits le).length = 1 → checksInPlace le →
          ∀ w ∈ le.inPlaceWriteList, DataReadable op info checkDataMatch e le w :=
      ⟨fun h => h hcomplete, fun h _ => h⟩
    refine Reports.congr ?_ hok.symm
    simp only
    split
    · rename_i hnil
      rw [Dict.values, hnil]
      exact (Reports.const (by decide)).congr (by simp)
    · exact hall
  · rw [if_neg hcomplete]
    have hok : True ↔ e.DataRead info checkDataMatch op :=
      iff_of_true trivial fun h => absurd h hcomplete
    by_cases hnone : e.headStore.isNone ∧ e.txCommitStore.isNone
    · rw [if_pos hnone]
      exact (Reports.const (by decide)).congr hok
    · have htail : e.tailStore = none := by
        rw [← Option.not_isSome_iff_eq_none]
        exact fun h => hcomplete ⟨hend.mpr hnone, h⟩
      rw [if_neg hnone, htail]
      exact (Reports.const (by decide)).congr hok

variable {o : JnlOrder}

theorem of_mem_commitOrders (ho : o ∈ e.commitOrders commit) :
    o.first = commit ∧ o.err = loggingCommitFencedAfterHeadUpdate := by
  obtain ⟨head, -, rfl⟩ := List.mem_map.mp ho
  exact ⟨rfl, rfl⟩

theorem of_mem_headOrders (ho : o ∈ e.headOrders w) :
    o.first = w ∧ o.err = inPlaceWriteFencedAfterHeadUpdate := by
  obtain ⟨head, -, rfl⟩ := List.mem_map.mp ho
  exact ⟨rfl, rfl⟩

theorem of_mem_writeOrders (ho : o ∈ writeOrders commit w) :
    o.first = w ∧ o.err = loggingWriteFencedAfterLoggingCommit := by
  rw [writeOrders] at ho
  split at ho
  · exact absurd ho List.not_mem_nil
  · rw [List.mem_singleton.mp ho]
    exact ⟨rfl, rfl⟩

theorem of_mem_inPlaceOrders (ho : o ∈ inPlaceOrders commit w) :
    o.first = commit ∧ o.err = loggingCommitFencedAfterInPlaceWrite := by
  rw [inPlaceOrders] at ho
  split at ho
  · exact absurd ho List.not_mem_nil
  · rw [List.mem_singleton.mp ho]
    exact ⟨rfl, rfl⟩

theorem mem_required : o ∈ e.required ↔ ∃ le ∈ e.loggingEntryMap.values,
    (∃ commit ∈ e.commits le, o ∈ e.commitOrders commit ∨
      (∃ w ∈ le.loggingWriteList, o ∈ writeOrders commit w) ∨
      ∃ w ∈ le.inPlaceWriteList, o ∈ inPlaceOrders commit w) ∨
    ∃ w ∈ le.inPlaceWriteList, o ∈ e.headOrders w := by
  simp only [required, List.mem_flatMap, List.mem_append, or_assoc]

/-- The first store of an order is one of the journal, and its error is about fences. -/
theorem of_mem_required (ho : o ∈ e.required) : o.first ∈ e.stores ∧ o.err ∈ orderErrors := by
  obtain ⟨le, hle, h⟩ := mem_required.mp ho
  have hstore : ∀ s, s ∈ le.loggingWriteList ∨ s ∈ le.loggingCommitList ∨ s ∈ le.inPlaceWriteList →
      s ∈ e.stores := by
    intro s hs
    refine List.mem_append_right _ (List.mem_flatMap.mpr ⟨le, hle, ?_⟩)
    simp only [List.mem_append]
    tauto
  have hcommit : ∀ s ∈ e.commits le, s ∈ e.stores := by
    intro s hs
    rw [commits] at hs
    split at hs
    · exact hstore s (.inr (.inl hs))
    · simp only [stores, List.mem_append, hs, true_or, or_true]
  rcases h with ⟨commit, hc, h | ⟨w, hw, h⟩ | ⟨w, hw, h⟩⟩ | ⟨w, hw, h⟩
  · obtain ⟨hfirst, herr⟩ := of_mem_commitOrders h
    exact ⟨hfirst ▸ hcommit _ hc, by rw [herr]; decide⟩
  · obtain ⟨hfirst, herr⟩ := of_mem_writeOrders h
    exact ⟨hfirst ▸ hstore _ (.inl hw), by rw [herr]; decide⟩
  · obtain ⟨hfirst, herr⟩ := of_mem_inPlaceOrders h
    exact ⟨hfirst ▸ hcommit _ hc, by rw [herr]; decide⟩
  · obtain ⟨hfirst, herr⟩ := of_mem_headOrders h
    exact ⟨hfirst ▸ hstore _ (.inr (.inr hw)), by rw [herr]; decide⟩

theorem compared_subset (ho : o ∈ e.compared) : o ∈ e.required := by
  rw [compared] at ho
  split at ho
  · obtain ⟨le, hle, ho⟩ := List.mem_flatMap.mp ho
    refine mem_required.mpr ⟨le, hle, ?_⟩
    split at ho
    · rename_i commit hcommits
      have hc : commit ∈ e.commits le := hcommits ▸ List.mem_singleton_self _
      rw [comparedCommitted] at ho
      rcases List.mem_append.mp ho with ho | ho
      · rcases List.mem_append.mp ho with ho | ho
        · exact .inl ⟨commit, hc, .inl ho⟩
        · exact .inl ⟨commit, hc, .inr (.inl (List.mem_flatMap.mp ho))⟩
      · split at ho
        · obtain ⟨w, hw, ho⟩ := List.mem_flatMap.mp ho
          rcases List.mem_append.mp ho with ho | ho
          · exact .inl ⟨commit, hc, .inr (.inr ⟨w, hw, ho⟩)⟩
          · exact .inr ⟨w, hw, ho⟩
        · exact absurd ho List.not_mem_nil
    · exact absurd ho List.not_mem_nil
  · exact absurd ho List.not_mem_nil

/-- The last fence of the store is not compared: the check does not get to the order, or it looks
for a fence in between only. -/
def Skipped (e : MechUndoJnlEntry) (o : JnlOrder) : Prop := o ∉ e.compared ∨ o.SameLine

theorem catches_iff (hf : ∀ s ∈ e.stores, s.fenceOp.isSome ↔ Persisted op s.op) :
    Catches op (e.invariantCheck info checkDataMatch)
        (e.required.map fun o => (o.first, o.err)) ↔
      (∀ o ∈ e.compared, o.Readable op) ∧ e.DataRead info checkDataMatch op ∧
        ∀ o ∈ e.required, e.Skipped o → ¬ Persisted op o.first.op →
          ∃ o' ∈ e.compared, o'.err = o.err ∧ o'.Late := by
  have hreports : Reports (e.invariantCheck info checkDataMatch)
      (e.DataRead info checkDataMatch op) e.compared :=
    reports_invariantCheck info checkDataMatch fun le hle v hv =>
      hf v (List.mem_append_right _ (List.mem_flatMap.mpr ⟨le, hle, by simp [hv]⟩))
  have hread : ∀ o ∈ e.compared, o.fence.isSome ↔ o.Readable op := by
    intro o ho
    rw [JnlOrder.fence, JnlOrder.Readable]
    split
    · exact Iff.rfl
    · exact hf _ (of_mem_required (compared_subset ho)).1
  have hsome : (e.invariantCheck info checkDataMatch).isSome ↔
      (∀ o ∈ e.compared, o.Readable op) ∧ e.DataRead info checkDataMatch op := by
    rw [hreports.isSome_iff, and_comm]
    exact and_congr_left' (forall₂_congr hread)
  constructor
  · rintro ⟨errs, herrs, hcaught⟩
    obtain ⟨hfences, hdata⟩ := hsome.mp (by rw [herrs]; rfl)
    refine ⟨hfences, hdata, fun o ho _ hlost => ?_⟩
    exact (hreports.mem_iff errs herrs o.err (of_mem_required ho).2).mp
      (hcaught _ (List.mem_map_of_mem ho) hlost)
  · rintro ⟨hfences, hdata, hskipped⟩
    obtain ⟨errs, herrs⟩ := Option.isSome_iff_exists.mp (hsome.mpr ⟨hfences, hdata⟩)
    refine ⟨errs, herrs, fun r hr hlost => ?_⟩
    obtain ⟨o, ho, rfl⟩ := List.mem_map.mp hr
    refine (hreports.mem_iff errs herrs o.err (of_mem_required ho).2).mpr (hskipped o ho ?_ hlost)
    -- a store whose last fence is compared is persisted
    by_contra hskip
    obtain ⟨hmem, hline⟩ := not_or.mp hskip
    have hpersisted := hfences o (not_not.mp hmem)
    rw [JnlOrder.Readable, if_neg hline] at hpersisted
    exact hlost hpersisted

end

end MechUndoJnlEntry

/-! ## Replications -/

namespace MechReplEntry

open ReplInvariantErrorType

variable {op : OpTraceEntry} (info : RecordInfo) {e : MechReplEntry}

def required (e : MechReplEntry) : List (MechPMStoreEntry × ReplInvariantErrorType) :=
  e.storesToPrimaryReplica.map fun s => (s, storeToPrimaryFencedAfterMemcpy)

theorem checkPrimaryStore_isSome_iff (mcpSeq : Int) (x : List ReplInvariantErrorType × Int)
    (s : MechPMStoreEntry) : (checkPrimaryStore info mcpSeq x s).isSome ↔ s.fenceOp.isSome := by
  rw [checkPrimaryStore, MechPMStoreEntry.fenceSeq]
  cases s.fenceOp with
  | none => simp
  | some g =>
    simp only [Option.map_some, Option.bind_eq_bind, Option.bind_some, Option.isSome_some, iff_true]
    split
    · rfl
    · split
      · rfl
      · split <;> rfl

theorem invariantCheck_isSome_iff :
    (e.invariantCheck info).isSome ↔ ∀ s ∈ e.storesToPrimaryReplica, s.fenceOp.isSome := by
  have hloop := foldlM_isSome_iff
    (fun x s (_ : s ∈ e.storesToPrimaryReplica) =>
      checkPrimaryStore_isSome_iff info e.storeOp.opSt.seq x s) ([], 0)
  rw [← hloop, invariantCheck]
  split
  · rename_i hnil
    rw [hnil]
    simp
  · cases e.storesToPrimaryReplica.foldlM
        (checkPrimaryStore info e.storeOp.opSt.seq) ([], 0) with
    | none => simp
    | some x =>
      simp only [Option.bind_eq_bind, Option.bind_some, Option.isSome_some, iff_true]
      split
      · rfl
      · -- the old bytes are there when the new ones are
        have hvalues := info.values e.storeOp.opSt
        split
        · rfl
        · rename_i replica hreplica
          rw [hreplica] at hvalues
          obtain ⟨old, hold⟩ := Option.isSome_iff_exists.mp hvalues
          rw [hold, Option.bind_some]
          split <;> rfl

theorem catches_iff (hf : ∀ s ∈ e.storesToPrimaryReplica, s.fenceOp.isSome ↔ Persisted op s.op) :
    Catches op (e.invariantCheck info) e.required ↔
      ∀ s ∈ e.storesToPrimaryReplica, Persisted op s.op := by
  have hsome : (e.invariantCheck info).isSome ↔
      ∀ s ∈ e.storesToPrimaryReplica, Persisted op s.op :=
    (invariantCheck_isSome_iff info).trans (forall₂_congr hf)
  constructor
  · rintro ⟨errs, herrs, -⟩
    exact hsome.mp (by rw [herrs]; rfl)
  · intro hall
    obtain ⟨errs, herrs⟩ := Option.isSome_iff_exists.mp (hsome.mpr hall)
    refine ⟨errs, herrs, fun r hr hlost => ?_⟩
    obtain ⟨s, hs, rfl⟩ := List.mem_map.mp hr
    exact absurd (hall s hs) hlost

end MechReplEntry

/-! ## Log-structured writes -/

namespace MechLSWEntry

open LSWInvariantErrorType

variable {op : OpTraceEntry} {e : MechLSWEntry}

/-- The log writes before the tail; with space that is allocated before, the tail before them. -/
def required (e : MechLSWEntry) : List (MechPMStoreEntry × LSWInvariantErrorType) :=
  e.logWrites.map fun w =>
    (if e.preAlloc then e.tailStore else w, logWritesIncorrectPersistenceTime)

/-- The fences that the check of a log write reads: the one it compares, and when that comes too
late also the other one, for the warning. -/
def Readable (op : OpTraceEntry) (e : MechLSWEntry) (w : MechPMStoreEntry) : Prop :=
  if e.preAlloc then
    Persisted op e.tailStore.op ∧
      ∀ g, e.tailStore.fenceOp = some g → w.op.seq ≤ g.seq → Persisted op w.op
  else
    Persisted op w.op ∧
      ∀ g, w.fenceOp = some g → g.seq ≥ e.tailStore.op.seq → Persisted op e.tailStore.op

theorem checkLogWrite_isSome_iff (hf : ∀ s ∈ e.stores, s.fenceOp.isSome ↔ Persisted op s.op)
    (errDict : Dict Int LSWInvariantErrorType) {w : MechPMStoreEntry} (hw : w ∈ e.logWrites) :
    (e.checkLogWrite errDict w).isSome ↔ e.Readable op w := by
  have htail := hf e.tailStore List.mem_cons_self
  have hwrite := hf w (List.mem_cons_of_mem _ hw)
  rw [Readable, ← htail, ← hwrite, checkLogWrite, MechPMStoreEntry.fenceSeq,
    MechPMStoreEntry.fenceSeq]
  by_cases hpre : e.preAlloc = true
  · rw [if_pos hpre, if_pos hpre]
    cases e.tailStore.fenceOp with
    | none => simp
    | some g =>
      by_cases hlate : w.op.seq ≤ g.seq
      · cases w.fenceOp <;> simp [hlate]
      · simp [hlate]
  · rw [if_neg hpre, if_neg hpre]
    cases w.fenceOp with
    | none => simp
    | some g =>
      by_cases hlate : g.seq ≥ e.tailStore.op.seq
      · cases e.tailStore.fenceOp <;> simp [hlate]
      · simp [hlate]

theorem catches_iff (hf : ∀ s ∈ e.stores, s.fenceOp.isSome ↔ Persisted op s.op) :
    Catches op e.invariantCheck e.required ↔ ∀ w ∈ e.logWrites, e.Readable op w := by
  have hsome : e.invariantCheck.isSome ↔ ∀ w ∈ e.logWrites, e.Readable op w := by
    rw [invariantCheck, Option.isSome_map]
    refine foldlM_isSome_iff (fun errDict w hw => ?_) _
    exact checkLogWrite_isSome_iff hf errDict hw
  constructor
  · rintro ⟨errs, herrs, -⟩
    exact hsome.mp (by rw [herrs]; rfl)
  · intro hall
    obtain ⟨errs, herrs⟩ := Option.isSome_iff_exists.mp (hsome.mpr hall)
    refine ⟨errs, herrs, fun r hr hlost => absurd ?_ hlost⟩
    obtain ⟨w, hw, rfl⟩ := List.mem_map.mp hr
    have hread := hall w hw
    rw [Readable] at hread
    by_cases hpre : e.preAlloc = true
    · simp only [if_pos hpre] at hread ⊢
      exact hread.1
    · simp only [if_neg hpre] at hread ⊢
      exact hread.1

end MechLSWEntry

/-! ## All three -/

/-- The checks of entries over the stores of one operation. -/
theorem catches_iff_readable {τ : Type} {iv : IntervalTree τ} {points : τ → Set Int}
    (hiv : iv.Lawful points) (op : OpTrace) {entries : List MechPMStoreEntry}
    (hent : MechPMStoreReason.entryList iv op.toOpTraceEntry = some entries)
    (info : RecordInfo) (checkDataMatch : Bool) :
    (∀ e : MechUndoJnlEntry, (∀ s ∈ e.stores, s ∈ entries) →
      (Catches op.toOpTraceEntry (e.invariantCheck info checkDataMatch)
          (e.required.map fun o => (o.first, o.err)) ↔
        (∀ o ∈ e.compared, o.Readable op.toOpTraceEntry) ∧
          e.DataRead info checkDataMatch op.toOpTraceEntry ∧
          ∀ o ∈ e.required, e.Skipped o → ¬ Persisted op.toOpTraceEntry o.first.op →
            ∃ o' ∈ e.compared, o'.err = o.err ∧ o'.Late)) ∧
    (∀ e : MechReplEntry, (∀ s ∈ e.storesToPrimaryReplica, s ∈ entries) →
      (Catches op.toOpTraceEntry (e.invariantCheck info) e.required ↔
        ∀ s ∈ e.storesToPrimaryReplica, Persisted op.toOpTraceEntry s.op)) ∧
    ∀ e : MechLSWEntry, (∀ s ∈ e.stores, s ∈ entries) →
      (Catches op.toOpTraceEntry e.invariantCheck e.required ↔
        ∀ w ∈ e.logWrites, e.Readable op.toOpTraceEntry w) := by
  have hf : ∀ s ∈ entries, s.fenceOp.isSome ↔ Persisted op.toOpTraceEntry s.op :=
    fun s hs => fenceOp_isSome_iff hiv op.wf hent hs
  refine ⟨fun e he => ?_, fun e he => ?_, fun e he => ?_⟩
  · exact MechUndoJnlEntry.catches_iff info checkDataMatch fun s hs => hf s (he s hs)
  · exact MechReplEntry.catches_iff info fun s hs => hf s (he s hs)
  · exact MechLSWEntry.catches_iff fun s hs => hf s (he s hs)

/-- A log write, then the tail, each flushed and fenced. -/
def loggedTrace : OpTrace :=
  OpTrace.ofRecords (.plain .startFn 0 0 0) "write" 0 4096 0
    [.plain .store 1 0 8, .plain .asmFlush 2 0 64, .plain .asmFence 3 0 0, .plain .store 4 64 8,
      .plain .asmFlush 5 64 64, .plain .asmFence 6 0 0] (by decide +kernel)

def loggedEntries : List MechPMStoreEntry :=
  (MechPMStoreReason.entryList IntervalTree.RangeList.tree loggedTrace.toOpTraceEntry).get
    (by decide +kernel)

/-- Records without values, outside all structures. -/
def bareInfo : RecordInfo := ⟨fun e => e.svEntry, fun _ => none, fun _ => rfl⟩

/-- The entry of the trace whose log write and tail are the two stores. -/
def loggedLsw : MechLSWEntry where
  tailStore := loggedEntries.get ⟨1, by decide +kernel⟩
  logWrites := [loggedEntries.get ⟨0, by decide +kernel⟩]

theorem catches_logged_write :
    Catches loggedTrace.toOpTraceEntry loggedLsw.invariantCheck loggedLsw.required := by
  have hent : MechPMStoreReason.entryList IntervalTree.RangeList.tree
      loggedTrace.toOpTraceEntry = some loggedEntries := (Option.some_get _).symm
  have hmem : ∀ s ∈ loggedLsw.stores, s ∈ loggedEntries := by decide +kernel
  refine ((catches_iff_readable IntervalTree.RangeList.lawful loggedTrace hent bareInfo
    true).2.2 loggedLsw hmem).mpr fun w hw => ?_
  have hpersisted : ∀ s ∈ loggedEntries, Persisted loggedTrace.toOpTraceEntry s.op := by
    intro s hs
    have hsome : ∀ s ∈ loggedEntries, s.fenceOp.isSome := by decide +kernel
    exact (fenceOp_isSome_iff IntervalTree.RangeList.lawful loggedTrace.wf hent hs).mp (hsome s hs)
  rw [MechLSWEntry.Readable, if_neg (by decide)]
  exact ⟨hpersisted w (hmem w (List.mem_cons_of_mem _ hw)),
    fun _ _ _ => hpersisted _ (hmem _ List.mem_cons_self)⟩

/-- The first store is never flushed. -/
def lostWriteTrace : OpTrace :=
  OpTrace.ofRecords (.plain .startFn 0 0 0) "write" 0 4096 0
    [.plain .store 1 0 8, .plain .store 2 64 8, .plain .asmFlush 3 64 64, .plain .asmFence 4 0 0]
    (by decide +kernel)

def lostWriteEntries : List MechPMStoreEntry :=
  (MechPMStoreReason.entryList IntervalTree.RangeList.tree lostWriteTrace.toOpTraceEntry).get
    (by decide +kernel)

/-- No check comes to an end when it meets the store. -/
theorem lost_write_ends_checks :
    (∃ e : MechUndoJnlEntry, (∀ s ∈ e.stores, s ∈ lostWriteEntries) ∧
      ¬ Catches lostWriteTrace.toOpTraceEntry (e.invariantCheck bareInfo true)
        (e.required.map fun o => (o.first, o.err))) ∧
    (∃ e : MechReplEntry, (∀ s ∈ e.storesToPrimaryReplica, s ∈ lostWriteEntries) ∧
      ¬ Catches lostWriteTrace.toOpTraceEntry (e.invariantCheck bareInfo) e.required) ∧
    ∃ e : MechLSWEntry, (∀ s ∈ e.stores, s ∈ lostWriteEntries) ∧
      ¬ Catches lostWriteTrace.toOpTraceEntry e.invariantCheck e.required := by
  have hnone : ∀ {ε : Type} {check : Option (List ε)} {required}, check = none →
      ¬ Catches lostWriteTrace.toOpTraceEntry check required := by
    rintro ε check required h ⟨errs, herrs, -⟩
    rw [h] at herrs
    cases herrs
  refine ⟨⟨{
      headStore := some (lostWriteEntries.get ⟨1, by decide +kernel⟩)
      tailStore := some (lostWriteEntries.get ⟨1, by decide +kernel⟩)
      loggingEntryMap := Dict.empty.set 0 { loggingWriteList := [lostWriteEntries.get ⟨0, by decide +kernel⟩] } },
    by decide +kernel, hnone (by decide +kernel)⟩, ⟨{
      storeOp := ⟨.plain .store 2 64 8, .plain .store 2 64 8⟩
      storesToPrimaryReplica := [lostWriteEntries.get ⟨0, by decide +kernel⟩] },
    by decide +kernel, hnone (by decide +kernel)⟩, ⟨{
      tailStore := lostWriteEntries.get ⟨1, by decide +kernel⟩
      logWrites := [lostWriteEntries.get ⟨0, by decide +kernel⟩] },
    by decide +kernel, hnone (by decide +kernel)⟩⟩

end Mech
end Silhouette
