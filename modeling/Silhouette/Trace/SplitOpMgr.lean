import Mathlib.Data.List.Infix
import Silhouette.Trace.TraceReader

/-!
# Splitting a trace into operations

`SplitOpMgr` walks the records of every process in sequence order and collects what lies
between the start and the end of a function of the file system.  The first mount is left
out, and the `continue` that leaves it out also leaves it open: later records of the
process go to the mount until it ends once more.
-/

namespace Silhouette
namespace Trace

open Lib
open scoped List

/-- `sub in s` for strings. -/
def occursIn (sub s : String) : Bool := sub.toList <:+: s.toList

namespace SplitOpMgr

structure State where
  firstMount : Bool
  opEntry : Option OpTraceEntry
  opEntryList : List OpTraceEntry

section

variable (r : TraceReader) (vfsOpInfo : String → Bool)

/-- What is done with one record of a process. -/
def splitRecord (pid : Int) (st : State) (entryList : List TraceEntry) : Option State := do
  let entry ← entryList.head?
  match st.opEntry with
  | none =>
    if vfsOpInfo entry.fnName && entry.type = .startFn then
      let op ← (OpTraceEntry.new entry entry.fnName r.pmAddr r.pmSize pid).addEntryList entryList true
      return { st with opEntry := some op }
    else return st
  | some op =>
    if TraceEntry.isPairFuncEntry op.startFnEntry entry then
      let op ← OpTraceEntry.addEntryList { op with endFnEntry := some entry } entryList true
      let op := op.finalize
      if st.firstMount && occursIn "fill_super" op.opName then
        return { st with firstMount := false, opEntry := some op }
      else return { st with opEntry := none, opEntryList := st.opEntryList ++ [op] }
    else
      let op ← op.addEntryList entryList true
      return { st with opEntry := some op }

/-- The records of one process, in sequence order. -/
def splitProcess (st : State) (x : Int × Dict Int (List TraceEntry)) : Option State :=
  (sortBy Prod.fst x.2.items).foldlM (fun st y => splitRecord r vfsOpInfo x.1 st y.2)
    { st with opEntry := none }

def splitTrace : Option (List OpTraceEntry) :=
  (r.pidSeqEntryMap.items.foldlM (splitProcess r vfsOpInfo) ⟨true, none, []⟩).map fun st =>
    sortBy OpTraceEntry.minSeq st.opEntryList

end

end SplitOpMgr

/-- The stores of an operation in the order they were added. -/
def OpTraceEntry.pmStoreEntries (op : OpTraceEntry) : List TraceEntry :=
  op.pmSeqEntryMap.items.filterMap fun x => x.2.head?.filter fun e => e.type.isStoreSeries

/-! ## What splitting guarantees -/

/-- An operation being collected from a trace: its records are records of the trace, and
they come in sequence order. -/
structure Collected (r : TraceReader) (op : OpTraceEntry) : Prop where
  filled : op.Filled
  device : op.pmAddr = r.pmAddr ∧ op.pmSize = r.pmSize
  item : ∀ x ∈ op.pmSeqEntryMap.items, x ∈ r.seqEntryMap.items
  ordered : op.pmSeqEntryMap.items.Pairwise fun x y => x.1 < y.1
  bounds : ∀ k ∈ op.seqEntryMap.keys, op.minSeq ≤ k ∧ k ≤ op.maxSeq
  early : op.pmSortedStoreSeq <+: op.pmStoreEntries.map TraceEntry.seq

/-- An operation of the list.  The store list of a mount that ended twice starts with the
stores it had the first time. -/
structure Split (r : TraceReader) (op : OpTraceEntry) : Prop where
  wf : op.WellFormed
  device : op.pmAddr = r.pmAddr ∧ op.pmSize = r.pmSize
  item : ∀ x ∈ op.pmSeqEntryMap.items, x ∈ r.seqEntryMap.items
  ordered : op.pmSeqEntryMap.items.Pairwise fun x y => x.1 < y.1
  range : op.minSeq ≤ op.maxSeq
  bounds : ∀ k ∈ op.pmSeqEntryMap.keys, op.minSeq ≤ k ∧ k ≤ op.maxSeq
  storeSeq : ∃ first, first <+: op.pmStoreEntries.map TraceEntry.seq ∧
    op.pmSortedStoreSeq = first ++ op.pmStoreEntries.map TraceEntry.seq

section

variable {r : TraceReader} {op op' : OpTraceEntry}

theorem pmSortedItems_eq (h : op.pmSeqEntryMap.items.Pairwise fun x y => x.1 < y.1) :
    op.pmSortedItems = op.pmSeqEntryMap.items := by
  rw [OpTraceEntry.pmSortedItems, sortBy]
  exact List.Pairwise.insertionSort_eq (h.imp fun hxy => le_of_lt hxy)

/-- Adding a record with a larger number than all before keeps the order. -/
theorem Collected.addEntryList (h : Collected r op) {e : TraceEntry}
    (he : (e.seq, e.getEntryList) ∈ r.seqEntryMap.items)
    (hlast : ∀ k ∈ op.seqEntryMap.keys, k < e.seq)
    (ha : op.addEntryList e.getEntryList true = some op') :
    Collected r op' ∧ (∀ k ∈ op'.seqEntryMap.keys, k ≤ e.seq) ∧
      op'.minSeq ≤ op'.maxSeq ∧ op'.pmSortedStoreSeq = op.pmSortedStoreSeq := by
  have hfilled := h.filled.addEntryList ha
  have hnew : e.seq ∉ op.seqEntryMap.keys := fun hk => absurd (hlast _ hk) (lt_irrefl _)
  rw [OpTraceEntry.addEntryList_getEntryList] at ha
  by_cases hpid : op.pid ≠ e.pid
  · rw [if_pos hpid] at ha
    exact absurd ha (by simp)
  rw [if_neg hpid, if_neg hnew, Option.some.injEq] at ha
  subst ha
  have hkeys : (op.seqEntryMap.set e.seq e.getEntryList).keys = op.seqEntryMap.keys ++ [e.seq] := by
    rw [Dict.keys_set, if_neg hnew]
  have hpmnew : e.seq ∉ op.pmSeqEntryMap.keys := fun hk => hnew (h.filled.keys _ hk)
  -- the records in persistent memory grow at the end, if at all
  have hitems : ∃ more, (∀ x ∈ more, x = (e.seq, e.getEntryList)) ∧ more.length ≤ 1 ∧
      (if (true && isPmEntry e op.pmAddr op.pmSize) = true then
        op.pmSeqEntryMap.set e.seq e.getEntryList else op.pmSeqEntryMap).items =
      op.pmSeqEntryMap.items ++ more := by
    by_cases hpm : isPmEntry e op.pmAddr op.pmSize = true
    · refine ⟨[(e.seq, e.getEntryList)], by simp, by simp, ?_⟩
      rw [if_pos (by simpa using hpm)]
      exact Dict.items_set_of_notMem hpmnew _
    · refine ⟨[], by simp, by simp, ?_⟩
      rw [if_neg (by simpa using hpm), List.append_nil]
  obtain ⟨more, hmore, hlen, heq⟩ := hitems
  refine ⟨⟨hfilled, h.device, ?_, ?_, ?_, ?_⟩, ?_, ?_, rfl⟩
  · intro x hx
    rw [heq] at hx
    rcases List.mem_append.mp hx with hx | hx
    · exact h.item x hx
    · rw [hmore x hx]
      exact he
  · show List.Pairwise _ (Dict.items _)
    rw [heq, List.pairwise_append]
    refine ⟨h.ordered, ?_, fun x hx y hy => ?_⟩
    · match more, hlen with
      | [], _ => exact List.Pairwise.nil
      | [x], _ => exact List.pairwise_singleton _ x
    · rw [hmore y hy]
      exact hlast _ (h.filled.keys _ (List.mem_map_of_mem hx))
  · intro k hk
    show min op.minSeq e.seq ≤ k ∧ k ≤ max op.maxSeq e.seq
    have hk' : k ∈ op.seqEntryMap.keys ++ [e.seq] := hkeys ▸ hk
    rcases List.mem_append.mp hk' with hk' | hk'
    · have hb := h.bounds k hk'
      omega
    · rw [List.mem_singleton.mp hk']
      omega
  · show op.pmSortedStoreSeq <+: ((Dict.items _).filterMap _).map TraceEntry.seq
    rw [heq, List.filterMap_append, List.map_append]
    exact h.early.trans (List.prefix_append _ _)
  · intro k hk
    have hk' : k ∈ op.seqEntryMap.keys ++ [e.seq] := hkeys ▸ hk
    rcases List.mem_append.mp hk' with hk' | hk'
    · exact le_of_lt (hlast k hk')
    · rw [List.mem_singleton.mp hk']
  · show min op.minSeq e.seq ≤ max op.maxSeq e.seq
    omega

theorem finalize_storeSeq (h : op.pmSeqEntryMap.items.Pairwise fun x y => x.1 < y.1) :
    op.finalize.pmSortedStoreSeq =
      op.pmSortedStoreSeq ++ op.pmStoreEntries.map TraceEntry.seq := by
  rw [OpTraceEntry.finalize, pmSortedItems_eq h]
  rfl

theorem Collected.split (h : Collected r op) (hrange : op.minSeq ≤ op.maxSeq) :
    Split r op.finalize where
  wf := h.filled.finalize
  device := h.device
  item := h.item
  ordered := h.ordered
  range := hrange
  bounds := fun k hk => h.bounds k (h.filled.keys k hk)
  storeSeq := ⟨op.pmSortedStoreSeq, h.early, finalize_storeSeq h.ordered⟩

/-- A mount that ends for the first time and stays open. -/
theorem Collected.finalize (h : Collected r op) (h0 : op.pmSortedStoreSeq = []) :
    Collected r op.finalize where
  filled := {
    item := h.filled.item
    keys := h.filled.keys
    storeSeq := fun s hs => (h.filled.finalize.mem_storeSeq s).mp hs }
  device := h.device
  item := h.item
  ordered := h.ordered
  bounds := h.bounds
  early := by
    rw [finalize_storeSeq h.ordered, h0, List.nil_append]
    exact List.prefix_rfl

end

namespace SplitOpMgr

variable {r : TraceReader} {vfsOpInfo : String → Bool}

/-- What holds between two records.  Before the first mount ends, no open operation has a
store list. -/
structure Ok (r : TraceReader) (st : State) : Prop where
  isOpen : ∀ op, st.opEntry = some op →
    Collected r op ∧ (st.firstMount = true → op.pmSortedStoreSeq = [])
  done : ∀ op ∈ st.opEntryList, Split r op

/-- The open operation has seen nothing from `seq` on. -/
def Below (st : State) (seq : Int) : Prop :=
  ∀ op, st.opEntry = some op → ∀ k ∈ op.seqEntryMap.keys, k < seq

theorem collected_new (entry : TraceEntry) (pid : Int) :
    Collected r (OpTraceEntry.new entry entry.fnName r.pmAddr r.pmSize pid) where
  filled := OpTraceEntry.filled_new _ _ _ _ _
  device := ⟨rfl, rfl⟩
  item := fun _ hx => absurd hx List.not_mem_nil
  ordered := List.Pairwise.nil
  bounds := fun _ hk => absurd hk List.not_mem_nil
  early := List.prefix_rfl

theorem collected_setEnd {op : OpTraceEntry} (h : Collected r op)
    (entry : TraceEntry) : Collected r { op with endFnEntry := some entry } where
  filled := ⟨h.filled.item, h.filled.keys, h.filled.storeSeq⟩
  device := h.device
  item := h.item
  ordered := h.ordered
  bounds := h.bounds
  early := h.early

/-- What the splitter can do about a record. -/
inductive SplitStep (r : TraceReader) (vfsOpInfo : String → Bool) (pid : Int) (st : State)
    (e : TraceEntry) : State → Prop
  | passed (hop : st.opEntry = none) (hstart : ¬ (vfsOpInfo e.fnName && e.type = .startFn) = true) :
      SplitStep r vfsOpInfo pid st e st
  | opened {op : OpTraceEntry} (hop : st.opEntry = none)
      (hstart : (vfsOpInfo e.fnName && e.type = .startFn) = true)
      (hadd : (OpTraceEntry.new e e.fnName r.pmAddr r.pmSize pid).addEntryList e.getEntryList
        true = some op) :
      SplitStep r vfsOpInfo pid st e { st with opEntry := some op }
  | added {op op₁ : OpTraceEntry} (hop : st.opEntry = some op)
      (hpair : ¬ op.startFnEntry.isPairFuncEntry e = true)
      (hadd : op.addEntryList e.getEntryList true = some op₁) :
      SplitStep r vfsOpInfo pid st e { st with opEntry := some op₁ }
  | mounted {op op₁ : OpTraceEntry} (hop : st.opEntry = some op)
      (hpair : op.startFnEntry.isPairFuncEntry e = true)
      (hadd : OpTraceEntry.addEntryList { op with endFnEntry := some e } e.getEntryList true =
        some op₁)
      (hmount : (st.firstMount && occursIn "fill_super" op₁.finalize.opName) = true) :
      SplitStep r vfsOpInfo pid st e
        { st with firstMount := false, opEntry := some op₁.finalize }
  | closed {op op₁ : OpTraceEntry} (hop : st.opEntry = some op)
      (hpair : op.startFnEntry.isPairFuncEntry e = true)
      (hadd : OpTraceEntry.addEntryList { op with endFnEntry := some e } e.getEntryList true =
        some op₁)
      (hmount : ¬ (st.firstMount && occursIn "fill_super" op₁.finalize.opName) = true) :
      SplitStep r vfsOpInfo pid st e
        { st with opEntry := none, opEntryList := st.opEntryList ++ [op₁.finalize] }

theorem splitRecord_cases {st st' : State} {e : TraceEntry} {pid : Int}
    (hs : SplitOpMgr.splitRecord r vfsOpInfo pid st e.getEntryList = some st') :
    SplitStep r vfsOpInfo pid st e st' := by
  rw [SplitOpMgr.splitRecord, e.head?_getEntryList] at hs
  simp only [Option.bind_eq_bind, Option.bind_some, Option.pure_def] at hs
  cases hop : st.opEntry with
  | none =>
    simp only [hop] at hs
    split_ifs at hs with hstart
    · obtain ⟨op, hadd, hs⟩ := Option.bind_eq_some_iff.mp hs
      exact Option.some.inj hs ▸ .opened hop hstart hadd
    · exact Option.some.inj hs ▸ .passed hop hstart
  | some op =>
    simp only [hop] at hs
    split_ifs at hs with hpair
    · obtain ⟨op₁, hadd, hs⟩ := Option.bind_eq_some_iff.mp hs
      split_ifs at hs with hmount
      · exact Option.some.inj hs ▸ .mounted hop hpair hadd hmount
      · exact Option.some.inj hs ▸ .closed hop hpair hadd hmount
    · obtain ⟨op₁, hadd, hs⟩ := Option.bind_eq_some_iff.mp hs
      exact Option.some.inj hs ▸ .added hop hpair hadd

/-- One record keeps the invariant. -/
theorem Ok.splitRecord {st st' : State} (h : Ok r st) {e : TraceEntry} {pid : Int}
    (he : (e.seq, e.getEntryList) ∈ r.seqEntryMap.items) (hb : Below st e.seq)
    (hs : SplitOpMgr.splitRecord r vfsOpInfo pid st e.getEntryList = some st') :
    Ok r st' ∧ ∀ op, st'.opEntry = some op → ∀ k ∈ op.seqEntryMap.keys, k ≤ e.seq := by
  cases splitRecord_cases hs with
  | passed hop =>
    refine ⟨h, fun op hop' => ?_⟩
    rw [hop] at hop'
    exact absurd hop' (by simp)
  | opened _ _ hadd =>
    obtain ⟨hc, hk, -, hseq⟩ := (collected_new e pid).addEntryList he
      (fun k hk => absurd hk List.not_mem_nil) hadd
    refine ⟨⟨fun op' hop' => ?_, h.done⟩, fun op' hop' => ?_⟩
    · rw [← Option.some.inj hop']
      exact ⟨hc, fun _ => hseq⟩
    · rw [← Option.some.inj hop']
      exact hk
  | added hop _ hadd =>
    obtain ⟨hc, hfirst⟩ := h.isOpen _ hop
    obtain ⟨hc₁, hk, -, hseq⟩ := hc.addEntryList he (hb _ hop) hadd
    refine ⟨⟨fun op' hop' => ?_, h.done⟩, fun op' hop' => ?_⟩
    · rw [← Option.some.inj hop']
      exact ⟨hc₁, fun hf => hseq.trans (hfirst hf)⟩
    · rw [← Option.some.inj hop']
      exact hk
  | mounted hop _ hadd hmount =>
    obtain ⟨hc, hfirst⟩ := h.isOpen _ hop
    have hlast := hb _ hop
    obtain ⟨hc₁, hk, -, hseq⟩ := (collected_setEnd hc e).addEntryList he hlast hadd
    have hm : st.firstMount = true := (Bool.and_eq_true_iff.mp hmount).1
    refine ⟨⟨fun op' hop' => ?_, h.done⟩, fun op' hop' => ?_⟩
    · rw [← Option.some.inj hop']
      exact ⟨hc₁.finalize (hseq.trans (hfirst hm)), fun hf => absurd hf (by simp)⟩
    · rw [← Option.some.inj hop']
      exact hk
  | closed hop _ hadd =>
    have hlast := hb _ hop
    obtain ⟨hc₁, -, hrange, -⟩ :=
      (collected_setEnd (h.isOpen _ hop).1 e).addEntryList he hlast hadd
    refine ⟨⟨fun op' hop' => absurd hop' (by simp), fun op' hop' => ?_⟩,
      fun op' hop' => absurd hop' (by simp)⟩
    rcases List.mem_append.mp hop' with hop' | hop'
    · exact h.done op' hop'
    · rw [List.mem_singleton.mp hop']
      exact hc₁.split hrange

/-- So do the records of a process, taken in sequence order. -/
theorem Ok.splitRecords {pid : Int} {l : List (Int × List TraceEntry)} {st st' : State}
    (h : Ok r st) (hitem : ∀ y ∈ l, y ∈ r.seqEntryMap.items ∧
      ∃ e : TraceEntry, y = (e.seq, e.getEntryList))
    (hsorted : l.Pairwise fun x y => x.1 < y.1) (hb : ∀ y ∈ l, Below st y.1)
    (hs : l.foldlM (fun st y => SplitOpMgr.splitRecord r vfsOpInfo pid st y.2) st = some st') :
    Ok r st' := by
  induction l generalizing st with
  | nil => exact Option.some.inj hs ▸ h
  | cons y rest ih =>
    obtain ⟨hy, hrest⟩ := List.pairwise_cons.mp hsorted
    obtain ⟨hmem, e, rfl⟩ := hitem y List.mem_cons_self
    rw [List.foldlM_cons] at hs
    obtain ⟨st₁, hs₁, hs⟩ := Option.bind_eq_some_iff.mp hs
    obtain ⟨hok, hle⟩ := h.splitRecord hmem (hb _ List.mem_cons_self) hs₁
    refine ih hok (fun z hz => hitem z (List.mem_cons_of_mem _ hz)) hrest (fun z hz op hop k hk => ?_)
      hs
    exact lt_of_le_of_lt (hle op hop k hk) (hy z hz)

theorem Ok.splitProcess (hl : r.Loaded) {st st' : State} (h : Ok r st)
    {x : Int × Dict Int (List TraceEntry)} (hx : x ∈ r.pidSeqEntryMap.items)
    (hs : SplitOpMgr.splitProcess r vfsOpInfo st x = some st') : Ok r st' := by
  have hclosed : Ok r { st with opEntry := none } :=
    ⟨fun op hop => absurd hop (by simp), h.done⟩
  refine hclosed.splitRecords ?_ (sortBy_pairwise_lt x.2.nodup) ?_ hs
  · intro y hy
    obtain ⟨hmem, e, he, -⟩ := hl.ofPid x hx y (mem_sortBy.mp hy)
    exact ⟨hmem, e, he⟩
  · exact fun y _ op hop => absurd hop (by simp)

/-- The operations of a trace, by their first record. -/
theorem split_of_splitTrace (hl : r.Loaded) {ops : List OpTraceEntry}
    (h : splitTrace r vfsOpInfo = some ops) :
    (∀ op ∈ ops, Split r op) ∧ ops.Pairwise fun a b => a.minSeq ≤ b.minSeq := by
  obtain ⟨st, hst, rfl⟩ := Option.map_eq_some_iff.mp h
  have hgen : ∀ (l : List (Int × Dict Int (List TraceEntry))) (st₀ : State),
      (∀ x ∈ l, x ∈ r.pidSeqEntryMap.items) → Ok r st₀ →
      l.foldlM (SplitOpMgr.splitProcess r vfsOpInfo) st₀ = some st → Ok r st := by
    intro l
    induction l with
    | nil => exact fun st₀ _ h₀ hs => Option.some.inj hs ▸ h₀
    | cons x rest ih =>
      intro st₀ hmem h₀ hs
      rw [List.foldlM_cons] at hs
      obtain ⟨st₁, hs₁, hs⟩ := Option.bind_eq_some_iff.mp hs
      exact ih st₁ (fun y hy => hmem y (List.mem_cons_of_mem _ hy))
        (h₀.splitProcess hl (hmem x List.mem_cons_self) hs₁) hs
  have hstart : Ok r ⟨true, none, []⟩ :=
    ⟨fun op hop => absurd hop (by simp), fun op hop => absurd hop List.not_mem_nil⟩
  have hok := hgen _ _ (fun x hx => hx) hstart hst
  exact ⟨fun op hop => hok.done op (mem_sortBy.mp hop), sortBy_pairwise _ _⟩

theorem exists_prev {ops : List OpTraceEntry} {n : Nat} {next : OpTraceEntry}
    (h : ops[n + 1]? = some next) : ∃ prev, ops[n]? = some prev := by
  have hlt := (List.getElem?_eq_some_iff.mp h).1
  exact ⟨_, List.getElem?_eq_getElem (by omega : n < ops.length)⟩

theorem minSeq_le_next {ops : List OpTraceEntry} (h : ops.Pairwise fun a b => a.minSeq ≤ b.minSeq)
    {n : Nat} {prev next : OpTraceEntry} (hprev : ops[n]? = some prev)
    (hnext : ops[n + 1]? = some next) : prev.minSeq ≤ next.minSeq := by
  obtain ⟨h1, rfl⟩ := List.getElem?_eq_some_iff.mp hprev
  obtain ⟨h2, rfl⟩ := List.getElem?_eq_some_iff.mp hnext
  exact List.pairwise_iff_getElem.mp h n (n + 1) h1 h2 (by omega)

end SplitOpMgr

/-! ## The stores of an operation -/

section

variable {r : TraceReader} {op : OpTraceEntry}

theorem Split.mem_pmStoreEntries (h : Split r op) {e : TraceEntry} :
    e ∈ op.pmStoreEntries ↔ op.IsPmStore e := by
  rw [OpTraceEntry.pmStoreEntries, List.mem_filterMap]
  constructor
  · rintro ⟨x, hx, hf⟩
    obtain ⟨hhead, hst⟩ := Option.filter_eq_some_iff.mp hf
    obtain ⟨e', rfl, -⟩ := h.wf.item x hx
    rw [e'.head?_getEntryList, Option.some.injEq] at hhead
    exact hhead ▸ ⟨hhead.symm ▸ hst, hx⟩
  · rintro ⟨hst, hmem⟩
    refine ⟨_, hmem, ?_⟩
    rw [Option.filter_eq_some_iff, e.head?_getEntryList]
    exact ⟨rfl, hst⟩

theorem Split.pmStoreEntries_pairwise (h : Split r op) :
    op.pmStoreEntries.Pairwise fun a b => a.seq < b.seq := by
  refine List.Pairwise.filterMap _ ?_ (h.ordered.imp_of_mem (S := fun x y =>
    x ∈ op.pmSeqEntryMap.items ∧ y ∈ op.pmSeqEntryMap.items ∧ x.1 < y.1)
    (fun hx hy hxy => ⟨hx, hy, hxy⟩))
  rintro x y ⟨hx, hy, hxy⟩ a ha b hb
  obtain ⟨ex, rfl, -⟩ := h.wf.item x hx
  obtain ⟨ey, rfl, -⟩ := h.wf.item y hy
  rw [ex.head?_getEntryList, Option.filter_eq_some_iff, Option.some.injEq] at ha
  rw [ey.head?_getEntryList, Option.filter_eq_some_iff, Option.some.injEq] at hb
  rw [← ha.1, ← hb.1]
  exact hxy

/-- A store of the operation is a store of the trace, inside the range of the operation. -/
theorem Split.isPmStore (h : Split r op) {e : TraceEntry} (he : e ∈ op.pmStoreEntries) :
    (e.seq, e.getEntryList) ∈ r.seqEntryMap.items ∧ e.type.isStoreSeries = true ∧
      op.minSeq ≤ e.seq ∧ e.seq ≤ op.maxSeq := by
  obtain ⟨hst, hmem⟩ := h.mem_pmStoreEntries.mp he
  have hb := h.bounds e.seq (List.mem_map_of_mem hmem)
  exact ⟨h.item _ hmem, hst, hb⟩

end

/-! ## All records of an operation -/

/-- Its records, also those outside persistent memory, are records of the trace. -/
def FromTrace (r : TraceReader) (op : OpTraceEntry) : Prop :=
  ∀ x ∈ op.seqEntryMap.items, x ∈ r.seqEntryMap.items

namespace SplitOpMgr

section

variable {r : TraceReader} {vfsOpInfo : String → Bool}

theorem fromTrace_addEntryList {op op' : OpTraceEntry} (h : FromTrace r op) {e : TraceEntry}
    (he : (e.seq, e.getEntryList) ∈ r.seqEntryMap.items)
    (ha : op.addEntryList e.getEntryList true = some op') : FromTrace r op' := by
  rw [OpTraceEntry.addEntryList_getEntryList] at ha
  by_cases hpid : op.pid ≠ e.pid
  · rw [if_pos hpid] at ha
    cases ha
  · by_cases hseq : e.seq ∈ op.seqEntryMap.keys
    · rw [if_neg hpid, if_pos hseq] at ha
      cases ha
    · rw [if_neg hpid, if_neg hseq] at ha
      rw [← Option.some.inj ha]
      intro x hx
      rcases OpTraceEntry.mem_items_set.mp hx with rfl | ⟨-, hx⟩
      · exact he
      · exact h x hx

/-- The operations of a state are made of records of the trace. -/
def StateFromTrace (r : TraceReader) (st : State) : Prop :=
  (∀ op, st.opEntry = some op → FromTrace r op) ∧ ∀ op ∈ st.opEntryList, FromTrace r op

theorem StateFromTrace.splitRecord {st st' : State} (h : StateFromTrace r st) {e : TraceEntry}
    {pid : Int} (he : (e.seq, e.getEntryList) ∈ r.seqEntryMap.items)
    (hs : SplitOpMgr.splitRecord r vfsOpInfo pid st e.getEntryList = some st') :
    StateFromTrace r st' := by
  cases splitRecord_cases hs with
  | passed => exact h
  | opened _ _ hadd =>
    have hnew : FromTrace r (OpTraceEntry.new e e.fnName r.pmAddr r.pmSize pid) :=
      fun x hx => absurd hx List.not_mem_nil
    refine ⟨fun op' hop' => ?_, h.2⟩
    rw [← Option.some.inj hop']
    exact fromTrace_addEntryList hnew he hadd
  | added hop _ hadd =>
    refine ⟨fun op' hop' => ?_, h.2⟩
    rw [← Option.some.inj hop']
    exact fromTrace_addEntryList (h.1 _ hop) he hadd
  | @mounted op op₁ hop _ hadd _ =>
    have hopen : FromTrace r op := h.1 _ hop
    have hend : FromTrace r { op with endFnEntry := some e } := hopen
    have h₁ : FromTrace r op₁ := fromTrace_addEntryList hend he hadd
    exact ⟨fun op' hop' => Option.some.inj hop' ▸ h₁, h.2⟩
  | @closed op op₁ hop _ hadd _ =>
    have hopen : FromTrace r op := h.1 _ hop
    have hend : FromTrace r { op with endFnEntry := some e } := hopen
    have h₁ : FromTrace r op₁ := fromTrace_addEntryList hend he hadd
    refine ⟨fun op' hop' => absurd hop' (by simp), fun op' hop' => ?_⟩
    rcases List.mem_append.mp hop' with hop' | hop'
    · exact h.2 op' hop'
    · exact List.mem_singleton.mp hop' ▸ h₁

theorem fromTrace_of_splitTrace (hl : r.Loaded) {ops : List OpTraceEntry}
    (h : splitTrace r vfsOpInfo = some ops) : ∀ op ∈ ops, FromTrace r op := by
  obtain ⟨st, hst, rfl⟩ := Option.map_eq_some_iff.mp h
  have hstart : StateFromTrace r ⟨true, none, []⟩ :=
    ⟨fun op hop => absurd hop (by simp), fun op hop => absurd hop List.not_mem_nil⟩
  have hfinal : StateFromTrace r st := by
    refine foldlM_invariant_of_mem (fun st x hx st' hok hs => ?_) hstart hst
    have hclosed : StateFromTrace r { st with opEntry := none } :=
      ⟨fun op hop => absurd hop (by simp), hok.2⟩
    refine foldlM_invariant_of_mem (fun st y hy st' hok hs => ?_) hclosed hs
    obtain ⟨hmem, e, rfl, -⟩ := hl.ofPid x hx y (mem_sortBy.mp hy)
    exact hok.splitRecord hmem hs
  exact fun op hop => hfinal.2 op (mem_sortBy.mp hop)

end

end SplitOpMgr

end Trace
end Silhouette
