import Silhouette.Image.BaseImage
import Silhouette.Mech.SheetUpdates

/-!
# The sheets along a test case

The part of `run_one_case_main` that moves the cheat sheets.  A pass over the stores of
the trace stands for the mount.  It ends at the last record of the first operation, not at
its first.  Then every operation either advances the sheets with its own entries, or has
the reasoners do it, or leaves them as they are.

The sheets belong to the guest, so they come with what the test case before left in them.
-/

namespace Silhouette
namespace Executor

open Lib Trace CheatSheet Mech Image

section

variable (info : TraceEntry → Deduced)

/-- `update_necessary_computations` over the trace.  Every number of the list has a
record. -/
def updateFromTrace (r : TraceReader) (startSeq endSeq : Int) :
    List Int → CheatSheetBase → CheatSheetBase
  | [], s => s
  | seq :: rest, s =>
    if seq < startSeq then updateFromTrace r startSeq endSeq rest s
    else if seq > endSeq then s
    else updateFromTrace r startSeq endSeq rest
      ((recordAt r.seqEntryMap seq).elim s (s.update info))

/-- The first entries of the records of an operation. -/
def firstEntries (op : OpTraceEntry) : List TraceEntry :=
  op.pmSeqEntryMap.items.filterMap fun x => x.2.head?

/-- `update_necessary_computations` over an operation. -/
def updateFromOp (op : OpTraceEntry) (s : CheatSheetBase) : CheatSheetBase :=
  (firstEntries op).foldl (fun s e => s.update info e) s

/-- What decides about an operation: the options, the operations to test, and whether both
oracles of an operation were found. -/
structure TestPlan where
  skipUmount : Bool
  stopAfterCacheSim : Bool
  uniqueOpIndices : List Nat
  hasOracles : Nat → Bool

inductive OpFate where
  /-- A `continue` that leaves the sheets alone. -/
  | passedOver
  | updated
  | reasoned
  deriving DecidableEq

def TestPlan.opFate (p : TestPlan) (opIdx : Nat) (op : OpTraceEntry) : OpFate :=
  if p.skipUmount && occursIn "put_super" op.opName then .passedOver
  else if opIdx ∉ p.uniqueOpIndices ∨ op.pmSortedStoreSeq.length = 0 then .updated
  else if p.stopAfterCacheSim then .passedOver
  else if !p.hasOracles opIdx then .passedOver
  else .reasoned

def testOp (p : TestPlan) (s : CheatSheetBase) (opIdx : Nat) (op : OpTraceEntry) : CheatSheetBase :=
  match p.opFate opIdx op with
  | .passedOver => s
  | .updated => updateFromOp info op s
  | .reasoned => deduceMech info op s

/-- The sheets at the start of each round of the loop. -/
def sheetsAt (p : TestPlan) (r : TraceReader) (ops : List OpTraceEntry) (s₀ : CheatSheetBase) :
    Nat → CheatSheetBase
  | 0 => ops.head?.elim s₀ fun op => updateFromTrace info r 0 op.maxSeq r.pmStoreSeqList s₀
  | i + 1 => ops[i]?.elim (sheetsAt p r ops s₀ i) (testOp info p (sheetsAt p r ops s₀ i) i)

/-! ## When the sheets follow the trace -/

variable (p : TestPlan) (r : TraceReader) (s₀ : CheatSheetBase)

/-- The stores before a sequence number that go to a variable of the sheets. -/
def trackedBefore (seq : Int) : List TraceEntry :=
  (r.pmStoresBefore seq).filter (s₀.tracks info)

def trackedBetween (seq₁ seq₂ : Int) : List TraceEntry :=
  r.pmStores.filter fun e => s₀.tracks info e ∧ seq₁ ≤ e.seq ∧ e.seq < seq₂

/-- From one operation to the next: no other store goes to a variable of the sheets, the
journal stores are inside transactions where the reasoners look for them, and an operation
that leaves the sheets alone has no such store, except for the first, which the pass over
the trace has seen already. -/
structure Carried (i : Nat) (op next : OpTraceEntry) : Prop where
  own : trackedBetween info r s₀ op.minSeq next.minSeq = (firstEntries op).filter (s₀.tracks info)
  journaled : p.opFate i op = .reasoned → ∀ u ∈ s₀.undoJnlSheet, Journaled info u op.pmStoreEntries
  silent : i ≠ 0 → p.opFate i op = .passedOver → (firstEntries op).filter (s₀.tracks info) = []

/-- The run up to the operation with index `j`, on which the sheets follow the trace. -/
structure FollowedTo (ops : List OpTraceEntry) (j : Nat) (opj : OpTraceEntry) : Prop where
  /-- The pass over the trace meets the stores of its range in order and before all others. -/
  fileOrder : ∀ first ∈ ops[0]?, r.pmStoreSeqList.Pairwise fun a b => b < first.maxSeq + 1 → a < b
  counted : ∀ e ∈ r.pmStores, s₀.tracks info e = true → 0 ≤ e.seq
  /-- The pass over the trace ends before the first operation where that is reasoned about,
  and before the second one where a later one is. -/
  passEnds : ∀ first ∈ ops[0]?, ∀ op ∈ ops[min j 1]?, ∀ e ∈ r.pmStores,
    s₀.tracks info e = true → e.seq ≤ first.maxSeq → e.seq < op.minSeq
  carried : ∀ i < j, ∀ op ∈ ops[i]?, ∀ next ∈ ops[i + 1]?, Carried info p r s₀ i op next
  /-- Nothing of an earlier test case is left when the reasoners look. -/
  renewed : s₀.Renewed info (r.pmStoresBefore opj.minSeq)

end

section

variable {info : TraceEntry → Deduced} {p : TestPlan} {r : TraceReader} {s₀ : CheatSheetBase}

/-- The pass over the trace takes the stores of its range. -/
theorem updateFromTrace_eq {l : List TraceEntry}
    (hrec : ∀ e ∈ l, recordAt r.seqEntryMap e.seq = some e)
    {startSeq endSeq : Int} (hend : l.Pairwise fun a b => endSeq + 1 ≤ a.seq → endSeq + 1 ≤ b.seq)
    (s : CheatSheetBase) :
    updateFromTrace info r startSeq endSeq (l.map TraceEntry.seq) s =
      (l.filter fun e => startSeq ≤ e.seq ∧ e.seq ≤ endSeq).foldl (fun s e => s.update info e) s := by
  induction l generalizing s with
  | nil => rfl
  | cons e rest ih =>
    obtain ⟨hbehind, hrest⟩ := List.pairwise_cons.mp hend
    have ih' := ih (fun e' he' => hrec e' (List.mem_cons_of_mem _ he')) hrest
    rw [List.map_cons, updateFromTrace]
    by_cases h1 : e.seq < startSeq
    · rw [if_pos h1, List.filter_cons_of_neg (by simp; omega), ih']
    · rw [if_neg h1]
      by_cases h2 : e.seq > endSeq
      · -- all later stores are behind the end as well
        have hnone : (e :: rest).filter (fun e => startSeq ≤ e.seq ∧ e.seq ≤ endSeq) = [] := by
          refine List.filter_eq_nil_iff.mpr (fun e' he' => ?_)
          rcases List.mem_cons.mp he' with rfl | he'
          · simp; omega
          · have := hbehind e' he' (by omega)
            simp; omega
        rw [if_pos h2, hnone]
        rfl
      · rw [if_neg h2, hrec e List.mem_cons_self, Option.elim_some, ih',
          List.filter_cons_of_pos (by simp; omega), List.foldl_cons]

theorem trackedBefore_append (hl : r.Loaded) {a b : Int} (hab : a ≤ b) :
    trackedBefore info r s₀ b = trackedBefore info r s₀ a ++ trackedBetween info r s₀ a b := by
  have hord := hl.pmStores_pairwise.imp fun {x y : TraceEntry} (h : x.seq < y.seq) => le_of_lt h
  rw [trackedBefore, trackedBefore, TraceReader.pmStoresBefore, TraceReader.pmStoresBefore,
    filter_lt_append hord hab, List.filter_append]
  congr 1
  rw [List.filter_filter]
  exact List.filter_congr (fun e _ => by simp)

/-- The sheets have seen the stores before an operation, some stretch of them perhaps
twice. -/
def Replayed (info : TraceEntry → Deduced) (r : TraceReader) (s₀ : CheatSheetBase) (seq : Int)
    (s : CheatSheetBase) : Prop :=
  ∃ l₁ l₂ l₃, trackedBefore info r s₀ seq = l₁ ++ l₂ ++ l₃ ∧
    s = (l₁ ++ l₂ ++ l₂ ++ l₃).foldl (fun s e => s.update info e) s₀

/-- Such sheets are in step with the trace, once the old values are gone. -/
theorem Replayed.inStep {seq : Int} {s : CheatSheetBase} (h : Replayed info r s₀ seq s)
    (hrenewed : s₀.Renewed info (r.pmStoresBefore seq)) : s.InStep info (r.pmStoresBefore seq) := by
  obtain ⟨l₁, l₂, l₃, hbefore, rfl⟩ := h
  have hin := hrenewed.inStep
  rw [CheatSheetBase.foldl_update_filter, ← trackedBefore, hbefore] at hin
  exact hin.replay

theorem sheetsAt_zero (hl : r.Loaded) {ops : List OpTraceEntry} {first : OpTraceEntry}
    (hfirst : ops[0]? = some first)
    (hord : r.pmStoreSeqList.Pairwise fun a b => b < first.maxSeq + 1 → a < b)
    (hcounted : ∀ e ∈ r.pmStores, s₀.tracks info e = true → 0 ≤ e.seq) :
    sheetsAt info p r ops s₀ 0 =
      (r.pmStores.filter fun e => s₀.tracks info e ∧ e.seq ≤ first.maxSeq).foldl
        (fun s e => s.update info e) s₀ := by
  obtain ⟨l, hseqs, hmem, hend, hfilter⟩ := hl.exists_fileOrder hord
  rw [sheetsAt, List.head?_eq_getElem?, hfirst, Option.elim_some, ← hseqs,
    updateFromTrace_eq (fun e he => hl.head_get? (hmem e he)) hend, hfilter]
  rotate_left
  · intro e he
    have := of_decide_eq_true he
    omega
  apply CheatSheetBase.foldl_update_congr
  rw [List.filter_filter, List.filter_filter]
  refine List.filter_congr (fun e he => ?_)
  cases ht : s₀.tracks info e with
  | false => simp
  | true =>
    have := hcounted e he ht
    simp [this]

/-- An operation that was carried over takes the sheets through the stores up to the next
one. -/
theorem testOp_eq (hl : r.Loaded) {i : Nat} {op next : OpTraceEntry} (hop : Split r op)
    (hc : Carried info p r s₀ i op next) (hi : p.opFate i op = .passedOver → i ≠ 0)
    (l : List TraceEntry) :
    testOp info p (l.foldl (fun s e => s.update info e) s₀) i op =
      (l ++ trackedBetween info r s₀ op.minSeq next.minSeq).foldl (fun s e => s.update info e) s₀ := by
  have htracks : (l.foldl (fun s e => s.update info e) s₀).tracks info = s₀.tracks info :=
    funext fun e => s₀.tracks_foldl l e
  rw [List.foldl_append, hc.own, testOp]
  cases hf : p.opFate i op with
  | passedOver =>
    rw [hc.silent (hi hf) hf]
    rfl
  | updated =>
    show updateFromOp info op _ = _
    rw [updateFromOp, CheatSheetBase.foldl_update_filter, htracks]
  | reasoned =>
    show deduceMech info op _ = _
    rw [deduceMech_eq hop, CheatSheetBase.foldl_update_filter, htracks]
    · -- what is tracked among the entries of the operation is a store
      congr 1
      have hstores : op.pmStoreEntries = (firstEntries op).filter fun e => e.type.isStoreSeries := by
        rw [OpTraceEntry.pmStoreEntries, firstEntries, List.filter_filterMap]
      rw [hstores, List.filter_filter]
      refine List.filter_congr (fun e he => ?_)
      cases ht : s₀.tracks info e with
      | false => rfl
      | true =>
        have hmem : e ∈ (firstEntries op).filter (s₀.tracks info) := List.mem_filter.mpr ⟨he, ht⟩
        rw [← hc.own] at hmem
        have hst := (hl.mem_pmStores.mp (List.mem_filter.mp hmem).1).2.1
        rw [hst]
        rfl
    · intro u hu
      rw [CheatSheetBase.foldl_update] at hu
      obtain ⟨u₀, hu₀, rfl⟩ := Option.map_eq_some_iff.mp hu
      exact (hc.journaled hf u₀ hu₀).after l

/-- What the pass over the trace has seen when it ended before the second operation. -/
theorem pass_eq {first second : OpTraceEntry} (hop : Split r first)
    (hends : ∀ e ∈ r.pmStores, s₀.tracks info e = true → e.seq ≤ first.maxSeq →
      e.seq < second.minSeq) (hc : Carried info p r s₀ 0 first second) :
    r.pmStores.filter (fun e => s₀.tracks info e ∧ e.seq ≤ first.maxSeq) =
      trackedBefore info r s₀ second.minSeq := by
  rw [trackedBefore, TraceReader.pmStoresBefore, List.filter_filter]
  refine List.filter_congr (fun e he => ?_)
  cases ht : s₀.tracks info e with
  | false => simp
  | true =>
    simp only [true_and, Bool.true_and, decide_eq_decide]
    refine ⟨hends e he ht, fun hlt => ?_⟩
    by_cases hmin : first.minSeq ≤ e.seq
    · -- a store of the first operation
      have hown : e ∈ (firstEntries first).filter (s₀.tracks info) := by
        rw [← hc.own]
        exact List.mem_filter.mpr ⟨he, decide_eq_true ⟨ht, hmin, hlt⟩⟩
      obtain ⟨x, hx, hhead⟩ := List.mem_filterMap.mp (List.mem_filter.mp hown).1
      obtain ⟨e', rfl, -⟩ := hop.wf.item x hx
      rw [e'.head?_getEntryList, Option.some.injEq] at hhead
      have := (hop.bounds e'.seq (List.mem_map_of_mem hx)).2
      rwa [hhead] at this
    · have := hop.range
      omega

/-- The sheets at the start of every round but the first. -/
theorem replayed_of_followedTo (hl : r.Loaded) {ops : List OpTraceEntry}
    (hops : ∀ op ∈ ops, Split r op) (hsorted : ops.Pairwise fun a b => a.minSeq ≤ b.minSeq) {j : Nat}
    {opj : OpTraceEntry} (h : FollowedTo info p r s₀ ops j opj) {i : Nat} (hij : i + 1 ≤ j)
    {op : OpTraceEntry} (hop : ops[i + 1]? = some op) :
    Replayed info r s₀ op.minSeq (sheetsAt info p r ops s₀ (i + 1)) := by
  induction i generalizing op with
  | zero =>
    obtain ⟨first, hfirst⟩ := SplitOpMgr.exists_prev hop
    have hc := h.carried 0 (by omega) first hfirst op hop
    have hsplit := hops first (List.mem_of_getElem? hfirst)
    have hends := h.passEnds first hfirst op (by rwa [show min j 1 = 1 by omega])
    have hseen := sheetsAt_zero (p := p) hl hfirst (h.fileOrder first hfirst) h.counted
    rw [pass_eq hsplit hends hc] at hseen
    rw [sheetsAt, hfirst, Option.elim_some, hseen]
    by_cases hf : p.opFate 0 first = .passedOver
    · refine ⟨trackedBefore info r s₀ op.minSeq, [], [], by simp, ?_⟩
      rw [testOp, hf, List.append_nil, List.append_nil, List.append_nil]
    · -- the stores of the first operation are seen twice
      rw [testOp_eq hl hsplit hc (fun hf' => absurd hf' hf)]
      have happend : trackedBefore info r s₀ op.minSeq = trackedBefore info r s₀ first.minSeq ++
          trackedBetween info r s₀ first.minSeq op.minSeq :=
        trackedBefore_append hl (SplitOpMgr.minSeq_le_next hsorted hfirst hop)
      refine ⟨trackedBefore info r s₀ first.minSeq, trackedBetween info r s₀ first.minSeq op.minSeq, [],
        ?_, ?_⟩
      · rw [List.append_nil, happend]
      · rw [List.append_nil, happend]
  | succ i ih =>
    obtain ⟨prev, hprev⟩ := SplitOpMgr.exists_prev hop
    obtain ⟨l₁, l₂, l₃, hbefore, hs⟩ := ih (by omega) hprev
    have hc := h.carried (i + 1) (by omega) prev hprev op hop
    refine ⟨l₁, l₂, l₃ ++ trackedBetween info r s₀ prev.minSeq op.minSeq, ?_, ?_⟩
    · rw [trackedBefore_append hl (SplitOpMgr.minSeq_le_next hsorted hprev hop), hbefore, List.append_assoc _ l₃]
    · rw [sheetsAt, hprev, Option.elim_some, hs,
        testOp_eq hl (hops prev (List.mem_of_getElem? hprev)) hc (fun _ => by omega),
        List.append_assoc _ l₃]

/-- The sheets follow the trace: when reasoning about an operation starts, head and tail of
the journal and the tails of the logs have the values last stored before it. -/
theorem sheets_in_step {lines : List TraceEntry} {vfsOpInfo : String → Bool}
    {ops : List OpTraceEntry} (hload : TraceReader.load lines = some r)
    (hsplit : SplitOpMgr.splitTrace r vfsOpInfo = some ops) {i : Nat} {op : OpTraceEntry}
    (hop : ops[i]? = some op) (h : FollowedTo info p r s₀ ops i op) :
    (sheetsAt info p r ops s₀ i).InStep info (r.pmStoresBefore op.minSeq) := by
  have hl := TraceReader.loaded_of_load hload
  obtain ⟨hops, hsorted⟩ := SplitOpMgr.split_of_splitTrace hl hsplit
  cases i with
  | succ i => exact (replayed_of_followedTo hl hops hsorted h le_rfl hop).inStep h.renewed
  | zero =>
    refine Replayed.inStep ⟨trackedBefore info r s₀ op.minSeq, [], [], by simp, ?_⟩ h.renewed
    rw [sheetsAt_zero hl hop (h.fileOrder op hop) h.counted, List.append_nil, List.append_nil, List.append_nil]
    congr 1
    rw [trackedBefore, TraceReader.pmStoresBefore, List.filter_filter]
    refine List.filter_congr (fun e he => ?_)
    cases ht : s₀.tracks info e with
    | false => simp
    | true =>
      have hrange := (hops op (List.mem_of_getElem? hop)).range
      have hends := h.passEnds op hop op hop e he ht
      simp only [true_and, Bool.true_and, decide_eq_decide]
      omega

end

instance (info : TraceEntry → Deduced) (p : TestPlan) (r : TraceReader) (s₀ : CheatSheetBase) (i : Nat)
    (op next : OpTraceEntry) : Decidable (Carried info p r s₀ i op next) :=
  decidable_of_iff (_ ∧ _ ∧ _)
    ⟨fun h => ⟨h.1, h.2.1, h.2.2⟩, fun h => ⟨h.own, h.journaled, h.silent⟩⟩

/-! Two traces of a file system with the journal's head and tail in the first two words of the
device and the tail of a log in the third. -/

def wordInfo (e : TraceEntry) : Deduced :=
  if e.addr = pmBase then ⟨some "journal", ["head"]⟩
  else if e.addr = pmBase + 8 then ⟨some "journal", ["tail"]⟩
  else if e.addr = pmBase + 16 then ⟨some "inode", ["log_tail"]⟩
  else ⟨none, []⟩

def wordSheets : CheatSheetBase where
  undoJnlSheet := some
    { preAlloc := true
      logEntryStruct := ["entry"]
      headComputation := ⟨[.var "journal" "head" false none]⟩
      tailComputation := ⟨[.var "journal" "tail" false none]⟩ }
  lswSheetList := [
    { tail := ⟨[.var "inode" "log_tail" false none]⟩
      tailLocToComputationDict := Dict.empty
      tail_blank := rfl
      made := fun _ _ h => absurd h (by simp) }]

def testAll : TestPlan := ⟨true, false, [0, 1, 3], fun _ => true⟩

/-- The mount sets head and tail, the second and the third operation move them. -/
def movingLines : List TraceEntry :=
  [.plain .daxDevInfo 0 pmBase 4096, wordStore 1 0 5, wordStore 2 8 5,
    fnEntry .startFn 3, wordStore 4 64 1, fnEntry .endFn 5,
    fnEntry .startFn 6, wordStore 7 8 6, wordStore 8 16 7, wordStore 9 0 6, fnEntry .endFn 10,
    fnEntry .startFn 11, wordStore 12 8 7, fnEntry .endFn 13,
    fnEntry .startFn 14, wordStore 15 8 8, fnEntry .endFn 16]

def movingReader : TraceReader := (TraceReader.load movingLines).get (by decide +kernel)

def movingOps : List OpTraceEntry :=
  (SplitOpMgr.splitTrace movingReader fun name => name = "write").get (by decide +kernel)

/-- The fourth operation finds the tail of the third, which was not tested, and the head of
the second, which was. -/
theorem sheets_in_step_moving : ∃ op, movingOps[3]? = some op ∧ testAll.opFate 3 op = .reasoned ∧
    (sheetsAt wordInfo testAll movingReader movingOps wordSheets 3).InStep wordInfo
      (movingReader.pmStoresBefore op.minSeq) := by
  have hop : movingOps[3]? = some (movingOps[3]?.get (by decide +kernel)) := (Option.some_get _).symm
  refine ⟨_, hop, by decide +kernel, ?_⟩
  refine sheets_in_step (Option.some_get _).symm (Option.some_get _).symm hop
    ⟨by decide +kernel, by decide +kernel, by decide +kernel, by decide +kernel, ?_⟩
  exact CheatSheetBase.renewed_of_fresh (by decide +kernel) (by decide +kernel) _

/-- The only operation moves the tail. -/
def firstMovesLines : List TraceEntry :=
  [.plain .daxDevInfo 0 pmBase 4096, wordStore 1 0 5, wordStore 2 8 5,
    fnEntry .startFn 3, wordStore 4 8 6, wordStore 5 0 6, fnEntry .endFn 6]

def firstMovesReader : TraceReader := (TraceReader.load firstMovesLines).get (by decide +kernel)

def firstMovesOps : List OpTraceEntry :=
  (SplitOpMgr.splitTrace firstMovesReader fun name => name = "write").get (by decide +kernel)

def firstMovesSheets : CheatSheetBase :=
  sheetsAt wordInfo testAll firstMovesReader firstMovesOps wordSheets 0

/-- The pass over the trace has seen the stores of the operation before it is reasoned
about. -/
theorem sheets_ahead_first_op :
    TraceReader.load firstMovesLines = some firstMovesReader ∧
      SplitOpMgr.splitTrace firstMovesReader (fun name => name = "write") = some firstMovesOps ∧
      ∃ op, firstMovesOps[0]? = some op ∧ testAll.opFate 0 op = .reasoned ∧
        ¬ firstMovesSheets.InStep wordInfo (firstMovesReader.pmStoresBefore op.minSeq) := by
  refine ⟨(Option.some_get _).symm, (Option.some_get _).symm,
    firstMovesOps[0]?.get (by decide +kernel), (Option.some_get _).symm, by decide +kernel, ?_⟩
  intro h
  have htail := (h.1 (firstMovesSheets.undoJnlSheet.get (by decide +kernel))
    (Option.some_get _).symm).2
  revert htail
  decide +kernel

end Executor
end Silhouette
