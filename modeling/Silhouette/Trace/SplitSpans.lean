import Silhouette.Trace.SplitExact

/-!
# The spans of the operations

The entries `SplitOpMgr` lists, compared as spans of records: the start, the end and the records
of the process from one to the other.
-/

namespace Silhouette
namespace Trace

open Lib TraceReader
open scoped List

/-- What an operation covers. -/
structure Span where
  pid : Int
  start : TraceEntry
  stop : Option TraceEntry
  opName : String
  items : List (Int × List TraceEntry)
  deriving DecidableEq

def OpTraceEntry.span (op : OpTraceEntry) : Span :=
  ⟨op.pid, op.startFnEntry, op.endFnEntry, op.opName, op.seqEntryMap.items⟩

def recordItem (e : TraceEntry) : Int × List TraceEntry := (e.seq, e.getEntryList)

/-- The records from the start to the end of an operation. -/
def spanOf (recs : List TraceEntry) (p : TraceEntry × TraceEntry) : Span :=
  ⟨p.1.pid, p.1, some p.2, p.1.fnName,
    (recs.filter fun e => p.1.seq ≤ e.seq ∧ e.seq ≤ p.2.seq).map recordItem⟩

namespace TraceReader

/-- The records of the processes, in the order in which the splitter visits them. -/
def processes (r : TraceReader) : List (List TraceEntry) :=
  r.pidSeqEntryMap.items.map fun x => records x.2

/-- The records of one process. -/
def recordsOf (r : TraceReader) (pid : Int) : List TraceEntry :=
  records ((r.pidSeqEntryMap.get? pid).getD Dict.empty)

end TraceReader

/-- One entry for every outermost operation that ends, with the records of its process from its
start to its end, but none for the first mount; and no record is in two entries. -/
def SplitsExactly (vfsOpInfo : String → Bool) (r : TraceReader) : Prop :=
  ∃ ops, SplitOpMgr.splitTrace r vfsOpInfo = some ops ∧
    ops.map OpTraceEntry.span ~ (listedEnds (outermostEnds vfsOpInfo r.processes)).map
      (fun p => spanOf (r.recordsOf p.1.pid) p) ∧
    ops.Pairwise fun a b => ∀ k ∈ a.seqEntryMap.keys, k ∉ b.seqEntryMap.keys

/-! ## The records of a process -/

section

variable {r : TraceReader} {x : Int × Dict Int (List TraceEntry)}

theorem TraceReader.Loaded.sortBy_eq (h : r.Loaded) (hx : x ∈ r.pidSeqEntryMap.items) :
    sortBy Prod.fst x.2.items = (records x.2).map recordItem := by
  have hitem : ∀ y ∈ sortBy Prod.fst x.2.items, y.2.head?.map recordItem = some y := by
    intro y hy
    obtain ⟨-, e, rfl, -⟩ := h.ofPid x hx y (mem_sortBy.mp hy)
    rw [e.head?_getEntryList]
    rfl
  rw [records, List.map_filterMap, List.filterMap_congr hitem, List.filterMap_some]

theorem TraceReader.Loaded.of_mem_records (h : r.Loaded) (hx : x ∈ r.pidSeqEntryMap.items)
    {e : TraceEntry} (he : e ∈ records x.2) : e.pid = x.1 ∧ recordItem e ∈ r.seqEntryMap.items := by
  obtain ⟨y, hy, hhead⟩ := List.mem_filterMap.mp he
  obtain ⟨hmem, e', rfl, hpid⟩ := h.ofPid x hx y (mem_sortBy.mp hy)
  rw [e'.head?_getEntryList, Option.some.injEq] at hhead
  subst hhead
  exact ⟨hpid, hmem⟩

theorem TraceReader.Loaded.records_pairwise (h : r.Loaded) (hx : x ∈ r.pidSeqEntryMap.items) :
    (records x.2).Pairwise fun a b => a.seq < b.seq := by
  have hsorted := sortBy_pairwise_lt x.2.nodup
  rw [h.sortBy_eq hx, List.pairwise_map] at hsorted
  exact hsorted

/-- A number is used by one record only. -/
theorem TraceReader.eq_of_seq {e e' : TraceEntry} (he : recordItem e ∈ r.seqEntryMap.items)
    (he' : recordItem e' ∈ r.seqEntryMap.items) (hseq : e.seq = e'.seq) : e = e' := by
  have h1 : r.seqEntryMap.get? e.seq = some e.getEntryList := Dict.get?_eq_some.mpr he
  have h2 : r.seqEntryMap.get? e.seq = some e'.getEntryList := hseq ▸ Dict.get?_eq_some.mpr he'
  have hlist : e.getEntryList = e'.getEntryList := Option.some.inj (h1.symm.trans h2)
  have hhead := congrArg List.head? hlist
  rw [e.head?_getEntryList, e'.head?_getEntryList] at hhead
  exact Option.some.inj hhead

theorem TraceReader.Loaded.processes (h : r.Loaded) (hm : r.matchFunctions = true) :
    Processes r.processes := by
  have hother : r.processes.Pairwise fun a b => ∀ e ∈ a, ∀ e' ∈ b, e.pid ≠ e'.pid := by
    rw [TraceReader.processes, List.pairwise_map]
    have hkeys : r.pidSeqEntryMap.items.Pairwise fun x y => x.1 ≠ y.1 :=
      List.pairwise_map.mp r.pidSeqEntryMap.nodup
    refine hkeys.imp_of_mem fun {x y} hx hy hne e he e' he' => ?_
    rw [(h.of_mem_records hx he).1, (h.of_mem_records hy he').1]
    exact hne
  refine ⟨fun recs hr => ?_, fun recs hr => ?_, ?_, fun recs hr e he e' he' => ?_, hother⟩
  · obtain ⟨x, hx, rfl⟩ := List.mem_map.mp hr
    exact List.all_eq_true.mp hm x hx
  · obtain ⟨x, hx, rfl⟩ := List.mem_map.mp hr
    exact h.records_pairwise hx
  · rw [List.map_flatten, List.nodup_flatten]
    constructor
    · intro l hl
      obtain ⟨recs, hr, rfl⟩ := List.mem_map.mp hl
      obtain ⟨x, hx, rfl⟩ := List.mem_map.mp hr
      exact List.pairwise_map.mpr ((h.records_pairwise hx).imp fun hlt => ne_of_lt hlt)
    · rw [List.pairwise_map]
      refine hother.imp_of_mem fun {a b} ha hb hab => ?_
      obtain ⟨x, hx, rfl⟩ := List.mem_map.mp ha
      obtain ⟨y, hy, rfl⟩ := List.mem_map.mp hb
      intro k hk hk'
      obtain ⟨e, he, rfl⟩ := List.mem_map.mp hk
      obtain ⟨e', he', hseq⟩ := List.mem_map.mp hk'
      have heq := eq_of_seq (h.of_mem_records hy he').2 (h.of_mem_records hx he).2 hseq
      exact hab e he e' he' (congrArg TraceEntry.pid heq).symm
  · obtain ⟨x, hx, rfl⟩ := List.mem_map.mp hr
    rw [(h.of_mem_records hx he).1, (h.of_mem_records hx he').1]

theorem TraceReader.Loaded.recordsOf_eq (h : r.Loaded) (hx : x ∈ r.pidSeqEntryMap.items)
    {e : TraceEntry} (he : e ∈ records x.2) : r.recordsOf e.pid = records x.2 := by
  have hget : r.pidSeqEntryMap.get? e.pid = some x.2 := by
    rw [(h.of_mem_records hx he).1]
    exact Dict.get?_eq_some.mpr hx
  rw [TraceReader.recordsOf, hget, Option.getD_some]

end

/-! ## The splitter and its closings -/

section

variable {r : TraceReader} {vfsOpInfo : String → Bool}

/-- The entry that is open has the records from its start on. -/
def IsOpen (pid : Int) (seen : List TraceEntry) : Option OpTraceEntry → Option TraceEntry → Prop
  | none, none => True
  | some op, some s => op.pid = pid ∧ op.startFnEntry = s ∧ op.opName = s.fnName ∧ s.pid = pid ∧
      s ∈ seen ∧ op.seqEntryMap.items = (seen.filter fun e => s.seq ≤ e.seq).map recordItem
  | _, _ => False

/-- Adding the next record of the process. -/
theorem addEntryList_next {pid : Int} {seen : List TraceEntry} (op : OpTraceEntry) (s : TraceEntry)
    {e : TraceEntry}
    (hpid : op.pid = pid) (hitems : op.seqEntryMap.items =
      (seen.filter fun e => s.seq ≤ e.seq).map recordItem) (hs : s.seq ≤ e.seq)
    (he : e.pid = pid) (hlast : ∀ x ∈ seen, x.seq < e.seq) :
    ∃ op', op.addEntryList e.getEntryList true = some op' ∧ op'.pid = op.pid ∧
      op'.startFnEntry = op.startFnEntry ∧ op'.opName = op.opName ∧
      op'.endFnEntry = op.endFnEntry ∧
      op'.seqEntryMap.items = ((seen ++ [e]).filter fun e => s.seq ≤ e.seq).map recordItem := by
  have hfresh : e.seq ∉ op.seqEntryMap.keys := by
    rw [Dict.keys, hitems]
    intro hmem
    obtain ⟨y, hy, hseq⟩ := List.mem_map.mp hmem
    obtain ⟨x, hx, rfl⟩ := List.mem_map.mp hy
    have hlt := hlast x (List.mem_filter.mp hx).1
    rw [← hseq] at hlt
    exact absurd hlt (lt_irrefl _)
  have hadd := OpTraceEntry.addEntryList_getEntryList op e true
  rw [if_neg (not_not.mpr (hpid.trans he.symm)), if_neg hfresh] at hadd
  refine ⟨_, hadd, rfl, rfl, rfl, rfl, ?_⟩
  show (op.seqEntryMap.set e.seq e.getEntryList).items = _
  rw [Dict.items_set_of_notMem hfresh, hitems, List.filter_append, List.map_append,
    List.filter_cons_of_pos (by simpa using hs)]
  rfl

theorem filter_between {seen rest : List TraceEntry} {s e : TraceEntry}
    (hlast : ∀ x ∈ seen, x.seq < e.seq) (hnext : ∀ x ∈ rest, e.seq < x.seq) :
    (seen ++ e :: rest).filter (fun x => s.seq ≤ x.seq ∧ x.seq ≤ e.seq) =
      (seen ++ [e]).filter fun x => s.seq ≤ x.seq := by
  have hrest : rest.filter (fun x => s.seq ≤ x.seq ∧ x.seq ≤ e.seq) = [] := by
    refine List.filter_eq_nil_iff.mpr fun x hx => ?_
    have := hnext x hx
    simp only [decide_eq_true_eq]
    omega
  have hsplit : seen ++ e :: rest = (seen ++ [e]) ++ rest := by simp
  rw [hsplit, List.filter_append, hrest, List.append_nil]
  refine List.filter_congr fun x hx => ?_
  have hle : x.seq ≤ e.seq := by
    rcases List.mem_append.mp hx with hx | hx
    · exact le_of_lt (hlast x hx)
    · rw [List.mem_singleton.mp hx]
  simp [hle]

variable (vfsOpInfo) in
/-- The splitter has gone on to a state in which an entry is open as in the closings, and has filed
the spans of what is closed. -/
def SplitsNext (pid : Int) (seen rest : List TraceEntry) (e : TraceEntry) (st : SplitOpMgr.State)
    (open? : Option TraceEntry) (outcome : Option SplitOpMgr.State) : Prop :=
  ∃ st₁ open₁ out, outcome = some st₁ ∧ IsOpen pid (seen ++ [e]) st₁.opEntry open₁ ∧
    st₁.opEntryList.map OpTraceEntry.span =
      st.opEntryList.map OpTraceEntry.span ++ out.map (spanOf (seen ++ e :: rest)) ∧
    closings vfsOpInfo st.firstMount open? (e :: rest) =
      (out ++ (closings vfsOpInfo st₁.firstMount open₁ rest).1,
        (closings vfsOpInfo st₁.firstMount open₁ rest).2)

section

variable {pid : Int} {seen rest : List TraceEntry} {e : TraceEntry} {st : SplitOpMgr.State}

theorem splitsNext_opened (hlast : ∀ x ∈ seen, x.seq < e.seq) (he : e.pid = pid)
    (hisOp : isOp vfsOpInfo e = true) :
    SplitsNext vfsOpInfo pid seen rest e st none
      (((OpTraceEntry.new e e.fnName r.pmAddr r.pmSize pid).addEntryList e.getEntryList true).bind
        fun op => some { st with opEntry := some op }) := by
  obtain ⟨op', hadd, hp, hs, hn, -, hitems⟩ := addEntryList_next
    (OpTraceEntry.new e e.fnName r.pmAddr r.pmSize pid) e rfl (by
      rw [List.filter_eq_nil_iff.mpr fun x hx => by simpa using hlast x hx]
      rfl) (le_refl _) he hlast
  rw [hadd, Option.bind_some]
  refine ⟨_, some e, [], rfl, ⟨hp, hs, hn, he,
    List.mem_append_right _ (List.mem_singleton_self _), hitems⟩, (List.append_nil _).symm, ?_⟩
  rw [closings, if_pos hisOp]
  rfl

variable {op : OpTraceEntry} (hlast : ∀ x ∈ seen, x.seq < e.seq) (he : e.pid = pid)
  (hopen : IsOpen pid seen (some op) (some op.startFnEntry))
include hlast he hopen

theorem splitsNext_added (hpair : ¬ op.startFnEntry.isPairFuncEntry e = true) :
    SplitsNext vfsOpInfo pid seen rest e st (some op.startFnEntry)
      ((op.addEntryList e.getEntryList true).bind fun op => some { st with opEntry := some op }) := by
  obtain ⟨hp, -, hn, hspid, hmem, hitems⟩ := hopen
  obtain ⟨op', hadd, hp', hs', hn', -, hitems'⟩ := addEntryList_next op _ hp hitems
    (le_of_lt (hlast _ hmem)) he hlast
  rw [hadd, Option.bind_some]
  refine ⟨_, some op.startFnEntry, [], rfl, ⟨hp'.trans hp, hs', hn'.trans hn, hspid,
    List.mem_append_left _ hmem, hitems'⟩, (List.append_nil _).symm, ?_⟩
  rw [closings, if_neg hpair]
  rfl

/-- The end of the open operation, or what looks like it. -/
theorem splitsNext_ended (hnext : ∀ x ∈ rest, e.seq < x.seq)
    (hpair : op.startFnEntry.isPairFuncEntry e = true) :
    SplitsNext vfsOpInfo pid seen rest e st (some op.startFnEntry)
      ((OpTraceEntry.addEntryList { op with endFnEntry := some e } e.getEntryList true).bind fun op =>
        if st.firstMount && occursIn "fill_super" op.finalize.opName then
          some { st with firstMount := false, opEntry := some op.finalize }
        else some { st with opEntry := none, opEntryList := st.opEntryList ++ [op.finalize] }) := by
  obtain ⟨hp, -, hn, hspid, hmem, hitems⟩ := hopen
  obtain ⟨op', hadd, hp', hs', hn', hend, hitems'⟩ := addEntryList_next
    { op with endFnEntry := some e } _ hp hitems (le_of_lt (hlast _ hmem)) he hlast
  have hname : op'.finalize.opName = op.startFnEntry.fnName := hn'.trans hn
  rw [hadd, Option.bind_some, hname]
  by_cases hmount : (st.firstMount && isMount op.startFnEntry) = true
  · obtain ⟨hfirst, hmount'⟩ := Bool.and_eq_true_iff.mp hmount
    refine ⟨{ st with firstMount := false, opEntry := some op'.finalize }, some op.startFnEntry, [],
      if_pos hmount, ⟨hp'.trans hp, hs', hname, hspid, List.mem_append_left _ hmem, hitems'⟩,
      (List.append_nil _).symm, ?_⟩
    rw [hfirst, closings_mount hpair hmount']
    rfl
  · have hfalse : (st.firstMount && isMount op.startFnEntry) = false := by simpa using hmount
    have hspan : op'.finalize.span = spanOf (seen ++ e :: rest) (op.startFnEntry, e) := by
      rw [spanOf, filter_between hlast hnext]
      show Span.mk op'.pid op'.startFnEntry op'.endFnEntry op'.opName op'.seqEntryMap.items = _
      rw [hitems', hend, hs', hp', hn']
      show Span.mk op.pid _ _ op.opName _ = _
      rw [hp, hn, hspid]
    refine ⟨{ st with opEntry := none, opEntryList := st.opEntryList ++ [op'.finalize] }, none,
      [(op.startFnEntry, e)], if_neg hmount, trivial, ?_, ?_⟩
    · rw [List.map_append, List.map_singleton, hspan]
      rfl
    · rw [closings_pair hpair hfalse]
      rfl

end

variable (r vfsOpInfo) in
/-- What the splitter does about the next record of a process: nothing, or it opens an operation,
adds to the open one or closes it. -/
theorem splitRecord_step {pid : Int} {seen rest : List TraceEntry} {e : TraceEntry}
    (hlast : ∀ x ∈ seen, x.seq < e.seq) (hnext : ∀ x ∈ rest, e.seq < x.seq) (he : e.pid = pid)
    (st : SplitOpMgr.State) (open? : Option TraceEntry) (hopen : IsOpen pid seen st.opEntry open?) :
    SplitsNext vfsOpInfo pid seen rest e st open?
      (SplitOpMgr.splitRecord r vfsOpInfo pid st (recordItem e).2) := by
  rw [SplitOpMgr.splitRecord, recordItem, e.head?_getEntryList]
  simp only [Option.bind_eq_bind, Option.bind_some, Option.pure_def]
  cases hop : st.opEntry with
  | none =>
    rw [hop] at hopen
    cases open? with
    | some s => exact absurd hopen id
    | none =>
      by_cases hisOp : isOp vfsOpInfo e = true
      · rw [if_pos (show (vfsOpInfo e.fnName && decide (e.type = .startFn)) = true from hisOp)]
        exact splitsNext_opened hlast he hisOp
      · rw [if_neg (show ¬ (vfsOpInfo e.fnName && decide (e.type = .startFn)) = true from hisOp)]
        refine ⟨st, none, [], rfl, ?_, (List.append_nil _).symm, ?_⟩
        · rw [hop]
          trivial
        · rw [closings, if_neg hisOp]
          rfl
  | some op =>
    rw [hop] at hopen
    cases open? with
    | none => exact absurd hopen id
    | some s =>
      obtain rfl : op.startFnEntry = s := hopen.2.1
      dsimp only
      by_cases hpair : op.startFnEntry.isPairFuncEntry e = true
      · rw [if_pos hpair]
        exact splitsNext_ended hlast he hopen hnext hpair
      · rw [if_neg hpair]
        exact splitsNext_added hlast he hopen hpair

variable (r vfsOpInfo) in
/-- The splitter over the rest of a process. -/
theorem splitRecords_eq {pid : Int} (seen : List TraceEntry) {rest : List TraceEntry}
    (hsorted : (seen ++ rest).Pairwise fun a b => a.seq < b.seq) (hpid : ∀ e ∈ rest, e.pid = pid)
    (st : SplitOpMgr.State) (open? : Option TraceEntry) (hopen : IsOpen pid seen st.opEntry open?) :
    ∃ st', (rest.map recordItem).foldlM
        (fun st y => SplitOpMgr.splitRecord r vfsOpInfo pid st y.2) st = some st' ∧
      st'.firstMount = (closings vfsOpInfo st.firstMount open? rest).2 ∧
      st'.opEntryList.map OpTraceEntry.span = st.opEntryList.map OpTraceEntry.span ++
        (closings vfsOpInfo st.firstMount open? rest).1.map (spanOf (seen ++ rest)) := by
  induction rest generalizing seen st open? with
  | nil => exact ⟨st, rfl, rfl, (List.append_nil _).symm⟩
  | cons e rest ih =>
    have hlast : ∀ x ∈ seen, x.seq < e.seq :=
      fun x hx => (List.pairwise_append.mp hsorted).2.2 x hx e List.mem_cons_self
    have hnext : ∀ x ∈ rest, e.seq < x.seq :=
      (List.pairwise_cons.mp (List.pairwise_append.mp hsorted).2.1).1
    have he : e.pid = pid := hpid e List.mem_cons_self
    have hassoc : seen ++ e :: rest = (seen ++ [e]) ++ rest := by simp
    have hrest := fun st open? => ih (seen ++ [e]) (hassoc ▸ hsorted)
      (fun x hx => hpid x (List.mem_cons_of_mem _ hx)) st open?
    rw [← hassoc] at hrest
    -- one record, then the rest
    obtain ⟨st₁, open₁, out, hst₁, hopen₁, hlist, hclose⟩ :=
      splitRecord_step r vfsOpInfo hlast hnext he st open? hopen
    obtain ⟨st', hfold, hfirst, hlist'⟩ := hrest st₁ open₁ hopen₁
    refine ⟨st', ?_, ?_, ?_⟩
    · rw [List.map_cons, List.foldlM_cons, hst₁]
      exact hfold
    · rw [hfirst, hclose]
    · rw [hlist', hlist, hclose, List.map_append, List.append_assoc]

theorem fst_mem_closings {first : Bool} {open? : Option TraceEntry} {rest : List TraceEntry}
    {p : TraceEntry × TraceEntry} (h : p ∈ (closings vfsOpInfo first open? rest).1) :
    open? = some p.1 ∨ p.1 ∈ rest := by
  induction rest generalizing first open? with
  | nil =>
    rw [closings] at h
    exact absurd h List.not_mem_nil
  | cons e rest ih =>
    cases open? with
    | none =>
      rw [closings] at h
      rcases ih h with hs | hs
      · split_ifs at hs
        exact Or.inr (Option.some.inj hs ▸ List.mem_cons_self)
      · exact Or.inr (List.mem_cons_of_mem _ hs)
    | some s =>
      rw [closings] at h
      split_ifs at h
      · exact (ih h).imp_right (List.mem_cons_of_mem _)
      · rcases List.mem_cons.mp h with rfl | h
        · exact Or.inl rfl
        · rcases ih h with hs | hs
          · cases hs
          · exact Or.inr (List.mem_cons_of_mem _ hs)
      · exact (ih h).imp_right (List.mem_cons_of_mem _)

variable (vfsOpInfo) in
theorem splitProcess_eq (hl : r.Loaded) {x : Int × Dict Int (List TraceEntry)}
    (hx : x ∈ r.pidSeqEntryMap.items) (st : SplitOpMgr.State) :
    ∃ st', SplitOpMgr.splitProcess r vfsOpInfo st x = some st' ∧
      st'.firstMount = (closings vfsOpInfo st.firstMount none (records x.2)).2 ∧
      st'.opEntryList.map OpTraceEntry.span = st.opEntryList.map OpTraceEntry.span ++
        (closings vfsOpInfo st.firstMount none (records x.2)).1.map
          fun p => spanOf (r.recordsOf p.1.pid) p := by
  have hsorted : ([] ++ records x.2).Pairwise fun a b : TraceEntry => a.seq < b.seq :=
    hl.records_pairwise hx
  obtain ⟨st', hfold, hfirst, hlist⟩ := splitRecords_eq r vfsOpInfo [] hsorted
    (fun e he => (hl.of_mem_records hx he).1) { st with opEntry := none } none trivial
  refine ⟨st', ?_, hfirst, ?_⟩
  · rw [SplitOpMgr.splitProcess, hl.sortBy_eq hx]
    exact hfold
  · rw [hlist]
    refine congrArg _ (List.map_congr_left fun p hp => ?_)
    have hmem : p.1 ∈ records x.2 := (fst_mem_closings hp).resolve_left (by simp)
    rw [List.nil_append, hl.recordsOf_eq hx hmem]

variable (vfsOpInfo) in
theorem splitProcesses_eq (hl : r.Loaded) {xs : List (Int × Dict Int (List TraceEntry))}
    (hxs : ∀ x ∈ xs, x ∈ r.pidSeqEntryMap.items) (st : SplitOpMgr.State) :
    ∃ st', xs.foldlM (SplitOpMgr.splitProcess r vfsOpInfo) st = some st' ∧
      st'.opEntryList.map OpTraceEntry.span = st.opEntryList.map OpTraceEntry.span ++
        (closingsAll vfsOpInfo st.firstMount (xs.map fun x => records x.2)).1.map
          fun p => spanOf (r.recordsOf p.1.pid) p := by
  induction xs generalizing st with
  | nil => exact ⟨st, rfl, (List.append_nil _).symm⟩
  | cons x xs ih =>
    obtain ⟨st₁, hst₁, hfirst, hlist₁⟩ := splitProcess_eq vfsOpInfo hl
      (hxs x List.mem_cons_self) st
    obtain ⟨st', hst', hlist'⟩ := ih (fun y hy => hxs y (List.mem_cons_of_mem _ hy)) st₁
    refine ⟨st', ?_, ?_⟩
    · rw [List.foldlM_cons, hst₁]
      exact hst'
    · rw [hlist', hlist₁, List.map_cons, closingsAll, List.map_append, List.append_assoc, hfirst]

variable (vfsOpInfo) in
/-- The splitter never fails on a trace that was loaded. -/
theorem splitTrace_spans (hl : r.Loaded) :
    ∃ ops, SplitOpMgr.splitTrace r vfsOpInfo = some ops ∧
      ops.map OpTraceEntry.span ~ (closingsAll vfsOpInfo true r.processes).1.map
        fun p => spanOf (r.recordsOf p.1.pid) p := by
  obtain ⟨st', hst', hlist⟩ := splitProcesses_eq vfsOpInfo hl (fun x hx => hx)
    ⟨true, none, []⟩
  refine ⟨sortBy OpTraceEntry.minSeq st'.opEntryList, ?_, ?_⟩
  · rw [SplitOpMgr.splitTrace, hst', Option.map_some]
  · refine ((sortBy_perm OpTraceEntry.minSeq st'.opEntryList).map _).trans ?_
    rw [hlist]
    exact List.Perm.refl _

/-! ## No record is in two operations -/

/-- In one process an operation starts behind the end of the one before. -/
theorem ends_pairwise {stack rest : List TraceEntry} (hn : Nested stack rest)
    (hsorted : rest.Pairwise fun a b => a.seq < b.seq) :
    (along (endAt vfsOpInfo) stack rest).Pairwise fun p q => p.2.seq < q.1.seq := by
  induction rest generalizing stack with
  | nil => exact List.Pairwise.nil
  | cons e rest ih =>
    obtain ⟨hm, hn'⟩ := hn.head
    obtain ⟨hlt, hsorted'⟩ := List.pairwise_cons.mp hsorted
    rw [along]
    cases hend : endAt vfsOpInfo stack e with
    | none => exact ih hn' hsorted'
    | some p =>
      refine List.pairwise_cons.mpr ⟨fun q hq => ?_, ih hn' hsorted'⟩
      obtain ⟨-, -, rfl, -⟩ := of_endAt hend
      obtain ⟨hmem, hop⟩ := fst_mem_of_ends hn' hq
      rcases hmem with hmem | hmem
      · -- behind the end of an outermost operation none is on the stack
        have hmem' := List.mem_filter.mpr ⟨hmem, hop⟩
        rw [List.getLast?_eq_none_iff.mp (outermostOp_end hm hend).2.2] at hmem'
        exact absurd hmem' List.not_mem_nil
      · exact hlt q.1 hmem

/-- The numbers of the records in a span. -/
theorem mem_keys_spanOf {recs : List TraceEntry} {p : TraceEntry × TraceEntry} {k : Int} :
    k ∈ (spanOf recs p).items.map Prod.fst ↔
      ∃ e ∈ recs, e.seq = k ∧ p.1.seq ≤ k ∧ k ≤ p.2.seq := by
  rw [spanOf, List.map_map, List.mem_map]
  constructor
  · rintro ⟨e, he, rfl⟩
    obtain ⟨hmem, hle⟩ := List.mem_filter.mp he
    exact ⟨e, hmem, rfl, of_decide_eq_true hle⟩
  · rintro ⟨e, he, rfl, hle⟩
    exact ⟨e, List.mem_filter.mpr ⟨he, decide_eq_true hle⟩, rfl⟩

/-- Spans that have no record in common. -/
def Span.Apart (a b : Span) : Prop := ∀ k ∈ a.items.map Prod.fst, k ∉ b.items.map Prod.fst

variable (vfsOpInfo) in
theorem spans_apart (hl : r.Loaded) (hm : r.matchFunctions = true) :
    ((outermostEnds vfsOpInfo r.processes).map fun p => spanOf (r.recordsOf p.1.pid) p).Pairwise
      Span.Apart := by
  have hprocs := hl.processes hm
  have hrecs : ∀ {recs}, recs ∈ r.processes → ∀ {p}, p ∈ along (endAt vfsOpInfo) [] recs →
      r.recordsOf p.1.pid = recs := by
    intro recs hr p hp
    have hfst := hprocs.fst_mem hr hp
    obtain ⟨x, hx, rfl⟩ := List.mem_map.mp hr
    exact hl.recordsOf_eq hx hfst
  rw [List.pairwise_map, outermostEnds, List.pairwise_flatMap]
  constructor
  · intro recs hr
    refine (ends_pairwise (hprocs.nested recs hr) (hprocs.sorted recs hr)).imp ?_
    intro p q hlt k hk hk'
    obtain ⟨-, -, -, -, hp⟩ := mem_keys_spanOf.mp hk
    obtain ⟨-, -, -, hq, -⟩ := mem_keys_spanOf.mp hk'
    omega
  · refine hprocs.otherPid.imp_of_mem fun {a b} ha hb hab p hp q hq k hk hk' => ?_
    rw [hrecs ha hp] at hk
    rw [hrecs hb hq] at hk'
    obtain ⟨e, he, hseq, -⟩ := mem_keys_spanOf.mp hk
    obtain ⟨e', he', hseq', -⟩ := mem_keys_spanOf.mp hk'
    obtain ⟨x, hx, rfl⟩ := List.mem_map.mp ha
    obtain ⟨y, hy, rfl⟩ := List.mem_map.mp hb
    have heq := eq_of_seq (hl.of_mem_records hx he).2 (hl.of_mem_records hy he').2
      (hseq.trans hseq'.symm)
    exact hab e he e' he' (congrArg TraceEntry.pid heq)

end

/-- Splitting is exact exactly on the traces that split cleanly. -/
theorem splitsExactly_iff {vfsOpInfo : String → Bool} {lines : List TraceEntry} {r : TraceReader}
    (h : TraceReader.read lines = some r) :
    SplitsExactly vfsOpInfo r ↔ SplitsCleanly vfsOpInfo r.processes := by
  obtain ⟨hload, hm⟩ := Option.filter_eq_some_iff.mp h
  have hl := loaded_of_load hload
  have hinj : Function.Injective fun p : TraceEntry × TraceEntry =>
      spanOf (r.recordsOf p.1.pid) p := by
    intro p q hpq
    refine Prod.ext (congrArg Span.start hpq) ?_
    exact Option.some.inj (congrArg Span.stop hpq)
  obtain ⟨ops, hops, hspans⟩ := splitTrace_spans vfsOpInfo hl
  rw [← closingsAll_perm_iff (hl.processes hm), ← List.map_perm_map_iff hinj]
  constructor
  · rintro ⟨ops', hops', hperm, -⟩
    obtain rfl : ops = ops' := Option.some.inj (hops.symm.trans hops')
    exact hspans.symm.trans hperm
  · intro hperm
    refine ⟨ops, hops, hspans.trans hperm, ?_⟩
    have hsymm : ∀ {a b : Span}, a.Apart b → b.Apart a :=
      fun hab k hk hk' => hab k hk' hk
    have hsub : listedEnds (outermostEnds vfsOpInfo r.processes) <+
        outermostEnds vfsOpInfo r.processes := List.filter_sublist
    have hlisted := (spans_apart vfsOpInfo hl hm).sublist (hsub.map _)
    have hapart := (hspans.trans hperm).symm.pairwise hlisted hsymm
    exact List.pairwise_map.mp hapart

/-- A record of a function at an address of its own. -/
def fnRecord (type : TraceType) (seq pid : Int) (fnName : String) : TraceEntry :=
  { TraceEntry.plain type seq fnName.length 0 with pid := pid, fnName := fnName }

def fsOps (name : String) : Bool := name ∈ ["fill_super", "write", "fsync"]

/-- A mount, and a write with a nested operation in another process. -/
def twoProcesses : List TraceEntry :=
  [.plain .daxDevInfo 0 0x8000000000000000 64, fnRecord .startFn 1 0 "fill_super",
    fnRecord .startFn 2 1 "write", fnRecord .endFn 3 0 "fill_super", fnRecord .startFn 4 1 "fsync",
    fnRecord .endFn 5 1 "fsync", fnRecord .endFn 6 1 "write"]

def twoProcessesReader : TraceReader := (TraceReader.read twoProcesses).get (by decide +kernel)

theorem splitsExactly_twoProcesses :
    TraceReader.read twoProcesses = some twoProcessesReader ∧
      SplitsExactly fsOps twoProcessesReader := by
  have hread : TraceReader.read twoProcesses = some twoProcessesReader := (Option.some_get _).symm
  refine ⟨hread, (splitsExactly_iff hread).mpr (Or.inr ⟨[],
    (fnRecord .startFn 1 0 "fill_super", fnRecord .endFn 3 0 "fill_super"),
    [(fnRecord .startFn 2 1 "write", fnRecord .endFn 6 1 "write")], ?_⟩)⟩
  exact ⟨by decide +kernel, by decide +kernel, by decide +kernel, by decide +kernel,
    by decide +kernel, by decide +kernel, by decide +kernel⟩

/-- A mount and a write in one process. -/
def mountThenWrite : List TraceEntry :=
  [.plain .daxDevInfo 0 0x8000000000000000 64, fnRecord .startFn 1 0 "fill_super",
    fnRecord .endFn 2 0 "fill_super", fnRecord .startFn 3 0 "write", fnRecord .endFn 4 0 "write"]

def mountThenWriteReader : TraceReader := (TraceReader.read mountThenWrite).get (by decide +kernel)

/-- The write is not listed: its records go to the mount, which is still open. -/
theorem write_behind_mount_lost :
    TraceReader.read mountThenWrite = some mountThenWriteReader ∧
      (SplitOpMgr.splitTrace mountThenWriteReader fsOps).map List.length = some 0 ∧
      (fnRecord .startFn 3 0 "write", fnRecord .endFn 4 0 "write") ∈
        listedEnds (outermostEnds fsOps mountThenWriteReader.processes) ∧
      ¬ SplitsExactly fsOps mountThenWriteReader := by
  have hnone : (SplitOpMgr.splitTrace mountThenWriteReader fsOps).map List.length = some 0 := by
    decide +kernel
  have hlisted : (fnRecord .startFn 3 0 "write", fnRecord .endFn 4 0 "write") ∈
      listedEnds (outermostEnds fsOps mountThenWriteReader.processes) := by
    decide +kernel
  refine ⟨(Option.some_get _).symm, hnone, hlisted, ?_⟩
  rintro ⟨ops, hops, hperm, -⟩
  rw [hops, Option.map_some, Option.some.injEq] at hnone
  have hlen := hperm.length_eq
  rw [List.length_map, List.length_map, hnone] at hlen
  rw [List.length_eq_zero_iff.mp hlen.symm] at hlisted
  exact absurd hlisted List.not_mem_nil

end Trace
end Silhouette
