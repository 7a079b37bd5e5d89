import Silhouette.Trace.Entry
import Silhouette.Lib.Dict

/-!
# The trace of one operation

`OpTraceEntry` of `vfs_op_trace_entry.py` as the trace splitter fills it: records are
added one after the other and `finalize` lists the sequence numbers of those in
persistent memory.  `WellFormed` is what filling it guarantees, and `OpTrace` is an
entry together with that guarantee.
-/

namespace Silhouette
namespace Trace

open Lib

/-- One operation range, with all its records. -/
structure OpTraceEntry where
  startFnEntry : TraceEntry
  endFnEntry : Option TraceEntry
  opName : String
  pmAddr : Int
  pmSize : Int
  pid : Int
  minSeq : Int
  maxSeq : Int
  seqEntryMap : Dict Int (List TraceEntry)
  pmSeqEntryMap : Dict Int (List TraceEntry)
  pmSortedSeq : List Int
  pmSortedStoreSeq : List Int
  pmOpId : List Int

namespace OpTraceEntry

def new (startFnEntry : TraceEntry) (opName : String) (pmAddr pmSize pid : Int) : OpTraceEntry :=
  ⟨startFnEntry, none, opName, pmAddr, pmSize, pid, maxSize, -1, Dict.empty, Dict.empty, [], [],
    []⟩

/-- A record of another process, or a sequence number used before, is refused. -/
def addEntryList (op : OpTraceEntry) (entryList : List TraceEntry) (addToPm : Bool) :
    Option OpTraceEntry :=
  match entryList with
  | [] => none
  | entry :: _ =>
    if op.pid ≠ entry.pid then none
    else if entry.seq ∈ op.seqEntryMap.keys then none
    else some { op with
      minSeq := min op.minSeq entry.seq
      maxSeq := max op.maxSeq entry.seq
      seqEntryMap := op.seqEntryMap.set entry.seq entryList
      pmSeqEntryMap :=
        if addToPm && isPmEntry entry op.pmAddr op.pmSize then
          op.pmSeqEntryMap.set entry.seq entryList
        else op.pmSeqEntryMap }

/-- The records in persistent memory in sequence order, each with its list of entries. -/
def pmSortedItems (op : OpTraceEntry) : List (Int × List TraceEntry) :=
  sortBy Prod.fst op.pmSeqEntryMap.items

/-- The store list is extended and not rebuilt. -/
def finalize (op : OpTraceEntry) : OpTraceEntry :=
  { op with
    pmSortedSeq := op.pmSortedItems.map Prod.fst
    pmOpId := op.pmSortedItems.filterMap fun x => x.2.head?.map TraceEntry.instid
    pmSortedStoreSeq := op.pmSortedStoreSeq ++
      (op.pmSortedItems.filterMap fun x => x.2.head?.filter fun e => e.type.isStoreSeries).map
        TraceEntry.seq }

/-- The entries in persistent memory that lie inside an address range. -/
def getPmOpsByAddrRange (op : OpTraceEntry) (addr1 addr2 : Int) : List TraceEntry :=
  op.pmSeqEntryMap.values.flatten.filter fun e => addr1 ≤ e.addr ∧ e.addr + e.size ≤ addr2

/-- The entries in persistent memory in sequence order. -/
def pmEntries (op : OpTraceEntry) : List TraceEntry := op.pmSortedItems.flatMap Prod.snd

/-- The fences of the operation in sequence order. -/
def fenceEntries (op : OpTraceEntry) : List TraceEntry :=
  op.pmEntries.filter fun e => e.type.isFenceTy

/-- The store records in persistent memory. -/
def IsPmStore (op : OpTraceEntry) (e : TraceEntry) : Prop :=
  e.type.isStoreSeries = true ∧ (e.seq, e.getEntryList) ∈ op.pmSeqEntryMap.items

instance (op : OpTraceEntry) (e : TraceEntry) : Decidable (op.IsPmStore e) :=
  inferInstanceAs (Decidable (_ ∧ _))

/-- What filling an entry guarantees: every item is what a record of the trace was
normalised to, and the store list has the stores among them. -/
structure WellFormed (op : OpTraceEntry) : Prop where
  item : ∀ x ∈ op.pmSeqEntryMap.items, ∃ e : TraceEntry,
    x = (e.seq, e.getEntryList) ∧ e.pid = op.pid ∧ isPmEntry e op.pmAddr op.pmSize = true
  sortedSeq : op.pmSortedSeq = op.pmSortedItems.map Prod.fst
  mem_storeSeq : ∀ s, s ∈ op.pmSortedStoreSeq ↔ ∃ e, op.IsPmStore e ∧ e.seq = s

/-- Add one record after the other. -/
def addAll (op : OpTraceEntry) (records : List TraceEntry) : Option OpTraceEntry :=
  records.foldlM (fun op e => op.addEntryList e.getEntryList true) op

/-- An entry as the splitter leaves it behind the records of one operation. -/
def build (startFnEntry : TraceEntry) (opName : String) (pmAddr pmSize pid : Int)
    (records : List TraceEntry) : Option OpTraceEntry :=
  ((new startFnEntry opName pmAddr pmSize pid).addAll records).map finalize

/-! ## Filling an entry -/

/-- Between two calls of `finalize` the store list may lag behind. -/
structure Filled (op : OpTraceEntry) : Prop where
  item : ∀ x ∈ op.pmSeqEntryMap.items, ∃ e : TraceEntry,
    x = (e.seq, e.getEntryList) ∧ e.pid = op.pid ∧ isPmEntry e op.pmAddr op.pmSize = true
  keys : ∀ k ∈ op.pmSeqEntryMap.keys, k ∈ op.seqEntryMap.keys
  storeSeq : ∀ s ∈ op.pmSortedStoreSeq, ∃ e, op.IsPmStore e ∧ e.seq = s

theorem filled_new (startFnEntry : TraceEntry) (opName : String) (pmAddr pmSize pid : Int) :
    (new startFnEntry opName pmAddr pmSize pid).Filled where
  item := fun _ hx => absurd hx List.not_mem_nil
  keys := fun _ hk => absurd hk List.not_mem_nil
  storeSeq := fun _ hs => absurd hs List.not_mem_nil

theorem mem_items_set {d : Dict Int (List TraceEntry)} {k : Int} {l : List TraceEntry}
    {x : Int × List TraceEntry} :
    x ∈ (d.set k l).items ↔ x = (k, l) ∨ x.1 ≠ k ∧ x ∈ d.items := by
  obtain ⟨k', l'⟩ := x
  rw [← Dict.get?_eq_some, ← Dict.get?_eq_some, Dict.get?_set]
  by_cases hk : k' = k
  · simp [hk, eq_comm]
  · simp [hk]

/-- Adding a normalised record looks at the record itself. -/
theorem addEntryList_getEntryList (op : OpTraceEntry) (e : TraceEntry) (addToPm : Bool) :
    op.addEntryList e.getEntryList addToPm =
      if op.pid ≠ e.pid then none
      else if e.seq ∈ op.seqEntryMap.keys then none
      else some { op with
        minSeq := min op.minSeq e.seq
        maxSeq := max op.maxSeq e.seq
        seqEntryMap := op.seqEntryMap.set e.seq e.getEntryList
        pmSeqEntryMap :=
          if addToPm && isPmEntry e op.pmAddr op.pmSize then
            op.pmSeqEntryMap.set e.seq e.getEntryList
          else op.pmSeqEntryMap } := by
  have hhead := e.head?_getEntryList
  cases hl : e.getEntryList with
  | nil =>
    rw [hl] at hhead
    simp at hhead
  | cons entry rest =>
    rw [hl, List.head?_cons, Option.some.injEq] at hhead
    subst hhead
    rfl

theorem Filled.addEntryList {op op' : OpTraceEntry} (h : op.Filled) {e : TraceEntry}
    (ha : op.addEntryList e.getEntryList true = some op') : op'.Filled := by
  rw [addEntryList_getEntryList] at ha
  by_cases hpid : op.pid = e.pid
  · by_cases hseq : e.seq ∈ op.seqEntryMap.keys
    · simp [hpid, hseq] at ha
    · simp only [hpid, ne_eq, not_true, if_false, hseq, Option.some.injEq] at ha
      subst ha
      have hfresh : ∀ x ∈ op.pmSeqEntryMap.items, x.1 ≠ e.seq :=
        fun x hx hk => hseq (hk ▸ h.keys x.1 (List.mem_map_of_mem hx))
      have hkeys : ∀ k, k ∈ (op.seqEntryMap.set e.seq e.getEntryList).keys ↔
          k = e.seq ∨ k ∈ op.seqEntryMap.keys := by
        intro k
        rw [Dict.keys_set, if_neg hseq, List.mem_append, List.mem_singleton, or_comm]
      by_cases hpm : isPmEntry e op.pmAddr op.pmSize = true
      · simp only [hpm, Bool.and_self, if_true]
        exact {
          item := by
            intro x hx
            rcases mem_items_set.mp hx with rfl | ⟨-, hx⟩
            · exact ⟨e, rfl, rfl, hpm⟩
            · obtain ⟨e', he', hp, hq⟩ := h.item x hx
              exact ⟨e', he', hp.trans hpid, hq⟩
          keys := by
            intro k hk
            obtain ⟨x, hx, rfl⟩ := List.mem_map.mp hk
            rcases mem_items_set.mp hx with rfl | ⟨-, hx⟩
            · exact (hkeys _).mpr (Or.inl rfl)
            · exact (hkeys _).mpr (Or.inr (h.keys x.1 (List.mem_map_of_mem hx)))
          storeSeq := by
            intro s hs
            obtain ⟨e', ⟨hst, hmem⟩, rfl⟩ := h.storeSeq s hs
            exact ⟨e', ⟨hst, mem_items_set.mpr (Or.inr ⟨hfresh _ hmem, hmem⟩)⟩, rfl⟩ }
      · simp only [hpm, Bool.and_false, Bool.false_eq_true, if_false]
        exact {
          item := fun x hx => by
            obtain ⟨e', he', hp, hq⟩ := h.item x hx
            exact ⟨e', he', hp.trans hpid, hq⟩
          keys := fun k hk => (hkeys k).mpr (Or.inr (h.keys k hk))
          storeSeq := h.storeSeq }
  · simp [hpid] at ha

theorem Filled.addAll {op op' : OpTraceEntry} (h : op.Filled) {records : List TraceEntry}
    (ha : op.addAll records = some op') : op'.Filled := by
  induction records generalizing op with
  | nil => exact Option.some.inj ha ▸ h
  | cons e rest ih =>
    rw [OpTraceEntry.addAll, List.foldlM_cons] at ha
    obtain ⟨op₁, h₁, h₂⟩ := Option.bind_eq_some_iff.mp ha
    exact ih (h.addEntryList h₁) h₂

theorem Filled.finalize {op : OpTraceEntry} (h : op.Filled) : op.finalize.WellFormed where
  item := h.item
  sortedSeq := rfl
  mem_storeSeq := by
    intro s
    have hfirst : ∀ e : TraceEntry, (∃ x ∈ op.pmSortedItems,
        (x.2.head?.filter fun e => e.type.isStoreSeries) = some e) ↔ op.IsPmStore e := by
      intro e
      constructor
      · rintro ⟨x, hx, hf⟩
        obtain ⟨hhead, hst⟩ := Option.filter_eq_some_iff.mp hf
        obtain ⟨e', rfl, -⟩ := h.item x (mem_sortBy.mp hx)
        rw [e'.head?_getEntryList, Option.some.injEq] at hhead
        exact hhead ▸ ⟨hhead.symm ▸ hst, mem_sortBy.mp hx⟩
      · rintro ⟨hst, hmem⟩
        refine ⟨_, mem_sortBy.mpr hmem, ?_⟩
        rw [Option.filter_eq_some_iff, e.head?_getEntryList]
        exact ⟨rfl, hst⟩
    show s ∈ op.pmSortedStoreSeq ++ List.map TraceEntry.seq (List.filterMap _ _) ↔
      ∃ e, op.IsPmStore e ∧ e.seq = s
    simp only [List.mem_append, List.mem_map, List.mem_filterMap, hfirst]
    constructor
    · rintro (hs | hs)
      · exact h.storeSeq s hs
      · exact hs
    · exact Or.inr

/-- Every entry the splitter builds is well formed. -/
theorem wellFormed_build {startFnEntry : TraceEntry} {opName : String} {pmAddr pmSize pid : Int}
    {records : List TraceEntry} {op : OpTraceEntry}
    (h : build startFnEntry opName pmAddr pmSize pid records = some op) : op.WellFormed := by
  obtain ⟨op', hop', rfl⟩ := Option.map_eq_some_iff.mp h
  exact ((filled_new startFnEntry opName pmAddr pmSize pid).addAll hop').finalize

/-- The smallest sequence number is not above any that was added. -/
theorem minSeq_le_of_addAll {op op' : OpTraceEntry} {records : List TraceEntry}
    (h : ∀ x ∈ op.seqEntryMap.keys, op.minSeq ≤ x) (ha : op.addAll records = some op') :
    ∀ x ∈ op'.seqEntryMap.keys, op'.minSeq ≤ x := by
  refine foldlM_invariant (P := fun op : OpTraceEntry => ∀ x ∈ op.seqEntryMap.keys, op.minSeq ≤ x)
    (fun op e op' hop hadd => ?_) h ha
  rw [addEntryList_getEntryList] at hadd
  by_cases hpid : op.pid ≠ e.pid
  · rw [if_pos hpid] at hadd
    cases hadd
  · by_cases hseq : e.seq ∈ op.seqEntryMap.keys
    · rw [if_neg hpid, if_pos hseq] at hadd
      cases hadd
    · rw [if_neg hpid, if_neg hseq] at hadd
      rw [← Option.some.inj hadd]
      intro x hx
      rw [Dict.keys_set, if_neg hseq, List.mem_append, List.mem_singleton] at hx
      rcases hx with hx | rfl
      · exact (Int.min_le_left _ _).trans (hop x hx)
      · exact Int.min_le_right _ _

theorem minSeq_le_of_build {startFnEntry : TraceEntry} {opName : String} {pmAddr pmSize pid : Int}
    {records : List TraceEntry} {op : OpTraceEntry}
    (h : build startFnEntry opName pmAddr pmSize pid records = some op) {x : Int}
    (hx : x ∈ op.pmSortedStoreSeq) : op.minSeq ≤ x := by
  obtain ⟨e, he, rfl⟩ := ((wellFormed_build h).mem_storeSeq x).mp hx
  obtain ⟨op', hop', rfl⟩ := Option.map_eq_some_iff.mp h
  have hnew := filled_new startFnEntry opName pmAddr pmSize pid
  refine minSeq_le_of_addAll (fun x hx => absurd hx List.not_mem_nil) hop' e.seq ?_
  exact (hnew.addAll hop').keys e.seq (List.mem_map_of_mem he.2)

/-! ## Reading an entry -/

theorem WellFormed.mem_pmEntries {op : OpTraceEntry} (h : op.WellFormed) {x : TraceEntry} :
    x ∈ op.pmEntries ↔ ∃ e : TraceEntry, (e.seq, e.getEntryList) ∈ op.pmSeqEntryMap.items ∧
      isPmEntry e op.pmAddr op.pmSize = true ∧ x ∈ e.getEntryList := by
  rw [pmEntries, List.mem_flatMap]
  constructor
  · rintro ⟨y, hy, hx⟩
    obtain ⟨e, rfl, -, hpm⟩ := h.item y (mem_sortBy.mp hy)
    exact ⟨e, mem_sortBy.mp hy, hpm, hx⟩
  · rintro ⟨e, he, -, hx⟩
    exact ⟨_, mem_sortBy.mpr he, hx⟩

theorem WellFormed.isPmStore_iff {op : OpTraceEntry} (h : op.WellFormed) {e : TraceEntry} :
    op.IsPmStore e ↔ e ∈ op.pmEntries ∧ e.type.isStoreSeries = true := by
  rw [h.mem_pmEntries]
  constructor
  · rintro ⟨hst, hmem⟩
    obtain ⟨e', he', -, hpm⟩ := h.item _ hmem
    have hlist : e.getEntryList = e'.getEntryList := (Prod.mk.inj he').2
    have heq : e = e' := by
      have hhead := e.head?_getEntryList
      rw [hlist, e'.head?_getEntryList, Option.some.injEq] at hhead
      exact hhead.symm
    exact ⟨⟨e, hmem, heq ▸ hpm, TraceEntry.mem_getEntryList.mpr (Or.inl rfl)⟩, hst⟩
  · rintro ⟨⟨e', hmem, -, hx⟩, hst⟩
    rcases TraceEntry.mem_getEntryList.mp hx with rfl | ⟨-, rfl⟩
    · exact ⟨hst, hmem⟩
    · exact absurd hst (by simp [TraceEntry.flushOf, TraceType.isStoreSeries])

/-- A sequence number names one store. -/
theorem IsPmStore.eq_of_seq_eq {op : OpTraceEntry} {a b : TraceEntry} (ha : op.IsPmStore a)
    (hb : op.IsPmStore b) (h : a.seq = b.seq) : a = b := by
  have hga := Dict.get?_eq_some.mpr ha.2
  rw [h, Dict.get?_eq_some.mpr hb.2, Option.some.injEq] at hga
  have hhead := a.head?_getEntryList
  rw [← hga, b.head?_getEntryList, Option.some.injEq] at hhead
  exact hhead.symm

/-- A fence shares its sequence number with no other entry. -/
theorem WellFormed.eq_of_fence_seq_eq {op : OpTraceEntry} (h : op.WellFormed) {g e : TraceEntry}
    (hg : g ∈ op.pmEntries) (hty : g.type.isFenceTy = true) (he : e ∈ op.pmEntries)
    (hseq : g.seq = e.seq) : g = e := by
  obtain ⟨g', hg', -, hgl⟩ := h.mem_pmEntries.mp hg
  obtain ⟨e', he', -, hel⟩ := h.mem_pmEntries.mp he
  rw [TraceEntry.seq_of_mem_getEntryList hgl, TraceEntry.seq_of_mem_getEntryList hel] at hseq
  have hga := Dict.get?_eq_some.mpr hg'
  rw [hseq, Dict.get?_eq_some.mpr he', Option.some.injEq] at hga
  rw [hga] at hel
  have hnot : ∀ t : TraceType, (t.isStoreAndFlushTy || t.isCASTy) = true →
      t.isFenceTy = false := by
    intro t ht
    cases t <;> revert ht <;> decide
  rcases TraceEntry.mem_getEntryList.mp hgl with rfl | ⟨-, rfl⟩
  · rcases TraceEntry.mem_getEntryList.mp hel with rfl | ⟨hfl, rfl⟩
    · rfl
    · rw [hnot _ hfl] at hty
      exact absurd hty Bool.false_ne_true
  · exact absurd hty (by simp [TraceEntry.flushOf, TraceType.isFenceTy])

end OpTraceEntry

/-- The trace of an operation once the splitter is done with it. -/
structure OpTrace extends OpTraceEntry where
  wf : toOpTraceEntry.WellFormed

/-- The trace built from the records of one operation. -/
def OpTrace.ofRecords (startFnEntry : TraceEntry) (opName : String) (pmAddr pmSize pid : Int)
    (records : List TraceEntry)
    (h : (OpTraceEntry.build startFnEntry opName pmAddr pmSize pid records).isSome) : OpTrace :=
  ⟨(OpTraceEntry.build startFnEntry opName pmAddr pmSize pid records).get h,
    OpTraceEntry.wellFormed_build (Option.some_get h).symm⟩

end Trace
end Silhouette
