import Silhouette.Trace.OpTraceEntry

/-!
# Reading a trace

`TraceReader` files the records of a trace file by sequence number and by process.  Both
dictionaries keep the order of the file, and so does the list of the stores in persistent
memory: nothing sorts the file.

The names of functions and calls are matched for reports only, so a trace the matching
would refuse is accepted here.
-/

namespace Silhouette
namespace Trace

open Lib

structure TraceReader where
  pmAddr : Int
  pmSize : Int
  seqEntryMap : Dict Int (List TraceEntry)
  pidSeqEntryMap : Dict Int (Dict Int (List TraceEntry))

namespace TraceReader

def isKernelSpaceAddr (addr : Int) : Bool := addr ≥ 0x8000000000000000

/-- One line of the file.  A sequence number used before is refused. -/
def loadEntry (r : TraceReader) (e : TraceEntry) : Option TraceReader :=
  if e.seq ∈ r.seqEntryMap.keys then none
  else some {
    pmAddr := if e.type = .daxDevInfo then e.addr else r.pmAddr
    pmSize := if e.type = .daxDevInfo then e.size else r.pmSize
    seqEntryMap := r.seqEntryMap.set e.seq e.getEntryList
    pidSeqEntryMap := r.pidSeqEntryMap.set e.pid
      (((r.pidSeqEntryMap.get? e.pid).getD Dict.empty).set e.seq e.getEntryList) }

/-- Read all lines; the device must be in kernel space. -/
def load (lines : List TraceEntry) : Option TraceReader :=
  (lines.foldlM loadEntry ⟨-1, -1, Dict.empty, Dict.empty⟩).filter fun r =>
    isKernelSpaceAddr r.pmAddr

/-- The record is a store to persistent memory. -/
def isPmStoreRecord (r : TraceReader) (entryList : List TraceEntry) : Bool :=
  entryList.head?.any fun e => e.type.isStoreSeries && isPmAddr e.addr r.pmAddr r.pmSize

/-- The stores in persistent memory, in the order of the file. -/
def pmStoreSeqList (r : TraceReader) : List Int :=
  (r.seqEntryMap.items.filter fun x => r.isPmStoreRecord x.2).map Prod.fst

/-- A store of the trace to persistent memory. -/
def IsPmStore (r : TraceReader) (e : TraceEntry) : Prop :=
  (e.seq, e.getEntryList) ∈ r.seqEntryMap.items ∧ e.type.isStoreSeries = true ∧
    isPmAddr e.addr r.pmAddr r.pmSize = true

instance (r : TraceReader) (e : TraceEntry) : Decidable (r.IsPmStore e) :=
  inferInstanceAs (Decidable (_ ∧ _ ∧ _))

/-- All of them, in sequence order. -/
def pmStores (r : TraceReader) : List TraceEntry :=
  sortBy TraceEntry.seq
    ((r.seqEntryMap.items.filter fun x => r.isPmStoreRecord x.2).filterMap fun x => x.2.head?)

/-- The stores issued before a sequence number, in sequence order. -/
def pmStoresBefore (r : TraceReader) (seq : Int) : List TraceEntry :=
  r.pmStores.filter fun e => e.seq < seq

/-! ## What loading guarantees -/

/-- Every item is what a line was normalised to, and a process has the items of its own
lines. -/
structure Loaded (r : TraceReader) : Prop where
  item : ∀ x ∈ r.seqEntryMap.items, ∃ e : TraceEntry, x = (e.seq, e.getEntryList)
  ofPid : ∀ x ∈ r.pidSeqEntryMap.items, ∀ y ∈ x.2.items, y ∈ r.seqEntryMap.items ∧
    ∃ e : TraceEntry, y = (e.seq, e.getEntryList) ∧ e.pid = x.1

theorem Loaded.loadEntry {r r' : TraceReader} (h : r.Loaded) {e : TraceEntry}
    (hr : r.loadEntry e = some r') : r'.Loaded := by
  rw [TraceReader.loadEntry] at hr
  by_cases hseq : e.seq ∈ r.seqEntryMap.keys
  · rw [if_pos hseq] at hr
    exact absurd hr (by simp)
  rw [if_neg hseq] at hr
  rw [← Option.some.inj hr]
  have hitems : (r.seqEntryMap.set e.seq e.getEntryList).items =
      r.seqEntryMap.items ++ [(e.seq, e.getEntryList)] := Dict.items_set_of_notMem hseq _
  have hnew : ∀ y, y ∈ r.seqEntryMap.items ∨ y = (e.seq, e.getEntryList) →
      y ∈ (r.seqEntryMap.set e.seq e.getEntryList).items := by
    intro y hy
    rw [hitems, List.mem_append, List.mem_singleton]
    exact hy
  refine ⟨fun x hx => ?_, fun x hx y hy => ?_⟩
  · simp only [hitems, List.mem_append, List.mem_singleton] at hx
    rcases hx with hx | rfl
    · exact h.item x hx
    · exact ⟨e, rfl⟩
  · obtain ⟨p, d⟩ := x
    rw [← Dict.get?_eq_some] at hx
    simp only [Dict.get?_set] at hx
    by_cases hp : p = e.pid
    · rw [if_pos hp, Option.some.injEq] at hx
      rw [← hx, OpTraceEntry.mem_items_set] at hy
      rcases hy with rfl | ⟨-, hy⟩
      · exact ⟨hnew _ (Or.inr rfl), e, rfl, hp.symm⟩
      · -- an item of the process from before
        cases hd : r.pidSeqEntryMap.get? e.pid with
        | none =>
          rw [hd] at hy
          exact absurd hy List.not_mem_nil
        | some d' =>
          rw [hd, Option.getD_some] at hy
          obtain ⟨hmem, e', he', hpid⟩ := h.ofPid _ (Dict.get?_eq_some.mp hd) y hy
          exact ⟨hnew _ (Or.inl hmem), e', he', hpid.trans hp.symm⟩
    · rw [if_neg hp] at hx
      obtain ⟨hmem, hrest⟩ := h.ofPid _ (Dict.get?_eq_some.mp hx) y hy
      exact ⟨hnew _ (Or.inl hmem), hrest⟩

theorem loaded_of_load {lines : List TraceEntry} {r : TraceReader} (h : load lines = some r) :
    r.Loaded := by
  obtain ⟨hfold, -⟩ := Option.filter_eq_some_iff.mp h
  have hgen : ∀ (l : List TraceEntry) (r₀ : TraceReader), r₀.Loaded →
      l.foldlM TraceReader.loadEntry r₀ = some r → r.Loaded := by
    intro l
    induction l with
    | nil => exact fun r₀ h₀ hr => Option.some.inj hr ▸ h₀
    | cons e rest ih =>
      intro r₀ h₀ hr
      rw [List.foldlM_cons] at hr
      obtain ⟨r₁, hr₁, hr₂⟩ := Option.bind_eq_some_iff.mp hr
      exact ih r₁ (h₀.loadEntry hr₁) hr₂
  refine hgen lines _ ⟨fun x hx => absurd hx List.not_mem_nil, fun x hx => ?_⟩ hfold
  exact absurd hx List.not_mem_nil

/-- The lines in the order of the file. -/
theorem items_of_load {lines : List TraceEntry} {r : TraceReader} (h : load lines = some r) :
    r.seqEntryMap.items = lines.map fun e => (e.seq, e.getEntryList) := by
  obtain ⟨hfold, -⟩ := Option.filter_eq_some_iff.mp h
  have hgen : ∀ (l : List TraceEntry) (r₀ : TraceReader),
      l.foldlM TraceReader.loadEntry r₀ = some r →
      r.seqEntryMap.items = r₀.seqEntryMap.items ++ l.map fun e => (e.seq, e.getEntryList) := by
    intro l
    induction l with
    | nil =>
      intro r₀ hr
      rw [← Option.some.inj hr, List.map_nil, List.append_nil]
    | cons e rest ih =>
      intro r₀ hr
      rw [List.foldlM_cons] at hr
      obtain ⟨r₁, hr₁, hr₂⟩ := Option.bind_eq_some_iff.mp hr
      rw [TraceReader.loadEntry] at hr₁
      by_cases hseq : e.seq ∈ r₀.seqEntryMap.keys
      · rw [if_pos hseq] at hr₁
        cases hr₁
      · rw [if_neg hseq] at hr₁
        rw [ih r₁ hr₂, ← Option.some.inj hr₁, List.map_cons]
        show (r₀.seqEntryMap.set e.seq e.getEntryList).items ++ _ = _
        rw [Dict.items_set_of_notMem hseq]
        simp
  exact hgen lines _ hfold

section

variable {r : TraceReader}

theorem isPmStoreRecord_getEntryList (r : TraceReader) (e : TraceEntry) :
    r.isPmStoreRecord e.getEntryList =
      (e.type.isStoreSeries && isPmAddr e.addr r.pmAddr r.pmSize) := by
  rw [isPmStoreRecord, e.head?_getEntryList]
  rfl

theorem Loaded.mem_pmStores (h : r.Loaded) {e : TraceEntry} : e ∈ r.pmStores ↔ r.IsPmStore e := by
  rw [pmStores, mem_sortBy, List.mem_filterMap, IsPmStore, ← Bool.and_eq_true,
    ← isPmStoreRecord_getEntryList]
  constructor
  · rintro ⟨x, hx, hhead⟩
    obtain ⟨hmem, hpm⟩ := List.mem_filter.mp hx
    obtain ⟨e', rfl⟩ := h.item x hmem
    rw [e'.head?_getEntryList, Option.some.injEq] at hhead
    exact hhead ▸ ⟨hmem, hpm⟩
  · rintro ⟨hmem, hpm⟩
    exact ⟨_, List.mem_filter.mpr ⟨hmem, hpm⟩, e.head?_getEntryList⟩

/-- The file order of the stores, with the records instead of their numbers. -/
theorem Loaded.filterMap_head (h : r.Loaded) :
    ((r.seqEntryMap.items.filter fun x => r.isPmStoreRecord x.2).filterMap
      fun x => x.2.head?).map TraceEntry.seq = r.pmStoreSeqList := by
  rw [pmStoreSeqList, List.map_filterMap]
  have hitem : ∀ x ∈ r.seqEntryMap.items.filter fun x => r.isPmStoreRecord x.2,
      x.2.head?.map TraceEntry.seq = some x.1 := by
    intro x hx
    obtain ⟨e, rfl⟩ := h.item x (List.mem_filter.mp hx).1
    rw [e.head?_getEntryList]
    rfl
  rw [List.filterMap_congr hitem, List.filterMap_eq_map']

theorem nodup_pmStoreSeqList (r : TraceReader) : r.pmStoreSeqList.Nodup :=
  r.seqEntryMap.nodup.sublist (List.filter_sublist.map Prod.fst)

/-- No two stores share a sequence number. -/
theorem Loaded.pmStores_pairwise (h : r.Loaded) : r.pmStores.Pairwise fun a b => a.seq < b.seq := by
  refine sortBy_pairwise_lt ?_
  rw [h.filterMap_head]
  exact nodup_pmStoreSeqList r

/-- The records in the order of the file.  When the numbers below a bound come in order and
before all others, the records below it are the same in the sorted list. -/
theorem Loaded.exists_fileOrder (h : r.Loaded) {bound : Int}
    (hord : r.pmStoreSeqList.Pairwise fun a b => b < bound → a < b) :
    ∃ l : List TraceEntry, l.map TraceEntry.seq = r.pmStoreSeqList ∧ (∀ e ∈ l, e ∈ r.pmStores) ∧
      l.Pairwise (fun a b => bound ≤ a.seq → bound ≤ b.seq) ∧
      ∀ q : TraceEntry → Bool, (∀ e, q e = true → e.seq < bound) →
        l.filter q = r.pmStores.filter q := by
  rw [← h.filterMap_head, List.pairwise_map] at hord
  refine ⟨_, h.filterMap_head, fun e he => (sortBy_perm _ _).mem_iff.mpr he,
    hord.imp fun hab hle => ?_, fun q hq => ?_⟩
  · by_contra hlt
    have := hab (by omega)
    omega
  · refine ((sortBy_perm TraceEntry.seq _).filter q).symm.eq_of_pairwise
      (fun a b _ _ hab hba => absurd (lt_trans hab hba) (lt_irrefl _)) ?_
      (h.pmStores_pairwise.filter q)
    exact List.pairwise_filter.mpr (hord.imp fun hab _ hb => hab (hq _ hb))

/-- The record of a number is the store with that number. -/
theorem Loaded.head_get? (h : r.Loaded) {e : TraceEntry} (he : e ∈ r.pmStores) :
    (r.seqEntryMap.get? e.seq).bind List.head? = some e := by
  rw [Dict.get?_eq_some.mpr (h.mem_pmStores.mp he).1, Option.bind_some, e.head?_getEntryList]

end

end TraceReader

end Trace
end Silhouette
