import Silhouette.OpTrace.OtherFlags

/-!
# When the analysis returns

With every stored value at hand, the analysis of an operation can die at two places: the first
word of a memory copy or set is taken from the list of its words, which may be empty, and a
compare-and-swap is handed to the cache as one store, whatever lines it is in.
-/

namespace Silhouette
namespace OpTrace

open Lib Lib.Persist Cache Trace

/-- The value file has the bytes of every store of the operation. -/
def ValuesComplete (op : OpTraceEntry) : Prop :=
  ∀ e ∈ op.pmEntries, e.type.isStoreSeries = true → e.svEntry ≠ none

/-- A memory copy or set reaches into a word, and a compare-and-swap stays in its line. -/
def Digestible (e : TraceEntry) : Prop :=
  (NonAtomic e → alignToFloor e.addr atomicWriteBytes < e.addr + e.size) ∧
    (e.type.isCASTy = true → e.addr + e.size ≤ lineOf e.addr + cachelineBytes)

instance (op : OpTraceEntry) : Decidable (ValuesComplete op) :=
  inferInstanceAs (Decidable (∀ e ∈ op.pmEntries, _ → _))

instance (e : TraceEntry) : Decidable (Digestible e) := inferInstanceAs (Decidable (_ ∧ _))

/-! ## Conversion -/

section

variable {e : TraceEntry} {sample : List RawOp → List RawOp}

theorem storePieces_ne_nil_iff :
    storePieces e ≠ [] ↔ alignToFloor e.addr atomicWriteBytes < e.addr + e.size := by
  rw [← List.length_pos_iff, storePieces, List.length_map, pyRange, List.length_map,
    List.length_range]
  simp only [alignToFloor, atomicWriteBytes]
  omega

/-- Only stores are asked for their value. -/
theorem isStoreSeries_of_mem_pmEntries {op : OpTraceEntry} (hwf : op.WellFormed)
    (he : e ∈ op.pmEntries) (hfence : e.type.isFenceTy = false) (hflush : e.type.isFlushTy = false)
    (hload : e.type.isLoadSeries = false) : e.type.isStoreSeries = true := by
  obtain ⟨r, -, hpm, hmem⟩ := hwf.mem_pmEntries.mp he
  rcases TraceEntry.mem_getEntryList.mp hmem with rfl | ⟨-, rfl⟩
  · have himp : e.type.isImpFenceTy = false := by
      revert hfence
      cases e.type <;> decide
    by_contra hstore
    simp [isPmEntry, hfence, hflush, hload, himp, hstore] at hpm
  · simp [TraceEntry.flushOf, TraceType.isFlushTy] at hflush

theorem convertEntry_isSome {op : OpTraceEntry} (hwf : op.WellFormed) (hval : ValuesComplete op)
    (he : e ∈ op.pmEntries) : (convertEntry e).isSome := by
  rw [convertEntry]
  split_ifs with hfence hflush hload hcas hassert
  · rfl
  · rfl
  · rfl
  · rfl
  · have hstore := isStoreSeries_of_mem_pmEntries hwf he (Bool.eq_false_iff.mpr hfence)
      (Bool.eq_false_iff.mpr hflush) (Bool.eq_false_iff.mpr hload)
    exact absurd hassert.2 (hval e he hstore)
  · rfl

theorem convertOne_isSome_iff {op : OpTraceEntry} (hwf : op.WellFormed) (hval : ValuesComplete op)
    (he : e ∈ op.pmEntries) :
    (convertOne analysisFlags sample e).isSome ↔ (NonAtomic e → storePieces e ≠ []) := by
  refine ⟨fun h hna => storePieces_ne_nil hna h, fun h => ?_⟩
  obtain ⟨tmp, htmp⟩ := Option.isSome_iff_exists.mp (convertEntry_isSome hwf hval he)
  rw [convertOne, htmp]
  by_cases hna : (e.type.isMemTransStore || e.type.isMemset) = true
  · obtain ⟨h1, h2, h3, h4⟩ := type_of_nonatomic hna
    obtain ⟨w, rest, hw⟩ := List.exists_cons_of_ne_nil (h hna)
    rw [if_pos hna]
    simp only [convertEntry, h1, h2, h3, h4, hw, Bool.false_eq_true, if_false] at htmp
    split at htmp
    · cases htmp
    · rw [← Option.some.inj htmp]
      rfl
  · rw [if_neg hna]
    rfl

end

/-! ## Lines -/

/-- `inOneLine` before the stores are allocated. -/
def rawInOneLine : RawOp → Bool
  | .store a => a.addr + a.size ≤ lineOf a.addr + cachelineBytes
  | .flush f => f.addr + f.size ≤ lineOf f.addr + cachelineBytes
  | .fence _ => true

theorem rawInOneLine_rawOf (op : AtomicOp) : rawInOneLine (rawOf op) = inOneLine op := by
  cases op <;> rfl

theorem inOneLine_allocate_iff (n : Nat) (raw : List RawOp) :
    (∀ op ∈ allocate n raw, inOneLine op = true) ↔ ∀ op ∈ raw, rawInOneLine op = true := by
  rw [← map_rawOf_allocate n raw, List.forall_mem_map]
  simp only [map_rawOf_allocate, rawInOneLine_rawOf]

theorem inOneLine_storePieces {e : TraceEntry} {w : StoreArgs} (h : w ∈ storePieces e) :
    w.addr + w.size ≤ lineOf w.addr + cachelineBytes := by
  obtain ⟨x, hx, h1, h2, rfl⟩ := mem_storePieces.mp h
  simp only [lineOf, alignToFloor, cachelineBytes]
  omega

theorem inOneLine_flushLines {e : TraceEntry} {f : Flush} (h : f ∈ flushLines e) :
    f.addr + f.size ≤ lineOf f.addr + cachelineBytes := by
  obtain ⟨l, hl, h1, rfl⟩ := (mem_flushPieces (lines_lt_flushFuel _ _)).mp h
  simp only [lineOf, alignToFloor, cachelineBytes]
  omega

theorem inOneLine_trackedWords {e : TraceEntry} (hcas : e.type.isCASTy = false) {w : StoreArgs}
    (h : w ∈ trackedWords e) : w.addr + w.size ≤ lineOf w.addr + cachelineBytes := by
  rw [trackedWords, hcas] at h
  split at h
  · exact inOneLine_storePieces (List.mem_of_mem_head? (Option.mem_toList.mp h))
  · exact inOneLine_storePieces h

theorem type_of_cas {t : TraceType} (h : t.isCASTy = true) :
    t.isFenceTy = false ∧ t.isFlushTy = false ∧ t.isLoadSeries = false ∧
      (t.isMemTransStore || t.isMemset) = false := by
  cases t <;> revert h <;> decide

/-- All operations of an entry but a compare-and-swap are cut at line boundaries. -/
theorem rawInOneLine_atomicOpsOf_iff (e : TraceEntry) :
    (∀ o ∈ atomicOpsOf e, rawInOneLine o = true) ↔
      (e.type.isCASTy = true → e.addr + e.size ≤ lineOf e.addr + cachelineBytes) := by
  by_cases hcas : e.type.isCASTy = true
  · obtain ⟨h1, h2, h3, h4⟩ := type_of_cas hcas
    have hops : atomicOpsOf e = [.store ⟨e.seq, e.addr, e.size⟩] := by
      simp [atomicOpsOf, trackedWords, h1, h2, h3, h4, hcas]
    simp [hops, rawInOneLine, hcas]
  · refine iff_of_true (fun o ho => ?_) fun h => absurd h hcas
    cases o with
    | store w =>
      obtain ⟨-, -, -, hw⟩ := store_mem_atomicOpsOf.mp ho
      exact decide_eq_true (inOneLine_trackedWords (Bool.eq_false_iff.mpr hcas) hw)
    | flush f => exact decide_eq_true (inOneLine_flushLines (flush_mem_atomicOpsOf.mp ho).2)
    | fence g => rfl

theorem opsUnder_analysisFlags (sample : List RawOp → List RawOp) (e : TraceEntry) :
    opsUnder analysisFlags sample e = atomicOpsOf e :=
  opsUnder_eq_of_trackedAlike rfl (Or.inl rfl)

/-- The analysis returns exactly on the operations whose entries are all digestible. -/
theorem analysis_returns_iff (op : OpTrace) (sample : List RawOp → List RawOp)
    (hval : ValuesComplete op.toOpTraceEntry) :
    (analysisInCacheRun analysisFlags sample op.toOpTraceEntry).isSome ↔
      ∀ e ∈ op.pmEntries, Digestible e := by
  have hlines : (∀ o ∈ allocate 0 (op.pmEntries.flatMap atomicOpsOf), inOneLine o = true) ↔
      ∀ e ∈ op.pmEntries, e.type.isCASTy = true →
        e.addr + e.size ≤ lineOf e.addr + cachelineBytes := by
    rw [inOneLine_allocate_iff, List.forall_mem_flatMap]
    exact forall₂_congr fun e _ => rawInOneLine_atomicOpsOf_iff e
  have hwords : ∀ e ∈ op.pmEntries, (convertOne analysisFlags sample e).isSome ↔
      (NonAtomic e → alignToFloor e.addr atomicWriteBytes < e.addr + e.size) := by
    intro e he
    rw [convertOne_isSome_iff op.wf hval he, storePieces_ne_nil_iff]
  constructor
  · intro h
    obtain ⟨r, hr⟩ := Option.isSome_iff_exists.mp h
    obtain ⟨ops, hops, hrun⟩ := Option.bind_eq_some_iff.mp hr
    have heq := convertAtomicOps_asOne analysisFlags_asOne hops
    have hin : ∀ o ∈ ops, inOneLine o = true := by
      rw [← run_isSome_iff (heq ▸ fresh_allocate 0 _), hrun]
      rfl
    rw [heq] at hin
    intro e he
    exact ⟨(hwords e he).mp (convertOne_isSome hops e he), hlines.mp hin e he⟩
  · intro h
    have hconv : convertAtomicOps analysisFlags sample op.toOpTraceEntry =
        some (allocate 0 (op.pmEntries.flatMap atomicOpsOf)) := by
      refine convertAtomicOps_of_forall fun e he => ?_
      rw [convertOne_eq ((hwords e he).mpr (h e he).1), opsUnder_analysisFlags]
    rw [analysisInCacheRun, hconv, Option.bind_some, run_isSome_iff (fresh_allocate 0 _)]
    exact hlines.mpr fun e he => (h e he).2

/-- Where the device is mapped. -/
def pmBase : Int := 0xffff888000000000

/-- A copy of nothing in the middle of a word and a compare-and-swap that ends with its line. -/
def digestibleTrace : OpTrace :=
  OpTrace.ofRecords (.plain .startFn 0 0 0) "write" pmBase 4096 0
    [.plain .memTransStore 1 (pmBase + 4) 0, .plain .asmCAS 2 (pmBase + 48) 16, .plain .memset 3 (pmBase + 60) 100,
      .plain .asmFence 4 0 0] (by decide +kernel)

theorem analysis_returns_digestible :
    (analysisInCacheRun analysisFlags id digestibleTrace.toOpTraceEntry).isSome :=
  (analysis_returns_iff digestibleTrace id (by decide +kernel)).mpr (by decide +kernel)

/-- A set of no bytes at the start of a word. -/
def emptySetTrace : OpTrace :=
  OpTrace.ofRecords (.plain .startFn 0 0 0) "write" pmBase 4096 0
    [.plain .memset 1 (pmBase + 64) 0, .plain .asmFence 2 0 0] (by decide +kernel)

/-- A compare-and-swap over the end of its line. -/
def crossingCasTrace : OpTrace :=
  OpTrace.ofRecords (.plain .startFn 0 0 0) "write" pmBase 4096 0
    [.plain .asmCAS 1 (pmBase + 56) 16, .plain .asmFence 2 0 0] (by decide +kernel)

/-- All values are there and the analysis dies, once on an index and once on an assertion. -/
theorem analysis_dies :
    (ValuesComplete emptySetTrace.toOpTraceEntry ∧
      analysisInCacheRun analysisFlags id emptySetTrace.toOpTraceEntry = none) ∧
    (ValuesComplete crossingCasTrace.toOpTraceEntry ∧
      analysisInCacheRun analysisFlags id crossingCasTrace.toOpTraceEntry = none) := by
  refine ⟨⟨by decide +kernel, ?_⟩, by decide +kernel, ?_⟩
  · exact Option.isNone_iff_eq_none.mp (by decide +kernel)
  · exact Option.isNone_iff_eq_none.mp (by decide +kernel)

end OpTrace
end Silhouette
