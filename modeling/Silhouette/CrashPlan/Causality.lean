import Silhouette.CrashPlan.Scheme2CP
import Silhouette.OpTrace.Window

/-!
# Crash plans are causally possible

A crash image must be one that a crash can leave behind.  The plan that persists a
store contains nothing issued after it and everything that is durable by then.  The plan
that persists the others contains nothing issued behind the fence that ends the flight of
the store.
-/

namespace Silhouette
namespace CrashPlan

open Lib Lib.Persist Cache Trace OpTrace Image

section

variable {op : OpTraceEntry} {r : Analysis} {ops : List AtomicOp} {st : TraceEntry} {c : Nat}
  {cp : CrashPlanEntry}

/-- Everything persisted before a store was issued before it. -/
theorem persistedBefore_le (h : Analysed op r ops)
    (hc : (listAt r.inFlightSeqClusterMap st.seq).min? = some c) {x : Int}
    (hx : x ∈ persistedBefore r st c) : x ≤ st.seq := by
  rcases mem_persistedBefore.mp hx with rfl | ⟨k, hk, hx⟩ | hx
  · exact le_refl _
  · rw [h.min?_clusters hc] at hk
    have hN := fencesBelow_le ops st.seq
    rcases (h.describes.clusterFlushing k x).mp hx with ⟨⟨h1, hn⟩, hfl⟩ | ⟨hlast, -⟩
    · -- the fence of cluster `k` separates the two
      have hlt := fencesBelow_lt_of_inFlightAt h.fresh h.order hfl.inFlightAt h1 hn
      by_contra hgt
      have hmono := fencesBelow_mono ops (show st.seq ≤ x by omega)
      omega
    · omega
  · obtain ⟨k, -, hlt, -⟩ := (h.describes.writeDep st.seq x).mp hx
    omega

theorem persistSelf_written_le (h : Analysed op r ops) (hp : PersistsSelf op r st c cp) {x : Int}
    (hx : x ∈ writtenSeqs op cp) : x ≤ st.seq := by
  rcases ((mem_written_persistSelf h.wf hp.set hp.start).mp hx).2 with hx | ⟨hlt, -⟩
  · exact persistedBefore_le h hp.cluster hx
  · exact hlt.le

/-- A store whose flush and a fence behind it precede another is persisted with it. -/
theorem durable_mem_written (h : Analysed op r ops) (hp : PersistsSelf op r st c cp)
    {u f g : TraceEntry} (hu : op.IsPmStore u) (hsize : 1 ≤ u.size) (hf : f ∈ op.pmEntries)
    (hfty : f.type.isFlushTy = true) (henc : Encloses f u.addr (u.addr + u.size))
    (huf : u.seq ≤ f.seq) (hg : g ∈ op.pmEntries) (hgty : g.type.isFenceTy = true)
    (hfg : f.seq < g.seq) (hgs : g.seq < st.seq) : u.seq ∈ writtenSeqs op cp := by
  rw [mem_written_persistSelf h.wf hp.set hp.start, h.wf.mem_storeSeq]
  refine ⟨⟨u, hu, rfl⟩, Or.inl (mem_persistedBefore.mpr (Or.inr (Or.inl ?_)))⟩
  obtain ⟨w, hw⟩ := exists_trackedWord hsize
  obtain ⟨s, hs, hargs⟩ := h.exists_store hu hw
  obtain ⟨hin1, hin2, hin3⟩ := trackedWords_inside hw
  have hwseq := seq_of_mem_trackedWords hw
  rw [← hargs] at hin1 hin2 hin3 hwseq
  obtain ⟨y, hy1, hy2, hfl⟩ := h.flushingAt_of_enclosed hs (hin3 hsize) hf hfty
    (show s.seq ≤ f.seq from hwseq.trans_le huf)
    ⟨henc.1.trans hin1, hin2.trans henc.2⟩
  obtain ⟨g', hg', hgseq⟩ := h.fence_mem hg hgty
  have hlt : fencesBelow ops y < fencesBelow ops st.seq :=
    fencesBelow_lt hg' (by omega) (by omega)
  have hN := fencesBelow_le ops st.seq
  refine ⟨fencesBelow ops y + 1, by rw [h.min?_clusters hp.cluster]; omega, ?_⟩
  rw [h.describes.clusterFlushing]
  have hseq : s.seq = u.seq := hwseq
  exact Or.inl ⟨⟨by omega, by omega⟩, hseq ▸ hfl⟩

theorem self_mem_written (hwf : op.WellFormed) (hst : op.IsPmStore st)
    (hp : PersistsSelf op r st c cp) : st.seq ∈ writtenSeqs op cp := by
  rw [mem_written_persistSelf hwf hp.set hp.start, hwf.mem_storeSeq]
  exact ⟨⟨st, hst, rfl⟩, Or.inl (mem_persistedBefore.mpr (Or.inl rfl))⟩

theorem self_notMem_written (hwf : op.WellFormed) (hp : PersistsOther op r st c cp) :
    st.seq ∉ writtenSeqs op cp := by
  rw [mem_written_persistOther hp.set hp.start]
  rintro ⟨-, hx | ⟨hlt, -⟩⟩
  · exact ((mem_persistOtherSet hwf).mp hx).2.1 rfl
  · exact lt_irrefl _ hlt

/-- A store that is in flight by the end of a cluster has a number below its fence. -/
theorem lt_fence_of_fencesBelow (h : Analysed op r ops) {g : TraceEntry}
    (hg : op.fenceEntries[c - 1]? = some g) {x : Int} (hx : x ∈ op.pmSortedStoreSeq)
    (hlt : fencesBelow ops x < c) : x < g.seq := by
  obtain ⟨e, he, rfl⟩ := (h.wf.mem_storeSeq x).mp hx
  obtain ⟨hmem, hst⟩ := h.wf.isPmStore_iff.mp he
  exact h.seq_lt_fence hmem (TraceType.isStoreSeries_cases hst).2.1 hg (by omega)

theorem persistOther_written_lt (h : Analysed op r ops) (hst : op.IsPmStore st)
    (hp : PersistsOther op r st c cp) {g : TraceEntry}
    (hg : op.fenceEntries[c - 1]? = some g) {x : Int} (hx : x ∈ writtenSeqs op cp) :
    x < g.seq := by
  obtain ⟨hmax, -⟩ := List.max?_eq_some_iff.mp hp.cluster
  obtain ⟨⟨h1, hn⟩, hin⟩ := (h.describes.seqCluster st.seq c).mp hmax
  have hself := lt_fence_of_fencesBelow h hg ((h.wf.mem_storeSeq _).mpr ⟨st, hst, rfl⟩)
    (fencesBelow_lt_of_inFlightAt h.fresh h.order hin h1 hn)
  obtain ⟨hxs, hx | ⟨hlt, -⟩⟩ := (mem_written_persistOther hp.set hp.start).mp hx
  · obtain ⟨⟨k, hk, hx⟩, -⟩ := (mem_persistOtherSet h.wf).mp hx
    rcases (h.describes.clusterFlushing k x).mp hx with ⟨⟨hk1, hkn⟩, hfl⟩ | ⟨hlast, -⟩
    · have hlt := fencesBelow_lt_of_inFlightAt h.fresh h.order hfl.inFlightAt hk1 hkn
      exact lt_fence_of_fencesBelow h hg hxs (by omega)
    · omega
  · exact hlt.trans hself

end

/-- Every store of at least one byte has its plans. -/
theorem plans_exist {op : OpTraceEntry} {r : Analysis} {ops : List AtomicOp}
    (h : Analysed op r ops) {st : TraceEntry} (hst : op.IsPmStore st) (hsize : 1 ≤ st.size)
    (flags : PlanFlags) (pick : List Int → Int) :
    (Scheme2CP.gen2cpForAStore op r flags pick st).isSome := by
  obtain ⟨w, hw⟩ := exists_trackedWord hsize
  obtain ⟨s, hs, hargs⟩ := h.exists_store hst hw
  have hseq : s.seq = st.seq := by
    rw [← seq_of_mem_trackedWords hw, ← hargs]
    rfl
  have hcn := fencesBelow_le ops s.seq
  have hmem : fencesBelow ops s.seq + 1 ∈ listAt r.inFlightSeqClusterMap st.seq := by
    rw [h.describes.seqCluster, ← hseq]
    exact ⟨⟨by omega, by omega⟩, inFlightAt_first h.fresh h.order hs⟩
  have hexp : ∀ cp, (expandPlan flags pick st cp).isSome := by
    intro cp
    have hwords : pyRange st.addr (st.addr + st.size) atomicWriteBytes ≠ [] := by
      refine List.ne_nil_of_mem ((mem_pyRange (by decide)).mpr ⟨0, rfl, ?_⟩)
      simp only [Int.natCast_zero, Int.zero_mul]
      omega
    simp only [expandPlan, if_neg hwords]
    split_ifs <;> rfl
  cases hl : r.inFlightSeqClusterMap.get? st.seq with
  | none =>
    rw [listAt, hl] at hmem
    exact absurd hmem List.not_mem_nil
  | some l =>
    rw [listAt, hl, Option.getD_some] at hmem
    obtain ⟨lo, hlo⟩ := Option.isSome_iff_exists.mp
      (List.isSome_min?_of_mem hmem)
    obtain ⟨hi, hhi⟩ := Option.isSome_iff_exists.mp
      (List.isSome_max?_of_mem hmem)
    simp [Scheme2CP.gen2cpForAStore, genPlans, emitPlan, persistSelfPlan, persistOtherPlan, hl,
      hlo, hhi, Option.isSome_bind, hexp]

/-- The plans of a store are causally possible. -/
theorem plans_causal (op : OpTrace) (hflush : WholeLineFlushes op.toOpTraceEntry)
    (flags : ConvFlags) (hflags : ConvFlags.asOne flags) (sample : List RawOp → List RawOp)
    {r : Analysis} (hr : analysisInCacheRun flags sample op.toOpTraceEntry = some r)
    (st : TraceEntry) (hst : op.IsPmStore st) (pflags : PlanFlags) (pick : List Int → Int)
    {plans : List CrashPlanEntry}
    (hplans : Scheme2CP.gen2cpForAStore op.toOpTraceEntry r pflags pick st = some plans)
    {cp : CrashPlanEntry} (hcp : cp ∈ plans) (hun : cp.samplingType = .samplingNone) :
    (cp.type = .unprotectedPersistSelf →
      st.seq ∈ writtenSeqs op.toOpTraceEntry cp ∧
      (∀ x ∈ writtenSeqs op.toOpTraceEntry cp, x ≤ st.seq) ∧
      ∀ u f g : TraceEntry, op.IsPmStore u → InOneCacheline u →
        f ∈ op.pmEntries → f.type.isFlushTy = true → Overlaps f u → u.seq ≤ f.seq →
        g ∈ op.pmEntries → g.type.isFenceTy = true → f.seq < g.seq → g.seq < st.seq →
        u.seq ∈ writtenSeqs op.toOpTraceEntry cp) ∧
    (cp.type = .unprotectedPersistOther →
      st.seq ∉ writtenSeqs op.toOpTraceEntry cp ∧
      ∀ c g, (listAt r.inFlightSeqClusterMap st.seq).max? = some c →
        op.fenceEntries[c - 1]? = some g →
        ∀ x ∈ writtenSeqs op.toOpTraceEntry cp, x < g.seq) := by
  obtain ⟨ops, h⟩ := exists_analysed op.wf hflags hr
  rcases mem_genPlans hplans hcp hun with ⟨hty, c, hp⟩ | ⟨hty, c, hp⟩
  · refine ⟨fun _ => ⟨self_mem_written op.wf hst hp, fun x => persistSelf_written_le h hp, ?_⟩, ?_⟩
    · intro u f g hu hone hf hfty hov huf hg hgty hfg hgs
      exact durable_mem_written h hp hu hone.1 hf hfty (encloses_of_overlaps hflush hf hfty hone hov)
        huf hg hgty hfg hgs
    · rw [hty]
      exact fun habs => absurd habs (by simp)
  · refine ⟨?_, fun _ => ⟨self_notMem_written op.wf hp, ?_⟩⟩
    · rw [hty]
      exact fun habs => absurd habs (by simp)
    · intro c' g hc' hg x hx
      rw [hp.cluster, Option.some.injEq] at hc'
      exact persistOther_written_lt h hst hp (hc' ▸ hg) hx

/-- A store that is flushed and fenced, followed by a second one. -/
def flushedTrace : OpTrace :=
  OpTrace.ofRecords (.plain .startFn 0 0 0) "write" 0 4096 0
    [.plain .store 1 0 8, .plain .asmFlush 2 0 64, .plain .asmFence 3 0 0, .plain .store 4 64 8,
      .plain .asmFlush 5 64 64, .plain .asmFence 6 0 0, .plain .store 7 128 8] (by decide +kernel)

def flushedAnalysis : Analysis :=
  (analysisInCacheRun ⟨false, true, false⟩ id flushedTrace.toOpTraceEntry).get (by decide +kernel)

/-- The plans of the second store. -/
def flushedPlans : List CrashPlanEntry :=
  (Scheme2CP.gen2cpForAStore flushedTrace.toOpTraceEntry flushedAnalysis ⟨true, false⟩
    (fun _ => 0) (.plain .store 4 64 8)).get (by decide +kernel)

/-- One plan has both stores, the other not the second. -/
theorem plans_causal_flushed :
    (∃ cp ∈ flushedPlans, cp.type = .unprotectedPersistSelf ∧
      1 ∈ writtenSeqs flushedTrace.toOpTraceEntry cp ∧
      4 ∈ writtenSeqs flushedTrace.toOpTraceEntry cp ∧
      7 ∉ writtenSeqs flushedTrace.toOpTraceEntry cp) ∧
    ∃ cp ∈ flushedPlans, cp.type = .unprotectedPersistOther ∧
      4 ∉ writtenSeqs flushedTrace.toOpTraceEntry cp ∧
      7 ∉ writtenSeqs flushedTrace.toOpTraceEntry cp := by
  have hr : analysisInCacheRun ⟨false, true, false⟩ id flushedTrace.toOpTraceEntry =
      some flushedAnalysis := (Option.some_get _).symm
  have hplans : Scheme2CP.gen2cpForAStore flushedTrace.toOpTraceEntry flushedAnalysis
      ⟨true, false⟩ (fun _ => 0) (.plain .store 4 64 8) = some flushedPlans :=
    (Option.some_get _).symm
  have hcausal := fun cp (hcp : cp ∈ flushedPlans) hun =>
    plans_causal flushedTrace (by decide +kernel) ⟨false, true, false⟩ ⟨rfl, rfl⟩ id hr
      (.plain .store 4 64 8) (by decide +kernel) _ _ hplans hcp hun
  obtain ⟨self, hself, hty, hun⟩ : ∃ cp ∈ flushedPlans, cp.type = .unprotectedPersistSelf ∧
      cp.samplingType = .samplingNone := by decide +kernel
  obtain ⟨other, hother, hty', hun'⟩ : ∃ cp ∈ flushedPlans, cp.type = .unprotectedPersistOther ∧
      cp.samplingType = .samplingNone := by decide +kernel
  obtain ⟨hin, hle, hdur⟩ := (hcausal self hself hun).1 hty
  obtain ⟨hout, hlt⟩ := (hcausal other hother hun').2 hty'
  refine ⟨⟨self, hself, hty, ?_, hin, fun h7 => absurd (hle 7 h7) (by decide)⟩,
    other, hother, hty', hout, fun h7 => ?_⟩
  · exact hdur (.plain .store 1 0 8) (.plain .asmFlush 2 0 64) (.plain .asmFence 3 0 0)
      (by decide +kernel) (by decide) (by decide +kernel) rfl (by decide) (by decide)
      (by decide +kernel) rfl (by decide) (by decide)
  · exact absurd (hlt 2 (.plain .asmFence 6 0 0) (by decide +kernel) (by decide +kernel) 7 h7)
      (by decide)

end CrashPlan
end Silhouette
