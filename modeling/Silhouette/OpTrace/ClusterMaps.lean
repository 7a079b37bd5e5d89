import Silhouette.OpTrace.AtomicOps

/-!
# The two cluster maps

`in_flight_seq_cluster_map` and `in_flight_cluster_seq_map` are filled together at every
fence and for the stores behind the last one.  The cluster of the fence that the end of
the operation implies goes into the second map only, so the maps part over the stores
that are never flushed.
-/

namespace Silhouette
namespace OpTrace

open Lib Lib.Persist Cache Trace

/-- The maps are inverse relations. -/
def MapsInverse (r : Analysis) : Prop :=
  ∀ s c, c ∈ listAt r.inFlightSeqClusterMap s ↔ s ∈ listAt r.inFlightClusterSeqMap c

/-- A flush that covers it follows every store. -/
def EveryStoreFlushed (ops : List AtomicOp) : Prop :=
  ∀ pre s post, ops = pre ++ .store s :: post → ∃ f, .flush f ∈ post ∧ Flush.covers f s = true

theorem volatile_mem_inFlight_iff {ops : List AtomicOp} {s : Store} :
    (s, .volatile) ∈ inFlight Flush.covers ops ↔
      ∃ pre post, ops = pre ++ .store s :: post ∧
        ¬ ∃ f, .flush f ∈ post ∧ Flush.covers f s = true := by
  rw [mem_inFlight_iff, mem_life_iff]
  constructor
  · rintro ⟨⟨pre, post, heq, hp⟩, -⟩
    exact ⟨pre, post, heq, fun h => (phase_ne_volatile_iff _).mpr h hp.symm⟩
  · rintro ⟨pre, post, heq, hno⟩
    have hp : phase Flush.covers s post = .volatile := by
      by_contra hne
      exact hno ((phase_ne_volatile_iff _).mp hne)
    exact ⟨⟨pre, post, heq, hp.symm⟩, by simp⟩

theorem everyStoreFlushed_iff {ops : List AtomicOp} :
    EveryStoreFlushed ops ↔ ∀ x, ¬ VolatileAtEnd ops x := by
  constructor
  · rintro h x ⟨s, hs, -⟩
    obtain ⟨pre, post, heq, hno⟩ := volatile_mem_inFlight_iff.mp hs
    exact hno (h pre s post heq)
  · intro h pre s post heq
    by_contra hno
    exact h s.seq ⟨s, volatile_mem_inFlight_iff.mpr ⟨pre, post, heq, hno⟩, rfl⟩

/-- The maps differ by the last cluster. -/
theorem Describes.mapsInverse_iff {r : Analysis} {ops : List AtomicOp} (h : Describes r ops) :
    MapsInverse r ↔ ∀ x, ¬ VolatileAtEnd ops x := by
  constructor
  · intro hinv x hx
    have hlast : x ∈ listAt r.inFlightClusterSeqMap (fences ops + 2) :=
      (h.clusterSeq _ x).mpr (Or.inr ⟨rfl, hx⟩)
    have hc := (h.seqCluster x _).mp ((hinv x _).mpr hlast)
    omega
  · intro hno x c
    rw [h.seqCluster, h.clusterSeq]
    constructor
    · exact Or.inl
    · rintro (hc | ⟨-, hx⟩)
      · exact hc
      · exact absurd hx (hno x)

/-- The maps of an operation are inverse exactly when it flushes every store. -/
theorem cluster_maps_inverse_iff (op : OpTrace) (flags : ConvFlags)
    (sample : List RawOp → List RawOp) (ops : List AtomicOp) {r : Analysis}
    (hops : convertAtomicOps flags sample op.toOpTraceEntry = some ops)
    (hr : analysisInCacheRun flags sample op.toOpTraceEntry = some r) :
    MapsInverse r ↔ EveryStoreFlushed ops := by
  have hrun : Analysis.run ops = some r := by
    rwa [analysisInCacheRun, hops, Option.bind_some] at hr
  have hfresh : Fresh ops := by
    obtain ⟨raw, -, rfl⟩ := Option.map_eq_some_iff.mp hops
    exact fresh_allocate 0 raw
  rw [(describes_of_run hfresh hrun).mapsInverse_iff, everyStoreFlushed_iff]

/-- A store, its flush and a fence. -/
def flushedTrace : OpTrace :=
  OpTrace.ofRecords (.plain .startFn 0 0 0) "write" 0 4096 0
    [.plain .store 1 0 8, .plain .asmFlush 2 0 64, .plain .asmFence 3 0 0] (by decide +kernel)

def flushedOps : List AtomicOp :=
  (convertAtomicOps ⟨false, true, false⟩ id flushedTrace.toOpTraceEntry).get (by decide +kernel)

def flushedAnalysis : Analysis :=
  (analysisInCacheRun ⟨false, true, false⟩ id flushedTrace.toOpTraceEntry).get (by decide +kernel)

theorem cluster_maps_inverse_flushed : MapsInverse flushedAnalysis := by
  refine (cluster_maps_inverse_iff flushedTrace ⟨false, true, false⟩ id
    flushedOps (Option.some_get _).symm (Option.some_get _).symm).mpr ?_
  have hnone : ∀ x ∈ inFlight Flush.covers flushedOps, x.2 ≠ .volatile := by decide +kernel
  rw [everyStoreFlushed_iff]
  rintro x ⟨s, hs, -⟩
  exact hnone _ hs rfl

/-- A store that nothing flushes. -/
def unflushedTrace : OpTrace :=
  OpTrace.ofRecords (.plain .startFn 0 0 0) "write" 0 4096 0 [.plain .store 1 0 8]
    (by decide +kernel)

def unflushedAnalysis : Analysis :=
  (analysisInCacheRun ⟨false, true, false⟩ id unflushedTrace.toOpTraceEntry).get
    (by decide +kernel)

/-- Cluster 2 lists the store, and the clusters of the store are `[1]`. -/
theorem cluster_maps_part_unflushed :
    analysisInCacheRun ⟨false, true, false⟩ id unflushedTrace.toOpTraceEntry =
      some unflushedAnalysis ∧ ¬ MapsInverse unflushedAnalysis := by
  refine ⟨(Option.some_get _).symm, fun h => ?_⟩
  have hin : (1 : Int) ∈ listAt unflushedAnalysis.inFlightClusterSeqMap 2 := by decide +kernel
  have hout : (2 : Nat) ∉ listAt unflushedAnalysis.inFlightSeqClusterMap 1 := by decide +kernel
  exact hout ((h 1 2).mpr hin)

end OpTrace
end Silhouette
