import Silhouette.OpTrace.Window

/-!
# What a flushing store guarantees

The clusters list a store as flushing as soon as one of its tracked words is.  The other
bytes need not be flushed then: a memory copy or set is tracked by its first word, and
the words of a store that straddles two lines are flushed apart.
-/

namespace Silhouette
namespace OpTrace

open Lib Lib.Persist Cache Trace

/-- A flush entry with a number between that of a store and that of a fence. -/
def FlushBetween (op : OpTraceEntry) (e g x : TraceEntry) : Prop :=
  x ∈ op.pmEntries ∧ x.type.isFlushTy = true ∧ e.seq ≤ x.seq ∧ x.seq < g.seq

/-- Every byte of a store is flushed before a fence. -/
def AllFlushedBefore (op : OpTraceEntry) (e g : TraceEntry) : Prop :=
  ∀ b, e.addr ≤ b → b < e.addr + e.size →
    ∃ x, FlushBetween op e g x ∧ x.addr ≤ b ∧ b < x.addr + x.size

/-- A tracked word of a store is flushed before a fence but another byte is not. -/
def PartlyFlushedAt (op : OpTraceEntry) (e g : TraceEntry) : Prop :=
  (∃ w ∈ trackedWords e, ∃ x, FlushBetween op e g x ∧ Encloses x w.addr (w.addr + w.size)) ∧
    ¬ AllFlushedBefore op e g

/-- Every store the clusters list as flushing is flushed before the fence of the cluster. -/
def FlushingIsFlushed (op : OpTraceEntry) (r : Analysis) : Prop :=
  ∀ c g t, 1 ≤ c → op.fenceEntries[c - 1]? = some g →
    t ∈ listAt r.inFlightClusterFlushingMap c →
    ∀ e, op.IsPmStore e → e.seq = t → AllFlushedBefore op e g

section

variable {op : OpTraceEntry} {r : Analysis} {ops : List AtomicOp}

/-- A flushing store has a tracked word that is flushed before the fence. -/
theorem Analysed.exists_flushed_word (h : Analysed op r ops) {c : Nat} {g e : TraceEntry}
    (hc : 1 ≤ c) (hg : op.fenceEntries[c - 1]? = some g)
    (ht : e.seq ∈ listAt r.inFlightClusterFlushingMap c) (he : op.IsPmStore e)
    (hsize : 1 ≤ e.size) :
    ∃ w ∈ trackedWords e, ∃ x, FlushBetween op e g x ∧ Encloses x w.addr (w.addr + w.size) := by
  have hlen : c - 1 < op.fenceEntries.length := by
    by_contra hge
    rw [List.getElem?_eq_none (by omega)] at hg
    exact absurd hg (by simp)
  rw [h.length_fenceEntries] at hlen
  rcases (h.describes.clusterFlushing c e.seq).mp ht with ⟨⟨-, hn⟩, s, hp, hseq⟩ | ⟨hlast, -⟩
  · have hs := store_mem_of_mem_inFlight hp
    have hw := h.args_mem_of_seq_eq he hs hseq
    have hssize : 1 ≤ s.size := (trackedWords_inside hw).2.2 hsize
    by_cases hfl : ∃ f, FlushedBy ops s f
    · obtain ⟨f, hff⟩ := exists_firstFlush h.order hs hfl
      obtain ⟨hle, x, hx, hxty, hxseq, henc⟩ := (h.flushedBy_iff hs hssize).mp ⟨f, hff.1, rfl⟩
      obtain ⟨-, ⟨-, hph⟩ | ⟨heq, -⟩⟩ :=
        (mem_inFlight_of_firstFlush h.fresh h.order hs hff hc hn).mp hp
      · exact absurd hph (by simp)
      · refine ⟨s.args, hw, x, ⟨hx, hxty, by omega, ?_⟩, henc⟩
        exact h.seq_lt_fence hx (isFenceTy_of_isFlushTy hxty) hg (by rw [hxseq]; omega)
    · rw [not_exists] at hfl
      obtain ⟨-, hph⟩ := (mem_inFlight_of_unflushed h.fresh h.order hs hfl hc).mp hp
      exact absurd hph (by simp)
  · omega

/-- A store with a flushed word is flushing in a cluster that ends no later. -/
theorem Analysed.exists_cluster_of_flushed_word (h : Analysed op r ops) {g e : TraceEntry}
    (hg : g ∈ op.fenceEntries) (he : op.IsPmStore e) (hsize : 1 ≤ e.size) {w : StoreArgs}
    (hw : w ∈ trackedWords e) {x : TraceEntry} (hx : FlushBetween op e g x)
    (henc : Encloses x w.addr (w.addr + w.size)) :
    ∃ c g', 1 ≤ c ∧ op.fenceEntries[c - 1]? = some g' ∧ g'.seq ≤ g.seq ∧
      e.seq ∈ listAt r.inFlightClusterFlushingMap c := by
  obtain ⟨s, hs, rfl⟩ := h.exists_store he hw
  have hseq : s.seq = e.seq := seq_of_mem_trackedWords hw
  obtain ⟨hxmem, hxty, hex, hxg⟩ := hx
  obtain ⟨y, -, hyx, hfl⟩ := h.flushingAt_of_enclosed hs ((trackedWords_inside hw).2.2 hsize) hxmem
    hxty (by omega) henc
  obtain ⟨i, hi, hgi⟩ := List.getElem_of_mem hg
  have hgi' : op.fenceEntries[i]? = some g := by rw [List.getElem?_eq_getElem hi, hgi]
  have hgN := h.fencesBelow_fence hgi'
  have hmono := fencesBelow_mono ops (show y ≤ g.seq by omega)
  have hlt : fencesBelow ops y < op.fenceEntries.length := by omega
  have hn := h.length_fenceEntries
  refine ⟨fencesBelow ops y + 1, op.fenceEntries[fencesBelow ops y], by omega,
    List.getElem?_eq_getElem hlt, ?_, ?_⟩
  · rw [← hgi]
    have hsorted := List.pairwise_iff_getElem.mp (fenceEntries_pairwise h.wf)
    rcases Nat.lt_or_eq_of_le (show fencesBelow ops y ≤ i by omega) with hlt' | heq
    · exact (hsorted _ _ hlt hi hlt').le
    · exact (congrArg TraceEntry.seq (getElem_congr_idx heq)).le
  · rw [h.describes.clusterFlushing]
    exact Or.inl ⟨⟨by omega, by omega⟩, hseq ▸ hfl⟩

/-- Flushes of whole lines flush a store inside one line at once. -/
theorem not_partlyFlushedAt_of_oneLine (hflush : WholeLineFlushes op) {e g : TraceEntry}
    (hone : InOneCacheline e) : ¬ PartlyFlushedAt op e g := by
  rintro ⟨⟨w, hw, x, hx, h1, h2⟩, hnot⟩
  obtain ⟨hin1, hin2, hin3⟩ := trackedWords_inside hw
  have hsize := hin3 hone.1
  have hov : Overlaps x e := ⟨by omega, by omega⟩
  obtain ⟨h1', h2'⟩ := encloses_of_overlaps hflush hx.1 hx.2.1 hone hov
  exact hnot (fun b hb1 hb2 => ⟨x, hx, by omega, by omega⟩)

end

/-- The clusters are sound exactly when no fence finds a store partly flushed. -/
theorem flushing_sound_iff (op : OpTrace) (flags : ConvFlags) (hflags : ConvFlags.asOne flags)
    (sample : List RawOp → List RawOp) {r : Analysis}
    (hr : analysisInCacheRun flags sample op.toOpTraceEntry = some r) :
    FlushingIsFlushed op.toOpTraceEntry r ↔
      ∀ e g, op.IsPmStore e → g ∈ op.fenceEntries → ¬ PartlyFlushedAt op.toOpTraceEntry e g := by
  obtain ⟨ops, h⟩ := exists_analysed op.wf hflags hr
  constructor
  · rintro hsound e g he hg ⟨⟨w, hw, x, hx, henc⟩, hnot⟩
    refine hnot (fun b hb1 hb2 => ?_)
    obtain ⟨c, g', hc, hg', hle, hmem⟩ :=
      h.exists_cluster_of_flushed_word hg he (by omega) hw hx henc
    obtain ⟨x', ⟨hx1, hx2, hx3, hx4⟩, hbx⟩ := hsound c g' e.seq hc hg' hmem e he rfl b hb1 hb2
    exact ⟨x', ⟨hx1, hx2, hx3, by omega⟩, hbx⟩
  · rintro hno c g t hc hg ht e he rfl
    by_contra hnot
    have hsize : 1 ≤ e.size := by
      by_contra hle
      exact hnot (fun b hb1 hb2 => by omega)
    exact hno e g he (List.mem_of_getElem? hg) ⟨h.exists_flushed_word hc hg ht he hsize, hnot⟩

/-- Two stores of which the first is flushed. -/
def oneLineTrace : OpTrace :=
  OpTrace.ofRecords (.plain .startFn 0 0 0) "write" 0 4096 0
    [.plain .store 1 8 16, .plain .memTransStore 2 64 64, .plain .asmFlush 3 0 64,
      .plain .asmFence 4 0 0] (by decide +kernel)

def oneLineAnalysis : Analysis :=
  (analysisInCacheRun ⟨false, true, false⟩ id oneLineTrace.toOpTraceEntry).get (by decide +kernel)

theorem flushing_sound_one_line :
    FlushingIsFlushed oneLineTrace.toOpTraceEntry oneLineAnalysis := by
  refine (flushing_sound_iff oneLineTrace ⟨false, true, false⟩ ⟨rfl, rfl⟩ id
    (Option.some_get _).symm).mpr (fun e g he _ => ?_)
  have hlines : ∀ x ∈ oneLineTrace.pmEntries, x.type.isStoreSeries = true → InOneCacheline x := by
    decide +kernel
  obtain ⟨hmem, hst⟩ := oneLineTrace.wf.isPmStore_iff.mp he
  exact not_partlyFlushedAt_of_oneLine (by decide +kernel) (hlines e hmem hst)

/-- A store over two lines of which only the first is flushed. -/
def straddlingTrace : OpTrace :=
  OpTrace.ofRecords (.plain .startFn 0 0 0) "write" 0 4096 0
    [.plain .store 1 60 8, .plain .asmFlush 2 0 64, .plain .asmFence 3 0 0] (by decide +kernel)

def straddlingAnalysis : Analysis :=
  (analysisInCacheRun ⟨false, true, false⟩ id straddlingTrace.toOpTraceEntry).get
    (by decide +kernel)

/-- The first cluster lists it as flushing, and its last bytes are never flushed. -/
theorem flushing_unsound_straddling :
    analysisInCacheRun ⟨false, true, false⟩ id straddlingTrace.toOpTraceEntry =
      some straddlingAnalysis ∧
    ¬ FlushingIsFlushed straddlingTrace.toOpTraceEntry straddlingAnalysis := by
  refine ⟨(Option.some_get _).symm, fun h => ?_⟩
  have hall := h 1 (.plain .asmFence 3 0 0) 1 (by decide) (by decide +kernel) (by decide +kernel)
    (.plain .store 1 60 8) (by decide +kernel) rfl
  obtain ⟨x, ⟨hx, hty, -⟩, h1, h2⟩ := hall 64 (by decide) (by decide)
  have hnone : ∀ x ∈ straddlingTrace.pmEntries, x.type.isFlushTy = true →
      ¬ (x.addr ≤ 64 ∧ 64 < x.addr + x.size) := by decide +kernel
  exact hnone x hx hty ⟨h1, h2⟩

end OpTrace
end Silhouette
