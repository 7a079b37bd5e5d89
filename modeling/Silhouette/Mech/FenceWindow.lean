import Silhouette.Mech.PMStore

/-!
# The window of a store

For a store inside one cacheline and flushes of whole lines the two fences that the reasoner finds
bound the clusters that the cache analysis finds for the store.
-/

namespace Silhouette
namespace Mech

open Lib Lib.Persist Cache Trace OpTrace

/-- Does a flush come into question for a store. -/
def meets (op flush : TraceEntry) : Bool :=
  flush.seq ≥ op.seq ∧ flush.addr < op.addr + op.size ∧ op.addr < flush.addr + flush.size

/-- The first fence that reaches a number stands behind those below it. -/
theorem getElem?_of_find? {l : List TraceEntry} (h : l.Pairwise fun a b => a.seq < b.seq)
    {x : Int} {g : TraceEntry} (hg : l.find? (fun g => g.seq ≥ x) = some g) :
    l[(l.map TraceEntry.seq).countP (fun y => y < x)]? = some g := by
  induction l with
  | nil => simp at hg
  | cons a rest ih =>
    rw [List.pairwise_cons] at h
    rw [List.map_cons, List.countP_cons]
    by_cases ha : a.seq ≥ x
    · rw [List.find?_cons_of_pos (by simpa using ha)] at hg
      have hzero : (rest.map TraceEntry.seq).countP (fun y => y < x) = 0 := by
        rw [List.countP_eq_zero]
        intro y hy
        obtain ⟨b, hb, rfl⟩ := List.mem_map.mp hy
        have := h.1 b hb
        simp only [decide_eq_true_eq]
        omega
      have ha' : ¬ a.seq < x := by omega
      rw [hzero]
      simpa [ha'] using hg
    · rw [List.find?_cons_of_neg (by simpa using ha)] at hg
      have ha' : a.seq < x := by omega
      rw [if_pos (decide_eq_true ha'), List.getElem?_cons_succ]
      exact ih h.2 hg

/-- The first match in a sorted list has the smallest number of all matches. -/
theorem seq_find?_le {l : List TraceEntry} (h : l.Pairwise fun a b => a.seq ≤ b.seq)
    {p : TraceEntry → Bool} {f x : TraceEntry} (hf : l.find? p = some f) (hx : x ∈ l)
    (hp : p x = true) : f.seq ≤ x.seq := by
  obtain ⟨-, as, bs, rfl, has⟩ := List.find?_eq_some_iff_append.mp hf
  rcases List.mem_append.mp hx with hx | hx
  · have := has x hx
    rw [hp] at this
    exact absurd this (by simp)
  · rcases List.mem_cons.mp hx with rfl | hx
    · exact le_refl _
    · exact List.rel_of_pairwise_cons (List.pairwise_append.mp h).2.1 hx

/-- When every flush that meets a store contains it, the first of them covers it. -/
theorem find?_meets_of_completes {op f : TraceEntry} {l : List TraceEntry}
    (henc : ∀ f ∈ l, Overlaps f op → Encloses f op.addr (op.addr + op.size))
    (h : Completes op l f) : l.find? (meets op) = some f := by
  obtain ⟨before, after, rfl, -, hseq, a, hlo, hhi, hfa, hbyte⟩ := h.exists_byte
  refine List.find?_eq_some_iff_append.mpr ⟨decide_eq_true ⟨hseq, ?_, ?_⟩, before, after, rfl, ?_⟩
  · exact lt_of_le_of_lt hfa.1 hhi
  · exact lt_of_le_of_lt hlo hfa.2
  · intro x hx
    rw [Bool.not_eq_true']
    by_contra hmeets
    obtain ⟨hxseq, hov⟩ := of_decide_eq_true (Bool.eq_true_of_not_eq_false hmeets)
    obtain ⟨hxlo, hxhi⟩ := henc x (List.mem_append_left _ hx) hov
    exact hbyte x hx hxseq ⟨hxlo.trans hlo, lt_of_lt_of_le hhi hxhi⟩

/-- What the reasoning finds for a store inside one cacheline. -/
theorem fences_of_entry {τ : Type} {iv : IntervalTree τ} {points : τ → Set Int}
    (hiv : iv.Lawful points) {op : OpTraceEntry} (hwf : op.WellFormed)
    (hflush : WholeLineFlushes op) {entries : List MechPMStoreEntry}
    (hent : MechPMStoreReason.entryList iv op = some entries) {e : MechPMStoreEntry}
    (he : e ∈ entries) (hone : InOneCacheline e.op) {g : TraceEntry} (hg : e.fenceOp = some g) :
    op.IsPmStore e.op ∧ ∃ f, (op.pmEntries.filter fun x => x.type.isFlushTy).find? (meets e.op) =
      some f ∧ op.fenceEntries.find? (fun g => g.seq ≥ f.seq) = some g ∧
      e.firstFenceOp = op.fenceEntries.find? fun g => g.seq ≥ e.op.seq := by
  obtain ⟨-, hnone⟩ | ⟨f, hcompletes, hfirst, hfence⟩ := entry_spec hiv hwf hent he
  · rw [hnone] at hg
    exact absurd hg (by simp)
  · refine ⟨(isPmStore_iff_entry hwf hent).mpr ⟨e, he, rfl⟩, f,
      find?_meets_of_completes (fun x hx hov => ?_) hcompletes, hfence.symm.trans hg, hfirst⟩
    obtain ⟨hx, hty⟩ := List.mem_filter.mp hx
    exact encloses_of_overlaps hflush hx hty hone hov

/-- The clusters of a store inside one cacheline run from its first fence to the fence
behind its flush. -/
theorem window_agrees {τ : Type} (iv : IntervalTree τ) (points : τ → Set Int)
    (hiv : iv.Lawful points) (op : OpTrace) (hflush : WholeLineFlushes op.toOpTraceEntry)
    (flags : ConvFlags) (hflags : ConvFlags.asOne flags) (sample : List RawOp → List RawOp)
    {r : Analysis} (hr : analysisInCacheRun flags sample op.toOpTraceEntry = some r)
    {entries : List MechPMStoreEntry}
    (hent : MechPMStoreReason.entryList iv op.toOpTraceEntry = some entries)
    {e : MechPMStoreEntry} (he : e ∈ entries) (hone : InOneCacheline e.op) {fence : TraceEntry}
    (hfence : e.fenceOp = some fence) :
    ∃ first i j, e.firstFenceOp = some first ∧ op.fenceEntries[i]? = some first ∧
      op.fenceEntries[j]? = some fence ∧
      (listAt r.inFlightSeqClusterMap e.op.seq).min? = some (i + 1) ∧
      (listAt r.inFlightSeqClusterMap e.op.seq).max? = some (j + 1) := by
  obtain ⟨ops, h⟩ := exists_analysed op.wf hflags hr
  obtain ⟨hst, f, hf, hg, hfirst⟩ := fences_of_entry hiv op.wf hflush hent he hone hfence
  have hsorted : op.fenceEntries.Pairwise fun a b => a.seq < b.seq :=
    fenceEntries_pairwise op.wf
  have hcount : ∀ x, fencesBelow ops x =
      (op.fenceEntries.map TraceEntry.seq).countP (fun y => y < x) := by
    intro x
    rw [fencesBelow, h.fenceSeqs_eq]
  have hmeets : meets e.op f = true := List.find?_some hf
  obtain ⟨hle, hov⟩ := of_decide_eq_true hmeets
  obtain ⟨hfmem, hfty⟩ := List.mem_filter.mp (List.mem_of_find?_eq_some hf)
  -- every word of the store is flushed first by `f`
  have hwords : ∀ s, .store s ∈ ops → s.seq = e.op.seq →
      ∃ f', FirstFlush ops s f' ∧ f'.seq = f.seq := by
    intro s hs hseq
    obtain ⟨hin1, hin2, hin3⟩ := trackedWords_inside (h.args_mem_of_seq_eq hst hs hseq)
    have hsize : 1 ≤ s.size := hin3 hone.1
    have henc := encloses_of_overlaps hflush hfmem hfty hone hov
    obtain ⟨f', hby, hf'⟩ := (h.flushedBy_iff hs hsize).mpr
      ⟨hseq.trans_le hle, f, hfmem, hfty, rfl, henc.1.trans hin1, le_trans hin2 henc.2⟩
    refine ⟨f', ⟨hby, fun f'' hby' => ?_⟩, hf'⟩
    obtain ⟨hle', x, hx, hxty, hxseq, hx1, hx2⟩ := (h.flushedBy_iff hs hsize).mp ⟨f'', hby', rfl⟩
    have hin1' : e.op.addr ≤ s.addr := hin1
    have hin2' : s.addr + s.size ≤ e.op.addr + e.op.size := hin2
    rw [hf', ← hxseq]
    exact seq_find?_le (sorted_flushes op.wf) hf (List.mem_filter.mpr ⟨hx, hxty⟩)
      (decide_eq_true ⟨by omega, by omega, by omega⟩)
  have hclusters : ∀ c, c ∈ listAt r.inFlightSeqClusterMap e.op.seq ↔
      fencesBelow ops e.op.seq < c ∧ c ≤ fencesBelow ops f.seq + 1 :=
    fun c => h.mem_clusters_iff hst hone.1 hwords
  have hmono := fencesBelow_mono ops hle
  obtain ⟨first, hfirst'⟩ : ∃ first, op.fenceEntries.find? (fun g => g.seq ≥ e.op.seq) =
      some first := by
    refine Option.isSome_iff_exists.mp (List.find?_isSome.mpr ⟨fence, ?_, ?_⟩)
    · exact List.mem_of_find?_eq_some hg
    · have hge := List.find?_some hg
      simp only [decide_eq_true_eq] at hge ⊢
      omega
  refine ⟨first, fencesBelow ops e.op.seq, fencesBelow ops f.seq, hfirst.trans hfirst', ?_, ?_,
    ?_, ?_⟩
  · rw [hcount]
    exact getElem?_of_find? hsorted hfirst'
  · rw [hcount]
    exact getElem?_of_find? hsorted hg
  · rw [List.min?_eq_some_iff]
    refine ⟨(hclusters _).mpr ⟨by omega, by omega⟩, fun c hc => ?_⟩
    have := (hclusters c).mp hc
    omega
  · rw [List.max?_eq_some_iff]
    refine ⟨(hclusters _).mpr ⟨by omega, by omega⟩, fun c hc => ?_⟩
    exact ((hclusters c).mp hc).2

theorem isSome_lateFlush :
    (OpTraceEntry.build (.plain .startFn 0 0 0) "write" 0 4096 0
      [.plain .store 1 0 8, .plain .asmFence 2 0 0, .plain .asmFlush 3 0 64,
        .plain .asmFence 4 0 0]).isSome := by decide +kernel

/-- A store that is flushed only after a first fence. -/
def lateFlushTrace : OpTrace :=
  OpTrace.ofRecords (.plain .startFn 0 0 0) "write" 0 4096 0
    [.plain .store 1 0 8, .plain .asmFence 2 0 0, .plain .asmFlush 3 0 64,
      .plain .asmFence 4 0 0] isSome_lateFlush

def lateFlushAnalysis : Analysis :=
  (analysisInCacheRun ⟨false, true, false⟩ id lateFlushTrace.toOpTraceEntry).get (by decide +kernel)

def lateFlushEntries : List MechPMStoreEntry :=
  (MechPMStoreReason.entryList IntervalTree.RangeList.tree lateFlushTrace.toOpTraceEntry).get
    (by decide +kernel)

/-- It is in flight at both fences, and the reasoning names the same two. -/
theorem window_agrees_late_flush :
    ∃ e ∈ lateFlushEntries, e.fenceOp = some (.plain .asmFence 4 0 0) ∧
      ∃ first i j, e.firstFenceOp = some first ∧
        lateFlushTrace.fenceEntries[i]? = some first ∧
        lateFlushTrace.fenceEntries[j]? = some (.plain .asmFence 4 0 0) ∧
        (listAt lateFlushAnalysis.inFlightSeqClusterMap e.op.seq).min? = some (i + 1) ∧
        (listAt lateFlushAnalysis.inFlightSeqClusterMap e.op.seq).max? = some (j + 1) := by
  obtain ⟨e, he, hone, hfence⟩ : ∃ e ∈ lateFlushEntries, InOneCacheline e.op ∧
      e.fenceOp = some (.plain .asmFence 4 0 0) := by decide +kernel
  refine ⟨e, he, hfence, ?_⟩
  exact window_agrees IntervalTree.RangeList.tree IntervalTree.RangeList.points
    IntervalTree.RangeList.lawful lateFlushTrace (by decide +kernel) ⟨false, true, false⟩
    ⟨rfl, rfl⟩ id (Option.some_get _).symm (Option.some_get _).symm he hone hfence

end Mech
end Silhouette
