import Silhouette.Lib.PmMachine
import Silhouette.OpTrace.OtherFlags
import Silhouette.OpTrace.Window
import Silhouette.CrashPlan.Comb

/-!
# The cache simulation and the platform

The simulation keeps a store as long as no flush that contains it is followed by a fence.  On a
machine a flush writes back a whole line.  Where the flushes of a run are of whole lines the two
agree: the clusters of the analysis list what a crash can lose (`clusters_list_losable`), and the
combination scheme counts the sets of stores a crash can find in memory (`comb_counts_crash_sets`).
-/

namespace Silhouette
namespace Hardware

open Lib Lib.Persist Cache Trace OpTrace CrashPlan
open scoped List

/-- A machine for atomic operations.  What the stores write is left out. -/
def cachePlatform : PmMachine Store Flush Int Unit where
  line := fun s => lineOf s.addr
  covers := fun f s => max f.addr (lineOf s.addr) <
    min (f.addr + f.size) (lineOf s.addr + cachelineBytes)
  write := fun _ _ => ()

/-- Every flush is of one whole cacheline. -/
def FlushesLines (ops : List AtomicOp) : Prop :=
  ∀ f : Flush, .flush f ∈ ops → f.addr % cachelineBytes = 0 ∧ f.size = cachelineBytes

/-- A crash can leave memory without the store. -/
def Losable (ops : List AtomicOp) (s : Store) : Prop :=
  s ∈ stores ops ∧ ∃ st, cachePlatform.Reaches () ops st ∧ s ∉ st.persisted

section

variable {ops : List AtomicOp}

theorem FlushesLines.subset {pre : List AtomicOp} (h : FlushesLines ops) (hsub : pre ⊆ ops) :
    FlushesLines pre := fun f hf => h f (hsub hf)

theorem Fresh.of_isPrefix {pre : List AtomicOp} (h : Fresh ops) (hpre : pre <+: ops) :
    Fresh pre := by
  obtain ⟨rest, rfl⟩ := hpre
  exact Cache.Fresh.left h

/-- The simulation and the machine see the same flushes. -/
theorem covers_eq (h : FlushesLines ops) (hin : ∀ op ∈ ops, inOneLine op = true) {f : Flush}
    {s : Store} (hf : .flush f ∈ ops) (hs : s ∈ stores ops) :
    Flush.covers f s = cachePlatform.covers f s := by
  obtain ⟨haddr, hsize⟩ := h f hf
  have hend : s.addr + s.size ≤ s.addr / 64 * 64 + 64 :=
    of_decide_eq_true (hin _ (store_mem_iff.mp hs))
  show decide _ = decide _
  rw [decide_eq_decide]
  simp only [Flush.contains, lineOf, alignToFloor, cachelineBytes, decide_eq_true_eq]
    at haddr hsize ⊢
  omega

theorem inFlight_eq (h : FlushesLines ops) (hin : ∀ op ∈ ops, inOneLine op = true) :
    inFlight cachePlatform.covers ops = inFlight Flush.covers ops := by
  rw [inFlight, inFlight, life_congr cachePlatform.covers
    fun f s hf hs => (covers_eq h hin hf hs).symm]

/-- A flush of the machine takes a line as a whole. -/
theorem cachePlatform_covers (f : Flush) (s t : Store)
    (hst : cachePlatform.line s = cachePlatform.line t) :
    cachePlatform.covers f s = cachePlatform.covers f t := by
  have hline : lineOf s.addr = lineOf t.addr := hst
  show decide _ = decide _
  rw [hline]

/-- What the simulation has in flight is what a crash can lose. -/
theorem losable_iff (h : FlushesLines ops) (hin : ∀ op ∈ ops, inOneLine op = true)
    (hf : Fresh ops) {s : Store} : Losable ops s ↔ ∃ p, (s, p) ∈ inFlight Flush.covers ops := by
  have hnd := Fresh.nodup_stores hf
  rw [← inFlight_eq h hin]
  constructor
  · rintro ⟨hs, hlost⟩
    have hd := (PmMachine.exists_lost_iff cachePlatform_covers hnd () hs).mp hlost
    rw [← map_fst_life cachePlatform.covers ops] at hs
    obtain ⟨⟨s, p⟩, hp, rfl⟩ := List.mem_map.mp hs
    exact ⟨p, (mem_inFlight_iff _).mpr ⟨hp, fun hpd => hd (hpd ▸ hp)⟩⟩
  · rintro ⟨p, hp⟩
    obtain ⟨hlife, hne⟩ := (mem_inFlight_iff _).mp hp
    have hs : s ∈ stores ops := by
      rw [← map_fst_life cachePlatform.covers ops]
      exact List.mem_map_of_mem (f := Prod.fst) hlife
    refine ⟨hs, (PmMachine.exists_lost_iff cachePlatform_covers hnd () hs).mpr fun hd => hne ?_⟩
    exact life_unique_of_nodup _ hnd hlife hd

/-- Flushing is what a crash can lose now and no more behind the next fence. -/
theorem flushing_iff (h : FlushesLines ops) (hin : ∀ op ∈ ops, inOneLine op = true)
    (hf : Fresh ops) (g : Fence) {s : Store} : (s, .flushing) ∈ inFlight Flush.covers ops ↔
      Losable ops s ∧ ¬ Losable (ops ++ [.fence g]) s := by
  have h' : FlushesLines (ops ++ [.fence g]) := by
    intro f hmem
    rcases List.mem_append.mp hmem with hmem | hmem
    · exact h f hmem
    · exact absurd (List.mem_singleton.mp hmem) (by simp)
  have hin' : ∀ op ∈ ops ++ [.fence g], inOneLine op = true := by
    intro op hmem
    rcases List.mem_append.mp hmem with hmem | hmem
    · exact hin op hmem
    · rw [List.mem_singleton.mp hmem]
      rfl
  have hf' : Fresh (ops ++ [.fence g]) := by
    rw [Fresh, stores_append]
    show ((stores ops ++ []).map Store.ref).Nodup
    rw [List.append_nil]
    exact hf
  rw [losable_iff h hin hf, losable_iff h' hin' hf', inFlight_fence]
  constructor
  · intro hp
    refine ⟨⟨_, hp⟩, ?_⟩
    rintro ⟨p, hp'⟩
    obtain ⟨hmem, hv⟩ := List.mem_filter.mp hp'
    have hu := life_unique_of_nodup _ (Fresh.nodup_stores hf) ((mem_inFlight_iff _).mp hp).1
      ((mem_inFlight_iff _).mp hmem).1
    rw [← hu] at hv
    exact absurd (of_decide_eq_true hv) (by simp)
  · rintro ⟨⟨p, hp⟩, hno⟩
    cases p with
    | flushing => exact hp
    | volatile => exact absurd ⟨_, List.mem_filter.mpr ⟨hp, rfl⟩⟩ hno
    | durable => exact absurd rfl ((mem_inFlight_iff _).mp hp).2

theorem flush_mem_convertEntry {e : TraceEntry} {l : List RawOp} (h : convertEntry e = some l)
    {f : Flush} (hf : .flush f ∈ l) : e.type.isFlushTy = true ∧ f ∈ flushLines e := by
  unfold convertEntry at h
  split_ifs at h with h1 h2 h3 h4 h5
  · obtain rfl := Option.some.inj h
    exact absurd (List.mem_singleton.mp hf) (by simp)
  · obtain rfl := Option.some.inj h
    obtain ⟨f', hf', heq⟩ := List.mem_map.mp hf
    exact ⟨h2, Event.flush.inj heq ▸ hf'⟩
  · obtain rfl := Option.some.inj h
    exact absurd hf List.not_mem_nil
  · obtain rfl := Option.some.inj h
    exact absurd (List.mem_singleton.mp hf) (by simp)
  · obtain rfl := Option.some.inj h
    obtain ⟨w, -, heq⟩ := List.mem_map.mp hf
    exact absurd heq (by simp)

/-- Whatever words are chosen, flushes come from flush records. -/
theorem flush_mem_convertOne {flags : ConvFlags} {sample : List RawOp → List RawOp}
    (hsample : ∀ l, sample l ⊆ l) {e : TraceEntry} {l : List RawOp}
    (h : convertOne flags sample e = some l) {f : Flush} (hf : .flush f ∈ l) :
    e.type.isFlushTy = true ∧ f ∈ flushLines e := by
  rw [convertOne] at h
  split at h
  · by_cases hignore : flags.ignoreNonatomicWrite = true
    · rw [if_pos hignore] at h
      obtain rfl := Option.some.inj h
      exact absurd hf List.not_mem_nil
    · rw [if_neg hignore] at h
      obtain ⟨tmp, htmp, h⟩ := Option.bind_eq_some_iff.mp h
      refine flush_mem_convertEntry htmp ?_
      split_ifs at h with hone hmany
      · obtain ⟨o, ho, rfl⟩ := Option.map_eq_some_iff.mp h
        rw [List.mem_singleton.mp hf]
        exact List.mem_of_mem_head? ho
      · obtain rfl := Option.some.inj h
        exact hsample tmp hf
      · obtain rfl := Option.some.inj h
        exact hf
  · exact flush_mem_convertEntry h hf

/-- An operation whose records flush whole lines is converted into one that does. -/
theorem flushesLines_of_wholeLineFlushes {op : OpTraceEntry} (hflush : WholeLineFlushes op)
    {flags : ConvFlags} {sample : List RawOp → List RawOp} (hsample : ∀ l, sample l ⊆ l)
    (hops : convertAtomicOps flags sample op = some ops) : FlushesLines ops := by
  have hconv : ∀ e ∈ op.pmEntries,
      convertOne flags sample e = some ((convertOne flags sample e).getD []) := by
    intro e he
    obtain ⟨l, hl⟩ := Option.isSome_iff_exists.mp (convertOne_isSome hops e he)
    rw [hl, Option.getD_some]
  have hall := hops.symm.trans (convertAtomicOps_of_forall hconv)
  intro f hf
  have hraw : .flush f ∈ op.pmEntries.flatMap fun e => (convertOne flags sample e).getD [] := by
    rw [← map_rawOf_allocate 0 (op.pmEntries.flatMap _), ← Option.some.inj hall]
    exact List.mem_map.mpr ⟨_, hf, rfl⟩
  obtain ⟨e, he, hfe⟩ := List.mem_flatMap.mp hraw
  obtain ⟨hty, hline⟩ := flush_mem_convertOne hsample (hconv e he) hfe
  obtain ⟨haddr, hsize⟩ := hflush e he hty
  obtain ⟨l, hl, hlt, rfl⟩ := (mem_flushPieces (lines_lt_flushFuel _ _)).mp hline
  simp only [cachelineBytes] at haddr hsize ⊢
  constructor
  · show max e.addr l % 64 = 0
    omega
  · show min (e.addr + e.size) (l + 64) - max e.addr l = 64
    omega

end

/-! ## The clusters of the analysis -/

/-- Up to the end of the operation, a cluster lists the stores that a crash in front of its fence
can lose, and the flushing ones are those it cannot lose behind the fence. -/
theorem clusters_list_losable (op : OpTrace) (hflush : WholeLineFlushes op.toOpTraceEntry)
    (flags : ConvFlags) (sample : List RawOp → List RawOp) (hsample : ∀ l, sample l ⊆ l)
    {ops : List AtomicOp} (hops : convertAtomicOps flags sample op.toOpTraceEntry = some ops)
    {r : Analysis} (hr : Analysis.run ops = some r) {c : Nat} (hc : 1 ≤ c)
    (hcn : c ≤ fences ops + 1) (x : Int) :
    (x ∈ listAt r.inFlightClusterSeqMap c ↔ ∃ s, s.seq = x ∧ Losable (beforeFence c ops) s) ∧
    (x ∈ listAt r.inFlightClusterFlushingMap c ↔ ∃ s, s.seq = x ∧ Losable (beforeFence c ops) s ∧
      ∀ g, ¬ Losable (beforeFence c ops ++ [.fence g]) s) := by
  have hfresh : Fresh ops := by
    obtain ⟨raw, -, rfl⟩ := Option.map_eq_some_iff.mp hops
    exact fresh_allocate 0 raw
  have hd := describes_of_run hfresh hr
  have hin : ∀ o ∈ ops, inOneLine o = true := by
    rw [← run_isSome_iff hfresh, hr]
    rfl
  have hpre := beforeFence_isPrefix c ops
  have hlines := (flushesLines_of_wholeLineFlushes hflush hsample hops).subset hpre.subset
  have hin' : ∀ o ∈ beforeFence c ops, inOneLine o = true := fun o ho => hin o (hpre.subset ho)
  have hfresh' := Fresh.of_isPrefix hfresh hpre
  constructor
  · rw [hd.clusterSeq]
    constructor
    · rintro (⟨-, s, p, hp, hx⟩ | ⟨heq, -⟩)
      · exact ⟨s, hx, (losable_iff hlines hin' hfresh').mpr ⟨p, hp⟩⟩
      · omega
    · rintro ⟨s, hx, hlost⟩
      obtain ⟨p, hp⟩ := (losable_iff hlines hin' hfresh').mp hlost
      exact Or.inl ⟨⟨hc, hcn⟩, s, p, hp, hx⟩
  · rw [hd.clusterFlushing]
    constructor
    · rintro (⟨-, s, hp, hx⟩ | ⟨heq, -⟩)
      · have hboth := fun g => (flushing_iff hlines hin' hfresh' g).mp hp
        exact ⟨s, hx, (hboth ⟨0⟩).1, fun g => (hboth g).2⟩
      · omega
    · rintro ⟨s, hx, hlost, hno⟩
      have hp := (flushing_iff hlines hin' hfresh' ⟨0⟩).mpr ⟨hlost, hno ⟨0⟩⟩
      exact Or.inl ⟨⟨hc, hcn⟩, s, hp, hx⟩

/-- Two stores of a line, flushed together before the fence, and one of another line. -/
def halfFlushedTrace : OpTrace :=
  OpTrace.ofRecords (.plain .startFn 0 0 0) "write" 0 4096 0
    [.plain .store 1 0 8, .plain .store 2 64 8, .plain .store 3 8 8, .plain .asmFlush 4 0 64,
      .plain .asmFence 5 0 0] (by decide +kernel)

def halfFlushedOps : List AtomicOp :=
  (convertAtomicOps ⟨false, false, true⟩ (List.take 1) halfFlushedTrace.toOpTraceEntry).get
    (by decide +kernel)

def halfFlushedAnalysis : Analysis := (Analysis.run halfFlushedOps).get (by decide +kernel)

/-- At the fence all three can be lost, behind it the one that is not flushed. -/
theorem clusters_list_losable_half_flushed :
    (∃ s, s.seq = 2 ∧ Losable (beforeFence 1 halfFlushedOps) s) ∧
    ∃ s, s.seq = 3 ∧ Losable (beforeFence 1 halfFlushedOps) s ∧
      ∀ g, ¬ Losable (beforeFence 1 halfFlushedOps ++ [.fence g]) s := by
  have hspec := clusters_list_losable halfFlushedTrace (by decide +kernel) ⟨false, false, true⟩
    (List.take 1) (List.take_subset 1) (Option.some_get _).symm
    (show Analysis.run halfFlushedOps = some halfFlushedAnalysis from (Option.some_get _).symm)
    (le_refl 1) (Nat.le_add_left 1 _)
  constructor
  · exact (hspec 2).1.mp (by decide +kernel)
  · exact (hspec 3).2.mp (by decide +kernel)

/-! ## The count of the combination scheme -/

section

variable {ops : List AtomicOp}

/-- The closed sets of stores in flight stand for the crash sets one to one. -/
theorem card_crashSets_eq (h : FlushesLines ops) (hin : ∀ op ∈ ops, inOneLine op = true)
    (hf : Fresh ops) {live : Finset Store} (hlive : ∀ s, s ∈ live ↔ NotYetDurable ops s) :
    (cachePlatform.crashSets ops).card = (closedSets (issuedBefore ops) live).card := by
  have heq : live = ((inFlight cachePlatform.covers ops).map Prod.fst).toFinset := by
    ext s
    rw [hlive, notYetDurable_iff, inFlight_eq h hin, List.mem_toFinset, List.mem_map]
    constructor
    · rintro ⟨p, hp⟩
      exact ⟨(s, p), hp, rfl⟩
    · rintro ⟨⟨s, p⟩, hp, rfl⟩
      exact ⟨p, hp⟩
  rw [heq]
  exact PmMachine.card_crashSets cachePlatform_covers (Fresh.nodup_stores hf) fun s t => Iff.rfl

theorem losable_iff_notYetDurable (h : FlushesLines ops) (hin : ∀ op ∈ ops, inOneLine op = true)
    (hf : Fresh ops) {s : Store} : Losable ops s ↔ NotYetDurable ops s := by
  rw [losable_iff h hin hf, notYetDurable_iff]

open Classical in
/-- At every fence in front of which a crash can lose a store, the scheme counts the sets of
stores that the crash can find in memory. -/
theorem comb_counts_crash_sets (hf : Fresh ops) (h : FlushesLines ops)
    {plans : List CrashPlanEntry} (hplans : Comb.generateCrashPlans ops = some plans) :
    List.Forall₂ (fun pre cp => (∀ x, x ∈ cp.persistSeqs ↔ ∃ s, s.seq = x ∧ Losable pre s) ∧
        cp.numCpEntries = (cachePlatform.crashSets pre).card)
      ((fencePoints ops).filter fun pre => decide (∃ s, Losable pre s)) plans := by
  have hin : ∀ op ∈ ops, inOneLine op = true := by
    intro op hop
    by_contra hno
    rw [Comb.generateCrashPlans, (loop_eq_none_iff ops hf).mpr
      ⟨op, hop, Bool.eq_false_iff.mpr hno⟩] at hplans
    exact absurd hplans (by simp)
  have hpoint : ∀ pre ∈ fencePoints ops, FlushesLines pre ∧
      (∀ op ∈ pre, inOneLine op = true) ∧ Fresh pre := by
    intro pre hmem
    obtain ⟨c, -, rfl⟩ := List.mem_map.mp hmem
    have hpre := beforeFence_isPrefix (c + 1) ops
    exact ⟨h.subset hpre.subset, fun o ho => hin o (hpre.subset ho), Fresh.of_isPrefix hf hpre⟩
  obtain ⟨m, plans', hm, -, hall⟩ := loop_plans ops hf hin
  rw [Comb.generateCrashPlans, hm, Option.map_some, Option.some.injEq] at hplans
  subst hplans
  have hfilter : (fencePoints ops).filter (fun pre => decide (∃ s, Losable pre s)) =
      (fencePoints ops).filter fun pre => decide (∃ s, NotYetDurable pre s) := by
    refine List.filter_congr fun pre hmem => ?_
    obtain ⟨h1, h2, h3⟩ := hpoint pre hmem
    simp only [losable_iff_notYetDurable h1 h2 h3]
  rw [hfilter]
  refine ((List.forall₂_and_left _ _).mpr
    ⟨fun pre hmem => hpoint pre (List.mem_filter.mp hmem).1, hall⟩).imp ?_
  rintro pre cp ⟨⟨h1, h2, h3⟩, live, hlive, hseqs, hcard, -⟩
  refine ⟨fun x => ?_, ?_⟩
  · rw [hseqs, Finset.mem_image]
    simp only [hlive, losable_iff_notYetDurable h1 h2 h3, and_comm]
  · rw [hcard, card_crashSets_eq h1 h2 h3 hlive]

end

open Classical in
/-- Two stores of a line that is flushed and one of another line. -/
theorem comb_counts_crash_sets_half_flushed :
    ∃ plans, Comb.generateCrashPlans halfFlushedOps = some plans ∧
      plans.map CrashPlanEntry.numCpEntries = [6] ∧
      List.Forall₂ (fun pre cp => (∀ x, x ∈ cp.persistSeqs ↔ ∃ s, s.seq = x ∧ Losable pre s) ∧
          cp.numCpEntries = (cachePlatform.crashSets pre).card)
        ((fencePoints halfFlushedOps).filter fun pre => decide (∃ s, Losable pre s)) plans := by
  have hsome : (Comb.generateCrashPlans halfFlushedOps).map (List.map CrashPlanEntry.numCpEntries) =
      some [6] := by decide +kernel
  obtain ⟨plans, hplans, hnum⟩ := Option.map_eq_some_iff.mp hsome
  have hflush : WholeLineFlushes halfFlushedTrace.toOpTraceEntry := by decide +kernel
  refine ⟨plans, hplans, hnum, comb_counts_crash_sets (by decide +kernel) ?_ hplans⟩
  exact flushesLines_of_wholeLineFlushes hflush (List.take_subset 1) (Option.some_get _).symm

end Hardware
end Silhouette
