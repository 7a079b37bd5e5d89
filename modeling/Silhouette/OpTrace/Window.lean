import Silhouette.OpTrace.AtomicOps

/-!
# The window of a store

A store is in flight from the fence that follows it to the fence that follows its first
covering flush.  With the operations in sequence order both fences are found by
counting fences below a sequence number, first for atomic stores and then for the
entries they come from.
-/

namespace Silhouette
namespace OpTrace

open Lib Lib.Persist Cache Trace

/-- A flush that reaches a store after it was issued. -/
def FlushedBy (ops : List AtomicOp) (s : Store) (f : Flush) : Prop :=
  .flush f ∈ ops ∧ f.covers s = true ∧ s.seq ≤ f.seq

/-- The first such flush, as far as sequence numbers go. -/
def FirstFlush (ops : List AtomicOp) (s : Store) (f : Flush) : Prop :=
  FlushedBy ops s f ∧ ∀ f', FlushedBy ops s f' → f.seq ≤ f'.seq

theorem store_mem_iff {σ φ ψ : Type} {ops : List (Event σ φ ψ)} {s : σ} :
    s ∈ stores ops ↔ .store s ∈ ops := by
  induction ops with
  | nil => simp [stores]
  | cons o rest ih => cases o <;> simp [stores, ih]

section

variable {ops : List AtomicOp} {s : Store} {f : Flush} {c : Nat} {p : Phase}

theorem Fresh.nodup_stores (h : Fresh ops) : (stores ops).Nodup := List.Nodup.of_map _ h

/-- A flush that covers a store is not before the first one behind it that does. -/
theorem InSeqOrder.firstCovering_le {pre a b : List AtomicOp} {f₁ : Flush}
    (hord : InSeqOrder (pre ++ .store s :: (a ++ .flush f₁ :: b)))
    (hno : ∀ f', .flush f' ∈ a → f'.covers s = false) (hc : f.covers s = true)
    (hf : .flush f ∈ a ++ .flush f₁ :: b) : f₁.seq ≤ f.seq := by
  rcases List.mem_append.mp hf with ha | hb
  · rw [hno f ha] at hc
    exact absurd hc Bool.false_ne_true
  · rcases List.mem_cons.mp hb with heq | hb
    · rw [Event.flush.injEq] at heq
      rw [heq]
    · have hord' : InSeqOrder ((pre ++ .store s :: a) ++ .flush f₁ :: b) := by
        rwa [List.append_assoc, List.cons_append]
      exact (hord'.after hb).1

/-- Split a sequence at the first covering flush behind a store. -/
theorem FirstFlush.split (hord : InSeqOrder ops) (hs : .store s ∈ ops) (h : FirstFlush ops s f) :
    ∃ pre a f₁ b, ops = pre ++ .store s :: (a ++ .flush f₁ :: b) ∧ f₁.covers s = true ∧
      (∀ f', .flush f' ∈ a → f'.covers s = false) ∧ f₁.seq = f.seq := by
  obtain ⟨pre, post, rfl⟩ := List.append_of_mem hs
  obtain ⟨⟨hf, hc, hle⟩, hmin⟩ := h
  have hpost := hord.flush_mem_post hf hle
  obtain ⟨a, f₁, b, rfl, hc₁, hno⟩ :=
    exists_first_covering Flush.covers ⟨f, hpost, hc⟩
  refine ⟨pre, a, f₁, b, rfl, hc₁, hno, le_antisymm ?_ ?_⟩
  · exact hord.firstCovering_le hno hc hpost
  · have hmem : .flush f₁ ∈ a ++ .flush f₁ :: b :=
      List.mem_append_right _ List.mem_cons_self
    refine hmin f₁ ⟨List.mem_append_right _ (List.mem_cons_of_mem _ hmem), hc₁, ?_⟩
    exact (hord.after hmem).1

theorem exists_firstFlush (hord : InSeqOrder ops) (hs : .store s ∈ ops)
    (h : ∃ f, FlushedBy ops s f) : ∃ f, FirstFlush ops s f := by
  obtain ⟨f, hf, hc, hle⟩ := h
  obtain ⟨pre, post, rfl⟩ := List.append_of_mem hs
  obtain ⟨a, f₁, b, rfl, hc₁, hno⟩ :=
    exists_first_covering Flush.covers ⟨f, hord.flush_mem_post hf hle, hc⟩
  have hmem : .flush f₁ ∈ a ++ .flush f₁ :: b := List.mem_append_right _ List.mem_cons_self
  refine ⟨f₁, ⟨List.mem_append_right _ (List.mem_cons_of_mem _ hmem), hc₁,
    (hord.after hmem).1⟩, ?_⟩
  rintro f' ⟨hf', hc', hle'⟩
  exact hord.firstCovering_le hno hc' (hord.flush_mem_post hf' hle')

/-- Without a flush a store stays in flight. -/
theorem mem_inFlight_of_unflushed (hf : Fresh ops) (hord : InSeqOrder ops) (hs : .store s ∈ ops)
    (hno : ∀ f, ¬ FlushedBy ops s f) (hc : 1 ≤ c) :
    (s, p) ∈ inFlight Flush.covers (beforeFence c ops) ↔
      fencesBelow ops s.seq < c ∧ p = .volatile := by
  obtain ⟨pre, post, rfl⟩ := List.append_of_mem hs
  have hcov : ∀ f, .flush f ∈ post → f.covers s = false := by
    intro f hf'
    refine Bool.eq_false_iff.mpr (fun hc' => hno f ⟨?_, hc', (hord.after hf').1⟩)
    exact List.mem_append_right _ (List.mem_cons_of_mem _ hf')
  have hpre : fences pre = fencesBelow (pre ++ .store s :: post) s.seq := hord.fences_eq
  rw [mem_inFlight_iff, mem_life_beforeFence_iff _ (Fresh.nodup_stores hf) hc,
    phase_beforeFence_of_not_covers _ hcov, ← hpre]
  constructor
  · exact fun h => h.1
  · rintro ⟨h, rfl⟩
    exact ⟨⟨h, rfl⟩, by simp⟩

/-- A flushed store is in flight up to the fence behind its first flush. -/
theorem mem_inFlight_of_firstFlush (hf : Fresh ops) (hord : InSeqOrder ops)
    (hs : .store s ∈ ops) (h : FirstFlush ops s f) (hc : 1 ≤ c) (hcn : c ≤ fences ops + 1) :
    (s, p) ∈ inFlight Flush.covers (beforeFence c ops) ↔ fencesBelow ops s.seq < c ∧
      (c ≤ fencesBelow ops f.seq ∧ p = .volatile ∨ c = fencesBelow ops f.seq + 1 ∧
        p = .flushing) := by
  obtain ⟨pre, a, f₁, b, rfl, hc₁, hno, hseq⟩ := h.split hord hs
  have hpre : fences pre = fencesBelow (pre ++ .store s :: (a ++ .flush f₁ :: b)) s.seq :=
    hord.fences_eq
  have hord' : InSeqOrder ((pre ++ .store s :: a) ++ .flush f₁ :: b) := by
    rwa [List.append_assoc, List.cons_append]
  have hmid : fences pre + fences a =
      fencesBelow (pre ++ .store s :: (a ++ .flush f₁ :: b)) f.seq := by
    have := hord'.fences_eq
    rw [fences_append, List.append_assoc, List.cons_append] at this
    rw [← hseq]
    exact this
  have hall : fences (pre ++ .store s :: (a ++ .flush f₁ :: b)) =
      fences pre + fences a + fences b := by
    rw [fences_append, Nat.add_assoc]
    exact congrArg _ (fences_append a _)
  rw [hall] at hcn
  rw [mem_inFlight_iff, mem_life_beforeFence_iff _ (Fresh.nodup_stores hf) hc, ← hpre, ← hmid]
  constructor
  · rintro ⟨⟨hlt, hp⟩, hnd⟩
    rw [phase_beforeFence _ hc₁ hno (by omega)] at hp
    refine ⟨hlt, ?_⟩
    by_cases h1 : c - fences pre ≤ fences a
    · rw [if_pos h1] at hp
      exact Or.inl ⟨by omega, hp⟩
    · rw [if_neg h1] at hp
      by_cases h2 : c - fences pre = fences a + 1 ∨ fences b = 0
      · rw [if_pos h2] at hp
        exact Or.inr ⟨by omega, hp⟩
      · rw [if_neg h2] at hp
        exact absurd hp hnd
  · rintro ⟨hlt, hp⟩
    rw [phase_beforeFence _ hc₁ hno (by omega)]
    rcases hp with ⟨hle, rfl⟩ | ⟨heq, rfl⟩
    · rw [if_pos (by omega)]
      exact ⟨⟨hlt, rfl⟩, by simp⟩
    · rw [if_neg (by omega), if_pos (by omega)]
      exact ⟨⟨hlt, rfl⟩, by simp⟩

theorem store_mem_of_mem_inFlight (h : (s, p) ∈ inFlight Flush.covers (beforeFence c ops)) :
    .store s ∈ ops :=
  (beforeFence_isPrefix c ops).subset (store_mem_iff.mp (mem_stores_of_mem_inFlight h))

/-- No store is in flight at a fence that precedes it. -/
theorem fencesBelow_lt_of_inFlightAt (hf : Fresh ops) (hord : InSeqOrder ops) {x : Int}
    (h : InFlightAt ops c x) (hc : 1 ≤ c) (hcn : c ≤ fences ops + 1) : fencesBelow ops x < c := by
  obtain ⟨s, p, hp, rfl⟩ := h
  have hs := store_mem_of_mem_inFlight hp
  by_cases hfl : ∃ f, FlushedBy ops s f
  · obtain ⟨f, hff⟩ := exists_firstFlush hord hs hfl
    exact ((mem_inFlight_of_firstFlush hf hord hs hff hc hcn).mp hp).1
  · rw [not_exists] at hfl
    exact ((mem_inFlight_of_unflushed hf hord hs hfl hc).mp hp).1

/-- A store is in flight at the first fence behind it. -/
theorem inFlightAt_first (hf : Fresh ops) (hord : InSeqOrder ops) (hs : .store s ∈ ops) :
    InFlightAt ops (fencesBelow ops s.seq + 1) s.seq := by
  have hcn := fencesBelow_le ops s.seq
  by_cases hfl : ∃ f, FlushedBy ops s f
  · obtain ⟨f, hff⟩ := exists_firstFlush hord hs hfl
    have hmono := fencesBelow_mono ops hff.1.2.2
    by_cases heq : fencesBelow ops s.seq = fencesBelow ops f.seq
    · refine ⟨s, .flushing, ?_, rfl⟩
      rw [mem_inFlight_of_firstFlush hf hord hs hff (by omega) (by omega)]
      exact ⟨by omega, Or.inr ⟨by omega, rfl⟩⟩
    · refine ⟨s, .volatile, ?_, rfl⟩
      rw [mem_inFlight_of_firstFlush hf hord hs hff (by omega) (by omega)]
      exact ⟨by omega, Or.inl ⟨by omega, rfl⟩⟩
  · rw [not_exists] at hfl
    refine ⟨s, .volatile, ?_, rfl⟩
    rw [mem_inFlight_of_unflushed hf hord hs hfl (by omega)]
    exact ⟨by omega, rfl⟩

end

theorem FlushingAt.inFlightAt {ops : List AtomicOp} {c : Nat} {x : Int} (h : FlushingAt ops c x) :
    InFlightAt ops c x := by
  obtain ⟨s, hs, hx⟩ := h
  exact ⟨s, .flushing, hs, hx⟩

/-- In a strictly increasing list the elements below the one at an index are counted by
the index. -/
theorem countP_lt_of_getElem? {l : List Int} (h : l.Pairwise fun a b => a < b) {i : Nat} {x : Int}
    (hx : l[i]? = some x) : l.countP (fun y => y < x) = i := by
  induction l generalizing i with
  | nil => simp at hx
  | cons a rest ih =>
    rw [List.pairwise_cons] at h
    cases i with
    | zero =>
      rw [List.getElem?_cons_zero, Option.some.injEq] at hx
      subst hx
      rw [List.countP_eq_zero]
      intro b hb
      simp only [decide_eq_true_eq]
      rcases List.mem_cons.mp hb with rfl | hb
      · omega
      · have := h.1 b hb
        omega
    | succ i =>
      rw [List.getElem?_cons_succ] at hx
      have hax : a < x := h.1 x (List.mem_of_getElem? hx)
      rw [List.countP_cons, ih h.2 hx]
      simp [hax]

/-! ## Words and lines of entries -/

/-- A tracked word lies inside its store. -/
theorem trackedWords_inside {e : TraceEntry} {w : StoreArgs} (hw : w ∈ trackedWords e) :
    e.addr ≤ w.addr ∧ w.addr + w.size ≤ e.addr + e.size ∧ (1 ≤ e.size → 1 ≤ w.size) := by
  have hpiece : ∀ w ∈ storePieces e, e.addr ≤ w.addr ∧ w.addr + w.size ≤ e.addr + e.size ∧
      (1 ≤ e.size → 1 ≤ w.size) := by
    intro w hw
    obtain ⟨a, -, h1, h2, rfl⟩ := mem_storePieces.mp hw
    refine ⟨?_, ?_, fun hsize => ?_⟩
    · show e.addr ≤ max e.addr a
      omega
    · show max e.addr a + (min (e.addr + e.size) (a + 8) - max e.addr a) ≤ e.addr + e.size
      omega
    · show 1 ≤ min (e.addr + e.size) (a + 8) - max e.addr a
      omega
  rw [trackedWords] at hw
  split_ifs at hw with h1 h2
  · exact hpiece w (List.mem_of_mem_head? (Option.mem_toList.mp hw))
  · rw [List.mem_singleton.mp hw]
    exact ⟨le_refl _, le_refl _, fun h => h⟩
  · exact hpiece w hw

/-- A store of at least one byte is tracked. -/
theorem exists_trackedWord {e : TraceEntry} (h : 1 ≤ e.size) : ∃ w, w ∈ trackedWords e := by
  have hhead := head?_storePieces h
  rw [trackedWords]
  by_cases h1 : (e.type.isMemTransStore || e.type.isMemset) = true
  · rw [if_pos h1, hhead]
    exact ⟨_, Option.mem_toList.mpr rfl⟩
  · rw [if_neg h1]
    by_cases h2 : e.type.isCASTy = true
    · rw [if_pos h2]
      exact ⟨_, List.mem_singleton_self _⟩
    · rw [if_neg h2]
      exact ⟨_, List.mem_of_mem_head? hhead⟩

/-- The byte range of a flush contains that of a store. -/
def Encloses (f : TraceEntry) (lo hi : Int) : Prop := f.addr ≤ lo ∧ hi ≤ f.addr + f.size

/-- Cutting a flush at line boundaries does not matter to a store inside one line. -/
theorem exists_flushLines_covers {e : TraceEntry} {s : Store} (hs : 1 ≤ s.size)
    (hin : inOneLine (.store s) = true) :
    (∃ f ∈ flushLines e, f.covers s = true) ↔ Encloses e s.addr (s.addr + s.size) := by
  have hend : s.addr + s.size ≤ s.addr / 64 * 64 + 64 := of_decide_eq_true hin
  simp only [flushLines, mem_flushPieces (lines_lt_flushFuel _ _), Encloses, Flush.covers,
    Flush.contains, lineOf, alignToFloor, cachelineBytes, decide_eq_true_eq]
  constructor
  · rintro ⟨f, ⟨l, -, -, rfl⟩, -, h1, h2⟩
    simp only at h1 h2
    omega
  · rintro ⟨h1, h2⟩
    refine ⟨_, ⟨s.addr / 64 * 64, by omega, by omega, rfl⟩, ?_⟩
    simp only
    omega

/-- Every flush covers whole cachelines. -/
def WholeLineFlushes (op : OpTraceEntry) : Prop :=
  ∀ e ∈ op.pmEntries, e.type.isFlushTy = true →
    e.addr % cachelineBytes = 0 ∧ e.size % cachelineBytes = 0

instance (op : OpTraceEntry) : Decidable (WholeLineFlushes op) :=
  inferInstanceAs (Decidable (∀ e ∈ op.pmEntries, _ → _))

/-- The bytes of a store are in one cacheline. -/
def InOneCacheline (e : TraceEntry) : Prop :=
  1 ≤ e.size ∧ lineOf e.addr = lineOf (e.addr + e.size - 1)

instance (e : TraceEntry) : Decidable (InOneCacheline e) := inferInstanceAs (Decidable (_ ∧ _))

/-- Two entries have a byte in common. -/
def Overlaps (a b : TraceEntry) : Prop := a.addr < b.addr + b.size ∧ b.addr < a.addr + a.size

instance (a b : TraceEntry) : Decidable (Overlaps a b) := inferInstanceAs (Decidable (_ ∧ _))

/-- A flush of whole lines that meets a store of one line contains it. -/
theorem encloses_of_overlaps {op : OpTraceEntry} (hflush : WholeLineFlushes op) {f u : TraceEntry}
    (hf : f ∈ op.pmEntries) (hty : f.type.isFlushTy = true) (hu : InOneCacheline u)
    (hov : Overlaps f u) : Encloses f u.addr (u.addr + u.size) := by
  obtain ⟨h1, h2⟩ := hflush f hf hty
  obtain ⟨hsize, hline⟩ := hu
  simp only [cachelineBytes, lineOf, alignToFloor] at h1 h2 hline
  simp only [Overlaps] at hov
  simp only [Encloses]
  omega

/-! ## Operations and entries -/

/-- The analysis of an operation that tracks non-atomic writes as one, with the atomic
operations it has run on. -/
structure Analysed (op : OpTraceEntry) (r : Analysis) (ops : List AtomicOp) : Prop where
  wf : op.WellFormed
  fresh : Fresh ops
  order : InSeqOrder ops
  inLine : ∀ o ∈ ops, inOneLine o = true
  describes : Describes r ops
  raw : ops.map rawOf = op.pmEntries.flatMap atomicOpsOf

theorem analysed_of_run {op : OpTraceEntry} (hwf : op.WellFormed) {flags : ConvFlags}
    (hflags : ConvFlags.asOne flags) {sample : List RawOp → List RawOp} {ops : List AtomicOp}
    (hops : convertAtomicOps flags sample op = some ops) {r : Analysis}
    (hrun : Analysis.run ops = some r) : Analysed op r ops := by
  have heq := convertAtomicOps_asOne hflags hops
  have hraw : ops.map rawOf = op.pmEntries.flatMap atomicOpsOf := by
    rw [heq, map_rawOf_allocate]
  have hfresh : Fresh ops := heq ▸ fresh_allocate 0 _
  refine ⟨hwf, hfresh, ?_, ?_, describes_of_run hfresh hrun, hraw⟩
  · rw [InSeqOrder, hraw]
    exact pairwise_rawOps hwf
  · rw [← run_isSome_iff hfresh, hrun]
    rfl

theorem exists_analysed {op : OpTraceEntry} (hwf : op.WellFormed) {flags : ConvFlags}
    (hflags : ConvFlags.asOne flags) {sample : List RawOp → List RawOp} {r : Analysis}
    (h : analysisInCacheRun flags sample op = some r) : ∃ ops, Analysed op r ops := by
  obtain ⟨ops, hops, hrun⟩ := Option.bind_eq_some_iff.mp h
  exact ⟨ops, analysed_of_run hwf hflags hops hrun⟩

namespace Analysed

variable {op : OpTraceEntry} {r : Analysis} {ops : List AtomicOp}

theorem mem_raw (h : Analysed op r ops) {o : RawOp} :
    (∃ a ∈ ops, rawOf a = o) ↔ ∃ e ∈ op.pmEntries, o ∈ atomicOpsOf e := by
  rw [← List.mem_flatMap, ← h.raw, List.mem_map]

/-- The atomic stores come from store records. -/
theorem store_of_mem (h : Analysed op r ops) {s : Store} (hs : .store s ∈ ops) :
    ∃ e, op.IsPmStore e ∧ s.args ∈ trackedWords e := by
  obtain ⟨x, hx, ho⟩ := h.mem_raw.mp ⟨_, hs, rfl⟩
  obtain ⟨h1, h2, h3, hw⟩ := store_mem_atomicOpsOf.mp ho
  refine ⟨x, h.wf.isPmStore_iff.mpr ⟨hx, ?_⟩, hw⟩
  obtain ⟨e, -, hpm, hxe⟩ := h.wf.mem_pmEntries.mp hx
  rcases TraceEntry.mem_getEntryList.mp hxe with rfl | ⟨-, rfl⟩
  · have himp : x.type.isImpFenceTy = false := by
      revert h1
      cases x.type <;> decide
    simp only [isPmEntry, h1, h2, h3, himp, Bool.or_false, Bool.false_eq_true, if_false] at hpm
    by_contra hst
    simp [hst] at hpm
  · simp [TraceEntry.flushOf, TraceType.isFlushTy] at h2

theorem exists_store (h : Analysed op r ops) {e : TraceEntry} (he : op.IsPmStore e)
    {w : StoreArgs} (hw : w ∈ trackedWords e) : ∃ s, .store s ∈ ops ∧ s.args = w := by
  obtain ⟨hmem, hst⟩ := h.wf.isPmStore_iff.mp he
  obtain ⟨h1, h2, h3⟩ := TraceType.isStoreSeries_cases hst
  obtain ⟨o, ho, hraw⟩ := h.mem_raw.mpr ⟨e, hmem, store_mem_atomicOpsOf.mpr ⟨h2, h1, h3, hw⟩⟩
  cases o with
  | store s => exact ⟨s, ho, Event.store.inj hraw⟩
  | flush f => exact absurd hraw (by simp [rawOf])
  | fence g => exact absurd hraw (by simp [rawOf])

theorem flush_mem_iff (h : Analysed op r ops) {f : Flush} :
    .flush f ∈ ops ↔ ∃ e ∈ op.pmEntries, e.type.isFlushTy = true ∧ f ∈ flushLines e := by
  have hraw := h.mem_raw (o := .flush f)
  simp only [flush_mem_atomicOpsOf] at hraw
  rw [← hraw]
  constructor
  · exact fun hf => ⟨_, hf, rfl⟩
  · rintro ⟨o, ho, heq⟩
    cases o with
    | store s => exact absurd heq (by simp [rawOf])
    | flush f' => exact Event.flush.inj heq ▸ ho
    | fence g => exact absurd heq (by simp [rawOf])

def rawFenceSeq : RawOp → Option Int
  | .fence g => some g.seq
  | _ => none

/-- The fences are those of the trace. -/
theorem fenceSeqs_eq (h : Analysed op r ops) :
    fenceSeqs ops = op.fenceEntries.map TraceEntry.seq := by
  have hops : fenceSeqs ops = (ops.map rawOf).filterMap rawFenceSeq := by
    clear h
    induction ops with
    | nil => rfl
    | cons o rest ih =>
      cases o with
      | store s => exact ih
      | flush f => exact ih
      | fence g => exact congrArg (g.seq :: ·) ih
  rw [hops, h.raw, OpTraceEntry.fenceEntries]
  clear hops
  induction op.pmEntries with
  | nil => rfl
  | cons e rest ih =>
    rw [List.flatMap_cons, List.filterMap_append, ih, atomicOpsOf]
    by_cases h1 : e.type.isFenceTy = true
    · simp [h1, rawFenceSeq]
    · split_ifs with h2 h3
      · simp [h1, rawFenceSeq, Function.comp_def]
      · simp [h1, rawFenceSeq]
      · simp [h1, rawFenceSeq]

/-- The fences stand in the order of their numbers. -/
theorem fencesBelow_fence (h : Analysed op r ops) {i : Nat} {g : TraceEntry}
    (hg : op.fenceEntries[i]? = some g) : fencesBelow ops g.seq = i := by
  have hsorted : (fenceSeqs ops).Pairwise fun a b => a < b := by
    rw [h.fenceSeqs_eq, List.pairwise_map]
    exact fenceEntries_pairwise h.wf
  rw [fencesBelow]
  refine countP_lt_of_getElem? hsorted ?_
  rw [h.fenceSeqs_eq, List.getElem?_map, hg]
  rfl

theorem fence_mem (h : Analysed op r ops) {g : TraceEntry} (hg : g ∈ op.pmEntries)
    (hty : g.type.isFenceTy = true) : ∃ g', .fence g' ∈ ops ∧ g'.seq = g.seq := by
  rw [← mem_fenceSeqs, h.fenceSeqs_eq]
  exact List.mem_map_of_mem (List.mem_filter.mpr ⟨hg, hty⟩)

theorem length_fenceEntries (h : Analysed op r ops) : op.fenceEntries.length = fences ops := by
  rw [← length_fenceSeqs, h.fenceSeqs_eq, List.length_map]

/-- An entry with fewer fences below it than a fence has precedes that fence. -/
theorem seq_lt_fence (h : Analysed op r ops) {x g : TraceEntry} (hx : x ∈ op.pmEntries)
    (hxty : x.type.isFenceTy = false) {i : Nat} (hg : op.fenceEntries[i]? = some g)
    (hN : fencesBelow ops x.seq ≤ i) : x.seq < g.seq := by
  obtain ⟨hmem, hty⟩ := List.mem_filter.mp (List.mem_of_getElem? hg)
  have hne : g.seq ≠ x.seq := by
    intro heq
    rw [h.wf.eq_of_fence_seq_eq hmem hty hx heq, hxty] at hty
    exact Bool.false_ne_true hty
  obtain ⟨g', hg', hgseq⟩ := h.fence_mem hmem hty
  have hgN := h.fencesBelow_fence hg
  by_contra hlt
  have hcount := fencesBelow_lt (x := g.seq) hg' (by omega) (show g'.seq < x.seq by omega)
  omega

/-- The first cluster of a store is that of the fence behind it. -/
theorem min?_clusters (h : Analysed op r ops) {x : Int} {c : Nat}
    (hm : (listAt r.inFlightSeqClusterMap x).min? = some c) : c = fencesBelow ops x + 1 := by
  obtain ⟨hmem, hle⟩ := List.min?_eq_some_iff.mp hm
  obtain ⟨⟨h1, hn⟩, hin⟩ := (h.describes.seqCluster x c).mp hmem
  have hlt := fencesBelow_lt_of_inFlightAt h.fresh h.order hin h1 hn
  obtain ⟨s, p, hp, rfl⟩ := hin
  have hfirst := inFlightAt_first h.fresh h.order (store_mem_of_mem_inFlight hp)
  have hcn := fencesBelow_le ops s.seq
  have := hle _ ((h.describes.seqCluster _ _).mpr ⟨⟨by omega, by omega⟩, hfirst⟩)
  omega

/-- The flushes of an atomic store are the flush entries that contain it. -/
theorem flushedBy_iff (h : Analysed op r ops) {s : Store} (hs : .store s ∈ ops)
    (hsize : 1 ≤ s.size) {y : Int} : (∃ f, FlushedBy ops s f ∧ f.seq = y) ↔
      s.seq ≤ y ∧ ∃ x ∈ op.pmEntries, x.type.isFlushTy = true ∧ x.seq = y ∧
        Encloses x s.addr (s.addr + s.size) := by
  constructor
  · rintro ⟨f, ⟨hf, hcov, hle⟩, rfl⟩
    obtain ⟨x, hx, hty, hfx⟩ := h.flush_mem_iff.mp hf
    exact ⟨hle, x, hx, hty, (seq_of_mem_flushLines hfx).symm,
      (exists_flushLines_covers hsize (h.inLine _ hs)).mp ⟨f, hfx, hcov⟩⟩
  · rintro ⟨hle, x, hx, hty, rfl, henc⟩
    obtain ⟨f, hfx, hcov⟩ := (exists_flushLines_covers hsize (h.inLine _ hs)).mpr henc
    have hseq := seq_of_mem_flushLines hfx
    exact ⟨f, ⟨h.flush_mem_iff.mpr ⟨x, hx, hty, hfx⟩, hcov, by omega⟩, hseq⟩

/-- A flushed store waits for the fence behind its first flush. -/
theorem flushingAt_of_enclosed (h : Analysed op r ops) {s : Store} (hs : .store s ∈ ops)
    (hsize : 1 ≤ s.size) {e : TraceEntry} (he : e ∈ op.pmEntries) (hty : e.type.isFlushTy = true)
    (hle : s.seq ≤ e.seq) (henc : Encloses e s.addr (s.addr + s.size)) :
    ∃ y, s.seq ≤ y ∧ y ≤ e.seq ∧ FlushingAt ops (fencesBelow ops y + 1) s.seq := by
  obtain ⟨f, hby, hseq⟩ := (h.flushedBy_iff hs hsize).mpr ⟨hle, e, he, hty, rfl, henc⟩
  obtain ⟨f₁, hfirst⟩ := exists_firstFlush h.order hs ⟨f, hby⟩
  have hle₁ := hfirst.2 f hby
  have hmono := fencesBelow_mono ops hfirst.1.2.2
  have hcn := fencesBelow_le ops f₁.seq
  refine ⟨f₁.seq, hfirst.1.2.2, by omega, s, ?_, rfl⟩
  rw [mem_inFlight_of_firstFlush h.fresh h.order hs hfirst (by omega) (by omega)]
  exact ⟨by omega, Or.inr ⟨rfl, rfl⟩⟩

/-- The atomic stores with the number of a store record are its tracked words. -/
theorem args_mem_of_seq_eq (h : Analysed op r ops) {e : TraceEntry} (he : op.IsPmStore e)
    {s : Store} (hs : .store s ∈ ops) (hseq : s.seq = e.seq) : s.args ∈ trackedWords e := by
  obtain ⟨e', he', hw⟩ := h.store_of_mem hs
  have hseq' : s.seq = e'.seq := seq_of_mem_trackedWords hw
  rwa [he'.eq_of_seq_eq he (hseq'.symm.trans hseq)] at hw

/-- A store whose words are all flushed first at one number has the clusters between the
fence behind it and the fence behind that flush. -/
theorem mem_clusters_iff (h : Analysed op r ops) {e : TraceEntry} (he : op.IsPmStore e)
    (hsize : 1 ≤ e.size) {y : Int}
    (hfirst : ∀ s, .store s ∈ ops → s.seq = e.seq → ∃ f, FirstFlush ops s f ∧ f.seq = y)
    {c : Nat} : c ∈ listAt r.inFlightSeqClusterMap e.seq ↔
      fencesBelow ops e.seq < c ∧ c ≤ fencesBelow ops y + 1 := by
  have hy := fencesBelow_le ops y
  rw [h.describes.seqCluster]
  constructor
  · rintro ⟨⟨h1, hn⟩, s, p, hp, hseq⟩
    have hs := store_mem_of_mem_inFlight hp
    obtain ⟨f, hff, rfl⟩ := hfirst s hs hseq
    obtain ⟨hlt, hwin⟩ := (mem_inFlight_of_firstFlush h.fresh h.order hs hff h1 hn).mp hp
    rw [hseq] at hlt
    rcases hwin with ⟨hle, -⟩ | ⟨heq, -⟩
    · exact ⟨hlt, by omega⟩
    · exact ⟨hlt, by omega⟩
  · rintro ⟨hlt, hle⟩
    obtain ⟨w, hw⟩ := exists_trackedWord hsize
    obtain ⟨s, hs, rfl⟩ := h.exists_store he hw
    have hseq : s.seq = e.seq := seq_of_mem_trackedWords hw
    obtain ⟨f, hff, rfl⟩ := hfirst s hs hseq
    refine ⟨⟨by omega, by omega⟩, ?_⟩
    by_cases hlast : c = fencesBelow ops f.seq + 1
    · refine ⟨s, .flushing, ?_, hseq⟩
      rw [mem_inFlight_of_firstFlush h.fresh h.order hs hff (by omega) (by omega), hseq]
      exact ⟨hlt, Or.inr ⟨hlast, rfl⟩⟩
    · refine ⟨s, .volatile, ?_, hseq⟩
      rw [mem_inFlight_of_firstFlush h.fresh h.order hs hff (by omega) (by omega), hseq]
      exact ⟨hlt, Or.inl ⟨by omega, rfl⟩⟩

end Analysed

end OpTrace
end Silhouette
