import Silhouette.OpTrace.CacheRun
import Silhouette.Cache.EntryOpConv

/-!
# The atomic operations of an operation's trace

With non-atomic writes tracked as one, the atomic operations are read off the entries
one by one: a fence is a fence, a flush is cut at line boundaries, a memory copy or set
is its first word and any other store all its words.  They come in sequence order, and
this module turns statements about positions in the list into statements about sequence
numbers.
-/

namespace Silhouette
namespace OpTrace

open Lib Lib.Persist Cache Trace

/-- `analysis_in_cache_run` on a fresh entry. -/
def analysisInCacheRun (flags : ConvFlags) (sample : List RawOp → List RawOp)
    (op : OpTraceEntry) : Option Analysis :=
  (convertAtomicOps flags sample op).bind Analysis.run

/-- Non-atomic writes are tracked, each as one store. -/
def ConvFlags.asOne (flags : ConvFlags) : Prop :=
  flags.ignoreNonatomicWrite = false ∧ flags.nonatomicAsOne = true

/-- The words of a store that the analysis tracks. -/
def trackedWords (e : TraceEntry) : List StoreArgs :=
  if e.type.isMemTransStore || e.type.isMemset then (storePieces e).head?.toList
  else if e.type.isCASTy then [⟨e.seq, e.addr, e.size⟩]
  else storePieces e

/-- The lines of a flush. -/
def flushLines (e : TraceEntry) : List Flush :=
  flushPieces e.seq (e.addr + e.size) (flushFuel e.addr (e.addr + e.size)) e.addr

def atomicOpsOf (e : TraceEntry) : List RawOp :=
  if e.type.isFenceTy then [.fence ⟨e.seq⟩]
  else if e.type.isFlushTy then (flushLines e).map .flush
  else if e.type.isLoadSeries then []
  else (trackedWords e).map .store

theorem type_of_nonatomic {t : TraceType} (h : (t.isMemTransStore || t.isMemset) = true) :
    t.isFenceTy = false ∧ t.isFlushTy = false ∧ t.isLoadSeries = false ∧ t.isCASTy = false := by
  cases t <;> revert h <;> decide

theorem convertOne_asOne {flags : ConvFlags} (hflags : ConvFlags.asOne flags)
    {sample : List RawOp → List RawOp} {e : TraceEntry} {l : List RawOp}
    (h : convertOne flags sample e = some l) : l = atomicOpsOf e := by
  rw [convertOne] at h
  by_cases hna : (e.type.isMemTransStore || e.type.isMemset) = true
  · obtain ⟨h1, h2, h3, h4⟩ := type_of_nonatomic hna
    rw [if_pos hna, hflags.1, hflags.2] at h
    simp only [Bool.false_eq_true, if_false, if_true, Option.bind_eq_bind,
      Option.bind_eq_some_iff, convertEntry, h1, h2, h3, h4] at h
    obtain ⟨tmp, htmp, hl⟩ := h
    split_ifs at htmp with hassert
    rw [← Option.some.inj htmp, List.head?_map, Option.map_map] at hl
    obtain ⟨w, hw, rfl⟩ := Option.map_eq_some_iff.mp hl
    simp [atomicOpsOf, trackedWords, h1, h2, h3, hna, hw]
  · rw [if_neg hna, convertEntry] at h
    rw [atomicOpsOf]
    by_cases hfe : e.type.isFenceTy = true
    · rw [if_pos hfe] at h ⊢
      exact (Option.some.inj h).symm
    · rw [if_neg hfe] at h ⊢
      by_cases hfl : e.type.isFlushTy = true
      · rw [if_pos hfl] at h ⊢
        exact (Option.some.inj h).symm
      · rw [if_neg hfl] at h ⊢
        by_cases hld : e.type.isLoadSeries = true
        · rw [if_pos hld] at h ⊢
          exact (Option.some.inj h).symm
        · rw [if_neg hld] at h ⊢
          rw [trackedWords, if_neg hna]
          by_cases hcas : e.type.isCASTy = true
          · rw [if_pos hcas] at h ⊢
            exact (Option.some.inj h).symm
          · rw [if_neg hcas] at h ⊢
            split_ifs at h with hassert
            exact (Option.some.inj h).symm

/-- The atomic operations are those of the entries, in sequence order. -/
theorem convertAtomicOps_asOne {flags : ConvFlags} (hflags : ConvFlags.asOne flags)
    {sample : List RawOp → List RawOp} {op : OpTraceEntry} {ops : List AtomicOp}
    (h : convertAtomicOps flags sample op = some ops) :
    ops = allocate 0 (op.pmEntries.flatMap atomicOpsOf) := by
  obtain ⟨raw, hraw, rfl⟩ := Option.map_eq_some_iff.mp h
  obtain ⟨blocks, hblocks, rfl⟩ := Option.map_eq_some_iff.mp hraw
  have hlist : ∀ (x : Int × List TraceEntry) (l : List RawOp),
      convertEntryList flags sample x.2 = some l → l = x.2.flatMap atomicOpsOf := by
    intro x l hl
    obtain ⟨r, hr, rfl⟩ := Option.map_eq_some_iff.mp hl
    rw [mapM_eq_map (fun e y hy => convertOne_asOne hflags hy) hr, List.flatMap_def]
  rw [mapM_eq_map hlist hblocks, OpTraceEntry.pmEntries, List.flatMap_assoc, List.flatMap_def]
  rfl

/-! ## Order -/

/-- Entries of one record share its sequence number, the store before its flush. -/
def EntryBefore (a b : TraceEntry) : Prop :=
  a.seq < b.seq ∨ a.seq = b.seq ∧ a.type.isStoreSeries = true ∧ b.type.isFlushTy = true

theorem isStoreSeries_of_flushing {t : TraceType}
    (h : (t.isStoreAndFlushTy || t.isCASTy) = true) : t.isStoreSeries = true := by
  cases t <;> revert h <;> decide

/-- Records in sequence order, each with its entries. -/
theorem pairwise_entryLists {d : Dict Int (List TraceEntry)}
    (h : ∀ x ∈ d.items, ∃ e : TraceEntry, x = (e.seq, e.getEntryList)) :
    ((sortBy Prod.fst d.items).flatMap Prod.snd).Pairwise EntryBefore := by
  rw [List.pairwise_flatMap]
  constructor
  · intro x hx
    obtain ⟨e, rfl⟩ := h x (mem_sortBy.mp hx)
    rw [TraceEntry.getEntryList]
    by_cases h : (e.type.isStoreAndFlushTy || e.type.isCASTy) = true
    · rw [if_pos h, List.pairwise_pair]
      exact Or.inr ⟨rfl, isStoreSeries_of_flushing h, rfl⟩
    · rw [if_neg h]
      exact List.pairwise_singleton _ _
  · have hlt : (sortBy Prod.fst d.items).Pairwise fun x y => x.1 < y.1 :=
      sortBy_pairwise_lt (Dict.nodup_keys _)
    refine hlt.imp_of_mem (fun {x y} hx hy hxy a ha b hb => Or.inl ?_)
    obtain ⟨e, rfl⟩ := h x (mem_sortBy.mp hx)
    obtain ⟨e', rfl⟩ := h y (mem_sortBy.mp hy)
    rw [TraceEntry.seq_of_mem_getEntryList ha, TraceEntry.seq_of_mem_getEntryList hb]
    exact hxy

theorem pmEntries_pairwise {op : OpTraceEntry} (hwf : op.WellFormed) :
    op.pmEntries.Pairwise EntryBefore := by
  refine pairwise_entryLists fun x hx => ?_
  obtain ⟨e, he, -⟩ := hwf.item x hx
  exact ⟨e, he⟩

/-- No two fences share a sequence number. -/
theorem fenceEntries_pairwise {op : OpTraceEntry} (hwf : op.WellFormed) :
    op.fenceEntries.Pairwise fun a b => a.seq < b.seq := by
  rw [OpTraceEntry.fenceEntries]
  refine ((pmEntries_pairwise hwf).filter _).imp_of_mem (fun {a b} ha _ hab => ?_)
  rcases hab with hlt | ⟨-, hst, -⟩
  · exact hlt
  · have hfe := (List.mem_filter.mp ha).2
    rw [(TraceType.isStoreSeries_cases hst).2.1] at hfe
    exact absurd hfe Bool.false_ne_true

def opSeq : RawOp → Int
  | .store a => a.seq
  | .flush f => f.seq
  | .fence g => g.seq

/-- Fences have sequence numbers of their own, and a flush with the number of a store
comes after it. -/
def MayShareSeq : RawOp → RawOp → Prop
  | .store _, .store _ => True
  | .store _, .flush _ => True
  | .flush _, .flush _ => True
  | _, _ => False

def OpBefore (a b : RawOp) : Prop :=
  opSeq a ≤ opSeq b ∧ (opSeq a = opSeq b → MayShareSeq a b)

theorem seq_of_mem_flushLines {e : TraceEntry} {f : Flush} (h : f ∈ flushLines e) :
    f.seq = e.seq := by
  obtain ⟨l, -, -, rfl⟩ := (mem_flushPieces (lines_lt_flushFuel _ _)).mp h
  rfl

theorem seq_of_mem_trackedWords {e : TraceEntry} {w : StoreArgs} (h : w ∈ trackedWords e) :
    w.seq = e.seq := by
  rw [trackedWords] at h
  split_ifs at h with h1 h2
  · rw [Option.mem_toList] at h
    exact seq_of_mem_storePieces (List.mem_of_mem_head? h)
  · rw [List.mem_singleton.mp h]
  · exact seq_of_mem_storePieces h

theorem opSeq_of_mem_atomicOpsOf {e : TraceEntry} {o : RawOp} (h : o ∈ atomicOpsOf e) :
    opSeq o = e.seq := by
  rw [atomicOpsOf] at h
  split_ifs at h with h1 h2 h3
  · rw [List.mem_singleton.mp h]
    rfl
  · obtain ⟨f, hf, rfl⟩ := List.mem_map.mp h
    exact seq_of_mem_flushLines hf
  · exact absurd h List.not_mem_nil
  · obtain ⟨w, hw, rfl⟩ := List.mem_map.mp h
    exact seq_of_mem_trackedWords hw

theorem isFenceTy_of_isFlushTy {t : TraceType} (h : t.isFlushTy = true) : t.isFenceTy = false := by
  cases t <;> revert h <;> decide

theorem fence_mem_atomicOpsOf {e : TraceEntry} {g : Fence} :
    .fence g ∈ atomicOpsOf e ↔ e.type.isFenceTy = true ∧ g = ⟨e.seq⟩ := by
  rw [atomicOpsOf]
  split_ifs with h1 h2 h3
  · simp [h1]
  · simp [h1]
  · simp [h1]
  · simp [h1]

theorem flush_mem_atomicOpsOf {e : TraceEntry} {f : Flush} :
    .flush f ∈ atomicOpsOf e ↔ e.type.isFlushTy = true ∧ f ∈ flushLines e := by
  rw [atomicOpsOf]
  by_cases h2 : e.type.isFlushTy = true
  · simp [h2, isFenceTy_of_isFlushTy h2]
  · split_ifs with h1 h3
    · simp [h2]
    · simp [h2]
    · simp [h2]

theorem store_mem_atomicOpsOf {e : TraceEntry} {w : StoreArgs} :
    .store w ∈ atomicOpsOf e ↔ e.type.isFenceTy = false ∧ e.type.isFlushTy = false ∧
      e.type.isLoadSeries = false ∧ w ∈ trackedWords e := by
  rw [atomicOpsOf]
  split_ifs with h1 h2 h3
  · simp [h1]
  · simp [h2]
  · simp [h3]
  · simp [h1, h2, h3]

/-- Operations of two entries stand in the order of the entries. -/
theorem opBefore_of_entryBefore {a b : TraceEntry} (h : EntryBefore a b) {o o' : RawOp}
    (ho : o ∈ atomicOpsOf a) (ho' : o' ∈ atomicOpsOf b) : OpBefore o o' := by
  rw [OpBefore, opSeq_of_mem_atomicOpsOf ho, opSeq_of_mem_atomicOpsOf ho']
  rcases h with hlt | ⟨heq, hst, hfl⟩
  · exact ⟨hlt.le, fun heq => absurd heq hlt.ne⟩
  · obtain ⟨hnfl, hnfe, -⟩ := TraceType.isStoreSeries_cases hst
    refine ⟨heq.le, fun _ => ?_⟩
    cases o with
    | fence g =>
      rw [fence_mem_atomicOpsOf, hnfe] at ho
      exact absurd ho.1 Bool.false_ne_true
    | flush f =>
      rw [flush_mem_atomicOpsOf, hnfl] at ho
      exact absurd ho.1 Bool.false_ne_true
    | store w =>
      cases o' with
      | fence g =>
        rw [fence_mem_atomicOpsOf, isFenceTy_of_isFlushTy hfl] at ho'
        exact absurd ho'.1 Bool.false_ne_true
      | flush f => trivial
      | store w' => trivial

/-- Within one entry all operations are of one kind, and a fence is alone. -/
theorem pairwise_atomicOpsOf (e : TraceEntry) : (atomicOpsOf e).Pairwise OpBefore := by
  have hseq : ∀ o ∈ atomicOpsOf e, ∀ o' ∈ atomicOpsOf e, opSeq o ≤ opSeq o' := by
    intro o ho o' ho'
    rw [opSeq_of_mem_atomicOpsOf ho, opSeq_of_mem_atomicOpsOf ho']
  by_cases h1 : e.type.isFenceTy = true
  · rw [atomicOpsOf, if_pos h1]
    exact List.pairwise_singleton _ _
  · refine List.Pairwise.imp_of_mem (fun {o o'} ho ho' _ => ⟨hseq o ho o' ho', fun _ => ?_⟩)
      (List.pairwise_of_forall (fun _ _ => trivial))
    cases o with
    | fence g => exact h1 (fence_mem_atomicOpsOf.mp ho).1
    | flush f =>
      cases o' with
      | fence g => exact h1 (fence_mem_atomicOpsOf.mp ho').1
      | flush f' => trivial
      | store w =>
        have hno := (store_mem_atomicOpsOf.mp ho').2.1
        rw [(flush_mem_atomicOpsOf.mp ho).1] at hno
        exact absurd hno (by simp)
    | store w =>
      cases o' with
      | fence g => exact h1 (fence_mem_atomicOpsOf.mp ho').1
      | flush f' => trivial
      | store w' => trivial

theorem pairwise_rawOps {op : OpTraceEntry} (hwf : op.WellFormed) :
    (op.pmEntries.flatMap atomicOpsOf).Pairwise OpBefore := by
  rw [List.pairwise_flatMap]
  refine ⟨fun e _ => pairwise_atomicOpsOf e, ?_⟩
  exact (pmEntries_pairwise hwf).imp (fun hab o ho o' ho' => opBefore_of_entryBefore hab ho ho')

/-! ## Positions by sequence number -/

/-- The operations stand in the order of a trace. -/
def InSeqOrder (ops : List AtomicOp) : Prop := (ops.map rawOf).Pairwise OpBefore

def fenceSeqs : List AtomicOp → List Int
  | [] => []
  | .fence g :: rest => g.seq :: fenceSeqs rest
  | .store _ :: rest => fenceSeqs rest
  | .flush _ :: rest => fenceSeqs rest

/-- How many fences have a smaller sequence number. -/
def fencesBelow (ops : List AtomicOp) (x : Int) : Nat := (fenceSeqs ops).countP fun g => g < x

theorem length_fenceSeqs (ops : List AtomicOp) : (fenceSeqs ops).length = fences ops := by
  induction ops with
  | nil => rfl
  | cons o rest ih => cases o <;> simp [fenceSeqs, fences, ih]

theorem fenceSeqs_append (a b : List AtomicOp) : fenceSeqs (a ++ b) = fenceSeqs a ++ fenceSeqs b := by
  induction a with
  | nil => rfl
  | cons o rest ih => cases o <;> simp [fenceSeqs, ih]

theorem mem_fenceSeqs {ops : List AtomicOp} {x : Int} :
    x ∈ fenceSeqs ops ↔ ∃ g, .fence g ∈ ops ∧ g.seq = x := by
  induction ops with
  | nil => simp [fenceSeqs]
  | cons o rest ih => cases o <;> simp [fenceSeqs, ih, eq_comm]

theorem fencesBelow_le (ops : List AtomicOp) (x : Int) : fencesBelow ops x ≤ fences ops := by
  rw [fencesBelow, ← length_fenceSeqs]
  exact List.countP_le_length

theorem fencesBelow_mono (ops : List AtomicOp) {x y : Int} (h : x ≤ y) :
    fencesBelow ops x ≤ fencesBelow ops y := by
  refine List.countP_mono_left (fun g _ hg => ?_)
  simp only [decide_eq_true_eq] at *
  omega

/-- A fence between two numbers is counted for the larger one only. -/
theorem fencesBelow_lt {ops : List AtomicOp} {x y : Int} {g : Fence} (hg : .fence g ∈ ops)
    (hx : x ≤ g.seq) (hy : g.seq < y) : fencesBelow ops x < fencesBelow ops y := by
  have hmem : g.seq ∈ fenceSeqs ops := mem_fenceSeqs.mpr ⟨g, hg, rfl⟩
  rw [fencesBelow, fencesBelow]
  obtain ⟨a, b, hab⟩ := List.append_of_mem hmem
  rw [hab, List.countP_append, List.countP_append, List.countP_cons, List.countP_cons]
  have ha : a.countP (fun g => g < x) ≤ a.countP (fun g => g < y) := by
    refine List.countP_mono_left (fun z _ hz => ?_)
    simp only [decide_eq_true_eq] at *
    omega
  have hb : b.countP (fun g => g < x) ≤ b.countP (fun g => g < y) := by
    refine List.countP_mono_left (fun z _ hz => ?_)
    simp only [decide_eq_true_eq] at *
    omega
  have h1 : ¬ g.seq < x := by omega
  simp only [h1, hy, decide_false, decide_true, if_true, Bool.false_eq_true, if_false]
  omega

namespace InSeqOrder

variable {ops pre post : List AtomicOp} {o : AtomicOp}

theorem before (h : InSeqOrder (pre ++ o :: post)) {a : AtomicOp} (ha : a ∈ pre) :
    OpBefore (rawOf a) (rawOf o) := by
  rw [InSeqOrder, List.map_append, List.pairwise_append] at h
  exact h.2.2 _ (List.mem_map_of_mem ha) _ (List.mem_map_of_mem List.mem_cons_self)

theorem after (h : InSeqOrder (pre ++ o :: post)) {b : AtomicOp} (hb : b ∈ post) :
    OpBefore (rawOf o) (rawOf b) := by
  rw [InSeqOrder, List.map_append, List.pairwise_append, List.map_cons] at h
  exact List.rel_of_pairwise_cons h.2.1 (List.mem_map_of_mem hb)

theorem fence_lt (h : InSeqOrder (pre ++ o :: post)) {g : Fence} (hg : .fence g ∈ pre) :
    g.seq < opSeq (rawOf o) := by
  obtain ⟨hle, heq⟩ := h.before hg
  refine lt_of_le_of_ne hle (fun he => ?_)
  have hm := heq he
  cases o <;> simp [rawOf, MayShareSeq] at hm

theorem lt_fence (h : InSeqOrder (pre ++ o :: post)) {g : Fence} (hg : .fence g ∈ post) :
    opSeq (rawOf o) < g.seq := by
  obtain ⟨hle, heq⟩ := h.after hg
  refine lt_of_le_of_ne hle (fun he => ?_)
  have hm := heq he
  cases o <;> simp [rawOf, MayShareSeq] at hm

/-- The fences before an operation are those with smaller sequence numbers. -/
theorem fences_eq (h : InSeqOrder (pre ++ o :: post)) :
    fences pre = fencesBelow (pre ++ o :: post) (opSeq (rawOf o)) := by
  have hpre : (fenceSeqs pre).countP (fun g => g < opSeq (rawOf o)) = fences pre := by
    rw [← length_fenceSeqs, List.countP_eq_length]
    intro x hx
    obtain ⟨g, hg, rfl⟩ := mem_fenceSeqs.mp hx
    exact decide_eq_true (h.fence_lt hg)
  have hpost : (fenceSeqs post).countP (fun g => g < opSeq (rawOf o)) = 0 := by
    rw [List.countP_eq_zero]
    intro x hx
    obtain ⟨g, hg, rfl⟩ := mem_fenceSeqs.mp hx
    have hlt := h.lt_fence hg
    simp only [decide_eq_true_eq]
    omega
  have hmid : (fenceSeqs (o :: post)).countP (fun g => g < opSeq (rawOf o)) = 0 := by
    cases o with
    | store s => exact hpost
    | flush f => exact hpost
    | fence g =>
      rw [fenceSeqs, List.countP_cons, hpost]
      simp [rawOf, opSeq]
  rw [fencesBelow, fenceSeqs_append, List.countP_append, hpre, hmid, Nat.add_zero]

/-- A flush that does not precede a store in sequence stands behind it. -/
theorem flush_mem_post (h : InSeqOrder (pre ++ .store s :: post)) {f : Flush}
    (hf : .flush f ∈ pre ++ .store s :: post) (hle : s.seq ≤ f.seq) : .flush f ∈ post := by
  rcases List.mem_append.mp hf with hf | hf
  · obtain ⟨hle', heq⟩ := h.before hf
    have he : opSeq (rawOf (.flush f)) = opSeq (rawOf (.store s)) := le_antisymm hle' hle
    exact absurd (heq he) (by simp [rawOf, MayShareSeq])
  · rcases List.mem_cons.mp hf with hf | hf
    · simp at hf
    · exact hf

end InSeqOrder

end OpTrace
end Silhouette
