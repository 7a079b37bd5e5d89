import Silhouette.CrashPlan.Scheme2CP
import Silhouette.OpTrace.Window

/-!
# Store order within a cacheline

Stores to one cacheline become durable in the order they were issued, so a crash image
that has a store of a line must have the earlier ones.  The two plans of a store look
for such stores inside the cachelines of that store only, and only for those that lie
in them as a whole.  A store over several lines, or one that is flushed in parts, can
be passed over.
-/

namespace Silhouette
namespace CrashPlan

open Lib Lib.Persist Cache Trace OpTrace Image

/-- A byte of the store is in the cacheline. -/
def Touches (e : TraceEntry) (a : Int) : Prop :=
  ∃ b, e.addr ≤ b ∧ b < e.addr + e.size ∧ lineOf b = a

/-- Two stores of an operation with a cacheline in common. -/
def ShareLine (op : OpTraceEntry) (t u : Int) : Prop :=
  ∃ e e', op.IsPmStore e ∧ e.seq = t ∧ op.IsPmStore e' ∧ e'.seq = u ∧
    ∃ a, Touches e a ∧ Touches e' a

/-- What a plan writes respects the order of stores within each cacheline. -/
def RespectsTso (op : OpTraceEntry) (cp : CrashPlanEntry) : Prop :=
  ∀ t u, t ∈ writtenSeqs op cp → u < t → ShareLine op t u → u ∈ writtenSeqs op cp

/-! ## Selections -/

/-- How a plan selects stores: by a set of them, by those added for their cacheline, and by
the prefix before the set. -/
structure Selection where
  member : Int → Prop
  added : Int → Prop

namespace Selection

/-- Selected for a store with number `s`. -/
def Selects (sel : Selection) (s x : Int) : Prop :=
  sel.member x ∨ sel.added x ∨ x < s ∧ ∀ y, sel.member y → x < y

/-- An earlier store of the cacheline of a selected one is not selected. -/
def PassesOver (sel : Selection) (op : OpTraceEntry) (s : Int) : Prop :=
  ∃ t u, (sel.member t ∨ sel.added t) ∧ u < t ∧ ShareLine op t u ∧ ¬ sel.Selects s u

/-- The prefix passes over nothing. -/
theorem respectsTso_iff (sel : Selection) {op : OpTraceEntry} (hwf : op.WellFormed) {s : Int}
    {cp : CrashPlanEntry}
    (hw : ∀ x, x ∈ writtenSeqs op cp ↔ x ∈ op.pmSortedStoreSeq ∧ sel.Selects s x) :
    RespectsTso op cp ↔ ¬ sel.PassesOver op s := by
  constructor
  · rintro htso ⟨t, u, ht, hlt, hshare, hu⟩
    have hstore : t ∈ op.pmSortedStoreSeq := by
      obtain ⟨e, -, he, het, -⟩ := hshare
      exact (hwf.mem_storeSeq t).mpr ⟨e, he, het⟩
    have htw : t ∈ writtenSeqs op cp := by
      refine (hw t).mpr ⟨hstore, ?_⟩
      rcases ht with ht | ht
      · exact Or.inl ht
      · exact Or.inr (Or.inl ht)
    exact hu ((hw u).mp (htso t u htw hlt hshare)).2
  · intro hno t u ht hlt hshare
    have hstore : u ∈ op.pmSortedStoreSeq := by
      obtain ⟨-, e', -, -, he', heu, -⟩ := hshare
      exact (hwf.mem_storeSeq u).mpr ⟨e', he', heu⟩
    refine (hw u).mpr ⟨hstore, ?_⟩
    by_contra hu
    rcases ((hw t).mp ht).2 with hm | ha | ⟨hts, hall⟩
    · exact hno ⟨t, u, Or.inl hm, hlt, hshare, hu⟩
    · exact hno ⟨t, u, Or.inr ha, hlt, hshare, hu⟩
    · exact hu (Or.inr (Or.inr ⟨hlt.trans hts, fun y hy => hlt.trans (hall y hy)⟩))

end Selection

/-- The selection of the plan that persists a store. -/
def selfSelection (op : OpTraceEntry) (ops : List AtomicOp) (st : TraceEntry) (c : Nat) :
    Selection where
  member x := x = st.seq ∨ FlushedEarlier ops c x ∨ OverwrittenBy ops st.seq x
  added x := x < st.seq ∧ InLinesOf op st x

/-- The selection of the plan that persists the other stores. -/
def otherSelection (op : OpTraceEntry) (ops : List AtomicOp) (st : TraceEntry) (c : Nat) :
    Selection where
  member x := FlushedEarlier ops (c + 1) x ∧ x ≠ st.seq ∧
    (st.seq < x → ¬ OverwrittenBy ops x st.seq ∧ ¬ InLinesOf op st x)
  added _ := False

section

variable {op : OpTraceEntry} {r : Analysis} {ops : List AtomicOp} {st : TraceEntry} {c : Nat}
  {cp : CrashPlanEntry}

theorem self_respectsTso_iff (hwf : op.WellFormed) (hd : Describes r ops)
    (hp : PersistsSelf op r st c cp) :
    RespectsTso op cp ↔ ¬ (selfSelection op ops st c).PassesOver op st.seq := by
  have hc := ((firstInFlight_iff hd).mp hp.cluster).1.2
  refine Selection.respectsTso_iff _ hwf (fun x => ?_)
  rw [mem_written_persistSelf hwf hp.set hp.start]
  refine and_congr_right fun _ => ?_
  simp only [Selection.Selects, selfSelection, mem_persistedBefore_iff hd hc, and_or_left]

theorem other_respectsTso_iff (hwf : op.WellFormed) (hd : Describes r ops)
    (hp : PersistsOther op r st c cp) :
    RespectsTso op cp ↔ ¬ (otherSelection op ops st c).PassesOver op st.seq := by
  have hc := ((lastInFlight_iff hd).mp hp.cluster).1.2
  refine Selection.respectsTso_iff _ hwf (fun x => ?_)
  rw [mem_written_persistOther hp.set hp.start]
  refine and_congr_right fun _ => ?_
  simp only [Selection.Selects, otherSelection, mem_persistOtherSet_iff hwf hd hc, false_or]

end

/-- Neither of the plans asked for passes over a store. -/
def NonePassedOver (op : OpTraceEntry) (ops : List AtomicOp) (st : TraceEntry)
    (persistSelf persistOther : Bool) : Prop :=
  (persistSelf = true → ∀ c, FirstInFlight ops st.seq c →
    ¬ (selfSelection op ops st c).PassesOver op st.seq) ∧
  (persistOther = true → ∀ c, LastInFlight ops st.seq c →
    ¬ (otherSelection op ops st c).PassesOver op st.seq)

theorem genPlans_respect_tso_iff {op : OpTraceEntry} (hwf : op.WellFormed) {r : Analysis}
    {ops : List AtomicOp} (hd : Describes r ops) {flags : PlanFlags} {pick : List Int → Int}
    {persistSelf persistOther : Bool} {cpType : Option CrashPlanType} {st : TraceEntry}
    {plans : List CrashPlanEntry}
    (h : genPlans op r flags pick persistSelf persistOther cpType st = some plans) :
    (∀ cp ∈ plans, cp.samplingType = .samplingNone → RespectsTso op cp) ↔
      (sampled flags st = false → NonePassedOver op ops st persistSelf persistOther) := by
  constructor
  · intro htso hs
    constructor
    · intro hself c hc
      obtain ⟨cp, hcp, hp⟩ := exists_persistSelfPlan ((firstInFlight_iff hd).mpr hc)
      obtain ⟨hmem, hun⟩ := (mem_genPlans_unsampled h).mpr ⟨hs, Or.inl ⟨hself, cp, hcp, rfl⟩⟩
      exact (self_respectsTso_iff hwf hd (hp.retype _)).mp (htso _ hmem hun)
    · intro hother c hc
      obtain ⟨cp, hcp, hp⟩ := exists_persistOtherPlan ((lastInFlight_iff hd).mpr hc)
      obtain ⟨hmem, hun⟩ := (mem_genPlans_unsampled h).mpr ⟨hs, Or.inr ⟨hother, cp, hcp, rfl⟩⟩
      exact (other_respectsTso_iff hwf hd (hp.retype _)).mp (htso _ hmem hun)
  · intro hnone cp hcp hun
    obtain ⟨hs, hkind⟩ := (mem_genPlans_unsampled h).mp ⟨hcp, hun⟩
    obtain ⟨hself, hother⟩ := hnone hs
    rcases hkind with ⟨hemit, cp₀, hcp₀, rfl⟩ | ⟨hemit, cp₀, hcp₀, rfl⟩
    · obtain ⟨-, c, hp⟩ := persistSelfPlan_eq_some hcp₀
      refine (self_respectsTso_iff hwf hd (hp.retype _)).mpr ?_
      exact hself hemit c ((firstInFlight_iff hd).mp hp.cluster)
    · obtain ⟨-, c, hp⟩ := persistOtherPlan_eq_some hcp₀
      refine (other_respectsTso_iff hwf hd (hp.retype _)).mpr ?_
      exact hother hemit c ((lastInFlight_iff hd).mp hp.cluster)

/-! ## Stores inside one line -/

theorem lineOf_eq_of_touches {e : TraceEntry} (hone : InOneCacheline e) {a : Int}
    (h : Touches e a) : lineOf e.addr = a := by
  obtain ⟨b, h1, h2, rfl⟩ := h
  obtain ⟨hsize, hline⟩ := hone
  simp only [lineOf, alignToFloor, cachelineBytes] at hline ⊢
  omega

theorem upperAddr_eq {st : TraceEntry} (hone : InOneCacheline st) :
    upperAddr st = lineOf st.addr + 64 := by
  obtain ⟨hsize, hline⟩ := hone
  simp only [lineOf, alignToFloor, cachelineBytes] at hline
  show (if (st.addr + st.size) % 64 ≠ 0 then (1 + (st.addr + st.size) / 64) * 64
    else st.addr + st.size) = st.addr / 64 * 64 + 64
  split_ifs
  · omega
  · omega

/-- Lying in the cachelines of a store is being in its line. -/
theorem inLinesOf_iff {op : OpTraceEntry} (hone : ∀ e, op.IsPmStore e → InOneCacheline e)
    {st e : TraceEntry} (hst : op.IsPmStore st) (he : op.IsPmStore e) :
    InLinesOf op st e.seq ↔ lineOf e.addr = lineOf st.addr := by
  have hupper := upperAddr_eq (hone st hst)
  obtain ⟨hsize, hline⟩ := hone e he
  have hlower : lowerAddr st = lineOf st.addr := rfl
  constructor
  · rintro ⟨e', he', hseq, h1, h2⟩
    rw [he'.eq_of_seq_eq he hseq, hlower] at h1
    rw [he'.eq_of_seq_eq he hseq, hupper] at h2
    simp only [lineOf, alignToFloor, cachelineBytes] at hline h1 h2 ⊢
    omega
  · intro heq
    refine ⟨e, he, rfl, ?_, ?_⟩
    · rw [hlower, ← heq]
      exact lineOf_le e.addr
    · rw [hupper, ← heq]
      simp only [lineOf, alignToFloor, cachelineBytes] at hline ⊢
      omega

section

variable {op : OpTraceEntry} {r : Analysis} {ops : List AtomicOp}

/-- A tracked word is in the line of its store. -/
theorem lineOf_store (h : Analysed op r ops) {e : TraceEntry} (he : op.IsPmStore e)
    (hone : InOneCacheline e) {s : Store} (hs : .store s ∈ ops) (hseq : s.seq = e.seq) :
    lineOf s.addr = lineOf e.addr := by
  obtain ⟨h1, h2, h3⟩ := trackedWords_inside (h.args_mem_of_seq_eq he hs hseq)
  obtain ⟨hsize, hline⟩ := hone
  have h1' : e.addr ≤ s.addr := h1
  have h2' : s.addr + s.size ≤ e.addr + e.size := h2
  have h3' : 1 ≤ s.size := h3 hsize
  simp only [lineOf, alignToFloor, cachelineBytes] at hline ⊢
  omega

/-- A store that another overwrites is in its line. -/
theorem lineOf_eq_of_overwrittenBy (h : Analysed op r ops)
    (hone : ∀ e, op.IsPmStore e → InOneCacheline e) {e e' : TraceEntry} (he : op.IsPmStore e)
    (he' : op.IsPmStore e') (hov : OverwrittenBy ops e.seq e'.seq) :
    lineOf e.addr = lineOf e'.addr ∧ e'.seq < e.seq := by
  obtain ⟨k, -, hlt, s, p, t, q, hs, ht, hse, hte, hline, -⟩ := hov
  rw [lineOf_store h he (hone e he) (store_mem_of_mem_inFlight hs) hse,
    lineOf_store h he' (hone e' he') (store_mem_of_mem_inFlight ht) hte] at hline
  exact ⟨hline, hlt⟩

/-- The flush of a whole line takes the earlier stores of the line with it. -/
theorem flushedEarlier_of_sameLine (h : Analysed op r ops) (hflush : WholeLineFlushes op)
    (hone : ∀ e, op.IsPmStore e → InOneCacheline e) {e e' : TraceEntry} (he : op.IsPmStore e)
    (he' : op.IsPmStore e') (hline : lineOf e.addr = lineOf e'.addr) (hlt : e'.seq < e.seq)
    {c : Nat} (hc : c ≤ fences ops + 2) (hfl : FlushedEarlier ops c e.seq) :
    FlushedEarlier ops c e'.seq := by
  obtain ⟨k, ⟨hk1, hkc⟩, s, hp, hseq⟩ := hfl
  have hs := store_mem_of_mem_inFlight hp
  obtain ⟨hin1, hin2, hin3⟩ := trackedWords_inside (h.args_mem_of_seq_eq he hs hseq)
  have hsize : 1 ≤ s.size := hin3 (hone e he).1
  by_cases hby : ∃ f, FlushedBy ops s f
  · obtain ⟨f, hff⟩ := exists_firstFlush h.order hs hby
    obtain ⟨-, ⟨-, hph⟩ | ⟨hk, -⟩⟩ :=
      (mem_inFlight_of_firstFlush h.fresh h.order hs hff hk1 (by omega)).mp hp
    · exact absurd hph (by simp)
    · obtain ⟨hle, x, hx, hxty, hxseq, henc1, henc2⟩ :=
        (h.flushedBy_iff hs hsize).mp ⟨f, hff.1, rfl⟩
      have hin1' : e.addr ≤ s.addr := hin1
      have hin2' : s.addr + s.size ≤ e.addr + e.size := hin2
      obtain ⟨henc1', henc2'⟩ := encloses_of_overlaps hflush hx hxty (hone e he)
        ⟨by omega, by omega⟩
      -- the flush is of the whole line, so it contains the other store too
      obtain ⟨hal1, hal2⟩ := hflush x hx hxty
      obtain ⟨hsize', hline'⟩ := hone e' he'
      have hsizee := (hone e he).1
      simp only [lineOf, alignToFloor, cachelineBytes] at hline hline' hal1 hal2
      obtain ⟨w, hw⟩ := exists_trackedWord hsize'
      obtain ⟨s', hs', rfl⟩ := h.exists_store he' hw
      have hseq' : s'.seq = e'.seq := seq_of_mem_trackedWords hw
      obtain ⟨hw1, hw2, hw3⟩ := trackedWords_inside hw
      have hw1' : e'.addr ≤ s'.addr := hw1
      have hw2' : s'.addr + s'.size ≤ e'.addr + e'.size := hw2
      obtain ⟨y, -, hyx, hfl⟩ := h.flushingAt_of_enclosed hs' (hw3 hsize') hx hxty (by omega)
        ⟨by omega, by omega⟩
      have hmono := fencesBelow_mono ops hyx
      rw [hxseq] at hmono
      exact ⟨fencesBelow ops y + 1, ⟨by omega, by omega⟩, hseq' ▸ hfl⟩
  · rw [not_exists] at hby
    obtain ⟨-, hph⟩ := (mem_inFlight_of_unflushed h.fresh h.order hs hby hk1).mp hp
    exact absurd hph (by simp)

/-- With flushes of whole lines, plans pass over no store when every store is inside one
line. -/
theorem nonePassedOver_of_oneLine (h : Analysed op r ops) (hflush : WholeLineFlushes op)
    (hone : ∀ e, op.IsPmStore e → InOneCacheline e) {st : TraceEntry} (hst : op.IsPmStore st)
    (persistSelf persistOther : Bool) : NonePassedOver op ops st persistSelf persistOther := by
  constructor
  · rintro - c ⟨⟨-, hc⟩, -⟩ ⟨t, u, ht, hlt, ⟨e, e', he, rfl, he', rfl, a, ha, ha'⟩, hu⟩
    have hline : lineOf e.addr = lineOf e'.addr := by
      rw [lineOf_eq_of_touches (hone e he) ha, lineOf_eq_of_touches (hone e' he') ha']
    rcases ht with (heq | hfl | hov) | ⟨hts, hin⟩
    · rw [he.eq_of_seq_eq hst heq] at hline
      refine hu (Or.inr (Or.inl ⟨by omega, (inLinesOf_iff hone hst he').mpr hline.symm⟩))
    · exact hu (Or.inl (Or.inr (Or.inl
        (flushedEarlier_of_sameLine h hflush hone he he' hline hlt (by omega) hfl))))
    · obtain ⟨hline', hlt'⟩ := lineOf_eq_of_overwrittenBy h hone hst he hov
      exact hu (Or.inr (Or.inl ⟨by omega,
        (inLinesOf_iff hone hst he').mpr (hline.symm.trans hline'.symm)⟩))
    · have hline' := (inLinesOf_iff hone hst he).mp hin
      exact hu (Or.inr (Or.inl ⟨by omega,
        (inLinesOf_iff hone hst he').mpr (hline.symm.trans hline')⟩))
  · rintro - c ⟨⟨-, hc⟩, -⟩ ⟨t, u, ht, hlt, ⟨e, e', he, rfl, he', rfl, a, ha, ha'⟩, hu⟩
    have hline : lineOf e.addr = lineOf e'.addr := by
      rw [lineOf_eq_of_touches (hone e he) ha, lineOf_eq_of_touches (hone e' he') ha']
    rcases ht with ⟨hfl, hne, hlater⟩ | hfalse
    · -- a later store of the line of `st` was removed
      have hnot : lineOf e.addr = lineOf st.addr → st.seq < e.seq → False :=
        fun hl hgt => (hlater hgt).2 ((inLinesOf_iff hone hst he).mpr hl)
      refine hu (Or.inl ⟨flushedEarlier_of_sameLine h hflush hone he he' hline hlt (by omega) hfl,
        ?_, fun hgt => ⟨?_, ?_⟩⟩)
      · intro heq
        rw [he'.eq_of_seq_eq hst heq] at hline
        exact hnot hline (by omega)
      · intro hov
        obtain ⟨hline', -⟩ := lineOf_eq_of_overwrittenBy h hone he' hst hov
        exact hnot (hline.trans hline') (by omega)
      · intro hin
        exact hnot (hline.trans ((inLinesOf_iff hone hst he').mp hin)) (by omega)
    · exact hfalse

end

/-- Two stores to one line, flushed together, and a third one behind the fence. -/
def sameLineTrace : OpTrace :=
  OpTrace.ofRecords (.plain .startFn 0 0 0) "write" 0 4096 0
    [.plain .store 1 0 8, .plain .store 2 8 8, .plain .asmFlush 3 0 64, .plain .asmFence 4 0 0,
      .plain .store 5 0 8, .plain .asmFence 6 0 0] (by decide +kernel)

def sameLineOps : List AtomicOp :=
  (convertAtomicOps ⟨false, true, false⟩ id sameLineTrace.toOpTraceEntry).get (by decide +kernel)

def sameLineAnalysis : Analysis := (Analysis.run sameLineOps).get (by decide +kernel)

/-- The plans of the last store. -/
def sameLinePlans : List CrashPlanEntry :=
  (Scheme2CP.gen2cpForAStore sameLineTrace.toOpTraceEntry sameLineAnalysis ⟨true, false⟩
    (fun _ => 0) (.plain .store 5 0 8)).get (by decide +kernel)

/-- A durable store, a store over two lines, and one to the first of these lines. -/
def passedOverTrace : OpTrace :=
  OpTrace.ofRecords (.plain .startFn 0 0 0) "write" 0 4096 0
    [.plain .store 1 192 8, .plain .asmFlush 2 192 64, .plain .asmFence 3 0 0,
      .plain .store 4 60 8, .plain .store 5 0 8] (by decide +kernel)

def passedOverAnalysis : Analysis :=
  (analysisInCacheRun ⟨false, true, false⟩ id passedOverTrace.toOpTraceEntry).get
    (by decide +kernel)

/-- The plans of the last store. -/
def passedOverPlans : List CrashPlanEntry :=
  (Scheme2CP.gen2cpForAStore passedOverTrace.toOpTraceEntry passedOverAnalysis ⟨true, false⟩
    (fun _ => 0) (.plain .store 5 0 8)).get (by decide +kernel)

end CrashPlan
end Silhouette
