import Silhouette.CrashPlan.Scheme2CP

/-!
# Does the plan of a store persist it alone

The plan is meant to persist one store only among all in-flight stores, with what must
be durable before it.  Its prefix starts at the smallest member of that set.  In the
first epoch, or when nothing older is in the set, every earlier store is in the prefix,
in flight or not.
-/

namespace Silhouette
namespace CrashPlan

open Lib Lib.Persist Cache Trace OpTrace Image

/-- Of the stores in flight with a store in its first cluster, a plan writes only those it
depends on and the earlier ones in its cachelines. -/
def PersistsAlone (op : OpTraceEntry) (r : Analysis) (st : TraceEntry) (cp : CrashPlanEntry) :
    Prop :=
  ∀ c, (listAt r.inFlightSeqClusterMap st.seq).min? = some c →
    ∀ t ∈ writtenSeqs op cp, t ≠ st.seq → t ∈ listAt r.inFlightClusterSeqMap c →
      t ∈ depsOf r.writeDepSeqMap st.seq ∨ t < st.seq ∧ InLinesOf op st t

/-- Another store in flight with `st` that has nothing to do with it. -/
structure Bystander (op : OpTraceEntry) (ops : List AtomicOp) (st : TraceEntry) (c : Nat)
    (t : Int) : Prop where
  store : t ∈ op.pmSortedStoreSeq
  ne : t ≠ st.seq
  inFlight : InFlightAt ops c t
  independent : ¬ OverwrittenBy ops st.seq t
  elsewhere : ¬ (t < st.seq ∧ InLinesOf op st t)

/-- A bystander is left out by a plan: it was not flushed before, and it is newer than the
store itself or than something persisted before it. -/
def LeftOut (ops : List AtomicOp) (st : TraceEntry) (c : Nat) (t : Int) : Prop :=
  ¬ FlushedEarlier ops c t ∧
    (st.seq < t ∨ ∃ y, y < t ∧ (FlushedEarlier ops c y ∨ OverwrittenBy ops st.seq y))

section

variable {op : OpTraceEntry} {r : Analysis} {ops : List AtomicOp} {st : TraceEntry} {c : Nat}
  {cp : CrashPlanEntry}

/-- What a plan writes of the bystanders. -/
theorem mem_written_of_bystander (hwf : op.WellFormed) (hd : Describes r ops)
    (hp : PersistsSelf op r st c cp) (hc : c ≤ fences ops + 1) {t : Int}
    (ht : Bystander op ops st c t) : t ∈ writtenSeqs op cp ↔ ¬ LeftOut ops st c t := by
  rw [mem_written_persistSelf hwf hp.set hp.start, LeftOut]
  simp only [mem_persistedBefore_iff hd hc, ht.store, ht.ne, ht.independent, true_and, false_or,
    or_false, forall_eq_or_imp]
  constructor
  · rintro (hfl | ⟨hlt, hlines | ⟨-, hall⟩⟩) ⟨hno, hnew⟩
    · exact hno hfl
    · exact ht.elsewhere ⟨hlt, hlines⟩
    · rcases hnew with hgt | ⟨y, hyt, hy⟩
      · omega
      · have := hall y hy
        omega
  · intro h
    by_cases hfl : FlushedEarlier ops c t
    · exact Or.inl hfl
    · refine Or.inr ?_
      have hlt : t < st.seq := by
        by_contra hge
        have := ht.ne
        exact h ⟨hfl, Or.inl (by omega)⟩
      refine ⟨hlt, Or.inr ⟨hlt, fun y hy => ?_⟩⟩
      by_contra hge
      by_cases heq : y = t
      · rcases hy with hy | hy
        · exact hfl (heq ▸ hy)
        · exact ht.independent (heq ▸ hy)
      · exact h ⟨hfl, Or.inr ⟨y, by omega, hy⟩⟩

theorem persistsAlone_iff (hwf : op.WellFormed) (hd : Describes r ops)
    (hp : PersistsSelf op r st c cp) :
    PersistsAlone op r st cp ↔ ∀ t, Bystander op ops st c t → LeftOut ops st c t := by
  obtain ⟨⟨h1, hn⟩, -, -⟩ := (firstInFlight_iff hd).mp hp.cluster
  constructor
  · intro halone t ht
    by_contra hnot
    have hw := (mem_written_of_bystander hwf hd hp hn ht).mpr hnot
    have hin := (hd.clusterSeq c t).mpr (Or.inl ⟨⟨h1, hn⟩, ht.inFlight⟩)
    rcases halone c hp.cluster t hw ht.ne hin with hdep | hlines
    · exact ht.independent ((hd.writeDep st.seq t).mp hdep)
    · exact ht.elsewhere hlines
  · intro hleft c' hc' t hw hne hin
    rw [hp.cluster, Option.some.injEq] at hc'
    subst hc'
    by_contra hnot
    rw [not_or] at hnot
    have hin' : InFlightAt ops c t := by
      rcases (hd.clusterSeq c t).mp hin with ⟨-, hin'⟩ | ⟨hlast, -⟩
      · exact hin'
      · omega
    have ht : Bystander op ops st c t :=
      { store := (mem_writtenSeqs.mp hw).1
        ne := hne
        inFlight := hin'
        independent := fun h => hnot.1 ((hd.writeDep st.seq t).mpr h)
        elsewhere := hnot.2 }
    exact (mem_written_of_bystander hwf hd hp hn ht).mp hw (hleft t ht)

end

/-- The plan of a store persists it alone exactly when every bystander is left out. -/
theorem persist_self_alone_iff (op : OpTrace) (flags : ConvFlags)
    (sample : List RawOp → List RawOp) {ops : List AtomicOp}
    (hops : convertAtomicOps flags sample op.toOpTraceEntry = some ops) {r : Analysis}
    (hr : Analysis.run ops = some r) (st : TraceEntry) (pflags : PlanFlags)
    (pick : List Int → Int) {plans : List CrashPlanEntry}
    (hplans : Scheme2CP.gen2cpForAStore op.toOpTraceEntry r pflags pick st = some plans)
    {cp : CrashPlanEntry} (hcp : cp ∈ plans) (hun : cp.samplingType = .samplingNone)
    (hty : cp.type = .unprotectedPersistSelf) :
    PersistsAlone op.toOpTraceEntry r st cp ↔
      ∀ c t, FirstInFlight ops st.seq c → Bystander op.toOpTraceEntry ops st c t →
        LeftOut ops st c t := by
  have hfresh : Fresh ops := by
    obtain ⟨raw, -, rfl⟩ := Option.map_eq_some_iff.mp hops
    exact fresh_allocate 0 raw
  have hd := describes_of_run hfresh hr
  rcases mem_genPlans hplans hcp hun with ⟨-, c, hp⟩ | ⟨hother, -⟩
  · rw [persistsAlone_iff op.wf hd hp]
    constructor
    · intro h c' t hc' ht
      have heq : c' = c := by
        have := ((firstInFlight_iff hd).mpr hc').symm.trans hp.cluster
        exact Option.some.inj this
      rw [heq] at ht ⊢
      exact h t ht
    · exact fun h t ht => h c t ((firstInFlight_iff hd).mp hp.cluster) ht
  · rw [hty] at hother
    exact absurd hother (by simp)

/-- A durable store, and then two stores in one epoch. -/
def secondEpochTrace : OpTrace :=
  OpTrace.ofRecords (.plain .startFn 0 0 0) "write" 0 4096 0
    [.plain .store 1 0 8, .plain .asmFlush 2 0 64, .plain .asmFence 3 0 0, .plain .store 4 64 8,
      .plain .store 5 128 8, .plain .asmFence 6 0 0] (by decide +kernel)

def secondEpochOps : List AtomicOp :=
  (convertAtomicOps ⟨false, true, false⟩ id secondEpochTrace.toOpTraceEntry).get
    (by decide +kernel)

def secondEpochAnalysis : Analysis := (Analysis.run secondEpochOps).get (by decide +kernel)

/-- The plans of the last store. -/
def secondEpochPlans : List CrashPlanEntry :=
  (Scheme2CP.gen2cpForAStore secondEpochTrace.toOpTraceEntry secondEpochAnalysis ⟨true, false⟩
    (fun _ => 0) (.plain .store 5 128 8)).get (by decide +kernel)

/-- The durable store keeps the other store of the epoch out of the prefix. -/
theorem persist_self_alone_second_epoch :
    ∃ cp ∈ secondEpochPlans, cp.type = .unprotectedPersistSelf ∧
      PersistsAlone secondEpochTrace.toOpTraceEntry secondEpochAnalysis (.plain .store 5 128 8)
        cp := by
  obtain ⟨cp, hcp, hty, hun⟩ : ∃ cp ∈ secondEpochPlans, cp.type = .unprotectedPersistSelf ∧
      cp.samplingType = .samplingNone := by decide +kernel
  refine ⟨cp, hcp, hty, ?_⟩
  refine (persist_self_alone_iff secondEpochTrace ⟨false, true, false⟩ id
    (Option.some_get _).symm (Option.some_get _).symm (.plain .store 5 128 8) ⟨true, false⟩
    (fun _ => 0) (Option.some_get _).symm hcp hun hty).mpr ?_
  intro c t hc ht
  have hsecond : InFlightAt secondEpochOps 2 5 := by decide +kernel
  have hfirst : ¬ InFlightAt secondEpochOps 1 5 := by decide +kernel
  have hc2 : c = 2 := by
    obtain ⟨⟨h1, -⟩, hin, hmin⟩ := hc
    by_cases hle : c ≤ 1
    · have hc1 : c = 1 := by omega
      exact absurd (hc1 ▸ hin) hfirst
    · by_contra hne
      exact hmin 2 (by omega) (by omega) hsecond
  subst hc2
  have hstores : t = 1 ∨ t = 4 ∨ t = 5 := by
    have hall : ∀ t ∈ secondEpochTrace.pmSortedStoreSeq, t = 1 ∨ t = 4 ∨ t = 5 := by
      decide +kernel
    exact hall t ht.store
  rcases hstores with rfl | rfl | rfl
  · exact absurd ht.inFlight (by decide +kernel)
  · have hno : ¬ FlushingAt secondEpochOps 1 4 := by decide +kernel
    refine ⟨?_, Or.inr ⟨1, by decide, Or.inl ⟨1, by decide, by decide +kernel⟩⟩⟩
    rintro ⟨k, ⟨h1, h2⟩, hk⟩
    have hk1 : k = 1 := by omega
    exact hno (hk1 ▸ hk)
  · exact absurd rfl ht.ne

/-- Two stores to different lines in the first epoch. -/
def firstEpochTrace : OpTrace :=
  OpTrace.ofRecords (.plain .startFn 0 0 0) "write" 0 4096 0
    [.plain .store 1 64 8, .plain .store 2 0 8, .plain .asmFence 3 0 0] (by decide +kernel)

def firstEpochAnalysis : Analysis :=
  (analysisInCacheRun ⟨false, true, false⟩ id firstEpochTrace.toOpTraceEntry).get
    (by decide +kernel)

/-- The plans of the second store. -/
def firstEpochPlans : List CrashPlanEntry :=
  (Scheme2CP.gen2cpForAStore firstEpochTrace.toOpTraceEntry firstEpochAnalysis ⟨true, false⟩
    (fun _ => 0) (.plain .store 2 0 8)).get (by decide +kernel)

/-- The plan of the second store also persists the first, which is in flight elsewhere. -/
theorem persist_self_not_alone_first_epoch :
    firstEpochTrace.IsPmStore (.plain .store 2 0 8) ∧
    ∃ cp ∈ firstEpochPlans, cp.type = .unprotectedPersistSelf ∧
      cp.samplingType = .samplingNone ∧
      ¬ PersistsAlone firstEpochTrace.toOpTraceEntry firstEpochAnalysis (.plain .store 2 0 8)
        cp := by
  refine ⟨by decide +kernel, ?_⟩
  obtain ⟨cp, hcp, hty, hun, hw⟩ : ∃ cp ∈ firstEpochPlans, cp.type = .unprotectedPersistSelf ∧
      cp.samplingType = .samplingNone ∧ 1 ∈ writtenSeqs firstEpochTrace.toOpTraceEntry cp := by
    decide +kernel
  refine ⟨cp, hcp, hty, hun, fun halone => ?_⟩
  rcases halone 1 (by decide +kernel) 1 hw (by decide) (by decide +kernel) with hdep | ⟨-, hlines⟩
  · exact absurd hdep (by decide +kernel)
  · obtain ⟨e, he, hseq, -, hle⟩ := hlines
    have heq := he.eq_of_seq_eq (b := .plain .store 1 64 8) (by decide +kernel) hseq
    rw [heq] at hle
    exact absurd hle (by decide)

end CrashPlan
end Silhouette
