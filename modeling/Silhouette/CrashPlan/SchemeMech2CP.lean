import Silhouette.CrashPlan.Scheme2CP
import Silhouette.Mech.DeduceMech
import Silhouette.OpTrace.OtherFlags

/-!
# The Mech2CP scheme covers every store

`CrashPlanSchemeMech2CP.generate_crash_plans`.  Stores outside the deduced mechanisms get the two
plans of the 2CP scheme.  Of the stores inside, the ones that check a recovery get a plan of their
own, and the others none.

Every store is in some cluster of the analysis, so no plan fails: a store is in flight at the first
fence behind it.
-/

namespace Silhouette
namespace CrashPlan

open Lib Lib.Persist Cache Trace OpTrace Mech

namespace SchemeMech2CP

section

variable (op : OpTraceEntry) (r : Analysis) (ignoreNonatomicWrite : Bool) (flags : PlanFlags)
  (pick : List Int → Int)

/-- The plans of a store that a set of sequence numbers asks for. -/
def plansIn (seqSet : Finset Int) (persistSelf persistOther : Bool) (cpType : CrashPlanType)
    (st : TraceEntry) : Option (List CrashPlanEntry) :=
  if st.seq ∈ seqSet then
    gen2cpForAStore op r flags pick persistSelf persistOther (some cpType) st
  else some []

/-- The plans of a store that is in no mechanism.  A store without cluster is an error. -/
def unprotectedPlans (mechSeqSet : Finset Int) (st : TraceEntry) : Option (List CrashPlanEntry) :=
  if st.seq ∈ mechSeqSet then some []
  else if ignoreNonatomicWrite && (st.type.isMemset || st.type.isMemTransStore) then some []
  else if (r.inFlightSeqClusterMap.get? st.seq).isNone then none
  else gen2cpForAStore op r flags pick true true none st

def storePlans (p : PersistSeq) (st : TraceEntry) : Option (List CrashPlanEntry) := do
  let selfPlans ← plansIn op r flags pick p.persistSelfSeqSet true false .mechPersistSelf st
  let otherPlans ← plansIn op r flags pick p.persistOtherSeqSet false true .mechPersistOther st
  let plans ← unprotectedPlans op r ignoreNonatomicWrite flags pick p.mechSeqSet st
  return selfPlans ++ otherPlans ++ plans

def generateCrashPlans (d : DeduceMech) : Option (List CrashPlanEntry) :=
  (d.pmstoreReason.mapM fun e =>
    storePlans op r ignoreNonatomicWrite flags pick (d.getPersistSeq false true) e.op).map
      List.flatten

end

end SchemeMech2CP

/-! ## Every store is in a cluster -/

/-- A store is in flight at the fence that follows it. -/
theorem inFlightAt_next (pre post : List AtomicOp) (s : Store) :
    InFlightAt (pre ++ .store s :: post) (fences pre + 1) s.seq := by
  have hcut : beforeFence (fences pre + 1) (pre ++ .store s :: post) =
      pre ++ .store s :: beforeFence 1 post := by
    have hone : fences pre + 1 - fences pre = 1 := by omega
    rw [beforeFence_append_of_lt (Nat.lt_succ_self _), Nat.succ_eq_add_one, hone]
    rfl
  refine ⟨s, phase Flush.covers s (beforeFence 1 post), ?_, rfl⟩
  rw [hcut, mem_inFlight_iff, mem_life_iff]
  refine ⟨⟨pre, beforeFence 1 post, rfl, rfl⟩, fun hdurable => ?_⟩
  -- there is no fence in between
  obtain ⟨f, g, -, hsub⟩ := (phase_eq_durable_iff Flush.covers).mp hdurable
  have hfences : fences (beforeFence 1 post) = 0 := by
    rw [fences_beforeFence (Nat.le_refl 1)]
    simp
  exact fences_ne_zero_of_mem (hsub.subset (by simp : Event.fence g ∈ _)) hfences

theorem exists_cluster {r : Analysis} {ops : List AtomicOp} (hd : Describes r ops) {s : Store}
    (hs : .store s ∈ ops) : listAt r.inFlightSeqClusterMap s.seq ≠ [] := by
  obtain ⟨pre, post, rfl⟩ := List.append_of_mem hs
  refine List.ne_nil_of_mem ((hd.seqCluster _ (fences pre + 1)).mpr ⟨⟨by omega, ?_⟩,
    inFlightAt_next pre post s⟩)
  rw [fences_append]
  omega

section

variable {flags : ConvFlags} {sample : List RawOp → List RawOp}

/-- A drawn sample has the asked number of elements, all from the list. -/
def Samples (sample : List RawOp → List RawOp) : Prop :=
  ∀ l, atomicSamplingNumber < l.length → (sample l).length = atomicSamplingNumber ∧ sample l ⊆ l

theorem samples_take_one : Samples (List.take 1) := by
  intro l hl
  refine ⟨?_, List.take_subset 1 l⟩
  rw [List.length_take]
  exact Nat.min_eq_left hl.le

/-- Some word of a store is converted, however the words are chosen. -/
theorem exists_store_convertOne (hsample : Samples sample)
    (hflags : flags.ignoreNonatomicWrite = false) {e : TraceEntry} (hst : e.type.isStoreSeries)
    (hsize : 1 ≤ e.size) {l : List RawOp} (h : convertOne flags sample e = some l) :
    ∃ w, .store w ∈ l ∧ w.seq = e.seq := by
  obtain ⟨hflush, hfence, hload⟩ := TraceType.isStoreSeries_cases hst
  have hpieces : storePieces e ≠ [] := by
    refine List.ne_nil_of_mem (mem_storePieces.mpr ⟨e.addr / 8 * 8, ?_, ?_, ?_, rfl⟩) <;> omega
  have hseq : ∀ o ∈ (storePieces e).map Event.store, ∃ w : StoreArgs,
      o = (.store w : RawOp) ∧ w.seq = e.seq := by
    intro o ho
    obtain ⟨w, hw, rfl⟩ := List.mem_map.mp ho
    exact ⟨w, rfl, seq_of_mem_storePieces hw⟩
  have hwords : ∀ l, convertEntry e = some l → l ≠ [] ∧
      ∀ o ∈ l, ∃ w : StoreArgs, o = (.store w : RawOp) ∧ w.seq = e.seq := by
    intro l hl
    simp only [convertEntry, hfence, hflush, hload, Bool.false_eq_true, if_false] at hl
    split_ifs at hl with hcas hvalues
    · rw [← Option.some.inj hl]
      exact ⟨List.cons_ne_nil _ _, by simp⟩
    · rw [← Option.some.inj hl]
      exact ⟨by simpa using hpieces, hseq⟩
  have hexists : ∀ l : List RawOp, l ≠ [] →
      (∀ o ∈ l, ∃ w : StoreArgs, o = (.store w : RawOp) ∧ w.seq = e.seq) →
      ∃ w, .store w ∈ l ∧ w.seq = e.seq := by
    intro l hne hall
    obtain ⟨o, ho⟩ := List.exists_mem_of_ne_nil l hne
    obtain ⟨w, rfl, hw⟩ := hall o ho
    exact ⟨w, ho, hw⟩
  rw [convertOne] at h
  split at h
  · rw [if_neg (by simp [hflags])] at h
    obtain ⟨tmp, htmp, h⟩ := Option.bind_eq_some_iff.mp h
    obtain ⟨hne, hall⟩ := hwords tmp htmp
    split_ifs at h with hone hmany
    · obtain ⟨o, ho, rfl⟩ := Option.map_eq_some_iff.mp h
      refine hexists _ (List.cons_ne_nil _ _) fun o' ho' => ?_
      rw [List.mem_singleton.mp ho']
      exact hall o (List.mem_of_mem_head? ho)
    · obtain ⟨hlen, hsub⟩ := hsample tmp (of_decide_eq_true (Bool.and_eq_true_iff.mp hmany).2)
      rw [← Option.some.inj h]
      refine hexists _ ?_ fun o ho => hall o (hsub ho)
      rw [← List.length_pos_iff, hlen]
      decide
    · rw [← Option.some.inj h]
      exact hexists tmp hne hall
  · obtain ⟨hne, hall⟩ := hwords l h
    exact hexists l hne hall

theorem cluster_of_store (hsample : Samples sample) (hflags : flags.ignoreNonatomicWrite = false)
    {op : OpTraceEntry} (hwf : op.WellFormed) {r : Analysis}
    (hr : analysisInCacheRun flags sample op = some r) {st : TraceEntry} (hst : op.IsPmStore st)
    (hsize : 1 ≤ st.size) : listAt r.inFlightSeqClusterMap st.seq ≠ [] := by
  obtain ⟨ops, hops, hrun⟩ := Option.bind_eq_some_iff.mp hr
  obtain ⟨hmem, hty⟩ := hwf.isPmStore_iff.mp hst
  have hconv : ∀ e ∈ op.pmEntries,
      convertOne flags sample e = some ((convertOne flags sample e).getD []) := by
    intro e he
    obtain ⟨l, hl⟩ := Option.isSome_iff_exists.mp (convertOne_isSome hops e he)
    rw [hl, Option.getD_some]
  have heq : ops = allocate 0
      (op.pmEntries.flatMap fun e => (convertOne flags sample e).getD []) := by
    rw [convertAtomicOps_of_forall hconv] at hops
    exact (Option.some.inj hops).symm
  obtain ⟨w, hw, hseq⟩ := exists_store_convertOne hsample hflags hty hsize (hconv st hmem)
  have hraw : .store w ∈ ops.map rawOf := by
    rw [heq, map_rawOf_allocate]
    exact List.mem_flatMap.mpr ⟨st, hmem, hw⟩
  obtain ⟨o, ho, hrawOf⟩ := List.mem_map.mp hraw
  cases o with
  | store s =>
    have hsw : s.args = w := Event.store.inj hrawOf
    have hsseq : s.seq = st.seq := by
      rw [← hseq, ← hsw]
      rfl
    rw [← hsseq]
    exact exists_cluster (describes_of_run (heq ▸ fresh_allocate 0 _) hrun) ho
  | flush f => cases hrawOf
  | fence g => cases hrawOf

end

/-! ## The plans of one store -/

section

variable {op : OpTraceEntry} {r : Analysis} {flags : PlanFlags} {pick : List Int → Int}
  {st : TraceEntry} {plans : List CrashPlanEntry}

/-- A plan stands for at least one plan, all of its type and for its store. -/
theorem expandPlan_spec (hsize : 1 ≤ st.size) (cp : CrashPlanEntry) :
    ∃ l, expandPlan flags pick st cp = some l ∧ l ≠ [] ∧
      ∀ cp' ∈ l, cp'.type = cp.type ∧ cp'.expDataSeqs = cp.expDataSeqs := by
  have hrange : ∀ step : Int, 0 < step → pyRange st.addr (st.addr + st.size) step ≠ [] := by
    intro step hstep
    refine List.ne_nil_of_mem ((mem_pyRange hstep).mpr ⟨0, rfl, ?_⟩)
    simp only [Int.natCast_zero, Int.zero_mul]
    omega
  have hmap : ∀ l : List Int, ∀ cp' ∈ l.map (sampleAt cp st.seq),
      cp'.type = cp.type ∧ cp'.expDataSeqs = cp.expDataSeqs := by
    intro l cp' hcp'
    obtain ⟨addr, -, rfl⟩ := List.mem_map.mp hcp'
    exact ⟨rfl, rfl⟩
  simp only [expandPlan]
  split_ifs with hsampled hpick hnil
  · exact absurd hnil (hrange _ (by decide))
  · exact ⟨_, rfl, List.cons_ne_nil _ _, hmap [_]⟩
  · exact ⟨_, rfl, List.cons_ne_nil _ _, hmap [_]⟩
  · exact ⟨_, rfl, List.cons_ne_nil _ _, hmap (st.addr :: _)⟩
  · exact ⟨_, rfl, by simpa using hrange 1 (by decide), hmap _⟩
  · exact ⟨_, rfl, List.cons_ne_nil _ _, by simp⟩

theorem emitPlan_spec (hsize : 1 ≤ st.size) {plan : Option CrashPlanEntry} {cp₀ : CrashPlanEntry}
    (hplan : plan = some cp₀) (cpType : Option CrashPlanType) (emit : Bool) :
    ∃ l, emitPlan flags pick cpType st emit plan = some l ∧ (emit = true → l ≠ []) ∧
      ∀ cp ∈ l, emit = true ∧ cp.type = cpType.getD cp₀.type ∧ cp.expDataSeqs = cp₀.expDataSeqs := by
  cases emit with
  | false => exact ⟨[], rfl, fun h => absurd h Bool.false_ne_true, by simp⟩
  | true =>
    obtain ⟨l, hl, hne, hall⟩ := @expandPlan_spec flags pick st hsize
      { cp₀ with type := cpType.getD cp₀.type }
    refine ⟨l, ?_, fun _ => hne, fun cp hcp => ⟨rfl, hall cp hcp⟩⟩
    rw [emitPlan, if_pos rfl, hplan]
    exact hl

/-- A plan of this type for the store. -/
def HasPlan (plans : List CrashPlanEntry) (seq : Int) (type : CrashPlanType) : Prop :=
  ∃ cp ∈ plans, cp.type = type ∧ cp.expDataSeqs = {seq}

/-- The plans are exactly of the types that are asked for. -/
theorem genPlans_spec (hcluster : listAt r.inFlightSeqClusterMap st.seq ≠ [])
    (hsize : 1 ≤ st.size) (persistSelf persistOther : Bool) (cpType : Option CrashPlanType) :
    ∃ plans, genPlans op r flags pick persistSelf persistOther cpType st = some plans ∧
      (persistSelf = true → HasPlan plans st.seq (cpType.getD .unprotectedPersistSelf)) ∧
      (persistOther = true → HasPlan plans st.seq (cpType.getD .unprotectedPersistOther)) ∧
      ∀ cp ∈ plans, cp.expDataSeqs = {st.seq} := by
  obtain ⟨num, hnum⟩ := List.exists_mem_of_ne_nil _ hcluster
  obtain ⟨lo, hlo⟩ := Option.isSome_iff_exists.mp (List.isSome_min?_of_mem hnum)
  obtain ⟨hi, hhi⟩ := Option.isSome_iff_exists.mp (List.isSome_max?_of_mem hnum)
  obtain ⟨cp₁, hcp₁, -⟩ := @exists_persistSelfPlan op r st lo hlo
  obtain ⟨cp₂, hcp₂, -⟩ := @exists_persistOtherPlan op r st hi hhi
  have hexp : cp₁.expDataSeqs = {st.seq} ∧ cp₂.expDataSeqs = {st.seq} := by
    obtain ⟨_, -, h₁⟩ := Option.bind_eq_some_iff.mp hcp₁
    obtain ⟨_, -, h₁⟩ := Option.bind_eq_some_iff.mp h₁
    obtain ⟨_, -, h₂⟩ := Option.bind_eq_some_iff.mp hcp₂
    obtain ⟨_, -, h₂⟩ := Option.bind_eq_some_iff.mp h₂
    rw [← Option.some.inj h₁, ← Option.some.inj h₂]
    exact ⟨rfl, rfl⟩
  have htype₁ := (persistSelfPlan_eq_some hcp₁).1.1
  have htype₂ := (persistOtherPlan_eq_some hcp₂).1.1
  obtain ⟨l₁, hl₁, hne₁, hall₁⟩ := @emitPlan_spec flags pick st hsize _ _ hcp₁ cpType persistSelf
  obtain ⟨l₂, hl₂, hne₂, hall₂⟩ := @emitPlan_spec flags pick st hsize _ _ hcp₂ cpType persistOther
  refine ⟨l₁ ++ l₂, ?_, fun hself => ?_, fun hother => ?_, fun cp hcp => ?_⟩
  · rw [genPlans, hl₁, hl₂]
    rfl
  · obtain ⟨cp, hcp⟩ := List.exists_mem_of_ne_nil _ (hne₁ hself)
    obtain ⟨-, hty, hseqs⟩ := hall₁ cp hcp
    exact ⟨cp, List.mem_append_left _ hcp, htype₁ ▸ hty, hseqs.trans hexp.1⟩
  · obtain ⟨cp, hcp⟩ := List.exists_mem_of_ne_nil _ (hne₂ hother)
    obtain ⟨-, hty, hseqs⟩ := hall₂ cp hcp
    exact ⟨cp, List.mem_append_right _ hcp, htype₂ ▸ hty, hseqs.trans hexp.2⟩
  · rcases List.mem_append.mp hcp with hcp | hcp
    · exact (hall₁ cp hcp).2.2.trans hexp.1
    · exact (hall₂ cp hcp).2.2.trans hexp.2

theorem HasPlan.of_subset {plans' : List CrashPlanEntry} {seq : Int} {type : CrashPlanType}
    (h : HasPlan plans seq type) (hsub : plans ⊆ plans') : HasPlan plans' seq type := by
  obtain ⟨cp, hcp, h⟩ := h
  exact ⟨cp, hsub hcp, h⟩

namespace SchemeMech2CP

variable {ignoreNonatomicWrite : Bool} {p : PersistSeq}

theorem plansIn_spec (hcluster : listAt r.inFlightSeqClusterMap st.seq ≠ []) (hsize : 1 ≤ st.size)
    (seqSet : Finset Int) (persistSelf persistOther : Bool) (cpType : CrashPlanType) :
    ∃ plans, plansIn op r flags pick seqSet persistSelf persistOther cpType st = some plans ∧
      ((persistSelf || persistOther) = true → st.seq ∈ seqSet → HasPlan plans st.seq cpType) ∧
      (∀ cp ∈ plans, cp.expDataSeqs = {st.seq}) ∧ (st.seq ∉ seqSet → plans = []) := by
  rw [plansIn]
  by_cases hmem : st.seq ∈ seqSet
  · obtain ⟨plans, hplans, hself, hother, hall⟩ := @genPlans_spec op r flags pick st hcluster hsize
      persistSelf persistOther (some cpType)
    rw [if_pos hmem]
    refine ⟨plans, hplans, fun h _ => ?_, hall, fun h => absurd hmem h⟩
    rcases Bool.or_eq_true_iff.mp h with h | h
    · exact hself h
    · exact hother h
  · rw [if_neg hmem]
    exact ⟨[], rfl, fun _ h => absurd h hmem, by simp, fun _ => rfl⟩

/-- What the scheme makes of one store. -/
structure Covers (p : PersistSeq) (seq : Int) (plans : List CrashPlanEntry) : Prop where
  unprotected : seq ∉ p.mechSeqSet → HasPlan plans seq .unprotectedPersistSelf ∧
    HasPlan plans seq .unprotectedPersistOther
  persistSelf : seq ∈ p.persistSelfSeqSet → HasPlan plans seq .mechPersistSelf
  persistOther : seq ∈ p.persistOtherSeqSet → HasPlan plans seq .mechPersistOther

theorem storePlans_spec (hcluster : listAt r.inFlightSeqClusterMap st.seq ≠ [])
    (hsize : 1 ≤ st.size) :
    ∃ plans, storePlans op r false flags pick p st = some plans ∧ Covers p st.seq plans ∧
      (∀ cp ∈ plans, cp.expDataSeqs = {st.seq}) ∧
      (st.seq ∈ p.mechSeqSet → st.seq ∉ p.persistSelfSeqSet → st.seq ∉ p.persistOtherSeqSet →
        plans = []) := by
  obtain ⟨l₁, hl₁, hself, hall₁, hnil₁⟩ := @plansIn_spec op r flags pick st hcluster hsize
    p.persistSelfSeqSet true false .mechPersistSelf
  obtain ⟨l₂, hl₂, hother, hall₂, hnil₂⟩ := @plansIn_spec op r flags pick st hcluster hsize
    p.persistOtherSeqSet false true .mechPersistOther
  obtain ⟨l₃, hl₃, hu₁, hu₂, hall₃⟩ := @genPlans_spec op r flags pick st hcluster hsize
    true true none
  have hunprotected : st.seq ∉ p.mechSeqSet →
      unprotectedPlans op r false flags pick p.mechSeqSet st = some l₃ := by
    intro hmech
    have hsome : (r.inFlightSeqClusterMap.get? st.seq).isNone = false := by
      cases hget : r.inFlightSeqClusterMap.get? st.seq with
      | none =>
        rw [listAt, hget] at hcluster
        exact absurd rfl hcluster
      | some l => rfl
    rw [unprotectedPlans, if_neg hmech, if_neg (by simp), hsome, if_neg Bool.false_ne_true]
    exact hl₃
  by_cases hmech : st.seq ∈ p.mechSeqSet
  · refine ⟨l₁ ++ l₂ ++ [], ?_, ⟨fun h => absurd hmech h, fun h => ?_, fun h => ?_⟩, ?_, ?_⟩
    · rw [storePlans, hl₁, hl₂, unprotectedPlans, if_pos hmech]
      rfl
    · exact (hself rfl h).of_subset (by simp)
    · exact (hother rfl h).of_subset (by simp)
    · intro cp hcp
      rw [List.append_nil] at hcp
      exact (List.mem_append.mp hcp).elim (hall₁ cp) (hall₂ cp)
    · intro _ h₁ h₂
      rw [hnil₁ h₁, hnil₂ h₂]
      rfl
  · refine ⟨l₁ ++ l₂ ++ l₃, ?_, ⟨fun _ => ⟨?_, ?_⟩, fun h => ?_, fun h => ?_⟩, ?_, ?_⟩
    · rw [storePlans, hl₁, hl₂, hunprotected hmech]
      rfl
    · exact (hu₁ rfl).of_subset (by simp)
    · exact (hu₂ rfl).of_subset (by simp)
    · exact (hself rfl h).of_subset (by simp)
    · exact (hother rfl h).of_subset (by simp)
    · intro cp hcp
      rcases List.mem_append.mp hcp with hcp | hcp
      · exact (List.mem_append.mp hcp).elim (hall₁ cp) (hall₂ cp)
      · exact hall₃ cp hcp
    · exact fun h => absurd h hmech

end SchemeMech2CP

end

/-! ## All stores -/

namespace SchemeMech2CP

/-- Every store has its plans. -/
theorem mech2cp_covers_stores (op : OpTrace) (hsize : ∀ st, op.IsPmStore st → 1 ≤ st.size)
    {flags : ConvFlags} (hflags : flags.ignoreNonatomicWrite = false)
    {sample : List RawOp → List RawOp} (hsample : Samples sample) {r : Analysis}
    (hr : analysisInCacheRun flags sample op.toOpTraceEntry = some r) {τ : Type}
    {iv : IntervalTree τ} {d : DeduceMech}
    (hent : MechPMStoreReason.entryList iv op.toOpTraceEntry = some d.pmstoreReason)
    (hover : d.Over op.toOpTraceEntry) (pflags : PlanFlags) (pick : List Int → Int) :
    ∃ plans, generateCrashPlans op.toOpTraceEntry r false pflags pick d = some plans ∧
      (d.getPersistSeq false true).persistSelfSeqSet ⊆ (d.getPersistSeq false true).mechSeqSet ∧
      (d.getPersistSeq false true).persistOtherSeqSet ⊆ (d.getPersistSeq false true).mechSeqSet ∧
      (∀ st, op.IsPmStore st → st.seq ∉ (d.getPersistSeq false true).mechSeqSet →
        HasPlan plans st.seq .unprotectedPersistSelf ∧
          HasPlan plans st.seq .unprotectedPersistOther) ∧
      (∀ seq ∈ (d.getPersistSeq false true).persistSelfSeqSet,
        HasPlan plans seq .mechPersistSelf) ∧
      (∀ seq ∈ (d.getPersistSeq false true).persistOtherSeqSet,
        HasPlan plans seq .mechPersistOther) ∧
      ∀ seq ∈ (d.getPersistSeq false true).mechSeqSet,
        seq ∉ (d.getPersistSeq false true).persistSelfSeqSet →
        seq ∉ (d.getPersistSeq false true).persistOtherSeqSet →
        ∀ cp ∈ plans, cp.expDataSeqs ≠ {seq} := by
  have hstore : ∀ e ∈ d.pmstoreReason, ∃ plans,
      storePlans op.toOpTraceEntry r false pflags pick (d.getPersistSeq false true) e.op =
        some plans ∧ Covers (d.getPersistSeq false true) e.op.seq plans ∧
      (∀ cp ∈ plans, cp.expDataSeqs = {e.op.seq}) ∧
      (e.op.seq ∈ (d.getPersistSeq false true).mechSeqSet →
        e.op.seq ∉ (d.getPersistSeq false true).persistSelfSeqSet →
        e.op.seq ∉ (d.getPersistSeq false true).persistOtherSeqSet → plans = []) := by
    intro e he
    have hst := (isPmStore_iff_entry op.wf hent).mpr ⟨e, he, rfl⟩
    exact storePlans_spec (cluster_of_store hsample hflags op.wf hr hst (hsize _ hst))
      (hsize _ hst)
  choose! plansOf hplansOf hcovers hexp hnone using hstore
  have hgen : generateCrashPlans op.toOpTraceEntry r false pflags pick d =
      some (d.pmstoreReason.flatMap plansOf) := by
    rw [generateCrashPlans, mapM_eq_some hplansOf, Option.map_some, List.flatMap_def]
  -- the plans of a store are among all plans
  have hcover : ∀ st, op.IsPmStore st → ∃ l ⊆ d.pmstoreReason.flatMap plansOf,
      Covers (d.getPersistSeq false true) st.seq l := by
    intro st hst
    obtain ⟨e, he, rfl⟩ := (isPmStore_iff_entry op.wf hent).mp hst
    exact ⟨plansOf e, fun cp hcp => List.mem_flatMap.mpr ⟨e, he, hcp⟩, hcovers e he⟩
  refine ⟨_, hgen, DeduceMech.persistSelf_subset_mech, DeduceMech.persistOther_subset_mech,
    fun st hst hmech => ?_, fun seq hseq => ?_, fun seq hseq => ?_, ?_⟩
  · obtain ⟨l, hl, hc⟩ := hcover st hst
    exact ⟨(hc.unprotected hmech).1.of_subset hl, (hc.unprotected hmech).2.of_subset hl⟩
  · obtain ⟨st, hst, rfl⟩ := hover.exists_store (DeduceMech.persistSelf_subset_mech hseq)
    obtain ⟨l, hl, hc⟩ := hcover st hst
    exact (hc.persistSelf hseq).of_subset hl
  · obtain ⟨st, hst, rfl⟩ := hover.exists_store (DeduceMech.persistOther_subset_mech hseq)
    obtain ⟨l, hl, hc⟩ := hcover st hst
    exact (hc.persistOther hseq).of_subset hl
  · intro seq hmech hself hother cp hcp hseqs
    obtain ⟨e, he, hcp⟩ := List.mem_flatMap.mp hcp
    have hseq : e.op.seq = seq := by
      rw [hexp e he cp hcp] at hseqs
      exact Finset.singleton_injective hseqs
    rw [hnone e he (hseq ▸ hmech) (hseq ▸ hself) (hseq ▸ hother)] at hcp
    exact absurd hcp List.not_mem_nil

/-- A store to a log, its tail, and a store outside. -/
def logAppendTrace : OpTrace :=
  OpTrace.ofRecords (.plain .startFn 0 0 0) "write" 0 4096 0
    [.plain .store 1 0 8, .plain .asmFlush 2 0 64, .plain .asmFence 3 0 0, .plain .store 4 64 8,
      .plain .store 5 128 8, .plain .asmFlush 6 64 64, .plain .asmFence 7 0 0] (by decide +kernel)

def logAppendAnalysis : Analysis :=
  (analysisInCacheRun ⟨false, false, true⟩ (List.take 1) logAppendTrace.toOpTraceEntry).get
    (by decide +kernel)

def logAppendEntries : List MechPMStoreEntry :=
  (MechPMStoreReason.entryList IntervalTree.RangeList.tree logAppendTrace.toOpTraceEntry).get
    (by decide +kernel)

def logAppendMech : DeduceMech where
  pmstoreReason := logAppendEntries
  undojnlReason := some [{ headStore := some (logAppendEntries.get ⟨1, by decide +kernel⟩) }]
  lswReasonList := [[{
    tailStore := logAppendEntries.get ⟨1, by decide +kernel⟩
    logWrites := [logAppendEntries.get ⟨0, by decide +kernel⟩] }]]

/-- The store outside has both plans, the head the one that leaves it out. -/
theorem mech2cp_covers_log_append :
    ∃ plans, generateCrashPlans logAppendTrace.toOpTraceEntry logAppendAnalysis false
        ⟨false, true⟩ (fun l => l.headD 0) logAppendMech = some plans ∧
      HasPlan plans 5 .unprotectedPersistSelf ∧ HasPlan plans 5 .unprotectedPersistOther ∧
      HasPlan plans 4 .mechPersistOther ∧ ∀ cp ∈ plans, cp.expDataSeqs ≠ {1} := by
  have hsize : ∀ st, logAppendTrace.IsPmStore st → 1 ≤ st.size := by
    have hall : ∀ st ∈ logAppendTrace.pmEntries, st.type.isStoreSeries = true → 1 ≤ st.size := by
      decide +kernel
    intro st hst
    obtain ⟨hmem, hty⟩ := logAppendTrace.wf.isPmStore_iff.mp hst
    exact hall st hmem hty
  have hover : logAppendMech.Over logAppendTrace.toOpTraceEntry :=
    ⟨by decide +kernel, by decide +kernel, by decide +kernel⟩
  have hr : analysisInCacheRun ⟨false, false, true⟩ (List.take 1) logAppendTrace.toOpTraceEntry =
      some logAppendAnalysis := (Option.some_get _).symm
  have hent : MechPMStoreReason.entryList IntervalTree.RangeList.tree
      logAppendTrace.toOpTraceEntry = some logAppendEntries := (Option.some_get _).symm
  obtain ⟨plans, hplans, -, -, hunprotected, -, hother, hnone⟩ := mech2cp_covers_stores
    logAppendTrace hsize rfl samples_take_one hr hent hover ⟨false, true⟩ fun l => l.headD 0
  have hoff : (5 : Int) ∉ (logAppendMech.getPersistSeq false true).mechSeqSet := by decide +kernel
  refine ⟨plans, hplans, ?_, ?_, ?_, ?_⟩
  · exact (hunprotected (.plain .store 5 128 8) (by decide +kernel) hoff).1
  · exact (hunprotected (.plain .store 5 128 8) (by decide +kernel) hoff).2
  · exact hother 4 (by decide +kernel)
  · exact hnone 1 (by decide +kernel) (by decide +kernel) (by decide +kernel)

end SchemeMech2CP

end CrashPlan
end Silhouette
