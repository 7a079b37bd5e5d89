import Silhouette.OpTrace.AtomicOps
import Silhouette.Image.CrashImage
import Mathlib.Data.Finset.Max

/-!
# The two crash plans of a store

`_gen_2cp_for_a_store` of the 2CP and Mech2CP schemes.  For one store it emits a plan
that persists the store and what has to be durable before it, and a plan that persists
the other stores in flight.  The two schemes share every step; Mech2CP chooses which of
the plans to emit and may replace their type.

A store with no cluster is a missing key, `none`.
-/

namespace Silhouette
namespace CrashPlan

open Lib Lib.Persist Cache Trace OpTrace Image

/-- The smaller of a number and the members of a set. -/
def minSeq (seq : Int) (seqSet : Finset Int) : Int :=
  (insert seq seqSet).min' (Finset.insert_nonempty seq seqSet)

/-- The address range of the cachelines of a store. -/
def lowerAddr (st : TraceEntry) : Int := alignToFloor st.addr cachelineBytes

def upperAddr (st : TraceEntry) : Int :=
  if (st.addr + st.size) % cachelineBytes ≠ 0 then alignToCeil (st.addr + st.size) cachelineBytes
  else st.addr + st.size

/-- Add the flushing stores of the clusters that satisfy `p`. -/
def addFlushing (r : Analysis) (p : Nat → Bool) (seqSet : Finset Int) : Finset Int :=
  r.inFlightClusterFlushingMap.items.foldl
    (fun seqSet x => if p x.1 then seqSet ∪ x.2.toFinset else seqSet) seqSet

/-- Add the stores of a list between the smallest member and `seq`. -/
def addSameLine (seq : Int) (l : List TraceEntry) (seqSet : Finset Int) : Finset Int :=
  l.foldl (fun seqSet e =>
    if e.type.isStoreSeries ∧ minSeq seq seqSet < e.seq ∧ e.seq < seq then insert e.seq seqSet
    else seqSet) seqSet

/-- Remove the stores of a list behind `seq`. -/
def removeSameLine (seq : Int) (l : List TraceEntry) (seqSet : Finset Int) : Finset Int :=
  l.foldl (fun seqSet e =>
    if e.type.isStoreSeries ∧ e.seq > seq then seqSet.erase e.seq else seqSet) seqSet

/-- What is persisted with a store whose first cluster is `minClusterNum`: the stores
persisted before it, those it depends on, and the earlier ones in its cachelines. -/
def persistSelfSet (op : OpTraceEntry) (r : Analysis) (st : TraceEntry) (minClusterNum : Nat) :
    Finset Int :=
  let seqSet := addFlushing r (fun num => num < minClusterNum) {st.seq}
  let seqSet := seqSet ∪ depsOf r.writeDepSeqMap st.seq
  addSameLine st.seq (op.getPmOpsByAddrRange (lowerAddr st) (upperAddr st)) seqSet

/-- The other stores persisted up to the last cluster of a store, without those that
depend on it and the later ones in its cachelines. -/
def persistOtherSet (op : OpTraceEntry) (r : Analysis) (st : TraceEntry) (maxClusterNum : Nat) :
    Finset Int :=
  let seqSet := (addFlushing r (fun num => num ≤ maxClusterNum) ∅).erase st.seq
  let seqSet := seqSet.filter fun other =>
    ¬ (other > st.seq ∧ st.seq ∈ depsOf r.writeDepSeqMap other)
  removeSameLine st.seq (op.getPmOpsByAddrRange (lowerAddr st) (upperAddr st)) seqSet

def persistSelfPlan (op : OpTraceEntry) (r : Analysis) (st : TraceEntry) :
    Option CrashPlanEntry := do
  let clusters ← r.inFlightSeqClusterMap.get? st.seq
  let minClusterNum ← clusters.min?
  let seqSet := persistSelfSet op r st minClusterNum
  return { type := .unprotectedPersistSelf
           instructionId := st.instid
           startSeq := minSeq st.seq seqSet
           persistSeqs := seqSet
           expDataSeqs := {st.seq}
           info := st.toResultStr }

def persistOtherPlan (op : OpTraceEntry) (r : Analysis) (st : TraceEntry) :
    Option CrashPlanEntry := do
  let clusters ← r.inFlightSeqClusterMap.get? st.seq
  let maxClusterNum ← clusters.max?
  let seqSet := persistOtherSet op r st maxClusterNum
  return { type := .unprotectedPersistOther
           instructionId := st.instid
           startSeq := minSeq st.seq seqSet
           persistSeqs := seqSet
           expDataSeqs := {st.seq}
           info := st.toResultStr }

/-- The flags of plan generation; `pick` draws one of the words of a store. -/
structure PlanFlags where
  nonatomicAsOne : Bool
  samplingNonatomicWrite : Bool

/-- A copy of a plan that samples the store at an address. -/
def sampleAt (cp : CrashPlanEntry) (seq addr : Int) : CrashPlanEntry :=
  { cp with
    samplingType := .samplingAtomic
    samplingSeq := some seq
    samplingAddr := some addr }

/-- Does the store have words of its own to sample. -/
def sampled (flags : PlanFlags) (st : TraceEntry) : Bool :=
  !flags.nonatomicAsOne && (st.type.isMemset || st.type.isMemTransStore) &&
    st.addr / atomicWriteBytes ≠ (st.addr + st.size) / atomicWriteBytes

/-- The plans that stand for one plan of a store: itself, one sampled word, or one for
every address. -/
def expandPlan (flags : PlanFlags) (pick : List Int → Int) (st : TraceEntry)
    (cp : CrashPlanEntry) : Option (List CrashPlanEntry) :=
  let startAddr := st.addr
  let endAddr := st.addr + st.size
  if sampled flags st then
    if flags.samplingNonatomicWrite then
      let words := pyRange startAddr endAddr atomicWriteBytes
      if words = [] then none
      else
        let addr := alignToFloor (pick words) atomicWriteBytes
        some [sampleAt cp st.seq (if addr < startAddr then startAddr else addr)]
    else if startAddr % atomicWriteBytes ≠ 0 then
      some (sampleAt cp st.seq startAddr ::
        (pyRange (alignToCeil startAddr atomicWriteBytes) endAddr 1).map (sampleAt cp st.seq))
    else some ((pyRange startAddr endAddr 1).map (sampleAt cp st.seq))
  else some [cp]

/-- Emit a plan of a store if it is asked for, under another type if there is one. -/
def emitPlan (flags : PlanFlags) (pick : List Int → Int) (cpType : Option CrashPlanType)
    (st : TraceEntry) (emit : Bool) (plan : Option CrashPlanEntry) :
    Option (List CrashPlanEntry) :=
  if emit then
    plan.bind fun cp => expandPlan flags pick st { cp with type := cpType.getD cp.type }
  else some []

/-- The steps both schemes share. -/
def genPlans (op : OpTraceEntry) (r : Analysis) (flags : PlanFlags) (pick : List Int → Int)
    (persistSelf persistOther : Bool) (cpType : Option CrashPlanType) (st : TraceEntry) :
    Option (List CrashPlanEntry) := do
  let selfPlans ← emitPlan flags pick cpType st persistSelf (persistSelfPlan op r st)
  let otherPlans ← emitPlan flags pick cpType st persistOther (persistOtherPlan op r st)
  return selfPlans ++ otherPlans

/-- `CrashPlanScheme2CP._gen_2cp_for_a_store`. -/
def Scheme2CP.gen2cpForAStore (op : OpTraceEntry) (r : Analysis) (flags : PlanFlags)
    (pick : List Int → Int) (st : TraceEntry) : Option (List CrashPlanEntry) :=
  genPlans op r flags pick true true none st

/-- `CrashPlanSchemeMech2CP._gen_2cp_for_a_store`. -/
def SchemeMech2CP.gen2cpForAStore (op : OpTraceEntry) (r : Analysis) (flags : PlanFlags)
    (pick : List Int → Int) (persistSelf persistOther : Bool) (cpType : Option CrashPlanType)
    (st : TraceEntry) : Option (List CrashPlanEntry) :=
  genPlans op r flags pick persistSelf persistOther cpType st

/-! ## The two sets -/

theorem lt_minSeq {x seq : Int} {seqSet : Finset Int} :
    x < minSeq seq seqSet ↔ x < seq ∧ ∀ y ∈ seqSet, x < y := by
  rw [minSeq, Finset.lt_min'_iff]
  simp only [Finset.mem_insert, forall_eq_or_imp]

theorem mem_addFlushing {r : Analysis} {p : Nat → Bool} {seqSet : Finset Int} {x : Int} :
    x ∈ addFlushing r p seqSet ↔
      x ∈ seqSet ∨ ∃ c, p c = true ∧ x ∈ listAt r.inFlightClusterFlushingMap c := by
  have hgen : ∀ (items : List (Nat × List Int)) (seqSet : Finset Int),
      x ∈ items.foldl (fun seqSet y => if p y.1 then seqSet ∪ y.2.toFinset else seqSet) seqSet ↔
        x ∈ seqSet ∨ ∃ y ∈ items, p y.1 = true ∧ x ∈ y.2 := by
    intro items
    induction items with
    | nil => simp
    | cons y rest ih =>
      intro seqSet
      rw [List.foldl_cons, ih, List.exists_mem_cons_iff]
      by_cases hp : p y.1 = true
      · rw [if_pos hp, Finset.mem_union, List.mem_toFinset, or_assoc]
        simp only [hp, true_and]
      · rw [if_neg hp]
        simp only [hp, Bool.false_eq_true, false_and, false_or]
  rw [addFlushing, hgen]
  refine or_congr_right ⟨?_, ?_⟩
  · rintro ⟨⟨c, l⟩, hmem, hp, hx⟩
    refine ⟨c, hp, ?_⟩
    rw [listAt, Dict.get?_eq_some.mpr hmem]
    exact hx
  · rintro ⟨c, hp, hx⟩
    rw [listAt] at hx
    cases hl : r.inFlightClusterFlushingMap.get? c with
    | none =>
      rw [hl] at hx
      exact absurd hx List.not_mem_nil
    | some l =>
      rw [hl] at hx
      exact ⟨(c, l), Dict.get?_eq_some.mp hl, hp, hx⟩

/-- A store of the operation that lies in the cachelines of another. -/
def InLinesOf (op : OpTraceEntry) (st : TraceEntry) (x : Int) : Prop :=
  ∃ e, op.IsPmStore e ∧ e.seq = x ∧ lowerAddr st ≤ e.addr ∧ e.addr + e.size ≤ upperAddr st

theorem exists_getPmOpsByAddrRange {op : OpTraceEntry} (hwf : op.WellFormed) {st : TraceEntry}
    {x : Int} : (∃ e ∈ op.getPmOpsByAddrRange (lowerAddr st) (upperAddr st),
      e.type.isStoreSeries = true ∧ e.seq = x) ↔ InLinesOf op st x := by
  have hmem : ∀ e, e ∈ op.pmSeqEntryMap.values.flatten ↔ e ∈ op.pmEntries := by
    intro e
    simp only [Dict.values, OpTraceEntry.pmEntries, OpTraceEntry.pmSortedItems, List.mem_flatten,
      List.mem_map, List.mem_flatMap, mem_sortBy, exists_exists_and_eq_and]
  simp only [OpTraceEntry.getPmOpsByAddrRange, List.mem_filter, hmem, decide_eq_true_eq, InLinesOf,
    hwf.isPmStore_iff]
  constructor
  · rintro ⟨e, ⟨he, h1, h2⟩, hst, hx⟩
    exact ⟨e, ⟨he, hst⟩, hx, h1, h2⟩
  · rintro ⟨e, ⟨he, hst⟩, hx, h1, h2⟩
    exact ⟨e, ⟨he, h1, h2⟩, hst, hx⟩

/-- What a store is persisted with before its cachelines are looked at. -/
def persistedBefore (r : Analysis) (st : TraceEntry) (minClusterNum : Nat) : Finset Int :=
  addFlushing r (fun num => num < minClusterNum) {st.seq} ∪ depsOf r.writeDepSeqMap st.seq

theorem mem_persistedBefore {r : Analysis} {st : TraceEntry} {c : Nat} {x : Int} :
    x ∈ persistedBefore r st c ↔ x = st.seq ∨
      (∃ k, k < c ∧ x ∈ listAt r.inFlightClusterFlushingMap k) ∨
      x ∈ depsOf r.writeDepSeqMap st.seq := by
  rw [persistedBefore, Finset.mem_union, mem_addFlushing, Finset.mem_singleton, or_assoc]
  simp only [decide_eq_true_eq]

/-- The stores added for their cachelines are above the smallest member, which stays. -/
theorem addSameLine_spec (seq : Int) (l : List TraceEntry) (seqSet : Finset Int) :
    minSeq seq (addSameLine seq l seqSet) = minSeq seq seqSet ∧
      ∀ x, x ∈ addSameLine seq l seqSet ↔ x ∈ seqSet ∨
        minSeq seq seqSet < x ∧ x < seq ∧ ∃ e ∈ l, e.type.isStoreSeries = true ∧ e.seq = x := by
  induction l generalizing seqSet with
  | nil => simp [addSameLine]
  | cons e rest ih =>
    rw [addSameLine, List.foldl_cons, ← addSameLine]
    by_cases h : e.type.isStoreSeries = true ∧ minSeq seq seqSet < e.seq ∧ e.seq < seq
    · obtain ⟨hst, h1, h2⟩ := h
      have hmin : minSeq seq (insert e.seq seqSet) = minSeq seq seqSet := by
        refine eq_of_forall_lt_iff (fun z => ?_)
        rw [lt_minSeq, lt_minSeq]
        simp only [Finset.mem_insert, forall_eq_or_imp]
        constructor
        · exact fun hz => ⟨hz.1, hz.2.2⟩
        · intro hz
          have hlt : z < minSeq seq seqSet := lt_minSeq.mpr hz
          exact ⟨hz.1, by omega, hz.2⟩
      obtain ⟨ih1, ih2⟩ := ih (insert e.seq seqSet)
      rw [if_pos ⟨hst, h1, h2⟩]
      refine ⟨ih1.trans hmin, fun x => ?_⟩
      rw [ih2, hmin, Finset.mem_insert, List.exists_mem_cons_iff]
      constructor
      · rintro ((rfl | hx) | ⟨ha, hb, hc⟩)
        · exact Or.inr ⟨h1, h2, Or.inl ⟨hst, rfl⟩⟩
        · exact Or.inl hx
        · exact Or.inr ⟨ha, hb, Or.inr hc⟩
      · rintro (hx | ⟨ha, hb, ⟨-, hx⟩ | hc⟩)
        · exact Or.inl (Or.inr hx)
        · exact Or.inl (Or.inl hx.symm)
        · exact Or.inr ⟨ha, hb, hc⟩
    · obtain ⟨ih1, ih2⟩ := ih seqSet
      rw [if_neg h]
      refine ⟨ih1, fun x => ?_⟩
      rw [ih2, List.exists_mem_cons_iff]
      refine or_congr_right (and_congr_right fun ha => and_congr_right fun hb => ?_)
      constructor
      · exact Or.inr
      · rintro (⟨hst, hx⟩ | hc)
        · exact absurd ⟨hst, hx ▸ ha, hx ▸ hb⟩ h
        · exact hc

/-- What the plan that persists a store writes: the store, what was persisted before it,
what it depends on, the earlier stores in its cachelines, and every store before all of
these. -/
theorem mem_written_persistSelf {op : OpTraceEntry} (hwf : op.WellFormed) {r : Analysis}
    {st : TraceEntry} {c : Nat} {cp : CrashPlanEntry}
    (hset : cp.persistSeqs = persistSelfSet op r st c)
    (hstart : cp.startSeq = minSeq st.seq (persistSelfSet op r st c)) {x : Int} :
    x ∈ writtenSeqs op cp ↔ x ∈ op.pmSortedStoreSeq ∧
      (x ∈ persistedBefore r st c ∨ x < st.seq ∧
        (InLinesOf op st x ∨ ∀ y ∈ persistedBefore r st c, x < y)) := by
  obtain ⟨hmin, hmem⟩ := addSameLine_spec st.seq
    (op.getPmOpsByAddrRange (lowerAddr st) (upperAddr st)) (persistedBefore r st c)
  rw [mem_writtenSeqs, hset, hstart]
  refine and_congr_right fun _ => ?_
  have hmem' := hmem x
  rw [exists_getPmOpsByAddrRange hwf] at hmem'
  have hself : persistSelfSet op r st c = addSameLine st.seq
      (op.getPmOpsByAddrRange (lowerAddr st) (upperAddr st)) (persistedBefore r st c) := rfl
  rw [hself, hmin, hmem', lt_minSeq]
  constructor
  · rintro (⟨h1, h2⟩ | hx | ⟨-, h1, h2⟩)
    · exact Or.inr ⟨h1, Or.inr h2⟩
    · exact Or.inl hx
    · exact Or.inr ⟨h1, Or.inl h2⟩
  · rintro (hx | ⟨h1, h2 | h2⟩)
    · exact Or.inr (Or.inl hx)
    · -- a store in the lines is a member, in front of all members, or between two
      by_cases hlt : x < minSeq st.seq (persistedBefore r st c)
      · exact Or.inl (lt_minSeq.mp hlt)
      · by_cases heq : x = minSeq st.seq (persistedBefore r st c)
        · have hx := Finset.min'_mem (insert st.seq (persistedBefore r st c))
            ⟨st.seq, Finset.mem_insert_self _ _⟩
          rw [← minSeq, ← heq, Finset.mem_insert] at hx
          exact Or.inr (Or.inl (hx.resolve_left h1.ne))
        · exact Or.inr (Or.inr ⟨by omega, h1, h2⟩)
    · exact Or.inl ⟨h1, h2⟩

theorem mem_removeSameLine {seq : Int} {l : List TraceEntry} {seqSet : Finset Int} {x : Int} :
    x ∈ removeSameLine seq l seqSet ↔
      x ∈ seqSet ∧ (seq < x → ¬ ∃ e ∈ l, e.type.isStoreSeries = true ∧ e.seq = x) := by
  induction l generalizing seqSet with
  | nil => simp [removeSameLine]
  | cons e rest ih =>
    rw [removeSameLine, List.foldl_cons, ← removeSameLine, ih, List.exists_mem_cons_iff]
    by_cases h : e.type.isStoreSeries = true ∧ e.seq > seq
    · rw [if_pos h, Finset.mem_erase]
      constructor
      · rintro ⟨⟨hne, hx⟩, hno⟩
        refine ⟨hx, fun hlt => ?_⟩
        rintro (⟨-, heq⟩ | hc)
        · exact hne heq.symm
        · exact hno hlt hc
      · rintro ⟨hx, hno⟩
        refine ⟨⟨?_, hx⟩, fun hlt hc => hno hlt (Or.inr hc)⟩
        rintro rfl
        exact hno h.2 (Or.inl ⟨h.1, rfl⟩)
    · rw [if_neg h]
      refine and_congr_right fun _ => forall_congr' fun hlt => not_congr ?_
      constructor
      · exact Or.inr
      · rintro (⟨hst, rfl⟩ | hc)
        · exact absurd ⟨hst, hlt⟩ h
        · exact hc

theorem mem_persistOtherSet {op : OpTraceEntry} (hwf : op.WellFormed) {r : Analysis}
    {st : TraceEntry} {c : Nat} {x : Int} :
    x ∈ persistOtherSet op r st c ↔
      (∃ k, k ≤ c ∧ x ∈ listAt r.inFlightClusterFlushingMap k) ∧ x ≠ st.seq ∧
        (st.seq < x → st.seq ∉ depsOf r.writeDepSeqMap x ∧ ¬ InLinesOf op st x) := by
  simp only [persistOtherSet, mem_removeSameLine, exists_getPmOpsByAddrRange hwf,
    Finset.mem_filter, Finset.mem_erase, mem_addFlushing, Finset.notMem_empty, false_or,
    decide_eq_true_eq, gt_iff_lt]
  constructor
  · rintro ⟨⟨⟨hne, hk⟩, hdep⟩, hno⟩
    exact ⟨hk, hne, fun hlt => ⟨fun hd => hdep ⟨hlt, hd⟩, hno hlt⟩⟩
  · rintro ⟨hk, hne, himp⟩
    exact ⟨⟨⟨hne, hk⟩, fun hd => (himp hd.1).1 hd.2⟩, fun hlt => (himp hlt).2⟩

/-- What the plan that persists the other stores writes. -/
theorem mem_written_persistOther {op : OpTraceEntry} {r : Analysis} {st : TraceEntry} {c : Nat}
    {cp : CrashPlanEntry} (hset : cp.persistSeqs = persistOtherSet op r st c)
    (hstart : cp.startSeq = minSeq st.seq (persistOtherSet op r st c)) {x : Int} :
    x ∈ writtenSeqs op cp ↔ x ∈ op.pmSortedStoreSeq ∧
      (x ∈ persistOtherSet op r st c ∨
        x < st.seq ∧ ∀ y ∈ persistOtherSet op r st c, x < y) := by
  rw [mem_writtenSeqs, hset, hstart, lt_minSeq, or_comm]

/-! ## The plans -/

/-- A plan that persists a store, whatever type it is given. -/
structure PersistsSelf (op : OpTraceEntry) (r : Analysis) (st : TraceEntry) (c : Nat)
    (cp : CrashPlanEntry) : Prop where
  cluster : (listAt r.inFlightSeqClusterMap st.seq).min? = some c
  set : cp.persistSeqs = persistSelfSet op r st c
  start : cp.startSeq = minSeq st.seq (persistSelfSet op r st c)

/-- A plan that persists the other stores. -/
structure PersistsOther (op : OpTraceEntry) (r : Analysis) (st : TraceEntry) (c : Nat)
    (cp : CrashPlanEntry) : Prop where
  cluster : (listAt r.inFlightSeqClusterMap st.seq).max? = some c
  set : cp.persistSeqs = persistOtherSet op r st c
  start : cp.startSeq = minSeq st.seq (persistOtherSet op r st c)

theorem PersistsSelf.retype {op : OpTraceEntry} {r : Analysis} {st : TraceEntry} {c : Nat}
    {cp : CrashPlanEntry} (h : PersistsSelf op r st c cp) (type : CrashPlanType) :
    PersistsSelf op r st c { cp with type := type } := ⟨h.cluster, h.set, h.start⟩

theorem PersistsOther.retype {op : OpTraceEntry} {r : Analysis} {st : TraceEntry} {c : Nat}
    {cp : CrashPlanEntry} (h : PersistsOther op r st c cp) (type : CrashPlanType) :
    PersistsOther op r st c { cp with type := type } := ⟨h.cluster, h.set, h.start⟩

/-- Of the plans that stand for a plan, only that plan itself is unsampled. -/
theorem mem_expandPlan_unsampled {flags : PlanFlags} {pick : List Int → Int} {st : TraceEntry}
    {cp cp' : CrashPlanEntry} (hun : cp.samplingType = .samplingNone) {l : List CrashPlanEntry}
    (h : expandPlan flags pick st cp = some l) :
    cp' ∈ l ∧ cp'.samplingType = .samplingNone ↔ sampled flags st = false ∧ cp' = cp := by
  by_cases hs : sampled flags st = true
  · have hall : ∀ cp' ∈ l, ∃ seq addr, cp' = sampleAt cp seq addr := by
      intro cp' hmem
      simp only [expandPlan, if_pos hs] at h
      by_cases h1 : flags.samplingNonatomicWrite = true
      · rw [if_pos h1] at h
        by_cases h2 : pyRange st.addr (st.addr + st.size) atomicWriteBytes = []
        · rw [if_pos h2] at h
          exact absurd h (by simp)
        · rw [if_neg h2, Option.some.injEq] at h
          rw [← h, List.mem_singleton] at hmem
          exact ⟨_, _, hmem⟩
      · rw [if_neg h1] at h
        by_cases h2 : st.addr % atomicWriteBytes ≠ 0
        · rw [if_pos h2, Option.some.injEq] at h
          rw [← h, List.mem_cons, List.mem_map] at hmem
          rcases hmem with hmem | ⟨a, -, hmem⟩
          · exact ⟨_, _, hmem⟩
          · exact ⟨_, _, hmem.symm⟩
        · rw [if_neg h2, Option.some.injEq] at h
          rw [← h, List.mem_map] at hmem
          obtain ⟨a, -, hmem⟩ := hmem
          exact ⟨_, _, hmem.symm⟩
    rw [hs]
    constructor
    · rintro ⟨hmem, hun'⟩
      obtain ⟨seq, addr, rfl⟩ := hall cp' hmem
      exact absurd hun' (by simp [sampleAt])
    · exact fun hcontra => absurd hcontra.1.symm Bool.false_ne_true
  · have hf : sampled flags st = false := Bool.eq_false_iff.mpr hs
    rw [expandPlan, if_neg hs, Option.some.injEq] at h
    rw [← h, List.mem_singleton]
    constructor
    · exact fun h' => ⟨hf, h'.1⟩
    · rintro ⟨-, rfl⟩
      exact ⟨rfl, hun⟩

theorem mem_emitPlan_unsampled {flags : PlanFlags} {pick : List Int → Int}
    {cpType : Option CrashPlanType} {st : TraceEntry} {emit : Bool} {plan : Option CrashPlanEntry}
    (hplan : ∀ cp, plan = some cp → cp.samplingType = .samplingNone) {l : List CrashPlanEntry}
    (h : emitPlan flags pick cpType st emit plan = some l) {cp : CrashPlanEntry} :
    cp ∈ l ∧ cp.samplingType = .samplingNone ↔ sampled flags st = false ∧ emit = true ∧
      ∃ cp₀, plan = some cp₀ ∧ cp = { cp₀ with type := cpType.getD cp₀.type } := by
  rw [emitPlan] at h
  by_cases he : emit = true
  · rw [if_pos he, Option.bind_eq_some_iff] at h
    obtain ⟨cp₀, hcp₀, h⟩ := h
    have hun : ({ cp₀ with type := cpType.getD cp₀.type } : CrashPlanEntry).samplingType =
        .samplingNone := hplan cp₀ hcp₀
    rw [mem_expandPlan_unsampled hun h]
    refine and_congr_right fun _ => ?_
    constructor
    · exact fun hcp => ⟨he, cp₀, hcp₀, hcp⟩
    · rintro ⟨-, cp₁, hcp₁, rfl⟩
      rw [hcp₀, Option.some.injEq] at hcp₁
      rw [hcp₁]
  · rw [if_neg he, Option.some.injEq] at h
    rw [← h]
    constructor
    · exact fun hmem => absurd hmem.1 List.not_mem_nil
    · exact fun hmem => absurd hmem.2.1 he

theorem persistSelfPlan_eq_some {op : OpTraceEntry} {r : Analysis} {st : TraceEntry}
    {cp : CrashPlanEntry} (h : persistSelfPlan op r st = some cp) :
    (cp.type = .unprotectedPersistSelf ∧ cp.samplingType = .samplingNone) ∧
      ∃ c, PersistsSelf op r st c cp := by
  obtain ⟨l, hl, h⟩ := Option.bind_eq_some_iff.mp h
  obtain ⟨c, hc, h⟩ := Option.bind_eq_some_iff.mp h
  rw [← Option.some.inj h]
  exact ⟨⟨rfl, rfl⟩, c, by rw [listAt, hl]; exact hc, rfl, rfl⟩

theorem persistOtherPlan_eq_some {op : OpTraceEntry} {r : Analysis} {st : TraceEntry}
    {cp : CrashPlanEntry} (h : persistOtherPlan op r st = some cp) :
    (cp.type = .unprotectedPersistOther ∧ cp.samplingType = .samplingNone) ∧
      ∃ c, PersistsOther op r st c cp := by
  obtain ⟨l, hl, h⟩ := Option.bind_eq_some_iff.mp h
  obtain ⟨c, hc, h⟩ := Option.bind_eq_some_iff.mp h
  rw [← Option.some.inj h]
  exact ⟨⟨rfl, rfl⟩, c, by rw [listAt, hl]; exact hc, rfl, rfl⟩

theorem exists_persistSelfPlan {op : OpTraceEntry} {r : Analysis} {st : TraceEntry} {c : Nat}
    (h : (listAt r.inFlightSeqClusterMap st.seq).min? = some c) :
    ∃ cp, persistSelfPlan op r st = some cp ∧ PersistsSelf op r st c cp := by
  cases hl : r.inFlightSeqClusterMap.get? st.seq with
  | none =>
    rw [listAt, hl] at h
    exact absurd h (by simp)
  | some l =>
    have hc : l.min? = some c := by
      rw [listAt, hl] at h
      exact h
    exact ⟨_, by rw [persistSelfPlan, hl, Option.bind_eq_bind, Option.bind_some, hc]; rfl,
      h, rfl, rfl⟩

theorem exists_persistOtherPlan {op : OpTraceEntry} {r : Analysis} {st : TraceEntry} {c : Nat}
    (h : (listAt r.inFlightSeqClusterMap st.seq).max? = some c) :
    ∃ cp, persistOtherPlan op r st = some cp ∧ PersistsOther op r st c cp := by
  cases hl : r.inFlightSeqClusterMap.get? st.seq with
  | none =>
    rw [listAt, hl] at h
    exact absurd h (by simp)
  | some l =>
    have hc : l.max? = some c := by
      rw [listAt, hl] at h
      exact h
    exact ⟨_, by rw [persistOtherPlan, hl, Option.bind_eq_bind, Option.bind_some, hc]; rfl,
      h, rfl, rfl⟩

/-- The unsampled plans are the two plans themselves, as far as they are asked for. -/
theorem mem_genPlans_unsampled {op : OpTraceEntry} {r : Analysis} {flags : PlanFlags}
    {pick : List Int → Int} {persistSelf persistOther : Bool} {cpType : Option CrashPlanType}
    {st : TraceEntry} {plans : List CrashPlanEntry}
    (h : genPlans op r flags pick persistSelf persistOther cpType st = some plans)
    {cp : CrashPlanEntry} :
    cp ∈ plans ∧ cp.samplingType = .samplingNone ↔ sampled flags st = false ∧
      (persistSelf = true ∧ (∃ cp₀, persistSelfPlan op r st = some cp₀ ∧
          cp = { cp₀ with type := cpType.getD cp₀.type }) ∨
        persistOther = true ∧ ∃ cp₀, persistOtherPlan op r st = some cp₀ ∧
          cp = { cp₀ with type := cpType.getD cp₀.type }) := by
  obtain ⟨l₁, h₁, h⟩ := Option.bind_eq_some_iff.mp h
  obtain ⟨l₂, h₂, h⟩ := Option.bind_eq_some_iff.mp h
  rw [← Option.some.inj h, List.mem_append, or_and_right, and_or_left,
    mem_emitPlan_unsampled (fun _ hcp => (persistSelfPlan_eq_some hcp).1.2) h₁,
    mem_emitPlan_unsampled (fun _ hcp => (persistOtherPlan_eq_some hcp).1.2) h₂]

theorem mem_genPlans {op : OpTraceEntry} {r : Analysis} {flags : PlanFlags}
    {pick : List Int → Int} {persistSelf persistOther : Bool} {cpType : Option CrashPlanType}
    {st : TraceEntry} {plans : List CrashPlanEntry} {cp : CrashPlanEntry}
    (h : genPlans op r flags pick persistSelf persistOther cpType st = some plans)
    (hcp : cp ∈ plans) (hun : cp.samplingType = .samplingNone) :
    (cp.type = cpType.getD .unprotectedPersistSelf ∧ ∃ c, PersistsSelf op r st c cp) ∨
      (cp.type = cpType.getD .unprotectedPersistOther ∧ ∃ c, PersistsOther op r st c cp) := by
  obtain ⟨-, hself | hother⟩ := (mem_genPlans_unsampled h).mp ⟨hcp, hun⟩
  · obtain ⟨-, cp₀, hcp₀, rfl⟩ := hself
    obtain ⟨⟨hty, -⟩, c, hc⟩ := persistSelfPlan_eq_some hcp₀
    exact Or.inl ⟨congrArg cpType.getD hty, c, hc.retype _⟩
  · obtain ⟨-, cp₀, hcp₀, rfl⟩ := hother
    obtain ⟨⟨hty, -⟩, c, hc⟩ := persistOtherPlan_eq_some hcp₀
    exact Or.inr ⟨congrArg cpType.getD hty, c, hc.retype _⟩

/-! ## The sets in terms of the operations -/

/-- The first fence that finds a store in flight; the end of the operation counts as one. -/
def FirstInFlight (ops : List AtomicOp) (x : Int) (c : Nat) : Prop :=
  (1 ≤ c ∧ c ≤ fences ops + 1) ∧ InFlightAt ops c x ∧ ∀ k, 1 ≤ k → k < c → ¬ InFlightAt ops k x

/-- The last fence that finds a store in flight. -/
def LastInFlight (ops : List AtomicOp) (x : Int) (c : Nat) : Prop :=
  (1 ≤ c ∧ c ≤ fences ops + 1) ∧ InFlightAt ops c x ∧
    ∀ k, c < k → k ≤ fences ops + 1 → ¬ InFlightAt ops k x

/-- Flushed when an earlier fence comes. -/
def FlushedEarlier (ops : List AtomicOp) (c : Nat) (x : Int) : Prop :=
  ∃ k, (1 ≤ k ∧ k < c) ∧ FlushingAt ops k x

/-- Overwritten by `x` while both are in flight. -/
def OverwrittenBy (ops : List AtomicOp) (x y : Int) : Prop :=
  ∃ k, (1 ≤ k ∧ k ≤ fences ops + 1) ∧ OverwritesAt ops k x y

section

variable {op : OpTraceEntry} {r : Analysis} {ops : List AtomicOp} {st : TraceEntry} {c : Nat}

theorem firstInFlight_iff (hd : Describes r ops) {x : Int} :
    (listAt r.inFlightSeqClusterMap x).min? = some c ↔ FirstInFlight ops x c := by
  rw [List.min?_eq_some_iff, hd.seqCluster]
  constructor
  · rintro ⟨⟨hc, hin⟩, hmin⟩
    refine ⟨hc, hin, fun k h1 hk hin' => ?_⟩
    have := hmin k ((hd.seqCluster x k).mpr ⟨⟨h1, by omega⟩, hin'⟩)
    omega
  · rintro ⟨hc, hin, hno⟩
    refine ⟨⟨hc, hin⟩, fun k hk => ?_⟩
    obtain ⟨⟨h1, -⟩, hin'⟩ := (hd.seqCluster x k).mp hk
    by_contra hlt
    exact hno k h1 (by omega) hin'

theorem mem_persistedBefore_iff (hd : Describes r ops) (hc : c ≤ fences ops + 1) {x : Int} :
    x ∈ persistedBefore r st c ↔
      x = st.seq ∨ FlushedEarlier ops c x ∨ OverwrittenBy ops st.seq x := by
  rw [mem_persistedBefore, hd.writeDep]
  refine or_congr_right (or_congr_left ?_)
  constructor
  · rintro ⟨k, hk, hx⟩
    rcases (hd.clusterFlushing k x).mp hx with ⟨⟨h1, -⟩, hfl⟩ | ⟨hlast, -⟩
    · exact ⟨k, ⟨h1, hk⟩, hfl⟩
    · omega
  · rintro ⟨k, ⟨h1, hk⟩, hfl⟩
    exact ⟨k, hk, (hd.clusterFlushing k x).mpr (Or.inl ⟨⟨h1, by omega⟩, hfl⟩)⟩

theorem lastInFlight_iff (hd : Describes r ops) {x : Int} :
    (listAt r.inFlightSeqClusterMap x).max? = some c ↔ LastInFlight ops x c := by
  rw [List.max?_eq_some_iff, hd.seqCluster]
  constructor
  · rintro ⟨⟨hc, hin⟩, hmax⟩
    refine ⟨hc, hin, fun k hk hn hin' => ?_⟩
    have := hmax k ((hd.seqCluster x k).mpr ⟨⟨by omega, hn⟩, hin'⟩)
    omega
  · rintro ⟨hc, hin, hno⟩
    refine ⟨⟨hc, hin⟩, fun k hk => ?_⟩
    obtain ⟨⟨-, hn⟩, hin'⟩ := (hd.seqCluster x k).mp hk
    by_contra hlt
    exact hno k (by omega) hn hin'

theorem mem_persistOtherSet_iff (hwf : op.WellFormed) (hd : Describes r ops)
    (hc : c ≤ fences ops + 1) {x : Int} :
    x ∈ persistOtherSet op r st c ↔ FlushedEarlier ops (c + 1) x ∧ x ≠ st.seq ∧
      (st.seq < x → ¬ OverwrittenBy ops x st.seq ∧ ¬ InLinesOf op st x) := by
  rw [mem_persistOtherSet hwf, hd.writeDep]
  refine and_congr_left fun _ => ?_
  constructor
  · rintro ⟨k, hk, hx⟩
    rcases (hd.clusterFlushing k x).mp hx with ⟨⟨h1, -⟩, hfl⟩ | ⟨hlast, -⟩
    · exact ⟨k, ⟨h1, by omega⟩, hfl⟩
    · omega
  · rintro ⟨k, ⟨h1, hk⟩, hfl⟩
    exact ⟨k, by omega, (hd.clusterFlushing k x).mpr (Or.inl ⟨⟨h1, by omega⟩, hfl⟩)⟩

end

end CrashPlan
end Silhouette
