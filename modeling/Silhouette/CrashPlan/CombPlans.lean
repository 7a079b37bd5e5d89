import Silhouette.CrashPlan.SchemeMechComb
import Silhouette.CrashPlan.Tso

/-!
# What the combinations persist

Three questions about the plans of `_gen_comb_for_stores`: whether they respect the order in which
stores become durable, whether the plan that leaves a combination out does so, and whether every
image is made once.  The dependencies are added in one pass and by sequence number, so the answers
depend on which stores overwrite each other.
-/

namespace Silhouette
namespace CrashPlan

open Lib Lib.Persist Cache Trace OpTrace Mech Image
open scoped List

namespace SchemeMechComb

/-! ## The dependencies -/

section

variable {op : OpTraceEntry} {r : Analysis} {ops : List AtomicOp} {d : DeduceMech} {k : Nat}
  {U : Finset Int} {x y : Int}

/-- A store depends on earlier ones. -/
theorem lt_of_mem_deps (ha : Analysed op r ops) (h : y ∈ depsOf r.writeDepSeqMap x) : y < x := by
  obtain ⟨c, -, hlt, -⟩ := (ha.describes.writeDep x y).mp h
  exact hlt

theorem mem_storeSeq_of_inFlight (ha : Analysed op r ops) {s : Store} {p : Phase} {c : Nat}
    (h : (s, p) ∈ inFlight Flush.covers (beforeFence c ops)) : s.seq ∈ op.pmSortedStoreSeq := by
  obtain ⟨e, he, hw⟩ := ha.store_of_mem (store_mem_of_mem_inFlight h)
  refine (ha.wf.mem_storeSeq s.seq).mpr ⟨e, he, ?_⟩
  rw [← seq_of_mem_trackedWords hw]
  rfl

theorem deps_subset_storeSeq (ha : Analysed op r ops) (h : y ∈ depsOf r.writeDepSeqMap x) :
    y ∈ op.pmSortedStoreSeq := by
  obtain ⟨c, -, -, s, p, t, q, -, ht, -, rfl, -⟩ := (ha.describes.writeDep x y).mp h
  exact mem_storeSeq_of_inFlight ha ht

theorem mem_storeSeq_of_cluster (ha : Analysed op r ops) {c : Nat}
    (h : x ∈ listAt r.inFlightClusterSeqMap c) : x ∈ op.pmSortedStoreSeq := by
  rcases (ha.describes.clusterSeq c x).mp h with ⟨-, s, p, hp, rfl⟩ | ⟨-, s, hs, rfl⟩
  · exact mem_storeSeq_of_inFlight ha hp
  · obtain ⟨e, he, hw⟩ := ha.store_of_mem (store_mem_iff.mp (mem_stores_of_mem_inFlight hs))
    refine (ha.wf.mem_storeSeq s.seq).mpr ⟨e, he, ?_⟩
    rw [← seq_of_mem_trackedWords hw]
    rfl

theorem notMem_persisted_of_inflight (h : x ∈ allInflightSeqSet r k) :
    x ∉ allPersistedSeqSet r k :=
  fun hp => (Finset.mem_sdiff.mp hp).2 h

/-- All that is persisted are stores of the operation. -/
theorem tobePersist_subset_storeSeq (ha : Analysed op r ops) {S : Finset Int}
    (hS : S ⊆ allInflightSeqSet r k) (hx : x ∈ tobePersistSeqSet r k S) :
    x ∈ op.pmSortedStoreSeq := by
  rcases mem_withDeps.mp hx with ⟨s, hs, rfl | hx⟩ | hx
  · exact mem_storeSeq_of_cluster ha (List.mem_toFinset.mp (hS hs))
  · exact deps_subset_storeSeq ha hx
  · obtain ⟨c, -, hc⟩ := List.mem_flatMap.mp (List.mem_toFinset.mp (Finset.mem_sdiff.mp hx).1)
    exact mem_storeSeq_of_cluster ha hc

end

/-! ## Order -/

section

variable (op : OpTraceEntry) (r : Analysis) (k : Nat)

/-- Both are in flight, and the first is an earlier store of a cacheline of the second. -/
def EarlierInLine (w t : Int) : Prop :=
  w < t ∧ w ∈ allInflightSeqSet r k ∧ t ∈ allInflightSeqSet r k ∧ ShareLine op t w

/-- What must be durable before a store: what it overwrites and what its cachelines hold. -/
def MustPrecede (w t : Int) : Prop :=
  w ∈ depsOf r.writeDepSeqMap t ∨ EarlierInLine op r k w t

/-- Behind one pass over the dependencies of some stores nothing is missing. -/
def OnePassEnough (S : Finset Int) : Prop :=
  ∀ s ∈ S, ∀ t, t = s ∨ t ∈ depsOf r.writeDepSeqMap s → ∀ w, MustPrecede op r k w t →
    w ∈ allPersistedSeqSet r k ∨ ∃ s' ∈ S, w = s' ∨ w ∈ depsOf r.writeDepSeqMap s'

end

section

variable {op : OpTraceEntry} {r : Analysis} {k : Nat} {U : Finset Int}

theorem closed_persisted_iff :
    ClosedUnder (MustPrecede op r k) (allPersistedSeqSet r k) ↔
      ∀ t ∈ allPersistedSeqSet r k, depsOf r.writeDepSeqMap t ⊆ allPersistedSeqSet r k := by
  constructor
  · exact fun h t ht w hw => h t ht w (Or.inl hw)
  · rintro h t ht w (hw | ⟨-, -, hin, -⟩)
    · exact h t ht hw
    · exact absurd ht (notMem_persisted_of_inflight hin)

theorem closed_tobePersist_iff (hP : ClosedUnder (MustPrecede op r k) (allPersistedSeqSet r k))
    {S : Finset Int} : ClosedUnder (MustPrecede op r k) (tobePersistSeqSet r k S) ↔
      OnePassEnough op r k S := by
  constructor
  · intro h s hs t ht w hw
    exact (mem_withDeps.mp (h t (mem_withDeps.mpr (Or.inl ⟨s, hs, ht⟩)) w hw)).symm
  · intro h t ht w hw
    rcases mem_withDeps.mp ht with ⟨s, hs, ht⟩ | ht
    · exact mem_withDeps.mpr (h s hs t ht w hw).symm
    · exact mem_withDeps.mpr (Or.inr (hP t ht w hw))

/-- Everything in flight but a combination of `U`: the stores outside `U` and the rest of it. -/
theorem closed_other_of {C : Finset Int}
    (hP : ClosedUnder (MustPrecede op r k) (allPersistedSeqSet r k))
    (hU : ∀ u ∈ U, ClosedUnder (MustPrecede op r k) (tobePersistSeqSet r k {u}))
    (hrest : ClosedUnder (MustPrecede op r k)
      (tobePersistSeqSet r k (allInflightSeqSet r k \ U))) (hC : C ⊆ U) :
    ClosedUnder (MustPrecede op r k) (tobePersistSeqSet r k (allInflightSeqSet r k \ C)) := by
  intro t ht w hw
  rcases mem_withDeps.mp ht with ⟨s, hs, ht⟩ | ht
  · obtain ⟨hin, hsC⟩ := Finset.mem_sdiff.mp hs
    by_cases hsU : s ∈ U
    · have hmem : w ∈ tobePersistSeqSet r k {s} :=
        hU s hsU t (mem_withDeps.mpr (Or.inl ⟨s, Finset.mem_singleton_self s, ht⟩)) w hw
      exact withDeps_mono (Finset.singleton_subset_iff.mpr hs) hmem
    · have hmem : w ∈ tobePersistSeqSet r k (allInflightSeqSet r k \ U) :=
        hrest t (mem_withDeps.mpr (Or.inl ⟨s, Finset.mem_sdiff.mpr ⟨hin, hsU⟩, ht⟩)) w hw
      exact withDeps_mono (Finset.sdiff_subset_sdiff (Finset.Subset.refl _) hC) hmem
  · exact mem_withDeps.mpr (Or.inr (hP t ht w hw))

end

section

variable {op : OpTraceEntry} {r : Analysis} {d : DeduceMech} {k : Nat} {U : Finset Int}
  {flags : PlanFlags} {sample : List RawOp → List RawOp}
  {tupleOf : List StoreArgs → Finset Int → List Int}

/-- Every set of stores of a call has a plan. -/
theorem exists_selfPlan (htuple : ListsSet tupleOf) {pieces : List StoreArgs} {C : Finset Int}
    (hC : C ⊆ combSeqs pieces) :
    ∃ comb ∈ visitedCombs r k tupleOf pieces,
      (selfPlan op r k U comb).persistSeqs = tobePersistSeqSet r k C := by
  obtain ⟨comb, hcomb, -, hset⟩ := @exists_visited pieces
    (pieces.filter fun w => w.seq ∈ C) r k tupleOf htuple List.filter_sublist
  rw [combSeqs_filter hC] at hset
  exact ⟨comb, hcomb, hset⟩

/-- What has to be closed for all plans to be. -/
theorem closed_plans_iff (htuple : ListsSet tupleOf) {pieces : List StoreArgs}
    (hU : combSeqs pieces = U) {before : Int → Int → Prop} :
    (∀ cp ∈ (visitedCombs r k tupleOf pieces).flatMap (plansOfComb op r k U),
      ClosedUnder before cp.persistSeqs) ↔
      (∀ C, C ⊆ U → ClosedUnder before (tobePersistSeqSet r k C)) ∧
      (allInflightSeqSet r k \ U ≠ ∅ → ∀ comb ∈ visitedCombs r k tupleOf pieces,
        ClosedUnder before
          (tobePersistSeqSet r k (allInflightSeqSet r k \ combSeqs comb))) := by
  constructor
  · intro h
    refine ⟨fun C hC => ?_, fun hrest comb hcomb => ?_⟩
    · obtain ⟨comb, hcomb, hset⟩ := @exists_selfPlan op r k U tupleOf htuple pieces C (hU ▸ hC)
      rw [← hset]
      exact h _ (List.mem_flatMap.mpr ⟨comb, hcomb, mem_plansOfComb.mpr (Or.inl rfl)⟩)
    · exact h _ (List.mem_flatMap.mpr
        ⟨comb, hcomb, mem_plansOfComb.mpr (Or.inr ⟨hrest, rfl⟩)⟩)
  · rintro ⟨hself, hother⟩ cp hcp
    obtain ⟨comb, hcomb, hcp⟩ := List.mem_flatMap.mp hcp
    rcases mem_plansOfComb.mp hcp with rfl | ⟨hrest, rfl⟩
    · exact hself _ (hU ▸ combSeqs_subset (sublist_of_mem_visitedCombs hcomb))
    · exact hother hrest comb hcomb

end

/-- The plans of the combinations respect the order of stores exactly when one pass over the
dependencies is enough for what is persisted already, for each of the stores and for the rest of
what is in flight. -/
theorem comb_plans_ordered_iff (op : OpTrace) {sample : List RawOp → List RawOp}
    (hsample : Samples sample) {r : Analysis}
    (hr : analysisInCacheRun analysisFlags sample op.toOpTraceEntry = some r) {d : DeduceMech}
    {k : Nat} {U : Finset Int} (hcall : Called op.toOpTraceEntry r d k U)
    {tupleOf : List StoreArgs → Finset Int → List Int} (htuple : ListsSet tupleOf)
    (flags : PlanFlags) :
    ∃ plans, genCombForStores op.toOpTraceEntry r k U tupleOf d flags sample = some plans ∧
      ((∀ cp ∈ plans, ClosedUnder (MustPrecede op.toOpTraceEntry r k) cp.persistSeqs) ↔
        (∀ t ∈ allPersistedSeqSet r k,
          depsOf r.writeDepSeqMap t ⊆ allPersistedSeqSet r k) ∧
        (∀ u ∈ U, OnePassEnough op.toOpTraceEntry r k {u}) ∧
        (allInflightSeqSet r k \ U ≠ ∅ →
          OnePassEnough op.toOpTraceEntry r k (allInflightSeqSet r k \ U))) := by
  obtain ⟨ops, ha⟩ := exists_analysed op.wf analysisFlags_asOne hr
  refine ⟨_, hcall.genCombForStores_eq op.wf hr hsample tupleOf, ?_⟩
  have hU := @Called.combSeqs_pieces _ _ _ _ _ _ flags _ hcall ha hsample
  rw [closed_plans_iff htuple hU, ← @closed_persisted_iff op.toOpTraceEntry r k]
  simp only [tobePersistSeqSet, closed_withDeps_subsets_iff]
  constructor
  · rintro ⟨⟨hP, hself⟩, hother⟩
    refine ⟨hP, fun u hu => (closed_tobePersist_iff hP).mp (hself u hu), fun hrest => ?_⟩
    refine (closed_tobePersist_iff hP).mp ?_
    have hlast := hother hrest _ (all_mem_visitedCombs htuple)
    rwa [hU] at hlast
  · rintro ⟨hP, hself, hother⟩
    have hself' : ∀ u ∈ U, ClosedUnder (MustPrecede op.toOpTraceEntry r k)
        (tobePersistSeqSet r k {u}) := fun u hu => (closed_tobePersist_iff hP).mpr (hself u hu)
    refine ⟨⟨hP, hself'⟩, fun hrest comb hcomb => ?_⟩
    exact closed_other_of hP hself' ((closed_tobePersist_iff hP).mpr (hother hrest))
      (hU ▸ combSeqs_subset (sublist_of_mem_visitedCombs hcomb))

/-- List a set in order. -/
def sortedTuple (_ : List StoreArgs) (s : Finset Int) : List Int := s.sort (· ≤ ·)

theorem listsSet_sortedTuple : ListsSet sortedTuple := fun _ s => Finset.sort_toFinset s (· ≤ ·)

/-- The mechanisms of a trace in which none is found. -/
def unprotectedMech (op : OpTraceEntry)
    (h : (MechPMStoreReason.entryList IntervalTree.RangeList.tree op).isSome) : DeduceMech where
  pmstoreReason := (MechPMStoreReason.entryList IntervalTree.RangeList.tree op).get h

/-- Two stores to different cachelines. -/
def apartTrace : OpTrace :=
  OpTrace.ofRecords (.plain .startFn 0 0 0) "write" 0 4096 0
    [.plain .store 1 0 8, .plain .store 2 64 8, .plain .asmFence 3 0 0] (by decide +kernel)

def apartAnalysis : Analysis :=
  (analysisInCacheRun analysisFlags (List.take 1) apartTrace.toOpTraceEntry).get (by decide +kernel)

def apartMech : DeduceMech := unprotectedMech apartTrace.toOpTraceEntry (by decide +kernel)

theorem called_apart : Called apartTrace.toOpTraceEntry apartAnalysis apartMech 1 {1, 2} :=
  called_of_filed false (apartMech.getPersistSeq false true).mechSeqSet (by decide +kernel)
    (by decide +kernel)

theorem comb_plans_ordered_apart :
    ∃ plans, genCombForStores apartTrace.toOpTraceEntry apartAnalysis 1 {1, 2} sortedTuple apartMech
        ⟨false, false⟩ (List.take 1) = some plans ∧
      ∀ cp ∈ plans,
        ClosedUnder (MustPrecede apartTrace.toOpTraceEntry apartAnalysis 1) cp.persistSeqs := by
  have hr : analysisInCacheRun analysisFlags (List.take 1) apartTrace.toOpTraceEntry =
      some apartAnalysis := (Option.some_get _).symm
  obtain ⟨plans, hplans, hiff⟩ := comb_plans_ordered_iff apartTrace samples_take_one hr called_apart
    listsSet_sortedTuple ⟨false, false⟩
  refine ⟨plans, hplans, hiff.mpr ⟨by decide +kernel, fun u hu => ?_, fun h => ?_⟩⟩
  · -- nothing is overwritten, and the stores share no line
    have hdeps : ∀ x, depsOf apartAnalysis.writeDepSeqMap x = ∅ := by
      have hnil : apartAnalysis.writeDepSeqMap.items = [] := by decide +kernel
      intro x
      rw [depsOf, Dict.get?, hnil]
      rfl
    rintro s - t - w (hw | ⟨hlt, hw, ht, e, e', he, het, he', hew, a, hta, hwa⟩)
    · rw [hdeps] at hw
      exact absurd hw (Finset.notMem_empty w)
    · have hin : allInflightSeqSet apartAnalysis 1 = {1, 2} := by decide +kernel
      rw [hin, Finset.mem_insert, Finset.mem_singleton] at hw ht
      obtain ⟨rfl, rfl⟩ : w = 1 ∧ t = 2 := by omega
      have h2 : apartTrace.IsPmStore (.plain .store 2 64 8) := by decide +kernel
      have h1 : apartTrace.IsPmStore (.plain .store 1 0 8) := by decide +kernel
      rw [he.eq_of_seq_eq h2 het] at hta
      rw [he'.eq_of_seq_eq h1 hew] at hwa
      obtain ⟨b, hb1, hb2, rfl⟩ := hta
      obtain ⟨b', hb1', hb2', hline⟩ := hwa
      simp only [TraceEntry.plain, lineOf, alignToFloor, cachelineBytes] at *
      omega
  · exact absurd (by decide +kernel) h

/-- The third store overwrites a part of the second, and the second the first. -/
def chainTrace : OpTrace :=
  OpTrace.ofRecords (.plain .startFn 0 0 0) "write" 0 4096 0
    [.plain .store 1 0 8, .plain .store 2 0 16, .plain .store 3 8 8, .plain .asmFence 4 0 0]
    (by decide +kernel)

def chainAnalysis : Analysis :=
  (analysisInCacheRun analysisFlags (List.take 1) chainTrace.toOpTraceEntry).get (by decide +kernel)

def chainMech : DeduceMech := unprotectedMech chainTrace.toOpTraceEntry (by decide +kernel)

theorem called_chain : Called chainTrace.toOpTraceEntry chainAnalysis chainMech 1 {1, 2, 3} :=
  called_of_filed false (chainMech.getPersistSeq false true).mechSeqSet (by decide +kernel)
    (by decide +kernel)

/-- The plan of the third store has the second, and not the first. -/
theorem comb_plan_breaks_chain :
    analysisInCacheRun analysisFlags (List.take 1) chainTrace.toOpTraceEntry = some chainAnalysis ∧
    Called chainTrace.toOpTraceEntry chainAnalysis chainMech 1 {1, 2, 3} ∧
    1 ∈ depsOf chainAnalysis.writeDepSeqMap 2 ∧
    ∃ plans, genCombForStores chainTrace.toOpTraceEntry chainAnalysis 1 {1, 2, 3} sortedTuple
        chainMech ⟨false, false⟩ (List.take 1) = some plans ∧
      ∃ cp ∈ plans, 2 ∈ cp.persistSeqs ∧ 1 ∉ cp.persistSeqs ∧
        ¬ ClosedUnder (MustPrecede chainTrace.toOpTraceEntry chainAnalysis 1) cp.persistSeqs := by
  have hr : analysisInCacheRun analysisFlags (List.take 1) chainTrace.toOpTraceEntry =
      some chainAnalysis := (Option.some_get _).symm
  have hdep : 1 ∈ depsOf chainAnalysis.writeDepSeqMap 2 := by decide +kernel
  obtain ⟨ops, ha⟩ := exists_analysed chainTrace.wf analysisFlags_asOne hr
  refine ⟨hr, called_chain, hdep, _,
    called_chain.genCombForStores_eq chainTrace.wf hr samples_take_one sortedTuple, ?_⟩
  have hU := @Called.combSeqs_pieces _ _ _ _ _ _ ⟨false, false⟩ _ called_chain ha samples_take_one
  obtain ⟨comb, hcomb, hset⟩ := @exists_selfPlan chainTrace.toOpTraceEntry chainAnalysis 1 {1, 2, 3}
    sortedTuple listsSet_sortedTuple _ {3} (by rw [hU]; decide)
  refine ⟨_, List.mem_flatMap.mpr ⟨comb, hcomb, mem_plansOfComb.mpr (Or.inl rfl)⟩, ?_⟩
  rw [hset]
  have hin : 2 ∈ tobePersistSeqSet chainAnalysis 1 {3} := by decide +kernel
  have hout : 1 ∉ tobePersistSeqSet chainAnalysis 1 {3} := by decide +kernel
  exact ⟨hin, hout, fun h => hout (h 2 hin 1 (Or.inl hdep))⟩

/-! ## Leaving a combination out -/

/-- Every store that is combined has a combination to itself that is visited, with one of its
pieces. -/
theorem exists_visited_single {op : OpTraceEntry} {r : Analysis} {ops : List AtomicOp} {k : Nat}
    {U : Finset Int} (ha : Analysed op r ops) (hin : U ⊆ allInflightSeqSet r k)
    {tupleOf : List StoreArgs → Finset Int → List Int} (htuple : ListsSet tupleOf)
    {pieces : List StoreArgs} (hU : combSeqs pieces = U) {t : Int} (ht : t ∈ U) :
    ∃ v, [v] ∈ visitedCombs r k tupleOf pieces ∧ v.seq = t := by
  obtain ⟨w, hw, rfl⟩ := List.mem_map.mp (List.mem_toFinset.mp (hU.symm ▸ ht))
  obtain ⟨comb, hcomb, haddr, hset⟩ := @exists_visited pieces [w] r k tupleOf htuple
    (List.singleton_sublist.mpr hw)
  obtain ⟨v, rfl⟩ : ∃ v, comb = [v] := by
    have hlen := congrArg List.length haddr
    rw [List.length_map, List.length_map] at hlen
    exact List.length_eq_one_iff.mp hlen
  have hv : v ∈ pieces :=
    (sublist_of_mem_visitedCombs hcomb).subset (List.mem_singleton_self v)
  have hvU : v.seq ∈ U := hU ▸ List.mem_toFinset.mpr (List.mem_map_of_mem hv)
  have hset : tobePersistSeqSet r k {v.seq} = tobePersistSeqSet r k {w.seq} := hset
  -- each of the two is persisted with the other, so neither is later
  have hbelow : ∀ x y, x ∈ U → x ∈ tobePersistSeqSet r k {y} → x ≤ y := by
    intro x y hx hmem
    rcases mem_withDeps.mp hmem with ⟨c, hc, hxc⟩ | hp
    · rw [Finset.mem_singleton.mp hc] at hxc
      rcases hxc with rfl | hxc
      · exact le_refl _
      · exact (lt_of_mem_deps ha hxc).le
    · exact absurd hp (notMem_persisted_of_inflight (hin hx))
  refine ⟨v, hcomb, le_antisymm (hbelow _ _ hvU ?_) (hbelow _ _ ht ?_)⟩
  · rw [← hset]
    exact mem_withDeps_self (Finset.mem_singleton_self _)
  · rw [hset]
    exact mem_withDeps_self (Finset.mem_singleton_self _)

/-- A plan leaves its combination out unless a store in flight overwrites one of the stores that
are combined. -/
theorem comb_left_out_iff (op : OpTrace) {sample : List RawOp → List RawOp}
    (hsample : Samples sample) {r : Analysis}
    (hr : analysisInCacheRun analysisFlags sample op.toOpTraceEntry = some r) {d : DeduceMech}
    {k : Nat} {U : Finset Int} (hcall : Called op.toOpTraceEntry r d k U)
    {tupleOf : List StoreArgs → Finset Int → List Int} (htuple : ListsSet tupleOf)
    (flags : PlanFlags) :
    ∃ pieces, combAtomicOps U d flags sample = some pieces ∧
      genCombForStores op.toOpTraceEntry r k U tupleOf d flags sample =
        some ((visitedCombs r k tupleOf pieces).flatMap (plansOfComb op.toOpTraceEntry r k U)) ∧
      ((∀ comb ∈ visitedCombs r k tupleOf pieces, ∀ cp ∈ plansOfComb op.toOpTraceEntry r k U comb,
          cp.type = .combPersistOther → ∀ t ∈ combSeqs comb, t ∉ cp.persistSeqs) ↔
        (allInflightSeqSet r k \ U ≠ ∅ → ∀ t ∈ U, ∀ j ∈ allInflightSeqSet r k,
          t ∉ depsOf r.writeDepSeqMap j)) := by
  obtain ⟨ops, ha⟩ := exists_analysed op.wf analysisFlags_asOne hr
  refine ⟨_, hcall.combAtomicOps_eq op.wf hr,
    hcall.genCombForStores_eq op.wf hr hsample tupleOf, ?_⟩
  have hU := @Called.combSeqs_pieces _ _ _ _ _ _ flags _ hcall ha hsample
  have hin := hcall.subset_inflight ha
  generalize sortBy StoreArgs.seq (sortedPieces op.toOpTraceEntry d U flags sample) = pieces at hU ⊢
  constructor
  · intro h hrest t ht j hj hdep
    obtain ⟨v, hv, hvt⟩ := exists_visited_single ha hin htuple hU ht
    have hseqs : combSeqs [v] = {t} := by
      rw [← hvt]
      rfl
    refine h [v] hv _ (mem_plansOfComb.mpr (Or.inr ⟨hrest, rfl⟩)) rfl t
      (by rw [hseqs]; exact Finset.mem_singleton_self _)
      (mem_withDeps.mpr (Or.inl ⟨j, ?_, Or.inr hdep⟩))
    rw [hseqs, Finset.mem_sdiff, Finset.mem_singleton]
    exact ⟨hj, (lt_of_mem_deps ha hdep).ne'⟩
  · intro h comb hcomb cp hcp htype t ht hmem
    rcases mem_plansOfComb.mp hcp with rfl | ⟨hrest, rfl⟩
    · simp only [selfPlan, combPlan] at htype
      split_ifs at htype
    · have htU : t ∈ U := hU ▸ combSeqs_subset (sublist_of_mem_visitedCombs hcomb) ht
      rcases mem_withDeps.mp hmem with ⟨j, hj, rfl | hdep⟩ | hp
      · exact (Finset.mem_sdiff.mp hj).2 ht
      · exact h hrest t htU j (Finset.mem_sdiff.mp hj).1 hdep
      · exact notMem_persisted_of_inflight (hin htU) hp

/-- The second store is the tail of a log. -/
def apartLogMech : DeduceMech :=
  { apartMech with
    lswReasonList := [[{ tailStore := apartMech.pmstoreReason.get ⟨1, by decide +kernel⟩ }]] }

theorem called_apartLog : Called apartTrace.toOpTraceEntry apartAnalysis apartLogMech 1 {1} :=
  called_of_filed false (apartLogMech.getPersistSeq false true).mechSeqSet (by decide +kernel)
    (by decide +kernel)

/-- The first store is left out where the tail is persisted. -/
theorem comb_left_out_apart :
    allInflightSeqSet apartAnalysis 1 \ {1} ≠ ∅ ∧
    ∃ pieces, combAtomicOps {1} apartLogMech ⟨false, false⟩ (List.take 1) = some pieces ∧
      ∀ comb ∈ visitedCombs apartAnalysis 1 sortedTuple pieces,
        ∀ cp ∈ plansOfComb apartTrace.toOpTraceEntry apartAnalysis 1 {1} comb,
          cp.type = .combPersistOther → ∀ t ∈ combSeqs comb, t ∉ cp.persistSeqs := by
  obtain ⟨pieces, hpieces, -, hiff⟩ := comb_left_out_iff apartTrace samples_take_one
    (Option.some_get _).symm called_apartLog listsSet_sortedTuple ⟨false, false⟩
  exact ⟨by decide +kernel, pieces, hpieces, hiff.mpr fun _ => by decide +kernel⟩

/-- The second store overwrites the first. -/
def overwriteTrace : OpTrace :=
  OpTrace.ofRecords (.plain .startFn 0 0 0) "write" 0 4096 0
    [.plain .store 1 0 8, .plain .store 2 0 8, .plain .asmFence 3 0 0] (by decide +kernel)

def overwriteAnalysis : Analysis :=
  (analysisInCacheRun analysisFlags (List.take 1) overwriteTrace.toOpTraceEntry).get
    (by decide +kernel)

def overwriteMech : DeduceMech := unprotectedMech overwriteTrace.toOpTraceEntry (by decide +kernel)

/-- The second store is the tail of a log. -/
def overwriteLogMech : DeduceMech :=
  { overwriteMech with
    lswReasonList := [[{ tailStore := overwriteMech.pmstoreReason.get ⟨1, by decide +kernel⟩ }]] }

theorem called_overwriteLog :
    Called overwriteTrace.toOpTraceEntry overwriteAnalysis overwriteLogMech 1 {1} :=
  called_of_filed false (overwriteLogMech.getPersistSeq false true).mechSeqSet (by decide +kernel)
    (by decide +kernel)

/-- The plan that leaves the first store out persists it with the tail. -/
theorem comb_comes_back :
    analysisInCacheRun analysisFlags (List.take 1) overwriteTrace.toOpTraceEntry =
      some overwriteAnalysis ∧
    Called overwriteTrace.toOpTraceEntry overwriteAnalysis overwriteLogMech 1 {1} ∧
    ∃ pieces, combAtomicOps {1} overwriteLogMech ⟨false, false⟩ (List.take 1) = some pieces ∧
      ∃ comb ∈ visitedCombs overwriteAnalysis 1 sortedTuple pieces,
        ∃ cp ∈ plansOfComb overwriteTrace.toOpTraceEntry overwriteAnalysis 1 {1} comb,
          cp.type = .combPersistOther ∧ 1 ∈ combSeqs comb ∧ 1 ∈ cp.persistSeqs := by
  have hr : analysisInCacheRun analysisFlags (List.take 1) overwriteTrace.toOpTraceEntry =
      some overwriteAnalysis := (Option.some_get _).symm
  obtain ⟨ops, ha⟩ := exists_analysed overwriteTrace.wf analysisFlags_asOne hr
  have hU := @Called.combSeqs_pieces _ _ _ _ _ _ ⟨false, false⟩ _ called_overwriteLog ha
    samples_take_one
  refine ⟨hr, called_overwriteLog, _, called_overwriteLog.combAtomicOps_eq overwriteTrace.wf hr, _,
    all_mem_visitedCombs listsSet_sortedTuple, _,
    mem_plansOfComb.mpr (Or.inr ⟨by decide +kernel, rfl⟩), rfl, ?_, ?_⟩
  · rw [hU]
    exact Finset.mem_singleton_self 1
  · show 1 ∈ tobePersistSeqSet overwriteAnalysis 1 (allInflightSeqSet overwriteAnalysis 1 \ combSeqs _)
    rw [hU]
    decide +kernel

/-! ## Every image once -/

/-- The plans that persist a combination. -/
def isSelfPlan (cp : CrashPlanEntry) : Bool :=
  cp.type = .combPersist ∨ cp.type = .combPersistSelf

/-- The subset has the pieces of every store that one of its own depends on. -/
def DepClosed (r : Analysis) (pieces comb : List StoreArgs) : Prop :=
  ∀ w ∈ comb, ∀ v ∈ pieces, v.seq ∈ depsOf r.writeDepSeqMap w.seq → v ∈ comb

/-- No two of the plans write the same stores, and every closed combination is what one of them
writes. -/
structure EachOnce (op : OpTraceEntry) (r : Analysis) (pieces : List StoreArgs)
    (plans : List CrashPlanEntry) : Prop where
  once : ((plans.filter isSelfPlan).map fun cp => (writtenSeqs op cp).toFinset).Nodup
  represented : ∀ comb, comb <+ pieces → DepClosed r pieces comb →
    ∃ cp ∈ plans.filter isSelfPlan, pieces.filter (fun w => w.seq ∈ writtenSeqs op cp) = comb

section

variable {op : OpTraceEntry} {r : Analysis} {ops : List AtomicOp} {d : DeduceMech} {k : Nat}
  {U : Finset Int} {flags : PlanFlags} {sample : List RawOp → List RawOp}
  {tupleOf : List StoreArgs → Finset Int → List Int} {pieces comb : List StoreArgs}

theorem filter_isSelfPlan (combs : List (List StoreArgs)) :
    (combs.flatMap (plansOfComb op r k U)).filter isSelfPlan = combs.map (selfPlan op r k U) := by
  have hone : ∀ comb, (plansOfComb op r k U comb).filter isSelfPlan = [selfPlan op r k U comb] := by
    intro comb
    rw [plansOfComb]
    by_cases h : allInflightSeqSet r k \ U = ∅
    · rw [if_pos h]
      simp [isSelfPlan, selfPlan, combPlan, h]
    · rw [if_neg h]
      simp [isSelfPlan, selfPlan, otherPlan, combPlan, h]
  induction combs with
  | nil => rfl
  | cons comb rest ih => rw [List.flatMap_cons, List.filter_append, hone, ih, List.map_cons,
      List.singleton_append]

/-- The plan of a combination writes what it persists. -/
theorem mem_writtenSeqs_selfPlan (ha : Analysed op r ops)
    (hmin : ∀ x ∈ op.pmSortedStoreSeq, op.minSeq ≤ x)
    (hcomb : combSeqs comb ⊆ allInflightSeqSet r k) {x : Int} :
    x ∈ writtenSeqs op (selfPlan op r k U comb) ↔
      x ∈ tobePersistSeqSet r k (combSeqs comb) := by
  rw [mem_writtenSeqs]
  constructor
  · rintro ⟨hx, hlt | hx'⟩
    · exact absurd (hmin x hx) (not_le.mpr hlt)
    · exact hx'
  · intro hx
    exact ⟨tobePersist_subset_storeSeq ha hcomb hx, Or.inr hx⟩

/-- With one piece to each store, a combination is told by its stores. -/
theorem filter_combSeqs (h : comb <+ pieces) (hnodup : (pieces.map StoreArgs.seq).Nodup) :
    pieces.filter (fun w => w.seq ∈ combSeqs comb) = comb := by
  induction h with
  | slnil => rfl
  | @cons comb pieces w h ih =>
    rw [List.map_cons, List.nodup_cons] at hnodup
    have hnot : w.seq ∉ combSeqs comb := fun hw =>
      hnodup.1 ((h.map StoreArgs.seq).subset (List.mem_toFinset.mp hw))
    rw [List.filter_cons_of_neg (by simpa using hnot)]
    exact ih hnodup.2
  | @cons_cons comb pieces w h ih =>
    rw [List.map_cons, List.nodup_cons] at hnodup
    have hself : w.seq ∈ combSeqs (w :: comb) := List.mem_toFinset.mpr List.mem_cons_self
    rw [List.filter_cons_of_pos (by simpa using hself)]
    refine congrArg _ (Eq.trans (List.filter_congr fun v hv => ?_) (ih hnodup.2))
    have hne : v.seq ≠ w.seq := fun heq => hnodup.1 (heq ▸ List.mem_map_of_mem hv)
    simp [combSeqs, hne]

/-- One piece to each store. -/
theorem Called.nodup_seqs (h : Called op r d k U) (hsample : Samples sample)
    (hone : ∀ u ∈ U, OnePiece flags (entryOf op d u)) :
    ((sortBy StoreArgs.seq (sortedPieces op d U flags sample)).map StoreArgs.seq).Nodup := by
  refine ((sortBy_perm _ _).map StoreArgs.seq).nodup_iff.mpr ?_
  rw [sortedPieces, List.map_flatMap, List.nodup_flatMap]
  have hseq : ∀ u ∈ U, ∀ x ∈ (piecesOf flags sample (entryOf op d u)).map StoreArgs.seq, x = u := by
    intro u hu x hx
    obtain ⟨-, hst, hseq⟩ := h.entryOf_spec hu
    obtain ⟨w, hw, rfl⟩ := List.mem_map.mp hx
    rw [seq_of_mem_piecesOf hsample hst.1 hw, hseq]
  constructor
  · intro u hu
    obtain ⟨-, hst, -⟩ := h.entryOf_spec ((Finset.mem_sort _).mp hu)
    have hlen := length_piecesOf_le_one hsample hst.1 (hone u ((Finset.mem_sort _).mp hu))
    cases hpieces : piecesOf flags sample (entryOf op d u) with
    | nil => exact List.nodup_nil
    | cons w rest =>
      rw [hpieces, List.length_cons] at hlen
      rw [List.eq_nil_of_length_eq_zero (show rest.length = 0 by omega)]
      exact List.nodup_singleton _
  · refine (Finset.sort_nodup U (· ≤ ·)).imp_of_mem fun {u v} hu hv hne => ?_
    intro x hx hx'
    exact hne ((hseq u ((Finset.mem_sort _).mp hu) x hx).symm.trans
      (hseq v ((Finset.mem_sort _).mp hv) x hx'))

end

/-- A store to be combined that has an effect of its own: it, or a store it overwrites, is neither
persisted already nor one of the others nor overwritten by them. -/
def BringsOwn (r : Analysis) (k : Nat) (U : Finset Int) (t : Int) : Prop :=
  ∃ x, (x = t ∨ x ∈ depsOf r.writeDepSeqMap t) ∧ x ∉ allPersistedSeqSet r k ∧
    ∀ u ∈ U, u ≠ t → x ≠ u ∧ x ∉ depsOf r.writeDepSeqMap u

theorem bringsOwn_iff {r : Analysis} {k : Nat} {U : Finset Int} {t : Int} :
    BringsOwn r k U t ↔
      ¬ insert t (depsOf r.writeDepSeqMap t) ⊆ tobePersistSeqSet r k (U.erase t) := by
  rw [Finset.not_subset]
  refine exists_congr fun x => and_congr Finset.mem_insert.symm ?_
  rw [tobePersistSeqSet, mem_withDeps, not_or, and_comm]
  refine and_congr_left fun _ => ?_
  constructor
  · rintro h ⟨u, hu, hx⟩
    obtain ⟨hne, hu⟩ := Finset.mem_erase.mp hu
    obtain ⟨h1, h2⟩ := h u hu hne
    exact hx.elim h1 h2
  · intro h u hu hne
    exact ⟨fun hx => h ⟨u, Finset.mem_erase.mpr ⟨hne, hu⟩, Or.inl hx⟩,
      fun hx => h ⟨u, Finset.mem_erase.mpr ⟨hne, hu⟩, Or.inr hx⟩⟩

section

variable {op : OpTraceEntry} {r : Analysis} {ops : List AtomicOp} {k : Nat} {U : Finset Int}
  {tupleOf : List StoreArgs → Finset Int → List Int} {pieces : List StoreArgs}

/-- The plans write different stores when the combinations persist different ones. -/
theorem once_iff (ha : Analysed op r ops) (hmin : ∀ x ∈ op.pmSortedStoreSeq, op.minSeq ≤ x)
    (hU : combSeqs pieces = U) (hin : U ⊆ allInflightSeqSet r k) :
    ((((visitedCombs r k tupleOf pieces).flatMap (plansOfComb op r k U)).filter isSelfPlan).map
      fun cp => (writtenSeqs op cp).toFinset).Nodup ↔
    ∀ comb ∈ visitedCombs r k tupleOf pieces, ∀ comb' ∈ visitedCombs r k tupleOf pieces,
      tobePersistSeqSet r k (combSeqs comb) = tobePersistSeqSet r k (combSeqs comb') →
        comb = comb' := by
  have hwritten : ∀ comb ∈ visitedCombs r k tupleOf pieces,
      (writtenSeqs op (selfPlan op r k U comb)).toFinset =
        tobePersistSeqSet r k (combSeqs comb) := by
    intro comb hcomb
    ext x
    rw [List.mem_toFinset]
    refine mem_writtenSeqs_selfPlan ha hmin (fun y hy => hin ?_)
    exact hU ▸ combSeqs_subset (sublist_of_mem_visitedCombs hcomb) hy
  have hnodup : (visitedCombs r k tupleOf pieces).Nodup :=
    firstsBy_pairwise.imp fun hkey heq => hkey (congrArg _ heq)
  have hmap : (visitedCombs r k tupleOf pieces).map
      ((fun cp => (writtenSeqs op cp).toFinset) ∘ selfPlan op r k U) =
        (visitedCombs r k tupleOf pieces).map fun comb =>
          tobePersistSeqSet r k (combSeqs comb) := List.map_congr_left hwritten
  rw [filter_isSelfPlan, List.map_map, hmap]
  exact ⟨fun h comb hcomb comb' hcomb' heq => List.inj_on_of_nodup_map h hcomb hcomb' heq,
    fun h => hnodup.map_on h⟩

/-- A closed combination of stores with one piece each is what some plan writes. -/
theorem represented_of_nodup (ha : Analysed op r ops)
    (hmin : ∀ x ∈ op.pmSortedStoreSeq, op.minSeq ≤ x) (htuple : ListsSet tupleOf)
    (hU : combSeqs pieces = U) (hin : U ⊆ allInflightSeqSet r k)
    (hnodup : (pieces.map StoreArgs.seq).Nodup) {comb : List StoreArgs} (hsub : comb <+ pieces)
    (hclosed : DepClosed r pieces comb) :
    ∃ cp ∈ ((visitedCombs r k tupleOf pieces).flatMap (plansOfComb op r k U)).filter isSelfPlan,
      pieces.filter (fun w => w.seq ∈ writtenSeqs op cp) = comb := by
  obtain ⟨comb', hcomb', -, hset⟩ := @exists_visited pieces comb r k tupleOf htuple hsub
  have hin' : combSeqs comb' ⊆ allInflightSeqSet r k := fun y hy => hin
    (hU ▸ combSeqs_subset (sublist_of_mem_visitedCombs hcomb') hy)
  rw [filter_isSelfPlan]
  refine ⟨_, List.mem_map_of_mem hcomb', Eq.trans (List.filter_congr fun w hw => ?_)
    (filter_combSeqs hsub hnodup)⟩
  refine decide_eq_decide.mpr ?_
  rw [mem_writtenSeqs_selfPlan ha hmin hin', hset]
  constructor
  · intro hmem
    rcases mem_withDeps.mp hmem with ⟨c, hc, hx⟩ | hp
    · obtain ⟨v, hv, rfl⟩ := List.mem_map.mp (List.mem_toFinset.mp hc)
      rcases hx with heq | hdep
      · exact heq ▸ hc
      · exact List.mem_toFinset.mpr (List.mem_map_of_mem (hclosed v hv w hw hdep))
    · have hwU : w.seq ∈ U := hU ▸ List.mem_toFinset.mpr (List.mem_map_of_mem hw)
      exact absurd hp (notMem_persisted_of_inflight (hin hwU))
  · exact fun hmem => mem_withDeps_self hmem

end

section

variable {op : OpTraceEntry} {r : Analysis} {d : DeduceMech} {k : Nat} {U : Finset Int}
  {tupleOf : List StoreArgs → Finset Int → List Int} {pieces : List StoreArgs}

/-- Without a store that has no effect of its own a combination is shorter and persists the
same. -/
theorem bringsOwn_of_once (htuple : ListsSet tupleOf) (hU : combSeqs pieces = U)
    (honce : ∀ comb ∈ visitedCombs r k tupleOf pieces,
      ∀ comb' ∈ visitedCombs r k tupleOf pieces,
        tobePersistSeqSet r k (combSeqs comb) = tobePersistSeqSet r k (combSeqs comb') →
          comb = comb') {t : Int} (ht : t ∈ U) : BringsOwn r k U t := by
  rw [bringsOwn_iff]
  intro hsub
  obtain ⟨c, hc, hcaddr, hcset⟩ := @exists_visited _ _ r k tupleOf htuple
    (List.filter_sublist (p := fun w : StoreArgs => w.seq ∈ U.erase t) (l := pieces))
  have heq := honce _ (all_mem_visitedCombs htuple) c hc (by
    rw [hcset, combSeqs_filter (hU.symm ▸ Finset.erase_subset t U), hU]
    exact withDeps_erase_eq hsub)
  obtain ⟨w, hw, rfl⟩ := List.mem_map.mp (List.mem_toFinset.mp (hU.symm ▸ ht))
  have hlen := congrArg List.length hcaddr
  rw [← heq, List.length_map, List.length_map] at hlen
  have hall := List.filter_eq_self.mp (List.filter_sublist.eq_of_length hlen.symm) w hw
  exact (Finset.mem_erase.mp (of_decide_eq_true hall)).1 rfl

/-- Two pieces of a store would be two combinations of one length. -/
theorem addr_eq_of_once (htuple : ListsSet tupleOf)
    (honce : ∀ comb ∈ visitedCombs r k tupleOf pieces,
      ∀ comb' ∈ visitedCombs r k tupleOf pieces,
        tobePersistSeqSet r k (combSeqs comb) = tobePersistSeqSet r k (combSeqs comb') →
          comb = comb') {p q : StoreArgs} (hp : p ∈ pieces) (hq : q ∈ pieces)
    (hseq : p.seq = q.seq) : p.addr = q.addr := by
  obtain ⟨c, hc, hcaddr, hcset⟩ := @exists_visited _ _ r k tupleOf htuple
    (List.singleton_sublist.mpr hp)
  obtain ⟨c', hc', hcaddr', hcset'⟩ := @exists_visited _ _ r k tupleOf htuple
    (List.singleton_sublist.mpr hq)
  have hseqs : combSeqs [p] = combSeqs [q] := by
    show ({p.seq} : Finset Int) = {q.seq}
    rw [hseq]
  have heq := honce c hc c' hc' (by rw [hcset, hcset', hseqs])
  rw [heq, hcaddr', List.map_cons, List.map_nil] at hcaddr
  exact (List.cons.inj hcaddr).1.symm

end

/-- Every image is made once exactly when each store is combined as a whole and has an effect of
its own. -/
theorem comb_images_once_iff {startFnEntry : TraceEntry} {opName : String} {pmAddr pmSize pid : Int}
    {records : List TraceEntry} {op : OpTraceEntry}
    (hop : OpTraceEntry.build startFnEntry opName pmAddr pmSize pid records = some op)
    {sample : List RawOp → List RawOp} (hsample : Samples sample) {r : Analysis}
    (hr : analysisInCacheRun analysisFlags sample op = some r) {d : DeduceMech} {k : Nat}
    {U : Finset Int} (hcall : Called op r d k U)
    {tupleOf : List StoreArgs → Finset Int → List Int} (htuple : ListsSet tupleOf)
    (flags : PlanFlags) :
    ∃ pieces plans, combAtomicOps U d flags sample = some pieces ∧
      genCombForStores op r k U tupleOf d flags sample = some plans ∧
      (EachOnce op r pieces plans ↔
        (∀ u ∈ U, ∀ e, entryBySeq d u = some e → OnePiece flags e) ∧
        ∀ t ∈ U, BringsOwn r k U t) := by
  have hwf := OpTraceEntry.wellFormed_build hop
  have hmin := fun x => @OpTraceEntry.minSeq_le_of_build _ _ _ _ _ _ _ hop x
  obtain ⟨ops, ha⟩ := exists_analysed hwf analysisFlags_asOne hr
  refine ⟨_, _, hcall.combAtomicOps_eq hwf hr,
    hcall.genCombForStores_eq hwf hr hsample tupleOf, ?_⟩
  have hU := @Called.combSeqs_pieces _ _ _ _ _ _ flags _ hcall ha hsample
  have hin := hcall.subset_inflight ha
  constructor
  · rintro ⟨honce, -⟩
    rw [once_iff ha hmin hU hin] at honce
    refine ⟨fun u hu e he => ?_, fun t ht => bringsOwn_of_once htuple hU honce ht⟩
    by_contra hnot
    obtain ⟨hentry, hst, -⟩ := hcall.entryOf_spec hu
    obtain rfl : entryOf op d u = e := Option.some.inj (hentry.symm.trans he)
    obtain ⟨p, hp, q, hq, hne⟩ := @exists_two_pieces flags sample _ hsample hst.1 hnot
    have hmem : ∀ w ∈ piecesOf flags sample (entryOf op d u),
        w ∈ sortBy StoreArgs.seq (sortedPieces op d U flags sample) := fun w hw =>
      mem_sortBy.mpr (List.mem_flatMap.mpr ⟨u, (Finset.mem_sort _).mpr hu, hw⟩)
    refine hne (addr_eq_of_once htuple honce (hmem p hp) (hmem q hq) ?_)
    rw [seq_of_mem_piecesOf hsample hst.1 hp, seq_of_mem_piecesOf hsample hst.1 hq]
  · rintro ⟨hone, hown⟩
    have hnodup := @Called.nodup_seqs _ _ _ _ _ flags _ hcall hsample fun u hu =>
      hone u hu _ (hcall.entryOf_spec hu).1
    refine ⟨(once_iff ha hmin hU hin).mpr fun c hc c' hc' heq => ?_, fun comb hsub hclosed =>
      represented_of_nodup ha hmin htuple hU hin hnodup hsub hclosed⟩
    have hsub := sublist_of_mem_visitedCombs hc
    have hsub' := sublist_of_mem_visitedCombs hc'
    have hseqs := withDeps_injOn (fun t ht => bringsOwn_iff.mp (hown t ht))
      (hU ▸ combSeqs_subset hsub) (hU ▸ combSeqs_subset hsub') heq
    rw [← filter_combSeqs hsub hnodup, ← filter_combSeqs hsub' hnodup, hseqs]

theorem comb_images_once_apart :
    ∃ pieces plans, combAtomicOps {1, 2} apartMech ⟨false, false⟩ (List.take 1) = some pieces ∧
      genCombForStores apartTrace.toOpTraceEntry apartAnalysis 1 {1, 2} sortedTuple apartMech
        ⟨false, false⟩ (List.take 1) = some plans ∧
      EachOnce apartTrace.toOpTraceEntry apartAnalysis pieces plans := by
  have hop : OpTraceEntry.build (.plain .startFn 0 0 0) "write" 0 4096 0
      [.plain .store 1 0 8, .plain .store 2 64 8, .plain .asmFence 3 0 0] =
        some apartTrace.toOpTraceEntry := (Option.some_get (by decide +kernel)).symm
  obtain ⟨pieces, plans, hpieces, hplans, hiff⟩ := comb_images_once_iff hop samples_take_one
    (Option.some_get _).symm called_apart listsSet_sortedTuple ⟨false, false⟩
  refine ⟨pieces, plans, hpieces, hplans, hiff.mpr ⟨fun u hu e he => ?_, fun t ht => ?_⟩⟩
  · have hall : ∀ u ∈ ({1, 2} : Finset Int),
        (entryBySeq apartMech u).all (fun e => OnePiece ⟨false, false⟩ e) = true := by
      decide +kernel
    have hone := hall u hu
    rw [he] at hone
    exact of_decide_eq_true hone
  · have hown : ∀ t ∈ ({1, 2} : Finset Int), t ∉ allPersistedSeqSet apartAnalysis 1 ∧
        ∀ u ∈ ({1, 2} : Finset Int), u ≠ t →
          t ≠ u ∧ t ∉ depsOf apartAnalysis.writeDepSeqMap u := by decide +kernel
    exact ⟨t, Or.inl rfl, hown t ht⟩

theorem called_overwrite :
    Called overwriteTrace.toOpTraceEntry overwriteAnalysis overwriteMech 1 {1, 2} :=
  called_of_filed false (overwriteMech.getPersistSeq false true).mechSeqSet (by decide +kernel)
    (by decide +kernel)

/-- The plans of the second store and of both stores write both. -/
theorem comb_image_made_twice :
    analysisInCacheRun analysisFlags (List.take 1) overwriteTrace.toOpTraceEntry =
      some overwriteAnalysis ∧
    Called overwriteTrace.toOpTraceEntry overwriteAnalysis overwriteMech 1 {1, 2} ∧
    ∃ pieces plans, combAtomicOps {1, 2} overwriteMech ⟨false, false⟩ (List.take 1) =
        some pieces ∧
      genCombForStores overwriteTrace.toOpTraceEntry overwriteAnalysis 1 {1, 2} sortedTuple
        overwriteMech ⟨false, false⟩ (List.take 1) = some plans ∧
      ¬ ((plans.filter isSelfPlan).map fun cp =>
        (writtenSeqs overwriteTrace.toOpTraceEntry cp).toFinset).Nodup := by
  have hr : analysisInCacheRun analysisFlags (List.take 1) overwriteTrace.toOpTraceEntry =
      some overwriteAnalysis := (Option.some_get _).symm
  have hwf := overwriteTrace.wf
  have hmin : ∀ x ∈ overwriteTrace.pmSortedStoreSeq, overwriteTrace.minSeq ≤ x := by
    decide +kernel
  obtain ⟨ops, ha⟩ := exists_analysed hwf analysisFlags_asOne hr
  have hU := @Called.combSeqs_pieces _ _ _ _ _ _ ⟨false, false⟩ _ called_overwrite ha
    samples_take_one
  refine ⟨hr, called_overwrite, _, _, called_overwrite.combAtomicOps_eq hwf hr,
    called_overwrite.genCombForStores_eq hwf hr samples_take_one sortedTuple, ?_⟩
  rw [once_iff ha hmin hU (called_overwrite.subset_inflight ha)]
  intro honce
  have hfirst : (1 : Int) ∈ ({1, 2} : Finset Int) := by decide
  refine bringsOwn_iff.mp (bringsOwn_of_once listsSet_sortedTuple hU honce hfirst) ?_
  decide +kernel

end SchemeMechComb

end CrashPlan
end Silhouette
