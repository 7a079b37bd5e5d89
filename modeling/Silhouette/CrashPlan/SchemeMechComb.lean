import Silhouette.CrashPlan.SchemeMech2CP
import Silhouette.Image.CrashImage
import Silhouette.Lib.ClosedSets
import Silhouette.Lib.OnePass
import Mathlib.Data.Finset.Sort

/-!
# The combinations of the MechComb scheme

`CrashPlanSchemeMechComb` gives the stores of a mechanism the plans of the Mech2CP scheme.  The
other stores are collected by cluster, and `_gen_comb_for_stores` emits, for every combination of
the atomic stores of a cluster, a plan that persists the combination and one that persists
everything else in flight.  To either set the recorded dependencies are added in one pass.
-/

namespace Silhouette
namespace CrashPlan

open Lib Lib.Persist Cache Trace OpTrace Mech Image
open scoped List

namespace SchemeMechComb

/-- `get_entry_by_seq`, the first entry. -/
def entryBySeq (d : DeduceMech) (seq : Int) : Option TraceEntry :=
  (d.pmstoreReason.find? fun e => e.op.seq = seq).map MechPMStoreEntry.op

section

variable (r : Analysis) (clusterNumber : Nat)

def allInflightSeqSet : Finset Int := (listAt r.inFlightClusterSeqMap clusterNumber).toFinset

/-- The stores of the earlier clusters that are not in flight any more. -/
def allPersistedSeqSet : Finset Int :=
  ((List.range clusterNumber).flatMap (listAt r.inFlightClusterSeqMap)).toFinset \
    allInflightSeqSet r clusterNumber

/-- Add the writes that must happen before, and the stores that are not in flight. -/
def tobePersistSeqSet (seqSet : Finset Int) : Finset Int :=
  withDeps (depsOf r.writeDepSeqMap) (allPersistedSeqSet r clusterNumber) seqSet

end

def combSeqs (comb : List StoreArgs) : Finset Int := (comb.map StoreArgs.seq).toFinset

section

variable (op : OpTraceEntry) (r : Analysis) (clusterNumber : Nat) (tobeCombSeqSet : Finset Int)

def combPlan (type : CrashPlanType) (seqSet : Finset Int) : CrashPlanEntry where
  type := type
  instructionId := -1
  startSeq := op.minSeq
  persistSeqs := seqSet
  expDataSeqs := ∅
  info := toString (seqSet.sort (· ≤ ·))

/-- The plan that persists a combination. -/
def selfPlan (comb : List StoreArgs) : CrashPlanEntry :=
  combPlan op
    (if allInflightSeqSet r clusterNumber \ tobeCombSeqSet = ∅ then .combPersist
      else .combPersistSelf)
    (tobePersistSeqSet r clusterNumber (combSeqs comb))

/-- The plan that persists the other stores in flight. -/
def otherPlan (comb : List StoreArgs) : CrashPlanEntry :=
  combPlan op .combPersistOther
    (tobePersistSeqSet r clusterNumber (allInflightSeqSet r clusterNumber \ combSeqs comb))

def plansOfComb (comb : List StoreArgs) : List CrashPlanEntry :=
  if allInflightSeqSet r clusterNumber \ tobeCombSeqSet = ∅ then
    [selfPlan op r clusterNumber tobeCombSeqSet comb]
  else [selfPlan op r clusterNumber tobeCombSeqSet comb, otherPlan op r clusterNumber comb]

variable (tupleOf : List StoreArgs → Finset Int → List Int)

/-- What a combination is remembered by.  `tupleOf` lists the set that was built for it; the order
depends on how it was built. -/
def visitedKey (comb : List StoreArgs) : List Int × List Int :=
  (tupleOf comb (tobePersistSeqSet r clusterNumber (combSeqs comb)), comb.map StoreArgs.addr)

/-- The combinations of all lengths. -/
def combList (atomicOps : List StoreArgs) : List (List StoreArgs) :=
  (List.range (atomicOps.length + 1)).flatMap (combinations atomicOps)

/-- The combinations that are not skipped as visited. -/
def visitedCombs (atomicOps : List StoreArgs) : List (List StoreArgs) :=
  firstsBy (visitedKey r clusterNumber tupleOf) [] (combList atomicOps)

variable (d : DeduceMech) (flags : PlanFlags) (sample : List RawOp → List RawOp)

/-- The atomic stores to combine.  The order in which the set is listed is lost in the sort. -/
def combAtomicOps : Option (List StoreArgs) := do
  let entryList ← (tobeCombSeqSet.sort (· ≤ ·)).mapM (entryBySeq d)
  let ops ← convertEntryList ⟨false, flags.nonatomicAsOne, flags.samplingNonatomicWrite⟩ sample
    entryList
  return sortBy StoreArgs.seq (stores ops)

def genCombForStores : Option (List CrashPlanEntry) :=
  if (r.inFlightClusterSeqMap.get? clusterNumber).isNone then some []
  else (combAtomicOps tobeCombSeqSet d flags sample).map fun atomicOps =>
    if atomicOps = [] then []
    else (visitedCombs r clusterNumber tupleOf atomicOps).flatMap
      (plansOfComb op r clusterNumber tobeCombSeqSet)

end

/-! ## Collecting the stores -/

/-- File a store under each of its clusters. -/
def addClusters (seq : Int) (clusters : List Nat) (m : Dict Nat (Finset Int)) :
    Dict Nat (Finset Int) :=
  clusters.foldl (fun m c => m.set c (insert seq ((m.get? c).getD ∅))) m

/-- `cluster_number_to_unprotected_seqs`: a store of no cluster is an error. -/
def unprotectedSeqs (r : Analysis) (ignoreNonatomicWrite : Bool) (mechSeqSet : Finset Int)
    (stores : List MechPMStoreEntry) : Option (Dict Nat (Finset Int)) :=
  stores.foldlM (fun m e =>
    if e.op.seq ∈ mechSeqSet then some m
    else if ignoreNonatomicWrite && (e.op.type.isMemset || e.op.type.isMemTransStore) then some m
    else (r.inFlightSeqClusterMap.get? e.op.seq).map fun clusters =>
      addClusters e.op.seq clusters m) Dict.empty

/-- `generate_crash_plans`: the plans of the mechanisms, then the combinations of every cluster. -/
def generateCrashPlans (op : OpTraceEntry) (r : Analysis)
    (tupleOf : List StoreArgs → Finset Int → List Int) (ignoreNonatomicWrite : Bool)
    (flags : PlanFlags) (sample : List RawOp → List RawOp) (pick : List Int → Int)
    (d : DeduceMech) : Option (List CrashPlanEntry) := do
  let p := d.getPersistSeq false true
  let mechPlans ← d.pmstoreReason.mapM fun e => do
    let selfPlans ← SchemeMech2CP.plansIn op r flags pick p.persistSelfSeqSet true false
      .mechPersistSelf e.op
    let otherPlans ← SchemeMech2CP.plansIn op r flags pick p.persistOtherSeqSet false true
      .mechPersistOther e.op
    return selfPlans ++ otherPlans
  let clusters ← unprotectedSeqs r ignoreNonatomicWrite p.mechSeqSet d.pmstoreReason
  let combPlans ← clusters.items.mapM fun x =>
    genCombForStores op r x.1 x.2 tupleOf d flags sample
  return mechPlans.flatten ++ combPlans.flatten

/-- What `generate_crash_plans` promises of a call: some stores of the operation, all in flight in
the cluster. -/
structure Called (op : OpTraceEntry) (r : Analysis) (d : DeduceMech) (clusterNumber : Nat)
    (tobeCombSeqSet : Finset Int) : Prop where
  nonempty : tobeCombSeqSet.Nonempty
  cluster : ∀ u ∈ tobeCombSeqSet, clusterNumber ∈ listAt r.inFlightSeqClusterMap u
  entry : ∀ u ∈ tobeCombSeqSet, ∃ e, entryBySeq d u = some e ∧ op.IsPmStore e ∧ e.seq = u

/-! ## The atomic stores -/

/-- The flags of the conversion. -/
def convFlags (flags : PlanFlags) : ConvFlags :=
  ⟨false, flags.nonatomicAsOne, flags.samplingNonatomicWrite⟩

/-- The atomic stores of an entry. -/
def piecesOf (flags : PlanFlags) (sample : List RawOp → List RawOp) (e : TraceEntry) :
    List StoreArgs :=
  stores (opsUnder (convFlags flags) sample e)

/-- The entry is combined as a whole: a compare-and-swap, a memory copy or set of which one word
is taken, or a store inside one word. -/
def OnePiece (flags : PlanFlags) (e : TraceEntry) : Prop :=
  e.type.isCASTy = true ∨
    NonAtomic e ∧ (flags.nonatomicAsOne = true ∨ flags.samplingNonatomicWrite = true) ∨
    e.addr + e.size ≤ alignToFloor e.addr atomicWriteBytes + atomicWriteBytes

instance (flags : PlanFlags) (e : TraceEntry) : Decidable (OnePiece flags e) :=
  inferInstanceAs (Decidable (_ ∨ _ ∧ _ ∨ _))

theorem stores_flatMap {α σ φ ψ : Type} (f : α → List (Event σ φ ψ)) (l : List α) :
    stores (l.flatMap f) = l.flatMap fun a => stores (f a) := by
  induction l with
  | nil => rfl
  | cons a l ih => rw [List.flatMap_cons, List.flatMap_cons, stores_append, ih]

theorem stores_map_store {σ φ ψ : Type} (l : List σ) :
    stores (l.map fun w => (.store w : Event σ φ ψ)) = l := by
  induction l with
  | nil => rfl
  | cons w l ih => rw [List.map_cons, stores, ih]

section

variable {flags : PlanFlags} {sample : List RawOp → List RawOp} {e : TraceEntry}

/-- A drawn word is the only one. -/
theorem exists_sampled (hsample : Samples sample)
    (h : atomicSamplingNumber < (storePieces e).length) :
    ∃ w ∈ storePieces e, stores (sample ((storePieces e).map .store)) = [w] := by
  obtain ⟨hlen, hsub⟩ := hsample ((storePieces e).map .store) (by rwa [List.length_map])
  obtain ⟨o, ho⟩ := List.length_eq_one_iff.mp hlen
  have hmem : o ∈ (storePieces e).map Event.store := hsub (ho ▸ List.mem_singleton_self o)
  obtain ⟨w, hw, rfl⟩ := List.mem_map.mp hmem
  exact ⟨w, hw, by rw [ho]; rfl⟩

/-- What the conversion keeps of a memory copy or set. -/
theorem piecesOf_of_nonAtomic (hsample : Samples sample) (hna : NonAtomic e) :
    piecesOf flags sample e = (storePieces e).head?.toList ∧ flags.nonatomicAsOne = true ∨
    (∃ w ∈ storePieces e, piecesOf flags sample e = [w]) ∧
      flags.samplingNonatomicWrite = true ∨
    piecesOf flags sample e = storePieces e ∧ (flags.nonatomicAsOne = false ∧
      (flags.samplingNonatomicWrite = true → (storePieces e).length ≤ 1)) := by
  rw [piecesOf, opsUnder, if_pos hna, if_neg (by simp [convFlags])]
  by_cases hone : flags.nonatomicAsOne = true
  · refine Or.inl ⟨?_, hone⟩
    rw [if_pos (by exact hone), stores_map_store]
  · rw [if_neg (by exact hone)]
    refine Or.inr ?_
    by_cases hs : (flags.samplingNonatomicWrite &&
        decide ((storePieces e).length > atomicSamplingNumber)) = true
    · rw [if_pos (by exact hs)]
      obtain ⟨hflag, hlen⟩ := Bool.and_eq_true_iff.mp hs
      exact Or.inl ⟨exists_sampled hsample (of_decide_eq_true hlen), hflag⟩
    · rw [if_neg (by exact hs), stores_map_store]
      refine Or.inr ⟨rfl, Bool.eq_false_iff.mpr hone, fun hflag => ?_⟩
      rw [hflag, Bool.true_and, decide_eq_true_eq, not_lt] at hs
      exact hs

theorem piecesOf_of_atomic (hst : e.type.isStoreSeries = true) (hna : ¬ NonAtomic e) :
    piecesOf flags sample e =
      if e.type.isCASTy then [⟨e.seq, e.addr, e.size⟩] else storePieces e := by
  obtain ⟨hflush, hfence, hload⟩ := TraceType.isStoreSeries_cases hst
  have hna' : ¬ (e.type.isMemTransStore || e.type.isMemset) = true := hna
  rw [piecesOf, opsUnder_of_atomic hna, atomicOpsOf, trackedWords]
  simp only [hfence, hflush, hload, Bool.false_eq_true, if_false, if_neg hna', stores_map_store]

theorem seq_of_mem_piecesOf (hsample : Samples sample) (hst : e.type.isStoreSeries = true)
    {w : StoreArgs} (h : w ∈ piecesOf flags sample e) : w.seq = e.seq := by
  by_cases hna : NonAtomic e
  · rcases @piecesOf_of_nonAtomic flags sample e hsample hna with
      ⟨heq, -⟩ | ⟨⟨v, hv, heq⟩, -⟩ | ⟨heq, -⟩
    · rw [heq] at h
      exact seq_of_mem_storePieces (List.mem_of_mem_head? (Option.mem_toList.mp h))
    · rw [heq, List.mem_singleton] at h
      exact h ▸ seq_of_mem_storePieces hv
    · rw [heq] at h
      exact seq_of_mem_storePieces h
  · rw [piecesOf_of_atomic hst hna] at h
    split_ifs at h
    · rw [List.mem_singleton.mp h]
    · exact seq_of_mem_storePieces h

/-- Whatever the analysis tracks has a piece. -/
theorem piecesOf_ne_nil (hsample : Samples sample) (hst : e.type.isStoreSeries = true)
    (htracked : trackedWords e ≠ []) : piecesOf flags sample e ≠ [] := by
  by_cases hna : NonAtomic e
  · have hpieces : storePieces e ≠ [] := by
      rintro hnil
      rw [trackedWords, if_pos (by exact hna), hnil] at htracked
      exact htracked rfl
    rcases @piecesOf_of_nonAtomic flags sample e hsample hna with
      ⟨heq, -⟩ | ⟨⟨v, hv, heq⟩, -⟩ | ⟨heq, -⟩
    · obtain ⟨w, rest, hw⟩ := List.exists_cons_of_ne_nil hpieces
      rw [heq, hw]
      exact List.cons_ne_nil _ _
    · rw [heq]
      exact List.cons_ne_nil _ _
    · rwa [heq]
  · rw [trackedWords, if_neg (by exact hna)] at htracked
    rwa [piecesOf_of_atomic hst hna]

theorem length_storePieces_le_one_iff : (storePieces e).length ≤ 1 ↔
    e.addr + e.size ≤ alignToFloor e.addr atomicWriteBytes + atomicWriteBytes := by
  rw [storePieces, List.length_map, pyRange, List.length_map, List.length_range]
  simp only [alignToFloor, atomicWriteBytes]
  omega

theorem length_piecesOf_le_one (hsample : Samples sample) (hst : e.type.isStoreSeries = true)
    (h : OnePiece flags e) : (piecesOf flags sample e).length ≤ 1 := by
  by_cases hna : NonAtomic e
  · rcases @piecesOf_of_nonAtomic flags sample e hsample hna with
      ⟨heq, -⟩ | ⟨⟨v, hv, heq⟩, -⟩ | ⟨heq, hflags, hlen⟩
    · rw [heq]
      cases (storePieces e).head? <;> simp
    · rw [heq, List.length_singleton]
    · rw [heq]
      rcases h with hcas | ⟨-, hone | hsampling⟩ | hword
      · rw [(type_of_nonatomic hna).2.2.2] at hcas
        exact absurd hcas Bool.false_ne_true
      · rw [hflags] at hone
        exact absurd hone Bool.false_ne_true
      · exact hlen hsampling
      · exact length_storePieces_le_one_iff.mpr hword
  · rw [piecesOf_of_atomic hst hna]
    rcases h with hcas | ⟨habs, -⟩ | hword
    · rw [if_pos hcas, List.length_singleton]
    · exact absurd habs hna
    · split_ifs
      · rw [List.length_singleton]
      · exact length_storePieces_le_one_iff.mpr hword

/-- The pieces of a store differ in their addresses. -/
theorem exists_two_pieces (hsample : Samples sample) (hst : e.type.isStoreSeries = true)
    (h : ¬ OnePiece flags e) :
    ∃ p ∈ piecesOf flags sample e, ∃ q ∈ piecesOf flags sample e, p.addr ≠ q.addr := by
  rw [OnePiece, not_or, not_or] at h
  obtain ⟨hcas, hflags, hword⟩ := h
  have heq : piecesOf flags sample e = storePieces e := by
    by_cases hna : NonAtomic e
    · rcases @piecesOf_of_nonAtomic flags sample e hsample hna with
        ⟨-, hone⟩ | ⟨-, hsampling⟩ | ⟨heq, -⟩
      · exact absurd ⟨hna, Or.inl hone⟩ hflags
      · exact absurd ⟨hna, Or.inr hsampling⟩ hflags
      · exact heq
    · rw [piecesOf_of_atomic hst hna, if_neg hcas]
  simp only [alignToFloor, atomicWriteBytes, not_le] at hword
  rw [heq]
  refine ⟨_, mem_storePieces.mpr ⟨e.addr / 8 * 8, by omega, by omega, by omega, rfl⟩,
    _, mem_storePieces.mpr ⟨e.addr / 8 * 8 + 8, by omega, by omega, by omega, rfl⟩, ?_⟩
  simp only
  omega

end

/-! ## A call -/

section

variable {op : OpTraceEntry} {r : Analysis} {ops : List AtomicOp} {d : DeduceMech} {k : Nat}
  {U : Finset Int} {flags : PlanFlags} {sample : List RawOp → List RawOp}

/-- The entry of a sequence number; for one without entry the value does not matter. -/
def entryOf (op : OpTraceEntry) (d : DeduceMech) (seq : Int) : TraceEntry :=
  (entryBySeq d seq).getD op.startFnEntry

/-- The pieces in the order of the sequence numbers. -/
def sortedPieces (op : OpTraceEntry) (d : DeduceMech) (U : Finset Int) (flags : PlanFlags)
    (sample : List RawOp → List RawOp) : List StoreArgs :=
  (U.sort (· ≤ ·)).flatMap fun u => piecesOf flags sample (entryOf op d u)

theorem Called.entryOf_spec (h : Called op r d k U) {u : Int} (hu : u ∈ U) :
    entryBySeq d u = some (entryOf op d u) ∧ op.IsPmStore (entryOf op d u) ∧
      (entryOf op d u).seq = u := by
  obtain ⟨e, he, hst, hseq⟩ := h.entry u hu
  rw [entryOf, he, Option.getD_some]
  exact ⟨rfl, hst, hseq⟩

/-- The stores of a call are in flight. -/
theorem Called.subset_inflight (h : Called op r d k U) (ha : Analysed op r ops) :
    U ⊆ allInflightSeqSet r k := by
  intro u hu
  rw [allInflightSeqSet, List.mem_toFinset, ha.describes.clusterSeq]
  exact Or.inl ((ha.describes.seqCluster u k).mp (h.cluster u hu))

theorem Called.trackedWords_ne_nil (h : Called op r d k U) (ha : Analysed op r ops) {u : Int}
    (hu : u ∈ U) : trackedWords (entryOf op d u) ≠ [] := by
  obtain ⟨-, hst, hseq⟩ := h.entryOf_spec hu
  obtain ⟨-, s, p, hp, hsu⟩ := (ha.describes.seqCluster u k).mp (h.cluster u hu)
  obtain ⟨e, he, hw⟩ := ha.store_of_mem (store_mem_of_mem_inFlight hp)
  have heq : e = entryOf op d u := by
    refine he.eq_of_seq_eq hst ?_
    rw [hseq, ← hsu, ← seq_of_mem_trackedWords hw]
    rfl
  exact List.ne_nil_of_mem (heq ▸ hw)

theorem Called.combAtomicOps_eq (h : Called op r d k U) (hwf : op.WellFormed)
    (hr : analysisInCacheRun analysisFlags sample op = some r) :
    combAtomicOps U d flags sample =
      some (sortBy StoreArgs.seq (sortedPieces op d U flags sample)) := by
  obtain ⟨ops, hops, -⟩ := Option.bind_eq_some_iff.mp hr
  have hentries : (U.sort (· ≤ ·)).mapM (entryBySeq d) =
      some ((U.sort (· ≤ ·)).map (entryOf op d)) :=
    mapM_eq_some fun u hu => (h.entryOf_spec ((Finset.mem_sort _).mp hu)).1
  have hconv : ∀ e ∈ (U.sort (· ≤ ·)).map (entryOf op d),
      convertOne (convFlags flags) sample e = some (opsUnder (convFlags flags) sample e) := by
    intro e he
    obtain ⟨u, hu, rfl⟩ := List.mem_map.mp he
    obtain ⟨-, hst, -⟩ := h.entryOf_spec ((Finset.mem_sort _).mp hu)
    exact convertOne_eq (convertOne_isSome hops _ (hwf.isPmStore_iff.mp hst).1)
  have hlist : convertEntryList (convFlags flags) sample ((U.sort (· ≤ ·)).map (entryOf op d)) =
      some (((U.sort (· ≤ ·)).map (entryOf op d)).flatMap (opsUnder (convFlags flags) sample)) := by
    rw [convertEntryList, mapM_eq_some hconv, Option.map_some, List.flatMap_def]
  have hstores : stores (((U.sort (· ≤ ·)).map (entryOf op d)).flatMap
      (opsUnder (convFlags flags) sample)) = sortedPieces op d U flags sample := by
    rw [stores_flatMap, List.flatMap_map]
    rfl
  rw [combAtomicOps, hentries, Option.bind_eq_bind, Option.bind_some]
  show (convertEntryList (convFlags flags) sample _).bind _ = _
  rw [hlist, Option.bind_some, hstores]
  rfl

/-- The stores of a call are those of its pieces. -/
theorem Called.combSeqs_pieces (h : Called op r d k U) (ha : Analysed op r ops)
    (hsample : Samples sample) :
    combSeqs (sortBy StoreArgs.seq (sortedPieces op d U flags sample)) = U := by
  ext u
  rw [combSeqs, List.mem_toFinset, List.mem_map]
  constructor
  · rintro ⟨w, hw, rfl⟩
    obtain ⟨v, hv, hw⟩ := List.mem_flatMap.mp (mem_sortBy.mp hw)
    obtain ⟨-, hst, hseq⟩ := h.entryOf_spec ((Finset.mem_sort _).mp hv)
    rw [seq_of_mem_piecesOf hsample hst.1 hw, hseq]
    exact (Finset.mem_sort _).mp hv
  · intro hu
    obtain ⟨-, hst, hseq⟩ := h.entryOf_spec hu
    obtain ⟨w, hw⟩ := List.exists_mem_of_ne_nil _
      (@piecesOf_ne_nil flags sample _ hsample hst.1 (h.trackedWords_ne_nil ha hu))
    refine ⟨w, mem_sortBy.mpr (List.mem_flatMap.mpr ⟨u, (Finset.mem_sort _).mpr hu, hw⟩), ?_⟩
    rw [seq_of_mem_piecesOf hsample hst.1 hw, hseq]

end

/-! ## The combinations -/

section

variable {ops comb comb' : List StoreArgs}

theorem mem_combList : comb ∈ combList ops ↔ comb <+ ops := by
  rw [combList, List.mem_flatMap]
  constructor
  · rintro ⟨n, -, hcomb⟩
    exact (sublist_of_mem_combinations hcomb).1
  · intro h
    exact ⟨comb.length, List.mem_range.mpr (Nat.lt_succ_of_le h.length_le),
      mem_combinations_of_sublist h⟩

theorem combSeqs_subset (h : comb <+ ops) : combSeqs comb ⊆ combSeqs ops := by
  intro x hx
  rw [combSeqs, List.mem_toFinset] at hx ⊢
  exact (h.map StoreArgs.seq).subset hx

/-- The pieces of some of the stores. -/
theorem combSeqs_filter {S : Finset Int} (hS : S ⊆ combSeqs ops) :
    combSeqs (ops.filter fun w => w.seq ∈ S) = S := by
  ext x
  rw [combSeqs, List.mem_toFinset, List.mem_map]
  constructor
  · rintro ⟨w, hw, rfl⟩
    exact of_decide_eq_true (List.mem_filter.mp hw).2
  · intro hx
    obtain ⟨w, hw, rfl⟩ := List.mem_map.mp (List.mem_toFinset.mp (hS hx))
    exact ⟨w, List.mem_filter.mpr ⟨hw, decide_eq_true hx⟩, rfl⟩

variable {r : Analysis} {k : Nat} {tupleOf : List StoreArgs → Finset Int → List Int}

/-- A tuple of a set has its elements. -/
def ListsSet (tupleOf : List StoreArgs → Finset Int → List Int) : Prop :=
  ∀ comb s, (tupleOf comb s).toFinset = s

theorem sublist_of_mem_visitedCombs (h : comb ∈ visitedCombs r k tupleOf ops) : comb <+ ops :=
  mem_combList.mp (mem_of_mem_firstsBy h).1

/-- A skipped combination persists what a visited one of its length does. -/
theorem exists_visited (htuple : ListsSet tupleOf) (h : comb <+ ops) :
    ∃ comb' ∈ visitedCombs r k tupleOf ops,
      comb'.map StoreArgs.addr = comb.map StoreArgs.addr ∧
      tobePersistSeqSet r k (combSeqs comb') = tobePersistSeqSet r k (combSeqs comb) := by
  have hseen : visitedKey r k tupleOf comb ∉ [] := List.not_mem_nil
  obtain ⟨comb', hmem, hkey⟩ := exists_mem_firstsBy (mem_combList.mpr h) hseen
  obtain ⟨hset, haddr⟩ := Prod.mk.inj hkey
  refine ⟨comb', hmem, haddr, ?_⟩
  rw [← htuple comb' (tobePersistSeqSet r k (combSeqs comb')), hset, htuple]

/-- The combination of all atomic stores is not skipped. -/
theorem all_mem_visitedCombs (htuple : ListsSet tupleOf) :
    ops ∈ visitedCombs r k tupleOf ops := by
  obtain ⟨comb, hmem, haddr, -⟩ := exists_visited (r := r) (k := k) htuple (List.Sublist.refl ops)
  have hlen : comb.length = ops.length := by
    have := congrArg List.length haddr
    rwa [List.length_map, List.length_map] at this
  rwa [(sublist_of_mem_visitedCombs hmem).eq_of_length hlen] at hmem

end

section

variable {op : OpTraceEntry} {r : Analysis} {k : Nat} {U : Finset Int} {cp : CrashPlanEntry}
  {comb : List StoreArgs}

theorem mem_plansOfComb :
    cp ∈ plansOfComb op r k U comb ↔ cp = selfPlan op r k U comb ∨
      allInflightSeqSet r k \ U ≠ ∅ ∧ cp = otherPlan op r k comb := by
  rw [plansOfComb]
  split_ifs with h
  · simp [h]
  · simp [h]

end

section

variable {op : OpTraceEntry} {r : Analysis} {d : DeduceMech} {k : Nat} {U : Finset Int}

/-- The plans of a call are those of the combinations that are not skipped. -/
theorem Called.genCombForStores_eq (h : Called op r d k U) (hwf : op.WellFormed)
    {flags : PlanFlags} {sample : List RawOp → List RawOp}
    (hr : analysisInCacheRun analysisFlags sample op = some r) (hsample : Samples sample)
    (tupleOf : List StoreArgs → Finset Int → List Int) :
    genCombForStores op r k U tupleOf d flags sample =
      some ((visitedCombs r k tupleOf
        (sortBy StoreArgs.seq (sortedPieces op d U flags sample))).flatMap
          (plansOfComb op r k U)) := by
  obtain ⟨ops, ha⟩ := exists_analysed hwf analysisFlags_asOne hr
  obtain ⟨u, hu⟩ := h.nonempty
  have hcluster : (r.inFlightClusterSeqMap.get? k).isNone = false := by
    have hin := h.subset_inflight ha hu
    rw [allInflightSeqSet, List.mem_toFinset, listAt] at hin
    cases hget : r.inFlightClusterSeqMap.get? k with
    | none =>
      rw [hget] at hin
      exact absurd hin List.not_mem_nil
    | some l => rfl
  have hne : sortBy StoreArgs.seq (sortedPieces op d U flags sample) ≠ [] := by
    intro hnil
    have hU := @Called.combSeqs_pieces _ _ _ _ _ _ flags _ h ha hsample
    rw [hnil] at hU
    rw [← hU] at hu
    exact absurd hu (Finset.notMem_empty u)
  rw [genCombForStores, hcluster, if_neg Bool.false_ne_true, h.combAtomicOps_eq hwf hr,
    Option.map_some, if_neg hne]

theorem get?_addClusters {seq : Int} {clusters : List Nat} {m : Dict Nat (Finset Int)} {c : Nat}
    {S : Finset Int} (h : (addClusters seq clusters m).get? c = some S) :
    m.get? c = some S ∨ c ∈ clusters ∧ S = insert seq ((m.get? c).getD ∅) := by
  induction clusters generalizing m with
  | nil => exact Or.inl h
  | cons c' rest ih =>
    rw [addClusters, List.foldl_cons] at h
    have hset : ∀ c, (m.set c' (insert seq ((m.get? c').getD ∅))).get? c =
        if c = c' then some (insert seq ((m.get? c').getD ∅)) else m.get? c :=
      fun c => Dict.get?_set m c' c _
    rcases ih h with h | ⟨hc, h⟩
    · rw [hset] at h
      split_ifs at h with hc
      · exact Or.inr ⟨hc ▸ List.mem_cons_self, by rw [hc]; exact (Option.some.inj h).symm⟩
      · exact Or.inl h
    · refine Or.inr ⟨List.mem_cons_of_mem _ hc, ?_⟩
      rw [h, hset]
      split_ifs with hc
      · rw [hc, Option.getD_some, Finset.insert_eq_of_mem (Finset.mem_insert_self _ _)]
      · rfl

/-- What is filed under a cluster: at least one store, and only stores of the cluster. -/
def FiledByCluster (r : Analysis) (d : DeduceMech) (m : Dict Nat (Finset Int)) : Prop :=
  ∀ c S, m.get? c = some S → S.Nonempty ∧ ∀ u ∈ S, c ∈ listAt r.inFlightSeqClusterMap u ∧
    ∃ e ∈ d.pmstoreReason, e.op.seq = u

theorem FiledByCluster.addClusters {m : Dict Nat (Finset Int)} (h : FiledByCluster r d m)
    {e : MechPMStoreEntry} (he : e ∈ d.pmstoreReason) {clusters : List Nat}
    (hget : r.inFlightSeqClusterMap.get? e.op.seq = some clusters) :
    FiledByCluster r d (SchemeMechComb.addClusters e.op.seq clusters m) := by
  intro c S hS
  rcases get?_addClusters hS with hS | ⟨hc, rfl⟩
  · exact h c S hS
  · refine ⟨Finset.insert_nonempty _ _, fun u hu => ?_⟩
    rcases Finset.mem_insert.mp hu with rfl | hu
    · refine ⟨?_, e, he, rfl⟩
      rw [listAt, hget]
      exact hc
    · cases hm : m.get? c with
      | none =>
        rw [hm] at hu
        exact absurd hu (Finset.notMem_empty u)
      | some S' =>
        rw [hm] at hu
        exact (h c S' hm).2 u hu

theorem filedByCluster_of_unprotectedSeqs {ignoreNonatomicWrite : Bool} {mechSeqSet : Finset Int}
    {m : Dict Nat (Finset Int)}
    (h : unprotectedSeqs r ignoreNonatomicWrite mechSeqSet d.pmstoreReason = some m) :
    FiledByCluster r d m := by
  have hempty : FiledByCluster r d Dict.empty :=
    fun c S hS => absurd hS (by simp [Dict.empty, Dict.get?])
  refine foldlM_invariant_of_mem (fun m e he m' hm hstep => ?_) hempty h
  split_ifs at hstep with hmech hignored
  · exact Option.some.inj hstep ▸ hm
  · exact Option.some.inj hstep ▸ hm
  · obtain ⟨clusters, hclusters, rfl⟩ := Option.map_eq_some_iff.mp hstep
    exact hm.addClusters he hclusters

/-- `generate_crash_plans` keeps the promise. -/
theorem called_of_unprotectedSeqs {ignoreNonatomicWrite : Bool} {mechSeqSet : Finset Int}
    (hstores : ∀ e ∈ d.pmstoreReason, op.IsPmStore e.op) {m : Dict Nat (Finset Int)}
    (h : unprotectedSeqs r ignoreNonatomicWrite mechSeqSet d.pmstoreReason = some m)
    (hk : m.get? k = some U) : Called op r d k U := by
  obtain ⟨hne, hall⟩ := filedByCluster_of_unprotectedSeqs h k U hk
  refine ⟨hne, fun u hu => (hall u hu).1, fun u hu => ?_⟩
  obtain ⟨-, e, he, hseq⟩ := hall u hu
  have hfind : (d.pmstoreReason.find? fun e => e.op.seq = u).isSome :=
    List.find?_isSome.mpr ⟨e, he, decide_eq_true hseq⟩
  obtain ⟨e', he'⟩ := Option.isSome_iff_exists.mp hfind
  refine ⟨e'.op, ?_, hstores e' (List.mem_of_find?_eq_some he'), ?_⟩
  · rw [entryBySeq, he']
    rfl
  · have hfound := List.find?_some he'
    exact of_decide_eq_true hfound

/-- The promise, read off the sets that are filed. -/
theorem called_of_filed (ignoreNonatomicWrite : Bool) (mechSeqSet : Finset Int)
    (hstores : ∀ e ∈ d.pmstoreReason, op.IsPmStore e.op)
    (h : (unprotectedSeqs r ignoreNonatomicWrite mechSeqSet d.pmstoreReason).bind
      (fun m => m.get? k) = some U) : Called op r d k U := by
  obtain ⟨m, hm, hk⟩ := Option.bind_eq_some_iff.mp h
  exact called_of_unprotectedSeqs hstores hm hk

end

end SchemeMechComb

end CrashPlan
end Silhouette
