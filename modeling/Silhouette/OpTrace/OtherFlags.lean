import Silhouette.OpTrace.Window
import Silhouette.Lib.Thinning

/-!
# Conversion under other flags

The flags of `convert_atomic_ops` are about memory copies and sets: the analysis tracks
each by its first word, other callers ignore them, take all their words or draw some.
What the analysis can convert is converted under any flags.
-/

namespace Silhouette
namespace OpTrace

open Lib Lib.Persist Cache Trace
open scoped List

/-- The flags of the analysis. -/
def analysisFlags : ConvFlags := ⟨false, true, false⟩

theorem analysisFlags_asOne : ConvFlags.asOne analysisFlags := ⟨rfl, rfl⟩

/-- Memory copies and sets are the entries the flags are about. -/
def NonAtomic (e : TraceEntry) : Prop := (e.type.isMemTransStore || e.type.isMemset) = true

instance (e : TraceEntry) : Decidable (NonAtomic e) := inferInstanceAs (Decidable (_ = _))

section

variable {flags : ConvFlags} {sample : List RawOp → List RawOp} {e : TraceEntry}

/-- The atomic operations an entry becomes under other flags. -/
def opsUnder (flags : ConvFlags) (sample : List RawOp → List RawOp) (e : TraceEntry) :
    List RawOp :=
  if NonAtomic e then
    if flags.ignoreNonatomicWrite then []
    else if flags.nonatomicAsOne then (storePieces e).head?.toList.map .store
    else if flags.samplingNonatomicWrite && (storePieces e).length > atomicSamplingNumber then
      sample ((storePieces e).map .store)
    else (storePieces e).map .store
  else atomicOpsOf e

/-- The analysis can convert a memory copy or set only if it has a word. -/
theorem storePieces_ne_nil (hna : NonAtomic e)
    (h : (convertOne analysisFlags sample e).isSome) : storePieces e ≠ [] := by
  intro hnil
  obtain ⟨h1, h2, h3, h4⟩ := type_of_nonatomic hna
  have hna' : (e.type.isMemTransStore || e.type.isMemset) = true := hna
  simp [convertOne, hna', analysisFlags, convertEntry, h1, h2, h3, h4, hnil] at h

/-- What the analysis converts, other flags convert too. -/
theorem convertOne_eq (h : (convertOne analysisFlags sample e).isSome) :
    convertOne flags sample e = some (opsUnder flags sample e) := by
  by_cases hna : NonAtomic e
  · obtain ⟨h1, h2, h3, h4⟩ := type_of_nonatomic hna
    have hne := storePieces_ne_nil hna h
    have hna' : (e.type.isMemTransStore || e.type.isMemset) = true := hna
    have hconv : convertEntry e = some ((storePieces e).map .store) := by
      rw [convertOne, if_pos hna'] at h
      simp only [analysisFlags, Bool.false_eq_true, if_false, convertEntry, h1, h2, h3, h4,
        Option.bind_eq_bind] at h ⊢
      split_ifs at h ⊢ with hassert
      · simp at h
      · rfl
    rw [convertOne, if_pos hna', opsUnder, if_pos hna, hconv]
    by_cases hi : flags.ignoreNonatomicWrite = true
    · rw [if_pos hi, if_pos hi]
    · rw [if_neg hi, if_neg hi]
      by_cases ho : flags.nonatomicAsOne = true
      · obtain ⟨w, rest, hw⟩ := List.exists_cons_of_ne_nil hne
        simp [ho, hw]
      · simp only [Option.bind_eq_bind, Option.bind_some, List.length_map]
        rw [if_neg ho, if_neg ho]
        split_ifs <;> rfl
  · have hna' : ¬ (e.type.isMemTransStore || e.type.isMemset) = true := hna
    rw [opsUnder, if_neg hna, convertOne, if_neg hna']
    obtain ⟨l, hl⟩ := Option.isSome_iff_exists.mp h
    rw [convertOne_asOne analysisFlags_asOne hl] at hl
    rwa [convertOne, if_neg hna'] at hl

end

theorem convertOne_isSome {sample : List RawOp → List RawOp} {op : OpTraceEntry}
    {flags : ConvFlags} {ops : List AtomicOp}
    (h : convertAtomicOps flags sample op = some ops) :
    ∀ e ∈ op.pmEntries, (convertOne flags sample e).isSome := by
  obtain ⟨raw, hraw, -⟩ := Option.map_eq_some_iff.mp h
  obtain ⟨blocks, hblocks, -⟩ := Option.map_eq_some_iff.mp hraw
  intro e he
  obtain ⟨x, hx, hex⟩ := List.mem_flatMap.mp he
  obtain ⟨l, hl⟩ := exists_of_mapM_eq_some hblocks x hx
  obtain ⟨r, hr, -⟩ := Option.map_eq_some_iff.mp hl
  obtain ⟨y, hy⟩ := exists_of_mapM_eq_some hr e hex
  rw [hy]
  rfl

theorem convertAtomicOps_of_forall {sample : List RawOp → List RawOp} {op : OpTraceEntry}
    {flags : ConvFlags} {g : TraceEntry → List RawOp}
    (h : ∀ e ∈ op.pmEntries, convertOne flags sample e = some (g e)) :
    convertAtomicOps flags sample op = some (allocate 0 (op.pmEntries.flatMap g)) := by
  have hlist : ∀ x ∈ op.pmSortedItems,
      convertEntryList flags sample x.2 = some (x.2.flatMap g) := by
    intro x hx
    rw [convertEntryList, mapM_eq_some (g := g)
      (fun e he => h e (List.mem_flatMap.mpr ⟨x, hx, he⟩)), Option.map_some, List.flatMap_def]
  have hall : (sortBy Prod.fst op.pmSeqEntryMap.items).mapM
      (fun x => convertEntryList flags sample x.2) =
        some (op.pmSortedItems.map fun x => x.2.flatMap g) := mapM_eq_some hlist
  rw [convertAtomicOps, convertSeqEntrylistDict, hall, Option.map_some, Option.map_some,
    ← List.flatMap_def, OpTraceEntry.pmEntries, List.flatMap_assoc]

/-! ## Fences of the blocks -/

theorem fences_eq_zero_of_stores {l : List RawOp} (h : ∀ o ∈ l, ∃ w, o = .store w) :
    fences l = 0 := by
  by_contra hne
  obtain ⟨g, hg⟩ := mem_fence_of_fences_ne_zero hne
  obtain ⟨w, hw⟩ := h _ hg
  simp at hw

theorem fences_atomicOpsOf (e : TraceEntry) :
    fences (atomicOpsOf e) = if e.type.isFenceTy = true then 1 else 0 := by
  by_cases h : e.type.isFenceTy = true
  · rw [if_pos h, atomicOpsOf, if_pos h]
    rfl
  · rw [if_neg h]
    by_contra hne
    obtain ⟨g, hg⟩ := mem_fence_of_fences_ne_zero hne
    exact h (fence_mem_atomicOpsOf.mp hg).1

theorem fences_flatMap (l : List TraceEntry) :
    fences (l.flatMap atomicOpsOf) = l.countP fun g => g.type.isFenceTy := by
  induction l with
  | nil => rfl
  | cons e rest ih =>
    rw [List.flatMap_cons, fences_append, ih, fences_atomicOpsOf, List.countP_cons, Nat.add_comm]

/-- Blocks that agree on every entry before the last fence agree before each fence. -/
theorem beforeFence_flatMap_congr {g : TraceEntry → List RawOp} {l : List TraceEntry}
    (hfence : ∀ e ∈ l, e.type.isFenceTy = true → g e = atomicOpsOf e)
    (hagree : ∀ pre e post, l = pre ++ e :: post → (∃ x ∈ post, x.type.isFenceTy = true) →
      g e = atomicOpsOf e) {c : Nat} (h1 : 1 ≤ c) (hc : c ≤ fences (l.flatMap atomicOpsOf)) :
    beforeFence c (l.flatMap g) = beforeFence c (l.flatMap atomicOpsOf) := by
  induction l generalizing c with
  | nil => rfl
  | cons e rest ih =>
    have ih := fun {c : Nat} => ih (c := c) (fun x hx => hfence x (List.mem_cons_of_mem _ hx))
      (fun pre x post hl => hagree (e :: pre) x post (by rw [hl]; rfl))
    rw [List.flatMap_cons, fences_append, fences_atomicOpsOf] at hc
    rw [List.flatMap_cons, List.flatMap_cons]
    by_cases he : e.type.isFenceTy = true
    · rw [hfence e List.mem_cons_self he, atomicOpsOf, if_pos he, List.singleton_append,
        List.singleton_append, beforeFence, beforeFence]
      rw [if_pos he] at hc
      by_cases hc1 : c ≤ 1
      · rw [if_pos hc1, if_pos hc1]
      · rw [if_neg hc1, if_neg hc1, ih (by omega) (by omega)]
    · rw [if_neg he, Nat.zero_add] at hc
      have hlast : ∃ x ∈ rest, x.type.isFenceTy = true := by
        rw [fences_flatMap] at hc
        exact List.countP_pos_iff.mp (by omega)
      have h0 : fences (atomicOpsOf e) = 0 := by rw [fences_atomicOpsOf, if_neg he]
      rw [hagree [] e rest rfl hlast, beforeFence_append_of_lt (by omega),
        beforeFence_append_of_lt (by omega), h0, Nat.sub_zero, ih h1 hc]

section

variable {flags : ConvFlags} {sample : List RawOp → List RawOp} {e : TraceEntry}

theorem opsUnder_of_atomic (h : ¬ NonAtomic e) : opsUnder flags sample e = atomicOpsOf e :=
  if_neg h

theorem atomicOpsOf_of_nonAtomic (h : NonAtomic e) :
    atomicOpsOf e = (storePieces e).head?.toList.map .store := by
  obtain ⟨h1, h2, h3, -⟩ := type_of_nonatomic h
  have h' : (e.type.isMemTransStore || e.type.isMemset) = true := h
  rw [atomicOpsOf, trackedWords, if_pos h']
  simp only [h1, h2, h3, Bool.false_eq_true, if_false]

/-- A memory copy or set becomes words of its own. -/
theorem mem_opsUnder_of_nonAtomic (hsample : ∀ l, sample l ⊆ l) (h : NonAtomic e) :
    ∀ o ∈ opsUnder flags sample e, ∃ w ∈ storePieces e, o = .store w := by
  intro o ho
  have hpiece : o ∈ (storePieces e).map .store → ∃ w ∈ storePieces e, o = .store w := by
    intro ho
    obtain ⟨w, hw, rfl⟩ := List.mem_map.mp ho
    exact ⟨w, hw, rfl⟩
  rw [opsUnder, if_pos h] at ho
  split_ifs at ho
  · exact absurd ho List.not_mem_nil
  · obtain ⟨w, hw, rfl⟩ := List.mem_map.mp ho
    exact ⟨w, List.mem_of_mem_head? (Option.mem_toList.mp hw), rfl⟩
  · exact hpiece (hsample _ ho)
  · exact hpiece ho

theorem fences_opsUnder (hsample : ∀ l, sample l ⊆ l) (e : TraceEntry) :
    fences (opsUnder flags sample e) = fences (atomicOpsOf e) := by
  by_cases h : NonAtomic e
  · have hfe : ¬ e.type.isFenceTy = true := by simp [(type_of_nonatomic h).1]
    rw [fences_atomicOpsOf, if_neg hfe]
    refine fences_eq_zero_of_stores (fun o ho => ?_)
    obtain ⟨w, -, hw⟩ := mem_opsUnder_of_nonAtomic hsample h o ho
    exact ⟨w, hw⟩
  · rw [opsUnder_of_atomic h]

theorem fences_flatMap_opsUnder (flags : ConvFlags) (hsample : ∀ l, sample l ⊆ l)
    (l : List TraceEntry) :
    fences (l.flatMap (opsUnder flags sample)) = fences (l.flatMap atomicOpsOf) := by
  induction l with
  | nil => rfl
  | cons e rest ih =>
    rw [List.flatMap_cons, List.flatMap_cons, fences_append, fences_append, ih,
      fences_opsUnder hsample]

/-- An entry of one word is its first word. -/
theorem length_storePieces_of_oneWord
    (h : e.addr + e.size ≤ alignToFloor e.addr atomicWriteBytes + atomicWriteBytes) :
    (storePieces e).length ≤ 1 := by
  rw [storePieces, List.length_map, pyRange, List.length_map, List.length_range]
  simp only [alignToFloor, atomicWriteBytes] at h ⊢
  omega

theorem opsUnder_eq_of_trackedAlike (hi : flags.ignoreNonatomicWrite = false)
    (h : flags.nonatomicAsOne = true ∨
      e.addr + e.size ≤ alignToFloor e.addr atomicWriteBytes + atomicWriteBytes) :
    opsUnder flags sample e = atomicOpsOf e := by
  by_cases hna : NonAtomic e
  · rw [opsUnder, if_pos hna, hi, atomicOpsOf_of_nonAtomic hna]
    simp only [Bool.false_eq_true, if_false]
    by_cases ho : flags.nonatomicAsOne = true
    · rw [if_pos ho]
    · have hlen := length_storePieces_of_oneWord (h.resolve_left ho)
      have hnot : ¬ (flags.samplingNonatomicWrite &&
          decide ((storePieces e).length > atomicSamplingNumber)) = true := by
        simp [atomicSamplingNumber, hlen]
      rw [if_neg ho, if_neg hnot]
      cases hp : storePieces e with
      | nil => rfl
      | cons w rest =>
        rw [hp, List.length_cons] at hlen
        have hrest : rest = [] := List.eq_nil_of_length_eq_zero (by omega)
        rw [hrest]
        rfl
  · exact opsUnder_of_atomic hna

/-- No words are drawn at random. -/
def NoSampling (flags : ConvFlags) : Prop :=
  flags.ignoreNonatomicWrite = true ∨ flags.nonatomicAsOne = true ∨
    flags.samplingNonatomicWrite = false

theorem thinned_opsUnder (sample : List RawOp → List RawOp) (e : TraceEntry)
    (hi : flags.ignoreNonatomicWrite = false) (hns : NoSampling flags) :
    Thinned (atomicOpsOf e) (opsUnder flags sample e) := by
  by_cases hna : NonAtomic e
  · rw [opsUnder, if_pos hna, hi, atomicOpsOf_of_nonAtomic hna]
    simp only [Bool.false_eq_true, if_false]
    by_cases ho : flags.nonatomicAsOne = true
    · rw [if_pos ho]
      exact Thinned.refl _
    · have hs : flags.samplingNonatomicWrite = false := by
        rcases hns with h | h | h
        · rw [hi] at h
          exact absurd h Bool.false_ne_true
        · exact absurd h ho
        · exact h
      rw [if_neg ho, hs]
      simp only [Bool.false_and, Bool.false_eq_true, if_false]
      refine Thinned.of_sublist ?_
      cases storePieces e with
      | nil => exact .slnil
      | cons w rest => exact (List.nil_sublist rest).cons_cons w
  · rw [opsUnder_of_atomic hna]
    exact Thinned.refl _

end

end OpTrace
end Silhouette
