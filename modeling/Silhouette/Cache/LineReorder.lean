import Silhouette.Cache.ReorderSimulator

/-!
# Choosing within a line and choosing lines

`ReorderCacheLine` counts the ways in which the stores of one line can reach persistent memory: a
store may be lost, but not before a later store of its slot.  `CacheLineReorderSimulator` keeps the
lines whole and chooses among them.

A line that only a flush has touched has no stores and still has its place in the dictionary.  It is
counted and never chosen.
-/

namespace Silhouette
namespace Cache

open Lib
open scoped List

/-! ## One line -/

namespace ReorderCacheLine

/-- The second position is not persisted without the first: they are of one slot, in this order. -/
def EarlierInSlot (ops : List Store) (i j : Fin ops.length) : Prop :=
  i < j ∧ slotOf (ops.get i) = slotOf (ops.get j)

instance (ops : List Store) : DecidableRel (EarlierInSlot ops) :=
  fun _ _ => inferInstanceAs (Decidable (_ ∧ _))

/-- The sets of positions that contain the earlier ones of their slots. -/
def slotClosed (ops : List Store) : Finset (Finset (Fin ops.length)) :=
  closedSets (EarlierInSlot ops) Finset.univ

/-- The positions of a slot. -/
def slotPositions (ops : List Store) (slot : Nat) : List (Fin ops.length) :=
  (List.finRange ops.length).filter fun i => slotOf (ops.get i) = slot

theorem mem_slotPositions {ops : List Store} {slot : Nat} {i : Fin ops.length} :
    i ∈ slotPositions ops slot ↔ slotOf (ops.get i) = slot := by
  rw [slotPositions, List.mem_filter, decide_eq_true_iff]
  exact ⟨fun h => h.2, fun h => ⟨List.mem_finRange i, h⟩⟩

theorem length_slotPositions (ops : List Store) (slot : Nat) :
    (slotPositions ops slot).length = ops.countP fun op => slotOf op = slot := by
  have hmap : (List.finRange ops.length).map ops.get = ops := List.map_get_finRange ops
  rw [slotPositions, ← List.countP_eq_length_filter]
  conv_rhs => rw [← hmap, List.countP_map]
  rfl

/-- A slot keeps a first segment of its stores. -/
theorem card_closedSets_slot (ops : List Store) (slot : Nat) :
    (closedSets (EarlierInSlot ops) (slotPositions ops slot).toFinset).card =
      (ops.countP fun op => slotOf op = slot) + 1 := by
  rw [← length_slotPositions]
  refine card_closedSets_chain _ ((List.nodup_finRange _).filter _) ?_
  refine ((List.pairwise_lt_finRange _).filter _).imp_of_mem fun {i j} hi hj hij => ?_
  have hslot := (mem_slotPositions.mp hi).trans (mem_slotPositions.mp hj).symm
  exact ⟨⟨hij, hslot⟩, fun h => absurd h.1 (lt_asymm hij)⟩

/-- The slots are chosen from independently. -/
theorem card_slotClosed (ops : List Store) :
    (slotClosed ops).card =
      ∏ slot ∈ Finset.range 8, ((ops.countP fun op => slotOf op = (slot : Int)) + 1) := by
  have hslots : (Finset.univ : Finset (Fin ops.length)) =
      (Finset.range 8).biUnion fun slot => (slotPositions ops slot).toFinset := by
    ext i
    simp only [Finset.mem_univ, Finset.mem_biUnion, Finset.mem_range, List.mem_toFinset,
      mem_slotPositions, true_iff]
    have := slotOf_lt (ops.get i)
    exact ⟨(slotOf (ops.get i)).toNat, by omega, by omega⟩
  rw [slotClosed, hslots, card_closedSets_biUnion]
  · exact Finset.prod_congr rfl fun slot _ => card_closedSets_slot ops slot
  · intro k _ l _ hkl i hi j hj
    rw [List.mem_toFinset, mem_slotPositions] at hi hj
    refine ⟨fun hij => hkl ?_, fun h => hkl ?_⟩
    · rw [hij, hj] at hi
      omega
    · have := hi.symm.trans (h.2.trans hj)
      omega

/-- The number of a line is that of the choices its slots leave. -/
theorem combinatorial_num_exact (ops : List Store) (allowNone considerOw : Bool) :
    getCombinatorialNum ops allowNone considerOw =
        some ((if considerOw then ((slotClosed ops).card : Int) else 2 ^ ops.length) -
          if allowNone then 0 else 1) ∧
      (slotClosed ops).card =
        ∏ slot ∈ Finset.range 8, ((ops.countP fun op => slotOf op = (slot : Int)) + 1) := by
  have hcard : (slotClosed ops).card = slotChoices ops := by
    rw [card_slotClosed, slotChoices, atomicSlots, List.map_map,
      ← List.prod_toFinset _ List.nodup_range]
    rfl
  refine ⟨?_, card_slotClosed ops⟩
  cases considerOw with
  | true =>
    rw [getCombinatorialNum_overwrites, if_pos rfl, hcard]
    cases allowNone with
    | true => simp
    | false => rfl
  | false =>
    cases allowNone with
    | true => simp [getCombinatorialNum]
    | false => simp [getCombinatorialNum]

end ReorderCacheLine

/-! ## Lines as a whole -/

namespace CacheLineReorderSimulator

def getReorderNums (m : Sim) : Nat := 2 ^ m.cache.cachelineDict.items.length - 1

/-- Each plan lists the sequence numbers to be persisted. -/
def getReorderCrashPlanList (m : Sim) : List (List Int) :=
  let cachelineSeqList :=
    (m.getCachelines.filter fun cl => cl.storesList.length > 0).map fun cl =>
      cl.storesList.map Store.seq
  (List.range' 1 cachelineSeqList.length).flatMap fun i =>
    (combinations cachelineSeqList i).map List.flatten

/-- The sequence numbers of a line. -/
def lineSeqs (m : Sim) (a : Int) : List Int := (m.line a).map Store.seq

/-- The lines that hold stores. -/
def filledLines (m : Sim) : List Int := m.cache.cachelineDict.keys.filter fun a => m.line a ≠ []

/-- The plans are different sets, they are the unions of lines that are not empty, all of them, and
as many as was said. -/
structure PlansExact (m : Sim) : Prop where
  differ : ((getReorderCrashPlanList m).map List.toFinset).Nodup
  whole : ∀ p ∈ getReorderCrashPlanList m, p ≠ [] ∧
    ∃ lines, lines <+ m.cache.cachelineDict.keys ∧ p = lines.flatMap (lineSeqs m)
  all : ∀ lines, lines <+ m.cache.cachelineDict.keys → lines.flatMap (lineSeqs m) ≠ [] →
    lines.flatMap (lineSeqs m) ∈ getReorderCrashPlanList m
  count : (getReorderCrashPlanList m).length = getReorderNums m

/-- No line is empty, and each has a store whose number is in no other. -/
structure LinesApart (m : Sim) : Prop where
  filled : ∀ a ∈ m.cache.cachelineDict.keys, m.line a ≠ []
  own : ∀ a, m.line a ≠ [] → ∃ s ∈ m.line a, ∀ b, b ≠ a → s.seq ∉ lineSeqs m b

section

variable {m : Sim}

theorem nodup_filledLines (m : Sim) : (filledLines m).Nodup :=
  m.cache.cachelineDict.nodup_keys.filter _

theorem mem_filledLines {a : Int} : a ∈ filledLines m ↔ m.line a ≠ [] := by
  rw [filledLines, List.mem_filter, decide_eq_true_iff]
  refine ⟨fun h => h.2, fun h => ⟨?_, h⟩⟩
  obtain ⟨s, hs⟩ := List.exists_mem_of_ne_nil _ h
  exact Sim.mem_keys_of_mem_line hs

/-- The plans are made of the choices among the lines with stores. -/
theorem getReorderCrashPlanList_eq (m : Sim) :
    getReorderCrashPlanList m = (choices (filledLines m)).map fun c => c.flatMap (lineSeqs m) := by
  have hlists : (m.getCachelines.filter fun cl => cl.storesList.length > 0).map
      (fun cl => cl.storesList.map Store.seq) = (filledLines m).map (lineSeqs m) := by
    have hitem : ∀ x ∈ m.cache.cachelineDict.items, x.2.storesList = m.line x.1 := fun x hx =>
      (Sim.line_of_get? (Dict.get?_eq_some.mpr hx)).symm
    rw [Sim.getCachelines, Dict.values, filledLines, Dict.keys, List.filter_map, List.filter_map,
      List.map_map, List.map_map]
    have hfilter : m.cache.cachelineDict.items.filter
        ((fun cl => decide (cl.storesList.length > 0)) ∘ Prod.snd) =
        m.cache.cachelineDict.items.filter ((fun a => decide (m.line a ≠ [])) ∘ Prod.fst) := by
      refine List.filter_congr fun x hx => ?_
      simp only [Function.comp, hitem x hx, gt_iff_lt, List.length_pos_iff]
    rw [hfilter]
    refine List.map_congr_left fun x hx => ?_
    simp only [Function.comp, lineSeqs, hitem x (List.mem_filter.mp hx).1]
  rw [getReorderCrashPlanList, hlists, choices, List.map_flatMap, List.length_map]
  refine List.flatMap_congr fun i _ => ?_
  rw [combinations_map, List.map_map]
  rfl

theorem flatMap_filter (lines : List Int) :
    (lines.filter fun a => m.line a ≠ []).flatMap (lineSeqs m) = lines.flatMap (lineSeqs m) := by
  induction lines with
  | nil => rfl
  | cons a rest ih =>
    rw [List.flatMap_cons, List.filter_cons]
    split_ifs with h
    · rw [List.flatMap_cons, ih]
    · have hnil : m.line a = [] := by simpa using h
      rw [ih, lineSeqs, hnil]
      rfl

theorem flatMap_ne_nil {c : List Int} (hc : c ∈ choices (filledLines m)) :
    c.flatMap (lineSeqs m) ≠ [] := by
  obtain ⟨hsub, hne⟩ := mem_choices.mp hc
  obtain ⟨a, ha⟩ := List.exists_mem_of_ne_nil _ hne
  obtain ⟨s, hs⟩ := List.exists_mem_of_ne_nil _ (mem_filledLines.mp (hsub.subset ha))
  exact List.ne_nil_of_mem (List.mem_flatMap.mpr ⟨a, ha, List.mem_map_of_mem hs⟩)

theorem plans_whole {p : List Int} (hp : p ∈ getReorderCrashPlanList m) : p ≠ [] ∧
    ∃ lines, lines <+ m.cache.cachelineDict.keys ∧ p = lines.flatMap (lineSeqs m) := by
  rw [getReorderCrashPlanList_eq] at hp
  obtain ⟨c, hc, rfl⟩ := List.mem_map.mp hp
  exact ⟨flatMap_ne_nil hc, c, (mem_choices.mp hc).1.trans List.filter_sublist, rfl⟩

theorem plans_all {lines : List Int} (hsub : lines <+ m.cache.cachelineDict.keys)
    (hne : lines.flatMap (lineSeqs m) ≠ []) :
    lines.flatMap (lineSeqs m) ∈ getReorderCrashPlanList m := by
  rw [getReorderCrashPlanList_eq, ← flatMap_filter]
  refine List.mem_map_of_mem (mem_choices.mpr ⟨hsub.filter _, fun hnil => hne ?_⟩)
  rw [← flatMap_filter, hnil]
  rfl

theorem plans_count : (getReorderCrashPlanList m).length = getReorderNums m ↔
    ∀ a ∈ m.cache.cachelineDict.keys, m.line a ≠ [] := by
  have hkeys : m.cache.cachelineDict.items.length = m.cache.cachelineDict.keys.length :=
    (List.length_map _).symm
  have hpos : ∀ n : Nat, 1 ≤ 2 ^ n := fun n => Nat.one_le_two_pow
  rw [getReorderCrashPlanList_eq, List.length_map, length_choices (nodup_filledLines m),
    getReorderNums, hkeys]
  have hpow : 2 ^ (filledLines m).length - 1 = 2 ^ m.cache.cachelineDict.keys.length - 1 ↔
      (filledLines m).length = m.cache.cachelineDict.keys.length := by
    constructor
    · intro h
      have h₁ := hpos (filledLines m).length
      have h₂ := hpos m.cache.cachelineDict.keys.length
      exact Nat.pow_right_injective (le_refl 2) (by show 2 ^ _ = 2 ^ _; omega)
    · exact fun h => by rw [h]
  rw [hpow, filledLines, List.length_filter_eq_length_iff]
  simp only [decide_eq_true_iff]

/-- A line whose numbers are all in other lines adds nothing to the plan of all lines. -/
theorem toFinset_flatMap_erase {a : Int}
    (hother : ∀ s ∈ m.line a, ∃ b, b ≠ a ∧ s.seq ∈ lineSeqs m b) :
    ((filledLines m).flatMap (lineSeqs m)).toFinset =
      (((filledLines m).erase a).flatMap (lineSeqs m)).toFinset := by
  ext x
  simp only [List.mem_toFinset, List.mem_flatMap, (nodup_filledLines m).mem_erase_iff]
  constructor
  · rintro ⟨d, hd, hx⟩
    by_cases hda : d = a
    · obtain ⟨s, hs, rfl⟩ := List.mem_map.mp hx
      rw [hda] at hs
      obtain ⟨b, hba, hb⟩ := hother s hs
      obtain ⟨t, ht, -⟩ := List.mem_map.mp hb
      exact ⟨b, ⟨hba, mem_filledLines.mpr (List.ne_nil_of_mem ht)⟩, hb⟩
    · exact ⟨d, ⟨hda, hd⟩, hx⟩
  · rintro ⟨d, ⟨-, hd⟩, hx⟩
    exact ⟨d, hd, hx⟩

/-- A line was chosen exactly when its own number is in the plan. -/
theorem mem_choice_iff {c : List Int} {a : Int} {s : Store} (hs : s ∈ m.line a)
    (hown : ∀ b, b ≠ a → s.seq ∉ lineSeqs m b) :
    a ∈ c ↔ s.seq ∈ (c.flatMap (lineSeqs m)).toFinset := by
  rw [List.mem_toFinset, List.mem_flatMap]
  refine ⟨fun ha => ⟨a, ha, List.mem_map_of_mem hs⟩, ?_⟩
  rintro ⟨b, hb, hseq⟩
  by_cases hba : b = a
  · exact hba ▸ hb
  · exact absurd hseq (hown b hba)

/-- Plans differ as sets exactly when every line has a number of its own. -/
theorem plans_differ : ((getReorderCrashPlanList m).map List.toFinset).Nodup ↔
    ∀ a, m.line a ≠ [] → ∃ s ∈ m.line a, ∀ b, b ≠ a → s.seq ∉ lineSeqs m b := by
  rw [getReorderCrashPlanList_eq, List.map_map,
    List.nodup_map_iff_inj_on (nodup_choices (nodup_filledLines m))]
  constructor
  · intro hinj a ha
    by_contra hown
    push Not at hown
    -- without the line, the plan of all lines is the same set
    have ha' := mem_filledLines.mpr ha
    obtain ⟨s, hs⟩ := List.exists_mem_of_ne_nil _ ha
    obtain ⟨b, hba, hb⟩ := hown s hs
    obtain ⟨t, ht, -⟩ := List.mem_map.mp hb
    have hb' : b ∈ (filledLines m).erase a :=
      (nodup_filledLines m).mem_erase_iff.mpr
        ⟨hba, mem_filledLines.mpr (List.ne_nil_of_mem ht)⟩
    have heq := hinj (filledLines m) (mem_choices.mpr ⟨List.Sublist.refl _, List.ne_nil_of_mem ha'⟩)
      ((filledLines m).erase a) (mem_choices.mpr ⟨List.erase_sublist, List.ne_nil_of_mem hb'⟩)
      (toFinset_flatMap_erase hown)
    have hnot := (nodup_filledLines m).not_mem_erase (a := a)
    rw [← heq] at hnot
    exact hnot ha'
  · intro hown c hc d hd hset
    rw [eq_filter_of_sublist (nodup_filledLines m) (mem_choices.mp hc).1,
      eq_filter_of_sublist (nodup_filledLines m) (mem_choices.mp hd).1]
    refine List.filter_congr fun a ha => ?_
    obtain ⟨s, hs, hsown⟩ := hown a (mem_filledLines.mp ha)
    rw [decide_eq_decide, mem_choice_iff hs hsown, mem_choice_iff hs hsown]
    exact Eq.to_iff (congrArg (s.seq ∈ ·) hset)

/-- The plans are right exactly when no line is empty and every line has a number of its own. -/
theorem line_plans_exact_iff (m : Sim) : PlansExact m ↔ LinesApart m :=
  ⟨fun h => ⟨plans_count.mp h.count, plans_differ.mp h.differ⟩,
    fun h => ⟨plans_differ.mpr h.own, fun _ => plans_whole, fun _ => plans_all,
      plans_count.mpr h.filled⟩⟩

end

/-- A store, and a flush of another line. -/
def strayFlushCache : Sim :=
  (do (← Sim.start.accept (.store ⟨0, 1, 0, 8⟩)).accept (.flush ⟨2, 64, 64⟩)).get (by decide +kernel)

/-- There is one plan, and three are announced. -/
theorem line_plans_count_stray_flush :
    (do (← Sim.start.accept (.store ⟨0, 1, 0, 8⟩)).accept (.flush ⟨2, 64, 64⟩)) =
        some strayFlushCache ∧
      getReorderCrashPlanList strayFlushCache = [[1]] ∧ getReorderNums strayFlushCache = 3 ∧
      ¬ PlansExact strayFlushCache := by
  have hplans : getReorderCrashPlanList strayFlushCache = [[1]] := by decide +kernel
  have hnums : getReorderNums strayFlushCache = 3 := by decide +kernel
  refine ⟨(Option.some_get _).symm, hplans, hnums, fun h => ?_⟩
  have hcount := h.count
  rw [hplans, hnums] at hcount
  exact absurd hcount (by decide)

end CacheLineReorderSimulator

end Cache
end Silhouette
