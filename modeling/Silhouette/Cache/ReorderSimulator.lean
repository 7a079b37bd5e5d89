import Silhouette.Cache.WriteDep
import Silhouette.Lib.ClosedSets

/-!
# The reorder simulator

`ReorderCacheLine` and `ReorderSimulator` of `reorder_simulator.py`.  The simulator
splits the stores of a cache into those fenced once and those not fenced yet and
counts, from per-line numbers, how many ways they can reach persistent memory.  A
failed assertion or a missing key is `none`; `getReorderNums_isSome` says that
neither happens.  The recursion over subsets of dependent lines is bounded by the
number of those lines, which is the fuel it is started with.
-/

namespace Silhouette
namespace Cache

open Lib

namespace ReorderCacheLine

/-- How many stores start in each slot of the line. -/
def atomicSlots (ops : List Store) : List Nat :=
  (List.range (cachelineBytes / atomicWriteBytes).toNat).map fun slot : Nat =>
    ops.countP fun op => slotOf op = slot

/-- How many slots have a given number of stores, for two stores and more. -/
def overwriteMap (ops : List Store) : Dict Nat Nat :=
  (atomicSlots ops).foldl
    (fun d ows => if ows < 2 then d else d.set ows ((d.get? ows).getD 0 + 1)) Dict.empty

def getCombinatorialNum (ops : List Store) (allowNone considerOw : Bool) : Option Int :=
  let rst : Option Int :=
    if considerOw then
      let ow := overwriteMap ops
      let numOwStores := (ow.items.map fun x => x.1 * x.2).sum
      let numOwStoresPlus1 := (ow.items.map fun x => (x.1 + 1) ^ x.2).prod
      if numOwStores ≤ ops.length then
        some ((numOwStoresPlus1 * 2 ^ (ops.length - numOwStores) : Nat) : Int)
      else none
    else some ((2 ^ ops.length : Nat) : Int)
  rst.map fun n => if allowNone then n else n - 1

end ReorderCacheLine

def getReorderNumOfOneCacheline (ops : List Store) (allowNone considerOw : Bool) : Option Int :=
  if ops.length = 0 then some (-1)
  else ReorderCacheLine.getCombinatorialNum ops allowNone considerOw

/-- Stores by cacheline address. -/
abbrev LineStores := Dict Int (List Store)

/-- The memorised numbers of sub cases, by the addresses of their dependent lines. -/
abbrev Memo := Dict (List Int) Int

/-- The cachelines of a cache by what they hold on the two sides of the last fence. -/
structure FenceRegions where
  prevDep : LineStores
  prevNonDep : LineStores
  postDep : LineStores
  postNonDep : LineStores

namespace ReorderSimulator

/-- The product of the numbers of the lines that are not empty. -/
def productOfLines (allowNone considerOw : Bool) (lines : LineStores) : Option Int :=
  lines.values.foldlM
    (fun n ops =>
      if ops.length > 0 then
        (getReorderNumOfOneCacheline ops allowNone considerOw).map (n * ·)
      else some n) 1

/-- Select at least one store from one line and any of the other lines, for each line.
An empty line takes part with the number it has. -/
def atLeastOneOf (considerOw : Bool) (lines : LineStores) : Option Int :=
  (lines.values.mapM fun ops => getReorderNumOfOneCacheline ops true considerOw).map fun nums =>
    (nums.zipIdx.map fun x =>
      if x.1 - 1 > 0 then (x.1 - 1) * (nums.eraseIdx x.2).prod else 0).sum

def getReorderNumsNoDep (considerOw : Bool) (r : FenceRegions) : Option Int := do
  let case1 ← atLeastOneOf considerOw r.postNonDep
  let pre ← productOfLines true considerOw r.prevNonDep
  return case1 * pre

/-- The entries of the given keys, all of which must be there. -/
def restrict (lines : LineStores) (combo : List Int) : Option LineStores :=
  combo.foldlM (fun d key => (lines.get? key).map (d.set key)) Dict.empty

/-- The numbers of the sub cases, taken from the memo or computed by `sub` and stored. -/
def sumSubCases (r : FenceRegions) (sub : FenceRegions → Memo → Option (Int × Memo))
    (combos : List (List Int)) (memo : Memo) : Option (Int × Memo) :=
  combos.foldlM
    (fun acc combo =>
      match acc.2.get? combo with
      | some n => some (acc.1 + n, acc.2)
      | none => do
        let prev ← restrict r.prevDep combo
        let post ← restrict r.postDep combo
        let result ← sub { r with prevDep := prev, postDep := post } acc.2
        return (acc.1 + result.1, result.2.set combo result.1))
    (0, memo)

def getReorderNumsDep (considerOw : Bool) : Nat → FenceRegions → Memo → Option (Int × Memo)
  | 0, _, _ => none
  | fuel + 1, r, memo =>
    if r.prevDep.keys.length = r.postDep.keys.length then do
      let one ← atLeastOneOf considerOw r.postNonDep
      let preDep ← productOfLines true considerOw r.prevDep
      let pre ← productOfLines true considerOw r.prevNonDep
      let postDep ← productOfLines false considerOw r.postDep
      let post ← productOfLines true considerOw r.postNonDep
      let combos := (List.range' 1 (r.postDep.keys.length - 1)).flatMap
        (combinations r.postDep.keys)
      let case3 ← sumSubCases r (getReorderNumsDep considerOw fuel) combos memo
      return (one * preDep * pre + postDep * pre * post + case3.1, case3.2)
    else none

/-- The stores of a line that saw exactly `n` fences. -/
def fencedTimes (h : Heap) (n : Nat) (cl : WitcherCacheline) : List Store :=
  cl.storesList.filter fun s => (h s.ref).fenceList.length = n

/-- File a line under the regions it belongs to. -/
def classify (h : Heap) (r : FenceRegions) (cl : WitcherCacheline) : FenceRegions :=
  let prev := fencedTimes h 1 cl
  let post := fencedTimes h 0 cl
  if prev.length = 0 then
    let r := { r with postNonDep := r.postNonDep.set cl.address post }
    if post.length = 0 then { r with prevNonDep := r.prevNonDep.set cl.address prev } else r
  else if post.length = 0 then { r with prevNonDep := r.prevNonDep.set cl.address prev }
  else { r with
    prevDep := r.prevDep.set cl.address prev
    postDep := r.postDep.set cl.address post }

def regions (m : Sim) : FenceRegions :=
  m.getCachelines.foldl (classify m.heap) ⟨Dict.empty, Dict.empty, Dict.empty, Dict.empty⟩

/-- The largest number that is reported. -/
def maxReported : Int := 99999999999999999999

/-- Number of crash plans, of in-flight stores and of the stores that were counted. -/
def getReorderNums (considerOw : Bool) (m : Sim) : Option (Int × Nat × Nat) := do
  let r := regions m
  let rst ← if r.prevDep.keys.length = 0 then getReorderNumsNoDep considerOw r
    else (getReorderNumsDep considerOw (r.postDep.keys.length + 1) r Dict.empty).map Prod.fst
  let computed := (m.getCachelines.map fun cl =>
    (fencedTimes m.heap 1 cl).length + (fencedTimes m.heap 0 cl).length).sum
  return (min rst maxReported, m.getInFightNums, computed)

end ReorderSimulator

/-! ## The number of one line -/

namespace ReorderCacheLine

theorem slotOf_lt (s : Store) : 0 ≤ slotOf s ∧ slotOf s < 8 := by
  simp only [slotOf, cachelineBytes, atomicWriteBytes]
  omega

/-- Every store starts in one of the slots. -/
theorem sum_atomicSlots (ops : List Store) : (atomicSlots ops).sum = ops.length := by
  induction ops with
  | nil => rfl
  | cons op rest ih =>
    have hone : ((List.range 8).map fun slot : Nat => if slotOf op = slot then 1 else 0).sum = 1 := by
      obtain ⟨h0, h8⟩ := slotOf_lt op
      obtain ⟨n, hn⟩ : ∃ n : Nat, slotOf op = n := ⟨(slotOf op).toNat, by omega⟩
      have hn8 : n < 8 := by omega
      rw [hn]
      have hall : ∀ k : Nat, k < 8 → ((List.range 8).map fun slot : Nat =>
          if (k : Int) = slot then 1 else 0).sum = 1 := by decide
      exact hall n hn8
    have hcons : ∀ slot ∈ List.range 8, (op :: rest).countP (fun op => slotOf op = (slot : Int)) =
        rest.countP (fun op => slotOf op = (slot : Int)) + if slotOf op = slot then 1 else 0 := by
      intro slot _
      simp [List.countP_cons]
    have hsum : (atomicSlots (op :: rest)).sum = (atomicSlots rest).sum + 1 := by
      rw [← hone]
      show ((List.range 8).map _).sum = ((List.range 8).map _).sum + _
      rw [List.map_congr_left hcons, List.sum_map_add]
    rw [hsum, ih, List.length_cons]

/-- The map counts the slots with two stores and more. -/
theorem overwriteMap_perm (ops : List Store) :
    ((overwriteMap ops).items.flatMap fun x => List.replicate x.2 x.1).Perm
      ((atomicSlots ops).filter fun n => 2 ≤ n) := by
  have hgen : ∀ (ns : List Nat) (d : Dict Nat Nat) (k : Nat),
      ((ns.foldl (fun d ows => if ows < 2 then d else d.set ows ((d.get? ows).getD 0 + 1))
        d).get? k).getD 0 = (d.get? k).getD 0 + (ns.filter fun n => 2 ≤ n).count k := by
    intro ns
    induction ns with
    | nil => exact fun _ _ => rfl
    | cons n rest ih =>
      intro d k
      rw [List.foldl_cons, ih]
      by_cases hn : n < 2
      · have hf : ¬ 2 ≤ n := by omega
        simp [hn, hf]
      · have hf : 2 ≤ n := by omega
        rw [if_neg hn, List.filter_cons_of_pos (by simpa using hf), List.count_cons,
          Dict.get?_set]
        by_cases hk : k = n
        · subst hk
          simp only [if_true, Option.getD_some, beq_self_eq_true]
          omega
        · simp [hk, Ne.symm hk]
  refine List.perm_iff_count.mpr (fun k => ?_)
  rw [Dict.count_flatMap_replicate, overwriteMap, hgen]
  simp

/-- Slots with one store contribute a factor two, those with more their number plus
one. -/
theorem prod_succ_eq (ns : List Nat) :
    (ns.filter fun n => 2 ≤ n).sum ≤ ns.sum ∧
      (ns.map (· + 1)).prod = ((ns.filter fun n => 2 ≤ n).map (· + 1)).prod *
        2 ^ (ns.sum - (ns.filter fun n => 2 ≤ n).sum) := by
  induction ns with
  | nil => exact ⟨Nat.le_refl _, rfl⟩
  | cons n rest ih =>
    obtain ⟨hle, hprod⟩ := ih
    rw [List.sum_cons, List.map_cons, List.prod_cons, hprod]
    by_cases hn : 2 ≤ n
    · rw [List.filter_cons_of_pos (by simpa using hn), List.sum_cons, List.map_cons,
        List.prod_cons, Nat.add_sub_add_left, Nat.mul_assoc]
      exact ⟨by omega, rfl⟩
    · rw [List.filter_cons_of_neg (by simpa using hn)]
      refine ⟨by omega, ?_⟩
      have hsub : n + rest.sum - (rest.filter fun n => 2 ≤ n).sum =
          n + (rest.sum - (rest.filter fun n => 2 ≤ n).sum) := by omega
      rw [hsub, Nat.pow_add]
      obtain rfl | rfl : n = 0 ∨ n = 1 := by omega
      · ring
      · ring

/-- What is left of a line when each slot keeps a first segment of its stores. -/
def slotChoices (ops : List Store) : Nat := ((atomicSlots ops).map (· + 1)).prod

theorem getCombinatorialNum_overwrites (ops : List Store) (allowNone : Bool) :
    getCombinatorialNum ops allowNone true =
      some (if allowNone then (slotChoices ops : Int) else slotChoices ops - 1) := by
  have hperm := overwriteMap_perm ops
  obtain ⟨hle, hprod⟩ := prod_succ_eq (atomicSlots ops)
  have hsum : ((overwriteMap ops).items.map fun x => x.1 * x.2).sum =
      ((atomicSlots ops).filter fun n => 2 ≤ n).sum := by
    rw [← hperm.sum_eq, List.flatMap_def, List.sum_flatten, List.map_map]
    refine congrArg List.sum (List.map_congr_left (fun x _ => ?_))
    simp [Nat.mul_comm]
  have hmul : ((overwriteMap ops).items.map fun x => (x.1 + 1) ^ x.2).prod =
      (((atomicSlots ops).filter fun n => 2 ≤ n).map (· + 1)).prod := by
    rw [← (hperm.map (· + 1)).prod_eq, List.map_flatMap, List.flatMap_def, List.prod_flatten,
      List.map_map]
    refine congrArg List.prod (List.map_congr_left (fun x _ => ?_))
    simp
  rw [sum_atomicSlots] at hle hprod
  simp only [getCombinatorialNum, if_true]
  rw [hsum, hmul, if_pos hle, ← hprod]
  rfl

theorem getCombinatorialNum_isSome (ops : List Store) (allowNone considerOw : Bool) :
    (getCombinatorialNum ops allowNone considerOw).isSome := by
  cases considerOw with
  | true => rw [getCombinatorialNum_overwrites]; rfl
  | false => rfl

end ReorderCacheLine

theorem getReorderNumOfOneCacheline_isSome (ops : List Store) (allowNone considerOw : Bool) :
    (getReorderNumOfOneCacheline ops allowNone considerOw).isSome := by
  rw [getReorderNumOfOneCacheline]
  by_cases h : ops.length = 0
  · rw [if_pos h]; rfl
  · rw [if_neg h]
    exact ReorderCacheLine.getCombinatorialNum_isSome ops allowNone considerOw

/-! ## No assertion fires -/

namespace ReorderSimulator

theorem productOfLines_isSome (allowNone considerOw : Bool) (lines : LineStores) :
    (productOfLines allowNone considerOw lines).isSome := by
  refine foldlM_isSome (fun n ops _ => ?_) 1
  by_cases h : ops.length > 0
  · rw [if_pos h, Option.isSome_map]
    exact getReorderNumOfOneCacheline_isSome ops allowNone considerOw
  · rw [if_neg h]; rfl

theorem atLeastOneOf_isSome (considerOw : Bool) (lines : LineStores) :
    (atLeastOneOf considerOw lines).isSome := by
  have h := mapM_eq_some (l := lines.values)
    (f := fun ops => getReorderNumOfOneCacheline ops true considerOw)
    (g := fun ops => (getReorderNumOfOneCacheline ops true considerOw).get
      (getReorderNumOfOneCacheline_isSome ops true considerOw))
    (fun ops _ => (Option.some_get _).symm)
  rw [atLeastOneOf, h]
  rfl

/-- There is a number for the lines of every region. -/
theorem exists_regionNumbers (considerOw : Bool) (r : FenceRegions) :
    ∃ one preDep pre postDep post, atLeastOneOf considerOw r.postNonDep = some one ∧
      productOfLines true considerOw r.prevDep = some preDep ∧
      productOfLines true considerOw r.prevNonDep = some pre ∧
      productOfLines false considerOw r.postDep = some postDep ∧
      productOfLines true considerOw r.postNonDep = some post := by
  have hproduct : ∀ allowNone lines, ∃ n, productOfLines allowNone considerOw lines = some n :=
    fun allowNone lines => Option.isSome_iff_exists.mp
      (productOfLines_isSome allowNone considerOw lines)
  obtain ⟨one, hone⟩ := Option.isSome_iff_exists.mp (atLeastOneOf_isSome considerOw r.postNonDep)
  obtain ⟨preDep, hpreDep⟩ := hproduct true r.prevDep
  obtain ⟨pre, hpre⟩ := hproduct true r.prevNonDep
  obtain ⟨postDep, hpostDep⟩ := hproduct false r.postDep
  obtain ⟨post, hpost⟩ := hproduct true r.postNonDep
  exact ⟨one, preDep, pre, postDep, post, hone, hpreDep, hpre, hpostDep, hpost⟩

theorem restrict_eq (lines : LineStores) {combo : List Int} (hnd : combo.Nodup)
    (hsub : ∀ a ∈ combo, a ∈ lines.keys) :
    ∃ d, restrict lines combo = some d ∧ d.keys = combo := by
  induction combo using List.reverseRecOn with
  | nil => exact ⟨Dict.empty, rfl, rfl⟩
  | append_singleton combo a ih =>
    obtain ⟨hnd1, -, hdis⟩ := List.nodup_append.mp hnd
    obtain ⟨d, hd, hk⟩ := ih hnd1 (fun b hb => hsub b (List.mem_append_left _ hb))
    obtain ⟨v, hv⟩ := Dict.mem_keys.mp (hsub a (by simp))
    refine ⟨d.set a v, ?_, ?_⟩
    · rw [restrict, List.foldlM_append, ← restrict, hd]
      simp [hv]
    · have ha : a ∉ d.keys := hk ▸ fun ha => hdis a ha a (by simp) rfl
      rw [Dict.keys_set, if_neg ha, hk]

/-- The recursion ends within its fuel, whatever the memo holds. -/
theorem getReorderNumsDep_isSome (considerOw : Bool) (fuel : Nat) (r : FenceRegions) (memo : Memo)
    (hkeys : r.prevDep.keys = r.postDep.keys) (hfuel : r.postDep.keys.length < fuel) :
    (getReorderNumsDep considerOw fuel r memo).isSome := by
  induction fuel generalizing r memo with
  | zero => exact absurd hfuel (Nat.not_lt_zero _)
  | succ fuel ih =>
    have hsub : ∀ memo, (sumSubCases r (getReorderNumsDep considerOw fuel)
        ((List.range' 1 (r.postDep.keys.length - 1)).flatMap (combinations r.postDep.keys))
        memo).isSome := by
      intro memo
      refine foldlM_isSome (fun acc combo hcombo => ?_) (0, memo)
      obtain ⟨k, hk, hc⟩ := List.mem_flatMap.mp hcombo
      obtain ⟨hsubl, hlen⟩ := sublist_of_mem_combinations hc
      have hnd : combo.Nodup := (Dict.nodup_keys r.postDep).sublist hsubl
      cases hmemo : acc.2.get? combo with
      | some n => rfl
      | none =>
        obtain ⟨prev, hprev, hpk⟩ := restrict_eq r.prevDep hnd
          (fun a ha => hkeys ▸ hsubl.subset ha)
        obtain ⟨post, hpost, hqk⟩ := restrict_eq r.postDep hnd
          (fun a ha => hsubl.subset ha)
        have hlt : post.keys.length < fuel := by
          have hk' := List.mem_range'.mp hk
          rw [hqk, hlen]
          omega
        obtain ⟨res, hres⟩ := Option.isSome_iff_exists.mp
          (ih { r with prevDep := prev, postDep := post } acc.2 (hpk.trans hqk.symm) hlt)
        simp [hprev, hpost, hres]
    obtain ⟨one, preDep, pre, postDep, post, hone, hpreDep, hpre, hpostDep, hpost⟩ :=
      exists_regionNumbers considerOw r
    obtain ⟨case3, hcase3⟩ := Option.isSome_iff_exists.mp (hsub memo)
    rw [getReorderNumsDep, if_pos (congrArg List.length hkeys), hone, hpreDep, hpre, hpostDep, hpost]
    simp [hcase3]

theorem keys_regions (m : Sim) : (regions m).prevDep.keys = (regions m).postDep.keys := by
  have hgen : ∀ (lines : List WitcherCacheline) (r : FenceRegions),
      r.prevDep.keys = r.postDep.keys →
      (lines.foldl (classify m.heap) r).prevDep.keys =
        (lines.foldl (classify m.heap) r).postDep.keys := by
    intro lines
    induction lines with
    | nil => exact fun _ h => h
    | cons cl rest ih =>
      intro r h
      refine ih _ ?_
      simp only [classify]
      split_ifs
      · exact h
      · exact h
      · exact h
      · show (r.prevDep.set _ _).keys = (r.postDep.set _ _).keys
        rw [Dict.keys_set, Dict.keys_set, h]
  exact hgen _ _ rfl

theorem getReorderNums_isSome (considerOw : Bool) (m : Sim) :
    (getReorderNums considerOw m).isSome := by
  have hdep := getReorderNumsDep_isSome considerOw _ (regions m) Dict.empty (keys_regions m)
    (Nat.lt_succ_self _)
  obtain ⟨x, hx⟩ := Option.isSome_iff_exists.mp hdep
  obtain ⟨one, -, pre, -, -, hone, -, hpre, -⟩ := exists_regionNumbers considerOw (regions m)
  rw [getReorderNums]
  by_cases h : (regions m).prevDep.keys.length = 0
  · simp [h, getReorderNumsNoDep, hone, hpre]
  · simp [h, hx]

end ReorderSimulator
end Cache
end Silhouette
