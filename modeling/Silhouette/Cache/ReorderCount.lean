import Silhouette.Cache.CrashStates
import Mathlib.Algebra.Order.BigOperators.Group.List
import Mathlib.Algebra.Ring.Parity

/-!
# What the reorder simulator counts

`getReorderNums` is meant to be the number of crash states.  With one line on both sides of
the fence at most, it is their number when at most one line has stores only behind the fence
and, if there is one, the lines without stores of either region come in an even number.  More
lines behind the fence are counted more than once, and a line without stores changes the sign.
-/

namespace Silhouette
namespace Cache

open Lib Lib.Persist

/-! ## Choosing at least one -/

/-- The number an empty line takes part with is -1. -/
def signedChoices (y : Nat) : Int := if y = 1 then -1 else y

/-- The sum of `atLeastOneOf`. -/
def atLeastSum (nums : List Int) : Int :=
  (nums.zipIdx.map fun x =>
    if x.1 - 1 > 0 then (x.1 - 1) * (nums.eraseIdx x.2).prod else 0).sum

/-- The same sum for lines that are not empty: for each line, something of it and anything of
the others. -/
def onceEach : List Nat → Int
  | [] => 0
  | y :: ys => ((y : Int) - 1) * (ys.prod : Nat) + y * onceEach ys

theorem atLeastSum_cons (n : Int) (nums : List Int) :
    atLeastSum (n :: nums) = (if n - 1 > 0 then (n - 1) * nums.prod else 0) + n * atLeastSum nums := by
  have hrest : (nums.zipIdx 1).map (fun x => if x.1 - 1 > 0 then
      (x.1 - 1) * ((n :: nums).eraseIdx x.2).prod else 0) =
      (nums.zipIdx.map fun x => if x.1 - 1 > 0 then
        (x.1 - 1) * (nums.eraseIdx x.2).prod else 0).map (n * ·) := by
    rw [List.zipIdx_succ, List.map_map, List.map_map]
    refine List.map_congr_left (fun x _ => ?_)
    show (if x.1 - 1 > 0 then (x.1 - 1) * ((n :: nums).eraseIdx (x.2 + 1)).prod else 0) =
      n * if x.1 - 1 > 0 then (x.1 - 1) * (nums.eraseIdx x.2).prod else 0
    rw [List.eraseIdx_cons_succ, List.prod_cons]
    split_ifs
    · ring
    · ring
  rw [atLeastSum, List.zipIdx_cons, List.map_cons, List.sum_cons, Nat.zero_add, hrest,
    List.sum_map_mul_left, List.map_id', atLeastSum]
  rfl

/-- An empty line turns the sign of everything. -/
theorem atLeastSum_signed {ys : List Nat} (h : ∀ y ∈ ys, 1 ≤ y) :
    (ys.map signedChoices).prod = (-1) ^ ys.count 1 * (ys.prod : Nat) ∧
      atLeastSum (ys.map signedChoices) = (-1) ^ ys.count 1 * onceEach ys := by
  induction ys with
  | nil => exact ⟨rfl, rfl⟩
  | cons y ys ih =>
    obtain ⟨hprod, hsum⟩ := ih (fun z hz => h z (List.mem_cons_of_mem _ hz))
    have hy := h y List.mem_cons_self
    rw [List.map_cons, atLeastSum_cons, List.prod_cons, hprod, hsum, onceEach, List.prod_cons,
      List.count_cons]
    by_cases h1 : y = 1
    · subst h1
      simp only [signedChoices, if_true, beq_self_eq_true, pow_succ]
      refine ⟨by push_cast; ring, ?_⟩
      norm_num
    · have hgt : (y : Int) - 1 > 0 := by omega
      have hne : (y == 1) = false := by simpa using h1
      simp only [signedChoices, if_neg h1, hne, Bool.false_eq_true, if_false, if_pos hgt,
        Nat.add_zero]
      refine ⟨by push_cast; ring, by ring⟩

/-- Against the choices of at least one, this counts too much from the second line on. -/
theorem onceEach_excess {ys : List Nat} (h : ∀ y ∈ ys, 1 ≤ y) :
    1 ≤ ys.prod ∧ (ys.prod = 1 ↔ ys.countP (· ≠ 1) = 0) ∧
      0 ≤ onceEach ys - ((ys.prod : Nat) - 1) ∧
      (onceEach ys - ((ys.prod : Nat) - 1) = 0 ↔ ys.countP (· ≠ 1) ≤ 1) := by
  induction ys with
  | nil => simp [onceEach]
  | cons y ys ih =>
    obtain ⟨hpos, hone, hexc, hzero⟩ := ih (fun z hz => h z (List.mem_cons_of_mem _ hz))
    have hy := h y List.mem_cons_self
    have hstep : onceEach (y :: ys) - (((y :: ys).prod : Nat) - 1) =
        y * (onceEach ys - ((ys.prod : Nat) - 1)) + ((y : Int) - 1) * ((ys.prod : Nat) - 1) := by
      rw [onceEach, List.prod_cons]
      push_cast
      ring
    rw [hstep, List.countP_cons, List.prod_cons]
    by_cases h1 : y = 1
    · subst h1
      have hcount : ys.countP (· ≠ 1) + (if decide (1 ≠ 1) = true then 1 else 0) =
          ys.countP (· ≠ 1) := rfl
      rw [hcount, Nat.one_mul, Nat.cast_one, sub_self, zero_mul, add_zero, one_mul]
      exact ⟨hpos, hone, hexc, hzero⟩
    · have hy2 : (1 : Int) ≤ (y : Int) - 1 := by omega
      have hP : (0 : Int) ≤ (ys.prod : Nat) - 1 := by omega
      have ha : 0 ≤ (y : Int) * (onceEach ys - ((ys.prod : Nat) - 1)) := mul_nonneg (by omega) hexc
      have hb : 0 ≤ ((y : Int) - 1) * ((ys.prod : Nat) - 1) := mul_nonneg (by omega) hP
      have hcount : ys.countP (· ≠ 1) + (if decide (y ≠ 1) = true then 1 else 0) =
          ys.countP (· ≠ 1) + 1 := by simp [h1]
      rw [hcount]
      refine ⟨Nat.one_le_iff_ne_zero.mpr (Nat.mul_ne_zero (by omega) (by omega)), ?_, by omega, ?_⟩
      · constructor
        · intro hmul
          exact absurd (Nat.eq_one_of_mul_eq_one_right hmul) h1
        · intro h0
          omega
      · constructor
        · intro hsum
          have hb0 : ((y : Int) - 1) * ((ys.prod : Nat) - 1) = 0 := by omega
          rcases mul_eq_zero.mp hb0 with h0 | h0
          · omega
          · have : ys.prod = 1 := by omega
            rw [hone.mp this]
        · intro hle
          have h0 : ys.countP (· ≠ 1) = 0 := by omega
          rw [hzero.mpr (by omega), hone.mpr h0]
          simp

/-- So the signed sum is the number of choices of at least one for one line, if the empty
lines cancel out, and for none. -/
theorem atLeastSum_exact_iff {ys : List Nat} (h : ∀ y ∈ ys, 1 ≤ y) :
    atLeastSum (ys.map signedChoices) = (ys.prod : Nat) - 1 ↔
      ys.countP (· ≠ 1) = 0 ∨ ys.countP (· ≠ 1) = 1 ∧ Even (ys.count 1) := by
  obtain ⟨hpos, hone, hexc, hzero⟩ := onceEach_excess h
  rw [(atLeastSum_signed h).2]
  rcases Nat.even_or_odd (ys.count 1) with heven | hodd
  · rw [heven.neg_one_pow, one_mul]
    have hiff : onceEach ys = (ys.prod : Nat) - 1 ↔ ys.countP (· ≠ 1) ≤ 1 := by
      rw [← hzero]
      omega
    rw [hiff]
    constructor
    · intro hle
      rcases Nat.le_one_iff_eq_zero_or_eq_one.mp hle with h0 | h1
      · exact Or.inl h0
      · exact Or.inr ⟨h1, heven⟩
    · rintro (h0 | ⟨h1, -⟩)
      · omega
      · omega
  · rw [hodd.neg_one_pow, neg_one_mul]
    constructor
    · intro heq
      exact Or.inl (hone.mp (by omega))
    · rintro (h0 | ⟨-, heven⟩)
      · have hp := hone.mpr h0
        have := hzero.mpr (by omega)
        omega
      · exact absurd heven (Nat.not_even_iff_odd.mpr hodd)

/-! ## What the simulator computes -/

namespace ReorderSimulator

/-- Has a line no store before the last fence, or none behind it. -/
def noPrev (h : Heap) (cl : WitcherCacheline) : Bool := (fencedTimes h 1 cl).isEmpty

def noPost (h : Heap) (cl : WitcherCacheline) : Bool := (fencedTimes h 0 cl).isEmpty

/-- The lines with stores only behind the fence, with none of either region, and with
both. -/
def postOnlyLines (m : Sim) : Nat :=
  m.getCachelines.countP fun cl => noPrev m.heap cl && !noPost m.heap cl

def bareLines (m : Sim) : Nat :=
  m.getCachelines.countP fun cl => noPrev m.heap cl && noPost m.heap cl

def dependentLines (m : Sim) : Nat :=
  m.getCachelines.countP fun cl => !noPrev m.heap cl && !noPost m.heap cl

open ReorderCacheLine

/-- An empty line has one choice, every other more. -/
theorem slotChoices_eq_one_iff (ops : List Store) : slotChoices ops = 1 ↔ ops.isEmpty := by
  have hsum := sum_atomicSlots ops
  have hle : ∀ ns : List Nat, ns.sum + 1 ≤ (ns.map (· + 1)).prod := by
    intro ns
    induction ns with
    | nil => exact Nat.le_refl _
    | cons n ns ih =>
      have hmul := Nat.mul_le_mul_left (n + 1) ih
      have hexpand : (n + 1) * (ns.sum + 1) = n * ns.sum + n + ns.sum + 1 := by ring
      rw [List.sum_cons, List.map_cons, List.prod_cons]
      omega
  have hbound := hle (atomicSlots ops)
  rw [hsum, ← slotChoices] at hbound
  rw [List.isEmpty_iff]
  constructor
  · intro h1
    exact List.length_eq_zero_iff.mp (by omega)
  · rintro rfl
    rfl

theorem one_le_slotChoices (ops : List Store) : 1 ≤ slotChoices ops := by
  refine Nat.one_le_iff_ne_zero.mpr (List.prod_ne_zero (fun h => ?_))
  obtain ⟨n, -, hn⟩ := List.mem_map.mp h
  omega

theorem getReorderNumOfOneCacheline_eq (ops : List Store) :
    getReorderNumOfOneCacheline ops true true = some (signedChoices (slotChoices ops)) := by
  rw [getReorderNumOfOneCacheline, signedChoices]
  by_cases h : ops.length = 0
  · rw [if_pos h, if_pos ((slotChoices_eq_one_iff ops).mpr (by simpa using h))]
  · rw [if_neg h, if_neg (fun h1 => h (by simpa using (slotChoices_eq_one_iff ops).mp h1)),
      getCombinatorialNum_overwrites]
    rfl

theorem foldl_mul_eq {α : Type} (f : α → Int) (l : List α) (n : Int) :
    l.foldl (fun n x => n * f x) n = n * (l.map f).prod := by
  induction l generalizing n with
  | nil => simp
  | cons x rest ih => rw [List.foldl_cons, ih, List.map_cons, List.prod_cons, mul_assoc]

theorem productOfLines_true (lines : LineStores) :
    productOfLines true true lines =
      some (lines.values.map fun ops => (slotChoices ops : Int)).prod := by
  rw [productOfLines, foldlM_eq_some (g := fun n ops => n * (slotChoices ops : Int)), foldl_mul_eq,
    one_mul]
  intro n ops _
  by_cases h : ops.length > 0
  · rw [if_pos h, getReorderNumOfOneCacheline, if_neg (by omega), getCombinatorialNum_overwrites]
    rfl
  · have hnil : slotChoices ops = 1 := (slotChoices_eq_one_iff ops).mpr (by simpa using h)
    rw [if_neg h, hnil]
    simp

theorem productOfLines_false {lines : LineStores} (h : ∀ ops ∈ lines.values, ops ≠ []) :
    productOfLines false true lines =
      some (lines.values.map fun ops => (slotChoices ops : Int) - 1).prod := by
  rw [productOfLines, foldlM_eq_some (g := fun n ops => n * ((slotChoices ops : Int) - 1)),
    foldl_mul_eq, one_mul]
  intro n ops hops
  have hlen : ops.length > 0 := List.length_pos_iff.mpr (h ops hops)
  rw [if_pos hlen, getReorderNumOfOneCacheline, if_neg (by omega), getCombinatorialNum_overwrites]
  rfl

theorem atLeastOneOf_eq (lines : LineStores) :
    atLeastOneOf true lines =
      some (atLeastSum ((lines.values.map slotChoices).map signedChoices)) := by
  rw [atLeastOneOf, mapM_eq_some (fun ops _ => getReorderNumOfOneCacheline_eq ops), List.map_map]
  rfl

/-! The regions, as parts of the list of lines. -/

/-- A line with stores on both sides. -/
def both (h : Heap) (cl : WitcherCacheline) : Bool := !noPrev h cl && !noPost h cl

/-- A line without stores is filed under both sides. -/
theorem classify_eq (h : Heap) (r : FenceRegions) (cl : WitcherCacheline) :
    classify h r cl =
      { prevDep := if both h cl then r.prevDep.set cl.address (fencedTimes h 1 cl) else r.prevDep
        prevNonDep := if noPost h cl then r.prevNonDep.set cl.address (fencedTimes h 1 cl)
          else r.prevNonDep
        postDep := if both h cl then r.postDep.set cl.address (fencedTimes h 0 cl) else r.postDep
        postNonDep := if noPrev h cl then r.postNonDep.set cl.address (fencedTimes h 0 cl)
          else r.postNonDep } := by
  have hprev : (fencedTimes h 1 cl).length = 0 ↔ noPrev h cl = true := by simp [noPrev]
  have hpost : (fencedTimes h 0 cl).length = 0 ↔ noPost h cl = true := by simp [noPost]
  simp only [classify, hprev, hpost]
  by_cases h1 : noPrev h cl = true
  · have hb : both h cl = false := by simp [both, h1]
    rw [if_pos h1, if_pos h1, hb]
    by_cases h0 : noPost h cl = true
    · rw [if_pos h0, if_pos h0]
      rfl
    · rw [if_neg h0, if_neg h0]
      rfl
  · rw [if_neg h1, if_neg h1]
    by_cases h0 : noPost h cl = true
    · have hb : both h cl = false := by simp [both, h0]
      rw [if_pos h0, if_pos h0, hb]
      rfl
    · have hb : both h cl = true := by simp [both, h1, h0]
      rw [if_neg h0, if_neg h0, hb]
      rfl

/-- Each region files the lines that belong to it. -/
theorem items_regions {m : Sim} (hw : m.WellFiled) (region : FenceRegions → LineStores)
    (p : WitcherCacheline → Bool) (val : WitcherCacheline → List Store)
    (hstart : region ⟨Dict.empty, Dict.empty, Dict.empty, Dict.empty⟩ = Dict.empty)
    (hstep : ∀ r cl, region (classify m.heap r cl) =
      if p cl then (region r).set cl.address (val cl) else region r) :
    (region (regions m)).items = (m.getCachelines.filter p).map fun cl => (cl.address, val cl) := by
  have hfold : ∀ (lines : List WitcherCacheline) (r : FenceRegions),
      region (lines.foldl (classify m.heap) r) = lines.foldl (fun d cl =>
        if p cl then d.set cl.address (val cl) else d) (region r) := by
    intro lines
    induction lines with
    | nil => exact fun _ => rfl
    | cons cl rest ih =>
      intro r
      rw [List.foldl_cons, List.foldl_cons, ih, hstep]
  have haddr : m.getCachelines.map WitcherCacheline.address = m.cache.cachelineDict.keys := by
    rw [Sim.getCachelines, Dict.values, Dict.keys, List.map_map]
    exact List.map_congr_left (fun x hx => (hw x.1 x.2 (Dict.get?_eq_some.mpr hx)).1)
  rw [regions, hfold, hstart]
  refine Dict.items_foldl_set WitcherCacheline.address val p ?_
  rw [haddr]
  exact m.cache.cachelineDict.nodup_keys

section

variable {m : Sim}

theorem items_postNonDep (hw : m.WellFiled) : (regions m).postNonDep.items =
    (m.getCachelines.filter (noPrev m.heap)).map fun cl => (cl.address, fencedTimes m.heap 0 cl) :=
  items_regions hw FenceRegions.postNonDep _ _ rfl (fun r cl => by rw [classify_eq])

theorem items_prevNonDep (hw : m.WellFiled) : (regions m).prevNonDep.items =
    (m.getCachelines.filter (noPost m.heap)).map fun cl => (cl.address, fencedTimes m.heap 1 cl) :=
  items_regions hw FenceRegions.prevNonDep _ _ rfl (fun r cl => by rw [classify_eq])

theorem items_prevDep (hw : m.WellFiled) : (regions m).prevDep.items =
    (m.getCachelines.filter (both m.heap)).map fun cl => (cl.address, fencedTimes m.heap 1 cl) :=
  items_regions hw FenceRegions.prevDep _ _ rfl (fun r cl => by rw [classify_eq])

theorem items_postDep (hw : m.WellFiled) : (regions m).postDep.items =
    (m.getCachelines.filter (both m.heap)).map fun cl => (cl.address, fencedTimes m.heap 0 cl) :=
  items_regions hw FenceRegions.postDep _ _ rfl (fun r cl => by rw [classify_eq])

/-- The choices of one line on the two sides. -/
def prevNum (h : Heap) (cl : WitcherCacheline) : Nat := slotChoices (fencedTimes h 1 cl)

def postNum (h : Heap) (cl : WitcherCacheline) : Nat := slotChoices (fencedTimes h 0 cl)

/-- The factors of the lines, by the regions the lines belong to. -/
theorem prod_lines_eq (h : Heap) (lines : List WitcherCacheline) :
    (lines.map fun cl => (prevNum h cl : Int) + (postNum h cl - 1)).prod =
      ((lines.filter (noPrev h)).map fun cl => (postNum h cl : Int)).prod *
        ((lines.filter (noPost h)).map fun cl => (prevNum h cl : Int)).prod *
        ((lines.filter (both h)).map fun cl => (prevNum h cl : Int) + (postNum h cl - 1)).prod ∧
      (lines.map fun cl => (prevNum h cl : Int)).prod =
        ((lines.filter (noPost h)).map fun cl => (prevNum h cl : Int)).prod *
          ((lines.filter (both h)).map fun cl => (prevNum h cl : Int)).prod := by
  induction lines with
  | nil => simp
  | cons cl rest ih =>
    obtain ⟨ih1, ih2⟩ := ih
    have hprev : noPrev h cl = true → prevNum h cl = 1 := (slotChoices_eq_one_iff _).mpr
    have hpost : noPost h cl = true → postNum h cl = 1 := (slotChoices_eq_one_iff _).mpr
    rw [List.map_cons, List.map_cons, List.prod_cons, List.prod_cons, ih1, ih2]
    by_cases h1 : noPrev h cl = true
    · have hb : ¬ both h cl = true := by simp [both, h1]
      rw [List.filter_cons_of_pos h1, List.filter_cons_of_neg hb, hprev h1]
      by_cases h0 : noPost h cl = true
      · rw [List.filter_cons_of_pos h0, List.map_cons, List.map_cons, List.prod_cons, List.prod_cons,
          hprev h1, hpost h0]
        refine ⟨by ring, by ring⟩
      · rw [List.filter_cons_of_neg h0, List.map_cons, List.prod_cons]
        refine ⟨by ring, by ring⟩
    · rw [List.filter_cons_of_neg h1]
      by_cases h0 : noPost h cl = true
      · have hb : ¬ both h cl = true := by simp [both, h0]
        rw [List.filter_cons_of_pos h0, List.filter_cons_of_neg hb, List.map_cons, List.prod_cons,
          hpost h0]
        refine ⟨by ring, by ring⟩
      · have hb : both h cl = true := by simp [both, h1, h0]
        rw [List.filter_cons_of_neg h0, List.filter_cons_of_pos hb, List.map_cons, List.map_cons,
          List.prod_cons, List.prod_cons]
        refine ⟨by ring, by ring⟩

theorem map_values_regions {d : LineStores} {lines : List WitcherCacheline}
    {val : WitcherCacheline → List Store} (hd : d.items = lines.map fun cl => (cl.address, val cl))
    {β : Type} (f : List Store → β) : d.values.map f = lines.map fun cl => f (val cl) := by
  rw [Dict.values, hd, List.map_map, List.map_map]
  rfl

/-- One dependent line has no sub cases. -/
theorem getReorderNumsDep_single {r : FenceRegions} (hprev : r.prevDep.keys.length = 1)
    (hpost : r.postDep.keys.length = 1) {one preDep pre postDep post : Int}
    (h1 : atLeastOneOf true r.postNonDep = some one)
    (h2 : productOfLines true true r.prevDep = some preDep)
    (h3 : productOfLines true true r.prevNonDep = some pre)
    (h4 : productOfLines false true r.postDep = some postDep)
    (h5 : productOfLines true true r.postNonDep = some post) :
    getReorderNumsDep true (1 + 1) r Dict.empty =
      some (one * preDep * pre + postDep * pre * post + 0, Dict.empty) := by
  rw [getReorderNumsDep, hprev, hpost, if_pos rfl, h1, h2, h3, h4, h5]
  rfl

/-- The number before it is capped. -/
def uncapped (m : Sim) : Option Int :=
  if (regions m).prevDep.keys.length = 0 then getReorderNumsNoDep true (regions m)
  else (getReorderNumsDep true ((regions m).postDep.keys.length + 1) (regions m)
    Dict.empty).map Prod.fst

theorem getReorderNums_fst {n : Int × Nat × Nat} {u : Int} (hn : getReorderNums true m = some n)
    (hu : uncapped m = some u) : n.1 = min u maxReported := by
  rw [getReorderNums] at hn
  rw [uncapped] at hu
  by_cases h0 : (regions m).prevDep.keys.length = 0
  · rw [if_pos h0] at hu hn
    rw [hu] at hn
    exact congrArg Prod.fst (Option.some.inj hn).symm
  · rw [if_neg h0] at hu hn
    rw [hu] at hn
    exact congrArg Prod.fst (Option.some.inj hn).symm

/-- It is the number of crash states, with an error that comes from the lines behind the
fence. -/
theorem uncapped_eq (hw : m.WellFiled) (hdep : dependentLines m ≤ 1) :
    uncapped m = some
      ((m.getCachelines.map fun cl => (prevNum m.heap cl : Int) + (postNum m.heap cl - 1)).prod -
        (m.getCachelines.map fun cl => (prevNum m.heap cl : Int)).prod +
        (m.getCachelines.map fun cl => (prevNum m.heap cl : Int)).prod *
          (atLeastSum (((m.getCachelines.filter (noPrev m.heap)).map (postNum m.heap)).map
              signedChoices) -
            (((m.getCachelines.filter (noPrev m.heap)).map fun cl =>
              (postNum m.heap cl : Int)).prod - 1))) := by
  obtain ⟨hall, hprev⟩ := prod_lines_eq m.heap m.getCachelines
  have hone := atLeastOneOf_eq (regions m).postNonDep
  have hpre := productOfLines_true (regions m).prevNonDep
  rw [map_values_regions (items_postNonDep hw)] at hone
  rw [map_values_regions (items_prevNonDep hw)] at hpre
  have hkeys : ∀ d : LineStores, ∀ val : WitcherCacheline → List Store,
      d.items = (m.getCachelines.filter (both m.heap)).map (fun cl => (cl.address, val cl)) →
      d.keys.length = (m.getCachelines.filter (both m.heap)).length := by
    intro d val hd
    rw [Dict.keys, hd, List.length_map, List.length_map]
  have hlen : (m.getCachelines.filter (both m.heap)).length ≤ 1 := by
    rw [← List.countP_eq_length_filter]
    exact hdep
  rw [uncapped, hkeys _ _ (items_prevDep hw), hkeys _ _ (items_postDep hw), hall, hprev]
  rcases hcl : m.getCachelines.filter (both m.heap) with _ | ⟨cl, _ | ⟨cl₂, rest⟩⟩
  · rw [if_pos List.length_nil, getReorderNumsNoDep, hone, hpre]
    simp only [Option.bind_eq_bind, Option.bind_some, Option.pure_def, Option.some.injEq,
      List.map_nil, List.prod_nil, List.map_map]
    simp only [Function.comp_def, prevNum, postNum]
    ring
  · have hpreDep := productOfLines_true (regions m).prevDep
    have hpost := productOfLines_true (regions m).postNonDep
    have hpostDep : productOfLines false true (regions m).postDep =
        some ((regions m).postDep.values.map fun ops => (slotChoices ops : Int) - 1).prod := by
      refine productOfLines_false (fun ops hops => ?_)
      rw [Dict.values, items_postDep hw, List.map_map] at hops
      obtain ⟨cl', hcl', rfl⟩ := List.mem_map.mp hops
      have hboth := (List.mem_filter.mp hcl').2
      simp only [both, Bool.and_eq_true, Bool.not_eq_true', noPost] at hboth
      exact fun hnil => absurd hboth.2 (by simpa using hnil)
    rw [map_values_regions (items_prevDep hw), hcl] at hpreDep
    rw [map_values_regions (items_postDep hw), hcl] at hpostDep
    rw [map_values_regions (items_postNonDep hw)] at hpost
    have hkprev := hkeys _ _ (items_prevDep hw)
    have hkpost := hkeys _ _ (items_postDep hw)
    rw [hcl, List.length_singleton] at hkprev hkpost
    rw [if_neg (by simp), List.length_singleton,
      getReorderNumsDep_single hkprev hkpost hone hpreDep hpre hpostDep hpost]
    simp only [Option.map_some, Option.some.injEq, List.map_cons, List.map_nil, List.prod_cons,
      List.prod_nil, List.map_map, Function.comp_def, prevNum, postNum]
    ring
  · rw [hcl] at hlen
    simp at hlen

/-- The lines of the cache are the lines of the sets. -/
theorem map_choices (m : Sim) {β : Type} (f : Nat → Nat → β) :
    (m.cache.cachelineDict.keys.map fun a => f (prevChoices m a) (postChoices m a)) =
      m.getCachelines.map fun cl => f (prevNum m.heap cl) (postNum m.heap cl) := by
  rw [Sim.getCachelines, Dict.values, Dict.keys, List.map_map, List.map_map]
  refine List.map_congr_left (fun x hx => ?_)
  have hline : m.line x.1 = x.2.storesList := Sim.line_of_get? (Dict.get?_eq_some.mpr hx)
  show f (prevChoices m x.1) (postChoices m x.1) = f (prevNum m.heap x.2) (postNum m.heap x.2)
  rw [prevChoices, postChoices, lineRegion, lineRegion, hline]
  rfl

/-- The number of crash states by the lines of the cache. -/
theorem card_crashStates_eq {issued : List Store} (h : Kept m issued) (hnd : issued.Nodup) :
    ((crashStates m issued).card : Int) =
      (m.getCachelines.map fun cl => (prevNum m.heap cl : Int) + (postNum m.heap cl - 1)).prod -
        (m.getCachelines.map fun cl => (prevNum m.heap cl : Int)).prod := by
  have hcard := card_crashStates h hnd
  rw [map_choices m fun x _ => x, map_choices m fun x y => x + (y - 1)] at hcard
  have hcast : ((m.getCachelines.map fun cl => prevNum m.heap cl + (postNum m.heap cl - 1)).prod :
      Int) = (m.getCachelines.map fun cl =>
        (prevNum m.heap cl : Int) + (postNum m.heap cl - 1)).prod := by
    rw [Nat.cast_list_prod, List.map_map]
    refine congrArg List.prod (List.map_congr_left (fun cl _ => ?_))
    have hpos : 1 ≤ postNum m.heap cl := one_le_slotChoices _
    show ((prevNum m.heap cl + (postNum m.heap cl - 1) : Nat) : Int) = _
    omega
  have hprev : ((m.getCachelines.map (prevNum m.heap)).prod : Int) =
      (m.getCachelines.map fun cl => (prevNum m.heap cl : Int)).prod := by
    rw [Nat.cast_list_prod, List.map_map]
    rfl
  rw [← hcast, ← hprev, ← hcard]
  push_cast
  ring

/-- The post-fence numbers of the lines without stores before the fence. -/
theorem count_postNum (m : Sim) :
    ((m.getCachelines.filter (noPrev m.heap)).map (postNum m.heap)).countP (· ≠ 1) =
        postOnlyLines m ∧
      ((m.getCachelines.filter (noPrev m.heap)).map (postNum m.heap)).count 1 = bareLines m := by
  have hone : ∀ cl, postNum m.heap cl = 1 ↔ noPost m.heap cl = true :=
    fun cl => slotChoices_eq_one_iff _
  constructor
  · rw [List.countP_map, List.countP_filter, postOnlyLines]
    refine List.countP_congr (fun cl _ => ?_)
    simp [hone, and_comm]
  · rw [List.count, List.countP_map, List.countP_filter, bareLines]
    refine List.countP_congr (fun cl _ => ?_)
    simp [hone, and_comm]

/-- At most one line has stores on both sides, and at most one only behind the fence; if there
is one, the lines without stores cancel out. -/
def ExactShape (m : Sim) : Prop :=
  dependentLines m ≤ 1 ∧ (postOnlyLines m = 0 ∨ postOnlyLines m = 1 ∧ Even (bareLines m))

instance (m : Sim) : Decidable (ExactShape m) := inferInstanceAs (Decidable (_ ∧ _))

theorem uncapped_exact_iff {issued : List Store} (h : Kept m issued) (hnd : issued.Nodup)
    (hdep : dependentLines m ≤ 1) :
    ∃ n, uncapped m = some n ∧ (n = (crashStates m issued).card ↔ ExactShape m) := by
  refine ⟨_, uncapped_eq h.filed hdep, ?_⟩
  have hpos : (m.getCachelines.map fun cl => (prevNum m.heap cl : Int)).prod ≠ 0 := by
    refine List.prod_ne_zero (fun h0 => ?_)
    obtain ⟨cl, -, hcl⟩ := List.mem_map.mp h0
    have : 1 ≤ prevNum m.heap cl := one_le_slotChoices _
    omega
  have hcast : ((m.getCachelines.filter (noPrev m.heap)).map fun cl =>
      (postNum m.heap cl : Int)).prod =
      (((m.getCachelines.filter (noPrev m.heap)).map (postNum m.heap)).prod : Nat) := by
    rw [Nat.cast_list_prod, List.map_map]
    rfl
  have hone : ∀ y ∈ (m.getCachelines.filter (noPrev m.heap)).map (postNum m.heap), 1 ≤ y := by
    intro y hy
    obtain ⟨cl, -, rfl⟩ := List.mem_map.mp hy
    exact one_le_slotChoices _
  have hsum := atLeastSum_exact_iff hone
  rw [(count_postNum m).1, (count_postNum m).2] at hsum
  rw [card_crashStates_eq h hnd, hcast, add_eq_left, mul_eq_zero, sub_eq_zero, hsum, ExactShape]
  simp [hpos, hdep]

end

/-- One line on both sides of the fence and one behind it. -/
def fencedLine : List CacheAct :=
  [.accept (.store ⟨0, 1, 0, 8⟩), .accept (.fence ⟨2⟩), .accept (.store ⟨1, 3, 0, 8⟩),
    .accept (.store ⟨2, 4, 64, 8⟩)]

/-- Stores in two lines, and a store with a flush of a line that has none. -/
def twoLines : List CacheAct :=
  [.accept (.store ⟨0, 1, 0, 8⟩), .accept (.store ⟨1, 2, 64, 8⟩)]

def flushOfOther : List CacheAct :=
  [.accept (.store ⟨0, 1, 0, 8⟩), .accept (.flush ⟨2, 64, 64⟩)]

end ReorderSimulator

end Cache
end Silhouette
