import Silhouette.Cache.Residency
import Silhouette.CrashPlan.Entry
import Silhouette.Lib.ClosedSets

/-!
# The combination scheme

`CrashPlanSchemeComb`: one dummy plan at each fence that finds a store in the cache,
standing for all crash images that respect the store order of every line.
-/

namespace Silhouette
namespace CrashPlan

open Lib Lib.Persist Cache
open scoped List

namespace Comb

def numStoresInCacheLines (m : Sim) : List Nat :=
  m.getCachelines.map fun cl => cl.storesList.length

/-- The loop over all combinations of lines, of every length. -/
def numCombinations (nums : List Nat) : Nat :=
  (List.range (nums.length + 1)).foldl
    (fun n combinationLength =>
      (combinations nums combinationLength).foldl
        (fun n comb => if comb.length = 0 then n + 1 else n + comb.prod) n) 0

/-- Append the plan of one fence, when a store is in the cache. -/
def genCombAtFence (m : Sim) (cpEntryList : List CrashPlanEntry) : List CrashPlanEntry :=
  let allSeqs := m.getAllOps.map Store.seq
  if allSeqs.length = 0 then cpEntryList
  else
    cpEntryList ++ [
      { type := .dummy
        instructionId := -1
        startSeq := -1
        persistSeqs := allSeqs.toFinset
        expDataSeqs := {-1}
        info := "Comb"
        numCpEntries := numCombinations (numStoresInCacheLines m) }]

def step (st : Sim × List CrashPlanEntry) : AtomicOp → Option (Sim × List CrashPlanEntry)
  | .store s => (st.1.accept (.store s)).map fun n => (n, st.2)
  | .flush f => (st.1.accept (.flush f)).map fun n => (n, st.2)
  | .fence g =>
    let cpEntryList := genCombAtFence st.1 st.2
    (st.1.accept (.fence g)).map fun n =>
      (n.writeBackAllFlushingStores.writeBackAllPersistedStores, cpEntryList)

/-- The loop of `generate_crash_plans` over the atomic operations, whose objects are
as `h` has them. -/
def loop (h : Heap) (ops : List AtomicOp) : Option (Sim × List CrashPlanEntry) :=
  ops.foldlM step (⟨h, WitcherCache.new⟩, [])

/-- The plans for freshly converted atomic operations. -/
def generateCrashPlans (ops : List AtomicOp) : Option (List CrashPlanEntry) :=
  (loop Heap.fresh ops).map Prod.snd

end Comb

/-! ## The count -/

theorem foldl_add_eq {α : Type} (f : α → Nat) (l : List α) (n : Nat) :
    l.foldl (fun n x => n + f x) n = n + (l.map f).sum := by
  induction l generalizing n with
  | nil => simp
  | cons x rest ih => rw [List.foldl_cons, ih, List.map_cons, List.sum_cons, Nat.add_assoc]

/-- The sum over all combinations of lines is the product of the line sizes plus one. -/
theorem numCombinations_eq (nums : List Nat) :
    Comb.numCombinations nums = (nums.map (· + 1)).prod := by
  have hinner : ∀ (l : List (List Nat)) (n : Nat),
      l.foldl (fun n comb => if comb.length = 0 then n + 1 else n + comb.prod) n =
        n + (l.map List.prod).sum := by
    intro l n
    rw [← foldl_add_eq]
    congr 1
    funext k comb
    cases comb <;> simp
  have houter : Comb.numCombinations nums =
      (List.range (nums.length + 1)).foldl (fun n k => n + sumOfProducts nums k) 0 := by
    simp only [Comb.numCombinations, hinner, sumOfProducts]
  rw [houter, foldl_add_eq, Nat.zero_add, sum_sumOfProducts nums nums.length (le_refl _)]

/-- `x` and `y` go to one line, and `x` was issued first. -/
def issuedBefore (ops : List AtomicOp) (x y : Store) : Prop :=
  lineOf x.addr = lineOf y.addr ∧ [x, y] <+ stores ops

instance (ops : List AtomicOp) : DecidableRel (issuedBefore ops) :=
  fun _ _ => inferInstanceAs (Decidable (_ ∧ _))

section

variable {m : Sim} {ops : List AtomicOp}

/-- One line is a chain. -/
theorem card_closedSets_line (h : Resident m ops) (hf : Fresh ops) (a : Int) :
    (closedSets (issuedBefore ops) (m.line a).toFinset).card = (m.line a).length + 1 := by
  refine card_closedSets_ordered _ (List.Nodup.of_map _ hf) (h.line_sublist a) (fun x hx y hy => ?_)
  have hline := (h.mem_line_iff.mp hx).1.trans (h.mem_line_iff.mp hy).1.symm
  exact ⟨fun hxy => hxy.2, fun hxy => ⟨hline, hxy⟩⟩

theorem numStoresInCacheLines_eq (m : Sim) :
    Comb.numStoresInCacheLines m = m.cache.cachelineDict.keys.map fun a => (m.line a).length := by
  rw [Comb.numStoresInCacheLines, Sim.getCachelines, Dict.values, Dict.keys, List.map_map,
    List.map_map]
  refine List.map_congr_left (fun x hx => ?_)
  show _ = (m.line x.1).length
  rw [Sim.line_of_get? (Dict.get?_eq_some.mpr hx)]
  rfl

/-- The lines are independent of each other. -/
theorem card_closedSets_cache (h : Resident m ops) (hf : Fresh ops) :
    (closedSets (issuedBefore ops) m.getAllOps.toFinset).card =
      ((Comb.numStoresInCacheLines m).map (· + 1)).prod := by
  have hall : m.getAllOps.toFinset =
      m.cache.cachelineDict.keys.toFinset.biUnion fun a => (m.line a).toFinset := by
    ext s
    simp only [List.mem_toFinset, Finset.mem_biUnion]
    rw [Sim.mem_getAllOps]
    constructor
    · rintro ⟨a, ha⟩
      exact ⟨a, Sim.mem_keys_of_mem_line ha, ha⟩
    · rintro ⟨a, -, ha⟩
      exact ⟨a, ha⟩
  rw [hall, card_closedSets_biUnion, numStoresInCacheLines_eq, List.map_map,
    ← List.prod_toFinset _ m.cache.cachelineDict.nodup_keys]
  · refine Finset.prod_congr rfl (fun a _ => ?_)
    exact card_closedSets_line h hf a
  · intro a _ b _ hab x hx y hy
    rw [List.mem_toFinset] at hx hy
    have hxa := (h.mem_line_iff.mp hx).1
    have hyb := (h.mem_line_iff.mp hy).1
    refine ⟨fun e => hab ?_, fun hxy => hab ?_⟩
    · rw [← hxa, ← hyb, e]
    · rw [← hxa, ← hyb, hxy.1]

end

/-! ## The plans -/

/-- The events before each fence, in the order of the fences. -/
def fencePoints (ops : List AtomicOp) : List (List AtomicOp) :=
  (List.range (fences ops)).map fun c => beforeFence (c + 1) ops

/-- `s` was issued and no covering flush with a later fence followed it. -/
def NotYetDurable (ops : List AtomicOp) (s : Store) : Prop :=
  ∃ a b, ops = a ++ .store s :: b ∧ ¬ ∃ f g, f.covers s = true ∧ [.flush f, .fence g] <+ b

theorem notYetDurable_iff {ops : List AtomicOp} {s : Store} :
    NotYetDurable ops s ↔ ∃ p, (s, p) ∈ inFlight Flush.covers ops := by
  constructor
  · rintro ⟨a, b, heq, hd⟩
    refine ⟨phase Flush.covers s b, (mem_inFlight_iff _).mpr
      ⟨(mem_life_iff _).mpr ⟨a, b, heq, rfl⟩, ?_⟩⟩
    rw [Ne, phase_eq_durable_iff]
    exact hd
  · rintro ⟨p, hp⟩
    obtain ⟨hlife, hne⟩ := (mem_inFlight_iff _).mp hp
    obtain ⟨a, b, heq, rfl⟩ := (mem_life_iff _).mp hlife
    rw [Ne, phase_eq_durable_iff] at hne
    exact ⟨a, b, heq, hne⟩

/-- What the plan of a fence says about the stores that fence finds in flight. -/
def PlanAt (pre : List AtomicOp) (cp : CrashPlanEntry) : Prop :=
  ∃ live : Finset Store, (∀ s, s ∈ live ↔ NotYetDurable pre s) ∧
    cp.persistSeqs = live.image Store.seq ∧
    cp.numCpEntries = (closedSets (issuedBefore pre) live).card ∧
    cp.numCpEntries = ∏ a ∈ live.image fun s => lineOf s.addr,
      ((live.filter fun s => lineOf s.addr = a).card + 1)

section

variable {m : Sim} {ops : List AtomicOp}

/-- Lines without a store do not change the product. -/
theorem prod_lines (h : Resident m ops) (hf : Fresh ops) :
    ((Comb.numStoresInCacheLines m).map (· + 1)).prod =
      ∏ a ∈ m.getAllOps.toFinset.image fun s => lineOf s.addr,
        ((m.getAllOps.toFinset.filter fun s => lineOf s.addr = a).card + 1) := by
  have hline : ∀ a, (m.getAllOps.toFinset.filter fun s => lineOf s.addr = a).card =
      (m.line a).length := by
    intro a
    have hset : (m.getAllOps.toFinset.filter fun s => lineOf s.addr = a) = (m.line a).toFinset := by
      ext s
      rw [Finset.mem_filter, List.mem_toFinset, List.mem_toFinset, h.mem_line_iff,
        h.mem_getAllOps_iff]
      exact and_comm
    have hnd := (List.Nodup.of_map _ hf).sublist (h.line_sublist a)
    rw [hset, List.toFinset_card_of_nodup hnd]
  have hsub : (m.getAllOps.toFinset.image fun s => lineOf s.addr) ⊆
      m.cache.cachelineDict.keys.toFinset := by
    intro a ha
    obtain ⟨s, hs, rfl⟩ := Finset.mem_image.mp ha
    obtain ⟨b, hb⟩ := Sim.mem_getAllOps.mp (List.mem_toFinset.mp hs)
    rw [List.mem_toFinset, (h.mem_line_iff.mp hb).1]
    exact Sim.mem_keys_of_mem_line hb
  rw [numStoresInCacheLines_eq, List.map_map,
    ← List.prod_toFinset _ m.cache.cachelineDict.nodup_keys]
  have hone : ∀ a ∈ m.cache.cachelineDict.keys.toFinset,
      a ∉ (m.getAllOps.toFinset.image fun s => lineOf s.addr) →
      (m.getAllOps.toFinset.filter fun s => lineOf s.addr = a).card + 1 = 1 := by
    intro a _ ha
    have hnil : m.line a = [] := by
      refine List.eq_nil_iff_forall_not_mem.mpr (fun s hs => ha ?_)
      exact Finset.mem_image.mpr ⟨s, List.mem_toFinset.mpr (Sim.mem_getAllOps.mpr ⟨a, hs⟩),
        (h.mem_line_iff.mp hs).1⟩
    rw [hline a, hnil]
    rfl
  rw [Finset.prod_subset hsub hone]
  exact Finset.prod_congr rfl (fun a _ => by rw [hline a]; rfl)

/-- At a fence that finds a store, the plan counts the order-respecting choices. -/
theorem planAt_of_resident (h : Resident m ops) (hf : Fresh ops) {cp : CrashPlanEntry}
    (hseqs : cp.persistSeqs = (m.getAllOps.map Store.seq).toFinset)
    (hnum : cp.numCpEntries = Comb.numCombinations (Comb.numStoresInCacheLines m)) :
    PlanAt ops cp := by
  refine ⟨m.getAllOps.toFinset, fun s => ?_, ?_, ?_, ?_⟩
  · rw [List.mem_toFinset, h.mem_getAllOps_iff, notYetDurable_iff]
  · rw [hseqs]
    ext q
    simp
  · rw [hnum, numCombinations_eq, card_closedSets_cache h hf]
  · rw [hnum, numCombinations_eq, prod_lines h hf]

theorem genCombAtFence_eq (h : Resident m ops) (cps : List CrashPlanEntry) :
    (¬ (∃ s, NotYetDurable ops s) → Comb.genCombAtFence m cps = cps) ∧
      ((∃ s, NotYetDurable ops s) → Fresh ops →
        ∃ cp, Comb.genCombAtFence m cps = cps ++ [cp] ∧ PlanAt ops cp) := by
  have hlen : ((m.getAllOps.map Store.seq).length = 0) ↔ ¬ ∃ s, NotYetDurable ops s := by
    rw [List.length_map, List.length_eq_zero_iff, List.eq_nil_iff_forall_not_mem]
    constructor
    · rintro hno ⟨s, hs⟩
      exact hno s (h.mem_getAllOps_iff.mpr (notYetDurable_iff.mp hs))
    · intro hno s hs
      exact hno ⟨s, notYetDurable_iff.mpr (h.mem_getAllOps_iff.mp hs)⟩
  constructor
  · intro hno
    rw [Comb.genCombAtFence]
    simp only [hlen.mpr hno, if_true]
  · intro hex hf
    have hne : ¬ (m.getAllOps.map Store.seq).length = 0 := fun h0 => hlen.mp h0 hex
    rw [Comb.genCombAtFence]
    simp only [hne, if_false]
    exact ⟨_, rfl, planAt_of_resident h hf rfl rfl⟩

end

theorem fencePoints_store (ops : List AtomicOp) {op : AtomicOp} (hop : fences [op] = 0) :
    fencePoints (ops ++ [op]) = fencePoints ops := by
  have hc : fences (ops ++ [op]) = fences ops := by rw [fences_append, hop, Nat.add_zero]
  rw [fencePoints, fencePoints, hc]
  refine List.map_congr_left (fun c hc' => ?_)
  exact beforeFence_append (by omega) (List.mem_range.mp hc') _

theorem fencePoints_fence (ops : List AtomicOp) (g : Fence) :
    fencePoints (ops ++ [.fence g]) = fencePoints ops ++ [ops] := by
  have hc : fences (ops ++ [.fence g]) = fences ops + 1 := by rw [fences_append]; rfl
  rw [fencePoints, fencePoints, hc, List.range_succ, List.map_append]
  congr 1
  · refine List.map_congr_left (fun c hc' => ?_)
    exact beforeFence_append (by omega) (List.mem_range.mp hc') _
  · rw [List.map_singleton, beforeFence_eq rfl]

theorem loop_append_singleton (ops : List AtomicOp) (op : AtomicOp) :
    Comb.loop Heap.fresh (ops ++ [op]) =
      (Comb.loop Heap.fresh ops).bind fun st => Comb.step st op := by
  simp [Comb.loop, List.foldlM_append]

open Classical in
/-- A run over operations inside one line succeeds, with one plan for each fence that
finds a store not yet durable. -/
theorem loop_plans (ops : List AtomicOp) (hf : Fresh ops)
    (hops : ∀ op ∈ ops, inOneLine op = true) :
    ∃ m plans, Comb.loop Heap.fresh ops = some (m, plans) ∧ Resident m ops ∧
      List.Forall₂ PlanAt
        ((fencePoints ops).filter fun pre => decide (∃ s, NotYetDurable pre s)) plans := by
  induction ops using List.reverseRecOn with
  | nil => exact ⟨Sim.start, [], rfl, Resident.start, List.Forall₂.nil⟩
  | append_singleton ops op ih =>
    obtain ⟨m, plans, hm, hr, hplans⟩ := ih hf.left (fun o ho => hops o (List.mem_append_left _ ho))
    have hop := hops op (List.mem_append_right _ (List.mem_singleton_self op))
    rw [loop_append_singleton, hm]
    cases op with
    | store s =>
      refine ⟨m.putStore s, plans, ?_, hr.putStore hf, ?_⟩
      · show (m.accept (.store s)).map _ = _
        rw [Sim.accept_store_eq hr.filed, if_pos hop]
        rfl
      · rw [fencePoints_store ops rfl]
        exact hplans
    | flush f =>
      refine ⟨m.putFlush f, plans, ?_, hr.putFlush hf.left f, ?_⟩
      · show (m.accept (.flush f)).map _ = _
        rw [Sim.accept_flush_eq hr.filed, if_pos hop]
        rfl
      · rw [fencePoints_store ops rfl]
        exact hplans
    | fence g =>
      refine ⟨_, Comb.genCombAtFence m plans, rfl, hr.fence g, ?_⟩
      obtain ⟨hnone, hsome⟩ := genCombAtFence_eq hr plans
      rw [fencePoints_fence, List.filter_append]
      by_cases hex : ∃ s, NotYetDurable ops s
      · obtain ⟨cp, hcp, hplan⟩ := hsome hex hf.left
        have hkeep : [ops].filter (fun pre => decide (∃ s, NotYetDurable pre s)) = [ops] := by
          simp only [List.filter_cons, hex, decide_true, if_true, List.filter_nil]
        rw [hcp, hkeep]
        exact List.rel_append hplans (List.Forall₂.cons hplan List.Forall₂.nil)
      · have hdrop : [ops].filter (fun pre => decide (∃ s, NotYetDurable pre s)) = [] := by
          simp only [List.filter_cons, hex, decide_false, Bool.false_eq_true, if_false,
            List.filter_nil]
        rw [hnone hex, hdrop, List.append_nil]
        exact hplans

/-- An operation that leaves its line fails an assertion. -/
theorem loop_eq_none_iff (ops : List AtomicOp) (hf : Fresh ops) :
    Comb.loop Heap.fresh ops = none ↔ ∃ op ∈ ops, inOneLine op = false := by
  constructor
  · intro hnone
    by_contra hno
    have hops : ∀ op ∈ ops, inOneLine op = true := by
      intro op hop
      by_contra h
      exact hno ⟨op, hop, Bool.eq_false_iff.mpr h⟩
    obtain ⟨m, plans, hm, -⟩ := loop_plans ops hf hops
    rw [hm] at hnone
    exact absurd hnone (by simp)
  · induction ops using List.reverseRecOn with
    | nil => simp
    | append_singleton ops op ih =>
      rintro ⟨o, ho, hbad⟩
      rw [loop_append_singleton]
      by_cases hearly : ∃ o ∈ ops, inOneLine o = false
      · rw [ih hf.left hearly]
        rfl
      · have hops : ∀ o ∈ ops, inOneLine o = true := by
          intro o' ho'
          by_contra h
          exact hearly ⟨o', ho', Bool.eq_false_iff.mpr h⟩
        obtain ⟨m, plans, hm, hr, -⟩ := loop_plans ops hf.left hops
        rw [hm]
        have hoop : o = op := by
          rcases List.mem_append.mp ho with h | h
          · exact absurd (hops o h) (by simp [hbad])
          · exact List.mem_singleton.mp h
        subst hoop
        cases o with
        | store s =>
          show (m.accept (.store s)).map _ = _
          rw [Sim.accept_store_eq hr.filed, hbad]
          rfl
        | flush f =>
          show (m.accept (.flush f)).map _ = _
          rw [Sim.accept_flush_eq hr.filed, hbad]
          rfl
        | fence g => exact absurd hbad (by simp [inOneLine])

open Classical in
/-- The combination scheme emits one plan for exactly each fence at which some issued
store is not yet durable.  It raises exactly on operations that leave their line. -/
theorem comb_plans_exact (ops : List AtomicOp) (hf : Fresh ops) :
    (Comb.generateCrashPlans ops = none ↔ ∃ op ∈ ops, inOneLine op = false) ∧
      ∀ plans, Comb.generateCrashPlans ops = some plans →
        List.Forall₂ PlanAt
          ((fencePoints ops).filter fun pre => decide (∃ s, NotYetDurable pre s)) plans := by
  have hnone : Comb.generateCrashPlans ops = none ↔ ∃ op ∈ ops, inOneLine op = false := by
    rw [← loop_eq_none_iff ops hf, Comb.generateCrashPlans, Option.map_eq_none_iff]
  refine ⟨hnone, fun plans hplans => ?_⟩
  have hops : ∀ op ∈ ops, inOneLine op = true := by
    intro op hop
    by_contra h
    rw [hnone.mpr ⟨op, hop, Bool.eq_false_iff.mpr h⟩] at hplans
    exact absurd hplans (by simp)
  obtain ⟨m, plans', hm, -, hall⟩ := loop_plans ops hf hops
  rw [Comb.generateCrashPlans, hm] at hplans
  exact Option.some.inj hplans ▸ hall

open Classical in
/-- Three stores on two lines, the first line flushed: six choices at the first fence,
and two at the second, where the store of the other line is still in flight. -/
theorem comb_plans_exact_two_lines :
    let ops : List AtomicOp := [.store ⟨0, 1, 0, 8⟩, .store ⟨1, 2, 8, 8⟩, .store ⟨2, 3, 64, 8⟩,
      .flush ⟨4, 0, 64⟩, .fence ⟨5⟩, .fence ⟨6⟩]
    ∃ plans, Comb.generateCrashPlans ops = some plans ∧
      plans.map CrashPlanEntry.numCpEntries = [6, 2] ∧
      List.Forall₂ PlanAt
        ((fencePoints ops).filter fun pre => decide (∃ s, NotYetDurable pre s)) plans := by
  intro ops
  have hsome : (Comb.generateCrashPlans ops).map (List.map CrashPlanEntry.numCpEntries) =
      some [6, 2] := by decide
  obtain ⟨plans, hplans, hnum⟩ := Option.map_eq_some_iff.mp hsome
  exact ⟨plans, hplans, hnum, (comb_plans_exact ops (by decide)).2 plans hplans⟩

end CrashPlan
end Silhouette
