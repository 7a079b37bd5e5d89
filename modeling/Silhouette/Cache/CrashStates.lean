import Silhouette.Cache.ReorderSimulator
import Silhouette.Lib.ClosedSets

/-!
# The crash states of a cache

A crash state of the last two fence regions is a set of their stores that contains
something behind the last fence, the earlier stores of every slot, and all of a line
before the fence with anything of it behind.  `crashStates` are these sets in a cache, and
`card_crashStates` counts them line by line.
-/

namespace Silhouette
namespace Cache

open Lib Lib.Persist
open scoped List

/-! ## Caches that can be reached -/

inductive CacheAct where
  | accept (op : AtomicOp)
  | writeBackFlushing
  | writeBackPersisted

def Sim.act (m : Sim) : CacheAct → Option Sim
  | .accept op => m.accept op
  | .writeBackFlushing => some m.writeBackAllFlushingStores
  | .writeBackPersisted => some m.writeBackAllPersistedStores

/-- Start with an empty cache.  The store objects may have been through another one. -/
def Sim.actAll (h : Heap) (acts : List CacheAct) : Option Sim :=
  acts.foldlM Sim.act ⟨h, WitcherCache.new⟩

/-- The stores fed to the cache, in order. -/
def acceptedStores (acts : List CacheAct) : List Store :=
  acts.filterMap fun
    | .accept (.store s) => some s
    | _ => none

/-- The lines hold stores that were accepted, in their order. -/
structure Kept (m : Sim) (issued : List Store) : Prop where
  filed : m.WellFiled
  line : ∀ a, m.line a <+ issued.filter fun s => lineOf s.addr = a

theorem Kept.dropWhere {m : Sim} {issued : List Store} (h : Kept m issued) (p : StoreObj → Bool) :
    Kept (m.dropWhere p) issued where
  filed := Sim.wellFiled_dropWhere h.filed
  line := fun a => by
    rw [Sim.line_dropWhere]
    exact List.filter_sublist.trans (h.line a)

theorem Kept.act {m n : Sim} {issued : List Store} (h : Kept m issued) {a : CacheAct}
    (hn : m.act a = some n) : Kept n (issued ++ acceptedStores [a]) := by
  cases a with
  | writeBackFlushing =>
    rw [← Option.some.inj hn]
    show Kept _ (issued ++ [])
    rw [List.append_nil]
    exact h.dropWhere StoreObj.isFlushing
  | writeBackPersisted =>
    rw [← Option.some.inj hn]
    show Kept _ (issued ++ [])
    rw [List.append_nil]
    exact h.dropWhere StoreObj.isPersisted
  | accept op =>
    cases op with
    | store s =>
      change m.accept (.store s) = some n at hn
      rw [Sim.accept_store_eq h.filed] at hn
      split_ifs at hn
      rw [← Option.some.inj hn]
      refine ⟨Sim.wellFiled_putStore h.filed s, fun a => ?_⟩
      show _ <+ (issued ++ [s]).filter _
      rw [Sim.line_putStore, List.filter_append]
      by_cases ha : a = lineOf s.addr
      · rw [if_pos ha, List.filter_cons_of_pos (by simpa using ha.symm)]
        exact (h.line a).append (List.Sublist.refl _)
      · rw [if_neg ha]
        exact (h.line a).trans (List.sublist_append_left _ _)
    | flush f =>
      change m.accept (.flush f) = some n at hn
      rw [Sim.accept_flush_eq h.filed] at hn
      split_ifs at hn
      rw [← Option.some.inj hn]
      show Kept _ (issued ++ [])
      rw [List.append_nil]
      refine ⟨Sim.wellFiled_putFlush h.filed f, fun a => ?_⟩
      rw [Sim.line_putFlush]
      exact h.line a
    | fence g =>
      change m.accept (.fence g) = some n at hn
      rw [Sim.accept_fence_eq] at hn
      rw [← Option.some.inj hn]
      show Kept _ (issued ++ [])
      rw [List.append_nil]
      refine ⟨Sim.wellFiled_putFence h.filed g, fun a => ?_⟩
      rw [Sim.line_putFence]
      exact h.line a

theorem kept_of_actAll {h : Heap} {acts : List CacheAct} {m : Sim}
    (hm : Sim.actAll h acts = some m) : Kept m (acceptedStores acts) := by
  induction acts using List.reverseRecOn generalizing m with
  | nil =>
    rw [← Option.some.inj hm]
    exact ⟨fun a cl hcl => absurd hcl (by simp [WitcherCache.new]), fun a => List.Sublist.refl _⟩
  | append_singleton acts a ih =>
    rw [Sim.actAll, List.foldlM_append] at hm
    obtain ⟨m₁, hm₁, hm₂⟩ := Option.bind_eq_some_iff.mp hm
    have hstep : m₁.act a = some m := by simpa using hm₂
    rw [acceptedStores, List.filterMap_append]
    exact (ih hm₁).act hstep

/-! ## Crash states -/

/-- How many fences a store has seen. -/
def fenceCount (m : Sim) (s : Store) : Nat := (m.heap s.ref).fenceList.length

/-- The stores of the last two fence regions. -/
def recentStores (m : Sim) : Finset Store :=
  (m.getAllOps.filter fun s => fenceCount m s ≤ 1).toFinset

/-- `y` is not in persistent memory without `x`. -/
def NeededBy (m : Sim) (issued : List Store) (x y : Store) : Prop :=
  lineOf x.addr = lineOf y.addr ∧
    (fenceCount m x = fenceCount m y ∧ slotOf x = slotOf y ∧ [x, y] <+ issued ∨
      fenceCount m x = 1 ∧ fenceCount m y = 0)

instance (m : Sim) (issued : List Store) : DecidableRel (NeededBy m issued) :=
  fun _ _ => inferInstanceAs (Decidable (_ ∧ _))

def crashStates (m : Sim) (issued : List Store) : Finset (Finset Store) :=
  (closedSets (NeededBy m issued) (recentStores m)).filter fun P => ∃ s ∈ P, fenceCount m s = 0

/-- The stores of a line that saw exactly `n` fences. -/
def lineRegion (m : Sim) (n : Nat) (a : Int) : List Store :=
  (m.line a).filter fun s => fenceCount m s = n

section

variable {m : Sim} {issued : List Store}

theorem mem_lineRegion {n : Nat} {a : Int} {s : Store} :
    s ∈ lineRegion m n a ↔ s ∈ m.line a ∧ fenceCount m s = n := by
  rw [lineRegion, List.mem_filter, decide_eq_true_eq]

theorem Kept.lineOf_eq (h : Kept m issued) {a : Int} {s : Store} (hs : s ∈ m.line a) :
    lineOf s.addr = a :=
  of_decide_eq_true (List.mem_filter.mp ((h.line a).subset hs)).2

theorem Kept.lineRegion_sublist (h : Kept m issued) (n : Nat) (a : Int) :
    lineRegion m n a <+ issued :=
  (List.filter_sublist.trans (h.line a)).trans List.filter_sublist

/-- In one fence region every slot keeps a first segment of its stores. -/
theorem card_closedSets_lineRegion (h : Kept m issued) (hnd : issued.Nodup) (n : Nat) (a : Int) :
    (closedSets (NeededBy m issued) (lineRegion m n a).toFinset).card =
      ReorderCacheLine.slotChoices (lineRegion m n a) := by
  have hslots : (lineRegion m n a).toFinset = (List.range 8).toFinset.biUnion fun slot =>
      ((lineRegion m n a).filter fun s => slotOf s = slot).toFinset := by
    ext s
    simp only [Finset.mem_biUnion, List.mem_toFinset, List.mem_filter, List.mem_range,
      decide_eq_true_eq]
    constructor
    · intro hs
      have := ReorderCacheLine.slotOf_lt s
      exact ⟨(slotOf s).toNat, by omega, hs, by omega⟩
    · exact fun hs => hs.choose_spec.2.1
  have hchain : ∀ slot : Nat, (closedSets (NeededBy m issued)
      ((lineRegion m n a).filter fun s => slotOf s = slot).toFinset).card =
      (lineRegion m n a).countP (fun s => slotOf s = slot) + 1 := by
    intro slot
    have hsub : (lineRegion m n a).filter (fun s => slotOf s = slot) <+ issued :=
      List.filter_sublist.trans (h.lineRegion_sublist n a)
    rw [card_closedSets_ordered _ hnd hsub, List.countP_eq_length_filter]
    intro x hx y hy
    rw [List.mem_filter, decide_eq_true_eq, mem_lineRegion] at hx hy
    constructor
    · intro hr
      rcases hr.2 with ⟨-, -, hxy⟩ | ⟨h1, h0⟩
      · exact hxy
      · omega
    · intro hxy
      exact ⟨(h.lineOf_eq hx.1.1).trans (h.lineOf_eq hy.1.1).symm,
        Or.inl ⟨hx.1.2.trans hy.1.2.symm, hx.2.trans hy.2.symm, hxy⟩⟩
  rw [hslots, card_closedSets_biUnion]
  · rw [Finset.prod_congr rfl (fun slot _ => hchain slot),
      List.prod_toFinset _ List.nodup_range, ReorderCacheLine.slotChoices,
      ReorderCacheLine.atomicSlots, List.map_map]
    rfl
  · intro i _ j _ hij x hx y hy
    rw [List.mem_toFinset, List.mem_filter, decide_eq_true_eq, mem_lineRegion] at hx hy
    refine ⟨fun hxy => hij ?_, fun hr => ?_⟩
    · have := hx.2.symm.trans (hxy ▸ hy.2)
      omega
    · rcases hr.2 with ⟨-, hslot, -⟩ | ⟨h1, h0⟩
      · have := hx.2.symm.trans (hslot.trans hy.2)
        omega
      · omega

/-- The choices before the fence and behind it. -/
def prevChoices (m : Sim) (a : Int) : Nat := ReorderCacheLine.slotChoices (lineRegion m 1 a)

def postChoices (m : Sim) (a : Int) : Nat := ReorderCacheLine.slotChoices (lineRegion m 0 a)

/-- Something behind the fence comes with all of the line before it. -/
theorem card_closedSets_recentLine (h : Kept m issued) (hnd : issued.Nodup) (a : Int) :
    (closedSets (NeededBy m issued)
      ((lineRegion m 1 a).toFinset ∪ (lineRegion m 0 a).toFinset)).card =
      prevChoices m a + (postChoices m a - 1) := by
  rw [card_closedSets_layered, card_closedSets_lineRegion h hnd, card_closedSets_lineRegion h hnd]
  · rfl
  · refine Finset.disjoint_left.mpr (fun s h1 h0 => ?_)
    rw [List.mem_toFinset, mem_lineRegion] at h1 h0
    omega
  · intro x hx y hy
    rw [List.mem_toFinset, mem_lineRegion] at hx hy
    refine ⟨⟨(h.lineOf_eq hx.1).trans (h.lineOf_eq hy.1).symm, Or.inr ⟨hx.2, hy.2⟩⟩, fun hr => ?_⟩
    rcases hr.2 with ⟨heq, -, -⟩ | ⟨h1, h0⟩
    · omega
    · omega

theorem mem_recentStores {s : Store} :
    s ∈ recentStores m ↔ (∃ a, s ∈ m.line a) ∧ fenceCount m s ≤ 1 := by
  rw [recentStores, List.mem_toFinset, List.mem_filter, decide_eq_true_eq, Sim.mem_getAllOps]

theorem Kept.not_neededBy_of_line_ne (h : Kept m issued) {a b : Int} (hab : a ≠ b) {x y : Store}
    (hx : x ∈ m.line a) (hy : y ∈ m.line b) : x ≠ y ∧ ¬ NeededBy m issued x y := by
  have hne : lineOf x.addr ≠ lineOf y.addr := by
    rw [h.lineOf_eq hx, h.lineOf_eq hy]
    exact hab
  exact ⟨fun hxy => hne (by rw [hxy]), fun hr => hne hr.1⟩

/-- The lines are independent of each other. -/
theorem card_closedSets_recent (h : Kept m issued) (hnd : issued.Nodup) :
    (closedSets (NeededBy m issued) (recentStores m)).card =
      (m.cache.cachelineDict.keys.map fun a => prevChoices m a + (postChoices m a - 1)).prod := by
  have hlines : recentStores m = m.cache.cachelineDict.keys.toFinset.biUnion fun a =>
      (lineRegion m 1 a).toFinset ∪ (lineRegion m 0 a).toFinset := by
    ext s
    simp only [mem_recentStores, Finset.mem_biUnion, Finset.mem_union, List.mem_toFinset,
      mem_lineRegion]
    constructor
    · rintro ⟨⟨a, ha⟩, hle⟩
      refine ⟨a, Sim.mem_keys_of_mem_line ha, ?_⟩
      rcases Nat.le_one_iff_eq_zero_or_eq_one.mp hle with h0 | h1
      · exact Or.inr ⟨ha, h0⟩
      · exact Or.inl ⟨ha, h1⟩
    · rintro ⟨a, -, ⟨ha, h1⟩ | ⟨ha, h0⟩⟩
      · exact ⟨⟨a, ha⟩, by omega⟩
      · exact ⟨⟨a, ha⟩, by omega⟩
  rw [hlines, card_closedSets_biUnion, Finset.prod_congr rfl
    (fun a _ => card_closedSets_recentLine h hnd a), List.prod_toFinset _
    m.cache.cachelineDict.nodup_keys]
  intro a _ b _ hab x hx y hy
  simp only [Finset.mem_union, List.mem_toFinset, mem_lineRegion, ← and_or_left] at hx hy
  exact h.not_neededBy_of_line_ne hab hx.1 hy.1

/-- The closed sets with nothing behind the fence. -/
theorem card_closedSets_fenced (h : Kept m issued) (hnd : issued.Nodup) :
    ((closedSets (NeededBy m issued) (recentStores m)).filter
      fun P => ¬ ∃ s ∈ P, fenceCount m s = 0).card =
      (m.cache.cachelineDict.keys.map (prevChoices m)).prod := by
  have hsets : (closedSets (NeededBy m issued) (recentStores m)).filter
      (fun P => ¬ ∃ s ∈ P, fenceCount m s = 0) = closedSets (NeededBy m issued)
        (m.cache.cachelineDict.keys.toFinset.biUnion fun a => (lineRegion m 1 a).toFinset) := by
    have hmem : ∀ s, s ∈ (m.cache.cachelineDict.keys.toFinset.biUnion fun a =>
        (lineRegion m 1 a).toFinset) ↔ s ∈ recentStores m ∧ fenceCount m s ≠ 0 := by
      intro s
      simp only [mem_recentStores, Finset.mem_biUnion, List.mem_toFinset, mem_lineRegion]
      constructor
      · rintro ⟨a, -, ha, h1⟩
        exact ⟨⟨⟨a, ha⟩, by omega⟩, by omega⟩
      · rintro ⟨⟨⟨a, ha⟩, hle⟩, hne⟩
        exact ⟨a, Sim.mem_keys_of_mem_line ha, ha, by omega⟩
    ext P
    rw [Finset.mem_filter, mem_closedSets, mem_closedSets]
    constructor
    · rintro ⟨⟨hsub, hclosed⟩, hno⟩
      refine ⟨fun s hs => (hmem s).mpr ⟨hsub hs, fun h0 => hno ⟨s, hs, h0⟩⟩, ?_⟩
      exact fun y hy x hx => hclosed y hy x ((hmem x).mp hx).1
    · rintro ⟨hsub, hclosed⟩
      refine ⟨⟨fun s hs => ((hmem s).mp (hsub hs)).1, fun y hy x hx hr => ?_⟩, ?_⟩
      · -- a store before the fence needs nothing behind it
        have hy0 := ((hmem y).mp (hsub hy)).2
        refine hclosed y hy x ((hmem x).mpr ⟨hx, fun hx0 => ?_⟩) hr
        rcases hr.2 with ⟨heq, -, -⟩ | ⟨h1, h0⟩
        · omega
        · omega
      · rintro ⟨s, hs, h0⟩
        exact ((hmem s).mp (hsub hs)).2 h0
  rw [hsets, card_closedSets_biUnion, Finset.prod_congr rfl
    (fun a _ => card_closedSets_lineRegion h hnd 1 a), List.prod_toFinset _
    m.cache.cachelineDict.nodup_keys]
  · rfl
  · intro a _ b _ hab x hx y hy
    rw [List.mem_toFinset, mem_lineRegion] at hx hy
    exact h.not_neededBy_of_line_ne hab hx.1 hy.1

/-- The number of crash states. -/
theorem card_crashStates (h : Kept m issued) (hnd : issued.Nodup) :
    (crashStates m issued).card + (m.cache.cachelineDict.keys.map (prevChoices m)).prod =
      (m.cache.cachelineDict.keys.map fun a => prevChoices m a + (postChoices m a - 1)).prod := by
  rw [← card_closedSets_recent h hnd, ← card_closedSets_fenced h hnd, crashStates,
    Finset.card_filter_add_card_filter_not]

end

end Cache
end Silhouette
