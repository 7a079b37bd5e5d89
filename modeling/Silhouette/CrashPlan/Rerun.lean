import Silhouette.CrashPlan.Comb
import Silhouette.OpTrace.Window
import Silhouette.Lib.Thinning
import Mathlib.Algebra.Order.BigOperators.Ring.Finset

/-!
# A second run over the same stores

`convert_atomic_ops` keeps the atomic operations of an entry once it has made them, and
the stores among them are objects.  The loop of `CrashPlanSchemeComb` behind the cache
analysis therefore runs over stores that are marked as flushed before the first one is
issued: a store that is ever flushed leaves the cache at the next fence.

`emits_fresh` and `emits_rerun` give the plans of both runs from what the cache holds at
each fence.
-/

namespace Silhouette
namespace CrashPlan

open Lib Lib.Persist Cache Trace OpTrace
open scoped List

/-- The atomic operations an entry keeps, with the objects of their stores. -/
structure KeptOps where
  atomicOpList : List AtomicOp
  heap : Heap

namespace KeptOps

/-- As the constructor of the entry leaves them. -/
def new : KeptOps := ⟨[], Heap.fresh⟩

section

variable (flags : ConvFlags) (sample : List RawOp → List RawOp) (op : OpTraceEntry)

/-- `convert_atomic_ops` without `force`. -/
def convertAtomicOps (k : KeptOps) : Option KeptOps :=
  if k.atomicOpList.length = 0 ∧ op.pmSeqEntryMap.items.length > 0 then
    (Cache.convertAtomicOps flags sample op).map fun ops => ⟨ops, Heap.fresh⟩
  else some k

/-- What `analysis_in_cache_run` leaves of a fresh entry. -/
def analysed : Option KeptOps := do
  let k ← new.convertAtomicOps flags sample op
  let r ← Analysis.run k.atomicOpList
  return { k with heap := r.sim.heap }

/-- `CrashPlanSchemeComb.generate_crash_plans`. -/
def generateCrashPlans (k : KeptOps) : Option (List CrashPlanEntry) := do
  let k ← k.convertAtomicOps flags sample op
  let r ← Comb.loop k.heap k.atomicOpList
  return r.2

end

end KeptOps

/-- What a plan of the scheme says; its other fields are the same in all of them. -/
def emitted (cp : CrashPlanEntry) : Finset Int × Nat := (cp.persistSeqs, cp.numCpEntries)

/-! ## Plans from the stores held -/

/-- The number of choices that keep the order of every line. -/
def lineProd (l : List StoreArgs) : Nat :=
  ∏ a ∈ (l.map fun w => lineOf w.addr).toFinset, (l.countP (fun w => lineOf w.addr = a) + 1)

/-- The plan at a fence that finds these stores. -/
def planOf (l : List StoreArgs) : Option (Finset Int × Nat) :=
  if l = [] then none else some ((l.map StoreArgs.seq).toFinset, lineProd l)

/-- Lines without a store add nothing. -/
theorem lineProd_eq_of_subset {l : List StoreArgs} {S : Finset Int}
    (hS : (l.map fun w => lineOf w.addr).toFinset ⊆ S) :
    lineProd l = ∏ a ∈ S, (l.countP (fun w => lineOf w.addr = a) + 1) := by
  refine Finset.prod_subset hS (fun a _ ha => ?_)
  have hzero : l.countP (fun w => lineOf w.addr = a) = 0 := by
    rw [List.countP_eq_zero]
    intro w hw hwa
    exact ha (List.mem_toFinset.mpr (List.mem_map.mpr ⟨w, hw, of_decide_eq_true hwa⟩))
  rw [hzero, Nat.zero_add]

/-- A store more means more choices. -/
theorem eq_of_lineProd_eq {l l' : List StoreArgs} (h : l <+ l') (hp : lineProd l = lineProd l') :
    l = l' := by
  let S := (l'.map fun w => lineOf w.addr).toFinset
  have hsub : (l.map fun w => lineOf w.addr).toFinset ⊆ S := by
    intro a ha
    rw [List.mem_toFinset] at ha ⊢
    exact (h.map _).subset ha
  have hle : ∀ a, l.countP (fun w => lineOf w.addr = a) ≤ l'.countP (fun w => lineOf w.addr = a) :=
    fun a => h.countP_le
  have hcount : ∀ a, l.countP (fun w => lineOf w.addr = a) =
      l'.countP (fun w => lineOf w.addr = a) := by
    intro a
    by_contra hne
    have hlt : l.countP (fun w => lineOf w.addr = a) < l'.countP (fun w => lineOf w.addr = a) :=
      lt_of_le_of_ne (hle a) hne
    have ha : a ∈ S := by
      obtain ⟨w, hw, hwa⟩ := List.countP_pos_iff.mp (Nat.zero_lt_of_lt hlt)
      exact List.mem_toFinset.mpr (List.mem_map.mpr ⟨w, hw, of_decide_eq_true hwa⟩)
    have hprod : lineProd l < lineProd l' := by
      rw [lineProd_eq_of_subset hsub, lineProd_eq_of_subset (Finset.Subset.refl S)]
      exact Finset.prod_lt_prod (fun b _ => Nat.succ_pos _)
        (fun b _ => Nat.add_le_add_right (hle b) 1) ⟨a, ha, Nat.add_lt_add_right hlt 1⟩
    exact absurd hp hprod.ne
  clear hp hsub hle
  induction h with
  | slnil => rfl
  | cons w h _ =>
    have hw := hcount (lineOf w.addr)
    have hle := h.countP_le (p := fun v => decide (lineOf v.addr = lineOf w.addr))
    rw [List.countP_cons] at hw
    simp only [decide_true, if_true] at hw
    omega
  | cons_cons w h ih =>
    refine congrArg _ (ih fun a => ?_)
    have ha := hcount a
    rw [List.countP_cons, List.countP_cons] at ha
    exact Nat.add_right_cancel ha

/-- Where one run holds no more than the other at every fence, the plans are the same
only if they hold the same. -/
theorem eq_of_filterMap_planOf_eq {ι : Type} {D F : ι → List StoreArgs} {cs : List ι}
    (hsub : ∀ c ∈ cs, D c <+ F c)
    (h : cs.filterMap (fun c => planOf (D c)) = cs.filterMap (fun c => planOf (F c))) :
    ∀ c ∈ cs, D c = F c := by
  have hlen : ∀ l : List ι, (∀ c ∈ l, D c <+ F c) →
      (l.filterMap fun c => planOf (D c)).length ≤ (l.filterMap fun c => planOf (F c)).length := by
    intro l hl
    rw [List.length_filterMap_eq_countP, List.length_filterMap_eq_countP]
    refine List.countP_mono_left (fun c hc hsome => ?_)
    by_cases hF : F c = []
    · have hD : D c = [] := List.sublist_nil.mp (hF ▸ hl c hc)
      simp [planOf, hD] at hsome
    · simp [planOf, hF]
  induction cs with
  | nil => simp
  | cons c rest ih =>
    have hc := hsub c List.mem_cons_self
    have hrest : ∀ c' ∈ rest, D c' <+ F c' := fun c' hc' => hsub c' (List.mem_cons_of_mem _ hc')
    by_cases hD : D c = []
    · by_cases hF : F c = []
      · have hDn : planOf (D c) = none := if_pos hD
        have hFn : planOf (F c) = none := if_pos hF
        rw [List.filterMap_cons, List.filterMap_cons, hDn, hFn] at h
        intro c' hc'
        rcases List.mem_cons.mp hc' with rfl | hc'
        · rw [hD, hF]
        · exact ih hrest h c' hc'
      · -- the larger run has a plan more
        have hDn : planOf (D c) = none := if_pos hD
        have hFs : planOf (F c) = some _ := if_neg hF
        have hl := congrArg List.length h
        rw [List.filterMap_cons, List.filterMap_cons, hDn, hFs] at hl
        simp only [List.length_cons] at hl
        have hle := hlen rest hrest
        omega
    · have hF : F c ≠ [] := fun hF => hD (List.sublist_nil.mp (hF ▸ hc))
      have hDs : planOf (D c) = some _ := if_neg hD
      have hFs : planOf (F c) = some _ := if_neg hF
      rw [List.filterMap_cons, List.filterMap_cons, hDs, hFs] at h
      obtain ⟨hhead, htail⟩ := List.cons.inj h
      intro c' hc'
      rcases List.mem_cons.mp hc' with rfl | hc'
      · exact eq_of_lineProd_eq hc (Prod.mk.inj hhead).2
      · exact ih hrest htail c' hc'

/-! ## Any run of the loop -/

theorem lines_eq {m : Sim} {l : List Store}
    (hl : ∀ a, m.line a = l.filter fun s => lineOf s.addr = a) {s : Store} :
    s ∈ m.getAllOps ↔ s ∈ l := by
  rw [Sim.mem_getAllOps]
  simp only [hl, List.mem_filter, decide_eq_true_eq]
  constructor
  · rintro ⟨a, hs, -⟩
    exact hs
  · exact fun hs => ⟨_, hs, rfl⟩

/-- The plan at a fence depends on the stores the lines hold. -/
theorem emitted_genCombAtFence {m : Sim} {l : List Store}
    (hl : ∀ a, m.line a = l.filter fun s => lineOf s.addr = a) (cps : List CrashPlanEntry) :
    (Comb.genCombAtFence m cps).map emitted =
      cps.map emitted ++ (planOf (l.map Store.args)).toList := by
  have hnil : m.getAllOps.length = 0 ↔ l = [] := by
    rw [List.length_eq_zero_iff, List.eq_nil_iff_forall_not_mem, List.eq_nil_iff_forall_not_mem]
    exact forall_congr' fun s => not_congr (lines_eq hl)
  have hseqs : (m.getAllOps.map Store.seq).toFinset =
      ((l.map Store.args).map StoreArgs.seq).toFinset := by
    ext q
    simp only [List.mem_toFinset, List.mem_map, lines_eq hl, exists_exists_and_eq_and]
    rfl
  have hnum : Comb.numCombinations (Comb.numStoresInCacheLines m) = lineProd (l.map Store.args) := by
    have hcount : ∀ a, (m.line a).length =
        (l.map Store.args).countP fun w => lineOf w.addr = a := by
      intro a
      rw [hl a, ← List.countP_eq_length_filter, List.countP_map]
      rfl
    have hkeys : ((l.map Store.args).map fun w => lineOf w.addr).toFinset ⊆
        m.cache.cachelineDict.keys.toFinset := by
      intro a ha
      rw [List.map_map, List.mem_toFinset, List.mem_map] at ha
      obtain ⟨s, hs, rfl⟩ := ha
      have hmem : s ∈ m.line (lineOf s.addr) := by
        rw [hl]
        exact List.mem_filter.mpr ⟨hs, decide_eq_true rfl⟩
      exact List.mem_toFinset.mpr (Sim.mem_keys_of_mem_line hmem)
    rw [numCombinations_eq, numStoresInCacheLines_eq, List.map_map,
      ← List.prod_toFinset _ m.cache.cachelineDict.nodup_keys, lineProd_eq_of_subset hkeys]
    exact Finset.prod_congr rfl fun a _ => congrArg (· + 1) (hcount a)
  rw [Comb.genCombAtFence]
  by_cases h0 : l = []
  · have hlen : (m.getAllOps.map Store.seq).length = 0 := by
      rw [List.length_map]
      exact hnil.mpr h0
    simp [hlen, planOf, h0]
  · have hlen : ¬ (m.getAllOps.map Store.seq).length = 0 := by
      rw [List.length_map]
      exact fun h => h0 (hnil.mp h)
    have hne : l.map Store.args ≠ [] := by simpa using h0
    simp only [hlen, if_false, planOf, hne, List.map_append, List.map_cons, List.map_nil, emitted,
      hseqs, hnum, Option.toList_some]

theorem step_eq_driveOp (m : Sim) (cps : List CrashPlanEntry) (op : AtomicOp) :
    Comb.step (m, cps) op = (m.driveOp op).map fun n =>
      (n, match op with | .fence _ => Comb.genCombAtFence m cps | _ => cps) := by
  cases op with
  | store s => rfl
  | flush f => rfl
  | fence g => rfl

/-- A run whose cache holds `hold` of what it has seen emits the plans of these. -/
theorem loop_emits {whole : List AtomicOp} {h : Heap} (Inv : Sim → List AtomicOp → Prop)
    {hold : List AtomicOp → List Store} (hstart : Inv ⟨h, WitcherCache.new⟩ [])
    (hline : ∀ m pre, Inv m pre → ∀ a, m.line a = (hold pre).filter fun s => lineOf s.addr = a)
    (hstep : ∀ m pre op, pre ++ [op] <+: whole → Inv m pre →
      ∃ n, m.driveOp op = some n ∧ Inv n (pre ++ [op])) :
    ∃ m plans, Comb.loop h whole = some (m, plans) ∧ plans.map emitted =
      (fencePoints whole).filterMap fun pre => planOf ((hold pre).map Store.args) := by
  suffices hpre : ∀ pre, pre <+: whole → ∃ m plans, Comb.loop h pre = some (m, plans) ∧
      Inv m pre ∧ plans.map emitted =
        (fencePoints pre).filterMap fun pre => planOf ((hold pre).map Store.args) by
    obtain ⟨m, plans, hm, -, hplans⟩ := hpre whole List.prefix_rfl
    exact ⟨m, plans, hm, hplans⟩
  intro pre
  induction pre using List.reverseRecOn with
  | nil => exact fun _ => ⟨_, [], rfl, hstart, rfl⟩
  | append_singleton pre op ih =>
    intro hpre
    obtain ⟨m, plans, hm, hinv, hplans⟩ := ih ((List.prefix_append pre [op]).trans hpre)
    obtain ⟨n, hn, hinv'⟩ := hstep m pre op hpre hinv
    have hloop : Comb.loop h (pre ++ [op]) = (Comb.loop h pre).bind fun st => Comb.step st op := by
      simp [Comb.loop, List.foldlM_append]
    rw [hloop, hm, Option.bind_some, step_eq_driveOp, hn, Option.map_some]
    refine ⟨n, _, rfl, hinv', ?_⟩
    cases op with
    | store s => rw [fencePoints_store pre rfl]; exact hplans
    | flush f => rw [fencePoints_store pre rfl]; exact hplans
    | fence g =>
      rw [fencePoints_fence, List.filterMap_append, ← hplans,
        emitted_genCombAtFence (hline m pre hinv)]
      cases hp : planOf ((hold pre).map Store.args) <;> simp [hp]

/-- The first run holds what is in flight. -/
theorem emits_fresh {ops : List AtomicOp} (hf : Fresh ops)
    (hops : ∀ op ∈ ops, inOneLine op = true) :
    ∃ m plans, Comb.loop Heap.fresh ops = some (m, plans) ∧ plans.map emitted =
      (fencePoints ops).filterMap fun pre =>
        planOf (((inFlight Flush.covers pre).map Prod.fst).map Store.args) := by
  refine loop_emits Resident Resident.start (fun m pre hr a => ?_)
    (fun m pre op hpre hr => ?_)
  · rw [hr.line a, inFlightIn, List.filter_map]
    rfl
  · obtain ⟨rest, rfl⟩ := hpre
    exact hr.driveOp hf.left (hops op (by simp))

/-! ## What the analysis leaves on the objects -/

/-- An object that has left the volatile state does not return to it. -/
theorem step_state_ne_volatile {a b : Analysis} {ops : List AtomicOp} (h : LoopInv a ops)
    {op : AtomicOp} (hs : a.step op = some b) {r : Nat}
    (hr : (a.sim.heap r).state ≠ .volatile) : (b.sim.heap r).state ≠ .volatile := by
  cases op with
  | store s =>
    rw [Analysis.step, Sim.accept_store_eq h.tracks.filed] at hs
    split_ifs at hs
    · rw [← Option.some.inj hs]
      exact hr
    · simp at hs
  | flush f =>
    rw [Analysis.step, Sim.accept_flush_eq h.tracks.filed] at hs
    split_ifs at hs
    · rw [← Option.some.inj hs]
      show ((a.sim.putFlush f).heap r).state ≠ .volatile
      rw [Sim.heap_putFlush, state_modifyAll_flush]
      split_ifs
      · simp
      · exact hr
    · simp at hs
  | fence g =>
    simp only [Analysis.step, Option.bind_eq_bind, Option.bind_eq_some_iff] at hs
    obtain ⟨c, hc, m, hm, hb⟩ := hs
    obtain ⟨nums, -, rfl⟩ := Option.map_eq_some_iff.mp hc
    rw [← Option.some.inj hb]
    show (m.heap r).state ≠ .volatile
    obtain ⟨n, hn, rfl⟩ := Option.map_eq_some_iff.mp hm
    show (n.heap r).state ≠ .volatile
    have hn' : a.sim.accept (Analysis.fenceOp a.sim g) = some n := hn
    rw [Analysis.fenceOp] at hn'
    cases hl : a.sim.getInFightOps.getLast? with
    | none =>
      rw [hl] at hn'
      rw [← Option.some.inj hn']
      show ((a.sim.putFence g).heap r).state ≠ .volatile
      rw [Sim.heap_putFence, state_modifyAll_fence]
      split_ifs
      · simp
      · exact hr
    | some s =>
      rw [hl] at hn'
      simp only [Sim.accept_store_eq h.tracks.filed] at hn'
      split_ifs at hn'
      rw [← Option.some.inj hn']
      exact hr

/-- The objects of the stores that were flushed are marked, whether they are still in the
cache or not. -/
def Marked (h : Heap) (ops : List AtomicOp) : Prop :=
  ∀ x ∈ life Flush.covers ops, (h x.1.ref).state = .volatile ↔ x.2 = .volatile

theorem marked_of_loop {ops : List AtomicOp} (hf : Fresh ops) {a : Analysis}
    (h : Analysis.loop ops = some a) : Marked a.sim.heap ops := by
  induction ops using List.reverseRecOn generalizing a with
  | nil => exact fun x hx => absurd hx List.not_mem_nil
  | append_singleton ops op ih =>
    have hinv := loopInv_of_loop hf h
    rw [Analysis.loop_append_singleton, Option.bind_eq_some_iff] at h
    obtain ⟨b, hb, hstep⟩ := h
    rintro ⟨s, p⟩ hx
    by_cases hp : p = .durable
    · -- a durable store was flushed before this operation
      subst hp
      rw [life_append_singleton, List.mem_append] at hx
      have hne : (b.sim.heap s.ref).state ≠ .volatile := by
        rcases hx with hx | hx
        · obtain ⟨⟨t, q⟩, hq, heq⟩ := List.mem_map.mp hx
          obtain ⟨rfl, hph⟩ := Prod.mk.inj heq
          have hqv : q ≠ .volatile := by
            rintro rfl
            cases op with
            | store u => simp [Phase.step] at hph
            | fence g => simp [Phase.step] at hph
            | flush f =>
              simp only [Phase.step, true_and] at hph
              split_ifs at hph
          exact fun hv => hqv ((ih hf.left hb (t, q) hq).mp hv)
        · cases op <;> simp [life, phase] at hx
      constructor
      · exact fun hv => absurd hv (step_state_ne_volatile (loopInv_of_loop hf.left hb) hstep hne)
      · exact fun hv => absurd hv (by simp)
    · rw [hinv.tracks.state (s, p) ((mem_inFlight_iff _).mpr ⟨hx, hp⟩)]
      cases p <;> simp [stateOf]

theorem marked_of_run {ops : List AtomicOp} (hf : Fresh ops) {r : Analysis}
    (h : Analysis.run ops = some r) : Marked r.sim.heap ops := by
  obtain ⟨a, ha, hr⟩ := Option.bind_eq_some_iff.mp h
  have hheap : r.sim.heap = a.sim.heap := by
    simp only [Analysis.finish, Option.bind_eq_bind, Option.bind_eq_some_iff] at hr
    obtain ⟨b, hb, hr⟩ := hr
    obtain ⟨nums, -, rfl⟩ := Option.map_eq_some_iff.mp hb
    rw [← Option.some.inj hr]
    rfl
  rw [hheap]
  exact marked_of_loop hf ha

/-! ## The second run -/

/-- What one operation of the second run does to the stores held: a fence drops the ones
that `whole` flushes at some point. -/
def heldStep (whole : List AtomicOp) (l : List Store) : AtomicOp → List Store
  | .store s => l ++ [s]
  | .flush _ => l
  | .fence _ => l.filter fun s => (s, Phase.volatile) ∈ life Flush.covers whole

def held (whole ops : List AtomicOp) : List Store := ops.foldl (heldStep whole) []

theorem held_append_singleton (whole ops : List AtomicOp) (op : AtomicOp) :
    held whole (ops ++ [op]) = heldStep whole (held whole ops) op := by
  rw [held, List.foldl_append]
  rfl

theorem mem_stores_of_mem_held {whole ops : List AtomicOp} {s : Store} (h : s ∈ held whole ops) :
    s ∈ stores ops := by
  induction ops using List.reverseRecOn with
  | nil => exact absurd h List.not_mem_nil
  | append_singleton ops op ih =>
    rw [held_append_singleton] at h
    rw [stores_append, List.mem_append]
    cases op with
    | store t =>
      rcases List.mem_append.mp h with h | h
      · exact Or.inl (ih h)
      · exact Or.inr h
    | flush f => exact Or.inl (ih h)
    | fence g => exact Or.inl (ih (List.mem_filter.mp h).1)

/-- The cache of the second run, and the marks it never takes back. -/
structure Rerun (whole : List AtomicOp) (m : Sim) (ops : List AtomicOp) : Prop where
  filed : m.WellFiled
  line : ∀ a, m.line a = (held whole ops).filter fun s => lineOf s.addr = a
  marked : Marked m.heap whole

namespace Rerun

variable {whole ops : List AtomicOp} {m : Sim}

theorem mem_line (h : Rerun whole m ops) {s : Store} {a : Int} :
    s ∈ m.line a ↔ s ∈ held whole ops ∧ lineOf s.addr = a := by
  rw [h.line a, List.mem_filter, decide_eq_true_eq]

theorem putStore (h : Rerun whole m ops) (s : Store) :
    Rerun whole (m.putStore s) (ops ++ [.store s]) where
  filed := Sim.wellFiled_putStore h.filed s
  line := by
    intro a
    rw [Sim.line_putStore, held_append_singleton, heldStep, List.filter_append, h.line a]
    by_cases ha : a = lineOf s.addr
    · simp [ha]
    · simp [ha, Ne.symm ha]
  marked := h.marked

/-- A flush marks stores that the first run marked already. -/
theorem putFlush (hf : Fresh whole) (h : Rerun whole m ops) {f : Flush}
    (hpre : ops ++ [.flush f] <+: whole) : Rerun whole (m.putFlush f) (ops ++ [.flush f]) where
  filed := Sim.wellFiled_putFlush h.filed f
  line := by
    intro a
    rw [Sim.line_putFlush, held_append_singleton, h.line a]
    rfl
  marked := by
    rintro ⟨s, p⟩ hx
    obtain ⟨rest, hwhole⟩ := hpre
    have hissued : ∀ t ∈ (m.line (lineOf f.addr)).filter f.contains, t ∈ stores whole := by
      intro t ht
      have hheld := (h.mem_line.mp (List.mem_filter.mp ht).1).1
      rw [← hwhole, stores_append, stores_append]
      exact List.mem_append_left _ (List.mem_append_left _ (mem_stores_of_mem_held hheld))
    have hs : s ∈ stores whole := by
      rw [← map_fst_life Flush.covers]
      exact List.mem_map_of_mem hx
    rw [Sim.heap_putFlush, state_modifyAll_flush]
    by_cases hmem : s.ref ∈ ((m.line (lineOf f.addr)).filter f.contains).map Store.ref
    · rw [if_pos hmem]
      rw [hf.ref_mem_iff hs hissued, List.mem_filter, h.mem_line] at hmem
      obtain ⟨⟨hheld, hl⟩, hc⟩ := hmem
      have hcov : f.covers s = true := by
        simp only [Flush.covers, Bool.decide_and, Bool.decide_eq_true, Bool.and_eq_true,
          decide_eq_true_eq]
        exact ⟨hl.symm, hc⟩
      obtain ⟨u, v, huv⟩ := List.append_of_mem (store_mem_iff.mp (mem_stores_of_mem_held hheld))
      have hcut : whole = u ++ .store s :: (v ++ .flush f :: rest) := by
        rw [← hwhole, huv]
        simp
      have hpv : p ≠ .volatile := by
        rw [life_unique hf hx ((mem_life_iff _).mpr ⟨u, _, hcut, rfl⟩), phase_ne_volatile_iff]
        exact ⟨f, by simp, hcov⟩
      simp [hpv]
    · rw [if_neg hmem]
      exact h.marked (s, p) hx

theorem fence (hf : Fresh whole) (h : Rerun whole m ops) (g : Fence)
    (hpre : ops ++ [.fence g] <+: whole) :
    Rerun whole (m.putFence g).writeBackAllFlushingStores.writeBackAllPersistedStores
      (ops ++ [.fence g]) := by
  have hstate : ∀ r, ((m.putFence g).heap r).state = .volatile ↔ (m.heap r).state = .volatile := by
    intro r
    rw [Sim.heap_putFence, state_modifyAll_fence]
    split_ifs with hr
    · simp [hr.2]
    · exact Iff.rfl
  obtain ⟨rest, hwhole⟩ := hpre
  exact {
    filed := Sim.wellFiled_dropWhere (Sim.wellFiled_dropWhere (Sim.wellFiled_putFence h.filed g))
    line := by
      intro a
      rw [Sim.line_writeBacks, Sim.line_putFence, h.line a, held_append_singleton, heldStep,
        List.filter_filter, List.filter_filter]
      refine List.filter_congr (fun s hs => ?_)
      have hissued : s ∈ stores whole := by
        rw [← hwhole, stores_append, stores_append]
        exact List.mem_append_left _ (List.mem_append_left _ (mem_stores_of_mem_held hs))
      obtain ⟨⟨s', p⟩, hx, rfl⟩ := List.mem_map.mp (map_fst_life Flush.covers whole ▸ hissued)
      have hvol : (s', Phase.volatile) ∈ life Flush.covers whole ↔ p = .volatile := by
        constructor
        · exact fun hv => life_unique hf hx hv
        · rintro rfl
          exact hx
      simp only [hstate, hvol, h.marked (s', p) hx, Bool.and_comm]
    marked := fun x hx => (hstate _).trans (h.marked x hx) }

end Rerun

/-- The second run holds the stores issued since the last fence and those that are never
flushed. -/
theorem emits_rerun {ops : List AtomicOp} (hf : Fresh ops)
    (hops : ∀ op ∈ ops, inOneLine op = true) {h : Heap} (hmarked : Marked h ops) :
    ∃ m plans, Comb.loop h ops = some (m, plans) ∧ plans.map emitted =
      (fencePoints ops).filterMap fun pre => planOf ((held ops pre).map Store.args) := by
  refine loop_emits (Rerun ops) ?_ (fun m pre hr => hr.line) (fun m pre op hpre hr => ?_)
  · exact ⟨fun _ _ h => absurd h (by simp [WitcherCache.new]), fun _ => rfl, hmarked⟩
  · have hop : inOneLine op = true := hops op (hpre.subset (by simp))
    cases op with
    | store s =>
      refine ⟨m.putStore s, ?_, hr.putStore s⟩
      rw [Sim.driveOp, Sim.accept_store_eq hr.filed, if_pos hop]
    | flush f =>
      refine ⟨m.putFlush f, ?_, hr.putFlush hf hpre⟩
      rw [Sim.driveOp, Sim.accept_flush_eq hr.filed, if_pos hop]
    | fence g => exact ⟨_, rfl, hr.fence hf g hpre⟩

/-! ## Flushed in time -/

/-- A store with two fences behind it that is flushed at all is flushed before the first
of them. -/
def InTime {σ φ ψ : Type} (covers : φ → σ → Bool) (ops : List (Event σ φ ψ)) : Prop :=
  ∀ a s b, ops = a ++ .store s :: b → 2 ≤ fences b → (∃ f, .flush f ∈ b ∧ covers f s = true) →
    ∃ f, .flush f ∈ beforeFence 1 b ∧ covers f s = true

theorem mem_fencePoints {ops pre : List AtomicOp} :
    pre ∈ fencePoints ops ↔ ∃ g post, ops = pre ++ .fence g :: post := by
  simp only [fencePoints, List.mem_map, List.mem_range]
  constructor
  · rintro ⟨c, hc, rfl⟩
    obtain ⟨pre, g, post, rfl, hp⟩ := exists_cut (c := c + 1) (by omega) hc
    exact ⟨g, post, by rw [beforeFence_eq hp]⟩
  · rintro ⟨g, post, rfl⟩
    refine ⟨fences pre, ?_, beforeFence_eq rfl⟩
    rw [fences_append]
    simp only [fences]
    omega

section

variable {whole : List AtomicOp}

theorem held_sublist (hf : Fresh whole) {pre : List AtomicOp} (hpre : pre <+: whole) :
    held whole pre <+ (inFlight Flush.covers pre).map Prod.fst := by
  induction pre using List.reverseRecOn with
  | nil => exact .slnil
  | append_singleton pre op ih =>
    have hsub := ih ((List.prefix_append pre [op]).trans hpre)
    rw [held_append_singleton]
    cases op with
    | store s =>
      rw [inFlight_store, List.map_append]
      exact hsub.append (.refl _)
    | flush f =>
      rw [inFlight_flush, List.map_map]
      exact hsub
    | fence g =>
      rw [inFlight_fence, heldStep]
      refine (hsub.filter _).trans ?_
      rw [List.filter_map]
      refine List.Sublist.map _ ?_
      -- what is never flushed in the whole run is not flushed yet
      have himp : ∀ x ∈ inFlight Flush.covers pre,
          (x.1, Phase.volatile) ∈ life Flush.covers whole → x.2 = .volatile := by
        rintro ⟨s, p⟩ hx hv
        obtain ⟨rest, hwhole⟩ := hpre
        obtain ⟨a, b, rfl, rfl⟩ := (mem_life_iff _).mp ((mem_inFlight_iff _).mp hx).1
        have hlife : (s, phase Flush.covers s (b ++ [.fence g] ++ rest)) ∈
            life Flush.covers whole :=
          (mem_life_iff _).mpr ⟨a, _, by rw [← hwhole]; simp, rfl⟩
        by_contra hne
        obtain ⟨f, hfl, hc⟩ := (phase_ne_volatile_iff _).mp hne
        refine (phase_ne_volatile_iff _).mpr ⟨f, ?_, hc⟩ (life_unique hf hlife hv)
        exact List.mem_append_left _ (List.mem_append_left _ hfl)
      have hfilter : (inFlight Flush.covers pre).filter
            ((fun s => decide ((s, Phase.volatile) ∈ life Flush.covers whole)) ∘ Prod.fst) =
          ((inFlight Flush.covers pre).filter fun x => x.2 = .volatile).filter
            ((fun s => decide ((s, Phase.volatile) ∈ life Flush.covers whole)) ∘ Prod.fst) := by
        rw [List.filter_filter]
        refine List.filter_congr (fun x hx => ?_)
        by_cases hv : (x.1, Phase.volatile) ∈ life Flush.covers whole
        · simp [hv, himp x hx hv]
        · simp [hv]
      rw [hfilter]
      exact List.filter_sublist

/-- A store is held up to the next fence, and for ever if nothing flushes it. -/
theorem mem_held_iff {a b : List AtomicOp} {s : Store} (hf : Fresh (a ++ .store s :: b)) :
    s ∈ held whole (a ++ .store s :: b) ↔
      fences b = 0 ∨ (s, .volatile) ∈ life Flush.covers whole := by
  induction b using List.reverseRecOn with
  | nil => simp [held_append_singleton, heldStep, fences]
  | append_singleton b op ih =>
    rw [← List.cons_append, ← List.append_assoc] at hf ⊢
    rw [held_append_singleton, fences_append]
    have ih := ih hf.left
    cases op with
    | store t =>
      have hst : s ≠ t := by
        rintro rfl
        have hnd := Fresh.nodup_stores hf
        rw [stores_append, List.nodup_append] at hnd
        exact hnd.2.2 s (by simp [stores_append, stores]) s (by simp [stores]) rfl
      rw [heldStep, List.mem_append, ih, List.mem_singleton]
      simp [hst, fences]
    | flush f => exact ih
    | fence g =>
      rw [heldStep, List.mem_filter, ih, decide_eq_true_eq]
      simp only [fences, Nat.add_eq_zero_iff, one_ne_zero, and_false, false_or, and_iff_right_iff_imp]
      exact Or.inr

/-- The two runs hold the same at every fence exactly when no store is flushed late. -/
theorem held_eq_iff (hf : Fresh whole) :
    (∀ pre ∈ fencePoints whole, held whole pre = (inFlight Flush.covers pre).map Prod.fst) ↔
      InTime Flush.covers whole := by
  constructor
  · intro heq a s b hwhole h2 hfl
    by_contra hno
    -- at the second fence the first run still holds the store
    obtain ⟨b₁, g, b₂, rfl, hb₁⟩ := exists_cut (c := 2) (by omega) h2
    have hpre : a ++ .store s :: b₁ ∈ fencePoints whole :=
      mem_fencePoints.mpr ⟨g, b₂, by rw [hwhole]; simp⟩
    have hfirst : beforeFence 1 (b₁ ++ .fence g :: b₂) = beforeFence 1 b₁ :=
      beforeFence_append (by omega) (by omega) _
    have hflight : s ∈ (inFlight Flush.covers (a ++ .store s :: b₁)).map Prod.fst := by
      refine List.mem_map.mpr ⟨(s, phase Flush.covers s b₁), (mem_inFlight_iff _).mpr
        ⟨(mem_life_iff _).mpr ⟨a, b₁, rfl, rfl⟩, ?_⟩, rfl⟩
      exact fun hd => hno (hfirst ▸ flush_beforeFence_of_durable _ (by omega) hd)
    rw [← heq _ hpre, mem_held_iff (by
      rw [hwhole, ← List.cons_append, ← List.append_assoc] at hf
      exact hf.left)] at hflight
    rcases hflight with h0 | hv
    · omega
    · obtain ⟨f, hfmem, hc⟩ := hfl
      have hlife := (mem_life_iff Flush.covers).mpr ⟨a, _, hwhole, rfl⟩
      exact (phase_ne_volatile_iff _).mpr ⟨f, hfmem, hc⟩ (life_unique hf hlife hv)
  · intro htime pre hpre
    obtain ⟨g, post, hwhole⟩ := mem_fencePoints.mp hpre
    have hprefix : pre <+: whole := ⟨_, hwhole.symm⟩
    have hfpre : Fresh pre := by
      rw [hwhole] at hf
      exact hf.left
    refine (held_sublist hf hprefix).eq_of_length_le ?_
    refine (List.Nodup.subperm hfpre.nodup_inFlight (fun s hs => ?_)).length_le
    obtain ⟨⟨s', p⟩, hp, rfl⟩ := List.mem_map.mp hs
    obtain ⟨hlife, hnd⟩ := (mem_inFlight_iff _).mp hp
    obtain ⟨a, b, rfl, rfl⟩ := (mem_life_iff _).mp hlife
    rw [mem_held_iff hfpre]
    by_contra hno
    rw [not_or] at hno
    have hcut : whole = a ++ .store s' :: (b ++ .fence g :: post) := by rw [hwhole]; simp
    have hwl := (mem_life_iff Flush.covers).mpr ⟨a, _, hcut, rfl⟩
    have hfl : ∃ f, .flush f ∈ b ++ .fence g :: post ∧ Flush.covers f s' = true := by
      refine (phase_ne_volatile_iff _).mp (fun hv => hno.2 ?_)
      rw [hv] at hwl
      exact hwl
    have hearly := htime a s' _ hcut (by rw [fences_append]; simp only [fences]; omega) hfl
    rw [beforeFence_append (by omega) (by omega)] at hearly
    exact hnd (durable_of_flush_beforeFence _ (by omega) hearly)

end

end CrashPlan
end Silhouette
