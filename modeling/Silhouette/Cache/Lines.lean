import Silhouette.Cache.WitcherCache

/-!
# What each cache operation does to the lines

One lemma for each operation of `WitcherCache`, in terms of the store list of every
line and of the heap.  The simulations of the two fence loops use these and never
unfold the operations.
-/

namespace Silhouette
namespace Cache

open Lib Lib.Persist

/-! ## Object states under the flush and fence loops -/

theorem state_iterate_acceptFlush (f : Flush) (n : Nat) (o : StoreObj) :
    ((StoreObj.acceptFlush f)^[n] o).state = if n = 0 then o.state else .flushed := by
  cases n with
  | zero => rfl
  | succ n => rw [Function.iterate_succ_apply']; rfl

theorem state_iterate_acceptFence (g : Fence) (n : Nat) (o : StoreObj) :
    ((StoreObj.acceptFence g)^[n] o).state =
      if n ≠ 0 ∧ o.state ≠ .volatile then .persisted else o.state := by
  induction n with
  | zero => simp
  | succ n ih =>
    rw [Function.iterate_succ_apply']
    simp only [StoreObj.acceptFence, StoreObj.isClear, ih]
    by_cases h : o.state = .volatile
    · simp [h]
    · by_cases hn : n = 0 <;> simp [h, hn]

theorem fenceList_iterate_acceptFlush (f : Flush) (n : Nat) (o : StoreObj) :
    ((StoreObj.acceptFlush f)^[n] o).fenceList = o.fenceList := by
  induction n with
  | zero => rfl
  | succ n ih => rw [Function.iterate_succ_apply', ← ih]; rfl

theorem state_modifyAll_flush (h : Heap) (l : List Store) (f : Flush) (r : Nat) :
    (h.modifyAll l (StoreObj.acceptFlush f) r).state =
      if r ∈ l.map Store.ref then .flushed else (h r).state := by
  rw [Heap.modifyAll_apply, state_iterate_acceptFlush]
  by_cases hr : r ∈ l.map Store.ref
  · have hc : (l.map Store.ref).count r ≠ 0 := (List.count_pos_iff.mpr hr).ne'
    rw [if_neg hc, if_pos hr]
  · rw [if_pos (List.count_eq_zero_of_not_mem hr), if_neg hr]

theorem state_modifyAll_fence (h : Heap) (l : List Store) (g : Fence) (r : Nat) :
    (h.modifyAll l (StoreObj.acceptFence g) r).state =
      if r ∈ l.map Store.ref ∧ (h r).state ≠ .volatile then .persisted else (h r).state := by
  rw [Heap.modifyAll_apply, state_iterate_acceptFence]
  have hc : (l.map Store.ref).count r ≠ 0 ↔ r ∈ l.map Store.ref := by
    rw [← List.count_pos_iff]
    omega
  simp only [hc]

theorem fenceList_modifyAll_flush (h : Heap) (l : List Store) (f : Flush) (r : Nat) :
    (h.modifyAll l (StoreObj.acceptFlush f) r).fenceList = (h r).fenceList := by
  rw [Heap.modifyAll_apply, fenceList_iterate_acceptFlush]

/-! ## Lines -/

namespace WitcherCacheline

theorem acceptFlush_eq {cl : WitcherCacheline} {h : Heap} {f : Flush}
    (hf : cl.canAcceptFlushOp f = true) :
    cl.acceptFlush h f =
      some (h.modifyAll (cl.storesList.filter f.contains) (StoreObj.acceptFlush f)) := by
  rw [acceptFlush, if_pos hf, Heap.modifyAll, List.foldl_filter]

theorem acceptFence_heap (cl : WitcherCacheline) (h : Heap) (g : Fence) :
    (cl.acceptFence h g).1 = h.modifyAll cl.storesList (StoreObj.acceptFence g) := by
  rw [acceptFence, Heap.modifyAll]
  generalize cl.dupFlushList = d
  simp only
  induction cl.storesList generalizing h d with
  | nil => rfl
  | cons s rest ih => exact ih _ _

end WitcherCacheline

namespace Sim

/-- The stores of the line filed under `a`, none when there is no such line. -/
def line (m : Sim) (a : Int) : List Store :=
  match m.cache.cachelineDict.get? a with
  | some cl => cl.storesList
  | none => []

/-- Every line is filed under its own address and has the size of a cacheline. -/
def WellFiled (m : Sim) : Prop :=
  ∀ a cl, m.cache.cachelineDict.get? a = some cl → cl.address = a ∧ cl.size = cachelineBytes

theorem line_of_get? {m : Sim} {a : Int} {cl : WitcherCacheline}
    (h : m.cache.cachelineDict.get? a = some cl) : m.line a = cl.storesList := by
  simp [line, h]

theorem mem_keys_of_mem_line {m : Sim} {s : Store} {a : Int} (hs : s ∈ m.line a) :
    a ∈ m.cache.cachelineDict.keys := by
  cases hg : m.cache.cachelineDict.get? a with
  | none => simp [line, hg] at hs
  | some cl => exact Dict.mem_keys.mpr ⟨cl, hg⟩

theorem storesList_getCachelineFromAddress (m : Sim) (addr : Int) :
    (m.getCachelineFromAddress addr).storesList = m.line (lineOf addr) := by
  rw [getCachelineFromAddress, line]
  cases m.cache.cachelineDict.get? (lineOf addr) <;> rfl

theorem address_getCachelineFromAddress {m : Sim} (hw : m.WellFiled) (addr : Int) :
    (m.getCachelineFromAddress addr).address = lineOf addr ∧
      (m.getCachelineFromAddress addr).size = cachelineBytes := by
  rw [getCachelineFromAddress]
  cases h : m.cache.cachelineDict.get? (lineOf addr) with
  | none => exact ⟨rfl, rfl⟩
  | some cl => exact hw _ _ h

theorem line_setCacheline (m : Sim) (addr a : Int) (cl : WitcherCacheline) :
    (m.setCacheline addr cl).line a = if a = lineOf addr then cl.storesList else m.line a := by
  simp only [line, setCacheline, Dict.get?_set]
  by_cases h : a = lineOf addr <;> simp [h]

theorem wellFiled_setCacheline {m : Sim} (hw : m.WellFiled) {addr : Int} {cl : WitcherCacheline}
    (hcl : cl.address = lineOf addr ∧ cl.size = cachelineBytes) :
    (m.setCacheline addr cl).WellFiled := by
  intro a cl' h
  simp only [setCacheline, Dict.get?_set] at h
  by_cases ha : a = lineOf addr
  · rw [if_pos ha] at h
    rw [← Option.some.inj h, ha]
    exact hcl
  · rw [if_neg ha] at h
    exact hw a cl' h

theorem mem_getAllOps {m : Sim} {s : Store} : s ∈ m.getAllOps ↔ ∃ a, s ∈ m.line a := by
  simp only [getAllOps, getCachelines, List.mem_flatMap, Dict.mem_values]
  constructor
  · rintro ⟨cl, ⟨a, ha⟩, hs⟩
    exact ⟨a, (line_of_get? ha).symm ▸ hs⟩
  · rintro ⟨a, hs⟩
    cases h : m.cache.cachelineDict.get? a with
    | none => simp [line, h] at hs
    | some cl => exact ⟨cl, ⟨a, h⟩, line_of_get? h ▸ hs⟩

theorem mem_getAllWhere {m : Sim} {p : StoreObj → Bool} {s : Store} :
    s ∈ m.getAllWhere p ↔ (∃ a, s ∈ m.line a) ∧ p (m.heap s.ref) = true := by
  rw [← mem_getAllOps]
  simp only [getAllWhere, getAllOps, List.mem_flatMap, List.mem_filter]
  constructor
  · rintro ⟨cl, hcl, hs, hp⟩
    exact ⟨⟨cl, hcl, hs⟩, hp⟩
  · rintro ⟨⟨cl, hcl, hs⟩, hp⟩
    exact ⟨cl, hcl, hs, hp⟩

theorem getAllWhere_eq_filter (m : Sim) (q : StoreObj → Bool) :
    m.getAllWhere q = m.getAllOps.filter fun s => q (m.heap s.ref) := by
  rw [getAllWhere, getAllOps, List.filter_flatMap]

/-- A cache that lists a store once in its own line lists it once. -/
theorem nodup_getAllOps {m : Sim} (hline : ∀ a, (m.line a).Nodup)
    (hin : ∀ a, ∀ s ∈ m.line a, lineOf s.addr = a) : m.getAllOps.Nodup := by
  have hitem : ∀ x ∈ m.cache.cachelineDict.items, x.2.storesList = m.line x.1 := by
    intro x hx
    exact (line_of_get? (Dict.get?_eq_some.mpr hx)).symm
  rw [getAllOps, getCachelines, Dict.values, List.flatMap_map, List.nodup_flatMap]
  constructor
  · intro x hx
    rw [hitem x hx]
    exact hline x.1
  · have hkeys := List.pairwise_map.mp m.cache.cachelineDict.nodup
    refine hkeys.imp_of_mem (fun {x y} hx hy hne s hsx hsy => ?_)
    replace hsx : s ∈ m.line x.1 := hitem x hx ▸ hsx
    replace hsy : s ∈ m.line y.1 := hitem y hy ▸ hsy
    exact hne ((hin _ s hsx).symm.trans (hin _ s hsy))

theorem nodup_getInFightOps {m : Sim} (hnd : m.getAllOps.Nodup) : m.getInFightOps.Nodup := by
  rw [getInFightOps, getAllVolatileOps, getAllFlushingOps, getAllWhere_eq_filter,
    getAllWhere_eq_filter, List.nodup_append]
  refine ⟨hnd.filter _, hnd.filter _, ?_⟩
  intro s hs t ht hst
  have hv := (List.mem_filter.mp hs).2
  have hfl := (List.mem_filter.mp ht).2
  simp only [StoreObj.isClear, StoreObj.isFlushing, decide_eq_true_eq] at hv hfl
  rw [hst, hfl] at hv
  exact absurd hv (by simp)

/-! ## Store -/

/-- The cache after a store was filed. -/
def putStore (m : Sim) (s : Store) : Sim :=
  setLastOp (.store s) (m.setCacheline s.addr
    { m.getCachelineFromAddress s.addr with
      storesList := (m.getCachelineFromAddress s.addr).storesList ++ [s] })

theorem accept_store_eq {m : Sim} (hw : m.WellFiled) (s : Store) :
    m.accept (.store s) = if inOneLine (.store s) then some (m.putStore s) else none := by
  obtain ⟨ha, hs⟩ := address_getCachelineFromAddress hw s.addr
  have hcan : (m.getCachelineFromAddress s.addr).canAcceptStoreOp s = inOneLine (.store s) := by
    simp [WitcherCacheline.canAcceptStoreOp, inOneLine, ha, hs, lineOf_le]
  rw [accept, acceptStore, WitcherCacheline.acceptStore, hcan]
  by_cases h : inOneLine (.store s) = true
  · rw [if_pos h, if_pos h]
    rfl
  · rw [if_neg h, if_neg h]
    rfl

theorem line_putStore (m : Sim) (s : Store) (a : Int) :
    (m.putStore s).line a = if a = lineOf s.addr then m.line a ++ [s] else m.line a := by
  show (m.setCacheline s.addr _).line a = _
  rw [line_setCacheline, storesList_getCachelineFromAddress]
  by_cases h : a = lineOf s.addr <;> simp [h]

theorem heap_putStore (m : Sim) (s : Store) : (m.putStore s).heap = m.heap := rfl

theorem wellFiled_putStore {m : Sim} (hw : m.WellFiled) (s : Store) :
    (m.putStore s).WellFiled :=
  wellFiled_setCacheline hw (address_getCachelineFromAddress hw s.addr)

/-! ## Flush -/

/-- The cache after a flush: the line exists and the contained stores are marked. -/
def putFlush (m : Sim) (f : Flush) : Sim :=
  setLastOp (.flush f)
    { m.setCacheline f.addr (m.getCachelineFromAddress f.addr) with
      heap := m.heap.modifyAll ((m.line (lineOf f.addr)).filter f.contains)
        (StoreObj.acceptFlush f) }

theorem accept_flush_eq {m : Sim} (hw : m.WellFiled) (f : Flush) :
    m.accept (.flush f) = if inOneLine (.flush f) then some (m.putFlush f) else none := by
  obtain ⟨ha, hs⟩ := address_getCachelineFromAddress hw f.addr
  have hcan : (m.getCachelineFromAddress f.addr).canAcceptFlushOp f = inOneLine (.flush f) := by
    simp [WitcherCacheline.canAcceptFlushOp, inOneLine, ha, hs, lineOf_le]
  by_cases h : inOneLine (.flush f) = true
  · rw [accept, acceptFlush, if_pos h, WitcherCacheline.acceptFlush_eq (hcan.trans h),
      storesList_getCachelineFromAddress]
    rfl
  · rw [accept, acceptFlush, if_neg h, WitcherCacheline.acceptFlush, hcan, if_neg h]
    rfl

theorem line_putFlush (m : Sim) (f : Flush) (a : Int) : (m.putFlush f).line a = m.line a := by
  show (m.setCacheline f.addr _).line a = _
  rw [line_setCacheline, storesList_getCachelineFromAddress]
  by_cases h : a = lineOf f.addr <;> simp [h]

theorem heap_putFlush (m : Sim) (f : Flush) :
    (m.putFlush f).heap = m.heap.modifyAll ((m.line (lineOf f.addr)).filter f.contains)
      (StoreObj.acceptFlush f) := rfl

theorem wellFiled_putFlush {m : Sim} (hw : m.WellFiled) (f : Flush) :
    (m.putFlush f).WellFiled :=
  wellFiled_setCacheline hw (address_getCachelineFromAddress hw f.addr)

/-! ## Fence -/

/-- The cache after a fence reached every line. -/
def putFence (m : Sim) (g : Fence) : Sim := setLastOp (.fence g) ((m.acceptFence g).noteDupFence g)

theorem accept_fence_eq (m : Sim) (g : Fence) : m.accept (.fence g) = some (m.putFence g) := rfl

theorem cachelineDict_putFence (m : Sim) (g : Fence) :
    (m.putFence g).cache.cachelineDict =
      m.cache.cachelineDict.mapValues fun cl => { cl with dupFlushList := [] } := by
  rw [putFence, setLastOp, noteDupFence]
  split <;> rfl

theorem heap_acceptFence (m : Sim) (g : Fence) :
    (m.acceptFence g).heap = m.heap.modifyAll m.getAllOps (StoreObj.acceptFence g) := by
  rw [acceptFence, getAllOps]
  generalize m.cache.dupFlushList = d
  simp only
  generalize m.heap = h
  induction m.getCachelines generalizing h d with
  | nil => rfl
  | cons cl rest ih =>
    rw [List.foldl_cons, List.flatMap_cons, Heap.modifyAll_append,
      ← WitcherCacheline.acceptFence_heap]
    exact ih _ _

theorem heap_putFence (m : Sim) (g : Fence) :
    (m.putFence g).heap = m.heap.modifyAll m.getAllOps (StoreObj.acceptFence g) := by
  rw [← heap_acceptFence, putFence, setLastOp, noteDupFence]
  split <;> rfl

theorem line_putFence (m : Sim) (g : Fence) (a : Int) : (m.putFence g).line a = m.line a := by
  rw [line, line, cachelineDict_putFence, Dict.get?_mapValues]
  cases m.cache.cachelineDict.get? a <;> rfl

theorem wellFiled_putFence {m : Sim} (hw : m.WellFiled) (g : Fence) :
    (m.putFence g).WellFiled := by
  intro a cl h
  rw [cachelineDict_putFence, Dict.get?_mapValues, Option.map_eq_some_iff] at h
  obtain ⟨cl', hcl', rfl⟩ := h
  exact hw a cl' hcl'

/-! ## Write-back -/

/-- Both write-backs drop the stores in one state from every line. -/
def dropWhere (p : StoreObj → Bool) (m : Sim) : Sim :=
  m.writeBack fun cl => { cl with storesList := cl.storesList.filter fun s => !p (m.heap s.ref) }

theorem writeBackAllFlushingStores_eq (m : Sim) :
    m.writeBackAllFlushingStores = m.dropWhere StoreObj.isFlushing := rfl

theorem writeBackAllPersistedStores_eq (m : Sim) :
    m.writeBackAllPersistedStores = m.dropWhere StoreObj.isPersisted := rfl

theorem heap_dropWhere (p : StoreObj → Bool) (m : Sim) : (m.dropWhere p).heap = m.heap := rfl

theorem line_dropWhere (p : StoreObj → Bool) (m : Sim) (a : Int) :
    (m.dropWhere p).line a = (m.line a).filter fun s => !p (m.heap s.ref) := by
  simp only [line, dropWhere, writeBack, Dict.get?_filterValues, Dict.get?_mapValues]
  cases m.cache.cachelineDict.get? a with
  | none => rfl
  | some cl =>
    simp only [Option.map_some, Option.filter_some, WitcherCacheline.isEmpty]
    by_cases h : (cl.storesList.filter fun s => !p (m.heap s.ref)) = []
    · simp [h]
    · simp [h]

/-- Both write-backs together keep the volatile stores of a line. -/
theorem line_writeBacks (m : Sim) (a : Int) :
    m.writeBackAllFlushingStores.writeBackAllPersistedStores.line a =
      (m.line a).filter fun s => (m.heap s.ref).state = .volatile := by
  rw [writeBackAllPersistedStores_eq, line_dropWhere, writeBackAllFlushingStores_eq,
    line_dropWhere, heap_dropWhere, List.filter_filter]
  refine List.filter_congr (fun s _ => ?_)
  cases hst : (m.heap s.ref).state <;>
    simp [StoreObj.isFlushing, StoreObj.isPersisted, hst]

/-- A write-back leaves no empty line behind. -/
theorem ne_nil_of_get?_dropWhere {p : StoreObj → Bool} {m : Sim} {a : Int}
    {cl : WitcherCacheline} (h : (m.dropWhere p).cache.cachelineDict.get? a = some cl) :
    cl.storesList ≠ [] := by
  simp only [dropWhere, writeBack, Dict.get?_filterValues, Option.filter_eq_some_iff] at h
  intro hnil
  simp [WitcherCacheline.isEmpty, hnil] at h

theorem wellFiled_dropWhere {p : StoreObj → Bool} {m : Sim} (hw : m.WellFiled) :
    (m.dropWhere p).WellFiled := by
  intro a cl h
  simp only [dropWhere, writeBack, Dict.get?_filterValues, Option.filter_eq_some_iff,
    Dict.get?_mapValues, Option.map_eq_some_iff] at h
  obtain ⟨⟨cl', hcl', rfl⟩, -⟩ := h
  exact hw a cl' hcl'

end Sim

end Cache
end Silhouette
