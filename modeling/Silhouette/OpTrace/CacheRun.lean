import Silhouette.Cache.Residency
import Silhouette.Cache.ReorderSimulator

/-!
# The cache analysis of an operation

`OpTraceEntry.analysis_in_cache_run` feeds the atomic operations of one file system
operation to a cache and records, at every fence and at the end, which stores are in
flight.  The inner loop of the source reuses the name `op`: once a store is in flight
at a fence, it is that loop's last store and not the fence that the cache accepts.
`fenceOp` models this.

The lines then hold a store more than once, but never a wrong one: `Tracks` says that
the lines hold the in-flight stores, and `Records` reads the recorded maps off the
sequence of operations.
-/

namespace Silhouette
namespace OpTrace

open Lib Lib.Persist Cache

/-- The cache and what has been recorded from it so far. -/
structure Analysis where
  sim : Sim
  inFightStoreNum : List Nat
  numCpsMap : Dict Int (Int × Nat × Nat)
  writeDepSeqMap : Dict Int (Finset Int)
  inFlightSeqClusterMap : Dict Int (List Nat)
  inFlightClusterSeqMap : Dict Nat (List Int)
  inFlightClusterFlushingMap : Dict Nat (List Int)
  inFlightClusterNum : Nat
  dupFences : List (Fence × Fence)
  dupFlushes : List Store
  unflushedStores : List Store

namespace Analysis

def start : Analysis :=
  ⟨Sim.start, [], Dict.empty, Dict.empty, Dict.empty, Dict.empty, Dict.empty, 0, [], [], []⟩

/-- Add the dependencies the cache shows now to those seen before. -/
def mergeWriteDeps (a : Analysis) : Analysis :=
  { a with writeDepSeqMap :=
      (getWriteDepSeqMap a.sim).items.foldl (fun d x => addDeps d x.1 x.2) a.writeDepSeqMap }

/-- Open the next cluster and enter the stores in flight. -/
def recordCluster (a : Analysis) : Analysis :=
  let num := a.inFlightClusterNum + 1
  let ops := a.sim.getInFightOps
  { a with
    inFlightClusterNum := num
    inFlightClusterSeqMap := a.inFlightClusterSeqMap.set num (ops.map Store.seq)
    inFlightClusterFlushingMap :=
      a.inFlightClusterFlushingMap.set num (a.sim.getAllFlushingOps.map Store.seq)
    inFlightSeqClusterMap :=
      ops.foldl (fun d op => d.set op.seq ((d.get? op.seq).getD [] ++ [num]))
        a.inFlightSeqClusterMap }

/-- Note the number of in-flight stores, and the crash plan numbers under a key. -/
def noteNums (key : Int) (nums : Int × Nat × Nat) (a : Analysis) : Analysis :=
  { a with
    inFightStoreNum := a.inFightStoreNum ++ [a.sim.getInFightNums]
    numCpsMap := a.numCpsMap.set key nums }

def recordNums (key : Int) (a : Analysis) : Option Analysis :=
  (ReorderSimulator.getReorderNums true a.sim).map fun nums => a.noteNums key nums

/-- What the variable `op` is bound to when the fence should be accepted: the loop over
the in-flight stores has left its last store in it. -/
def fenceOp (m : Sim) (g : Fence) : AtomicOp :=
  match m.getInFightOps.getLast? with
  | some s => .store s
  | none => .fence g

/-- The cache part of the work at a fence. -/
def acceptAtFence (m : Sim) (g : Fence) : Option Sim :=
  (m.accept (fenceOp m g)).map fun n =>
    n.writeBackAllFlushingStores.writeBackAllPersistedStores

def step (a : Analysis) : AtomicOp → Option Analysis
  | .store s => (a.sim.accept (.store s)).map fun m => { a with sim := m }
  | .flush f => (a.sim.accept (.flush f)).map fun m => { a with sim := m }
  | .fence g => do
    let b ← a.recordNums g.seq
    let b := b.mergeWriteDeps.recordCluster
    let m ← acceptAtFence b.sim g
    return { b with sim := m }

/-- The end of the operation implies a fence, so the flushing stores are written back
and the rest makes up the last cluster. -/
def finish (a : Analysis) : Option Analysis := do
  let b ← a.mergeWriteDeps.recordCluster.recordNums maxSize
  let m := b.sim.writeBackAllFlushingStores
  let num := b.inFlightClusterNum + 1
  let seqs := m.getInFightOps.map Store.seq
  return { b with
    sim := m
    inFlightClusterNum := num
    inFlightClusterSeqMap := b.inFlightClusterSeqMap.set num seqs
    inFlightClusterFlushingMap := b.inFlightClusterFlushingMap.set num seqs
    dupFences := m.cache.dupFenceList
    dupFlushes := m.cache.dupFlushList
    unflushedStores := if (b.inFightStoreNum.getLastD 0) > 0 then m.getInFightOps else [] }

/-- The loop over the atomic operations. -/
def loop (ops : List AtomicOp) : Option Analysis := ops.foldlM step start

def run (ops : List AtomicOp) : Option Analysis := (loop ops).bind finish

theorem loop_append_singleton (ops : List AtomicOp) (op : AtomicOp) :
    loop (ops ++ [op]) = (loop ops).bind fun a => a.step op := by
  simp [loop, List.foldlM_append]

end Analysis

/-! ## What is in flight at a fence -/

/-- Some store with this sequence number is in flight at the `c`-th fence. -/
def InFlightAt (ops : List AtomicOp) (c : Nat) (x : Int) : Prop :=
  ∃ s p, (s, p) ∈ inFlight Flush.covers (beforeFence c ops) ∧ s.seq = x

/-- Some store with this sequence number is flushed and waits for the `c`-th fence. -/
def FlushingAt (ops : List AtomicOp) (c : Nat) (x : Int) : Prop :=
  ∃ s, (s, .flushing) ∈ inFlight Flush.covers (beforeFence c ops) ∧ s.seq = x

instance (ops : List AtomicOp) (c : Nat) (x : Int) : Decidable (InFlightAt ops c x) :=
  decidable_of_iff (∃ y ∈ inFlight Flush.covers (beforeFence c ops), y.1.seq = x)
    ⟨fun ⟨y, hy, hx⟩ => ⟨y.1, y.2, hy, hx⟩, fun ⟨s, p, hp, hx⟩ => ⟨(s, p), hp, hx⟩⟩

instance (ops : List AtomicOp) (c : Nat) (x : Int) : Decidable (FlushingAt ops c x) :=
  decidable_of_iff
    (∃ y ∈ inFlight Flush.covers (beforeFence c ops), y.2 = .flushing ∧ y.1.seq = x)
    ⟨fun ⟨y, hy, hp, hx⟩ => ⟨y.1, hp ▸ hy, hx⟩, fun ⟨s, hp, hx⟩ => ⟨(s, .flushing), hp, rfl, hx⟩⟩

/-- Both are in flight at the `c`-th fence and `x` overwrites a slot that the earlier
`y` wrote. -/
def OverwritesAt (ops : List AtomicOp) (c : Nat) (x y : Int) : Prop :=
  y < x ∧ ∃ s p t q, (s, p) ∈ inFlight Flush.covers (beforeFence c ops) ∧
    (t, q) ∈ inFlight Flush.covers (beforeFence c ops) ∧ s.seq = x ∧ t.seq = y ∧
    lineOf s.addr = lineOf t.addr ∧ slotOf s = slotOf t

/-! ## The cache of the loop -/

/-- The lines hold the in-flight stores, and no fence has reached an object. -/
structure Tracks (m : Sim) (ops : List AtomicOp) : Prop extends Holds m ops where
  unfenced : ∀ r, (m.heap r).fenceList = []

namespace Tracks

variable {m : Sim} {ops : List AtomicOp}

theorem start : Tracks Sim.start [] where
  toHolds := Holds.start
  unfenced := fun _ => rfl

theorem putStore (h : Tracks m ops) {s : Store} (hf : Fresh (ops ++ [.store s])) :
    Tracks (m.putStore s) (ops ++ [.store s]) where
  toHolds := h.toHolds.putStore hf
  unfenced := h.unfenced

theorem putFlush (h : Tracks m ops) (hf : Fresh ops) (f : Flush) :
    Tracks (m.putFlush f) (ops ++ [.flush f]) where
  toHolds := h.toHolds.putFlush hf f
  unfenced := by
    intro r
    rw [Sim.heap_putFlush, fenceList_modifyAll_flush]
    exact h.unfenced r

/-- Accepting a store again adds an occurrence where there is one already. -/
theorem putStore_again (h : Tracks m ops) {s : Store} (hs : s ∈ m.getInFightOps) :
    Tracks (m.putStore s) ops where
  filed := Sim.wellFiled_putStore h.filed s
  mem_line_iff := by
    intro t a
    rw [Sim.line_putStore]
    by_cases ha : a = lineOf s.addr
    · rw [if_pos ha, List.mem_append, List.mem_singleton, h.mem_line_iff]
      constructor
      · rintro (ht | rfl)
        · exact ht
        · exact ⟨ha.symm, h.mem_getInFightOps_iff.mp hs⟩
      · exact Or.inl
    · rw [if_neg ha]
      exact h.mem_line_iff
  state := h.state
  unissued := h.unissued
  unfenced := h.unfenced

theorem getAllOps_eq_nil (h : Tracks m ops) (he : m.getInFightOps = []) : m.getAllOps = [] := by
  refine List.eq_nil_iff_forall_not_mem.mpr (fun s hs => ?_)
  have hin := h.mem_getInFightOps_iff.mpr (h.mem_getAllOps_iff.mp hs)
  rw [he] at hin
  exact List.not_mem_nil hin

/-- A fence that reaches the cache finds no store there. -/
theorem putFence_of_empty (h : Tracks m ops) (he : m.getInFightOps = []) (g : Fence) :
    Tracks (m.putFence g) ops := by
  have hnone := h.getAllOps_eq_nil he
  have hheap : (m.putFence g).heap = m.heap := by
    rw [Sim.heap_putFence, hnone]
    rfl
  exact {
    filed := Sim.wellFiled_putFence h.filed g
    mem_line_iff := by
      intro s a
      rw [Sim.line_putFence]
      exact h.mem_line_iff
    state := hheap ▸ h.state
    unissued := hheap ▸ h.unissued
    unfenced := hheap ▸ h.unfenced }

/-- The write-backs leave the stores that are in flight behind the fence. -/
theorem writeBack (h : Tracks m ops) (g : Fence) :
    Tracks m.writeBackAllFlushingStores.writeBackAllPersistedStores (ops ++ [.fence g]) where
  filed := Sim.wellFiled_dropWhere (Sim.wellFiled_dropWhere h.filed)
  mem_line_iff := by
    intro s a
    rw [h.mem_line_writeBack, inFlight_fence]
    refine and_congr_right (fun _ => ?_)
    simp [List.mem_filter]
  state := by
    intro x hx
    rw [inFlight_fence] at hx
    exact h.state x (List.mem_filter.mp hx).1
  unissued := by
    intro r hr
    refine h.unissued r ?_
    have hs : stores (ops ++ [.fence g]) = stores ops := by
      rw [stores_append]
      exact List.append_nil _
    rwa [hs] at hr
  unfenced := h.unfenced

theorem inOneLine_of_inFight (h : Tracks m ops) (hops : ∀ op ∈ ops, inOneLine op = true)
    {s : Store} (hs : s ∈ m.getInFightOps) : inOneLine (.store s) = true := by
  obtain ⟨p, hp⟩ := h.mem_getInFightOps_iff.mp hs
  obtain ⟨u, v, heq, -⟩ := (mem_life_iff _).mp ((mem_inFlight_iff _).mp hp).1
  exact hops _ (by simp [heq])

theorem acceptAtFence (h : Tracks m ops) (hops : ∀ op ∈ ops, inOneLine op = true) (g : Fence) :
    ∃ n, Analysis.acceptAtFence m g = some n ∧ Tracks n (ops ++ [.fence g]) := by
  rw [Analysis.acceptAtFence, Analysis.fenceOp]
  cases hl : m.getInFightOps.getLast? with
  | none =>
    exact ⟨_, rfl, (h.putFence_of_empty (List.getLast?_eq_none_iff.mp hl) g).writeBack g⟩
  | some s =>
    have hs : s ∈ m.getInFightOps := List.mem_of_getLast? hl
    have hin : inOneLine (.store s) = true := h.inOneLine_of_inFight hops hs
    refine ⟨_, ?_, (h.putStore_again hs).writeBack g⟩
    simp only [Sim.accept_store_eq h.filed, if_pos hin, Option.map_some]

end Tracks

/-! ## The recorded maps -/

/-- The list filed under a key, empty when there is none. -/
def listAt {κ ν : Type} [DecidableEq κ] (d : Dict κ (List ν)) (k : κ) : List ν :=
  (d.get? k).getD []

theorem listAt_set {κ ν : Type} [DecidableEq κ] (d : Dict κ (List ν)) (k k' : κ) (l : List ν) :
    listAt (d.set k l) k' = if k' = k then l else listAt d k' := by
  rw [listAt, Dict.get?_set]
  by_cases h : k' = k
  · rw [if_pos h, if_pos h, Option.getD_some]
  · rw [if_neg h, if_neg h, listAt]

/-- The maps describe the first `n` clusters of a sequence of operations. -/
structure Records (a : Analysis) (ops : List AtomicOp) (n : Nat) : Prop where
  num : a.inFlightClusterNum = n
  clusterSeq : ∀ c x, x ∈ listAt a.inFlightClusterSeqMap c ↔
    (1 ≤ c ∧ c ≤ n) ∧ InFlightAt ops c x
  clusterFlushing : ∀ c x, x ∈ listAt a.inFlightClusterFlushingMap c ↔
    (1 ≤ c ∧ c ≤ n) ∧ FlushingAt ops c x
  seqCluster : ∀ x c, c ∈ listAt a.inFlightSeqClusterMap x ↔ (1 ≤ c ∧ c ≤ n) ∧ InFlightAt ops c x
  seqCluster_ne : ∀ x, a.inFlightSeqClusterMap.get? x ≠ some []
  writeDep : ∀ x y, y ∈ depsOf a.writeDepSeqMap x ↔ ∃ c, (1 ≤ c ∧ c ≤ n) ∧ OverwritesAt ops c x y

theorem mem_listAt_append {ops : List Store} {d : Dict Int (List Nat)} {num c : Nat} {x : Int} :
    c ∈ listAt (ops.foldl (fun d op => d.set op.seq ((d.get? op.seq).getD [] ++ [num])) d) x ↔
      c ∈ listAt d x ∨ c = num ∧ ∃ op ∈ ops, op.seq = x := by
  induction ops generalizing d with
  | nil => simp
  | cons op rest ih =>
    rw [List.foldl_cons, ih, listAt_set, List.exists_mem_cons_iff]
    by_cases hx : x = op.seq
    · rw [if_pos hx, List.mem_append, List.mem_singleton, ← listAt, ← hx]
      simp only [true_or, and_true]
      constructor
      · rintro ((h | h) | ⟨h, -⟩)
        · exact Or.inl h
        · exact Or.inr h
        · exact Or.inr h
      · rintro (h | h)
        · exact Or.inl (Or.inl h)
        · exact Or.inl (Or.inr h)
    · rw [if_neg hx]
      simp [Ne.symm hx]

theorem get?_append_ne_nil {ops : List Store} {d : Dict Int (List Nat)} {num : Nat} {x : Int}
    (h : d.get? x ≠ some []) :
    (ops.foldl (fun d op => d.set op.seq ((d.get? op.seq).getD [] ++ [num])) d).get? x ≠
      some [] := by
  induction ops generalizing d with
  | nil => exact h
  | cons op rest ih =>
    rw [List.foldl_cons]
    refine ih ?_
    rw [Dict.get?_set]
    by_cases hx : x = op.seq
    · simp [hx]
    · rw [if_neg hx]
      exact h

theorem mem_depsOf_mergeWriteDeps {a : Analysis} {x y : Int} :
    y ∈ depsOf a.mergeWriteDeps.writeDepSeqMap x ↔
      y ∈ depsOf a.writeDepSeqMap x ∨ y ∈ depsOf (getWriteDepSeqMap a.sim) x := by
  have hgen : ∀ (items : List (Int × Finset Int)) (d : Dict Int (Finset Int)),
      y ∈ depsOf (items.foldl (fun d x => addDeps d x.1 x.2) d) x ↔
        y ∈ depsOf d x ∨ ∃ v, (x, v) ∈ items ∧ y ∈ v := by
    intro items
    induction items with
    | nil => simp
    | cons z rest ih =>
      obtain ⟨k, w⟩ := z
      intro d
      simp only [List.foldl_cons, ih, mem_depsOf_addDeps, List.mem_cons, Prod.mk.injEq]
      constructor
      · rintro ((h | ⟨rfl, h⟩) | ⟨v, hv, h⟩)
        · exact Or.inl h
        · exact Or.inr ⟨w, Or.inl ⟨rfl, rfl⟩, h⟩
        · exact Or.inr ⟨v, Or.inr hv, h⟩
      · rintro (h | ⟨v, ⟨rfl, rfl⟩ | hv, h⟩)
        · exact Or.inl (Or.inl h)
        · exact Or.inl (Or.inr ⟨rfl, h⟩)
        · exact Or.inr ⟨v, hv, h⟩
  rw [Analysis.mergeWriteDeps, hgen]
  refine or_congr_right ?_
  simp only [← Dict.get?_eq_some, depsOf]
  cases (getWriteDepSeqMap a.sim).get? x with
  | none => simp
  | some v => simp

/-- With no fence delivered, a store depends on what it overwrites. -/
theorem Tracks.mem_getWriteDepSeqMap_iff {m : Sim} {ops : List AtomicOp} (h : Tracks m ops)
    {c : Nat} {all : List AtomicOp} (hc : beforeFence c all = ops) {x y : Int} :
    y ∈ depsOf (getWriteDepSeqMap m) x ↔ OverwritesAt all c x y := by
  rw [mem_getWriteDepSeqMap, OverwritesAt, hc]
  constructor
  · rintro ⟨hne, a, s, hs, t, ht, rfl, rfl, hdep⟩
    obtain ⟨hsa, p, hp⟩ := h.mem_line_iff.mp hs
    obtain ⟨hta, q, hq⟩ := h.mem_line_iff.mp ht
    rcases hdep with hlt | ⟨hlt, hslot⟩
    · rw [h.unfenced, h.unfenced] at hlt
      exact absurd hlt (Nat.lt_irrefl _)
    · exact ⟨hlt, s, p, t, q, hp, hq, rfl, rfl, hsa.trans hta.symm, hslot⟩
  · rintro ⟨hlt, s, p, t, q, hp, hq, rfl, rfl, hline, hslot⟩
    exact ⟨ne_of_lt hlt, lineOf s.addr, s, h.mem_line_iff.mpr ⟨rfl, p, hp⟩, t,
      h.mem_line_iff.mpr ⟨hline.symm, q, hq⟩, rfl, rfl, Or.inr ⟨hlt, hslot⟩⟩

namespace Records

variable {a : Analysis} {ops : List AtomicOp} {n : Nat}

theorem start (ops : List AtomicOp) : Records Analysis.start ops 0 where
  num := rfl
  clusterSeq := by
    intro c x
    constructor
    · exact fun h => absurd h List.not_mem_nil
    · rintro ⟨⟨h1, h2⟩, -⟩
      omega
  clusterFlushing := by
    intro c x
    constructor
    · exact fun h => absurd h List.not_mem_nil
    · rintro ⟨⟨h1, h2⟩, -⟩
      omega
  seqCluster := by
    intro x c
    constructor
    · exact fun h => absurd h List.not_mem_nil
    · rintro ⟨⟨h1, h2⟩, -⟩
      omega
  seqCluster_ne := by simp [Analysis.start]
  writeDep := by
    intro x y
    constructor
    · exact fun h => absurd h (Finset.notMem_empty y)
    · rintro ⟨c, ⟨h1, h2⟩, -⟩
      omega

/-- The maps do not depend on the cache once they are written. -/
theorem setSim (h : Records a ops n) (m : Sim) : Records { a with sim := m } ops n :=
  ⟨h.num, h.clusterSeq, h.clusterFlushing, h.seqCluster, h.seqCluster_ne, h.writeDep⟩

theorem noteNums (h : Records a ops n) (key : Int) (nums : Int × Nat × Nat) :
    Records (a.noteNums key nums) ops n :=
  ⟨h.num, h.clusterSeq, h.clusterFlushing, h.seqCluster, h.seqCluster_ne, h.writeDep⟩

/-- A range grown by one number holds the old numbers and the new one. -/
theorem range_succ_and {c n : Nat} {q : Nat → Prop} :
    (1 ≤ c ∧ c ≤ n + 1) ∧ q c ↔ (1 ≤ c ∧ c ≤ n) ∧ q c ∨ c = n + 1 ∧ q (n + 1) := by
  constructor
  · rintro ⟨⟨h1, h2⟩, hq⟩
    by_cases hc : c = n + 1
    · exact Or.inr ⟨hc, hc ▸ hq⟩
    · exact Or.inl ⟨⟨h1, by omega⟩, hq⟩
  · rintro (⟨⟨h1, h2⟩, hq⟩ | ⟨rfl, hq⟩)
    · exact ⟨⟨h1, by omega⟩, hq⟩
    · exact ⟨⟨by omega, by omega⟩, hq⟩

theorem mem_set_cluster {d : Dict Nat (List Int)} {l : List Int} {q : Nat → Int → Prop}
    (hd : ∀ c x, x ∈ listAt d c ↔ (1 ≤ c ∧ c ≤ n) ∧ q c x) (hl : ∀ x, x ∈ l ↔ q (n + 1) x)
    (c : Nat) (x : Int) : x ∈ listAt (d.set (n + 1) l) c ↔ (1 ≤ c ∧ c ≤ n + 1) ∧ q c x := by
  rw [listAt_set, range_succ_and (q := fun c => q c x)]
  by_cases hc : c = n + 1
  · rw [if_pos hc, hl, hc]
    constructor
    · exact fun h => Or.inr ⟨rfl, h⟩
    · rintro (⟨⟨-, h⟩, -⟩ | h)
      · omega
      · exact h.2
  · rw [if_neg hc, hd]
    simp [hc]

/-- Recording at a cut of the sequence adds the cluster of that cut. -/
theorem record (h : Records a ops n) {pre : List AtomicOp} (ht : Tracks a.sim pre)
    (hcut : beforeFence (n + 1) ops = pre) :
    Records a.mergeWriteDeps.recordCluster ops (n + 1) := by
  have hnum : a.mergeWriteDeps.inFlightClusterNum = n := h.num
  have hin : ∀ x, (∃ s ∈ a.sim.getInFightOps, s.seq = x) ↔ InFlightAt ops (n + 1) x := by
    intro x
    rw [InFlightAt, hcut]
    simp only [ht.mem_getInFightOps_iff]
    constructor
    · rintro ⟨s, ⟨p, hp⟩, hs⟩
      exact ⟨s, p, hp, hs⟩
    · rintro ⟨s, p, hp, hs⟩
      exact ⟨s, ⟨p, hp⟩, hs⟩
  exact {
    num := by
      show a.mergeWriteDeps.inFlightClusterNum + 1 = n + 1
      rw [hnum]
    clusterSeq := by
      show ∀ c x, x ∈ listAt (a.inFlightClusterSeqMap.set
        (a.mergeWriteDeps.inFlightClusterNum + 1) (a.sim.getInFightOps.map Store.seq)) c ↔ _
      rw [hnum]
      refine mem_set_cluster h.clusterSeq (fun x => ?_)
      rw [List.mem_map]
      exact hin x
    clusterFlushing := by
      show ∀ c x, x ∈ listAt (a.inFlightClusterFlushingMap.set
        (a.mergeWriteDeps.inFlightClusterNum + 1) (a.sim.getAllFlushingOps.map Store.seq)) c ↔ _
      rw [hnum]
      refine mem_set_cluster h.clusterFlushing (fun x => ?_)
      rw [List.mem_map, FlushingAt, hcut]
      simp only [ht.mem_getAllFlushingOps_iff]
    seqCluster := by
      intro x c
      show c ∈ listAt (a.sim.getInFightOps.foldl (fun d op => d.set op.seq
        ((d.get? op.seq).getD [] ++ [a.mergeWriteDeps.inFlightClusterNum + 1]))
        a.inFlightSeqClusterMap) x ↔ _
      rw [hnum, mem_listAt_append, h.seqCluster, hin,
        range_succ_and (q := fun c => InFlightAt ops c x)]
    seqCluster_ne := fun x => get?_append_ne_nil (h.seqCluster_ne x)
    writeDep := by
      intro x y
      show y ∈ depsOf a.mergeWriteDeps.writeDepSeqMap x ↔ _
      rw [mem_depsOf_mergeWriteDeps, h.writeDep, ht.mem_getWriteDepSeqMap_iff hcut]
      simp only [range_succ_and (q := fun c => OverwritesAt ops c x y), exists_or]
      simp }

end Records

/-! ## Whole runs -/

/-- What holds of the analysis after a prefix of the operations, whatever follows. -/
structure LoopInv (a : Analysis) (ops : List AtomicOp) : Prop where
  inLine : ∀ op ∈ ops, inOneLine op = true
  tracks : Tracks a.sim ops
  records : ∀ more, Records a (ops ++ more) (fences ops)

namespace LoopInv

variable {a b : Analysis} {ops : List AtomicOp}

theorem inLine_append (h : LoopInv a ops) {op : AtomicOp} (hop : inOneLine op = true) :
    ∀ o ∈ ops ++ [op], inOneLine o = true := by
  intro o ho
  rcases List.mem_append.mp ho with ho | ho
  · exact h.inLine o ho
  · rwa [List.mem_singleton.mp ho]

/-- The maps do not change between fences. -/
theorem records_append (h : LoopInv a ops) {op : AtomicOp} (hop : fences [op] = 0) {m : Sim}
    (more : List AtomicOp) :
    Records { a with sim := m } (ops ++ [op] ++ more) (fences (ops ++ [op])) := by
  have hr := h.records ([op] ++ more)
  rw [← List.append_assoc] at hr
  rw [fences_append, hop, Nat.add_zero]
  exact hr.setSim m

theorem step_store (h : LoopInv a ops) {s : Store} (hf : Fresh (ops ++ [.store s]))
    (hs : a.step (.store s) = some b) : LoopInv b (ops ++ [.store s]) := by
  rw [Analysis.step, Sim.accept_store_eq h.tracks.filed] at hs
  by_cases hin : inOneLine (.store s) = true
  · rw [if_pos hin, Option.map_some, Option.some.injEq] at hs
    subst hs
    exact ⟨h.inLine_append hin, h.tracks.putStore hf, h.records_append rfl⟩
  · rw [if_neg hin] at hs
    simp at hs

theorem step_flush (h : LoopInv a ops) {f : Flush} (hf : Fresh (ops ++ [.flush f]))
    (hs : a.step (.flush f) = some b) : LoopInv b (ops ++ [.flush f]) := by
  rw [Analysis.step, Sim.accept_flush_eq h.tracks.filed] at hs
  by_cases hin : inOneLine (.flush f) = true
  · rw [if_pos hin, Option.map_some, Option.some.injEq] at hs
    subst hs
    exact ⟨h.inLine_append hin, h.tracks.putFlush hf.left f, h.records_append rfl⟩
  · rw [if_neg hin] at hs
    simp at hs

/-- At a fence the work succeeds and the next cluster is the cut before that fence. -/
theorem step_fence (h : LoopInv a ops) (g : Fence) :
    ∃ b, a.step (.fence g) = some b ∧ LoopInv b (ops ++ [.fence g]) := by
  obtain ⟨nums, hnums⟩ := Option.isSome_iff_exists.mp
    (ReorderSimulator.getReorderNums_isSome true a.sim)
  obtain ⟨m, hm, ht⟩ := h.tracks.acceptAtFence h.inLine g
  refine ⟨{ (a.noteNums g.seq nums).mergeWriteDeps.recordCluster with sim := m }, ?_, ?_⟩
  · have hm' : Analysis.acceptAtFence
        (a.noteNums g.seq nums).mergeWriteDeps.recordCluster.sim g = some m := hm
    simp [Analysis.step, Analysis.recordNums, hnums, hm']
  · refine ⟨h.inLine_append rfl, ht, fun more => ?_⟩
    have hcut : beforeFence (fences ops + 1) (ops ++ .fence g :: more) = ops := beforeFence_eq rfl
    have hrec := ((h.records (.fence g :: more)).noteNums g.seq nums).record h.tracks hcut
    rw [List.append_assoc, List.singleton_append, fences_append]
    exact hrec.setSim m

end LoopInv

theorem loopInv_of_loop {ops : List AtomicOp} (hf : Fresh ops) {a : Analysis}
    (h : Analysis.loop ops = some a) : LoopInv a ops := by
  induction ops using List.reverseRecOn generalizing a with
  | nil =>
    rw [← Option.some.inj h]
    exact ⟨by simp, Tracks.start, fun more => Records.start _⟩
  | append_singleton ops op ih =>
    rw [Analysis.loop_append_singleton, Option.bind_eq_some_iff] at h
    obtain ⟨b, hb, hstep⟩ := h
    have hinv := ih hf.left hb
    cases op with
    | store s => exact hinv.step_store hf hstep
    | flush f => exact hinv.step_flush hf hstep
    | fence g =>
      obtain ⟨b', hb', hinv'⟩ := hinv.step_fence g
      rw [hb'] at hstep
      exact Option.some.inj hstep ▸ hinv'

/-- Operations inside their lines are never refused. -/
theorem loop_isSome {ops : List AtomicOp} (hf : Fresh ops)
    (hops : ∀ op ∈ ops, inOneLine op = true) : ∃ a, Analysis.loop ops = some a := by
  induction ops using List.reverseRecOn with
  | nil => exact ⟨_, rfl⟩
  | append_singleton ops op ih =>
    obtain ⟨a, ha⟩ := ih hf.left (fun o ho => hops o (List.mem_append_left _ ho))
    have hinv := loopInv_of_loop hf.left ha
    have hop := hops op (by simp)
    rw [Analysis.loop_append_singleton, ha, Option.bind_some]
    cases op with
    | store s => simp [Analysis.step, Sim.accept_store_eq hinv.tracks.filed, hop]
    | flush f => simp [Analysis.step, Sim.accept_flush_eq hinv.tracks.filed, hop]
    | fence g =>
      obtain ⟨b, hb, -⟩ := hinv.step_fence g
      exact ⟨b, hb⟩

/-- Some store with this sequence number is not even flushed at the end. -/
def VolatileAtEnd (ops : List AtomicOp) (x : Int) : Prop :=
  ∃ s, (s, .volatile) ∈ inFlight Flush.covers ops ∧ s.seq = x

/-- What the analysis of a whole operation returns.  The cluster after the fences is the
end of the operation, and the one after it what the implied fence leaves. -/
structure Describes (r : Analysis) (ops : List AtomicOp) : Prop where
  clusterSeq : ∀ c x, x ∈ listAt r.inFlightClusterSeqMap c ↔
    (1 ≤ c ∧ c ≤ fences ops + 1) ∧ InFlightAt ops c x ∨ c = fences ops + 2 ∧ VolatileAtEnd ops x
  clusterFlushing : ∀ c x, x ∈ listAt r.inFlightClusterFlushingMap c ↔
    (1 ≤ c ∧ c ≤ fences ops + 1) ∧ FlushingAt ops c x ∨ c = fences ops + 2 ∧ VolatileAtEnd ops x
  seqCluster : ∀ x c, c ∈ listAt r.inFlightSeqClusterMap x ↔
    (1 ≤ c ∧ c ≤ fences ops + 1) ∧ InFlightAt ops c x
  seqCluster_ne : ∀ x, r.inFlightSeqClusterMap.get? x ≠ some []
  writeDep : ∀ x y, y ∈ depsOf r.writeDepSeqMap x ↔
    ∃ c, (1 ≤ c ∧ c ≤ fences ops + 1) ∧ OverwritesAt ops c x y

theorem mem_set_last {d : Dict Nat (List Int)} {l : List Int} {n : Nat} {q : Nat → Int → Prop}
    {z : Int → Prop} (hd : ∀ c x, x ∈ listAt d c ↔ (1 ≤ c ∧ c ≤ n) ∧ q c x)
    (hl : ∀ x, x ∈ l ↔ z x) (c : Nat) (x : Int) :
    x ∈ listAt (d.set (n + 1) l) c ↔ (1 ≤ c ∧ c ≤ n) ∧ q c x ∨ c = n + 1 ∧ z x := by
  rw [listAt_set]
  by_cases hc : c = n + 1
  · rw [if_pos hc, hl]
    constructor
    · exact fun h => Or.inr ⟨hc, h⟩
    · rintro (⟨⟨-, h⟩, -⟩ | h)
      · omega
      · exact h.2
  · rw [if_neg hc, hd]
    simp [hc]

/-- Finishing succeeds, and the result describes the whole sequence. -/
theorem LoopInv.finish {a : Analysis} {ops : List AtomicOp} (h : LoopInv a ops) :
    ∃ r, a.finish = some r ∧ Describes r ops := by
  have hcut : beforeFence (fences ops + 1) ops = ops := beforeFence_all (Nat.lt_succ_self _)
  have hrec : Records a.mergeWriteDeps.recordCluster ops (fences ops + 1) := by
    have hr := h.records []
    rw [List.append_nil] at hr
    exact hr.record h.tracks hcut
  obtain ⟨nums, hnums⟩ := Option.isSome_iff_exists.mp
    (ReorderSimulator.getReorderNums_isSome true a.mergeWriteDeps.recordCluster.sim)
  have hlast : ∀ x, x ∈ a.sim.writeBackAllFlushingStores.getInFightOps.map Store.seq ↔
      VolatileAtEnd ops x := by
    intro x
    simp only [List.mem_map, h.tracks.mem_getInFightOps_writeBack, VolatileAtEnd]
  have hnum : (a.mergeWriteDeps.recordCluster.noteNums maxSize nums).inFlightClusterNum =
      fences ops + 1 := hrec.num
  refine ⟨_, by simp only [Analysis.finish, Analysis.recordNums, hnums]; rfl, ?_⟩
  exact {
    clusterSeq := by
      show ∀ c x, x ∈ listAt (Dict.set _ _ _) c ↔ _
      rw [hnum]
      exact mem_set_last hrec.clusterSeq hlast
    clusterFlushing := by
      show ∀ c x, x ∈ listAt (Dict.set _ _ _) c ↔ _
      rw [hnum]
      exact mem_set_last hrec.clusterFlushing hlast
    seqCluster := hrec.seqCluster
    seqCluster_ne := hrec.seqCluster_ne
    writeDep := hrec.writeDep }

/-- A run that ends describes its operations. -/
theorem describes_of_run {ops : List AtomicOp} (hf : Fresh ops) {r : Analysis}
    (h : Analysis.run ops = some r) : Describes r ops := by
  obtain ⟨a, ha, hr⟩ := Option.bind_eq_some_iff.mp h
  obtain ⟨r', hr', hd⟩ := (loopInv_of_loop hf ha).finish
  rw [hr'] at hr
  exact Option.some.inj hr ▸ hd

/-- The analysis is refused exactly when an operation leaves its cacheline. -/
theorem run_isSome_iff {ops : List AtomicOp} (hf : Fresh ops) :
    (Analysis.run ops).isSome ↔ ∀ op ∈ ops, inOneLine op = true := by
  constructor
  · intro h
    obtain ⟨r, hr⟩ := Option.isSome_iff_exists.mp h
    obtain ⟨a, ha, -⟩ := Option.bind_eq_some_iff.mp hr
    exact (loopInv_of_loop hf ha).inLine
  · intro h
    obtain ⟨a, ha⟩ := loop_isSome hf h
    obtain ⟨r, hr, -⟩ := (loopInv_of_loop hf ha).finish
    rw [Analysis.run, ha, Option.bind_some, hr]
    rfl

end OpTrace
end Silhouette
