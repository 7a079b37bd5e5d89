import Silhouette.Cache.Lines
import Mathlib.Data.List.TakeWhile

/-!
# Residency: which stores the cache holds

`drive` is the loop of `CrashPlanSchemeComb.generate_crash_plans` as far as the
cache is concerned: accept every operation and, after a fence, write back the
flushing and then the persisted stores.  `Resident` ties the cache it reaches to
the phases of the issued stores, and the loop keeps it.
-/

namespace Silhouette
namespace Cache

open Lib Lib.Persist
open scoped List

namespace Sim

/-- One round of the loop. -/
def driveOp (m : Sim) : AtomicOp → Option Sim
  | .store s => m.accept (.store s)
  | .flush f => m.accept (.flush f)
  | .fence g => (m.accept (.fence g)).map fun n =>
      n.writeBackAllFlushingStores.writeBackAllPersistedStores

def drive (ops : List AtomicOp) : Option Sim := ops.foldlM driveOp start

theorem drive_append_singleton (ops : List AtomicOp) (op : AtomicOp) :
    drive (ops ++ [op]) = (drive ops).bind fun m => m.driveOp op := by
  simp [drive, List.foldlM_append]

end Sim

/-- The state a store object shows in a phase; durable stores have left the cache. -/
def stateOf : Phase → AtomicStoreState
  | .volatile => .volatile
  | .flushing => .flushed
  | .durable => .persisted

/-- The in-flight stores of one line, in issue order. -/
def inFlightIn (ops : List AtomicOp) (a : Int) : List (Store × Phase) :=
  (inFlight Flush.covers ops).filter fun x => lineOf x.1.addr = a

theorem mem_stores_of_mem_inFlight {ops : List AtomicOp} {x : Store × Phase}
    (hx : x ∈ inFlight Flush.covers ops) : x.1 ∈ stores ops :=
  (inFlight_sublist Flush.covers ops).subset (List.mem_map_of_mem hx)

/-- Fresh stores are told apart by their references. -/
theorem Fresh.eq_of_ref_eq {ops : List AtomicOp} (hf : Fresh ops) {s t : Store}
    (hs : s ∈ stores ops) (ht : t ∈ stores ops) (h : s.ref = t.ref) : s = t :=
  List.inj_on_of_nodup_map hf hs ht h

theorem Fresh.ref_mem_iff {ops : List AtomicOp} (hf : Fresh ops) {s : Store} {l : List Store}
    (hs : s ∈ stores ops) (hl : ∀ t ∈ l, t ∈ stores ops) : s.ref ∈ l.map Store.ref ↔ s ∈ l := by
  constructor
  · intro h
    obtain ⟨t, ht, hr⟩ := List.mem_map.mp h
    exact hf.eq_of_ref_eq (hl t ht) hs hr ▸ ht
  · exact fun h => List.mem_map_of_mem h

/-- The lines hold the in-flight stores, whatever their order and number, and every
object shows the phase of its store. -/
structure Holds (m : Sim) (ops : List AtomicOp) : Prop where
  filed : m.WellFiled
  mem_line_iff : ∀ {s : Store} {a : Int},
    s ∈ m.line a ↔ lineOf s.addr = a ∧ ∃ p, (s, p) ∈ inFlight Flush.covers ops
  state : ∀ x ∈ inFlight Flush.covers ops, (m.heap x.1.ref).state = stateOf x.2
  unissued : ∀ r, r ∉ (stores ops).map Store.ref → m.heap r = StoreObj.init

namespace Holds

variable {m : Sim} {ops : List AtomicOp}

theorem start : Holds Sim.start [] where
  filed := fun _ _ h => absurd h (by simp [Sim.start, WitcherCache.new])
  mem_line_iff := by
    intro s a
    constructor
    · exact fun h => absurd h List.not_mem_nil
    · rintro ⟨-, p, hp⟩
      exact absurd hp List.not_mem_nil
  state := fun _ h => absurd h List.not_mem_nil
  unissued := fun _ _ => rfl

theorem mem_getAllOps_iff (h : Holds m ops) {s : Store} :
    s ∈ m.getAllOps ↔ ∃ p, (s, p) ∈ inFlight Flush.covers ops := by
  rw [Sim.mem_getAllOps]
  constructor
  · rintro ⟨a, ha⟩
    exact (h.mem_line_iff.mp ha).2
  · exact fun hp => ⟨lineOf s.addr, h.mem_line_iff.mpr ⟨rfl, hp⟩⟩

theorem mem_stores_of_mem_line (h : Holds m ops) {s : Store} {a : Int}
    (hs : s ∈ m.line a) : s ∈ stores ops := by
  obtain ⟨-, p, hp⟩ := h.mem_line_iff.mp hs
  exact mem_stores_of_mem_inFlight hp

theorem mem_stores_of_mem_getAllOps (h : Holds m ops) {s : Store}
    (hs : s ∈ m.getAllOps) : s ∈ stores ops := by
  obtain ⟨a, ha⟩ := Sim.mem_getAllOps.mp hs
  exact h.mem_stores_of_mem_line ha

/-- Objects of stores not yet issued stay as constructed while only issued stores
are updated. -/
theorem modifyAll_unissued (h : Holds m ops) {l : List Store} {op : AtomicOp}
    {f : StoreObj → StoreObj} (hl : ∀ s ∈ l, s ∈ stores ops) {r : Nat}
    (hr : r ∉ (stores (ops ++ [op])).map Store.ref) : m.heap.modifyAll l f r = StoreObj.init := by
  have hr' : r ∉ (stores ops).map Store.ref := by
    intro hmem
    rw [stores_append, List.map_append] at hr
    exact hr (List.mem_append_left _ hmem)
  have hnot : r ∉ l.map Store.ref := by
    intro hmem
    obtain ⟨s, hs, rfl⟩ := List.mem_map.mp hmem
    exact hr' (List.mem_map_of_mem (hl s hs))
  rw [Heap.modifyAll_of_notMem m.heap f hnot]
  exact h.unissued r hr'

theorem putStore (h : Holds m ops) {s : Store} (hf : Fresh (ops ++ [.store s])) :
    Holds (m.putStore s) (ops ++ [.store s]) where
  filed := Sim.wellFiled_putStore h.filed s
  mem_line_iff := by
    intro t a
    have hin : (∃ p, (t, p) ∈ inFlight Flush.covers (ops ++ [.store s])) ↔
        (∃ p, (t, p) ∈ inFlight Flush.covers ops) ∨ t = s := by
      simp only [inFlight_store, List.mem_append, List.mem_singleton, Prod.mk.injEq, exists_or]
      simp
    rw [Sim.line_putStore, hin]
    by_cases ha : a = lineOf s.addr
    · rw [if_pos ha, List.mem_append, List.mem_singleton, h.mem_line_iff]
      constructor
      · rintro (⟨hta, hp⟩ | rfl)
        · exact ⟨hta, Or.inl hp⟩
        · exact ⟨ha.symm, Or.inr rfl⟩
      · rintro ⟨hta, hp | rfl⟩
        · exact Or.inl ⟨hta, hp⟩
        · exact Or.inr rfl
    · rw [if_neg ha, h.mem_line_iff]
      constructor
      · rintro ⟨hta, hp⟩
        exact ⟨hta, Or.inl hp⟩
      · rintro ⟨hta, hp | rfl⟩
        · exact ⟨hta, hp⟩
        · exact absurd hta.symm ha
  state := by
    intro x hx
    rw [Sim.heap_putStore]
    rw [inFlight_store, List.mem_append, List.mem_singleton] at hx
    rcases hx with hx | rfl
    · exact h.state x hx
    · rw [h.unissued]
      · rfl
      · -- a fresh store is no object issued before
        rw [Fresh, stores_append, List.map_append] at hf
        intro hmem
        exact (List.nodup_append.mp hf).2.2 _ hmem _ (List.mem_singleton_self _) rfl
  unissued := by
    intro r hr
    rw [Sim.heap_putStore]
    exact h.modifyAll_unissued (l := []) (f := id) (by simp) hr

theorem putFlush (h : Holds m ops) (hf : Fresh ops) (f : Flush) :
    Holds (m.putFlush f) (ops ++ [.flush f]) where
  filed := Sim.wellFiled_putFlush h.filed f
  mem_line_iff := by
    intro s a
    rw [Sim.line_putFlush, h.mem_line_iff, inFlight_flush]
    simp only [List.mem_map, Prod.mk.injEq, Prod.exists]
    refine and_congr_right (fun _ => ⟨?_, ?_⟩)
    · rintro ⟨p, hp⟩
      exact ⟨_, s, p, hp, rfl, rfl⟩
    · rintro ⟨-, t, p, hp, rfl, -⟩
      exact ⟨p, hp⟩
  state := by
    intro x hx
    rw [inFlight_flush] at hx
    obtain ⟨⟨s, p⟩, hsp, rfl⟩ := List.mem_map.mp hx
    have hissued : s ∈ stores ops := mem_stores_of_mem_inFlight hsp
    have hmem : s ∈ (m.line (lineOf f.addr)).filter f.contains ↔ f.covers s = true := by
      rw [List.mem_filter, h.mem_line_iff]
      simp only [Flush.covers, Bool.decide_and, Bool.decide_eq_true, Bool.and_eq_true,
        decide_eq_true_eq]
      exact ⟨fun ⟨⟨ha, _⟩, hc⟩ => ⟨ha.symm, hc⟩, fun ⟨ha, hc⟩ => ⟨⟨ha.symm, p, hsp⟩, hc⟩⟩
    have href := (hf.ref_mem_iff hissued
      (fun t ht => h.mem_stores_of_mem_line (List.mem_filter.mp ht).1)).trans hmem
    have hp := h.state (s, p) hsp
    show ((m.putFlush f).heap s.ref).state =
      stateOf (if p = .volatile ∧ f.covers s then .flushing else p)
    rw [Sim.heap_putFlush, state_modifyAll_flush]
    by_cases hc : f.covers s = true
    · rw [if_pos (href.mpr hc)]
      cases p with
      | volatile => simp [hc, stateOf]
      | flushing => simp [stateOf]
      | durable => exact absurd rfl ((mem_inFlight_iff _).mp hsp).2
    · rw [if_neg (fun hmem' => hc (href.mp hmem')), if_neg (fun hpc => hc hpc.2)]
      exact hp
  unissued := fun r hr => by
    rw [Sim.heap_putFlush]
    exact h.modifyAll_unissued
      (fun s hs => h.mem_stores_of_mem_line (List.mem_filter.mp hs).1) hr

theorem mem_getAllWhere_iff (h : Holds m ops) {s : Store} {q : StoreObj → Bool} {phase : Phase}
    (hq : ∀ r p, (m.heap r).state = stateOf p → (q (m.heap r) = true ↔ p = phase)) :
    s ∈ m.getAllWhere q ↔ (s, phase) ∈ inFlight Flush.covers ops := by
  rw [Sim.mem_getAllWhere, ← Sim.mem_getAllOps, h.mem_getAllOps_iff]
  constructor
  · rintro ⟨⟨p, hp⟩, hs⟩
    exact (hq s.ref p (h.state (s, p) hp)).mp hs ▸ hp
  · intro hp
    exact ⟨⟨phase, hp⟩, (hq s.ref phase (h.state (s, phase) hp)).mpr rfl⟩

theorem mem_getAllVolatileOps_iff (h : Holds m ops) {s : Store} :
    s ∈ m.getAllVolatileOps ↔ (s, .volatile) ∈ inFlight Flush.covers ops := by
  refine h.mem_getAllWhere_iff (fun r p hp => ?_)
  cases p <;> simp [StoreObj.isClear, hp, stateOf]

theorem mem_getAllFlushingOps_iff (h : Holds m ops) {s : Store} :
    s ∈ m.getAllFlushingOps ↔ (s, .flushing) ∈ inFlight Flush.covers ops := by
  refine h.mem_getAllWhere_iff (fun r p hp => ?_)
  cases p <;> simp [StoreObj.isFlushing, hp, stateOf]

theorem mem_getInFightOps_iff (h : Holds m ops) {s : Store} :
    s ∈ m.getInFightOps ↔ ∃ p, (s, p) ∈ inFlight Flush.covers ops := by
  rw [Sim.getInFightOps, List.mem_append, h.mem_getAllVolatileOps_iff,
    h.mem_getAllFlushingOps_iff]
  constructor
  · rintro (hp | hp)
    · exact ⟨_, hp⟩
    · exact ⟨_, hp⟩
  · rintro ⟨p, hp⟩
    cases p with
    | volatile => exact Or.inl hp
    | flushing => exact Or.inr hp
    | durable => exact absurd rfl ((mem_inFlight_iff _).mp hp).2

/-- Writing back the flushing and the persisted stores keeps the volatile ones. -/
theorem mem_line_writeBack (h : Holds m ops) {s : Store} {a : Int} :
    s ∈ m.writeBackAllFlushingStores.writeBackAllPersistedStores.line a ↔
      lineOf s.addr = a ∧ (s, .volatile) ∈ inFlight Flush.covers ops := by
  rw [Sim.line_writeBacks, List.mem_filter, h.mem_line_iff, decide_eq_true_eq]
  constructor
  · rintro ⟨⟨ha, p, hp⟩, hs⟩
    rw [h.state (s, p) hp] at hs
    cases p with
    | volatile => exact ⟨ha, hp⟩
    | flushing => exact absurd hs (by simp [stateOf])
    | durable => exact absurd hs (by simp [stateOf])
  · rintro ⟨ha, hp⟩
    exact ⟨⟨ha, _, hp⟩, h.state (s, .volatile) hp⟩

/-- Writing back the flushing stores alone leaves the volatile ones in flight. -/
theorem mem_getInFightOps_writeBack (h : Holds m ops) {s : Store} :
    s ∈ m.writeBackAllFlushingStores.getInFightOps ↔
      (s, .volatile) ∈ inFlight Flush.covers ops := by
  have hline : ∀ a, s ∈ m.writeBackAllFlushingStores.line a ↔
      s ∈ m.line a ∧ (m.heap s.ref).isFlushing = false := by
    intro a
    rw [Sim.writeBackAllFlushingStores_eq, Sim.line_dropWhere, List.mem_filter]
    simp
  simp only [Sim.getInFightOps, Sim.getAllVolatileOps, Sim.getAllFlushingOps, List.mem_append,
    Sim.mem_getAllWhere, hline]
  rw [← h.mem_getAllVolatileOps_iff, Sim.getAllVolatileOps, Sim.mem_getAllWhere]
  constructor
  · rintro (⟨⟨a, hs, -⟩, hc⟩ | ⟨⟨a, -, hn⟩, hc⟩)
    · exact ⟨⟨a, hs⟩, hc⟩
    · have hc' : (m.heap s.ref).isFlushing = true := hc
      rw [hn] at hc'
      exact absurd hc' Bool.false_ne_true
  · rintro ⟨⟨a, hs⟩, hc⟩
    refine Or.inl ⟨⟨a, hs, ?_⟩, hc⟩
    simp only [StoreObj.isClear, decide_eq_true_eq] at hc
    simp [StoreObj.isFlushing, hc]

end Holds

/-- The cache holds exactly the in-flight stores, each in its line, once and in issue
order, and in the state of its phase. -/
structure Resident (m : Sim) (ops : List AtomicOp) : Prop extends Holds m ops where
  line : ∀ a, m.line a = (inFlightIn ops a).map Prod.fst

namespace Resident

variable {m : Sim} {ops : List AtomicOp}

theorem start : Resident Sim.start [] where
  toHolds := Holds.start
  line := fun _ => rfl

theorem mem_inFlightIn {s : Store} {a : Int} :
    s ∈ (inFlightIn ops a).map Prod.fst ↔
      lineOf s.addr = a ∧ ∃ p, (s, p) ∈ inFlight Flush.covers ops := by
  simp only [inFlightIn, List.mem_map, List.mem_filter, decide_eq_true_eq]
  constructor
  · rintro ⟨⟨t, p⟩, ⟨hp, ha⟩, rfl⟩
    exact ⟨ha, p, hp⟩
  · rintro ⟨ha, p, hp⟩
    exact ⟨(s, p), ⟨hp, ha⟩, rfl⟩

theorem putStore (h : Resident m ops) {s : Store} (hf : Fresh (ops ++ [.store s])) :
    Resident (m.putStore s) (ops ++ [.store s]) where
  toHolds := h.toHolds.putStore hf
  line := by
    intro a
    rw [Sim.line_putStore, inFlightIn, inFlight_store, List.filter_append, List.map_append,
      h.line a]
    by_cases ha : a = lineOf s.addr
    · rw [if_pos ha]
      simp [inFlightIn, ha]
    · rw [if_neg ha]
      simp [inFlightIn, Ne.symm ha]

theorem putFlush (h : Resident m ops) (hf : Fresh ops) (f : Flush) :
    Resident (m.putFlush f) (ops ++ [.flush f]) where
  toHolds := h.toHolds.putFlush hf f
  line := by
    intro a
    rw [Sim.line_putFlush, h.line a, inFlightIn, inFlightIn, inFlight_flush, List.filter_map,
      List.map_map]
    rfl

/-- After the fence itself the objects of flushing stores are persisted and the
others untouched. -/
theorem state_putFence (h : Resident m ops) (g : Fence) {x : Store × Phase}
    (hx : x ∈ inFlight Flush.covers ops) :
    ((m.putFence g).heap x.1.ref).state =
      if x.2 = .volatile then .volatile else .persisted := by
  obtain ⟨s, p⟩ := x
  have hs : s.ref ∈ m.getAllOps.map Store.ref :=
    List.mem_map_of_mem (h.mem_getAllOps_iff.mpr ⟨p, hx⟩)
  rw [Sim.heap_putFence, state_modifyAll_fence, h.state (s, p) hx]
  cases p <;> simp [hs, stateOf]

/-- The stores the two write-backs leave in a line are the volatile ones. -/
theorem line_fence (h : Resident m ops) (g : Fence) (a : Int) :
    (m.putFence g).writeBackAllFlushingStores.writeBackAllPersistedStores.line a =
      (inFlightIn (ops ++ [.fence g]) a).map Prod.fst := by
  rw [Sim.line_writeBacks, Sim.line_putFence, h.line a, inFlightIn, inFlightIn, inFlight_fence,
    List.filter_map, List.filter_filter, List.filter_filter]
  refine congrArg _ (List.filter_congr (fun x hx => ?_))
  simp only [Function.comp, h.state_putFence g hx]
  by_cases hp : x.2 = .volatile <;> simp [hp]

theorem fence (h : Resident m ops) (g : Fence) :
    Resident (m.putFence g).writeBackAllFlushingStores.writeBackAllPersistedStores
      (ops ++ [.fence g]) where
  filed := Sim.wellFiled_dropWhere (Sim.wellFiled_dropWhere (Sim.wellFiled_putFence h.filed g))
  mem_line_iff := by
    intro s a
    rw [h.line_fence g, mem_inFlightIn]
  line := h.line_fence g
  state := by
    intro x hx
    rw [inFlight_fence, List.mem_filter, decide_eq_true_eq] at hx
    rw [Sim.writeBackAllPersistedStores_eq, Sim.heap_dropWhere,
      Sim.writeBackAllFlushingStores_eq, Sim.heap_dropWhere, h.state_putFence g hx.1,
      if_pos hx.2, hx.2]
    rfl
  unissued := fun r hr => by
    show (m.putFence g).heap r = _
    rw [Sim.heap_putFence]
    exact h.modifyAll_unissued (fun s hs => h.mem_stores_of_mem_getAllOps hs) hr

/-- One round of the loop succeeds on an operation inside one line and keeps the
invariant. -/
theorem driveOp (h : Resident m ops) {op : AtomicOp} (hf : Fresh (ops ++ [op]))
    (hop : inOneLine op = true) : ∃ n, m.driveOp op = some n ∧ Resident n (ops ++ [op]) := by
  cases op with
  | store s =>
    refine ⟨m.putStore s, ?_, h.putStore hf⟩
    rw [Sim.driveOp, Sim.accept_store_eq h.filed, if_pos hop]
  | flush f =>
    refine ⟨m.putFlush f, ?_, h.putFlush hf.left f⟩
    rw [Sim.driveOp, Sim.accept_flush_eq h.filed, if_pos hop]
  | fence g => exact ⟨_, rfl, h.fence g⟩

end Resident

/-- The loop runs through and holds exactly the in-flight stores. -/
theorem drive_resident (ops : List AtomicOp) (hf : Fresh ops)
    (hops : ∀ op ∈ ops, inOneLine op = true) : ∃ m, Sim.drive ops = some m ∧ Resident m ops := by
  induction ops using List.reverseRecOn with
  | nil => exact ⟨Sim.start, rfl, Resident.start⟩
  | append_singleton ops op ih =>
    obtain ⟨m, hm, hr⟩ := ih hf.left (fun o ho => hops o (List.mem_append_left _ ho))
    obtain ⟨n, hn, hr'⟩ := hr.driveOp hf (hops op (List.mem_append_right _ (List.mem_singleton_self op)))
    exact ⟨n, by rw [Sim.drive_append_singleton, hm]; exact hn, hr'⟩

/-! ## What the loop's cache says about durability -/

theorem Fresh.beforeFence {ops : List AtomicOp} (hf : Fresh ops) (c : Nat) :
    Fresh (Lib.Persist.beforeFence c ops) := by
  obtain ⟨rest, hrest⟩ := beforeFence_isPrefix c ops
  refine Fresh.left (b := rest) ?_
  rw [hrest]
  exact hf

theorem Fresh.nodup_inFlight {ops : List AtomicOp} (hf : Fresh ops) :
    ((inFlight Flush.covers ops).map Prod.fst).Nodup :=
  (List.Nodup.of_map _ hf).sublist (inFlight_sublist Flush.covers ops)

namespace Resident

variable {m : Sim} {ops : List AtomicOp}

theorem line_sublist (h : Resident m ops) (a : Int) : m.line a <+ stores ops := by
  rw [h.line a]
  exact (List.filter_sublist.map Prod.fst).trans (inFlight_sublist Flush.covers ops)

/-- Every store of the cache occurs once. -/
theorem nodup_getAllOps (h : Resident m ops) (hf : Fresh ops) : m.getAllOps.Nodup := by
  have hnd : (stores ops).Nodup := List.Nodup.of_map _ hf
  exact Sim.nodup_getAllOps (fun a => hnd.sublist (h.line_sublist a))
    (fun a s hs => (h.mem_line_iff.mp hs).1)

theorem getAllOps_perm (h : Resident m ops) (hf : Fresh ops) :
    m.getAllOps ~ (inFlight Flush.covers ops).map Prod.fst := by
  refine (List.perm_ext_iff_of_nodup (h.nodup_getAllOps hf) hf.nodup_inFlight).mpr (fun s => ?_)
  rw [h.mem_getAllOps_iff, List.mem_map]
  constructor
  · rintro ⟨p, hp⟩
    exact ⟨(s, p), hp, rfl⟩
  · rintro ⟨⟨t, p⟩, hp, rfl⟩
    exact ⟨p, hp⟩

theorem getInFightOps_perm (h : Resident m ops) (hf : Fresh ops) :
    m.getInFightOps ~ (inFlight Flush.covers ops).map Prod.fst := by
  have hnd := Sim.nodup_getInFightOps (h.nodup_getAllOps hf)
  refine (List.perm_ext_iff_of_nodup hnd hf.nodup_inFlight).mpr (fun s => ?_)
  rw [h.mem_getInFightOps_iff, List.mem_map]
  constructor
  · rintro ⟨p, hp⟩
    exact ⟨(s, p), hp, rfl⟩
  · rintro ⟨⟨t, p⟩, hp, rfl⟩
    exact ⟨p, hp⟩

theorem getInFightNums_eq (h : Resident m ops) (hf : Fresh ops) :
    m.getInFightNums = (inFlight Flush.covers ops).length := by
  have hlen := (h.getInFightOps_perm hf).length_eq
  rw [Sim.getInFightOps, List.length_append, List.length_map] at hlen
  exact hlen

/-- The stores still in flight once the flushing ones are written back. -/
theorem getInFightOps_writeBack_perm (h : Resident m ops) (hf : Fresh ops) :
    m.writeBackAllFlushingStores.getInFightOps ~
      ((inFlight Flush.covers ops).filter fun x => x.2 = .volatile).map Prod.fst := by
  have hsub : ∀ a, m.writeBackAllFlushingStores.line a <+ m.line a := by
    intro a
    rw [Sim.writeBackAllFlushingStores_eq, Sim.line_dropWhere]
    exact List.filter_sublist
  have hnd : m.writeBackAllFlushingStores.getAllOps.Nodup :=
    Sim.nodup_getAllOps
      (fun a => (List.Nodup.of_map _ hf).sublist ((hsub a).trans (h.line_sublist a)))
      (fun a s hs => (h.mem_line_iff.mp ((hsub a).subset hs)).1)
  have hnd' : (((inFlight Flush.covers ops).filter fun x => x.2 = .volatile).map Prod.fst).Nodup :=
    hf.nodup_inFlight.sublist (List.filter_sublist.map Prod.fst)
  refine (List.perm_ext_iff_of_nodup (Sim.nodup_getInFightOps hnd) hnd').mpr (fun s => ?_)
  rw [h.mem_getInFightOps_writeBack]
  simp [List.mem_filter]

end Resident

/-- The flush is of one whole aligned cacheline. -/
def Flush.wholeLine (f : Flush) : Bool := f.addr = lineOf f.addr ∧ f.size = cachelineBytes

/-- A whole-line flush reaches every store of its line. -/
theorem Flush.covers_iff_of_wholeLine {f : Flush} {s : Store} (hf : f.wholeLine = true)
    (hs : inOneLine (.store s) = true) : f.covers s = true ↔ lineOf f.addr = lineOf s.addr := by
  simp only [Flush.wholeLine, inOneLine, Flush.covers, Flush.contains, Bool.decide_and,
    Bool.and_eq_true, decide_eq_true_eq] at *
  have hle := lineOf_le s.addr
  constructor
  · exact fun h => h.1
  · intro h
    refine ⟨h, ?_, ?_⟩ <;> omega

theorem Flush.inOneLine_of_wholeLine {f : Flush} (hf : f.wholeLine = true) :
    inOneLine (.flush f) = true := by
  simp only [Flush.wholeLine, inOneLine, Bool.decide_and, Bool.and_eq_true,
    decide_eq_true_eq] at *
  omega

/-- In a list where a property is inherited by everything before, it holds on a
first segment and fails on the rest. -/
theorem dropWhile_eq_of_pairwise {α : Type} {q : α → Bool} {l : List α}
    (h : l.Pairwise fun x y => q y = true → q x = true) : ∀ x ∈ l.dropWhile q, q x = false := by
  induction l with
  | nil => simp
  | cons x rest ih =>
    obtain ⟨hx, hrest⟩ := List.pairwise_cons.mp h
    by_cases hq : q x = true
    · rw [List.dropWhile_cons_of_pos hq]
      exact ih hrest
    · rw [List.dropWhile_cons_of_neg hq]
      intro y hy
      rcases List.mem_cons.mp hy with rfl | hy
      · exact Bool.eq_false_iff.mpr hq
      · exact Bool.eq_false_iff.mpr (fun hqy => hq (hx y hy hqy))

def NoEmptyLine (m : Sim) : Prop :=
  ∀ a cl, m.cache.cachelineDict.get? a = some cl → cl.storesList ≠ []

/-- What the cache reached after `pre` says about the stores of `pre`. -/
structure Durability (m : Sim) (pre : List AtomicOp) : Prop where
  absent_iff : ∀ a s b, pre = a ++ .store s :: b →
    (s ∉ m.getAllOps ↔
      ∃ f g, lineOf f.addr = lineOf s.addr ∧ [.flush f, .fence g] <+ b)
  issued : ∀ s ∈ m.getAllOps, s ∈ stores pre
  once : ∀ s ∈ m.getAllOps, m.getAllOps.count s = 1
  in_line : ∀ a, ∀ s ∈ m.line a,
    a = lineOf s.addr ∧ a ≤ s.addr ∧ s.addr + s.size ≤ a + cachelineBytes
  issue_order : ∀ a, m.line a <+ stores pre
  flushed_prefix : ∀ a, ∃ fl vo, m.line a = fl ++ vo ∧
    (∀ s ∈ fl, (m.heap s.ref).state = .flushed) ∧ (∀ s ∈ vo, (m.heap s.ref).state = .volatile)
  no_empty_line : ∀ g n, m.accept (.fence g) = some n →
    NoEmptyLine n.writeBackAllFlushingStores ∧
      NoEmptyLine n.writeBackAllFlushingStores.writeBackAllPersistedStores

/-- A fresh store has one phase. -/
theorem life_unique {ops : List AtomicOp} (hf : Fresh ops) {s : Store} {p q : Phase}
    (hp : (s, p) ∈ life Flush.covers ops) (hq : (s, q) ∈ life Flush.covers ops) : p = q :=
  life_unique_of_nodup _ (List.Nodup.of_map _ hf) hp hq

section

variable {m : Sim} {pre : List AtomicOp}

theorem Resident.absent_iff (h : Resident m pre) (hf : Fresh pre)
    (hstore : ∀ s, .store s ∈ pre → inOneLine (.store s) = true)
    (hflush : ∀ f, .flush f ∈ pre → f.wholeLine = true) {a b : List AtomicOp} {s : Store}
    (heq : pre = a ++ .store s :: b) :
    s ∉ m.getAllOps ↔ ∃ f g, lineOf f.addr = lineOf s.addr ∧ [.flush f, .fence g] <+ b := by
  have hs : inOneLine (.store s) = true := hstore s (by simp [heq])
  have hphase : (s, phase Flush.covers s b) ∈ life Flush.covers pre :=
    (mem_life_iff _).mpr ⟨a, b, heq, rfl⟩
  have hdur : s ∉ m.getAllOps ↔ phase Flush.covers s b = .durable := by
    rw [h.mem_getAllOps_iff]
    constructor
    · intro hno
      by_contra hd
      exact hno ⟨_, (mem_inFlight_iff _).mpr ⟨hphase, hd⟩⟩
    · rintro hd ⟨p, hp⟩
      obtain ⟨hlife, hne⟩ := (mem_inFlight_iff _).mp hp
      exact hne (life_unique hf hlife hphase ▸ hd)
  rw [hdur, phase_eq_durable_iff]
  have hcov : ∀ f g, [Event.flush f, .fence g] <+ b →
      (f.covers s = true ↔ lineOf f.addr = lineOf s.addr) := by
    intro f g hsub
    have hf' : .flush f ∈ pre := by
      rw [heq]
      exact List.mem_append_right _ (List.mem_cons_of_mem _ (hsub.subset List.mem_cons_self))
    exact Flush.covers_iff_of_wholeLine (hflush f hf') hs
  constructor
  · rintro ⟨f, g, hc, hsub⟩
    exact ⟨f, g, (hcov f g hsub).mp hc, hsub⟩
  · rintro ⟨f, g, hc, hsub⟩
    exact ⟨f, g, (hcov f g hsub).mpr hc, hsub⟩

/-- Whole-line flushes mark a line from its oldest store on. -/
theorem Resident.flushed_prefix (h : Resident m pre)
    (hstore : ∀ s, .store s ∈ pre → inOneLine (.store s) = true)
    (hflush : ∀ f, .flush f ∈ pre → f.wholeLine = true) (a : Int) :
    ∃ fl vo, m.line a = fl ++ vo ∧ (∀ s ∈ fl, (m.heap s.ref).state = .flushed) ∧
      (∀ s ∈ vo, (m.heap s.ref).state = .volatile) := by
  let q : Store × Phase → Bool := fun x => x.2 ≠ .volatile
  have hmono : (inFlightIn pre a).Pairwise fun x y => q y = true → q x = true := by
    have hlife := life_pairwise Flush.covers
      (R := fun s t => lineOf s.addr = lineOf t.addr ∧ .store t ∈ pre)
      (fun f hf s t hs hst hc => by
        rw [Flush.covers_iff_of_wholeLine (hflush f hf) (hstore s hs), hst.1]
        exact (Flush.covers_iff_of_wholeLine (hflush f hf) (hstore t hst.2)).mp hc)
    refine ((hlife.filter _).filter _).imp_of_mem (fun {x y} hx hy hxy hq => ?_)
    have hxa := (List.mem_filter.mp hx).2
    obtain ⟨hyl, hya⟩ := List.mem_filter.mp hy
    have hyp : .store y.1 ∈ pre := by
      obtain ⟨u, v, heq, -⟩ := (mem_life_iff _).mp ((mem_inFlight_iff _).mp hyl).1
      simp [heq]
    simp only [decide_eq_true_eq] at hxa hya
    simpa [q] using hxy ⟨hxa.trans hya.symm, hyp⟩ (by simpa [q] using hq)
  have hin : ∀ x ∈ inFlightIn pre a, x ∈ inFlight Flush.covers pre :=
    fun x hx => (List.mem_filter.mp hx).1
  refine ⟨((inFlightIn pre a).takeWhile q).map Prod.fst,
    ((inFlightIn pre a).dropWhile q).map Prod.fst, ?_, ?_, ?_⟩
  · rw [← List.map_append, List.takeWhile_append_dropWhile]
    exact h.line a
  · intro s hs
    obtain ⟨x, hx, rfl⟩ := List.mem_map.mp hs
    have hxi := hin x ((List.takeWhile_sublist q).subset hx)
    have hqx : q x = true := List.mem_takeWhile_imp hx
    rw [h.state x hxi]
    obtain ⟨t, p⟩ := x
    cases p with
    | volatile => simp [q] at hqx
    | flushing => rfl
    | durable => exact absurd rfl ((mem_inFlight_iff _).mp hxi).2
  · intro s hs
    obtain ⟨x, hx, rfl⟩ := List.mem_map.mp hs
    have hqx := dropWhile_eq_of_pairwise hmono x hx
    rw [h.state x (hin x ((List.dropWhile_sublist q).subset hx))]
    have hv : x.2 = .volatile := by simpa [q] using hqx
    rw [hv]
    rfl

end

/-- Driven by the loop, the cache characterises durability at every point of a run. -/
theorem drive_durability (ops : List AtomicOp) (hf : Fresh ops)
    (hstore : ∀ s, .store s ∈ ops → inOneLine (.store s) = true)
    (hflush : ∀ f, .flush f ∈ ops → f.wholeLine = true) :
    ∀ pre, pre <+: ops → ∃ m, Sim.drive pre = some m ∧ Durability m pre := by
  intro pre hpre
  obtain ⟨rest, rfl⟩ := hpre
  have hstore' : ∀ s, .store s ∈ pre → inOneLine (.store s) = true :=
    fun s hs => hstore s (List.mem_append_left _ hs)
  have hflush' : ∀ f, .flush f ∈ pre → f.wholeLine = true :=
    fun f hfl => hflush f (List.mem_append_left _ hfl)
  have hops : ∀ op ∈ pre, inOneLine op = true := by
    intro op hop
    cases op with
    | store s => exact hstore' s hop
    | flush f => exact Flush.inOneLine_of_wholeLine (hflush' f hop)
    | fence g => rfl
  obtain ⟨m, hm, hr⟩ := drive_resident pre hf.left hops
  refine ⟨m, hm, ?_, ?_, ?_, ?_, hr.line_sublist, hr.flushed_prefix hstore' hflush', ?_⟩
  · intro a s b heq
    exact hr.absent_iff hf.left hstore' hflush' heq
  · exact fun s hs => hr.mem_stores_of_mem_getAllOps hs
  · exact fun s hs => List.count_eq_one_of_mem (hr.nodup_getAllOps hf.left) hs
  · intro a s hs
    obtain ⟨ha, p, hp⟩ := hr.mem_line_iff.mp hs
    obtain ⟨u, v, heq, -⟩ := (mem_life_iff _).mp ((mem_inFlight_iff _).mp hp).1
    have hin : inOneLine (.store s) = true := hstore' s (by simp [heq])
    subst ha
    exact ⟨rfl, lineOf_le s.addr, by simpa [inOneLine] using hin⟩
  · intro g n _
    exact ⟨fun a cl h => Sim.ne_nil_of_get?_dropWhere h,
      fun a cl h => Sim.ne_nil_of_get?_dropWhere h⟩

/-- Two stores of one line, the first flushed and fenced before the second is issued,
and a flush that creates an empty line. -/
theorem drive_durability_two_stores :
    ∃ m, Sim.drive [.store ⟨0, 1, 64, 8⟩, .flush ⟨2, 64, 64⟩, .fence ⟨3⟩,
        .store ⟨1, 4, 72, 8⟩, .flush ⟨5, 128, 64⟩] = some m ∧
      Durability m [.store ⟨0, 1, 64, 8⟩, .flush ⟨2, 64, 64⟩, .fence ⟨3⟩,
        .store ⟨1, 4, 72, 8⟩, .flush ⟨5, 128, 64⟩] :=
  drive_durability _ (by decide) (by simp [inOneLine, lineOf, alignToFloor, cachelineBytes])
    (by simp [Flush.wholeLine, lineOf, alignToFloor, cachelineBytes]) _ List.prefix_rfl

end Cache
end Silhouette
