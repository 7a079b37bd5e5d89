import Silhouette.Cache.Residency
import Silhouette.Cache.WriteDep

/-!
# The direction of write dependencies

A store counts the fences behind it, so of two stores that a fence separates the earlier one has
the larger count.  `get_write_dep_seq_map` sorts the counts in ascending order and makes every store
depend on the groups before its own: the earlier store is made to wait for the later one.
-/

namespace Silhouette
namespace Cache

open Lib Lib.Persist

/-- Feed the operations to an empty cache. -/
def Sim.acceptAll (ops : List AtomicOp) : Option Sim := ops.foldlM Sim.accept Sim.start

/-- A fence comes behind the first store and before the second. -/
def FencedApart (ops : List AtomicOp) (s t : Store) : Prop :=
  ∃ a b c, ops = a ++ .store s :: (b ++ .store t :: c) ∧ 0 < fences b

/-- A store waits for stores before it, among them those of its line that a fence separates from
it. -/
structure OrdersForward (m : Sim) (ops : List AtomicOp) : Prop where
  earlier : ∀ s d, d ∈ depsOf (getWriteDepSeqMap m) s → d < s
  fenced : ∀ s t, lineOf s.addr = lineOf t.addr → FencedApart ops s t →
    s.seq ∈ depsOf (getWriteDepSeqMap m) t.seq

/-! ## Counting fences -/

theorem length_iterate_acceptFence (g : Fence) (n : Nat) (o : StoreObj) :
    ((StoreObj.acceptFence g)^[n] o).fenceList.length = o.fenceList.length + n := by
  induction n with
  | zero => rfl
  | succ n ih =>
    rw [Function.iterate_succ_apply', StoreObj.acceptFence, List.length_append, ih]
    rfl

/-- The lines hold the stores that were fed, and each store has seen the fences behind it. -/
structure Accepted (m : Sim) (ops : List AtomicOp) : Prop where
  filed : m.WellFiled
  line : ∀ a, m.line a = (stores ops).filter fun s => lineOf s.addr = a
  fenced : ∀ pre s post, ops = pre ++ .store s :: post →
    (m.heap s.ref).fenceList.length = fences post
  unissued : ∀ r, r ∉ (stores ops).map Store.ref → (m.heap r).fenceList = []

/-- A store is the last operation, or the last operation comes behind it. -/
theorem store_last_or_before {ops pre post : List AtomicOp} {op : AtomicOp} {s : Store}
    (h : ops ++ [op] = pre ++ .store s :: post) :
    op = .store s ∧ post = [] ∨ ∃ rest, ops = pre ++ .store s :: rest ∧ post = rest ++ [op] := by
  cases post using List.reverseRecOn with
  | nil => exact Or.inl ⟨List.head_eq_of_cons_eq (List.append_inj' h rfl).2, rfl⟩
  | append_singleton rest last =>
    rw [← List.cons_append, ← List.append_assoc] at h
    obtain ⟨hops, hlast⟩ := List.append_inj' h rfl
    exact Or.inr ⟨rest, hops, by rw [List.head_eq_of_cons_eq hlast]⟩

namespace Accepted

variable {m : Sim} {ops : List AtomicOp}

theorem start : Accepted Sim.start [] where
  filed := Holds.start.filed
  line := fun _ => rfl
  fenced := fun pre s post h => absurd h (by simp)
  unissued := fun _ _ => rfl

theorem mem_getAllOps (h : Accepted m ops) {s : Store} : s ∈ m.getAllOps ↔ s ∈ stores ops := by
  simp only [Sim.mem_getAllOps, h.line, List.mem_filter, decide_eq_true_eq]
  exact ⟨fun ⟨a, hs, _⟩ => hs, fun hs => ⟨lineOf s.addr, hs, rfl⟩⟩

theorem putStore (h : Accepted m ops) {s : Store} (hf : Fresh (ops ++ [.store s])) :
    Accepted (m.putStore s) (ops ++ [.store s]) where
  filed := Sim.wellFiled_putStore h.filed s
  line := by
    intro a
    rw [Sim.line_putStore, h.line, stores_append, List.filter_append]
    by_cases ha : a = lineOf s.addr
    · rw [if_pos ha]
      simp [stores, ha]
    · rw [if_neg ha]
      simp [stores, Ne.symm ha]
  fenced := by
    intro pre t post heq
    rw [Sim.heap_putStore]
    rcases store_last_or_before heq with ⟨hst, rfl⟩ | ⟨post', hops, rfl⟩
    · -- the object of a new store is as its constructor left it
      rw [← Event.store.inj hst, h.unissued]
      · rfl
      · rw [Fresh, stores_append, List.map_append] at hf
        intro hmem
        exact (List.nodup_append.mp hf).2.2 _ hmem _ (List.mem_singleton_self _) rfl
    · rw [fences_append]
      exact h.fenced pre t post' hops
  unissued := by
    intro r hr
    rw [stores_append, List.map_append] at hr
    exact h.unissued r fun hmem => hr (List.mem_append_left _ hmem)

theorem putFlush (h : Accepted m ops) (f : Flush) :
    Accepted (m.putFlush f) (ops ++ [.flush f]) where
  filed := Sim.wellFiled_putFlush h.filed f
  line := by
    intro a
    rw [Sim.line_putFlush, h.line, stores_append]
    exact congrArg _ (List.append_nil _).symm
  fenced := by
    intro pre t post heq
    rw [Sim.heap_putFlush, fenceList_modifyAll_flush]
    rcases store_last_or_before heq with ⟨hst, -⟩ | ⟨post', hops, rfl⟩
    · cases hst
    · rw [fences_append]
      exact h.fenced pre t post' hops
  unissued := by
    intro r hr
    rw [Sim.heap_putFlush, fenceList_modifyAll_flush]
    rw [stores_append, List.map_append] at hr
    exact h.unissued r fun hmem => hr (List.mem_append_left _ hmem)

/-- A store is in the cache once. -/
theorem count_getAllOps (h : Accepted m ops) (hf : Fresh ops) {s : Store} (hs : s ∈ stores ops) :
    (m.getAllOps.map Store.ref).count s.ref = 1 := by
  have hnodup : m.getAllOps.Nodup := by
    refine Sim.nodup_getAllOps (fun a => ?_) fun a t ht => ?_
    · rw [h.line]
      exact (List.Nodup.of_map _ hf).filter _
    · rw [h.line, List.mem_filter] at ht
      exact of_decide_eq_true ht.2
  have hrefs : (m.getAllOps.map Store.ref).Nodup :=
    hnodup.map_on fun x hx y hy hxy =>
      hf.eq_of_ref_eq (h.mem_getAllOps.mp hx) (h.mem_getAllOps.mp hy) hxy
  exact List.count_eq_one_of_mem hrefs (List.mem_map_of_mem (h.mem_getAllOps.mpr hs))

theorem putFence (h : Accepted m ops) (hf : Fresh ops) (g : Fence) :
    Accepted (m.putFence g) (ops ++ [.fence g]) where
  filed := Sim.wellFiled_putFence h.filed g
  line := by
    intro a
    rw [Sim.line_putFence, h.line, stores_append]
    exact congrArg _ (List.append_nil _).symm
  fenced := by
    intro pre t post heq
    rw [Sim.heap_putFence]
    rcases store_last_or_before heq with ⟨hst, -⟩ | ⟨post', hops, rfl⟩
    · cases hst
    · have hmem : t ∈ stores ops := by
        rw [hops, stores_append]
        exact List.mem_append_right _ List.mem_cons_self
      rw [Heap.modifyAll_apply, length_iterate_acceptFence, h.count_getAllOps hf hmem, fences_append,
        h.fenced pre t post' hops]
      rfl
  unissued := by
    intro r hr
    rw [stores_append, List.map_append] at hr
    have hr' : r ∉ (stores ops).map Store.ref := fun hmem => hr (List.mem_append_left _ hmem)
    rw [Sim.heap_putFence, Heap.modifyAll_of_notMem]
    · exact h.unissued r hr'
    · intro hmem
      obtain ⟨s, hs, rfl⟩ := List.mem_map.mp hmem
      exact hr' (List.mem_map_of_mem (h.mem_getAllOps.mp hs))

end Accepted

theorem accepted_of_acceptAll {ops : List AtomicOp} (hf : Fresh ops) {m : Sim}
    (hm : Sim.acceptAll ops = some m) : Accepted m ops := by
  induction ops using List.reverseRecOn generalizing m with
  | nil =>
    rw [← Option.some.inj hm]
    exact Accepted.start
  | append_singleton ops op ih =>
    rw [Sim.acceptAll, List.foldlM_append] at hm
    obtain ⟨m₁, hm₁, hm₂⟩ := Option.bind_eq_some_iff.mp hm
    have hstep : m₁.accept op = some m := by simpa using hm₂
    have h := ih hf.left hm₁
    cases op with
    | store s =>
      rw [Sim.accept_store_eq h.filed] at hstep
      split_ifs at hstep
      exact Option.some.inj hstep ▸ h.putStore hf
    | flush f =>
      rw [Sim.accept_flush_eq h.filed] at hstep
      split_ifs at hstep
      exact Option.some.inj hstep ▸ h.putFlush f
    | fence g =>
      rw [Sim.accept_fence_eq] at hstep
      exact Option.some.inj hstep ▸ h.putFence hf.left g

/-! ## Which way the map points -/

section

variable {ops : List AtomicOp} {s t : Store}

theorem exists_split (h : s ∈ stores ops) : ∃ pre post, ops = pre ++ .store s :: post := by
  rw [← map_fst_life Flush.covers] at h
  obtain ⟨⟨s', p⟩, hlife, rfl⟩ := List.mem_map.mp h
  obtain ⟨pre, post, heq, -⟩ := (mem_life_iff _).mp hlife
  exact ⟨pre, post, heq⟩

theorem FencedApart.mem_stores (h : FencedApart ops s t) : s ∈ stores ops ∧ t ∈ stores ops := by
  obtain ⟨a, b, c, rfl, -⟩ := h
  simp [stores_append, stores]

theorem FencedApart.sublist (h : FencedApart ops s t) : List.Sublist [s, t] (stores ops) := by
  obtain ⟨a, b, c, rfl, -⟩ := h
  rw [stores_append, stores, stores_append, stores]
  refine List.Sublist.trans ?_ (List.sublist_append_right _ _)
  refine List.Sublist.cons_cons s (List.Sublist.trans ?_ (List.sublist_append_right _ _))
  exact List.Sublist.cons_cons t (List.nil_sublist _)

/-- The store with more fences behind it came first, and one of them before the other store. -/
theorem fencedApart_of_lt {pre post pre' post' : List AtomicOp}
    (hs : ops = pre ++ .store s :: post) (ht : ops = pre' ++ .store t :: post')
    (hlt : fences post' < fences post) : FencedApart ops s t := by
  rw [hs] at ht
  rcases List.append_eq_append_iff.mp ht with ⟨a, rfl, ha⟩ | ⟨a, rfl, ha⟩
  · cases a with
    | nil =>
      rw [(List.cons.inj ha).2] at hlt
      omega
    | cons x b =>
      have hpost : post = b ++ .store t :: post' := List.tail_eq_of_cons_eq ha
      rw [hpost, fences_append] at hlt
      refine ⟨pre, b, post', by rw [hs, hpost], ?_⟩
      have : fences (.store t :: post') = fences post' := rfl
      omega
  · have hfences : fences (.store t :: post') = fences (a ++ .store s :: post) := congrArg _ ha
    rw [fences_append] at hfences
    simp only [fences] at hfences
    omega

theorem Accepted.lt_of_fencedApart {m : Sim} (h : Accepted m ops) (hst : FencedApart ops s t) :
    (m.heap t.ref).fenceList.length < (m.heap s.ref).fenceList.length := by
  obtain ⟨a, b, c, heq, hb⟩ := hst
  rw [h.fenced a s _ heq, h.fenced (a ++ .store s :: b) t c (by rw [heq, List.append_assoc]; rfl),
    fences_append]
  simp only [fences]
  omega

theorem Accepted.fencedApart_of_lt {m : Sim} (h : Accepted m ops) (hs : s ∈ stores ops)
    (ht : t ∈ stores ops)
    (hlt : (m.heap t.ref).fenceList.length < (m.heap s.ref).fenceList.length) :
    FencedApart ops s t := by
  obtain ⟨pre, post, hpre⟩ := exists_split hs
  obtain ⟨pre', post', hpre'⟩ := exists_split ht
  rw [h.fenced pre s post hpre, h.fenced pre' t post' hpre'] at hlt
  exact Cache.fencedApart_of_lt hpre hpre' hlt

/-- The map points forward exactly when no fence separates two stores of one line. -/
theorem write_deps_forward_iff {m : Sim} (hf : Fresh ops)
    (hseq : (stores ops).Pairwise fun s t => s.seq ≤ t.seq) (hm : Sim.acceptAll ops = some m) :
    OrdersForward m ops ↔ ∀ s t, lineOf s.addr = lineOf t.addr → ¬ FencedApart ops s t := by
  have h := accepted_of_acceptAll hf hm
  have hline : ∀ {a : Int} {x : Store}, x ∈ m.line a ↔ x ∈ stores ops ∧ lineOf x.addr = a := by
    intro a x
    rw [h.line, List.mem_filter, decide_eq_true_iff]
  constructor
  · intro hford s t hst hapart
    obtain ⟨hs, ht⟩ := hapart.mem_stores
    have hle : s.seq ≤ t.seq := List.pairwise_iff_forall_sublist.mp hseq hapart.sublist
    by_cases hne : t.seq = s.seq
    · -- a store does not wait for its own number
      have hmem := hford.fenced s t hst hapart
      rw [hne] at hmem
      exact (mem_getWriteDepSeqMap.mp hmem).1 rfl
    · have hlater := hford.earlier s.seq t.seq (mem_getWriteDepSeqMap.mpr ⟨hne, lineOf s.addr, s,
        hline.mpr ⟨hs, rfl⟩, t, hline.mpr ⟨ht, hst.symm⟩, rfl, rfl,
        Or.inl (h.lt_of_fencedApart hapart)⟩)
      omega
  · intro hnone
    refine ⟨fun s d hd => ?_, fun s t hst hapart => absurd hapart (hnone s t hst)⟩
    obtain ⟨-, a, op, hop, dep, hdep, rfl, rfl, hdepends⟩ := mem_getWriteDepSeqMap.mp hd
    obtain ⟨hop, hopa⟩ := hline.mp hop
    obtain ⟨hdep, hdepa⟩ := hline.mp hdep
    rcases hdepends with hlt | ⟨hlt, -⟩
    · exact absurd (h.fencedApart_of_lt hop hdep hlt) (hnone op dep (hopa.trans hdepa.symm))
    · exact hlt

end

/-- Two stores of one slot and a fence behind them. -/
def overwriteOps : List AtomicOp :=
  [.store ⟨0, 1, 0, 8⟩, .store ⟨1, 2, 0, 8⟩, .flush ⟨3, 0, 64⟩, .fence ⟨4⟩]

def overwriteCache : Sim := (Sim.acceptAll overwriteOps).get (by decide +kernel)

theorem write_deps_forward_overwrite :
    OrdersForward overwriteCache overwriteOps ∧
      (1 : Int) ∈ depsOf (getWriteDepSeqMap overwriteCache) 2 := by
  have hm : Sim.acceptAll overwriteOps = some overwriteCache := (Option.some_get _).symm
  refine ⟨(write_deps_forward_iff (by decide +kernel) (by decide +kernel) hm).mpr ?_,
    by decide +kernel⟩
  intro s t _ hapart
  -- both stores have seen the one fence
  have hone : ∀ x ∈ stores overwriteOps, (overwriteCache.heap x.ref).fenceList.length = 1 := by
    decide +kernel
  have hlt := (accepted_of_acceptAll (by decide +kernel) hm).lt_of_fencedApart hapart
  rw [hone s hapart.mem_stores.1, hone t hapart.mem_stores.2] at hlt
  exact absurd hlt (lt_irrefl 1)

/-- Two stores of one line with a fence between them. -/
def fencedOps : List AtomicOp := [.store ⟨0, 1, 0, 8⟩, .fence ⟨2⟩, .store ⟨1, 3, 8, 8⟩]

def fencedCache : Sim := (Sim.acceptAll fencedOps).get (by decide +kernel)

/-- The earlier store waits for the later one, and the later one for none. -/
theorem write_deps_point_back :
    Fresh fencedOps ∧ ((stores fencedOps).Pairwise fun s t => s.seq ≤ t.seq) ∧
      Sim.acceptAll fencedOps = some fencedCache ∧
      (getWriteDepSeqMap fencedCache).items = [(1, {3})] ∧ ¬ OrdersForward fencedCache fencedOps := by
  have hback : (3 : Int) ∈ depsOf (getWriteDepSeqMap fencedCache) 1 := by decide +kernel
  refine ⟨by decide +kernel, by decide +kernel, (Option.some_get _).symm, by decide +kernel,
    fun h => ?_⟩
  exact absurd (h.earlier 1 3 hback) (by decide)

end Cache
end Silhouette
