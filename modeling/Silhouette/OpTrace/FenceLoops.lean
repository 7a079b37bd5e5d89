import Silhouette.OpTrace.CacheRun

/-!
# The two fence loops

The analysis of an operation and the exhaustive crash plan scheme drive one cache each
over the same atomic operations.  They part at the first fence that finds stores in
flight of which none is flushed: the analysis then accepts the last of them a second
time, and the copy stays.  When a store is flushing, the store accepted again is a
flushing one and the write-back removes both occurrences.

The module shows that this is the only way to part, and what the recorded clusters
list as long as it does not happen.
-/

namespace Silhouette
namespace OpTrace

open Lib Lib.Persist Cache
open scoped List

/-- The stores of every line with their states. -/
def lineView (m : Sim) (a : Int) : List (Store × AtomicStoreState) :=
  (m.line a).map fun s => (s, (m.heap s.ref).state)

/-- After each fence both caches hold the same stores in the same states, line by line. -/
def LinesAgree (ops : List AtomicOp) : Prop :=
  ∀ pre g, pre ++ [.fence g] <+: ops →
    (Analysis.loop (pre ++ [.fence g])).map (fun a => lineView a.sim) =
      (Sim.drive (pre ++ [.fence g])).map lineView

/-- Nothing is in flight, or something in flight is flushed. -/
def FenceClears (pre : List AtomicOp) : Prop :=
  inFlight Flush.covers pre = [] ∨ ∃ x ∈ inFlight Flush.covers pre, x.2 = .flushing

/-- Every fence that is reached clears. -/
def FencesClear (ops : List AtomicOp) : Prop :=
  ∀ pre g, pre ++ [.fence g] <+: ops → (∀ op ∈ pre, inOneLine op = true) → FenceClears pre

/-- Every line lists its in-flight stores once and in issue order. -/
def ExactLines (m : Sim) (ops : List AtomicOp) : Prop :=
  ∀ a, m.line a = (inFlightIn ops a).map Prod.fst

/-! ## One fence -/

/-- What the analysis adds to a line before the write-backs. -/
def extraStores (m : Sim) (a : Int) : List Store :=
  match m.getInFightOps.getLast? with
  | some s => if a = lineOf s.addr then [s] else []
  | none => []

section

variable {m n : Sim} {ops : List AtomicOp} {g : Fence}

theorem filter_volatile_inFlightIn (a : Int) :
    (inFlightIn (ops ++ [.fence g]) a) = (inFlightIn ops a).filter fun x => x.2 = .volatile := by
  rw [inFlightIn, inFlight_fence, inFlightIn, List.filter_filter, List.filter_filter]
  exact List.filter_congr (fun x _ => Bool.and_comm _ _)

theorem Tracks.line_acceptAtFence (h : Tracks m ops) (hops : ∀ op ∈ ops, inOneLine op = true)
    (hn : Analysis.acceptAtFence m g = some n) (a : Int) :
    n.line a = (m.line a ++ extraStores m a).filter fun s => (m.heap s.ref).state = .volatile := by
  rw [Analysis.acceptAtFence, Analysis.fenceOp] at hn
  cases hl : m.getInFightOps.getLast? with
  | none =>
    have hempty := List.getLast?_eq_none_iff.mp hl
    rw [hl, Sim.accept_fence_eq, Option.map_some, Option.some.injEq] at hn
    have hline : m.line a = [] := by
      refine List.eq_nil_iff_forall_not_mem.mpr (fun s hs => ?_)
      have hin := h.mem_getInFightOps_iff.mpr (h.mem_line_iff.mp hs).2
      rw [hempty] at hin
      exact List.not_mem_nil hin
    rw [← hn, Sim.line_writeBacks, Sim.line_putFence, hline, extraStores, hl]
    rfl
  | some s =>
    have hs : s ∈ m.getInFightOps := List.mem_of_getLast? hl
    have hin : inOneLine (.store s) = true := h.inOneLine_of_inFight hops hs
    rw [hl] at hn
    simp only [Sim.accept_store_eq h.filed, if_pos hin, Option.map_some, Option.some.injEq] at hn
    rw [← hn, Sim.line_writeBacks, Sim.line_putStore, extraStores, hl, Sim.heap_putStore]
    by_cases ha : a = lineOf s.addr
    · simp [ha]
    · simp [ha]

/-- The last store in flight is a flushing one whenever there is any. -/
theorem Tracks.last_volatile_iff (h : Tracks m ops) {s : Store}
    (hs : m.getInFightOps.getLast? = some s) :
    (m.heap s.ref).state = .volatile ↔ ¬ ∃ x ∈ inFlight Flush.covers ops, x.2 = .flushing := by
  rw [Sim.getInFightOps, List.getLast?_append] at hs
  cases hl : m.getAllFlushingOps.getLast? with
  | some t =>
    rw [hl, Option.some_or, Option.some.injEq] at hs
    subst hs
    have ht := h.mem_getAllFlushingOps_iff.mp (List.mem_of_getLast? hl)
    have hst := h.state _ ht
    constructor
    · intro hv
      rw [hv] at hst
      exact absurd hst (by simp [stateOf])
    · intro hno
      exact absurd ⟨_, ht, rfl⟩ hno
  | none =>
    rw [hl, Option.none_or] at hs
    have ht := h.mem_getAllVolatileOps_iff.mp (List.mem_of_getLast? hs)
    refine ⟨fun _ => ?_, fun _ => h.state _ ht⟩
    rintro ⟨⟨t, p⟩, hx, rfl⟩
    have hin := h.mem_getAllFlushingOps_iff.mpr hx
    rw [List.getLast?_eq_none_iff.mp hl] at hin
    exact List.not_mem_nil hin

/-- The lines stay exact over a fence exactly when the fence clears. -/
theorem exactLines_fence_iff (h : Tracks m ops) (hops : ∀ op ∈ ops, inOneLine op = true)
    (he : ExactLines m ops) (hn : Analysis.acceptAtFence m g = some n) :
    ExactLines n (ops ++ [.fence g]) ↔ FenceClears ops := by
  have hbase : ∀ a, (m.line a).filter (fun s => (m.heap s.ref).state = .volatile) =
      (inFlightIn (ops ++ [.fence g]) a).map Prod.fst := by
    intro a
    rw [he a, filter_volatile_inFlightIn, List.filter_map]
    refine congrArg _ (List.filter_congr (fun x hx => ?_))
    have hst := h.state x (List.mem_filter.mp hx).1
    obtain ⟨s, p⟩ := x
    cases p <;> simp_all [stateOf]
  have hline : ∀ a, n.line a = (inFlightIn (ops ++ [.fence g]) a).map Prod.fst ++
      (extraStores m a).filter fun s => (m.heap s.ref).state = .volatile := by
    intro a
    rw [h.line_acceptAtFence hops hn, List.filter_append, hbase]
  have hempty : m.getInFightOps = [] ↔ inFlight Flush.covers ops = [] := by
    rw [List.eq_nil_iff_forall_not_mem, List.eq_nil_iff_forall_not_mem]
    simp only [h.mem_getInFightOps_iff, not_exists, Prod.forall]
  simp only [ExactLines, hline, List.append_right_eq_self, FenceClears]
  cases hl : m.getInFightOps.getLast? with
  | none =>
    have hnil := hempty.mp (List.getLast?_eq_none_iff.mp hl)
    simp [extraStores, hl, hnil]
  | some s =>
    have hne : ¬ inFlight Flush.covers ops = [] := by
      intro hnil
      rw [hempty.mpr hnil] at hl
      simp at hl
    have hv := h.last_volatile_iff hl
    constructor
    · intro hall
      have hs := hall (lineOf s.addr)
      simp only [extraStores, hl, if_true, List.filter_cons, List.filter_nil] at hs
      by_contra hno
      rw [not_or] at hno
      rw [if_pos (decide_eq_true (hv.mpr hno.2))] at hs
      exact absurd hs (by simp)
    · rintro (hnil | hfl) a
      · exact absurd hnil hne
      · have hnv : ¬ (m.heap s.ref).state = .volatile := fun hvol => hv.mp hvol hfl
        by_cases ha : a = lineOf s.addr
        · simp [extraStores, hl, ha, hnv]
        · simp [extraStores, hl, ha]

end

/-! ## Whole runs -/

theorem FencesClear.left {ops : List AtomicOp} {op : AtomicOp} (h : FencesClear (ops ++ [op])) :
    FencesClear ops :=
  fun pre g hpre => h pre g (hpre.trans (List.prefix_append ops [op]))

theorem fencesClear_append {ops : List AtomicOp} {op : AtomicOp} :
    FencesClear (ops ++ [op]) ↔ FencesClear ops ∧
      ∀ g, op = .fence g → (∀ o ∈ ops, inOneLine o = true) → FenceClears ops := by
  constructor
  · intro h
    refine ⟨h.left, fun g hop hops => h ops g ?_ hops⟩
    rw [hop]
  · rintro ⟨h, hlast⟩ pre g hpre hops
    rcases List.prefix_concat_iff.mp hpre with heq | hpre
    · obtain ⟨rfl, hop⟩ := List.append_inj' heq rfl
      exact hlast g (List.cons.inj hop).1.symm hops
    · exact h pre g hpre hops

theorem linesAgree_append {ops : List AtomicOp} {op : AtomicOp} :
    LinesAgree (ops ++ [op]) ↔ LinesAgree ops ∧ ∀ g, op = .fence g →
      (Analysis.loop (ops ++ [.fence g])).map (fun a => lineView a.sim) =
        (Sim.drive (ops ++ [.fence g])).map lineView := by
  constructor
  · intro h
    refine ⟨fun pre g hpre => h pre g (hpre.trans (List.prefix_append ops [op])), ?_⟩
    intro g hop
    exact h ops g (by rw [hop])
  · rintro ⟨h, hlast⟩ pre g hpre
    rcases List.prefix_concat_iff.mp hpre with heq | hpre
    · obtain ⟨rfl, hop⟩ := List.append_inj' heq rfl
      exact hlast g (List.cons.inj hop).1.symm
    · exact h pre g hpre

/-- What a step does to the cache, when the operations before it stayed in their lines. -/
theorem LoopInv.sim_step {a b : Analysis} {ops : List AtomicOp} {op : AtomicOp}
    (h : LoopInv a ops) (hs : a.step op = some b) :
    match op with
    | .store s => b.sim = a.sim.putStore s
    | .flush f => b.sim = a.sim.putFlush f
    | .fence g => Analysis.acceptAtFence a.sim g = some b.sim := by
  cases op with
  | store s =>
    rw [Analysis.step, Sim.accept_store_eq h.tracks.filed] at hs
    by_cases hin : inOneLine (.store s) = true
    · rw [if_pos hin, Option.map_some, Option.some.injEq] at hs
      exact hs ▸ rfl
    · rw [if_neg hin] at hs
      simp at hs
  | flush f =>
    rw [Analysis.step, Sim.accept_flush_eq h.tracks.filed] at hs
    by_cases hin : inOneLine (.flush f) = true
    · rw [if_pos hin, Option.map_some, Option.some.injEq] at hs
      exact hs ▸ rfl
    · rw [if_neg hin] at hs
      simp at hs
  | fence g =>
    simp only [Analysis.step, Analysis.recordNums, Option.bind_eq_bind, Option.bind_eq_some_iff,
      Option.map_eq_some_iff, Option.pure_def, Option.some.injEq] at hs
    obtain ⟨c, ⟨nums, -, rfl⟩, m, hm, rfl⟩ := hs
    exact hm

/-- As long as the fences clear, the cache of the analysis is the one of the other loop. -/
theorem exactLines_of_fencesClear {ops : List AtomicOp} (hf : Fresh ops) (hc : FencesClear ops)
    {a : Analysis} (h : Analysis.loop ops = some a) : ExactLines a.sim ops := by
  induction ops using List.reverseRecOn generalizing a with
  | nil =>
    rw [← Option.some.inj h]
    exact fun _ => rfl
  | append_singleton ops op ih =>
    rw [Analysis.loop_append_singleton, Option.bind_eq_some_iff] at h
    obtain ⟨b, hb, hstep⟩ := h
    have hinv := loopInv_of_loop hf.left hb
    have hexact := ih hf.left hc.left hb
    have hres : Resident b.sim ops := ⟨hinv.tracks.toHolds, hexact⟩
    have hsim := hinv.sim_step hstep
    cases op with
    | store s =>
      rw [hsim]
      exact (hres.putStore hf).line
    | flush f =>
      rw [hsim]
      exact (hres.putFlush hf.left f).line
    | fence g =>
      exact (exactLines_fence_iff hinv.tracks hinv.inLine hexact hsim).mpr
        ((fencesClear_append.mp hc).2 g rfl hinv.inLine)

theorem lineView_eq {m : Sim} {ops : List AtomicOp} (h : Holds m ops) (he : ExactLines m ops)
    (a : Int) : lineView m a = (inFlightIn ops a).map fun x => (x.1, stateOf x.2) := by
  rw [lineView, he a, List.map_map]
  refine List.map_congr_left (fun x hx => ?_)
  simp only [Function.comp, h.state x (List.mem_filter.mp hx).1]

theorem exactLines_of_lineView_eq {m n : Sim} {ops : List AtomicOp} (h : Resident n ops)
    (he : lineView m = lineView n) : ExactLines m ops := by
  have hfst : ∀ (k : Sim) (a : Int), (lineView k a).map Prod.fst = k.line a := by
    intro k a
    rw [lineView, List.map_map]
    exact List.map_id _
  intro a
  rw [← hfst m a, he, hfst n a]
  exact h.line a

/-- Both loops refuse the same sequences. -/
theorem inOneLine_of_drive {ops : List AtomicOp} (hf : Fresh ops) {m : Sim}
    (h : Sim.drive ops = some m) : ∀ op ∈ ops, inOneLine op = true := by
  induction ops using List.reverseRecOn generalizing m with
  | nil => simp
  | append_singleton ops op ih =>
    rw [Sim.drive_append_singleton, Option.bind_eq_some_iff] at h
    obtain ⟨n, hn, hop⟩ := h
    have hops := ih hf.left hn
    obtain ⟨n', hn', hr⟩ := drive_resident ops hf.left hops
    obtain rfl : n = n' := Option.some.inj (hn.symm.trans hn')
    intro o ho
    rcases List.mem_append.mp ho with ho | ho
    · exact hops o ho
    · rw [List.mem_singleton.mp ho]
      by_contra hno
      cases op with
      | store s => simp [Sim.driveOp, Sim.accept_store_eq hr.filed, hno] at hop
      | flush f => simp [Sim.driveOp, Sim.accept_flush_eq hr.filed, hno] at hop
      | fence g => exact hno rfl

/-- The caches agree after a fence exactly when that fence clears, if all fences before
it did. -/
theorem view_fence_iff {ops : List AtomicOp} (hf : Fresh ops) (hc : FencesClear ops) (g : Fence) :
    (Analysis.loop (ops ++ [.fence g])).map (fun a => lineView a.sim) =
        (Sim.drive (ops ++ [.fence g])).map lineView ↔
      ((∀ o ∈ ops, inOneLine o = true) → FenceClears ops) := by
  by_cases hops : ∀ o ∈ ops, inOneLine o = true
  · obtain ⟨a, ha⟩ := loop_isSome hf hops
    have hinv := loopInv_of_loop hf ha
    have hexact := exactLines_of_fencesClear hf hc ha
    obtain ⟨b, hb, hinv'⟩ := hinv.step_fence g
    have hfence : Fresh (ops ++ [.fence g]) := by
      rw [Fresh, stores_append]
      simpa [stores, Fresh] using hf
    obtain ⟨n, hn, hr⟩ := drive_resident (ops ++ [.fence g]) hfence hinv'.inLine
    have hiff := exactLines_fence_iff hinv.tracks hops hexact (hinv.sim_step hb)
    rw [Analysis.loop_append_singleton, ha, Option.bind_some, hb, hn, Option.map_some,
      Option.map_some, Option.some.injEq]
    rw [← hiff]
    constructor
    · exact fun hview _ => exactLines_of_lineView_eq hr hview
    · intro he
      funext x
      rw [lineView_eq hinv'.tracks.toHolds (he hops), lineView_eq hr.toHolds hr.line]
  · have hl : Analysis.loop (ops ++ [.fence g]) = none := by
      cases h : Analysis.loop ops with
      | none => rw [Analysis.loop_append_singleton, h, Option.bind_none]
      | some a => exact absurd (loopInv_of_loop hf h).inLine hops
    have hd : Sim.drive (ops ++ [.fence g]) = none := by
      cases h : Sim.drive ops with
      | none => rw [Sim.drive_append_singleton, h, Option.bind_none]
      | some m => exact absurd (inOneLine_of_drive hf h) hops
    rw [hl, hd]
    exact ⟨fun _ h => absurd h hops, fun _ => rfl⟩

theorem linesAgree_iff {ops : List AtomicOp} (hf : Fresh ops) :
    LinesAgree ops ↔ FencesClear ops := by
  induction ops using List.reverseRecOn with
  | nil => simp [LinesAgree, FencesClear]
  | append_singleton ops op ih =>
    rw [linesAgree_append, fencesClear_append, ih hf.left]
    refine and_congr_right (fun hc => ?_)
    simp only [view_fence_iff hf.left hc]

/-! ## The recorded clusters -/

/-- The stores in flight at the `c`-th fence, in issue order. -/
def inFlightStores (ops : List AtomicOp) (c : Nat) : List Store :=
  (inFlight Flush.covers (beforeFence c ops)).map Prod.fst

/-- The first `n` clusters list the stores in flight, and their numbers are noted. -/
structure ExactRecords (a : Analysis) (ops : List AtomicOp) (n : Nat) : Prop where
  num : a.inFlightClusterNum = n
  clusters : ∀ c, 1 ≤ c → c ≤ n →
    listAt a.inFlightClusterSeqMap c ~ (inFlightStores ops c).map Store.seq
  nums : a.inFightStoreNum = (List.range n).map fun i => (inFlightStores ops (i + 1)).length

namespace ExactRecords

variable {a : Analysis} {ops pre : List AtomicOp} {n : Nat}

theorem setSim (h : ExactRecords a ops n) (m : Sim) : ExactRecords { a with sim := m } ops n :=
  ⟨h.num, h.clusters, h.nums⟩

/-- The cluster at a cut lists the in-flight stores of the cut. -/
theorem recordCluster (h : ExactRecords a ops n) (hr : Resident a.sim pre) (hf : Fresh pre)
    (hcut : beforeFence (n + 1) ops = pre) (c : Nat) (h1 : 1 ≤ c) (hc : c ≤ n + 1) :
    listAt a.mergeWriteDeps.recordCluster.inFlightClusterSeqMap c ~
      (inFlightStores ops c).map Store.seq := by
  have hnum : a.mergeWriteDeps.inFlightClusterNum = n := h.num
  show listAt (a.inFlightClusterSeqMap.set (a.mergeWriteDeps.inFlightClusterNum + 1)
    (a.sim.getInFightOps.map Store.seq)) c ~ _
  rw [hnum, listAt_set]
  by_cases hcn : c = n + 1
  · rw [if_pos hcn, hcn, inFlightStores, hcut]
    exact (hr.getInFightOps_perm hf).map Store.seq
  · rw [if_neg hcn]
    exact h.clusters c h1 (by omega)

theorem nums_append (h : ExactRecords a ops n) (hr : Resident a.sim pre) (hf : Fresh pre)
    (hcut : beforeFence (n + 1) ops = pre) :
    a.inFightStoreNum ++ [a.sim.getInFightNums] =
      (List.range (n + 1)).map fun i => (inFlightStores ops (i + 1)).length := by
  rw [List.range_succ, List.map_append, h.nums, hr.getInFightNums_eq hf, List.map_singleton,
    inFlightStores, hcut, List.length_map]

end ExactRecords

theorem exactRecords_of_fencesClear {ops : List AtomicOp} (hf : Fresh ops) (hc : FencesClear ops)
    {a : Analysis} (h : Analysis.loop ops = some a) (more : List AtomicOp) :
    ExactRecords a (ops ++ more) (fences ops) := by
  induction ops using List.reverseRecOn generalizing a more with
  | nil =>
    rw [← Option.some.inj h]
    exact ⟨rfl, fun c h1 h0 => absurd h1 (by simp only [fences] at h0; omega), rfl⟩
  | append_singleton ops op ih =>
    rw [Analysis.loop_append_singleton, Option.bind_eq_some_iff] at h
    obtain ⟨b, hb, hstep⟩ := h
    have hinv := loopInv_of_loop hf.left hb
    have hres : Resident b.sim ops :=
      ⟨hinv.tracks.toHolds, exactLines_of_fencesClear hf.left hc.left hb⟩
    have hrec := ih hf.left hc.left hb (op :: more)
    rw [List.append_assoc, List.singleton_append, fences_append]
    cases op with
    | store s =>
      obtain ⟨m, -, rfl⟩ := Option.map_eq_some_iff.mp hstep
      exact hrec.setSim m
    | flush f =>
      obtain ⟨m, -, rfl⟩ := Option.map_eq_some_iff.mp hstep
      exact hrec.setSim m
    | fence g =>
      simp only [Analysis.step, Analysis.recordNums, Option.bind_eq_bind, Option.bind_eq_some_iff,
        Option.map_eq_some_iff, Option.pure_def, Option.some.injEq] at hstep
      obtain ⟨d, ⟨nums, -, rfl⟩, m, -, rfl⟩ := hstep
      have hcut : beforeFence (fences ops + 1) (ops ++ .fence g :: more) = ops :=
        beforeFence_eq rfl
      exact {
        num := congrArg (· + 1) hrec.num
        clusters := hrec.recordCluster hres hf.left hcut
        nums := hrec.nums_append hres hf.left hcut }

/-- What the clusters of a finished analysis list.  The cluster after the fences is the
end of the operation, the one after it what the implied fence leaves. -/
structure ClustersExact (r : Analysis) (ops : List AtomicOp) : Prop where
  once : ∀ c, (inFlightStores ops c).Nodup
  clusters : ∀ c, 1 ≤ c → c ≤ fences ops + 1 →
    listAt r.inFlightClusterSeqMap c ~ (inFlightStores ops c).map Store.seq
  last : listAt r.inFlightClusterSeqMap (fences ops + 2) ~
    ((inFlight Flush.covers ops).filter fun x => x.2 = .volatile).map fun x => x.1.seq
  nums : ∀ c, 1 ≤ c → c ≤ fences ops + 1 →
    r.inFightStoreNum[c - 1]? = some (inFlightStores ops c).length

theorem clustersExact_of_fencesClear {ops : List AtomicOp} (hf : Fresh ops) (hc : FencesClear ops)
    {r : Analysis} (h : Analysis.run ops = some r) : ClustersExact r ops := by
  obtain ⟨a, ha, hr⟩ := Option.bind_eq_some_iff.mp h
  have hres : Resident a.sim ops :=
    ⟨(loopInv_of_loop hf ha).tracks.toHolds, exactLines_of_fencesClear hf hc ha⟩
  have hrec := exactRecords_of_fencesClear hf hc ha []
  rw [List.append_nil] at hrec
  have hcut : beforeFence (fences ops + 1) ops = ops := beforeFence_all (Nat.lt_succ_self _)
  have hclusters := hrec.recordCluster hres hf hcut
  have hnums := hrec.nums_append hres hf hcut
  simp only [Analysis.finish, Analysis.recordNums, Option.bind_eq_bind, Option.bind_eq_some_iff,
    Option.map_eq_some_iff, Option.pure_def, Option.some.injEq] at hr
  obtain ⟨b, ⟨nums, -, rfl⟩, rfl⟩ := hr
  have hnum : (a.mergeWriteDeps.recordCluster.noteNums maxSize nums).inFlightClusterNum =
      fences ops + 1 := congrArg (· + 1) hrec.num
  exact {
    once := fun c => (Fresh.beforeFence hf c).nodup_inFlight
    clusters := by
      intro c h1 h2
      show listAt (Dict.set _ _ _) c ~ _
      rw [hnum, listAt_set, if_neg (by omega)]
      exact hclusters c h1 h2
    last := by
      show listAt (Dict.set _ _ _) _ ~ _
      rw [hnum, listAt_set, if_pos rfl]
      have hperm := (hres.getInFightOps_writeBack_perm hf).map Store.seq
      rwa [List.map_map] at hperm
    nums := by
      intro c h1 h2
      show (a.inFightStoreNum ++ [a.sim.getInFightNums])[c - 1]? = _
      have hc' : c - 1 < fences ops + 1 := by omega
      have hc1 : c - 1 + 1 = c := by omega
      rw [hnums, List.getElem?_map, List.getElem?_range hc', Option.map_some, hc1] }

/-! ## Agreement -/

/-- The two loops agree on the caches, and the analysis lists every in-flight store
once. -/
structure FenceLoopsAgree (ops : List AtomicOp) : Prop where
  lines : LinesAgree ops
  clusters : ∀ r, Analysis.run ops = some r → ClustersExact r ops

/-- The loops agree exactly on the sequences whose fences clear. -/
theorem fence_loops_agree_iff (ops : List AtomicOp) (hf : Fresh ops) :
    FenceLoopsAgree ops ↔ FencesClear ops := by
  constructor
  · intro h
    exact (linesAgree_iff hf).mp h.lines
  · intro h
    exact ⟨(linesAgree_iff hf).mpr h, fun r hr => clustersExact_of_fencesClear hf h hr⟩

/-- One of two stores is flushed before the fence. -/
theorem fence_loops_agree_flushed :
    FenceLoopsAgree [.store ⟨0, 1, 0, 8⟩, .store ⟨1, 2, 64, 8⟩, .flush ⟨3, 0, 64⟩, .fence ⟨4⟩] := by
  refine (fence_loops_agree_iff _ (by decide)).mpr ?_
  have hpre : FencesClear [.store ⟨0, 1, 0, 8⟩, .store ⟨1, 2, 64, 8⟩, .flush ⟨3, 0, 64⟩] := by
    intro pre g hpre
    have hmem := hpre.subset (List.mem_append_right pre (List.mem_singleton_self _))
    simp at hmem
  refine fencesClear_append.mpr ⟨hpre, fun g _ _ => Or.inr ?_⟩
  exact ⟨(⟨0, 1, 0, 8⟩, .flushing), by decide, rfl⟩

/-- One store that no flush covers before the fence: the analysis keeps it twice. -/
theorem fence_loops_disagree_unflushed :
    Fresh [.store ⟨0, 1, 0, 8⟩, .fence ⟨2⟩] ∧
      ¬ FenceLoopsAgree [.store ⟨0, 1, 0, 8⟩, .fence ⟨2⟩] := by
  refine ⟨by decide, fun h => ?_⟩
  have hc := (linesAgree_iff (by decide)).mp h.lines [.store ⟨0, 1, 0, 8⟩] ⟨2⟩ List.prefix_rfl
    (by decide)
  rcases hc with hnil | hfl
  · exact absurd hnil (by decide)
  · exact absurd hfl (by decide)

end OpTrace
end Silhouette
