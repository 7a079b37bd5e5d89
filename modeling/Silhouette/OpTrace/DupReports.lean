import Silhouette.OpTrace.FenceLoops

/-!
# Reports of duplicated fences and flushes

The cache reports a fence behind a fence, and a store with more than one flush, when it accepts a
fence.  The loop of the analysis hands it the fence only if nothing is in flight: a fence behind
a fence is then reported as long as the first one found nothing in flight either, and a store with
more than one flush never is.
-/

namespace Silhouette
namespace OpTrace

open Lib Lib.Persist Cache

/-- The pairs of consecutive fences with no store or flush between them. -/
def adjacentFences : List AtomicOp → List (Fence × Fence)
  | .fence g :: .fence h :: rest => (g, h) :: adjacentFences (.fence h :: rest)
  | _ :: rest => adjacentFences rest
  | [] => []

/-- Behind the first flush of a store: it is flushed again before the next fence. -/
def flushedAgain (s : Store) (again : Bool) : List AtomicOp → Bool
  | [] => false
  | .store _ :: rest => flushedAgain s again rest
  | .flush f :: rest => flushedAgain s (again || f.covers s) rest
  | .fence _ :: _ => again

/-- Behind a store: it is flushed twice before the first fence after its first flush. -/
def flushedTwice (s : Store) : List AtomicOp → Bool
  | [] => false
  | .flush f :: rest => if f.covers s then flushedAgain s false rest else flushedTwice s rest
  | _ :: rest => flushedTwice s rest

def dupFlushedStores : List AtomicOp → List Store
  | [] => []
  | .store s :: rest =>
    if flushedTwice s rest then s :: dupFlushedStores rest else dupFlushedStores rest
  | _ :: rest => dupFlushedStores rest

/-- The reports are exact: every pair of adjacent fences, and one flush list for every store that
is flushed twice. -/
structure ReportsExact (r : Analysis) (ops : List AtomicOp) : Prop where
  fences : r.dupFences = adjacentFences ops
  flushes : List.Perm r.dupFlushes (dupFlushedStores ops)

/-- A fence that another fence follows directly finds no store in flight. -/
def AdjacentFencesIdle (ops : List AtomicOp) : Prop :=
  ∀ pre g h, pre ++ [.fence g, .fence h] <+: ops → inFlight Flush.covers pre = []

/-! ## Adjacent fences -/

theorem adjacentFences_concat (ops : List AtomicOp) (op : AtomicOp) :
    adjacentFences (ops ++ [op]) = adjacentFences ops ++
      match ops.getLast?, op with
      | some (.fence g), .fence h => [(g, h)]
      | _, _ => [] := by
  induction ops with
  | nil => cases op <;> rfl
  | cons a rest ih =>
    cases rest with
    | nil => cases a <;> cases op <;> rfl
    | cons b rest =>
      rw [List.getLast?_cons_cons]
      cases a with
      | store s => exact ih
      | flush f => exact ih
      | fence g =>
        cases b with
        | store s => exact ih
        | flush f => exact ih
        | fence h => exact congrArg _ ih

theorem adjacentFencesIdle_concat {ops : List AtomicOp} {op : AtomicOp} :
    AdjacentFencesIdle (ops ++ [op]) ↔ AdjacentFencesIdle ops ∧
      ∀ pre g h, ops = pre ++ [.fence g] → op = .fence h → inFlight Flush.covers pre = [] := by
  constructor
  · intro hidle
    refine ⟨fun pre g h hpre => hidle pre g h (hpre.trans (List.prefix_append ops [op])), ?_⟩
    rintro pre g h rfl rfl
    exact hidle pre g h (by simp)
  · rintro ⟨hidle, hlast⟩ pre g h hpre
    rcases List.prefix_concat_iff.mp hpre with heq | hpre
    · have heq' : (pre ++ [.fence g]) ++ [.fence h] = ops ++ [op] := by simpa using heq
      obtain ⟨hops, hop⟩ := List.append_inj' heq' rfl
      exact hlast pre g h hops.symm (List.cons.inj hop).1.symm
    · exact hidle pre g h hpre

/-! ## What the cache reports -/

/-- No line and no cache has reported a store. -/
structure NoDupFlush (m : Sim) : Prop where
  lines : ∀ a cl, m.cache.cachelineDict.get? a = some cl → cl.dupFlushList = []
  cache : m.cache.dupFlushList = []

namespace NoDupFlush

variable {m : Sim}

theorem start : NoDupFlush Sim.start where
  lines := by
    intro a cl h
    cases h
  cache := rfl

theorem setCacheline (h : NoDupFlush m) {addr : Int} {cl : WitcherCacheline}
    (hcl : cl.dupFlushList = []) : NoDupFlush (m.setCacheline addr cl) where
  lines := by
    intro a cl' h'
    simp only [Sim.setCacheline, Dict.get?_set] at h'
    split at h'
    · rw [← Option.some.inj h']
      exact hcl
    · exact h.lines a cl' h'
  cache := h.cache

theorem getCachelineFromAddress (h : NoDupFlush m) (addr : Int) :
    (m.getCachelineFromAddress addr).dupFlushList = [] := by
  rw [Sim.getCachelineFromAddress]
  cases hget : m.cache.cachelineDict.get? (lineOf addr) with
  | none => rfl
  | some cl => exact h.lines _ cl hget

theorem setLastOp (h : NoDupFlush m) (op : AtomicOp) : NoDupFlush (m.setLastOp op) :=
  ⟨h.lines, h.cache⟩

theorem putStore (h : NoDupFlush m) (s : Store) : NoDupFlush (m.putStore s) := by
  refine setLastOp (setCacheline h ?_) (.store s)
  exact h.getCachelineFromAddress s.addr

theorem putFlush (h : NoDupFlush m) (f : Flush) : NoDupFlush (m.putFlush f) := by
  have hline : NoDupFlush (m.setCacheline f.addr (m.getCachelineFromAddress f.addr)) :=
    h.setCacheline (h.getCachelineFromAddress f.addr)
  exact ⟨hline.lines, hline.cache⟩

/-- A fence that finds no store has nothing to report. -/
theorem putFence (h : NoDupFlush m) (hempty : m.getAllOps = []) (g : Fence) :
    NoDupFlush (m.putFence g) where
  lines := by
    intro a cl hcl
    rw [Sim.cachelineDict_putFence, Dict.get?_mapValues, Option.map_eq_some_iff] at hcl
    obtain ⟨cl', -, rfl⟩ := hcl
    rfl
  cache := by
    have hlines : ∀ cl ∈ m.getCachelines, cl.storesList = [] ∧ cl.dupFlushList = [] := by
      intro cl hcl
      obtain ⟨a, ha⟩ := Dict.mem_values.mp hcl
      exact ⟨List.flatMap_eq_nil_iff.mp hempty cl hcl, h.lines a cl ha⟩
    have hfold : ∀ (l : List WitcherCacheline) (acc : Heap × List Store),
        (∀ cl ∈ l, cl.storesList = [] ∧ cl.dupFlushList = []) →
        (l.foldl (fun (acc : Heap × List Store) cl =>
          let s := cl.acceptFence acc.1 g
          (s.1, acc.2 ++ s.2.dupFlushList)) acc).2 = acc.2 := by
      intro l
      induction l with
      | nil => exact fun _ _ => rfl
      | cons cl rest ih =>
        intro acc hl
        obtain ⟨hstores, hdup⟩ := hl cl List.mem_cons_self
        rw [List.foldl_cons, ih _ fun x hx => hl x (List.mem_cons_of_mem _ hx)]
        simp [WitcherCacheline.acceptFence, hstores, hdup]
    have haccept : (m.acceptFence g).cache.dupFlushList = [] :=
      (hfold _ _ hlines).trans h.cache
    rw [Sim.putFence, Sim.setLastOp, Sim.noteDupFence]
    split
    · exact haccept
    · exact haccept

theorem dropWhere (h : NoDupFlush m) (p : StoreObj → Bool) : NoDupFlush (m.dropWhere p) where
  lines := by
    intro a cl hcl
    simp only [Sim.dropWhere, Sim.writeBack, Dict.get?_filterValues, Option.filter_eq_some_iff,
      Dict.get?_mapValues, Option.map_eq_some_iff] at hcl
    obtain ⟨⟨cl', hcl', rfl⟩, -⟩ := hcl
    exact h.lines a cl' hcl'
  cache := h.cache

end NoDupFlush

theorem dupFenceList_putFence (m : Sim) (g : Fence) :
    (m.putFence g).cache.dupFenceList = m.cache.dupFenceList ++
      match m.cache.lastOp with
      | some (.fence last) => [(last, g)]
      | _ => [] := by
  have hlast : (m.acceptFence g).cache.lastOp = m.cache.lastOp := rfl
  rw [Sim.putFence, Sim.setLastOp, Sim.noteDupFence, hlast]
  cases m.cache.lastOp with
  | none => exact (List.append_nil _).symm
  | some op =>
    cases op with
    | store s => exact (List.append_nil _).symm
    | flush f => exact (List.append_nil _).symm
    | fence last => rfl

/-- The reports of the cache of the loop. -/
structure ReportInv (m : Sim) (ops : List AtomicOp) : Prop where
  noDup : NoDupFlush m
  lastOp : ∀ g, m.cache.lastOp = some (.fence g) ↔
    ∃ pre, ops = pre ++ [.fence g] ∧ inFlight Flush.covers pre = []
  le : m.cache.dupFenceList.length ≤ (adjacentFences ops).length
  fences : m.cache.dupFenceList = adjacentFences ops ↔ AdjacentFencesIdle ops

namespace ReportInv

variable {m n : Sim} {ops : List AtomicOp}

theorem start : ReportInv Sim.start [] where
  noDup := NoDupFlush.start
  lastOp := by
    intro g
    refine iff_of_false nofun ?_
    rintro ⟨pre, h, -⟩
    exact absurd h (by simp)
  le := Nat.le_refl 0
  fences := by
    refine iff_of_true rfl fun pre g h hpre => ?_
    exact absurd (List.prefix_nil.mp hpre) (by simp)

/-- What is accepted last is not a fence, and no pair of fences is added. -/
theorem quiet (h : ReportInv m ops) {op : AtomicOp} (hop : ∀ g, op ≠ .fence g)
    (hdup : NoDupFlush n) (hlast : n.cache.lastOp = some op)
    (hlist : n.cache.dupFenceList = m.cache.dupFenceList) : ReportInv n (ops ++ [op]) := by
  have hadj : adjacentFences (ops ++ [op]) = adjacentFences ops := by
    rw [adjacentFences_concat]
    cases op with
    | store s => simp
    | flush f => simp
    | fence g => exact absurd rfl (hop g)
  refine ⟨hdup, fun g => ?_, ?_, ?_⟩
  · refine iff_of_false (fun hg => ?_) ?_
    · exact hop g (Option.some.inj (hlast.symm.trans hg))
    · rintro ⟨pre, heq, -⟩
      exact hop g (List.cons.inj (List.append_inj' heq rfl).2).1
  · rw [hlist, hadj]
    exact h.le
  · rw [hlist, hadj, h.fences, adjacentFencesIdle_concat]
    exact ⟨fun hidle => ⟨hidle, fun _ _ g _ hg => absurd hg (hop g)⟩, fun hidle => hidle.1⟩

/-- At a fence the pair with the fence directly before it is reported, if that one found nothing
in flight. -/
theorem fence (h : ReportInv m ops) {g : Fence} {reported : List (Fence × Fence)}
    (hdup : NoDupFlush n)
    (hlast : ∀ g', n.cache.lastOp = some (.fence g') ↔ g' = g ∧ inFlight Flush.covers ops = [])
    (hlist : n.cache.dupFenceList = m.cache.dupFenceList ++ reported)
    (hreported : (∃ pre f, ops = pre ++ [.fence f] ∧ inFlight Flush.covers pre = [] ∧
        reported = [(f, g)]) ∨
      (∀ pre f, ops = pre ++ [.fence f] → inFlight Flush.covers pre ≠ []) ∧ reported = []) :
    ReportInv n (ops ++ [.fence g]) := by
  have hadj := adjacentFences_concat ops (.fence g)
  have hlastOp : ∀ g', n.cache.lastOp = some (.fence g') ↔
      ∃ pre, ops ++ [.fence g] = pre ++ [.fence g'] ∧ inFlight Flush.covers pre = [] := by
    intro g'
    rw [hlast]
    constructor
    · rintro ⟨rfl, hnil⟩
      exact ⟨ops, rfl, hnil⟩
    · rintro ⟨pre, heq, hnil⟩
      obtain ⟨rfl, hg⟩ := List.append_inj' heq rfl
      cases hg
      exact ⟨rfl, hnil⟩
  rcases hreported with ⟨pre, f, rfl, hnil, rfl⟩ | ⟨hnone, rfl⟩
  · simp only [List.getLast?_concat] at hadj
    refine ⟨hdup, hlastOp, ?_, ?_⟩
    · rw [hlist, hadj, List.length_append, List.length_append]
      exact Nat.add_le_add_right h.le _
    · have hconcat := @adjacentFencesIdle_concat (pre ++ [.fence f]) (.fence g)
      rw [hlist, hadj, List.append_left_inj, h.fences, hconcat]
      refine ⟨fun hidle => ⟨hidle, fun pre' f' _ heq _ => ?_⟩, fun hidle => hidle.1⟩
      rw [← (List.append_inj' heq rfl).1]
      exact hnil
  · rw [List.append_nil] at hlist
    by_cases hends : ∃ pre f, ops = pre ++ [.fence f]
    · obtain ⟨pre, f, rfl⟩ := hends
      simp only [List.getLast?_concat] at hadj
      have hlt : n.cache.dupFenceList.length <
          (adjacentFences (pre ++ [.fence f] ++ [.fence g])).length := by
        rw [hlist, hadj, List.length_append]
        exact Nat.lt_succ_of_le h.le
      refine ⟨hdup, hlastOp, Nat.le_of_lt hlt, iff_of_false (fun heq => ?_) fun hidle => ?_⟩
      · exact Nat.ne_of_lt hlt (congrArg List.length heq)
      · exact hnone pre f rfl ((adjacentFencesIdle_concat.mp hidle).2 pre f g rfl rfl)
    · have hsame : adjacentFences (ops ++ [.fence g]) = adjacentFences ops := by
        rw [hadj]
        split
        · rename_i f _ _ hget _
          obtain ⟨pre, hpre⟩ := List.getLast?_eq_some_iff.mp hget
          exact absurd ⟨pre, _, hpre⟩ hends
        · exact List.append_nil _
      refine ⟨hdup, hlastOp, ?_, ?_⟩
      · rw [hlist, hsame]
        exact h.le
      · rw [hlist, hsame, h.fences, adjacentFencesIdle_concat]
        exact ⟨fun hidle => ⟨hidle, fun pre f _ heq _ => absurd ⟨pre, f, heq⟩ hends⟩,
          fun hidle => hidle.1⟩

theorem writeBacks (h : NoDupFlush m) :
    NoDupFlush m.writeBackAllFlushingStores.writeBackAllPersistedStores :=
  (h.dropWhere _).dropWhere _

/-- A fence that finds something in flight is not accepted: a store is, once more. -/
theorem acceptAtFence (h : ReportInv m ops) (ht : Tracks m ops)
    (hops : ∀ op ∈ ops, inOneLine op = true) {g : Fence}
    (hn : Analysis.acceptAtFence m g = some n) : ReportInv n (ops ++ [.fence g]) := by
  have hempty : m.getInFightOps = [] ↔ inFlight Flush.covers ops = [] := by
    simp only [List.eq_nil_iff_forall_not_mem, ht.mem_getInFightOps_iff, not_exists, Prod.forall]
  obtain ⟨k, hk, rfl⟩ := Option.map_eq_some_iff.mp hn
  rw [Analysis.fenceOp] at hk
  cases hl : m.getInFightOps.getLast? with
  | none =>
    rw [hl, Sim.accept_fence_eq] at hk
    have hnil : m.getInFightOps = [] := List.getLast?_eq_none_iff.mp hl
    have hnone : m.getAllOps = [] := ht.getAllOps_eq_nil hnil
    rw [← Option.some.inj hk]
    refine h.fence (writeBacks (h.noDup.putFence hnone g)) (fun g' => ?_)
      (dupFenceList_putFence m g) ?_
    · have hlast : (m.putFence g).cache.lastOp = some (.fence g) := rfl
      show (m.putFence g).cache.lastOp = some (.fence g') ↔ _
      simp [hlast, hempty.mp hnil, eq_comm]
    · split
      · rename_i f hf
        obtain ⟨pre, hpre, hidle⟩ := (h.lastOp f).mp hf
        exact Or.inl ⟨pre, f, hpre, hidle, rfl⟩
      · rename_i hne
        exact Or.inr ⟨fun pre f hpre hidle => hne f ((h.lastOp f).mpr ⟨pre, hpre, hidle⟩), rfl⟩
  | some s =>
    rw [hl] at hk
    have hs : s ∈ m.getInFightOps := List.mem_of_getLast? hl
    have hin : inOneLine (.store s) = true := ht.inOneLine_of_inFight hops hs
    simp only [Sim.accept_store_eq ht.filed, if_pos hin, Option.some.injEq] at hk
    rw [← hk]
    have hne : inFlight Flush.covers ops ≠ [] := by
      intro hnil
      rw [hempty.mpr hnil] at hs
      exact List.not_mem_nil hs
    refine h.fence (writeBacks (h.noDup.putStore s)) (fun g' => ?_)
      (List.append_nil _).symm (Or.inr ⟨?_, rfl⟩)
    · refine iff_of_false ?_ fun hg => hne hg.2
      intro heq
      cases (heq : some (Event.store s) = some (.fence g'))
    · rintro pre f rfl hidle
      rw [inFlight_fence, hidle] at hne
      exact hne rfl

end ReportInv

/-! ## Whole runs -/

theorem reportInv_of_loop {ops : List AtomicOp} (hf : Fresh ops) {a : Analysis}
    (h : Analysis.loop ops = some a) : ReportInv a.sim ops := by
  induction ops using List.reverseRecOn generalizing a with
  | nil =>
    rw [← Option.some.inj h]
    exact ReportInv.start
  | append_singleton ops op ih =>
    rw [Analysis.loop_append_singleton, Option.bind_eq_some_iff] at h
    obtain ⟨b, hb, hstep⟩ := h
    have hinv := loopInv_of_loop hf.left hb
    have hrep := ih hf.left hb
    have hsim := hinv.sim_step hstep
    cases op with
    | store s =>
      rw [hsim]
      exact hrep.quiet nofun (hrep.noDup.putStore s) rfl rfl
    | flush f =>
      rw [hsim]
      exact hrep.quiet nofun (hrep.noDup.putFlush f) rfl rfl
    | fence g => exact hrep.acceptAtFence hinv.tracks hinv.inLine hsim

/-- The reports of a run are those of the cache of its loop. -/
theorem reports_of_run {ops : List AtomicOp} {r : Analysis} (h : Analysis.run ops = some r) :
    ∃ a, Analysis.loop ops = some a ∧ r.dupFences = a.sim.cache.dupFenceList ∧
      r.dupFlushes = a.sim.cache.dupFlushList := by
  obtain ⟨a, ha, hfin⟩ := Option.bind_eq_some_iff.mp h
  simp only [Analysis.finish, Analysis.recordNums, Option.bind_eq_bind, Option.bind_eq_some_iff,
    Option.map_eq_some_iff, Option.pure_def, Option.some.injEq] at hfin
  obtain ⟨b, ⟨nums, -, rfl⟩, rfl⟩ := hfin
  exact ⟨a, ha, rfl, rfl⟩

/-- The reports are exact on the sequences in which no store is flushed twice and every fence that
a fence follows directly finds nothing in flight. -/
theorem reports_exact_iff {ops : List AtomicOp} (hf : Fresh ops) {r : Analysis}
    (h : Analysis.run ops = some r) :
    ReportsExact r ops ↔ AdjacentFencesIdle ops ∧ dupFlushedStores ops = [] := by
  obtain ⟨a, ha, hfences, hflushes⟩ := reports_of_run h
  have hrep := reportInv_of_loop hf ha
  rw [hrep.noDup.cache] at hflushes
  constructor
  · rintro ⟨h1, h2⟩
    rw [hflushes] at h2
    exact ⟨hrep.fences.mp (hfences.symm.trans h1), h2.nil_eq.symm⟩
  · rintro ⟨h1, h2⟩
    refine ⟨hfences.trans (hrep.fences.mpr h1), ?_⟩
    rw [hflushes, h2]

/-- Two fences before anything else, and a store that is flushed once. -/
def idleFencesOps : List AtomicOp :=
  [.fence ⟨1⟩, .fence ⟨2⟩, .store ⟨0, 3, 0, 8⟩, .flush ⟨4, 0, 64⟩, .fence ⟨5⟩]

def idleFencesAnalysis : Analysis := (Analysis.run idleFencesOps).get (by decide +kernel)

theorem reports_exact_idle_fences :
    ReportsExact idleFencesAnalysis idleFencesOps ∧
      idleFencesAnalysis.dupFences = [(⟨1⟩, ⟨2⟩)] := by
  refine ⟨(reports_exact_iff (by decide) (Option.some_get _).symm).mpr ⟨?_, by decide⟩,
    by decide +kernel⟩
  have hfirst : AdjacentFencesIdle [.fence ⟨1⟩, .fence ⟨2⟩, .store ⟨0, 3, 0, 8⟩,
      .flush ⟨4, 0, 64⟩] := by
    rintro pre g h ⟨rest, hpre⟩
    cases pre with
    | nil => rfl
    | cons a pre =>
      cases pre with
      | nil => simp at hpre
      | cons b pre =>
        have hmem : .fence g ∈ ([.store ⟨0, 3, 0, 8⟩, .flush ⟨4, 0, 64⟩] : List AtomicOp) := by
          rw [← (List.cons.inj (List.cons.inj hpre).2).2]
          simp
        simp at hmem
  refine adjacentFencesIdle_concat.mpr ⟨hfirst, fun pre g h heq _ => ?_⟩
  have hlast := congrArg List.getLast? heq
  simp at hlast

/-- A store that is flushed twice, and two fences behind it. -/
def twiceFlushedOps : List AtomicOp :=
  [.store ⟨0, 1, 0, 8⟩, .flush ⟨2, 0, 64⟩, .flush ⟨3, 0, 64⟩, .fence ⟨4⟩, .fence ⟨5⟩]

def twiceFlushedAnalysis : Analysis := (Analysis.run twiceFlushedOps).get (by decide +kernel)

/-- Neither the fence nor the flush is reported. -/
theorem reports_miss_twice_flushed :
    Fresh twiceFlushedOps ∧ Analysis.run twiceFlushedOps = some twiceFlushedAnalysis ∧
      adjacentFences twiceFlushedOps = [(⟨4⟩, ⟨5⟩)] ∧
      dupFlushedStores twiceFlushedOps = [⟨0, 1, 0, 8⟩] ∧
      twiceFlushedAnalysis.dupFences = [] ∧ twiceFlushedAnalysis.dupFlushes = [] ∧
      ¬ ReportsExact twiceFlushedAnalysis twiceFlushedOps := by
  have hnone : twiceFlushedAnalysis.dupFences = [] := by decide +kernel
  refine ⟨by decide, (Option.some_get _).symm, by decide, by decide, hnone, by decide +kernel,
    fun h => ?_⟩
  have hfences := h.fences
  rw [hnone] at hfences
  exact absurd hfences (by decide)

end OpTrace
end Silhouette
