import Silhouette.CrashPlan.Rerun
import Silhouette.OpTrace.OtherFlags

/-!
# Does the analysis change the plans?

`run_one_case_main` analyses an operation, with every memory copy or set tracked by its
first word, and then asks `CrashPlanSchemeComb` for plans with flags of its own.  The
plans are those of a fresh entry when the flags make no difference before the last fence
and no store is flushed behind the fence that follows it.
-/

namespace Silhouette
namespace CrashPlan

open Lib Lib.Persist Cache Trace OpTrace
open scoped List

/-! ## Conditions on the entries -/

/-- `Flush.covers` on the arguments of a store. -/
def coversWord (f : Flush) (w : StoreArgs) : Bool :=
  lineOf f.addr = lineOf w.addr ∧ f.addr ≤ w.addr ∧ w.addr + w.size ≤ f.addr + f.size

theorem coversWord_args (f : Flush) (s : Store) : coversWord f s.args = Flush.covers f s := by
  show decide (lineOf f.addr = lineOf s.addr ∧ f.addr ≤ s.addr ∧
    s.addr + s.size ≤ f.addr + f.size) = _
  rw [Bool.eq_iff_iff]
  simp [Flush.covers, Flush.contains]

theorem rawOf_eq_mapStore : rawOf = Event.mapStore Store.args := by
  funext o
  cases o <;> rfl

/-- A flush entry writes back a word. -/
def FlushesWord (x : TraceEntry) (w : StoreArgs) : Prop :=
  x.type.isFlushTy = true ∧ ∃ f ∈ flushLines x, coversWord f w = true

/-- A tracked word with two fences behind it that is flushed at all is flushed before the
first of them. -/
def FlushedInTime (op : OpTraceEntry) : Prop :=
  ∀ pre e post w, op.pmEntries = pre ++ e :: post → .store w ∈ atomicOpsOf e →
    2 ≤ post.countP (fun g => g.type.isFenceTy) → (∃ x ∈ post, FlushesWord x w) →
      ∃ x ∈ post.takeWhile (fun g => !g.type.isFenceTy), FlushesWord x w

/-- The flags track every memory copy or set before the last fence, and by its first word:
they say so, or it has no other. -/
def TrackedAlike (flags : ConvFlags) (op : OpTraceEntry) : Prop :=
  ∀ pre e post, op.pmEntries = pre ++ e :: post → NonAtomic e →
    (∃ g ∈ post, g.type.isFenceTy = true) →
      flags.ignoreNonatomicWrite = false ∧ (flags.nonatomicAsOne = true ∨
        e.addr + e.size ≤ alignToFloor e.addr atomicWriteBytes + atomicWriteBytes)

theorem flush_mem_flatMap {l : List TraceEntry} {w : StoreArgs} :
    (∃ f, .flush f ∈ l.flatMap atomicOpsOf ∧ coversWord f w = true) ↔
      ∃ x ∈ l, FlushesWord x w := by
  simp only [List.mem_flatMap, flush_mem_atomicOpsOf, FlushesWord]
  constructor
  · rintro ⟨f, ⟨x, hx, hty, hf⟩, hc⟩
    exact ⟨x, hx, hty, f, hf, hc⟩
  · rintro ⟨x, hx, hty, f, hf, hc⟩
    exact ⟨f, ⟨x, hx, hty, hf⟩, hc⟩

theorem beforeFence_one_flatMap (l : List TraceEntry) :
    beforeFence 1 (l.flatMap atomicOpsOf) =
      (l.takeWhile fun g => !g.type.isFenceTy).flatMap atomicOpsOf := by
  induction l with
  | nil => rfl
  | cons e rest ih =>
    rw [List.flatMap_cons, List.takeWhile_cons]
    by_cases h : e.type.isFenceTy = true
    · rw [atomicOpsOf, if_pos h]
      simp [beforeFence, h]
    · have h0 : fences (atomicOpsOf e) = 0 := by rw [fences_atomicOpsOf, if_neg h]
      rw [beforeFence_append_of_lt (by omega), h0, Nat.sub_zero, ih]
      simp [h]

/-- An element of a concatenation stands in one of its blocks. -/
theorem flatMap_split {α β : Type} {f : α → List β} {l : List α} {a b : List β} {x : β}
    (h : l.flatMap f = a ++ x :: b) : ∃ pre e post u v, l = pre ++ e :: post ∧
      f e = u ++ x :: v ∧ a = pre.flatMap f ++ u ∧ b = v ++ post.flatMap f := by
  induction l generalizing a with
  | nil => simp at h
  | cons e rest ih =>
    rw [List.flatMap_cons, List.append_eq_append_iff] at h
    rcases h with ⟨a', rfl, h⟩ | ⟨c', hc, h⟩
    · obtain ⟨pre, e', post, u, v, rfl, he', rfl, rfl⟩ := ih h
      exact ⟨e :: pre, e', post, u, v, rfl, he', by simp, rfl⟩
    · cases c' with
      | nil =>
        rw [List.nil_append] at h
        obtain ⟨pre, e', post, u, v, rfl, he', hu, rfl⟩ := ih (a := []) h.symm
        exact ⟨e :: pre, e', post, u, v, rfl, he', by
          rw [List.append_nil] at hc
          rw [List.flatMap_cons, List.append_assoc, ← hu, List.append_nil, hc], rfl⟩
      | cons y c' =>
        rw [List.cons_append, List.cons.injEq] at h
        obtain ⟨rfl, rfl⟩ := h
        exact ⟨[], e, rest, a, c', rfl, hc, rfl, rfl⟩

/-- An entry with a store has stores only. -/
theorem stores_of_store_mem {e : TraceEntry} {w : StoreArgs} (h : .store w ∈ atomicOpsOf e) :
    ∀ o ∈ atomicOpsOf e, ∃ w', o = .store w' := by
  obtain ⟨h1, h2, h3, -⟩ := store_mem_atomicOpsOf.mp h
  intro o ho
  rw [atomicOpsOf] at ho
  simp only [h1, h2, h3, Bool.false_eq_true, if_false, List.mem_map] at ho
  obtain ⟨w', -, rfl⟩ := ho
  exact ⟨w', rfl⟩

/-- The words in the same block do not come between a store and its flush. -/
theorem inTime_iff_flushedInTime {op : OpTraceEntry} :
    InTime coversWord (op.pmEntries.flatMap atomicOpsOf) ↔ FlushedInTime op := by
  have hblock : ∀ (v : List RawOp) (post : List TraceEntry) (w : StoreArgs),
      (∀ o ∈ v, ∃ w', o = .store w') →
      (fences (v ++ post.flatMap atomicOpsOf) = post.countP fun g => g.type.isFenceTy) ∧
      ((∃ f, .flush f ∈ v ++ post.flatMap atomicOpsOf ∧ coversWord f w = true) ↔
        ∃ x ∈ post, FlushesWord x w) ∧
      ((∃ f, .flush f ∈ beforeFence 1 (v ++ post.flatMap atomicOpsOf) ∧ coversWord f w = true) ↔
        ∃ x ∈ post.takeWhile (fun g => !g.type.isFenceTy), FlushesWord x w) := by
    intro v post w hv
    have h0 := fences_eq_zero_of_stores hv
    have hno : ∀ f, Event.flush f ∉ v := by
      intro f hf
      obtain ⟨w', hw'⟩ := hv _ hf
      simp at hw'
    refine ⟨by rw [fences_append, h0, Nat.zero_add, fences_flatMap], ?_, ?_⟩
    · simp only [List.mem_append, hno, false_or]
      exact flush_mem_flatMap
    · rw [beforeFence_append_of_lt (by omega), h0, Nat.sub_zero, beforeFence_one_flatMap]
      simp only [List.mem_append, hno, false_or]
      exact flush_mem_flatMap
  constructor
  · intro h pre e post w hop hw h2 hfl
    obtain ⟨u, v, huv⟩ := List.append_of_mem hw
    have hv : ∀ o ∈ v, ∃ w', o = .store w' :=
      fun o ho => stores_of_store_mem hw o (by rw [huv]; simp [ho])
    obtain ⟨hc, hf, hb⟩ := hblock v post w hv
    refine hb.mp (h (pre.flatMap atomicOpsOf ++ u) w _ ?_ (hc ▸ h2) (hf.mpr hfl))
    rw [hop, List.flatMap_append, List.flatMap_cons, huv]
    simp
  · intro h a w b heq h2 hfl
    obtain ⟨pre, e, post, u, v, hop, huv, rfl, rfl⟩ := flatMap_split heq
    have hw : .store w ∈ atomicOpsOf e := by rw [huv]; simp
    have hv : ∀ o ∈ v, ∃ w', o = .store w' :=
      fun o ho => stores_of_store_mem hw o (by rw [huv]; simp [ho])
    obtain ⟨hc, hf, hb⟩ := hblock v post w hv
    exact hb.mpr (h pre e post w hop hw (hc ▸ h2) (hf.mp hfl))

theorem inTime_map_rawOf {ops : List AtomicOp} :
    InTime Flush.covers ops ↔ InTime coversWord (ops.map rawOf) := by
  rw [rawOf_eq_mapStore]
  have hflush : ∀ (l : List AtomicOp) (s : Store),
      (∃ f, .flush f ∈ l.map (Event.mapStore Store.args) ∧ coversWord f s.args = true) ↔
        ∃ f, .flush f ∈ l ∧ Flush.covers f s = true := by
    intro l s
    refine exists_congr fun f => and_congr ?_ (by rw [coversWord_args])
    rw [List.mem_map]
    constructor
    · rintro ⟨o, ho, heq⟩
      cases o with
      | flush f' => exact Event.flush.inj heq ▸ ho
      | store t => simp [Event.mapStore] at heq
      | fence g => simp [Event.mapStore] at heq
    · exact fun hf => ⟨_, hf, rfl⟩
  constructor
  · intro h a w b heq h2 hfl
    obtain ⟨a', l', rfl, rfl, hl⟩ := List.map_eq_append_iff.mp heq
    obtain ⟨o, b', rfl, ho, rfl⟩ := List.map_eq_cons_iff.mp hl
    cases o with
    | flush f' => simp [Event.mapStore] at ho
    | fence g => simp [Event.mapStore] at ho
    | store s =>
      obtain rfl := Event.store.inj ho
      rw [fences_mapStore] at h2
      rw [beforeFence_mapStore]
      exact (hflush _ s).mpr (h a' s b' rfl h2 ((hflush _ s).mp hfl))
  · intro h a s b heq h2 hfl
    have hres := h (a.map (Event.mapStore Store.args)) s.args (b.map (Event.mapStore Store.args))
      (by rw [heq, List.map_append, List.map_cons]; rfl) (by rwa [fences_mapStore])
      ((hflush b s).mpr hfl)
    rw [beforeFence_mapStore] at hres
    exact (hflush _ s).mp hres

/-! ## The plans of both runs -/

/-- What is known of an entry behind its analysis. -/
structure AnalysedOps (sample : List RawOp → List RawOp) (op : OpTraceEntry) (k : KeptOps) :
    Prop where
  list : k.atomicOpList = allocate 0 (op.pmEntries.flatMap atomicOpsOf)
  marked : Marked k.heap k.atomicOpList
  inLine : ∀ o ∈ k.atomicOpList, inOneLine o = true
  converts : ∀ e ∈ op.pmEntries, (convertOne analysisFlags sample e).isSome

section

variable {flags : ConvFlags} {sample : List RawOp → List RawOp} {op : OpTraceEntry} {k : KeptOps}

theorem pmEntries_eq_nil (op : OpTraceEntry) (h : ¬ op.pmSeqEntryMap.items.length > 0) :
    op.pmEntries = [] := by
  have hnil : op.pmSeqEntryMap.items = [] := List.eq_nil_of_length_eq_zero (by omega)
  rw [OpTraceEntry.pmEntries, OpTraceEntry.pmSortedItems, hnil]
  rfl

theorem analysedOps_of_analysed (h : KeptOps.analysed analysisFlags sample op = some k) :
    AnalysedOps sample op k := by
  simp only [KeptOps.analysed, Option.bind_eq_bind, Option.bind_eq_some_iff] at h
  obtain ⟨k₀, hk₀, r, hr, hk⟩ := h
  rw [← Option.some.inj hk]
  rw [KeptOps.convertAtomicOps] at hk₀
  have hspec : k₀.atomicOpList = allocate 0 (op.pmEntries.flatMap atomicOpsOf) ∧
      ∀ e ∈ op.pmEntries, (convertOne analysisFlags sample e).isSome := by
    split_ifs at hk₀ with hlen
    · obtain ⟨ops, hops, rfl⟩ := Option.map_eq_some_iff.mp hk₀
      exact ⟨convertAtomicOps_asOne analysisFlags_asOne hops, convertOne_isSome hops⟩
    · have hnil := pmEntries_eq_nil op (fun h => hlen ⟨rfl, h⟩)
      rw [hnil, ← Option.some.inj hk₀]
      exact ⟨rfl, fun e he => absurd he List.not_mem_nil⟩
  have hfresh : Fresh k₀.atomicOpList := hspec.1 ▸ fresh_allocate 0 _
  exact ⟨hspec.1, marked_of_run hfresh hr,
    (run_isSome_iff hfresh).mp (by rw [hr]; rfl), hspec.2⟩

theorem AnalysedOps.fresh (h : AnalysedOps sample op k) : Fresh k.atomicOpList :=
  h.list ▸ fresh_allocate 0 _

theorem AnalysedOps.raw (h : AnalysedOps sample op k) :
    k.atomicOpList.map rawOf = op.pmEntries.flatMap atomicOpsOf := by
  rw [h.list, map_rawOf_allocate]

theorem AnalysedOps.convertAtomicOps_eq (h : AnalysedOps sample op k) :
    Cache.convertAtomicOps flags sample op =
      some (allocate 0 (op.pmEntries.flatMap (opsUnder flags sample))) :=
  convertAtomicOps_of_forall fun e he => convertOne_eq (h.converts e he)

/-- The operations under other flags stay inside their lines too. -/
theorem AnalysedOps.inLine_under (h : AnalysedOps sample op k) (hsample : ∀ l, sample l ⊆ l) :
    ∀ o ∈ allocate 0 (op.pmEntries.flatMap (opsUnder flags sample)), inOneLine o = true := by
  intro o ho
  have hraw : rawOf o ∈ op.pmEntries.flatMap (opsUnder flags sample) := by
    rw [← map_rawOf_allocate 0 (op.pmEntries.flatMap (opsUnder flags sample))]
    exact List.mem_map_of_mem ho
  obtain ⟨e, he, hoe⟩ := List.mem_flatMap.mp hraw
  by_cases hna : NonAtomic e
  · obtain ⟨w, hw, how⟩ := mem_opsUnder_of_nonAtomic hsample hna _ hoe
    cases o with
    | flush f => simp [rawOf] at how
    | fence g => rfl
    | store s =>
      obtain ⟨x, hx, h1, h2, hwx⟩ := mem_storePieces.mp hw
      have hargs : s.args = w := Event.store.inj how
      rw [hwx] at hargs
      have ha : s.addr = max e.addr x := congrArg StoreArgs.addr hargs
      have hsz : s.size = min (e.addr + e.size) (x + 8) - max e.addr x :=
        congrArg StoreArgs.size hargs
      refine decide_eq_true ?_
      simp only [lineOf, alignToFloor, cachelineBytes]
      omega
  · rw [opsUnder_of_atomic hna] at hoe
    have hmem : rawOf o ∈ k.atomicOpList.map rawOf := by
      rw [h.raw]
      exact List.mem_flatMap.mpr ⟨e, he, hoe⟩
    obtain ⟨o', ho', heq⟩ := List.mem_map.mp hmem
    have hin := h.inLine o' ho'
    cases o with
    | fence g => rfl
    | flush f =>
      cases o' with
      | flush f' => rwa [Event.flush.inj heq] at hin
      | store s' => simp [rawOf] at heq
      | fence g' => simp [rawOf] at heq
    | store s =>
      cases o' with
      | flush f' => simp [rawOf] at heq
      | fence g' => simp [rawOf] at heq
      | store s' =>
        have hargs : s'.args = s.args := Event.store.inj heq
        have ha : s'.addr = s.addr := congrArg StoreArgs.addr hargs
        have hsz : s'.size = s.size := congrArg StoreArgs.size hargs
        rw [inOneLine, ha, hsz] at hin
        exact hin

/-- The words in flight before a fence. -/
def flightAt (raw : List RawOp) (c : Nat) : List StoreArgs :=
  (inFlight coversWord (beforeFence (c + 1) raw)).map Prod.fst

theorem map_args_inFlight (ops : List AtomicOp) (c : Nat) :
    ((inFlight Flush.covers (beforeFence (c + 1) ops)).map Prod.fst).map Store.args =
      flightAt (ops.map rawOf) c := by
  rw [flightAt, rawOf_eq_mapStore, beforeFence_mapStore, inFlight_mapStore coversWord_args]

/-- The words the second run holds before a fence. -/
def heldAt (ops : List AtomicOp) (c : Nat) : List StoreArgs :=
  (held ops (beforeFence (c + 1) ops)).map Store.args

theorem fences_allocate (raw : List RawOp) : fences (allocate 0 raw) = fences raw := by
  rw [← fences_mapStore Store.args, ← rawOf_eq_mapStore, map_rawOf_allocate]

/-- The plans of a fresh entry. -/
theorem AnalysedOps.emits_new (h : AnalysedOps sample op k) (hsample : ∀ l, sample l ⊆ l)
    (flags : ConvFlags) :
    (KeptOps.new.generateCrashPlans flags sample op).map (List.map emitted) =
      some ((List.range (fences (op.pmEntries.flatMap atomicOpsOf))).filterMap fun c =>
        planOf (flightAt (op.pmEntries.flatMap (opsUnder flags sample)) c)) := by
  obtain ⟨m, plans, hm, hplans⟩ := emits_fresh
    (fresh_allocate 0 (op.pmEntries.flatMap (opsUnder flags sample))) (h.inLine_under hsample)
  have hkept : KeptOps.new.convertAtomicOps flags sample op =
      some ⟨allocate 0 (op.pmEntries.flatMap (opsUnder flags sample)), Heap.fresh⟩ := by
    rw [KeptOps.convertAtomicOps]
    split_ifs with hlen
    · rw [h.convertAtomicOps_eq]
      rfl
    · rw [pmEntries_eq_nil op (fun h => hlen ⟨rfl, h⟩)]
      rfl
  rw [KeptOps.generateCrashPlans, hkept]
  simp only [Option.bind_eq_bind, Option.bind_some, hm, Option.pure_def, Option.map_some, hplans]
  rw [fencePoints, List.filterMap_map, fences_allocate, fences_flatMap_opsUnder flags hsample]
  simp only [Function.comp_def, map_args_inFlight, map_rawOf_allocate]

/-- The plans behind the analysis. -/
theorem AnalysedOps.emits_after (h : AnalysedOps sample op k) (flags : ConvFlags) :
    (k.generateCrashPlans flags sample op).map (List.map emitted) =
      some ((List.range (fences (op.pmEntries.flatMap atomicOpsOf))).filterMap fun c =>
        planOf (heldAt k.atomicOpList c)) := by
  have hn : fences k.atomicOpList = fences (op.pmEntries.flatMap atomicOpsOf) := by
    rw [h.list, fences_allocate]
  rw [KeptOps.generateCrashPlans, KeptOps.convertAtomicOps]
  split_ifs with hlen
  · -- nothing was kept, and other flags convert to nothing as well
    have hnil : op.pmEntries.flatMap atomicOpsOf = [] := by
      rw [← h.raw, List.eq_nil_of_length_eq_zero hlen.1]
      rfl
    have hnil' : op.pmEntries.flatMap (opsUnder flags sample) = [] := by
      rw [List.flatMap_eq_nil_iff] at hnil ⊢
      intro e he
      have hna : ¬ NonAtomic e := by
        intro hna
        have hne := storePieces_ne_nil hna (h.converts e he)
        obtain ⟨w, rest, hw⟩ := List.exists_cons_of_ne_nil hne
        have he' := hnil e he
        rw [atomicOpsOf_of_nonAtomic hna, hw] at he'
        simp at he'
      rw [opsUnder_of_atomic hna]
      exact hnil e he
    rw [h.convertAtomicOps_eq, hnil', hnil]
    rfl
  · obtain ⟨m, plans, hm, hplans⟩ := emits_rerun h.fresh h.inLine h.marked
    simp only [Option.bind_eq_bind, Option.bind_some, hm, Option.pure_def, Option.map_some, hplans]
    rw [fencePoints, List.filterMap_map, hn]
    rfl

end

section

variable {flags : ConvFlags} {sample : List RawOp → List RawOp} {op : OpTraceEntry} {k : KeptOps}

/-- Under flags that track alike the cuts before the fences are the same. -/
theorem flightAt_eq_of_trackedAlike (h : TrackedAlike flags op) {c : Nat}
    (hc : c < fences (op.pmEntries.flatMap atomicOpsOf)) :
    flightAt (op.pmEntries.flatMap (opsUnder flags sample)) c =
      flightAt (op.pmEntries.flatMap atomicOpsOf) c := by
  rw [flightAt, flightAt, beforeFence_flatMap_congr _ _ (by omega) hc]
  · intro e _ hfe
    refine opsUnder_of_atomic (fun hna => ?_)
    rw [(type_of_nonatomic hna).1] at hfe
    exact Bool.false_ne_true hfe
  · intro pre e post heq hg
    by_cases hna : NonAtomic e
    · obtain ⟨hi, ho⟩ := h pre e post heq hna hg
      exact opsUnder_eq_of_trackedAlike hi ho
    · exact opsUnder_of_atomic hna

theorem heldAt_sublist (h : AnalysedOps sample op k) (c : Nat) :
    heldAt k.atomicOpList c <+ flightAt (op.pmEntries.flatMap atomicOpsOf) c := by
  rw [← h.raw, ← map_args_inFlight]
  exact (held_sublist h.fresh (beforeFence_isPrefix _ _)).map _

/-- The second run holds what the first holds exactly when no store is flushed late. -/
theorem heldAt_eq_iff (h : AnalysedOps sample op k) :
    (∀ c ∈ List.range (fences (op.pmEntries.flatMap atomicOpsOf)),
      heldAt k.atomicOpList c = flightAt (op.pmEntries.flatMap atomicOpsOf) c) ↔
      FlushedInTime op := by
  rw [← inTime_iff_flushedInTime, ← h.raw, ← inTime_map_rawOf, ← held_eq_iff h.fresh]
  have hn : fences (k.atomicOpList.map rawOf) = fences k.atomicOpList := by
    rw [rawOf_eq_mapStore, fences_mapStore]
  simp only [fencePoints, hn, List.forall_mem_map, ← map_args_inFlight]
  refine forall_congr' fun c => imp_congr_right fun _ => ⟨fun heq => ?_, fun heq => ?_⟩
  · have hlen := congrArg List.length heq
    rw [heldAt, List.length_map, List.length_map] at hlen
    exact (held_sublist h.fresh (beforeFence_isPrefix _ _)).eq_of_length hlen
  · rw [heldAt, heq]

/-- Two entries with one number, neither of them a flush, are the same. -/
theorem eq_of_seq_eq (hwf : op.WellFormed) {e e' : TraceEntry} (he : e ∈ op.pmEntries)
    (he' : e' ∈ op.pmEntries) (hfl : e.type.isFlushTy = false) (hfl' : e'.type.isFlushTy = false)
    (hseq : e.seq = e'.seq) : e = e' := by
  let R := fun a b : TraceEntry =>
    a.type.isFlushTy = false → b.type.isFlushTy = false → a.seq ≠ b.seq
  have hR : Std.Symm R := ⟨fun a b hab hb ha heq => hab ha hb heq.symm⟩
  have hpair : op.pmEntries.Pairwise R := by
    refine (pmEntries_pairwise hwf).imp (fun {a b} hab _ hb => ?_)
    rcases hab with hlt | ⟨-, -, hfb⟩
    · omega
    · rw [hb] at hfb
      exact absurd hfb Bool.false_ne_true
  by_contra hne
  exact hpair.forall he he' hne hfl hfl' hseq

theorem store_of_mem_flightAt {raw : List RawOp} {c : Nat} {w : StoreArgs}
    (h : w ∈ flightAt raw c) : .store w ∈ raw := by
  have hw := (inFlight_sublist coversWord _).subset h
  rw [store_mem_iff] at hw
  exact (beforeFence_isPrefix _ _).subset hw

/-- A word is in flight before the fence that follows it. -/
theorem mem_flightAt_next {a b : List RawOp} {w : StoreArgs} :
    w ∈ flightAt (a ++ .store w :: b) (fences a) := by
  have hcut : beforeFence (fences a + 1) (a ++ .store w :: b) =
      a ++ .store w :: beforeFence 1 b := by
    rw [beforeFence_append_of_lt (by omega), beforeFence, Nat.add_sub_cancel_left]
  rw [flightAt, hcut]
  refine List.mem_map.mpr ⟨_, (mem_inFlight_iff _).mpr ⟨(mem_life_iff _).mpr ⟨a, _, rfl, rfl⟩, ?_⟩,
    rfl⟩
  rw [Ne, phase_eq_durable_iff]
  rintro ⟨f, g, -, hsub⟩
  have hno : fences (beforeFence 1 b) = 0 := by rw [fences_beforeFence (le_refl 1)]; omega
  exact fences_ne_zero_of_mem (g := g) (hsub.subset (by simp)) hno

/-- So it is in the second run. -/
theorem mem_heldAt_next {ops : List AtomicOp} (hf : Fresh ops) {a b : List RawOp} {w : StoreArgs}
    (hraw : ops.map rawOf = a ++ .store w :: b) (hb : fences b ≠ 0) : w ∈ heldAt ops (fences a) := by
  obtain ⟨a', l', rfl, rfl, hl⟩ := List.map_eq_append_iff.mp hraw
  obtain ⟨o, b', rfl, ho, rfl⟩ := List.map_eq_cons_iff.mp hl
  cases o with
  | flush f => simp [rawOf] at ho
  | fence g => simp [rawOf] at ho
  | store s =>
    rw [rawOf_eq_mapStore, fences_mapStore] at hb ⊢
    have hcut : beforeFence (fences a' + 1) (a' ++ .store s :: b') =
        a' ++ .store s :: beforeFence 1 b' := by
      rw [beforeFence_append_of_lt (by omega), beforeFence, Nat.add_sub_cancel_left]
    have hfcut : Fresh (a' ++ .store s :: beforeFence 1 b') := hcut ▸ hf.beforeFence _
    rw [← Event.store.inj ho, heldAt, hcut]
    refine List.mem_map_of_mem ((mem_held_iff hfcut).mpr (Or.inl ?_))
    rw [fences_beforeFence (le_refl 1)]
    omega

/-- Cut the operations of the entries at a word that a fence follows. -/
theorem raw_split {g : TraceEntry → List RawOp} (pre : List TraceEntry) {post : List TraceEntry}
    {e : TraceEntry} {w : StoreArgs} (hw : .store w ∈ g e) (hg : fences (post.flatMap g) ≠ 0) :
    ∃ a b, (pre ++ e :: post).flatMap g = a ++ .store w :: b ∧ fences b ≠ 0 := by
  obtain ⟨u, v, huv⟩ := List.append_of_mem hw
  refine ⟨pre.flatMap g ++ u, v ++ post.flatMap g, ?_, ?_⟩
  · rw [List.flatMap_append, List.flatMap_cons, huv]
    simp
  · rw [fences_append]
    omega

theorem fences_flatMap_ne_zero {post : List TraceEntry} (h : ∃ g ∈ post, g.type.isFenceTy = true) :
    fences (post.flatMap atomicOpsOf) ≠ 0 := by
  rw [fences_flatMap]
  exact (List.countP_pos_iff.mpr h).ne'

/-- An entry the analysis tracks by a word has no other number than its own. -/
theorem seq_of_store_mem {e : TraceEntry} {w : StoreArgs} (h : .store w ∈ atomicOpsOf e) :
    w.seq = e.seq ∧ e.type.isFlushTy = false := by
  obtain ⟨-, hfl, -, hw⟩ := store_mem_atomicOpsOf.mp h
  exact ⟨seq_of_mem_trackedWords hw, hfl⟩

/-- Flags that ignore memory copies and sets lose the plans with their numbers. -/
theorem not_ignored_of_same (hwf : op.WellFormed) (h : AnalysedOps sample op k)
    (hi : flags.ignoreNonatomicWrite = true)
    (hsame : (List.range (fences (op.pmEntries.flatMap atomicOpsOf))).filterMap
        (fun c => planOf (heldAt k.atomicOpList c)) =
      (List.range (fences (op.pmEntries.flatMap atomicOpsOf))).filterMap
        (fun c => planOf (flightAt (op.pmEntries.flatMap (opsUnder flags sample)) c)))
    {pre post : List TraceEntry} {e : TraceEntry} (heq : op.pmEntries = pre ++ e :: post)
    (hg : ∃ g ∈ post, g.type.isFenceTy = true) : ¬ NonAtomic e := by
  intro hna
  have he : e ∈ op.pmEntries := by rw [heq]; simp
  obtain ⟨w, rest, hw⟩ := List.exists_cons_of_ne_nil (storePieces_ne_nil hna (h.converts e he))
  have hwe : .store w ∈ atomicOpsOf e := by rw [atomicOpsOf_of_nonAtomic hna, hw]; simp
  obtain ⟨a, b, hab, hb⟩ := raw_split pre hwe (fences_flatMap_ne_zero hg)
  rw [← heq] at hab
  have hheld := mem_heldAt_next h.fresh (h.raw.trans hab) hb
  have hlt : fences a < fences (op.pmEntries.flatMap atomicOpsOf) := by
    rw [hab, fences_append]
    simp only [fences]
    omega
  have hne : heldAt k.atomicOpList (fences a) ≠ [] := List.ne_nil_of_mem hheld
  -- the plan of that fence is among those of the other run
  have hmem : (((heldAt k.atomicOpList (fences a)).map StoreArgs.seq).toFinset,
      lineProd (heldAt k.atomicOpList (fences a))) ∈
      (List.range (fences (op.pmEntries.flatMap atomicOpsOf))).filterMap
        (fun c => planOf (heldAt k.atomicOpList c)) :=
    List.mem_filterMap.mpr ⟨_, List.mem_range.mpr hlt, if_neg hne⟩
  rw [hsame] at hmem
  obtain ⟨c, -, hc⟩ := List.mem_filterMap.mp hmem
  rw [planOf] at hc
  split_ifs at hc
  have hseqs := (Prod.mk.inj (Option.some.inj hc)).1
  have hwseq : w.seq ∈ ((flightAt (op.pmEntries.flatMap (opsUnder flags sample)) c).map
      StoreArgs.seq).toFinset := by
    rw [hseqs]
    exact List.mem_toFinset.mpr (List.mem_map_of_mem hheld)
  obtain ⟨w', hw', hws⟩ := List.mem_map.mp (List.mem_toFinset.mp hwseq)
  obtain ⟨e', he', hwe'⟩ := List.mem_flatMap.mp (store_of_mem_flightAt hw')
  by_cases hna' : NonAtomic e'
  · rw [opsUnder, if_pos hna', if_pos hi] at hwe'
    exact List.not_mem_nil hwe'
  · rw [opsUnder_of_atomic hna'] at hwe'
    obtain ⟨hs, hfl⟩ := seq_of_store_mem hwe
    obtain ⟨hs', hfl'⟩ := seq_of_store_mem hwe'
    have hee := eq_of_seq_eq hwf he he' hfl hfl' (by rw [← hs, ← hs', hws])
    exact hna' (hee ▸ hna)

/-- The second word of a memory copy or set is no word the analysis tracks. -/
theorem oneWord_of_flight_eq (hwf : op.WellFormed) (hi : flags.ignoreNonatomicWrite = false)
    (ho : ¬ flags.nonatomicAsOne = true) (hns : NoSampling flags) (hsample : ∀ l, sample l ⊆ l)
    (hflight : ∀ c ∈ List.range (fences (op.pmEntries.flatMap atomicOpsOf)),
      flightAt (op.pmEntries.flatMap atomicOpsOf) c =
        flightAt (op.pmEntries.flatMap (opsUnder flags sample)) c)
    {pre post : List TraceEntry} {e : TraceEntry} (heq : op.pmEntries = pre ++ e :: post)
    (hna : NonAtomic e) (hg : ∃ g ∈ post, g.type.isFenceTy = true) :
    e.addr + e.size ≤ alignToFloor e.addr atomicWriteBytes + atomicWriteBytes := by
  by_contra hlong
  simp only [alignToFloor, atomicWriteBytes] at hlong
  have he : e ∈ op.pmEntries := by rw [heq]; simp
  let w : StoreArgs := ⟨e.seq, max e.addr (e.addr / 8 * 8 + 8),
    min (e.addr + e.size) (e.addr / 8 * 8 + 8 + 8) - max e.addr (e.addr / 8 * 8 + 8)⟩
  have hw : w ∈ storePieces e :=
    mem_storePieces.mpr ⟨e.addr / 8 * 8 + 8, by omega, by omega, by omega, rfl⟩
  have hwe : .store w ∈ opsUnder flags sample e := by
    have hs : flags.samplingNonatomicWrite = false := by
      rcases hns with h | h | h
      · rw [hi] at h
        exact absurd h Bool.false_ne_true
      · exact absurd h ho
      · exact h
    rw [opsUnder, if_pos hna, hi, if_neg Bool.false_ne_true, if_neg ho, hs]
    simp only [Bool.false_and, Bool.false_eq_true, if_false]
    exact List.mem_map_of_mem hw
  have hg' : fences (post.flatMap (opsUnder flags sample)) ≠ 0 := by
    rw [fences_flatMap_opsUnder flags hsample]
    exact fences_flatMap_ne_zero hg
  obtain ⟨a, b, hab, hb⟩ := raw_split pre hwe hg'
  rw [← heq] at hab
  have hlt : fences a < fences (op.pmEntries.flatMap atomicOpsOf) := by
    rw [← fences_flatMap_opsUnder flags hsample, hab, fences_append]
    simp only [fences]
    omega
  have hin : w ∈ flightAt (op.pmEntries.flatMap atomicOpsOf) (fences a) := by
    rw [hflight _ (List.mem_range.mpr hlt), hab]
    exact mem_flightAt_next
  obtain ⟨e', he', hwe'⟩ := List.mem_flatMap.mp (store_of_mem_flightAt hin)
  obtain ⟨hs', hfl'⟩ := seq_of_store_mem hwe'
  have hee := eq_of_seq_eq hwf he he' (type_of_nonatomic hna).2.1 hfl' hs'
  rw [← hee, atomicOpsOf_of_nonAtomic hna, head?_storePieces (show 1 ≤ e.size by omega)] at hwe'
  simp only [Option.toList_some, List.map_cons, List.map_nil, List.mem_singleton,
    Event.store.injEq] at hwe'
  have haddr : max e.addr (e.addr / 8 * 8 + 8) = e.addr := congrArg StoreArgs.addr hwe'
  omega

/-- The runs emit the same only under the two conditions. -/
theorem conditions_of_same (hwf : op.WellFormed) (h : AnalysedOps sample op k)
    (hsample : ∀ l, sample l ⊆ l) (hns : NoSampling flags)
    (hsame : (List.range (fences (op.pmEntries.flatMap atomicOpsOf))).filterMap
        (fun c => planOf (heldAt k.atomicOpList c)) =
      (List.range (fences (op.pmEntries.flatMap atomicOpsOf))).filterMap
        (fun c => planOf (flightAt (op.pmEntries.flatMap (opsUnder flags sample)) c))) :
    TrackedAlike flags op ∧ FlushedInTime op := by
  by_cases hi : flags.ignoreNonatomicWrite = true
  · have htrack : TrackedAlike flags op := fun pre e post heq hna hg =>
      absurd hna (not_ignored_of_same hwf h hi hsame heq hg)
    refine ⟨htrack, (heldAt_eq_iff h).mp ?_⟩
    refine eq_of_filterMap_planOf_eq (fun c _ => heldAt_sublist h c) (hsame.trans ?_)
    refine List.filterMap_congr (fun c hc => ?_)
    rw [flightAt_eq_of_trackedAlike htrack (List.mem_range.mp hc)]
  · have hi' : flags.ignoreNonatomicWrite = false := Bool.eq_false_iff.mpr hi
    have hthin : ∀ c, flightAt (op.pmEntries.flatMap atomicOpsOf) c <+
        flightAt (op.pmEntries.flatMap (opsUnder flags sample)) c := by
      intro c
      have hth := Thinned.flatMap (l := op.pmEntries)
        (fun e _ => thinned_opsUnder sample e hi' hns)
      exact ((hth.beforeFence (c + 1)).inFlight_sublist coversWord).map _
    have heq := eq_of_filterMap_planOf_eq
      (fun c _ => (heldAt_sublist h c).trans (hthin c)) hsame
    -- the words tracked by the analysis lie between the two
    have hmid : ∀ c ∈ List.range (fences (op.pmEntries.flatMap atomicOpsOf)),
        flightAt (op.pmEntries.flatMap atomicOpsOf) c =
          flightAt (op.pmEntries.flatMap (opsUnder flags sample)) c := by
      intro c hc
      refine (hthin c).eq_of_length_le ?_
      rw [← heq c hc]
      exact (heldAt_sublist h c).length_le
    refine ⟨fun pre e post hop hna hg => ⟨hi', ?_⟩, (heldAt_eq_iff h).mp fun c hc => ?_⟩
    · by_cases ho : flags.nonatomicAsOne = true
      · exact Or.inl ho
      · exact Or.inr (oneWord_of_flight_eq hwf hi' ho hns hsample hmid hop hna hg)
    · rw [heq c hc, hmid c hc]

end

/-- Both calls return, and with the same plans. -/
def SamePlans (flags : ConvFlags) (sample : List RawOp → List RawOp) (op : OpTraceEntry)
    (k : KeptOps) : Prop :=
  ∃ plans plans', k.generateCrashPlans flags sample op = some plans ∧
    KeptOps.new.generateCrashPlans flags sample op = some plans' ∧
    plans.map emitted = plans'.map emitted

theorem samePlans_iff {flags : ConvFlags} {sample : List RawOp → List RawOp} {op : OpTraceEntry}
    {k : KeptOps} (h : AnalysedOps sample op k) (hsample : ∀ l, sample l ⊆ l) :
    SamePlans flags sample op k ↔
      (List.range (fences (op.pmEntries.flatMap atomicOpsOf))).filterMap
          (fun c => planOf (heldAt k.atomicOpList c)) =
        (List.range (fences (op.pmEntries.flatMap atomicOpsOf))).filterMap
          (fun c => planOf (flightAt (op.pmEntries.flatMap (opsUnder flags sample)) c)) := by
  obtain ⟨plans, hplans, hp⟩ := Option.map_eq_some_iff.mp (h.emits_after flags)
  obtain ⟨plans', hplans', hp'⟩ :=
    Option.map_eq_some_iff.mp (h.emits_new hsample flags)
  rw [← hp, ← hp', SamePlans, hplans, hplans']
  simp

/-- The analysis does not change the plans when the flags of the plans track what it
tracks before the last fence and no store is flushed late; without random words these are
the only operations it leaves alone. -/
theorem plans_after_analysis (op : Trace.OpTrace) (flags : ConvFlags)
    (sample : List RawOp → List RawOp) (hsample : ∀ l, sample l ⊆ l) {k : KeptOps}
    (hk : KeptOps.analysed analysisFlags sample op.toOpTraceEntry = some k) :
    (TrackedAlike flags op.toOpTraceEntry ∧ FlushedInTime op.toOpTraceEntry →
      SamePlans flags sample op.toOpTraceEntry k) ∧
    (NoSampling flags → SamePlans flags sample op.toOpTraceEntry k →
      TrackedAlike flags op.toOpTraceEntry ∧ FlushedInTime op.toOpTraceEntry) := by
  have h := analysedOps_of_analysed hk
  rw [samePlans_iff h hsample]
  constructor
  · rintro ⟨htrack, htime⟩
    refine List.filterMap_congr (fun c hc => ?_)
    rw [flightAt_eq_of_trackedAlike htrack (List.mem_range.mp hc), (heldAt_eq_iff h).mpr htime c hc]
  · exact fun hns hsame => conditions_of_same op.wf h hsample hns hsame

/-- A store that is flushed before its fence, and a memory copy of two words behind the last
fence. -/
def promptTrace : Trace.OpTrace :=
  OpTrace.ofRecords (.plain .startFn 0 0 0) "write" 0 4096 0
    [.plain .store 1 0 8, .plain .asmFlush 2 0 64, .plain .asmFence 3 0 0,
      .plain .memTransStore 4 64 16] (by decide +kernel)

def promptOps : KeptOps :=
  (KeptOps.analysed analysisFlags (List.take 1) promptTrace.toOpTraceEntry).get (by decide +kernel)

/-- With the flags of `run_one_case_main`. -/
theorem plans_after_analysis_prompt :
    SamePlans ⟨false, false, true⟩ (List.take 1) promptTrace.toOpTraceEntry promptOps := by
  have hk : KeptOps.analysed analysisFlags (List.take 1) promptTrace.toOpTraceEntry =
      some promptOps := (Option.some_get _).symm
  refine (plans_after_analysis promptTrace ⟨false, false, true⟩ (List.take 1)
    (fun l => List.take_subset 1 l) hk).1 ⟨?_, ?_⟩
  · intro pre e post heq hna hg
    have hnone : ∀ i < promptTrace.pmEntries.length, ∀ x, promptTrace.pmEntries[i]? = some x →
        NonAtomic x → ∀ g ∈ promptTrace.pmEntries.drop (i + 1), g.type.isFenceTy = false := by
      decide +kernel
    obtain ⟨g, hgp, hgf⟩ := hg
    have hno := hnone pre.length (by rw [heq]; simp) e (by rw [heq]; simp) hna g
      (by rw [heq]; simp [hgp])
    rw [hgf] at hno
    exact absurd hno (by simp)
  · refine (heldAt_eq_iff (analysedOps_of_analysed hk)).mp ?_
    decide +kernel

/-- A store whose flush comes behind the next fence. -/
def lateFlushTrace : Trace.OpTrace :=
  OpTrace.ofRecords (.plain .startFn 0 0 0) "write" 0 4096 0
    [.plain .store 1 0 8, .plain .asmFence 2 0 0, .plain .asmFlush 3 0 64, .plain .asmFence 4 0 0]
    (by decide +kernel)

def lateFlushOps : KeptOps :=
  (KeptOps.analysed analysisFlags (List.take 1) lateFlushTrace.toOpTraceEntry).get
    (by decide +kernel)

/-- A fresh entry has a plan at both fences, the analysed one at the first only. -/
theorem plans_differ_late_flush :
    KeptOps.analysed analysisFlags (List.take 1) lateFlushTrace.toOpTraceEntry =
        some lateFlushOps ∧
      ¬ SamePlans ⟨false, false, true⟩ (List.take 1) lateFlushTrace.toOpTraceEntry lateFlushOps := by
  refine ⟨(Option.some_get _).symm, ?_⟩
  rintro ⟨plans, plans', hp, hp', heq⟩
  have hlen : (lateFlushOps.generateCrashPlans ⟨false, false, true⟩ (List.take 1)
      lateFlushTrace.toOpTraceEntry).map List.length = some 1 := by decide +kernel
  have hlen' : (KeptOps.new.generateCrashPlans ⟨false, false, true⟩ (List.take 1)
      lateFlushTrace.toOpTraceEntry).map List.length = some 2 := by decide +kernel
  rw [hp, Option.map_some, Option.some.injEq] at hlen
  rw [hp', Option.map_some, Option.some.injEq] at hlen'
  have hl := congrArg List.length heq
  rw [List.length_map, List.length_map] at hl
  omega

end CrashPlan
end Silhouette