import Silhouette.Hardware.Platform
import Silhouette.CrashPlan.Causality
import Silhouette.CrashPlan.SchemeMechComb

/-!
# Images of plans on the platform

The 2CP and Mech2CP schemes build their images from sequence numbers.  Here the images are
compared with what a crash leaves of a machine that runs the operation.  Behind a store the
platform can have in memory what the plan that persists the store writes, and before the fence
that ends its flight what the plan that persists the others writes.

Every store has to lie in one cacheline.  The plans write records as a whole, while a crash may
have one line of a record and not the other.
-/

namespace Silhouette
namespace Hardware

open Lib Lib.Persist Cache Trace OpTrace CrashPlan Image
open scoped List

/-! ## Events and their records -/

/-- The record an event comes from. -/
def recordOf : PlatformEvent → TraceEntry
  | .store s => s.entry
  | .flush f => f
  | .fence g => g

section

variable {l : List TraceEntry} {x : PlatformEvent}

theorem recordOf_of_mem_eventsOf {e : TraceEntry} (h : x ∈ eventsOf e) : recordOf x = e := by
  unfold eventsOf at h
  split_ifs at h with h1 h2 h3
  · rw [List.mem_singleton.mp h]
    rfl
  · rw [List.mem_singleton.mp h]
    rfl
  · obtain ⟨s, hs, rfl⟩ := List.mem_map.mp h
    exact (mem_lineStores.mp hs).1
  · exact absurd h List.not_mem_nil

theorem fence_mem_events {g : TraceEntry} (h : .fence g ∈ events l) :
    g ∈ l ∧ g.type.isFenceTy = true := by
  obtain ⟨e, he, hg⟩ := List.mem_flatMap.mp h
  obtain rfl : g = e := recordOf_of_mem_eventsOf hg
  refine ⟨he, ?_⟩
  unfold eventsOf at hg
  split_ifs at hg with h1 h2 h3
  · exact h1
  · simp at hg
  · simp at hg
  · simp at hg

theorem flush_mem_events {f : TraceEntry} (h : .flush f ∈ events l) :
    f ∈ l ∧ f.type.isFlushTy = true := by
  obtain ⟨e, he, hf⟩ := List.mem_flatMap.mp h
  obtain rfl : f = e := recordOf_of_mem_eventsOf hf
  refine ⟨he, ?_⟩
  unfold eventsOf at hf
  split_ifs at hf with h1 h2 h3
  · simp at hf
  · exact h2
  · simp at hf
  · simp at hf

theorem stores_events (l : List TraceEntry) :
    stores (events l) = (l.filter fun e => e.type.isStoreSeries).flatMap lineStores := by
  induction l with
  | nil => rfl
  | cons e l ih =>
    rw [events, List.flatMap_cons, stores_append, ← events, ih]
    unfold eventsOf
    by_cases hst : e.type.isStoreSeries = true
    · obtain ⟨h2, h1, -⟩ := TraceType.isStoreSeries_cases hst
      rw [h1, h2, hst, List.filter_cons, if_pos hst, List.flatMap_cons]
      congr 1
      exact SchemeMechComb.stores_map_store (lineStores e)
    · rw [List.filter_cons, if_neg hst]
      split_ifs
      · rfl
      · rfl
      · rfl

theorem seq_le_of_entryBefore {a b : TraceEntry} (h : a = b ∨ EntryBefore a b) :
    a.seq ≤ b.seq := by
  rcases h with rfl | hlt | ⟨heq, -⟩
  · exact le_refl _
  · exact hlt.le
  · exact heq.le

/-- Events stand in the order of their records. -/
theorem pairwise_events (h : l.Pairwise EntryBefore) :
    (events l).Pairwise fun x y => recordOf x = recordOf y ∨ EntryBefore (recordOf x) (recordOf y) := by
  rw [events, List.pairwise_flatMap]
  constructor
  · intro e _
    refine List.Pairwise.imp_of_mem (fun {x y} hx hy _ => Or.inl ?_)
      (List.pairwise_of_forall (R := fun _ _ => True) fun _ _ => trivial)
    rw [recordOf_of_mem_eventsOf hx, recordOf_of_mem_eventsOf hy]
  · refine h.imp fun {a b} hab x hx y hy => Or.inr ?_
    rw [recordOf_of_mem_eventsOf hx, recordOf_of_mem_eventsOf hy]
    exact hab

theorem nodup_stores_events (h : l.Pairwise EntryBefore) : (stores (events l)).Nodup := by
  rw [stores_events, List.nodup_flatMap]
  refine ⟨fun e _ => nodup_lineStores e, ?_⟩
  refine (h.filter _).imp_of_mem fun {a b} _ hb hab s hsa hsb => ?_
  have heq : a = b := (mem_lineStores.mp hsa).1.symm.trans (mem_lineStores.mp hsb).1
  subst heq
  rcases hab with hlt | ⟨-, -, hfl⟩
  · exact lt_irrefl _ hlt
  · rw [(TraceType.isStoreSeries_cases (List.mem_filter.mp hb).2).1] at hfl
    exact Bool.false_ne_true hfl

end

theorem pairwise_stores_events {l : List TraceEntry} (h : l.Pairwise EntryBefore) :
    (stores (events l)).Pairwise fun s t => s.entry.seq ≤ t.entry.seq := by
  rw [stores_events, List.pairwise_flatMap]
  constructor
  · intro e _
    refine List.Pairwise.imp_of_mem (fun {s t} hs ht _ => ?_)
      (List.pairwise_of_forall (R := fun _ _ => True) fun _ _ => trivial)
    rw [(mem_lineStores.mp hs).1, (mem_lineStores.mp ht).1]
  · refine (h.filter _).imp fun {a b} hab s hs t ht => ?_
    rw [(mem_lineStores.mp hs).1, (mem_lineStores.mp ht).1]
    exact seq_le_of_entryBefore (Or.inr hab)

/-! ## Plans as sets of stores -/

/-- The record is one an unsampled plan writes. -/
def Written (op : OpTraceEntry) (cp : CrashPlanEntry) (s : LineStore) : Prop :=
  s.entry.seq ∈ writtenSeqs op cp

instance (op : OpTraceEntry) (cp : CrashPlanEntry) : DecidablePred (Written op cp) :=
  fun s => inferInstanceAs (Decidable (s.entry.seq ∈ writtenSeqs op cp))

/-- A plan has every store that is flushed and fenced among some records. -/
def HasDurable (op : OpTraceEntry) (pre : List TraceEntry) (cp : CrashPlanEntry) : Prop :=
  ∀ u f g, op.IsPmStore u → f ∈ pre → f.type.isFlushTy = true →
    (∃ a, Touches u a ∧ touchesLine f a = true) → u.seq ≤ f.seq →
    g ∈ pre → g.type.isFenceTy = true → f.seq < g.seq → u.seq ∈ writtenSeqs op cp

section

variable {op : OpTraceEntry} {pre post : List TraceEntry} {cp : CrashPlanEntry}

theorem isPmStore_of_mem_stores (hwf : op.WellFormed) (hpre : pre ⊆ op.pmEntries) {s : LineStore}
    (h : s ∈ stores (events pre)) : op.IsPmStore s.entry ∧ Touches s.entry s.line := by
  rw [stores_events, List.mem_flatMap] at h
  obtain ⟨e, he, hs⟩ := h
  obtain ⟨he, hst⟩ := List.mem_filter.mp he
  obtain ⟨rfl, ht⟩ := mem_lineStores.mp hs
  exact ⟨hwf.isPmStore_iff.mpr ⟨hpre he, hst⟩, ht⟩

/-- What a plan writes can be in memory if it respects the order within the cachelines and
has everything durable. -/
theorem crashSet_written (hwf : op.WellFormed) (hpre : pre <+: op.pmEntries)
    (htso : RespectsTso op cp) (hdurable : HasDurable op pre cp) :
    platform.CrashSet (events pre) (Written op cp) where
  ordered := by
    intro s t hst hsub ht
    have hs := isPmStore_of_mem_stores hwf hpre.subset (hsub.subset (List.mem_cons_self))
    have ht' := isPmStore_of_mem_stores hwf hpre.subset
      (hsub.subset (List.mem_cons_of_mem _ List.mem_cons_self))
    have hle : s.entry.seq ≤ t.entry.seq := by
      have hpair := (pairwise_stores_events
        ((pmEntries_pairwise hwf).sublist hpre.sublist)).sublist hsub
      exact List.rel_of_pairwise_cons hpair List.mem_cons_self
    by_cases heq : s.entry.seq = t.entry.seq
    · show s.entry.seq ∈ _
      rw [heq]
      exact ht
    · have hline : s.line = t.line := hst
      exact htso _ _ ht (by omega) ⟨t.entry, s.entry, ht'.1, rfl, hs.1, rfl, t.line, ht'.2,
        hline ▸ hs.2⟩
  durable := by
    intro s hs
    obtain ⟨a, b, hab, hphase⟩ := (mem_life_iff platform.covers).mp hs
    obtain ⟨f, g, hcov, hfg⟩ := (phase_eq_durable_iff platform.covers).mp hphase.symm
    have hpair := pairwise_events ((pmEntries_pairwise hwf).sublist hpre.sublist)
    rw [hab] at hpair
    have hsb := (List.pairwise_append.mp hpair).2.1
    obtain ⟨hsafter, hb⟩ := List.pairwise_cons.mp hsb
    have hfb : .flush f ∈ b := hfg.subset List.mem_cons_self
    have hgb : .fence g ∈ b := hfg.subset (List.mem_cons_of_mem _ List.mem_cons_self)
    have hin : ∀ x ∈ b, x ∈ events pre := by
      intro x hx
      rw [hab]
      exact List.mem_append_right _ (List.mem_cons_of_mem _ hx)
    obtain ⟨hf, hfty⟩ := flush_mem_events (hin _ hfb)
    obtain ⟨hg, hgty⟩ := fence_mem_events (hin _ hgb)
    have hs' : s ∈ stores (events pre) := by
      rw [hab, stores_append]
      exact List.mem_append_right _ List.mem_cons_self
    obtain ⟨hst, htouch⟩ := isPmStore_of_mem_stores hwf hpre.subset hs'
    have hle : s.entry.seq ≤ f.seq := seq_le_of_entryBefore (hsafter _ hfb)
    have hlt : f.seq < g.seq := by
      rcases List.rel_of_pairwise_cons (hb.sublist hfg) List.mem_cons_self with heq | hlt | hst
      · obtain rfl : f = g := heq
        rw [isFenceTy_of_isFlushTy hfty] at hgty
        exact absurd hgty Bool.false_ne_true
      · exact hlt
      · have hfst : f.type.isStoreSeries = true := hst.2.1
        rw [(TraceType.isStoreSeries_cases hfst).1] at hfty
        exact absurd hfty Bool.false_ne_true
    exact hdurable s.entry f g hst hf hfty ⟨s.line, htouch, hcov⟩ hle hg hgty hlt

/-! ## Images -/

theorem filter_getEntryList (e : TraceEntry) :
    (e.getEntryList.filter fun x => x.type.isStoreSeries) =
      if e.type.isStoreSeries then [e] else [] := by
  unfold TraceEntry.getEntryList
  split_ifs with h1 h2 h2
  · rw [List.filter_cons, if_pos h2]
    rfl
  · rw [List.filter_cons, if_neg h2]
    rfl
  · rw [List.filter_cons, if_pos h2]
    rfl
  · rw [List.filter_cons, if_neg h2]
    rfl

theorem filter_entryLists {items : List (Int × List TraceEntry)}
    (h : ∀ x ∈ items, ∃ e : TraceEntry, x = (e.seq, e.getEntryList)) :
    ((items.flatMap Prod.snd).filter fun e => e.type.isStoreSeries) =
      items.filterMap fun x => x.2.head?.filter fun e => e.type.isStoreSeries := by
  induction items with
  | nil => rfl
  | cons x items ih =>
    obtain ⟨e, rfl⟩ := h x List.mem_cons_self
    rw [List.flatMap_cons, List.filter_append, ih fun y hy => h y (List.mem_cons_of_mem _ hy),
      List.filterMap_cons, e.head?_getEntryList, filter_getEntryList, Option.filter_some]
    split_ifs
    · rfl
    · rfl

/-- The store records of an operation in sequence order. -/
theorem filter_pmEntries {r : TraceReader} (hop : Split r op) :
    (op.pmEntries.filter fun e => e.type.isStoreSeries) = op.pmStoreEntries := by
  rw [OpTraceEntry.pmEntries, pmSortedItems_eq hop.ordered, OpTraceEntry.pmStoreEntries]
  refine filter_entryLists fun x hx => ?_
  obtain ⟨e, he, -⟩ := hop.wf.item x hx
  exact ⟨e, he⟩

/-- The lines a plan has of the records in front of a crash are the lines of what it writes. -/
theorem filter_stores_events {r : TraceReader} (hop : Split r op)
    (hsplit : op.pmEntries = pre ++ post)
    (hpost : ∀ e ∈ post, e.type.isStoreSeries = true → e.seq ∉ writtenSeqs op cp) :
    ((stores (events pre)).filter fun s => Written op cp s) =
      (planStores cp op.pmStoreEntries).flatMap lineStores := by
  have hline : ∀ l : List TraceEntry, (l.flatMap lineStores).filter (fun s => Written op cp s) =
      (l.filter fun e => e.seq ∈ writtenSeqs op cp).flatMap lineStores := by
    intro l
    induction l with
    | nil => rfl
    | cons e l ih =>
      rw [List.flatMap_cons, List.filter_append, ih, List.filter_cons]
      by_cases hw : e.seq ∈ writtenSeqs op cp
      · have hall : (lineStores e).filter (fun s => Written op cp s) = lineStores e := by
          refine List.filter_eq_self.mpr fun s hs => decide_eq_true ?_
          show s.entry.seq ∈ writtenSeqs op cp
          rwa [(mem_lineStores.mp hs).1]
        rw [if_pos (decide_eq_true hw), hall, List.flatMap_cons]
      · have hnone : (lineStores e).filter (fun s => Written op cp s) = [] := by
          refine List.filter_eq_nil_iff.mpr fun s hs hw' => hw ?_
          rw [← (mem_lineStores.mp hs).1]
          exact of_decide_eq_true hw'
        rw [if_neg (by simpa using hw), hnone, List.nil_append]
  have hstores : planStores cp op.pmStoreEntries =
      (pre.filter fun e => e.type.isStoreSeries).filter fun e => e.seq ∈ writtenSeqs op cp := by
    have hnone : (post.filter fun e => e.type.isStoreSeries).filter
        (fun e => e.seq ∈ writtenSeqs op cp) = [] := by
      refine List.filter_eq_nil_iff.mpr fun e he hw => ?_
      obtain ⟨he, hst⟩ := List.mem_filter.mp he
      exact hpost e he hst (of_decide_eq_true hw)
    have hall : (op.pmStoreEntries.filter fun e => e.seq ∈ writtenSeqs op cp) =
        planStores cp op.pmStoreEntries := by
      refine List.filter_congr fun e he => ?_
      have hmem : e.seq ∈ op.pmSortedStoreSeq :=
        (hop.wf.mem_storeSeq _).mpr ⟨e, hop.mem_pmStoreEntries.mp he, rfl⟩
      rw [decide_eq_decide, mem_writtenSeqs]
      exact ⟨fun h => h.2, fun h => ⟨hmem, h⟩⟩
    rw [← hall, ← filter_pmEntries hop, hsplit, List.filter_append, List.filter_append, hnone,
      List.append_nil]
  rw [stores_events, hline, hstores]

theorem recordByte_eq {e : TraceEntry} {data : Bytes} (h : HasValue e data) (k : Nat) :
    recordByte (op.pmAddr + k) e = storeByte op.pmAddr k e := by
  have hlen := h.length
  unfold recordByte storeByte
  rw [h.value, Option.bind_some, Option.bind_some]
  by_cases hle : e.addr ≤ op.pmAddr + k
  · rw [if_pos hle]
    by_cases hlt : op.pmAddr + k < e.addr + e.size
    · rw [if_pos ⟨hle, hlt⟩]
    · rw [if_neg fun h => hlt h.2]
      exact (List.getElem?_eq_none (by omega)).symm
  · rw [if_neg hle, if_neg fun h => hle h.1]

/-- The image of a plan that writes what can be in memory is one that a crash can leave. -/
theorem exists_crashImage {r : TraceReader} (hop : Split r op) (hvalues : ValuesRecorded op)
    (hun : cp.samplingType = .samplingNone) {img : Bytes} (himg : (img.length : Int) = op.pmSize)
    (hsplit : op.pmEntries = pre ++ post) (htso : RespectsTso op cp)
    (hdurable : HasDurable op pre cp)
    (hpost : ∀ e ∈ post, e.type.isStoreSeries = true → e.seq ∉ writtenSeqs op cp) :
    ∃ img', putCpToImg img op cp = some img' ∧ CrashImage op.pmAddr pre img img' := by
  obtain ⟨n, hn⟩ := putCpToImg_eq_stores hop hun
  obtain ⟨img', hput, hlen, hbyte⟩ :=
    foldlM_putStore_fitting (@fitting_planStores r op cp img hop hvalues himg n)
  refine ⟨img', (hn img).trans hput, hlen, _,
    PmMachine.reaches_stateOf (imageMemory op.pmAddr img)
      (crashSet_written hop.wf ⟨post, hsplit.symm⟩ htso hdurable), fun k hk => ?_⟩
  have htake : planStores cp (op.pmStoreEntries.take n) ⊆ planStores cp op.pmStoreEntries := by
    intro e he
    obtain ⟨he, hw⟩ := List.mem_filter.mp he
    exact List.mem_filter.mpr ⟨List.mem_of_mem_take he, hw⟩
  have hsame : lastWrite (recordByte (op.pmAddr + k)) (planStores cp op.pmStoreEntries) =
      lastWrite (storeByte op.pmAddr k) (planStores cp op.pmStoreEntries) := by
    refine lastWrite_congr _ fun e he => ?_
    obtain ⟨data, hdata⟩ := hvalues e (hop.mem_pmStoreEntries.mp (List.mem_filter.mp he).1)
    exact recordByte_eq hdata k
  have hbase : imageMemory op.pmAddr img (op.pmAddr + k) = img[k] := by
    unfold imageMemory
    rw [if_pos (by omega), List.getD_eq_getElem?_getD, show (op.pmAddr + k - op.pmAddr).toNat = k by
      omega, List.getElem?_eq_getElem hk]
    rfl
  show _ = some (((stores (events pre)).filter fun s => Written op cp s).foldl writeLine _ _)
  rw [filter_stores_events hop hsplit hpost, foldl_writeLine, lastWrite_flatMap_lineStores, hsame,
    hbase, hbyte k, planStores, List.filter_append, ← planStores, ← planStores,
    lastWrite_append_of_subset _ htake, List.getElem?_eq_getElem hk]
  cases lastWrite (storeByte op.pmAddr k) (planStores cp op.pmStoreEntries) with
  | none => rfl
  | some v => rfl

end

/-! ## The plans of a store -/

/-- The records of an operation up to a store, which is one of them. -/
def recordsUpTo (op : OpTraceEntry) (st : TraceEntry) : List TraceEntry :=
  (op.pmEntries.takeWhile fun e => e ≠ st) ++ [st]

/-- The records before the fence that ends a cluster.  The last cluster ends with the operation. -/
def recordsBeforeFence (op : OpTraceEntry) (c : Nat) : List TraceEntry :=
  match op.fenceEntries[c - 1]? with
  | some g => op.pmEntries.takeWhile fun e => e ≠ g
  | none => op.pmEntries

theorem takeWhile_ne_append {l : List TraceEntry} {x : TraceEntry} (h : x ∈ l) :
    ∃ rest, l = l.takeWhile (fun e => e ≠ x) ++ x :: rest := by
  induction l with
  | nil => exact absurd h List.not_mem_nil
  | cons y l ih =>
    by_cases hy : y = x
    · subst hy
      exact ⟨l, by simp⟩
    · obtain ⟨rest, hrest⟩ := ih ((List.mem_cons.mp h).resolve_left (Ne.symm hy))
      refine ⟨rest, ?_⟩
      rw [List.takeWhile_cons, if_pos (decide_eq_true hy), List.cons_append, ← hrest]

/-- Of two records the one in front has the smaller number, unless they are a store and its own
flush. -/
theorem seq_lt_of_entryBefore {a b : TraceEntry} (h : EntryBefore a b)
    (hab : a.type.isStoreSeries = false ∨ b.type.isFlushTy = false) : a.seq < b.seq := by
  rcases h with hlt | ⟨-, hst, hfl⟩
  · exact hlt
  · rcases hab with hno | hno
    · rw [hst] at hno
      exact absurd hno (by decide)
    · rw [hfl] at hno
      exact absurd hno (by decide)

section

variable {op : OpTraceEntry} {r : Analysis} {ops : List AtomicOp} {st : TraceEntry} {c : Nat}
  {cp : CrashPlanEntry}

/-- A flush of whole lines that reaches the line of a store contains the store. -/
theorem encloses_of_touchesLine (hflush : WholeLineFlushes op) {f u : TraceEntry}
    (hf : f ∈ op.pmEntries) (hty : f.type.isFlushTy = true) (hu : InOneCacheline u) {a : Int}
    (ha : Touches u a) (hfa : touchesLine f a = true) :
    Encloses f u.addr (u.addr + u.size) := by
  have hline := lineOf_eq_of_touches hu ha
  obtain ⟨b, h1, h2, h3, h4⟩ := touchesLine_iff.mp hfa
  obtain ⟨hal1, hal2⟩ := hflush f hf hty
  obtain ⟨hsize, hend⟩ := hu
  simp only [cachelineBytes, lineOf, alignToFloor] at *
  constructor
  · omega
  · omega

/-- Flushed, and fenced before a cluster ends, a store is not in flight there. -/
theorem not_inFlightAt_of_durable (h : Analysed op r ops) {u f : TraceEntry} (hu : op.IsPmStore u)
    (hsize : 1 ≤ u.size) (hf : f ∈ op.pmEntries) (hfty : f.type.isFlushTy = true)
    (henc : Encloses f u.addr (u.addr + u.size)) (huf : u.seq ≤ f.seq)
    (hc : fencesBelow ops f.seq + 1 < c) (hcn : c ≤ fences ops + 1) :
    ¬ InFlightAt ops c u.seq := by
  rintro ⟨s, p, hp, hseq⟩
  have hs := store_mem_of_mem_inFlight hp
  obtain ⟨hin1, hin2, hin3⟩ := trackedWords_inside (h.args_mem_of_seq_eq hu hs hseq)
  have hin1' : u.addr ≤ s.addr := hin1
  have hin2' : s.addr + s.size ≤ u.addr + u.size := hin2
  obtain ⟨henc1, henc2⟩ := henc
  obtain ⟨f', hf', hfseq⟩ := (h.flushedBy_iff hs (hin3 hsize)).mpr
    ⟨(show s.seq ≤ f.seq by omega), f, hf, hfty, rfl, by omega, by omega⟩
  obtain ⟨f₁, hfirst⟩ := exists_firstFlush h.order hs ⟨f', hf'⟩
  have hmono := fencesBelow_mono ops (show f₁.seq ≤ f.seq from hfseq ▸ hfirst.2 f' hf')
  obtain ⟨-, ⟨hbelow, -⟩ | ⟨heq, -⟩⟩ :=
    (mem_inFlight_of_firstFlush h.fresh h.order hs hfirst (by omega) hcn).mp hp
  · omega
  · omega

/-- Flushed and fenced before a cluster ends, a store was flushing at an earlier fence. -/
theorem flushedEarlier_of_durable (h : Analysed op r ops) {u f : TraceEntry}
    (hu : op.IsPmStore u) (hsize : 1 ≤ u.size) (hf : f ∈ op.pmEntries)
    (hfty : f.type.isFlushTy = true) (henc : Encloses f u.addr (u.addr + u.size))
    (huf : u.seq ≤ f.seq) (hc : fencesBelow ops f.seq + 1 < c) : FlushedEarlier ops c u.seq := by
  obtain ⟨w, hw⟩ := exists_trackedWord hsize
  obtain ⟨s, hs, hargs⟩ := h.exists_store hu hw
  obtain ⟨hin1, hin2, hin3⟩ := trackedWords_inside hw
  have hseq := seq_of_mem_trackedWords hw
  rw [← hargs] at hin1 hin2 hin3 hseq
  obtain ⟨y, -, hyf, hfl⟩ := h.flushingAt_of_enclosed hs (hin3 hsize) hf hfty
    (show s.seq ≤ f.seq from hseq.trans_le huf) ⟨henc.1.trans hin1, hin2.trans henc.2⟩
  have hmono := fencesBelow_mono ops hyf
  have hseq' : s.seq = u.seq := hseq
  exact ⟨fencesBelow ops y + 1, ⟨by omega, by omega⟩, hseq' ▸ hfl⟩

/-! ### Persist the store -/

theorem recordsUpTo_append (hst : st ∈ op.pmEntries) :
    ∃ rest, op.pmEntries = recordsUpTo op st ++ rest ∧
      op.pmEntries = op.pmEntries.takeWhile (fun e => e ≠ st) ++ st :: rest := by
  obtain ⟨rest, hrest⟩ := takeWhile_ne_append hst
  refine ⟨rest, ?_, hrest⟩
  rw [recordsUpTo, List.append_assoc]
  exact hrest

theorem hasDurable_self (h : Analysed op r ops) (hflush : WholeLineFlushes op)
    (hone : ∀ e, op.IsPmStore e → InOneCacheline e) (hst : op.IsPmStore st)
    (hp : PersistsSelf op r st c cp) : HasDurable op (recordsUpTo op st) cp := by
  intro u f g hu hf hfty hcov huf hg hgty hfg
  obtain ⟨hmem, hty⟩ := h.wf.isPmStore_iff.mp hst
  obtain ⟨rest, hsplit, hsplit'⟩ := recordsUpTo_append hmem
  have hsub : recordsUpTo op st ⊆ op.pmEntries := by
    rw [hsplit]
    exact List.subset_append_left _ _
  obtain ⟨a, hua, hfa⟩ := hcov
  have henc := encloses_of_touchesLine hflush (hsub hf) hfty (hone u hu) hua hfa
  have hgst : g.seq < st.seq := by
    rcases List.mem_append.mp hg with hg' | hg'
    · have hpair := pmEntries_pairwise h.wf
      rw [hsplit'] at hpair
      refine seq_lt_of_entryBefore ((List.pairwise_append.mp hpair).2.2 g hg' st
        List.mem_cons_self) (Or.inr (TraceType.isStoreSeries_cases hty).1)
    · rw [List.mem_singleton.mp hg', (TraceType.isStoreSeries_cases hty).2.1] at hgty
      exact absurd hgty Bool.false_ne_true
  exact durable_mem_written h hp hu (hone u hu).1 (hsub hf) hfty henc huf (hsub hg) hgty hfg hgst

/-- Behind a store, a crash can leave what the plan that persists the store writes. -/
theorem self_crashImage {t : TraceReader} (hop : Split t op) (hvalues : ValuesRecorded op)
    (h : Analysed op r ops) (hflush : WholeLineFlushes op)
    (hone : ∀ e, op.IsPmStore e → InOneCacheline e) (hst : op.IsPmStore st)
    (hp : PersistsSelf op r st c cp) (hun : cp.samplingType = .samplingNone) {img : Bytes}
    (himg : (img.length : Int) = op.pmSize) :
    ∃ img', putCpToImg img op cp = some img' ∧
      CrashImage op.pmAddr (recordsUpTo op st) img img' := by
  obtain ⟨hmem, hty⟩ := h.wf.isPmStore_iff.mp hst
  obtain ⟨rest, hsplit, hsplit'⟩ := recordsUpTo_append hmem
  have htso : RespectsTso op cp := by
    refine (self_respectsTso_iff h.wf h.describes hp).mpr ?_
    exact (nonePassedOver_of_oneLine h hflush hone hst true true).1 rfl c
      ((firstInFlight_iff h.describes).mp hp.cluster)
  refine exists_crashImage hop hvalues hun himg hsplit htso
    (hasDurable_self h hflush hone hst hp) fun e he hest hw => ?_
  have hpair := pmEntries_pairwise h.wf
  rw [hsplit'] at hpair
  have hlt := seq_lt_of_entryBefore
    ((List.pairwise_cons.mp (List.pairwise_append.mp hpair).2.1).1 e he)
    (Or.inr (TraceType.isStoreSeries_cases hest).1)
  have hle := persistSelf_written_le h hp hw
  omega

/-! ### Persist the others -/

/-- The records before the fence of a cluster, and what is behind them. -/
theorem recordsBeforeFence_append (h : Analysed op r ops) (c : Nat) :
    (∃ g rest, op.fenceEntries[c - 1]? = some g ∧ g.type.isFenceTy = true ∧
        op.pmEntries = recordsBeforeFence op c ++ g :: rest) ∨
      fences ops ≤ c - 1 ∧ op.pmEntries = recordsBeforeFence op c := by
  cases hg : op.fenceEntries[c - 1]? with
  | some g =>
    obtain ⟨hmem, hty⟩ := List.mem_filter.mp (List.mem_of_getElem? hg)
    obtain ⟨rest, hrest⟩ := takeWhile_ne_append hmem
    refine Or.inl ⟨g, rest, rfl, hty, ?_⟩
    rw [recordsBeforeFence, hg]
    exact hrest
  | none =>
    refine Or.inr ⟨?_, ?_⟩
    · rw [← h.length_fenceEntries]
      exact List.getElem?_eq_none_iff.mp hg
    · rw [recordsBeforeFence, hg]

/-- A fence among the records before a cluster ends does not end it. -/
theorem fencesBelow_lt_of_mem_recordsBeforeFence (h : Analysed op r ops)
    (hc : 1 ≤ c) {g : TraceEntry} (hg : g ∈ recordsBeforeFence op c)
    (hgty : g.type.isFenceTy = true) : fencesBelow ops g.seq + 1 < c := by
  rcases recordsBeforeFence_append h c with ⟨g', rest, hg', hgty', hsplit⟩ | ⟨hn, hsplit⟩
  · have hpair := pmEntries_pairwise h.wf
    rw [hsplit] at hpair
    have hlt := seq_lt_of_entryBefore
      ((List.pairwise_append.mp hpair).2.2 g hg g' List.mem_cons_self)
      (Or.inl (by cases hst : g.type.isStoreSeries with
        | false => rfl
        | true =>
          rw [(TraceType.isStoreSeries_cases hst).2.1] at hgty
          exact absurd hgty Bool.false_ne_true))
    have hmem : g ∈ op.pmEntries := by
      rw [hsplit]
      exact List.mem_append_left _ hg
    obtain ⟨f, hf, hfseq⟩ := h.fence_mem hmem hgty
    have hbelow := fencesBelow_lt hf (x := g.seq) (y := g'.seq) (by omega) (by omega)
    rw [h.fencesBelow_fence hg'] at hbelow
    omega
  · have hmem : g ∈ op.pmEntries := hsplit ▸ hg
    obtain ⟨f, hf, hfseq⟩ := h.fence_mem hmem hgty
    have hbelow := fencesBelow_lt hf (x := g.seq) (y := g.seq + 1) (by omega) (by omega)
    have hle := fencesBelow_le ops (g.seq + 1)
    omega

theorem hasDurable_other (h : Analysed op r ops) (hflush : WholeLineFlushes op)
    (hone : ∀ e, op.IsPmStore e → InOneCacheline e) (hst : op.IsPmStore st)
    (hp : PersistsOther op r st c cp) : HasDurable op (recordsBeforeFence op c) cp := by
  intro u f g hu hf hfty hcov huf hg hgty hfg
  obtain ⟨⟨h1, hcn⟩, hin, -⟩ := (lastInFlight_iff h.describes).mp hp.cluster
  have hsub : recordsBeforeFence op c ⊆ op.pmEntries := by
    rcases recordsBeforeFence_append h c with ⟨g', rest, -, -, hsplit⟩ | ⟨-, hsplit⟩
    · rw [hsplit]
      exact List.subset_append_left _ _
    · rw [← hsplit]
      exact fun _ => id
  obtain ⟨a, hua, hfa⟩ := hcov
  have henc := encloses_of_touchesLine hflush (hsub hf) hfty (hone u hu) hua hfa
  have hmono := fencesBelow_mono ops hfg.le
  have hlt := fencesBelow_lt_of_mem_recordsBeforeFence h h1 hg hgty
  have hearlier := flushedEarlier_of_durable h hu (hone u hu).1 (hsub hf) hfty henc huf
    (show fencesBelow ops f.seq + 1 < c by omega)
  have hno : ¬ InFlightAt ops c u.seq :=
    not_inFlightAt_of_durable h hu (hone u hu).1 (hsub hf) hfty henc huf (by omega) hcn
  -- the flush takes an earlier store of the line with it
  have hline : lineOf u.addr = lineOf st.addr → ¬ st.seq < u.seq := by
    intro heq hlt'
    have hta : Touches st a := by
      refine ⟨st.addr, le_refl _, ?_, ?_⟩
      · have hsize := (hone st hst).1
        omega
      · rw [← heq, lineOf_eq_of_touches (hone u hu) hua]
    have henc' := encloses_of_touchesLine hflush (hsub hf) hfty (hone st hst) hta hfa
    exact not_inFlightAt_of_durable h hst (hone st hst).1 (hsub hf) hfty henc' (by omega) (by omega)
      hcn hin
  rw [mem_written_persistOther hp.set hp.start, h.wf.mem_storeSeq]
  refine ⟨⟨u, hu, rfl⟩, Or.inl ((mem_persistOtherSet_iff h.wf h.describes hcn).mpr
    ⟨?_, ?_, fun hlt' => ⟨fun hov => ?_, fun hlines => ?_⟩⟩)⟩
  · obtain ⟨k, ⟨hk1, hkc⟩, hfl⟩ := hearlier
    exact ⟨k, ⟨hk1, by omega⟩, hfl⟩
  · intro heq
    rw [heq] at hno
    exact hno hin
  · exact hline (lineOf_eq_of_overwrittenBy h hone hu hst hov).1 hlt'
  · exact hline ((inLinesOf_iff hone hst hu).mp hlines) hlt'

/-- Before the fence that ends the flight of a store, a crash can leave what the plan that
persists the others writes. -/
theorem other_crashImage {t : TraceReader} (hop : Split t op) (hvalues : ValuesRecorded op)
    (h : Analysed op r ops) (hflush : WholeLineFlushes op)
    (hone : ∀ e, op.IsPmStore e → InOneCacheline e) (hst : op.IsPmStore st)
    (hp : PersistsOther op r st c cp) (hun : cp.samplingType = .samplingNone) {img : Bytes}
    (himg : (img.length : Int) = op.pmSize) :
    ∃ img', putCpToImg img op cp = some img' ∧
      CrashImage op.pmAddr (recordsBeforeFence op c) img img' := by
  have htso : RespectsTso op cp := by
    refine (other_respectsTso_iff h.wf h.describes hp).mpr ?_
    exact (nonePassedOver_of_oneLine h hflush hone hst true true).2 rfl c
      ((lastInFlight_iff h.describes).mp hp.cluster)
  have hdurable := hasDurable_other h hflush hone hst hp
  rcases recordsBeforeFence_append h c with ⟨g, rest, hg, hgty, hsplit⟩ | ⟨-, hsplit⟩
  · refine exists_crashImage hop hvalues hun himg hsplit htso hdurable fun e he hest hw => ?_
    have hlt := persistOther_written_lt h hst hp hg hw
    have hpair := pmEntries_pairwise h.wf
    rw [hsplit] at hpair
    rcases List.mem_cons.mp he with rfl | he
    · exact lt_irrefl _ hlt
    · have hlt' := seq_lt_of_entryBefore
        ((List.pairwise_cons.mp (List.pairwise_append.mp hpair).2.1).1 e he)
        (Or.inr (TraceType.isStoreSeries_cases hest).1)
      omega
  · have hsplit' : op.pmEntries = recordsBeforeFence op c ++ [] := by
      rw [List.append_nil]
      exact hsplit
    exact exists_crashImage hop hvalues hun himg hsplit' htso hdurable
      fun e he => absurd he List.not_mem_nil

end

end Hardware
end Silhouette
