import Silhouette.Hardware.PlanImages

/-!
# The images that are tested

The executor replays all earlier operations and then applies a plan of the next one.
`plans_crash_images` and `tested_images_reached` say of every unsampled plan of the 2CP and
Mech2CP schemes that the result is an image a crash can leave, of the operation on whatever it
starts from and of the whole run from the empty device.
-/

namespace Silhouette
namespace CrashPlan.Scheme2CP

open Trace OpTrace Mech

variable (op : OpTraceEntry) (r : Analysis) (ignoreNonatomicWrite : Bool) (flags : PlanFlags)
  (pick : List Int → Int)

/-- The body of the loop of `generate_crash_plans`.  A store without cluster is an error. -/
def storePlans (st : TraceEntry) : Option (List CrashPlanEntry) :=
  if ignoreNonatomicWrite && (st.type.isMemset || st.type.isMemTransStore) then some []
  else if (r.inFlightSeqClusterMap.get? st.seq).isNone then none
  else gen2cpForAStore op r flags pick st

/-- `CrashPlanScheme2CP.generate_crash_plans`. -/
def generateCrashPlans (d : DeduceMech) : Option (List CrashPlanEntry) :=
  (d.pmstoreReason.mapM fun e => storePlans op r ignoreNonatomicWrite flags pick e.op).map
    List.flatten

end CrashPlan.Scheme2CP

namespace Hardware

open Lib Lib.Persist Cache Trace OpTrace CrashPlan Image Mech
open scoped List

/-! ## Plans of an operation -/

/-- One of the two schemes has these plans for an operation. -/
def SchemePlans (op : OpTraceEntry) (r : Analysis) (ignoreNonatomicWrite : Bool)
    (flags : PlanFlags) (pick : List Int → Int) (d : DeduceMech) (plans : List CrashPlanEntry) :
    Prop :=
  Scheme2CP.generateCrashPlans op r ignoreNonatomicWrite flags pick d = some plans ∨
    SchemeMech2CP.generateCrashPlans op r ignoreNonatomicWrite flags pick d = some plans

/-- Where a plan of an operation stops the platform: behind a store, or at the end of the last
cluster of one. -/
def StopsAt (op : OpTraceEntry) (r : Analysis) (cp : CrashPlanEntry)
    (records : List TraceEntry) : Prop :=
  ∃ st, op.IsPmStore st ∧ (st.seq ∈ writtenSeqs op cp ∧ records = recordsUpTo op st ∨
    st.seq ∉ writtenSeqs op cp ∧ ∃ c, (listAt r.inFlightSeqClusterMap st.seq).max? = some c ∧
      records = recordsBeforeFence op c)

section

variable {op : OpTraceEntry} {r : Analysis} {ignoreNonatomicWrite : Bool} {flags : PlanFlags}
  {pick : List Int → Int} {d : DeduceMech} {plans : List CrashPlanEntry} {cp : CrashPlanEntry}

/-- A plan of either scheme is one of the two plans of some store. -/
theorem exists_store_of_mem_plans (hplans : SchemePlans op r ignoreNonatomicWrite flags pick d plans)
    (hcp : cp ∈ plans) (hun : cp.samplingType = .samplingNone) :
    ∃ e ∈ d.pmstoreReason, ∃ c, PersistsSelf op r e.op c cp ∨ PersistsOther op r e.op c cp := by
  have hgen : ∀ {persistSelf persistOther : Bool} {cpType : Option CrashPlanType}
      {st : TraceEntry} {l : List CrashPlanEntry},
      genPlans op r flags pick persistSelf persistOther cpType st = some l → cp ∈ l →
        ∃ c, PersistsSelf op r st c cp ∨ PersistsOther op r st c cp := by
    intro persistSelf persistOther cpType st l hl hmem
    rcases mem_genPlans hl hmem hun with ⟨-, c, hp⟩ | ⟨-, c, hp⟩
    · exact ⟨c, Or.inl hp⟩
    · exact ⟨c, Or.inr hp⟩
  have hmapM : ∀ {f : MechPMStoreEntry → Option (List CrashPlanEntry)},
      (d.pmstoreReason.mapM f).map List.flatten = some plans →
        ∃ e ∈ d.pmstoreReason, ∃ l, f e = some l ∧ cp ∈ l := by
    intro f hf
    obtain ⟨ls, hls, rfl⟩ := Option.map_eq_some_iff.mp hf
    obtain ⟨l, hl, hmem⟩ := List.mem_flatten.mp hcp
    obtain ⟨e, he, hel⟩ := exists_of_mem_mapM hls hl
    exact ⟨e, he, l, hel, hmem⟩
  rcases hplans with h | h
  · obtain ⟨e, he, l, hl, hmem⟩ := hmapM h
    unfold Scheme2CP.storePlans at hl
    split_ifs at hl with h1 h2
    · rw [← Option.some.inj hl] at hmem
      exact absurd hmem List.not_mem_nil
    · exact ⟨e, he, hgen hl hmem⟩
  · obtain ⟨e, he, l, hl, hmem⟩ := hmapM h
    obtain ⟨l₁, h₁, hl⟩ := Option.bind_eq_some_iff.mp hl
    obtain ⟨l₂, h₂, hl⟩ := Option.bind_eq_some_iff.mp hl
    obtain ⟨l₃, h₃, hl⟩ := Option.bind_eq_some_iff.mp hl
    rw [← Option.some.inj hl] at hmem
    refine ⟨e, he, ?_⟩
    rcases List.mem_append.mp hmem with hmem | hmem
    · rcases List.mem_append.mp hmem with hmem | hmem
      · unfold SchemeMech2CP.plansIn at h₁
        split_ifs at h₁
        · exact hgen h₁ hmem
        · rw [← Option.some.inj h₁] at hmem
          exact absurd hmem List.not_mem_nil
      · unfold SchemeMech2CP.plansIn at h₂
        split_ifs at h₂
        · exact hgen h₂ hmem
        · rw [← Option.some.inj h₂] at hmem
          exact absurd hmem List.not_mem_nil
    · unfold SchemeMech2CP.unprotectedPlans at h₃
      split_ifs at h₃
      · rw [← Option.some.inj h₃] at hmem
        exact absurd hmem List.not_mem_nil
      · rw [← Option.some.inj h₃] at hmem
        exact absurd hmem List.not_mem_nil
      · exact hgen h₃ hmem

theorem StopsAt.isPrefix {records : List TraceEntry} {ops : List AtomicOp} (h : Analysed op r ops)
    (hstop : StopsAt op r cp records) : records <+: op.pmEntries := by
  obtain ⟨st, hst, ⟨-, rfl⟩ | ⟨-, c, -, rfl⟩⟩ := hstop
  · obtain ⟨rest, hsplit, -⟩ := recordsUpTo_append (h.wf.isPmStore_iff.mp hst).1
    exact ⟨rest, hsplit.symm⟩
  · rcases recordsBeforeFence_append h c with ⟨g, rest, -, -, hsplit⟩ | ⟨-, hsplit⟩
    · exact ⟨g :: rest, hsplit.symm⟩
    · exact ⟨[], by rw [List.append_nil]; exact hsplit.symm⟩

/-- Each unsampled plan has its image, which a crash at its place can leave. -/
theorem plan_crashImage {t : TraceReader} (hop : Split t op) (hvalues : ValuesRecorded op)
    (hflush : WholeLineFlushes op) (hone : ∀ e, op.IsPmStore e → InOneCacheline e)
    {ops : List AtomicOp} (h : Analysed op r ops) {τ : Type} {iv : IntervalTree τ}
    (hent : MechPMStoreReason.entryList iv op = some d.pmstoreReason)
    (hplans : SchemePlans op r ignoreNonatomicWrite flags pick d plans) (hcp : cp ∈ plans)
    (hun : cp.samplingType = .samplingNone) {img : Bytes} (himg : (img.length : Int) = op.pmSize) :
    ∃ img', putCpToImg img op cp = some img' ∧
      ∃ records, StopsAt op r cp records ∧ CrashImage op.pmAddr records img img' := by
  obtain ⟨e, he, c, hp | hp⟩ := exists_store_of_mem_plans hplans hcp hun
  · have hst := (isPmStore_iff_entry h.wf hent).mpr ⟨e, he, rfl⟩
    obtain ⟨img', hput, hcrash⟩ := self_crashImage hop hvalues h hflush hone hst hp hun himg
    exact ⟨img', hput, _, ⟨e.op, hst, Or.inl ⟨self_mem_written h.wf hst hp, rfl⟩⟩, hcrash⟩
  · have hst := (isPmStore_iff_entry h.wf hent).mpr ⟨e, he, rfl⟩
    obtain ⟨img', hput, hcrash⟩ := other_crashImage hop hvalues h hflush hone hst hp hun himg
    exact ⟨img', hput, _, ⟨e.op, hst, Or.inr ⟨self_notMem_written h.wf hp, c, hp.cluster, rfl⟩⟩,
      hcrash⟩

end

/-! ## The run before an operation -/

/-- The records of the trace before a number that concern persistent memory. -/
def recordsBefore (t : TraceReader) (seq : Int) : List TraceEntry :=
  ((sortBy Prod.fst t.seqEntryMap.items).flatMap Prod.snd).filter fun e =>
    e.seq < seq ∧ (e.type.isStoreSeries = true → isPmAddr e.addr t.pmAddr t.pmSize = true)

/-- What is left of an operation that started with all stores of some records in memory is what
is left of the records and the operation. -/
theorem CrashImage.behind {pmAddr : Int} {before records : List TraceEntry} {img base img' : Bytes}
    (h : CrashImage pmAddr records base img')
    (hbefore : (before ++ records).Pairwise EntryBefore) (hlen : base.length = img.length)
    (hbase : ∀ k : Nat, k < img.length → base[k]? =
      some ((stores (events before)).foldl writeLine (imageMemory pmAddr img) (pmAddr + k))) :
    CrashImage pmAddr (before ++ records) img img' := by
  obtain ⟨hlen', st, hst, hbyte⟩ := h
  have hevents : events (before ++ records) = events before ++ events records :=
    List.flatMap_append
  have hnd := nodup_stores_events hbefore
  rw [hevents, stores_append] at hnd
  obtain ⟨-, hnd', hdisj⟩ := List.nodup_append.mp hnd
  have hset := hst.follows.crashSet hnd'
  let P : LineStore → Prop := fun s => s ∈ stores (events before) ∨ s ∈ st.persisted
  have hset' : platform.CrashSet (events before ++ events records) P := by
    refine PmMachine.CrashSet.behind (hset.congr fun s hs => ?_) fun s hs => Or.inl hs
    constructor
    · exact Or.inr
    · rintro (hb | hp)
      · exact absurd rfl (hdisj s hb s hs)
      · exact hp
  have hkeep : (stores (events before)).filter (fun s => P s) = stores (events before) :=
    List.filter_eq_self.mpr fun s hs => decide_eq_true (Or.inl hs)
  have hrest : (stores (events records)).filter (fun s => P s) =
      (stores (events records)).filter fun s => s ∈ st.persisted := by
    refine List.filter_congr fun s hs => decide_eq_decide.mpr ?_
    constructor
    · rintro (hb | hp)
      · exact absurd rfl (hdisj s hb s hs)
      · exact hp
    · exact Or.inr
  refine ⟨hlen'.trans hlen, platform.stateOf (imageMemory pmAddr img) (events (before ++ records)) P, ?_, fun k hk => ?_⟩
  · rw [hevents]
    exact PmMachine.reaches_stateOf _ hset'
  · rw [hbyte k (hlen ▸ hk), hst.memory_eq write_comm hnd']
    show some (_ : UInt8) = some (((stores (events (before ++ records))).filter fun s => P s).foldl
      writeLine _ _)
    rw [hevents, stores_append, List.filter_append, hkeep, hrest, List.foldl_append]
    show some (List.foldl writeLine (imageMemory pmAddr base) _ _) = _
    have hstart : imageMemory pmAddr base (pmAddr + k) =
        (stores (events before)).foldl writeLine (imageMemory pmAddr img) (pmAddr + k) := by
      have hget := hbase k hk
      unfold imageMemory
      rw [if_pos (by omega), List.getD_eq_getElem?_getD,
        show (pmAddr + k - pmAddr).toNat = k by omega, hget]
      rfl
    rw [foldl_writeLine, hstart, foldl_writeLine _ ((stores (events before)).foldl _ _)]

section

variable {t : TraceReader} {seq : Int}

theorem pairwise_recordsBefore (hl : t.Loaded) (seq : Int) :
    (recordsBefore t seq).Pairwise EntryBefore :=
  (pairwise_entryLists hl.item).filter _

/-- An operation comes behind the records before it. -/
theorem pairwise_recordsBefore_append (hl : t.Loaded) {op : OpTraceEntry} (hop : Split t op)
    {records : List TraceEntry} (h : records <+: op.pmEntries) :
    (recordsBefore t op.minSeq ++ records).Pairwise EntryBefore := by
  refine List.pairwise_append.mpr ⟨pairwise_recordsBefore hl _,
    (pmEntries_pairwise hop.wf).sublist h.sublist, fun a ha b hb => Or.inl ?_⟩
  have hlt := (of_decide_eq_true (List.mem_filter.mp ha).2).1
  obtain ⟨e, he, -, hbe⟩ := hop.wf.mem_pmEntries.mp (h.subset hb)
  have hge := (hop.bounds _ (List.mem_map_of_mem (f := Prod.fst) he)).1
  rw [TraceEntry.seq_of_mem_getEntryList hbe]
  exact hlt.trans_le hge

/-- Their stores are the ones the image loop writes. -/
theorem filter_recordsBefore (hl : t.Loaded) (seq : Int) :
    ((recordsBefore t seq).filter fun e => e.type.isStoreSeries) = t.pmStoresBefore seq := by
  have hlt : ∀ {l : List TraceEntry}, l.Pairwise EntryBefore →
      (∀ e ∈ l, e.type.isStoreSeries = true) → l.Pairwise fun a b => a.seq < b.seq := by
    intro l h hst
    refine h.imp_of_mem fun {a b} _ hb hab => seq_lt_of_entryBefore hab (Or.inr ?_)
    exact (TraceType.isStoreSeries_cases (hst b hb)).1
  have hmem : ∀ e, e ∈ (recordsBefore t seq).filter (fun e => e.type.isStoreSeries) ↔
      e ∈ t.pmStoresBefore seq := by
    intro e
    rw [TraceReader.pmStoresBefore, List.mem_filter, List.mem_filter, hl.mem_pmStores, recordsBefore,
      List.mem_filter, List.mem_flatMap]
    constructor
    · rintro ⟨⟨⟨x, hx, he⟩, hcond⟩, hst⟩
      obtain ⟨hseq, hpm⟩ := of_decide_eq_true hcond
      obtain ⟨e', rfl⟩ := hl.item x (mem_sortBy.mp hx)
      rcases TraceEntry.mem_getEntryList.mp he with rfl | ⟨-, rfl⟩
      · exact ⟨⟨mem_sortBy.mp hx, hst, hpm hst⟩, decide_eq_true hseq⟩
      · exact absurd hst (by simp [TraceEntry.flushOf, TraceType.isStoreSeries])
    · rintro ⟨⟨hitem, hst, hpm⟩, hseq⟩
      exact ⟨⟨⟨_, mem_sortBy.mpr hitem, TraceEntry.mem_getEntryList.mpr (Or.inl rfl)⟩,
        decide_eq_true ⟨of_decide_eq_true hseq, fun _ => hpm⟩⟩, hst⟩
  have h₁ := hlt ((pairwise_recordsBefore hl seq).filter _) fun e he => (List.mem_filter.mp he).2
  have h₂ : (t.pmStoresBefore seq).Pairwise fun a b => a.seq < b.seq :=
    hl.pmStores_pairwise.filter _
  have hnd : ∀ {l : List TraceEntry}, (l.Pairwise fun a b => a.seq < b.seq) → l.Nodup :=
    fun h => h.imp fun hab heq => absurd (heq ▸ hab) (lt_irrefl _)
  refine List.Perm.eq_of_pairwise (fun a b _ _ hab hba => absurd (hab.trans hba) (lt_irrefl _))
    h₁ h₂ ((List.perm_ext_iff_of_nodup (hnd h₁) (hnd h₂)).mpr hmem)

/-- What is written for a store record is what the record has for each byte. -/
theorem lastByte_mapM_storeWrite {pmAddr : Int} {l : List TraceEntry} {ws : List (Nat × Bytes)}
    (h : l.mapM (storeWrite pmAddr) = some ws) (k : Nat) :
    lastByte ws k = lastWrite (recordByte (pmAddr + k)) l := by
  induction l generalizing ws with
  | nil =>
    rw [← Option.some.inj h]
    rfl
  | cons e rest ih =>
    rw [List.mapM_cons] at h
    obtain ⟨w, hw, h⟩ := Option.bind_eq_some_iff.mp h
    obtain ⟨ws', hws, h⟩ := Option.bind_eq_some_iff.mp h
    have hbyte : (if w.1 ≤ k then w.2[k - w.1]? else none) = recordByte (pmAddr + k) e := by
      unfold storeWrite at hw
      obtain ⟨data, hdata, hw⟩ := Option.bind_eq_some_iff.mp hw
      split_ifs at hw with h1 h2
      · obtain rfl := Option.some.inj hw
        unfold recordByte
        rw [hdata, Option.bind_some, List.getElem?_take]
        by_cases hle : e.addr ≤ pmAddr + k
        · have hpos : k - (e.addr - pmAddr).toNat = (pmAddr + k - e.addr).toNat := by omega
          rw [if_pos (by omega), hpos]
          by_cases hlt : pmAddr + k < e.addr + e.size
          · rw [if_pos (by omega), if_pos ⟨hle, hlt⟩]
          · rw [if_neg (by omega), if_neg fun h => hlt h.2]
        · rw [if_neg (by omega), if_neg fun h => hle h.1]
    rw [← Option.some.inj h, ← List.singleton_append, ← List.singleton_append (l := rest), lastByte,
      lastWrite_append, lastWrite_append, lastWrite_singleton, lastWrite_singleton, hbyte, ← ih hws,
      lastByte]

/-- The image before an operation is what the stores before it leave. -/
theorem getElem?_imageBefore (hl : t.Loaded) {base : Bytes} (h : imageBefore t seq = some base)
    {k : Nat} (hk : k < (zeroImage t.pmSize).length) :
    base[k]? = some ((stores (events (recordsBefore t seq))).foldl writeLine
      (imageMemory t.pmAddr (zeroImage t.pmSize)) (t.pmAddr + k)) := by
  rw [imageBefore, applyStores, foldlM_putStore] at h
  obtain ⟨ws, hws, rfl⟩ := Option.map_eq_some_iff.mp h
  have hstart : ∀ w ∈ ws, w.1 ≤ (zeroImage t.pmSize).length := by
    intro w hw
    obtain ⟨e, he, hew⟩ := exists_of_mem_mapM hws hw
    have hst := (hl.mem_pmStores.mp (List.mem_filter.mp (List.mem_filter.mp he).1).1).2.2
    obtain ⟨hlo, hhi⟩ := of_decide_eq_true hst
    unfold storeWrite at hew
    obtain ⟨data, -, hew⟩ := Option.bind_eq_some_iff.mp hew
    split_ifs at hew with h1 h2
    · obtain rfl := Option.some.inj hew
      rw [zeroImage, List.length_replicate]
      show (e.addr - t.pmAddr).toNat ≤ _
      omega
  have hnone : ∀ e ∈ t.pmStoresBefore seq, e.svEntry.isSome = false →
      recordByte (t.pmAddr + k) e = none := by
    intro e _ he
    unfold recordByte
    rw [Option.isNone_iff_eq_none.mp (Option.isSome_eq_false_iff.mp he)]
    rfl
  have hzero : imageMemory t.pmAddr (zeroImage t.pmSize) (t.pmAddr + k) = 0 := by
    unfold imageMemory
    split_ifs
    · rw [List.getD_eq_getElem?_getD, zeroImage, List.getElem?_replicate]
      split_ifs <;> rfl
    · rfl
  rw [getElem?_writeAll hstart, lastByte_mapM_storeWrite hws, lastWrite_filter _ hnone,
    foldl_writeLine, stores_events, filter_recordsBefore hl, lastWrite_flatMap_lineStores, hzero,
    List.getElem?_eq_getElem hk]
  cases lastWrite (recordByte (t.pmAddr + k)) (t.pmStoresBefore seq) with
  | none => simp [zeroImage]
  | some v => rfl

end

/-! ## Both schemes -/

/-- Applied to whatever image an operation starts from, a plan leaves what a crash can leave. -/
theorem plans_crash_images {lines : List TraceEntry} {t : TraceReader}
    (hload : TraceReader.load lines = some t) {vfsOpInfo : String → Bool}
    {opList : List OpTraceEntry} (hsplit : SplitOpMgr.splitTrace t vfsOpInfo = some opList)
    {op : OpTraceEntry} (hop : op ∈ opList) (hvalues : ValuesRecorded op)
    (hflush : WholeLineFlushes op) (hone : ∀ e, op.IsPmStore e → InOneCacheline e)
    {cflags : ConvFlags} (hflags : ConvFlags.asOne cflags) {sample : List RawOp → List RawOp} {r : Analysis}
    (hr : analysisInCacheRun cflags sample op = some r) {τ : Type} {iv : IntervalTree τ}
    {d : DeduceMech} (hent : MechPMStoreReason.entryList iv op = some d.pmstoreReason)
    {ignoreNonatomicWrite : Bool} {flags : PlanFlags} {pick : List Int → Int}
    {plans : List CrashPlanEntry}
    (hplans : SchemePlans op r ignoreNonatomicWrite flags pick d plans) {cp : CrashPlanEntry}
    (hcp : cp ∈ plans) (hun : cp.samplingType = .samplingNone) {img : Bytes}
    (himg : (img.length : Int) = op.pmSize) :
    ∃ img', putCpToImg img op cp = some img' ∧
      ∃ records, StopsAt op r cp records ∧ CrashImage op.pmAddr records img img' := by
  have hsp := (SplitOpMgr.split_of_splitTrace (TraceReader.loaded_of_load hload) hsplit).1 op hop
  obtain ⟨ops, h⟩ := exists_analysed hsp.wf hflags hr
  exact plan_crashImage hsp hvalues hflush hone h hent hplans hcp hun himg

/-- A durable store, and an operation with two stores of which the first is made durable. -/
def twoStoreLines : List TraceEntry :=
  [.plain .daxDevInfo 0 Image.pmBase 256, wordStore 1 0 5, .plain .asmFlush 2 Image.pmBase 64,
    .plain .asmFence 3 0 0, fnEntry .startFn 4, wordStore 5 64 6,
    .plain .asmFlush 6 (Image.pmBase + 64) 64, .plain .asmFence 7 0 0, wordStore 8 128 7,
    .plain .asmFlush 9 (Image.pmBase + 128) 64, .plain .asmFence 10 0 0, fnEntry .endFn 11]

def twoStoreReader : TraceReader := (TraceReader.load twoStoreLines).get (by decide +kernel)

def twoStoreOps : List OpTraceEntry :=
  (SplitOpMgr.splitTrace twoStoreReader fun name => name = "write").get (by decide +kernel)

def twoStoreOp : OpTraceEntry := twoStoreOps.head (by decide +kernel)

def twoStoreAnalysis : Analysis :=
  (analysisInCacheRun ⟨false, true, false⟩ id twoStoreOp).get (by decide +kernel)

def twoStoreEntries : List MechPMStoreEntry :=
  (MechPMStoreReason.entryList IntervalTree.RangeList.tree twoStoreOp).get (by decide +kernel)

def twoStoreMech : DeduceMech where
  pmstoreReason := twoStoreEntries

def twoStorePlans : List CrashPlanEntry :=
  (Scheme2CP.generateCrashPlans twoStoreOp twoStoreAnalysis false ⟨true, false⟩ (fun _ => 0)
    twoStoreMech).get (by decide +kernel)


theorem twoStoreReader_eq : TraceReader.load twoStoreLines = some twoStoreReader :=
  (Option.some_get _).symm

theorem twoStoreOps_eq : SplitOpMgr.splitTrace twoStoreReader (fun name => name = "write") =
    some twoStoreOps := (Option.some_get _).symm

theorem twoStoreAnalysis_eq : analysisInCacheRun ⟨false, true, false⟩ id twoStoreOp =
    some twoStoreAnalysis := (Option.some_get _).symm

theorem twoStoreEntries_eq : MechPMStoreReason.entryList IntervalTree.RangeList.tree twoStoreOp =
    some twoStoreMech.pmstoreReason := by
  show _ = some twoStoreEntries
  exact (Option.some_get _).symm

theorem twoStorePlans_eq : SchemePlans twoStoreOp twoStoreAnalysis false ⟨true, false⟩
    (fun _ => 0) twoStoreMech twoStorePlans := Or.inl (Option.some_get _).symm

theorem twoStoreOp_mem : twoStoreOp ∈ twoStoreOps := List.head_mem _

theorem twoStoreOp_stores : ValuesRecorded twoStoreOp ∧
    ∀ e, twoStoreOp.IsPmStore e → InOneCacheline e := by
  have hsp : Split twoStoreReader twoStoreOp := (SplitOpMgr.split_of_splitTrace
    (TraceReader.loaded_of_load twoStoreReader_eq) twoStoreOps_eq).1 twoStoreOp twoStoreOp_mem
  have hstores : ∀ e ∈ twoStoreOp.pmStoreEntries, (e.svEntry = some (e.svEntry.getD []) ∧
      ((e.svEntry.getD []).length : Int) = e.size) ∧ InOneCacheline e := by decide +kernel
  constructor
  · intro e he
    obtain ⟨⟨hval, hlen⟩, -⟩ := hstores e (hsp.mem_pmStoreEntries.mpr he)
    exact ⟨_, hval, hlen⟩
  · intro e he
    exact (hstores e (hsp.mem_pmStoreEntries.mpr he)).2

/-- The plan that leaves out the second store has what made the first durable. -/
theorem plans_crash_images_two_stores : ∃ cp ∈ twoStorePlans, cp.type = .unprotectedPersistOther ∧
    ∃ img', putCpToImg (zeroImage 256) twoStoreOp cp = some img' ∧
      ∃ records, StopsAt twoStoreOp twoStoreAnalysis cp records ∧
        CrashImage twoStoreOp.pmAddr records (zeroImage 256) img' := by
  obtain ⟨cp, hcp, hty, hun⟩ : ∃ cp ∈ twoStorePlans, cp.type = .unprotectedPersistOther ∧
      cp.samplingType = .samplingNone := by decide +kernel
  refine ⟨cp, hcp, hty, ?_⟩
  exact plans_crash_images twoStoreReader_eq twoStoreOps_eq twoStoreOp_mem twoStoreOp_stores.1
    (by decide +kernel) twoStoreOp_stores.2 ⟨rfl, rfl⟩ twoStoreAnalysis_eq twoStoreEntries_eq
    twoStorePlans_eq hcp hun (by decide +kernel)

end Hardware
end Silhouette
