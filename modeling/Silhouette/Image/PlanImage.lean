import Silhouette.CrashPlan.SampledPlans
import Silhouette.Image.BaseImage

/-!
# The image of an unsampled plan

A plan without sampling writes the stores before its start and those it names.  They may overlap,
and the list of stores of a mount has its first part twice, but every byte belongs to the last
store of the plan that covers it.
-/

namespace Silhouette
namespace Image

open Lib Trace CrashPlan

/-- The stores of the operation have their values. -/
def ValuesRecorded (op : OpTraceEntry) : Prop := ∀ e, op.IsPmStore e → ∃ data, HasValue e data

/-- The store is one a plan persists. -/
def Persisted (op : OpTraceEntry) (cp : CrashPlanEntry) (e : TraceEntry) : Prop :=
  op.IsPmStore e ∧ (e.seq < cp.startSeq ∨ e.seq ∈ cp.persistSeqs)

/-- The store covers a byte of the image. -/
def CoversByte (op : OpTraceEntry) (e : TraceEntry) (k : Nat) : Prop :=
  e.addr ≤ op.pmAddr + k ∧ op.pmAddr + k < e.addr + e.size

/-- What a store has for a byte of the image. -/
def storeByte (pmAddr : Int) (k : Nat) (e : TraceEntry) : Option UInt8 :=
  e.svEntry.bind fun data =>
    if e.addr ≤ pmAddr + k then data[(pmAddr + k - e.addr).toNat]? else none

/-! ## Stores inside the image -/

section

variable {pmAddr : Int} {img : Bytes} {stores : List TraceEntry}

/-- The stores have values of their size and lie inside the image. -/
def Fitting (pmAddr : Int) (img : Bytes) (stores : List TraceEntry) : Prop :=
  ∀ e ∈ stores, (∃ data, HasValue e data) ∧ pmAddr ≤ e.addr ∧
    e.addr + e.size ≤ pmAddr + img.length

theorem storeWrite_of_hasValue {e : TraceEntry} {data : Bytes} (h : HasValue e data)
    (hpm : pmAddr ≤ e.addr) : storeWrite pmAddr e = some ((e.addr - pmAddr).toNat, data) := by
  have hlen := h.length
  have htake : (e.addr + e.size - pmAddr - (e.addr - pmAddr)).toNat = data.length := by omega
  rw [storeWrite, h.value, Option.bind_some, if_pos (by omega), if_neg (by omega), htake,
    List.take_length]

/-- Writing stores that fit keeps the length and leaves the last store of every byte. -/
theorem foldlM_putStore_fitting (h : Fitting pmAddr img stores) :
    ∃ img', stores.foldlM (putStore pmAddr) img = some img' ∧ img'.length = img.length ∧
      ∀ k : Nat, img'[k]? = (lastWrite (storeByte pmAddr k) stores).or img[k]? := by
  have hwrite : ∀ e ∈ stores,
      storeWrite pmAddr e = some ((e.addr - pmAddr).toNat, e.svEntry.getD []) := by
    intro e he
    obtain ⟨⟨data, hdata⟩, hpm, -⟩ := h e he
    rw [storeWrite_of_hasValue hdata hpm, hdata.value, Option.getD_some]
  have hmapM : stores.mapM (storeWrite pmAddr) =
      some (stores.map fun e => ((e.addr - pmAddr).toNat, e.svEntry.getD [])) :=
    mapM_eq_some hwrite
  have hfit : ∀ w ∈ stores.map fun e => ((e.addr - pmAddr).toNat, e.svEntry.getD []),
      w.1 + w.2.length ≤ img.length := by
    intro w hw
    obtain ⟨e, he, rfl⟩ := List.mem_map.mp hw
    obtain ⟨⟨data, hdata⟩, hpm, hend⟩ := h e he
    have hlen := hdata.length
    simp only [hdata.value, Option.getD_some]
    omega
  refine ⟨_, by rw [foldlM_putStore, hmapM]; rfl, length_writeAll hfit, fun k => ?_⟩
  have hbyte : ∀ e ∈ stores, (if (e.addr - pmAddr).toNat ≤ k then
      (e.svEntry.getD [])[k - (e.addr - pmAddr).toNat]? else none) = storeByte pmAddr k e := by
    intro e he
    obtain ⟨⟨data, hdata⟩, hpm, -⟩ := h e he
    rw [storeByte, hdata.value, Option.getD_some, Option.bind_some]
    by_cases hle : e.addr ≤ pmAddr + k
    · rw [if_pos hle, if_pos (by omega)]
      congr 1
      omega
    · rw [if_neg hle, if_neg (by omega)]
  rw [getElem?_writeAll fun w hw => by have := hfit w hw; omega]
  unfold lastByte
  rw [lastWrite_map, lastWrite_congr _ hbyte]

end

/-! ## The stores of a plan -/

/-- The stores of a list that a plan persists. -/
def planStores (cp : CrashPlanEntry) (stores : List TraceEntry) : List TraceEntry :=
  stores.filter fun e => e.seq < cp.startSeq ∨ e.seq ∈ cp.persistSeqs

section

variable {r : TraceReader} {op : OpTraceEntry} {cp : CrashPlanEntry} {img : Bytes}

/-- The list of stores of an operation has its beginning twice at most. -/
theorem exists_storeSeq (hop : Split r op) :
    ∃ n, op.pmSortedStoreSeq =
      (op.pmStoreEntries.take n ++ op.pmStoreEntries).map TraceEntry.seq := by
  obtain ⟨first, hfirst, hseqs⟩ := hop.storeSeq
  refine ⟨first.length, ?_⟩
  rw [List.map_append, List.map_take, ← List.prefix_iff_eq_take.mp hfirst]
  exact hseqs

theorem putCpToImg_eq_stores (hop : Split r op) (hun : cp.samplingType = .samplingNone) :
    ∃ n, ∀ img, putCpToImg img op cp =
      (planStores cp (op.pmStoreEntries.take n ++ op.pmStoreEntries)).foldlM
        (putStore op.pmAddr) img := by
  obtain ⟨n, hn⟩ := exists_storeSeq hop
  refine ⟨n, fun img => ?_⟩
  have hrec : ∀ e ∈ planStores cp (op.pmStoreEntries.take n ++ op.pmStoreEntries),
      recordAt op.pmSeqEntryMap e.seq = some e := by
    intro e he
    have hmem : e ∈ op.pmStoreEntries := by
      rcases List.mem_append.mp (List.mem_of_mem_filter he) with he | he
      · exact List.mem_of_mem_take he
      · exact he
    exact recordAt_of_isPmStore (hop.mem_pmStoreEntries.mp hmem)
  rw [putCpToImg_eq_written img op hun, writtenSeqs, hn, List.filter_map]
  show ((planStores cp _).map TraceEntry.seq).foldlM _ img = _
  rw [List.foldlM_map]
  exact foldlM_congr_of_mem (fun img e he => by rw [hrec e he, Option.bind_some]) img

theorem mem_planStores (hop : Split r op) {n : Nat} {e : TraceEntry} :
    e ∈ planStores cp (op.pmStoreEntries.take n ++ op.pmStoreEntries) ↔ Persisted op cp e := by
  rw [planStores, List.mem_filter, decide_eq_true_eq, Persisted, ← hop.mem_pmStoreEntries]
  refine and_congr_left fun _ => ?_
  rw [List.mem_append]
  exact ⟨fun h => h.elim List.mem_of_mem_take id, Or.inr⟩

theorem fitting_planStores (hop : Split r op) (hvalues : ValuesRecorded op)
    (himg : (img.length : Int) = op.pmSize) (n : Nat) :
    Fitting op.pmAddr img (planStores cp (op.pmStoreEntries.take n ++ op.pmStoreEntries)) := by
  intro e he
  have hst := ((mem_planStores hop).mp he).1
  obtain ⟨hlo, hhi⟩ := isPmStore_inside hop.wf hst
  exact ⟨hvalues e hst, hlo, by omega⟩

/-- The last store of a plan that covers a byte is the last one to write it. -/
theorem lastWrite_planStores (hop : Split r op) {n k : Nat} {e : TraceEntry} {data : Bytes}
    (hp : Persisted op cp e) (hval : HasValue e data) (hcover : CoversByte op e k)
    (hvalues : ValuesRecorded op)
    (hlast : ∀ e', Persisted op cp e' → CoversByte op e' k → e'.seq ≤ e.seq) :
    lastWrite (storeByte op.pmAddr k)
        (planStores cp (op.pmStoreEntries.take n ++ op.pmStoreEntries)) =
      data[(op.pmAddr + k - e.addr).toNat]? := by
  obtain ⟨hle, hlt⟩ := hcover
  have hlen := hval.length
  have hbyte : storeByte op.pmAddr k e = some data[(op.pmAddr + k - e.addr).toNat] := by
    rw [storeByte, hval.value, Option.bind_some, if_pos hle]
    exact List.getElem?_eq_getElem (by omega)
  have hmem : e ∈ planStores cp op.pmStoreEntries :=
    List.mem_filter.mpr ⟨hop.mem_pmStoreEntries.mpr hp.1, decide_eq_true hp.2⟩
  obtain ⟨l₁, l₂, hsplit⟩ := List.append_of_mem hmem
  -- the stores behind it have larger numbers, so none of them covers the byte
  have hbehind : ∀ e' ∈ l₂, storeByte op.pmAddr k e' = none := by
    intro e' he'
    have hsorted : (planStores cp op.pmStoreEntries).Pairwise fun a b => a.seq < b.seq :=
      hop.pmStoreEntries_pairwise.filter _
    rw [hsplit] at hsorted
    have hgt := (List.pairwise_cons.mp (List.pairwise_append.mp hsorted).2.1).1 e' he'
    have hp' : Persisted op cp e' := by
      have hmem' : e' ∈ planStores cp op.pmStoreEntries := by
        rw [hsplit]
        exact List.mem_append_right _ (List.mem_cons_of_mem _ he')
      obtain ⟨hst', hseq'⟩ := List.mem_filter.mp hmem'
      exact ⟨hop.mem_pmStoreEntries.mp hst', of_decide_eq_true hseq'⟩
    obtain ⟨data', hval'⟩ := hvalues e' hp'.1
    have hlen' := hval'.length
    rw [storeByte, hval'.value, Option.bind_some]
    split_ifs with hle'
    · refine List.getElem?_eq_none ?_
      by_contra hshort
      have := hlast e' hp' ⟨hle', by omega⟩
      omega
    · rfl
  have hlist : planStores cp (op.pmStoreEntries.take n ++ op.pmStoreEntries) =
      (planStores cp (op.pmStoreEntries.take n) ++ l₁) ++ e :: l₂ := by
    rw [planStores, List.filter_append, ← planStores, ← planStores, hsplit, List.append_assoc]
  rw [hlist, lastWrite_append_cons _ hbyte _ hbehind]
  exact (List.getElem?_eq_getElem (by omega)).symm

/-- A plan that persists every store replays the operation. -/
theorem putCpToImg_all (hop : Split r op) (hun : cp.samplingType = .samplingNone)
    (hvalues : ValuesRecorded op) (himg : (img.length : Int) = op.pmSize)
    (hall : ∀ e, op.IsPmStore e → Persisted op cp e) :
    putCpToImg img op cp = putOpTraceToImg img op op.minSeq (op.maxSeq + 1) := by
  obtain ⟨n, hn⟩ := putCpToImg_eq_stores hop hun
  have hsome : ∀ e ∈ op.pmStoreEntries.take n ++ op.pmStoreEntries,
      (e.svEntry.isSome = true) ∧ (e.seq < cp.startSeq ∨ e.seq ∈ cp.persistSeqs) := by
    intro e he
    have hmem : e ∈ op.pmStoreEntries := (List.mem_append.mp he).elim List.mem_of_mem_take id
    have hst := hop.mem_pmStoreEntries.mp hmem
    obtain ⟨data, hval⟩ := hvalues e hst
    exact ⟨Option.isSome_iff_exists.mpr ⟨data, hval.value⟩, (hall e hst).2⟩
  have hplan : planStores cp (op.pmStoreEntries.take n ++ op.pmStoreEntries) =
      (op.pmStoreEntries.take n ++ op.pmStoreEntries).filter fun e => e.svEntry.isSome := by
    rw [planStores, List.filter_eq_self.mpr fun e he => decide_eq_true (hsome e he).2,
      List.filter_eq_self.mpr fun e he => (hsome e he).1]
  have hsize := hop.device
  rw [hn, hplan, ← applyStores, putOpTraceToImg_eq hop (by omega), hop.device.1]
  refine applyStores_take_append fun e he hsize' => ?_
  have := offset_le_of_split hop he hsize'
  omega

/-- Every byte of the image of an unsampled plan is that of the last store of the plan that covers
it, and the base byte if none does. -/
theorem plan_image_exact {lines : List TraceEntry} {vfsOpInfo : String → Bool}
    {ops : List OpTraceEntry} (hload : TraceReader.load lines = some r)
    (hsplit : SplitOpMgr.splitTrace r vfsOpInfo = some ops) (hop : op ∈ ops)
    (hvalues : ValuesRecorded op) (hun : cp.samplingType = .samplingNone)
    (himg : (img.length : Int) = op.pmSize) :
    (∃ img', putCpToImg img op cp = some img' ∧ img'.length = img.length ∧
      ∀ k < img.length,
        (∀ e data, Persisted op cp e → HasValue e data → CoversByte op e k →
          (∀ e', Persisted op cp e' → CoversByte op e' k → e'.seq ≤ e.seq) →
            img'[k]? = data[(op.pmAddr + k - e.addr).toNat]?) ∧
        ((∀ e, Persisted op cp e → ¬ CoversByte op e k) → img'[k]? = img[k]?)) ∧
    ((∀ e, op.IsPmStore e → Persisted op cp e) →
      putCpToImg img op cp = putOpTraceToImg img op op.minSeq (op.maxSeq + 1)) := by
  have hs : Split r op :=
    (SplitOpMgr.split_of_splitTrace (TraceReader.loaded_of_load hload) hsplit).1 op hop
  refine ⟨?_, putCpToImg_all hs hun hvalues himg⟩
  obtain ⟨n, hn⟩ := putCpToImg_eq_stores hs hun
  obtain ⟨img', hput, hlen, hbyte⟩ :=
    foldlM_putStore_fitting (@fitting_planStores r op cp img hs hvalues himg n)
  refine ⟨img', (hn img).trans hput, hlen, fun k _ => ⟨?_, fun hnone => ?_⟩⟩
  · intro e data hp hval hcover hlast
    have hle := hcover.1
    have hlt := hcover.2
    have hsize := hval.length
    rw [hbyte, lastWrite_planStores hs hp hval hcover hvalues hlast,
      List.getElem?_eq_getElem (by omega), Option.some_or]
  · rw [hbyte, lastWrite_eq_none, Option.none_or]
    intro e he
    have hp := (mem_planStores hs).mp he
    obtain ⟨data, hval⟩ := hvalues e hp.1
    have hsize := hval.length
    rw [storeByte, hval.value, Option.bind_some]
    split_ifs with hle
    · refine List.getElem?_eq_none ?_
      by_contra hshort
      exact hnone e hp ⟨hle, by omega⟩
    · rfl

end

/-- The first operation of the mounted trace. -/
def mountedOp : OpTraceEntry := mountedOps[0]?.get (by decide +kernel)

/-- A plan that persists both of its stores. -/
def bothPlan : CrashPlanEntry where
  type := .unprotectedPersistSelf
  instructionId := 0
  startSeq := 4
  persistSeqs := {4}
  expDataSeqs := {4}
  info := ""

theorem plan_image_exact_mounted :
    ∃ img', putCpToImg (zeroImage 64) mountedOp bothPlan = some img' ∧ img'.length = 64 ∧
      putOpTraceToImg (zeroImage 64) mountedOp mountedOp.minSeq (mountedOp.maxSeq + 1) =
        some img' := by
  have hmem : mountedOp ∈ mountedOps :=
    @List.mem_of_getElem? _ mountedOps 0 _ (Option.some_get _).symm
  have hsplit : Split mountedReader mountedOp :=
    (SplitOpMgr.split_of_splitTrace (TraceReader.loaded_of_load (Option.some_get _).symm)
      (Option.some_get _).symm).1 mountedOp hmem
  have hstores : ∀ e ∈ mountedOp.pmStoreEntries, (e.svEntry = some (e.svEntry.getD []) ∧
      ((e.svEntry.getD []).length : Int) = e.size) ∧
      (e.seq < bothPlan.startSeq ∨ e.seq ∈ bothPlan.persistSeqs) := by decide +kernel
  have hvalues : ValuesRecorded mountedOp := by
    intro e he
    obtain ⟨⟨hval, hlen⟩, -⟩ := hstores e (hsplit.mem_pmStoreEntries.mpr he)
    exact ⟨_, hval, hlen⟩
  obtain ⟨⟨img', hput, hlen, -⟩, hall⟩ := @plan_image_exact mountedReader mountedOp bothPlan
    (zeroImage 64) _ _ _ (Option.some_get _).symm (Option.some_get _).symm hmem hvalues rfl
    (by decide +kernel)
  refine ⟨img', hput, hlen, ?_⟩
  rw [← hall fun e he => ⟨he, (hstores e (hsplit.mem_pmStoreEntries.mpr he)).2⟩]
  exact hput

end Image
end Silhouette
