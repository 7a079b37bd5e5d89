import Silhouette.Image.CrashImage
import Silhouette.Lib.LastWrite
import Silhouette.Trace.SplitOpMgr

/-!
# The image an operation is tested on

The image loop of `run_one_case_main`.  It starts with the stores of the trace before the
first operation and goes on with the stores of one operation after the other, whether they
were tested or not.  What lies between two operations is never written.

A mount that ended twice has its first stores twice in its list.  Writing them again
changes nothing: every byte belongs to the last store that covers it.
-/

namespace Silhouette
namespace Image

open Lib Trace

def putTraceToImg (img : Bytes) (r : TraceReader) (startSeq endSeq : Int) : Option Bytes :=
  putSeqs r.pmAddr r.seqEntryMap startSeq endSeq r.pmStoreSeqList img

/-- `mem_image` at the start of each round. -/
def memImageAt (r : TraceReader) (ops : List OpTraceEntry) : Nat → Option Bytes
  | 0 => do
    let op ← ops[0]?
    putTraceToImg (zeroImage r.pmSize) r 0 op.minSeq
  | i + 1 => do
    let img ← memImageAt r ops i
    let op ← ops[i]?
    putOpTraceToImg img op op.minSeq (op.maxSeq + 1)

/-- Write one store after the other.  One whose value is missing is left out. -/
def applyStores (pmAddr : Int) (img : Bytes) (stores : List TraceEntry) : Option Bytes :=
  (stores.filter fun e => e.svEntry.isSome).foldlM (putStore pmAddr) img

/-- The zero image with every store of the trace before a sequence number. -/
def imageBefore (r : TraceReader) (seq : Int) : Option Bytes :=
  applyStores r.pmAddr (zeroImage r.pmSize) (r.pmStoresBefore seq)

/-! ## Writing twice -/

theorem getElem?_writeAt {img : Bytes} {pos : Nat} (h : pos ≤ img.length) (val : Bytes) (k : Nat) :
    (writeAt img pos val)[k]? = (if pos ≤ k then val[k - pos]? else none).or img[k]? := by
  unfold writeAt
  by_cases hval : val = []
  · rw [if_pos hval, hval]
    simp
  rw [if_neg hval, show pos - img.length = 0 by omega, List.replicate_zero, List.append_nil]
  have htake : (img.take pos).length = pos := List.length_take_of_le h
  by_cases h1 : k < pos
  · rw [if_neg (by omega), List.append_assoc, List.getElem?_append_left (by omega),
      List.getElem?_take_of_lt h1, Option.none_or]
  · rw [if_pos (by omega)]
    by_cases h2 : k < pos + val.length
    · have hk : val[k - pos]? = some val[k - pos] := List.getElem?_eq_getElem (by omega)
      rw [List.getElem?_append_left (by rw [List.length_append]; omega),
        List.getElem?_append_right (by omega), htake, hk, Option.some_or]
    · have hk : val[k - pos]? = none := List.getElem?_eq_none (by omega)
      rw [hk, Option.none_or, List.getElem?_append_right (by rw [List.length_append]; omega),
        List.getElem?_drop, List.length_append, htake]
      congr 1
      omega

theorem length_le_writeAt (img : Bytes) (pos : Nat) (val : Bytes) :
    img.length ≤ (writeAt img pos val).length := by
  unfold writeAt
  split_ifs
  · exact le_refl _
  · simp only [List.length_append, List.length_take, List.length_replicate, List.length_drop]
    omega

theorem length_writeAt {img : Bytes} {pos : Nat} {val : Bytes} (h : pos + val.length ≤ img.length) :
    (writeAt img pos val).length = img.length := by
  unfold writeAt
  split_ifs
  · rfl
  · simp only [List.length_append, List.length_take, List.length_replicate, List.length_drop]
    omega

/-- The writes of a list, in order. -/
def writeAll (img : Bytes) (ws : List (Nat × Bytes)) : Bytes :=
  ws.foldl (fun img w => writeAt img w.1 w.2) img

/-- What the last write to a byte put there. -/
def lastByte (ws : List (Nat × Bytes)) (k : Nat) : Option UInt8 :=
  lastWrite (fun w => if w.1 ≤ k then w.2[k - w.1]? else none) ws

theorem length_le_writeAll (img : Bytes) (ws : List (Nat × Bytes)) :
    img.length ≤ (writeAll img ws).length := by
  induction ws generalizing img with
  | nil => exact le_refl _
  | cons w rest ih => exact le_trans (length_le_writeAt img w.1 w.2) (ih _)

theorem length_writeAll {img : Bytes} {ws : List (Nat × Bytes)}
    (h : ∀ w ∈ ws, w.1 + w.2.length ≤ img.length) :
    (writeAll img ws).length = img.length := by
  induction ws generalizing img with
  | nil => rfl
  | cons w rest ih =>
    have hw := length_writeAt (h w List.mem_cons_self)
    have hrest := @ih (writeAt img w.1 w.2) fun w' hw' => by
      rw [hw]
      exact h w' (List.mem_cons_of_mem _ hw')
    exact hrest.trans hw

theorem getElem?_writeAll {img : Bytes} {ws : List (Nat × Bytes)} (h : ∀ w ∈ ws, w.1 ≤ img.length)
    (k : Nat) : (writeAll img ws)[k]? = (lastByte ws k).or img[k]? := by
  induction ws using List.reverseRecOn with
  | nil => rfl
  | append_singleton ws w ih =>
    have hw : w.1 ≤ (writeAll img ws).length :=
      le_trans (h w (by simp)) (length_le_writeAll img ws)
    have ih' := ih (fun w' hw' => h w' (List.mem_append_left _ hw'))
    show (writeAll img (ws ++ [w]))[k]? = _
    rw [writeAll, List.foldl_append, List.foldl_cons, List.foldl_nil, ← writeAll,
      getElem?_writeAt hw, ih', lastByte, lastByte, lastWrite_append, lastWrite_singleton,
      Option.or_assoc]

theorem writeAll_writeAll {img : Bytes} {ws : List (Nat × Bytes)} (h : ∀ w ∈ ws, w.1 ≤ img.length) :
    writeAll (writeAll img ws) ws = writeAll img ws := by
  apply List.ext_getElem?
  intro k
  rw [getElem?_writeAll (fun w hw => le_trans (h w hw) (length_le_writeAll img ws)),
    getElem?_writeAll h]
  cases lastByte ws k with
  | none => rfl
  | some b => rfl

/-! ## Stores as writes -/

/-- Where a store writes and what; `none` if that fails. -/
def storeWrite (pmAddr : Int) (e : TraceEntry) : Option (Nat × Bytes) :=
  e.svEntry.bind fun data =>
    if e.addr - pmAddr ≤ e.addr + e.size - pmAddr then
      if e.addr - pmAddr < 0 then none
      else some ((e.addr - pmAddr).toNat, data.take (e.addr + e.size - pmAddr - (e.addr - pmAddr)).toNat)
    else none

theorem putStore_eq (pmAddr : Int) (img : Bytes) (e : TraceEntry) :
    putStore pmAddr img e = (storeWrite pmAddr e).map fun w => writeAt img w.1 w.2 := by
  unfold putStore storeWrite
  cases e.svEntry with
  | none => rfl
  | some data =>
    simp only [Option.bind_some, doStoreDirect]
    split_ifs
    · rfl
    · rfl
    · rfl

theorem foldlM_putStore (pmAddr : Int) (stores : List TraceEntry) (img : Bytes) :
    stores.foldlM (putStore pmAddr) img =
      (stores.mapM (storeWrite pmAddr)).map (writeAll img) := by
  induction stores generalizing img with
  | nil => rfl
  | cons e rest ih =>
    rw [List.foldlM_cons, List.mapM_cons, putStore_eq]
    cases storeWrite pmAddr e with
    | none => rfl
    | some w =>
      show rest.foldlM (putStore pmAddr) (writeAt img w.1 w.2) = _
      rw [ih]
      cases rest.mapM (storeWrite pmAddr) with
      | none => rfl
      | some ws => rfl

theorem applyStores_append (pmAddr : Int) (img : Bytes) (l m : List TraceEntry) :
    applyStores pmAddr img (l ++ m) =
      (applyStores pmAddr img l).bind fun img' => applyStores pmAddr img' m := by
  unfold applyStores
  rw [List.filter_append, List.foldlM_append]
  rfl

/-- The image never gets shorter. -/
theorem length_le_applyStores {pmAddr : Int} {img img' : Bytes} {stores : List TraceEntry}
    (h : applyStores pmAddr img stores = some img') : img.length ≤ img'.length := by
  rw [applyStores, foldlM_putStore] at h
  obtain ⟨ws, -, rfl⟩ := Option.map_eq_some_iff.mp h
  exact length_le_writeAll img ws

/-- Stores that begin inside the image may be applied again. -/
theorem applyStores_again {pmAddr : Int} {img : Bytes} {stores : List TraceEntry}
    (h : ∀ e ∈ stores, 0 ≤ e.size → e.addr - pmAddr ≤ img.length) :
    (applyStores pmAddr img stores).bind (fun img' => applyStores pmAddr img' stores) =
      applyStores pmAddr img stores := by
  have hwrite : ∀ ws, (stores.filter fun e => e.svEntry.isSome).mapM (storeWrite pmAddr) = some ws →
      ∀ w ∈ ws, w.1 ≤ img.length := by
    intro ws hws w hw
    obtain ⟨e, he, hew⟩ := exists_of_mem_mapM hws hw
    unfold storeWrite at hew
    obtain ⟨data, -, hew⟩ := Option.bind_eq_some_iff.mp hew
    split_ifs at hew with hsize
    have hpos := h e (List.mem_filter.mp he).1 (by omega)
    rw [← Option.some.inj hew]
    show (e.addr - pmAddr).toNat ≤ img.length
    omega
  simp only [applyStores, foldlM_putStore]
  cases hws : (stores.filter fun e => e.svEntry.isSome).mapM (storeWrite pmAddr) with
  | none => rfl
  | some ws =>
    show some (writeAll (writeAll img ws) ws) = some (writeAll img ws)
    rw [writeAll_writeAll (hwrite ws hws)]

/-- What the list begins with may come twice. -/
theorem applyStores_take_append {pmAddr : Int} {img : Bytes} {stores : List TraceEntry} {n : Nat}
    (h : ∀ e ∈ stores, 0 ≤ e.size → e.addr - pmAddr ≤ img.length) :
    applyStores pmAddr img (stores.take n ++ stores) = applyStores pmAddr img stores := by
  have hstart : ∀ e ∈ stores.take n, 0 ≤ e.size → e.addr - pmAddr ≤ img.length :=
    fun e he => h e (List.mem_of_mem_take he)
  calc applyStores pmAddr img (stores.take n ++ stores)
      = applyStores pmAddr img (stores.take n ++ (stores.take n ++ stores.drop n)) := by
        rw [List.take_append_drop]
    _ = ((applyStores pmAddr img (stores.take n)).bind fun img' =>
          applyStores pmAddr img' (stores.take n)).bind fun img' =>
            applyStores pmAddr img' (stores.drop n) := by
      rw [← List.append_assoc, applyStores_append, applyStores_append]
    _ = applyStores pmAddr img stores := by
      rw [applyStores_again hstart, ← applyStores_append, List.take_append_drop]

/-- The loop over a list of sequence numbers, when nothing comes behind the end of its
range that belongs before it. -/
theorem putSeqs_eq {d : Dict Int (List TraceEntry)} {l : List TraceEntry} (pmAddr : Int)
    {startSeq endSeq : Int} (hrec : ∀ e ∈ l, recordAt d e.seq = some e)
    (hstore : ∀ e ∈ l, e.type.isStoreSeries = true)
    (hend : l.Pairwise fun a b => endSeq ≤ a.seq → endSeq ≤ b.seq) (img : Bytes) :
    putSeqs pmAddr d startSeq endSeq (l.map TraceEntry.seq) img =
      applyStores pmAddr img (l.filter fun e => startSeq ≤ e.seq ∧ e.seq < endSeq) := by
  induction l generalizing img with
  | nil => rfl
  | cons e rest ih =>
    obtain ⟨hbehind, hrest⟩ := List.pairwise_cons.mp hend
    have ih' := ih (fun e' he' => hrec e' (List.mem_cons_of_mem _ he'))
      (fun e' he' => hstore e' (List.mem_cons_of_mem _ he')) hrest
    rw [List.map_cons, putSeqs]
    by_cases h1 : e.seq < startSeq
    · rw [if_pos h1, List.filter_cons_of_neg (by simp; omega), ih']
    · rw [if_neg h1]
      by_cases h2 : e.seq ≥ endSeq
      · have hnone : (e :: rest).filter (fun e => startSeq ≤ e.seq ∧ e.seq < endSeq) = [] := by
          refine List.filter_eq_nil_iff.mpr (fun e' he' => ?_)
          rcases List.mem_cons.mp he' with rfl | he'
          · simp; omega
          · have := hbehind e' he' h2
            simp; omega
        rw [if_pos h2, hnone]
        rfl
      · rw [if_neg h2, hrec e List.mem_cons_self, List.filter_cons_of_pos (by simp; omega)]
        simp only [Option.bind_eq_bind, Option.bind_some, hstore e List.mem_cons_self, Bool.true_and]
        rw [applyStores, List.filter_cons]
        split_ifs
        · rw [List.foldlM_cons]
          exact congrArg _ (funext fun img' => ih' img')
        · exact ih' img

/-! ## The image of every round -/

/-- The run up to the operation with index `j`, on which the image keeps up with the trace:
the stores before the first operation are met in order and before all others, and between
two operations there are no stores but those of the first of the two. -/
structure ImageFollowed (r : TraceReader) (ops : List OpTraceEntry) (j : Nat) : Prop where
  fileOrder : ∀ first ∈ ops[0]?, r.pmStoreSeqList.Pairwise fun a b => b < first.minSeq → a < b
  counted : ∀ first ∈ ops[0]?, ∀ e ∈ r.pmStores, e.seq < first.minSeq → e.svEntry.isSome → 0 ≤ e.seq
  own : ∀ i < j, ∀ op ∈ ops[i]?, ∀ next ∈ ops[i + 1]?,
    r.pmStores.filter (fun e => e.svEntry.isSome ∧ op.minSeq ≤ e.seq ∧ e.seq < next.minSeq) =
      op.pmStoreEntries.filter fun e => e.svEntry.isSome

section

variable {r : TraceReader}

theorem putTraceToImg_eq (hl : r.Loaded) {seq : Int}
    (hord : r.pmStoreSeqList.Pairwise fun a b => b < seq → a < b)
    (hcounted : ∀ e ∈ r.pmStores, e.seq < seq → e.svEntry.isSome → 0 ≤ e.seq) :
    putTraceToImg (zeroImage r.pmSize) r 0 seq = imageBefore r seq := by
  obtain ⟨l, hseqs, hmem, hend, hfilter⟩ := hl.exists_fileOrder hord
  have hrec : ∀ e ∈ l, recordAt r.seqEntryMap e.seq = some e := fun e he => hl.head_get? (hmem e he)
  have hstore : ∀ e ∈ l, e.type.isStoreSeries = true := fun e he =>
    (hl.mem_pmStores.mp (hmem e he)).2.1
  unfold putTraceToImg imageBefore
  rw [← hseqs, putSeqs_eq r.pmAddr hrec hstore hend, hfilter _ (fun e he => by
    have := of_decide_eq_true he
    omega)]
  unfold applyStores TraceReader.pmStoresBefore
  rw [List.filter_filter, List.filter_filter]
  congr 1
  refine List.filter_congr (fun e he => ?_)
  cases hsv : e.svEntry.isSome with
  | false => rfl
  | true =>
    simp only [Bool.true_and, decide_eq_decide]
    refine ⟨fun h => h.2, fun h => ⟨hcounted e he h hsv, h⟩⟩

/-- A store of an operation begins on the device. -/
theorem offset_le_of_split {op : OpTraceEntry} (hop : Split r op) {e : TraceEntry}
    (he : e ∈ op.pmStoreEntries) (hsize : 0 ≤ e.size) : e.addr - r.pmAddr ≤ r.pmSize.toNat := by
  obtain ⟨hst, hmem⟩ := hop.mem_pmStoreEntries.mp he
  obtain ⟨e', he', -, hpm⟩ := hop.wf.item _ hmem
  have hsame : some e = some e' := by
    rw [← e.head?_getEntryList, ← e'.head?_getEntryList, (Prod.mk.inj he').2]
  rw [← Option.some.inj hsame, hop.device.1, hop.device.2] at hpm
  obtain ⟨hflush, hfence, -⟩ := TraceType.isStoreSeries_cases hst
  have himp : e.type.isImpFenceTy = false := by
    revert hfence
    cases e.type <;> decide
  simp only [isPmEntry, hflush, hfence, himp, hst, Bool.or_self, Bool.false_eq_true, if_false,
    Bool.true_or, if_true, decide_eq_true_eq] at hpm
  omega

theorem putOpTraceToImg_eq {op : OpTraceEntry} (hop : Split r op) {img : Bytes}
    (hlen : r.pmSize.toNat ≤ img.length) :
    putOpTraceToImg img op op.minSeq (op.maxSeq + 1) = applyStores r.pmAddr img op.pmStoreEntries := by
  obtain ⟨first, hfirst, hseqs⟩ := hop.storeSeq
  obtain ⟨n, hn⟩ : ∃ n, first = (op.pmStoreEntries.take n).map TraceEntry.seq :=
    ⟨first.length, by rw [List.map_take]; exact List.prefix_iff_eq_take.mp hfirst⟩
  rw [hn, ← List.map_append] at hseqs
  have hmem : ∀ e ∈ op.pmStoreEntries.take n ++ op.pmStoreEntries, e ∈ op.pmStoreEntries := by
    intro e he
    rcases List.mem_append.mp he with he | he
    · exact List.mem_of_mem_take he
    · exact he
  have hrange : ∀ e ∈ op.pmStoreEntries.take n ++ op.pmStoreEntries,
      op.minSeq ≤ e.seq ∧ e.seq < op.maxSeq + 1 := by
    intro e he
    have := (hop.isPmStore (hmem e he)).2.2
    omega
  have hrec : ∀ e ∈ op.pmStoreEntries.take n ++ op.pmStoreEntries,
      recordAt op.pmSeqEntryMap e.seq = some e := by
    intro e he
    have hitem := (hop.mem_pmStoreEntries.mp (hmem e he)).2
    unfold recordAt
    rw [Dict.get?_eq_some.mpr hitem, Option.bind_some, e.head?_getEntryList]
  unfold putOpTraceToImg
  rw [hseqs, putSeqs_eq op.pmAddr hrec (fun e he => (hop.isPmStore (hmem e he)).2.1), hop.device.1,
    List.filter_eq_self.mpr (fun e he => decide_eq_true (hrange e he))]
  · -- what a mount wrote when it ended for the first time is written once more
    refine applyStores_take_append fun e he hsize => ?_
    have := offset_le_of_split hop he hsize
    omega
  · refine List.pairwise_of_forall_mem_list (fun a ha b hb hle => ?_)
    have := (hrange a ha).2
    omega

end

/-! Two traces of a device of eight words. -/

def pmBase : Int := 0x8000000000000000

def wordStore (seq offset : Int) (value : UInt8) : TraceEntry :=
  { TraceEntry.plain .store seq (pmBase + offset) 8 with
    svEntry := some [value, 0, 0, 0, 0, 0, 0, 0] }

def fnEntry (type : TraceType) (seq : Int) : TraceEntry :=
  { TraceEntry.plain type seq 0 0 with fnName := "write" }

/-- A mount and two operations. -/
def mountedLines : List TraceEntry :=
  [.plain .daxDevInfo 0 pmBase 64, wordStore 1 0 5,
    fnEntry .startFn 2, wordStore 3 8 6, wordStore 4 0 7, fnEntry .endFn 5,
    fnEntry .startFn 6, wordStore 7 16 8, fnEntry .endFn 8]

def mountedReader : TraceReader := (TraceReader.load mountedLines).get (by decide +kernel)

def mountedOps : List OpTraceEntry :=
  (SplitOpMgr.splitTrace mountedReader fun name => name = "write").get (by decide +kernel)

/-- A worker stores between two operations. -/
def workerLines : List TraceEntry :=
  [.plain .daxDevInfo 0 pmBase 64, fnEntry .startFn 1, wordStore 2 8 6, fnEntry .endFn 3,
    { wordStore 4 0 7 with pid := 1 }, fnEntry .startFn 5, wordStore 6 16 8, fnEntry .endFn 7]

def workerReader : TraceReader := (TraceReader.load workerLines).get (by decide +kernel)

def workerOps : List OpTraceEntry :=
  (SplitOpMgr.splitTrace workerReader fun name => name = "write").get (by decide +kernel)

end Image
end Silhouette
