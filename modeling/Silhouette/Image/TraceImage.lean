import Mathlib.Data.List.TakeWhile
import Silhouette.Image.BaseImage

/-!
# The stores of a stretch of the trace

`put_trace_to_img` goes through the store records in the order of the file and stops at the first
number that is too large.  A record belongs to its list when its address is on the device; whether
the record ends there is not looked at.
-/

namespace Silhouette
namespace Image

open Lib Trace

/-- The records that the loop over a list of numbers hands to `do_store_direct`. -/
def appliedRecords (d : Dict Int (List TraceEntry)) (startSeq endSeq : Int) :
    List Int → List TraceEntry
  | [] => []
  | seq :: rest =>
    if seq < startSeq then appliedRecords d startSeq endSeq rest
    else if seq ≥ endSeq then []
    else
      match recordAt d seq with
      | none => []
      | some e =>
        if e.type.isStoreSeries && e.svEntry.isSome then
          e :: appliedRecords d startSeq endSeq rest
        else appliedRecords d startSeq endSeq rest

/-- The record lies on the device. -/
def onDevice (r : TraceReader) (e : TraceEntry) : Bool :=
  r.pmAddr ≤ e.addr ∧ e.addr + e.size ≤ r.pmAddr + r.pmSize

/-- The store records, in the order of the file. -/
def allStores (r : TraceReader) : List TraceEntry :=
  (r.seqEntryMap.items.filterMap fun x => x.2.head?).filter fun e => e.type.isStoreSeries

/-- Those at addresses of the device. -/
def fileStores (r : TraceReader) : List TraceEntry :=
  (allStores r).filter fun e => isPmAddr e.addr r.pmAddr r.pmSize

/-- The stores on the device between two numbers, in sequence order. -/
def storesBetween (r : TraceReader) (startSeq endSeq : Int) : List TraceEntry :=
  (sortBy TraceEntry.seq (allStores r)).filter fun e =>
    onDevice r e && decide (startSeq ≤ e.seq ∧ e.seq < endSeq)

/-- Every stretch of the trace is written as it should be. -/
def PutsTrace (r : TraceReader) : Prop :=
  ∀ startSeq endSeq, startSeq ≤ endSeq →
    appliedRecords r.seqEntryMap startSeq endSeq r.pmStoreSeqList =
      storesBetween r startSeq endSeq ∧
    ∀ img : Bytes, (img.length : Int) = r.pmSize →
      ∃ img', putTraceToImg img r startSeq endSeq = some img' ∧ (img'.length : Int) = r.pmSize

/-- No store at an address of the device goes beyond its end, none that the value file knows
nothing of lies on it, and a store on it comes behind those alone that have smaller numbers. -/
structure StoresFollowed (r : TraceReader) : Prop where
  sized : ∀ e ∈ allStores r, onDevice r e = true → 0 ≤ e.size
  valued : ∀ e ∈ fileStores r, onDevice r e = e.svEntry.isSome
  ordered : (fileStores r).Pairwise fun a b => onDevice r b = true → a.seq < b.seq

/-! ## The loop -/

section

variable {d : Dict Int (List TraceEntry)} {l : List TraceEntry} {startSeq endSeq : Int}

/-- The records that the loop gets to. -/
def reached (startSeq endSeq : Int) (l : List TraceEntry) : List TraceEntry :=
  (l.filter fun e => startSeq ≤ e.seq).takeWhile fun e => e.seq < endSeq

theorem reached_cons (e : TraceEntry) (l : List TraceEntry) :
    reached startSeq endSeq (e :: l) =
      if e.seq < startSeq then reached startSeq endSeq l
      else if e.seq ≥ endSeq then []
      else e :: reached startSeq endSeq l := by
  unfold reached
  by_cases h1 : e.seq < startSeq
  · rw [if_pos h1, List.filter_cons_of_neg (by simpa using h1)]
  · rw [if_neg h1, List.filter_cons_of_pos (by simpa using h1)]
    by_cases h2 : e.seq ≥ endSeq
    · rw [if_pos h2, List.takeWhile_cons_of_neg (by simpa using h2)]
    · rw [if_neg h2, List.takeWhile_cons_of_pos (by simpa using h2)]

theorem mem_of_mem_reached {e : TraceEntry} (he : e ∈ reached startSeq endSeq l) : e ∈ l :=
  (List.mem_filter.mp (List.takeWhile_subset _ he)).1

theorem appliedRecords_eq (hrec : ∀ e ∈ l, recordAt d e.seq = some e)
    (hstore : ∀ e ∈ l, e.type.isStoreSeries = true) :
    appliedRecords d startSeq endSeq (l.map TraceEntry.seq) =
      (reached startSeq endSeq l).filter fun e => e.svEntry.isSome := by
  induction l with
  | nil => rfl
  | cons e rest ih =>
    have ih' := ih (fun e' he' => hrec e' (List.mem_cons_of_mem _ he'))
      fun e' he' => hstore e' (List.mem_cons_of_mem _ he')
    rw [List.map_cons, appliedRecords, reached_cons, hrec e List.mem_cons_self]
    simp only [hstore e List.mem_cons_self, Bool.true_and]
    split_ifs with h1 h2 hsv
    · exact ih'
    · rfl
    · rw [List.filter_cons, if_pos hsv, ih']
    · rw [List.filter_cons, if_neg hsv, ih']

/-- The loop writes the records one after the other. -/
theorem putSeqs_eq_applied (pmAddr : Int) {seqs : List Int}
    (hrec : ∀ seq ∈ seqs, (recordAt d seq).isSome) (img : Bytes) :
    putSeqs pmAddr d startSeq endSeq seqs img =
      (appliedRecords d startSeq endSeq seqs).foldlM (putStore pmAddr) img := by
  induction seqs generalizing img with
  | nil => rfl
  | cons seq rest ih =>
    have ih' := ih fun seq' h' => hrec seq' (List.mem_cons_of_mem _ h')
    obtain ⟨e, he⟩ := Option.isSome_iff_exists.mp (hrec seq List.mem_cons_self)
    rw [putSeqs, appliedRecords, he]
    simp only [Option.bind_eq_bind, Option.bind_some]
    split_ifs
    · exact ih' img
    · rfl
    · rw [List.foldlM_cons]
      exact congrArg _ (funext fun img' => ih' img')
    · exact ih' img

end

/-! ## The records of a trace -/

section

variable {lines l : List TraceEntry} {r : TraceReader} {startSeq endSeq : Int}

theorem allStores_of_load (h : TraceReader.load lines = some r) :
    allStores r = lines.filter fun e => e.type.isStoreSeries := by
  rw [allStores, TraceReader.items_of_load h, List.filterMap_map]
  congr 1
  have hhead : (fun x : Int × List TraceEntry => x.2.head?) ∘
      (fun e : TraceEntry => (e.seq, e.getEntryList)) = some :=
    funext fun e => e.head?_getEntryList
  rw [hhead, List.filterMap_some]

theorem map_seq_fileStores (h : TraceReader.load lines = some r) :
    (fileStores r).map TraceEntry.seq = r.pmStoreSeqList := by
  have hrecord : ((fun x => r.isPmStoreRecord x.2) ∘ fun e : TraceEntry => (e.seq, e.getEntryList)) =
      fun e => isPmAddr e.addr r.pmAddr r.pmSize && e.type.isStoreSeries := by
    funext e
    rw [Function.comp, TraceReader.isPmStoreRecord_getEntryList, Bool.and_comm]
  rw [fileStores, allStores_of_load h, List.filter_filter, TraceReader.pmStoreSeqList,
    TraceReader.items_of_load h, List.filter_map, List.map_map, hrecord]
  rfl

theorem nodup_allStores (h : TraceReader.load lines = some r) :
    ((allStores r).map TraceEntry.seq).Nodup := by
  have hkeys := r.seqEntryMap.nodup
  rw [TraceReader.items_of_load h, List.map_map] at hkeys
  rw [allStores_of_load h]
  exact hkeys.sublist (List.filter_sublist.map _)

theorem recordAt_fileStores (h : TraceReader.load lines = some r) {e : TraceEntry}
    (he : e ∈ fileStores r) : recordAt r.seqEntryMap e.seq = some e := by
  rw [fileStores, allStores_of_load h, List.mem_filter, List.mem_filter] at he
  have hitem : (e.seq, e.getEntryList) ∈ r.seqEntryMap.items := by
    rw [TraceReader.items_of_load h]
    exact List.mem_map_of_mem he.1.1
  unfold recordAt
  rw [Dict.get?_eq_some.mpr hitem, Option.bind_some, e.head?_getEntryList]

/-- What the loop writes. -/
theorem applied_eq_reached (h : TraceReader.load lines = some r) :
    appliedRecords r.seqEntryMap startSeq endSeq r.pmStoreSeqList =
      (reached startSeq endSeq (fileStores r)).filter fun e => e.svEntry.isSome := by
  rw [← map_seq_fileStores h]
  exact appliedRecords_eq (fun e he => recordAt_fileStores h he) fun e he =>
    (List.mem_filter.mp (List.mem_filter.mp he).1).2

theorem putTraceToImg_eq_applied (h : TraceReader.load lines = some r) (img : Bytes) :
    putTraceToImg img r startSeq endSeq =
      (appliedRecords r.seqEntryMap startSeq endSeq r.pmStoreSeqList).foldlM
        (putStore r.pmAddr) img := by
  refine putSeqs_eq_applied r.pmAddr (fun seq hseq => ?_) img
  rw [← map_seq_fileStores h] at hseq
  obtain ⟨e, he, rfl⟩ := List.mem_map.mp hseq
  rw [recordAt_fileStores h he]
  rfl

theorem mem_storesBetween {e : TraceEntry} :
    e ∈ storesBetween r startSeq endSeq ↔
      e ∈ allStores r ∧ onDevice r e = true ∧ startSeq ≤ e.seq ∧ e.seq < endSeq := by
  rw [storesBetween, List.mem_filter, mem_sortBy, Bool.and_eq_true, decide_eq_true_iff]

/-! ## When the order of the file will do -/

/-- A loop that meets the records of its range before any with a larger number stops too late to
miss one of them. -/
theorem filter_reached {q : TraceEntry → Bool}
    (h : l.Pairwise fun a b => q b = true → a.seq < b.seq) :
    (reached startSeq endSeq l).filter q =
      l.filter fun e => q e && decide (startSeq ≤ e.seq ∧ e.seq < endSeq) := by
  induction l with
  | nil => rfl
  | cons e rest ih =>
    obtain ⟨hfirst, hrest⟩ := List.pairwise_cons.mp h
    rw [reached_cons]
    split_ifs with h1 h2
    · rw [ih hrest, List.filter_cons_of_neg (by simp; omega)]
    · symm
      refine List.filter_eq_nil_iff.mpr (fun x hx hq => ?_)
      rw [Bool.and_eq_true, decide_eq_true_iff] at hq
      rcases List.mem_cons.mp hx with rfl | hx
      · omega
      · have := hfirst x hx hq.1
        omega
    · have hin : decide (startSeq ≤ e.seq ∧ e.seq < endSeq) = true := decide_eq_true (by omega)
      rw [List.filter_cons, List.filter_cons, ih hrest, hin, Bool.and_true]

theorem StoresFollowed.applied_eq (h : TraceReader.load lines = some r) (hf : StoresFollowed r) :
    appliedRecords r.seqEntryMap startSeq endSeq r.pmStoreSeqList =
      storesBetween r startSeq endSeq := by
  have hvalued : (reached startSeq endSeq (fileStores r)).filter (fun e => e.svEntry.isSome) =
      (reached startSeq endSeq (fileStores r)).filter (onDevice r) :=
    List.filter_congr fun e he => (hf.valued e (mem_of_mem_reached he)).symm
  -- a store on the device has its address there
  have hsame : (fileStores r).filter
        (fun e => onDevice r e && decide (startSeq ≤ e.seq ∧ e.seq < endSeq)) =
      (allStores r).filter
        fun e => onDevice r e && decide (startSeq ≤ e.seq ∧ e.seq < endSeq) := by
    rw [fileStores, List.filter_filter]
    refine List.filter_congr (fun e he => ?_)
    cases hdev : onDevice r e with
    | false => rfl
    | true =>
      have hsize := hf.sized e he hdev
      have hpm : isPmAddr e.addr r.pmAddr r.pmSize = true := by
        rw [onDevice, decide_eq_true_iff] at hdev
        rw [isPmAddr, decide_eq_true_iff]
        omega
      rw [hpm, Bool.and_true]
  rw [applied_eq_reached h, hvalued, filter_reached hf.ordered, hsame, storesBetween]
  refine ((sortBy_perm TraceEntry.seq _).filter _).symm.eq_of_pairwise
    (fun a b _ _ hab hba => absurd (lt_trans hab hba) (lt_irrefl _)) ?_
    ((sortBy_pairwise_lt (nodup_allStores h)).filter _)
  rw [← hsame]
  refine List.pairwise_filter.mpr (hf.ordered.imp fun hab _ hb => hab ?_)
  exact (Bool.and_eq_true_iff.mp hb).1

/-- The length of an image is kept by stores on the device. -/
theorem foldlM_putStore_onDevice
    (h : ∀ e ∈ l, onDevice r e = true ∧ 0 ≤ e.size ∧ e.svEntry.isSome = true) {img : Bytes}
    (himg : (img.length : Int) = r.pmSize) :
    ∃ img', l.foldlM (putStore r.pmAddr) img = some img' ∧ (img'.length : Int) = r.pmSize := by
  have hwrite : ∀ e ∈ l, storeWrite r.pmAddr e =
      some ((e.addr - r.pmAddr).toNat, (e.svEntry.getD []).take e.size.toNat) := by
    intro e he
    obtain ⟨hdev, hsize, hsv⟩ := h e he
    obtain ⟨data, hdata⟩ := Option.isSome_iff_exists.mp hsv
    rw [onDevice, decide_eq_true_iff] at hdev
    have hlen : e.addr + e.size - r.pmAddr - (e.addr - r.pmAddr) = e.size := by omega
    rw [storeWrite, hdata, Option.bind_some, if_pos (by omega), if_neg (by omega), hlen]
    rfl
  rw [foldlM_putStore, mapM_eq_some hwrite]
  refine ⟨_, rfl, ?_⟩
  rw [length_writeAll, himg]
  intro w hw
  obtain ⟨e, he, rfl⟩ := List.mem_map.mp hw
  obtain ⟨hdev, hsize, -⟩ := h e he
  rw [onDevice, decide_eq_true_iff] at hdev
  show (e.addr - r.pmAddr).toNat + ((e.svEntry.getD []).take e.size.toNat).length ≤ img.length
  rw [List.length_take]
  omega

theorem StoresFollowed.putsTrace (h : TraceReader.load lines = some r) (hf : StoresFollowed r) :
    PutsTrace r := by
  intro startSeq endSeq _
  refine ⟨hf.applied_eq h, fun img himg => ?_⟩
  rw [putTraceToImg_eq_applied h]
  refine foldlM_putStore_onDevice (fun e he => ?_) himg
  have hfile : e ∈ fileStores r ∧ e.svEntry.isSome = true := by
    rw [applied_eq_reached h, List.mem_filter] at he
    exact ⟨mem_of_mem_reached he.1, he.2⟩
  rw [hf.applied_eq h, mem_storesBetween] at he
  exact ⟨he.2.1, hf.sized e he.1 he.2.1, hfile.2⟩

/-! ## When it will not -/

theorem PutsTrace.mem_reached (h : TraceReader.load lines = some r) (hp : PutsTrace r)
    {e : TraceEntry} (he : e ∈ allStores r) (hdev : onDevice r e = true) :
    e ∈ reached e.seq (e.seq + 1) (fileStores r) ∧ e.svEntry.isSome = true := by
  have hmem : e ∈ storesBetween r e.seq (e.seq + 1) :=
    mem_storesBetween.mpr ⟨he, hdev, le_refl _, by omega⟩
  rw [← (hp e.seq (e.seq + 1) (by omega)).1, applied_eq_reached h, List.mem_filter] at hmem
  exact hmem

/-- With no bound above, the loop gets to all records. -/
theorem reached_of_lt (h : ∀ e ∈ l, e.seq < endSeq) :
    reached startSeq endSeq l = l.filter fun e => startSeq ≤ e.seq :=
  List.takeWhile_eq_self_iff.mpr fun e he => decide_eq_true (h e (List.mem_filter.mp he).1)

theorem exists_seq_bound (l : List TraceEntry) : ∃ bound, ∀ e ∈ l, e.seq < bound := by
  induction l with
  | nil => exact ⟨0, fun e he => absurd he List.not_mem_nil⟩
  | cons e rest ih =>
    obtain ⟨bound, hb⟩ := ih
    refine ⟨max bound (e.seq + 1), fun x hx => ?_⟩
    rcases List.mem_cons.mp hx with rfl | hx
    · omega
    · have := hb x hx
      omega

theorem PutsTrace.valued (h : TraceReader.load lines = some r) (hp : PutsTrace r)
    {e : TraceEntry} (he : e ∈ fileStores r) : onDevice r e = e.svEntry.isSome := by
  rw [Bool.eq_iff_iff]
  refine ⟨fun hdev => (hp.mem_reached h (List.mem_filter.mp he).1 hdev).2, fun hsv => ?_⟩
  obtain ⟨bound, hb⟩ := exists_seq_bound (fileStores r)
  have hmem : e ∈ (reached e.seq bound (fileStores r)).filter fun e => e.svEntry.isSome := by
    rw [reached_of_lt hb, List.mem_filter, List.mem_filter]
    exact ⟨⟨he, decide_eq_true (le_refl _)⟩, hsv⟩
  have hle := hb e he
  rw [← applied_eq_reached h, (hp e.seq bound (by omega)).1, mem_storesBetween] at hmem
  exact hmem.2.1

/-- A record that a loop stopping right behind its number gets to has no larger number before
it. -/
theorem pairwise_of_mem_reached {q : TraceEntry → Bool} (hnodup : (l.map TraceEntry.seq).Nodup)
    (h : ∀ e ∈ l, q e = true → e ∈ reached e.seq (e.seq + 1) l) :
    l.Pairwise fun a b => q b = true → a.seq < b.seq := by
  induction l with
  | nil => exact List.Pairwise.nil
  | cons e rest ih =>
    rw [List.map_cons, List.nodup_cons] at hnodup
    have hstep : ∀ x ∈ rest, q x = true → e.seq < x.seq ∧ x ∈ reached x.seq (x.seq + 1) rest := by
      intro x hx hq
      have hne : e.seq ≠ x.seq := fun heq => hnodup.1 (heq ▸ List.mem_map_of_mem hx)
      have hmem := h x (List.mem_cons_of_mem _ hx) hq
      rw [reached_cons] at hmem
      split_ifs at hmem with h1 h2
      · exact ⟨h1, hmem⟩
      · exact absurd hmem List.not_mem_nil
      · omega
    exact List.pairwise_cons.mpr ⟨fun x hx hq => (hstep x hx hq).1,
      ih hnodup.2 fun x hx hq => (hstep x hx hq).2⟩

theorem PutsTrace.sized (h : TraceReader.load lines = some r) (hp : PutsTrace r)
    {e : TraceEntry} (he : e ∈ allStores r) (hdev : onDevice r e = true) : 0 ≤ e.size := by
  obtain ⟨hreached, hsv⟩ := hp.mem_reached h he hdev
  have hpm := (List.mem_filter.mp (mem_of_mem_reached hreached)).2
  rw [isPmAddr, decide_eq_true_iff] at hpm
  have hlen : ((zeroImage r.pmSize).length : Int) = r.pmSize := by
    rw [zeroImage, List.length_replicate]
    omega
  obtain ⟨img', himg', -⟩ := (hp e.seq (e.seq + 1) (by omega)).2 _ hlen
  have hmem : e ∈ appliedRecords r.seqEntryMap e.seq (e.seq + 1) r.pmStoreSeqList := by
    rw [applied_eq_reached h, List.mem_filter]
    exact ⟨hreached, hsv⟩
  rw [putTraceToImg_eq_applied h, foldlM_putStore] at himg'
  obtain ⟨ws, hws, -⟩ := Option.map_eq_some_iff.mp himg'
  obtain ⟨w, hw⟩ := exists_of_mapM_eq_some hws e hmem
  obtain ⟨data, -, hw⟩ := Option.bind_eq_some_iff.mp hw
  split_ifs at hw with hle
  omega

/-- A trace is written as it should be exactly when the order of its file and the ends of its
stores do no harm. -/
theorem puts_trace_iff (h : TraceReader.load lines = some r) :
    PutsTrace r ↔ StoresFollowed r := by
  refine ⟨fun hp => ?_, fun hf => hf.putsTrace h⟩
  refine ⟨fun e he => hp.sized h he, fun e he => hp.valued h he, ?_⟩
  refine pairwise_of_mem_reached ?_ fun e he hdev => ?_
  · rw [map_seq_fileStores h]
    exact TraceReader.nodup_pmStoreSeqList r
  · exact (hp.mem_reached h (List.mem_filter.mp he).1 hdev).1

end

theorem puts_trace_iff_mounted :
    PutsTrace mountedReader ∧ (PutsTrace mountedReader ↔ StoresFollowed mountedReader) := by
  have hload : TraceReader.load mountedLines = some mountedReader := (Option.some_get _).symm
  have hiff := puts_trace_iff hload
  refine ⟨hiff.mpr ⟨?_, ?_, ?_⟩, hiff⟩
  · decide +kernel
  · decide +kernel
  · decide +kernel

/-- Two threads whose lines come the other way round than their numbers. -/
def swappedLines : List TraceEntry :=
  [.plain .daxDevInfo 0 pmBase 64, wordStore 3 8 6, { wordStore 1 0 7 with pid := 1 }]

def swappedReader : TraceReader := (TraceReader.load swappedLines).get (by decide +kernel)

/-- The stores before number 2 are one; the loop stops before it gets there. -/
theorem puts_trace_misses_swapped :
    TraceReader.load swappedLines = some swappedReader ∧ ¬ PutsTrace swappedReader := by
  refine ⟨(Option.some_get _).symm, fun h => ?_⟩
  have hlen := congrArg List.length (h 0 2 (by decide)).1
  exact absurd hlen (by decide +kernel)

end Image
end Silhouette
