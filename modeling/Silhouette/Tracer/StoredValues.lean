import Silhouette.Tracer.TraceLines
import Silhouette.Trace.ValueReader

/-!
# The numbers of stored values

A store is recorded twice: the bytes it overwrites under its number plus one trillion, and the
bytes it leaves behind under its number.  The reader tells the two apart by that trillion, but the
tracer admits numbers up to two trillions.
-/

namespace Silhouette
namespace Tracer

open Lib.Bytes Trace

/-- `MAX_SV_BUF_SIZE` -/
def maxSvBufSize : Nat := 104857600

/-- `OLDSV_START_SEQ` -/
def oldsvStartSeq : Nat := 1000000000000

/-- What a trace function hands to `output_store_value`: the number in the trace, whether the
value is an old one, the address and the size. -/
structure ValueRequest where
  old : Bool
  number : Nat
  ptr : Nat
  size : Nat

/-- The new values: a copy stores under the number behind the one of its load. -/
def TraceCall.storeValue (seq : Nat) : TraceCall → List ValueRequest
  | inlineAsmXchglq _ ptr size | inlineAsmCas _ ptr size | inlineAsmMemsetnt _ ptr size
  | storeInst _ ptr size | xchgInst _ ptr size | rmwInst _ ptr size | memsetInst _ ptr size =>
    checkSeq seq [⟨false, seq, ptr, size⟩]
  | memtransferInst _ dest _ size => checkSeq seq [⟨false, seq + 1, dest, size⟩]
  | uaccessCalls _ dst _ size | uaccessNtCalls _ dst _ size =>
    checkSeq seq (if isUserSpaceAddress dst then [] else [⟨false, seq + 1, dst, size⟩])
  | _ => []

def traceOldStoreValue (seq ptr size shift : Nat) : List ValueRequest :=
  checkSeq seq (if isUserSpaceAddress ptr then [] else [⟨true, seq + shift, ptr, size⟩])

/-- The calls that record values. -/
inductive ValueCall where
  | store (call : TraceCall) (seq : Nat)
  | oldStoreValue (seq ptr size shift : Nat)

def ValueCall.requests : ValueCall → List ValueRequest
  | store call seq => call.storeValue seq
  | oldStoreValue seq ptr size shift => traceOldStoreValue seq ptr size shift

/-- The number in the file of values, in 64 bits. -/
def ValueRequest.recordSeq (v : ValueRequest) : Nat :=
  if v.old then (v.number + oldsvStartSeq) % 2 ^ 64 else v.number

def bytesAt (mem : Nat → UInt8) (ptr size : Nat) : List UInt8 :=
  (List.range size).map fun i => mem (ptr + i)

/-- `write_sv_file`: a value that is too large is left out. -/
def writeSvFile (mem : Nat → UInt8) (v : ValueRequest) : List UInt8 :=
  if v.size > maxSvBufSize then [] else encodeValue v.recordSeq v.size (bytesAt mem v.ptr v.size)

/-- A value in the file, with its bytes. -/
structure EmittedValue where
  request : ValueRequest
  data : List UInt8

/-- The values a call leaves in the file, given the memory it finds. -/
def emitted (x : (Nat → UInt8) × ValueCall) : List EmittedValue :=
  (x.2.requests.filter fun v => v.size ≤ maxSvBufSize).map fun v =>
    ⟨v, bytesAt x.1 v.ptr v.size⟩

/-- Calls in the order of their records in the file.  A sequence number is handed out once, so no
two new values and no two old values have the same. -/
structure ValueTrace where
  calls : List ((Nat → UInt8) × ValueCall)
  distinct : ((calls.flatMap emitted).map fun e => (e.request.old, e.request.number)).Nodup

/-- The file of values. -/
def ValueTrace.file (t : ValueTrace) : List UInt8 :=
  t.calls.flatMap fun x => x.2.requests.flatMap (writeSvFile x.1)

/-- Every new value is filed as new and every old value as old, under its number in the trace and
with its bytes. -/
def ValuesFiled (canRead : Nat → Bool) (t : ValueTrace) : Prop :=
  ∃ r, TraceValueReader.readFromFile canRead t.file = some r ∧
    ∀ e ∈ t.calls.flatMap emitted,
      (if e.request.old then r.ovMap else r.svMap).get? e.request.number =
        some ⟨e.request.number, e.data, e.request.size⟩

/-- New values are numbered below the trillion, and old ones do not wrap. -/
def NumbersFit (t : ValueTrace) : Prop :=
  ∀ e ∈ t.calls.flatMap emitted,
    if e.request.old then e.request.number + oldsvStartSeq < 2 ^ 64
    else e.request.number < oldsvStartSeq

/-! ## The records -/

theorem number_le_of_new {x : ValueCall} {v : ValueRequest} (h : v ∈ x.requests)
    (hnew : v.old = false) : v.number ≤ maxTraceSeqNum := by
  cases x with
  | oldStoreValue seq ptr size shift =>
    have hv := (mem_checkSeq.mp h).2
    split_ifs at hv
    · exact absurd hv List.not_mem_nil
    · rw [List.mem_singleton.mp hv] at hnew
      cases hnew
  | store call seq =>
    cases call with
    | uaccessCalls id dst src size | uaccessNtCalls id dst src size =>
      obtain ⟨hseq, hv⟩ := mem_checkSeq.mp h
      split_ifs at hv
      · exact absurd hv List.not_mem_nil
      · rw [List.mem_singleton.mp hv]
        exact hseq
    | memtransferInst id dest src size =>
      obtain ⟨hseq, hv⟩ := mem_checkSeq.mp h
      rw [List.mem_singleton.mp hv]
      exact hseq
    | inlineAsmXchglq id ptr size | inlineAsmCas id ptr size | inlineAsmMemsetnt id ptr size
    | storeInst id ptr size | xchgInst id ptr size | rmwInst id ptr size
    | memsetInst id ptr size =>
      obtain ⟨hseq, hv⟩ := mem_checkSeq.mp h
      rw [List.mem_singleton.mp hv]
      exact Nat.le_of_lt hseq
    | _ => exact absurd h List.not_mem_nil

theorem recordSeq_lt {x : ValueCall} {v : ValueRequest} (h : v ∈ x.requests) :
    v.recordSeq < 2 ^ 64 := by
  rw [ValueRequest.recordSeq]
  split_ifs with hold
  · omega
  · have hle := number_le_of_new h (Bool.eq_false_iff.mpr hold)
    unfold maxTraceSeqNum at hle
    omega

theorem length_bytesAt (mem : Nat → UInt8) (ptr size : Nat) :
    (bytesAt mem ptr size).length = size := by
  rw [bytesAt, List.length_map, List.length_range]

/-- What is known of a value in the file. -/
theorem of_mem_emitted {x : (Nat → UInt8) × ValueCall} {e : EmittedValue} (h : e ∈ emitted x) :
    e.request ∈ x.2.requests ∧ e.data.length = e.request.size ∧ e.request.size ≤ maxSvBufSize := by
  obtain ⟨v, hv, rfl⟩ := List.mem_map.mp h
  obtain ⟨hv, hsize⟩ := List.mem_filter.mp hv
  exact ⟨hv, length_bytesAt _ _ _, of_decide_eq_true hsize⟩

/-- The part of a file one call writes. -/
theorem flatMap_writeSvFile (mem : Nat → UInt8) (l : List ValueRequest) :
    l.flatMap (writeSvFile mem) =
      ((l.filter fun v => v.size ≤ maxSvBufSize).map fun v =>
        (⟨v, bytesAt mem v.ptr v.size⟩ : EmittedValue)).flatMap fun e =>
          encodeValue e.request.recordSeq e.data.length e.data := by
  induction l with
  | nil => rfl
  | cons v rest ih =>
    rw [List.flatMap_cons, ih, writeSvFile]
    by_cases hsize : v.size ≤ maxSvBufSize
    · rw [if_neg (Nat.not_lt.mpr hsize), List.filter_cons_of_pos (by simpa using hsize),
        List.map_cons, List.flatMap_cons, length_bytesAt]
    · rw [if_pos (Nat.not_le.mp hsize), List.filter_cons_of_neg (by simpa using hsize),
        List.nil_append]

theorem file_eq (t : ValueTrace) : t.file = (t.calls.flatMap emitted).flatMap fun e =>
    encodeValue e.request.recordSeq e.data.length e.data := by
  rw [ValueTrace.file, List.flatMap_assoc]
  exact List.flatMap_congr fun x _ => flatMap_writeSvFile x.1 x.2.requests

/-- Numbers and bytes within their bounds are those of records. -/
theorem exists_valueRecords {l : List EmittedValue}
    (h : ∀ e ∈ l, e.request.recordSeq < 2 ^ 64 ∧ e.data.length < 2 ^ 64) :
    ∃ recs : List ValueRecord,
      recs.map (fun x => (x.seq, x.data)) = l.map fun e => (e.request.recordSeq, e.data) := by
  induction l with
  | nil => exact ⟨[], rfl⟩
  | cons e rest ih =>
    obtain ⟨recs, hrecs⟩ := ih fun f hf => h f (List.mem_cons_of_mem _ hf)
    obtain ⟨hseq, hsize⟩ := h e List.mem_cons_self
    exact ⟨⟨e.request.recordSeq, e.data, hseq, hsize⟩ :: recs, by rw [List.map_cons, hrecs]; rfl⟩

/-! ## What the reader makes of them -/

open TraceValueReader

section Numbers

variable {canRead : Nat → Bool} {t : ValueTrace}

/-- The reader adds the values one after the other. -/
theorem readFromFile_trace (hread : ∀ n ≤ t.file.length, canRead n = true) :
    ∃ recs : List ValueRecord,
      recs.map (fun x => (x.seq, x.data)) =
        (t.calls.flatMap emitted).map (fun e => (e.request.recordSeq, e.data)) ∧
      readFromFile canRead t.file = recs.foldlM addRecord empty := by
  have hbounds : ∀ e ∈ t.calls.flatMap emitted,
      e.request.recordSeq < 2 ^ 64 ∧ e.data.length < 2 ^ 64 := by
    intro e he
    obtain ⟨x, -, hx⟩ := List.mem_flatMap.mp he
    obtain ⟨hreq, hlen, hsize⟩ := of_mem_emitted hx
    refine ⟨recordSeq_lt hreq, ?_⟩
    unfold maxSvBufSize at hsize
    omega
  obtain ⟨recs, hrecs⟩ := exists_valueRecords hbounds
  refine ⟨recs, hrecs, readFromFile_records hread ?_⟩
  have hcode := congrArg (List.flatMap fun y : Nat × List UInt8 =>
    encodeValue y.1 y.2.length y.2) hrecs
  rw [List.flatMap_map, List.flatMap_map] at hcode
  rw [file_eq, ← hcode]
  rfl

/-- New values are filed below the trillion, and old ones where adding it does not wrap. -/
def Sorted (r : TraceValueReader) : Prop :=
  (∀ k ∈ r.svMap.keys, k < oldsvStartSeq) ∧ ∀ k ∈ r.ovMap.keys, k + oldsvStartSeq < 2 ^ 64

theorem sorted_addRecord {r r' : TraceValueReader} {x : ValueRecord} (hr : Sorted r)
    (h : r.addRecord x = some r') : Sorted r' := by
  rw [addRecord_eq] at h
  split_ifs at h
  cases h
  have hx := x.seq_lt
  rw [put]
  by_cases hold : isOldValueSeq x.seq = true
  · rw [if_pos hold]
    refine ⟨hr.1, fun k hk => ?_⟩
    rw [Lib.Dict.mem_keys] at hk
    obtain ⟨e, he⟩ := hk
    rw [Lib.Dict.get?_set] at he
    split_ifs at he with heq
    · have hge : oldValueSeqBase ≤ x.seq := by simpa [isOldValueSeq] using hold
      rw [heq, convToTraceSeq, if_pos hold]
      unfold oldValueSeqBase at hge ⊢
      unfold oldsvStartSeq
      omega
    · exact hr.2 k (Lib.Dict.mem_keys.mpr ⟨e, he⟩)
  · rw [if_neg hold]
    refine ⟨fun k hk => ?_, hr.2⟩
    rw [Lib.Dict.mem_keys] at hk
    obtain ⟨e, he⟩ := hk
    rw [Lib.Dict.get?_set] at he
    split_ifs at he with heq
    · have hlt : x.seq < oldValueSeqBase := by simpa [isOldValueSeq] using hold
      rw [heq, convToTraceSeq, if_neg hold]
      exact hlt
    · exact hr.1 k (Lib.Dict.mem_keys.mpr ⟨e, he⟩)

theorem sorted_empty : Sorted empty :=
  ⟨fun _ hk => absurd hk List.not_mem_nil, fun _ hk => absurd hk List.not_mem_nil⟩

/-- A number that fits is read as it was meant. -/
theorem recordSeq_of_fit {v : ValueRequest}
    (h : if v.old then v.number + oldsvStartSeq < 2 ^ 64 else v.number < oldsvStartSeq) :
    isOldValueSeq v.recordSeq = v.old ∧ convToTraceSeq v.recordSeq = v.number := by
  rw [convToTraceSeq, ValueRequest.recordSeq, isOldValueSeq]
  unfold oldValueSeqBase
  unfold oldsvStartSeq at *
  cases hold : v.old with
  | true =>
    simp only [hold, if_true] at h ⊢
    rw [Nat.mod_eq_of_lt h]
    simp
  | false =>
    simp only [hold, Bool.false_eq_true, if_false] at h ⊢
    simp [Nat.not_le.mpr h]

theorem numbersFit_of_filed (hread : ∀ n ≤ t.file.length, canRead n = true)
    (h : ValuesFiled canRead t) : NumbersFit t := by
  obtain ⟨recs, -, hfold⟩ := readFromFile_trace hread
  obtain ⟨r, hr, hfiled⟩ := h
  have hsorted : Sorted r :=
    Lib.foldlM_invariant (fun _ _ _ hr hadd => sorted_addRecord hr hadd) sorted_empty (hfold ▸ hr)
  intro e he
  have hget := hfiled e he
  split_ifs with hold
  · rw [if_pos hold] at hget
    exact hsorted.2 _ (Lib.Dict.mem_keys.mpr ⟨_, hget⟩)
  · rw [if_neg hold] at hget
    exact hsorted.1 _ (Lib.Dict.mem_keys.mpr ⟨_, hget⟩)

theorem valuesFiled_iff (hread : ∀ n ≤ t.file.length, canRead n = true) :
    ValuesFiled canRead t ↔ NumbersFit t := by
  obtain ⟨recs, hrecs, hfold⟩ := readFromFile_trace hread
  constructor
  · exact numbersFit_of_filed hread
  · intro hfit
    -- The number in the file determines the kind and the number in the trace.
    have hkey : (t.calls.flatMap emitted).map (fun e => (e.request.old, e.request.number)) =
        ((t.calls.flatMap emitted).map fun e => e.request.recordSeq).map
          fun s => (isOldValueSeq s, convToTraceSeq s) := by
      rw [List.map_map]
      refine List.map_congr_left fun e he => ?_
      obtain ⟨hold, hnum⟩ := recordSeq_of_fit (hfit e he)
      rw [Function.comp_apply, hold, hnum]
    have hseqs : recs.map ValueRecord.seq =
        (t.calls.flatMap emitted).map fun e => e.request.recordSeq := by
      have h := congrArg (List.map Prod.fst) hrecs
      rw [List.map_map, List.map_map] at h
      exact h
    have hnodup : (recs.map ValueRecord.seq).Nodup := by
      rw [hseqs]
      refine List.Nodup.of_map (fun s => (isOldValueSeq s, convToTraceSeq s)) ?_
      rw [← hkey]
      exact t.distinct
    obtain ⟨r, hr⟩ := Option.isSome_iff_exists.mp
      ((foldlM_empty_isSome recs).mpr ((distinctSeqs_iff _).mpr hnodup))
    refine ⟨r, hfold.trans hr, fun e he => ?_⟩
    have hmem : (e.request.recordSeq, e.data) ∈ recs.map fun x => (x.seq, x.data) := by
      rw [hrecs]
      exact List.mem_map.mpr ⟨e, he, rfl⟩
    obtain ⟨x, hx, hxe⟩ := List.mem_map.mp hmem
    have hfind := (find_foldlM_addRecord hr).1 x hx
    obtain ⟨hold, hnum⟩ := recordSeq_of_fit (hfit e he)
    have hlen : e.data.length = e.request.size := by
      obtain ⟨y, -, hy⟩ := List.mem_flatMap.mp he
      exact (of_mem_emitted hy).2.1
    have hseq : x.seq = e.request.recordSeq := congrArg Prod.fst hxe
    have hdata : x.data = e.data := congrArg Prod.snd hxe
    rw [hseq, hdata, find_eq, hold, hnum, hlen] at hfind
    exact hfind

/-- A store of two bytes, with what it overwrites. -/
def oneStore (number : Nat) : List ((Nat → UInt8) × ValueCall) :=
  [(fun _ => 0, .oldStoreValue number 0xffff888000000000 2 0),
    (fun _ => 9, .store (.storeInst 1 0xffff888000000000 2) number)]

theorem canRead_of_short {t : ValueTrace} (h : t.file.length ≤ 64) :
    ∀ n ≤ t.file.length, decide (n < 2 ^ 63) = true :=
  fun _ hn => decide_eq_true (lt_of_le_of_lt (hn.trans h) (by decide))

theorem valuesFiled_first_store :
    ValuesFiled (fun n => n < 2 ^ 63) ⟨oneStore 1, by decide +kernel⟩ := by
  refine (valuesFiled_iff (canRead_of_short (by decide +kernel))).mpr ?_
  unfold NumbersFit
  decide +kernel

/-- The new value of the store numbered one trillion is taken for an old one. -/
theorem new_value_misfiled :
    ¬ ValuesFiled (fun n => n < 2 ^ 63) ⟨oneStore 1000000000000, by decide +kernel⟩ := by
  intro h
  have hfit := numbersFit_of_filed (canRead_of_short (by decide +kernel)) h
  revert hfit
  unfold NumbersFit
  decide +kernel

end Numbers

end Tracer
end Silhouette
