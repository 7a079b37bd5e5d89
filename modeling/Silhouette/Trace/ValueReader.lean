import Silhouette.Lib.Bytes
import Silhouette.Lib.Dict

/-!
# The file of stored values

A record is a sequence number, a size and that many bytes.  Numbers from one trillion on are
those of old values.

The number and the size of a record are checked for their length when they are read, its bytes
are not, so a file that ends within the bytes of its last record is accepted.
-/

namespace Silhouette
namespace Trace

open Lib Lib.Bytes

structure TraceValueEntry where
  seq : Nat
  data : List UInt8
  size : Nat
  deriving DecidableEq, Repr

/-- `OLD_VALUE_SEQ_BASE` -/
def oldValueSeqBase : Nat := 1000000000000

def isOldValueSeq (seq : Nat) : Bool := seq ≥ oldValueSeqBase

def convToTraceSeq (seq : Nat) : Nat :=
  if isOldValueSeq seq then seq - oldValueSeqBase else seq

structure TraceValueReader where
  ovMap : Dict Nat TraceValueEntry
  svMap : Dict Nat TraceValueEntry

namespace TraceValueReader

def empty : TraceValueReader := ⟨Dict.empty, Dict.empty⟩

/-- File a value.  A number filed before ends the program. -/
def addValue (r : TraceValueReader) (seq : Nat) (data : List UInt8) (size : Nat) :
    Option TraceValueReader :=
  if isOldValueSeq seq then
    let seq := convToTraceSeq seq
    if seq ∈ r.ovMap.keys then none
    else some { r with ovMap := r.ovMap.set seq ⟨seq, data, size⟩ }
  else if seq ∈ r.svMap.keys then none
  else some { r with svMap := r.svMap.set seq ⟨seq, data, size⟩ }

/-- The loop of `read_from_file`.  A read returns what is left of the file when that is less than
what was asked for; `canRead` says which requests the interpreter can serve at all. -/
def readLoop (canRead : Nat → Bool) :
    Nat → List UInt8 → TraceValueReader → Option TraceValueReader
  | 0, _, _ => none
  | fuel + 1, fd, r =>
    let seqData := fd.take 8
    if seqData = [] then some r
    else if seqData.length ≠ 8 then none
    else
      let sizeData := (fd.drop 8).take 8
      if sizeData.length ≠ 8 then none
      else
        let size := ofLE sizeData
        if canRead size then
          -- The length of the data is not compared with the size.
          (r.addValue (ofLE seqData) ((fd.drop 16).take size) size).bind
            (readLoop canRead fuel ((fd.drop 16).drop size))
        else none

def readFromFile (canRead : Nat → Bool) (file : List UInt8) : Option TraceValueReader :=
  readLoop canRead (file.length + 1) file empty

end TraceValueReader

/-! ## The format -/

structure ValueRecord where
  seq : Nat
  data : List UInt8
  seq_lt : seq < 2 ^ 64
  size_lt : data.length < 2 ^ 64

/-- A sequence number and a size in front of the data. -/
def encodeValue (seq size : Nat) (data : List UInt8) : List UInt8 :=
  toLE 8 seq ++ (toLE 8 size ++ data)

def ValueRecord.encode (x : ValueRecord) : List UInt8 := encodeValue x.seq x.data.length x.data

/-- No new value and no old value has its number twice. -/
def DistinctSeqs (seqs : List Nat) : Prop :=
  (seqs.filter fun s => !isOldValueSeq s).Nodup ∧
    ((seqs.filter fun s => isOldValueSeq s).map convToTraceSeq).Nodup

def IsValueFile (file : List UInt8) : Prop :=
  ∃ recs : List ValueRecord, file = recs.flatMap ValueRecord.encode ∧
    DistinctSeqs (recs.map ValueRecord.seq)

/-- The file is accepted when it should be, and what was read has the size it says. -/
def AcceptsFormat (canRead : Nat → Bool) (file : List UInt8) : Prop :=
  ((TraceValueReader.readFromFile canRead file).isSome ↔ IsValueFile file) ∧
    ∀ r, TraceValueReader.readFromFile canRead file = some r →
      ∀ e, e ∈ r.ovMap.values ∨ e ∈ r.svMap.values → e.data.length = e.size

/-- The file ends within the data of its last record. -/
def CutInData (canRead : Nat → Bool) (file : List UInt8) : Prop :=
  ∃ (recs : List ValueRecord) (seq size : Nat) (data : List UInt8),
    file = recs.flatMap ValueRecord.encode ++ encodeValue seq size data ∧
      seq < 2 ^ 64 ∧ size < 2 ^ 64 ∧ data.length < size ∧ canRead size = true ∧
      DistinctSeqs (recs.map ValueRecord.seq ++ [seq])

/-! ## The maps -/

namespace TraceValueReader

/-- The entry of a number as the file has it. -/
def find (r : TraceValueReader) (seq : Nat) : Option TraceValueEntry :=
  if isOldValueSeq seq then r.ovMap.get? (convToTraceSeq seq) else r.svMap.get? seq

theorem find_eq (r : TraceValueReader) (seq : Nat) :
    r.find seq = (if isOldValueSeq seq then r.ovMap else r.svMap).get? (convToTraceSeq seq) := by
  rw [find, convToTraceSeq]
  split_ifs <;> rfl

/-- The maps with one more entry. -/
def put (r : TraceValueReader) (seq : Nat) (data : List UInt8) (size : Nat) : TraceValueReader :=
  let e : TraceValueEntry := ⟨convToTraceSeq seq, data, size⟩
  if isOldValueSeq seq then { r with ovMap := r.ovMap.set (convToTraceSeq seq) e }
  else { r with svMap := r.svMap.set (convToTraceSeq seq) e }

theorem convToTraceSeq_inj {s t : Nat} (hs : isOldValueSeq s = isOldValueSeq t)
    (h : convToTraceSeq s = convToTraceSeq t) : s = t := by
  unfold convToTraceSeq at h
  rw [hs] at h
  unfold isOldValueSeq at hs h
  simp only [decide_eq_true_eq, decide_eq_decide] at hs h
  split_ifs at h with ht
  · have := hs.mpr ht
    omega
  · exact h

theorem addValue_eq (r : TraceValueReader) (seq : Nat) (data : List UInt8) (size : Nat) :
    r.addValue seq data size =
      if (r.find seq).isSome then none else some (r.put seq data size) := by
  cases hold : isOldValueSeq seq with
  | true =>
    simp only [addValue, find, put, hold, if_true]
    refine if_congr ?_ rfl rfl
    rw [Dict.mem_keys, Option.isSome_iff_exists]
  | false =>
    simp only [addValue, find, put, hold, convToTraceSeq, Bool.false_eq_true, if_false]
    refine if_congr ?_ rfl rfl
    rw [Dict.mem_keys, Option.isSome_iff_exists]

theorem find_put (r : TraceValueReader) (seq : Nat) (data : List UInt8) (size s : Nat) :
    (r.put seq data size).find s =
      if s = seq then some ⟨convToTraceSeq seq, data, size⟩ else r.find s := by
  cases hold : isOldValueSeq seq with
  | true =>
    cases hs : isOldValueSeq s with
    | true =>
      simp only [find, put, hold, hs, if_true, Dict.get?_set]
      refine if_congr ⟨fun h => convToTraceSeq_inj (hs.trans hold.symm) h, fun h => by rw [h]⟩ rfl rfl
    | false =>
      have hne : s ≠ seq := by
        rintro rfl
        rw [hold] at hs
        cases hs
      simp [find, put, hold, hs, hne]
  | false =>
    cases hs : isOldValueSeq s with
    | true =>
      have hne : s ≠ seq := by
        rintro rfl
        rw [hold] at hs
        cases hs
      simp [find, put, hold, hs, hne]
    | false =>
      simp only [find, put, hold, hs, Bool.false_eq_true, if_false, Dict.get?_set, convToTraceSeq]

end TraceValueReader

theorem distinctSeqs_iff (seqs : List Nat) : DistinctSeqs seqs ↔ seqs.Nodup := by
  have hmap : ((seqs.filter fun s => isOldValueSeq s).map convToTraceSeq).Nodup ↔
      (seqs.filter fun s => isOldValueSeq s).Nodup := by
    refine ⟨List.Nodup.of_map _, fun h => h.map_on fun s hs t ht hst => ?_⟩
    have hs' := (List.mem_filter.mp hs).2
    have ht' := (List.mem_filter.mp ht).2
    exact TraceValueReader.convToTraceSeq_inj (hs'.trans ht'.symm) hst
  have hperm := List.filter_append_perm (fun s => isOldValueSeq s) seqs
  rw [DistinctSeqs, hmap, ← hperm.nodup_iff, List.nodup_append, and_comm]
  refine and_congr_right fun _ => ⟨fun h => ⟨h, ?_⟩, fun h => h.1⟩
  intro s hs t ht hst
  have hs' := (List.mem_filter.mp hs).2
  have ht' := (List.mem_filter.mp ht).2
  rw [← hst, hs'] at ht'
  exact absurd ht' (by decide)

namespace TraceValueReader

variable {canRead : Nat → Bool}

/-! ## The loop -/

theorem length_encodeValue (seq size : Nat) (data : List UInt8) :
    (encodeValue seq size data).length = 16 + data.length := by
  simp only [encodeValue, List.length_append, length_toLE]
  omega

/-- One turn of the loop over a full header. -/
theorem readLoop_encodeValue {seq size : Nat} (hseq : seq < 2 ^ 64) (hsize : size < 2 ^ 64)
    (fuel : Nat) (rest : List UInt8) (r : TraceValueReader) :
    readLoop canRead (fuel + 1) (encodeValue seq size rest) r =
      if canRead size then
        (r.addValue seq (rest.take size) size).bind (readLoop canRead fuel (rest.drop size))
      else none := by
  have hseqData : (encodeValue seq size rest).take 8 = toLE 8 seq :=
    List.take_left' (length_toLE 8 seq)
  have hdrop : (encodeValue seq size rest).drop 8 = toLE 8 size ++ rest :=
    List.drop_left' (length_toLE 8 seq)
  have hsizeData : (toLE 8 size ++ rest).take 8 = toLE 8 size :=
    List.take_left' (length_toLE 8 size)
  have hrest : (encodeValue seq size rest).drop 16 = rest := by
    rw [show 16 = 8 + 8 from rfl, ← List.drop_drop, hdrop]
    exact List.drop_left' (length_toLE 8 size)
  have hne : toLE 8 seq ≠ [] := by
    intro h
    exact absurd (congrArg List.length h) (by rw [length_toLE]; decide)
  rw [readLoop]
  simp only [hseqData, hdrop, hsizeData, hrest, length_toLE, if_neg hne, ne_eq,
    not_true_eq_false, if_false, ofLE_toLE (w := 8) (show seq < 256 ^ 8 from hseq),
    ofLE_toLE (w := 8) (show size < 256 ^ 8 from hsize)]

/-- Add a complete record. -/
def addRecord (r : TraceValueReader) (x : ValueRecord) : Option TraceValueReader :=
  r.addValue x.seq x.data x.data.length

/-- The loop over complete records. -/
theorem readLoop_records (recs : List ValueRecord) (tail : List UInt8) (fuel : Nat)
    (hread : ∀ x ∈ recs, canRead x.data.length = true) (r : TraceValueReader) :
    readLoop canRead (fuel + recs.length) (recs.flatMap ValueRecord.encode ++ tail) r =
      (recs.foldlM addRecord r).bind (readLoop canRead fuel tail) := by
  induction recs generalizing r with
  | nil => rfl
  | cons x rest ih =>
    have henc : (x :: rest).flatMap ValueRecord.encode ++ tail =
        encodeValue x.seq x.data.length (x.data ++ (rest.flatMap ValueRecord.encode ++ tail)) := by
      rw [List.flatMap_cons, ValueRecord.encode, encodeValue, encodeValue]
      simp only [List.append_assoc]
    have hx := hread x List.mem_cons_self
    rw [henc, List.length_cons, ← Nat.add_assoc, readLoop_encodeValue x.seq_lt x.size_lt,
      if_pos hx, List.take_left' rfl, List.drop_left' rfl, List.foldlM_cons]
    show ((r.addRecord x).bind _) = ((r.addRecord x).bind _).bind _
    rw [Option.bind_assoc]
    refine Option.bind_congr fun r' _ => ?_
    exact ih (fun y hy => hread y (List.mem_cons_of_mem x hy)) r'

theorem readLoop_nil (fuel : Nat) (r : TraceValueReader) :
    readLoop canRead (fuel + 1) [] r = some r := rfl

/-- A file that ends within a header is refused. -/
theorem readLoop_short {tail : List UInt8} (hne : tail ≠ []) (hlen : tail.length < 16) (fuel : Nat)
    (r : TraceValueReader) : readLoop canRead (fuel + 1) tail r = none := by
  have htake : tail.take 8 ≠ [] := by
    intro h
    rcases List.take_eq_nil_iff.mp h with h | h
    · exact absurd h (by decide)
    · exact hne h
  rw [readLoop]
  simp only [if_neg htake]
  by_cases h8 : (tail.take 8).length ≠ 8
  · rw [if_pos h8]
  · rw [if_neg h8, if_pos]
    rw [List.length_take, List.length_drop]
    omega

theorem readLoop_cut {seq size : Nat} {data : List UInt8} (hseq : seq < 2 ^ 64)
    (hsize : size < 2 ^ 64) (hcut : data.length < size) (fuel : Nat) (r : TraceValueReader) :
    readLoop canRead (fuel + 2) (encodeValue seq size data) r =
      if canRead size then r.addValue seq data size else none := by
  rw [readLoop_encodeValue hseq hsize, List.take_of_length_le (Nat.le_of_lt hcut),
    List.drop_of_length_le (Nat.le_of_lt hcut)]
  refine if_congr Iff.rfl ?_ rfl
  exact (Option.bind_congr fun r' _ => readLoop_nil fuel r').trans (Option.bind_fun_some _)

end TraceValueReader

/-- A file is a number of complete records and an incomplete rest. -/
theorem exists_records (file : List UInt8) :
    ∃ (recs : List ValueRecord) (tail : List UInt8), file = recs.flatMap ValueRecord.encode ++ tail ∧
      (tail.length < 16 ∨ ∃ seq size data, tail = encodeValue seq size data ∧ seq < 2 ^ 64 ∧
        size < 2 ^ 64 ∧ data.length < size) := by
  induction hn : file.length using Nat.strongRecOn generalizing file with
  | ind n ih =>
    by_cases hshort : file.length < 16
    · exact ⟨[], file, rfl, Or.inl hshort⟩
    · have hseq8 : (file.take 8).length = 8 := by rw [List.length_take]; omega
      have hsize8 : ((file.drop 8).take 8).length = 8 := by
        rw [List.length_take, List.length_drop]
        omega
      have hseq : ofLE (file.take 8) < 2 ^ 64 := by
        have h := ofLE_lt (file.take 8)
        rwa [hseq8] at h
      have hsize : ofLE ((file.drop 8).take 8) < 2 ^ 64 := by
        have h := ofLE_lt ((file.drop 8).take 8)
        rwa [hsize8] at h
      have hfile : file = encodeValue (ofLE (file.take 8)) (ofLE ((file.drop 8).take 8))
          (file.drop 16) := by
        have h1 := toLE_ofLE (file.take 8)
        have h2 := toLE_ofLE ((file.drop 8).take 8)
        rw [hseq8] at h1
        rw [hsize8] at h2
        rw [encodeValue, h1, h2, show 16 = 8 + 8 from rfl, ← List.drop_drop, List.take_append_drop,
          List.take_append_drop]
      generalize ofLE (file.take 8) = seq at hseq hfile
      generalize ofLE ((file.drop 8).take 8) = size at hsize hfile
      by_cases hcut : (file.drop 16).length < size
      · exact ⟨[], file, rfl, Or.inr ⟨seq, size, _, hfile, hseq, hsize, hcut⟩⟩
      · have hdata : ((file.drop 16).take size).length = size := by
          rw [List.length_take]
          omega
        obtain ⟨recs, tail, hrest, htail⟩ := ih ((file.drop 16).drop size).length
          (by rw [List.length_drop, List.length_drop]; omega) _ rfl
        refine ⟨⟨seq, (file.drop 16).take size, hseq, by rw [hdata]; exact hsize⟩ :: recs, tail, ?_,
          htail⟩
        rw [List.flatMap_cons, List.append_assoc, ← hrest]
        show file = encodeValue seq ((file.drop 16).take size).length ((file.drop 16).take size) ++
          (file.drop 16).drop size
        rw [hdata, encodeValue, List.append_assoc, List.append_assoc, List.take_append_drop]
        exact hfile

namespace TraceValueReader

variable {canRead : Nat → Bool}

/-- What is read from complete records and an incomplete rest. -/
theorem readFromFile_eq (recs : List ValueRecord) (tail : List UInt8)
    (hread : ∀ x ∈ recs, canRead x.data.length = true) :
    ∃ fuel, tail.length ≤ fuel ∧
      readFromFile canRead (recs.flatMap ValueRecord.encode ++ tail) =
        (recs.foldlM addRecord empty).bind (readLoop canRead (fuel + 1) tail) := by
  have hlen : recs.length ≤ (recs.flatMap ValueRecord.encode).length := by
    induction recs with
    | nil => exact Nat.le_refl 0
    | cons x rest ih =>
      have := ih fun y hy => hread y (List.mem_cons_of_mem x hy)
      rw [List.flatMap_cons, List.length_append, List.length_cons, ValueRecord.encode,
        length_encodeValue]
      omega
  refine ⟨(recs.flatMap ValueRecord.encode).length + tail.length - recs.length, by omega, ?_⟩
  rw [← readLoop_records recs tail _ hread, readFromFile, List.length_append]
  congr 1
  omega

/-! ## Adding records -/

theorem addRecord_eq (r : TraceValueReader) (x : ValueRecord) :
    r.addRecord x = if (r.find x.seq).isSome then none
      else some (r.put x.seq x.data x.data.length) :=
  addValue_eq r x.seq x.data x.data.length

/-- Records are added when their numbers are new and distinct. -/
theorem foldlM_addRecord_isSome (recs : List ValueRecord) (r : TraceValueReader) :
    (recs.foldlM addRecord r).isSome ↔
      (recs.map ValueRecord.seq).Nodup ∧ ∀ x ∈ recs, r.find x.seq = none := by
  induction recs generalizing r with
  | nil => simp
  | cons x rest ih =>
    rw [List.foldlM_cons, addRecord_eq, List.map_cons, List.nodup_cons, List.forall_mem_cons]
    cases hx : r.find x.seq with
    | some e => simp
    | none =>
      show (rest.foldlM addRecord (r.put x.seq x.data x.data.length)).isSome ↔ _
      rw [ih]
      have hfind : (∀ y ∈ rest, (r.put x.seq x.data x.data.length).find y.seq = none) ↔
          x.seq ∉ rest.map ValueRecord.seq ∧ ∀ y ∈ rest, r.find y.seq = none := by
        simp only [find_put]
        constructor
        · intro h
          have hne : ∀ y ∈ rest, y.seq ≠ x.seq := by
            intro y hy heq
            have := h y hy
            rw [if_pos heq] at this
            cases this
          refine ⟨fun hmem => ?_, fun y hy => by simpa [hne y hy] using h y hy⟩
          obtain ⟨y, hy, heq⟩ := List.mem_map.mp hmem
          exact hne y hy heq
        · rintro ⟨hx, h⟩ y hy
          rw [if_neg, h y hy]
          exact fun heq => hx (List.mem_map.mpr ⟨y, hy, heq⟩)
      rw [hfind]
      tauto

/-- The entries after a run of records: those of the records and those there were. -/
theorem find_foldlM_addRecord {recs : List ValueRecord} {r r' : TraceValueReader}
    (h : recs.foldlM addRecord r = some r') :
    (∀ x ∈ recs, r'.find x.seq = some ⟨convToTraceSeq x.seq, x.data, x.data.length⟩) ∧
      ∀ s, s ∉ recs.map ValueRecord.seq → r'.find s = r.find s := by
  induction recs generalizing r with
  | nil =>
    cases h
    exact ⟨fun x hx => absurd hx List.not_mem_nil, fun s _ => rfl⟩
  | cons x rest ih =>
    have hsome : (rest.foldlM addRecord (r.put x.seq x.data x.data.length)) = some r' := by
      rw [List.foldlM_cons, addRecord_eq] at h
      cases hx : r.find x.seq with
      | some e => simp [hx] at h
      | none => simpa [hx] using h
    have hnodup := ((foldlM_addRecord_isSome (x :: rest) r).mp (by rw [h]; rfl)).1
    rw [List.map_cons, List.nodup_cons] at hnodup
    obtain ⟨hin, hout⟩ := ih hsome
    refine ⟨List.forall_mem_cons.mpr ⟨?_, hin⟩, fun s hs => ?_⟩
    · rw [hout x.seq hnodup.1, find_put, if_pos rfl]
    · rw [List.map_cons, List.mem_cons, not_or] at hs
      rw [hout s hs.2, find_put, if_neg hs.1]

/-- Every entry has as many bytes as it says. -/
def Full (r : TraceValueReader) : Prop :=
  ∀ e, e ∈ r.ovMap.values ∨ e ∈ r.svMap.values → e.data.length = e.size

theorem mem_values_set {d : Dict Nat TraceValueEntry} {k : Nat} {v e : TraceValueEntry}
    (h : e ∈ (d.set k v).values) : e = v ∨ e ∈ d.values := by
  obtain ⟨k', hk'⟩ := Dict.mem_values.mp h
  rw [Dict.get?_set] at hk'
  split_ifs at hk'
  · exact Or.inl (Option.some.inj hk').symm
  · exact Or.inr (Dict.mem_values.mpr ⟨k', hk'⟩)

theorem full_addRecord {r r' : TraceValueReader} {x : ValueRecord} (hr : r.Full)
    (h : r.addRecord x = some r') : r'.Full := by
  rw [addRecord_eq] at h
  split_ifs at h
  cases h
  intro e he
  rw [put] at he
  split_ifs at he
  · rcases he with he | he
    · rcases mem_values_set he with rfl | he
      · rfl
      · exact hr e (Or.inl he)
    · exact hr e (Or.inr he)
  · rcases he with he | he
    · exact hr e (Or.inl he)
    · rcases mem_values_set he with rfl | he
      · rfl
      · exact hr e (Or.inr he)

theorem full_foldlM {recs : List ValueRecord} {r r' : TraceValueReader} (hr : r.Full)
    (h : recs.foldlM addRecord r = some r') : r'.Full :=
  foldlM_invariant (fun _ _ _ hr hadd => full_addRecord hr hadd) hr h

theorem find_empty (s : Nat) : empty.find s = none := by
  rw [find]
  split_ifs <;> rfl

theorem full_empty : empty.Full := by
  rintro e (he | he)
  · exact absurd he List.not_mem_nil
  · exact absurd he List.not_mem_nil

end TraceValueReader

section Acceptance

variable {canRead : Nat → Bool} {file : List UInt8}

open TraceValueReader

theorem canRead_of_mem {recs : List ValueRecord} {tail : List UInt8}
    (hread : ∀ n ≤ file.length, canRead n = true)
    (hfile : file = recs.flatMap ValueRecord.encode ++ tail) {x : ValueRecord} (hx : x ∈ recs) :
    canRead x.data.length = true := by
  refine hread _ ?_
  have hsub : x.encode.length ≤ (recs.flatMap ValueRecord.encode).length :=
    (List.sublist_flatten_of_mem (List.mem_map_of_mem hx)).length_le
  rw [ValueRecord.encode, length_encodeValue] at hsub
  rw [hfile, List.length_append]
  omega

/-- Complete records are read when their numbers are distinct. -/
theorem readFromFile_records {recs : List ValueRecord}
    (hread : ∀ n ≤ file.length, canRead n = true) (hfile : file = recs.flatMap ValueRecord.encode) :
    readFromFile canRead file = recs.foldlM addRecord empty := by
  have hfile' : file = recs.flatMap ValueRecord.encode ++ [] := by rw [hfile, List.append_nil]
  obtain ⟨fuel, -, heq⟩ := readFromFile_eq recs [] fun x hx => canRead_of_mem hread hfile' hx
  rw [hfile', heq]
  exact (Option.bind_congr fun r _ => readLoop_nil fuel r).trans (Option.bind_fun_some _)

theorem readFromFile_short {recs : List ValueRecord} {tail : List UInt8}
    (hread : ∀ n ≤ file.length, canRead n = true)
    (hfile : file = recs.flatMap ValueRecord.encode ++ tail) (hne : tail ≠ [])
    (hlen : tail.length < 16) : readFromFile canRead file = none := by
  obtain ⟨fuel, -, heq⟩ := readFromFile_eq recs tail fun x hx => canRead_of_mem hread hfile hx
  rw [hfile, heq, Option.bind_eq_none_iff]
  exact fun r _ => readLoop_short hne hlen fuel r

/-- Data cut short is taken for all of it. -/
theorem readFromFile_cut {recs : List ValueRecord} {seq size : Nat} {data : List UInt8}
    (hread : ∀ n ≤ file.length, canRead n = true)
    (hfile : file = recs.flatMap ValueRecord.encode ++ encodeValue seq size data)
    (hseq : seq < 2 ^ 64) (hsize : size < 2 ^ 64) (hcut : data.length < size) :
    readFromFile canRead file = (recs.foldlM addRecord empty).bind fun r =>
      if canRead size then r.addValue seq data size else none := by
  obtain ⟨fuel, hfuel, heq⟩ :=
    readFromFile_eq recs (encodeValue seq size data) fun x hx => canRead_of_mem hread hfile hx
  rw [length_encodeValue] at hfuel
  obtain ⟨fuel, rfl⟩ : ∃ n, fuel = n + 1 := ⟨fuel - 1, by omega⟩
  rw [hfile, heq]
  exact Option.bind_congr fun r _ => readLoop_cut hseq hsize hcut fuel r

theorem foldlM_empty_isSome (recs : List ValueRecord) :
    (recs.foldlM addRecord empty).isSome ↔ DistinctSeqs (recs.map ValueRecord.seq) := by
  rw [foldlM_addRecord_isSome, distinctSeqs_iff]
  exact and_iff_left fun x _ => find_empty x.seq

/-- A cut record is added when its number is new as well. -/
theorem addValue_cut_isSome {recs : List ValueRecord} {seq size : Nat} {data : List UInt8} :
    ((recs.foldlM addRecord empty).bind fun r => r.addValue seq data size).isSome ↔
      DistinctSeqs (recs.map ValueRecord.seq ++ [seq]) := by
  have hrecs := foldlM_empty_isSome recs
  rw [distinctSeqs_iff] at hrecs ⊢
  have hnodup : (recs.map ValueRecord.seq ++ [seq]).Nodup ↔
      (recs.map ValueRecord.seq).Nodup ∧ seq ∉ recs.map ValueRecord.seq := by
    rw [← List.concat_eq_append, List.nodup_concat, and_comm]
  rw [hnodup, ← hrecs]
  cases hfold : recs.foldlM addRecord empty with
  | none => simp
  | some r =>
    obtain ⟨hin, hout⟩ := find_foldlM_addRecord hfold
    rw [Option.bind_some, addValue_eq]
    by_cases hmem : seq ∈ recs.map ValueRecord.seq
    · obtain ⟨x, hx, rfl⟩ := List.mem_map.mp hmem
      simp [hin x hx, hmem]
    · rw [hout seq hmem, find_empty]
      simp [hmem]

/-- What is read from a file cut in its data has an entry of fewer bytes than it says. -/
theorem not_full_of_cutInData (hread : ∀ n ≤ file.length, canRead n = true)
    (h : CutInData canRead file) : ∃ r, readFromFile canRead file = some r ∧ ¬ r.Full := by
  obtain ⟨recs, seq, size, data, hfile, hseq, hsize, hcut, hcan, hdist⟩ := h
  have hsome := (@addValue_cut_isSome recs seq size data).mpr hdist
  have heq := readFromFile_cut hread hfile hseq hsize hcut
  simp only [if_pos hcan] at heq
  obtain ⟨r', hr'⟩ := Option.isSome_iff_exists.mp hsome
  refine ⟨r', heq.trans hr', fun hfull => ?_⟩
  obtain ⟨r, -, hadd⟩ := Option.bind_eq_some_iff.mp hr'
  rw [addValue_eq] at hadd
  split_ifs at hadd
  cases hadd
  have hfind : (r.put seq data size).find seq = some ⟨convToTraceSeq seq, data, size⟩ := by
    rw [find_put, if_pos rfl]
  have hmem : ⟨convToTraceSeq seq, data, size⟩ ∈ (r.put seq data size).ovMap.values ∨
      ⟨convToTraceSeq seq, data, size⟩ ∈ (r.put seq data size).svMap.values := by
    rw [find] at hfind
    split_ifs at hfind
    · exact Or.inl (Dict.mem_values.mpr ⟨_, hfind⟩)
    · exact Or.inr (Dict.mem_values.mpr ⟨_, hfind⟩)
  exact absurd (hfull _ hmem) (Nat.ne_of_lt hcut)

/-- So a file of the format is not cut. -/
theorem not_cutInData_of_isValueFile (hread : ∀ n ≤ file.length, canRead n = true)
    (h : IsValueFile file) : ¬ CutInData canRead file := by
  intro hcut
  obtain ⟨recs, hfile, -⟩ := h
  obtain ⟨r, hr, hfull⟩ := not_full_of_cutInData hread hcut
  rw [readFromFile_records hread hfile] at hr
  exact hfull (full_foldlM full_empty hr)

theorem acceptsFormat_iff (hread : ∀ n ≤ file.length, canRead n = true) :
    AcceptsFormat canRead file ↔ ¬ CutInData canRead file := by
  constructor
  · intro hacc hcut
    obtain ⟨r, hr, hfull⟩ := not_full_of_cutInData hread hcut
    exact hfull (hacc.2 r hr)
  · intro hcut
    obtain ⟨recs, tail, hfile, htail⟩ := exists_records file
    by_cases hnil : tail = []
    · rw [hnil, List.append_nil] at hfile
      have heq := readFromFile_records hread hfile
      refine ⟨?_, fun r hr => full_foldlM full_empty (heq ▸ hr)⟩
      constructor
      · intro hsome
        rw [heq, foldlM_empty_isSome] at hsome
        exact ⟨recs, hfile, hsome⟩
      · rintro ⟨recs', hfile', hdist⟩
        rw [readFromFile_records hread hfile', foldlM_empty_isSome]
        exact hdist
    · have hnone : readFromFile canRead file = none := by
        rcases htail with hlen | ⟨seq, size, data, rfl, hseq, hsize, hlt⟩
        · exact readFromFile_short hread hfile hnil hlen
        · rw [readFromFile_cut hread hfile hseq hsize hlt]
          by_cases hcan : canRead size = true
          · simp only [if_pos hcan]
            rw [← Option.not_isSome_iff_eq_none, addValue_cut_isSome]
            exact fun hdist => hcut ⟨recs, seq, size, data, hfile, hseq, hsize, hlt, hcan, hdist⟩
          · simp only [if_neg hcan]
            exact Option.bind_eq_none_iff.mpr fun _ _ => rfl
      refine ⟨?_, fun r hr => ?_⟩
      · rw [hnone]
        refine iff_of_false (by decide) ?_
        rintro ⟨recs', hfile', hdist⟩
        have hsome := (foldlM_empty_isSome recs').mpr hdist
        rw [← readFromFile_records hread hfile', hnone] at hsome
        exact absurd hsome (by decide)
      · rw [hnone] at hr
        cases hr

theorem acceptsFormat_one_record :
    AcceptsFormat (fun n => n < 2 ^ 63) (encodeValue 7 2 [5, 6]) := by
  have hread : ∀ n ≤ (encodeValue 7 2 [5, 6]).length, decide (n < 2 ^ 63) = true := by
    intro n hn
    rw [length_encodeValue] at hn
    exact decide_eq_true (lt_of_le_of_lt hn (by decide))
  refine (acceptsFormat_iff hread).mpr (not_cutInData_of_isValueFile hread ?_)
  exact ⟨[⟨7, [5, 6], by decide, by decide⟩], (List.append_nil _).symm,
    (distinctSeqs_iff _).mpr (List.nodup_singleton 7)⟩

/-- Two of eight bytes are read as the value of a store. -/
theorem truncated_value_accepted :
    ¬ AcceptsFormat (fun n => n < 2 ^ 63) (encodeValue 7 8 [5, 6]) ∧
      ¬ IsValueFile (encodeValue 7 8 [5, 6]) ∧
      (readFromFile (fun n => n < 2 ^ 63) (encodeValue 7 8 [5, 6])).map (fun r => r.svMap.values) =
        some [⟨7, [5, 6], 8⟩] := by
  have hread : ∀ n ≤ (encodeValue 7 8 [5, 6]).length, decide (n < 2 ^ 63) = true := by
    intro n hn
    rw [length_encodeValue] at hn
    exact decide_eq_true (lt_of_le_of_lt hn (by decide))
  have hcut : CutInData (fun n => n < 2 ^ 63) (encodeValue 7 8 [5, 6]) :=
    ⟨[], 7, 8, [5, 6], rfl, by decide, by decide, by decide, by decide,
      (distinctSeqs_iff _).mpr (List.nodup_singleton 7)⟩
  obtain ⟨r, hr, hfull⟩ := not_full_of_cutInData hread hcut
  refine ⟨fun hacc => hfull (hacc.2 r hr), fun hfile => ?_, by decide +kernel⟩
  exact not_cutInData_of_isValueFile hread hfile hcut

end Acceptance

end Trace
end Silhouette
