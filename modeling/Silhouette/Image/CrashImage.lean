import Silhouette.Trace.OpTraceEntry
import Silhouette.CrashPlan.Entry

/-!
# Writing traces and crash plans to an image

`MemBinaryFile` keeps the image in an `io.BytesIO`.  `put_op_trace_to_img` replays the
stores of an operation and `put_cp_to_img` those a crash plan persists.  `none` is a
failed assertion, a negative offset, a missing record or a missing stored value.

For a plan without sampling the image only depends on which stores are written, and
`writtenSeqs` names them.
-/

namespace Silhouette
namespace Image

open Lib Trace CrashPlan

/-- The bytes of an image. -/
abbrev Bytes := List UInt8

/-- The image a `MemBinaryFile` starts with. -/
def zeroImage (pmSize : Int) : Bytes := List.replicate pmSize.toNat 0

/-- `seek` and `write` of `BytesIO`: writing behind the end fills the gap with zeros, and
writing nothing changes nothing. -/
def writeAt (img : Bytes) (pos : Nat) (val : Bytes) : Bytes :=
  if val = [] then img
  else img.take pos ++ List.replicate (pos - img.length) 0 ++ val ++ img.drop (pos + val.length)

def doStoreDirect (img : Bytes) (baseOff maxOff : Int) (val : Bytes) : Option Bytes :=
  if baseOff ≤ maxOff then
    if baseOff < 0 then none
    else some (writeAt img baseOff.toNat (val.take (maxOff - baseOff).toNat))
  else none

/-- The record under a sequence number. -/
def recordAt (d : Dict Int (List TraceEntry)) (seq : Int) : Option TraceEntry :=
  (d.get? seq).bind List.head?

/-- Write the whole range of a store. -/
def putStore (pmAddr : Int) (img : Bytes) (e : TraceEntry) : Option Bytes :=
  e.svEntry.bind fun data => doStoreDirect img (e.addr - pmAddr) (e.addr + e.size - pmAddr) data

/-- Stop at the first sequence number that reaches `endSeq`; a record without a stored
value is logged and skipped. -/
def putSeqs (pmAddr : Int) (d : Dict Int (List TraceEntry)) (startSeq endSeq : Int) :
    List Int → Bytes → Option Bytes
  | [], img => some img
  | seq :: rest, img =>
    if seq < startSeq then putSeqs pmAddr d startSeq endSeq rest img
    else if seq ≥ endSeq then some img
    else do
      let e ← recordAt d seq
      if e.type.isStoreSeries && e.svEntry.isSome then
        let img ← putStore pmAddr img e
        putSeqs pmAddr d startSeq endSeq rest img
      else putSeqs pmAddr d startSeq endSeq rest img

/-- Put the trace of an operation to the image.  The start is included, the end is not. -/
def putOpTraceToImg (img : Bytes) (op : OpTraceEntry) (startSeq endSeq : Int) : Option Bytes :=
  putSeqs op.pmAddr op.pmSeqEntryMap startSeq endSeq op.pmSortedStoreSeq img

/-- Write one aligned word of a store. -/
def putSample (pmAddr samplingAddr : Int) (img : Bytes) (e : TraceEntry) : Option Bytes :=
  let lower := if samplingAddr < e.addr then e.addr else samplingAddr
  let upper := samplingAddr + atomicWriteBytes
  let upper := if isAlignedBy upper atomicWriteBytes then upper
    else alignToFloor upper atomicWriteBytes
  let upper := if upper > e.addr + e.size ∨ upper < lower then e.addr + e.size else upper
  e.svEntry.bind fun data => doStoreDirect img (lower - pmAddr) (upper - pmAddr) data

/-- The sampled store of a plan, if it has one. -/
def sampledSeq (cp : CrashPlanEntry) : Option Int :=
  if cp.samplingType = .samplingNone then none else cp.samplingSeq

/-- What a plan does about one store. -/
def putCpSeq (op : OpTraceEntry) (cp : CrashPlanEntry) (img : Bytes) (seq : Int) : Option Bytes :=
  if seq < cp.startSeq then (recordAt op.pmSeqEntryMap seq).bind (putStore op.pmAddr img)
  else if sampledSeq cp = some seq then do
    let e ← recordAt op.pmSeqEntryMap seq
    let addr ← cp.samplingAddr
    putSample op.pmAddr addr img e
  else if seq ∈ cp.persistSeqs then (recordAt op.pmSeqEntryMap seq).bind (putStore op.pmAddr img)
  else some img

def putCpToImg (img : Bytes) (op : OpTraceEntry) (cp : CrashPlanEntry) : Option Bytes :=
  op.pmSortedStoreSeq.foldlM (putCpSeq op cp) img

/-- The stores an unsampled plan writes, in the order it writes them. -/
def writtenSeqs (op : OpTraceEntry) (cp : CrashPlanEntry) : List Int :=
  op.pmSortedStoreSeq.filter fun seq => seq < cp.startSeq ∨ seq ∈ cp.persistSeqs

theorem mem_writtenSeqs {op : OpTraceEntry} {cp : CrashPlanEntry} {seq : Int} :
    seq ∈ writtenSeqs op cp ↔
      seq ∈ op.pmSortedStoreSeq ∧ (seq < cp.startSeq ∨ seq ∈ cp.persistSeqs) := by
  simp [writtenSeqs]

/-- An unsampled plan writes these stores and nothing else. -/
theorem putCpToImg_eq_written (img : Bytes) (op : OpTraceEntry) {cp : CrashPlanEntry}
    (h : cp.samplingType = .samplingNone) :
    putCpToImg img op cp = (writtenSeqs op cp).foldlM
      (fun img seq => (recordAt op.pmSeqEntryMap seq).bind (putStore op.pmAddr img)) img := by
  rw [putCpToImg, writtenSeqs]
  induction op.pmSortedStoreSeq generalizing img with
  | nil => rfl
  | cons seq rest ih =>
    have hs : sampledSeq cp = none := by rw [sampledSeq, if_pos h]
    by_cases hw : seq < cp.startSeq ∨ seq ∈ cp.persistSeqs
    · have hput : putCpSeq op cp img seq =
          (recordAt op.pmSeqEntryMap seq).bind (putStore op.pmAddr img) := by
        rw [putCpSeq, hs]
        by_cases hlt : seq < cp.startSeq
        · rw [if_pos hlt]
        · rw [if_neg hlt, if_neg (by simp), if_pos (hw.resolve_left hlt)]
      rw [List.foldlM_cons, List.filter_cons_of_pos (by simpa using hw), List.foldlM_cons, hput]
      exact congrArg _ (funext fun img' => ih img')
    · rw [not_or] at hw
      have hput : putCpSeq op cp img seq = some img := by
        rw [putCpSeq, hs, if_neg hw.1, if_neg (by simp), if_neg hw.2]
      rw [List.foldlM_cons, List.filter_cons_of_neg (by simpa using hw), hput]
      exact ih img

end Image
end Silhouette
