import Silhouette.Cache.AtomicOp

/-!
# Trace records

`TraceType`, `TraceEntry` and the normalisation of `get_entry_list_from_line`, which
lets a non-temporal store or a compare-and-swap be followed by a flush of the lines it
touches.  The fields of a `TraceEntry` that later passes fill in for reports are kept
as the text those reports print.
-/

namespace Silhouette
namespace Trace

/-- Types of trace entries. -/
inductive TraceType where
  | startFn
  | endFn
  | startBB
  | endBB
  | load
  | store
  | fence
  | xchg
  | rmw
  | memset
  | memTransLoad
  | memTransStore
  | asmFlush
  | asmFence
  | asmXchg
  | asmCAS
  | asmMemsetNT
  | ukAsm
  | select
  | startCall
  | endCall
  | uAccessLoad
  | uAccessStore
  | uAccessLoadNT
  | uAccessStoreNT
  | daxDevInfo
  | pmStPtr
  | dramStPtr
  | ukStPtr
  | dbgStore
  | centFlush
  | impFence
  deriving DecidableEq, Repr

namespace TraceType

def isLoadSeries (t : TraceType) : Bool :=
  t ∈ [load, memTransLoad, uAccessLoad, uAccessLoadNT]

def isStoreSeries (t : TraceType) : Bool :=
  t ∈ [store, uAccessStore, asmMemsetNT, memset, memTransStore, uAccessStoreNT, asmXchg, xchg,
    rmw, asmCAS]

def isFlushTy (t : TraceType) : Bool := t = asmFlush

def isFenceTy (t : TraceType) : Bool := t ∈ [asmFence, fence, impFence]

def isImpFenceTy (t : TraceType) : Bool := t = impFence

/-- Non-temporal stores. -/
def isStoreAndFlushTy (t : TraceType) : Bool := t ∈ [asmMemsetNT, uAccessStoreNT]

def isCASTy (t : TraceType) : Bool := t = asmCAS

def isMemset (t : TraceType) : Bool := t ∈ [memset, asmMemsetNT]

def isMemTransLoad (t : TraceType) : Bool := t ∈ [memTransLoad, uAccessLoad, uAccessLoadNT]

def isMemTransStore (t : TraceType) : Bool := t ∈ [memTransStore, uAccessStore, uAccessStoreNT]

/-- Records of a pointer to a struct. -/
def isStructInfoSeries (t : TraceType) : Bool := t ∈ [pmStPtr, dramStPtr, ukStPtr, dbgStore]

/-- The kinds the conversion to atomic operations tells apart exclude each other. -/
theorem isStoreSeries_cases {t : TraceType} (h : t.isStoreSeries = true) :
    t.isFlushTy = false ∧ t.isFenceTy = false ∧ t.isLoadSeries = false := by
  cases t <;> revert h <;> decide

end TraceType

/-- One trace record. -/
structure TraceEntry where
  type : TraceType
  seq : Int
  pid : Int
  instid : Int
  addr : Int
  size : Int
  fnName : String := ""
  caller : String := ""
  callee : String := ""
  stName : String := ""
  /-- The bytes stored, when the value file has them. -/
  svEntry : Option (List UInt8) := none
  stinfoMatch : String := "None"
  varList : String := "[]"
  srcEntry : String := "None"
  callPath : String := "[]"
  deriving DecidableEq

namespace TraceEntry

/-- A record of process 0 with the fields the analyses read. -/
def plain (type : TraceType) (seq addr size : Int) : TraceEntry :=
  { type := type
    seq := seq
    pid := 0
    instid := 0
    addr := addr
    size := size
    svEntry := some (List.replicate size.toNat 1) }

def toResultStr (e : TraceEntry) : String :=
  "seq: " ++ toString e.seq ++ ", instid: " ++ toString e.instid ++ ", struct: " ++ e.stinfoMatch ++
    ", vars: " ++ e.varList ++ ", src: " ++ e.srcEntry ++ ", call path: " ++ e.callPath

def isPairFuncEntry (e1 e2 : TraceEntry) : Bool :=
  (e1.type = .startFn ∧ e2.type = .endFn ∨ e1.type = .endFn ∧ e2.type = .startFn) ∧
    e1.pid = e2.pid ∧ e1.fnName = e2.fnName ∧ e1.addr = e2.addr

/-- The flush that goes with a store that also flushes: the lines its bytes are in. -/
def flushOf (e : TraceEntry) : TraceEntry :=
  let lo := alignToFloor e.addr cachelineBytes
  let hi := alignToCeil (e.addr + e.size - 1) cachelineBytes
  { e with type := .asmFlush, addr := lo, size := hi - lo }

/-- The sanitised records of one line of the trace file. -/
def getEntryList (e : TraceEntry) : List TraceEntry :=
  if e.type.isStoreAndFlushTy || e.type.isCASTy then [e, e.flushOf] else [e]

theorem mem_getEntryList {e x : TraceEntry} :
    x ∈ e.getEntryList ↔
      x = e ∨ (e.type.isStoreAndFlushTy || e.type.isCASTy) = true ∧ x = e.flushOf := by
  rw [getEntryList]
  by_cases h : (e.type.isStoreAndFlushTy || e.type.isCASTy) = true
  · simp [h]
  · simp [h]

theorem head?_getEntryList (e : TraceEntry) : e.getEntryList.head? = some e := by
  rw [getEntryList]
  by_cases h : (e.type.isStoreAndFlushTy || e.type.isCASTy) = true
  · rw [if_pos h]; rfl
  · rw [if_neg h]; rfl

theorem seq_of_mem_getEntryList {e x : TraceEntry} (h : x ∈ e.getEntryList) : x.seq = e.seq := by
  rcases mem_getEntryList.mp h with rfl | ⟨-, rfl⟩
  · rfl
  · rfl

end TraceEntry

/-! ## Persistent memory -/

/-- The upper bound is included. -/
def isPmAddr (addr pmAddr pmSize : Int) : Bool := pmAddr ≤ addr ∧ addr ≤ pmAddr + pmSize

def isPmEntry (e : TraceEntry) (pmAddr pmSize : Int) : Bool :=
  if e.type.isFlushTy || e.type.isFenceTy || e.type.isImpFenceTy then true
  else if e.type.isStoreSeries || e.type.isLoadSeries then
    pmAddr ≤ e.addr ∧ e.addr + e.size ≤ pmAddr + pmSize
  else false

end Trace
end Silhouette
