import Silhouette.Trace.Entry
import Silhouette.Lib.Text

/-!
# The lines of a trace

`KernelTracing.c` prints a record with one of some fourteen format strings, and
`TraceEntry` reads it back by the positions of its items.  The two sides share nothing but
the text.
-/

namespace Silhouette
namespace Tracer

open Lib.Text Trace

/-! ## Printing -/

/-- Records with an address and a size. -/
inductive AccessKind where
  | asmXchg
  | cas
  | asmMemsetNT
  | load
  | store
  | xchg
  | rmw
  | memset
  | memTransLoad
  | memTransStore
  deriving DecidableEq, Repr

inductive FuncKind where
  | startFunc
  | endFunc
  | startBB
  deriving DecidableEq, Repr

inductive CallKind where
  | startCall
  | endCall
  deriving DecidableEq, Repr

inductive UAccessKind where
  | load
  | store
  | ntLoad
  | ntStore
  deriving DecidableEq, Repr

inductive StructKind where
  | pm
  | dram
  | unknown
  deriving DecidableEq, Repr

/-- What a trace function hands to `output_record` besides the sequence number. -/
inductive TraceRecord where
  | asmFlush (id src : Nat)
  | asmFence (id : Nat)
  | impFence (id : Nat)
  | access (kind : AccessKind) (id ptr size : Nat)
  | ukAsm (id : Nat) (caller fname : String) (line : Nat) (asm : String)
  | func (kind : FuncKind) (id ptr : Nat) (fn : String)
  | endBB (id ptr : Nat) (fn : String) (callId : Nat)
  | select (id flag : Nat)
  | call (kind : CallKind) (id : Nat) (caller callee fname : String) (line : Nat)
  | uaccess (kind : UAccessKind) (id src dst size : Nat)
  | daxDevInfo (id addr : Nat) (pages : Int)
  | centFlush (id ptr size : Nat)
  | structPtr (kind : StructKind) (id : Nat) (stname : String) (ptr idx size : Nat)
  | dbgStore (id : Nat) (stname : String) (ptr size : Nat)
  deriving DecidableEq, Repr

namespace TraceRecord

/-- The name printed in front of a record. -/
def tag : TraceRecord → String
  | asmFlush .. => "asmFlush"
  | asmFence .. => "asmFence"
  | impFence .. => "impFence"
  | access .asmXchg .. => "asmxchg"
  | access .cas .. => "cas"
  | access .asmMemsetNT .. => "asmmemsetnt"
  | access .load .. => "load"
  | access .store .. => "store"
  | access .xchg .. => "xchg"
  | access .rmw .. => "rmw"
  | access .memset .. => "memset"
  | access .memTransLoad .. => "memtransLoad"
  | access .memTransStore .. => "memtransStore"
  | ukAsm .. => "ukasm"
  | func .startFunc .. => "startFunc"
  | func .endFunc .. => "endFunc"
  | func .startBB .. => "startBB"
  | endBB .. => "endBB"
  | select .. => "select"
  | call .startCall .. => "startCall"
  | call .endCall .. => "endCall"
  | uaccess .load .. => "uaccessLoad"
  | uaccess .store .. => "uaccessStore"
  | uaccess .ntLoad .. => "uaccessNTLoad"
  | uaccess .ntStore .. => "uaccessNTStore"
  | daxDevInfo .. => "DaxDevInfo"
  | centFlush .. => "centflush"
  | structPtr .pm .. => "PMStructPtr"
  | structPtr .dram .. => "DRAMStructPtr"
  | structPtr .unknown .. => "UKStructPtr"
  | dbgStore .. => "dbgStore"

/-- The instruction printed with a record.  The record of the device has none. -/
def printedId : TraceRecord → Nat
  | asmFlush id .. | asmFence id | impFence id | access _ id .. | ukAsm id .. | func _ id ..
  | endBB id .. | select id .. | call _ id .. | uaccess _ id .. | centFlush id ..
  | structPtr _ id .. | dbgStore id .. => id
  | daxDevInfo .. => 0

/-- `nvmm_virt_size`, a signed 64-bit number of bytes. -/
def daxSize (pages : Int) : Int := Int.bmod (pages * 4096) (2 ^ 64)

/-- `nvmm_virt_end_addr` -/
def daxEnd (addr : Nat) (pages : Int) : Nat := ((addr + daxSize pages) % 2 ^ 64).toNat

def num (n : Nat) : List Char := padLeft 8 ' ' (decimal n)

/-- What follows the instruction. -/
def details : TraceRecord → List Char
  | asmFlush _ src => lit ", ptr: " ++ (hex src ++ lit ".\n")
  | asmFence _ => lit ".\n"
  | impFence _ => lit ".\n"
  | access _ _ ptr size =>
    lit ", ptr: " ++ (hex ptr ++ (lit ", size: " ++ (num size ++ lit ".\n")))
  | ukAsm _ caller fname line asm =>
    lit ", caller: " ++ (caller.toList ++ (lit ", fname: " ++ (fname.toList ++
      (lit ", line: " ++ (decimal line ++ (lit ", asm: " ++ (asm.toList ++
        lit ".\n")))))))
  | func _ _ ptr fn => lit ", ptr: " ++ (hex ptr ++ (lit ", fn: " ++ (fn.toList ++
      lit ".\n")))
  | endBB _ ptr fn callId => lit ", ptr: " ++ (hex ptr ++ (lit ", fn: " ++ (fn.toList ++
      (lit ", call_id: " ++ (num callId ++ lit ".\n")))))
  | select _ flag => lit ", flag: " ++ (decimal flag ++ lit ".\n")
  | call _ _ caller callee fname line =>
    lit ", caller: " ++ (caller.toList ++ (lit ", callee: " ++ (callee.toList ++
      (lit ", fname: " ++ (fname.toList ++ (lit ", line: " ++ (decimal line ++
        lit ".\n")))))))
  | uaccess _ _ src dst size =>
    lit ", from: " ++ (hex src ++ (lit ", to: " ++ (hex dst ++ (lit ", size: " ++
      (num size ++ lit ".\n")))))
  | daxDevInfo _ addr pages =>
    lit ", " ++ (hex addr ++ (lit ", " ++ (hex (daxEnd addr pages) ++ (lit ", " ++
      (decimalInt ((daxSize pages).tdiv 1048576) ++ lit ".\n")))))
  | centFlush _ ptr size =>
    lit ", ptr: " ++ (hex ptr ++ (lit ", size: " ++ (num size ++ lit ".\n")))
  | structPtr _ _ stname ptr idx size =>
    lit ", type: " ++ (padRight 15 stname.toList ++ (lit ", ptr: " ++ (hex ptr ++
      (lit ", idx: " ++ (padLeft 4 ' ' (decimal idx) ++ (lit ", size: " ++ (num size ++
        lit ".\n")))))))
  | dbgStore _ stname ptr size =>
    lit ", type: " ++ (padRight 15 stname.toList ++ (lit ", ptr: " ++ (hex ptr ++
      (lit ", size: " ++ (num size ++ lit ".\n")))))

/-- The text of a record before it goes to the buffer. -/
def text (r : TraceRecord) (seq : Nat) (pid : Int) : List Char :=
  num seq ++ (lit ", " ++ (padLeft 8 ' ' (decimalInt pid) ++ (lit ", " ++
    (padRight 15 r.tag.toList ++ (lit ", id: " ++ (num r.printedId ++ r.details))))))

end TraceRecord

/-- `output_record`: a buffer of 512 bytes, one for each character.  A longer text is written
from behind the buffer. -/
def outputRecord (seq : Nat) (pid : Int) (r : TraceRecord) : Option (List Char) :=
  let text := r.text seq pid
  if text.length < 512 then some text
  else if text.length = 512 then some (text.take 511 ++ ['\n'])
  else none

/-! ## The trace functions -/

/-- What `trace_dax_access` remembers of the device. -/
structure Nvmm where
  start : Nat
  stop : Nat
  size : Int

/-- Is the address in NVMM space? -/
def checkDestAddrNvmm (m : Nvmm) (ptr size : Nat) : Bool :=
  0 < m.start && m.start ≤ ptr && (ptr + size) % 2 ^ 64 ≤ m.stop

def isUserSpaceAddress (addr : Nat) : Bool := addr < 0x8000000000000000

def maxTraceSeqNum : Nat := 2000000000000

/-- `TRACE_CHECK_SEQ_RETURN` -/
def checkSeq {α : Type} (seq : Nat) (out : List α) : List α :=
  if seq ≥ maxTraceSeqNum then [] else out

theorem mem_checkSeq {α : Type} {seq : Nat} {out : List α} {x : α} :
    x ∈ checkSeq seq out ↔ seq < maxTraceSeqNum ∧ x ∈ out := by
  rw [checkSeq]
  split_ifs with h
  · simp [Nat.not_lt.mpr h]
  · simp [Nat.not_le.mp h]

/-- The calls that the instrumentation inserts. -/
inductive TraceCall where
  | inlineAsmFlush (id src : Nat)
  | inlineAsmFence (id : Nat)
  | implicitFence (id : Nat)
  | inlineAsmXchglq (id ptr size : Nat)
  | inlineAsmCas (id ptr size : Nat)
  | inlineAsmMemsetnt (id ptr size : Nat)
  | inlineAsmUnknown (id : Nat) (callerName fname : String) (line : Nat) (asmStr : String)
  | startFunc (id funcPtr : Nat) (funcName : String)
  | endFunc (id funcPtr : Nat) (funcName : String)
  | startBb (id funcPtr : Nat) (funcName : String)
  | endBb (id funcPtr : Nat) (funcName : String)
  | loadInst (id ptr size : Nat)
  | storeInst (id ptr size : Nat)
  | fenceInst (id : Nat)
  | xchgInst (id ptr size : Nat)
  | rmwInst (id ptr size : Nat)
  | memsetInst (id ptr size : Nat)
  | memtransferInst (id dest src size : Nat)
  | selectInst (id flag : Nat)
  | startCalls (id : Nat) (callerName calleeName fname : String) (line : Nat)
  | endCalls (id : Nat) (callerName calleeName fname : String) (line : Nat)
  | uaccessCalls (id dst src size : Nat)
  | uaccessNtCalls (id dst src size : Nat)
  | daxAccess (id addr : Nat) (size : Int)
  | centralizedFlush (id ptr size : Nat)
  | pmStructPtrInst (id ptr idx size : Nat) (stname : String)
  | dramStructPtrInst (id ptr idx size : Nat) (stname : String)
  | unknownStructPtrInst (id ptr idx size : Nat) (stname : String)
  | dbgVarStore (id ptr : Nat) (stname : String) (size : Nat)

/-- The records a call writes while tracing is on, with their sequence numbers. -/
def TraceCall.records (m : Nvmm) (seq : Nat) : TraceCall → List (Nat × TraceRecord)
  | inlineAsmFlush id src => [(seq, .asmFlush id src)]
  | inlineAsmFence id => [(seq, .asmFence id)]
  | implicitFence id => [(seq, .impFence id)]
  | inlineAsmXchglq id ptr size => checkSeq seq [(seq, .access .asmXchg id ptr size)]
  | inlineAsmCas id ptr size => checkSeq seq [(seq, .access .cas id ptr size)]
  | inlineAsmMemsetnt id ptr size => checkSeq seq [(seq, .access .asmMemsetNT id ptr size)]
  | inlineAsmUnknown id callerName fname line asmStr =>
    [(seq, .ukAsm id callerName fname line
      (if asmStr.length < 400 then asmStr else "TooLong"))]
  | startFunc id funcPtr funcName => [(seq, .func .startFunc id funcPtr funcName)]
  | endFunc id funcPtr funcName => [(seq, .func .endFunc id funcPtr funcName)]
  | startBb id funcPtr funcName => [(seq, .func .startBB id funcPtr funcName)]
  | endBb id funcPtr funcName => [(seq, .endBB id funcPtr funcName 0)]
  | loadInst id ptr size => [(seq, .access .load id ptr size)]
  | storeInst id ptr size => checkSeq seq [(seq, .access .store id ptr size)]
  | fenceInst id => [(seq, .asmFence id)]
  | xchgInst id ptr size => checkSeq seq [(seq, .access .xchg id ptr size)]
  | rmwInst id ptr size => checkSeq seq [(seq, .access .rmw id ptr size)]
  | memsetInst id ptr size => checkSeq seq [(seq, .access .memset id ptr size)]
  | memtransferInst id dest src size => checkSeq seq
    [(seq, .access .memTransLoad id src size), (seq + 1, .access .memTransStore id dest size)]
  | selectInst id flag => [(seq, .select id flag)]
  | startCalls id callerName calleeName fname line =>
    [(seq, .call .startCall id callerName calleeName fname line)]
  | endCalls id callerName calleeName fname line =>
    [(seq, .call .endCall id callerName calleeName fname line)]
  | uaccessCalls id dst src size => checkSeq seq (if isUserSpaceAddress dst then [] else
    [(seq, .uaccess .load id src dst size), (seq + 1, .uaccess .store id src dst size)])
  | uaccessNtCalls id dst src size => checkSeq seq (if isUserSpaceAddress dst then [] else
    [(seq, .uaccess .ntLoad id src dst size), (seq + 1, .uaccess .ntStore id src dst size)])
  | daxAccess id addr size => [(seq, .daxDevInfo id addr size)]
  | centralizedFlush id ptr size => checkSeq seq [(seq, .centFlush id ptr size)]
  | pmStructPtrInst id ptr idx size stname => [(seq, .structPtr .pm id stname ptr idx size)]
  | dramStructPtrInst id ptr idx size stname => [(seq, .structPtr .dram id stname ptr idx size)]
  | unknownStructPtrInst id ptr idx size stname =>
    if m.start ≠ 0 ∧ m.stop ≠ 0 ∧ m.size ≠ 0 then
      [(seq, .structPtr .unknown id stname ptr idx size)]
    else if checkDestAddrNvmm m ptr size then [(seq, .structPtr .pm id stname ptr idx size)]
    else [(seq, .structPtr .dram id stname ptr idx size)]
  | dbgVarStore id ptr stname size => [(seq, .dbgStore id stname ptr size)]

/-! ## Reading -/

/-- The name of a type in the trace file. -/
def typeString : TraceType → String
  | .startFn => "startFunc"
  | .endFn => "endFunc"
  | .startBB => "startBB"
  | .endBB => "endBB"
  | .load => "load"
  | .store => "store"
  | .fence => "fence"
  | .xchg => "xchg"
  | .rmw => "rmw"
  | .memset => "memset"
  | .memTransLoad => "memtransLoad"
  | .memTransStore => "memtransStore"
  | .asmFlush => "asmFlush"
  | .asmFence => "asmFence"
  | .asmXchg => "asmxchg"
  | .asmCAS => "cas"
  | .asmMemsetNT => "asmmemsetnt"
  | .ukAsm => "ukasm"
  | .select => "select"
  | .startCall => "startCall"
  | .endCall => "endCall"
  | .uAccessLoad => "uaccessLoad"
  | .uAccessStore => "uaccessStore"
  | .uAccessLoadNT => "uaccessNTLoad"
  | .uAccessStoreNT => "uaccessNTStore"
  | .daxDevInfo => "DaxDevInfo"
  | .pmStPtr => "PMStructPtr"
  | .dramStPtr => "DRAMStructPtr"
  | .ukStPtr => "UKStructPtr"
  | .dbgStore => "dbgStore"
  | .centFlush => "centflush"
  | .impFence => "impFence"

/-- In the order the source lists them. -/
def allTypes : List TraceType :=
  [.startFn, .endFn, .startBB, .endBB, .load, .store, .fence, .xchg, .rmw, .memset, .memTransLoad,
    .memTransStore, .asmFlush, .asmFence, .asmXchg, .asmCAS, .asmMemsetNT, .ukAsm, .select,
    .startCall, .endCall, .uAccessLoad, .uAccessStore, .uAccessLoadNT, .uAccessStoreNT,
    .daxDevInfo, .pmStPtr, .dramStPtr, .ukStPtr, .dbgStore, .centFlush, .impFence]

/-- `TraceType(name)`: an unknown name ends the program. -/
def typeOfString (name : List Char) : Option TraceType :=
  allTypes.find? fun t => (typeString t).toList = name

def isValidTraceLine (line : List Char) : Bool := "id:".toList <:+: line

/-- The items of a line, without commas and dots. -/
def lineItems (line : List Char) : List (List Char) :=
  (joinWords (words (line.map fun c => if c = ',' ∨ c = '.' then ' ' else c))).splitOn ' '

/-- Where the fields of a record stand among the items of its line.  `none` is a missing
item, a malformed number or a failed assertion. -/
def parseDetails (items : List (List Char)) (e : TraceEntry) : Option TraceEntry :=
  let str (i : Nat) : Option String := items[i]?.map String.ofList
  let int (i : Nat) : Option Int := items[i]?.bind readInt
  let int0 (i : Nat) : Option Int := items[i]?.bind readInt0
  match e.type with
  | .startFn | .endFn | .startBB | .endBB => do
    return { e with addr := ← int0 6, fnName := ← str 8 }
  | .startCall | .endCall => do return { e with caller := ← str 6, callee := ← str 8 }
  | .ukAsm => do return { e with caller := ← str 7 }
  | .dramStPtr | .pmStPtr | .ukStPtr => do
    return { e with stName := ← str 6, addr := ← int0 8, size := ← int 12 }
  | .dbgStore => do return { e with stName := ← str 6, addr := ← int0 8, size := ← int 10 }
  | .asmMemsetNT | .memset | .store | .load | .memTransStore | .memTransLoad | .asmXchg | .xchg
  | .rmw | .asmCAS => do return { e with addr := ← int0 6, size := ← int 8 }
  | .asmFlush => do
    return { e with addr := alignToFloor (← int0 6) cachelineBytes, size := cachelineBytes }
  | .asmFence | .impFence => some e
  | .uAccessStore | .uAccessStoreNT => do return { e with addr := ← int0 8, size := ← int 10 }
  | .uAccessLoad | .uAccessLoadNT => do return { e with addr := ← int0 6, size := ← int 10 }
  | .select => some e
  | .daxDevInfo => do
    let addr ← int0 5
    let endaddr ← int0 6
    let size := (← int 7) * 1048576
    if addr + size = endaddr then return { e with addr := addr, size := size } else none
  | .centFlush => do return { e with addr := ← int0 6, size := ← int 8 }
  | .fence => none

/-- `TraceEntry(line)` -/
def parseLine (line : List Char) : Option TraceEntry :=
  if isValidTraceLine line then do
    let items := lineItems line
    let seq ← items[0]?.bind readInt
    let pid ← items[1]?.bind readInt
    let instid ← items[4]?.bind readInt
    let type ← items[2]?.bind typeOfString
    parseDetails items
      { type := type, seq := seq, pid := pid, instid := instid, addr := -1, size := -1 }
  else none

/-! ## What a record says -/

namespace TraceRecord

def type : TraceRecord → TraceType
  | asmFlush .. => .asmFlush
  | asmFence .. => .asmFence
  | impFence .. => .impFence
  | access .asmXchg .. => .asmXchg
  | access .cas .. => .asmCAS
  | access .asmMemsetNT .. => .asmMemsetNT
  | access .load .. => .load
  | access .store .. => .store
  | access .xchg .. => .xchg
  | access .rmw .. => .rmw
  | access .memset .. => .memset
  | access .memTransLoad .. => .memTransLoad
  | access .memTransStore .. => .memTransStore
  | ukAsm .. => .ukAsm
  | func .startFunc .. => .startFn
  | func .endFunc .. => .endFn
  | func .startBB .. => .startBB
  | endBB .. => .endBB
  | select .. => .select
  | call .startCall .. => .startCall
  | call .endCall .. => .endCall
  | uaccess .load .. => .uAccessLoad
  | uaccess .store .. => .uAccessStore
  | uaccess .ntLoad .. => .uAccessLoadNT
  | uaccess .ntStore .. => .uAccessStoreNT
  | daxDevInfo .. => .daxDevInfo
  | centFlush .. => .centFlush
  | structPtr .pm .. => .pmStPtr
  | structPtr .dram .. => .dramStPtr
  | structPtr .unknown .. => .ukStPtr
  | dbgStore .. => .dbgStore

/-- The instruction the record is about. -/
def instid : TraceRecord → Nat
  | daxDevInfo id .. => id
  | r => r.printedId

def base (r : TraceRecord) (seq : Nat) (pid : Int) : TraceEntry :=
  { type := r.type, seq := seq, pid := pid, instid := r.instid, addr := -1, size := -1 }

/-- The entry that has the fields of the record.  A flush is about the line of its address;
a copy loads from one address and stores to the other. -/
def entry (r : TraceRecord) (seq : Nat) (pid : Int) : TraceEntry :=
  let e := r.base seq pid
  match r with
  | asmFlush _ src => { e with addr := alignToFloor src cachelineBytes, size := cachelineBytes }
  | asmFence _ | impFence _ | select .. => e
  | access _ _ ptr size | centFlush _ ptr size => { e with addr := ptr, size := size }
  | ukAsm _ caller .. => { e with caller := caller }
  | func _ _ ptr fn | endBB _ ptr fn _ => { e with addr := ptr, fnName := fn }
  | call _ _ caller callee .. => { e with caller := caller, callee := callee }
  | uaccess .load _ src _ size | uaccess .ntLoad _ src _ size =>
    { e with addr := src, size := size }
  | uaccess .store _ _ dst size | uaccess .ntStore _ _ dst size =>
    { e with addr := dst, size := size }
  | daxDevInfo _ addr pages => { e with addr := addr, size := daxSize pages }
  | structPtr _ _ stname ptr _ size | dbgStore _ stname ptr size =>
    { e with stName := stname, addr := ptr, size := size }

end TraceRecord

/-- A name made of letters, digits and underscores. -/
def IsIdentifier (s : String) : Prop := s.toList ≠ [] ∧ ∀ c ∈ s.toList, c.isAlphanum ∨ c = '_'

/-- The names a record is about are identifiers.  File names and assembly text are not. -/
def TraceRecord.Named : TraceRecord → Prop
  | .ukAsm _ caller .. => IsIdentifier caller
  | .func _ _ _ fn | .endBB _ _ fn _ => IsIdentifier fn
  | .call _ _ caller callee .. => IsIdentifier caller ∧ IsIdentifier callee
  | .structPtr _ _ stname .. | .dbgStore _ stname .. => IsIdentifier stname
  | _ => True

/-- The line of a record is accepted and read as what the record says. -/
def RoundTrips (seq : Nat) (pid : Int) (r : TraceRecord) : Prop :=
  ∃ line, outputRecord seq pid r = some line ∧ isValidTraceLine line = true ∧
    parseLine line = some (r.entry seq pid)

end Tracer
end Silhouette
