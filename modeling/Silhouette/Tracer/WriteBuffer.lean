import Silhouette.Lib.Machine
import Silhouette.Lib.Ranges
import Mathlib.Data.List.Pairwise

/-!
# The buffer of trace records

`output_record` writes a record to the trace file, or keeps it in a list when it must not sleep.
The next call that may sleep writes the whole list first.  Calls run at the same time: each
critical section is one step, and so is the end of a write to the file.

The offset in the file is reserved before the write, under a lock of its own.
-/

namespace Silhouette
namespace Tracer
namespace WriteBuffer

open Lib

/-- The text of a record; it fits the buffer on the stack. -/
def Record : Type := { l : List UInt8 // l.length < 512 }

/-- Where a call of `output_record` stands. -/
inductive Pc where
  | add
  | listEmpty
  | writeAll
  | reserve
  | kernelWrite (off : Nat)
  | done
  deriving DecidableEq

/-- The call has given its record away. -/
def Pc.handed : Pc → Bool
  | kernelWrite _ | done => true
  | _ => false

structure Call where
  data : Record
  pc : Pc

/-- A range of the file that `write_file` has taken, for the record of a call. -/
structure WriteRange where
  call : Nat
  off : Nat
  data : List UInt8

def WriteRange.range (w : WriteRange) : Nat × Nat := (w.off, w.data.length)

structure TraceState where
  offset : Nat := 0
  /-- The ranges in the order they were taken. -/
  writes : List WriteRange := []
  /-- The bytes of the file that are written. -/
  contents : Nat → Option UInt8 := fun _ => none
  /-- `trace_wbuf_header`, with the call that each node is from. -/
  wbuf : List (Nat × List UInt8) := []
  calls : List Call := []

namespace TraceState

def goto (s : TraceState) (id : Nat) (c : Call) (pc : Pc) : TraceState :=
  { s with calls := s.calls.set id { c with pc := pc } }

/-- The critical section of `write_file`. -/
def reserve (s : TraceState) (call : Nat) (data : List UInt8) : TraceState :=
  { s with
    offset := s.offset + data.length
    writes := s.writes ++ [⟨call, s.offset, data⟩] }

def kernelWrite (s : TraceState) (off : Nat) (data : List UInt8) : TraceState :=
  { s with contents := fun x =>
      if off ≤ x ∧ x < off + data.length then data[x - off]? else s.contents x }

/-- `write_file` without another call in between. -/
def writeFile (s : TraceState) (node : Nat × List UInt8) : TraceState :=
  (s.reserve node.1 node.2).kernelWrite s.offset node.2

/-- `trace_wbuf_add` -/
def traceWbufAdd (s : TraceState) (call : Nat) (src : List UInt8) : TraceState :=
  { s with wbuf := s.wbuf ++ [(call, src.take 512)] }

/-- The critical section of `trace_wbuf_write_all`. -/
def traceWbufWriteAll (s : TraceState) : TraceState :=
  { s.wbuf.foldl writeFile s with wbuf := [] }

/-- The next step of a call.  The test for an empty list is made without the lock. -/
def stepCall (s : TraceState) (id : Nat) (c : Call) : Option TraceState :=
  match c.pc with
  | .add => some ((s.traceWbufAdd id c.data.1).goto id c .done)
  | .listEmpty => some (s.goto id c (if s.wbuf = [] then .reserve else .writeAll))
  | .writeAll => some (s.traceWbufWriteAll.goto id c .reserve)
  | .reserve => some ((s.reserve id c.data.1).goto id c (.kernelWrite s.offset))
  | .kernelWrite off => some ((s.kernelWrite off c.data.1).goto id c .done)
  | .done => none

end TraceState

/-- A new call in an atomic context or not, or the next step of one. -/
inductive Action where
  | outputRecord (atomic : Bool) (data : Record)
  | run (id : Nat)

def TraceState.step (s : TraceState) : Action → Option TraceState
  | .outputRecord atomic data =>
    some { s with calls := s.calls ++ [⟨data, if atomic then .add else .listEmpty⟩] }
  | .run id =>
    match s.calls[id]? with
    | none => none
    | some c => s.stepCall id c

def machine : Machine TraceState Action := ⟨{}, TraceState.step⟩

/-! ## What holds at every point -/

namespace TraceState

/-- The write of the range to the file has not finished. -/
def Pending (s : TraceState) (w : WriteRange) : Prop :=
  ∃ c, s.calls[w.call]? = some c ∧ c.pc = .kernelWrite w.off

/-- How often the record of a call is in the file or in the list. -/
def copies (s : TraceState) (id : Nat) : Nat :=
  (s.writes.countP fun w => w.call = id) + s.wbuf.countP fun n => n.1 = id

structure Inv (s : TraceState) : Prop where
  consecutive : Consecutive 0 (s.writes.map WriteRange.range) s.offset
  copies : ∀ id c, s.calls[id]? = some c → s.copies id = if c.pc.handed then 1 else 0
  range : ∀ w ∈ s.writes, ∃ c, s.calls[w.call]? = some c ∧ w.data = c.data.1 ∧
    (c.pc = .kernelWrite w.off ∨ c.pc = .done)
  node : ∀ n ∈ s.wbuf, ∃ c, s.calls[n.1]? = some c ∧ n.2 = c.data.1 ∧ c.pc = .done
  contents : ∀ x b, s.contents x = some b ↔
    ∃ w ∈ s.writes, ¬ s.Pending w ∧ w.off ≤ x ∧ w.data[x - w.off]? = some b

section

variable {s : TraceState} {id : Nat} {c : Call}

theorem getElem?_goto (hc : s.calls[id]? = some c) (pc : Pc) (j : Nat) :
    (s.goto id c pc).calls[j]? = if j = id then some { c with pc := pc } else s.calls[j]? := by
  obtain ⟨hlt, -⟩ := List.getElem?_eq_some_iff.mp hc
  rw [goto, List.getElem?_set, if_pos hlt]
  by_cases hj : j = id
  · rw [if_pos hj.symm, if_pos hj]
  · rw [if_neg (Ne.symm hj), if_neg hj]

theorem call_ne_of_copies (h : s.copies id = 0) :
    (∀ w ∈ s.writes, w.call ≠ id) ∧ ∀ n ∈ s.wbuf, n.1 ≠ id := by
  obtain ⟨hw, hn⟩ := Nat.add_eq_zero_iff.mp h
  rw [List.countP_eq_zero] at hw hn
  exact ⟨fun w hmem heq => hw w hmem (decide_eq_true heq),
    fun n hmem heq => hn n hmem (decide_eq_true heq)⟩

/-- A call that stays in front of its critical section, and new calls, change nothing. -/
theorem Inv.calls (h : s.Inv) {calls : List Call}
    (hold : ∀ (j : Nat) (c : Call), s.calls[j]? = some c → ∃ c' : Call, calls[j]? = some c' ∧
      c'.data = c.data ∧ (c'.pc = c.pc ∨ c.pc.handed = false ∧ c'.pc.handed = false))
    (hnew : ∀ (j : Nat) (c' : Call), s.calls[j]? = none → calls[j]? = some c' →
      c'.pc.handed = false) :
    Inv { s with calls := calls } := by
  have hpc : ∀ (j : Nat) (c : Call), s.calls[j]? = some c → c.pc.handed = true →
      ∃ c' : Call, calls[j]? = some c' ∧ c'.data = c.data ∧ c'.pc = c.pc := by
    intro j c hc hhanded
    obtain ⟨c', hc', hdata, hpc | ⟨hf, -⟩⟩ := hold j c hc
    · exact ⟨c', hc', hdata, hpc⟩
    · rw [hf] at hhanded
      cases hhanded
  have hpending : ∀ w ∈ s.writes, Pending { s with calls := calls } w ↔ s.Pending w := by
    intro w hw
    obtain ⟨c, hc, -, hcpc⟩ := h.range w hw
    have hhanded : c.pc.handed = true := by rcases hcpc with hcpc | hcpc <;> rw [hcpc] <;> rfl
    obtain ⟨c', hc', -, hpc'⟩ := hpc _ c hc hhanded
    simp only [Pending, hc, hc', Option.some.injEq, exists_eq_left', hpc']
  refine ⟨h.consecutive, fun j c' hc' => ?_, fun w hw => ?_, fun n hn => ?_, fun x b => ?_⟩
  · have hcopies : TraceState.copies { s with calls := calls } j = s.copies j := rfl
    rw [hcopies]
    cases hc : s.calls[j]? with
    | none =>
      rw [hnew j c' hc hc', if_neg Bool.false_ne_true, TraceState.copies, Nat.add_eq_zero_iff,
        List.countP_eq_zero, List.countP_eq_zero]
      refine ⟨fun w hw hj => ?_, fun n hn hj => ?_⟩
      · obtain ⟨c, hc₁, -⟩ := h.range w hw
        rw [of_decide_eq_true hj, hc] at hc₁
        cases hc₁
      · obtain ⟨c, hc₁, -⟩ := h.node n hn
        rw [of_decide_eq_true hj, hc] at hc₁
        cases hc₁
    | some c =>
      obtain ⟨c₁, hc₁, -, hpc₁⟩ := hold j c hc
      rw [hc'] at hc₁
      rw [h.copies j c hc, Option.some.inj hc₁]
      rcases hpc₁ with hpc₁ | ⟨h₁, h₂⟩
      · rw [hpc₁]
      · rw [h₁, h₂]
  · obtain ⟨c, hc, hdata, hcpc⟩ := h.range w hw
    have hhanded : c.pc.handed = true := by rcases hcpc with hcpc | hcpc <;> rw [hcpc] <;> rfl
    obtain ⟨c', hc', hdata', hpc'⟩ := hpc _ c hc hhanded
    exact ⟨c', hc', hdata.trans (congrArg Subtype.val hdata'.symm), hpc' ▸ hcpc⟩
  · obtain ⟨c, hc, hdata, hcpc⟩ := h.node n hn
    obtain ⟨c', hc', hdata', hpc'⟩ := hpc _ c hc (by rw [hcpc]; rfl)
    exact ⟨c', hc', hdata.trans (congrArg Subtype.val hdata'.symm), hpc'.trans hcpc⟩
  · rw [h.contents x b]
    refine exists_congr fun w => and_congr_right fun hw => ?_
    rw [hpending w hw]

theorem Inv.goto (h : s.Inv) (hc : s.calls[id]? = some c) (hpc : c.pc.handed = false) {pc : Pc}
    (hpc' : pc.handed = false) : (s.goto id c pc).Inv := by
  refine h.calls (fun j c₁ hc₁ => ?_) fun j c' hnone hsome => ?_
  · have hget := getElem?_goto hc pc j
    by_cases hj : j = id
    · subst hj
      obtain rfl : c = c₁ := Option.some.inj (hc.symm.trans hc₁)
      rw [if_pos rfl] at hget
      exact ⟨_, hget, rfl, .inr ⟨hpc, hpc'⟩⟩
    · rw [if_neg hj, hc₁] at hget
      exact ⟨c₁, hget, rfl, .inl rfl⟩
  · have hget := getElem?_goto hc pc j
    by_cases hj : j = id
    · rw [hj, hc] at hnone
      cases hnone
    · rw [if_neg hj, hnone] at hget
      exact absurd (hget.symm.trans hsome) (by simp)

/-- A call whose record is nowhere yet gives it away and moves on. -/
theorem copies_goto (hc : s.calls[id]? = some c) (hpc : c.pc.handed = false) (h : s.Inv) {pc : Pc}
    (hpc' : pc.handed = true) {t : TraceState} (hcalls : t.calls = (s.goto id c pc).calls)
    (hcopies : ∀ j, t.copies j = s.copies j + if j = id then 1 else 0) (j : Nat) (c' : Call)
    (hc' : t.calls[j]? = some c') : t.copies j = if c'.pc.handed then 1 else 0 := by
  rw [hcalls, getElem?_goto hc] at hc'
  rw [hcopies]
  by_cases hj : j = id
  · rw [if_pos hj] at hc'
    rw [hj, h.copies id c hc, hpc, ← Option.some.inj hc']
    simp [hpc']
  · rw [if_neg hj] at hc'
    rw [if_neg hj, Nat.add_zero, h.copies j c' hc']

theorem call_ne_of_pc (h : s.Inv) (hc : s.calls[id]? = some c) (hpc : c.pc.handed = false) :
    (∀ w ∈ s.writes, w.call ≠ id) ∧ ∀ n ∈ s.wbuf, n.1 ≠ id := by
  refine call_ne_of_copies ?_
  rw [h.copies id c hc, hpc, if_neg Bool.false_ne_true]

theorem Inv.add (h : s.Inv) (hc : s.calls[id]? = some c) (hpc : c.pc = .add) :
    ((s.traceWbufAdd id c.data.1).goto id c .done).Inv := by
  have hunhanded : c.pc.handed = false := by rw [hpc]; rfl
  obtain ⟨hwrites, hnodes⟩ := call_ne_of_pc h hc hunhanded
  have hcall : ∀ j, ((s.traceWbufAdd id c.data.1).goto id c .done).calls[j]? =
      if j = id then some { c with pc := .done } else s.calls[j]? :=
    fun j => getElem?_goto (s := s.traceWbufAdd id c.data.1) hc .done j
  have htake : c.data.1.take 512 = c.data.1 := List.take_of_length_le (Nat.le_of_lt c.data.2)
  refine ⟨h.consecutive, ?_, fun w hw => ?_, fun n hn => ?_, fun x b => ?_⟩
  · refine copies_goto hc hunhanded h rfl rfl fun j => ?_
    simp only [TraceState.copies, TraceState.goto, traceWbufAdd, List.countP_append,
      List.countP_singleton, decide_eq_true_eq, eq_comm (a := id)]
    omega
  · rw [hcall, if_neg (hwrites w hw)]
    exact h.range w hw
  · rcases List.mem_append.mp hn with hn | hn
    · rw [hcall, if_neg (hnodes n hn)]
      exact h.node n hn
    · rw [List.mem_singleton.mp hn, hcall, if_pos rfl, htake]
      exact ⟨_, rfl, rfl, rfl⟩
  · have hsame : ((s.traceWbufAdd id c.data.1).goto id c .done).contents x = s.contents x := rfl
    rw [hsame, h.contents x b]
    refine exists_congr fun w => and_congr_right fun hw => and_congr_left' (not_congr ?_)
    rw [Pending, Pending, hcall, if_neg (hwrites w hw)]

theorem Inv.reserve (h : s.Inv) (hc : s.calls[id]? = some c) (hpc : c.pc = .reserve) :
    ((s.reserve id c.data.1).goto id c (.kernelWrite s.offset)).Inv := by
  have hunhanded : c.pc.handed = false := by rw [hpc]; rfl
  obtain ⟨hwrites, hnodes⟩ := call_ne_of_pc h hc hunhanded
  have hcall : ∀ j, ((s.reserve id c.data.1).goto id c (.kernelWrite s.offset)).calls[j]? =
      if j = id then some { c with pc := .kernelWrite s.offset } else s.calls[j]? :=
    fun j => getElem?_goto (s := s.reserve id c.data.1) hc (.kernelWrite s.offset) j
  refine ⟨?_, ?_, fun w hw => ?_, fun n hn => ?_, fun x b => ?_⟩
  · have hranges : ((s.reserve id c.data.1).goto id c (.kernelWrite s.offset)).writes.map
        WriteRange.range = s.writes.map WriteRange.range ++ [(s.offset, c.data.1.length)] :=
      List.map_append
    rw [hranges]
    exact h.consecutive.append _
  · refine copies_goto hc hunhanded h rfl rfl fun j => ?_
    simp only [TraceState.copies, TraceState.goto, TraceState.reserve, List.countP_append,
      List.countP_singleton, decide_eq_true_eq, eq_comm (a := id)]
    omega
  · rcases List.mem_append.mp hw with hw | hw
    · rw [hcall, if_neg (hwrites w hw)]
      exact h.range w hw
    · rw [List.mem_singleton.mp hw, hcall, if_pos rfl]
      exact ⟨_, rfl, rfl, .inl rfl⟩
  · rw [hcall, if_neg (hnodes n hn)]
    exact h.node n hn
  · -- the new range is pending, so nothing of it is written
    have hsame : ((s.reserve id c.data.1).goto id c (.kernelWrite s.offset)).contents x =
        s.contents x := rfl
    have hpending : ∀ w ∈ s.writes,
        (((s.reserve id c.data.1).goto id c (.kernelWrite s.offset)).Pending w ↔ s.Pending w) := by
      intro w hw
      rw [Pending, Pending, hcall, if_neg (hwrites w hw)]
    rw [hsame, h.contents x b]
    constructor
    · rintro ⟨w, hw, hdone, hx⟩
      exact ⟨w, List.mem_append_left _ hw, fun hp => hdone ((hpending w hw).mp hp), hx⟩
    · rintro ⟨w, hw, hdone, hx⟩
      rcases List.mem_append.mp hw with hw | hw
      · exact ⟨w, hw, fun hp => hdone ((hpending w hw).mpr hp), hx⟩
      · refine absurd ?_ hdone
        rw [List.mem_singleton.mp hw, Pending, hcall, if_pos rfl]
        exact ⟨_, rfl, rfl⟩

/-- A byte of a range is one that the range covers. -/
theorem getElem?_range {w : WriteRange} {x : Nat} {b : UInt8} (hle : w.off ≤ x)
    (hx : w.data[x - w.off]? = some b) : InRange w.range x := by
  obtain ⟨hlt, -⟩ := List.getElem?_eq_some_iff.mp hx
  exact ⟨hle, show x < w.off + w.data.length by omega⟩

theorem Inv.lt_offset (h : s.Inv) {w : WriteRange} (hw : w ∈ s.writes) {x : Nat}
    (hx : InRange w.range x) : x < s.offset :=
  ((h.consecutive.exists_inRange x).mp ⟨w.range, List.mem_map_of_mem hw, hx⟩).2

/-- One turn of the loop over the list. -/
theorem Inv.writeNode (h : s.Inv) {n : Nat × List UInt8} {rest : List (Nat × List UInt8)}
    (hwbuf : s.wbuf = n :: rest) : Inv { s.writeFile n with wbuf := rest } := by
  obtain ⟨c, hc, hdata, hdone⟩ := h.node n (hwbuf ▸ List.mem_cons_self)
  refine ⟨?_, fun j c' hc' => ?_, fun w hw => ?_, fun m hm => ?_, fun x b => ?_⟩
  · have hranges : (s.writeFile n).writes.map WriteRange.range =
        s.writes.map WriteRange.range ++ [(s.offset, n.2.length)] := List.map_append
    show Consecutive 0 ((s.writeFile n).writes.map WriteRange.range) _
    rw [hranges]
    exact h.consecutive.append _
  · rw [← h.copies j c' hc']
    simp only [TraceState.copies, writeFile, TraceState.kernelWrite, TraceState.reserve, hwbuf,
      List.countP_append, List.countP_cons, List.countP_nil]
    omega
  · rcases List.mem_append.mp hw with hw | hw
    · exact h.range w hw
    · rw [List.mem_singleton.mp hw]
      exact ⟨c, hc, hdata, .inr hdone⟩
  · exact h.node m (hwbuf ▸ List.mem_cons_of_mem _ hm)
  · show (if s.offset ≤ x ∧ x < s.offset + n.2.length then n.2[x - s.offset]? else s.contents x) =
      some b ↔ ∃ w ∈ s.writes ++ [⟨n.1, s.offset, n.2⟩], ¬ s.Pending w ∧ w.off ≤ x ∧
        w.data[x - w.off]? = some b
    have hnew : ¬ s.Pending ⟨n.1, s.offset, n.2⟩ := by
      rintro ⟨c', hc', hpc⟩
      rw [← Option.some.inj (hc.symm.trans hc'), hdone] at hpc
      cases hpc
    by_cases hx : s.offset ≤ x ∧ x < s.offset + n.2.length
    · rw [if_pos hx]
      constructor
      · exact fun hb => ⟨_, List.mem_append_right _ (List.mem_singleton_self _), hnew, hx.1, hb⟩
      · rintro ⟨w, hw, -, hle, hb⟩
        rcases List.mem_append.mp hw with hw | hw
        · have := h.lt_offset hw (getElem?_range hle hb)
          omega
        · rw [List.mem_singleton.mp hw] at hb
          exact hb
    · rw [if_neg hx, h.contents x b]
      constructor
      · rintro ⟨w, hw, hb⟩
        exact ⟨w, List.mem_append_left _ hw, hb⟩
      · rintro ⟨w, hw, hp, hle, hb⟩
        rcases List.mem_append.mp hw with hw | hw
        · exact ⟨w, hw, hp, hle, hb⟩
        · have hin := getElem?_range hle hb
          rw [List.mem_singleton.mp hw] at hin
          exact absurd hin hx

theorem foldl_writeFile_wbuf (l wbuf : List (Nat × List UInt8)) (s : TraceState) :
    l.foldl writeFile { s with wbuf := wbuf } = { l.foldl writeFile s with wbuf := wbuf } := by
  induction l generalizing s with
  | nil => rfl
  | cons n rest ih => exact ih (s.writeFile n)

theorem calls_foldl_writeFile (l : List (Nat × List UInt8)) (s : TraceState) :
    (l.foldl writeFile s).calls = s.calls := by
  induction l generalizing s with
  | nil => rfl
  | cons n rest ih => exact ih (s.writeFile n)

theorem Inv.traceWbufWriteAll (h : s.Inv) : s.traceWbufWriteAll.Inv := by
  rw [TraceState.traceWbufWriteAll]
  generalize hwbuf : s.wbuf = l
  induction l generalizing s with
  | nil =>
    have hsame : { s with wbuf := [] } = s := by rw [← hwbuf]
    rw [List.foldl_nil, hsame]
    exact h
  | cons n rest ih =>
    have hrest := ih (h.writeNode hwbuf) rfl
    rw [foldl_writeFile_wbuf] at hrest
    exact hrest

/-- Two ranges that cover a byte are one. -/
theorem Inv.eq_of_inRange (h : s.Inv) {v w : WriteRange} (hv : v ∈ s.writes) (hw : w ∈ s.writes)
    {x : Nat} (hvx : InRange v.range x) (hwx : InRange w.range x) : v = w := by
  have hpairs : s.writes.Pairwise fun a b => ∀ x, InRange a.range x → ¬ InRange b.range x :=
    List.pairwise_map.mp h.consecutive.pairwise_disjoint
  have hsymm : Std.Symm fun a b : WriteRange => ∀ x, InRange a.range x → ¬ InRange b.range x :=
    ⟨fun a b hab x hb ha => hab x ha hb⟩
  by_contra hne
  exact hpairs.forall hv hw hne x hvx hwx

/-- The ranges of a call that is writing are all the one it writes. -/
theorem Inv.own_range (h : s.Inv) (hc : s.calls[id]? = some c) {off : Nat}
    (hpc : c.pc = .kernelWrite off) {w : WriteRange} (hw : w ∈ s.writes) (hid : w.call = id) :
    w.off = off ∧ w.data = c.data.1 := by
  obtain ⟨c', hc', hdata, hpc'⟩ := h.range w hw
  rw [hid] at hc'
  obtain rfl : c = c' := Option.some.inj (hc.symm.trans hc')
  rw [hpc] at hpc'
  rcases hpc' with hpc' | hpc'
  · exact ⟨(Pc.kernelWrite.inj hpc').symm, hdata⟩
  · cases hpc'

theorem Inv.node_ne (h : s.Inv) (hc : s.calls[id]? = some c) {off : Nat}
    (hpc : c.pc = .kernelWrite off) : ∀ n ∈ s.wbuf, n.1 ≠ id := by
  intro n hn hid
  obtain ⟨c', hc', -, hpc'⟩ := h.node n hn
  rw [hid] at hc'
  obtain rfl : c = c' := Option.some.inj (hc.symm.trans hc')
  rw [hpc] at hpc'
  cases hpc'

theorem Inv.exists_own_range (h : s.Inv) (hc : s.calls[id]? = some c) {off : Nat}
    (hpc : c.pc = .kernelWrite off) : ∃ w ∈ s.writes, w.call = id := by
  by_contra hnone
  have hzero : s.copies id = 0 := by
    rw [TraceState.copies, Nat.add_eq_zero_iff, List.countP_eq_zero, List.countP_eq_zero]
    exact ⟨fun w hw hid => hnone ⟨w, hw, of_decide_eq_true hid⟩,
      fun n hn hid => h.node_ne hc hpc n hn (of_decide_eq_true hid)⟩
  rw [h.copies id c hc, hpc] at hzero
  cases hzero

theorem Inv.kernelWrite (h : s.Inv) (hc : s.calls[id]? = some c) {off : Nat}
    (hpc : c.pc = .kernelWrite off) : ((s.kernelWrite off c.data.1).goto id c .done).Inv := by
  have hcall : ∀ j, ((s.kernelWrite off c.data.1).goto id c .done).calls[j]? =
      if j = id then some { c with pc := .done } else s.calls[j]? :=
    fun j => getElem?_goto (s := s.kernelWrite off c.data.1) hc .done j
  obtain ⟨w₀, hw₀, hid₀⟩ := h.exists_own_range hc hpc
  obtain ⟨hoff₀, hdata₀⟩ := h.own_range hc hpc hw₀ hid₀
  have hpending : ∀ w, ((s.kernelWrite off c.data.1).goto id c .done).Pending w ↔
      s.Pending w ∧ w.call ≠ id := by
    intro w
    rw [Pending, Pending, hcall]
    by_cases hid : w.call = id
    · simp [hid]
    · simp [hid]
  refine ⟨h.consecutive, fun j c' hc' => ?_, fun w hw => ?_, fun n hn => ?_, fun x b => ?_⟩
  · have hcopies : TraceState.copies ((s.kernelWrite off c.data.1).goto id c .done) j =
        s.copies j := rfl
    rw [hcall] at hc'
    rw [hcopies]
    by_cases hj : j = id
    · rw [if_pos hj] at hc'
      rw [hj, h.copies id c hc, hpc, ← Option.some.inj hc']
      rfl
    · rw [if_neg hj] at hc'
      exact h.copies j c' hc'
  · rw [hcall]
    by_cases hid : w.call = id
    · rw [if_pos hid]
      exact ⟨_, rfl, (h.own_range hc hpc hw hid).2, .inr rfl⟩
    · rw [if_neg hid]
      exact h.range w hw
  · rw [hcall, if_neg (h.node_ne hc hpc n hn)]
    exact h.node n hn
  · show (if off ≤ x ∧ x < off + c.data.1.length then c.data.1[x - off]? else s.contents x) =
      some b ↔ ∃ w ∈ s.writes, ¬ ((s.kernelWrite off c.data.1).goto id c .done).Pending w ∧
        w.off ≤ x ∧ w.data[x - w.off]? = some b
    by_cases hx : off ≤ x ∧ x < off + c.data.1.length
    · rw [if_pos hx]
      have hx₀ : InRange w₀.range x := by
        rw [← hoff₀, ← hdata₀] at hx
        exact hx
      constructor
      · intro hb
        refine ⟨w₀, hw₀, fun hp => ((hpending w₀).mp hp).2 hid₀, hoff₀ ▸ hx.1, ?_⟩
        rw [hoff₀, hdata₀]
        exact hb
      · rintro ⟨w, hw, -, hle, hb⟩
        rw [h.eq_of_inRange hw hw₀ (getElem?_range hle hb) hx₀, hoff₀, hdata₀] at hb
        exact hb
    · rw [if_neg hx, h.contents x b]
      constructor
      · rintro ⟨w, hw, hp, hb⟩
        exact ⟨w, hw, fun hp' => hp ((hpending w).mp hp').1, hb⟩
      · rintro ⟨w, hw, hp, hle, hb⟩
        refine ⟨w, hw, fun hp' => hp ((hpending w).mpr ⟨hp', fun hid => hx ?_⟩), hle, hb⟩
        obtain ⟨hoff, hdata⟩ := h.own_range hc hpc hw hid
        have hin := getElem?_range hle hb
        rw [WriteRange.range, hoff, hdata] at hin
        exact hin

end

/-- Every step keeps the accounts. -/
theorem Inv.step {s t : TraceState} {a : Action} (h : s.Inv) (ht : s.step a = some t) : t.Inv := by
  cases a with
  | outputRecord atomic data =>
    rw [← Option.some.inj ht]
    refine h.calls (fun j c hc => ⟨c, ?_, rfl, .inl rfl⟩) fun j c' hnone hc' => ?_
    · obtain ⟨hlt, -⟩ := List.getElem?_eq_some_iff.mp hc
      exact (List.getElem?_append_left hlt).trans hc
    · rw [List.getElem?_append_right (List.getElem?_eq_none_iff.mp hnone)] at hc'
      have hmem := List.mem_of_getElem? hc'
      rw [List.mem_singleton.mp hmem]
      cases atomic <;> rfl
  | run id =>
    rw [TraceState.step] at ht
    cases hc : s.calls[id]? with
    | none =>
      rw [hc] at ht
      cases ht
    | some c =>
      simp only [hc, stepCall] at ht
      cases hpc : c.pc with
      | add =>
        rw [hpc] at ht
        exact Option.some.inj ht ▸ h.add hc hpc
      | listEmpty =>
        rw [hpc] at ht
        rw [← Option.some.inj ht]
        refine h.goto hc (by rw [hpc]; rfl) ?_
        split <;> rfl
      | writeAll =>
        rw [hpc] at ht
        rw [← Option.some.inj ht]
        have hc' : s.traceWbufWriteAll.calls[id]? = some c := by
          rw [TraceState.traceWbufWriteAll]
          exact (calls_foldl_writeFile s.wbuf s).symm ▸ hc
        exact h.traceWbufWriteAll.goto hc' (by rw [hpc]; rfl) rfl
      | reserve =>
        rw [hpc] at ht
        exact Option.some.inj ht ▸ h.reserve hc hpc
      | kernelWrite off =>
        rw [hpc] at ht
        exact Option.some.inj ht ▸ h.kernelWrite hc hpc
      | done =>
        rw [hpc] at ht
        cases ht

theorem inv_of_reachable {s : TraceState} (h : machine.Reachable (fun _ _ => True) s) : s.Inv := by
  refine h.invariant ?_ fun s a t hs _ ht => hs.step ht
  refine ⟨rfl, ?_, ?_, ?_, ?_⟩
  · intro id c hc
    cases hc
  · simp [machine]
  · simp [machine]
  · simp [machine]

/-- No byte is taken twice, and no record is lost or there twice. -/
structure Accounted (s : TraceState) : Prop where
  disjoint : s.writes.Pairwise fun a b => ∀ x, InRange a.range x → ¬ InRange b.range x
  tile : ∀ x, (∃ w ∈ s.writes, InRange w.range x) ↔ x < s.offset
  /-- Once all writes have finished, the file has exactly these bytes. -/
  written : (∀ w ∈ s.writes, ¬ s.Pending w) → ∀ x, (s.contents x).isSome ↔ x < s.offset
  intact : ∀ w ∈ s.writes, ¬ s.Pending w → ∀ i, i < w.data.length →
    s.contents (w.off + i) = w.data[i]?
  /-- The record of a call is there once from its critical section on. -/
  once : ∀ id c, s.calls[id]? = some c → s.copies id = if c.pc.handed then 1 else 0
  text : (∀ w ∈ s.writes, ∃ c, s.calls[w.call]? = some c ∧ w.data = c.data.1) ∧
    ∀ n ∈ s.wbuf, ∃ c, s.calls[n.1]? = some c ∧ n.2 = c.data.1

theorem Inv.accounted {s : TraceState} (h : s.Inv) : s.Accounted := by
  have htile : ∀ x, (∃ w ∈ s.writes, InRange w.range x) ↔ x < s.offset := by
    intro x
    have hcover := h.consecutive.exists_inRange x
    simp only [List.mem_map, exists_exists_and_eq_and] at hcover
    exact hcover.trans (and_iff_right (Nat.zero_le x))
  have hintact : ∀ w ∈ s.writes, ¬ s.Pending w → ∀ i, i < w.data.length →
      s.contents (w.off + i) = w.data[i]? := by
    intro w hw hdone i hi
    rw [List.getElem?_eq_getElem hi]
    refine (h.contents _ _).mpr ⟨w, hw, hdone, Nat.le_add_right _ _, ?_⟩
    rw [Nat.add_sub_cancel_left, List.getElem?_eq_getElem hi]
  refine ⟨List.pairwise_map.mp h.consecutive.pairwise_disjoint, htile, fun hall x => ?_, hintact,
    h.copies, fun w hw => ?_, fun n hn => ?_⟩
  · rw [← htile]
    constructor
    · intro hsome
      obtain ⟨b, hb⟩ := Option.isSome_iff_exists.mp hsome
      obtain ⟨w, hw, -, hle, hx⟩ := (h.contents x b).mp hb
      exact ⟨w, hw, getElem?_range hle hx⟩
    · rintro ⟨w, hw, hin⟩
      obtain ⟨hle, hlt⟩ : w.off ≤ x ∧ x < w.off + w.data.length := hin
      have hlt' : x - w.off < w.data.length := by omega
      have hx := hintact w hw (hall w hw) (x - w.off) hlt'
      rw [Nat.add_sub_cancel' hle, List.getElem?_eq_getElem hlt'] at hx
      rw [hx]
      rfl
  · obtain ⟨c, hc, hdata, -⟩ := h.range w hw
    exact ⟨c, hc, hdata⟩
  · obtain ⟨c, hc, hdata, -⟩ := h.node n hn
    exact ⟨c, hc, hdata⟩

end TraceState

/-- In every interleaving, at every point. -/
theorem records_accounted {s : TraceState} (h : machine.Reachable (fun _ _ => True) s) :
    s.Accounted :=
  (TraceState.inv_of_reachable h).accounted

/-- Two calls that may sleep see the record of an atomic one; both want to write the list. -/
def twoWriters : List Action :=
  [.outputRecord true ⟨[1, 2], by decide⟩, .outputRecord false ⟨[3], by decide⟩,
    .outputRecord false ⟨[4, 5], by decide⟩, .run 0, .run 1, .run 2, .run 2, .run 1, .run 1,
    .run 2, .run 2]

def twoWritersState : TraceState :=
  (machine.play (fun _ _ => true) machine.init twoWriters).get (by decide +kernel)

/-- The record is written once; one write is still pending. -/
theorem records_accounted_two_writers :
    twoWritersState.copies 0 = 1 ∧ twoWritersState.wbuf = [] ∧ twoWritersState.offset = 5 ∧
      twoWritersState.contents 2 = none ∧ twoWritersState.Accounted := by
  have hreach : machine.Reachable (fun _ _ => True) twoWritersState :=
    Machine.reachable_of_play (fun _ _ _ => trivial) (Option.some_get _).symm
  exact ⟨by decide +kernel, by decide +kernel, by decide +kernel, by decide +kernel,
    records_accounted hreach⟩

end WriteBuffer
end Tracer
end Silhouette
