import Silhouette.Lib.LockProg
import Silhouette.Tracer.StoredValues

/-!
# The lock of the tracer

`trace_lock` is taken by the macros in front of a record, by the list helpers and by the
initialisation and the destruction of the tracer.  Whether a list helper takes it depends on what
is left in the list.
-/

namespace Silhouette
namespace Tracer
namespace TraceLock

open Lib Lib.LockProg

/-- What `trace_lock` guards.  The lists hold what was recorded in atomic contexts. -/
structure TracerState where
  traceEnabled : Int := 0
  traceOrderNum : Nat := 1
  wbuf : List (Nat × TraceRecord) := []
  svbuf : List ValueRequest := []

/-- Where a call is made from, and which of its allocations succeed. -/
structure Context where
  atomic : Bool
  allocWbuf : Nat × TraceRecord → Bool
  allocSvbuf : ValueRequest → Bool

abbrev TraceProg : Type → Type := LockProg TracerState

def traceLockLock : TraceProg Unit := lock'

def traceLockUnlock : TraceProg Unit := unlock'

/-! ## The lists -/

def traceWbufAdd (c : Context) (r : Nat × TraceRecord) : TraceProg Unit := do
  if c.allocWbuf r then
    traceLockLock
    modify' fun s => { s with wbuf := s.wbuf ++ [r] }
    traceLockUnlock

/-- The test is made without the lock of its own. -/
def traceWbufWriteAll : TraceProg Unit := do
  let s ← get
  if !s.wbuf.isEmpty then
    traceLockLock
    modify' fun s => { s with wbuf := [] }
    traceLockUnlock

def traceSvbufAdd (c : Context) (v : ValueRequest) : TraceProg Unit := do
  if v.size ≤ maxSvBufSize ∧ c.allocSvbuf v then
    traceLockLock
    modify' fun s => { s with svbuf := s.svbuf ++ [v] }
    traceLockUnlock

def traceSvbufWriteAll : TraceProg Unit := do
  let s ← get
  if !s.svbuf.isEmpty then
    traceLockLock
    modify' fun s => { s with svbuf := [] }
    traceLockUnlock

/-- The writes to the files take locks of their own. -/
def outputRecord (c : Context) (r : Nat × TraceRecord) : TraceProg Unit :=
  if c.atomic then traceWbufAdd c r else traceWbufWriteAll

def outputStoreValue (c : Context) (v : ValueRequest) : TraceProg Unit :=
  if c.atomic then traceSvbufAdd c v else traceSvbufWriteAll

/-! ## The exported functions -/

/-- `filesNull`: one of the files is `NULL` after the open. -/
def traceInitAll (filesNull : Bool) : TraceProg Unit := do
  traceLockLock
  let s ← get
  if s.traceEnabled = 0 then
    modify' fun s => { s with traceOrderNum := 1, traceEnabled := if filesNull then -1 else 1 }
  traceLockUnlock

def traceDestroyAll (initFsRetVal : Int) : TraceProg Unit := do
  traceLockLock
  let s ← get
  if initFsRetVal ≠ 0 ∧ s.traceEnabled ≠ 0 then
    traceWbufWriteAll
    traceSvbufWriteAll
    modify' fun s => { s with traceEnabled := 0 }
  traceLockUnlock

/-- `TRACE_UNLOCK_OR_RETURN` -/
def traceUnlockOrReturn (incby : Nat) : TraceProg (Option Nat) := do
  let s ← get
  if s.traceEnabled = 0 then
    traceLockUnlock
    return none
  else
    modify' fun s => { s with traceOrderNum := (s.traceOrderNum + incby) % 2 ^ 64 }
    traceLockUnlock
    return some s.traceOrderNum

/-- How a function that is not handed a number begins. -/
def drawSeq : TraceProg (Option Nat) := do
  traceLockLock
  traceUnlockOrReturn 1

/-- The number goes to the instrumented code, which hands it to the trace functions. -/
def traceAcquireSequence (incby : Nat) : TraceProg Nat := do
  traceLockLock
  let s ← get
  if s.traceEnabled ≠ 0 then
    modify' fun s => { s with traceOrderNum := (s.traceOrderNum + incby) % 2 ^ 64 }
  traceLockUnlock
  return if s.traceEnabled ≠ 0 then s.traceOrderNum else maxTraceSeqNum

end TraceLock

/-- The calls that are handed a sequence number; the others draw one. -/
def TraceCall.handedSeq : TraceCall → Bool
  | inlineAsmXchglq .. | inlineAsmCas .. | inlineAsmMemsetnt .. | storeInst .. | xchgInst ..
  | rmwInst .. | memsetInst .. | memtransferInst .. | uaccessCalls .. | uaccessNtCalls ..
  | centralizedFlush .. => true
  | _ => false

namespace TraceLock

open Lib Lib.LockProg

/-- A call of the instrumentation, with the device and the number it finds. -/
def traceInst (c : Context) (m : Nvmm) (seq : Nat) (call : TraceCall) : TraceProg Unit := do
  if call.handedSeq then
    (call.records m seq).forM (outputRecord c)
    (call.storeValue seq).forM (outputStoreValue c)
  else
    let some seq ← drawSeq | return
    (call.records m seq).forM (outputRecord c)

inductive ExportedCall where
  | initAll (filesNull : Bool)
  | destroyAll (initFsRetVal : Int)
  | acquireSequence (incby : Nat)
  | oldStoreValue (c : Context) (seq ptr size shift : Nat)
  | inst (c : Context) (m : Nvmm) (seq : Nat) (call : TraceCall)

def ExportedCall.code : ExportedCall → TraceProg Unit
  | initAll filesNull => traceInitAll filesNull
  | destroyAll initFsRetVal => traceDestroyAll initFsRetVal
  | acquireSequence incby => do let _ ← traceAcquireSequence incby
  | oldStoreValue c seq ptr size shift =>
    (traceOldStoreValue seq ptr size shift).forM (outputStoreValue c)
  | inst c m seq call => traceInst c m seq call

/-- The tracer with any number of calls at the same time. -/
def machine : Machine (Pool TracerState ExportedCall) (PoolAction ExportedCall) :=
  Pool.machine ExportedCall.code {}

/-- A destruction that goes on finds nothing left in the lists. -/
def ListsDrained : ExportedCall → TracerState → Prop
  | .destroyAll initFsRetVal, s =>
    initFsRetVal ≠ 0 → s.traceEnabled ≠ 0 → s.wbuf = [] ∧ s.svbuf = []
  | _, _ => True

/-! ## The paths of a call -/

theorem balanced_locked (f : TracerState → TracerState) :
    Balanced (do
      traceLockLock
      modify' f
      traceLockUnlock : TraceProg Unit) := by
  simp [LockProg.Balanced, wp_bind, traceLockLock, traceLockUnlock]

theorem balanced_ite {p q : TraceProg Unit} {b : Prop} [Decidable b] (hp : Balanced p)
    (hq : Balanced q) : Balanced (if b then p else q) := by
  split
  · exact hp
  · exact hq

theorem balanced_get : Balanced (get : TraceProg TracerState) := fun _ _ _ => rfl

theorem balanced_outputRecord (c : Context) (r : Nat × TraceRecord) :
    Balanced (outputRecord c r) := by
  refine balanced_ite (balanced_ite (balanced_locked _) (Balanced.pure _)) ?_
  exact balanced_get.bind fun s => balanced_ite (balanced_locked _) (Balanced.pure _)

theorem balanced_outputStoreValue (c : Context) (v : ValueRequest) :
    Balanced (outputStoreValue c v) := by
  refine balanced_ite (balanced_ite (balanced_locked _) (Balanced.pure _)) ?_
  exact balanced_get.bind fun s => balanced_ite (balanced_locked _) (Balanced.pure _)

theorem balanced_traceInitAll (filesNull : Bool) : Balanced (traceInitAll filesNull) := by
  intro s
  simp only [traceInitAll, traceLockLock, traceLockUnlock, wp_bind, wp_lock', wp_get_true]
  intro t _
  split <;> simp [wp_bind]

/-- The number is drawn under the lock, which is released in every case. -/
theorem balanced_drawSeq : Balanced drawSeq := by
  intro s
  simp only [drawSeq, traceUnlockOrReturn, traceLockLock, traceLockUnlock, wp_bind, wp_lock', wp_get_true]
  intro t _
  split <;> simp [wp_bind]

theorem balanced_traceAcquireSequence (incby : Nat) : Balanced (traceAcquireSequence incby) := by
  intro s
  simp only [traceAcquireSequence, traceLockLock, traceLockUnlock, wp_bind, wp_lock', wp_get_true]
  intro t _
  split <;> simp [wp_bind]

theorem balanced_traceInst (c : Context) (m : Nvmm) (seq : Nat) (call : TraceCall) :
    Balanced (traceInst c m seq call) := by
  refine balanced_ite ?_ ?_
  · exact (Balanced.forM (balanced_outputRecord c) _).bind fun _ =>
      Balanced.forM (balanced_outputStoreValue c) _
  · refine balanced_drawSeq.bind fun seq? => ?_
    cases seq? with
    | none => exact Balanced.pure _
    | some seq => exact Balanced.forM (balanced_outputRecord c) _

/-- The destruction keeps the lock while it empties the lists, which take it themselves. -/
theorem wp_traceDestroyAll (ret : Int) (s : TracerState) :
    wp (ListsDrained (.destroyAll ret)) (fun h _ _ => h = false) false (traceDestroyAll ret) s := by
  simp only [traceDestroyAll, traceLockLock, traceLockUnlock, wp_bind, wp_lock', wp_get_true]
  intro t hdrained
  split
  · rename_i hgo
    obtain ⟨hwbuf, hsvbuf⟩ := hdrained hgo.1 hgo.2
    simp [wp_bind, traceWbufWriteAll, traceSvbufWriteAll, hwbuf, hsvbuf]
  · simp

theorem wp_code (c : ExportedCall) (s : TracerState) :
    wp (ListsDrained c) (fun h _ _ => h = false) false c.code s := by
  cases c with
  | initAll filesNull => exact balanced_traceInitAll filesNull s
  | destroyAll ret => exact wp_traceDestroyAll ret s
  | acquireSequence incby =>
    exact (balanced_traceAcquireSequence incby).bind (fun _ => Balanced.pure _) s
  | oldStoreValue c seq ptr size shift =>
    exact Balanced.forM (balanced_outputStoreValue c) _ s
  | inst c m seq call => exact balanced_traceInst c m seq call s

/-! ## Runs -/

/-- The destruction behind its first step. -/
def destroyLocked (ret : Int) : TraceProg Unit := do
  let s ← get
  if ret ≠ 0 ∧ s.traceEnabled ≠ 0 then
    traceWbufWriteAll
    traceSvbufWriteAll
    modify' fun s => { s with traceEnabled := 0 }
  traceLockUnlock

theorem locksAgain_wbuf_empty {f : Unit → TraceProg Unit} {s : TracerState} (hwbuf : s.wbuf = [])
    (h : (f ()).LocksAgain s) : (traceWbufWriteAll >>= f).LocksAgain s := by
  show (LockProg.bind (if !s.wbuf.isEmpty then _ else Pure.pure ()) f).LocksAgain s
  rw [if_neg (by simp [hwbuf])]
  exact h

theorem locksAgain_destroyLocked {ret : Int} {s : TracerState} (hret : ret ≠ 0)
    (henabled : s.traceEnabled ≠ 0) (hleft : ¬ (s.wbuf = [] ∧ s.svbuf = [])) :
    (destroyLocked ret).LocksAgain s := by
  have hgo : ret ≠ 0 ∧ s.traceEnabled ≠ 0 := ⟨hret, henabled⟩
  refine LocksAgain.read ?_
  rw [if_pos hgo]
  by_cases hwbuf : s.wbuf = []
  · have hsvbuf : s.svbuf ≠ [] := fun h => hleft ⟨hwbuf, h⟩
    refine locksAgain_wbuf_empty hwbuf (LocksAgain.bind (LocksAgain.read ?_))
    rw [if_pos (by simpa using hsvbuf)]
    exact trivial
  · refine LocksAgain.bind (LocksAgain.read ?_)
    rw [if_pos (by simpa using hwbuf)]
    exact trivial

/-- The destruction on a thread of its own, while nobody else runs: the last step before it waits
for itself is the test of the list that holds something. -/
theorem selfLocked_of_destroy {S : Pool TracerState ExportedCall} {ret : Int}
    (hfree : S.owner = none) (hnot : ¬ ListsDrained (.destroyAll ret) S.shared) :
    ∃ n T, machine.play (fun _ _ => true) S
      (.start (.destroyAll ret) :: List.replicate n (.run S.threads.length)) = some T ∧
        T.SelfLocked := by
  obtain ⟨hret, henabled, hleft⟩ : ret ≠ 0 ∧ S.shared.traceEnabled ≠ 0 ∧
      ¬ (S.shared.wbuf = [] ∧ S.shared.svbuf = []) := by
    simpa only [ListsDrained, Classical.not_imp, ne_eq] using hnot
  -- The thread is the last one; its first step takes the lock.
  let S₁ : Pool TracerState ExportedCall :=
    { S with threads := S.threads ++ [(.destroyAll ret, traceDestroyAll ret)] }
  let S₂ : Pool TracerState ExportedCall :=
    { S₁.goto S.threads.length (.destroyAll ret) (destroyLocked ret) with
      owner := some S.threads.length }
  have hlast : S₁.threads[S.threads.length]? = some (.destroyAll ret, traceDestroyAll ret) := by
    simp [S₁]
  have hlock : S₁.stepThread S.threads.length (.destroyAll ret) (traceDestroyAll ret) =
      some S₂ := if_pos hfree
  have hself : ∃ n T, machine.play (fun _ _ => true) S₂
      (List.replicate n (.run S.threads.length)) = some T ∧ T.SelfLocked :=
    Pool.exists_selfLocked (Pool.getElem?_goto_self hlast _) rfl
      (locksAgain_destroyLocked hret henabled hleft)
  obtain ⟨n, T, hplay, hT⟩ := hself
  refine ⟨n + 1, T, ?_, hT⟩
  exact (Pool.play_run_succ hlast hlock n).trans hplay

/-- In every run whose destructions find the lists drained, no call waits for the lock that it
holds.  Wherever the lock is free and something is left in a list, a destruction does. -/
theorem self_locked_only_by_destroy {S : Pool TracerState ExportedCall} :
    (machine.Reachable (Pool.Meets ListsDrained) S → ¬ S.SelfLocked) ∧
      (S.owner = none → ∀ ret, ¬ ListsDrained (.destroyAll ret) S.shared →
        ∃ n T, machine.play (fun _ _ => true) S
          (.start (.destroyAll ret) :: List.replicate n (.run S.threads.length)) = some T ∧
            T.SelfLocked) :=
  ⟨fun h => (Pool.inv_of_reachable wp_code h).not_selfLocked,
    fun hfree _ hnot => selfLocked_of_destroy hfree hnot⟩

def atomicContext : Context := ⟨true, fun _ => true, fun _ => true⟩

def noDevice : Nvmm := ⟨0, 0, 0⟩

/-- The tracer is initialised and a fence is traced in an atomic context. -/
def fenceActions : List (PoolAction ExportedCall) :=
  .start (.initAll false) :: List.replicate 4 (.run 0) ++
    .start (.inst atomicContext noDevice 0 (.inlineAsmFence 7)) :: List.replicate 7 (.run 1)

def fenceState : Pool TracerState ExportedCall :=
  (machine.play (fun _ _ => true) machine.init fenceActions).get (by decide +kernel)

theorem not_listsDrained_fenceState : ¬ ListsDrained (.destroyAll 1) fenceState.shared := by
  intro h
  have hwbuf : fenceState.shared.wbuf = [(1, .asmFence 7)] := by decide +kernel
  rw [(h (by decide) (by decide +kernel)).1] at hwbuf
  cases hwbuf

/-- `Meets ListsDrained`, as a test. -/
def meetsListsDrained (S : Pool TracerState ExportedCall) : PoolAction ExportedCall → Bool
  | .start _ => true
  | .run i =>
    match S.threads[i]? with
    | some (.destroyAll ret, .lock _) =>
      ret = 0 || S.shared.traceEnabled = 0 || (S.shared.wbuf.isEmpty && S.shared.svbuf.isEmpty)
    | _ => true

theorem meets_of_meetsListsDrained {S : Pool TracerState ExportedCall}
    {a : PoolAction ExportedCall} (h : meetsListsDrained S a = true) :
    Pool.Meets ListsDrained S a := by
  cases a with
  | start c => exact trivial
  | run i =>
    intro c k hi
    cases c with
    | destroyAll ret =>
      intro hret henabled
      rw [meetsListsDrained, hi] at h
      simpa [hret, henabled] using h
    | _ => exact trivial

/-- The fence is followed by one that may sleep, and the tracer is destroyed. -/
def drainedActions : List (PoolAction ExportedCall) :=
  fenceActions ++
    .start (.inst ⟨false, fun _ => true, fun _ => true⟩ noDevice 0 (.inlineAsmFence 8)) ::
      List.replicate 8 (.run 2) ++ .start (.destroyAll 1) :: List.replicate 6 (.run 3)

def drainedState : Pool TracerState ExportedCall :=
  (machine.play meetsListsDrained machine.init drainedActions).get (by decide +kernel)

theorem self_locked_only_after_fence :
    drainedState.shared.traceEnabled = 0 ∧ drainedState.owner = none ∧
      ¬ drainedState.SelfLocked ∧ ∃ n T, machine.play (fun _ _ => true) fenceState
        (.start (.destroyAll 1) :: List.replicate n (.run fenceState.threads.length)) = some T ∧
          T.SelfLocked := by
  have hreach : machine.Reachable (Pool.Meets ListsDrained) drainedState :=
    Machine.reachable_of_play (fun _ _ h => meets_of_meetsListsDrained h) (Option.some_get _).symm
  exact ⟨by decide +kernel, by decide +kernel, self_locked_only_by_destroy.1 hreach,
    self_locked_only_by_destroy.2 (by decide +kernel) 1 not_listsDrained_fenceState⟩

/-- A fence in an atomic context is still in the list when the tracer is destroyed. -/
theorem pending_fence_self_locks :
    fenceState.shared.wbuf = [(1, .asmFence 7)] ∧
      ∃ T, machine.Reachable (fun _ _ => True) T ∧ T.SelfLocked := by
  have hreach : machine.Reachable (fun _ _ => True) fenceState :=
    Machine.reachable_of_play (fun _ _ _ => trivial) (Option.some_get _).symm
  obtain ⟨n, T, hplay, hT⟩ :=
    selfLocked_of_destroy (by decide +kernel) not_listsDrained_fenceState
  exact ⟨by decide +kernel, T,
    Machine.reachable_of_play_from (fun _ _ _ => trivial) hreach hplay, hT⟩

end TraceLock
end Tracer
end Silhouette
