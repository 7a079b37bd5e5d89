import Mathlib.Data.List.Basic
import Mathlib.Data.Nat.Notation
import Silhouette.Lib.Machine
import Silhouette.VmComm.MemcachedWrapper

/-!
# Sharing the test cases among the guests

The guests draw the index of their next test case from a counter in memcached, claim the
operations of the case that no guest has claimed before, record the claims and
investigate them.  A machine can die at any point; the host then starts its job again and
reads from the records `{vm}.start` and `{vm}.end` which case to test again.

Every request and every record is a step of its own here.  The lists at the end of
`WorkState` are the history that the properties are about.
-/

namespace Silhouette
namespace Executor

open Lib VmComm

/-- The guests' lists of test cases, by name, and the operations of a case that have
stores to persistent memory, with their hashes. -/
structure Workload (ι η : Type) where
  numCases : Nat
  names : ι → List String
  length_names : ∀ v, (names v).length = numCases
  ops : ι → Nat → List (Nat × η)
  numCasesToTest : Nat
  testCaseBasename : Option String
  stopAfterTracing : Bool
  stopAfterDedup : Bool

/-- Where a guest is in `run`.  `given` are the indices a retest comes with.  A machine
that is down remembers the operations its guest has left uninvestigated. -/
inductive JobPhase (η : Type)
  | notStarted
  | down (unfinished : List η)
  | looping
  | drawing (left : Nat)
  | toStart (idx : Nat) (given : Option (List Nat))
  | tracing (idx : Nat) (given : Option (List Nat))
  | adding (idx pos : Nat) (claimed : List Nat) (left : Nat)
  | claimed (idx : Nat) (claimed : List Nat)
  | investigating (idx : Nat) (claimed : List Nat)
  | ending (idx : Nat)
  | complete
  deriving DecidableEq

structure WorkState (ι η : Type) where
  nextExecListIndex : Nat
  hashKeys : List η
  startRecord : ι → Option String
  endRecord : ι → Option String
  uniqueIndices : ι → Option (String × List Nat)
  retestCaseDict : String → Nat
  testCaseBasename : Option String
  numTested : ι → Nat
  phase : ι → JobPhase η
  handed : List (ι × Nat)
  started : List (ι × Nat)
  investigated : List η

/-- The host starts or restores a job, `resolved` being the case that the guest finds
under the name it is given; a guest goes one step on; or a machine crashes. -/
inductive WorkAction (ι : Type)
  | startJob (v : ι) (resolved : Option Nat)
  | restoreJob (v : ι) (retest : Bool) (resolved : Option Nat)
  | loopHead (v : ι)
  | incr (v : ι) (a : Attempt)
  | setCaseStart (v : ι)
  | traced (v : ι) (ok : Bool)
  | add (v : ι) (a : Attempt)
  | setUniqueIndices (v : ι)
  | investigate (v : ι)
  | setCaseEnd (v : ι)
  | crash (v : ι)

def retestThreshold : Nat := 2

section

variable {ι η : Type} [DecidableEq ι] [DecidableEq η] (w : Workload ι η)

/-- The name of a case in a guest's list. -/
def Workload.nameOf (v : ι) (idx : Nat) : Option String := (w.names v)[idx]?

/-- The hashes of the operations of a case with these indices. -/
def Workload.hashesOf (v : ι) (idx : Nat) (l : List Nat) : List η :=
  ((w.ops v idx).filter fun x => decide (x.1 ∈ l)).map Prod.snd

/-- The operations that a guest has claimed, or has been given, and not finished. -/
def Workload.claims (v : ι) : JobPhase η → List η
  | .down unfinished => unfinished
  | .toStart idx given => w.hashesOf v idx (given.getD [])
  | .tracing idx given => w.hashesOf v idx (given.getD [])
  | .adding idx _ l _ => w.hashesOf v idx l
  | .claimed idx l => w.hashesOf v idx l
  | .investigating idx l => w.hashesOf v idx l
  | _ => []

def WorkState.goTo (s : WorkState ι η) (v : ι) (p : JobPhase η) : WorkState ι η :=
  { s with phase := Function.update s.phase v p }

/-- The name `_restore_job` finds in the records of a machine. -/
def WorkState.toRetest (s : WorkState ι η) (v : ι) : Option String :=
  match s.startRecord v, s.endRecord v with
  | some b, none => some b
  | some b, some e => if b = e then none else some b
  | none, _ => none

/-- A guest script starts with the name of a case to test first.  It tests the case it
finds under the name, with the recorded indices if the record is about that name. -/
def bootJob (s : WorkState ι η) (v : ι) (name : Option String) (resolved : Option Nat) :
    Option (WorkState ι η) :=
  match name, resolved with
  | some b, some idx =>
    if w.nameOf v idx = some b then
      let given := (s.uniqueIndices v).bind fun r => if r.1 = b then some r.2 else none
      some ({ s with
        numTested := Function.update s.numTested v 1
        handed := s.handed ++ [(v, idx)] }.goTo v (.toStart idx given))
    else none
  | _, none => some ({ s with numTested := Function.update s.numTested v 0 }.goTo v .looping)
  | none, some _ => none

/-- `_start_guest_job`: a case asked for on the command line goes to the first job. -/
def startGuestJob (s : WorkState ι η) (v : ι) (name : Option String) (resolved : Option Nat) :
    Option (WorkState ι η) :=
  match s.testCaseBasename with
  | some b => bootJob w { s with testCaseBasename := none } v (some b) resolved
  | none => bootJob w s v name resolved

/-- `_restore_job` -/
def restoreJob (s : WorkState ι η) (v : ι) (retest : Bool) (resolved : Option Nat) :
    Option (WorkState ι η) :=
  match if retest then s.toRetest v else none with
  | some b =>
    if s.retestCaseDict b < retestThreshold then
      startGuestJob w { s with
        retestCaseDict := Function.update s.retestCaseDict b (s.retestCaseDict b + 1) }
        v (some b) resolved
    else startGuestJob w s v none resolved
  | none => startGuestJob w s v none resolved

/-- An attempt at the `incr` of `_get_next_exec_idx_from_mc`. -/
def incrStep (s : WorkState ι η) (v : ι) (left : Nat) (a : Attempt) : WorkState ι η :=
  let idx := s.nextExecListIndex
  let s := if a.served then { s with nextExecListIndex := idx + 1 } else s
  if a.answered then
    if idx ≥ w.numCases then s.goTo v .complete
    else { s with handed := s.handed ++ [(v, idx)] }.goTo v (.toStart idx none)
  else s.goTo v (nextTry left .drawing (.down []))

/-- What follows the tracing of a case: nothing when it has failed, else the indices the
retest comes with, else deduplication. -/
def afterTracing (idx : Nat) (given : Option (List Nat)) (ok : Bool) : JobPhase η :=
  if !ok || w.stopAfterTracing then .ending idx
  else
    match given with
    | some [] => .ending idx
    | some l => .claimed idx l
    | none => .adding idx 0 [] mcCmdRetryTimes

/-- An attempt at the `add` of one operation in `deduplicate`. -/
def addStep (s : WorkState ι η) (v : ι) (idx pos : Nat) (claimed : List Nat) (left : Nat)
    (op : Nat × η) (a : Attempt) : WorkState ι η :=
  let new := decide (op.2 ∉ s.hashKeys)
  let s := if a.served && new then { s with hashKeys := s.hashKeys ++ [op.2] } else s
  if a.answered then
    s.goTo v (.adding idx (pos + 1) (if new then claimed ++ [op.1] else claimed) mcCmdRetryTimes)
  else s.goTo v (nextTry left (.adding idx pos claimed) (.down (w.hashesOf v idx claimed)))

def workStep (s : WorkState ι η) : WorkAction ι → Option (WorkState ι η)
  | .startJob v resolved =>
    match s.phase v with
    | .notStarted => startGuestJob w s v none resolved
    | _ => none
  | .restoreJob v retest resolved =>
    match s.phase v with
    | .down _ => restoreJob w s v retest resolved
    | _ => none
  | .loopHead v =>
    match s.phase v with
    | .looping =>
      let n := s.numTested v + 1
      some ({ s with numTested := Function.update s.numTested v n }.goTo v
        (if n > w.numCasesToTest then .complete else .drawing mcCmdRetryTimes))
    | _ => none
  | .incr v a =>
    match s.phase v with
    | .drawing left => some (incrStep w s v left a)
    | _ => none
  | .setCaseStart v =>
    match s.phase v with
    | .toStart idx given =>
      some ({ s with
        startRecord := Function.update s.startRecord v (w.nameOf v idx)
        started := s.started ++ [(v, idx)] }.goTo v (.tracing idx given))
    | _ => none
  | .traced v ok =>
    match s.phase v with
    | .tracing idx given => some (s.goTo v (afterTracing w idx given ok))
    | _ => none
  | .add v a =>
    match s.phase v with
    | .adding idx pos claimed left =>
      match (w.ops v idx)[pos]? with
      | some op => some (addStep w s v idx pos claimed left op a)
      | none => some (s.goTo v (if claimed = [] then .ending idx else .claimed idx claimed))
    | _ => none
  | .setUniqueIndices v =>
    match s.phase v with
    | .claimed idx l =>
      some ({ s with
        uniqueIndices := Function.update s.uniqueIndices v ((w.nameOf v idx).map fun b => (b, l))
        }.goTo v (if w.stopAfterDedup then .ending idx else .investigating idx l))
    | _ => none
  | .investigate v =>
    match s.phase v with
    | .investigating idx l =>
      some ({ s with investigated := s.investigated ++ w.hashesOf v idx l }.goTo v (.ending idx))
    | _ => none
  | .setCaseEnd v =>
    match s.phase v with
    | .ending idx =>
      some ({ s with endRecord := Function.update s.endRecord v (w.nameOf v idx) }.goTo v .looping)
    | _ => none
  | .crash v =>
    match s.phase v with
    | .notStarted => none
    | .down _ => none
    | p => some (s.goTo v (.down (w.claims v p)))

def workMachine : Machine (WorkState ι η) (WorkAction ι) where
  init := {
    nextExecListIndex := 0
    hashKeys := []
    startRecord := fun _ => none
    endRecord := fun _ => none
    uniqueIndices := fun _ => none
    retestCaseDict := fun _ => 0
    testCaseBasename := w.testCaseBasename
    numTested := fun _ => 0
    phase := fun _ => .notStarted
    handed := []
    started := []
    investigated := [] }
  step := workStep w

end

/-! ## Starting a job -/

section

variable {ι η : Type} [DecidableEq ι] {w : Workload ι η} {s t : WorkState ι η} {v : ι}

/-- A job starts with the case it was asked to test, or with none. -/
theorem bootJob_cases {name : Option String} {resolved : Option Nat}
    (h : bootJob w s v name resolved = some t) :
    (resolved = none ∧
      t = { s with numTested := Function.update s.numTested v 0 }.goTo v .looping) ∨
    ∃ b idx, name = some b ∧ resolved = some idx ∧ w.nameOf v idx = some b ∧
      t = { s with
        numTested := Function.update s.numTested v 1
        handed := s.handed ++ [(v, idx)] }.goTo v
          (.toStart idx ((s.uniqueIndices v).bind fun r => if r.1 = b then some r.2 else none)) := by
  cases resolved with
  | none =>
    refine Or.inl ⟨rfl, ?_⟩
    cases name with
    | none => exact (Option.some.inj h).symm
    | some b => exact (Option.some.inj h).symm
  | some idx =>
    cases name with
    | none => exact absurd h (by simp [bootJob])
    | some b =>
      rw [bootJob] at h
      split_ifs at h with hname
      exact Or.inr ⟨b, idx, rfl, rfl, hname, (Option.some.inj h).symm⟩

/-- The records of the host are all that differs. -/
structure SameWork (s s' : WorkState ι η) : Prop where
  next : s'.nextExecListIndex = s.nextExecListIndex
  hashKeys : s'.hashKeys = s.hashKeys
  uniqueIndices : s'.uniqueIndices = s.uniqueIndices
  phase : s'.phase = s.phase
  handed : s'.handed = s.handed
  started : s'.started = s.started
  investigated : s'.investigated = s.investigated

theorem startGuestJob_cases {name : Option String} {resolved : Option Nat}
    (h : startGuestJob w s v name resolved = some t) :
    ∃ s' name', SameWork s s' ∧ bootJob w s' v name' resolved = some t := by
  rw [startGuestJob] at h
  cases hb : s.testCaseBasename with
  | none =>
    simp only [hb] at h
    exact ⟨s, name, ⟨rfl, rfl, rfl, rfl, rfl, rfl, rfl⟩, h⟩
  | some b =>
    simp only [hb] at h
    exact ⟨{ s with testCaseBasename := none }, some b, ⟨rfl, rfl, rfl, rfl, rfl, rfl, rfl⟩, h⟩

theorem restoreJob_cases {retest : Bool} {resolved : Option Nat}
    (h : restoreJob w s v retest resolved = some t) :
    ∃ s' name', SameWork s s' ∧ bootJob w s' v name' resolved = some t := by
  rw [restoreJob] at h
  split at h
  · split_ifs at h with hcount
    · obtain ⟨s', name', hs, hb⟩ := startGuestJob_cases h
      exact ⟨s', name', ⟨hs.next, hs.hashKeys, hs.uniqueIndices, hs.phase, hs.handed, hs.started,
        hs.investigated⟩, hb⟩
    · exact startGuestJob_cases h
  · exact startGuestJob_cases h

@[simp] theorem goTo_phase (s : WorkState ι η) (v : ι) (p : JobPhase η) :
    (s.goTo v p).phase = Function.update s.phase v p := rfl

end

/-! ## One step -/

section

variable {ι η : Type} [DecidableEq ι] [DecidableEq η]

/-- What each action does, with the phase it needs. -/
inductive WorkStep (w : Workload ι η) (s : WorkState ι η) : WorkAction ι → WorkState ι η → Prop
  | startJob {v : ι} {resolved : Option Nat} {s' t : WorkState ι η} {name : Option String}
    (hp : s.phase v = .notStarted) (hs : SameWork s s')
    (hb : bootJob w s' v name resolved = some t) : WorkStep w s (.startJob v resolved) t
  | restoreJob {v : ι} {retest : Bool} {resolved : Option Nat} {unfinished : List η}
    {s' t : WorkState ι η} {name : Option String}
    (hp : s.phase v = .down unfinished) (hs : SameWork s s')
    (hb : bootJob w s' v name resolved = some t) : WorkStep w s (.restoreJob v retest resolved) t
  | loopHead {v : ι} (hp : s.phase v = .looping) :
    WorkStep w s (.loopHead v) ({ s with
      numTested := Function.update s.numTested v (s.numTested v + 1) }.goTo v
        (if s.numTested v + 1 > w.numCasesToTest then .complete else .drawing mcCmdRetryTimes))
  | incr {v : ι} {a : Attempt} {left : Nat} (hp : s.phase v = .drawing left) :
    WorkStep w s (.incr v a) (incrStep w s v left a)
  | setCaseStart {v : ι} {idx : Nat} {given : Option (List Nat)}
    (hp : s.phase v = .toStart idx given) :
    WorkStep w s (.setCaseStart v) ({ s with
      startRecord := Function.update s.startRecord v (w.nameOf v idx)
      started := s.started ++ [(v, idx)] }.goTo v (.tracing idx given))
  | traced {v : ι} {ok : Bool} {idx : Nat} {given : Option (List Nat)}
    (hp : s.phase v = .tracing idx given) :
    WorkStep w s (.traced v ok) (s.goTo v (afterTracing w idx given ok))
  | add {v : ι} {a : Attempt} {idx pos left : Nat} {l : List Nat} {op : Nat × η}
    (hp : s.phase v = .adding idx pos l left) (hop : (w.ops v idx)[pos]? = some op) :
    WorkStep w s (.add v a) (addStep w s v idx pos l left op a)
  | addDone {v : ι} {a : Attempt} {idx pos left : Nat} {l : List Nat}
    (hp : s.phase v = .adding idx pos l left) (hop : (w.ops v idx)[pos]? = none) :
    WorkStep w s (.add v a) (s.goTo v (if l = [] then .ending idx else .claimed idx l))
  | setUniqueIndices {v : ι} {idx : Nat} {l : List Nat} (hp : s.phase v = .claimed idx l) :
    WorkStep w s (.setUniqueIndices v) ({ s with
      uniqueIndices := Function.update s.uniqueIndices v ((w.nameOf v idx).map fun b => (b, l))
      }.goTo v (if w.stopAfterDedup then .ending idx else .investigating idx l))
  | investigate {v : ι} {idx : Nat} {l : List Nat} (hp : s.phase v = .investigating idx l) :
    WorkStep w s (.investigate v)
      ({ s with investigated := s.investigated ++ w.hashesOf v idx l }.goTo v (.ending idx))
  | setCaseEnd {v : ι} {idx : Nat} (hp : s.phase v = .ending idx) :
    WorkStep w s (.setCaseEnd v)
      ({ s with endRecord := Function.update s.endRecord v (w.nameOf v idx) }.goTo v .looping)
  | crash {v : ι} (hstarted : s.phase v ≠ .notStarted) (hup : ∀ l, s.phase v ≠ .down l) :
    WorkStep w s (.crash v) (s.goTo v (.down (w.claims v (s.phase v))))

variable {w : Workload ι η} {s t : WorkState ι η}

theorem workStep_cases {a : WorkAction ι} (h : workStep w s a = some t) : WorkStep w s a t := by
  cases a with
  | startJob v resolved =>
    rw [workStep] at h
    split at h
    · rename_i hp
      obtain ⟨s', name', hs, hb⟩ := startGuestJob_cases h
      exact .startJob hp hs hb
    · exact absurd h (by simp)
  | restoreJob v retest resolved =>
    rw [workStep] at h
    split at h
    · rename_i hp
      obtain ⟨s', name', hs, hb⟩ := restoreJob_cases h
      exact .restoreJob hp hs hb
    · exact absurd h (by simp)
  | loopHead v =>
    rw [workStep] at h
    split at h
    · rename_i hp
      exact Option.some.inj h ▸ .loopHead hp
    · exact absurd h (by simp)
  | incr v a =>
    rw [workStep] at h
    split at h
    · rename_i hp
      exact Option.some.inj h ▸ .incr hp
    · exact absurd h (by simp)
  | setCaseStart v =>
    rw [workStep] at h
    split at h
    · rename_i hp
      exact Option.some.inj h ▸ .setCaseStart hp
    · exact absurd h (by simp)
  | traced v ok =>
    rw [workStep] at h
    split at h
    · rename_i hp
      exact Option.some.inj h ▸ .traced hp
    · exact absurd h (by simp)
  | add v a =>
    rw [workStep] at h
    split at h
    · rename_i hp
      split at h
      · rename_i hop
        exact Option.some.inj h ▸ .add hp hop
      · rename_i hop
        exact Option.some.inj h ▸ .addDone hp hop
    · exact absurd h (by simp)
  | setUniqueIndices v =>
    rw [workStep] at h
    split at h
    · rename_i hp
      exact Option.some.inj h ▸ .setUniqueIndices hp
    · exact absurd h (by simp)
  | investigate v =>
    rw [workStep] at h
    split at h
    · rename_i hp
      exact Option.some.inj h ▸ .investigate hp
    · exact absurd h (by simp)
  | setCaseEnd v =>
    rw [workStep] at h
    split at h
    · rename_i hp
      exact Option.some.inj h ▸ .setCaseEnd hp
    · exact absurd h (by simp)
  | crash v =>
    rw [workStep] at h
    split at h
    · exact absurd h (by simp)
    · exact absurd h (by simp)
    · rename_i hstarted hup
      exact Option.some.inj h ▸ .crash hstarted hup

end

end Executor
end Silhouette
