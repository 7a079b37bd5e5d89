import Mathlib.Data.List.Nodup
import Silhouette.Lib.Machine
import Silhouette.VmComm.MemcachedWrapper

/-!
# The host and the states of its guests

The host starts a guest script in every virtual machine and then polls the state each
guest publishes under `{vm}.state`.  Launching a script and publishing `STARTED` are two
steps of the host, and the guest runs between them.

`HostInv` says what the key can hold when the host polls it, and `KeyShowsGuest` that it
holds the last state of the guest; the second is kept only while `STARTED` is published
in time.
-/

namespace Silhouette
namespace Executor

open Lib VmComm

inductive GuestState
  | notStarted
  | started
  | initing
  | inited
  | running
  | complete
  | needRestoreSnapshot
  | needRestartVm
  | validationFailed
  | needDebug
  | unknown
  deriving DecidableEq, Repr

/-- The guest process of a virtual machine, with the last state it has published. -/
inductive Guest
  | absent
  | alive (last : Option GuestState)
  | dead (last : Option GuestState)
  deriving DecidableEq, Repr

def Guest.last : Guest → Option GuestState
  | .absent => none
  | .alive st => st
  | .dead st => st

/-- The guest runs or has completed. -/
def Guest.healthy : Guest → Bool
  | .alive _ => true
  | _ => false

/-- The states a guest publishes, in the order of its program. -/
def nextState : Option GuestState → Option GuestState
  | none => some .initing
  | some .initing => some .inited
  | some .inited => some .running
  | some .running => some .complete
  | _ => none

/-- What `handle_uncaught_exception` publishes. -/
def GuestState.isFailure : GuestState → Bool
  | .needRestoreSnapshot | .needRestartVm | .validationFailed | .needDebug | .unknown => true
  | _ => false

/-- Where the host goes on when a job is started. -/
inductive AfterStart (ι : Type)
  | startAll (todo : List ι)
  | monitor (pos : Nat)

/-- Where the host is: in `start_all_jobs`, between launching a job and having published
`STARTED`, or in the loop of `monitor_jobs` at a position of `vm_running_list`. -/
inductive HostPc (ι : Type)
  | starting (todo : List ι)
  | setting (v : ι) (left : Nat) (after : AfterStart ι)
  | polling (pos : Nat)
  | checking (v : ι) (pos : Nat)
  | done
  | aborted

/-- Times are in microseconds. -/
structure HostState (ι : Type) where
  key : ι → Option GuestState
  guest : ι → Guest
  heartbeat : ι → Option Nat
  lastHeartbeat : ι → Option (Nat × Nat)
  secondSinceJobStart : ι → Nat
  vmRunningList : List ι
  vmCompleteList : List ι
  vmBrokenList : List ι
  vmDebugList : List ι
  pc : HostPc ι

structure Fleet (ι : Type) where
  vms : List ι
  nodup : vms.Nodup
  debugVm : Bool
  heartbeatTtl : Nat

/-- The clock, and whether restarting the machine and launching the script succeed. -/
structure PollEnv where
  now : Nat
  restartOk : Bool
  launchOk : Bool

inductive HostAction (ι : Type)
  | startNext (launchOk : Bool)
  | setStarted (a : Attempt) (now : Nat)
  | poll (env : PollEnv)
  | checkHeartbeat (env : PollEnv)
  | publish (v : ι)
  | republish (v : ι)
  | guestFails (v : ι) (st : GuestState)
  | crash (v : ι)
  | beat (v : ι)

def secondToRestartVmSinceJobStart : Nat := 180

def heartbeatInterval : Nat := 5

/-- `check_heartbeat_local` -/
def checkHeartbeatLocal (value : Option Nat) (last : Option (Nat × Nat)) (now ttl : Nat) :
    Bool × Option (Nat × Nat) :=
  match value, last with
  | none, _ => (true, some (0, now))
  | some n, none => (true, some (n, now))
  | some n, some (m, t) =>
    if n > m then (true, some (n, now))
    else if now - t ≤ ttl then (true, some (m, t))
    else (false, some (n, now))

section

variable {ι : Type} [DecidableEq ι]

namespace HostState

def setGuest (s : HostState ι) (v : ι) (g : Guest) : HostState ι :=
  { s with guest := Function.update s.guest v g }

def setKey (s : HostState ι) (v : ι) (st : GuestState) : HostState ι :=
  { s with key := Function.update s.key v (some st) }

@[simp] theorem guest_setGuest (s : HostState ι) (v : ι) (g : Guest) :
    (s.setGuest v g).guest = Function.update s.guest v g := rfl

@[simp] theorem key_setGuest (s : HostState ι) (v : ι) (g : Guest) :
    (s.setGuest v g).key = s.key := rfl

@[simp] theorem guest_setKey (s : HostState ι) (v : ι) (st : GuestState) :
    (s.setKey v st).guest = s.guest := rfl

@[simp] theorem key_setKey (s : HostState ι) (v : ι) (st : GuestState) :
    (s.setKey v st).key = Function.update s.key v (some st) := rfl

def resetHeartbeat (s : HostState ι) (v : ι) : HostState ι :=
  { s with
    heartbeat := Function.update s.heartbeat v none
    lastHeartbeat := Function.update s.lastHeartbeat v none }

def noteHeartbeat (s : HostState ι) (v : ι) (last : Option (Nat × Nat)) : HostState ι :=
  { s with lastHeartbeat := Function.update s.lastHeartbeat v last }

def goTo (s : HostState ι) (pc : HostPc ι) : HostState ι := { s with pc := pc }

/-- Take a machine off the running list; the loop starts over. -/
def drop (s : HostState ι) (v : ι) : HostState ι :=
  { s with vmRunningList := s.vmRunningList.erase v, pc := .polling 0 }

def toBroken (s : HostState ι) (v : ι) : HostState ι :=
  { s.drop v with vmBrokenList := s.vmBrokenList ++ [v] }

def toComplete (s : HostState ι) (v : ι) : HostState ι :=
  { s.drop v with vmCompleteList := s.vmCompleteList ++ [v] }

def toDebug (s : HostState ι) (v : ι) : HostState ι :=
  { s.drop v with vmDebugList := s.vmDebugList ++ [v] }

/-- Restore or restart the machine and start its job again. -/
def relaunch (s : HostState ι) (v : ι) (pos : Nat) (env : PollEnv) (restart : Bool) :
    HostState ι :=
  if restart && !env.restartOk then (s.setGuest v .absent).toBroken v
  else if env.launchOk then
    ((s.resetHeartbeat v).setGuest v (.alive none)).goTo
      (.setting v mcCmdRetryTimes (.monitor (pos + 1)))
  else ((s.resetHeartbeat v).setGuest v .absent).toBroken v

/-- The first part of the body of `monitor_jobs`. -/
def pollVm (f : Fleet ι) (s : HostState ι) (v : ι) (pos : Nat) (env : PollEnv) : HostState ι :=
  match s.key v with
  | some .started =>
    if env.now > (s.secondSinceJobStart v + secondToRestartVmSinceJobStart) * 1000000 then
      s.relaunch v pos env true
    else s.goTo (.polling (pos + 1))
  | some .initing => s.goTo (.checking v pos)
  | some .running => s.goTo (.checking v pos)
  | some .complete => s.toComplete v
  | some .needRestoreSnapshot => s.relaunch v pos env false
  | some .needRestartVm => s.relaunch v pos env true
  | some .validationFailed => s.relaunch v pos env false
  | some .needDebug => if f.debugVm then s.toDebug v else s.relaunch v pos env false
  | _ => s.toBroken v

/-- The second part. -/
def checkVm (f : Fleet ι) (s : HostState ι) (v : ι) (pos : Nat) (env : PollEnv) : HostState ι :=
  let r := checkHeartbeatLocal (s.heartbeat v) (s.lastHeartbeat v) env.now f.heartbeatTtl
  let s := s.noteHeartbeat v r.2
  if r.1 then s.goTo (.polling (pos + 1)) else s.relaunch v pos env false

/-- An attempt of `_start_guest_job` to publish `STARTED`. -/
def setStarted (s : HostState ι) (v : ι) (left : Nat) (after : AfterStart ι) (a : Attempt)
    (now : Nat) : HostState ι :=
  let s := if a.served then s.setKey v .started else s
  if a.answered then
    { s with
      secondSinceJobStart := Function.update s.secondSinceJobStart v (now / 1000000)
      pc := match after with
        | .startAll todo => .starting todo
        | .monitor pos => .polling pos }
  else s.goTo (nextTry left (.setting v · after) .aborted)

end HostState

open HostState

def hostStep (f : Fleet ι) (s : HostState ι) : HostAction ι → Option (HostState ι)
  | .startNext launchOk =>
    match s.pc with
    | .starting [] => some (s.goTo (.polling 0))
    | .starting (v :: todo) =>
      if launchOk then
        some (((s.resetHeartbeat v).setGuest v (.alive none)).goTo
          (.setting v mcCmdRetryTimes (.startAll todo)))
      else some ((s.resetHeartbeat v).goTo .aborted)
    | _ => none
  | .setStarted a now =>
    match s.pc with
    | .setting v left after => some (s.setStarted v left after a now)
    | _ => none
  | .poll env =>
    match s.pc with
    | .polling pos =>
      match s.vmRunningList[pos]? with
      | some v => some (s.pollVm f v pos env)
      | none => some (s.goTo (if s.vmRunningList = [] then .done else .polling 0))
    | _ => none
  | .checkHeartbeat env =>
    match s.pc with
    | .checking v pos => some (s.checkVm f v pos env)
    | _ => none
  | .publish v =>
    match s.guest v with
    | .alive last =>
      (nextState last).map fun st => (s.setGuest v (.alive (some st))).setKey v st
    | _ => none
  | .republish v =>
    match s.guest v with
    | .alive (some st) => some (s.setKey v st)
    | _ => none
  | .guestFails v st =>
    match s.guest v with
    | .alive last =>
      if st.isFailure && last != some .complete then
        some ((s.setGuest v (.dead (some st))).setKey v st)
      else none
    | _ => none
  | .crash v =>
    match s.guest v with
    | .alive last => some (s.setGuest v (.dead last))
    | _ => none
  | .beat v =>
    match s.guest v with
    | .alive _ =>
      let beat := match s.heartbeat v with
        | none => 0
        | some n => n + heartbeatInterval
      some { s with heartbeat := Function.update s.heartbeat v (some beat) }
    | _ => none

def hostMachine (f : Fleet ι) : Machine (HostState ι) (HostAction ι) where
  init := {
    key := fun _ => none
    guest := fun _ => .absent
    heartbeat := fun _ => none
    lastHeartbeat := fun _ => none
    secondSinceJobStart := fun _ => 0
    vmRunningList := f.vms
    vmCompleteList := []
    vmBrokenList := []
    vmDebugList := []
    pc := .starting f.vms }
  step := hostStep f

/-! ## What a step does to the guests and their keys -/

variable {f : Fleet ι} {s t : HostState ι}

/-- The effect of a step on the guests and on the keys: none; a machine is restored and
its guest is gone or new; the host publishes `STARTED`; a guest publishes a state; or a
machine crashes. -/
inductive Effect (s t : HostState ι) (a : HostAction ι) : Prop
  | quiet (hg : t.guest = s.guest) (hk : t.key = s.key)
  | renewed (v : ι) (g : Guest) (hlast : g.last = none)
      (hg : t.guest = Function.update s.guest v g) (hk : t.key = s.key)
  | started (v : ι) (left : Nat) (after : AfterStart ι) (b : Attempt) (now : Nat)
      (hpc : s.pc = .setting v left after) (ha : a = .setStarted b now) (hserved : b.served = true)
      (hg : t.guest = s.guest) (hk : t.key = Function.update s.key v (some .started))
  | published (v : ι) (g : Guest) (st : GuestState) (hlast : g.last = some st)
      (hne : (s.guest v).last ≠ some st → st ≠ .started)
      (hg : t.guest = Function.update s.guest v g)
      (hk : t.key = Function.update s.key v (some st))
  | crashed (v : ι) (last : Option GuestState) (hlast : (s.guest v).last = last)
      (hg : t.guest = Function.update s.guest v (.dead last)) (hk : t.key = s.key)

theorem effect_relaunch (s : HostState ι) (v : ι) (pos : Nat) (env : PollEnv) (restart : Bool)
    (a : HostAction ι) : Effect s (s.relaunch v pos env restart) a := by
  rw [relaunch]
  split_ifs with h1 h2
  · exact .renewed v .absent rfl rfl rfl
  · exact .renewed v (.alive none) rfl rfl rfl
  · exact .renewed v .absent rfl rfl rfl

theorem effect_pollVm (f : Fleet ι) (s : HostState ι) (v : ι) (pos : Nat) (env : PollEnv)
    (a : HostAction ι) : Effect s (s.pollVm f v pos env) a := by
  rw [pollVm]
  split
  · split_ifs with h
    · exact effect_relaunch ..
    · exact .quiet rfl rfl
  · exact .quiet rfl rfl
  · exact .quiet rfl rfl
  · exact .quiet rfl rfl
  · exact effect_relaunch ..
  · exact effect_relaunch ..
  · exact effect_relaunch ..
  · split_ifs with h
    · exact .quiet rfl rfl
    · exact effect_relaunch ..
  · exact .quiet rfl rfl

theorem effect_checkVm (f : Fleet ι) (s : HostState ι) (v : ι) (pos : Nat) (env : PollEnv)
    (a : HostAction ι) : Effect s (s.checkVm f v pos env) a := by
  rw [checkVm]
  split_ifs with h
  · exact .quiet rfl rfl
  · cases effect_relaunch _ v pos env false a with
    | quiet hg hk => exact .quiet hg hk
    | renewed v g hlast hg hk => exact .renewed v g hlast hg hk
    | started v left after b now hpc ha hb hg hk => exact .started v left after b now hpc ha hb hg hk
    | published v g st hlast hne hg hk => exact .published v g st hlast hne hg hk
    | crashed v last hlast hg hk => exact .crashed v last hlast hg hk

theorem nextState_ne_started {last : Option GuestState} {st : GuestState}
    (h : nextState last = some st) : st ≠ .started := by
  cases last with
  | none => cases h; decide
  | some old => cases old <;> cases h <;> decide

theorem isFailure_ne_started {st : GuestState} (h : st.isFailure = true) : st ≠ .started := by
  cases st <;> revert h <;> decide

theorem effect_setStarted {v : ι} {left : Nat} {after : AfterStart ι} {b : Attempt} {now : Nat}
    (hpc : s.pc = .setting v left after) :
    Effect s (s.setStarted v left after b now) (.setStarted b now) := by
  unfold HostState.setStarted
  by_cases hb : b.served = true
  · simp only [if_pos hb]
    split_ifs with h
    · exact .started v left after b now hpc rfl hb rfl rfl
    · exact .started v left after b now hpc rfl hb rfl rfl
  · simp only [if_neg hb]
    split_ifs with h
    · exact .quiet rfl rfl
    · exact .quiet rfl rfl

theorem effect_publish {v : ι} (h : hostStep f s (.publish v) = some t) :
    Effect s t (.publish v) := by
  rw [hostStep] at h
  cases hg : s.guest v with
  | alive last =>
    simp only [hg] at h
    obtain ⟨st, hst, rfl⟩ := Option.map_eq_some_iff.mp h
    exact .published v (.alive (some st)) st rfl (fun _ => nextState_ne_started hst) rfl rfl
  | absent => simp [hg] at h
  | dead last => simp [hg] at h

theorem effect_republish {v : ι} (h : hostStep f s (.republish v) = some t) :
    Effect s t (.republish v) := by
  rw [hostStep] at h
  cases hg : s.guest v with
  | alive last =>
    cases last with
    | some st =>
      simp only [hg] at h
      rw [← Option.some.inj h]
      refine .published v (s.guest v) st (by rw [hg]; rfl) (fun hne => ?_)
        (Function.update_eq_self v s.guest).symm rfl
      exact absurd (by rw [hg]; rfl) hne
    | none => simp [hg] at h
  | absent => simp [hg] at h
  | dead last => simp [hg] at h

theorem effect_guestFails {v : ι} {st : GuestState}
    (h : hostStep f s (.guestFails v st) = some t) : Effect s t (.guestFails v st) := by
  rw [hostStep] at h
  cases hg : s.guest v with
  | alive last =>
    simp only [hg] at h
    split_ifs at h with hst
    rw [← Option.some.inj h]
    rw [Bool.and_eq_true] at hst
    exact .published v (.dead (some st)) st rfl (fun _ => isFailure_ne_started hst.1) rfl rfl
  | absent => simp [hg] at h
  | dead last => simp [hg] at h

theorem effect_crash {v : ι} (h : hostStep f s (.crash v) = some t) : Effect s t (.crash v) := by
  rw [hostStep] at h
  cases hg : s.guest v with
  | alive last =>
    simp only [hg] at h
    rw [← Option.some.inj h]
    exact .crashed v last (by rw [hg]; rfl) rfl rfl
  | absent => simp [hg] at h
  | dead last => simp [hg] at h

/-- Every step has one of the effects. -/
theorem effect_of_step {a : HostAction ι} (h : hostStep f s a = some t) : Effect s t a := by
  cases a with
  | startNext launchOk =>
    rw [hostStep] at h
    split at h
    · rw [← Option.some.inj h]
      exact .quiet rfl rfl
    · rename_i v todo hpc
      split_ifs at h with hl
      · rw [← Option.some.inj h]
        exact .renewed v (.alive none) rfl rfl rfl
      · rw [← Option.some.inj h]
        exact .quiet rfl rfl
    · exact absurd h (by simp)
  | setStarted b now =>
    rw [hostStep] at h
    split at h
    · rename_i v left after hpc
      rw [← Option.some.inj h]
      exact effect_setStarted hpc
    · exact absurd h (by simp)
  | poll env =>
    rw [hostStep] at h
    split at h
    · split at h
      · rw [← Option.some.inj h]
        exact effect_pollVm ..
      · rw [← Option.some.inj h]
        exact .quiet rfl rfl
    · exact absurd h (by simp)
  | checkHeartbeat env =>
    rw [hostStep] at h
    split at h
    · rw [← Option.some.inj h]
      exact effect_checkVm ..
    · exact absurd h (by simp)
  | publish v => exact effect_publish h
  | republish v => exact effect_republish h
  | guestFails v st => exact effect_guestFails h
  | crash v => exact effect_crash h
  | beat v =>
    rw [hostStep] at h
    split at h
    · rw [← Option.some.inj h]
      exact .quiet rfl rfl
    · exact absurd h (by simp)

/-! ## The key shows the guest -/

/-- Every guest's key holds the last state it has published, which is not `STARTED`. -/
def KeyShowsGuest (s : HostState ι) : Prop :=
  ∀ v st, (s.guest v).last = some st → s.key v = some st ∧ st ≠ .started

/-- The machine whose job is being started. -/
def HostPc.setting? : HostPc ι → Option ι
  | .setting v _ _ => some v
  | _ => none

def HostAction.publishesStarted : HostAction ι → Bool
  | .setStarted a _ => a.served
  | _ => false

/-- The host publishes `STARTED` for a guest that has published a state of its own. -/
def StartedTooLate (s : HostState ι) (a : HostAction ι) : Prop :=
  a.publishesStarted = true ∧ (s.pc.setting?.bind fun v => (s.guest v).last) ≠ none

instance (s : HostState ι) (a : HostAction ι) : Decidable (StartedTooLate s a) :=
  inferInstanceAs (Decidable (_ ∧ _))

theorem KeyShowsGuest.step (h : KeyShowsGuest s) {a : HostAction ι} (hok : ¬ StartedTooLate s a)
    (ht : hostStep f s a = some t) : KeyShowsGuest t := by
  intro w st hw
  cases effect_of_step ht with
  | quiet hg hk =>
    rw [hg] at hw
    rw [hk]
    exact h w st hw
  | renewed v g hlast hg hk =>
    rw [hg, Function.update_apply] at hw
    rw [hk]
    by_cases hwv : w = v
    · rw [if_pos hwv, hlast] at hw
      exact absurd hw (by simp)
    · rw [if_neg hwv] at hw
      exact h w st hw
  | started v left after b now hpc ha hserved hg hk =>
    rw [hg] at hw
    rw [hk, Function.update_apply]
    by_cases hwv : w = v
    · -- the guest of this machine has published nothing yet
      subst ha
      refine absurd ⟨hserved, ?_⟩ hok
      rw [hpc, HostPc.setting?, Option.bind_some, ← hwv, hw]
      exact Option.some_ne_none st
    · rw [if_neg hwv]
      exact h w st hw
  | published v g st' hlast hne hg hk =>
    rw [hg, Function.update_apply] at hw
    rw [hk, Function.update_apply]
    by_cases hwv : w = v
    · rw [if_pos hwv, hlast] at hw
      rw [if_pos hwv, ← Option.some.inj hw]
      refine ⟨rfl, ?_⟩
      by_cases hold : (s.guest v).last = some st'
      · exact (h v st' hold).2
      · exact hne hold
    · rw [if_neg hwv] at hw ⊢
      exact h w st hw
  | crashed v last hlast hg hk =>
    rw [hg, Function.update_apply] at hw
    rw [hk]
    by_cases hwv : w = v
    · rw [if_pos hwv] at hw
      exact h w st (hwv ▸ hlast.trans hw)
    · rw [if_neg hwv] at hw
      exact h w st hw

end

/-- One machine. -/
def oneVm : Fleet (Fin 1) := ⟨[0], by decide, false, 11500000⟩

def afterInTime : HostState (Fin 1) :=
  ((hostMachine oneVm).play (fun s a => !decide (StartedTooLate s a)) (hostMachine oneVm).init
    [.startNext true, .setStarted .replied 0, .publish 0, .startNext true, .publish 0,
      .publish 0, .publish 0]).get (by decide +kernel)

def afterTooLate : HostState (Fin 1) :=
  ((hostMachine oneVm).play (fun _ _ => true) (hostMachine oneVm).init
    [.startNext true, .publish 0, .publish 0, .publish 0, .publish 0,
      .setStarted .replied 0]).get (by decide +kernel)

end Executor
end Silhouette
