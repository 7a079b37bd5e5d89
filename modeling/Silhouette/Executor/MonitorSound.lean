import Silhouette.Executor.HostMonitor

/-!
# Monitoring healthy guests

`monitor_jobs` has a branch for every state but `INITED`, `NOT_STARTED` and `UNKNOWN`,
and sends a machine found in one of these to the broken list.  A healthy guest publishes
`INITED` on its way to `RUNNING`.

What the host can find is bounded by `Settled`: the key holds `STARTED` or the last state
of the guest.  So a healthy machine breaks only through `INITED` or through a restart.
-/

namespace Silhouette
namespace Executor

open Lib VmComm HostState

section

variable {ι : Type} [DecidableEq ι]

/-- The key holds `STARTED` or what the guest has published last. -/
def Settled (s : HostState ι) (v : ι) : Prop :=
  s.key v = some .started ∨ ∃ st, (s.guest v).last = some st ∧ s.key v = some st

/-- The job of the machine is not started, or `STARTED` is not published for it yet. -/
def HostPc.Pending : HostPc ι → ι → Prop
  | .starting todo, v => v ∈ todo
  | .setting w _ (.startAll todo), v => v = w ∨ v ∈ todo
  | .setting w _ (.monitor _), v => v = w
  | .polling _, _ => False
  | .checking _ _, _ => False
  | .done, _ => False
  | .aborted, _ => True

structure HostInv (s : HostState ι) : Prop where
  nodup : s.vmRunningList.Nodup
  settled : ∀ v ∈ s.vmRunningList, ¬ s.pc.Pending v → Settled s v
  order : ∀ v st, s.guest v = .alive (some st) →
    st = .initing ∨ st = .inited ∨ st = .running ∨ st = .complete

variable {f : Fleet ι} {s t : HostState ι} {v w : ι}

omit [DecidableEq ι] in
theorem Settled.congr (h : Settled s v) (hg : t.guest v = s.guest v) (hk : t.key v = s.key v) :
    Settled t v := by
  rw [Settled, hg, hk]
  exact h

theorem HostInv.init (f : Fleet ι) : HostInv (hostMachine f).init where
  nodup := f.nodup
  settled := fun _ hv hp => absurd hv hp
  order := by simp [hostMachine]

omit [DecidableEq ι] in
/-- Nothing but the place of the host and its own records change. -/
theorem HostInv.quiet (h : HostInv s) (hg : t.guest = s.guest) (hk : t.key = s.key)
    (hrun : t.vmRunningList.Sublist s.vmRunningList)
    (hpc : ∀ v ∈ t.vmRunningList, ¬ t.pc.Pending v → ¬ s.pc.Pending v) : HostInv t where
  nodup := hrun.nodup h.nodup
  settled := by
    intro v hv hp
    exact (h.settled v (hrun.subset hv) (hpc v hv hp)).congr (congrFun hg v) (congrFun hk v)
  order := by
    intro v st hv
    rw [hg] at hv
    exact h.order v st hv

/-- One machine gets a new guest, or none; it is pending then or off the list. -/
theorem HostInv.renewed (h : HostInv s) {g : Guest} (hg : t.guest = Function.update s.guest v g)
    (hlast : ∀ st, g ≠ .alive (some st)) (hk : t.key = s.key)
    (hrun : t.vmRunningList.Sublist s.vmRunningList)
    (hpc : ∀ w ∈ t.vmRunningList, ¬ t.pc.Pending w → w ≠ v ∧ ¬ s.pc.Pending w) : HostInv t where
  nodup := hrun.nodup h.nodup
  settled := by
    intro w hw hp
    obtain ⟨hne, hps⟩ := hpc w hw hp
    refine (h.settled w (hrun.subset hw) hps).congr ?_ (congrFun hk w)
    rw [hg, Function.update_of_ne hne]
  order := by
    intro w st hw
    rw [hg, Function.update_apply] at hw
    by_cases hwv : w = v
    · rw [if_pos hwv] at hw
      exact absurd hw (hlast st)
    · rw [if_neg hwv] at hw
      exact h.order w st hw

theorem HostInv.relaunch (h : HostInv s) (hp : ∀ w, ¬ s.pc.Pending w) (v : ι) (pos : Nat)
    (env : PollEnv) (restart : Bool) : HostInv (s.relaunch v pos env restart) := by
  have hoff : ∀ w ∈ s.vmRunningList.erase v, w ≠ v := by
    rintro w hw rfl
    exact absurd hw h.nodup.not_mem_erase
  unfold HostState.relaunch
  split_ifs with h1 h2
  · exact h.renewed rfl (by simp) rfl List.erase_sublist (fun w hw _ => ⟨hoff w hw, hp w⟩)
  · refine h.renewed rfl (by simp) rfl (List.Sublist.refl _) (fun w _ hpw => ⟨hpw, hp w⟩)
  · exact h.renewed rfl (by simp) rfl List.erase_sublist (fun w hw _ => ⟨hoff w hw, hp w⟩)

theorem HostInv.pollVm (h : HostInv s) (hp : ∀ w, ¬ s.pc.Pending w) (v : ι) (pos : Nat)
    (env : PollEnv) : HostInv (s.pollVm f v pos env) := by
  have hstay : ∀ pc, HostInv (s.goTo pc) :=
    fun pc => h.quiet rfl rfl (List.Sublist.refl _) (fun w _ _ => hp w)
  unfold HostState.pollVm
  split
  · split_ifs with hold
    · exact h.relaunch hp ..
    · exact hstay _
  · exact hstay _
  · exact hstay _
  · exact h.quiet rfl rfl List.erase_sublist (fun w _ _ => hp w)
  · exact h.relaunch hp ..
  · exact h.relaunch hp ..
  · exact h.relaunch hp ..
  · split_ifs with hd
    · exact h.quiet rfl rfl List.erase_sublist (fun w _ _ => hp w)
    · exact h.relaunch hp ..
  · exact h.quiet rfl rfl List.erase_sublist (fun w _ _ => hp w)

theorem HostInv.checkVm (h : HostInv s) (hp : ∀ w, ¬ s.pc.Pending w) (v : ι) (pos : Nat)
    (env : PollEnv) : HostInv (s.checkVm f v pos env) := by
  simp only [HostState.checkVm]
  split_ifs with hr
  · exact h.quiet rfl rfl (List.Sublist.refl _) (fun w _ _ => hp w)
  · have hnote : ∀ last, HostInv (s.noteHeartbeat v last) :=
      fun _ => h.quiet rfl rfl (List.Sublist.refl _) (fun w _ _ => hp w)
    exact (hnote _).relaunch hp ..

/-- Where the host goes on when a job is started. -/
def AfterStart.next : AfterStart ι → HostPc ι
  | .startAll todo => .starting todo
  | .monitor pos => .polling pos

/-- `STARTED` settles the machine whose job is started. -/
theorem HostInv.setStarted (h : HostInv s) {left : Nat} {after : AfterStart ι}
    (hpc : s.pc = .setting v left after) (b : Attempt) (now : Nat) :
    HostInv (s.setStarted v left after b now) := by
  have hkey : ∀ u : HostState ι, b.served = true →
      (u.guest = s.guest ∧ u.key = Function.update s.key v (some .started) ∧
        u.vmRunningList = s.vmRunningList) →
      (∀ w, ¬ u.pc.Pending w → w = v ∨ ¬ s.pc.Pending w) → HostInv u := by
    rintro u - ⟨hg, hk, hrun⟩ hpend
    refine ⟨hrun ▸ h.nodup, ?_, fun w st hw => h.order w st (hg ▸ hw)⟩
    intro w hw hp
    by_cases hwv : w = v
    · exact Or.inl (by rw [hk, hwv, Function.update_self])
    · refine (h.settled w (hrun ▸ hw) ((hpend w hp).resolve_left hwv)).congr (congrFun hg w) ?_
      rw [hk, Function.update_of_ne hwv]
  have hafter : ∀ w, ¬ HostPc.Pending after.next w → w = v ∨ ¬ s.pc.Pending w := by
    intro w hw
    rw [hpc]
    cases after with
    | startAll todo =>
      by_cases hwv : w = v
      · exact Or.inl hwv
      · exact Or.inr (fun hp => hp.elim hwv hw)
    | monitor pos =>
      by_cases hwv : w = v
      · exact Or.inl hwv
      · exact Or.inr hwv
  have hretry : ∀ w, ¬ (HostPc.Pending (nextTry left (HostPc.setting v · after) .aborted) w) →
      ¬ s.pc.Pending w := by
    intro w hw
    rw [hpc]
    rcases nextTry_cases left (HostPc.setting v · after) .aborted with he | ⟨n, he⟩
    · rw [he] at hw
      exact absurd trivial hw
    · rw [he] at hw
      cases after with
      | startAll todo => exact hw
      | monitor pos => exact hw
  unfold HostState.setStarted
  by_cases hb : b.served = true
  · simp only [if_pos hb]
    split_ifs with ha
    · exact hkey _ hb ⟨rfl, rfl, rfl⟩ hafter
    · exact hkey _ hb ⟨rfl, rfl, rfl⟩ (fun w hw => Or.inr (hretry w hw))
  · have ha : ¬ b.answered = true := fun ha => hb (Attempt.served_of_answered ha)
    simp only [if_neg hb, if_neg ha]
    exact h.quiet rfl rfl (List.Sublist.refl _) (fun w _ hw => hretry w hw)

/-- A guest publishes a state. -/
theorem HostInv.published (h : HostInv s) {g : Guest} {st : GuestState}
    (hlast : g.last = some st)
    (horder : ∀ st, g = .alive (some st) →
      st = .initing ∨ st = .inited ∨ st = .running ∨ st = .complete) :
    HostInv ((s.setGuest v g).setKey v st) where
  nodup := h.nodup
  settled := by
    intro w hw hp
    by_cases hwv : w = v
    · subst hwv
      exact Or.inr ⟨st, by simpa using hlast, by simp⟩
    · exact (h.settled w hw hp).congr (by simp [hwv]) (by simp [hwv])
  order := by
    intro w st' hw
    rw [guest_setKey, guest_setGuest, Function.update_apply] at hw
    by_cases hwv : w = v
    · rw [if_pos hwv] at hw
      exact horder st' hw
    · rw [if_neg hwv] at hw
      exact h.order w st' hw

theorem order_nextState {last : Option GuestState} {st : GuestState}
    (h : nextState last = some st) :
    st = .initing ∨ st = .inited ∨ st = .running ∨ st = .complete := by
  cases last with
  | none => cases h; simp
  | some old => cases old <;> cases h <;> simp

theorem HostInv.crashed (h : HostInv s) {last : Option GuestState}
    (hg : s.guest v = .alive last) : HostInv (s.setGuest v (.dead last)) where
  nodup := h.nodup
  settled := by
    intro w hw hp
    have hs := h.settled w hw hp
    by_cases hwv : w = v
    · subst hwv
      have hlast : ((s.setGuest w (.dead last)).guest w).last = (s.guest w).last := by
        simp [hg, Guest.last]
      rw [Settled, hlast]
      exact hs
    · exact hs.congr (by simp [hwv]) rfl
  order := by
    intro w st hw
    rw [guest_setGuest, Function.update_apply] at hw
    by_cases hwv : w = v
    · rw [if_pos hwv] at hw
      exact absurd hw (by simp)
    · rw [if_neg hwv] at hw
      exact h.order w st hw

theorem HostInv.startNext (h : HostInv s) {launchOk : Bool}
    (ht : hostStep f s (.startNext launchOk) = some t) : HostInv t := by
  rw [hostStep] at ht
  split at ht
  · rename_i hpc
    rw [← Option.some.inj ht]
    refine h.quiet rfl rfl (List.Sublist.refl _) (fun w _ _ => ?_)
    rw [hpc]
    exact List.not_mem_nil
  · rename_i v todo hpc
    split_ifs at ht with hl
    · rw [← Option.some.inj ht]
      refine h.renewed rfl (by simp) rfl (List.Sublist.refl _) (fun w _ hp => ?_)
      rw [hpc]
      exact ⟨fun hw => hp (Or.inl hw), fun hw => hp (List.mem_cons.mp hw)⟩
    · rw [← Option.some.inj ht]
      exact h.quiet rfl rfl (List.Sublist.refl _) (fun w _ hp => absurd trivial hp)
  · exact absurd ht (by simp)

theorem HostInv.step (h : HostInv s) {a : HostAction ι} (ht : hostStep f s a = some t) :
    HostInv t := by
  cases a with
  | startNext launchOk => exact h.startNext ht
  | setStarted b now =>
    rw [hostStep] at ht
    split at ht
    · rename_i v left after hpc
      exact Option.some.inj ht ▸ h.setStarted hpc b now
    · exact absurd ht (by simp)
  | poll env =>
    rw [hostStep] at ht
    split at ht
    · rename_i pos hpc
      have hp : ∀ w, ¬ s.pc.Pending w := fun w => by rw [hpc]; exact not_false
      split at ht
      · exact Option.some.inj ht ▸ h.pollVm hp ..
      · rw [← Option.some.inj ht]
        exact h.quiet rfl rfl (List.Sublist.refl _) (fun w _ _ => hp w)
    · exact absurd ht (by simp)
  | checkHeartbeat env =>
    rw [hostStep] at ht
    split at ht
    · rename_i v pos hpc
      have hp : ∀ w, ¬ s.pc.Pending w := fun w => by rw [hpc]; exact not_false
      exact Option.some.inj ht ▸ h.checkVm hp ..
    · exact absurd ht (by simp)
  | publish v =>
    rw [hostStep] at ht
    split at ht
    · rename_i last hg
      obtain ⟨st, hst, rfl⟩ := Option.map_eq_some_iff.mp ht
      refine h.published rfl (fun st' hst' => ?_)
      cases hst'
      exact order_nextState hst
    · exact absurd ht (by simp)
  | republish v =>
    rw [hostStep] at ht
    split at ht
    · rename_i st hg
      have hself : s = s.setGuest v (.alive (some st)) := by
        rw [HostState.setGuest, ← hg, Function.update_eq_self]
      rw [← Option.some.inj ht]
      conv => rw [hself]
      refine h.published rfl (fun st' hst' => ?_)
      cases hst'
      exact h.order v st hg
    · exact absurd ht (by simp)
  | guestFails v st =>
    rw [hostStep] at ht
    split at ht
    · split_ifs at ht with hst
      rw [← Option.some.inj ht]
      exact h.published rfl (fun st' hst' => by cases hst')
    · exact absurd ht (by simp)
  | crash v =>
    rw [hostStep] at ht
    split at ht
    · rename_i last hg
      exact Option.some.inj ht ▸ h.crashed hg
    · exact absurd ht (by simp)
  | beat v =>
    rw [hostStep] at ht
    split at ht
    · rw [← Option.some.inj ht]
      exact h.quiet rfl rfl (List.Sublist.refl _) (fun w _ hp => hp)
    · exact absurd ht (by simp)

/-! ## What breaks a machine -/

/-- Heartbeats arrive: when the time to live has run out since the last beat the host has
recorded, there is a later one. -/
def HeartbeatArrives (f : Fleet ι) (s : HostState ι) (v : ι) (now : Nat) : Prop :=
  ∀ n m t, s.heartbeat v = some n → s.lastHeartbeat v = some (m, t) → f.heartbeatTtl < now - t →
    m < n

/-- The host does not find a healthy guest's key at `INITED`, and gets a machine to run
again when it restarts it with a healthy guest. -/
def MonitorOk (f : Fleet ι) (s : HostState ι) : HostAction ι → Prop
  | .poll env => ∀ pos v, s.pc = .polling pos → s.vmRunningList[pos]? = some v →
      (s.guest v).healthy = true → s.key v ≠ some .inited ∧
        (s.key v = some .started →
          env.now > (s.secondSinceJobStart v + secondToRestartVmSinceJobStart) * 1000000 →
          env.restartOk = true ∧ env.launchOk = true)
  | .checkHeartbeat env => ∀ v pos, s.pc = .checking v pos → (s.guest v).healthy = true →
      HeartbeatArrives f s v env.now
  | _ => True

theorem vmBrokenList_relaunch {pos : Nat} {env : PollEnv} {restart : Bool}
    (hw : w ∈ (s.relaunch v pos env restart).vmBrokenList) :
    w ∈ s.vmBrokenList ∨ w = v ∧ (env.restartOk = false ∨ env.launchOk = false) := by
  unfold HostState.relaunch at hw
  split_ifs at hw with h1 h2
  · rcases List.mem_append.mp hw with hw | hw
    · exact Or.inl hw
    · rw [Bool.and_eq_true, Bool.not_eq_true'] at h1
      exact Or.inr ⟨List.mem_singleton.mp hw, Or.inl h1.2⟩
  · exact Or.inl hw
  · rcases List.mem_append.mp hw with hw | hw
    · exact Or.inl hw
    · exact Or.inr ⟨List.mem_singleton.mp hw, Or.inr (by simpa using h2)⟩

/-- The first part of the loop body breaks only the machine it looks at. -/
theorem vmBrokenList_pollVm {pos : Nat} {env : PollEnv}
    (hw : w ∈ (s.pollVm f v pos env).vmBrokenList) : w ∈ s.vmBrokenList ∨ w = v := by
  have hre : ∀ restart, w ∈ (s.relaunch v pos env restart).vmBrokenList →
      w ∈ s.vmBrokenList ∨ w = v := by
    intro restart h
    exact (vmBrokenList_relaunch h).imp_right And.left
  unfold HostState.pollVm at hw
  split at hw
  · split_ifs at hw with hold
    · exact hre _ hw
    · exact Or.inl hw
  · exact Or.inl hw
  · exact Or.inl hw
  · exact Or.inl hw
  · exact hre _ hw
  · exact hre _ hw
  · exact hre _ hw
  · split_ifs at hw with hd
    · exact Or.inl hw
    · exact hre _ hw
  · rcases List.mem_append.mp hw with hw | hw
    · exact Or.inl hw
    · exact Or.inr (List.mem_singleton.mp hw)

/-- A healthy guest's key leads to a branch that keeps the machine. -/
theorem pollVm_keeps (h : HostInv s) {pos : Nat} {env : PollEnv} (hpc : s.pc = .polling pos)
    (hv : s.vmRunningList[pos]? = some v) (hok : MonitorOk f s (.poll env))
    (hhealthy : (s.guest v).healthy = true)
    (hb : v ∈ (s.pollVm f v pos env).vmBrokenList) : v ∈ s.vmBrokenList := by
  obtain ⟨hne, hold⟩ := hok pos v hpc hv hhealthy
  have hset : Settled s v :=
    h.settled v (List.mem_of_getElem? hv) (by rw [hpc]; exact not_false)
  rcases hset with hst | ⟨st, hlast, hst⟩
  · simp only [HostState.pollVm, hst] at hb
    split_ifs at hb with ht
    · rcases vmBrokenList_relaunch hb with hb | ⟨-, hfail⟩
      · exact hb
      · obtain ⟨h1, h2⟩ := hold hst ht
        rw [h1, h2] at hfail
        exact absurd hfail (by simp)
    · exact hb
  · cases hg : s.guest v with
    | alive last =>
      rw [hg] at hlast
      have horder := h.order v st (by rw [hg]; exact congrArg Guest.alive hlast)
      rcases horder with rfl | rfl | rfl | rfl
      · simp only [HostState.pollVm, hst] at hb
        exact hb
      · exact absurd hst hne
      · simp only [HostState.pollVm, hst] at hb
        exact hb
      · simp only [HostState.pollVm, hst] at hb
        exact hb
    | absent => simp [hg, Guest.healthy] at hhealthy
    | dead last => simp [hg, Guest.healthy] at hhealthy

omit [DecidableEq ι] in
/-- The heartbeat check passes as long as heartbeats arrive. -/
theorem checkHeartbeatLocal_of_arrives {now : Nat} (h : HeartbeatArrives f s v now) :
    (checkHeartbeatLocal (s.heartbeat v) (s.lastHeartbeat v) now f.heartbeatTtl).1 = true := by
  cases hb : s.heartbeat v with
  | none => rfl
  | some n =>
    cases hl : s.lastHeartbeat v with
    | none => rfl
    | some last =>
      obtain ⟨m, t⟩ := last
      rw [checkHeartbeatLocal]
      by_cases hnm : n > m
      · rw [if_pos hnm]
      · rw [if_neg hnm]
        by_cases httl : now - t ≤ f.heartbeatTtl
        · rw [if_pos httl]
        · exact absurd (h n m t hb hl (by omega)) (by omega)

theorem vmBrokenList_setStarted (s : HostState ι) (v : ι) (left : Nat) (after : AfterStart ι)
    (b : Attempt) (now : Nat) :
    (s.setStarted v left after b now).vmBrokenList = s.vmBrokenList := by
  unfold HostState.setStarted
  by_cases hb : b.served = true
  · simp only [if_pos hb]
    split_ifs with ha
    · rfl
    · rfl
  · simp only [if_neg hb]
    split_ifs with ha
    · rfl
    · rfl

/-- Only the two parts of the loop body break machines. -/
theorem vmBrokenList_step {a : HostAction ι} (ht : hostStep f s a = some t)
    (hpoll : ∀ env, a ≠ .poll env) (hcheck : ∀ env, a ≠ .checkHeartbeat env) :
    t.vmBrokenList = s.vmBrokenList := by
  cases a with
  | poll env => exact absurd rfl (hpoll env)
  | checkHeartbeat env => exact absurd rfl (hcheck env)
  | startNext launchOk =>
    rw [hostStep] at ht
    split at ht
    · rw [← Option.some.inj ht]
      rfl
    · split_ifs at ht with hl
      · rw [← Option.some.inj ht]
        rfl
      · rw [← Option.some.inj ht]
        rfl
    · exact absurd ht (by simp)
  | setStarted b now =>
    rw [hostStep] at ht
    split at ht
    · rw [← Option.some.inj ht, vmBrokenList_setStarted]
    · exact absurd ht (by simp)
  | publish v =>
    rw [hostStep] at ht
    split at ht
    · obtain ⟨st, -, rfl⟩ := Option.map_eq_some_iff.mp ht
      rfl
    · exact absurd ht (by simp)
  | republish v =>
    rw [hostStep] at ht
    split at ht
    · rw [← Option.some.inj ht]
      rfl
    · exact absurd ht (by simp)
  | guestFails v st =>
    rw [hostStep] at ht
    split at ht
    · split_ifs at ht with hst
      rw [← Option.some.inj ht]
      rfl
    · exact absurd ht (by simp)
  | crash v =>
    rw [hostStep] at ht
    split at ht
    · rw [← Option.some.inj ht]
      rfl
    · exact absurd ht (by simp)
  | beat v =>
    rw [hostStep] at ht
    split at ht
    · rw [← Option.some.inj ht]
    · exact absurd ht (by simp)

/-- No step that meets the condition breaks a machine with a healthy guest. -/
theorem HostInv.not_broken (h : HostInv s) {a : HostAction ι} (hok : MonitorOk f s a)
    (ht : hostStep f s a = some t) (hhealthy : (s.guest v).healthy = true)
    (hb : v ∈ t.vmBrokenList) : v ∈ s.vmBrokenList := by
  by_cases hpoll : ∃ env, a = .poll env
  · obtain ⟨env, rfl⟩ := hpoll
    rw [hostStep] at ht
    split at ht
    · rename_i pos hpc
      split at ht
      · rename_i w hw
        rw [← Option.some.inj ht] at hb
        rcases vmBrokenList_pollVm hb with hv | rfl
        · exact hv
        · exact pollVm_keeps h hpc hw hok hhealthy hb
      · rw [← Option.some.inj ht] at hb
        exact hb
    · exact absurd ht (by simp)
  · by_cases hcheck : ∃ env, a = .checkHeartbeat env
    · obtain ⟨env, rfl⟩ := hcheck
      rw [hostStep] at ht
      split at ht
      · rename_i w pos hpc
        rw [← Option.some.inj ht] at hb
        simp only [HostState.checkVm] at hb
        split_ifs at hb with hr
        · exact hb
        · rcases vmBrokenList_relaunch hb with hv | ⟨rfl, -⟩
          · exact hv
          · exact absurd (checkHeartbeatLocal_of_arrives (hok v pos hpc hhealthy)) hr
      · exact absurd ht (by simp)
    · rw [vmBrokenList_step ht (fun env h => hpoll ⟨env, h⟩) (fun env h => hcheck ⟨env, h⟩)] at hb
      exact hb

end

/-- In a run that meets the condition, a machine with a healthy guest is never moved to
the broken list. -/
theorem healthy_guest_not_broken {ι : Type} [DecidableEq ι] (f : Fleet ι) {s t : HostState ι}
    (h : (hostMachine f).Reachable (MonitorOk f) s) {a : HostAction ι} (hok : MonitorOk f s a)
    (ht : (hostMachine f).step s a = some t) {v : ι} (hhealthy : (s.guest v).healthy = true)
    (hv : v ∉ s.vmBrokenList) : v ∉ t.vmBrokenList := by
  have hinv : HostInv s := h.invariant (HostInv.init f) (fun _ _ _ hs _ ht => hs.step ht)
  exact fun hb => hv (hinv.not_broken hok ht hhealthy hb)

def afterIniting : HostState (Fin 1) :=
  ((hostMachine oneVm).play (fun _ a => match a with
      | .poll _ => false
      | .checkHeartbeat _ => false
      | _ => true)
    (hostMachine oneVm).init
    [.startNext true, .setStarted .replied 0, .startNext true, .publish 0]).get
    (by decide +kernel)

/-- The host polls the guest at `INITING`. -/
theorem healthy_guest_not_broken_initing : ∃ t,
    (hostMachine oneVm).step afterIniting (.poll ⟨1000000, true, true⟩) = some t ∧
      (afterIniting.guest 0).healthy = true ∧ (0 : Fin 1) ∉ t.vmBrokenList := by
  have hok : MonitorOk oneVm afterIniting (.poll ⟨1000000, true, true⟩) := by
    intro pos v _ _ _
    have hv : v = 0 := Subsingleton.elim _ _
    subst hv
    have hkey : afterIniting.key 0 = some .initing := by decide +kernel
    rw [hkey]
    exact ⟨by decide, fun h => absurd h (by decide)⟩
  have hhealthy : (afterIniting.guest 0).healthy = true := by decide +kernel
  refine ⟨_, rfl, hhealthy, healthy_guest_not_broken oneVm ?_ hok rfl hhealthy (by decide +kernel)⟩
  refine Machine.reachable_of_play (fun s a h => ?_) (Option.some_get _).symm
  cases a with
  | poll env => exact absurd h Bool.false_ne_true
  | checkHeartbeat env => exact absurd h Bool.false_ne_true
  | _ => trivial

def afterInited : HostState (Fin 1) :=
  ((hostMachine oneVm).play (fun _ _ => true) (hostMachine oneVm).init
    [.startNext true, .setStarted .replied 0, .startNext true, .publish 0, .publish 0]).get
    (by decide +kernel)

/-- The poll that finds the guest between `INITED` and `RUNNING`. -/
theorem healthy_guest_broken_at_inited : ∃ t,
    (hostMachine oneVm).Reachable (fun _ _ => True) afterInited ∧
    (afterInited.guest 0).healthy = true ∧ afterInited.vmBrokenList = [] ∧
    (hostMachine oneVm).step afterInited (.poll ⟨1000000, true, true⟩) = some t ∧
    (0 : Fin 1) ∈ t.vmBrokenList := by
  refine ⟨_, ?_, by decide +kernel, by decide +kernel, rfl, by decide +kernel⟩
  exact Machine.reachable_of_play (fun _ _ _ => trivial) (Option.some_get _).symm

end Executor
end Silhouette
