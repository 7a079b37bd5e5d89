import Silhouette.Executor.WorkSharing

/-!
# Dispensing the test cases

The counter hands every index out once, but between the increment and the record
`{vm}.start` an index is only known to the guest that has drawn it.  A lost reply or a
crash there drops it.  A job that is started with a named case can be given one that
another guest draws.
-/

namespace Silhouette
namespace Executor

open Lib VmComm

section

variable {ι η : Type} [DecidableEq ι] [DecidableEq η]

/-- No index is handed to two machines; every index that was drawn has been started, or
the guest that has drawn it is about to; and when all machines are through, every index
has been handed to a machine that has started it. -/
structure Dispensed (w : Workload ι η) (s : WorkState ι η) : Prop where
  once : ∀ u v i, (u, i) ∈ s.handed → (v, i) ∈ s.handed → u = v
  drawn : ∀ i, i < s.nextExecListIndex → i < w.numCases → ∃ v, (v, i) ∈ s.handed ∧
    ((v, i) ∈ s.started ∨ ∃ given, s.phase v = .toStart i given)
  finished : ∀ v, s.phase v = .complete → (∀ u, s.phase u = .complete) →
    ∀ i, i < w.numCases → ∃ v, (v, i) ∈ s.handed ∧ (v, i) ∈ s.started

/-- While indices are left, no increment loses its reply, no machine crashes between
drawing an index and recording its start, and no guest stops at its limit.  A job that is
given a case is given one the machine has held. -/
def DispenseOk (w : Workload ι η) (s : WorkState ι η) : WorkAction ι → Prop
  | .startJob v resolved => ∀ idx, resolved = some idx → (v, idx) ∈ s.handed
  | .restoreJob v _ resolved => ∀ idx, resolved = some idx → (v, idx) ∈ s.handed
  | .loopHead v => s.numTested v + 1 > w.numCasesToTest → w.numCases ≤ s.nextExecListIndex
  | .incr _ a => a.served = true → a.answered = false → w.numCases ≤ s.nextExecListIndex
  | .crash v => ∀ idx given, s.phase v = .toStart idx given → (v, idx) ∈ s.started
  | _ => True

structure DispenseInv (w : Workload ι η) (s : WorkState ι η) : Prop where
  below : ∀ v i, (v, i) ∈ s.handed → i < s.nextExecListIndex
  once : ∀ u v i, (u, i) ∈ s.handed → (v, i) ∈ s.handed → u = v
  drawn : ∀ i, i < s.nextExecListIndex → i < w.numCases → ∃ v, (v, i) ∈ s.handed ∧
    ((v, i) ∈ s.started ∨ ∃ given, s.phase v = .toStart i given)
  exhausted : ∀ v, s.phase v = .complete → w.numCases ≤ s.nextExecListIndex

variable {w : Workload ι η} {s t : WorkState ι η} {v : ι}

omit [DecidableEq ι] [DecidableEq η] in
theorem DispenseInv.dispensed (h : DispenseInv w s) : Dispensed w s where
  once := h.once
  drawn := h.drawn
  finished := by
    intro v hv hall i hi
    obtain ⟨u, hu, hst | ⟨given, hp⟩⟩ := h.drawn i (Nat.lt_of_lt_of_le hi (h.exhausted v hv)) hi
    · exact ⟨u, hu, hst⟩
    · rw [hall u] at hp
      exact absurd hp (by simp)

theorem DispenseInv.init : DispenseInv w (workMachine w).init where
  below := by simp [workMachine]
  once := by simp [workMachine]
  drawn := fun i hi => absurd hi (Nat.not_lt_zero i)
  exhausted := by simp [workMachine]

omit [DecidableEq η] in
/-- A guest moves on; an index it leaves has been started. -/
theorem DispenseInv.move (h : DispenseInv w s) {p : JobPhase η}
    (hphase : t.phase = Function.update s.phase v p)
    (hnext : t.nextExecListIndex = s.nextExecListIndex)
    (hhanded : ∀ x, x ∈ t.handed ↔ x ∈ s.handed) (hstarted : ∀ x ∈ s.started, x ∈ t.started)
    (hleave : ∀ i given, s.phase v = .toStart i given → (v, i) ∈ t.started)
    (hdone : p = .complete → w.numCases ≤ s.nextExecListIndex) : DispenseInv w t where
  below := fun u i hu => hnext ▸ h.below u i ((hhanded _).mp hu)
  once := fun u u' i hu hu' => h.once u u' i ((hhanded _).mp hu) ((hhanded _).mp hu')
  drawn := by
    intro i hi hn
    obtain ⟨u, hu, hst | ⟨given, hp⟩⟩ := h.drawn i (hnext ▸ hi) hn
    · exact ⟨u, (hhanded _).mpr hu, Or.inl (hstarted _ hst)⟩
    · refine ⟨u, (hhanded _).mpr hu, ?_⟩
      by_cases huv : u = v
      · exact Or.inl (huv ▸ hleave i given (huv ▸ hp))
      · exact Or.inr ⟨given, by rw [hphase, Function.update_of_ne huv, hp]⟩
  exhausted := by
    intro u hu
    rw [hphase, Function.update_apply] at hu
    rw [hnext]
    by_cases huv : u = v
    · rw [if_pos huv] at hu
      exact hdone hu
    · rw [if_neg huv] at hu
      exact h.exhausted u hu

omit [DecidableEq η] in
/-- The usual step: nothing is drawn, handed or started. -/
theorem DispenseInv.goTo (h : DispenseInv w s) {s' : WorkState ι η} {p : JobPhase η}
    (hsame : SameWork s s') (hleave : ∀ i given, s.phase v = .toStart i given → (v, i) ∈ s.started)
    (hdone : p = .complete → w.numCases ≤ s.nextExecListIndex) :
    DispenseInv w (s'.goTo v p) := by
  refine h.move (by rw [goTo_phase, hsame.phase]) hsame.next (fun x => ?_) (fun x hx => ?_)
    (fun i given hp => ?_) hdone
  · show x ∈ s'.handed ↔ x ∈ s.handed
    rw [hsame.handed]
  · show x ∈ s'.started
    rw [hsame.started]
    exact hx
  · show (v, i) ∈ s'.started
    rw [hsame.started]
    exact hleave i given hp

omit [DecidableEq η] in
theorem DispenseInv.boot (h : DispenseInv w s) {s' : WorkState ι η} (hsame : SameWork s s')
    {name : Option String} {resolved : Option Nat}
    (hleave : ∀ i given, s.phase v ≠ .toStart i given)
    (hheld : ∀ idx, resolved = some idx → (v, idx) ∈ s.handed)
    (ht : bootJob w s' v name resolved = some t) : DispenseInv w t := by
  rcases bootJob_cases ht with ⟨-, rfl⟩ | ⟨b, idx, -, hres, -, rfl⟩
  · refine h.goTo ⟨hsame.next, hsame.hashKeys, hsame.uniqueIndices, hsame.phase, hsame.handed,
      hsame.started, hsame.investigated⟩ (fun i given hp => absurd hp (hleave i given)) (by simp)
  · refine h.move (by rw [goTo_phase, hsame.phase]) hsame.next (fun x => ?_) (fun x hx => ?_)
      (fun i given hp => absurd hp (hleave i given)) (by simp)
    · show x ∈ s'.handed ++ [(v, idx)] ↔ x ∈ s.handed
      rw [hsame.handed, List.mem_append, List.mem_singleton]
      constructor
      · rintro (hx | rfl)
        · exact hx
        · exact hheld idx hres
      · exact Or.inl
    · show x ∈ s'.started
      rw [hsame.started]
      exact hx

omit [DecidableEq η] in
/-- A draw: the next index goes to the guest whose increment has reached the server. -/
theorem DispenseInv.draw (h : DispenseInv w s) (hleave : ∀ i given, s.phase v ≠ .toStart i given) :
    DispenseInv w ({ s with
      nextExecListIndex := s.nextExecListIndex + 1
      handed := s.handed ++ [(v, s.nextExecListIndex)] }.goTo v
        (.toStart s.nextExecListIndex none)) := by
  have hmem : ∀ u i, (u, i) ∈ s.handed ++ [(v, s.nextExecListIndex)] ↔
      (u, i) ∈ s.handed ∨ u = v ∧ i = s.nextExecListIndex := by
    intro u i
    rw [List.mem_append, List.mem_singleton, Prod.mk.injEq]
  refine ⟨?_, ?_, ?_, ?_⟩
  · intro u i hu
    show i < s.nextExecListIndex + 1
    rcases (hmem u i).mp hu with hu | ⟨-, rfl⟩
    · exact Nat.lt_succ_of_lt (h.below u i hu)
    · exact Nat.lt_succ_self _
  · -- a drawn index is below the counter, so the new one is new
    intro u u' i hu hu'
    rcases (hmem u i).mp hu with hu | ⟨rfl, rfl⟩
    · rcases (hmem u' i).mp hu' with hu' | ⟨-, rfl⟩
      · exact h.once u u' i hu hu'
      · exact absurd (h.below u _ hu) (Nat.lt_irrefl _)
    · rcases (hmem u' _).mp hu' with hu' | ⟨rfl, -⟩
      · exact absurd (h.below u' _ hu') (Nat.lt_irrefl _)
      · rfl
  · intro i hi hn
    rcases Nat.lt_succ_iff_lt_or_eq.mp hi with hi | rfl
    · obtain ⟨u, hu, hst | ⟨given, hp⟩⟩ := h.drawn i hi hn
      · exact ⟨u, (hmem u i).mpr (Or.inl hu), Or.inl hst⟩
      · refine ⟨u, (hmem u i).mpr (Or.inl hu), Or.inr ⟨given, ?_⟩⟩
        have huv : u ≠ v := by
          rintro rfl
          exact hleave i given hp
        rw [goTo_phase, Function.update_of_ne huv, hp]
    · exact ⟨v, (hmem v _).mpr (Or.inr ⟨rfl, rfl⟩), Or.inr ⟨none, by simp⟩⟩
  · intro u hu
    rw [goTo_phase, Function.update_apply] at hu
    by_cases huv : u = v
    · rw [if_pos huv] at hu
      exact absurd hu (by simp)
    · rw [if_neg huv] at hu
      exact Nat.le_succ_of_le (h.exhausted u hu)

omit [DecidableEq η] in
/-- An increment past the end of the list. -/
theorem DispenseInv.overrun (h : DispenseInv w s) {p : JobPhase η}
    (hleave : ∀ i given, s.phase v ≠ .toStart i given)
    (hge : w.numCases ≤ s.nextExecListIndex) :
    DispenseInv w ({ s with nextExecListIndex := s.nextExecListIndex + 1 }.goTo v p) where
  below := fun u i hu => Nat.lt_succ_of_lt (h.below u i hu)
  once := h.once
  drawn := by
    intro i _ hn
    obtain ⟨u, hu, hst | ⟨given, hp⟩⟩ := h.drawn i (Nat.lt_of_lt_of_le hn hge) hn
    · exact ⟨u, hu, Or.inl hst⟩
    · refine ⟨u, hu, Or.inr ⟨given, ?_⟩⟩
      have huv : u ≠ v := by
        rintro rfl
        exact hleave i given hp
      rw [goTo_phase, Function.update_of_ne huv, hp]
  exhausted := fun _ _ => Nat.le_succ_of_le hge

omit [DecidableEq η] in
theorem DispenseInv.incr (h : DispenseInv w s) {left : Nat} (hp : s.phase v = .drawing left)
    {a : Attempt} (hok : DispenseOk w s (.incr v a)) : DispenseInv w (incrStep w s v left a) := by
  have hleave : ∀ i given, s.phase v ≠ .toStart i given := by
    intro i given hq
    rw [hp] at hq
    exact absurd hq (by simp)
  have hstay : SameWork s s := ⟨rfl, rfl, rfl, rfl, rfl, rfl, rfl⟩
  unfold incrStep
  by_cases hserved : a.served = true
  · simp only [if_pos hserved]
    by_cases ha : a.answered = true
    · rw [if_pos ha]
      by_cases hge : s.nextExecListIndex ≥ w.numCases
      · rw [if_pos hge]
        exact h.overrun hleave hge
      · rw [if_neg hge]
        exact h.draw hleave
    · rw [if_neg ha]
      exact h.overrun hleave (hok hserved (Bool.eq_false_iff.mpr ha))
  · have ha : ¬ a.answered = true := fun ha => hserved (Attempt.served_of_answered ha)
    simp only [if_neg hserved, if_neg ha]
    refine h.goTo hstay (fun i given hq => absurd hq (hleave i given)) (fun hc => ?_)
    rcases nextTry_cases left (JobPhase.drawing (η := η)) (.down []) with he | ⟨n, he⟩
    · rw [he] at hc
      exact absurd hc (by simp)
    · rw [he] at hc
      exact absurd hc (by simp)

omit [DecidableEq ι] [DecidableEq η] in
theorem afterTracing_ne_complete (w : Workload ι η) (idx : Nat) (given : Option (List Nat))
    (ok : Bool) : afterTracing w idx given ok ≠ .complete := by
  unfold afterTracing
  split_ifs with hok
  · simp
  · split
    · simp
    · simp
    · simp

theorem addStep_phase (s : WorkState ι η) (idx pos : Nat) (l : List Nat) (left : Nat)
    (op : Nat × η) (a : Attempt) : ∃ (s' : WorkState ι η) (p : JobPhase η),
      addStep w s v idx pos l left op a = s'.goTo v p ∧ p ≠ .complete ∧
      s'.phase = s.phase ∧ s'.nextExecListIndex = s.nextExecListIndex ∧
      s'.handed = s.handed ∧ s'.started = s.started := by
  unfold addStep
  refine ⟨if a.served && decide (op.2 ∉ s.hashKeys) then
    { s with hashKeys := s.hashKeys ++ [op.2] } else s, ?_⟩
  have hsame : ∀ b : Bool, (if b then { s with hashKeys := s.hashKeys ++ [op.2] } else s).phase =
      s.phase ∧
      (if b then { s with hashKeys := s.hashKeys ++ [op.2] } else s).nextExecListIndex =
        s.nextExecListIndex ∧
      (if b then { s with hashKeys := s.hashKeys ++ [op.2] } else s).handed = s.handed ∧
      (if b then { s with hashKeys := s.hashKeys ++ [op.2] } else s).started = s.started := by
    intro b
    cases b <;> simp
  by_cases ha : a.answered = true
  · simp only [if_pos ha]
    exact ⟨_, rfl, by simp, hsame _⟩
  · simp only [if_neg ha]
    refine ⟨_, rfl, ?_, hsame _⟩
    rcases nextTry_cases left (JobPhase.adding (η := η) idx pos l)
      (.down (w.hashesOf v idx l)) with he | ⟨n, he⟩
    · rw [he]
      simp
    · rw [he]
      simp

theorem DispenseInv.step (h : DispenseInv w s) {a : WorkAction ι} (hok : DispenseOk w s a)
    (ht : workStep w s a = some t) : DispenseInv w t := by
  have hstay : SameWork s s := ⟨rfl, rfl, rfl, rfl, rfl, rfl, rfl⟩
  cases workStep_cases ht with
  | startJob hp hs hb => exact h.boot hs (by simp [hp]) hok hb
  | restoreJob hp hs hb => exact h.boot hs (by simp [hp]) hok hb
  | loopHead hp =>
    refine h.goTo ⟨rfl, rfl, rfl, rfl, rfl, rfl, rfl⟩ (by simp [hp]) (fun hc => hok ?_)
    by_contra hle
    rw [if_neg hle] at hc
    exact absurd hc (by simp)
  | incr hp => exact h.incr hp hok
  | setCaseStart hp =>
    refine h.move rfl rfl (fun x => Iff.rfl) (fun x hx => List.mem_append_left _ hx)
      (fun i given' hq => ?_) (by simp)
    rw [hp] at hq
    cases hq
    exact List.mem_append_right _ (List.mem_singleton_self _)
  | traced hp =>
    exact h.goTo hstay (by simp [hp]) (fun hc => absurd hc (afterTracing_ne_complete w _ _ _))
  | @add v a idx pos left l op hp hop =>
    obtain ⟨s', p, heq, hne, hphase, hnext, hhanded, hstarted⟩ :=
      addStep_phase (w := w) (v := v) s idx pos l left op a
    rw [heq]
    refine h.move (by rw [goTo_phase, hphase]) hnext (fun x => ?_) (fun x hx => ?_)
      (by simp [hp]) (fun hc => absurd hc hne)
    · show x ∈ s'.handed ↔ x ∈ s.handed
      rw [hhanded]
    · show x ∈ s'.started
      rw [hstarted]
      exact hx
  | addDone hp hop =>
    refine h.goTo hstay (by simp [hp]) (fun hc => ?_)
    split_ifs at hc with hl
  | setUniqueIndices hp =>
    refine h.move rfl rfl (fun x => Iff.rfl) (fun x hx => hx) (by simp [hp]) (fun hc => ?_)
    split_ifs at hc with hstop
  | investigate hp =>
    exact h.move rfl rfl (fun x => Iff.rfl) (fun x hx => hx) (by simp [hp]) (by simp)
  | setCaseEnd hp =>
    exact h.move rfl rfl (fun x => Iff.rfl) (fun x hx => hx) (by simp [hp]) (by simp)
  | crash hstarted hup => exact h.goTo hstay (fun i given hp => hok i given hp) (by simp)

end

/-- In a run that meets the condition, the indices are dispensed. -/
theorem test_cases_dispensed {ι η : Type} [DecidableEq ι] [DecidableEq η] (w : Workload ι η)
    {s : WorkState ι η} (h : (workMachine w).Reachable (DispenseOk w) s) : Dispensed w s := by
  have hinv : DispenseInv w s :=
    h.invariant DispenseInv.init (fun _ _ _ hs hok ht => hs.step hok ht)
  exact hinv.dispensed

/-- Two machines with two test cases. -/
def twoCases : Workload (Fin 2) Nat where
  numCases := 2
  names := fun _ => ["link1", "rename2"]
  length_names := fun _ => rfl
  ops := fun _ _ => []
  numCasesToTest := 100
  testCaseBasename := none
  stopAfterTracing := false
  stopAfterDedup := false

/-- The first machine crashes in its case and tests it again, the second tests the other. -/
def crashSchedule : List (WorkAction (Fin 2)) :=
  [.startJob 0 none, .startJob 1 none, .loopHead 0, .incr 0 .replied, .setCaseStart 0, .crash 0,
    .restoreJob 0 true (some 0), .setCaseStart 0, .traced 0 true, .add 0 .replied, .setCaseEnd 0,
    .loopHead 1, .incr 1 .replied, .setCaseStart 1, .traced 1 true, .add 1 .replied,
    .setCaseEnd 1, .loopHead 0, .incr 0 .replied, .loopHead 1, .incr 1 .replied]

/-- A check that is enough for this schedule. -/
def crashScheduleOk (s : WorkState (Fin 2) Nat) : WorkAction (Fin 2) → Bool
  | .startJob _ resolved => resolved.isNone
  | .restoreJob v _ (some idx) => decide ((v, idx) ∈ s.handed)
  | .loopHead v => decide (s.numTested v + 1 ≤ 100)
  | .incr _ a => a.answered
  | .crash v => match s.phase v with
    | .toStart _ _ => false
    | _ => true
  | _ => true

def afterCrash : WorkState (Fin 2) Nat :=
  ((workMachine twoCases).play crashScheduleOk (workMachine twoCases).init crashSchedule).get
    (by decide +kernel)

theorem test_cases_dispensed_crash :
    (∀ v, afterCrash.phase v = .complete) ∧
      ∀ i, i < 2 → ∃ v, (v, i) ∈ afterCrash.handed ∧ (v, i) ∈ afterCrash.started := by
  have hdone : ∀ v, afterCrash.phase v = .complete := by decide +kernel
  have hdisp : Dispensed twoCases afterCrash := by
    refine test_cases_dispensed twoCases (Machine.reachable_of_play (fun s a h => ?_)
      (Option.some_get _).symm)
    cases a with
    | startJob v resolved =>
      intro idx hidx
      rw [hidx] at h
      exact absurd h Bool.false_ne_true
    | restoreJob v retest resolved =>
      intro idx hidx
      rw [hidx] at h
      exact of_decide_eq_true h
    | loopHead v =>
      intro hlt
      exact absurd (of_decide_eq_true h) (Nat.not_le_of_gt hlt)
    | incr v a =>
      intro _ ha
      rw [crashScheduleOk, ha] at h
      exact absurd h Bool.false_ne_true
    | crash v =>
      intro idx given hp
      simp only [crashScheduleOk, hp] at h
      exact absurd h Bool.false_ne_true
    | _ => trivial
  exact ⟨hdone, hdisp.finished 0 (hdone 0) hdone⟩

/-- The first machine loses the reply to its first increment. -/
def lostIndexSchedule : List (WorkAction (Fin 2)) :=
  [.startJob 0 none, .startJob 1 none, .loopHead 0, .incr 0 .replyLost, .incr 0 .replied,
    .setCaseStart 0, .traced 0 true, .add 0 .replied, .setCaseEnd 0, .loopHead 0,
    .incr 0 .replied, .loopHead 1, .incr 1 .replied]

def afterLostIndex : WorkState (Fin 2) Nat :=
  ((workMachine twoCases).play (fun _ _ => true) (workMachine twoCases).init
    lostIndexSchedule).get (by decide +kernel)

/-- All machines are through, and nobody was handed the first case. -/
theorem test_case_dropped :
    (workMachine twoCases).Reachable (fun _ _ => True) afterLostIndex ∧
    (∀ v, afterLostIndex.phase v = .complete) ∧ (∀ v, (v, 0) ∉ afterLostIndex.handed) ∧
    ¬ Dispensed twoCases afterLostIndex := by
  have hdone : ∀ v, afterLostIndex.phase v = .complete := by decide +kernel
  have hnone : ∀ v, (v, 0) ∉ afterLostIndex.handed := by decide +kernel
  refine ⟨?_, hdone, hnone, fun h => ?_⟩
  · exact Machine.reachable_of_play (fun _ _ _ => trivial) (Option.some_get _).symm
  · obtain ⟨v, hv, -⟩ := h.finished 0 (hdone 0) hdone 0 (by decide)
    exact hnone v hv

end Executor
end Silhouette
