import Silhouette.Executor.WorkSharing

/-!
# Deduplication across the guests

`deduplicate` registers the hash of an operation with an `add` and keeps the operation if
the `add` was the first one.  The guest that has registered a hash is the only one that
will investigate it, so a claim must not get lost on the way: to a repeated `add` whose
first attempt was carried out, to a crash before the claims are recorded, or to a job that
is restored without them.
-/

namespace Silhouette
namespace Executor

open Lib VmComm

section

variable {ι η : Type} [DecidableEq ι] [DecidableEq η]

/-- Every registered operation has been investigated, or a guest has claimed it and still
has it to investigate. -/
def Covered (w : Workload ι η) (s : WorkState ι η) : Prop :=
  ∀ h ∈ s.hashKeys, h ∈ s.investigated ∨ ∃ v, h ∈ w.claims v (s.phase v)

/-- The job of a machine starts with a case whose recorded indices include the operation. -/
def RetestTakesUp (w : Workload ι η) (s : WorkState ι η) (v : ι) (resolved : Option Nat) (h : η) :
    Prop :=
  ∃ b idx l, resolved = some idx ∧ w.nameOf v idx = some b ∧ s.uniqueIndices v = some (b, l) ∧
    h ∈ w.hashesOf v idx l

/-- No `add` that registers an operation loses its reply; a restored job takes up what
its machine has left; and no case with claimed operations ends before they are
investigated. -/
def DedupOk (w : Workload ι η) (s : WorkState ι η) : WorkAction ι → Prop
  | .add v a => ∀ idx pos l left op, s.phase v = .adding idx pos l left →
      (w.ops v idx)[pos]? = some op → a.served = true → a.answered = false → op.2 ∈ s.hashKeys
  | .restoreJob v _ resolved => ∀ h ∈ w.claims v (s.phase v),
      h ∈ s.investigated ∨ RetestTakesUp w s v resolved h
  | .traced v ok => ok = false ∨ w.stopAfterTracing = true →
      ∀ h ∈ w.claims v (s.phase v), h ∈ s.investigated
  | .setUniqueIndices v => w.stopAfterDedup = true →
      ∀ h ∈ w.claims v (s.phase v), h ∈ s.investigated
  | _ => True

variable {w : Workload ι η} {s t : WorkState ι η} {v : ι}

omit [DecidableEq ι] [DecidableEq η] in
theorem mem_hashesOf {idx : Nat} {l : List Nat} {h : η} :
    h ∈ w.hashesOf v idx l ↔ ∃ k ∈ l, (k, h) ∈ w.ops v idx := by
  rw [Workload.hashesOf, List.mem_map]
  constructor
  · rintro ⟨⟨k, h⟩, hk, rfl⟩
    obtain ⟨hop, hkl⟩ := List.mem_filter.mp hk
    exact ⟨k, of_decide_eq_true hkl, hop⟩
  · rintro ⟨k, hkl, hop⟩
    exact ⟨(k, h), List.mem_filter.mpr ⟨hop, decide_eq_true hkl⟩, rfl⟩

omit [DecidableEq ι] [DecidableEq η] in
theorem hashesOf_nil (idx : Nat) : w.hashesOf v idx [] = [] := by
  simp [Workload.hashesOf]

omit [DecidableEq η] in
/-- A guest moves on; what it had claimed it still has, or it has been investigated. -/
theorem Covered.move (hc : Covered w s) {p : JobPhase η}
    (hphase : t.phase = Function.update s.phase v p)
    (hinv : ∀ h ∈ s.investigated, h ∈ t.investigated)
    (hkeep : ∀ h ∈ w.claims v (s.phase v), h ∈ t.investigated ∨ h ∈ w.claims v p)
    (hnew : ∀ h ∈ t.hashKeys, h ∈ s.hashKeys ∨ h ∈ w.claims v p) : Covered w t := by
  intro h hh
  rcases hnew h hh with hold | hp
  · rcases hc h hold with hi | ⟨u, hu⟩
    · exact Or.inl (hinv h hi)
    · by_cases huv : u = v
      · rcases hkeep h (huv ▸ hu) with hi | hp
        · exact Or.inl hi
        · exact Or.inr ⟨v, by rw [hphase, Function.update_self]; exact hp⟩
      · exact Or.inr ⟨u, by rw [hphase, Function.update_of_ne huv]; exact hu⟩
  · exact Or.inr ⟨v, by rw [hphase, Function.update_self]; exact hp⟩

omit [DecidableEq η] in
theorem Covered.boot (hc : Covered w s) {s' : WorkState ι η} (hsame : SameWork s s')
    {name : Option String} {resolved : Option Nat}
    (htake : ∀ h ∈ w.claims v (s.phase v), h ∈ s.investigated ∨ RetestTakesUp w s v resolved h)
    (ht : bootJob w s' v name resolved = some t) : Covered w t := by
  have hinv : ∀ h ∈ s.investigated, h ∈ s'.investigated := by
    intro h hh
    rw [hsame.investigated]
    exact hh
  have hold : ∀ p, ∀ h ∈ s'.hashKeys, h ∈ s.hashKeys ∨ h ∈ w.claims v p := by
    intro p h hh
    rw [hsame.hashKeys] at hh
    exact Or.inl hh
  rcases bootJob_cases ht with ⟨hnone, rfl⟩ | ⟨b, idx, -, hres, hname, rfl⟩
  · refine hc.move (by rw [goTo_phase, hsame.phase]) hinv (fun h hh => Or.inl ?_) (hold _)
    rcases htake h hh with hi | ⟨b, idx, l, hsome, -⟩
    · exact hinv h hi
    · rw [hnone] at hsome
      exact absurd hsome (by simp)
  · refine hc.move (by rw [goTo_phase, hsame.phase]) hinv (fun h hh => ?_) (hold _)
    rcases htake h hh with hi | ⟨b', idx', l, hsome, hname', hrec, hl⟩
    · exact Or.inl (hinv h hi)
    · -- the record is about the case the job starts with
      have hidx : idx' = idx := Option.some.inj (hsome.symm.trans hres)
      subst hidx
      have hb : b' = b := Option.some.inj (hname'.symm.trans hname)
      subst hb
      refine Or.inr ?_
      rw [Workload.claims, hsame.uniqueIndices, hrec, Option.bind_some, if_pos rfl]
      exact hl

theorem Covered.add (hc : Covered w s) {idx pos left : Nat} {l : List Nat} {op : Nat × η}
    (hp : s.phase v = .adding idx pos l left) (hop : (w.ops v idx)[pos]? = some op) {a : Attempt}
    (hlost : a.served = true → a.answered = false → op.2 ∈ s.hashKeys) :
    Covered w (addStep w s v idx pos l left op a) := by
  have hclaims : w.claims v (s.phase v) = w.hashesOf v idx l := by rw [hp]; rfl
  unfold addStep
  by_cases ha : a.answered = true
  · have hserved : a.served = true := Attempt.served_of_answered ha
    simp only [if_pos ha, hserved, Bool.true_and]
    by_cases hnew : op.2 ∉ s.hashKeys
    · -- the first `add` of the hash: the guest keeps the operation
      have hdec : decide (op.2 ∉ s.hashKeys) = true := decide_eq_true hnew
      simp only [hdec, if_true]
      have hmem : ∀ h, h ∈ w.hashesOf v idx l → h ∈ w.hashesOf v idx (l ++ [op.1]) := by
        intro h hh
        obtain ⟨k, hk, hko⟩ := mem_hashesOf.mp hh
        exact mem_hashesOf.mpr ⟨k, List.mem_append_left _ hk, hko⟩
      refine hc.move rfl (fun h hh => hh) (fun h hh => Or.inr ?_) (fun h hh => ?_)
      · exact hmem h (hclaims ▸ hh)
      · rcases List.mem_append.mp hh with hh | hh
        · exact Or.inl hh
        · rw [List.mem_singleton.mp hh]
          exact Or.inr (mem_hashesOf.mpr ⟨op.1, List.mem_append_right _ (List.mem_singleton_self _),
            List.mem_of_getElem? hop⟩)
    · have hdec : decide (op.2 ∉ s.hashKeys) = false := decide_eq_false hnew
      simp only [hdec, Bool.false_eq_true, if_false]
      refine hc.move rfl (fun h hh => hh) (fun h hh => Or.inr ?_) (fun h hh => Or.inl hh)
      rw [hclaims] at hh
      exact hh
  · simp only [if_neg ha]
    have hkeep : ∀ h ∈ w.claims v (s.phase v), h ∈ w.claims v
        (nextTry left (JobPhase.adding idx pos l) (.down (w.hashesOf v idx l))) := by
      intro h hh
      rw [hclaims] at hh
      rcases nextTry_cases left (JobPhase.adding (η := η) idx pos l)
        (.down (w.hashesOf v idx l)) with he | ⟨n, he⟩
      · rw [he]
        exact hh
      · rw [he]
        exact hh
    have hadd : (a.served && decide (op.2 ∉ s.hashKeys)) = false := by
      by_cases hserved : a.served = true
      · simp [hlost hserved (Bool.eq_false_iff.mpr ha)]
      · simp [hserved]
    rw [hadd]
    exact hc.move rfl (fun h hh => hh) (fun h hh => Or.inr (hkeep h hh)) (fun h hh => Or.inl hh)

omit [DecidableEq η] in
theorem Covered.traced (hc : Covered w s) {idx : Nat} {given : Option (List Nat)} {ok : Bool}
    (hp : s.phase v = .tracing idx given) (hok : DedupOk w s (.traced v ok)) :
    Covered w (s.goTo v (afterTracing w idx given ok)) := by
  refine hc.move rfl (fun h hh => hh) (fun h hh => ?_) (fun h hh => Or.inl hh)
  unfold afterTracing
  by_cases hfail : ok = false ∨ w.stopAfterTracing = true
  · exact Or.inl (hok hfail h hh)
  · have hcond : (!ok || w.stopAfterTracing) = false := by
      rw [not_or] at hfail
      simp [hfail.1, hfail.2]
    rw [hcond]
    rw [hp] at hh
    cases given with
    | none => exact Or.inr hh
    | some l =>
      cases l with
      | nil => exact absurd hh (by simp [Workload.claims, hashesOf_nil])
      | cons k l => exact Or.inr hh

omit [DecidableEq η] in
/-- A guest that has claimed nothing moves on without registering anything. -/
theorem Covered.idle (hc : Covered w s) {p q : JobPhase η} (hp : s.phase v = q)
    (hnone : w.claims v q = []) (hphase : t.phase = Function.update s.phase v p)
    (hinv : t.investigated = s.investigated) (hkeys : t.hashKeys = s.hashKeys) : Covered w t := by
  refine hc.move hphase (fun h hh => hinv.symm ▸ hh) (fun h hh => ?_)
    (fun h hh => Or.inl (hkeys ▸ hh))
  rw [hp, hnone] at hh
  exact absurd hh List.not_mem_nil

omit [DecidableEq η] in
theorem Covered.incr (hc : Covered w s) {left : Nat} (hp : s.phase v = .drawing left)
    {a : Attempt} : Covered w (incrStep w s v left a) := by
  unfold incrStep
  by_cases hserved : a.served = true
  · simp only [if_pos hserved]
    split_ifs with ha hge
    · exact hc.idle hp rfl rfl rfl rfl
    · exact hc.idle hp rfl rfl rfl rfl
    · exact hc.idle hp rfl rfl rfl rfl
  · simp only [if_neg hserved]
    split_ifs with ha hge
    · exact hc.idle hp rfl rfl rfl rfl
    · exact hc.idle hp rfl rfl rfl rfl
    · exact hc.idle hp rfl rfl rfl rfl

theorem Covered.step (hc : Covered w s) {a : WorkAction ι} (hok : DedupOk w s a)
    (ht : workStep w s a = some t) : Covered w t := by
  cases workStep_cases ht with
  | startJob hp hs hb =>
    refine hc.boot hs (fun h hh => ?_) hb
    rw [hp] at hh
    exact absurd hh List.not_mem_nil
  | restoreJob hp hs hb => exact hc.boot hs hok hb
  | loopHead hp => exact hc.idle hp rfl rfl rfl rfl
  | incr hp => exact hc.incr hp
  | setCaseStart hp =>
    refine hc.move rfl (fun h hh => hh) (fun h hh => Or.inr ?_) (fun h hh => Or.inl hh)
    rw [hp] at hh
    exact hh
  | traced hp => exact hc.traced hp hok
  | add hp hop => exact hc.add hp hop (hok _ _ _ _ _ hp hop)
  | @addDone v a idx pos left l hp hop =>
    refine hc.move rfl (fun h hh => hh) (fun h hh => Or.inr ?_) (fun h hh => Or.inl hh)
    rw [hp] at hh
    by_cases hl : l = []
    · subst hl
      exact absurd hh (by simp [Workload.claims, hashesOf_nil])
    · rw [if_neg hl]
      exact hh
  | setUniqueIndices hp =>
    refine hc.move rfl (fun h hh => hh) (fun h hh => ?_) (fun h hh => Or.inl hh)
    by_cases hstop : w.stopAfterDedup = true
    · exact Or.inl (hok hstop h hh)
    · rw [if_neg hstop]
      rw [hp] at hh
      exact Or.inr hh
  | investigate hp =>
    refine hc.move rfl (fun h hh => List.mem_append_left _ hh) (fun h hh => Or.inl ?_)
      (fun h hh => Or.inl hh)
    rw [hp] at hh
    exact List.mem_append_right _ hh
  | setCaseEnd hp => exact hc.idle hp rfl rfl rfl rfl
  | crash hstarted hup =>
    exact hc.move rfl (fun h hh => hh) (fun h hh => Or.inr hh) (fun h hh => Or.inl hh)

end

/-- One machine and one case with one operation, of hash 7. -/
def oneOp : Workload (Fin 1) Nat where
  numCases := 1
  names := fun _ => ["link1"]
  length_names := fun _ => rfl
  ops := fun _ _ => [(0, 7)]
  numCasesToTest := 100
  testCaseBasename := none
  stopAfterTracing := false
  stopAfterDedup := false

/-- The machine crashes while it investigates the operation and takes it up again. -/
def retestSchedule : List (WorkAction (Fin 1)) :=
  [.startJob 0 none, .loopHead 0, .incr 0 .replied, .setCaseStart 0, .traced 0 true,
    .add 0 .replied, .add 0 .replied, .setUniqueIndices 0, .crash 0, .restoreJob 0 true (some 0),
    .setCaseStart 0]

/-- A check that is enough for this schedule. -/
def retestScheduleOk (s : WorkState (Fin 1) Nat) : WorkAction (Fin 1) → Bool
  | .add _ a => a.answered
  | .restoreJob v _ resolved => decide (resolved = some 0 ∧ s.uniqueIndices v = some ("link1", [0]) ∧
      ∀ h ∈ oneOp.claims v (s.phase v), h ∈ oneOp.hashesOf v 0 [0])
  | .traced _ ok => ok
  | _ => true

def afterRetest : WorkState (Fin 1) Nat :=
  ((workMachine oneOp).play retestScheduleOk (workMachine oneOp).init retestSchedule).get
    (by decide +kernel)

/-- The `add` is carried out and its reply lost, so the repeated one finds the hash. -/
def lostClaimSchedule : List (WorkAction (Fin 1)) :=
  [.startJob 0 none, .loopHead 0, .incr 0 .replied, .setCaseStart 0, .traced 0 true,
    .add 0 .replyLost, .add 0 .replied, .add 0 .replied, .setCaseEnd 0, .loopHead 0,
    .incr 0 .replied]

def afterLostClaim : WorkState (Fin 1) Nat :=
  ((workMachine oneOp).play (fun _ _ => true) (workMachine oneOp).init lostClaimSchedule).get
    (by decide +kernel)

end Executor
end Silhouette
