import Silhouette.Lib.Machine
import Silhouette.VmComm.MemcachedWrapper

/-!
# The memcached lock

`acquire_lock` and `release_lock` both loop over a `gets` and a `cas`, and any number of
clients run them against one key.  `release_lock` does not look at the value it reads:
when the reply to its `cas` is lost the repeated `cas` fails, the loop reads the lock
again, and by then another client may hold it.

`LockInv` is kept by every step but the one where this happens, `UnlocksAnother`.
-/

namespace Silhouette
namespace VmComm

open Lib

inductive LockValue
  | unlocked
  | locked
  deriving DecidableEq, Repr

/-- The entry of the lock key: every write gives it a new id. -/
structure LockEntry where
  value : LockValue
  casId : Nat
  deriving DecidableEq, Repr

/-- `cas`: the entry afterwards, and whether the value was stored. -/
def LockEntry.cas (e : LockEntry) (value : LockValue) (casId : Nat) : LockEntry × Bool :=
  if casId = e.casId then (⟨value, e.casId + 1⟩, true) else (e, false)

/-- Where a client is in `acquire_lock` and `release_lock`, with the attempts its wrapper
has left.  The flag of the release phases is not known to the client: it tells whether
this call has had `UNLOCKED` stored. -/
inductive ClientPhase
  | idle
  | acquireGets (left : Nat)
  | acquireCas (casId left : Nat)
  | holding
  | releaseGets (left : Nat) (stored : Bool)
  | releaseCas (casId left : Nat) (stored : Bool)
  | opFailed
  deriving DecidableEq, Repr

structure LockState (ι : Type) where
  entry : LockEntry
  phase : ι → ClientPhase

/-- A client calls the next function, or its wrapper makes an attempt. -/
inductive LockAction (ι : Type)
  | call (c : ι)
  | attempt (c : ι) (a : Attempt)

section

variable {ι : Type} [DecidableEq ι]

def LockState.goTo (s : LockState ι) (c : ι) (p : ClientPhase) : LockState ι :=
  { s with phase := Function.update s.phase c p }

@[simp] theorem LockState.goTo_entry (s : LockState ι) (c : ι) (p : ClientPhase) :
    (s.goTo c p).entry = s.entry := rfl

theorem LockState.goTo_phase (s : LockState ι) (c d : ι) (p : ClientPhase) :
    (s.goTo c p).phase d = if d = c then p else s.phase d :=
  Function.update_apply s.phase c p d

/-- What the loop of `acquire_lock` does with the value it has read. -/
def acquireNext (e : LockEntry) : ClientPhase :=
  match e.value with
  | .locked => .acquireGets mcCmdRetryTimes
  | .unlocked => .acquireCas e.casId mcCmdRetryTimes

/-- The server's part of an attempt at a `cas`. -/
def attemptCas (e : LockEntry) (value : LockValue) (casId : Nat) (a : Attempt) :
    LockEntry × Bool :=
  if a.served then e.cas value casId else (e, false)

def attemptStep (s : LockState ι) (c : ι) (a : Attempt) : Option (LockState ι) :=
  match s.phase c with
  | .acquireGets left =>
    some (s.goTo c (if a.answered then acquireNext s.entry
      else nextTry left .acquireGets .opFailed))
  | .acquireCas casId left =>
    let r := attemptCas s.entry .locked casId a
    some ({ s with entry := r.1 }.goTo c
      (if a.answered then
        if r.2 then .holding else .acquireGets mcCmdRetryTimes
      else nextTry left (.acquireCas casId) .opFailed))
  | .releaseGets left stored =>
    some (s.goTo c (if a.answered then .releaseCas s.entry.casId mcCmdRetryTimes stored
      else nextTry left (.releaseGets · stored) .opFailed))
  | .releaseCas casId left stored =>
    let r := attemptCas s.entry .unlocked casId a
    some ({ s with entry := r.1 }.goTo c
      (if a.answered then
        if r.2 then .idle else .releaseGets mcCmdRetryTimes stored
      else nextTry left (.releaseCas casId · (stored || r.2)) .opFailed))
  | _ => none

def lockStep (s : LockState ι) : LockAction ι → Option (LockState ι)
  | .call c =>
    match s.phase c with
    | .idle => some (s.goTo c (.acquireGets mcCmdRetryTimes))
    | .holding => some (s.goTo c (.releaseGets mcCmdRetryTimes false))
    | _ => none
  | .attempt c a => attemptStep s c a

/-- The clients of one lock, after `init_lock`. -/
def lockMachine (ι : Type) [DecidableEq ι] : Machine (LockState ι) (LockAction ι) where
  init := ⟨⟨.unlocked, 0⟩, fun _ => .idle⟩
  step := lockStep

/-! ## Ownership -/

/-- The client has the lock and has not had it unlocked yet. -/
def ClientPhase.owns : ClientPhase → Bool
  | .holding => true
  | .releaseGets _ stored => !stored
  | .releaseCas _ _ stored => !stored
  | _ => false

/-- The id the client will compare. -/
def ClientPhase.casId? : ClientPhase → Option Nat
  | .acquireCas casId _ => some casId
  | .releaseCas casId _ _ => some casId
  | _ => none

def ClientPhase.isAcquireCas : ClientPhase → Bool
  | .acquireCas _ _ => true
  | _ => false

/-- The id a release compares once it has had `UNLOCKED` stored. -/
def ClientPhase.unlockAgainId? : ClientPhase → Option Nat
  | .releaseCas casId _ true => some casId
  | _ => none

structure LockInv (s : LockState ι) : Prop where
  seen : ∀ c n, (s.phase c).casId? = some n → n ≤ s.entry.casId
  locked : ∀ c, (s.phase c).owns = true → s.entry.value = .locked
  alone : ∀ c d, (s.phase c).owns = true → (s.phase d).owns = true → c = d
  acquiring : ∀ c, (s.phase c).isAcquireCas = true → (s.phase c).casId? = some s.entry.casId →
    s.entry.value = .unlocked

/-- An attempt of a release that has had `UNLOCKED` stored before finds the lock taken
again and its id current: it unlocks another client's lock. -/
def UnlocksAnother (s : LockState ι) : LockAction ι → Prop
  | .call _ => False
  | .attempt c a => a.served = true ∧ s.entry.value = .locked ∧
      (s.phase c).unlockAgainId? = some s.entry.casId

instance (s : LockState ι) (a : LockAction ι) : Decidable (UnlocksAnother s a) :=
  match a with
  | .call _ => inferInstanceAs (Decidable False)
  | .attempt _ _ => inferInstanceAs (Decidable (_ ∧ _ ∧ _))

variable {s : LockState ι} {c : ι}

theorem lockInv_init : LockInv (lockMachine ι).init where
  seen := by simp [lockMachine, ClientPhase.casId?]
  locked := by simp [lockMachine, ClientPhase.owns]
  alone := by simp [lockMachine, ClientPhase.owns]
  acquiring := by simp [lockMachine, ClientPhase.isAcquireCas]

/-- A client moves on without a write and does not come to own the lock. -/
theorem LockInv.goTo (h : LockInv s) {p : ClientPhase}
    (hseen : ∀ n, p.casId? = some n → n ≤ s.entry.casId)
    (howns : p.owns = true → (s.phase c).owns = true)
    (hacq : p.isAcquireCas = true → p.casId? = some s.entry.casId →
      s.entry.value = .unlocked) :
    LockInv (s.goTo c p) := by
  have howner : ∀ d, ((s.goTo c p).phase d).owns = true → (s.phase d).owns = true := by
    intro d hd
    rw [LockState.goTo_phase] at hd
    by_cases hdc : d = c
    · rw [if_pos hdc] at hd
      exact hdc ▸ howns hd
    · rwa [if_neg hdc] at hd
  refine ⟨?_, ?_, ?_, ?_⟩
  · intro d n hd
    rw [LockState.goTo_phase] at hd
    by_cases hdc : d = c
    · rw [if_pos hdc] at hd
      exact hseen n hd
    · rw [if_neg hdc] at hd
      exact h.seen d n hd
  · exact fun d hd => h.locked d (howner d hd)
  · exact fun d e hd he => h.alone d e (howner d hd) (howner e he)
  · intro d hd hid
    rw [LockState.goTo_phase] at hd hid
    by_cases hdc : d = c
    · rw [if_pos hdc] at hd hid
      exact hacq hd hid
    · rw [if_neg hdc] at hd hid
      exact h.acquiring d hd hid

theorem LockInv.goTo_free (h : LockInv s) {p : ClientPhase} (hid : p.casId? = none)
    (hfree : p.owns = false) : LockInv (s.goTo c p) := by
  refine h.goTo (fun n hn => ?_) (fun ho => ?_) (fun _ hn => ?_)
  · rw [hid] at hn
    exact absurd hn (by simp)
  · rw [hfree] at ho
    exact absurd ho Bool.false_ne_true
  · rw [hid] at hn
    exact absurd hn (by simp)

/-- A write outdates the ids all clients have read, so only ownership is left to check. -/
theorem LockInv.store (h : LockInv s) {p : ClientPhase} {v : LockValue}
    (hseen : ∀ n, p.casId? = some n → n ≤ s.entry.casId)
    (hothers : ∀ d, (s.phase d).owns = true → d = c)
    (howns : p.owns = true → v = .locked) :
    LockInv ({ s with entry := ⟨v, s.entry.casId + 1⟩ }.goTo c p) := by
  have howner : ∀ d, ((s.goTo c p).phase d).owns = true → d = c ∧ p.owns = true := by
    intro d hd
    rw [LockState.goTo_phase] at hd
    by_cases hdc : d = c
    · rw [if_pos hdc] at hd
      exact ⟨hdc, hd⟩
    · rw [if_neg hdc] at hd
      exact absurd (hothers d hd) hdc
  have hold : ∀ d n, ((s.goTo c p).phase d).casId? = some n → n ≤ s.entry.casId := by
    intro d n hd
    rw [LockState.goTo_phase] at hd
    by_cases hdc : d = c
    · rw [if_pos hdc] at hd
      exact hseen n hd
    · rw [if_neg hdc] at hd
      exact h.seen d n hd
  refine ⟨?_, ?_, ?_, ?_⟩
  · exact fun d n hd => Nat.le_succ_of_le (hold d n hd)
  · exact fun d hd => howns (howner d hd).2
  · exact fun d e hd he => (howner d hd).1.trans (howner e he).1.symm
  · intro d _ hid
    exact absurd (hold d _ hid) (Nat.not_succ_le_self _)

/-- The id was current and the value is written, or nothing has changed. -/
theorem attemptCas_cases (e : LockEntry) (v : LockValue) (n : Nat) (a : Attempt) :
    attemptCas e v n a = (e, false) ∨
      n = e.casId ∧ a.served = true ∧ attemptCas e v n a = (⟨v, e.casId + 1⟩, true) := by
  rw [attemptCas, LockEntry.cas]
  by_cases ha : a.served = true
  · rw [if_pos ha]
    by_cases hn : n = e.casId
    · exact Or.inr ⟨hn, ha, if_pos hn⟩
    · exact Or.inl (if_neg hn)
  · exact Or.inl (if_neg ha)

/-- Whatever the wrapper's loop goes on with after an exception. -/
theorem nextTry_rule {q : ClientPhase → Prop} (left : Nat) (again : Nat → ClientPhase)
    (hagain : ∀ n, q (again n)) (hfailed : q .opFailed) :
    q (nextTry left again .opFailed) := by
  rcases nextTry_cases left again .opFailed with h | ⟨n, h⟩
  · rw [h]
    exact hfailed
  · rw [h]
    exact hagain n

theorem LockInv.acquireGets (h : LockInv s) {left : Nat} (hp : s.phase c = .acquireGets left)
    {a : Attempt} {t : LockState ι} (ht : attemptStep s c a = some t) : LockInv t := by
  rw [attemptStep, hp] at ht
  rw [← Option.some.inj ht]
  by_cases ha : a.answered = true
  · rw [if_pos ha, acquireNext]
    cases hv : s.entry.value with
    | locked =>
      show LockInv (s.goTo c (.acquireGets mcCmdRetryTimes))
      exact h.goTo_free rfl rfl
    | unlocked =>
      show LockInv (s.goTo c (.acquireCas s.entry.casId mcCmdRetryTimes))
      exact h.goTo (by simp [ClientPhase.casId?]) (by simp [ClientPhase.owns])
        (fun _ _ => hv)
  · rw [if_neg ha]
    refine nextTry_rule (q := fun p => LockInv (s.goTo c p)) left _ (fun n => ?_) ?_
    · exact h.goTo_free rfl rfl
    · exact h.goTo_free rfl rfl

theorem LockInv.releaseGets (h : LockInv s) {left : Nat} {stored : Bool}
    (hp : s.phase c = .releaseGets left stored) {a : Attempt} {t : LockState ι}
    (ht : attemptStep s c a = some t) : LockInv t := by
  have howns : (s.phase c).owns = !stored := by rw [hp]; rfl
  rw [attemptStep, hp] at ht
  rw [← Option.some.inj ht]
  by_cases ha : a.answered = true
  · rw [if_pos ha]
    exact h.goTo (by simp [ClientPhase.casId?]) (fun ho => howns.trans ho)
      (by simp [ClientPhase.isAcquireCas])
  · rw [if_neg ha]
    refine nextTry_rule (q := fun p => LockInv (s.goTo c p)) left _ (fun n => ?_) ?_
    · exact h.goTo (by simp [ClientPhase.casId?]) (fun ho => howns.trans ho)
        (by simp [ClientPhase.isAcquireCas])
    · exact h.goTo_free rfl rfl

theorem LockInv.acquireCas (h : LockInv s) {n left : Nat} (hp : s.phase c = .acquireCas n left)
    {a : Attempt} {t : LockState ι} (ht : attemptStep s c a = some t) : LockInv t := by
  have hseen : n ≤ s.entry.casId := h.seen c n (by rw [hp]; rfl)
  rw [attemptStep, hp] at ht
  rw [← Option.some.inj ht]
  rcases attemptCas_cases s.entry .locked n a with hr | ⟨rfl, -, hr⟩
  · simp only [hr, Bool.false_eq_true, if_false]
    have hacq : ∀ m, (ClientPhase.acquireCas n m).casId? = some s.entry.casId →
        s.entry.value = .unlocked := by
      intro m hm
      exact h.acquiring c (by rw [hp]; rfl) (by rw [hp]; exact hm)
    by_cases ha : a.answered = true
    · rw [if_pos ha]
      exact h.goTo_free rfl rfl
    · rw [if_neg ha]
      refine nextTry_rule (q := fun p => LockInv (s.goTo c p)) left _ (fun m => ?_) ?_
      · exact h.goTo (by simpa [ClientPhase.casId?] using hseen) (by simp [ClientPhase.owns])
          (fun _ => hacq m)
      · exact h.goTo_free rfl rfl
  · -- the id is current, so the value has not changed since it was read: nobody owns the lock
    have hfree : s.entry.value = .unlocked :=
      h.acquiring c (by rw [hp]; rfl) (by rw [hp]; rfl)
    have hnone : ∀ d, (s.phase d).owns = true → d = c := by
      intro d hd
      have hl := h.locked d hd
      rw [hfree] at hl
      exact absurd hl (by decide)
    simp only [hr, if_true]
    by_cases ha : a.answered = true
    · rw [if_pos ha]
      exact h.store (by simp [ClientPhase.casId?]) hnone (fun _ => rfl)
    · rw [if_neg ha]
      refine nextTry_rule (q := fun p => LockInv (LockState.goTo _ c p)) left _ (fun m => ?_) ?_
      · exact h.store (by simp [ClientPhase.casId?]) hnone (fun _ => rfl)
      · exact h.store (by simp [ClientPhase.casId?]) hnone (fun _ => rfl)

theorem LockInv.releaseCas (h : LockInv s) {n left : Nat} {stored : Bool}
    (hp : s.phase c = .releaseCas n left stored) {a : Attempt}
    (hok : ¬ UnlocksAnother s (.attempt c a)) {t : LockState ι}
    (ht : attemptStep s c a = some t) : LockInv t := by
  have hseen : n ≤ s.entry.casId := h.seen c n (by rw [hp]; rfl)
  have howns : (s.phase c).owns = !stored := by rw [hp]; rfl
  rw [attemptStep, hp] at ht
  rw [← Option.some.inj ht]
  rcases attemptCas_cases s.entry .unlocked n a with hr | ⟨rfl, hserved, hr⟩
  · simp only [hr, Bool.false_eq_true, if_false, Bool.or_false]
    by_cases ha : a.answered = true
    · rw [if_pos ha]
      exact h.goTo (by simp [ClientPhase.casId?]) (fun ho => howns.trans ho)
        (by simp [ClientPhase.isAcquireCas])
    · rw [if_neg ha]
      refine nextTry_rule (q := fun p => LockInv (s.goTo c p)) left _ (fun m => ?_) ?_
      · exact h.goTo (by simpa [ClientPhase.casId?] using hseen) (fun ho => howns.trans ho)
          (by simp [ClientPhase.isAcquireCas])
      · exact h.goTo_free rfl rfl
  · -- the owner, if there is one, is the client itself: it owns the lock unless it has
    -- unlocked it before, and then the lock must not be taken
    have hnone : ∀ d, (s.phase d).owns = true → d = c := by
      intro d hd
      cases stored with
      | false => exact h.alone d c hd (by rw [hp]; rfl)
      | true => exact absurd ⟨hserved, h.locked d hd, by rw [hp]; rfl⟩ hok
    simp only [hr, if_true, Bool.or_true]
    by_cases ha : a.answered = true
    · rw [if_pos ha]
      exact h.store (by simp [ClientPhase.casId?]) hnone (by simp [ClientPhase.owns])
    · rw [if_neg ha]
      refine nextTry_rule (q := fun p => LockInv (LockState.goTo _ c p)) left _ (fun m => ?_) ?_
      · exact h.store (by simp [ClientPhase.casId?]) hnone (by simp [ClientPhase.owns])
      · exact h.store (by simp [ClientPhase.casId?]) hnone (by simp [ClientPhase.owns])

theorem LockInv.call (h : LockInv s) {t : LockState ι} (ht : lockStep s (.call c) = some t) :
    LockInv t := by
  rw [lockStep] at ht
  cases hp : s.phase c with
  | idle =>
    simp only [hp] at ht
    rw [← Option.some.inj ht]
    exact h.goTo_free rfl rfl
  | holding =>
    simp only [hp] at ht
    rw [← Option.some.inj ht]
    exact h.goTo (by simp [ClientPhase.casId?]) (fun _ => by rw [hp]; rfl)
      (by simp [ClientPhase.isAcquireCas])
  | acquireGets left => simp [hp] at ht
  | acquireCas n left => simp [hp] at ht
  | releaseGets left stored => simp [hp] at ht
  | releaseCas n left stored => simp [hp] at ht
  | opFailed => simp [hp] at ht

theorem LockInv.step (h : LockInv s) {a : LockAction ι} (hok : ¬ UnlocksAnother s a)
    {t : LockState ι} (ht : lockStep s a = some t) : LockInv t := by
  cases a with
  | call c => exact h.call ht
  | attempt c a =>
    cases hp : s.phase c with
    | acquireGets left => exact h.acquireGets hp ht
    | acquireCas n left => exact h.acquireCas hp ht
    | releaseGets left stored => exact h.releaseGets hp ht
    | releaseCas n left stored => exact h.releaseCas hp hok ht
    | idle => simp [lockStep, attemptStep, hp] at ht
    | holding => simp [lockStep, attemptStep, hp] at ht
    | opFailed => simp [lockStep, attemptStep, hp] at ht

end

/-- In a run where no release unlocks another client's lock, two clients never hold the
lock at once. -/
theorem lock_mutual_exclusion {ι : Type} [DecidableEq ι] {s : LockState ι}
    (h : (lockMachine ι).Reachable (fun s a => ¬ UnlocksAnother s a) s) {c d : ι}
    (hc : s.phase c = .holding) (hd : s.phase d = .holding) : c = d := by
  have hinv : LockInv s :=
    h.invariant lockInv_init (fun s a t hs hok ht => hs.step hok ht)
  exact hinv.alone c d (by rw [hc]; rfl) (by rw [hd]; rfl)

/-- The first client takes the lock and loses the reply to its unlocking, the second takes
the lock, and the first goes on to unlock it again. -/
def lostReplySchedule : List (LockAction (Fin 3)) :=
  [.call 0, .attempt 0 .replied, .attempt 0 .replied,
    .call 0, .attempt 0 .replied, .attempt 0 .replyLost,
    .call 1, .attempt 1 .replied, .attempt 1 .replied,
    .attempt 0 .replied, .attempt 0 .replied, .attempt 0 .replied,
    .call 2, .attempt 2 .replied, .attempt 2 .replied]

def afterLostReply : LockState (Fin 3) :=
  ((lockMachine (Fin 3)).play (fun _ _ => true) (lockMachine (Fin 3)).init
    lostReplySchedule).get (by decide)

/-- Then the second and the third client hold the lock. -/
theorem lock_held_twice : ∃ s c d,
    (lockMachine (Fin 3)).Reachable (fun _ _ => True) s ∧
      s.phase c = .holding ∧ s.phase d = .holding ∧ c ≠ d := by
  refine ⟨afterLostReply, 1, 2, ?_, by decide, by decide, by decide⟩
  exact Machine.reachable_of_play (fun _ _ _ => trivial) (Option.some_get _).symm

/-- The same with the reply to the repeated attempt lost too: the last attempt fails, and
the lock is free when it is read again. -/
def harmlessSchedule : List (LockAction (Fin 3)) :=
  [.call 0, .attempt 0 .replied, .attempt 0 .replied,
    .call 0, .attempt 0 .replied, .attempt 0 .replyLost, .attempt 0 .replyLost,
    .attempt 0 .replied, .attempt 0 .replied, .attempt 0 .replied,
    .call 1, .attempt 1 .replied, .attempt 1 .replied]

def afterHarmless : LockState (Fin 3) :=
  ((lockMachine (Fin 3)).play (fun s a => !decide (UnlocksAnother s a))
    (lockMachine (Fin 3)).init harmlessSchedule).get (by decide)

theorem lock_mutual_exclusion_harmless :
    afterHarmless.phase 1 = .holding ∧ ∀ d, afterHarmless.phase d = .holding → 1 = d := by
  refine ⟨by decide, fun d hd => lock_mutual_exclusion ?_ (by decide) hd⟩
  exact Machine.reachable_of_play (fun s a h => by simpa using h) (Option.some_get _).symm

end VmComm
end Silhouette
