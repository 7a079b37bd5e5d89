/-
Threads that share a state under one lock.

A thread runs a program that takes and releases the lock and reads and changes the shared
state.  The lock is not recursive: a thread that takes it while holding it waits for itself.
`wp` follows one program through its paths, whatever the other threads do to the state while
the program does not hold the lock.  `Pool` runs any number of threads, and `Pool.inv_of_reachable`
carries what `wp` says of each program to every run of the pool.
-/
import Silhouette.Lib.Machine

namespace Lib

/-- A program of a thread over the shared state `σ`. -/
inductive LockProg (σ α : Type) : Type where
  | pure (a : α)
  | lock (k : LockProg σ α)
  | unlock (k : LockProg σ α)
  | read (k : σ → LockProg σ α)
  | modify (f : σ → σ) (k : LockProg σ α)

namespace LockProg

variable {σ α β : Type}

def bind : LockProg σ α → (α → LockProg σ β) → LockProg σ β
  | pure a, f => f a
  | lock k, f => lock (k.bind f)
  | unlock k, f => unlock (k.bind f)
  | read k, f => read fun s => (k s).bind f
  | modify g k, f => modify g (k.bind f)

instance : Monad (LockProg σ) where
  pure := pure
  bind := bind

def lock' : LockProg σ Unit := lock (pure ())

def unlock' : LockProg σ Unit := unlock (pure ())

def get : LockProg σ σ := read pure

def modify' (f : σ → σ) : LockProg σ Unit := modify f (pure ())

/-- From here on, with the lock held or not, the program never takes the lock while it holds it,
never releases it or changes the state without it, and ends in `post`.

The state may change at any time while the lock is not held, and it meets `ok` whenever the lock
is taken. -/
def wp (ok : σ → Prop) (post : Bool → α → σ → Prop) : Bool → LockProg σ α → σ → Prop
  | false, pure a, _ => ∀ s, post false a s
  | true, pure a, s => post true a s
  | false, lock k, _ => ∀ s, ok s → wp ok post true k s
  | true, lock _, _ => False
  | false, unlock _, _ => False
  | true, unlock k, s => wp ok post false k s
  | false, read k, _ => ∀ s, wp ok post false (k s) s
  | true, read k, s => wp ok post true (k s) s
  | false, modify _ _, _ => False
  | true, modify f k, s => wp ok post true k (f s)

section Rules

variable {ok : σ → Prop} {post : Bool → α → σ → Prop}

/-- Without the lock nothing is known of the state. -/
theorem wp_false_congr {p : LockProg σ α} {s t : σ} :
    wp ok post false p s ↔ wp ok post false p t := by
  cases p <;> rfl

theorem wp_bind {post : Bool → β → σ → Prop} {p : LockProg σ α} {f : α → LockProg σ β} {h : Bool}
    {s : σ} :
    wp ok post h (p >>= f) s ↔ wp ok (fun h a s => wp ok post h (f a) s) h p s := by
  show wp ok post h (p.bind f) s ↔ _
  induction p generalizing h s with
  | pure a =>
    cases h with
    | false => exact ⟨fun hp _ => wp_false_congr.mp hp, fun hp => hp s⟩
    | true => rfl
  | lock k ih =>
    cases h with
    | false => exact forall_congr' fun _ => imp_congr_right fun _ => ih
    | true => rfl
  | unlock k ih =>
    cases h with
    | false => rfl
    | true => exact ih
  | read k ih =>
    cases h with
    | false => exact forall_congr' fun _ => ih _
    | true => exact ih _
  | modify f k ih =>
    cases h with
    | false => rfl
    | true => exact ih

theorem wp_mono {post' : Bool → α → σ → Prop} {p : LockProg σ α} {h : Bool} {s : σ}
    (hpost : ∀ h a s, post h a s → post' h a s) (hp : wp ok post h p s) : wp ok post' h p s := by
  induction p generalizing h s with
  | pure a =>
    cases h with
    | false => exact fun s => hpost _ _ _ (hp s)
    | true => exact hpost _ _ _ hp
  | lock k ih =>
    cases h with
    | false => exact fun s hs => ih (hp s hs)
    | true => exact hp
  | unlock k ih =>
    cases h with
    | false => exact hp
    | true => exact ih hp
  | read k ih =>
    cases h with
    | false => exact fun s => ih _ (hp s)
    | true => exact ih _ hp
  | modify f k ih =>
    cases h with
    | false => exact hp
    | true => exact ih hp

@[simp] theorem wp_pure_false {a : α} {s : σ} :
    wp ok post false (Pure.pure a) s ↔ ∀ s, post false a s := Iff.rfl

@[simp] theorem wp_pure_true {a : α} {s : σ} :
    wp ok post true (Pure.pure a) s ↔ post true a s := Iff.rfl

end Rules

section Steps

variable {ok : σ → Prop} {s : σ}

@[simp] theorem wp_lock' {post : Bool → Unit → σ → Prop} :
    wp ok post false lock' s ↔ ∀ s, ok s → post true () s := Iff.rfl

@[simp] theorem wp_unlock' {post : Bool → Unit → σ → Prop} :
    wp ok post true unlock' s ↔ ∀ s, post false () s := Iff.rfl

@[simp] theorem wp_get_false {post : Bool → σ → σ → Prop} :
    wp ok post false get s ↔ ∀ s t, post false s t := Iff.rfl

@[simp] theorem wp_get_true {post : Bool → σ → σ → Prop} :
    wp ok post true get s ↔ post true s s := Iff.rfl

@[simp] theorem wp_modify' {post : Bool → Unit → σ → Prop} {f : σ → σ} :
    wp ok post true (modify' f) s ↔ post true () (f s) := Iff.rfl

end Steps

/-- The program starts and ends without the lock, whatever state it finds. -/
def Balanced (p : LockProg σ α) : Prop :=
  ∀ s, wp (fun _ => True) (fun h _ _ => h = false) false p s

theorem Balanced.pure (a : α) : Balanced (Pure.pure a : LockProg σ α) := fun _ _ => rfl

theorem Balanced.bind {p : LockProg σ α} {f : α → LockProg σ β} (hp : Balanced p)
    (hf : ∀ a, Balanced (f a)) : Balanced (p >>= f) := by
  intro s
  refine wp_bind.mpr (wp_mono (fun h a t hh => ?_) (hp s))
  rw [hh]
  exact hf a t

theorem Balanced.forM {f : β → LockProg σ PUnit} (hf : ∀ b, Balanced (f b)) (l : List β) :
    Balanced (l.forM f) := by
  induction l with
  | nil => exact Balanced.pure _
  | cons b l ih => exact (hf b).bind fun _ => ih

/-- With the lock held, the program takes it again before it releases it. -/
def LocksAgain : LockProg σ α → σ → Prop
  | pure _, _ => False
  | lock _, _ => True
  | unlock _, _ => False
  | read k, s => (k s).LocksAgain s
  | modify f k, s => k.LocksAgain (f s)

theorem LocksAgain.read {f : σ → LockProg σ α} {s : σ} (h : (f s).LocksAgain s) :
    (get >>= f).LocksAgain s := h

theorem LocksAgain.bind {p : LockProg σ α} {f : α → LockProg σ β} {s : σ} (h : p.LocksAgain s) :
    (p >>= f).LocksAgain s := by
  show (p.bind f).LocksAgain s
  induction p generalizing s with
  | pure a => exact h.elim
  | lock k ih => exact trivial
  | unlock k ih => exact h.elim
  | read k ih => exact ih _ h
  | modify g k ih => exact ih h

end LockProg

/-! ## Threads -/

/-- The threads with the calls they serve and what is left of their programs. -/
structure Pool (σ κ : Type) where
  shared : σ
  owner : Option Nat
  threads : List (κ × LockProg σ Unit)

/-- A call on a thread of its own, or the next step of a thread. -/
inductive PoolAction (κ : Type) where
  | start (c : κ)
  | run (i : Nat)

namespace Pool

variable {σ κ : Type}

def goto (S : Pool σ κ) (i : Nat) (c : κ) (p : LockProg σ Unit) : Pool σ κ :=
  { S with threads := S.threads.set i (c, p) }

/-- The lock is waited for while anyone holds it. -/
def stepThread (S : Pool σ κ) (i : Nat) (c : κ) : LockProg σ Unit → Option (Pool σ κ)
  | .pure _ => none
  | .lock k => if S.owner = none then some { S.goto i c k with owner := some i } else none
  | .unlock k => some { S.goto i c k with owner := none }
  | .read k => some (S.goto i c (k S.shared))
  | .modify f k => some { S.goto i c k with shared := f S.shared }

def step (code : κ → LockProg σ Unit) (S : Pool σ κ) : PoolAction κ → Option (Pool σ κ)
  | .start c => some { S with threads := S.threads ++ [(c, code c)] }
  | .run i =>
    match S.threads[i]? with
    | none => none
    | some (c, p) => S.stepThread i c p

def machine (code : κ → LockProg σ Unit) (s : σ) : Machine (Pool σ κ) (PoolAction κ) :=
  ⟨⟨s, none, []⟩, step code⟩

/-- A thread waits for the lock that it holds. -/
def SelfLocked (S : Pool σ κ) : Prop :=
  ∃ i c k, S.threads[i]? = some (c, .lock k) ∧ S.owner = some i

/-- A thread that takes the lock next finds a state that suits its call. -/
def Meets (ok : κ → σ → Prop) (S : Pool σ κ) : PoolAction κ → Prop
  | .start _ => True
  | .run i => ∀ c k, S.threads[i]? = some (c, .lock k) → ok c S.shared

/-- What `wp` says of the program of a thread in the pool. -/
def Follows (ok : κ → σ → Prop) (S : Pool σ κ) (i : Nat) (c : κ) (p : LockProg σ Unit) : Prop :=
  p.wp (ok c) (fun h _ _ => h = false) (decide (S.owner = some i)) S.shared

structure Inv (ok : κ → σ → Prop) (S : Pool σ κ) : Prop where
  follows : ∀ i c p, S.threads[i]? = some (c, p) → S.Follows ok i c p

variable {code : κ → LockProg σ Unit} {ok : κ → σ → Prop} {S T : Pool σ κ} {i : Nat} {c : κ}
  {p : LockProg σ Unit}

theorem follows_owner (h : S.owner = some i) :
    S.Follows ok i c p ↔ p.wp (ok c) (fun h _ _ => h = false) true S.shared := by
  rw [Follows, decide_eq_true h]

theorem follows_not_owner (h : S.owner ≠ some i) :
    S.Follows ok i c p ↔ p.wp (ok c) (fun h _ _ => h = false) false S.shared := by
  rw [Follows, decide_eq_false h]

/-- A thread that does not hold the lock is not disturbed. -/
theorem Follows.of_not_owner (h : S.Follows ok i c p) (hS : S.owner ≠ some i)
    (hT : T.owner ≠ some i) : T.Follows ok i c p :=
  (follows_not_owner hT).mpr (LockProg.wp_false_congr.mp ((follows_not_owner hS).mp h))

theorem Inv.not_selfLocked (h : S.Inv ok) : ¬ S.SelfLocked := by
  rintro ⟨i, c, k, hi, howner⟩
  exact (follows_owner howner).mp (h.follows i c _ hi)

theorem Inv.of_goto (hthreads : T.threads = S.threads.set i (c, p)) (hself : T.Follows ok i c p)
    (hother : ∀ j d q, j ≠ i → S.threads[j]? = some (d, q) → T.Follows ok j d q) : T.Inv ok := by
  refine ⟨fun j d q hj => ?_⟩
  rw [hthreads] at hj
  by_cases hji : j = i
  · rw [hji] at hj ⊢
    obtain ⟨-, hdq⟩ : i < _ ∧ (c, p) = (d, q) := by
      simpa [List.getElem?_set] using hj
    cases hdq
    exact hself
  · rw [List.getElem?_set_ne (Ne.symm hji)] at hj
    exact hother j d q hji hj

/-- One step of a thread.  Only its owner releases the lock or changes the state. -/
theorem Inv.run (h : S.Inv ok) (hi : S.threads[i]? = some (c, p)) (hok : Meets ok S (.run i))
    (ht : S.stepThread i c p = some T) : T.Inv ok := by
  have hself := h.follows i c p hi
  cases p with
  | pure a => cases ht
  | lock k =>
    rw [stepThread] at ht
    split at ht
    · rename_i hnone
      have hfree : ∀ j, S.owner ≠ some j := fun j => hnone ▸ nofun
      rw [← Option.some.inj ht]
      refine Inv.of_goto rfl ?_ fun j d q hji hj => ?_
      · exact (follows_owner rfl).mpr ((follows_not_owner (hfree i)).mp hself _ (hok _ _ hi))
      · exact (h.follows j d q hj).of_not_owner (hfree j) fun he => hji (Option.some.inj he).symm
    · cases ht
  | unlock k =>
    rw [← Option.some.inj ht]
    by_cases howner : S.owner = some i
    · refine Inv.of_goto rfl ?_ fun j d q hji hj => ?_
      · have hwp := (follows_owner howner).mp hself
        exact (follows_not_owner (S := { S.goto i c k with owner := none }) nofun).mpr hwp
      · exact (h.follows j d q hj).of_not_owner
          (fun he => hji (Option.some.inj (he.symm.trans howner))) nofun
    · exact ((follows_not_owner howner).mp hself).elim
  | read k =>
    rw [← Option.some.inj ht]
    refine Inv.of_goto rfl ?_ fun j d q _ hj => h.follows j d q hj
    by_cases howner : S.owner = some i
    · have hwp := (follows_owner howner).mp hself
      exact (follows_owner (S := S.goto i c (k S.shared)) howner).mpr hwp
    · have hwp := (follows_not_owner howner).mp hself
      exact (follows_not_owner (S := S.goto i c (k S.shared)) howner).mpr (hwp _)
  | modify f k =>
    rw [← Option.some.inj ht]
    by_cases howner : S.owner = some i
    · refine Inv.of_goto rfl ?_ fun j d q hji hj => ?_
      · have hwp := (follows_owner howner).mp hself
        exact (follows_owner (S := { S.goto i c k with shared := f S.shared }) howner).mpr hwp
      · have hne : S.owner ≠ some j := fun he => hji (Option.some.inj (he.symm.trans howner))
        exact (h.follows j d q hj).of_not_owner hne hne
    · exact ((follows_not_owner howner).mp hself).elim

theorem Inv.start (h : S.Inv ok) (howner : S.owner ≠ some S.threads.length)
    (hc : ∀ s, (code c).wp (ok c) (fun h _ _ => h = false) false s) :
    Inv ok { S with threads := S.threads ++ [(c, code c)] } := by
  refine ⟨fun j d q hj => ?_⟩
  rcases Nat.lt_trichotomy j S.threads.length with hlt | heq | hgt
  · rw [List.getElem?_append_left hlt] at hj
    exact h.follows j d q hj
  · subst heq
    rw [List.getElem?_append_right (Nat.le_refl _), Nat.sub_self] at hj
    cases hj
    exact (follows_not_owner howner).mpr (hc _)
  · rw [List.getElem?_eq_none (by simp; omega)] at hj
    cases hj

/-- The lock is held by one of the threads. -/
theorem owner_lt_of_reachable {s : σ} {any : Pool σ κ → PoolAction κ → Prop}
    (h : (machine code s).Reachable any S) : ∀ i, S.owner = some i → i < S.threads.length := by
  refine h.invariant (p := fun S => ∀ i, S.owner = some i → i < S.threads.length) nofun
    fun S a T hS _ ht => ?_
  cases a with
  | start c =>
    rw [← Option.some.inj ht]
    intro i hi
    simpa using Nat.lt_succ_of_lt (hS i hi)
  | run i =>
    change Pool.step code S (.run i) = some T at ht
    rw [step] at ht
    split at ht
    · cases ht
    · rename_i c p hi
      have hlt : i < S.threads.length := (List.getElem?_eq_some_iff.mp hi).1
      cases p with
      | pure a => cases ht
      | lock k =>
        rw [stepThread] at ht
        split at ht
        · rw [← Option.some.inj ht]
          intro j hj
          cases hj
          simpa [goto] using hlt
        · cases ht
      | unlock k =>
        rw [← Option.some.inj ht]
        exact fun j hj => by cases hj
      | read k =>
        rw [← Option.some.inj ht]
        simpa [goto] using hS
      | modify f k =>
        rw [← Option.some.inj ht]
        simpa [goto] using hS

/-- Programs that are followed by `wp` are followed in every run of the pool in which the lock is
only taken in states that suit the call. -/
theorem inv_of_reachable {s : σ}
    (hcode : ∀ c s, (code c).wp (ok c) (fun h _ _ => h = false) false s)
    (h : (machine code s).Reachable (Meets ok) S) : S.Inv ok := by
  induction h with
  | init => exact ⟨fun i c p hi => by cases hi⟩
  | @step S T a hS hok ht ih =>
    cases a with
    | start c =>
      rw [← Option.some.inj ht]
      exact ih.start (fun he => Nat.lt_irrefl _ (owner_lt_of_reachable hS _ he)) (hcode c)
    | run i =>
      change Pool.step code S (.run i) = some T at ht
      rw [Pool.step] at ht
      split at ht
      · cases ht
      · rename_i c p hi
        exact ih.run hi hok ht

theorem getElem?_goto_self (hi : S.threads[i]? = some (c, p)) (q : LockProg σ Unit) :
    (S.goto i c q).threads[i]? = some (c, q) :=
  List.getElem?_set_self (List.getElem?_eq_some_iff.mp hi).1

theorem play_run_succ {s : σ} (hi : S.threads[i]? = some (c, p)) (ht : S.stepThread i c p = some T)
    (n : Nat) :
    (machine code s).play (fun _ _ => true) S (List.replicate (n + 1) (.run i)) =
      (machine code s).play (fun _ _ => true) T (List.replicate n (.run i)) := by
  have hrun : (machine code s).step S (.run i) = some T := by
    show step code S (.run i) = some T
    rw [step, hi]
    exact ht
  rw [Machine.play, List.replicate_succ, List.foldlM_cons, if_pos rfl, hrun]
  rfl

/-- A thread that takes the lock again gets there on its own. -/
theorem exists_selfLocked {s : σ} (hi : S.threads[i]? = some (c, p)) (howner : S.owner = some i)
    (hp : p.LocksAgain S.shared) :
    ∃ n T, (machine code s).play (fun _ _ => true) S (List.replicate n (.run i)) = some T ∧
      T.SelfLocked := by
  induction p generalizing S with
  | pure a => exact hp.elim
  | lock k ih => exact ⟨0, S, rfl, i, c, k, hi, howner⟩
  | unlock k ih => exact hp.elim
  | read k ih =>
    obtain ⟨n, T, hplay, hT⟩ := ih S.shared (S := S.goto i c (k S.shared))
      (getElem?_goto_self hi _) howner hp
    exact ⟨n + 1, T, (play_run_succ hi rfl n).trans hplay, hT⟩
  | modify f k ih =>
    obtain ⟨n, T, hplay, hT⟩ := ih (S := { S.goto i c k with shared := f S.shared })
      (getElem?_goto_self hi _) howner hp
    exact ⟨n + 1, T, (play_run_succ hi rfl n).trans hplay, hT⟩

end Pool

end Lib
