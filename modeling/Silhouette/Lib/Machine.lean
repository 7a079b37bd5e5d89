import Mathlib.Logic.Basic

/-!
# Machines

A machine has a first state and steps that are taken under named actions, each of which
may be refused.  `Reachable ok` collects the states of the runs whose steps all meet the
condition `ok`, and `Reachable.invariant` is the one induction over runs.
-/

namespace Lib

/-- `step s a` is the state that the action `a` leads to, if it is possible in `s`. -/
structure Machine (σ α : Type) where
  init : σ
  step : σ → α → Option σ

/-! Machines of one and of two processes name them by the numerals of `Fin`. -/

instance neZero_one : @NeZero Nat Zero.ofOfNat0 1 := ⟨Nat.one_ne_zero⟩

instance neZero_two : @NeZero Nat Zero.ofOfNat0 2 := ⟨Nat.succ_ne_zero 1⟩

namespace Machine

variable {σ α : Type} (m : Machine σ α)

/-- The states of the runs all of whose steps meet `ok`. -/
inductive Reachable (ok : σ → α → Prop) : σ → Prop
  | init : Reachable ok m.init
  | step {s t : σ} {a : α} : Reachable ok s → ok s a → m.step s a = some t → Reachable ok t

variable {m}

/-- What holds at first and is kept by the steps that meet `ok` holds in all runs of such
steps. -/
theorem Reachable.invariant {ok : σ → α → Prop} {p : σ → Prop} (h0 : p m.init)
    (hstep : ∀ s a t, p s → ok s a → m.step s a = some t → p t) {s : σ}
    (h : m.Reachable ok s) : p s := by
  induction h with
  | init => exact h0
  | step _ hok ht ih => exact hstep _ _ _ ih hok ht

/-- A schedule: the actions one after another, each one checked. -/
def play (m : Machine σ α) (ok : σ → α → Bool) (s : σ) (as : List α) : Option σ :=
  as.foldlM (fun s a => if ok s a then m.step s a else none) s

theorem reachable_of_play_from {p : σ → α → Prop} {ok : σ → α → Bool}
    (hok : ∀ s a, ok s a = true → p s a) {as : List α} {s t : σ} (hs : m.Reachable p s)
    (h : m.play ok s as = some t) : m.Reachable p t := by
  induction as generalizing s with
  | nil => exact Option.some.inj h ▸ hs
  | cons a rest ih =>
    rw [play, List.foldlM_cons] at h
    obtain ⟨u, hu, hrest⟩ := Option.bind_eq_some_iff.mp h
    by_cases ha : ok s a = true
    · rw [if_pos ha] at hu
      exact ih (.step hs (hok s a ha) hu) hrest
    · rw [if_neg ha] at hu
      exact absurd hu (by simp)

/-- A schedule that goes through reaches its last state. -/
theorem reachable_of_play {p : σ → α → Prop} {ok : σ → α → Bool}
    (hok : ∀ s a, ok s a = true → p s a) {as : List α} {t : σ}
    (h : m.play ok m.init as = some t) : m.Reachable p t :=
  reachable_of_play_from hok .init h

end Machine

end Lib
