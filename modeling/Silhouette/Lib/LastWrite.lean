/-
The last write of a sequence to one place.

`f` says what an element of the sequence writes to the place, if anything.  A
fold in which every element overwrites the place is determined by it, so two
sequences with the same last writes leave the same state.
-/
import Mathlib.Data.List.Basic

namespace Lib

variable {α β : Type} (f : α → Option β)

def lastWrite (l : List α) : Option β := (l.filterMap f).getLast?

theorem lastWrite_append (l m : List α) :
    lastWrite f (l ++ m) = (lastWrite f m).or (lastWrite f l) := by
  unfold lastWrite
  rw [List.filterMap_append, List.getLast?_append]

theorem lastWrite_singleton (x : α) : lastWrite f [x] = f x := by
  unfold lastWrite
  cases h : f x with
  | none => simp [h]
  | some b => simp [h]

theorem lastWrite_map {γ : Type} (g : γ → α) (l : List γ) :
    lastWrite f (l.map g) = lastWrite (fun x => f (g x)) l := by
  rw [lastWrite, lastWrite, List.filterMap_map]
  rfl

theorem lastWrite_congr {g : α → Option β} {l : List α} (h : ∀ x ∈ l, f x = g x) :
    lastWrite f l = lastWrite g l := by
  rw [lastWrite, lastWrite, List.filterMap_congr h]

/-- Where nothing is written nothing is the last. -/
theorem lastWrite_eq_none {l : List α} (h : ∀ x ∈ l, f x = none) : lastWrite f l = none := by
  rw [lastWrite, List.filterMap_eq_nil_iff.mpr h]
  rfl

/-- What writes nothing there may be left out. -/
theorem lastWrite_filter {p : α → Bool} {l : List α} (h : ∀ x ∈ l, p x = false → f x = none) :
    lastWrite f (l.filter p) = lastWrite f l := by
  rw [lastWrite, lastWrite, List.filterMap_filter]
  congr 1
  refine List.filterMap_congr fun x hx => ?_
  cases hp : p x with
  | true => exact if_pos rfl
  | false => exact (if_neg Bool.false_ne_true).trans (h x hx hp).symm

/-- What comes again behind a list may be left out of it. -/
theorem lastWrite_append_of_subset {l m : List α} (h : l ⊆ m) :
    lastWrite f (l ++ m) = lastWrite f m := by
  rw [lastWrite_append]
  cases hm : lastWrite f m with
  | some b => rfl
  | none =>
    have hnone : m.filterMap f = [] := List.getLast?_eq_none_iff.mp hm
    rw [Option.none_or]
    exact lastWrite_eq_none f fun x hx => List.filterMap_eq_nil_iff.mp hnone x (h hx)

/-- A write with none behind it is the last. -/
theorem lastWrite_append_cons {x : α} {b : β} (hx : f x = some b) (l₁ : List α) {l₂ : List α}
    (h : ∀ y ∈ l₂, f y = none) : lastWrite f (l₁ ++ x :: l₂) = some b := by
  have hsplit : l₁ ++ x :: l₂ = (l₁ ++ [x]) ++ l₂ := by simp
  rw [hsplit, lastWrite_append, lastWrite_append, lastWrite_singleton, lastWrite_eq_none f h, hx]
  rfl

/-- Going through a stretch twice in a row makes no difference. -/
theorem lastWrite_replay (l₁ l₂ l₃ : List α) :
    lastWrite f (l₁ ++ l₂ ++ l₂ ++ l₃) = lastWrite f (l₁ ++ l₂ ++ l₃) := by
  simp only [lastWrite_append]
  cases lastWrite f l₃ with
  | some b => rfl
  | none =>
    cases lastWrite f l₂ with
    | some b => rfl
    | none => rfl

end Lib
