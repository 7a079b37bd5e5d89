/-
Ranges of natural numbers that are laid out one behind the other.

`Consecutive a l b` says that the ranges of `l`, each given by its first number
and its length, start at `a`, follow each other without gap and end at `b`.  Such
ranges are disjoint and cover exactly the numbers between `a` and `b`.

`Tiles unit lo hi l` is the same for integers, with the ranges cut at the multiples of a unit: each
range of `l` lies within one unit.
-/
import Mathlib.Data.List.Basic

namespace Lib

/-- The number lies in the range. -/
def InRange (r : Nat × Nat) (x : Nat) : Prop := r.1 ≤ x ∧ x < r.1 + r.2

def Consecutive : Nat → List (Nat × Nat) → Nat → Prop
  | a, [], b => a = b
  | a, r :: rest, b => r.1 = a ∧ Consecutive (a + r.2) rest b

namespace Consecutive

variable {a b : Nat} {l : List (Nat × Nat)}

theorem le (h : Consecutive a l b) : a ≤ b := by
  induction l generalizing a with
  | nil => exact Nat.le_of_eq h
  | cons r rest ih =>
    have := ih h.2
    omega

/-- Another range at the end. -/
theorem append (h : Consecutive a l b) (n : Nat) : Consecutive a (l ++ [(b, n)]) (b + n) := by
  induction l generalizing a with
  | nil =>
    obtain rfl : a = b := h
    exact ⟨rfl, rfl⟩
  | cons r rest ih => exact ⟨h.1, ih h.2⟩

/-- Some range covers a number exactly when it lies in between. -/
theorem exists_inRange (h : Consecutive a l b) (x : Nat) :
    (∃ r ∈ l, InRange r x) ↔ a ≤ x ∧ x < b := by
  induction l generalizing a with
  | nil =>
    obtain rfl : a = b := h
    simp
  | cons r rest ih =>
    have hrest := h.2.le
    rw [List.exists_mem_cons_iff, ih h.2, InRange, h.1]
    omega

theorem pairwise_disjoint (h : Consecutive a l b) :
    l.Pairwise fun r s => ∀ x, InRange r x → ¬ InRange s x := by
  induction l generalizing a with
  | nil => exact List.Pairwise.nil
  | cons r rest ih =>
    refine List.pairwise_cons.mpr ⟨fun s hs x hr hsx => ?_, ih h.2⟩
    have hlo := ((exists_inRange h.2 x).mp ⟨s, hs, hsx⟩).1
    have hhi := hr.2
    have hfirst := h.1
    omega

end Consecutive

/-- The ranges are not empty, ascend without overlap, cover `[lo, hi)` and nothing else, and none
reaches from one unit into another. -/
structure Tiles (unit lo hi : Int) (l : List (Int × Int)) : Prop where
  ascending : l.Pairwise fun r s => r.1 + r.2 ≤ s.1
  cover : ∀ x, (∃ r ∈ l, r.1 ≤ x ∧ x < r.1 + r.2) ↔ lo ≤ x ∧ x < hi
  inside : ∀ r ∈ l, 0 < r.2 ∧ r.1 / unit = (r.1 + r.2 - 1) / unit

namespace Tiles

variable {unit lo hi next : Int} {l : List (Int × Int)}

theorem nil (h : hi ≤ lo) : Tiles unit lo hi [] where
  ascending := List.Pairwise.nil
  cover x := by
    simp only [List.not_mem_nil, false_and, exists_false, false_iff]
    omega
  inside r hr := absurd hr List.not_mem_nil

theorem le_of_mem (h : Tiles unit lo hi l) {r : Int × Int} (hr : r ∈ l) : lo ≤ r.1 := by
  have hpos := (h.inside r hr).1
  exact ((h.cover r.1).mp ⟨r, hr, Int.le_refl _, by omega⟩).1

/-- A range that goes to the next cut, or to the end when that comes first. -/
theorem cons (hlo : lo < hi) (hnext : lo < next) (hunit : lo / unit = (min hi next - 1) / unit)
    (h : Tiles unit next hi l) : Tiles unit lo hi ((lo, min hi next - lo) :: l) where
  ascending := by
    refine List.pairwise_cons.mpr ⟨fun s hs => ?_, h.ascending⟩
    have := h.le_of_mem hs
    show lo + (min hi next - lo) ≤ s.1
    omega
  cover x := by
    rw [List.exists_mem_cons_iff, h.cover]
    show lo ≤ x ∧ x < lo + (min hi next - lo) ∨ next ≤ x ∧ x < hi ↔ lo ≤ x ∧ x < hi
    omega
  inside := by
    refine List.forall_mem_cons.mpr ⟨⟨?_, ?_⟩, h.inside⟩
    · show 0 < min hi next - lo
      omega
    · show lo / unit = (lo + (min hi next - lo) - 1) / unit
      rw [hunit]
      congr 1
      omega

end Tiles

end Lib
