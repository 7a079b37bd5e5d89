/-
An interface to interval trees of integers, seen as sets of points.

A client builds a tree from one half-open range, asks whether it is empty and whether it
meets a range, and chops ranges out of it.  The laws say what these operations do to the
points of a tree.  Lists of non-empty ranges are one implementation.
-/
import Mathlib.Data.Int.ConditionallyCompleteOrder
import Mathlib.Order.ConditionallyCompleteLattice.Basic
import Mathlib.Order.Interval.Set.Basic

namespace Lib

/-- The operations of an interval tree.  An empty range is refused. -/
structure IntervalTree (τ : Type) where
  ofRange : Int → Int → Option τ
  isEmpty : τ → Bool
  overlap : τ → Int → Int → Bool
  chop : τ → Int → Int → τ

namespace IntervalTree

/-- What the operations do to the points of a tree. -/
structure Lawful {τ : Type} (iv : IntervalTree τ) (points : τ → Set Int) : Prop where
  ofRange_isSome : ∀ lo hi, (iv.ofRange lo hi).isSome ↔ lo < hi
  points_ofRange : ∀ {lo hi t}, iv.ofRange lo hi = some t → points t = Set.Ico lo hi
  isEmpty_iff : ∀ t, iv.isEmpty t = true ↔ points t = ∅
  overlap_iff : ∀ t lo hi, iv.overlap t lo hi = true ↔ (points t ∩ Set.Ico lo hi).Nonempty
  points_chop : ∀ t {lo hi}, lo < hi → points (iv.chop t lo hi) = points t \ Set.Ico lo hi

/-! ## Lists of ranges -/

def RangeList : Type := { l : List (Int × Int) // ∀ x ∈ l, x.1 < x.2 }

namespace RangeList

/-- Keep the ranges that are not empty. -/
def ofList (l : List (Int × Int)) : RangeList :=
  ⟨l.filter fun x => x.1 < x.2, fun _ hx => of_decide_eq_true (List.mem_filter.mp hx).2⟩

def points (t : RangeList) : Set Int := { p | ∃ x ∈ t.1, x.1 ≤ p ∧ p < x.2 }

theorem mem_points_ofList {l : List (Int × Int)} {p : Int} :
    p ∈ (ofList l).points ↔ ∃ x ∈ l, x.1 ≤ p ∧ p < x.2 := by
  constructor
  · rintro ⟨x, hx, hp⟩
    exact ⟨x, (List.mem_filter.mp hx).1, hp⟩
  · rintro ⟨x, hx, h1, h2⟩
    exact ⟨x, List.mem_filter.mpr ⟨hx, decide_eq_true (by omega)⟩, h1, h2⟩

/-- What is left of a range on the two sides of a hole. -/
def sides (lo hi : Int) (x : Int × Int) : List (Int × Int) :=
  [(x.1, min x.2 lo), (max x.1 hi, x.2)]

def tree : IntervalTree RangeList where
  ofRange lo hi := if lo < hi then some (ofList [(lo, hi)]) else none
  isEmpty t := t.1.isEmpty
  overlap t lo hi := lo < hi ∧ ∃ x ∈ t.1, x.1 < hi ∧ lo < x.2
  chop t lo hi := ofList (t.1.flatMap (sides lo hi))

theorem lawful : tree.Lawful points where
  ofRange_isSome := by
    intro lo hi
    by_cases h : lo < hi <;> simp [tree, h]
  points_ofRange := by
    intro lo hi t h
    ext p
    by_cases hlt : lo < hi
    · simp only [tree, if_pos hlt, Option.some.injEq] at h
      rw [← h, mem_points_ofList]
      simp
    · simp [tree, hlt] at h
  isEmpty_iff := by
    intro t
    show t.1.isEmpty = true ↔ t.points = ∅
    rw [List.isEmpty_iff, Set.eq_empty_iff_forall_notMem]
    constructor
    · intro h p hp
      obtain ⟨x, hx, -⟩ := hp
      rw [h] at hx
      exact List.not_mem_nil hx
    · intro h
      refine List.eq_nil_iff_forall_not_mem.mpr (fun x hx => ?_)
      exact h x.1 ⟨x, hx, le_refl _, t.2 x hx⟩
  overlap_iff := by
    intro t lo hi
    simp only [tree, decide_eq_true_eq]
    constructor
    · rintro ⟨hlt, x, hx, h1, h2⟩
      have hx' := t.2 x hx
      exact ⟨max x.1 lo, ⟨x, hx, by omega, by omega⟩, by omega, by omega⟩
    · rintro ⟨p, ⟨x, hx, h1, h2⟩, h3, h4⟩
      exact ⟨by omega, x, hx, by omega, by omega⟩
  points_chop := by
    intro t lo hi hlt
    ext p
    show p ∈ (ofList (t.1.flatMap (sides lo hi))).points ↔ _
    simp only [mem_points_ofList, List.mem_flatMap, Set.mem_sdiff, Set.mem_Ico]
    constructor
    · rintro ⟨y, ⟨x, hx, hy⟩, h1, h2⟩
      simp only [sides, List.mem_cons, List.not_mem_nil, or_false] at hy
      rcases hy with rfl | rfl
      · exact ⟨⟨x, hx, by simp only at h1 h2; omega, by simp only at h1 h2; omega⟩,
          by simp only at h2; omega⟩
      · exact ⟨⟨x, hx, by simp only at h1 h2; omega, by simp only at h1 h2; omega⟩,
          by simp only at h1; omega⟩
    · rintro ⟨⟨x, hx, h1, h2⟩, hout⟩
      by_cases hp : p < lo
      · exact ⟨_, ⟨x, hx, List.mem_cons_self⟩, h1, by simp only; omega⟩
      · exact ⟨_, ⟨x, hx, List.mem_cons_of_mem _ List.mem_cons_self⟩, by simp only; omega, h2⟩

end RangeList
end IntervalTree
end Lib
