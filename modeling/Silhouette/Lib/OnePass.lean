/-
Adding dependencies in one pass.

`withDeps dep P C` is a set `C` with the dependencies of its elements and a fixed set `P`.  The
dependencies of the dependencies are not added, so the result need not be closed.  The first
section says when all sets obtained from subsets of `U` are closed under a relation, by way of the
single elements of `U`; the second says when different subsets of `U` give different sets.

`firstsBy key` drops the elements of a list whose key has been seen before.
-/
import Mathlib.Data.Finset.Union
import Mathlib.Data.List.Nodup

namespace Lib

section WithDeps

variable {α : Type} [DecidableEq α] (dep : α → Finset α) (P : Finset α)

def withDeps (C : Finset α) : Finset α := C ∪ C.biUnion dep ∪ P

variable {dep P} {C D U : Finset α} {x : α}

theorem mem_withDeps :
    x ∈ withDeps dep P C ↔ (∃ c ∈ C, x = c ∨ x ∈ dep c) ∨ x ∈ P := by
  simp only [withDeps, Finset.mem_union, Finset.mem_biUnion]
  constructor
  · rintro ((hx | ⟨c, hc, hx⟩) | hx)
    · exact Or.inl ⟨x, hx, Or.inl rfl⟩
    · exact Or.inl ⟨c, hc, Or.inr hx⟩
    · exact Or.inr hx
  · rintro (⟨c, hc, rfl | hx⟩ | hx)
    · exact Or.inl (Or.inl hc)
    · exact Or.inl (Or.inr ⟨c, hc, hx⟩)
    · exact Or.inr hx

theorem mem_withDeps_self (hx : x ∈ C) : x ∈ withDeps dep P C :=
  mem_withDeps.mpr (Or.inl ⟨x, hx, Or.inl rfl⟩)

theorem withDeps_mono (h : C ⊆ D) : withDeps dep P C ⊆ withDeps dep P D := by
  intro x hx
  rcases mem_withDeps.mp hx with ⟨c, hc, hx⟩ | hx
  · exact mem_withDeps.mpr (Or.inl ⟨c, h hc, hx⟩)
  · exact mem_withDeps.mpr (Or.inr hx)

/-- Every element of the result comes from one element of the set, or is there anyway. -/
theorem mem_withDeps_iff_singleton :
    x ∈ withDeps dep P C ↔ (∃ c ∈ C, x ∈ withDeps dep P {c}) ∨ x ∈ P := by
  rw [mem_withDeps]
  constructor
  · rintro (⟨c, hc, hx⟩ | hx)
    · exact Or.inl ⟨c, hc, mem_withDeps.mpr (Or.inl ⟨c, Finset.mem_singleton_self c, hx⟩)⟩
    · exact Or.inr hx
  · rintro (⟨c, hc, hx⟩ | hx)
    · rcases mem_withDeps.mp hx with ⟨c', hc', hx⟩ | hx
      · exact Or.inl ⟨c, hc, Finset.mem_singleton.mp hc' ▸ hx⟩
      · exact Or.inr hx
    · exact Or.inr hx

/-! ## Closed sets -/

/-- The set has, with each of its elements, what comes before it. -/
def ClosedUnder (before : α → α → Prop) (X : Finset α) : Prop :=
  ∀ t ∈ X, ∀ w, before w t → w ∈ X

variable {before : α → α → Prop}

theorem closed_withDeps (hP : ClosedUnder before P)
    (hC : ∀ c ∈ C, ClosedUnder before (withDeps dep P {c})) :
    ClosedUnder before (withDeps dep P C) := by
  intro t ht w hw
  rw [mem_withDeps_iff_singleton] at ht ⊢
  rcases ht with ⟨c, hc, ht⟩ | ht
  · exact Or.inl ⟨c, hc, hC c hc t ht w hw⟩
  · exact Or.inr (hP t ht w hw)

/-- The sets of all subsets are closed as soon as those of the single elements are. -/
theorem closed_withDeps_subsets_iff :
    (∀ C, C ⊆ U → ClosedUnder before (withDeps dep P C)) ↔
      ClosedUnder before P ∧ ∀ u ∈ U, ClosedUnder before (withDeps dep P {u}) := by
  constructor
  · intro h
    refine ⟨?_, fun u hu => h {u} (Finset.singleton_subset_iff.mpr hu)⟩
    have hempty := h ∅ (Finset.empty_subset U)
    rwa [withDeps, Finset.biUnion_empty, Finset.empty_union, Finset.empty_union] at hempty
  · rintro ⟨hP, hU⟩ C hC
    exact closed_withDeps hP fun c hc => hU c (hC hc)

/-! ## Different subsets -/

/-- An element that brings nothing along that the others do not can be left out. -/
theorem withDeps_erase_eq {t : α} (h : insert t (dep t) ⊆ withDeps dep P (U.erase t)) :
    withDeps dep P U = withDeps dep P (U.erase t) := by
  refine Finset.Subset.antisymm (fun x hx => ?_) (withDeps_mono (Finset.erase_subset t U))
  rcases mem_withDeps.mp hx with ⟨c, hc, hx⟩ | hx
  · by_cases hct : c = t
    · rw [hct] at hx
      exact h (Finset.mem_insert.mpr hx)
    · exact mem_withDeps.mpr (Or.inl ⟨c, Finset.mem_erase.mpr ⟨hct, hc⟩, hx⟩)
  · exact mem_withDeps.mpr (Or.inr hx)

/-- If there is no such element, different subsets give different sets. -/
theorem withDeps_injOn (h : ∀ t ∈ U, ¬ insert t (dep t) ⊆ withDeps dep P (U.erase t))
    (hC : C ⊆ U) (hD : D ⊆ U) (heq : withDeps dep P C = withDeps dep P D) : C = D := by
  have hsub : ∀ C D, C ⊆ U → D ⊆ U → withDeps dep P C = withDeps dep P D → D ⊆ C := by
    intro C D hC hD heq t ht
    by_contra htC
    refine h t (hD ht) (fun x hx => ?_)
    have hxC : x ∈ withDeps dep P C := by
      rw [heq]
      exact mem_withDeps.mpr (Or.inl ⟨t, ht, Finset.mem_insert.mp hx⟩)
    refine withDeps_mono (fun c hc => Finset.mem_erase.mpr ⟨?_, hC hc⟩) hxC
    rintro rfl
    exact htC hc
  exact Finset.Subset.antisymm (hsub D C hD hC heq.symm) (hsub C D hC hD heq)

end WithDeps

/-! ## Keys seen before -/

section FirstsBy

variable {α κ : Type} [DecidableEq κ] (key : α → κ)

/-- The elements whose key is neither in `seen` nor the key of an earlier element. -/
def firstsBy : List κ → List α → List α
  | _, [] => []
  | seen, a :: l =>
    if key a ∈ seen then firstsBy seen l else a :: firstsBy (key a :: seen) l

variable {key} {seen : List κ} {l : List α}

theorem mem_of_mem_firstsBy {a : α} (h : a ∈ firstsBy key seen l) : a ∈ l ∧ key a ∉ seen := by
  induction l generalizing seen with
  | nil => cases h
  | cons b l ih =>
    rw [firstsBy] at h
    split at h
    · obtain ⟨hmem, hnot⟩ := ih h
      exact ⟨List.mem_cons_of_mem _ hmem, hnot⟩
    · rename_i hb
      rcases List.mem_cons.mp h with rfl | h
      · exact ⟨List.mem_cons_self, hb⟩
      · obtain ⟨hmem, hnot⟩ := ih h
        exact ⟨List.mem_cons_of_mem _ hmem, fun hseen => hnot (List.mem_cons_of_mem _ hseen)⟩

/-- Every key that is not seen is kept once. -/
theorem exists_mem_firstsBy {a : α} (ha : a ∈ l) (hseen : key a ∉ seen) :
    ∃ b ∈ firstsBy key seen l, key b = key a := by
  induction l generalizing seen with
  | nil => cases ha
  | cons b l ih =>
    rw [firstsBy]
    split
    · rename_i hb
      rcases List.mem_cons.mp ha with rfl | ha
      · exact absurd hb hseen
      · exact ih ha hseen
    · by_cases hkey : key b = key a
      · exact ⟨b, List.mem_cons_self, hkey⟩
      · rcases List.mem_cons.mp ha with rfl | ha
        · exact absurd rfl hkey
        · obtain ⟨c, hc, hca⟩ := ih ha
            (fun h : key a ∈ key b :: seen => (List.mem_cons.mp h).elim (fun h => hkey h.symm) hseen)
          exact ⟨c, List.mem_cons_of_mem _ hc, hca⟩

theorem firstsBy_pairwise : (firstsBy key seen l).Pairwise fun a b => key a ≠ key b := by
  induction l generalizing seen with
  | nil => exact List.Pairwise.nil
  | cons b l ih =>
    rw [firstsBy]
    split
    · exact ih
    · refine List.pairwise_cons.mpr ⟨fun a ha hkey => ?_, ih⟩
      exact (mem_of_mem_firstsBy ha).2 (hkey ▸ List.mem_cons_self)

theorem firstsBy_concat (a : α) :
    firstsBy key seen (l ++ [a]) = firstsBy key seen l ++
      if key a ∈ seen ∨ ∃ b ∈ l, key b = key a then [] else [a] := by
  induction l generalizing seen with
  | nil =>
    rw [List.nil_append, firstsBy, firstsBy, List.nil_append]
    by_cases ha : key a ∈ seen
    · rw [if_pos ha, if_pos (Or.inl ha)]
      rfl
    · rw [if_neg ha, if_neg (by simpa using ha)]
      rfl
  | cons b l ih =>
    rw [List.cons_append, firstsBy, firstsBy]
    by_cases hb : key b ∈ seen
    · rw [if_pos hb, if_pos hb, ih]
      refine congrArg _ (if_congr ?_ rfl rfl)
      rw [List.exists_mem_cons_iff]
      constructor
      · rintro (ha | ha)
        · exact Or.inl ha
        · exact Or.inr (Or.inr ha)
      · rintro (ha | hba | ha)
        · exact Or.inl ha
        · exact Or.inl (hba ▸ hb)
        · exact Or.inr ha
    · rw [if_neg hb, if_neg hb, ih, List.cons_append]
      refine congrArg _ (congrArg _ (if_congr ?_ rfl rfl))
      rw [List.exists_mem_cons_iff, List.mem_cons, eq_comm (a := key a), or_assoc, or_left_comm]

/-- What is kept comes before everything else with its key. -/
theorem rel_of_mem_firstsBy {R : α → α → Prop} (hl : l.Pairwise R) {a b : α}
    (ha : a ∈ firstsBy key seen l) (hb : b ∈ l) (hkey : key b = key a) : a = b ∨ R a b := by
  induction l generalizing seen with
  | nil => cases hb
  | cons c l ih =>
    obtain ⟨hc, hl⟩ := List.pairwise_cons.mp hl
    have hnot := (mem_of_mem_firstsBy ha).2
    rw [firstsBy] at ha
    split at ha
    · rename_i hseen
      rcases List.mem_cons.mp hb with rfl | hb
      · exact absurd (hkey ▸ hseen) hnot
      · exact ih hl ha hb
    · rcases List.mem_cons.mp ha with rfl | ha
      · rcases List.mem_cons.mp hb with rfl | hb
        · exact Or.inl rfl
        · exact Or.inr (hc b hb)
      · rcases List.mem_cons.mp hb with rfl | hb
        · exact absurd (hkey ▸ List.mem_cons_self) (mem_of_mem_firstsBy ha).2
        · exact ih hl ha hb

end FirstsBy

end Lib
