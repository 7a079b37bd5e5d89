/-
Counting the subsets closed under a dependency relation.

`closedSets R U` are the subsets of `U` that contain, with each of their elements,
everything in `U` the element depends on.  Two parts with no dependency between them
multiply, a part every element of which depends on all of another part stacks on it,
and a chain of `n` elements has `n + 1` closed subsets.

The last section counts the other way round: the sum, over all ways to choose some
of a list of numbers, of the product of the chosen ones.
-/
import Mathlib.Algebra.BigOperators.Ring.Finset
import Mathlib.Data.Finset.Powerset
import Mathlib.Tactic.Ring
import Mathlib.Tactic.Linarith

namespace Lib

open scoped List

section ClosedSets

variable {α : Type} [DecidableEq α] (R : α → α → Prop) [DecidableRel R]

/-- The subsets of `U` that contain everything in `U` their elements depend on; `R x y`
says that `y` depends on `x`. -/
def closedSets (U : Finset α) : Finset (Finset α) :=
  U.powerset.filter fun P => ∀ y ∈ P, ∀ x ∈ U, R x y → x ∈ P

theorem mem_closedSets {U P : Finset α} :
    P ∈ closedSets R U ↔ P ⊆ U ∧ ∀ y ∈ P, ∀ x ∈ U, R x y → x ∈ P := by
  rw [closedSets, Finset.mem_filter, Finset.mem_powerset]

theorem empty_mem_closedSets (U : Finset α) : ∅ ∈ closedSets R U :=
  (mem_closedSets R).mpr ⟨Finset.empty_subset U, fun _ hy => absurd hy (Finset.notMem_empty _)⟩

theorem card_closedSets_empty : (closedSets R (∅ : Finset α)).card = 1 := by
  have h : closedSets R (∅ : Finset α) = {∅} := by
    ext P
    rw [mem_closedSets, Finset.mem_singleton, Finset.subset_empty]
    constructor
    · exact fun h => h.1
    · rintro rfl
      exact ⟨rfl, fun _ hy => absurd hy (Finset.notMem_empty _)⟩
  rw [h, Finset.card_singleton]

theorem card_closedSets_singleton (z : α) : (closedSets R {z}).card = 2 := by
  have h : closedSets R {z} = {∅, {z}} := by
    ext P
    rw [mem_closedSets, Finset.subset_singleton_iff, Finset.mem_insert, Finset.mem_singleton]
    constructor
    · exact fun h => h.1
    · rintro (rfl | rfl)
      · exact ⟨Or.inl rfl, fun _ hy => absurd hy (Finset.notMem_empty _)⟩
      · exact ⟨Or.inr rfl, fun _ _ x hx _ => hx⟩
  rw [h, Finset.card_pair (Finset.singleton_ne_empty z).symm]

/-- Independent parts are chosen from independently. -/
theorem card_closedSets_union {U V : Finset α} (hd : Disjoint U V)
    (hUV : ∀ x ∈ U, ∀ y ∈ V, ¬ R x y ∧ ¬ R y x) :
    (closedSets R (U ∪ V)).card = (closedSets R U).card * (closedSets R V).card := by
  rw [← Finset.card_product]
  have hsplit : ∀ P, P ⊆ U ∪ V → P ∩ U ∪ P ∩ V = P := by
    intro P hP
    rw [← Finset.inter_union_distrib_left, Finset.inter_eq_left.mpr hP]
  refine Finset.card_nbij' (fun P => (P ∩ U, P ∩ V)) (fun Q => Q.1 ∪ Q.2) ?_ ?_ ?_ ?_
  · intro P hP
    obtain ⟨-, hc⟩ := (mem_closedSets R).mp hP
    rw [Finset.mem_coe, Finset.mem_product, mem_closedSets, mem_closedSets]
    refine ⟨⟨Finset.inter_subset_right, fun y hy x hx hr => ?_⟩,
      ⟨Finset.inter_subset_right, fun y hy x hx hr => ?_⟩⟩
    · have hyP := (Finset.mem_inter.mp hy).1
      exact Finset.mem_inter.mpr ⟨hc y hyP x (Finset.mem_union_left V hx) hr, hx⟩
    · have hyP := (Finset.mem_inter.mp hy).1
      exact Finset.mem_inter.mpr ⟨hc y hyP x (Finset.mem_union_right U hx) hr, hx⟩
  · intro Q hQ
    obtain ⟨hQ1, hQ2⟩ := Finset.mem_product.mp hQ
    obtain ⟨hs1, hc1⟩ := (mem_closedSets R).mp hQ1
    obtain ⟨hs2, hc2⟩ := (mem_closedSets R).mp hQ2
    rw [Finset.mem_coe, mem_closedSets]
    refine ⟨Finset.union_subset_union hs1 hs2, fun y hy x hx hr => ?_⟩
    rcases Finset.mem_union.mp hy with hy | hy <;> rcases Finset.mem_union.mp hx with hx | hx
    · exact Finset.mem_union_left _ (hc1 y hy x hx hr)
    · exact absurd hr (hUV y (hs1 hy) x hx).2
    · exact absurd hr (hUV x hx y (hs2 hy)).1
    · exact Finset.mem_union_right _ (hc2 y hy x hx hr)
  · intro P hP
    exact hsplit P ((mem_closedSets R).mp hP).1
  · intro Q hQ
    obtain ⟨hQ1, hQ2⟩ := Finset.mem_product.mp hQ
    have hs1 := ((mem_closedSets R).mp hQ1).1
    have hs2 := ((mem_closedSets R).mp hQ2).1
    have h12 : Q.2 ∩ U = ∅ :=
      Finset.disjoint_iff_inter_eq_empty.mp (hd.symm.mono_left hs2)
    have h21 : Q.1 ∩ V = ∅ := Finset.disjoint_iff_inter_eq_empty.mp (hd.mono_left hs1)
    simp only [Finset.union_inter_distrib_right, h12, h21, Finset.union_empty, Finset.empty_union,
      Finset.inter_eq_left.mpr hs1, Finset.inter_eq_left.mpr hs2]

/-- A family of parts with no dependency from one part to another multiplies. -/
theorem card_closedSets_biUnion {ι : Type} [DecidableEq ι] (I : Finset ι) (f : ι → Finset α)
    (hf : ∀ i ∈ I, ∀ j ∈ I, i ≠ j → ∀ x ∈ f i, ∀ y ∈ f j, x ≠ y ∧ ¬ R x y) :
    (closedSets R (I.biUnion f)).card = ∏ i ∈ I, (closedSets R (f i)).card := by
  induction I using Finset.induction_on with
  | empty => simp [card_closedSets_empty]
  | insert i I hi ih =>
    have hij : ∀ j ∈ I, i ≠ j := fun j hj e => hi (e ▸ hj)
    have hcross : ∀ x ∈ f i, ∀ y ∈ I.biUnion f, x ≠ y ∧ ¬ R x y ∧ ¬ R y x := by
      intro x hx y hy
      obtain ⟨j, hj, hyj⟩ := Finset.mem_biUnion.mp hy
      have h1 := hf i (Finset.mem_insert_self i I) j (Finset.mem_insert_of_mem hj) (hij j hj) x hx y hyj
      have h2 := hf j (Finset.mem_insert_of_mem hj) i (Finset.mem_insert_self i I) (hij j hj).symm
        y hyj x hx
      exact ⟨h1.1, h1.2, h2.2⟩
    rw [Finset.biUnion_insert, Finset.prod_insert hi,
      ← ih (fun a ha b hb => hf a (Finset.mem_insert_of_mem ha) b (Finset.mem_insert_of_mem hb))]
    refine card_closedSets_union R ?_ (fun x hx y hy => (hcross x hx y hy).2)
    exact Finset.disjoint_left.mpr (fun x hx hx' => (hcross x hx x hx').1 rfl)

/-- A part that depends on all of another part stacks on it: nothing of the upper
part, or all of the lower part with something of the upper. -/
theorem card_closedSets_layered {X Y : Finset α} (hd : Disjoint X Y)
    (hR : ∀ x ∈ X, ∀ y ∈ Y, R x y ∧ ¬ R y x) :
    (closedSets R (X ∪ Y)).card = (closedSets R X).card + ((closedSets R Y).card - 1) := by
  rw [← Finset.card_filter_add_card_filter_not (s := closedSets R (X ∪ Y)) (fun P => P ⊆ X)]
  have hlow : (closedSets R (X ∪ Y)).filter (fun P => P ⊆ X) = closedSets R X := by
    ext P
    rw [Finset.mem_filter, mem_closedSets, mem_closedSets]
    constructor
    · rintro ⟨⟨-, hc⟩, hP⟩
      exact ⟨hP, fun y hy x hx => hc y hy x (Finset.mem_union_left Y hx)⟩
    · rintro ⟨hP, hc⟩
      refine ⟨⟨hP.trans Finset.subset_union_left, fun y hy x hx hr => ?_⟩, hP⟩
      rcases Finset.mem_union.mp hx with hx | hx
      · exact hc y hy x hx hr
      · exact absurd hr (hR y (hP hy) x hx).2
  have hhigh : ((closedSets R (X ∪ Y)).filter (fun P => ¬ P ⊆ X)).card =
      ((closedSets R Y).erase ∅).card := by
    refine Finset.card_nbij' (fun P => P ∩ Y) (fun Q => X ∪ Q) ?_ ?_ ?_ ?_
    · intro P hP
      obtain ⟨hP1, hnot⟩ := Finset.mem_filter.mp hP
      obtain ⟨hsub, hc⟩ := (mem_closedSets R).mp hP1
      rw [Finset.mem_coe, Finset.mem_erase, mem_closedSets]
      refine ⟨fun hempty => hnot (fun x hx => ?_), Finset.inter_subset_right, fun y hy x hx hr => ?_⟩
      · rcases Finset.mem_union.mp (hsub hx) with h | h
        · exact h
        · have hmem : x ∈ P ∩ Y := Finset.mem_inter.mpr ⟨hx, h⟩
          rw [show P ∩ Y = ∅ from hempty] at hmem
          exact absurd hmem (Finset.notMem_empty x)
      · have hyP := (Finset.mem_inter.mp hy).1
        exact Finset.mem_inter.mpr ⟨hc y hyP x (Finset.mem_union_right X hx) hr, hx⟩
    · intro Q hQ
      obtain ⟨hne, hQ1⟩ := Finset.mem_erase.mp hQ
      obtain ⟨hs, hc⟩ := (mem_closedSets R).mp hQ1
      rw [Finset.mem_coe, Finset.mem_filter, mem_closedSets]
      refine ⟨⟨Finset.union_subset_union_right hs, fun y hy x hx hr => ?_⟩, fun hsub => ?_⟩
      · rcases Finset.mem_union.mp hx with hx | hx
        · exact Finset.mem_union_left _ hx
        · rcases Finset.mem_union.mp hy with hy | hy
          · exact absurd hr (hR y hy x hx).2
          · exact Finset.mem_union_right _ (hc y hy x hx hr)
      · obtain ⟨y, hy⟩ := Finset.nonempty_iff_ne_empty.mpr hne
        exact Finset.disjoint_left.mp hd (hsub (Finset.mem_union_right X hy)) (hs hy)
    · intro P hP
      obtain ⟨hP1, hnot⟩ := Finset.mem_filter.mp hP
      obtain ⟨hsub, hc⟩ := (mem_closedSets R).mp hP1
      obtain ⟨y, hyP, hyX⟩ := Finset.not_subset.mp hnot
      have hyY : y ∈ Y := (Finset.mem_union.mp (hsub hyP)).resolve_left hyX
      have hXP : X ⊆ P := fun x hx => hc y hyP x (Finset.mem_union_left Y hx) (hR x hx y hyY).1
      show X ∪ P ∩ Y = P
      rw [Finset.union_inter_distrib_left, Finset.union_eq_right.mpr hXP,
        Finset.inter_eq_left.mpr hsub]
    · intro Q hQ
      have hs := ((mem_closedSets R).mp (Finset.mem_erase.mp hQ).2).1
      show (X ∪ Q) ∩ Y = Q
      rw [Finset.union_inter_distrib_right, Finset.disjoint_iff_inter_eq_empty.mp hd,
        Finset.empty_union, Finset.inter_eq_left.mpr hs]
  rw [hlow, hhigh, Finset.card_erase_of_mem (empty_mem_closedSets R Y)]

/-- A chain in which every element depends on all earlier ones. -/
theorem card_closedSets_chain {l : List α} (hnd : l.Nodup)
    (hl : l.Pairwise fun x y => R x y ∧ ¬ R y x) :
    (closedSets R l.toFinset).card = l.length + 1 := by
  induction l using List.reverseRecOn with
  | nil => exact card_closedSets_empty R
  | append_singleton l z ih =>
    obtain ⟨hnd1, -, hz⟩ := List.nodup_append.mp hnd
    obtain ⟨hl1, -, hlz⟩ := List.pairwise_append.mp hl
    have hstack := card_closedSets_layered R (X := l.toFinset) (Y := {z})
      (Finset.disjoint_singleton_right.mpr
        (fun h => hz z (List.mem_toFinset.mp h) z (List.mem_singleton_self z) rfl))
      (fun x hx y hy => by
        rw [Finset.mem_singleton] at hy
        exact hlz x (List.mem_toFinset.mp hx) y (by simp [hy]))
    have hU : (l ++ [z]).toFinset = l.toFinset ∪ {z} := by
      rw [List.toFinset_append]
      rfl
    rw [hU, hstack, ih hnd1 hl1, card_closedSets_singleton, List.length_append]
    rfl

/-! A part of a longer list that depends on its order. -/

omit [DecidableEq α] in
theorem pairwise_sublist_self (l : List α) : l.Pairwise fun x y => [x, y] <+ l := by
  rw [List.pairwise_iff_forall_sublist]
  exact fun h => h

omit [DecidableEq α] in
theorem not_sublist_swap {l : List α} (hl : l.Nodup) {x y : α} (h : [x, y] <+ l) :
    ¬ [y, x] <+ l := by
  intro h'
  induction l with
  | nil => simp at h
  | cons z rest ih =>
    obtain ⟨hz, hrest⟩ := List.nodup_cons.mp hl
    rcases List.sublist_cons_iff.mp h with h | ⟨r, hr, h⟩
    · rcases List.sublist_cons_iff.mp h' with h' | ⟨r', hr', h'⟩
      · exact ih hrest h h'
      · -- `y` heads the list, yet occurs in its tail
        simp only [List.cons.injEq] at hr'
        exact hz (hr'.1 ▸ h.subset (by simp))
    · simp only [List.cons.injEq] at hr
      obtain ⟨rfl, rfl⟩ := hr
      rcases List.sublist_cons_iff.mp h' with h' | ⟨r', hr', h'⟩
      · exact hz (h'.subset (by simp))
      · simp only [List.cons.injEq] at hr'
        obtain ⟨rfl, rfl⟩ := hr'
        exact hz (List.singleton_sublist.mp h')

theorem card_closedSets_ordered {issued l : List α} (hnd : issued.Nodup) (hl : l <+ issued)
    (h : ∀ x ∈ l, ∀ y ∈ l, (R x y ↔ [x, y] <+ issued)) :
    (closedSets R l.toFinset).card = l.length + 1 := by
  refine card_closedSets_chain R (hnd.sublist hl) ?_
  refine (pairwise_sublist_self l).imp_of_mem (fun {x y} hx hy hxy => ?_)
  have hsub := hxy.trans hl
  exact ⟨(h x hx y hy).mpr hsub, fun hyx => not_sublist_swap hnd hsub ((h y hy x hx).mp hyx)⟩

end ClosedSets

/-! ## Choosing from a list -/

/-- The sublists of length `k`, in the order `itertools.combinations` yields them. -/
def combinations {α : Type} : List α → Nat → List (List α)
  | _, 0 => [[]]
  | [], _ + 1 => []
  | x :: rest, k + 1 => (combinations rest k).map (x :: ·) ++ combinations rest (k + 1)

theorem sublist_of_mem_combinations {α : Type} {l : List α} {k : Nat} {c : List α}
    (h : c ∈ combinations l k) : c.Sublist l ∧ c.length = k := by
  induction l generalizing k c with
  | nil =>
    cases k with
    | zero => simp only [combinations, List.mem_singleton] at h; simp [h]
    | succ k => simp [combinations] at h
  | cons x rest ih =>
    cases k with
    | zero => simp only [combinations, List.mem_singleton] at h; simp [h]
    | succ k =>
      rw [combinations, List.mem_append, List.mem_map] at h
      rcases h with ⟨c', hc', rfl⟩ | h
      · obtain ⟨hsub, hlen⟩ := ih hc'
        exact ⟨hsub.cons_cons x, by simp [hlen]⟩
      · obtain ⟨hsub, hlen⟩ := ih h
        exact ⟨hsub.cons x, hlen⟩

theorem mem_combinations_of_sublist {α : Type} {l c : List α} (h : c.Sublist l) :
    c ∈ combinations l c.length := by
  induction h with
  | slnil => exact List.mem_singleton.mpr rfl
  | @cons c l x _ ih =>
    cases c with
    | nil => exact List.mem_singleton.mpr rfl
    | cons y c => exact List.mem_append_right _ ih
  | cons_cons x _ ih => exact List.mem_append_left _ (List.mem_map_of_mem ih)

theorem combinations_map {α β : Type} (f : α → β) (l : List α) (k : Nat) :
    combinations (l.map f) k = (combinations l k).map (List.map f) := by
  induction l generalizing k with
  | nil =>
    cases k with
    | zero => rfl
    | succ k => rfl
  | cons x rest ih =>
    cases k with
    | zero => rfl
    | succ k =>
      rw [List.map_cons, combinations, combinations, ih, ih, List.map_append, List.map_map,
        List.map_map]
      rfl

theorem nodup_combinations {α : Type} {l : List α} (hnd : l.Nodup) (k : Nat) :
    (combinations l k).Nodup := by
  induction l generalizing k with
  | nil =>
    cases k with
    | zero => exact List.nodup_singleton _
    | succ k => exact List.nodup_nil
  | cons x rest ih =>
    obtain ⟨hx, hrest⟩ := List.nodup_cons.mp hnd
    cases k with
    | zero => exact List.nodup_singleton _
    | succ k =>
      refine List.nodup_append.mpr ⟨(ih hrest k).map (List.cons_injective), ih hrest _, ?_⟩
      rintro c hc d hd rfl
      obtain ⟨c', -, rfl⟩ := List.mem_map.mp hc
      exact hx ((sublist_of_mem_combinations hd).1.subset List.mem_cons_self)

/-- The choices of one element and more, smaller ones first. -/
def choices {α : Type} (l : List α) : List (List α) :=
  (List.range' 1 l.length).flatMap (combinations l)

theorem mem_choices {α : Type} {l c : List α} : c ∈ choices l ↔ c.Sublist l ∧ c ≠ [] := by
  rw [choices, List.mem_flatMap]
  constructor
  · rintro ⟨k, hk, hc⟩
    obtain ⟨hsub, hlen⟩ := sublist_of_mem_combinations hc
    refine ⟨hsub, fun hnil => ?_⟩
    rw [List.mem_range'_1] at hk
    rw [hnil, List.length_nil] at hlen
    omega
  · rintro ⟨hsub, hne⟩
    have hle := hsub.length_le
    have hpos := List.length_pos_of_ne_nil hne
    exact ⟨c.length, List.mem_range'_1.mpr (by omega), mem_combinations_of_sublist hsub⟩

theorem nodup_choices {α : Type} {l : List α} (hnd : l.Nodup) : (choices l).Nodup := by
  refine List.nodup_flatMap.mpr ⟨fun k _ => nodup_combinations hnd k, ?_⟩
  refine (List.nodup_range' : (List.range' 1 l.length).Nodup).imp fun {i j} hij c hi hj => hij ?_
  exact (sublist_of_mem_combinations hi).2.symm.trans (sublist_of_mem_combinations hj).2

theorem length_choices {α : Type} {l : List α} (hnd : l.Nodup) :
    (choices l).length = 2 ^ l.length - 1 := by
  classical
  have hperm : (choices l).Perm (l.sublists.erase []) := by
    refine (List.perm_ext_iff_of_nodup (nodup_choices hnd)
      ((List.nodup_sublists.mpr hnd).erase _)).mpr fun c => ?_
    rw [mem_choices, (List.nodup_sublists.mpr hnd).mem_erase_iff, List.mem_sublists, and_comm]
  rw [hperm.length_eq, List.length_erase_of_mem (List.mem_sublists.mpr (List.nil_sublist l)),
    List.length_sublists]

/-- A choice from distinct elements is determined by what it contains. -/
theorem eq_filter_of_sublist {α : Type} [DecidableEq α] {l c : List α} (hnd : l.Nodup)
    (hc : c.Sublist l) : c = l.filter (· ∈ c) := by
  have hself : c.filter (· ∈ c) = c := List.filter_eq_self.mpr fun x hx => decide_eq_true hx
  have hsub : (c.filter (· ∈ c)).Sublist (l.filter (· ∈ c)) := hc.filter _
  rw [hself] at hsub
  refine hsub.eq_of_length (List.Perm.length_eq ?_)
  refine (List.perm_ext_iff_of_nodup (hnd.sublist hc) (hnd.filter _)).mpr fun x => ?_
  rw [List.mem_filter, decide_eq_true_iff]
  exact ⟨fun hx => ⟨hc.subset hx, hx⟩, fun hx => hx.2⟩

/-- The sum of the products of the choices of `k` numbers. -/
def sumOfProducts (l : List Nat) (k : Nat) : Nat := ((combinations l k).map List.prod).sum

theorem sumOfProducts_zero (l : List Nat) : sumOfProducts l 0 = 1 := by
  cases l <;> rfl

theorem sumOfProducts_succ (x : Nat) (l : List Nat) (k : Nat) :
    sumOfProducts (x :: l) (k + 1) = x * sumOfProducts l k + sumOfProducts l (k + 1) := by
  rw [sumOfProducts, combinations, List.map_append, List.sum_append, List.map_map]
  congr 1
  have hcomp : (List.prod ∘ fun c => x :: c) = fun c => x * List.prod c := by
    funext c
    exact List.prod_cons
  rw [hcomp, List.sum_map_mul_left, sumOfProducts]

/-- Summed over all sizes of a choice, the products of the chosen numbers give the
product of the successors. -/
theorem sum_sumOfProducts (l : List Nat) (n : Nat) (hn : l.length ≤ n) :
    ((List.range (n + 1)).map (sumOfProducts l)).sum = (l.map (· + 1)).prod := by
  induction l generalizing n with
  | nil =>
    have hz : ∀ k ∈ List.range n, (sumOfProducts [] ∘ Nat.succ) k = 0 := fun k _ => rfl
    rw [List.range_succ_eq_map, List.map_cons, List.sum_cons, List.map_map,
      List.map_congr_left hz]
    simp [sumOfProducts_zero]
  | cons x rest ih =>
    obtain ⟨n, rfl⟩ : ∃ k, n = k + 1 := ⟨n - 1, by simp at hn; omega⟩
    have hrest : rest.length ≤ n := by simpa using hn
    have hsucc : ∀ k ∈ List.range (n + 1), (sumOfProducts (x :: rest) ∘ Nat.succ) k =
        x * sumOfProducts rest k + (sumOfProducts rest ∘ Nat.succ) k :=
      fun k _ => sumOfProducts_succ x rest k
    have htail := ih (n + 1) (by omega)
    rw [List.range_succ_eq_map, List.map_cons, List.sum_cons, List.map_map,
      sumOfProducts_zero] at htail
    rw [List.range_succ_eq_map, List.map_cons, List.sum_cons, List.map_map,
      List.map_congr_left hsucc, List.sum_map_add, List.sum_map_mul_left, sumOfProducts_zero,
      List.map_cons, List.prod_cons, ih n hrest]
    calc _ = x * (rest.map (· + 1)).prod +
          (1 + ((List.range (n + 1)).map (sumOfProducts rest ∘ Nat.succ)).sum) := by ring
      _ = (x + 1) * (rest.map (· + 1)).prod := by rw [htail]; ring

end Lib
