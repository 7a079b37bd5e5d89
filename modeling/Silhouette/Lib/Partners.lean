/-
Labels that partners share.

`share a p` lets the member of the pair `p` that has no label take over the label of the other.
Along a list of pairs in which every element has at most one partner this happens once for each
pair, whatever the order and however often a pair is listed: behind the list an element has its own
label, or else that of its partner.
-/
import Mathlib.Logic.Function.Basic
import Mathlib.Data.List.Induction

namespace Lib

variable {α β : Type}

/-- The two stand together in a pair. -/
def Partner (l : List (α × α)) (x y : α) : Prop := (x, y) ∈ l ∨ (y, x) ∈ l

/-- Nobody has two partners. -/
def Matching (l : List (α × α)) : Prop := ∀ x y z, Partner l x y → Partner l x z → y = z

theorem Matching.of_append_left {l m : List (α × α)} (h : Matching (l ++ m)) : Matching l := by
  have hmono : ∀ x y, Partner l x y → Partner (l ++ m) x y := fun x y hxy =>
    hxy.imp (List.mem_append_left m) (List.mem_append_left m)
  exact fun x y z hy hz => h x y z (hmono x y hy) (hmono x z hz)

theorem partner_append_singleton {l : List (α × α)} {p : α × α} {x y : α} :
    Partner (l ++ [p]) x y ↔ Partner l x y ∨ x = p.1 ∧ y = p.2 ∨ x = p.2 ∧ y = p.1 := by
  obtain ⟨u, v⟩ := p
  simp only [Partner, List.mem_append, List.mem_singleton, Prod.mk.injEq]
  tauto

variable [DecidableEq α]

def share (a : α → Option β) (p : α × α) : α → Option β :=
  match a p.1, a p.2 with
  | some x, none => Function.update a p.2 (some x)
  | none, some x => Function.update a p.1 (some x)
  | _, _ => a

theorem share_left (a : α → Option β) (p : α × α) : share a p p.1 = (a p.1).or (a p.2) := by
  rw [share]
  cases h1 : a p.1 with
  | none =>
    cases h2 : a p.2 with
    | none => exact h1
    | some y => exact Function.update_self _ _ _
  | some x =>
    cases h2 : a p.2 with
    | none =>
      have hne : p.1 ≠ p.2 := by
        intro heq
        rw [heq, h2] at h1
        cases h1
      exact (Function.update_of_ne hne _ _).trans h1
    | some y => exact h1

theorem share_right (a : α → Option β) (p : α × α) : share a p p.2 = (a p.2).or (a p.1) := by
  rw [share]
  cases h2 : a p.2 with
  | none =>
    cases h1 : a p.1 with
    | none => exact h2
    | some x => exact Function.update_self _ _ _
  | some y =>
    cases h1 : a p.1 with
    | none =>
      have hne : p.2 ≠ p.1 := by
        intro heq
        rw [heq, h1] at h2
        cases h2
      exact (Function.update_of_ne hne _ _).trans h2
    | some x => exact h2

theorem share_of_ne (a : α → Option β) {p : α × α} {x : α} (h1 : x ≠ p.1) (h2 : x ≠ p.2) :
    share a p x = a x := by
  rw [share]
  cases a p.1 with
  | none =>
    cases a p.2 with
    | none => rfl
    | some y => exact Function.update_of_ne h1 _ _
  | some z =>
    cases a p.2 with
    | none => exact Function.update_of_ne h2 _ _
    | some y => rfl

/-- Behind the list an element has its own label or that of its partner. -/
theorem foldl_share {l : List (α × α)} (hl : Matching l) (a : α → Option β) (x : α) :
    (∀ y, Partner l x y → l.foldl share a x = (a x).or (a y)) ∧
      ((∀ y, ¬ Partner l x y) → l.foldl share a x = a x) := by
  induction l using List.reverseRecOn generalizing x with
  | nil => exact ⟨fun y hy => hy.elim (fun h => absurd h List.not_mem_nil)
      fun h => absurd h List.not_mem_nil, fun _ => rfl⟩
  | append_singleton l p ih =>
    have ih := ih hl.of_append_left
    have hp : Partner (l ++ [p]) p.1 p.2 :=
      partner_append_singleton.mpr (Or.inr (Or.inl ⟨rfl, rfl⟩))
    have hp' : Partner (l ++ [p]) p.2 p.1 :=
      partner_append_singleton.mpr (Or.inr (Or.inr ⟨rfl, rfl⟩))
    have hold : ∀ x y, Partner l x y → Partner (l ++ [p]) x y := fun x y h =>
      partner_append_singleton.mpr (Or.inl h)
    -- the labels of the pair before its turn, whether it was listed before or not
    have hpair : ((l.foldl share a p.1).or (l.foldl share a p.2) = (a p.1).or (a p.2)) ∧
        ((l.foldl share a p.2).or (l.foldl share a p.1) = (a p.2).or (a p.1)) := by
      by_cases hlisted : Partner l p.1 p.2
      · rw [(ih p.1).1 p.2 hlisted, (ih p.2).1 p.1 hlisted.symm]
        cases a p.1 <;> cases a p.2 <;> exact ⟨rfl, rfl⟩
      · have h1 : ∀ y, ¬ Partner l p.1 y := fun y hy =>
          hlisted (hl p.1 p.2 y hp (hold _ _ hy) ▸ hy)
        have h2 : ∀ y, ¬ Partner l p.2 y := fun y hy =>
          hlisted ((hl p.2 p.1 y hp' (hold _ _ hy) ▸ hy : Partner l p.2 p.1)).symm
        rw [(ih p.1).2 h1, (ih p.2).2 h2]
        exact ⟨rfl, rfl⟩
    rw [List.foldl_append, List.foldl_cons, List.foldl_nil]
    by_cases hx1 : x = p.1
    · rw [hx1, share_left]
      refine ⟨fun y hy => ?_, fun hno => absurd hp (hno p.2)⟩
      rw [hl p.1 y p.2 hy hp]
      exact hpair.1
    · by_cases hx2 : x = p.2
      · rw [hx2, share_right]
        refine ⟨fun y hy => ?_, fun hno => absurd hp' (hno p.1)⟩
        rw [hl p.2 y p.1 hy hp']
        exact hpair.2
      · rw [share_of_ne _ hx1 hx2]
        refine ⟨fun y hy => ?_, fun hno => (ih x).2 fun y hy => hno y (hold x y hy)⟩
        rcases partner_append_singleton.mp hy with hy | ⟨h, -⟩ | ⟨h, -⟩
        · exact (ih x).1 y hy
        · exact absurd h hx1
        · exact absurd h hx2

/-- Where the labels behind the list come from. -/
theorem foldl_share_eq_some_iff {l : List (α × α)} (hl : Matching l) (a : α → Option β) {x : α}
    {b : β} : l.foldl share a x = some b ↔
      a x = some b ∨ a x = none ∧ ∃ y, Partner l x y ∧ a y = some b := by
  by_cases h : ∃ y, Partner l x y
  · obtain ⟨y, hy⟩ := h
    rw [(foldl_share hl a x).1 y hy, Option.or_eq_some_iff]
    refine or_congr_right (and_congr_right fun _ => ?_)
    constructor
    · exact fun hb => ⟨y, hy, hb⟩
    · rintro ⟨z, hz, hb⟩
      rwa [hl x y z hy hz]
  · rw [(foldl_share hl a x).2 fun y hy => h ⟨y, hy⟩]
    constructor
    · exact Or.inl
    · rintro (hb | ⟨-, y, hy, -⟩)
      · exact hb
      · exact absurd ⟨y, hy⟩ h

end Lib
