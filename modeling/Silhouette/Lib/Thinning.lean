/-
Event sequences that issue different stores.

Two sequences with the same flushes and fences give a store the same phase, whatever
else they issue.  `Event.mapStore` renames the stores of a sequence, and `Thinned a b`
says that `a` is `b` without some of its stores.
-/
import Silhouette.Lib.Persist

namespace Lib
namespace Persist

open scoped List

variable {σ τ φ ψ : Type}

/-! ## Renaming -/

def Event.mapStore (g : σ → τ) : Event σ φ ψ → Event τ φ ψ
  | .store s => .store (g s)
  | .flush f => .flush f
  | .fence x => .fence x

section

variable {covers : φ → σ → Bool} {covers' : φ → τ → Bool} {g : σ → τ}

theorem phase_mapStore (hc : ∀ f s, covers' f (g s) = covers f s) (s : σ)
    (ops : List (Event σ φ ψ)) :
    phase covers' (g s) (ops.map (Event.mapStore g)) = phase covers s ops := by
  rw [phase, phase, List.foldl_map]
  congr 1
  funext p e
  cases e with
  | store t => rfl
  | flush f => simp only [Event.mapStore, Phase.step, hc]
  | fence x => rfl

theorem life_mapStore (hc : ∀ f s, covers' f (g s) = covers f s) (ops : List (Event σ φ ψ)) :
    life covers' (ops.map (Event.mapStore g)) =
      (life covers ops).map fun x => (g x.1, x.2) := by
  induction ops with
  | nil => rfl
  | cons e rest ih =>
    cases e with
    | store s =>
      show (g s, phase covers' (g s) (rest.map _)) :: life covers' (rest.map _) = _
      rw [phase_mapStore hc, ih]
      rfl
    | flush f => exact ih
    | fence x => exact ih

theorem inFlight_mapStore (hc : ∀ f s, covers' f (g s) = covers f s)
    (ops : List (Event σ φ ψ)) :
    (inFlight covers' (ops.map (Event.mapStore g))).map Prod.fst =
      ((inFlight covers ops).map Prod.fst).map g := by
  rw [inFlight, inFlight, life_mapStore hc, List.filter_map, List.map_map, List.map_map]
  rfl

end

theorem fences_mapStore (g : σ → τ) (ops : List (Event σ φ ψ)) :
    fences (ops.map (Event.mapStore g)) = fences ops := by
  induction ops with
  | nil => rfl
  | cons e rest ih =>
    cases e with
    | store s => exact ih
    | flush f => exact ih
    | fence x => exact congrArg (· + 1) ih

theorem beforeFence_mapStore (g : σ → τ) (c : Nat) (ops : List (Event σ φ ψ)) :
    beforeFence c (ops.map (Event.mapStore g)) = (beforeFence c ops).map (Event.mapStore g) := by
  induction ops generalizing c with
  | nil => rfl
  | cons e rest ih =>
    cases e with
    | store s => exact congrArg _ (ih c)
    | flush f => exact congrArg _ (ih c)
    | fence x =>
      show (if c ≤ 1 then [] else .fence x :: beforeFence (c - 1) (rest.map _)) = _
      rw [beforeFence, ih]
      by_cases h1 : c ≤ 1
      · rw [if_pos h1, if_pos h1]
        rfl
      · rw [if_neg h1, if_neg h1]
        rfl

/-! ## Thinning -/

/-- The first sequence is the second without some of its stores. -/
inductive Thinned : List (Event σ φ ψ) → List (Event σ φ ψ) → Prop
  | nil : Thinned [] []
  | keep (e : Event σ φ ψ) {a b : List (Event σ φ ψ)} : Thinned a b → Thinned (e :: a) (e :: b)
  | drop (s : σ) {a b : List (Event σ φ ψ)} : Thinned a b → Thinned a (.store s :: b)

namespace Thinned

variable {a b a' b' : List (Event σ φ ψ)}

theorem refl (a : List (Event σ φ ψ)) : Thinned a a := by
  induction a with
  | nil => exact .nil
  | cons e rest ih => exact .keep e ih

theorem append (h : Thinned a b) (h' : Thinned a' b') : Thinned (a ++ a') (b ++ b') := by
  induction h with
  | nil => exact h'
  | keep e _ ih => exact .keep e ih
  | drop s _ ih => exact .drop s ih

/-- Blocks thinned one by one make up a thinned sequence. -/
theorem flatMap {α : Type} {f g : α → List (Event σ φ ψ)} {l : List α}
    (h : ∀ x ∈ l, Thinned (f x) (g x)) : Thinned (l.flatMap f) (l.flatMap g) := by
  induction l with
  | nil => exact .nil
  | cons x rest ih =>
    rw [List.flatMap_cons, List.flatMap_cons]
    exact (h x List.mem_cons_self).append (ih fun y hy => h y (List.mem_cons_of_mem _ hy))

/-- Any sublist of stores thins them. -/
theorem of_sublist {l l' : List σ} (h : l <+ l') :
    Thinned (l.map Event.store : List (Event σ φ ψ)) (l'.map Event.store) := by
  induction h with
  | slnil => exact .nil
  | cons s _ ih => exact .drop s ih
  | cons_cons s _ ih => exact .keep _ ih

theorem fences_eq (h : Thinned a b) : fences a = fences b := by
  induction h with
  | nil => rfl
  | keep e _ ih => cases e <;> simp [fences, ih]
  | drop s _ ih => exact ih

theorem phase_eq (h : Thinned a b) (covers : φ → σ → Bool) (s : σ) :
    phase covers s a = phase covers s b := by
  rw [phase, phase]
  generalize Phase.volatile = p
  induction h generalizing p with
  | nil => rfl
  | keep e _ ih => exact ih _
  | drop t _ ih => exact ih p

theorem inFlight_sublist (h : Thinned a b) (covers : φ → σ → Bool) :
    inFlight covers a <+ inFlight covers b := by
  refine List.Sublist.filter _ ?_
  induction h with
  | nil => exact .slnil
  | keep e h ih =>
    cases e with
    | store s =>
      rw [life, life, h.phase_eq covers s]
      exact ih.cons_cons _
    | flush f => exact ih
    | fence g => exact ih
  | drop s _ ih => exact ih.cons _

theorem beforeFence (h : Thinned a b) (c : Nat) :
    Thinned (beforeFence c a) (beforeFence c b) := by
  induction h generalizing c with
  | nil => exact .nil
  | keep e _ ih =>
    cases e with
    | store s => exact .keep _ (ih c)
    | flush f => exact .keep _ (ih c)
    | fence g =>
      rw [Persist.beforeFence, Persist.beforeFence]
      by_cases h1 : c ≤ 1
      · rw [if_pos h1, if_pos h1]
        exact .nil
      · rw [if_neg h1, if_neg h1]
        exact .keep _ (ih (c - 1))
  | drop s _ ih => exact .drop s (ih c)

end Thinned

end Persist
end Lib
