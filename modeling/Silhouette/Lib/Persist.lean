/-
Persistence of stores under flushes and fences.

An event sequence issues stores, flushes and fences over arbitrary types, and
`covers f s` says that flush `f` writes back store `s`.  The phase of a store
depends only on the events after it: it is volatile until a covering flush,
flushing until the next fence, and durable from then on.  `life` lists every
issued store with its phase, in issue order, and `inFlight` keeps those that are
not durable.  Both are described one event at a time for the simulations that
use them, and through the events that follow a store for the statements about
whole sequences.
-/
import Mathlib.Data.List.Sublists
import Mathlib.Data.List.Nodup

namespace Lib
namespace Persist

open scoped List

inductive Event (σ φ ψ : Type) where
  | store (s : σ)
  | flush (f : φ)
  | fence (g : ψ)
  deriving DecidableEq, Repr

inductive Phase where
  | volatile
  | flushing
  | durable
  deriving DecidableEq, Repr

variable {σ φ ψ : Type} (covers : φ → σ → Bool)

/-- The phase of store `s` after one more event. -/
def Phase.step (s : σ) (p : Phase) : Event σ φ ψ → Phase
  | .store _ => p
  | .flush f => if p = .volatile ∧ covers f s then .flushing else p
  | .fence _ => if p = .flushing then .durable else p

/-- The phase of a store that `post` follows. -/
def phase (s : σ) (post : List (Event σ φ ψ)) : Phase :=
  post.foldl (Phase.step covers s) .volatile

/-- Every issued store with its phase, in issue order. -/
def life : List (Event σ φ ψ) → List (σ × Phase)
  | [] => []
  | .store s :: rest => (s, phase covers s rest) :: life rest
  | .flush _ :: rest => life rest
  | .fence _ :: rest => life rest

/-- The issued stores that are not durable yet. -/
def inFlight (ops : List (Event σ φ ψ)) : List (σ × Phase) :=
  (life covers ops).filter fun x => x.2 ≠ .durable

def stores : List (Event σ φ ψ) → List σ
  | [] => []
  | .store s :: rest => s :: stores rest
  | .flush _ :: rest => stores rest
  | .fence _ :: rest => stores rest

def fences : List (Event σ φ ψ) → Nat
  | [] => 0
  | .fence _ :: rest => fences rest + 1
  | .store _ :: rest => fences rest
  | .flush _ :: rest => fences rest

/-- The events strictly before the `c`-th fence, all of them when there are fewer
than `c` fences.  Fences are counted from one. -/
def beforeFence (c : Nat) : List (Event σ φ ψ) → List (Event σ φ ψ)
  | [] => []
  | .fence g :: rest => if c ≤ 1 then [] else .fence g :: beforeFence (c - 1) rest
  | .store s :: rest => .store s :: beforeFence c rest
  | .flush f :: rest => .flush f :: beforeFence c rest

/-! ## One event at a time -/

theorem phase_append_singleton (s : σ) (post : List (Event σ φ ψ)) (e : Event σ φ ψ) :
    phase covers s (post ++ [e]) = Phase.step covers s (phase covers s post) e := by
  rw [phase, List.foldl_append]
  rfl

theorem life_append_singleton (ops : List (Event σ φ ψ)) (e : Event σ φ ψ) :
    life covers (ops ++ [e]) =
      (life covers ops).map (fun x => (x.1, Phase.step covers x.1 x.2 e)) ++ life covers [e] := by
  induction ops with
  | nil => rfl
  | cons o rest ih =>
    cases o with
    | store s =>
      rw [List.cons_append, life, life, List.map_cons, List.cons_append, ih,
        phase_append_singleton]
    | flush f => exact ih
    | fence g => exact ih

theorem stores_append (a b : List (Event σ φ ψ)) : stores (a ++ b) = stores a ++ stores b := by
  induction a with
  | nil => rfl
  | cons o rest ih => cases o <;> simp [stores, ih]

theorem fences_append (a b : List (Event σ φ ψ)) : fences (a ++ b) = fences a + fences b := by
  induction a with
  | nil => simp [fences]
  | cons o rest ih =>
    cases o with
    | fence g => simp only [List.cons_append, fences, ih]; omega
    | store s => exact ih
    | flush f => exact ih

theorem inFlight_store (ops : List (Event σ φ ψ)) (s : σ) :
    inFlight covers (ops ++ [.store s]) = inFlight covers ops ++ [(s, .volatile)] := by
  rw [inFlight, life_append_singleton, List.filter_append]
  simp [inFlight, life, phase, Phase.step]

theorem inFlight_flush (ops : List (Event σ φ ψ)) (f : φ) :
    inFlight covers (ops ++ [.flush f]) =
      (inFlight covers ops).map fun x =>
        (x.1, if x.2 = .volatile ∧ covers f x.1 then .flushing else x.2) := by
  rw [inFlight, life_append_singleton, List.filter_append, inFlight, List.filter_map]
  simp only [life, List.filter_nil, List.append_nil]
  refine congrArg _ (List.filter_congr (fun x _ => ?_))
  simp only [Function.comp, Phase.step]
  by_cases h : x.2 = .volatile ∧ covers f x.1
  · simp [h]
  · simp [h]

theorem inFlight_fence (ops : List (Event σ φ ψ)) (g : ψ) :
    inFlight covers (ops ++ [.fence g]) =
      (inFlight covers ops).filter fun x => x.2 = .volatile := by
  rw [inFlight, life_append_singleton, List.filter_append, inFlight, List.filter_map,
    List.filter_filter]
  simp only [life, List.filter_nil, List.append_nil]
  have hmap : ∀ x ∈ (life covers ops).filter
      ((fun x => decide (x.2 ≠ .durable)) ∘ fun x => (x.1, Phase.step covers x.1 x.2 (.fence g))),
      (x.1, Phase.step covers x.1 x.2 (.fence g)) = x := by
    intro x hx
    have h := (List.mem_filter.mp hx).2
    obtain ⟨s, p⟩ := x
    cases p <;> simp_all [Phase.step]
  rw [List.map_congr_left hmap, List.map_id']
  refine List.filter_congr (fun x _ => ?_)
  obtain ⟨s, p⟩ := x
  cases p <;> simp [Phase.step]

/-! ## Phases read off the events that follow -/

theorem foldl_step_durable (s : σ) (post : List (Event σ φ ψ)) :
    post.foldl (Phase.step covers s) .durable = .durable := by
  induction post with
  | nil => rfl
  | cons e rest ih => cases e <;> simpa [Phase.step] using ih

theorem foldl_step_flushing (s : σ) (post : List (Event σ φ ψ)) :
    post.foldl (Phase.step covers s) .flushing =
      if fences post = 0 then .flushing else .durable := by
  induction post with
  | nil => rfl
  | cons e rest ih =>
    cases e with
    | store t => exact ih
    | flush f =>
      have hs : Phase.step covers s .flushing (.flush f : Event σ φ ψ) = .flushing := by
        simp [Phase.step]
      rw [List.foldl_cons, hs]
      exact ih
    | fence g => simpa [Phase.step, fences] using foldl_step_durable covers s rest

theorem phase_cons_flush (s : σ) (f : φ) (post : List (Event σ φ ψ)) :
    phase covers s (.flush f :: post) =
      if covers f s then (if fences post = 0 then .flushing else .durable)
      else phase covers s post := by
  by_cases h : covers f s
  · simp [phase, Phase.step, h, foldl_step_flushing]
  · simp [phase, Phase.step, h]

theorem mem_fence_of_fences_ne_zero {ops : List (Event σ φ ψ)} (h : fences ops ≠ 0) :
    ∃ g, .fence g ∈ ops := by
  induction ops with
  | nil => exact absurd rfl h
  | cons e rest ih =>
    cases e with
    | fence g => exact ⟨g, List.mem_cons_self⟩
    | store s =>
      obtain ⟨g, hg⟩ := ih h
      exact ⟨g, List.mem_cons_of_mem _ hg⟩
    | flush f =>
      obtain ⟨g, hg⟩ := ih h
      exact ⟨g, List.mem_cons_of_mem _ hg⟩

theorem fences_ne_zero_of_mem {ops : List (Event σ φ ψ)} {g : ψ} (h : .fence g ∈ ops) :
    fences ops ≠ 0 := by
  obtain ⟨a, b, rfl⟩ := List.append_of_mem h
  rw [fences_append]
  simp [fences]

/-- A store has left the volatile phase exactly when a covering flush followed. -/
theorem phase_ne_volatile_iff {s : σ} {post : List (Event σ φ ψ)} :
    phase covers s post ≠ .volatile ↔ ∃ f, .flush f ∈ post ∧ covers f s := by
  induction post with
  | nil => simp [phase]
  | cons e rest ih =>
    cases e with
    | store t => simpa [phase, Phase.step] using ih
    | fence g => simpa [phase, Phase.step] using ih
    | flush f =>
      rw [phase_cons_flush]
      by_cases h : covers f s
      · simp only [h, if_true, List.mem_cons, Event.flush.injEq]
        constructor
        · exact fun _ => ⟨f, Or.inl rfl, h⟩
        · intro _
          by_cases hz : fences rest = 0 <;> simp [hz]
      · simp only [h, Bool.false_eq_true, if_false, List.mem_cons, Event.flush.injEq]
        rw [ih]
        constructor
        · rintro ⟨f', hf', hc⟩
          exact ⟨f', Or.inr hf', hc⟩
        · rintro ⟨f', rfl | hf', hc⟩
          · exact absurd hc h
          · exact ⟨f', hf', hc⟩

/-- A store is durable exactly when a covering flush and then a fence followed. -/
theorem phase_eq_durable_iff {s : σ} {post : List (Event σ φ ψ)} :
    phase covers s post = .durable ↔
      ∃ f g, covers f s ∧ [.flush f, .fence g] <+ post := by
  induction post with
  | nil => simp [phase]
  | cons e rest ih =>
    cases e with
    | store t =>
      rw [show phase covers s (.store t :: rest) = phase covers s rest from rfl, ih]
      simp [List.sublist_cons_iff]
    | fence g =>
      rw [show phase covers s (.fence g :: rest) = phase covers s rest from rfl, ih]
      simp [List.sublist_cons_iff]
    | flush f =>
      rw [phase_cons_flush]
      by_cases h : covers f s
      · simp only [h, if_true]
        constructor
        · intro hz
          have hf : fences rest ≠ 0 := by
            intro h0
            simp [h0] at hz
          obtain ⟨g, hg⟩ := mem_fence_of_fences_ne_zero hf
          exact ⟨f, g, h, (List.singleton_sublist.mpr hg).cons_cons _⟩
        · rintro ⟨f', g, -, hsub⟩
          have hg : .fence g ∈ rest := by
            have hmem := hsub.subset (List.mem_cons_of_mem _ (List.mem_singleton_self _))
            simpa using hmem
          simp [fences_ne_zero_of_mem hg]
      · simp only [h, Bool.false_eq_true, if_false]
        rw [ih]
        constructor
        · rintro ⟨f', g, hc, hsub⟩
          exact ⟨f', g, hc, hsub.cons _⟩
        · rintro ⟨f', g, hc, hsub⟩
          rcases List.sublist_cons_iff.mp hsub with hsub | ⟨r, hr, hsub⟩
          · exact ⟨f', g, hc, hsub⟩
          · simp only [List.cons.injEq, Event.flush.injEq] at hr
            exact absurd (hr.1 ▸ hc) h

theorem mem_life_iff {ops : List (Event σ φ ψ)} {s : σ} {p : Phase} :
    (s, p) ∈ life covers ops ↔
      ∃ pre post, ops = pre ++ .store s :: post ∧ p = phase covers s post := by
  induction ops with
  | nil => simp [life]
  | cons e rest ih =>
    have hskip : ∀ e' : Event σ φ ψ, (∀ t, e' ≠ .store t) →
        ((∃ pre post, e' :: rest = pre ++ .store s :: post ∧ p = phase covers s post) ↔
          ∃ pre post, rest = pre ++ .store s :: post ∧ p = phase covers s post) := by
      intro e' he'
      constructor
      · rintro ⟨pre, post, heq, hp⟩
        cases pre with
        | nil => exact absurd (List.cons.inj heq).1 (he' s)
        | cons a pre => exact ⟨pre, post, (List.cons.inj heq).2, hp⟩
      · rintro ⟨pre, post, rfl, hp⟩
        exact ⟨e' :: pre, post, rfl, hp⟩
    cases e with
    | store t =>
      simp only [life, List.mem_cons, Prod.mk.injEq]
      rw [ih]
      constructor
      · rintro (⟨rfl, rfl⟩ | ⟨pre, post, rfl, hp⟩)
        · exact ⟨[], rest, rfl, rfl⟩
        · exact ⟨.store t :: pre, post, rfl, hp⟩
      · rintro ⟨pre, post, heq, hp⟩
        cases pre with
        | nil =>
          obtain ⟨h1, h2⟩ := List.cons.inj heq
          rw [← h2] at hp
          exact Or.inl ⟨(Event.store.inj h1).symm, Event.store.inj h1 ▸ hp⟩
        | cons a pre => exact Or.inr ⟨pre, post, (List.cons.inj heq).2, hp⟩
    | flush f => rw [hskip _ (by simp), ← ih]; rfl
    | fence g => rw [hskip _ (by simp), ← ih]; rfl

theorem mem_inFlight_iff {ops : List (Event σ φ ψ)} {s : σ} {p : Phase} :
    (s, p) ∈ inFlight covers ops ↔ (s, p) ∈ life covers ops ∧ p ≠ .durable := by
  simp [inFlight, List.mem_filter]

theorem map_fst_life (ops : List (Event σ φ ψ)) : (life covers ops).map Prod.fst = stores ops := by
  induction ops with
  | nil => rfl
  | cons e rest ih => cases e <;> simp [life, stores, ih]

/-- Only what the flushes say of the stores that were issued matters. -/
theorem life_congr {covers' : φ → σ → Bool} {ops : List (Event σ φ ψ)}
    (h : ∀ f s, .flush f ∈ ops → s ∈ stores ops → covers f s = covers' f s) :
    life covers ops = life covers' ops := by
  induction ops with
  | nil => rfl
  | cons e rest ih =>
    have hrest : ∀ f s, .flush f ∈ rest → s ∈ stores rest → covers f s = covers' f s := by
      intro f s hf hs
      refine h f s (List.mem_cons_of_mem _ hf) ?_
      cases e with
      | store t => exact List.mem_cons_of_mem _ hs
      | flush f => exact hs
      | fence g => exact hs
    cases e with
    | store s =>
      have hphase : phase covers s rest = phase covers' s rest := by
        have hs : ∀ f, .flush f ∈ rest → covers f s = covers' f s := fun f hf =>
          h f s (List.mem_cons_of_mem _ hf) List.mem_cons_self
        unfold phase
        clear ih h hrest
        induction rest using List.reverseRecOn with
        | nil => rfl
        | append_singleton rest e ih =>
          rw [List.foldl_append, List.foldl_append, ih fun f hf => hs f (List.mem_append_left _ hf)]
          cases e with
          | flush f =>
            have hf := hs f (List.mem_append_right _ (List.mem_singleton_self _))
            simp only [List.foldl_cons, List.foldl_nil, Phase.step, hf]
          | store t => rfl
          | fence g => rfl
      rw [life, life, hphase, ih hrest]
    | flush f => exact ih hrest
    | fence g => exact ih hrest

/-- In-flight stores are issued stores, in issue order. -/
theorem inFlight_sublist (ops : List (Event σ φ ψ)) :
    (inFlight covers ops).map Prod.fst <+ stores ops := by
  rw [← map_fst_life covers ops]
  exact List.filter_sublist.map _

/-- When every covering flush of a later store also covers the earlier one, the
earlier store leaves the volatile phase no later. -/
theorem life_pairwise {R : σ → σ → Prop} {ops : List (Event σ φ ψ)}
    (hR : ∀ f, .flush f ∈ ops → ∀ s t, .store s ∈ ops → R s t → covers f t → covers f s) :
    (life covers ops).Pairwise fun x y => R x.1 y.1 → y.2 ≠ .volatile → x.2 ≠ .volatile := by
  induction ops with
  | nil => exact List.Pairwise.nil
  | cons e rest ih =>
    have hrest := ih (fun f hf s t hs => hR f (List.mem_cons_of_mem _ hf) s t
      (List.mem_cons_of_mem _ hs))
    cases e with
    | flush f => exact hrest
    | fence g => exact hrest
    | store s =>
      refine List.Pairwise.cons ?_ hrest
      rintro ⟨t, p⟩ ht hst hp
      obtain ⟨pre, post, rfl, rfl⟩ := (mem_life_iff covers).mp ht
      obtain ⟨f, hf, hcov⟩ := (phase_ne_volatile_iff covers).mp hp
      have hmem : .flush f ∈ pre ++ .store t :: post :=
        List.mem_append_right _ (List.mem_cons_of_mem _ hf)
      exact (phase_ne_volatile_iff covers).mpr
        ⟨f, hmem, hR f (List.mem_cons_of_mem _ hmem) s t List.mem_cons_self hst hcov⟩

/-! ## Cutting at a fence -/

/-- The `c`-th fence of a sequence, with what stands on its two sides. -/
theorem beforeFence_eq {pre post : List (Event σ φ ψ)} {g : ψ} {c : Nat}
    (hc : fences pre + 1 = c) : beforeFence c (pre ++ .fence g :: post) = pre := by
  induction pre generalizing c with
  | nil =>
    have h1 : c ≤ 1 := by
      simp only [fences] at hc
      omega
    simp [beforeFence, h1]
  | cons e rest ih =>
    cases e with
    | store s => rw [List.cons_append, beforeFence, ih hc]
    | flush f => rw [List.cons_append, beforeFence, ih hc]
    | fence g' =>
      simp only [fences] at hc
      have h1 : ¬ c ≤ 1 := by omega
      rw [List.cons_append, beforeFence, if_neg h1, ih (by omega)]

theorem beforeFence_all {ops : List (Event σ φ ψ)} {c : Nat} (hc : fences ops < c) :
    beforeFence c ops = ops := by
  induction ops generalizing c with
  | nil => rfl
  | cons e rest ih =>
    cases e with
    | store s => rw [beforeFence, ih hc]
    | flush f => rw [beforeFence, ih hc]
    | fence g =>
      simp only [fences] at hc
      have h1 : ¬ c ≤ 1 := by omega
      rw [beforeFence, if_neg h1, ih (by omega)]

theorem beforeFence_isPrefix (c : Nat) (ops : List (Event σ φ ψ)) : beforeFence c ops <+: ops := by
  induction ops generalizing c with
  | nil => exact List.prefix_rfl
  | cons e rest ih =>
    cases e with
    | store s => exact List.prefix_cons_inj _ |>.mpr (ih c)
    | flush f => exact List.prefix_cons_inj _ |>.mpr (ih c)
    | fence g =>
      rw [beforeFence]
      by_cases h1 : c ≤ 1
      · rw [if_pos h1]
        exact List.nil_prefix
      · rw [if_neg h1]
        exact List.prefix_cons_inj _ |>.mpr (ih (c - 1))

/-- Every fence number in range names a cut of the sequence. -/
theorem exists_cut {ops : List (Event σ φ ψ)} {c : Nat} (h1 : 1 ≤ c) (hc : c ≤ fences ops) :
    ∃ pre g post, ops = pre ++ .fence g :: post ∧ fences pre + 1 = c := by
  induction ops generalizing c with
  | nil => simp [fences] at hc; omega
  | cons e rest ih =>
    have hskip : ∀ e' : Event σ φ ψ, (∀ l : List (Event σ φ ψ), fences (e' :: l) = fences l) →
        c ≤ fences rest → ∃ pre g post, e' :: rest = pre ++ .fence g :: post ∧
          fences pre + 1 = c := by
      intro e' he' hr
      obtain ⟨pre, g, post, rfl, hp⟩ := ih h1 hr
      exact ⟨e' :: pre, g, post, rfl, by rw [he']; exact hp⟩
    cases e with
    | store s => exact hskip _ (fun _ => rfl) hc
    | flush f => exact hskip _ (fun _ => rfl) hc
    | fence g =>
      by_cases h : c = 1
      · exact ⟨[], g, rest, rfl, by simp [fences, h]⟩
      · simp only [fences] at hc
        obtain ⟨pre, g', post, rfl, hp⟩ := ih (c := c - 1) (by omega) (by omega)
        exact ⟨.fence g :: pre, g', post, rfl, by simp only [fences]; omega⟩

/-- Appending events leaves the cuts at earlier fences alone. -/
theorem beforeFence_append {ops : List (Event σ φ ψ)} {c : Nat} (h1 : 1 ≤ c)
    (hc : c ≤ fences ops) (more : List (Event σ φ ψ)) :
    beforeFence c (ops ++ more) = beforeFence c ops := by
  obtain ⟨pre, g, post, rfl, hp⟩ := exists_cut h1 hc
  rw [List.append_assoc, List.cons_append, beforeFence_eq hp, beforeFence_eq hp]

/-! ## The window of one store

A store is in flight from the fence that follows it to the fence that follows its
first covering flush. -/

theorem beforeFence_append_of_lt {a b : List (Event σ φ ψ)} {c : Nat} (h : fences a < c) :
    beforeFence c (a ++ b) = a ++ beforeFence (c - fences a) b := by
  induction a generalizing c with
  | nil => rfl
  | cons e rest ih =>
    cases e with
    | store s => rw [List.cons_append, beforeFence, ih h]; rfl
    | flush f => rw [List.cons_append, beforeFence, ih h]; rfl
    | fence g =>
      simp only [fences] at h
      have h1 : ¬ c ≤ 1 := by omega
      have hc : c - (fences rest + 1) = c - 1 - fences rest := by omega
      rw [List.cons_append, beforeFence, if_neg h1, ih (by omega)]
      simp only [fences, hc, List.cons_append]

theorem fences_beforeFence {ops : List (Event σ φ ψ)} {c : Nat} (h : 1 ≤ c) :
    fences (beforeFence c ops) = min (c - 1) (fences ops) := by
  by_cases hc : c ≤ fences ops
  · obtain ⟨pre, g, post, rfl, hp⟩ := exists_cut h hc
    rw [beforeFence_eq hp, fences_append]
    omega
  · rw [beforeFence_all (by omega)]
    omega

/-- Flushes that do not cover a store do not change its phase. -/
theorem phase_append_of_not_covers {s : σ} {a b : List (Event σ φ ψ)}
    (h : ∀ f, .flush f ∈ a → covers f s = false) :
    phase covers s (a ++ b) = phase covers s b := by
  have hv : phase covers s a = .volatile := by
    by_contra hne
    obtain ⟨f, hf, hc⟩ := (phase_ne_volatile_iff covers).mp hne
    rw [h f hf] at hc
    exact Bool.false_ne_true hc
  rw [phase, List.foldl_append, ← phase, hv]
  rfl

/-- The first covering flush of a sequence that has one. -/
theorem exists_first_covering {s : σ} {post : List (Event σ φ ψ)}
    (h : ∃ f, .flush f ∈ post ∧ covers f s) :
    ∃ a f b, post = a ++ .flush f :: b ∧ covers f s ∧
      ∀ f', .flush f' ∈ a → covers f' s = false := by
  induction post with
  | nil =>
    obtain ⟨f, hf, -⟩ := h
    exact absurd hf List.not_mem_nil
  | cons e rest ih =>
    by_cases he : ∃ f, e = .flush f ∧ covers f s
    · obtain ⟨f, rfl, hc⟩ := he
      exact ⟨[], f, rest, rfl, hc, fun f' hf' => absurd hf' List.not_mem_nil⟩
    · obtain ⟨f, hf, hc⟩ := h
      have hrest : .flush f ∈ rest := by
        rcases List.mem_cons.mp hf with hf | hf
        · exact absurd ⟨f, hf.symm, hc⟩ he
        · exact hf
      obtain ⟨a, f₁, b, rfl, hc₁, hno⟩ := ih ⟨f, hrest, hc⟩
      refine ⟨e :: a, f₁, b, rfl, hc₁, fun f' hf' => ?_⟩
      rcases List.mem_cons.mp hf' with hf' | hf'
      · exact Bool.eq_false_iff.mpr fun hc' => he ⟨f', hf'.symm, hc'⟩
      · exact hno f' hf'

/-- The phase at a fence, from the first covering flush. -/
theorem phase_beforeFence {s : σ} {a b : List (Event σ φ ψ)} {f : φ} (hc : covers f s)
    (hno : ∀ f', .flush f' ∈ a → covers f' s = false) {k : Nat} (hk : 1 ≤ k) :
    phase covers s (beforeFence k (a ++ .flush f :: b)) =
      if k ≤ fences a then .volatile
      else if k = fences a + 1 ∨ fences b = 0 then .flushing else .durable := by
  by_cases h : k ≤ fences a
  · rw [if_pos h, beforeFence_append hk h]
    by_contra hne
    obtain ⟨f', hf', hc'⟩ := (phase_ne_volatile_iff covers).mp hne
    rw [hno f' ((beforeFence_isPrefix k a).subset hf')] at hc'
    exact Bool.false_ne_true hc'
  · have hz : fences (beforeFence (k - fences a) b) = 0 ↔ k = fences a + 1 ∨ fences b = 0 := by
      rw [fences_beforeFence (by omega)]
      omega
    rw [if_neg h, beforeFence_append_of_lt (by omega), phase_append_of_not_covers covers hno,
      beforeFence, phase_cons_flush, if_pos hc]
    simp only [hz]

/-- A store that is never flushed stays volatile. -/
theorem phase_beforeFence_of_not_covers {s : σ} {post : List (Event σ φ ψ)}
    (hno : ∀ f, .flush f ∈ post → covers f s = false) (k : Nat) :
    phase covers s (beforeFence k post) = .volatile := by
  by_contra hne
  obtain ⟨f, hf, hc⟩ := (phase_ne_volatile_iff covers).mp hne
  rw [hno f ((beforeFence_isPrefix k post).subset hf)] at hc
  exact Bool.false_ne_true hc

/-- A store that is issued once has one phase. -/
theorem life_unique_of_nodup {ops : List (Event σ φ ψ)} (hnd : (stores ops).Nodup) {s : σ}
    {p q : Phase} (hp : (s, p) ∈ life covers ops) (hq : (s, q) ∈ life covers ops) : p = q := by
  have hnd' : ((life covers ops).map Prod.fst).Nodup := by
    rw [map_fst_life]
    exact hnd
  exact (Prod.mk.inj (List.inj_on_of_nodup_map hnd' hp hq rfl)).2

/-- Issued once, a store has one phase at each fence after it. -/
theorem mem_life_beforeFence_iff {pre post : List (Event σ φ ψ)} {s : σ} {p : Phase} {c : Nat}
    (hnd : (stores (pre ++ .store s :: post)).Nodup) (hc : 1 ≤ c) :
    (s, p) ∈ life covers (beforeFence c (pre ++ .store s :: post)) ↔
      fences pre < c ∧ p = phase covers s (beforeFence (c - fences pre) post) := by
  by_cases h : c ≤ fences pre
  · have hnot : s ∉ stores pre := by
      rw [stores_append] at hnd
      intro hs
      exact (List.nodup_append.mp hnd).2.2 s hs s List.mem_cons_self rfl
    constructor
    · intro hmem
      have hs := List.mem_map_of_mem (f := Prod.fst) hmem
      rw [map_fst_life, beforeFence_append hc h] at hs
      obtain ⟨rest, hrest⟩ := beforeFence_isPrefix c pre
      rw [← hrest, stores_append] at hnot
      exact absurd (List.mem_append_left _ hs) hnot
    · rintro ⟨hlt, -⟩
      omega
  · have hcut : beforeFence c (pre ++ .store s :: post) =
        pre ++ .store s :: beforeFence (c - fences pre) post := by
      rw [beforeFence_append_of_lt (by omega), beforeFence]
    have hmem : (s, phase covers s (beforeFence (c - fences pre) post)) ∈
        life covers (beforeFence c (pre ++ .store s :: post)) :=
      (mem_life_iff covers).mpr ⟨pre, _, hcut, rfl⟩
    have hnd' : (stores (beforeFence c (pre ++ .store s :: post))).Nodup := by
      obtain ⟨rest, hrest⟩ := beforeFence_isPrefix c (pre ++ .store s :: post)
      rw [← hrest, stores_append] at hnd
      exact (List.nodup_append.mp hnd).1
    constructor
    · intro hp
      exact ⟨by omega, life_unique_of_nodup covers hnd' hp hmem⟩
    · rintro ⟨-, rfl⟩
      exact hmem

/-- A store flushed before the first fence is durable behind it, -/
theorem durable_of_flush_beforeFence {post : List (Event σ φ ψ)} {s : σ} (h1 : 1 ≤ fences post)
    (h : ∃ f, .flush f ∈ beforeFence 1 post ∧ covers f s = true) :
    phase covers s post = .durable := by
  obtain ⟨f, hf, hc⟩ := h
  obtain ⟨u, g, v, rfl, hu⟩ := exists_cut (le_refl 1) h1
  rw [beforeFence_eq hu] at hf
  refine (phase_eq_durable_iff covers).mpr ⟨f, g, hc, ?_⟩
  exact (List.singleton_sublist.mpr hf).append (List.singleton_sublist.mpr List.mem_cons_self)

/-- and if there is no other fence, no other store is. -/
theorem flush_beforeFence_of_durable {post : List (Event σ φ ψ)} {s : σ} (h1 : fences post = 1)
    (hd : phase covers s post = .durable) :
    ∃ f, .flush f ∈ beforeFence 1 post ∧ covers f s = true := by
  obtain ⟨f, g, hc, hsub⟩ := (phase_eq_durable_iff covers).mp hd
  obtain ⟨u, g₀, v, rfl, hu⟩ := exists_cut (le_refl 1) h1.ge
  have hv : fences v = 0 := by
    rw [fences_append] at h1
    simp only [fences] at h1
    omega
  have hg : .fence g ∉ v := fun hmem => fences_ne_zero_of_mem hmem hv
  refine ⟨f, ?_, hc⟩
  rw [beforeFence_eq hu]
  obtain ⟨l₁, l₂, hl, h₁, h₂⟩ := List.sublist_append_iff.mp hsub
  cases l₁ with
  | nil =>
    rw [List.nil_append] at hl
    rw [← hl] at h₂
    rcases List.sublist_cons_iff.mp h₂ with h₂ | ⟨r, hr, -⟩
    · exact absurd (h₂.subset (by simp)) hg
    · simp at hr
  | cons x l₁ =>
    rw [List.cons_append, List.cons.injEq] at hl
    exact hl.1 ▸ h₁.subset List.mem_cons_self

end Persist
end Lib
