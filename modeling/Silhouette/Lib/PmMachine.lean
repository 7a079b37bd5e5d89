import Silhouette.Lib.Persist
import Silhouette.Lib.ClosedSets

/-!
# A machine with persistent memory

A store waits in its line until the line is written back, which may happen at any time and
takes everything that waits there to memory.  A flush requests the write-back of what it
covers, and a fence is passed when everything requested is in memory.  A crash leaves the
memory and nothing else.

`exists_reaches_iff` says which stores can be in memory when the machine stops behind a
sequence of events: in every line a first part of those issued, with everything durable.
The contents of memory follow from the set alone, because stores to different lines commute.
-/

namespace Lib

open Persist
open scoped List

/-- The line a store goes to, the stores a flush covers, and what a store does to memory. -/
structure PmMachine (σ φ ι μ : Type) where
  line : σ → ι
  covers : φ → σ → Bool
  write : μ → σ → μ

namespace PmMachine

/-- `persisted` are the stores in memory as they came there, `waiting` the others in the order
of issue, each with whether its write-back is requested. -/
@[ext]
structure State (σ μ : Type) where
  memory : μ
  persisted : List σ
  waiting : List (σ × Bool)

variable {σ φ ψ ι μ : Type} (hw : PmMachine σ φ ι μ)

/-- Issue an event.  A fence is refused as long as a requested store waits. -/
def issue (st : State σ μ) : Event σ φ ψ → Option (State σ μ)
  | .store s => some { st with waiting := st.waiting ++ [(s, false)] }
  | .flush f => some { st with waiting := st.waiting.map fun x => (x.1, x.2 || hw.covers f x.1) }
  | .fence _ => if st.waiting.any Prod.snd then none else some st

/-- The stores in flight, each with whether it is being flushed. -/
def requests (ops : List (Event σ φ ψ)) : List (σ × Bool) :=
  (inFlight hw.covers ops).map fun x => (x.1, decide (x.2 = Phase.flushing))

/-- `P` is kept by the order of issue within each line and has everything durable. -/
structure CrashSet (ops : List (Event σ φ ψ)) (P : σ → Prop) : Prop where
  ordered : ∀ s t, hw.line s = hw.line t → [s, t] <+ stores ops → P t → P s
  durable : ∀ s, (s, .durable) ∈ life hw.covers ops → P s

/-- The state that has of the issued stores those of `P` in memory. -/
def stateOf (m₀ : μ) (ops : List (Event σ φ ψ)) (P : σ → Prop) [DecidablePred P] : State σ μ where
  memory := ((stores ops).filter fun s => P s).foldl hw.write m₀
  persisted := (stores ops).filter fun s => P s
  waiting := (hw.requests ops).filter fun x => ¬ P x.1

section

variable {hw} {m₀ : μ} {ops : List (Event σ φ ψ)} {st : State σ μ}

/-! ## Requests -/

theorem requests_store (ops : List (Event σ φ ψ)) (s : σ) :
    hw.requests (ops ++ [.store s]) = hw.requests ops ++ [(s, false)] := by
  rw [requests, inFlight_store, List.map_append]
  rfl

theorem requests_flush (ops : List (Event σ φ ψ)) (f : φ) :
    hw.requests (ops ++ [.flush f]) =
      (hw.requests ops).map fun x => (x.1, x.2 || hw.covers f x.1) := by
  rw [requests, requests, inFlight_flush, List.map_map, List.map_map]
  apply List.map_congr_left
  intro x hx
  have hne := ((mem_inFlight_iff hw.covers).mp hx).2
  obtain ⟨s, p⟩ := x
  cases p with
  | volatile => cases hc : hw.covers f s <;> simp [hc]
  | flushing => simp
  | durable => exact absurd rfl hne

theorem requests_fence (ops : List (Event σ φ ψ)) (g : ψ) :
    hw.requests (ops ++ [.fence g]) = (hw.requests ops).filter fun x => !x.2 := by
  rw [requests, requests, inFlight_fence, List.filter_map]
  congr 1
  apply List.filter_congr
  intro x hx
  have hne := ((mem_inFlight_iff hw.covers).mp hx).2
  obtain ⟨s, p⟩ := x
  cases p with
  | volatile => rfl
  | flushing => rfl
  | durable => exact absurd rfl hne

theorem mem_stores_of_mem_requests {x : σ × Bool} (h : x ∈ hw.requests ops) :
    x.1 ∈ stores ops := by
  obtain ⟨y, hy, rfl⟩ := List.mem_map.mp h
  exact (inFlight_sublist hw.covers ops).subset (List.mem_map_of_mem hy)

/-- Nothing that waits is requested: a fence leaves all of it waiting. -/
theorem filter_not_requested {l : List (σ × Bool)} (h : l.any Prod.snd = false) :
    (l.filter fun x => !x.2) = l := by
  apply List.filter_eq_self.mpr
  intro x hx
  have hx2 := List.any_eq_false.mp h x hx
  simpa using hx2

/-- A requested store is durable behind the next fence. -/
theorem durable_of_requested {s : σ} (h : (s, true) ∈ hw.requests ops) (g : ψ) :
    (s, .durable) ∈ life hw.covers (ops ++ [.fence g]) := by
  obtain ⟨⟨t, p⟩, hy, heq⟩ := List.mem_map.mp h
  obtain ⟨rfl, hp⟩ := Prod.mk.inj heq
  obtain rfl := of_decide_eq_true hp
  rw [life_append_singleton]
  refine List.mem_append_left _ (List.mem_map.mpr ⟨_, ((mem_inFlight_iff hw.covers).mp hy).1, ?_⟩)
  rfl

theorem CrashSet.left {P : σ → Prop} {more : List (Event σ φ ψ)}
    (h : hw.CrashSet (ops ++ more) P) : hw.CrashSet ops P where
  ordered := by
    intro s t hst hsub
    refine h.ordered s t hst (hsub.trans ?_)
    rw [stores_append]
    exact List.sublist_append_left _ _
  durable := by
    intro s hs
    refine h.durable s ?_
    obtain ⟨pre, post, rfl, hp⟩ := (mem_life_iff hw.covers).mp hs
    refine (mem_life_iff hw.covers).mpr ⟨pre, post ++ more, by simp, ?_⟩
    rw [phase, List.foldl_append, ← phase, ← hp, foldl_step_durable]

theorem CrashSet.congr {P Q : σ → Prop} (h : hw.CrashSet ops P)
    (hPQ : ∀ s ∈ stores ops, P s ↔ Q s) : hw.CrashSet ops Q where
  ordered := by
    intro s t hst hsub ht
    have hs : s ∈ stores ops := hsub.subset (by simp)
    have ht' : t ∈ stores ops := hsub.subset (by simp)
    exact (hPQ s hs).mp (h.ordered s t hst hsub ((hPQ t ht').mpr ht))
  durable := by
    intro s hs
    obtain ⟨pre, post, rfl, -⟩ := (mem_life_iff hw.covers).mp hs
    refine (hPQ s ?_).mp (h.durable s hs)
    rw [stores_append]
    exact List.mem_append_right _ List.mem_cons_self

/-- Events with all their stores in memory may precede those that a set is a crash set of. -/
theorem CrashSet.behind {P : σ → Prop} {more : List (Event σ φ ψ)} (h : hw.CrashSet more P)
    (hall : ∀ s ∈ stores ops, P s) : hw.CrashSet (ops ++ more) P where
  ordered := by
    intro s t hst hsub ht
    rw [stores_append] at hsub
    obtain ⟨l₁, l₂, hl, h₁, h₂⟩ := List.sublist_append_iff.mp hsub
    cases l₁ with
    | nil =>
      rw [List.nil_append] at hl
      exact h.ordered s t hst (hl ▸ h₂) ht
    | cons x l₁ =>
      obtain ⟨rfl, -⟩ := List.cons.inj hl
      exact hall _ (h₁.subset List.mem_cons_self)
  durable := by
    intro s hs
    obtain ⟨a, b, hab, hp⟩ := (mem_life_iff hw.covers).mp hs
    rcases List.append_eq_append_iff.mp hab with ⟨a', -, hmore⟩ | ⟨c, hops, hc⟩
    · exact h.durable s ((mem_life_iff hw.covers).mpr ⟨a', b, hmore, hp⟩)
    · cases c with
      | nil => exact h.durable s ((mem_life_iff hw.covers).mpr ⟨[], b, hc.symm, hp⟩)
      | cons x c =>
        obtain ⟨rfl, -⟩ := List.cons.inj hc
        refine hall s ?_
        rw [hops, stores_append]
        exact List.mem_append_right _ List.mem_cons_self

/-! ## Issuing in a state with a given set in memory -/

section

variable {P : σ → Prop} [DecidablePred P]

theorem stateOf_store (m₀ : μ) (ops : List (Event σ φ ψ)) (s : σ) :
    hw.stateOf m₀ (ops ++ [.store s]) P =
      if P s then { hw.stateOf m₀ ops P with
        memory := hw.write (hw.stateOf m₀ ops P).memory s
        persisted := (hw.stateOf m₀ ops P).persisted ++ [s] }
      else { hw.stateOf m₀ ops P with
        waiting := (hw.stateOf m₀ ops P).waiting ++ [(s, false)] } := by
  have hstores : stores (ops ++ [.store s]) = stores ops ++ [s] := stores_append ops [.store s]
  by_cases hs : P s
  · rw [if_pos hs]
    unfold stateOf
    rw [hstores, requests_store]
    simp [List.filter_append, hs]
  · rw [if_neg hs]
    unfold stateOf
    rw [hstores, requests_store]
    simp [List.filter_append, hs]

theorem issue_flush_stateOf (m₀ : μ) (ops : List (Event σ φ ψ)) (f : φ) :
    hw.issue (hw.stateOf m₀ ops P) (.flush f : Event σ φ ψ) =
      some (hw.stateOf m₀ (ops ++ [.flush f]) P) := by
  have hstores : stores (ops ++ [.flush f]) = stores ops := by
    rw [stores_append]
    exact List.append_nil _
  unfold stateOf
  rw [hstores, requests_flush, List.filter_map]
  rfl

theorem issue_fence_stateOf {g : ψ} (h : hw.CrashSet (ops ++ [.fence g]) P) :
    hw.issue (hw.stateOf m₀ ops P) (.fence g : Event σ φ ψ) =
      some (hw.stateOf m₀ (ops ++ [.fence g]) P) := by
  have hstores : stores (ops ++ [.fence g]) = stores ops := by
    rw [stores_append]
    exact List.append_nil _
  have hnone : (hw.stateOf m₀ ops P).waiting.any Prod.snd = false := by
    apply List.any_eq_false.mpr
    rintro ⟨s, b⟩ hx hb
    obtain ⟨hx, hnot⟩ := List.mem_filter.mp hx
    obtain rfl : b = true := hb
    exact of_decide_eq_true hnot (h.durable s (durable_of_requested hx g))
  have hwait : (hw.stateOf m₀ (ops ++ [.fence g]) P).waiting = (hw.stateOf m₀ ops P).waiting := by
    rw [← filter_not_requested hnone]
    unfold stateOf
    rw [requests_fence, List.filter_comm]
  show (if (hw.stateOf m₀ ops P).waiting.any Prod.snd then none else some _) = _
  rw [hnone, if_neg Bool.false_ne_true]
  congr 1
  refine State.ext ?_ ?_ hwait.symm
  · show _ = ((stores (ops ++ [.fence g])).filter _).foldl _ _
    rw [hstores]
    rfl
  · show _ = (stores (ops ++ [.fence g])).filter _
    rw [hstores]
    rfl

end

end

/-! ## Runs -/

section

variable [DecidableEq ι]

/-- The stores that wait in a line. -/
def waitingIn (st : State σ μ) (a : ι) : List σ :=
  (st.waiting.filter fun x => hw.line x.1 = a).map Prod.fst

def writeBack (st : State σ μ) (a : ι) : State σ μ where
  memory := (hw.waitingIn st a).foldl hw.write st.memory
  persisted := st.persisted ++ hw.waitingIn st a
  waiting := st.waiting.filter fun x => hw.line x.1 ≠ a

/-- The states the machine can be in behind a sequence of events. -/
inductive Reaches (m₀ : μ) : List (Event σ φ ψ) → State σ μ → Prop
  | start : Reaches m₀ [] ⟨m₀, [], []⟩
  | issue {ops : List (Event σ φ ψ)} {st st' : State σ μ} {e : Event σ φ ψ} :
      Reaches m₀ ops st → hw.issue st e = some st' → Reaches m₀ (ops ++ [e]) st'
  | writeBack {ops : List (Event σ φ ψ)} {st : State σ μ} (a : ι) :
      Reaches m₀ ops st → Reaches m₀ ops (hw.writeBack st a)

/-- How memory and the waiting stores hang together with what was issued. -/
structure Follows (m₀ : μ) (ops : List (Event σ φ ψ)) (st : State σ μ) : Prop where
  memory : st.memory = st.persisted.foldl hw.write m₀
  waiting : st.waiting <+ hw.requests ops
  line : ∀ a, (st.persisted ++ st.waiting.map Prod.fst).filter (fun s => hw.line s = a) =
    (stores ops).filter fun s => hw.line s = a

variable {hw} {m₀ : μ} {ops : List (Event σ φ ψ)} {st : State σ μ}

theorem Follows.issue (h : hw.Follows m₀ ops st) {e : Event σ φ ψ} {st' : State σ μ}
    (hst : hw.issue st e = some st') : hw.Follows m₀ (ops ++ [e]) st' := by
  cases e with
  | store s =>
    obtain rfl := Option.some.inj hst
    refine ⟨h.memory, ?_, fun a => ?_⟩
    · rw [requests_store]
      exact h.waiting.append (List.Sublist.refl _)
    · rw [List.map_append, ← List.append_assoc, List.filter_append, h.line a, stores_append,
        List.filter_append]
      rfl
  | flush f =>
    obtain rfl := Option.some.inj hst
    refine ⟨h.memory, ?_, fun a => ?_⟩
    · rw [requests_flush]
      exact h.waiting.map _
    · rw [List.map_map, stores_append]
      show _ = (stores ops ++ []).filter _
      rw [List.append_nil]
      exact h.line a
  | fence g =>
    unfold PmMachine.issue at hst
    split_ifs at hst with hany
    obtain rfl := Option.some.inj hst
    refine ⟨h.memory, ?_, fun a => ?_⟩
    · rw [requests_fence, ← filter_not_requested (Bool.eq_false_iff.mpr hany)]
      exact h.waiting.filter _
    · rw [stores_append]
      show _ = (stores ops ++ []).filter _
      rw [List.append_nil]
      exact h.line a

/-- Taking the stores of one line out first leaves the order within every line as it is. -/
theorem filter_line_split (w : List (σ × Bool)) (a b : ι) :
    ((w.filter fun x => hw.line x.1 = a).map Prod.fst ++
        (w.filter fun x => hw.line x.1 ≠ a).map Prod.fst).filter (fun s => hw.line s = b) =
      (w.map Prod.fst).filter fun s => hw.line s = b := by
  rw [List.filter_append, List.filter_map, List.filter_map, List.filter_map, List.filter_filter,
    List.filter_filter]
  by_cases hab : a = b
  · subst hab
    have hnone : w.filter (fun x => ((fun s => decide (hw.line s = a)) ∘ Prod.fst) x &&
        decide (hw.line x.1 ≠ a)) = [] := by
      refine List.filter_eq_nil_iff.mpr fun x _ => ?_
      simp
    rw [hnone, List.map_nil, List.append_nil]
    refine congrArg _ (List.filter_congr fun x _ => ?_)
    simp
  · have hnone : w.filter (fun x => ((fun s => decide (hw.line s = b)) ∘ Prod.fst) x &&
        decide (hw.line x.1 = a)) = [] := by
      refine List.filter_eq_nil_iff.mpr fun x _ => ?_
      simp only [Function.comp_apply, Bool.and_eq_true, decide_eq_true_eq, not_and]
      exact fun hb ha => hab (ha.symm.trans hb)
    rw [hnone, List.map_nil, List.nil_append]
    refine congrArg _ (List.filter_congr fun x _ => ?_)
    by_cases hx : hw.line x.1 = b
    · simp [hx, Ne.symm hab]
    · simp [hx]

theorem Follows.writeBack (h : hw.Follows m₀ ops st) (a : ι) :
    hw.Follows m₀ ops (hw.writeBack st a) where
  memory := by
    show (hw.waitingIn st a).foldl hw.write st.memory = _
    rw [h.memory, ← List.foldl_append]
    rfl
  waiting := List.filter_sublist.trans h.waiting
  line := by
    intro b
    rw [← h.line b]
    show ((st.persisted ++ hw.waitingIn st a) ++ (st.waiting.filter _).map Prod.fst).filter _ = _
    rw [List.append_assoc, List.filter_append st.persisted, List.filter_append st.persisted]
    exact congrArg _ (filter_line_split st.waiting a b)

theorem Reaches.follows (h : hw.Reaches m₀ ops st) : hw.Follows m₀ ops st := by
  induction h with
  | start => exact ⟨rfl, List.Sublist.refl _, fun _ => rfl⟩
  | issue _ hst ih => exact ih.issue hst
  | writeBack a _ ih => exact ih.writeBack a

/-! ## What can be in memory -/

theorem Follows.perm (h : hw.Follows m₀ ops st) :
    (st.persisted ++ st.waiting.map Prod.fst).Perm (stores ops) := by
  classical
  refine List.perm_iff_count.mpr fun s => ?_
  have hline := congrArg (List.count s) (h.line (hw.line s))
  rwa [List.count_filter (by simp), List.count_filter (by simp)] at hline

theorem Follows.mem_stores (h : hw.Follows m₀ ops st) {s : σ} :
    s ∈ stores ops ↔ s ∈ st.persisted ∨ s ∈ st.waiting.map Prod.fst := by
  rw [← h.perm.mem_iff, List.mem_append]

/-- Two stores of one line go to memory in the order of issue, and nothing durable waits. -/
theorem Follows.crashSet (h : hw.Follows m₀ ops st) (hnd : (stores ops).Nodup) :
    hw.CrashSet ops (· ∈ st.persisted) where
  ordered := by
    intro s t hst hsub ht
    have hsub' : [s, t] <+ (st.persisted ++ st.waiting.map Prod.fst).filter
        fun x => hw.line x = hw.line t := by
      rw [h.line]
      simpa [hst] using hsub.filter fun x => hw.line x = hw.line t
    have hnd' := h.perm.nodup_iff.mpr hnd
    obtain ⟨l₁, l₂, hl, h₁, h₂⟩ := List.sublist_append_iff.mp (hsub'.trans List.filter_sublist)
    cases l₁ with
    | nil =>
      rw [List.nil_append] at hl
      have htw : t ∈ st.waiting.map Prod.fst := h₂.subset (hl ▸ by simp)
      exact absurd rfl ((List.nodup_append.mp hnd').2.2 t ht t htw)
    | cons x l₁ =>
      rw [List.cons_append, List.cons.injEq] at hl
      exact hl.1 ▸ h₁.subset List.mem_cons_self
  durable := by
    intro s hs
    have hissued : s ∈ stores ops := by
      rw [← map_fst_life hw.covers ops]
      exact List.mem_map_of_mem (f := Prod.fst) hs
    rcases h.mem_stores.mp hissued with hp | hw'
    · exact hp
    · obtain ⟨x, hx, rfl⟩ := List.mem_map.mp hw'
      obtain ⟨⟨s, p⟩, hy, rfl⟩ := List.mem_map.mp (h.waiting.subset hx)
      obtain ⟨hlife, hne⟩ := (mem_inFlight_iff hw.covers).mp hy
      exact absurd (life_unique_of_nodup hw.covers hnd hlife hs) hne

section

variable {P : σ → Prop} [DecidablePred P]

/-- A store of `P` is written back at once; of its line nothing else waits. -/
theorem writeBack_stateOf {s : σ} (h : hw.CrashSet (ops ++ [.store s]) P) (hs : P s) :
    hw.writeBack { hw.stateOf m₀ ops P with
      waiting := (hw.stateOf m₀ ops P).waiting ++ [(s, false)] } (hw.line s) =
        hw.stateOf m₀ (ops ++ [.store s]) P := by
  have hline : ∀ x ∈ (hw.stateOf m₀ ops P).waiting, hw.line x.1 ≠ hw.line s := by
    intro x hx hxs
    obtain ⟨hx, hnot⟩ := List.mem_filter.mp hx
    refine of_decide_eq_true hnot (h.ordered x.1 s hxs ?_ hs)
    rw [stores_append]
    exact List.Sublist.append (List.singleton_sublist.mpr (mem_stores_of_mem_requests hx))
      (List.Sublist.refl [s])
  have hnone : (hw.stateOf m₀ ops P).waiting.filter (fun x => hw.line x.1 = hw.line s) = [] := by
    refine List.filter_eq_nil_iff.mpr fun x hx => ?_
    simp [hline x hx]
  have hall : (hw.stateOf m₀ ops P).waiting.filter (fun x => hw.line x.1 ≠ hw.line s) =
      (hw.stateOf m₀ ops P).waiting := by
    refine List.filter_eq_self.mpr fun x hx => ?_
    simp [hline x hx]
  rw [stateOf_store, if_pos hs]
  unfold writeBack waitingIn
  simp only [List.filter_append, hnone, hall]
  simp

/-- Write a line back behind each store of `P` that goes to it: then `P` is in memory. -/
theorem reaches_stateOf (m₀ : μ) (h : hw.CrashSet ops P) :
    hw.Reaches m₀ ops (hw.stateOf m₀ ops P) := by
  induction ops using List.reverseRecOn with
  | nil => exact .start
  | append_singleton ops e ih =>
    have hprev := ih h.left
    cases e with
    | store s =>
      have hissue := hprev.issue (e := .store s) rfl
      by_cases hs : P s
      · rw [← writeBack_stateOf h hs]
        exact hissue.writeBack (hw.line s)
      · rw [stateOf_store, if_neg hs]
        exact hissue
    | flush f => exact hprev.issue (issue_flush_stateOf m₀ ops f)
    | fence g => exact hprev.issue (issue_fence_stateOf h)

end

/-- The sets of stores that a crash can find in memory. -/
theorem exists_reaches_iff (m₀ : μ) (hnd : (stores ops).Nodup) {P : σ → Prop} :
    (∃ st, hw.Reaches m₀ ops st ∧ ∀ s ∈ stores ops, s ∈ st.persisted ↔ P s) ↔
      hw.CrashSet ops P := by
  classical
  constructor
  · rintro ⟨st, hst, hP⟩
    exact (hst.follows.crashSet hnd).congr hP
  · intro h
    refine ⟨_, reaches_stateOf m₀ h, fun s hs => ?_⟩
    show s ∈ (stores ops).filter _ ↔ P s
    rw [List.mem_filter, decide_eq_true_eq]
    exact ⟨fun h => h.2, fun h => ⟨hs, h⟩⟩

/-! ## The contents of memory -/

section

variable (hcomm : ∀ m s t, hw.line s ≠ hw.line t →
  hw.write (hw.write m s) t = hw.write (hw.write m t) s)

include hcomm

omit [DecidableEq ι] in
theorem foldl_write_comm {l : List σ} {s : σ} (h : ∀ t ∈ l, hw.line t ≠ hw.line s) (m : μ) :
    hw.write (l.foldl hw.write m) s = l.foldl hw.write (hw.write m s) := by
  induction l generalizing m with
  | nil => rfl
  | cons t l ih =>
    rw [List.foldl_cons, List.foldl_cons, ih fun t' ht' => h t' (List.mem_cons_of_mem _ ht'),
      hcomm m t s (h t List.mem_cons_self)]

/-- Memory depends on the order of the stores within the lines only. -/
theorem foldl_write_eq {l₁ l₂ : List σ}
    (h : ∀ a, l₁.filter (fun s => hw.line s = a) = l₂.filter fun s => hw.line s = a) (m : μ) :
    l₁.foldl hw.write m = l₂.foldl hw.write m := by
  induction l₁ generalizing l₂ m with
  | nil =>
    cases l₂ with
    | nil => rfl
    | cons t l =>
      have hnil := h (hw.line t)
      simp at hnil
  | cons s l₁ ih =>
    -- the first store of its line in the other list may be moved to the front
    have hfirst : l₂.filter (fun t => hw.line t = hw.line s) =
        s :: l₁.filter fun t => hw.line t = hw.line s := by
      rw [← h, List.filter_cons_of_pos (by simp)]
    obtain ⟨u, v, rfl, hu, -, -⟩ := List.filter_eq_cons_iff.mp hfirst
    have hne : ∀ t ∈ u, hw.line t ≠ hw.line s := by
      intro t ht heq
      exact hu t ht (decide_eq_true heq)
    rw [List.foldl_cons, List.foldl_append, List.foldl_cons, foldl_write_comm hcomm hne,
      ← List.foldl_append]
    refine ih (fun a => ?_) (hw.write m s)
    have ha := h a
    rw [List.filter_append] at ha ⊢
    by_cases hsa : hw.line s = a
    · have hnone : u.filter (fun t => hw.line t = a) = [] := by
        refine List.filter_eq_nil_iff.mpr fun t ht => ?_
        simpa [← hsa] using hne t ht
      rw [List.filter_cons_of_pos (by simpa using hsa), hnone, List.nil_append,
        List.filter_cons_of_pos (by simpa using hsa), List.cons.injEq] at ha
      rw [hnone, List.nil_append]
      exact ha.2
    · rwa [List.filter_cons_of_neg (by simpa using hsa),
        List.filter_cons_of_neg (by simpa using hsa)] at ha

/-- Memory is what the stores in it leave when they are written in the order of issue. -/
theorem Reaches.memory_eq [DecidableEq σ] (h : hw.Reaches m₀ ops st) (hnd : (stores ops).Nodup) :
    st.memory = ((stores ops).filter fun s => s ∈ st.persisted).foldl hw.write m₀ := by
  have hf := h.follows
  rw [hf.memory]
  refine foldl_write_eq hcomm (fun a => ?_) m₀
  have hdisj := (List.nodup_append.mp (hf.perm.nodup_iff.mpr hnd)).2.2
  have hwait : ((st.waiting.map Prod.fst).filter fun s => hw.line s = a).filter
      (fun s => s ∈ st.persisted) = [] := by
    refine List.filter_eq_nil_iff.mpr fun s hs => ?_
    rw [decide_eq_true_eq]
    exact fun hp => hdisj s hp s (List.mem_filter.mp hs).1 rfl
  have hkeep : (st.persisted.filter fun s => hw.line s = a).filter (fun s => s ∈ st.persisted) =
      st.persisted.filter fun s => hw.line s = a := by
    refine List.filter_eq_self.mpr fun s hs => ?_
    rw [decide_eq_true_eq]
    exact (List.mem_filter.mp hs).1
  rw [List.filter_comm, ← hf.line a, List.filter_append, List.filter_append, hkeep, hwait,
    List.append_nil]

/-- The memories that a crash can leave. -/
theorem exists_reaches_memory_iff (hnd : (stores ops).Nodup) {m : μ} :
    (∃ st, hw.Reaches m₀ ops st ∧ st.memory = m) ↔
      ∃ P : σ → Bool, hw.CrashSet ops (fun s => P s = true) ∧
        m = ((stores ops).filter P).foldl hw.write m₀ := by
  classical
  constructor
  · rintro ⟨st, hst, rfl⟩
    refine ⟨fun s => decide (s ∈ st.persisted), ?_, hst.memory_eq hcomm hnd⟩
    simpa using hst.follows.crashSet hnd
  · rintro ⟨P, hP, rfl⟩
    refine ⟨_, reaches_stateOf m₀ hP, ?_⟩
    show ((stores ops).filter _).foldl _ _ = _
    simp

end

end

/-! ## Flushes of whole lines

When a flush covers all stores of a line or none, whatever precedes a durable store in its line
is durable too, and the stores in flight are the ones a crash decides on. -/

section

variable {hw} {m₀ : μ} {ops : List (Event σ φ ψ)}
  (hline : ∀ f s t, hw.line s = hw.line t → hw.covers f s = hw.covers f t)
  (hnd : (stores ops).Nodup)

include hline hnd

theorem durable_of_before {s t : σ} (hst : hw.line s = hw.line t) (hsub : [s, t] <+ stores ops)
    (ht : (t, .durable) ∈ life hw.covers ops) : (s, .durable) ∈ life hw.covers ops := by
  obtain ⟨pre, post, rfl, hp⟩ := (mem_life_iff hw.covers).mp ht
  rw [stores_append] at hsub hnd
  have hnot : t ∉ stores post :=
    (List.nodup_cons.mp (List.nodup_append.mp hnd).2.1).1
  have hs : s ∈ stores pre := by
    obtain ⟨l₁, l₂, hl, h₁, h₂⟩ := List.sublist_append_iff.mp hsub
    cases l₁ with
    | nil =>
      rw [List.nil_append] at hl
      subst hl
      have htail : [t] <+ stores post := by
        cases h₂ with
        | cons _ h => exact (List.sublist_cons_self s [t]).trans h
        | cons_cons _ h => exact h
      exact absurd (List.singleton_sublist.mp htail) hnot
    | cons x l₁ =>
      rw [List.cons_append, List.cons.injEq] at hl
      exact hl.1 ▸ h₁.subset List.mem_cons_self
  rw [← map_fst_life hw.covers pre] at hs
  obtain ⟨⟨s, q⟩, hq, rfl⟩ := List.mem_map.mp hs
  obtain ⟨a, b, rfl, -⟩ := (mem_life_iff hw.covers).mp hq
  refine (mem_life_iff hw.covers).mpr ⟨a, b ++ .store t :: post, by simp, Eq.symm ?_⟩
  obtain ⟨f, g, hc, hfg⟩ := (phase_eq_durable_iff hw.covers).mp hp.symm
  refine (phase_eq_durable_iff hw.covers).mpr ⟨f, g, (hline f s t hst).trans hc, ?_⟩
  exact hfg.trans ((List.sublist_cons_self _ _).trans (List.sublist_append_right _ _))

/-- What is durable can be all there is in memory. -/
theorem crashSet_durable : hw.CrashSet ops fun s => (s, .durable) ∈ life hw.covers ops where
  ordered := fun _ _ hst hsub ht => durable_of_before hline hnd hst hsub ht
  durable := fun _ hs => hs

/-- A crash can lose exactly the stores that are not durable. -/
theorem exists_lost_iff [DecidableEq ι] (m₀ : μ) {s : σ} (hs : s ∈ stores ops) :
    (∃ st, hw.Reaches m₀ ops st ∧ s ∉ st.persisted) ↔ (s, .durable) ∉ life hw.covers ops := by
  constructor
  · rintro ⟨st, hst, hlost⟩ hd
    exact hlost ((hst.follows.crashSet hnd).durable s hd)
  · intro hd
    obtain ⟨st, hst, hP⟩ := (exists_reaches_iff m₀ hnd).mpr (crashSet_durable hline hnd)
    exact ⟨st, hst, fun hp => hd ((hP s hs).mp hp)⟩

end

/-! ## Counting crash states -/

section

variable [DecidableEq σ] (ops : List (Event σ φ ψ))

open Classical in
/-- The sets of stores that a crash can find in memory. -/
noncomputable def crashSets : Finset (Finset σ) :=
  (stores ops).toFinset.powerset.filter fun P => hw.CrashSet ops (· ∈ P)

variable {hw} {ops}

theorem mem_crashSets {P : Finset σ} :
    P ∈ hw.crashSets ops ↔ P ⊆ (stores ops).toFinset ∧ hw.CrashSet ops (· ∈ P) := by
  classical
  unfold crashSets
  rw [Finset.mem_filter, Finset.mem_powerset]

/-- The crash sets are chosen among the stores in flight, closed under the order of the lines. -/
theorem card_crashSets (hline : ∀ f s t, hw.line s = hw.line t → hw.covers f s = hw.covers f t)
    (hnd : (stores ops).Nodup) {R : σ → σ → Prop} [DecidableRel R]
    (hR : ∀ s t, R s t ↔ hw.line s = hw.line t ∧ [s, t] <+ stores ops) :
    (hw.crashSets ops).card =
      (closedSets R ((inFlight hw.covers ops).map Prod.fst).toFinset).card := by
  have hflight : ∀ s, s ∈ ((inFlight hw.covers ops).map Prod.fst).toFinset ↔
      s ∈ stores ops ∧ (s, .durable) ∉ life hw.covers ops := by
    intro s
    rw [List.mem_toFinset, ← map_fst_life hw.covers ops, List.mem_map, List.mem_map]
    constructor
    · rintro ⟨⟨s, p⟩, hp, rfl⟩
      obtain ⟨hlife, hne⟩ := (mem_inFlight_iff hw.covers).mp hp
      exact ⟨⟨_, hlife, rfl⟩, fun hd => hne (life_unique_of_nodup hw.covers hnd hlife hd)⟩
    · rintro ⟨⟨⟨s, p⟩, hp, rfl⟩, hd⟩
      exact ⟨_, (mem_inFlight_iff hw.covers).mpr ⟨hp, fun h => hd (h ▸ hp)⟩, rfl⟩
  have hdurable : ∀ s, s ∈ (stores ops).toFinset \ ((inFlight hw.covers ops).map Prod.fst).toFinset ↔
      s ∈ stores ops ∧ (s, .durable) ∈ life hw.covers ops := by
    intro s
    rw [Finset.mem_sdiff, hflight, List.mem_toFinset, not_and, not_not]
    exact ⟨fun h => ⟨h.1, h.2 h.1⟩, fun h => ⟨h.1, fun _ => h.2⟩⟩
  refine Finset.card_nbij' (fun P => P ∩ ((inFlight hw.covers ops).map Prod.fst).toFinset)
    (fun Q => Q ∪ (stores ops).toFinset \ ((inFlight hw.covers ops).map Prod.fst).toFinset)
    ?_ ?_ ?_ ?_
  · intro P hP
    obtain ⟨-, hset⟩ := mem_crashSets.mp hP
    refine (mem_closedSets R).mpr ⟨Finset.inter_subset_right, fun t ht s hs hr => ?_⟩
    obtain ⟨hst, hsub⟩ := (hR s t).mp hr
    exact Finset.mem_inter.mpr ⟨hset.ordered s t hst hsub (Finset.mem_inter.mp ht).1, hs⟩
  · intro Q hQ
    obtain ⟨hsub, hclosed⟩ := (mem_closedSets R).mp hQ
    refine mem_crashSets.mpr ⟨?_, ?_, ?_⟩
    · refine Finset.union_subset (fun s hs => ?_) Finset.sdiff_subset
      exact List.mem_toFinset.mpr ((hflight s).mp (hsub hs)).1
    · intro s t hst hsub' ht
      have hs : s ∈ stores ops := hsub'.subset (by simp)
      by_cases hd : (s, .durable) ∈ life hw.covers ops
      · exact Finset.mem_union_right _ ((hdurable s).mpr ⟨hs, hd⟩)
      · rcases Finset.mem_union.mp ht with ht | ht
        · exact Finset.mem_union_left _
            (hclosed t ht s ((hflight s).mpr ⟨hs, hd⟩) ((hR s t).mpr ⟨hst, hsub'⟩))
        · exact absurd (durable_of_before hline hnd hst hsub' ((hdurable t).mp ht).2) hd
    · intro s hs
      have hs' : s ∈ stores ops := by
        rw [← map_fst_life hw.covers ops]
        exact List.mem_map_of_mem (f := Prod.fst) hs
      exact Finset.mem_union_right _ ((hdurable s).mpr ⟨hs', hs⟩)
  · intro P hP
    obtain ⟨hissued, hset⟩ := mem_crashSets.mp hP
    ext s
    rw [Finset.mem_union, Finset.mem_inter, hdurable]
    constructor
    · rintro (⟨hs, -⟩ | ⟨-, hd⟩)
      · exact hs
      · exact hset.durable s hd
    · intro hs
      have hs' := List.mem_toFinset.mp (hissued hs)
      by_cases hd : (s, .durable) ∈ life hw.covers ops
      · exact Or.inr ⟨hs', hd⟩
      · exact Or.inl ⟨hs, (hflight s).mpr ⟨hs', hd⟩⟩
  · intro Q hQ
    have hsub := ((mem_closedSets R).mp hQ).1
    ext s
    rw [Finset.mem_inter, Finset.mem_union, Finset.mem_sdiff]
    constructor
    · rintro ⟨hs | ⟨-, hno⟩, hU⟩
      · exact hs
      · exact absurd hU hno
    · exact fun hs => ⟨Or.inl hs, hsub hs⟩

end

end PmMachine

end Lib
