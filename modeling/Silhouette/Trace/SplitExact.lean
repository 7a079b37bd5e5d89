import Silhouette.Trace.CallStack
import Mathlib.Data.Finset.Max
import Mathlib.Data.List.Pairwise

/-!
# Splitting against the call stack

What `SplitOpMgr` lists, compared with the outermost operations of the processes.  An end record
that has the name and address of the open operation closes it, also when it ends a call of the
operation by itself; and the first mount stays open after it was left out.
-/

namespace Silhouette
namespace Trace

open Lib TraceReader
open scoped List

section

variable {vfsOpInfo : String → Bool}

/-! ## One process -/

/-- With the first mount over, the outermost operations are closed, or a call of an operation by
itself closes one. -/
theorem closings_false_cases {stack rest : List TraceEntry} (hn : Nested stack rest) :
    along (reentryAt vfsOpInfo) stack rest = [] ∧
        closings vfsOpInfo false (outermostOp vfsOpInfo stack) rest =
          (along (endAt vfsOpInfo) stack rest, false) ∨
      ∃ p ∈ (closings vfsOpInfo false (outermostOp vfsOpInfo stack) rest).1,
        p ∈ along (reentryAt vfsOpInfo) stack rest := by
  rcases quiet_or_first false stack rest with hq | ⟨a, e, b, rfl, hq, p, hp⟩
  · exact Or.inl ⟨hq.1, closings_of_quiet hn hq⟩
  · rcases hp with hp | ⟨hfirst, -⟩
    · obtain ⟨hout, hpair, -, -⟩ := outermostOp_reentry hn.append.head.1 hp
      obtain ⟨-, -, -, rfl, -⟩ := of_reentryAt hp
      refine Or.inr ⟨p, ?_, mem_along.mpr ⟨a, p.2, b, rfl, hp⟩⟩
      rw [closings_append hn hq, hout, closings_pair hpair rfl]
      exact List.mem_append_right _ List.mem_cons_self
    · cases hfirst

variable (vfsOpInfo) in
/-- The first mount of a process, with nothing of its name behind it. -/
structure MountAt (recs : List TraceEntry) (m : TraceEntry × TraceEntry) (a b : List TraceEntry) :
    Prop where
  split : recs = a ++ m.2 :: b
  quiet : Quiet vfsOpInfo true [] a
  isEnd : endAt vfsOpInfo (a.foldl nextStack []) m.2 = some m
  mount : isMount m.1 = true
  alone : ∀ e ∈ b, m.1.isPairFuncEntry e = false

theorem outermostOp_nil : outermostOp vfsOpInfo [] = none := rfl

theorem MountAt.closings_eq {recs a b : List TraceEntry} {m : TraceEntry × TraceEntry}
    (h : MountAt vfsOpInfo recs m a b) (hn : Nested [] recs) :
    closings vfsOpInfo true none recs = (along (endAt vfsOpInfo) [] a, false) := by
  obtain ⟨rfl, hq, hend, hmount, halone⟩ := h
  obtain ⟨hout, hpair, -⟩ := outermostOp_end hn.append.head.1 hend
  have h := closings_append hn hq
  rwa [outermostOp_nil, hout, closings_mount hpair hmount, closings_alone halone,
    List.append_nil] at h

theorem MountAt.ends_eq {recs a b : List TraceEntry} {m : TraceEntry × TraceEntry}
    (h : MountAt vfsOpInfo recs m a b) :
    along (endAt vfsOpInfo) [] recs = along (endAt vfsOpInfo) [] a ++
      m :: along (endAt vfsOpInfo) (nextStack (a.foldl nextStack []) m.2) b := by
  rw [h.split, along_append, along, h.isEnd]
  rfl

theorem MountAt.reentries_eq {recs a b : List TraceEntry} {m : TraceEntry × TraceEntry}
    (h : MountAt vfsOpInfo recs m a b) (hn : Nested [] recs) :
    along (reentryAt vfsOpInfo) [] recs =
      along (reentryAt vfsOpInfo) (nextStack (a.foldl nextStack []) m.2) b := by
  have hnone : reentryAt vfsOpInfo (a.foldl nextStack []) m.2 = none := by
    rw [← Option.not_isSome_iff_eq_none, Option.isSome_iff_exists]
    rintro ⟨p, hp⟩
    have hn' : Nested (a.foldl nextStack []) (m.2 :: b) := (h.split ▸ hn).append
    have hend := h.isEnd
    rw [(outermostOp_reentry hn'.head.1 hp).2.2.2] at hend
    cases hend
  rw [h.split, along_append, along, h.quiet.1, hnone]
  rfl

/-- One call of a mount by itself uses up the exception for the first mount. -/
theorem closings_of_reentry {recs : List TraceEntry} {p : TraceEntry × TraceEntry}
    (hn : Nested [] recs) (hp : along (reentryAt vfsOpInfo) [] recs = [p])
    (hmount : isMount p.1 = true)
    (hends : ∀ q ∈ along (endAt vfsOpInfo) [] recs, isMount q.1 = false) :
    closings vfsOpInfo true none recs = (along (endAt vfsOpInfo) [] recs, false) := by
  obtain hq | ⟨a, e, b, rfl, hq, q, hq'⟩ :
      Quiet vfsOpInfo true [] recs ∨ _ := quiet_or_first true [] recs
  · rw [hq.1] at hp
    cases hp
  rcases hq' with hq' | ⟨-, hend, hm⟩
  · obtain ⟨hout, hpair, hnext, hend⟩ := outermostOp_reentry hn.append.head.1 hq'
    rw [along_append, hq.1, along, hq'] at hp
    obtain ⟨rfl, hrest⟩ := List.cons.inj hp
    have hclose := closings_append hn hq
    rw [outermostOp_nil, hout, closings_mount hpair hmount, ← hnext,
      closings_of_quiet hn.append.head.2 ⟨hrest, fun h => absurd h Bool.false_ne_true⟩] at hclose
    rw [hclose, along_append, along, hend]
    rfl
  · have hmem : q ∈ along (endAt vfsOpInfo) [] (a ++ e :: b) :=
      mem_along.mpr ⟨a, e, b, rfl, hend⟩
    rw [hends q hmem] at hm
    cases hm

/-- What a process with the first mount still to come can lead to. -/
theorem closings_true_cases {recs : List TraceEntry} (hn : Nested [] recs) (hnodup : recs.Nodup) :
    (∃ p ∈ (closings vfsOpInfo true none recs).1,
        p.2 ∈ recs ∧ p ∉ along (endAt vfsOpInfo) [] recs) ∨
      (Quiet vfsOpInfo true [] recs ∧
        closings vfsOpInfo true none recs = (along (endAt vfsOpInfo) [] recs, true)) ∨
      (∃ p, along (reentryAt vfsOpInfo) [] recs = [p] ∧ isMount p.1 = true ∧
        closings vfsOpInfo true none recs = (along (endAt vfsOpInfo) [] recs, false)) ∨
      ∃ m a b, MountAt vfsOpInfo recs m a b := by
  have hbad : ∀ p ∈ (closings vfsOpInfo true none recs).1,
      p ∈ along (reentryAt vfsOpInfo) [] recs →
      ∃ p ∈ (closings vfsOpInfo true none recs).1,
        p.2 ∈ recs ∧ p ∉ along (endAt vfsOpInfo) [] recs :=
    fun p hp hr => ⟨p, hp, snd_mem_of_reentries hr, notMem_ends_of_reentry hnodup hr⟩
  obtain hq | ⟨a, e, b, rfl, hq, p, hp⟩ :
      Quiet vfsOpInfo true [] recs ∨ _ := quiet_or_first true [] recs
  · exact Or.inr (Or.inl ⟨hq, closings_of_quiet hn hq⟩)
  have hclose := closings_append hn hq
  rw [outermostOp_nil] at hclose
  rcases hp with hp | ⟨-, hend, hmount⟩
  · obtain ⟨hout, hpair, hnext, hend⟩ := outermostOp_reentry hn.append.head.1 hp
    have hmem : p ∈ along (reentryAt vfsOpInfo) [] (a ++ e :: b) :=
      mem_along.mpr ⟨a, e, b, rfl, hp⟩
    rw [hout] at hclose
    by_cases hmount : isMount p.1 = true
    · -- the open mount is taken for the first one and stays open
      rw [closings_mount hpair hmount, ← hnext] at hclose
      have hcases := @closings_false_cases vfsOpInfo _ _ hn.append.head.2
      obtain ⟨hnone, heq⟩ | ⟨q, hq', hr⟩ := hcases
      · refine Or.inr (Or.inr (Or.inl ⟨p, ?_, hmount, ?_⟩))
        · rw [along_append, along, hq.1, hp, hnone]
          rfl
        · rw [hclose, heq, along_append, along, hend]
          rfl
      · refine Or.inl (hbad q ?_ ?_)
        · rw [hclose]
          exact List.mem_append_right _ hq'
        · rw [along_append, along]
          exact List.mem_append_right _ (List.mem_append_right _ hr)
    · have hfalse : (true && isMount p.1) = false := by simpa using hmount
      obtain ⟨-, -, -, rfl, -⟩ := of_reentryAt hp
      rw [closings_pair hpair hfalse] at hclose
      refine Or.inl (hbad p ?_ hmem)
      rw [hclose]
      exact List.mem_append_right _ List.mem_cons_self
  · obtain ⟨hout, hpair, hnext⟩ := outermostOp_end hn.append.head.1 hend
    obtain ⟨-, -, rfl, -, hop, -⟩ := of_endAt hend
    obtain halone | ⟨u, hu, hmem⟩ := @closings_stuck vfsOpInfo p.1 b
    · exact Or.inr (Or.inr (Or.inr ⟨p, a, b, rfl, hq, hend, hmount, halone⟩))
    · -- an operation that starts where the mount did and ends later
      rw [hout, closings_mount hpair hmount] at hclose
      refine Or.inl ⟨(p.1, u), ?_, List.mem_append_right _ (List.mem_cons_of_mem _ hu), ?_⟩
      · rw [hclose]
        exact List.mem_append_right _ hmem
      · rw [along_append, along, hend, List.mem_append, List.mem_append]
        obtain ⟨-, hnodup', hdisj⟩ := List.nodup_append.mp hnodup
        obtain ⟨hfresh, -⟩ := List.nodup_cons.mp hnodup'
        have hstart : p.1 ∈ a := by
          obtain ⟨below, hstack, -⟩ := of_endAt hend
          have h1 : p.1 ∈ a.foldl nextStack [] := hstack ▸ List.mem_cons_self
          exact (mem_foldl_nextStack hn.left h1).resolve_left List.not_mem_nil
        rintro (h | h | h)
        · exact hdisj u (snd_mem_of_ends h) u (List.mem_cons_of_mem _ hu) rfl
        · rw [Option.mem_toList, Option.some.injEq] at h
          exact hfresh ((congrArg Prod.snd h) ▸ hu)
        · rcases (fst_mem_of_ends hn.append.head.2 h).1 with h1 | h1
          · -- the mount is off the stack
            have hmem' := List.mem_filter.mpr ⟨h1, hop⟩
            rw [List.getLast?_eq_none_iff.mp hnext] at hmem'
            exact absurd hmem' List.not_mem_nil
          · exact hdisj p.1 hstart p.1 (List.mem_cons_of_mem _ h1) rfl

/-! ## All processes -/

variable (vfsOpInfo) in
/-- The processes one after the other. -/
def closingsAll : Bool → List (List TraceEntry) → List (TraceEntry × TraceEntry) × Bool
  | first, [] => ([], first)
  | first, recs :: rest =>
    ((closings vfsOpInfo first none recs).1 ++
        (closingsAll (closings vfsOpInfo first none recs).2 rest).1,
      (closingsAll (closings vfsOpInfo first none recs).2 rest).2)

variable (vfsOpInfo) in
/-- The start and end records of the outermost operations that end. -/
def outermostEnds (procs : List (List TraceEntry)) : List (TraceEntry × TraceEntry) :=
  procs.flatMap (along (endAt vfsOpInfo) [])

variable (vfsOpInfo) in
/-- The end records inside an outermost operation that have its name and address. -/
def reentries (procs : List (List TraceEntry)) : List (TraceEntry × TraceEntry) :=
  procs.flatMap (along (reentryAt vfsOpInfo) [])

theorem closingsAll_cons {first first' : Bool} {recs : List TraceEntry}
    {out : List (TraceEntry × TraceEntry)}
    (h : closings vfsOpInfo first none recs = (out, first')) (procs : List (List TraceEntry)) :
    closingsAll vfsOpInfo first (recs :: procs) =
      (out ++ (closingsAll vfsOpInfo first' procs).1, (closingsAll vfsOpInfo first' procs).2) := by
  rw [closingsAll, h]

theorem closingsAll_quiet {first : Bool} {procs : List (List TraceEntry)}
    (hn : ∀ recs ∈ procs, Nested [] recs) (hq : ∀ recs ∈ procs, Quiet vfsOpInfo first [] recs)
    (rest : List (List TraceEntry)) :
    closingsAll vfsOpInfo first (procs ++ rest) =
      (outermostEnds vfsOpInfo procs ++ (closingsAll vfsOpInfo first rest).1,
        (closingsAll vfsOpInfo first rest).2) := by
  induction procs with
  | nil => rfl
  | cons recs procs ih =>
    have hrecs := closings_of_quiet (hn recs List.mem_cons_self) (hq recs List.mem_cons_self)
    have hrest := ih (fun x hx => hn x (List.mem_cons_of_mem _ hx))
      (fun x hx => hq x (List.mem_cons_of_mem _ hx))
    rw [List.cons_append, closingsAll_cons hrecs, hrest, outermostEnds, outermostEnds,
      List.flatMap_cons, List.append_assoc]

theorem reentries_eq_nil {procs : List (List TraceEntry)} :
    reentries vfsOpInfo procs = [] ↔ ∀ recs ∈ procs, Quiet vfsOpInfo false [] recs := by
  rw [reentries, List.flatMap_eq_nil_iff]
  exact forall₂_congr fun recs _ =>
    ⟨fun h => ⟨h, fun hf => absurd hf Bool.false_ne_true⟩, fun h => h.1⟩

theorem closingsAll_false {procs : List (List TraceEntry)}
    (hn : ∀ recs ∈ procs, Nested [] recs) (h : reentries vfsOpInfo procs = []) :
    closingsAll vfsOpInfo false procs = (outermostEnds vfsOpInfo procs, false) := by
  have hall := closingsAll_quiet hn (reentries_eq_nil.mp h) []
  rw [List.append_nil] at hall
  rw [hall, closingsAll, List.append_nil]

theorem closingsAll_false_cases {procs : List (List TraceEntry)}
    (hn : ∀ recs ∈ procs, Nested [] recs) :
    reentries vfsOpInfo procs = [] ∨ ∃ p ∈ (closingsAll vfsOpInfo false procs).1,
      ∃ recs ∈ procs, p ∈ along (reentryAt vfsOpInfo) [] recs := by
  induction procs with
  | nil => exact Or.inl rfl
  | cons recs procs ih =>
    have hn' : ∀ x ∈ procs, Nested [] x := fun x hx => hn x (List.mem_cons_of_mem _ hx)
    obtain ⟨hnone, heq⟩ | ⟨p, hp, hr⟩ :=
      @closings_false_cases vfsOpInfo [] recs (hn recs List.mem_cons_self)
    · rcases ih hn' with hrest | ⟨p, hp, x, hx, hr⟩
      · refine Or.inl ?_
        rw [reentries, List.flatMap_cons, hnone]
        exact hrest
      · refine Or.inr ⟨p, ?_, x, List.mem_cons_of_mem _ hx, hr⟩
        rw [closingsAll_cons heq]
        exact List.mem_append_right _ hp
    · refine Or.inr ⟨p, ?_, recs, List.mem_cons_self, hr⟩
      rw [closingsAll]
      exact List.mem_append_left _ hp

/-- One process has the first mount and the others have no reentry. -/
theorem closingsAll_mount {before after : List (List TraceEntry)} {recs a b : List TraceEntry}
    {m : TraceEntry × TraceEntry} (hn : ∀ x ∈ before ++ recs :: after, Nested [] x)
    (hq : ∀ x ∈ before, Quiet vfsOpInfo true [] x) (hm : MountAt vfsOpInfo recs m a b)
    (hafter : reentries vfsOpInfo after = []) :
    (closingsAll vfsOpInfo true (before ++ recs :: after)).1 =
      outermostEnds vfsOpInfo before ++
        (along (endAt vfsOpInfo) [] a ++ outermostEnds vfsOpInfo after) := by
  rw [closingsAll_quiet (fun x hx => hn x (List.mem_append_left _ hx)) hq,
    closingsAll_cons (hm.closings_eq (hn recs (List.mem_append_right _ List.mem_cons_self))),
    closingsAll_false (fun x hx => hn x (List.mem_append_right _ (List.mem_cons_of_mem _ hx)))
      hafter]

/-- The one reentry is in a mount. -/
theorem closingsAll_reentry {procs : List (List TraceEntry)} {p : TraceEntry × TraceEntry}
    (hn : ∀ recs ∈ procs, Nested [] recs) (hp : reentries vfsOpInfo procs = [p])
    (hmount : isMount p.1 = true)
    (hends : ∀ q ∈ outermostEnds vfsOpInfo procs, isMount q.1 = false) :
    (closingsAll vfsOpInfo true procs).1 = outermostEnds vfsOpInfo procs := by
  induction procs with
  | nil => cases hp
  | cons recs procs ih =>
    have hn' : ∀ x ∈ procs, Nested [] x := fun x hx => hn x (List.mem_cons_of_mem _ hx)
    have hrecs : ∀ q ∈ along (endAt vfsOpInfo) [] recs, isMount q.1 = false :=
      fun q hq => hends q (List.mem_append_left _ hq)
    rw [reentries, List.flatMap_cons] at hp
    rcases List.append_eq_cons_iff.mp hp with ⟨hnone, hrest⟩ | ⟨l, hl, hrest⟩
    · rw [closingsAll_cons (closings_of_quiet (hn recs List.mem_cons_self)
        ⟨hnone, fun _ => hrecs⟩), outermostEnds, List.flatMap_cons]
      exact congrArg _ (ih hn' hrest fun q hq => hends q (List.mem_append_right _ hq))
    · obtain ⟨rfl, hnil⟩ := List.append_eq_nil_iff.mp hrest.symm
      rw [closingsAll_cons (closings_of_reentry (hn recs List.mem_cons_self) hl hmount hrecs),
        closingsAll_false hn' hnil, outermostEnds, outermostEnds, List.flatMap_cons]

/-- What the processes can lead to. -/
theorem closingsAll_true_cases {procs : List (List TraceEntry)}
    (hn : ∀ recs ∈ procs, Nested [] recs) (hnodup : ∀ recs ∈ procs, recs.Nodup) :
    (∃ p ∈ (closingsAll vfsOpInfo true procs).1, ∃ recs ∈ procs,
        p.2 ∈ recs ∧ p ∉ along (endAt vfsOpInfo) [] recs) ∨
      (∀ recs ∈ procs, Quiet vfsOpInfo true [] recs) ∨
      (∃ p, reentries vfsOpInfo procs = [p] ∧ isMount p.1 = true ∧
        (closingsAll vfsOpInfo true procs).1 = outermostEnds vfsOpInfo procs) ∨
      ∃ before recs after m a b, procs = before ++ recs :: after ∧
        (∀ x ∈ before, Quiet vfsOpInfo true [] x) ∧ MountAt vfsOpInfo recs m a b ∧
        reentries vfsOpInfo after = [] := by
  induction procs with
  | nil => exact Or.inr (Or.inl fun x hx => absurd hx List.not_mem_nil)
  | cons recs procs ih =>
    have hn' : ∀ x ∈ procs, Nested [] x := fun x hx => hn x (List.mem_cons_of_mem _ hx)
    have hnodup' : ∀ x ∈ procs, x.Nodup := fun x hx => hnodup x (List.mem_cons_of_mem _ hx)
    -- a process behind the first mount that closes too early
    have hbad : ∀ p ∈ (closingsAll vfsOpInfo false procs).1,
        (∃ x ∈ procs, p ∈ along (reentryAt vfsOpInfo) [] x) →
        ∃ x ∈ recs :: procs, p.2 ∈ x ∧ p ∉ along (endAt vfsOpInfo) [] x := by
      rintro p - ⟨x, hx, hr⟩
      exact ⟨x, List.mem_cons_of_mem _ hx, snd_mem_of_reentries hr,
        notMem_ends_of_reentry (hnodup' x hx) hr⟩
    rcases @closings_true_cases vfsOpInfo recs (hn recs List.mem_cons_self)
      (hnodup recs List.mem_cons_self) with
      ⟨p, hp, hmem, hnot⟩ | ⟨hq, heq⟩ | ⟨p, hr, hmount, heq⟩ | ⟨m, a, b, hm⟩
    · refine Or.inl ⟨p, ?_, recs, List.mem_cons_self, hmem, hnot⟩
      rw [closingsAll]
      exact List.mem_append_left _ hp
    · rw [closingsAll_cons heq]
      rcases ih hn' hnodup' with ⟨p, hp, x, hx, hmem, hnot⟩ | hrest | ⟨p, hr, hmount, hrest⟩ |
          ⟨before, x, after, m, a, b, rfl, hbefore, hm, hafter⟩
      · exact Or.inl ⟨p, List.mem_append_right _ hp, x, List.mem_cons_of_mem _ hx, hmem, hnot⟩
      · refine Or.inr (Or.inl fun x hx => ?_)
        rcases List.mem_cons.mp hx with rfl | hx
        · exact hq
        · exact hrest x hx
      · refine Or.inr (Or.inr (Or.inl ⟨p, ?_, hmount, ?_⟩))
        · rw [reentries, List.flatMap_cons, hq.1]
          exact hr
        · rw [hrest, outermostEnds, outermostEnds, List.flatMap_cons]
      · refine Or.inr (Or.inr (Or.inr ⟨recs :: before, x, after, m, a, b, rfl, ?_, hm, hafter⟩))
        intro y hy
        rcases List.mem_cons.mp hy with rfl | hy
        · exact hq
        · exact hbefore y hy
    · rw [closingsAll_cons heq]
      rcases @closingsAll_false_cases vfsOpInfo procs hn' with hrest | ⟨q, hq, hr'⟩
      · refine Or.inr (Or.inr (Or.inl ⟨p, ?_, hmount, ?_⟩))
        · rw [reentries, List.flatMap_cons, hr, List.singleton_append]
          exact congrArg _ hrest
        · rw [closingsAll_false hn' hrest, outermostEnds, outermostEnds, List.flatMap_cons]
      · exact Or.inl ⟨q, List.mem_append_right _ hq, hbad q hq hr'⟩
    · rcases @closingsAll_false_cases vfsOpInfo procs hn' with hrest | ⟨q, hq, hr'⟩
      · refine Or.inr (Or.inr (Or.inr ⟨[], recs, procs, m, a, b, rfl, ?_, hm, hrest⟩))
        exact fun x hx => absurd hx List.not_mem_nil
      · refine Or.inl ⟨q, ?_, hbad q hq hr'⟩
        rw [closingsAll_cons (hm.closings_eq (hn recs List.mem_cons_self))]
        exact List.mem_append_right _ hq

/-! ## The first mount -/

/-- Of all mounts that end, the one that ends first. -/
def isFirstMount (ends : List (TraceEntry × TraceEntry)) (p : TraceEntry × TraceEntry) : Bool :=
  isMount p.1 && ends.all fun q => !isMount q.1 || p.2.seq ≤ q.2.seq

theorem isFirstMount_iff {ends : List (TraceEntry × TraceEntry)} {p : TraceEntry × TraceEntry} :
    isFirstMount ends p = true ↔
      isMount p.1 = true ∧ ∀ q ∈ ends, isMount q.1 = true → p.2.seq ≤ q.2.seq := by
  rw [isFirstMount, Bool.and_eq_true, List.all_eq_true]
  refine and_congr_right fun _ => forall₂_congr fun q _ => ?_
  rw [Bool.or_eq_true, Bool.not_eq_true', decide_eq_true_eq]
  cases isMount q.1 <;> simp

/-- The operations that are to be listed. -/
def listedEnds (ends : List (TraceEntry × TraceEntry)) : List (TraceEntry × TraceEntry) :=
  ends.filter fun p => !isFirstMount ends p

theorem exists_firstMount {ends : List (TraceEntry × TraceEntry)} {p : TraceEntry × TraceEntry}
    (hp : p ∈ ends) (hmount : isMount p.1 = true) : ∃ m ∈ ends, isFirstMount ends m = true := by
  have hne : ends.toFinset.filter (fun q => isMount q.1 = true) |>.Nonempty :=
    ⟨p, Finset.mem_filter.mpr ⟨List.mem_toFinset.mpr hp, hmount⟩⟩
  obtain ⟨m, hm, hmin⟩ := Finset.exists_min_image _ (fun q => q.2.seq) hne
  obtain ⟨hmem, hmount'⟩ := Finset.mem_filter.mp hm
  refine ⟨m, List.mem_toFinset.mp hmem, isFirstMount_iff.mpr ⟨hmount', fun q hq hq' => ?_⟩⟩
  exact hmin q (Finset.mem_filter.mpr ⟨List.mem_toFinset.mpr hq, hq'⟩)

theorem listedEnds_of_no_mount {ends : List (TraceEntry × TraceEntry)}
    (h : ∀ p ∈ ends, isMount p.1 = false) : listedEnds ends = ends := by
  refine List.filter_eq_self.mpr fun p hp => ?_
  rw [isFirstMount, h p hp]
  rfl

/-- The records of the processes of a trace. -/
structure Processes (procs : List (List TraceEntry)) : Prop where
  nested : ∀ recs ∈ procs, Nested [] recs
  sorted : ∀ recs ∈ procs, recs.Pairwise fun a b => a.seq < b.seq
  distinct : (procs.flatten.map TraceEntry.seq).Nodup
  samePid : ∀ recs ∈ procs, ∀ e ∈ recs, ∀ e' ∈ recs, e.pid = e'.pid
  otherPid : procs.Pairwise fun a b => ∀ e ∈ a, ∀ e' ∈ b, e.pid ≠ e'.pid

variable (vfsOpInfo) in
/-- The mount that ends first is the first the splitter comes to, and its process has no operation
after it. -/
structure LoneMount (procs : List (List TraceEntry)) (before : List (TraceEntry × TraceEntry))
    (m : TraceEntry × TraceEntry) (after : List (TraceEntry × TraceEntry)) : Prop where
  ends : outermostEnds vfsOpInfo procs = before ++ m :: after
  mount : isMount m.1 = true
  first : ∀ p ∈ before, isMount p.1 = false
  earliest : ∀ p ∈ after, isMount p.1 = true → m.2.seq < p.2.seq
  last : ∀ p ∈ after, p.2.pid ≠ m.2.pid
  alone : ∀ recs ∈ procs, ∀ e ∈ recs, m.2.seq < e.seq → m.1.isPairFuncEntry e = false
  reentry : ∀ p ∈ reentries vfsOpInfo procs, p.2.pid = m.2.pid ∧ m.2.seq < p.2.seq

variable (vfsOpInfo) in
/-- No operation returns from a call of itself and no mount gets in the way. -/
def SplitsCleanly (procs : List (List TraceEntry)) : Prop :=
  ((∀ p ∈ outermostEnds vfsOpInfo procs, isMount p.1 = false) ∧
      (reentries vfsOpInfo procs = [] ∨
        ∃ p, reentries vfsOpInfo procs = [p] ∧ isMount p.1 = true)) ∨
    ∃ before m after, LoneMount vfsOpInfo procs before m after

namespace Processes

variable {procs : List (List TraceEntry)}

theorem nodup (h : Processes procs) {recs : List TraceEntry} (hr : recs ∈ procs) : recs.Nodup :=
  (h.sorted recs hr).imp fun hlt heq => absurd (heq ▸ hlt) (lt_irrefl _)

theorem eq_of_pid (h : Processes procs) {recs recs' : List TraceEntry} (hr : recs ∈ procs)
    (hr' : recs' ∈ procs) {e e' : TraceEntry} (he : e ∈ recs) (he' : e' ∈ recs')
    (hpid : e.pid = e'.pid) : recs = recs' := by
  by_contra hne
  have : Std.Symm fun a b : List TraceEntry => ∀ e ∈ a, ∀ e' ∈ b, e.pid ≠ e'.pid :=
    ⟨fun a b hab e he e' he' heq => hab e' he' e he heq.symm⟩
  exact h.otherPid.forall hr hr' hne e he e' he' hpid

variable (vfsOpInfo) in
theorem map_snd_outermostEnds (procs : List (List TraceEntry)) :
    (outermostEnds vfsOpInfo procs).map Prod.snd <+ procs.flatten := by
  induction procs with
  | nil => exact List.Sublist.refl _
  | cons recs procs ih =>
    rw [outermostEnds, List.flatMap_cons, List.map_append, List.flatten_cons]
    exact (map_snd_ends [] recs).append ih

theorem distinct_ends (h : Processes procs) :
    ((outermostEnds vfsOpInfo procs).map fun p => p.2.seq).Nodup := by
  have hsub := (map_snd_outermostEnds vfsOpInfo procs).map TraceEntry.seq
  rw [List.map_map] at hsub
  exact h.distinct.sublist hsub

theorem nodup_ends (h : Processes procs) : (outermostEnds vfsOpInfo procs).Nodup :=
  h.distinct_ends.of_map

theorem outermostEnds_append (a : List (List TraceEntry)) (recs : List TraceEntry)
    (b : List (List TraceEntry)) :
    outermostEnds vfsOpInfo (a ++ recs :: b) =
      outermostEnds vfsOpInfo a ++ (along (endAt vfsOpInfo) [] recs ++ outermostEnds vfsOpInfo b) := by
  rw [outermostEnds, List.flatMap_append, List.flatMap_cons]
  rfl

theorem mem_outermostEnds {p : TraceEntry × TraceEntry} :
    p ∈ outermostEnds vfsOpInfo procs ↔ ∃ recs ∈ procs, p ∈ along (endAt vfsOpInfo) [] recs :=
  List.mem_flatMap

theorem mem_reentries {p : TraceEntry × TraceEntry} :
    p ∈ reentries vfsOpInfo procs ↔ ∃ recs ∈ procs, p ∈ along (reentryAt vfsOpInfo) [] recs :=
  List.mem_flatMap

/-- The records of a process before and after one of them. -/
theorem before_after (h : Processes procs) {a b : List TraceEntry} {e : TraceEntry}
    (hr : a ++ e :: b ∈ procs) : (∀ x ∈ a, x.seq < e.seq) ∧ ∀ x ∈ b, e.seq < x.seq := by
  obtain ⟨-, hb, hab⟩ := List.pairwise_append.mp (h.sorted _ hr)
  exact ⟨fun x hx => hab x hx e List.mem_cons_self, (List.pairwise_cons.mp hb).1⟩

/-- The two ends of an operation are records of one process. -/
theorem fst_mem (h : Processes procs) {recs : List TraceEntry} (hr : recs ∈ procs)
    {p : TraceEntry × TraceEntry} (hp : p ∈ along (endAt vfsOpInfo) [] recs) : p.1 ∈ recs :=
  (fst_mem_of_ends (h.nested recs hr) hp).1.resolve_left List.not_mem_nil

end Processes

open Processes

theorem outermostEnds_mount (before after : List (List TraceEntry)) {recs a b : List TraceEntry}
    {m : TraceEntry × TraceEntry} (hm : MountAt vfsOpInfo recs m a b) :
    outermostEnds vfsOpInfo (before ++ recs :: after) =
      (outermostEnds vfsOpInfo before ++ along (endAt vfsOpInfo) [] a) ++
        m :: (along (endAt vfsOpInfo) (nextStack (a.foldl nextStack []) m.2) b ++
          outermostEnds vfsOpInfo after) := by
  rw [outermostEnds_append, hm.ends_eq]
  simp

/-- When all but the first mount is listed, it is the one left out and the last of its process. -/
theorem isFirstMount_of_perm {before after : List (List TraceEntry)} {recs a b : List TraceEntry}
    {m : TraceEntry × TraceEntry} (h : Processes (before ++ recs :: after))
    (hq : ∀ x ∈ before, Quiet vfsOpInfo true [] x) (hm : MountAt vfsOpInfo recs m a b)
    (hafter : reentries vfsOpInfo after = [])
    (hperm : (closingsAll vfsOpInfo true (before ++ recs :: after)).1 ~
      listedEnds (outermostEnds vfsOpInfo (before ++ recs :: after))) :
    isFirstMount (outermostEnds vfsOpInfo (before ++ recs :: after)) m = true ∧
      along (endAt vfsOpInfo) (nextStack (a.foldl nextStack []) m.2) b = [] := by
  have hsplit : a ++ m.2 :: b ∈ before ++ recs :: after :=
    hm.split ▸ List.mem_append_right _ List.mem_cons_self
  have hall := outermostEnds_mount before after hm
  have hnodup : (outermostEnds vfsOpInfo (before ++ recs :: after)).Nodup := h.nodup_ends
  rw [closingsAll_mount h.nested hq hm hafter, ← List.append_assoc] at hperm
  -- an operation that is not listed is the first mount
  have hfirst : ∀ p ∈ outermostEnds vfsOpInfo (before ++ recs :: after),
      p ∉ (outermostEnds vfsOpInfo before ++ along (endAt vfsOpInfo) [] a) ++
        outermostEnds vfsOpInfo after →
      isFirstMount (outermostEnds vfsOpInfo (before ++ recs :: after)) p = true := by
    intro p hp hnot
    rw [hperm.mem_iff, listedEnds, List.mem_filter, not_and, Bool.not_eq_true',
      Bool.not_eq_false] at hnot
    exact hnot hp
  rw [hall] at hnodup hfirst ⊢
  obtain ⟨-, hnodup₂, hdisj⟩ := List.nodup_append.mp hnodup
  obtain ⟨hfresh, hnodup₃⟩ := List.nodup_cons.mp hnodup₂
  obtain ⟨-, -, hdisj₃⟩ := List.nodup_append.mp hnodup₃
  have hmfirst := hfirst m (List.mem_append_right _ List.mem_cons_self) (by
    rw [List.mem_append, not_or]
    exact ⟨fun h1 => hdisj m h1 m List.mem_cons_self rfl,
      fun h1 => hfresh (List.mem_append_right _ h1)⟩)
  refine ⟨hmfirst, List.eq_nil_iff_forall_not_mem.mpr fun p hp => ?_⟩
  have hp' : p ∈ m :: (along (endAt vfsOpInfo) (nextStack (a.foldl nextStack []) m.2) b ++
      outermostEnds vfsOpInfo after) := List.mem_cons_of_mem _ (List.mem_append_left _ hp)
  have hpfirst := hfirst p (List.mem_append_right _ hp') (by
    rw [List.mem_append, not_or]
    exact ⟨fun h1 => hdisj p h1 p hp' rfl, fun h1 => hdisj₃ p hp p h1 rfl⟩)
  have hle := (isFirstMount_iff.mp hpfirst).2 m (List.mem_append_right _ List.mem_cons_self) hm.mount
  have hlt := (h.before_after hsplit).2 p.2 (snd_mem_of_ends hp)
  omega

/-- Listing all but the first mount means that it is alone. -/
theorem loneMount_of_perm {before after : List (List TraceEntry)} {recs a b : List TraceEntry}
    {m : TraceEntry × TraceEntry} (h : Processes (before ++ recs :: after))
    (hq : ∀ x ∈ before, Quiet vfsOpInfo true [] x) (hm : MountAt vfsOpInfo recs m a b)
    (hafter : reentries vfsOpInfo after = [])
    (hperm : (closingsAll vfsOpInfo true (before ++ recs :: after)).1 ~
      listedEnds (outermostEnds vfsOpInfo (before ++ recs :: after))) :
    LoneMount vfsOpInfo (before ++ recs :: after)
      (outermostEnds vfsOpInfo before ++ along (endAt vfsOpInfo) [] a) m
      (outermostEnds vfsOpInfo after) := by
  have hr : recs ∈ before ++ recs :: after := List.mem_append_right _ List.mem_cons_self
  obtain ⟨hfirst, hnil⟩ := isFirstMount_of_perm h hq hm hafter hperm
  have hall := outermostEnds_mount before after hm
  rw [hnil, List.nil_append] at hall
  have hmem : m ∈ outermostEnds vfsOpInfo (before ++ recs :: after) := by
    rw [hall]
    exact List.mem_append_right _ List.mem_cons_self
  have hmr : m ∈ along (endAt vfsOpInfo) [] recs := by
    rw [hm.ends_eq]
    exact List.mem_append_right _ List.mem_cons_self
  have hm₂ : m.2 ∈ recs := snd_mem_of_ends hmr
  have hsplit : a ++ m.2 :: b ∈ before ++ recs :: after := hm.split ▸ hr
  obtain ⟨hlt, hgt⟩ := h.before_after hsplit
  refine ⟨hall, hm.mount, fun p hp => ?_, fun p hp hmount => ?_, fun p hp => ?_,
    fun x hx e he hlt' => ?_, fun p hp => ?_⟩
  · rcases List.mem_append.mp hp with hp | hp
    · obtain ⟨x, hx, hp⟩ := mem_outermostEnds.mp hp
      exact (hq x hx).2 rfl p hp
    · exact hm.quiet.2 rfl p hp
  · have hpall : p ∈ outermostEnds vfsOpInfo (before ++ recs :: after) := by
      rw [hall]
      exact List.mem_append_right _ (List.mem_cons_of_mem _ hp)
    refine lt_of_le_of_ne ((isFirstMount_iff.mp hfirst).2 p hpall hmount) fun heq => ?_
    have hdist : ((outermostEnds vfsOpInfo (before ++ recs :: after)).map fun p => p.2.seq).Nodup :=
      h.distinct_ends
    have hmp : m = p := List.inj_on_of_nodup_map hdist hmem hpall heq
    have hnodup : (outermostEnds vfsOpInfo (before ++ recs :: after)).Nodup := h.nodup_ends
    rw [hall, List.nodup_append, List.nodup_cons] at hnodup
    exact hnodup.2.1.1 (hmp ▸ hp)
  · obtain ⟨x, hx, hp⟩ := mem_outermostEnds.mp hp
    have hother := (List.pairwise_cons.mp (List.pairwise_append.mp h.otherPid).2.1).1 x hx
    exact (hother m.2 hm₂ p.2 (snd_mem_of_ends hp)).symm
  · -- a pair is of one process, and behind the mount there is none
    rw [← Bool.not_eq_true]
    intro hpair
    have hpid : m.1.pid = e.pid := (of_decide_eq_true hpair).2.1
    rw [← h.eq_of_pid hr hx (h.fst_mem hr hmr) he hpid, hm.split, List.mem_append,
      List.mem_cons] at he
    rcases he with he | rfl | he
    · have := hlt e he
      omega
    · omega
    · rw [hm.alone e he] at hpair
      cases hpair
  · obtain ⟨x, hx, hpx⟩ := mem_reentries.mp hp
    rw [List.mem_append, List.mem_cons] at hx
    rcases hx with hx | hx | hx
    · rw [(hq x hx).1] at hpx
      exact absurd hpx List.not_mem_nil
    · rw [hx, hm.reentries_eq (h.nested _ hr)] at hpx
      have hpb : p.2 ∈ b := snd_mem_of_reentries hpx
      have hpr : p.2 ∈ recs := hm.split ▸ List.mem_append_right _ (List.mem_cons_of_mem _ hpb)
      exact ⟨h.samePid recs hr p.2 hpr m.2 hm₂, hgt p.2 hpb⟩
    · have hmem' : p ∈ reentries vfsOpInfo after := mem_reentries.mpr ⟨x, hx, hpx⟩
      rw [hafter] at hmem'
      exact absurd hmem' List.not_mem_nil

/-- A lone mount is left out and nothing else is. -/
theorem LoneMount.listedEnds_eq {procs : List (List TraceEntry)}
    {before after : List (TraceEntry × TraceEntry)} {m : TraceEntry × TraceEntry}
    (hm : LoneMount vfsOpInfo procs before m after) :
    listedEnds (outermostEnds vfsOpInfo procs) = before ++ after := by
  have hfirst : isFirstMount (outermostEnds vfsOpInfo procs) m = true := by
    refine isFirstMount_iff.mpr ⟨hm.mount, fun q hq hmount => ?_⟩
    rw [hm.ends, List.mem_append, List.mem_cons] at hq
    rcases hq with hq | rfl | hq
    · rw [hm.first q hq] at hmount
      cases hmount
    · exact le_refl _
    · exact le_of_lt (hm.earliest q hq hmount)
  have hbefore : ∀ p ∈ before, (!isFirstMount (outermostEnds vfsOpInfo procs) p) = true := by
    intro p hp
    rw [isFirstMount, hm.first p hp]
    rfl
  have hafter : ∀ p ∈ after, (!isFirstMount (outermostEnds vfsOpInfo procs) p) = true := by
    intro p hp
    rw [Bool.not_eq_true', ← Bool.not_eq_true, isFirstMount_iff]
    rintro ⟨hmount, hle⟩
    have hmem : m ∈ outermostEnds vfsOpInfo procs := by
      rw [hm.ends]
      exact List.mem_append_right _ List.mem_cons_self
    have hlt := hm.earliest p hp hmount
    have := hle m hmem hm.mount
    omega
  rw [hm.ends] at hfirst hbefore hafter ⊢
  rw [listedEnds, List.filter_append, List.filter_cons_of_neg (by rw [hfirst]; decide),
    List.filter_eq_self.mpr hbefore, List.filter_eq_self.mpr hafter]

/-- Where the lone mount is. -/
theorem LoneMount.closings_eq {procs : List (List TraceEntry)} (h : Processes procs)
    {before after : List (TraceEntry × TraceEntry)} {m : TraceEntry × TraceEntry}
    (hm : LoneMount vfsOpInfo procs before m after) :
    (closingsAll vfsOpInfo true procs).1 = before ++ after := by
  have hmem : m ∈ outermostEnds vfsOpInfo procs := by
    rw [hm.ends]
    exact List.mem_append_right _ List.mem_cons_self
  obtain ⟨recs, hr, hmr⟩ := mem_outermostEnds.mp hmem
  obtain ⟨a, e, b, hsplit, hend⟩ := mem_along.mp hmr
  obtain ⟨-, -, rfl, -⟩ := of_endAt hend
  obtain ⟨pb, pa, rfl⟩ := List.append_of_mem hr
  have hcut : a ++ m.2 :: b ∈ pb ++ recs :: pa := by rwa [← hsplit]
  obtain ⟨hlt, hgt⟩ := h.before_after hcut
  have hm₂ : m.2 ∈ recs := snd_mem_of_ends hmr
  have hlater : ∀ {p}, p ∈ along (reentryAt vfsOpInfo) [] recs → m.2.seq < p.2.seq :=
    fun hp => (hm.reentry _ (mem_reentries.mpr ⟨recs, hr, hp⟩)).2
  -- the processes without the mount have no reentry
  have hnone : ∀ x, x ∈ pb ++ recs :: pa → x ≠ recs → along (reentryAt vfsOpInfo) [] x = [] := by
    intro x hx hne
    refine List.eq_nil_iff_forall_not_mem.mpr fun p hp => hne ?_
    have hpid := (hm.reentry p (mem_reentries.mpr ⟨x, hx, hp⟩)).1
    exact h.eq_of_pid hx hr (snd_mem_of_reentries hp) hm₂ hpid
  have hother := List.pairwise_append.mp h.otherPid
  have hnotb : ∀ x ∈ pb, x ≠ recs := fun x hx heq =>
    hother.2.2 x hx recs List.mem_cons_self m.2 (heq ▸ hm₂) m.2 hm₂ rfl
  have hnota : ∀ x ∈ pa, x ≠ recs := fun x hx heq =>
    (List.pairwise_cons.mp hother.2.1).1 x hx m.2 hm₂ m.2 (heq ▸ hm₂) rfl
  have hquiet : along (reentryAt vfsOpInfo) [] a = [] := by
    refine List.eq_nil_iff_forall_not_mem.mpr fun p hp => ?_
    have hp' : p ∈ along (reentryAt vfsOpInfo) [] recs := by
      rw [hsplit, along_append]
      exact List.mem_append_left _ hp
    have := hlater hp'
    have := hlt p.2 (snd_mem_of_reentries hp)
    omega
  -- both ways of cutting the list at the mount are the same
  have hends : outermostEnds vfsOpInfo (pb ++ recs :: pa) =
      (outermostEnds vfsOpInfo pb ++ along (endAt vfsOpInfo) [] a) ++
        m :: (along (endAt vfsOpInfo) (nextStack (a.foldl nextStack []) m.2) b ++
          outermostEnds vfsOpInfo pa) := by
    rw [outermostEnds_append, hsplit, along_append, along, hend]
    simp
  have hnodup : (outermostEnds vfsOpInfo (pb ++ recs :: pa)).Nodup := h.nodup_ends
  rw [hm.ends, List.nodup_append, List.nodup_cons] at hnodup
  obtain ⟨hbefore, -, hafter⟩ := (List.append_cons_inj_of_notMem
    (fun hmem => hnodup.2.2 m hmem m List.mem_cons_self rfl) hnodup.2.1.1).mp (hm.ends.symm.trans hends)
  have hnil : along (endAt vfsOpInfo) (nextStack (a.foldl nextStack []) m.2) b = [] := by
    refine List.eq_nil_iff_forall_not_mem.mpr fun p hp => ?_
    have hpr : p.2 ∈ recs :=
      hsplit ▸ List.mem_append_right _ (List.mem_cons_of_mem _ (snd_mem_of_ends hp))
    exact hm.last p (hafter ▸ List.mem_append_left _ hp) (h.samePid recs hr p.2 hpr m.2 hm₂)
  have hmount : MountAt vfsOpInfo recs m a b := by
    refine ⟨hsplit, ⟨hquiet, fun _ p hp => ?_⟩, hend, hm.mount, fun e he => ?_⟩
    · exact hm.first p (hbefore ▸ List.mem_append_right _ hp)
    · have her : e ∈ recs := hsplit ▸ List.mem_append_right _ (List.mem_cons_of_mem _ he)
      exact hm.alone recs hr e her (hgt e he)
  have hquietb : ∀ x ∈ pb, Quiet vfsOpInfo true [] x := by
    refine fun x hx => ⟨hnone x (List.mem_append_left _ hx) (hnotb x hx), fun _ p hp => ?_⟩
    exact hm.first p (hbefore ▸ List.mem_append_left _ (mem_outermostEnds.mpr ⟨x, hx, hp⟩))
  have hnonea : reentries vfsOpInfo pa = [] := by
    rw [reentries, List.flatMap_eq_nil_iff]
    exact fun x hx => hnone x (List.mem_append_right _ (List.mem_cons_of_mem _ hx)) (hnota x hx)
  rw [closingsAll_mount h.nested hquietb hmount hnonea, hbefore, hafter, hnil, List.nil_append,
    List.append_assoc]

/-- The splitter closes exactly the operations that are to be listed when it splits cleanly. -/
theorem closingsAll_perm_iff {procs : List (List TraceEntry)} (h : Processes procs) :
    (closingsAll vfsOpInfo true procs).1 ~ listedEnds (outermostEnds vfsOpInfo procs) ↔
      SplitsCleanly vfsOpInfo procs := by
  constructor
  · intro hperm
    rcases @closingsAll_true_cases vfsOpInfo procs h.nested fun recs hr => h.nodup hr with
      ⟨p, hp, recs, hr, hmem, hnot⟩ | hq | ⟨p, hr, hmount, heq⟩ |
      ⟨before, recs, after, m, a, b, rfl, hq, hm, hafter⟩
    · -- an operation closed too early is none of those to be listed
      exfalso
      obtain ⟨hends, -⟩ := List.mem_filter.mp (hperm.mem_iff.mp hp)
      obtain ⟨x, hx, hpx⟩ := mem_outermostEnds.mp hends
      have hxr := h.eq_of_pid hx hr (snd_mem_of_ends hpx) hmem rfl
      exact hnot (hxr ▸ hpx)
    · refine Or.inl ⟨fun p hp => ?_, Or.inl ?_⟩
      · obtain ⟨x, hx, hpx⟩ := mem_outermostEnds.mp hp
        exact (hq x hx).2 rfl p hpx
      · rw [reentries, List.flatMap_eq_nil_iff]
        exact fun x hx => (hq x hx).1
    · refine Or.inl ⟨fun q hq => ?_, Or.inr ⟨p, hr, hmount⟩⟩
      rw [← Bool.not_eq_true]
      intro hq'
      -- all are listed, the first mount among them
      obtain ⟨m, hm, hfirst⟩ := exists_firstMount hq hq'
      rw [heq] at hperm
      have hlisted := (List.mem_filter.mp (hperm.mem_iff.mp hm)).2
      rw [hfirst] at hlisted
      cases hlisted
    · exact Or.inr ⟨_, m, _, loneMount_of_perm h hq hm hafter hperm⟩
  · rintro (⟨hmount, hr | ⟨p, hr, hp⟩⟩ | ⟨before, m, after, hm⟩)
    · have hquiet : ∀ recs ∈ procs, Quiet vfsOpInfo true [] recs := by
        intro recs hrecs
        rw [reentries, List.flatMap_eq_nil_iff] at hr
        exact ⟨hr recs hrecs, fun _ p hp => hmount p (mem_outermostEnds.mpr ⟨recs, hrecs, hp⟩)⟩
      have hall := closingsAll_quiet h.nested hquiet []
      rw [List.append_nil] at hall
      rw [hall, listedEnds_of_no_mount hmount, closingsAll, List.append_nil]
    · rw [closingsAll_reentry h.nested hr hp hmount, listedEnds_of_no_mount hmount]
    · rw [hm.closings_eq h, hm.listedEnds_eq]

end

end Trace
end Silhouette
