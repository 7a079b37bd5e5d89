/-
Brackets.

Some elements open, all others close, and a relation says which may close which.  A word is
balanced when it is made of blocks, each an opening element, a balanced body and an element that
closes it.  A stack of the elements that are still open accepts a word if every closing element
closes the top.

The stack accepts exactly the prefixes of balanced words (`isSome_run_iff`), it is empty behind
exactly the balanced ones (`balanced_iff`), and what it takes off at a closing element is the
opening element that the blocks match with it (`matched_iff`).
-/
import Mathlib.Data.List.Basic
import Mathlib.Data.List.Induction
import Mathlib.Order.Lattice

namespace Lib
namespace Brackets

variable {α : Type} (opens : α → Bool) (closes : α → α → Bool)

inductive Balanced : List α → Prop
  | nil : Balanced []
  | block {s e : α} {body rest : List α} (hs : opens s = true) (he : opens e = false)
      (hpair : closes s e = true) (hbody : Balanced body) (hrest : Balanced rest) :
      Balanced (s :: (body ++ e :: rest))

/-- Take the top of the stack off if the element closes it. -/
def pop (x : α) : List α → Option (List α)
  | [] => none
  | top :: rest => if closes top x then some rest else none

/-- One element, with the top of the stack in front. -/
def step (stack : List α) (x : α) : Option (List α) :=
  if opens x then some (x :: stack) else pop closes x stack

def run (stack l : List α) : Option (List α) := l.foldlM (step opens closes) stack

/-- A closing element and the one its block opens with. -/
def Matched (l : List α) (s e : α) : Prop :=
  ∃ a body b, l = a ++ s :: (body ++ e :: b) ∧ opens s = true ∧ opens e = false ∧
    closes s e = true ∧ Balanced opens closes body

/-- What is taken off along a word, with the elements that close it. -/
def pairs (stack : List α) : List α → List (α × α)
  | [] => []
  | x :: rest =>
    match step opens closes stack x with
    | none => []
    | some t => (if opens x then [] else (stack.head?.map fun s => (s, x)).toList) ++ pairs t rest

variable {opens closes}

theorem run_cons (stack : List α) (x : α) (l : List α) :
    run opens closes stack (x :: l) =
      (step opens closes stack x).bind fun s => run opens closes s l :=
  List.foldlM_cons

theorem run_append (stack a b : List α) :
    run opens closes stack (a ++ b) =
      (run opens closes stack a).bind fun s => run opens closes s b :=
  List.foldlM_append

theorem step_open {s : α} (hs : opens s = true) (stack : List α) :
    step opens closes stack s = some (s :: stack) := by
  rw [step, if_pos hs]

theorem step_close {s e : α} (he : opens e = false) (hpair : closes s e = true) (stack : List α) :
    step opens closes (s :: stack) e = some stack := by
  rw [step, he, if_neg Bool.false_ne_true]
  exact if_pos hpair

/-- What lies deeper in the stack is not touched. -/
theorem step_frame {stack t : List α} {x : α} (h : step opens closes stack x = some t)
    (below : List α) : step opens closes (stack ++ below) x = some (t ++ below) := by
  rw [step] at h ⊢
  by_cases hx : opens x = true
  · rw [if_pos hx] at h ⊢
    rw [← Option.some.inj h]
    rfl
  · rw [if_neg hx] at h ⊢
    cases stack with
    | nil => cases h
    | cons top rest =>
      rw [List.cons_append, pop]
      rw [pop] at h
      split_ifs at h ⊢ with hc
      rw [← Option.some.inj h]

theorem run_frame {stack t l : List α} (h : run opens closes stack l = some t)
    (below : List α) : run opens closes (stack ++ below) l = some (t ++ below) := by
  induction l generalizing stack with
  | nil => exact congrArg (fun u => some (u ++ below)) (Option.some.inj h)
  | cons x rest ih =>
    rw [run_cons] at h ⊢
    obtain ⟨u, hu, hrest⟩ := Option.bind_eq_some_iff.mp h
    rw [step_frame hu below]
    exact ih hrest

theorem run_block {s e : α} {body : List α} (hs : opens s = true) (he : opens e = false)
    (hpair : closes s e = true)
    (hbody : ∀ stack, run opens closes stack body = some stack) (stack rest : List α) :
    run opens closes stack (s :: (body ++ e :: rest)) = run opens closes stack rest := by
  rw [run_cons, step_open hs, Option.bind_some, run_append, hbody, Option.bind_some, run_cons,
    step_close he hpair, Option.bind_some]

theorem Balanced.run {l : List α} (h : Balanced opens closes l) (stack : List α) :
    run opens closes stack l = some stack := by
  induction h generalizing stack with
  | nil => rfl
  | block hs he hpair _ _ ihbody ihrest =>
    rw [run_block hs he hpair ihbody]
    exact ihrest stack

theorem Balanced.append {a b : List α} (ha : Balanced opens closes a)
    (hb : Balanced opens closes b) : Balanced opens closes (a ++ b) := by
  induction ha with
  | nil => exact hb
  | block hs he hpair hbody _ _ ihrest =>
    rw [List.cons_append, List.append_assoc]
    exact Balanced.block hs he hpair hbody ihrest

variable (opens closes) in
/-- A word in front of which only the elements of the stack are open, each with a balanced word
behind it. -/
inductive Opened : List α → List α → Prop
  | base {l : List α} (h : Balanced opens closes l) : Opened l []
  | push {l stack body : List α} {s : α} (h : Opened l stack) (hs : opens s = true)
      (hbody : Balanced opens closes body) : Opened (l ++ s :: body) (s :: stack)

/-- A balanced word behind it changes nothing. -/
theorem Opened.append {l stack b : List α} (h : Opened opens closes l stack)
    (hb : Balanced opens closes b) : Opened opens closes (l ++ b) stack := by
  cases h with
  | base h => exact .base (h.append hb)
  | push h hs hbody =>
    rw [List.append_assoc, List.cons_append]
    exact .push h hs (hbody.append hb)

theorem Opened.mem {l stack : List α} (h : Opened opens closes l stack) {x : α} (hx : x ∈ stack) :
    x ∈ l ∧ opens x = true := by
  induction h with
  | base _ => exact absurd hx List.not_mem_nil
  | push _ hs _ ih =>
    rcases List.mem_cons.mp hx with rfl | hx
    · exact ⟨List.mem_append_right _ List.mem_cons_self, hs⟩
    · exact ⟨List.mem_append_left _ (ih hx).1, (ih hx).2⟩

theorem opened_of_run {l stack : List α} (h : run opens closes [] l = some stack) :
    Opened opens closes l stack := by
  induction l using List.reverseRecOn generalizing stack with
  | nil =>
    rw [← Option.some.inj h]
    exact .base .nil
  | append_singleton l x ih =>
    rw [run_append] at h
    obtain ⟨mid, hmid, hx⟩ := Option.bind_eq_some_iff.mp h
    have hopened := ih hmid
    rw [run_cons] at hx
    obtain ⟨t, ht, hnil⟩ := Option.bind_eq_some_iff.mp hx
    have htstack : t = stack := Option.some.inj hnil
    rw [htstack, step] at ht
    by_cases hopen : opens x = true
    · rw [if_pos hopen] at ht
      rw [← Option.some.inj ht]
      exact .push hopened hopen .nil
    · rw [if_neg hopen] at ht
      cases hopened with
      | base _ => cases ht
      | @push l rest body s hin hs hbody =>
        rw [pop] at ht
        split_ifs at ht with hc
        -- the block of the top is closed and joins what is in front of it
        have hblock : Balanced opens closes (s :: (body ++ x :: [])) :=
          .block hs (Bool.eq_false_iff.mpr hopen) hc hbody .nil
        rw [List.append_assoc, ← Option.some.inj ht]
        exact hin.append hblock

theorem balanced_iff {l : List α} : Balanced opens closes l ↔ run opens closes [] l = some [] := by
  constructor
  · intro h
    exact h.run []
  · intro h
    cases opened_of_run h with
    | base hb => exact hb

/-- The stack accepts the prefixes of balanced words, when everything can be closed. -/
theorem isSome_run_iff {close : α → α} (hclose : ∀ s, opens s = true →
      opens (close s) = false ∧ closes s (close s) = true) (l : List α) :
    (run opens closes [] l).isSome ↔ ∃ suffix, Balanced opens closes (l ++ suffix) := by
  constructor
  · intro h
    obtain ⟨stack, hstack⟩ := Option.isSome_iff_exists.mp h
    refine ⟨stack.map close, balanced_iff.mpr ?_⟩
    rw [run_append, hstack, Option.bind_some]
    have hopen : ∀ x ∈ stack, opens x = true := fun x hx => ((opened_of_run hstack).mem hx).2
    clear h hstack
    induction stack with
    | nil => rfl
    | cons s rest ih =>
      have hs := hclose s (hopen s List.mem_cons_self)
      rw [List.map_cons, run_cons, step_close hs.1 hs.2, Option.bind_some]
      exact ih fun x hx => hopen x (List.mem_cons_of_mem s hx)
  · intro h
    obtain ⟨suffix, hsuffix⟩ := h
    have hrun := hsuffix.run []
    rw [run_append] at hrun
    obtain ⟨stack, hstack, -⟩ := Option.bind_eq_some_iff.mp hrun
    rw [hstack]
    rfl

/-- The stack takes the matching element off. -/
theorem matched_iff {l : List α} (hl : (run opens closes [] l).isSome) {s e : α} :
    Matched opens closes l s e ↔ ∃ p stack b, l = p ++ e :: b ∧ opens e = false ∧
      run opens closes [] p = some (s :: stack) := by
  constructor
  · intro h
    obtain ⟨a, body, b, hsplit, hs, he, -, hbody⟩ := h
    rw [hsplit, run_append] at hl
    obtain ⟨r, hr⟩ := Option.isSome_iff_exists.mp hl
    obtain ⟨stack, hstack, -⟩ := Option.bind_eq_some_iff.mp hr
    refine ⟨a ++ s :: body, stack, b, by rw [hsplit, List.append_assoc, List.cons_append], he, ?_⟩
    rw [run_append, hstack, Option.bind_some, run_cons, step_open hs, Option.bind_some]
    exact hbody.run _
  · intro h
    obtain ⟨p, stack, b, hsplit, he, hp⟩ := h
    have hpair : closes s e = true := by
      obtain ⟨r, hr⟩ := Option.isSome_iff_exists.mp hl
      rw [hsplit, run_append, hp, Option.bind_some, run_cons] at hr
      obtain ⟨t, ht, -⟩ := Option.bind_eq_some_iff.mp hr
      rw [step, he, if_neg Bool.false_ne_true, pop] at ht
      by_contra hno
      rw [if_neg hno] at ht
      cases ht
    cases opened_of_run hp with
    | @push a _ body _ h hs hbody =>
      refine ⟨a, body, b, ?_, hs, he, hpair, hbody⟩
      rw [hsplit, List.append_assoc, List.cons_append]

theorem matched_append_singleton {l : List α} {x : α}
    (hl : (run opens closes [] (l ++ [x])).isSome) {s e : α} :
    Matched opens closes (l ++ [x]) s e ↔ Matched opens closes l s e ∨
      e = x ∧ opens x = false ∧ ∃ stack, run opens closes [] l = some (s :: stack) := by
  have hinit : (run opens closes [] l).isSome := by
    obtain ⟨r, hr⟩ := Option.isSome_iff_exists.mp hl
    rw [run_append] at hr
    obtain ⟨t, ht, -⟩ := Option.bind_eq_some_iff.mp hr
    rw [ht]
    rfl
  rw [matched_iff hl, matched_iff hinit]
  constructor
  · intro h
    obtain ⟨p, stack, b, hsplit, he, hp⟩ := h
    rcases List.eq_nil_or_concat b with hnil | hlast
    · rw [hnil] at hsplit
      obtain ⟨rfl, hx⟩ := List.append_inj' hsplit rfl
      obtain rfl := List.singleton_inj.mp hx
      exact Or.inr ⟨rfl, he, stack, hp⟩
    · obtain ⟨c, y, hc⟩ := hlast
      rw [hc, List.concat_eq_append, ← List.cons_append, ← List.append_assoc] at hsplit
      obtain ⟨hl', -⟩ := List.append_inj' hsplit rfl
      exact Or.inl ⟨p, stack, c, hl', he, hp⟩
  · intro h
    rcases h with hold | hnew
    · obtain ⟨p, stack, b, hsplit, he, hp⟩ := hold
      exact ⟨p, stack, b ++ [x], by rw [hsplit, List.append_assoc, List.cons_append], he, hp⟩
    · obtain ⟨rfl, he, stack, hp⟩ := hnew
      exact ⟨l, stack, [], rfl, he, hp⟩

theorem pairs_append_singleton {l stack t : List α} (h : run opens closes stack l = some t) (x : α) :
    pairs opens closes stack (l ++ [x]) = pairs opens closes stack l ++
      pairs opens closes t [x] := by
  induction l generalizing stack with
  | nil =>
    rw [← Option.some.inj h]
    rfl
  | cons y rest ih =>
    rw [run_cons] at h
    obtain ⟨u, hu, hrest⟩ := Option.bind_eq_some_iff.mp h
    rw [List.cons_append, pairs, pairs, hu]
    dsimp only
    rw [ih hrest, List.append_assoc]

/-- The pairs are the matching ones. -/
theorem mem_pairs_iff {l : List α} (hl : (run opens closes [] l).isSome) {s e : α} :
    (s, e) ∈ pairs opens closes [] l ↔ Matched opens closes l s e := by
  induction l using List.reverseRecOn with
  | nil =>
    refine ⟨fun h => absurd h List.not_mem_nil, fun h => ?_⟩
    obtain ⟨a, body, b, hsplit, -⟩ := h
    exact absurd hsplit.symm (List.append_ne_nil_of_right_ne_nil _ (List.cons_ne_nil _ _))
  | append_singleton l x ih =>
    obtain ⟨r, hr⟩ := Option.isSome_iff_exists.mp hl
    rw [run_append] at hr
    obtain ⟨t, ht, hx⟩ := Option.bind_eq_some_iff.mp hr
    rw [run_cons] at hx
    obtain ⟨u, hu, -⟩ := Option.bind_eq_some_iff.mp hx
    rw [matched_append_singleton hl, pairs_append_singleton ht, List.mem_append,
      ih (by rw [ht]; rfl), pairs, hu, ht]
    refine or_congr_right ?_
    cases hopen : opens x with
    | true => simp [pairs]
    | false =>
      cases t with
      | nil => simp [pairs]
      | cons top below =>
        simp only [Bool.false_eq_true, if_false, pairs, List.append_nil, List.head?_cons,
          Option.map_some, Option.toList_some, List.mem_singleton, Prod.mk.injEq, true_and,
          Option.some.injEq, List.cons.injEq]
        constructor
        · intro h
          exact ⟨h.2, below, h.1.symm, rfl⟩
        · intro h
          obtain ⟨he, -, hs, -⟩ := h
          exact ⟨hs.symm, he⟩

/-- Where a body ends is determined by where it begins. -/
theorem body_unique {b b' rest rest' : List α} {e e' : α} (hb : Balanced opens closes b)
    (hb' : Balanced opens closes b') (he : opens e = false) (he' : opens e' = false)
    (h : b ++ e :: rest = b' ++ e' :: rest') : b = b' ∧ e = e' := by
  -- a body cannot go on behind an element that finds nothing to close
  have hend : ∀ {c c' : List α} {x : α} {m : List α}, Balanced opens closes c →
      Balanced opens closes c' → opens x = false → c' ≠ c ++ x :: m := by
    intro c c' x m hc hc' hx heq
    have hrun := hc'.run []
    rw [heq, run_append, hc.run, Option.bind_some, run_cons, step, hx,
      if_neg Bool.false_ne_true] at hrun
    cases hrun
  rcases List.append_eq_append_iff.mp h with hleft | hright
  · obtain ⟨c, hc, hrest⟩ := hleft
    cases c with
    | nil =>
      obtain ⟨hee, -⟩ := List.cons.inj hrest
      exact ⟨by rw [hc, List.append_nil], hee⟩
    | cons x m =>
      obtain ⟨rfl, -⟩ := List.cons.inj hrest
      exact absurd hc (hend hb hb' he)
  · obtain ⟨c, hc, hrest⟩ := hright
    cases c with
    | nil =>
      obtain ⟨hee, -⟩ := List.cons.inj hrest
      exact ⟨by rw [hc, List.append_nil], hee.symm⟩
    | cons x m =>
      obtain ⟨rfl, -⟩ := List.cons.inj hrest
      exact absurd hc (hend hb' hb he')

/-- A block that opens inside another one closes inside it. -/
theorem block_inside {x y b rest rest' : List α} {s e e' : α}
    (hs : opens s = true) (houter : Balanced opens closes (x ++ s :: y))
    (hinner : Balanced opens closes b) (h : y ++ e' :: rest' = b ++ e :: rest) :
    ∃ z, y = b ++ e :: z := by
  -- the element would still be open behind the outer body if the inner one went on
  have hopen : ∀ c, b ≠ y ++ c := by
    intro c hc
    have hb := hinner.run []
    rw [hc, run_append] at hb
    obtain ⟨t, ht, -⟩ := Option.bind_eq_some_iff.mp hb
    have ho := houter.run []
    rw [run_append] at ho
    obtain ⟨u, -, hu⟩ := Option.bind_eq_some_iff.mp ho
    rw [run_cons, step_open hs, Option.bind_some] at hu
    have hframe := run_frame ht (s :: u)
    rw [List.nil_append] at hframe
    rw [hframe] at hu
    have hlen := congrArg List.length (Option.some.inj hu)
    simp at hlen
  rcases List.append_eq_append_iff.mp h with hleft | hright
  · obtain ⟨c, hc, -⟩ := hleft
    exact absurd hc (hopen c)
  · obtain ⟨c, hc, hrest⟩ := hright
    cases c with
    | nil => exact absurd (by rw [hc, List.append_nil, List.append_nil]) (hopen [])
    | cons z c =>
      obtain ⟨rfl, -⟩ := List.cons.inj hrest
      exact ⟨c, hc⟩

theorem map_snd_pairs (stack l : List α) :
    ((pairs opens closes stack l).map Prod.snd).Sublist l := by
  induction l generalizing stack with
  | nil => exact List.Sublist.refl _
  | cons x rest ih =>
    rw [pairs]
    cases step opens closes stack x with
    | none => exact List.nil_sublist _
    | some t =>
      rw [List.map_append]
      by_cases hx : opens x = true
      · rw [if_pos hx]
        exact (ih t).cons x
      · rw [if_neg hx]
        cases stack with
        | nil => exact (ih t).cons x
        | cons s below => exact (ih t).cons_cons x

/-! ## Words in order -/

section

variable {κ : Type} [LinearOrder κ] {key : α → κ} {l : List α}

/-- An element of an ordered word stands in one place. -/
theorem split_unique (hl : l.Pairwise fun a b => key a < key b) {a a' b b' : List α} {s : α}
    (h : l = a ++ s :: b) (h' : l = a' ++ s :: b') : a = a' ∧ b = b' := by
  have hfront : ∀ {c d : List α}, l = c ++ s :: d → s ∉ c ∧ s ∉ d := by
    intro c d hcd
    rw [hcd] at hl
    obtain ⟨-, hd, hcd⟩ := List.pairwise_append.mp hl
    refine ⟨fun hmem => ?_, fun hmem => ?_⟩
    · exact lt_irrefl _ (hcd s hmem s List.mem_cons_self)
    · exact lt_irrefl _ ((List.pairwise_cons.mp hd).1 s hmem)
  obtain ⟨ha, -, hb⟩ :=
    (List.append_cons_inj_of_notMem (hfront h).1 (hfront h).2).mp (h.symm.trans h')
  exact ⟨ha, hb⟩

theorem Matched.mem {s e : α} (h : Matched opens closes l s e) : s ∈ l ∧ e ∈ l := by
  obtain ⟨a, body, b, hsplit, -⟩ := h
  rw [hsplit]
  exact ⟨List.mem_append_right _ List.mem_cons_self, by simp⟩

theorem Matched.unique (hl : l.Pairwise fun a b => key a < key b) {s e e' : α}
    (h : Matched opens closes l s e) (h' : Matched opens closes l s e') : e = e' := by
  obtain ⟨a, body, b, hsplit, -, he, -, hbody⟩ := h
  obtain ⟨a', body', b', hsplit', -, he', -, hbody'⟩ := h'
  exact (body_unique hbody hbody' he he' (split_unique hl hsplit hsplit').2).2

/-- Spans that share a place lie one in the other. -/
theorem Matched.nested (hl : l.Pairwise fun a b => key a < key b) {s e s' e' : α}
    (h : Matched opens closes l s e) (h' : Matched opens closes l s' e') (hlo : key s < key s')
    (hhi : key s' < key e) : key e' < key e := by
  obtain ⟨a, body, b, hsplit, hs, he, -, hbody⟩ := h
  obtain ⟨a', body', b', hsplit', hs', he', -, hbody'⟩ := h'
  have hord := hl
  rw [hsplit] at hord
  obtain ⟨-, htail, hcross⟩ := List.pairwise_append.mp hord
  obtain ⟨-, htail⟩ := List.pairwise_cons.mp htail
  obtain ⟨-, hend, hinner⟩ := List.pairwise_append.mp htail
  -- the inner start stands in the body
  have hmem : s' ∈ body := by
    have hin : s' ∈ l := by
      rw [hsplit']
      exact List.mem_append_right _ List.mem_cons_self
    rw [hsplit] at hin
    rcases List.mem_append.mp hin with hin | hin
    · exact absurd (hcross s' hin s List.mem_cons_self) (not_lt_of_gt hlo)
    rcases List.mem_cons.mp hin with rfl | hin
    · exact absurd hlo (lt_irrefl _)
    rcases List.mem_append.mp hin with hin | hin
    · exact hin
    rcases List.mem_cons.mp hin with rfl | hin
    · exact absurd hhi (lt_irrefl _)
    · exact absurd ((List.pairwise_cons.mp hend).1 s' hin) (not_lt_of_gt hhi)
  obtain ⟨x, y, rfl⟩ := List.append_of_mem hmem
  have hsame : y ++ e :: b = body' ++ e' :: b' :=
    (split_unique hl (by rw [hsplit]; simp : l = (a ++ s :: x) ++ s' :: (y ++ e :: b)) hsplit').2
  obtain ⟨z, rfl⟩ := block_inside hs' hbody hbody' hsame
  exact hinner e' (by simp) e List.mem_cons_self

end

end Brackets
end Lib
