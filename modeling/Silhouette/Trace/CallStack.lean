import Silhouette.Trace.SplitOpMgr

/-!
# The functions a process is in

`TraceReader` keeps a call stack for every process and refuses a trace whose function and call
records do not nest.  The stack says which activation an end record ends, and so what the outermost
operations of a process are.

The splitter has no stack: it closes an operation at the first end record of the same name and
address.  As long as no operation returns from a call of itself and no mount was left out, the
operation it has open is the lowest one on the stack.
-/

namespace Silhouette
namespace Trace

open Lib
open scoped List

def TraceEntry.isPairCallEntry (e1 e2 : TraceEntry) : Bool :=
  (e1.type = .startCall ∧ e2.type = .endCall ∨ e1.type = .endCall ∧ e2.type = .startCall) ∧
    e1.pid = e2.pid ∧ e1.caller = e2.caller ∧ e1.callee = e2.callee

namespace TraceReader

/-- Take the top of the stack off if it is the other record of a pair. -/
def popPair (isPair : TraceEntry → TraceEntry → Bool) (stack : List TraceEntry) (e : TraceEntry) :
    Option (List TraceEntry) :=
  match stack with
  | [] => none
  | top :: rest => if isPair top e then some rest else none

/-- One record of a process, as `__match_functions` handles it. -/
def matchRecord (stack : List TraceEntry) (e : TraceEntry) : Option (List TraceEntry) :=
  match e.type with
  | .startCall => some (e :: stack)
  | .endCall => popPair TraceEntry.isPairCallEntry stack e
  | .startFn => some (e :: stack)
  | .endFn => popPair TraceEntry.isPairFuncEntry stack e
  | _ => some stack

/-- The first entries of the records of a process, in sequence order. -/
def records (d : Dict Int (List TraceEntry)) : List TraceEntry :=
  (sortBy Prod.fst d.items).filterMap fun y => y.2.head?

/-- What is left on a stack at the end is only warned about. -/
def matchFunctions (r : TraceReader) : Bool :=
  r.pidSeqEntryMap.items.all fun x => ((records x.2).foldlM matchRecord []).isSome

/-- A trace that `TraceReader` accepts. -/
def read (lines : List TraceEntry) : Option TraceReader := (load lines).filter matchFunctions

end TraceReader

open TraceReader

/-! ## Outermost operations -/

section

variable (vfsOpInfo : String → Bool)

/-- The start of a function of the file system. -/
def isOp (e : TraceEntry) : Bool := vfsOpInfo e.fnName && e.type = .startFn

def isMount (e : TraceEntry) : Bool := occursIn "fill_super" e.fnName

/-- The lowest operation on a stack. -/
def outermostOp (stack : List TraceEntry) : Option TraceEntry :=
  (stack.filter (isOp vfsOpInfo)).getLast?

/-- The record ends an operation that no other operation is below. -/
def endAt (stack : List TraceEntry) (e : TraceEntry) : Option (TraceEntry × TraceEntry) :=
  match stack with
  | [] => none
  | top :: below =>
    if e.type = .endFn ∧ isOp vfsOpInfo top ∧ outermostOp vfsOpInfo below = none then some (top, e)
    else none

/-- The record ends a function further up, which has the name and address of the lowest operation. -/
def reentryAt (stack : List TraceEntry) (e : TraceEntry) : Option (TraceEntry × TraceEntry) :=
  match stack with
  | [] => none
  | _ :: below => ((outermostOp vfsOpInfo below).filter fun s => s.isPairFuncEntry e).map (·, e)

end

def nextStack (stack : List TraceEntry) (e : TraceEntry) : List TraceEntry :=
  (matchRecord stack e).getD stack

/-- What is found at the records, with the stack in front of each. -/
def along {α : Type} (f : List TraceEntry → TraceEntry → Option α) :
    List TraceEntry → List TraceEntry → List α
  | _, [] => []
  | stack, e :: rest => (f stack e).toList ++ along f (nextStack stack e) rest

theorem along_append {α : Type} (f : List TraceEntry → TraceEntry → Option α)
    (stack a b : List TraceEntry) :
    along f stack (a ++ b) = along f stack a ++ along f (a.foldl nextStack stack) b := by
  induction a generalizing stack with
  | nil => rfl
  | cons e a ih =>
    rw [List.cons_append, along, along, ih, List.append_assoc, List.foldl_cons]

theorem mem_along {α : Type} {f : List TraceEntry → TraceEntry → Option α}
    {stack rest : List TraceEntry} {x : α} :
    x ∈ along f stack rest ↔
      ∃ a e b, rest = a ++ e :: b ∧ f (a.foldl nextStack stack) e = some x := by
  constructor
  · intro h
    induction rest generalizing stack with
    | nil => exact absurd h List.not_mem_nil
    | cons e rest ih =>
      rw [along, List.mem_append, Option.mem_toList] at h
      rcases h with h | h
      · exact ⟨[], e, rest, rfl, h⟩
      · obtain ⟨a, e', b, rfl, hf⟩ := ih h
        exact ⟨e :: a, e', b, rfl, hf⟩
  · rintro ⟨a, e, b, rfl, hf⟩
    rw [along_append, along, hf]
    simp

/-- The records nest from a stack on. -/
def Nested (stack rest : List TraceEntry) : Prop := (rest.foldlM matchRecord stack).isSome

theorem Nested.head {stack rest : List TraceEntry} {e : TraceEntry}
    (h : Nested stack (e :: rest)) :
    matchRecord stack e = some (nextStack stack e) ∧ Nested (nextStack stack e) rest := by
  rw [Nested, List.foldlM_cons] at h
  cases hm : matchRecord stack e with
  | none =>
    rw [hm] at h
    cases h
  | some stack' =>
    rw [hm] at h
    rw [nextStack, hm]
    exact ⟨rfl, h⟩

theorem Nested.append {stack a b : List TraceEntry} (h : Nested stack (a ++ b)) :
    Nested (a.foldl nextStack stack) b := by
  induction a generalizing stack with
  | nil => exact h
  | cons e a ih => exact ih h.head.2

/-! ## One record -/

section

variable {vfsOpInfo : String → Bool}

theorem outermostOp_cons (e : TraceEntry) (stack : List TraceEntry) :
    outermostOp vfsOpInfo (e :: stack) =
      (outermostOp vfsOpInfo stack).or (if isOp vfsOpInfo e then some e else none) := by
  rw [outermostOp, outermostOp]
  by_cases h : isOp vfsOpInfo e = true
  · rw [List.filter_cons_of_pos h, if_pos h]
    cases hs : stack.filter (isOp vfsOpInfo) with
    | nil => rfl
    | cons x rest =>
      rw [List.getLast?_cons_cons, List.getLast?_cons]
      rfl
  · rw [List.filter_cons_of_neg h, if_neg h, Option.or_none]

theorem of_outermostOp {stack : List TraceEntry} {s : TraceEntry}
    (h : outermostOp vfsOpInfo stack = some s) : s ∈ stack ∧ isOp vfsOpInfo s = true :=
  List.mem_filter.mp (List.mem_of_getLast? h)

theorem type_of_isOp {e : TraceEntry} (h : isOp vfsOpInfo e = true) : e.type = .startFn := by
  have hand := Bool.and_eq_true_iff.mp h
  exact of_decide_eq_true hand.2

/-- A start pairs with an end. -/
theorem type_of_isPair {s e : TraceEntry} (hs : s.type = .startFn) (h : s.isPairFuncEntry e = true) :
    e.type = .endFn := by
  rw [TraceEntry.isPairFuncEntry, decide_eq_true_eq] at h
  rcases h.1 with ⟨-, h⟩ | ⟨h, -⟩
  · exact h
  · rw [hs] at h
    cases h

/-- What the stack is behind a record. -/
theorem matchRecord_cases {stack stack' : List TraceEntry} {e : TraceEntry}
    (h : matchRecord stack e = some stack') :
    (e.type = .endFn ∧ ∃ top, stack = top :: stack' ∧ top.isPairFuncEntry e = true) ∨
      (e.type = .endCall ∧ ∃ top, stack = top :: stack' ∧ top.type = .startCall) ∨
      (e.type ≠ .endFn ∧ (stack' = e :: stack ∨ stack' = stack ∧ e.type ≠ .startFn)) := by
  have hpop : ∀ {isPair : TraceEntry → TraceEntry → Bool}, popPair isPair stack e = some stack' →
      ∃ top, stack = top :: stack' ∧ isPair top e = true := by
    intro isPair hp
    cases stack with
    | nil => cases hp
    | cons top rest =>
      rw [popPair] at hp
      split_ifs at hp with hpair
      exact ⟨top, by rw [Option.some.inj hp], hpair⟩
  cases hty : e.type
  case endFn =>
    simp only [matchRecord, hty] at h
    exact Or.inl ⟨rfl, hpop h⟩
  case endCall =>
    simp only [matchRecord, hty] at h
    obtain ⟨top, hstack, hpair⟩ := hpop h
    rw [TraceEntry.isPairCallEntry, decide_eq_true_eq, hty] at hpair
    refine Or.inr (Or.inl ⟨rfl, top, hstack, ?_⟩)
    rcases hpair.1 with ⟨htop, -⟩ | ⟨-, hcall⟩
    · exact htop
    · cases hcall
  all_goals
    simp only [matchRecord, hty, Option.some.injEq] at h
    refine Or.inr (Or.inr ⟨by simp, ?_⟩)
    first
      | exact Or.inl h.symm
      | exact Or.inr ⟨h.symm, by simp⟩

theorem of_endAt {stack : List TraceEntry} {e : TraceEntry} {p : TraceEntry × TraceEntry}
    (h : endAt vfsOpInfo stack e = some p) :
    ∃ below, stack = p.1 :: below ∧ e = p.2 ∧ e.type = .endFn ∧ isOp vfsOpInfo p.1 = true ∧
      outermostOp vfsOpInfo below = none := by
  cases stack with
  | nil => cases h
  | cons top below =>
    rw [endAt] at h
    split_ifs at h with hcond
    obtain rfl := Option.some.inj h
    exact ⟨below, rfl, rfl, hcond⟩

theorem of_reentryAt {stack : List TraceEntry} {e : TraceEntry} {p : TraceEntry × TraceEntry}
    (h : reentryAt vfsOpInfo stack e = some p) :
    ∃ top below, stack = top :: below ∧ e = p.2 ∧ p.1.isPairFuncEntry e = true ∧
      outermostOp vfsOpInfo below = some p.1 := by
  cases stack with
  | nil => cases h
  | cons top below =>
    obtain ⟨s, hs, rfl⟩ := Option.map_eq_some_iff.mp h
    obtain ⟨hout, hpair⟩ := Option.filter_eq_some_iff.mp hs
    exact ⟨top, below, rfl, rfl, hpair, hout⟩

/-- The end of the operation that is open. -/
theorem outermostOp_end {stack stack' : List TraceEntry} {e : TraceEntry}
    {p : TraceEntry × TraceEntry} (hm : matchRecord stack e = some stack')
    (h : endAt vfsOpInfo stack e = some p) :
    outermostOp vfsOpInfo stack = some p.1 ∧ p.1.isPairFuncEntry e = true ∧
      outermostOp vfsOpInfo stack' = none := by
  obtain ⟨below, rfl, -, hty, hop, hbelow⟩ := of_endAt h
  refine ⟨?_, ?_⟩
  · rw [outermostOp_cons, hbelow, if_pos hop]
    rfl
  · rcases matchRecord_cases hm with ⟨-, top, hstack, hpair⟩ | ⟨hcall, -⟩ | ⟨hne, -⟩
    · obtain ⟨rfl, rfl⟩ := List.cons.inj hstack
      exact ⟨hpair, hbelow⟩
    · rw [hty] at hcall
      cases hcall
    · exact absurd hty hne

/-- The end of a function that is above it. -/
theorem outermostOp_reentry {stack stack' : List TraceEntry} {e : TraceEntry}
    {p : TraceEntry × TraceEntry} (hm : matchRecord stack e = some stack')
    (h : reentryAt vfsOpInfo stack e = some p) :
    outermostOp vfsOpInfo stack = some p.1 ∧ p.1.isPairFuncEntry e = true ∧
      outermostOp vfsOpInfo stack' = some p.1 ∧ endAt vfsOpInfo stack e = none := by
  obtain ⟨top, below, rfl, -, hpair, hbelow⟩ := of_reentryAt h
  have hty : e.type = .endFn := type_of_isPair (type_of_isOp (of_outermostOp hbelow).2) hpair
  refine ⟨?_, hpair, ?_, ?_⟩
  · rw [outermostOp_cons, hbelow]
    rfl
  · rcases matchRecord_cases hm with ⟨-, top', hstack, -⟩ | ⟨hcall, -⟩ | ⟨hne, -⟩
    · obtain ⟨-, rfl⟩ := List.cons.inj hstack
      exact hbelow
    · rw [hty] at hcall
      cases hcall
    · exact absurd hty hne
  · rw [endAt, if_neg]
    rintro ⟨-, -, hnone⟩
    rw [hnone] at hbelow
    cases hbelow

/-- Any other record opens an operation or leaves the open one alone. -/
theorem outermostOp_quiet {stack stack' : List TraceEntry} {e : TraceEntry}
    (hm : matchRecord stack e = some stack') (hend : endAt vfsOpInfo stack e = none)
    (hreentry : reentryAt vfsOpInfo stack e = none) :
    outermostOp vfsOpInfo stack = none ∧
        outermostOp vfsOpInfo stack' = (if isOp vfsOpInfo e then some e else none) ∨
      ∃ s, outermostOp vfsOpInfo stack = some s ∧ s.isPairFuncEntry e = false ∧
        outermostOp vfsOpInfo stack' = some s := by
  have hnoOp : e.type ≠ .startFn → isOp vfsOpInfo e = false := by
    intro hty
    rw [isOp, decide_eq_false hty, Bool.and_false]
  have hnoPair : ∀ {s}, outermostOp vfsOpInfo stack = some s → e.type ≠ .endFn →
      s.isPairFuncEntry e = false := by
    intro s hs hty
    rw [← Bool.not_eq_true]
    exact fun hpair => hty (type_of_isPair (type_of_isOp (of_outermostOp hs).2) hpair)
  rcases matchRecord_cases hm with ⟨hty, top, rfl, hpair⟩ | ⟨hty, top, rfl, htop⟩ | ⟨hty, hstack⟩
  · -- the end of a function: neither the open operation nor one that pairs with it
    have hne : e.type ≠ .startFn := by rw [hty]; decide
    rw [hnoOp hne]
    cases hbelow : outermostOp vfsOpInfo stack' with
    | none =>
      have htop : isOp vfsOpInfo top = false := by
        rw [← Bool.not_eq_true]
        intro hop
        rw [endAt, if_pos ⟨hty, hop, hbelow⟩] at hend
        cases hend
      refine Or.inl ⟨?_, rfl⟩
      rw [outermostOp_cons, hbelow, htop]
      rfl
    | some s =>
      refine Or.inr ⟨s, ?_, ?_, rfl⟩
      · rw [outermostOp_cons, hbelow]
        rfl
      · rw [← Bool.not_eq_true]
        intro hs
        rw [reentryAt, hbelow, Option.filter_some, if_pos hs] at hreentry
        cases hreentry
  · -- the end of a call: a call is no operation
    have hcall : isOp vfsOpInfo top = false := by
      rw [isOp, htop]
      simp
    have hne : e.type ≠ .startFn := by rw [hty]; decide
    have hne' : e.type ≠ .endFn := by rw [hty]; decide
    have heq : outermostOp vfsOpInfo (top :: stack') = outermostOp vfsOpInfo stack' := by
      rw [outermostOp_cons, hcall, if_neg Bool.false_ne_true, Option.or_none]
    rw [hnoOp hne]
    cases hs : outermostOp vfsOpInfo stack' with
    | none => exact Or.inl ⟨heq.trans hs, rfl⟩
    | some s => exact Or.inr ⟨s, heq.trans hs, hnoPair (heq.trans hs) hne', rfl⟩
  · cases hs : outermostOp vfsOpInfo stack with
    | none =>
      refine Or.inl ⟨rfl, ?_⟩
      rcases hstack with rfl | ⟨rfl, hne⟩
      · rw [outermostOp_cons, hs, Option.none_or]
      · rw [hs, hnoOp hne]
        rfl
    | some s =>
      refine Or.inr ⟨s, rfl, hnoPair hs hty, ?_⟩
      rcases hstack with rfl | ⟨rfl, -⟩
      · rw [outermostOp_cons, hs, Option.some_or]
      · exact hs

/-! ## The operations the splitter closes -/

variable (vfsOpInfo) in
/-- The records at which the splitter closes an operation, with the start of that operation, and
whether the first mount is still to come. -/
def closings : Bool → Option TraceEntry → List TraceEntry → List (TraceEntry × TraceEntry) × Bool
  | first, _, [] => ([], first)
  | first, none, e :: rest => closings first (if isOp vfsOpInfo e then some e else none) rest
  | first, some s, e :: rest =>
    if s.isPairFuncEntry e then
      if first && isMount s then closings false (some s) rest
      else ((s, e) :: (closings first none rest).1, (closings first none rest).2)
    else closings first (some s) rest

theorem closings_quiet {stack stack' : List TraceEntry} {e : TraceEntry}
    (hm : matchRecord stack e = some stack') (hend : endAt vfsOpInfo stack e = none)
    (hreentry : reentryAt vfsOpInfo stack e = none) (first : Bool) (rest : List TraceEntry) :
    closings vfsOpInfo first (outermostOp vfsOpInfo stack) (e :: rest) =
      closings vfsOpInfo first (outermostOp vfsOpInfo stack') rest := by
  rcases outermostOp_quiet hm hend hreentry with ⟨h, h'⟩ | ⟨s, h, hpair, h'⟩
  · rw [h, h', closings]
  · rw [h, h', closings, hpair, if_neg Bool.false_ne_true]

theorem closings_pair {s e : TraceEntry} (hpair : s.isPairFuncEntry e = true) {first : Bool}
    (hmount : (first && isMount s) = false) (rest : List TraceEntry) :
    closings vfsOpInfo first (some s) (e :: rest) =
      ((s, e) :: (closings vfsOpInfo first none rest).1, (closings vfsOpInfo first none rest).2) := by
  rw [closings, if_pos hpair, hmount, if_neg Bool.false_ne_true]

theorem closings_mount {s e : TraceEntry} (hpair : s.isPairFuncEntry e = true)
    (hmount : isMount s = true) (rest : List TraceEntry) :
    closings vfsOpInfo true (some s) (e :: rest) = closings vfsOpInfo false (some s) rest := by
  rw [closings, if_pos hpair, hmount, Bool.and_self, if_pos rfl]

/-- A mount that was left out stays open until a function of its name ends. -/
theorem closings_alone {s : TraceEntry} {rest : List TraceEntry}
    (h : ∀ e ∈ rest, s.isPairFuncEntry e = false) :
    closings vfsOpInfo false (some s) rest = ([], false) := by
  induction rest with
  | nil => rfl
  | cons e rest ih =>
    rw [closings, h e List.mem_cons_self, if_neg Bool.false_ne_true]
    exact ih fun e' he' => h e' (List.mem_cons_of_mem _ he')

theorem closings_stuck (s : TraceEntry) (rest : List TraceEntry) :
    (∀ e ∈ rest, s.isPairFuncEntry e = false) ∨
      ∃ e ∈ rest, (s, e) ∈ (closings vfsOpInfo false (some s) rest).1 := by
  induction rest with
  | nil => exact Or.inl fun e he => absurd he List.not_mem_nil
  | cons e rest ih =>
    by_cases hpair : s.isPairFuncEntry e = true
    · refine Or.inr ⟨e, List.mem_cons_self, ?_⟩
      rw [closings_pair hpair rfl]
      exact List.mem_cons_self
    · rcases ih with hnone | ⟨e', he', hmem⟩
      · refine Or.inl fun e' he' => ?_
        rcases List.mem_cons.mp he' with rfl | he'
        · exact Bool.not_eq_true _ ▸ hpair
        · exact hnone e' he'
      · refine Or.inr ⟨e', List.mem_cons_of_mem _ he', ?_⟩
        rwa [closings, if_neg hpair]

variable (vfsOpInfo) in
/-- No operation is reentered, and no mount ends while the first is still to come. -/
def Quiet (first : Bool) (stack rest : List TraceEntry) : Prop :=
  along (reentryAt vfsOpInfo) stack rest = [] ∧
    (first = true → ∀ p ∈ along (endAt vfsOpInfo) stack rest, isMount p.1 = false)

theorem Quiet.head {first : Bool} {stack rest : List TraceEntry} {e : TraceEntry}
    (h : Quiet vfsOpInfo first stack (e :: rest)) :
    reentryAt vfsOpInfo stack e = none ∧ Quiet vfsOpInfo first (nextStack stack e) rest := by
  obtain ⟨hreentry, hmount⟩ := h
  rw [along, List.append_eq_nil_iff, Option.toList_eq_nil_iff] at hreentry
  refine ⟨hreentry.1, hreentry.2, fun hfirst p hp => hmount hfirst p ?_⟩
  rw [along]
  exact List.mem_append_right _ hp

/-- Over quiet records the splitter closes the outermost operations. -/
theorem closings_append {first : Bool} {stack a b : List TraceEntry} (hn : Nested stack (a ++ b))
    (hq : Quiet vfsOpInfo first stack a) :
    closings vfsOpInfo first (outermostOp vfsOpInfo stack) (a ++ b) =
      (along (endAt vfsOpInfo) stack a ++
          (closings vfsOpInfo first (outermostOp vfsOpInfo (a.foldl nextStack stack)) b).1,
        (closings vfsOpInfo first (outermostOp vfsOpInfo (a.foldl nextStack stack)) b).2) := by
  induction a generalizing stack with
  | nil => rfl
  | cons e a ih =>
    obtain ⟨hm, hn'⟩ := Nested.head hn
    obtain ⟨hreentry, hq'⟩ := hq.head
    have hrest := ih hn' hq'
    rw [List.cons_append, List.foldl_cons, along]
    cases hend : endAt vfsOpInfo stack e with
    | none =>
      rw [closings_quiet hm hend hreentry, hrest]
      rfl
    | some p =>
      obtain ⟨hout, hpair, hnone⟩ := outermostOp_end hm hend
      obtain ⟨-, -, rfl, -⟩ := of_endAt hend
      have hmount : (first && isMount p.1) = false := by
        cases first with
        | false => rfl
        | true =>
          refine hq.2 rfl p ?_
          rw [along, hend]
          exact List.mem_append_left _ (List.mem_singleton_self _)
      rw [hnone] at hrest
      rw [hout, closings_pair hpair hmount, hrest]
      rfl

/-- The first record that is not quiet. -/
theorem quiet_or_first (first : Bool) (stack rest : List TraceEntry) :
    Quiet vfsOpInfo first stack rest ∨
      ∃ a e b, rest = a ++ e :: b ∧ Quiet vfsOpInfo first stack a ∧
        ∃ p, reentryAt vfsOpInfo (a.foldl nextStack stack) e = some p ∨
          first = true ∧ endAt vfsOpInfo (a.foldl nextStack stack) e = some p ∧
            isMount p.1 = true := by
  have hnil : ∀ stack, Quiet vfsOpInfo first stack [] :=
    fun stack => ⟨rfl, fun _ p hp => absurd hp List.not_mem_nil⟩
  induction rest generalizing stack with
  | nil => exact Or.inl (hnil stack)
  | cons e rest ih =>
    cases hreentry : reentryAt vfsOpInfo stack e with
    | some p => exact Or.inr ⟨[], e, rest, rfl, hnil stack, p, Or.inl hreentry⟩
    | none =>
      by_cases hend : ∃ p, first = true ∧ endAt vfsOpInfo stack e = some p ∧ isMount p.1 = true
      · obtain ⟨p, hp⟩ := hend
        exact Or.inr ⟨[], e, rest, rfl, hnil stack, p, Or.inr hp⟩
      · have hcons : ∀ {a}, Quiet vfsOpInfo first (nextStack stack e) a →
            Quiet vfsOpInfo first stack (e :: a) := by
          rintro a ⟨hr, hm⟩
          refine ⟨?_, fun hfirst p hp => ?_⟩
          · rw [along, hreentry, hr]
            rfl
          · rw [along, List.mem_append, Option.mem_toList] at hp
            rcases hp with hp | hp
            · rw [← Bool.not_eq_true]
              exact fun hmount => hend ⟨p, hfirst, hp, hmount⟩
            · exact hm hfirst p hp
        rcases ih (nextStack stack e) with hq | ⟨a, e', b, rfl, hq, hp⟩
        · exact Or.inl (hcons hq)
        · exact Or.inr ⟨e :: a, e', b, rfl, hcons hq, hp⟩

theorem closings_of_quiet {first : Bool} {stack rest : List TraceEntry} (hn : Nested stack rest)
    (hq : Quiet vfsOpInfo first stack rest) :
    closings vfsOpInfo first (outermostOp vfsOpInfo stack) rest =
      (along (endAt vfsOpInfo) stack rest, first) := by
  have h := closings_append (b := []) (by rwa [List.append_nil]) hq
  rw [List.append_nil] at h
  rw [h, closings, List.append_nil]

/-! ## The records of a pair -/

theorem map_snd_along {f : List TraceEntry → TraceEntry → Option (TraceEntry × TraceEntry)}
    (hf : ∀ {stack e p}, f stack e = some p → e = p.2) (stack rest : List TraceEntry) :
    (along f stack rest).map Prod.snd <+ rest := by
  induction rest generalizing stack with
  | nil => exact List.Sublist.refl _
  | cons e rest ih =>
    rw [along, List.map_append]
    cases h : f stack e with
    | none => exact (ih _).cons e
    | some p =>
      rw [hf h]
      exact (ih _).cons_cons p.2

theorem map_snd_ends (stack rest : List TraceEntry) :
    (along (endAt vfsOpInfo) stack rest).map Prod.snd <+ rest := by
  refine map_snd_along (fun h => ?_) stack rest
  obtain ⟨-, -, heq, -⟩ := of_endAt h
  exact heq

theorem map_snd_reentries (stack rest : List TraceEntry) :
    (along (reentryAt vfsOpInfo) stack rest).map Prod.snd <+ rest := by
  refine map_snd_along (fun h => ?_) stack rest
  obtain ⟨-, -, -, heq, -⟩ := of_reentryAt h
  exact heq

theorem snd_mem_of_ends {stack rest : List TraceEntry} {p : TraceEntry × TraceEntry}
    (h : p ∈ along (endAt vfsOpInfo) stack rest) : p.2 ∈ rest :=
  (map_snd_ends stack rest).subset (List.mem_map_of_mem h)

theorem snd_mem_of_reentries {stack rest : List TraceEntry} {p : TraceEntry × TraceEntry}
    (h : p ∈ along (reentryAt vfsOpInfo) stack rest) : p.2 ∈ rest :=
  (map_snd_reentries stack rest).subset (List.mem_map_of_mem h)

theorem mem_foldl_nextStack {stack rest : List TraceEntry} (hn : Nested stack rest) {s : TraceEntry}
    (h : s ∈ rest.foldl nextStack stack) : s ∈ stack ∨ s ∈ rest := by
  induction rest generalizing stack with
  | nil => exact Or.inl h
  | cons e rest ih =>
    obtain ⟨hm, hn'⟩ := hn.head
    rcases ih hn' h with h | h
    · rcases matchRecord_cases hm with ⟨-, top, hstack, -⟩ | ⟨-, top, hstack, -⟩ | ⟨-, hstack⟩
      · rw [hstack]
        exact Or.inl (List.mem_cons_of_mem _ h)
      · rw [hstack]
        exact Or.inl (List.mem_cons_of_mem _ h)
      · rcases hstack with hstack | ⟨hstack, -⟩
        · rw [hstack] at h
          rcases List.mem_cons.mp h with rfl | h
          · exact Or.inr List.mem_cons_self
          · exact Or.inl h
        · rw [hstack] at h
          exact Or.inl h
    · exact Or.inr (List.mem_cons_of_mem _ h)

theorem Nested.left {stack a b : List TraceEntry} (h : Nested stack (a ++ b)) : Nested stack a := by
  rw [Nested, List.foldlM_append] at h
  rw [Nested]
  cases hm : a.foldlM matchRecord stack with
  | none =>
    rw [hm] at h
    cases h
  | some stack' => rfl

theorem fst_mem_of_ends {stack rest : List TraceEntry} (hn : Nested stack rest)
    {p : TraceEntry × TraceEntry} (h : p ∈ along (endAt vfsOpInfo) stack rest) :
    (p.1 ∈ stack ∨ p.1 ∈ rest) ∧ isOp vfsOpInfo p.1 = true := by
  obtain ⟨a, e, b, rfl, hend⟩ := mem_along.mp h
  obtain ⟨below, hstack, -, -, hop, -⟩ := of_endAt hend
  have hmem : p.1 ∈ a.foldl nextStack stack := hstack ▸ List.mem_cons_self
  refine ⟨?_, hop⟩
  rcases mem_foldl_nextStack hn.left hmem with h | h
  · exact Or.inl h
  · exact Or.inr (List.mem_append_left _ h)

/-- A record that reenters an operation does not end it. -/
theorem notMem_ends_of_reentry {stack rest : List TraceEntry} (hnodup : rest.Nodup)
    {p : TraceEntry × TraceEntry} (h : p ∈ along (reentryAt vfsOpInfo) stack rest) :
    p ∉ along (endAt vfsOpInfo) stack rest := by
  intro h'
  obtain ⟨a, e, b, rfl, hreentry⟩ := mem_along.mp h
  obtain ⟨a', e', b', heq, hend⟩ := mem_along.mp h'
  obtain ⟨top, below, hstack, rfl, -, hbelow⟩ := of_reentryAt hreentry
  obtain ⟨below', hstack', rfl, -, -, hbelow'⟩ := of_endAt hend
  have hnot : p.2 ∉ a := by
    rw [List.nodup_append] at hnodup
    exact fun hmem => hnodup.2.2 p.2 hmem p.2 List.mem_cons_self rfl
  have hnot' : p.2 ∉ b := by
    rw [List.nodup_append, List.nodup_cons] at hnodup
    exact hnodup.2.1.1
  obtain ⟨rfl, -⟩ := (List.append_cons_inj_of_notMem hnot hnot').mp heq
  rw [hstack'] at hstack
  obtain ⟨-, rfl⟩ := List.cons.inj hstack
  rw [hbelow'] at hbelow
  cases hbelow

end

end Trace
end Silhouette
