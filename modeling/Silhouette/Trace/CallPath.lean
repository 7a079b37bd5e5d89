import Silhouette.Lib.Brackets
import Silhouette.Trace.SplitSpans
import Mathlib.Data.Prod.Lex
import Mathlib.Data.String.Basic

/-!
# Call paths

While `__match_functions` goes through the records of a process, it enters the span of every
function that ends into an interval tree, and it carries the name of the function that a call
reached over to the records of the call.  `__set_call_path` asks the tree which functions a record
is in.

The records on the stack are changed on the way, so the stack holds them as they are at that
moment.  A start of a call keeps the function's name where it has none of its own, and gets its new
callee when it leaves the stack.
-/

namespace Silhouette
namespace Trace

open Lib Lib.Brackets

/-- What an interval tree holds: a range of sequence numbers and the name of a function. -/
abbrev FuncInterval := Int × Int × String

structure MatchState where
  callStack : List TraceEntry
  funcTree : List FuncInterval
  /-- The callees written to the records of calls, by sequence number. -/
  callees : List (Int × String)

namespace TraceReader

/-- The start of a call remembers the function that starts behind it. -/
def noteFunc (fnName : String) : List TraceEntry → List TraceEntry
  | [] => []
  | top :: rest => if top.type = .startCall then { top with fnName := fnName } :: rest else top :: rest

/-- One record of a process.  An interval without a sequence number in it is refused by the tree. -/
def matchStep (s : MatchState) (e : TraceEntry) : Option MatchState :=
  match e.type with
  | .startCall => some { s with callStack := e :: s.callStack }
  | .endCall =>
    match s.callStack with
    | [] => none
    | top :: rest =>
      if top.isPairCallEntry e then
        some { s with
          callStack := rest
          callees := s.callees ++ [(top.seq, top.fnName), (e.seq, top.fnName)] }
      else none
  | .startFn => some { s with callStack := e :: noteFunc e.fnName s.callStack }
  | .endFn =>
    match s.callStack with
    | [] => none
    | top :: rest =>
      if top.isPairFuncEntry e then
        if top.seq < e.seq then
          some { s with callStack := rest, funcTree := s.funcTree ++ [(top.seq, e.seq, e.fnName)] }
        else none
      else none
  | _ => some s

def matchProcess (d : Dict Int (List TraceEntry)) : Option MatchState :=
  (records d).foldlM matchStep ⟨[], [], []⟩

/-- `__match_functions`, with the tree of every process. -/
def pidSeqFuncTree (r : TraceReader) : Option (List (Int × List FuncInterval)) :=
  r.pidSeqEntryMap.items.mapM fun x =>
    ((matchProcess x.2).map MatchState.funcTree).map (Prod.mk x.1)

/-- How intervals are ordered. -/
def intervalKey (iv : FuncInterval) : Int ×ₗ Int ×ₗ String := toLex (iv.1, toLex iv.2)

/-- The names at a sequence number. -/
def namesAt (tree : List FuncInterval) (seq : Int) : List String :=
  (sortBy intervalKey (tree.filter fun iv => iv.1 ≤ seq ∧ seq < iv.2.1)).map fun iv => iv.2.2

/-- `__set_call_path` for the entries of one sequence number. -/
def callPath (trees : List (Int × List FuncInterval)) (seq : Int) (elist : List TraceEntry) :
    List String :=
  ((elist.head?.bind fun e => trees.lookup e.pid).map fun tree => namesAt tree seq).getD []

end TraceReader

open TraceReader

/-! ## Calls and functions as brackets -/

namespace TraceEntry

def opens (e : TraceEntry) : Bool := e.type = .startCall ∨ e.type = .startFn

def closes (s e : TraceEntry) : Bool := s.isPairCallEntry e || s.isPairFuncEntry e

def isBracket (e : TraceEntry) : Bool := e.type ∈ [.startCall, .endCall, .startFn, .endFn]

/-- The record that ends what a start began. -/
def ending (s : TraceEntry) : TraceEntry :=
  { s with type := if s.type = .startCall then .endCall else .endFn }

theorem ending_closes {s : TraceEntry} (h : s.opens = true) :
    s.ending.opens = false ∧ s.closes s.ending = true := by
  rcases of_decide_eq_true h with hty | hty
  · simp [opens, closes, ending, isPairCallEntry, hty]
  · simp [opens, closes, ending, isPairFuncEntry, hty]

end TraceEntry

/-- The call and function records. -/
def brackets (l : List TraceEntry) : List TraceEntry := l.filter TraceEntry.isBracket

/-- A function of the process with its start and its end. -/
def FuncSpan (l : List TraceEntry) (s e : TraceEntry) : Prop :=
  Matched TraceEntry.opens TraceEntry.closes (brackets l) s e ∧ s.type = .startFn

/-! ## The stack with the changed records -/

/-- A record of a call on the stack may have got a name, anything else is as it was. -/
def Renamed (m s : TraceEntry) : Prop :=
  m = { s with fnName := m.fnName } ∧ (s.type = .startFn → m = s)

theorem Renamed.refl (s : TraceEntry) : Renamed s s := ⟨rfl, fun _ => rfl⟩

/-- The tests for pairs do not see the names that calls got. -/
theorem Renamed.isPair {m s : TraceEntry} (h : Renamed m s) (e : TraceEntry) :
    m.isPairCallEntry e = s.isPairCallEntry e ∧
      (m.isPairFuncEntry e && e.type = .endFn) = (s.isPairFuncEntry e && e.type = .endFn) := by
  refine ⟨by rw [h.1]; rfl, ?_⟩
  by_cases hty : s.type = .startFn
  · rw [h.2 hty]
  · have hm : m.type = s.type := by rw [h.1]
    by_cases he : e.type = .endFn
    · simp [TraceEntry.isPairFuncEntry, hm, hty, he]
    · simp [he]

theorem forall₂_noteFunc {ms ss : List TraceEntry} (h : List.Forall₂ Renamed ms ss)
    (fnName : String) : List.Forall₂ Renamed (noteFunc fnName ms) ss := by
  cases h with
  | nil => exact .nil
  | @cons m s ms ss hms hrest =>
    rw [noteFunc]
    split_ifs with hty
    · refine .cons ⟨?_, fun hs => ?_⟩ hrest
      · rw [hms.1]
      · rw [hms.1] at hty
        rw [show s.type = .startCall from hty] at hs
        cases hs
    · exact .cons hms hrest

/-- The intervals of the functions among the pairs. -/
def funcIntervals (l : List (TraceEntry × TraceEntry)) : List FuncInterval :=
  (l.filter fun p => p.1.type = .startFn).map fun p => (p.1.seq, p.2.seq, p.2.fnName)

/-- The state behind a record follows the stack of the records as they were read. -/
def Follows (s : MatchState) (stack : List TraceEntry) (tree : List FuncInterval) : Prop :=
  List.Forall₂ Renamed s.callStack stack ∧ s.funcTree = tree

theorem matchStep_of_not_isBracket {e : TraceEntry} (h : e.isBracket = false) (s : MatchState) :
    matchStep s e = some s := by
  have hno := of_decide_eq_false h
  cases hty : e.type <;> simp [matchStep, hty] at hno ⊢

theorem TraceEntry.closes_endCall {e : TraceEntry} (hty : e.type = .endCall) (s : TraceEntry) :
    s.closes e = s.isPairCallEntry e := by
  simp [closes, isPairFuncEntry, hty]

theorem TraceEntry.closes_endFn {e : TraceEntry} (hty : e.type = .endFn) (s : TraceEntry) :
    s.closes e = s.isPairFuncEntry e := by
  simp [closes, isPairCallEntry, hty]

/-- A state that follows the stack, or none where there is no stack. -/
def FollowedBy (outcome : Option MatchState) (tree : List FuncInterval) :
    Option (List TraceEntry) → Prop
  | none => outcome = none
  | some stack => ∃ s, outcome = some s ∧ Follows s stack tree

theorem FollowedBy.isSome_eq {outcome : Option MatchState} {tree : List FuncInterval}
    {stack? : Option (List TraceEntry)} (h : FollowedBy outcome tree stack?) :
    outcome.isSome = stack?.isSome := by
  cases stack? with
  | none =>
    obtain rfl : outcome = none := h
    rfl
  | some stack =>
    obtain ⟨s, rfl, -⟩ := h
    rfl

theorem FollowedBy.bind {outcome : Option MatchState} {tree tree' : List FuncInterval}
    {stack? : Option (List TraceEntry)} (h : FollowedBy outcome tree stack?)
    {f : MatchState → Option MatchState} {g : List TraceEntry → Option (List TraceEntry)}
    (hnext : ∀ s stack, stack? = some stack → Follows s stack tree →
      FollowedBy (f s) tree' (g stack)) : FollowedBy (outcome.bind f) tree' (stack?.bind g) := by
  cases stack? with
  | none =>
    obtain rfl : outcome = none := h
    exact rfl
  | some stack =>
    obtain ⟨s, rfl, hs⟩ := h
    exact hnext s stack rfl hs

section

variable {s : MatchState} {stack : List TraceEntry} {tree : List FuncInterval} {e : TraceEntry}

theorem Follows.endCall (h : Follows s stack tree) (hty : e.type = .endCall) :
    FollowedBy (matchStep s e)
      (tree ++ funcIntervals (pairs TraceEntry.opens TraceEntry.closes stack [e]))
      (step TraceEntry.opens TraceEntry.closes stack e) := by
  obtain ⟨hstack, htree⟩ := h
  have hclose : e.opens = false := by simp [TraceEntry.opens, hty]
  simp only [Brackets.step, hclose, Bool.false_eq_true, if_false, matchStep, hty]
  cases hs : stack with
  | nil =>
    rw [hs] at hstack
    rw [List.forall₂_nil_right_iff.mp hstack]
    rfl
  | cons top below =>
    rw [hs] at hstack
    obtain ⟨m, ms, hm, hbelow, hsplit⟩ := List.forall₂_cons_right_iff.mp hstack
    rw [hsplit, pop, TraceEntry.closes_endCall hty]
    dsimp only
    rw [(hm.isPair e).1]
    cases hpair : top.isPairCallEntry e with
    | false => rfl
    | true =>
      have hcall : ¬ top.type = .startFn := by
        intro hfn
        simp [TraceEntry.isPairCallEntry, hfn] at hpair
      refine ⟨_, rfl, hbelow, ?_⟩
      rw [htree]
      simp [pairs, Brackets.step, pop, hclose, TraceEntry.closes_endCall hty, hpair, funcIntervals,
        hcall]

theorem Follows.endFn (h : Follows s stack tree) (hty : e.type = .endFn)
    (hlt : ∀ x ∈ stack, x.seq < e.seq) :
    FollowedBy (matchStep s e)
      (tree ++ funcIntervals (pairs TraceEntry.opens TraceEntry.closes stack [e]))
      (step TraceEntry.opens TraceEntry.closes stack e) := by
  obtain ⟨hstack, htree⟩ := h
  have hclose : e.opens = false := by simp [TraceEntry.opens, hty]
  simp only [Brackets.step, hclose, Bool.false_eq_true, if_false, matchStep, hty]
  cases hs : stack with
  | nil =>
    rw [hs] at hstack
    rw [List.forall₂_nil_right_iff.mp hstack]
    rfl
  | cons top below =>
    rw [hs] at hstack
    obtain ⟨m, ms, hm, hbelow, hsplit⟩ := List.forall₂_cons_right_iff.mp hstack
    have hpairs : m.isPairFuncEntry e = top.isPairFuncEntry e := by
      have h := (hm.isPair e).2
      rwa [decide_eq_true hty, Bool.and_true, Bool.and_true] at h
    rw [hsplit, pop, TraceEntry.closes_endFn hty]
    dsimp only
    rw [hpairs]
    cases hpair : top.isPairFuncEntry e with
    | false => rfl
    | true =>
      have hfn : top.type = .startFn := by
        have h := of_decide_eq_true hpair
        rcases h.1 with ⟨htop, -⟩ | ⟨-, hbad⟩
        · exact htop
        · rw [hty] at hbad
          cases hbad
      have hseq : m.seq < e.seq := by
        rw [hm.2 hfn]
        exact hlt top (hs ▸ List.mem_cons_self)
      rw [if_pos rfl, if_pos hseq]
      refine ⟨_, rfl, hbelow, ?_⟩
      rw [htree, hm.2 hfn]
      simp [pairs, Brackets.step, pop, hclose, TraceEntry.closes_endFn hty, hpair, funcIntervals, hfn]

theorem Follows.step (h : Follows s stack tree) (he : e.isBracket = true)
    (hlt : ∀ x ∈ stack, x.seq < e.seq) :
    FollowedBy (matchStep s e)
      (tree ++ funcIntervals (pairs TraceEntry.opens TraceEntry.closes stack [e]))
      (step TraceEntry.opens TraceEntry.closes stack e) := by
  have hmem := of_decide_eq_true he
  simp only [List.mem_cons, List.not_mem_nil, or_false] at hmem
  rcases hmem with hty | hty | hty | hty
  · -- the start of a call
    have hopen : e.opens = true := by simp [TraceEntry.opens, hty]
    simp only [step_open hopen, pairs, hopen, if_true, matchStep, hty]
    exact ⟨_, rfl, .cons (.refl e) h.1, by simp [funcIntervals, h.2]⟩
  · exact h.endCall hty
  · -- the start of a function
    have hopen : e.opens = true := by simp [TraceEntry.opens, hty]
    simp only [step_open hopen, pairs, hopen, if_true, matchStep, hty]
    exact ⟨_, rfl, .cons (.refl e) (forall₂_noteFunc h.1 _), by simp [funcIntervals, h.2]⟩
  · exact h.endFn hty hlt

end

/-- The state behind the records of a process, or where they are refused. -/
theorem follows_foldlM {l : List TraceEntry} (hl : l.Pairwise fun a b => a.seq < b.seq) :
    FollowedBy (l.foldlM matchStep ⟨[], [], []⟩)
      (funcIntervals (pairs TraceEntry.opens TraceEntry.closes [] (brackets l)))
      (run TraceEntry.opens TraceEntry.closes [] (brackets l)) := by
  induction l using List.reverseRecOn with
  | nil => exact ⟨_, rfl, .nil, rfl⟩
  | append_singleton l e ih =>
    have ih := ih (hl.sublist (List.sublist_append_left l [e]))
    rw [List.foldlM_append]
    cases hbr : e.isBracket with
    | false =>
      have hsame : brackets (l ++ [e]) = brackets l := by
        rw [brackets, List.filter_append, List.filter_cons_of_neg (by simp [hbr]), List.filter_nil,
          List.append_nil, brackets]
      rw [hsame, ← Option.bind_fun_some (run _ _ _ (brackets l))]
      refine ih.bind fun s stack _ hfollows => ⟨s, ?_, hfollows⟩
      show ((matchStep s e).bind _) = some s
      rw [matchStep_of_not_isBracket hbr]
      rfl
    | true =>
      have hsnoc : brackets (l ++ [e]) = brackets l ++ [e] := by
        rw [brackets, List.filter_append, List.filter_cons_of_pos hbr, List.filter_nil, brackets]
      rw [hsnoc, run_append]
      refine ih.bind fun s stack hrun hfollows => ?_
      have hlt : ∀ x ∈ stack, x.seq < e.seq := by
        intro x hx
        have hmem := (List.mem_filter.mp ((opened_of_run hrun).mem hx).1).1
        exact (List.pairwise_append.mp hl).2.2 x hmem e (List.mem_singleton_self e)
      rw [run_cons, pairs_append_singleton hrun, funcIntervals, List.filter_append, List.map_append,
        ← funcIntervals, ← funcIntervals]
      exact (hfollows.step hbr hlt).bind fun s' t _ hfollows' => ⟨s', rfl, hfollows'⟩

/-! ## The paths -/

/-- A function ends under the name it started with. -/
theorem FuncSpan.fnName {l : List TraceEntry} {s e : TraceEntry} (h : FuncSpan l s e) :
    s.fnName = e.fnName := by
  obtain ⟨⟨_, _, _, -, -, -, hcloses, -⟩, hty⟩ := h
  rw [TraceEntry.closes, Bool.or_eq_true] at hcloses
  rcases hcloses with hcall | hfunc
  · simp [TraceEntry.isPairCallEntry, hty] at hcall
  · have hpair := of_decide_eq_true hfunc
    exact hpair.2.2.1

/-- The functions around a sequence number by their starts and ends, from the outermost in. -/
structure PathAt (l : List TraceEntry) (seq : Int) (spans : List (TraceEntry × TraceEntry)) :
    Prop where
  mem : ∀ s e, (s, e) ∈ spans ↔ FuncSpan l s e ∧ s.seq ≤ seq ∧ seq < e.seq
  outermostFirst : spans.Pairwise fun x y => x.1.seq < y.1.seq ∧ y.2.seq < x.2.seq

theorem namesAt_funcIntervals {l : List TraceEntry} (hl : l.Pairwise fun a b => a.seq < b.seq)
    (hrun : (run TraceEntry.opens TraceEntry.closes [] (brackets l)).isSome) (seq : Int) :
    ∃ spans, PathAt l seq spans ∧
      namesAt (funcIntervals (pairs TraceEntry.opens TraceEntry.closes [] (brackets l))) seq =
        spans.map fun p => p.1.fnName := by
  have hbr : (brackets l).Pairwise fun a b => a.seq < b.seq := hl.filter _
  have hmem : ∀ s e, (s, e) ∈ pairs TraceEntry.opens TraceEntry.closes [] (brackets l) ↔
      Matched TraceEntry.opens TraceEntry.closes (brackets l) s e := fun s e => mem_pairs_iff hrun
  have hnodup : (pairs TraceEntry.opens TraceEntry.closes [] (brackets l)).Nodup := by
    have hends : ((pairs TraceEntry.opens TraceEntry.closes [] (brackets l)).map Prod.snd).Nodup :=
      (hbr.imp fun hlt => ne_of_apply_ne TraceEntry.seq (ne_of_lt hlt)).sublist (map_snd_pairs _ _)
    exact List.Nodup.of_map _ hends
  generalize pairs TraceEntry.opens TraceEntry.closes [] (brackets l) = ps at hmem hnodup ⊢
  let interval : TraceEntry × TraceEntry → FuncInterval := fun p => (p.1.seq, p.2.seq, p.2.fnName)
  let around := (ps.filter fun p => p.1.type = .startFn).filter fun p =>
    p.1.seq ≤ seq ∧ seq < p.2.seq
  have haround : ∀ s e, (s, e) ∈ sortBy (intervalKey ∘ interval) around ↔
      FuncSpan l s e ∧ s.seq ≤ seq ∧ seq < e.seq := by
    intro s e
    rw [mem_sortBy, List.mem_filter, List.mem_filter, hmem, FuncSpan, decide_eq_true_eq,
      decide_eq_true_eq]
  have hsorted : (sortBy (intervalKey ∘ interval) around).Pairwise fun x y =>
      x.1.seq < y.1.seq ∧ y.2.seq < x.2.seq := by
    have hne : (sortBy (intervalKey ∘ interval) around).Nodup :=
      (sortBy_perm _ _).nodup_iff.mpr ((hnodup.filter _).filter _)
    refine (hne.and (sortBy_pairwise (intervalKey ∘ interval) around)).imp_of_mem ?_
    intro x y hx hy hxy
    obtain ⟨⟨hmx, -⟩, hxlo, hxhi⟩ := (haround x.1 x.2).mp hx
    obtain ⟨⟨hmy, -⟩, hylo, hyhi⟩ := (haround y.1 y.2).mp hy
    have hle : x.1.seq ≤ y.1.seq := by
      rcases Prod.Lex.toLex_le_toLex.mp hxy.2 with hlt | heq
      · exact le_of_lt hlt
      · exact le_of_eq heq.1
    have hlt : x.1.seq < y.1.seq := by
      refine lt_of_le_of_ne hle fun heq => hxy.1 ?_
      have hstart : x.1 = y.1 := List.inj_on_of_nodup_map
        (List.pairwise_map.mpr (hbr.imp fun h => ne_of_lt h)) hmx.mem.1 hmy.mem.1 heq
      exact Prod.ext hstart (hmx.unique hbr (hstart ▸ hmy))
    exact ⟨hlt, hmx.nested hbr hmy hlt (lt_of_le_of_lt hylo hxhi)⟩
  refine ⟨sortBy (intervalKey ∘ interval) around, ⟨haround, hsorted⟩, ?_⟩
  have hsort : (sortBy (intervalKey ∘ interval) around).map interval =
      sortBy intervalKey (around.map interval) :=
    List.map_insertionSort _ _ interval around fun a _ b _ => Iff.rfl
  have hnames : ((sortBy (intervalKey ∘ interval) around).map interval).map (fun iv => iv.2.2) =
      (sortBy (intervalKey ∘ interval) around).map fun p => p.1.fnName := by
    rw [List.map_map]
    refine List.map_congr_left (fun p hp => ?_)
    exact (((haround p.1 p.2).mp hp).1.fnName).symm
  rw [← hnames, hsort, namesAt, funcIntervals, List.filter_map]
  rfl

section

variable {r : TraceReader}

/-- A process is accepted when its calls and functions may still come to nest. -/
theorem isSome_matchProcess_iff {d : Dict Int (List TraceEntry)}
    (hd : (records d).Pairwise fun a b => a.seq < b.seq) :
    (matchProcess d).isSome ↔
      ∃ suffix, Balanced TraceEntry.opens TraceEntry.closes (brackets (records d) ++ suffix) := by
  rw [← isSome_run_iff fun _ => TraceEntry.ending_closes]
  rw [matchProcess, (follows_foldlM hd).isSome_eq]

theorem exists_pathAt {d : Dict Int (List TraceEntry)}
    (hd : (records d).Pairwise fun a b => a.seq < b.seq) {s : MatchState}
    (hs : matchProcess d = some s) (seq : Int) :
    ∃ spans, PathAt (records d) seq spans ∧
      namesAt s.funcTree seq = spans.map fun p => p.1.fnName := by
  have h := follows_foldlM hd
  cases hrun : run TraceEntry.opens TraceEntry.closes [] (brackets (records d)) with
  | none =>
    rw [hrun] at h
    rw [matchProcess, h] at hs
    cases hs
  | some stack =>
    rw [hrun] at h
    obtain ⟨s', hs', -, htree⟩ := h
    rw [matchProcess, hs'] at hs
    rw [← Option.some.inj hs, htree]
    exact namesAt_funcIntervals hd (by rw [hrun]; rfl) seq

theorem pathAt_nil (seq : Int) : PathAt [] seq [] := by
  refine ⟨fun s e => ⟨fun h => absurd h List.not_mem_nil, fun h => ?_⟩, List.Pairwise.nil⟩
  exact absurd h.1.1.mem.1 List.not_mem_nil

theorem of_mem_getEntryList {e x : TraceEntry} (h : x ∈ e.getEntryList) :
    x.seq = e.seq ∧ x.pid = e.pid := by
  rcases TraceEntry.mem_getEntryList.mp h with hx | ⟨-, hx⟩
  · rw [hx]
    exact ⟨rfl, rfl⟩
  · rw [hx]
    exact ⟨rfl, rfl⟩

/-- A trace is accepted when the calls and functions of every process, in sequence order, begin a
well-bracketed sequence, and the path of an entry names the functions of its process around its
sequence number, outermost first. -/
theorem call_path_exact {lines : List TraceEntry} (h : load lines = some r) :
    (r.pidSeqFuncTree.isSome ↔ ∀ x ∈ r.pidSeqEntryMap.items,
      ∃ suffix, Balanced TraceEntry.opens TraceEntry.closes (brackets (records x.2) ++ suffix)) ∧
    ∀ trees, r.pidSeqFuncTree = some trees → ∀ x ∈ r.seqEntryMap.items, ∀ e ∈ x.2,
      ∃ spans, PathAt (r.recordsOf e.pid) e.seq spans ∧
        callPath trees x.1 x.2 = spans.map fun p => p.1.fnName := by
  have hload := loaded_of_load h
  constructor
  · rw [pidSeqFuncTree, isSome_mapM_iff]
    refine forall₂_congr fun x hx => ?_
    rw [← isSome_matchProcess_iff (hload.records_pairwise hx), Option.isSome_map, Option.isSome_map]
  · intro trees htrees x hx e he
    obtain ⟨e₀, rfl⟩ := hload.item x hx
    obtain ⟨hseq, hpid⟩ := of_mem_getEntryList he
    have hlook : trees.lookup e₀.pid = (r.pidSeqEntryMap.get? e₀.pid).bind fun d =>
        (matchProcess d).map MatchState.funcTree :=
      lookup_mapM (f := fun d => (matchProcess d).map MatchState.funcTree) htrees e₀.pid
    rw [hseq, hpid, callPath, e₀.head?_getEntryList, Option.bind_some, hlook, recordsOf]
    cases hget : r.pidSeqEntryMap.get? e₀.pid with
    | none => exact ⟨[], pathAt_nil _, rfl⟩
    | some d =>
      have hmem : (e₀.pid, d) ∈ r.pidSeqEntryMap.items := Dict.get?_eq_some.mp hget
      obtain ⟨y, hy⟩ := exists_of_mapM_eq_some htrees _ hmem
      obtain ⟨tree, htree, -⟩ := Option.map_eq_some_iff.mp hy
      obtain ⟨s, hs, -⟩ := Option.map_eq_some_iff.mp htree
      rw [Option.bind_some, hs]
      exact exists_pathAt (hload.records_pairwise hmem) hs e₀.seq

/-- A function that is still running, a call through a pointer that reached `inner`, and a store in
there. -/
def nestedCalls : List TraceEntry :=
  [.plain .daxDevInfo 0 0x8000000000000000 64, fnRecord .startFn 1 0 "running",
    fnRecord .startFn 2 0 "outer", { fnRecord .startCall 3 0 "" with callee := "ptr" },
    fnRecord .startFn 4 0 "inner", .plain .store 5 0x8000000000000000 8,
    fnRecord .endFn 6 0 "inner", { fnRecord .endCall 7 0 "" with callee := "ptr" },
    fnRecord .endFn 8 0 "outer"]

theorem call_path_exact_nested : ∃ r, load nestedCalls = some r ∧
    (r.pidSeqFuncTree.isSome ↔ ∀ x ∈ r.pidSeqEntryMap.items,
      ∃ suffix, Balanced TraceEntry.opens TraceEntry.closes (brackets (records x.2) ++ suffix)) ∧
    ∀ trees, r.pidSeqFuncTree = some trees → ∀ x ∈ r.seqEntryMap.items, ∀ e ∈ x.2,
      ∃ spans, PathAt (r.recordsOf e.pid) e.seq spans ∧
        callPath trees x.1 x.2 = spans.map fun p => p.1.fnName := by
  obtain ⟨r, hr⟩ := Option.isSome_iff_exists.mp (by decide +kernel : (load nestedCalls).isSome = true)
  exact ⟨r, hr, call_path_exact hr⟩

/-- The store is in `outer` and `inner`; the function that never ends is left out. -/
example : ((load nestedCalls).bind fun r => r.pidSeqFuncTree.map fun trees =>
    callPath trees 5 [.plain .store 5 0x8000000000000000 8]) = some ["outer", "inner"] := by
  decide +kernel

end

/-! ## The stack of the records as they are -/

/-- The stack without the names that calls get is the same in depth and decides the same. -/
theorem foldlM_matchRecord (l stack : List TraceEntry) :
    l.foldlM matchRecord stack = run TraceEntry.opens TraceEntry.closes stack (brackets l) := by
  have hrecord : ∀ stack e, matchRecord stack e =
      if e.isBracket then Brackets.step TraceEntry.opens TraceEntry.closes stack e
      else some stack := by
    intro stack e
    have hpop : ∀ isPair : TraceEntry → TraceEntry → Bool, (∀ s, s.closes e = isPair s e) →
        popPair isPair stack e = pop TraceEntry.closes e stack := by
      intro isPair hsame
      cases stack with
      | nil => rfl
      | cons top rest => rw [popPair, pop, hsame]
    cases hty : e.type
    case endFn =>
      simp [matchRecord, hty, TraceEntry.isBracket, Brackets.step, TraceEntry.opens,
        hpop _ (TraceEntry.closes_endFn hty)]
    case endCall =>
      simp [matchRecord, hty, TraceEntry.isBracket, Brackets.step, TraceEntry.opens,
        hpop _ (TraceEntry.closes_endCall hty)]
    all_goals simp [matchRecord, hty, TraceEntry.isBracket, Brackets.step, TraceEntry.opens]
  induction l generalizing stack with
  | nil => rfl
  | cons e rest ih =>
    rw [List.foldlM_cons, hrecord]
    cases hbr : e.isBracket with
    | false =>
      rw [brackets, List.filter_cons_of_neg (by simp [hbr]), if_neg Bool.false_ne_true]
      exact ih stack
    | true =>
      rw [brackets, List.filter_cons_of_pos hbr, if_pos rfl, run_cons]
      exact bind_congr fun t => ih t

/-- So the traces accepted here are those that `read` accepts. -/
theorem TraceReader.Loaded.isSome_pidSeqFuncTree {r : TraceReader} (h : r.Loaded) :
    r.pidSeqFuncTree.isSome = r.matchFunctions := by
  rw [Bool.eq_iff_iff, pidSeqFuncTree, isSome_mapM_iff, matchFunctions, List.all_eq_true]
  refine forall₂_congr fun x hx => ?_
  rw [Option.isSome_map, Option.isSome_map, foldlM_matchRecord, matchProcess,
    (follows_foldlM (h.records_pairwise hx)).isSome_eq]

end Trace
end Silhouette
