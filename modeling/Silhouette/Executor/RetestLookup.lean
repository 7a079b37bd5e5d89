import Silhouette.Executor.TestCases

/-!
# The case to retest

A guest that is started again after a crash is handed the name of the case it was at.
`_init_test_cases` looks for the name while it collects the executables, and gives it up behind
every search path at which it is not a file.  `retest_exact_iff` says when the case is found.
-/

namespace Silhouette
namespace Executor

open Lib

/-- What is looked at in an element, in order. -/
def PathEntry.entries : PathEntry → List String
  | .file path => [path]
  | .glob listing => listing.entries

/-- An executable under one of the paths has the name. -/
def NamedExec (isExec : String → Bool) (paths : List PathEntry) (name f : String) : Prop :=
  f ∈ paths.flatMap (PathEntry.execs isExec) ∧ basename f = name

/-- The case that `run` begins with, and the indices that it is handed.  `stored` is what
`get_unique_indices` returns. -/
def retestCase (st : SearchState) (stored : Option String × Option (List Nat)) :
    Option (String × Option (List Nat)) :=
  match st.retestExecFile with
  | none => none
  | some f =>
    if f = "" then none
    else
      match stored with
      | (some retestBasename, some uniqueOpIndices) =>
        some (f, if retestBasename ≠ basename f then none else some uniqueOpIndices)
      | _ => some (f, none)

/-- The case is retested when an executable has its name, and nothing is when none has. -/
structure RetestExact (isExec : String → Bool) (paths : List PathEntry) (name : String)
    (st : SearchState) : Prop where
  found : (∃ f, NamedExec isExec paths name f) → ∃ f, NamedExec isExec paths name f ∧
    st.retestExecFile = some f ∧ ∀ stored, ∃ indices, retestCase st stored = some (f, indices)
  missing : (¬ ∃ f, NamedExec isExec paths name f) → st.retestExecFile = none

/-- The first entry with the name.  Only the first path counts when the bare name is not an
executable itself. -/
def firstNamed (isExec : String → Bool) (paths : List PathEntry) (name : String) : Option String :=
  ((if isExec name then paths else paths.take 1).flatMap PathEntry.entries).find?
    fun f => basename f = name

/-- What the loop over the paths makes of the name. -/
def retestOutcome (isExec : String → Bool) (paths : List PathEntry) (name : String) :
    Option String :=
  match firstNamed isExec paths name with
  | some f => if isExec f then some f else none
  | none => if paths = [] ∨ isExec name = true then some name else none

section

variable {isExec : String → Bool} {name : String}

/-- The name stands in the field until an entry has it. -/
def Scanned (name : String) (seen : List String) (st : SearchState) : Prop :=
  match seen.find? fun f => basename f = name with
  | some f => st.retestExecFile = some f ∧ st.foundRetestExec = true
  | none => st.retestExecFile = some name ∧ st.foundRetestExec = false

theorem Scanned.noteRetest {seen : List String} {st : SearchState} (hname : name ≠ "")
    (h : Scanned name seen st) (f : String) : Scanned name (seen ++ [f]) (st.noteRetest f) := by
  rw [Scanned] at h ⊢
  rw [List.find?_append]
  cases hseen : seen.find? fun f => basename f = name with
  | some g =>
    rw [hseen] at h
    rw [SearchState.noteRetest, h.2, Bool.not_true, Bool.and_false, Bool.false_and]
    exact h
  | none =>
    rw [hseen] at h
    have hwants : wantsRetest st.retestExecFile = true := by
      rw [h.1]
      exact bne_iff_ne.mpr hname
    rw [SearchState.noteRetest, h.2, hwants, h.1, Option.none_or]
    by_cases hf : basename f = name
    · rw [List.find?_cons_of_pos (by simpa using hf), hf, beq_self_eq_true]
      exact ⟨rfl, rfl⟩
    · rw [List.find?_cons_of_neg (by simpa using hf), List.find?_nil]
      have hne : (some name == some (basename f)) = false := by simpa using fun h => hf h.symm
      rw [hne]
      exact h

theorem Scanned.noteExec {seen : List String} {st : SearchState} (h : Scanned name seen st)
    (f : String) : Scanned name seen (st.noteExec isExec f) := by
  rw [SearchState.noteExec]
  split
  · exact h
  · exact h

theorem Scanned.scan {st : SearchState} (hname : name ≠ "") (entries seen : List String)
    (h : Scanned name seen st) :
    Scanned name (seen ++ entries)
      (entries.foldl (fun st f => (st.noteExec isExec f).noteRetest f) st) := by
  induction entries generalizing st seen with
  | nil => rw [List.append_nil]; exact h
  | cons f rest ih =>
    rw [List.append_cons, List.foldl_cons]
    exact ih _ (h.noteExec f |>.noteRetest hname f)

/-- The fields when the loop has gone through an element. -/
theorem search_scanned (hname : name ≠ "") {st : SearchState} (h : Scanned name [] st)
    (p : PathEntry) :
    ∃ st', Scanned name p.entries st' ∧ st.search isExec p = st'.checkRetest isExec := by
  cases p with
  | file path =>
    have hadd : Scanned name [] { st with execFileList := st.execFileList ++ [path] } := h
    exact ⟨_, hadd.noteRetest hname path, rfl⟩
  | glob listing => exact ⟨_, h.scan hname listing.entries [], rfl⟩

/-- The search keeps a property of the fields, whatever the list of executables is. -/
structure KeptBySearch (isExec : String → Bool) (P : SearchState → Prop) : Prop where
  list : ∀ st l, P st → P { st with execFileList := l }
  noteRetest : ∀ st f, P st → P (st.noteRetest f)
  checkRetest : ∀ st, P st → P (st.checkRetest isExec)

theorem KeptBySearch.search {P : SearchState → Prop} (hP : KeptBySearch isExec P)
    {st : SearchState} (h : P st) (p : PathEntry) : P (st.search isExec p) := by
  have hexec : ∀ st f, P st → P (st.noteExec isExec f) := by
    intro st f h
    rw [SearchState.noteExec]
    split
    · exact hP.list st _ h
    · exact h
  cases p with
  | file path => exact hP.checkRetest _ (hP.noteRetest _ path (hP.list st _ h))
  | glob listing =>
    apply hP.checkRetest
    induction listing.entries generalizing st with
    | nil => exact h
    | cons f rest ih => exact ih (hP.noteRetest _ f (hexec st f h))

theorem KeptBySearch.searchAll {P : SearchState → Prop} (hP : KeptBySearch isExec P)
    {st : SearchState} (h : P st) (paths : List PathEntry) :
    P (paths.foldl (SearchState.search isExec) st) := by
  induction paths generalizing st with
  | nil => exact h
  | cons p rest ih => exact ih (hP.search h p)

/-- A name that is given up is not looked for again. -/
theorem kept_none (isExec : String → Bool) :
    KeptBySearch isExec fun st => st.retestExecFile = none where
  list := fun _ _ h => h
  noteRetest := by
    intro st f h
    rw [SearchState.noteRetest, h]
    exact h
  checkRetest := by
    intro st h
    rw [SearchState.checkRetest, h]
    exact h

/-- The field has the path of an executable. -/
def FoundExec (isExec : String → Bool) (f : String) (st : SearchState) : Prop :=
  st.retestExecFile = some f ∧ st.foundRetestExec = true ∧ isExec f = true

/-- The path of an executable stays. -/
theorem kept_foundExec (isExec : String → Bool) (f : String) :
    KeptBySearch isExec (FoundExec isExec f) where
  list := fun _ _ h => h
  noteRetest := by
    intro st g h
    rw [SearchState.noteRetest, h.2.1, Bool.not_true, Bool.and_false, Bool.false_and]
    exact h
  checkRetest := by
    intro st h
    have hexec : isExec (st.retestExecFile.getD "") = true := by
      rw [h.1]
      exact h.2.2
    rw [SearchState.checkRetest, hexec, Bool.not_true, Bool.and_false]
    exact h

theorem firstNamed_cons (p : PathEntry) (rest : List PathEntry) :
    firstNamed isExec (p :: rest) name = (p.entries.find? fun f => basename f = name).or
      (if isExec name then firstNamed isExec rest name else none) := by
  rw [firstNamed, firstNamed]
  by_cases hexec : isExec name = true
  · rw [if_pos hexec, if_pos hexec, if_pos hexec, List.flatMap_cons, List.find?_append]
  · rw [if_neg hexec, if_neg hexec, Option.or_none, List.take_succ_cons, List.take_zero,
      List.flatMap_cons, List.flatMap_nil, List.append_nil]

theorem ne_empty_of_basename {f : String} (hname : name ≠ "") (h : basename f = name) : f ≠ "" := by
  intro hf
  rw [hf] at h
  exact hname h.symm

/-- What does not name an executable is given up, and nothing else. -/
theorem checkRetest_neg {f : String} {st : SearchState} (h : st.retestExecFile = some f)
    (hf : f ≠ "") (hexec : ¬ isExec f = true) :
    (st.checkRetest isExec).retestExecFile = none := by
  have hwants : wantsRetest (some f) = true := bne_iff_ne.mpr hf
  rw [SearchState.checkRetest, h, hwants, Bool.true_and, if_pos]
  rw [Option.getD_some, Bool.not_eq_true', Bool.eq_false_iff]
  exact hexec

theorem checkRetest_pos {f : String} {st : SearchState} (h : st.retestExecFile = some f)
    (hexec : isExec f = true) : st.checkRetest isExec = st := by
  rw [SearchState.checkRetest, h, Option.getD_some, hexec, Bool.not_true, Bool.and_false]
  rfl

/-- What the loop leaves in the field. -/
theorem searchAll_outcome (hname : name ≠ "") {st : SearchState} (h : Scanned name [] st)
    (paths : List PathEntry) :
    (paths.foldl (SearchState.search isExec) st).retestExecFile =
      retestOutcome isExec paths name := by
  induction paths generalizing st with
  | nil =>
    have hnone : firstNamed isExec [] name = none := by
      rw [firstNamed, List.take_nil, ite_self, List.flatMap_nil, List.find?_nil]
    rw [retestOutcome, hnone]
    exact h.1
  | cons p rest ih =>
    obtain ⟨st', hscan, hsearch⟩ := @search_scanned isExec name hname st h p
    rw [List.foldl_cons, hsearch, retestOutcome, firstNamed_cons]
    rw [Scanned] at hscan
    cases hfind : p.entries.find? fun f => basename f = name with
    | some f =>
      rw [hfind] at hscan
      rw [Option.some_or]
      show _ = if isExec f then some f else none
      by_cases hexec : isExec f = true
      · have hfound : FoundExec isExec f st' := ⟨hscan.1, hscan.2, hexec⟩
        rw [if_pos hexec]
        have hkept := kept_foundExec isExec f
        exact (hkept.searchAll (hkept.checkRetest _ hfound) rest).1
      · have hbase := List.find?_some hfind
        have hf : f ≠ "" := ne_empty_of_basename hname (of_decide_eq_true hbase)
        rw [if_neg hexec]
        exact (kept_none isExec).searchAll (checkRetest_neg hscan.1 hf hexec) rest
    | none =>
      rw [hfind] at hscan
      rw [Option.none_or]
      by_cases hexec : isExec name = true
      · rw [checkRetest_pos hscan.1 hexec, ih hscan, retestOutcome, if_pos hexec]
        simp only [hexec, or_true]
      · have hgone := checkRetest_neg hscan.1 hname hexec
        rw [if_neg hexec, (kept_none isExec).searchAll hgone rest]
        exact (if_neg (by simpa using hexec)).symm

theorem mem_entries {p : PathEntry} {f : String} (h : f ∈ p.execs isExec) : f ∈ p.entries := by
  cases p with
  | file path => exact h
  | glob listing => exact List.mem_of_mem_filter h

theorem mem_execs {p : PathEntry} {f : String} (h : f ∈ p.entries) (hexec : isExec f = true) :
    f ∈ p.execs isExec := by
  cases p with
  | file path => exact h
  | glob listing => exact List.mem_filter.mpr ⟨h, hexec⟩

theorem namedExec_of_firstNamed {paths : List PathEntry} {f : String}
    (h : firstNamed isExec paths name = some f) (hexec : isExec f = true) :
    NamedExec isExec paths name f := by
  have hbase := List.find?_some h
  obtain ⟨p, hp, hf⟩ := List.mem_flatMap.mp (List.mem_of_find?_eq_some h)
  refine ⟨List.mem_flatMap.mpr ⟨p, ?_, mem_execs hf hexec⟩, of_decide_eq_true hbase⟩
  split_ifs at hp
  · exact hp
  · exact List.mem_of_mem_take hp

/-- Every path is gone through for a bare name that is an executable. -/
theorem not_namedExec {paths : List PathEntry} (h : firstNamed isExec paths name = none)
    (hreach : paths = [] ∨ isExec name = true) : ¬ ∃ f, NamedExec isExec paths name f := by
  rintro ⟨f, hmem, hbase⟩
  obtain ⟨p, hp, hf⟩ := List.mem_flatMap.mp hmem
  obtain rfl | hexec := hreach
  · exact absurd hp List.not_mem_nil
  · rw [firstNamed, if_pos hexec, List.find?_eq_none] at h
    exact h f (List.mem_flatMap.mpr ⟨p, hp, mem_entries hf⟩) (decide_eq_true hbase)

/-- `run` begins with the case in the field. -/
theorem retestCase_some {st : SearchState} {f : String} (h : st.retestExecFile = some f)
    (hf : f ≠ "") (stored : Option String × Option (List Nat)) :
    ∃ indices, retestCase st stored = some (f, indices) := by
  rw [retestCase, h]
  simp only [if_neg hf]
  split
  · exact ⟨_, rfl⟩
  · exact ⟨_, rfl⟩

theorem retestOutcome_some {paths : List PathEntry} {f : String}
    (h : firstNamed isExec paths name = some f) :
    retestOutcome isExec paths name = if isExec f then some f else none := by
  rw [retestOutcome, h]

theorem retestOutcome_none {paths : List PathEntry} (h : firstNamed isExec paths name = none) :
    retestOutcome isExec paths name =
      if paths = [] ∨ isExec name = true then some name else none := by
  rw [retestOutcome, h]

/-- When there is an executable of the name, the loop leaves one if and only if the first entry that
it looks at is one. -/
theorem outcome_named {paths : List PathEntry} (hex : ∃ f, NamedExec isExec paths name f) :
    (∃ f, NamedExec isExec paths name f ∧ retestOutcome isExec paths name = some f) ↔
      ∃ f, firstNamed isExec paths name = some f ∧ isExec f = true := by
  constructor
  · rintro ⟨f, _, hret⟩
    cases hfirst : firstNamed isExec paths name with
    | some g =>
      rw [retestOutcome_some hfirst] at hret
      split_ifs at hret with hexec
      exact ⟨g, rfl, hexec⟩
    | none =>
      rw [retestOutcome_none hfirst] at hret
      split_ifs at hret with hreach
      exact absurd hex (not_namedExec hfirst hreach)
  · rintro ⟨f, hfirst, hexec⟩
    refine ⟨f, namedExec_of_firstNamed hfirst hexec, ?_⟩
    rw [retestOutcome_some hfirst, if_pos hexec]

/-- When there is none, the name stays if and only if nothing has it and no check gives it up. -/
theorem outcome_unnamed {paths : List PathEntry} (hno : ¬ ∃ f, NamedExec isExec paths name f) :
    retestOutcome isExec paths name = none ↔
      firstNamed isExec paths name ≠ none ∨ (paths ≠ [] ∧ isExec name = false) := by
  cases hfirst : firstNamed isExec paths name with
  | some g =>
    have hexec : ¬ isExec g = true := fun hexec =>
      hno ⟨g, namedExec_of_firstNamed hfirst hexec⟩
    rw [retestOutcome_some hfirst, if_neg hexec]
    exact iff_of_true rfl (Or.inl (Option.some_ne_none g))
  | none =>
    rw [retestOutcome_none hfirst]
    by_cases hreach : paths = [] ∨ isExec name = true
    · rw [if_pos hreach]
      apply iff_of_false (Option.some_ne_none name)
      rintro (hne | ⟨hne, hexec⟩)
      · exact hne rfl
      · obtain hnil | hname := hreach
        · exact hne hnil
        · rw [hexec] at hname
          cases hname
    · rw [if_neg hreach]
      rw [not_or] at hreach
      exact iff_of_true rfl (Or.inr ⟨hreach.1, Bool.eq_false_iff.mpr hreach.2⟩)

end

/-- The case is found when the first entry with its name is an executable, and the entry is under
the first path or the bare name is an executable.  A name that nothing has is given up when there
is a path at all and the bare name is no executable. -/
theorem retest_exact_iff (isExec : String → Bool) (rand : Int → Nat → Nat → Nat)
    (paths : List PathEntry) {name : String} (shuffled : Bool) (seed : Int) (hname : name ≠ "") :
    RetestExact isExec paths name (initTestCases isExec rand ⟨some name, shuffled, seed⟩ paths) ↔
      ((∃ f, NamedExec isExec paths name f) →
        ∃ f, firstNamed isExec paths name = some f ∧ isExec f = true) ∧
      ((¬ ∃ f, NamedExec isExec paths name f) →
        firstNamed isExec paths name ≠ none ∨ (paths ≠ [] ∧ isExec name = false)) := by
  have hout : (initTestCases isExec rand ⟨some name, shuffled, seed⟩ paths).retestExecFile =
      retestOutcome isExec paths name := searchAll_outcome hname ⟨rfl, rfl⟩ paths
  constructor
  · intro h
    refine ⟨fun hex => (outcome_named hex).mp ?_, fun hno => (outcome_unnamed hno).mp ?_⟩
    · obtain ⟨f, hf, hret, _⟩ := h.found hex
      exact ⟨f, hf, hout ▸ hret⟩
    · exact hout ▸ h.missing hno
  · rintro ⟨hnamed, hother⟩
    refine ⟨fun hex => ?_, fun hno => hout.trans ((outcome_unnamed hno).mpr (hother hno))⟩
    obtain ⟨f, hf, hret⟩ := (outcome_named hex).mpr (hnamed hex)
    have hret := hout.trans hret
    exact ⟨f, hf, hret, retestCase_some hret (ne_empty_of_basename hname hf.2)⟩

/-- The files with a full path are executables, and nothing in the working directory is. -/
def isRooted (f : String) : Bool := f.toList.head? = some '/'

def onePath : List PathEntry := [.glob ⟨["/seq1/t1", "/seq1/t2"], by decide⟩]

theorem retest_exact_one_path :
    NamedExec isRooted onePath "t2" "/seq1/t2" ∧
      RetestExact isRooted onePath "t2"
        (initTestCases isRooted (fun _ _ i => i) ⟨some "t2", false, 0⟩ onePath) := by
  have hnamed : NamedExec isRooted onePath "t2" "/seq1/t2" := by
    unfold NamedExec
    decide +kernel
  have hfirst : firstNamed isRooted onePath "t2" = some "/seq1/t2" := by decide +kernel
  exact ⟨hnamed, (retest_exact_iff isRooted _ onePath false 0 (by decide)).mpr
    ⟨fun _ => ⟨_, hfirst, by decide +kernel⟩, fun h => absurd ⟨_, hnamed⟩ h⟩⟩

def twoPaths : List PathEntry :=
  [.glob ⟨["/seq1/t1"], by decide⟩, .glob ⟨["/seq2/t2"], by decide⟩]

/-- The case lives under the second path, and its name is given up behind the first. -/
theorem second_path_missed :
    NamedExec isRooted twoPaths "t2" "/seq2/t2" ∧
      (initTestCases isRooted (fun _ _ i => i) ⟨some "t2", false, 0⟩ twoPaths).retestExecFile =
        none ∧
      ¬ RetestExact isRooted twoPaths "t2"
        (initTestCases isRooted (fun _ _ i => i) ⟨some "t2", false, 0⟩ twoPaths) := by
  have hnamed : NamedExec isRooted twoPaths "t2" "/seq2/t2" := by
    unfold NamedExec
    decide +kernel
  have hnone : (initTestCases isRooted (fun _ _ i => i) ⟨some "t2", false, 0⟩
      twoPaths).retestExecFile = none := by decide +kernel
  refine ⟨hnamed, hnone, fun h => ?_⟩
  obtain ⟨f, _, hf, _⟩ := h.found ⟨_, hnamed⟩
  rw [hnone] at hf
  cases hf

end Executor
end Silhouette
