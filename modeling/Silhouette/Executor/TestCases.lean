import Mathlib.Data.List.Forall2
import Mathlib.Data.List.Perm.Basic
import Silhouette.Lib.Dict

/-!
# The list of test cases

Every guest collects the executables itself and the guests share one index into their
lists.  A directory or a pattern is listed in an arbitrary order, and `_init_test_cases`
sorts by the first number in a file name, so two files of one listing with the same first
number stay in the order of the listing.

`exec_file_list_agrees_iff` says that this is the only way two guests can disagree.
-/

namespace Silhouette
namespace Executor

open Lib
open scoped List

/-! ## Shuffling -/

section Shuffle

variable {α : Type}

def swapAt (xs : List α) (i j : Nat) : List α :=
  match xs[i]?, xs[j]? with
  | some a, some b => (xs.set i b).set j a
  | _, _ => xs

/-- `random.shuffle`: for each position from the last down to the second, swap it with
the position drawn for it. -/
def shuffle (draw : Nat → Nat) (xs : List α) : List α :=
  ((List.range (xs.length - 1)).reverse.map (· + 1)).foldl (fun ys i => swapAt ys i (draw i)) xs

theorem swapAt_swapAt (xs : List α) (i j : Nat) : swapAt (swapAt xs i j) i j = xs := by
  cases hi : xs[i]? with
  | none => simp [swapAt, hi]
  | some a =>
    cases hj : xs[j]? with
    | none => simp [swapAt, hi, hj]
    | some b =>
      obtain ⟨hil, rfl⟩ := List.getElem?_eq_some_iff.mp hi
      obtain ⟨hjl, rfl⟩ := List.getElem?_eq_some_iff.mp hj
      have hswap : swapAt xs i j = (xs.set i xs[j]).set j xs[i] := by simp [swapAt, hi, hj]
      have hi' : ((xs.set i xs[j]).set j xs[i])[i]? = some xs[j] := by
        by_cases hij : j = i
        · subst hij
          simp [hil]
        · rw [List.getElem?_set_ne hij]
          simp [hil]
      have hj' : ((xs.set i xs[j]).set j xs[i])[j]? = some xs[i] := by simp [hjl]
      rw [hswap, swapAt, hi', hj']
      refine List.ext_getElem? (fun n => ?_)
      by_cases hnj : j = n
      · subst hnj
        simp [hjl]
      · rw [List.getElem?_set_ne hnj]
        by_cases hni : i = n
        · subst hni
          simp [hil]
        · rw [List.getElem?_set_ne hni, List.getElem?_set_ne hnj, List.getElem?_set_ne hni]

theorem swapAt_injective {xs ys : List α} {i j : Nat} (h : swapAt xs i j = swapAt ys i j) :
    xs = ys := by
  rw [← swapAt_swapAt xs i j, h, swapAt_swapAt]

/-- Shuffling moves positions, so lists of one length are told apart. -/
theorem shuffle_injective {draw : Nat → Nat} {xs ys : List α} (hlen : xs.length = ys.length)
    (h : shuffle draw xs = shuffle draw ys) : xs = ys := by
  rw [shuffle, shuffle, hlen] at h
  generalize (List.range (ys.length - 1)).reverse.map (· + 1) = positions at h
  clear hlen
  induction positions generalizing xs ys with
  | nil => exact h
  | cons i rest ih => exact swapAt_injective (ih h)

end Shuffle

/-! ## Names -/

/-- The code points of the digit zero in the scripts that have decimal digits; the other
nine follow it. -/
def decimalZeros : List Nat :=
  [0x30, 0x660, 0x6f0, 0x7c0, 0x966, 0x9e6, 0xa66, 0xae6, 0xb66, 0xbe6, 0xc66, 0xce6, 0xd66,
    0xde6, 0xe50, 0xed0, 0xf20, 0x1040, 0x1090, 0x17e0, 0x1810, 0x1946, 0x19d0, 0x1a80, 0x1a90,
    0x1b50, 0x1bb0, 0x1c40, 0x1c50, 0xa620, 0xa8d0, 0xa900, 0xa9d0, 0xa9f0, 0xaa50, 0xabf0,
    0xff10, 0x104a0, 0x10d30, 0x11066, 0x110f0, 0x11136, 0x111d0, 0x112f0, 0x11450, 0x114d0,
    0x11650, 0x116c0, 0x11730, 0x118e0, 0x11950, 0x11c50, 0x11d50, 0x11da0, 0x11f50, 0x16a60,
    0x16ac0, 0x16b50, 0x1d7ce, 0x1d7d8, 0x1d7e2, 0x1d7ec, 0x1d7f6, 0x1e140, 0x1e2f0, 0x1e4f0,
    0x1e950, 0x1fbf0]

def digitValue (c : Char) : Option Nat :=
  (decimalZeros.find? fun z => z ≤ c.toNat && c.toNat < z + 10).map (c.toNat - ·)

def basename (path : String) : String :=
  String.ofList (path.toList.reverse.takeWhile (· ≠ '/')).reverse

/-- The first run of digits in the name, 0 when there is none. -/
def extractFirstInt (fpath : String) : Nat :=
  let digits := ((basename fpath).toList.dropWhile (fun c => (digitValue c).isNone)).takeWhile
    (fun c => (digitValue c).isSome)
  digits.foldl (fun n c => 10 * n + (digitValue c).getD 0) 0

/-! ## Collecting -/

/-- What `glob` returns: every path once, in any order. -/
structure Listing where
  entries : List String
  nodup : entries.Nodup

/-- One element of `EXEC_FILES`: an executable file, or what `glob` finds for a directory
or a pattern. -/
inductive PathEntry
  | file (path : String)
  | glob (listing : Listing)

structure SearchState where
  execFileList : List String
  retestExecFile : Option String
  foundRetestExec : Bool

/-- A case to retest is wanted. -/
def wantsRetest (r : Option String) : Bool := r.getD "" != ""

def SearchState.noteRetest (st : SearchState) (fpath : String) : SearchState :=
  if wantsRetest st.retestExecFile && !st.foundRetestExec &&
      st.retestExecFile == some (basename fpath) then
    { st with retestExecFile := some fpath, foundRetestExec := true }
  else st

section

variable (isExec : String → Bool)

def SearchState.noteExec (st : SearchState) (fpath : String) : SearchState :=
  if isExec fpath then { st with execFileList := st.execFileList ++ [fpath] } else st

/-- Give up the case to retest when it does not name an executable yet. -/
def SearchState.checkRetest (st : SearchState) : SearchState :=
  if wantsRetest st.retestExecFile && !isExec (st.retestExecFile.getD "") then
    { st with retestExecFile := none }
  else st

def SearchState.search (st : SearchState) : PathEntry → SearchState
  | .file path =>
    (SearchState.noteRetest { st with execFileList := st.execFileList ++ [path] } path).checkRetest
      isExec
  | .glob listing =>
    (listing.entries.foldl (fun st fpath => (st.noteExec isExec fpath).noteRetest fpath)
      st).checkRetest isExec

structure TestCaseArgs where
  testCaseBasename : Option String
  shuffleTestCases : Bool
  shuffleSeed : Int

/-- `_init_test_cases`.  `rand seed n i` is the position that a generator with this seed
draws for position `i` of a list of length `n`. -/
def initTestCases (rand : Int → Nat → Nat → Nat) (args : TestCaseArgs) (paths : List PathEntry) :
    SearchState :=
  let st := paths.foldl (SearchState.search isExec) ⟨[], args.testCaseBasename, false⟩
  let sorted := sortBy extractFirstInt st.execFileList
  { st with execFileList :=
      if args.shuffleTestCases then shuffle (rand args.shuffleSeed sorted.length) sorted
      else sorted }

/-- The executables of an element, in the order they are found. -/
def PathEntry.execs : PathEntry → List String
  | .file path => [path]
  | .glob listing => listing.entries.filter isExec

variable {isExec}

@[simp] theorem execFileList_noteRetest (st : SearchState) (fpath : String) :
    (st.noteRetest fpath).execFileList = st.execFileList := by
  rw [SearchState.noteRetest]
  split <;> rfl

@[simp] theorem execFileList_checkRetest (st : SearchState) :
    (st.checkRetest isExec).execFileList = st.execFileList := by
  rw [SearchState.checkRetest]
  split <;> rfl

theorem execFileList_search (st : SearchState) (p : PathEntry) :
    (st.search isExec p).execFileList = st.execFileList ++ p.execs isExec := by
  cases p with
  | file path => simp [SearchState.search, PathEntry.execs]
  | glob listing =>
    rw [SearchState.search, execFileList_checkRetest, PathEntry.execs]
    induction listing.entries generalizing st with
    | nil => simp
    | cons f rest ih =>
      rw [List.foldl_cons, ih, execFileList_noteRetest, SearchState.noteExec]
      by_cases hf : isExec f = true
      · rw [if_pos hf, List.filter_cons_of_pos hf]
        simp
      · rw [if_neg hf, List.filter_cons_of_neg hf]

theorem execFileList_searchAll (paths : List PathEntry) (st : SearchState) :
    (paths.foldl (SearchState.search isExec) st).execFileList =
      st.execFileList ++ paths.flatMap (PathEntry.execs isExec) := by
  induction paths generalizing st with
  | nil => simp
  | cons p rest ih => rw [List.foldl_cons, ih, execFileList_search, List.flatMap_cons,
      List.append_assoc]

/-- The lists of two runs agree exactly when the executables with each first number come
in the same order. -/
theorem execFileList_eq_iff (rand : Int → Nat → Nat → Nat) (args : TestCaseArgs)
    {p q : List PathEntry}
    (hlen : (p.flatMap (PathEntry.execs isExec)).length =
      (q.flatMap (PathEntry.execs isExec)).length) :
    (initTestCases isExec rand args p).execFileList =
        (initTestCases isExec rand args q).execFileList ↔
      ∀ k, (p.flatMap (PathEntry.execs isExec)).filter (fun f => extractFirstInt f = k) =
        (q.flatMap (PathEntry.execs isExec)).filter (fun f => extractFirstInt f = k) := by
  rw [← sortBy_eq_iff]
  have hsorted : (sortBy extractFirstInt (p.flatMap (PathEntry.execs isExec))).length =
      (sortBy extractFirstInt (q.flatMap (PathEntry.execs isExec))).length := by
    rw [(sortBy_perm _ _).length_eq, (sortBy_perm _ _).length_eq, hlen]
  simp only [initTestCases, execFileList_searchAll, List.nil_append]
  by_cases hs : args.shuffleTestCases = true
  · rw [if_pos hs, if_pos hs, hsorted]
    constructor
    · exact shuffle_injective hsorted
    · exact fun h => congrArg _ h
  · rw [if_neg hs, if_neg hs]

end

/-! ## Two enumerations -/

/-- The same file, or the same files in another order. -/
def PathEntry.SameFiles : PathEntry → PathEntry → Prop
  | .file p, .file q => p = q
  | .glob l, .glob m => l.entries ~ m.entries
  | _, _ => False

/-- Two enumerations of the same executables over the same list of paths. -/
def SamePaths : List PathEntry → List PathEntry → Prop := List.Forall₂ PathEntry.SameFiles

/-- No two executables of one listing have the same first number. -/
def NumbersDistinct (isExec : String → Bool) (paths : List PathEntry) : Prop :=
  ∀ l, PathEntry.glob l ∈ paths → ∀ f ∈ l.entries, ∀ g ∈ l.entries, isExec f = true →
    isExec g = true → extractFirstInt f = extractFirstInt g → f = g

def PathEntry.reverse : PathEntry → PathEntry
  | .file p => .file p
  | .glob l => .glob ⟨l.entries.reverse, List.nodup_reverse.mpr l.nodup⟩

section

variable {isExec : String → Bool}

theorem samePaths_map_reverse (paths : List PathEntry) :
    SamePaths paths (paths.map PathEntry.reverse) := by
  rw [SamePaths, List.forall₂_map_right_iff]
  refine List.forall₂_same.mpr (fun p _ => ?_)
  cases p with
  | file path => rfl
  | glob l => exact l.entries.reverse_perm.symm

theorem execs_perm {p q : PathEntry} (h : p.SameFiles q) : p.execs isExec ~ q.execs isExec := by
  cases p with
  | file p =>
    cases q with
    | file q => exact (show p = q from h) ▸ List.Perm.refl _
    | glob m => exact h.elim
  | glob l =>
    cases q with
    | file q => exact h.elim
    | glob m => exact List.Perm.filter _ h

theorem execs_perm_of_samePaths {p q : List PathEntry} (h : SamePaths p q) :
    p.flatMap (PathEntry.execs isExec) ~ q.flatMap (PathEntry.execs isExec) := by
  induction h with
  | nil => exact List.Perm.refl _
  | cons hpq _ ih => exact (execs_perm hpq).append ih

theorem eq_of_perm_of_constant {α : Type} {l m : List α} (hnd : l.Nodup)
    (hc : ∀ x ∈ l, ∀ y ∈ l, x = y) (h : l ~ m) : l = m := by
  cases l with
  | nil => exact h.nil_eq
  | cons a t =>
    have ht : t = [] := by
      refine List.eq_nil_iff_forall_not_mem.mpr (fun b hb => ?_)
      have hab := hc a List.mem_cons_self b (List.mem_cons_of_mem a hb)
      exact (List.nodup_cons.mp hnd).1 (hab ▸ hb)
    subst ht
    exact List.singleton_perm.mp h

/-- Listings without ties leave the order of the listing no room. -/
theorem filter_execs_eq {p q : List PathEntry} (hd : NumbersDistinct isExec p)
    (h : SamePaths p q) (k : Nat) :
    (p.flatMap (PathEntry.execs isExec)).filter (fun f => extractFirstInt f = k) =
      (q.flatMap (PathEntry.execs isExec)).filter (fun f => extractFirstInt f = k) := by
  induction h with
  | nil => rfl
  | @cons a b p q hab _ ih =>
    have hrest : NumbersDistinct isExec p := fun l hl => hd l (List.mem_cons_of_mem _ hl)
    simp only [List.flatMap_cons, List.filter_append, ih hrest]
    refine congrArg (· ++ _) ?_
    cases a with
    | file path =>
      cases b with
      | file path' => rw [show path = path' from hab]
      | glob m => exact hab.elim
    | glob l =>
      cases b with
      | file path' => exact hab.elim
      | glob m =>
        refine eq_of_perm_of_constant ((l.nodup.filter _).filter _) ?_
          ((execs_perm hab).filter _)
        intro f hf g hg
        obtain ⟨hf', hkf⟩ := List.mem_filter.mp hf
        obtain ⟨hg', hkg⟩ := List.mem_filter.mp hg
        obtain ⟨hfl, hfe⟩ := List.mem_filter.mp hf'
        obtain ⟨hgl, hge⟩ := List.mem_filter.mp hg'
        exact hd l List.mem_cons_self f hfl g hgl hfe hge
          ((of_decide_eq_true hkf).trans (of_decide_eq_true hkg).symm)

theorem constant_of_eq_reverse {α : Type} {l : List α} (hnd : l.Nodup) (h : l = l.reverse)
    {x y : α} (hx : x ∈ l) (hy : y ∈ l) : x = y := by
  cases l with
  | nil => exact absurd hx List.not_mem_nil
  | cons a t =>
    have ht : t = [] := by
      rcases List.eq_nil_or_concat t with ht | ⟨u, b, rfl⟩
      · exact ht
      · -- the first element is also the last
        simp only [List.reverse_cons, List.concat_eq_append, List.reverse_append,
          List.reverse_nil, List.nil_append, List.cons_append, List.cons.injEq] at h
        rw [List.concat_eq_append] at hnd
        exact absurd (List.mem_append_right u (h.1 ▸ List.mem_singleton_self b))
          (List.nodup_cons.mp hnd).1
    subst ht
    rw [List.mem_singleton.mp hx, List.mem_singleton.mp hy]

theorem flatMap_inj {α β : Type} {f g : α → List β} {l : List α}
    (hlen : ∀ x ∈ l, (f x).length = (g x).length) (h : l.flatMap f = l.flatMap g) :
    ∀ x ∈ l, f x = g x := by
  induction l with
  | nil => simp
  | cons a rest ih =>
    rw [List.flatMap_cons, List.flatMap_cons] at h
    obtain ⟨ha, hrest⟩ := List.append_inj h (hlen a List.mem_cons_self)
    intro x hx
    rcases List.mem_cons.mp hx with rfl | hx
    · exact ha
    · exact ih (fun y hy => hlen y (List.mem_cons_of_mem a hy)) hrest x hx

theorem execs_reverse (p : PathEntry) :
    p.reverse.execs isExec = (p.execs isExec).reverse := by
  cases p with
  | file path => rfl
  | glob l => simp [PathEntry.reverse, PathEntry.execs, List.filter_reverse]

/-- If turning every listing round changes nothing, no listing has a tie. -/
theorem numbersDistinct_of_reverse {paths : List PathEntry}
    (h : ∀ k, (paths.flatMap (PathEntry.execs isExec)).filter (fun f => extractFirstInt f = k) =
      ((paths.map PathEntry.reverse).flatMap (PathEntry.execs isExec)).filter
        (fun f => extractFirstInt f = k)) :
    NumbersDistinct isExec paths := by
  intro l hl f hf g hg hfe hge hkey
  have hk := h (extractFirstInt f)
  simp only [List.flatMap_map, List.filter_flatMap, execs_reverse, List.filter_reverse] at hk
  have hl' := flatMap_inj (by simp) hk (.glob l) hl
  refine constant_of_eq_reverse ((l.nodup.filter _).filter _) hl' ?_ ?_
  · exact List.mem_filter.mpr ⟨List.mem_filter.mpr ⟨hf, hfe⟩, by simp⟩
  · exact List.mem_filter.mpr ⟨List.mem_filter.mpr ⟨hg, hge⟩, by simp [hkey]⟩

end

/-- Any two enumerations give the same list of test cases exactly when no listing has two
executables with the same first number. -/
theorem exec_file_list_agrees_iff (isExec : String → Bool) (rand : Int → Nat → Nat → Nat)
    (args : TestCaseArgs) (paths : List PathEntry) :
    (∀ p q, SamePaths paths p → SamePaths paths q →
      (initTestCases isExec rand args p).execFileList =
        (initTestCases isExec rand args q).execFileList) ↔
      NumbersDistinct isExec paths := by
  have hsame : SamePaths paths paths := by
    refine List.forall₂_same.mpr (fun p _ => ?_)
    cases p with
    | file path => rfl
    | glob l => exact List.Perm.refl _
  constructor
  · intro h
    have hrev := samePaths_map_reverse paths
    have hlen : (paths.flatMap (PathEntry.execs isExec)).length =
        ((paths.map PathEntry.reverse).flatMap (PathEntry.execs isExec)).length :=
      (execs_perm_of_samePaths hrev).length_eq
    exact numbersDistinct_of_reverse
      ((execFileList_eq_iff rand args hlen).mp (h paths _ hsame hrev))
  · intro hd p q hp hq
    have hlen : (p.flatMap (PathEntry.execs isExec)).length =
        (q.flatMap (PathEntry.execs isExec)).length := by
      rw [← (execs_perm_of_samePaths hp).length_eq, (execs_perm_of_samePaths hq).length_eq]
    refine (execFileList_eq_iff rand args hlen).mpr (fun k => ?_)
    rw [← filter_execs_eq hd hp k, filter_execs_eq hd hq k]

/-- Two files of one directory that start from the same number. -/
def tiedListing : Listing := ⟨["/t/link1", "/t/unlink1"], by decide⟩

/-- The directory listed in both orders gives two lists. -/
theorem exec_file_list_differs_tied :
    (initTestCases (fun _ => true) (fun _ _ i => i) ⟨none, false, 0⟩
        [.glob tiedListing]).execFileList ≠
      (initTestCases (fun _ => true) (fun _ _ i => i) ⟨none, false, 0⟩
        [(PathEntry.glob tiedListing).reverse]).execFileList ∧
    SamePaths [.glob tiedListing] [(PathEntry.glob tiedListing).reverse] :=
  ⟨by decide +kernel, samePaths_map_reverse [.glob tiedListing]⟩

end Executor
end Silhouette
