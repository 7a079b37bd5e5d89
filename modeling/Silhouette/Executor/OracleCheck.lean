import Silhouette.DiskContent.DumpCompare
import Silhouette.Executor.ReportKeys

/-!
# The verdict of the oracles

`check_oracles` compares the state after recovery with the states before and behind the operation.
`diff_ctx` goes through the paths of one state and then through those of the other that it has not
seen; the paths it counts are those of both states in which they differ, whichever comes first.
-/

namespace Silhouette
namespace Executor

open Lib Lib.Text DiskContent

/-- The dump of a state: its lines and its entries. -/
structure FsState where
  text : List Char
  entriesPathMap : Dict (List Char) DiskEntryAttrs

section

variable (order : Finset (List Char) → List (List Char))

/-- What `diffAttrs` prints of a key.  Equal texts end the program. -/
def diffLine (e f : DiskEntryAttrs) (buf key : List Char) : Option (List Char) :=
  let s1 := getVarStr e key
  let s2 := getVarStr f key
  if s1 ≠ s2 then some (buf ++ lit "- " ++ s1 ++ lit "\n" ++ lit "+ " ++ s2 ++ lit "\n") else none

/-- `diffAttrs` with its text; `order` is the order of a set. -/
def diffAttrsStr (e f : DiskEntryAttrs) (attrIgnoreSet : Option (Finset (List Char))) :
    Option (List Char × Nat) :=
  if e.fzset = f.fzset then some ([], 0)
  else do
    let keys := diffKeys e f (attrIgnoreSet.getD ∅)
    let diffBuf := lit "diff: " ++ e.path ++ lit " <-> " ++ f.path ++ lit "\n"
    return (← (order keys).foldlM (diffLine e f) diffBuf, keys.card)

def diffAttrsDxStr (e : DiskEntryAttrs) : List Char × Nat :=
  (lit "diff: " ++ e.path ++ lit " <-> ????\n", e.vars.items.length)

def diffAttrsDxRevsStr (e : DiskEntryAttrs) : List Char × Nat :=
  (lit "diff: ???? <-> " ++ e.path ++ lit "\n", e.vars.items.length)

/-- A path with differences adds its text and counts once. -/
def addDiff (diff x : List Char × Nat) : List Char × Nat :=
  if x.2 > 0 then (diff.1 ++ x.1 ++ lit "\n", diff.2 + 1) else diff

/-- The text and the number of differences of a path of the first map. -/
def diffPathStr (b : Dict (List Char) DiskEntryAttrs)
    (attrIgnoreSet : Option (Finset (List Char))) (x : List Char × DiskEntryAttrs) :
    Option (List Char × Nat) :=
  match b.get? x.1 with
  | some f => diffAttrsStr order x.2 f attrIgnoreSet
  | none => some (diffAttrsDxStr x.2)

/-- `diff_ctx` with its text. -/
def diffCtxStr (a b : Dict (List Char) DiskEntryAttrs)
    (attrIgnoreSet : Option (Finset (List Char))) : Option (List Char × Nat) := do
  let diff ← a.items.foldlM (fun diff x => do
    return addDiff diff (← diffPathStr order b attrIgnoreSet x)) ([], 0)
  return b.items.foldl (fun diff x =>
    if x.1 ∈ a.keys then diff else addDiff diff (diffAttrsDxRevsStr x.2)) diff

/-- The verdict, a message and the text it is told apart by. -/
def checkOracles (recovered prev post : FsState)
    (attrIgnoreSet : Option (Finset (List Char))) :
    Option (ValidateRstType × Option (List Char) × Option (List Char)) := do
  let (prevDiffStr, prevDiffNum) ←
    diffCtxStr order recovered.entriesPathMap prev.entriesPathMap attrIgnoreSet
  let (postDiffStr, postDiffNum) ←
    diffCtxStr order recovered.entriesPathMap post.entriesPathMap attrIgnoreSet
  if prevDiffNum > 0 ∧ postDiffNum > 0 then
    return (.mismatchBothOracle,
      some (lit "compare with prev-op state (- is recovered stat):\n" ++ prevDiffStr ++
        lit "compare with post-op state (- is recovered stat):\n" ++ postDiffStr ++
        lit "\nprev_stat:\n" ++ prev.text ++ lit "\npost_stat:\n" ++ post.text ++
        lit "\nrecovered_stat:\n" ++ recovered.text),
      some (prevDiffStr ++ postDiffStr))
  else if prevDiffNum = 0 then return (.matchPrevOracle, none, none)
  else if postDiffNum = 0 then return (.matchPostOracle, none, none)
  else return (.good, none, none)

end

/-! ## What two states should agree in -/

/-- The same paths, with the same attributes but for the ignored ones. -/
def SameState (ignore : Finset (List Char)) (a b : Dict (List Char) DiskEntryAttrs) : Prop :=
  (∀ path, path ∈ a.keys ↔ path ∈ b.keys) ∧
    ∀ path e f, a.get? path = some e → b.get? path = some f →
      ∀ key ∉ ignore, e.vars.get? key = f.vars.get? key

/-- No entry is without attributes. -/
def HasAttrs (a : Dict (List Char) DiskEntryAttrs) : Prop :=
  ∀ x ∈ a.items, x.2.vars.items ≠ []

/-- The comparison of two states comes to an end, to the same number both ways round, and to none
exactly when the states are the same. -/
def ComparedRight (order : Finset (List Char) → List (List Char))
    (ignore : Option (Finset (List Char))) (a b : Dict (List Char) DiskEntryAttrs) : Prop :=
  ∃ buf buf' n, diffCtxStr order a b ignore = some (buf, n) ∧
    diffCtxStr order b a ignore = some (buf', n) ∧ (n = 0 ↔ SameState (ignore.getD ∅) a b)

/-! ## The paths that are counted -/

section

variable {a b : Dict (List Char) DiskEntryAttrs} {ignore : Finset (List Char)}

/-- The states differ in the path. -/
def pathDiffers (a b : Dict (List Char) DiskEntryAttrs) (ignore : Finset (List Char))
    (path : List Char) : Bool :=
  match a.get? path, b.get? path with
  | some e, some f => diffKeys e f ignore ≠ ∅
  | some e, none => e.vars.items.length > 0
  | none, some f => f.vars.items.length > 0
  | none, none => false

theorem pathDiffers_comm (a b : Dict (List Char) DiskEntryAttrs) (ignore : Finset (List Char)) :
    pathDiffers a b ignore = pathDiffers b a ignore := by
  funext path
  unfold pathDiffers
  cases a.get? path with
  | none =>
    cases b.get? path with
    | none => rfl
    | some f => rfl
  | some e =>
    cases b.get? path with
    | none => rfl
    | some f =>
      show decide (diffKeys e f ignore ≠ ∅) = decide (diffKeys f e ignore ≠ ∅)
      rw [diffKeys_comm]

/-- The paths in which the states differ. -/
def differingPaths (a b : Dict (List Char) DiskEntryAttrs) (ignore : Finset (List Char)) :
    Finset (List Char) :=
  (a.keys.toFinset ∪ b.keys.toFinset).filter fun path => pathDiffers a b ignore path = true

theorem countP_items {κ ν : Type} [DecidableEq κ] (d : Dict κ ν) (p : κ → Bool) :
    d.items.countP (fun x => p x.1) = (d.keys.toFinset.filter fun k => p k = true).card := by
  have hkeys : d.items.countP (fun x => p x.1) = d.keys.countP p := (List.countP_map).symm
  rw [hkeys, List.countP_eq_length_filter, ← List.toFinset_card_of_nodup (d.nodup_keys.filter p),
    List.toFinset_filter]

/-- The count of `diff_ctx` is that of the paths in which the states differ. -/
theorem diffCtx_eq_card (a b : Dict (List Char) DiskEntryAttrs) (ignore : Finset (List Char)) :
    diffCtx a b ignore = some (differingPaths a b ignore).card := by
  have hfirst : a.items.countP (fun x => decide (pathDiffs b ignore x > 0)) =
      a.items.countP fun x => pathDiffers a b ignore x.1 := by
    refine List.countP_congr fun x hx => ?_
    rw [pathDiffs, pathDiffers, Dict.get?_eq_some.mpr hx]
    cases b.get? x.1 with
    | none => rfl
    | some f => simp [Finset.card_pos, Finset.nonempty_iff_ne_empty]
  have hsecond : b.items.countP (fun x => decide (x.1 ∉ a.keys ∧ x.2.vars.items.length > 0)) =
      b.items.countP fun x => decide (x.1 ∉ a.keys) && pathDiffers a b ignore x.1 := by
    refine List.countP_congr fun x hx => ?_
    by_cases hkey : x.1 ∈ a.keys
    · simp [hkey]
    · rw [pathDiffers, Dict.get?_eq_some.mpr hx, Dict.get?_eq_none.mpr hkey]
      simp
  have hsplit : differingPaths a b ignore =
      (a.keys.toFinset.filter fun path => pathDiffers a b ignore path = true) ∪
        b.keys.toFinset.filter
          fun path => (decide (path ∉ a.keys) && pathDiffers a b ignore path) = true := by
    ext path
    simp only [differingPaths, Finset.mem_filter, Finset.mem_union, List.mem_toFinset,
      Bool.and_eq_true, decide_eq_true_eq]
    tauto
  have hdisjoint : Disjoint
      (a.keys.toFinset.filter fun path => pathDiffers a b ignore path = true)
      (b.keys.toFinset.filter
        fun path => (decide (path ∉ a.keys) && pathDiffers a b ignore path) = true) := by
    refine Finset.disjoint_left.mpr fun path ha hb => ?_
    rw [Finset.mem_filter, List.mem_toFinset] at ha
    rw [Finset.mem_filter, Bool.and_eq_true, decide_eq_true_eq] at hb
    exact hb.2.1 ha.1
  rw [diffCtx_eq, hfirst, hsecond, countP_items,
    countP_items b fun path => decide (path ∉ a.keys) && pathDiffers a b ignore path, hsplit,
    Finset.card_union_of_disjoint hdisjoint]

theorem differingPaths_comm (a b : Dict (List Char) DiskEntryAttrs) (ignore : Finset (List Char)) :
    differingPaths a b ignore = differingPaths b a ignore := by
  rw [differingPaths, differingPaths, Finset.union_comm, pathDiffers_comm]

theorem HasAttrs.length_pos (ha : HasAttrs a) {path : List Char} {e : DiskEntryAttrs}
    (he : a.get? path = some e) : e.vars.items.length > 0 :=
  List.length_pos_of_ne_nil (ha _ (Dict.get?_eq_some.mp he))

theorem pathDiffers_eq_false (ha : HasAttrs a) (hb : HasAttrs b) {path : List Char} :
    pathDiffers a b ignore path = false ↔
      (path ∈ a.keys ↔ path ∈ b.keys) ∧ ∀ e f, a.get? path = some e → b.get? path = some f →
        ∀ key ∉ ignore, e.vars.get? key = f.vars.get? key := by
  unfold pathDiffers
  rw [Dict.mem_keys, Dict.mem_keys]
  cases he : a.get? path with
  | none =>
    cases hf : b.get? path with
    | none => simp
    | some f =>
      have hpos := hb.length_pos hf
      simp [hpos]
  | some e =>
    cases hf : b.get? path with
    | none =>
      have hpos := ha.length_pos he
      simp [hpos]
    | some f => simp [diffKeys_eq_empty]

/-- No path is counted exactly when the states are the same. -/
theorem differingPaths_eq_empty (ha : HasAttrs a) (hb : HasAttrs b) :
    differingPaths a b ignore = ∅ ↔ SameState ignore a b := by
  have hall : differingPaths a b ignore = ∅ ↔ ∀ path, pathDiffers a b ignore path = false := by
    rw [differingPaths, Finset.filter_eq_empty_iff]
    refine ⟨fun h path => ?_, fun h path _ => by rw [h path]; exact Bool.false_ne_true⟩
    by_cases hmem : path ∈ a.keys.toFinset ∪ b.keys.toFinset
    · exact Bool.eq_false_of_not_eq_true (h hmem)
    · rw [Finset.mem_union, List.mem_toFinset, List.mem_toFinset, not_or] at hmem
      rw [pathDiffers, Dict.get?_eq_none.mpr hmem.1, Dict.get?_eq_none.mpr hmem.2]
  rw [hall, SameState, ← forall_and]
  exact forall_congr' fun path => pathDiffers_eq_false ha hb

end

/-! ## The texts change nothing -/

section

variable {order : Finset (List Char) → List (List Char)}
  (horder : ∀ set key, key ∈ order set ↔ key ∈ set)
include horder

theorem exists_diffAttrsStr (e f : DiskEntryAttrs) (ignore : Option (Finset (List Char))) :
    ∃ buf, diffAttrsStr order e f ignore = some (buf, (diffKeys e f (ignore.getD ∅)).card) := by
  unfold diffAttrsStr
  by_cases h : e.fzset = f.fzset
  · rw [if_pos h, diffKeys_eq_empty.mpr fun key _ => fzset_eq_iff.mp h key]
    exact ⟨[], rfl⟩
  · rw [if_neg h]
    have hlines : ∀ buf, ∀ key ∈ order (diffKeys e f (ignore.getD ∅)),
        diffLine e f buf key = some (buf ++ lit "- " ++ getVarStr e key ++ lit "\n" ++ lit "+ " ++
          getVarStr f key ++ lit "\n") :=
      fun buf key hkey => if_pos (getVarStr_ne ((horder _ _).mp hkey))
    simp only [foldlM_eq_some hlines]
    exact ⟨_, rfl⟩

theorem exists_diffPathStr (b : Dict (List Char) DiskEntryAttrs)
    (ignore : Option (Finset (List Char))) (x : List Char × DiskEntryAttrs) :
    ∃ buf, diffPathStr order b ignore x = some (buf, pathDiffs b (ignore.getD ∅) x) := by
  unfold diffPathStr pathDiffs
  cases b.get? x.1 with
  | none => exact ⟨_, rfl⟩
  | some f => exact exists_diffAttrsStr horder x.2 f ignore

omit horder in
theorem addDiff_snd (diff x : List Char × Nat) :
    (addDiff diff x).2 = if x.2 > 0 then diff.2 + 1 else diff.2 := by
  unfold addDiff
  split_ifs <;> rfl

/-- The number is that of the model without texts. -/
theorem diffCtxStr_snd (a b : Dict (List Char) DiskEntryAttrs)
    (ignore : Option (Finset (List Char))) :
    (diffCtxStr order a b ignore).map Prod.snd = diffCtx a b (ignore.getD ∅) := by
  choose buf hbuf using exists_diffPathStr horder b ignore
  have hstr : ∀ diff : List Char × Nat, ∀ x ∈ a.items,
      (do return addDiff diff (← diffPathStr order b ignore x)) =
        some (addDiff diff (buf x, pathDiffs b (ignore.getD ∅) x)) := by
    intro diff x _
    rw [hbuf]
    rfl
  have hnum : ∀ n : Nat, ∀ x ∈ a.items,
      (do return if (← diffPath b (ignore.getD ∅) x) > 0 then n + 1 else n) =
        some (if pathDiffs b (ignore.getD ∅) x > 0 then n + 1 else n) := by
    intro n x _
    rw [diffPath_eq]
    rfl
  have hfirst : 0 + (a.items.foldl
      (fun diff x => addDiff diff (buf x, pathDiffs b (ignore.getD ∅) x)) ([], 0)).2 =
      a.items.foldl (fun n x => if pathDiffs b (ignore.getD ∅) x > 0 then n + 1 else n) 0 := by
    rw [Nat.zero_add]
    refine (List.foldl_hom Prod.snd fun diff x => ?_).symm
    exact (addDiff_snd diff (buf x, _)).symm
  have hsecond : ∀ diff : List Char × Nat, (b.items.foldl (fun diff x =>
      if x.1 ∈ a.keys then diff else addDiff diff (diffAttrsDxRevsStr x.2)) diff).2 =
      b.items.foldl (fun n x =>
        if x.1 ∈ a.keys then n else if x.2.vars.items.length > 0 then n + 1 else n) diff.2 := by
    intro diff
    refine (List.foldl_hom Prod.snd fun diff x => ?_).symm
    by_cases hkey : x.1 ∈ a.keys
    · rw [if_pos hkey, if_pos hkey]
    · rw [if_neg hkey, if_neg hkey, addDiff_snd]
      rfl
  rw [diffCtxStr, diffCtx, foldlM_eq_some hstr, foldlM_eq_some hnum, ← hfirst, Nat.zero_add]
  exact congrArg some (hsecond _)

/-- Two states are compared to the number of paths in which they differ. -/
theorem exists_diffCtxStr (a b : Dict (List Char) DiskEntryAttrs)
    (ignore : Option (Finset (List Char))) :
    ∃ buf, diffCtxStr order a b ignore = some (buf, (differingPaths a b (ignore.getD ∅)).card) := by
  have hnum := diffCtxStr_snd horder a b ignore
  rw [diffCtx_eq_card] at hnum
  obtain ⟨⟨buf, n⟩, hstr, hn⟩ := Option.map_eq_some_iff.mp hnum
  exact ⟨buf, by rw [hstr, ← hn]⟩

theorem comparedRight {a b : Dict (List Char) DiskEntryAttrs} (ha : HasAttrs a) (hb : HasAttrs b)
    (ignore : Option (Finset (List Char))) : ComparedRight order ignore a b := by
  obtain ⟨buf, hbuf⟩ := exists_diffCtxStr horder a b ignore
  obtain ⟨buf', hbuf'⟩ := exists_diffCtxStr horder b a ignore
  rw [differingPaths_comm] at hbuf'
  exact ⟨buf, buf', _, hbuf, hbuf', Finset.card_eq_zero.trans (differingPaths_eq_empty ha hb)⟩

end

/-- The comparisons are right, and the verdict is a mismatch exactly when the recovered state is
neither of the other two; it is never `GOOD`. -/
theorem oracle_verdict {order : Finset (List Char) → List (List Char)}
    (horder : ∀ set key, key ∈ order set ↔ key ∈ set) {recovered prev post : FsState}
    (hrec : HasAttrs recovered.entriesPathMap) (hprev : HasAttrs prev.entriesPathMap)
    (hpost : HasAttrs post.entriesPathMap) (ignore : Option (Finset (List Char))) :
    ComparedRight order ignore recovered.entriesPathMap prev.entriesPathMap ∧
    ComparedRight order ignore recovered.entriesPathMap post.entriesPathMap ∧
    ∃ rst msg existing, checkOracles order recovered prev post ignore = some (rst, msg, existing) ∧
      rst ≠ .good ∧
      (rst = .mismatchBothOracle ↔
        ¬ SameState (ignore.getD ∅) recovered.entriesPathMap prev.entriesPathMap ∧
          ¬ SameState (ignore.getD ∅) recovered.entriesPathMap post.entriesPathMap) := by
  have hprev' := comparedRight horder hrec hprev ignore
  have hpost' := comparedRight horder hrec hpost ignore
  refine ⟨hprev', hpost', ?_⟩
  obtain ⟨bufPrev, -, m, hm, -, hmzero⟩ := hprev'
  obtain ⟨bufPost, -, n, hn, -, hnzero⟩ := hpost'
  rw [← hmzero, ← hnzero, checkOracles, hm, hn]
  simp only [Option.bind_eq_bind, Option.bind_some, Option.pure_def]
  by_cases hboth : m > 0 ∧ n > 0
  · rw [if_pos hboth]
    exact ⟨_, _, _, rfl, by decide, fun _ => by omega, fun _ => rfl⟩
  rw [if_neg hboth]
  by_cases hm0 : m = 0
  · rw [if_pos hm0]
    exact ⟨_, _, _, rfl, by decide, fun h => absurd h (by decide), fun h => absurd hm0 h.1⟩
  · -- one of the two numbers is none
    have hn0 : n = 0 := by omega
    rw [if_neg hm0, if_pos hn0]
    exact ⟨_, _, _, rfl, by decide, fun h => absurd h (by decide), fun h => absurd hn0 h.2⟩

def inodeEntry (ino : String) : DiskEntryAttrs :=
  ⟨Dict.empty.set (lit "File_Inode") (lit ino), 1, lit "/mnt/a"⟩

/-- A state with one file. -/
def inodeState (ino : String) : FsState := ⟨[], Dict.empty.set (lit "/mnt/a") (inodeEntry ino)⟩

theorem hasAttrs_inodeState (ino : String) : HasAttrs (inodeState ino).entriesPathMap := by
  intro x hx
  rw [List.mem_singleton.mp hx]
  exact List.cons_ne_nil _ _

theorem not_sameState_inode {ino ino' : String} (h : lit ino ≠ lit ino') :
    ¬ SameState ∅ (inodeState ino).entriesPathMap (inodeState ino').entriesPathMap := by
  intro hsame
  have hget : ∀ i, (inodeState i).entriesPathMap.get? (lit "/mnt/a") = some (inodeEntry i) :=
    fun i => rfl
  have := hsame.2 _ _ _ (hget ino) (hget ino') (lit "File_Inode") (Finset.notMem_empty _)
  exact h (Option.some.inj this)

/-- A recovered file with an inode of its own is neither the old nor the new one. -/
theorem oracle_verdict_third_inode : ∃ msg existing,
    checkOracles Finset.toList (inodeState "1") (inodeState "2") (inodeState "3") none =
      some (.mismatchBothOracle, msg, existing) := by
  obtain ⟨-, -, rst, msg, existing, hrst, -, hboth⟩ :=
    oracle_verdict (fun set key => Finset.mem_toList) (hasAttrs_inodeState "1")
      (hasAttrs_inodeState "2") (hasAttrs_inodeState "3") none
  refine ⟨msg, existing, ?_⟩
  rw [hrst, hboth.mpr ⟨not_sameState_inode (by decide), not_sameState_inode (by decide)⟩]

end Executor
end Silhouette
