import Silhouette.Executor.OracleCheck

/-!
# What an operation means

`check_fs_semantic` looks at the states before and behind an operation and not at the recovered one,
so what it finds is found again for every crash plan of the operation.  A key for each kind of
finding is to keep it from that.

Two of the tests of a new directory read `not found and a or b`.  The key guards the first of their
comparisons only.
-/

namespace Silhouette
namespace Executor

open Lib Lib.Text DiskContent

/-- The findings that are kept from being made twice. -/
def ValidateRstType.guardedSemanticBug (t : ValidateRstType) : Bool :=
  t ∈ [semanticBugDiffDinoStino, semanticBugDuplicateIno, semanticBugDiffDotIno,
    semanticBugDiffDotdotIno, semanticBugFileSizeAfterAppend, semanticBugFileSizeAfterWrite]

/-- `str` of an entry. -/
def entryStr (e : DiskEntryAttrs) : List Char :=
  lit "ID: " ++ decimalInt e.id ++ lit "\nPath: " ++ e.path ++ lit "\n" ++
    e.vars.items.flatMap fun x => x.1 ++ lit " : " ++ x.2 ++ lit "\n"

/-- The entry of a path with its `Dir_Inode` and its `File_Inode`. -/
def inodes (m : Dict (List Char) DiskEntryAttrs) (path : List Char) :
    Option (DiskEntryAttrs × List Char × List Char) := do
  let e ← m.get? path
  return (e, ← e.vars.get? (lit "Dir_Inode"), ← e.vars.get? (lit "File_Inode"))

/-- The loop for another path with an inode number. -/
def duplicateIno (fpath stIno : List Char) :
    List (List Char × DiskEntryAttrs) → Option (Option DiskEntryAttrs)
  | [] => some none
  | (chkpath, attrs) :: rest =>
    if chkpath = fpath then duplicateIno fpath stIno rest
    else do
      let _ ← attrs.vars.get? (lit "Dir_Inode")
      let chkStIno ← attrs.vars.get? (lit "File_Inode")
      if stIno = chkStIno then return some attrs else duplicateIno fpath stIno rest

/-- `path[:path.rfind('/')] + '/.'`; without a slash the last character is cut off. -/
def parentPath (dpath : List Char) : List Char :=
  (if '/' ∈ dpath then (dpath.rdropWhile fun c => c ≠ '/').dropLast else dpath.dropLast) ++ lit "/."

section

variable (found : ValidateRstType → Bool) (prev post : CtxFileReader)

def checkCreate : Option (ValidateRstType × Option (List Char)) := do
  let fpath ← post.fsOp.filePath
  let (attrs, _, fpathStIno) ← inodes post.entriesPathMap fpath
  if !found .semanticBugDuplicateIno then
    match ← duplicateIno fpath fpathStIno prev.entriesPathMap.items with
    | some other =>
      return (.semanticBugDuplicateIno,
        some (lit "a newly created file has a duplicate ino with prev-op file:\nprev attrs:\n" ++
          entryStr other ++ lit "\nthis attrs:\n" ++ entryStr attrs))
    | none =>
      match ← duplicateIno fpath fpathStIno post.entriesPathMap.items with
      | some other =>
        return (.semanticBugDuplicateIno,
          some (lit "a newly created file has a duplicate ino with post-op file:\npost attrs:\n" ++
            entryStr other ++ lit "\nthis attrs:\n" ++ entryStr attrs))
      | none => return (.good, none)
  else return (.good, none)

/-- `dir_path.rstrip('/')` -/
def dirPathOf : Option (List Char) := post.fsOp.dirPath.map fun path => path.rdropWhile (· = '/')

def checkMkdir : Option (ValidateRstType × Option (List Char)) := do
  let dpath ← dirPathOf post
  let (dir, dpathDIno, dpathStIno) ← inodes post.entriesPathMap dpath
  if !found .semanticBugDiffDinoStino && dpathDIno ≠ dpathStIno then
    return (.semanticBugDiffDinoStino,
      some (lit "d_ino and st_ino are not the same for a newly created dir:\n" ++ entryStr dir))
  let (dot, dotpathDIno, dotpathStIno) ← inodes post.entriesPathMap (dpath ++ lit "/.")
  -- the key does not guard the second comparison
  if !found .semanticBugDiffDotIno && dotpathDIno ≠ dotpathStIno || dotpathStIno ≠ dpathDIno then
    return (.semanticBugDiffDotIno,
      some (lit "dir and . have different ino for a newly created dir:\ndir attrs:\n" ++
        entryStr dir ++ lit "\ndir's . attrs\n" ++ entryStr dot))
  let (dotdot, dotdotDIno, dotdotStIno) ← inodes post.entriesPathMap (dpath ++ lit "/..")
  let (parent, parentDIno, parentStIno) ← inodes post.entriesPathMap (parentPath dpath)
  -- nor here the second and the third
  if !found .semanticBugDiffDotdotIno && dotdotDIno ≠ dotdotStIno || dotdotDIno ≠ parentDIno ||
      dotdotDIno ≠ parentStIno then
    return (.semanticBugDiffDotdotIno,
      some (lit "parent's . and dir's .. have different ino for a newly created dir:\ndir's .. attrs:\n" ++
        entryStr dotdot ++ lit "\nparent's . attrs\n" ++ entryStr parent))
  return (.good, none)

def checkAppend : Option (ValidateRstType × Option (List Char)) := do
  if !found .semanticBugFileSizeAfterAppend then
    let fpath ← post.fsOp.filePath
    let wrSize ← post.fsOp.writeSize
    let prevAttrs ← prev.entriesPathMap.get? fpath
    let prevSize ← (← prevAttrs.vars.get? (lit "File_TotalSize")) |> readInt
    let postAttrs ← post.entriesPathMap.get? fpath
    let postSize ← (← postAttrs.vars.get? (lit "File_TotalSize")) |> readInt
    if prevSize + wrSize ≠ postSize then
      return (.semanticBugFileSizeAfterAppend,
        some (lit "incorrect file size after append, append size: " ++ decimalInt wrSize ++
          lit " bytes:\nprev attrs:\n" ++ entryStr prevAttrs ++ lit "\npost attrs:\n" ++
          entryStr postAttrs))
    else return (.good, none)
  else return (.good, none)

def checkWrite : Option (ValidateRstType × Option (List Char)) := do
  if !found .semanticBugFileSizeAfterWrite then
    let fpath ← post.fsOp.filePath
    let wrSize ← post.fsOp.writeSize
    let wrOff ← post.fsOp.writeOffset
    let postAttrs ← post.entriesPathMap.get? fpath
    let postSize ← (← postAttrs.vars.get? (lit "File_TotalSize")) |> readInt
    if postSize < wrOff + wrSize then
      -- the message asks for the file before the write
      let prevAttrs ← prev.entriesPathMap.get? fpath
      return (.semanticBugFileSizeAfterWrite,
        some (lit "incorrect file size after write, write offset: " ++ decimalInt wrOff ++
          lit ", write size: " ++ decimalInt wrSize ++ lit " bytes:\nprev attrs:\n" ++
          entryStr prevAttrs ++ lit "\npost attrs:\n" ++ entryStr postAttrs))
    else return (.good, none)
  else return (.good, none)

variable (order : Finset (List Char) → List (List Char))
  (attrIgnoreSet : Option (Finset (List Char)))

def checkUmount : Option (ValidateRstType × Option (List Char)) := do
  let (diffStr, diffNum) ← diffCtxStr order prev.entriesPathMap post.entriesPathMap attrIgnoreSet
  if diffNum ≠ 0 then
    return (.semanticBugDiffStateBeforeAndAfterUmount,
      some (lit "the file-system states before and after umount are different " ++
        lit "(- represent the prev-op state):\n" ++ diffStr ++ lit "\n"))
  else return (.good, none)

/-- `found` is `found_key_exist` with an empty suffix. -/
def checkFsSemantic : Option (ValidateRstType × Option (List Char)) :=
  match post.fsOp.type with
  | .create => checkCreate found prev post
  | .mkdir => checkMkdir found post
  | .append => checkAppend found prev post
  | .write => checkWrite found prev post
  | .umount => checkUmount prev post order attrIgnoreSet
  | .unlink | .rmdir | .link | .symlink | .rename | .truncate | .fallocate | .unknown =>
    some (.good, none)

end

/-! ## Findings that are known -/

/-- What memcached has of the findings. -/
def recorded {ι κ : Type} (py : PyRuntime κ) (seed : ι → κ) (s : ReportState ι) (p : ι)
    (tp : ValidateRstType) : Bool := foundKeyExist py seed s p tp ""

/-- In a test of a new directory that is reached and whose key is recorded, the comparisons that the
key does not guard find no difference. -/
structure DirCovered (found : ValidateRstType → Bool) (post : CtxFileReader) : Prop where
  dot : ∀ dpath dir dot, dirPathOf post = some dpath → inodes post.entriesPathMap dpath = some dir →
    inodes post.entriesPathMap (dpath ++ lit "/.") = some dot →
    (found .semanticBugDiffDinoStino = true ∨ dir.2.1 = dir.2.2) →
    found .semanticBugDiffDotIno = true → dot.2.2 = dir.2.1
  dotdot : ∀ dpath dir dot dotdot parent, dirPathOf post = some dpath →
    inodes post.entriesPathMap dpath = some dir →
    inodes post.entriesPathMap (dpath ++ lit "/.") = some dot →
    inodes post.entriesPathMap (dpath ++ lit "/..") = some dotdot →
    inodes post.entriesPathMap (parentPath dpath) = some parent →
    (found .semanticBugDiffDinoStino = true ∨ dir.2.1 = dir.2.2) →
    (found .semanticBugDiffDotIno = true ∨ dot.2.1 = dot.2.2) → dot.2.2 = dir.2.1 →
    found .semanticBugDiffDotdotIno = true → dotdot.2.1 = parent.2.1 ∧ dotdot.2.1 = parent.2.2

section

variable {found : ValidateRstType → Bool} {prev post : CtxFileReader}

/-- Nothing that is recorded is found again. -/
def FindsNew (found : ValidateRstType → Bool)
    (r : Option (ValidateRstType × Option (List Char))) : Prop :=
  ∀ rst msg, r = some (rst, msg) → rst.guardedSemanticBug = true → found rst = false

theorem findsNew_none : FindsNew found none := fun _ _ h => by cases h

theorem findsNew_good : FindsNew found (some (.good, none)) := by
  intro rst msg h hbug
  rw [← (Prod.mk.inj (Option.some.inj h)).1] at hbug
  exact absurd hbug (by decide)

theorem findsNew_some {tp : ValidateRstType} {msg : Option (List Char)}
    (htp : tp.guardedSemanticBug = true) : FindsNew found (some (tp, msg)) ↔ found tp = false := by
  refine ⟨fun h => h tp msg rfl htp, fun h rst msg' heq _ => ?_⟩
  rw [← (Prod.mk.inj (Option.some.inj heq)).1]
  exact h

theorem findsNew_bind {α : Type} {x : Option α}
    {f : α → Option (ValidateRstType × Option (List Char))} :
    FindsNew found (x.bind f) ↔ ∀ a, x = some a → FindsNew found (f a) := by
  cases x with
  | none => exact ⟨fun _ a h => absurd h (Option.some_ne_none a).symm, fun _ => findsNew_none⟩
  | some a => exact ⟨fun h b hb => Option.some.inj hb ▸ h, fun h => h a rfl⟩

/-- A test that is left with a finding, or goes on. -/
theorem findsNew_test {c : Prop} [Decidable c] {tp : ValidateRstType} {msg : Option (List Char)}
    (htp : tp.guardedSemanticBug = true) {r : Option (ValidateRstType × Option (List Char))} :
    FindsNew found (if c then some (tp, msg) else r) ↔
      (c → found tp = false) ∧ (¬ c → FindsNew found r) := by
  by_cases h : c
  · rw [if_pos h, findsNew_some htp]
    exact ⟨fun hn => ⟨fun _ => hn, fun hc => absurd h hc⟩, fun hn => hn.1 h⟩
  · rw [if_neg h]
    exact ⟨fun hn => ⟨fun hc => absurd hc h, fun _ => hn⟩, fun hn => hn.2 h⟩

theorem findsNew_create : FindsNew found (checkCreate found prev post) := by
  unfold checkCreate
  simp only [Option.bind_eq_bind, Option.pure_def]
  refine findsNew_bind.mpr fun fpath _ => findsNew_bind.mpr fun x _ => ?_
  split_ifs with hkey
  · have hnew : found .semanticBugDuplicateIno = false := by simpa using hkey
    refine findsNew_bind.mpr fun other _ => ?_
    cases other with
    | some other => exact (findsNew_some rfl).mpr hnew
    | none =>
      refine findsNew_bind.mpr fun other _ => ?_
      cases other with
      | some other => exact (findsNew_some rfl).mpr hnew
      | none => exact findsNew_good
  · exact findsNew_good

theorem findsNew_append : FindsNew found (checkAppend found prev post) := by
  unfold checkAppend
  simp only [Option.bind_eq_bind, Option.pure_def]
  split_ifs with hkey
  · have hnew : found .semanticBugFileSizeAfterAppend = false := by simpa using hkey
    simp only [findsNew_bind]
    intro fpath _ wrSize _ e _ size _ prevSize _ f _ size' _ postSize _
    split_ifs
    · exact (findsNew_some rfl).mpr hnew
    · exact findsNew_good
  · exact findsNew_good

theorem findsNew_write : FindsNew found (checkWrite found prev post) := by
  unfold checkWrite
  simp only [Option.bind_eq_bind, Option.pure_def]
  split_ifs with hkey
  · have hnew : found .semanticBugFileSizeAfterWrite = false := by simpa using hkey
    simp only [findsNew_bind]
    intro fpath _ wrSize _ wrOff _ f _ size _ postSize _
    split_ifs
    · exact findsNew_bind.mpr fun e _ => (findsNew_some rfl).mpr hnew
    · exact findsNew_good
  · exact findsNew_good

theorem findsNew_umount {order : Finset (List Char) → List (List Char)}
    {ignore : Option (Finset (List Char))} :
    FindsNew found (checkUmount prev post order ignore) := by
  unfold checkUmount
  simp only [Option.bind_eq_bind, Option.pure_def]
  refine findsNew_bind.mpr fun diff _ => ?_
  split_ifs
  · -- this finding has no key
    intro rst msg h hbug
    rw [← (Prod.mk.inj (Option.some.inj h)).1] at hbug
    exact absurd hbug (by decide)
  · exact findsNew_good

/-- A comparison that its key guards lets the check go on. -/
theorem guarded_iff {known : Bool} {x y : List Char} :
    ¬ (!known && decide (x ≠ y)) = true ↔ known = true ∨ x = y := by
  cases known with
  | true => simp
  | false => simp

theorem findsNew_mkdir : FindsNew found (checkMkdir found post) ↔ DirCovered found post := by
  unfold checkMkdir
  simp (disch := decide) only [Option.bind_eq_bind, Option.pure_def, findsNew_bind, findsNew_test,
    guarded_iff, Bool.or_eq_true, not_or, decide_eq_true_eq, not_not]
  constructor
  · intro h
    refine ⟨fun dpath dir dot hpath hdir hdot hreach hkey => ?_, ?_⟩
    · obtain ⟨hfound, -⟩ := (h dpath hpath dir hdir).2 hreach dot hdot
      by_contra hne
      rw [hfound (Or.inr hne)] at hkey
      cases hkey
    · intro dpath dir dot dotdot parent hpath hdir hdot hdotdot hparent hreach hreach' hsame hkey
      obtain ⟨-, hlast⟩ := (h dpath hpath dir hdir).2 hreach dot hdot
      obtain ⟨hfound, -⟩ := hlast ⟨hreach', hsame⟩ dotdot hdotdot parent hparent
      by_contra hne
      rw [hfound ?_] at hkey
      · cases hkey
      · rcases not_and_or.mp hne with hne | hne
        · exact Or.inl (Or.inr hne)
        · exact Or.inr hne
  · intro h dpath hpath dir hdir
    refine ⟨fun hc => by simpa using (Bool.and_eq_true_iff.mp hc).1, fun hreach dot hdot => ?_⟩
    refine ⟨fun hc => ?_, fun hreach' dotdot hdotdot parent hparent => ⟨fun hc => ?_,
      fun _ => findsNew_good⟩⟩
    · rcases hc with hc | hne
      · simpa using (Bool.and_eq_true_iff.mp hc).1
      · by_contra hkey
        exact hne (h.dot dpath dir dot hpath hdir hdot hreach (by simpa using hkey))
    · by_contra hkey
      have hknown : found .semanticBugDiffDotdotIno = true := by simpa using hkey
      obtain ⟨h₁, h₂⟩ := h.dotdot dpath dir dot dotdot parent hpath hdir hdot hdotdot hparent hreach
        hreach'.1 hreach'.2 hknown
      rcases hc with (hc | hne) | hne
      · rw [hknown] at hc
        cases hc
      · exact hne h₁
      · exact hne h₂

end

/-- A check finds nothing again that is recorded exactly when, for a new directory, the comparisons
that a recorded key does not guard find nothing. -/
theorem fs_semantic_finds_new_iff {ι κ : Type} {py : PyRuntime κ} {seed : ι → κ}
    {s : ReportState ι} {p : ι} {prev post : CtxFileReader}
    {order : Finset (List Char) → List (List Char)} {ignore : Option (Finset (List Char))} :
    (∀ rst msg, checkFsSemantic (recorded py seed s p) prev post order ignore = some (rst, msg) →
        rst.guardedSemanticBug = true → recorded py seed s p rst = false) ↔
      (post.fsOp.type = .mkdir → DirCovered (recorded py seed s p) post) := by
  show FindsNew _ _ ↔ _
  unfold checkFsSemantic
  cases htype : post.fsOp.type with
  | create => exact iff_of_true findsNew_create fun h => nomatch h
  | mkdir => exact ⟨fun h _ => findsNew_mkdir.mp h, fun h => findsNew_mkdir.mpr (h rfl)⟩
  | append => exact iff_of_true findsNew_append fun h => nomatch h
  | write => exact iff_of_true findsNew_write fun h => nomatch h
  | umount => exact iff_of_true findsNew_umount fun h => nomatch h
  | unlink | rmdir | link | symlink | rename | truncate | fallocate | unknown =>
    exact iff_of_true findsNew_good fun h => nomatch h

def dirEntry (path ino : String) : DiskEntryAttrs :=
  ⟨(Dict.empty.set (lit "Dir_Inode") (lit ino)).set (lit "File_Inode") (lit ino), 1, lit path⟩

/-- A new directory whose `.` has the inode of another. -/
def strayDot : CtxFileReader where
  hasErrMsg := false
  opComment := some (lit "mkdir /mnt/d")
  fsOp := { type := .mkdir, dirPath := some (lit "/mnt/d") }
  entry := none
  entries := [dirEntry "/mnt/." "1", dirEntry "/mnt/d" "2", dirEntry "/mnt/d/." "3",
    dirEntry "/mnt/d/.." "1"]

def lengthHash : PyRuntime Unit := ⟨fun _ text => text.length, fun _ _ => ""⟩

/-- The finding is recorded. -/
def dotRecorded : ReportState Unit :=
  { hashKeys := [foundHashKey lengthHash () .semanticBugDiffDotIno ""]
    counts := fun _ => 0
    records := []
    phase := fun _ => .idle
    handled := []
    reported := []
    inserted := [(.semanticBugDiffDotIno, "")] }

/-- It is found again. -/
theorem fs_semantic_finds_dot_again :
    recorded lengthHash id dotRecorded () .semanticBugDiffDotIno = true ∧
      (checkFsSemantic (recorded lengthHash id dotRecorded ()) CtxFileReader.new strayDot
        Finset.toList none).map Prod.fst = some .semanticBugDiffDotIno ∧
      ¬ ∀ rst msg, checkFsSemantic (recorded lengthHash id dotRecorded ()) CtxFileReader.new
          strayDot Finset.toList none = some (rst, msg) →
        rst.guardedSemanticBug = true → recorded lengthHash id dotRecorded () rst = false := by
  have hrec : recorded lengthHash id dotRecorded () .semanticBugDiffDotIno = true := by
    decide +kernel
  have hfind : (checkFsSemantic (recorded lengthHash id dotRecorded ()) CtxFileReader.new strayDot
      Finset.toList none).map Prod.fst = some .semanticBugDiffDotIno := by
    show (checkMkdir (recorded lengthHash id dotRecorded ()) strayDot).map Prod.fst = _
    decide +kernel
  refine ⟨hrec, hfind, fun h => ?_⟩
  obtain ⟨⟨rst, msg⟩, heq, hrst⟩ := Option.map_eq_some_iff.mp hfind
  have hnew := h rst msg heq (by rw [show rst = _ from hrst]; rfl)
  rw [show rst = _ from hrst, hrec] at hnew
  cases hnew

end Executor
end Silhouette
