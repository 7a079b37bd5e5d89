import Silhouette.DiskContent.Dump

/-!
# Going through a file system

`DiskContents::get_contents` goes through the directories below a mount point and files the
attributes of every path.  The counter that is to bound the depth of the recursion is a member of
the object and is never taken down again, so it counts the directories: `contents_exact_iff`.
-/

namespace Silhouette
namespace DiskContent

open Lib Lib.Text

/-- `d_type`, which a file system may leave unknown. -/
inductive DType where
  | dir
  | lnk
  | reg
  | other
  deriving DecidableEq, Repr

/-- What `stat` fills in. -/
structure StatAttr where
  stIno : Nat
  stSize : Int
  stBlksize : Int
  stBlocks : Int
  stNlink : Nat
  stMode : Nat
  stUid : Nat
  stGid : Nat
  stRdev : Nat
  stDev : Nat

/-- The errors of `opendir` and of the first `readdir`. -/
structure DirCalls where
  opendir : Option (List Char) := none
  readdir : Option (List Char) := none

/-- An entry of a directory, and what the system calls for its path return. -/
structure DirEntry where
  dName : List Char
  dIno : Nat
  dOff : Int
  dReclen : Nat
  dType : DType
  dTypeByte : UInt8
  stat : Option StatAttr
  lstat : Except (List Char) StatAttr
  md5 : List Char
  calls : DirCalls := {}

/-- What `readdir` still returns: an entry, with what is in it, and the rest. -/
inductive Dir where
  | done
  | entry (e : DirEntry) (inside rest : Dir)

namespace FileAttributes

def setDirAttr (fa : FileAttributes) (e : DirEntry) : FileAttributes :=
  { fa with dName := e.dName, dIno := e.dIno, dOff := e.dOff, dReclen := e.dReclen,
            dType := e.dTypeByte }

/-- A failed call leaves the attributes as they are. -/
def setStatAttr (fa : FileAttributes) : Option StatAttr → FileAttributes
  | none => fa
  | some st =>
    { fa with stIno := st.stIno, stSize := st.stSize, stBlksize := st.stBlksize,
              stBlocks := st.stBlocks, stNlink := st.stNlink, stMode := st.stMode,
              stUid := st.stUid, stGid := st.stGid, stRdev := st.stRdev, stDev := st.stDev }

end FileAttributes

/-- The fields of the object that change. -/
structure ContentsState where
  maxDepth : Nat
  errMsg : List Char
  contents : Dict (List Char) FileAttributes

def errorLine (call path err : List Char) : List Char :=
  call ++ (path ++ (lit " error: " ++ (err ++ ['\n'])))

/-- `reset`, which asks whether there are messages and does not take them away. -/
def ContentsState.reset (s : ContentsState) : ContentsState :=
  { s with maxDepth := 0, contents := Dict.empty }

section

variable (fresh : FileAttributes)

/-- The attributes that are filed for an entry, given those of a new object, and the message. -/
def entryAttributes (path : List Char) (e : DirEntry) : FileAttributes × List Char :=
  match e.dType with
  | .dir => ((fresh.setDirAttr e).setStatAttr e.stat, [])
  | .lnk =>
    match e.lstat with
    | .error err =>
      ({ fresh with errMsg := fresh.errMsg ++ errorLine (lit "lstat error") path err },
        errorLine (lit "lstat error") path err)
    | .ok st => (fresh.setStatAttr (some st), [])
  | .reg => ({ fresh.setStatAttr e.stat with md5sum := e.md5 }, [])
  | .other => (fresh.setStatAttr e.stat, [])

def ContentsState.file (s : ContentsState) (path : List Char) (e : DirEntry) : ContentsState :=
  let filed := entryAttributes fresh path e
  { s with contents := s.contents.set path filed.1, errMsg := s.errMsg ++ filed.2 }

end

def DirEntry.isDot (e : DirEntry) : Bool := e.dName = lit "." ∨ e.dName = lit ".."

/-- The entry is gone into. -/
def DirEntry.enters (e : DirEntry) : Bool := e.dType = .dir && !e.isDot

def currentPath (path : List Char) (e : DirEntry) : List Char := path ++ '/' :: e.dName

/-- `get_contents` up to the first entry.  `read` is the loop over the entries.  The exit ends the
process. -/
def enterDir (path : List Char) (calls : DirCalls) (dir : Dir)
    (read : ContentsState → Option ContentsState) (s : ContentsState) : Option ContentsState :=
  let s := { s with maxDepth := s.maxDepth + 1 }
  if s.maxDepth > 100 then none
  else
    match calls.opendir with
    | some err => some { s with errMsg := s.errMsg ++ errorLine (lit "opendir error") path err }
    | none =>
      match dir, calls.readdir with
      | .done, some err =>
        some { s with errMsg := s.errMsg ++ errorLine (lit "readdir error") path err }
      | .done, none => some s
      | .entry _ _ _, _ => read s

/-- The loop of `get_contents`. -/
def readEntries (fresh : FileAttributes) :
    List Char → Dir → ContentsState → Option ContentsState
  | _, .done, s => some s
  | path, .entry e inside rest, s =>
    let current := currentPath path e
    let s := s.file fresh current e
    (if e.enters then enterDir current e.calls inside (readEntries fresh current inside) s
      else some s).bind (readEntries fresh path rest)

/-- `DiskContents::get_contents` -/
def getContents (fresh : FileAttributes) (path : List Char) (calls : DirCalls) (dir : Dir)
    (s : ContentsState) : Option ContentsState :=
  enterDir path calls dir (readEntries fresh path dir) s

/-! ## The tree -/

namespace Dir

/-- The paths of a directory and of all directories in it. -/
def paths (path : List Char) : Dir → List (List Char)
  | .done => []
  | .entry e inside rest =>
    currentPath path e :: ((if e.isDot then [] else inside.paths (currentPath path e)) ++
      rest.paths path)

/-- The paths that are come to. -/
def visited (path : List Char) : Dir → List (List Char)
  | .done => []
  | .entry e inside rest =>
    currentPath path e :: ((if e.enters then inside.visited (currentPath path e) else []) ++
      rest.visited path)

/-- The directories that are gone into. -/
def subdirs : Dir → Nat
  | .done => 0
  | .entry e inside rest => (if e.enters then inside.subdirs + 1 else 0) + rest.subdirs

/-- How deep directories are nested. -/
def depth : Dir → Nat
  | .done => 0
  | .entry e inside rest => max (if e.enters then inside.depth + 1 else 0) rest.depth

/-- The directories open and read without error. -/
def Readable : Dir → Prop
  | .done => True
  | .entry e inside rest =>
    (e.enters = true → e.calls.opendir = none ∧ e.calls.readdir = none ∧ inside.Readable) ∧
      rest.Readable

def names : Dir → List (List Char)
  | .done => []
  | .entry e _ rest => e.dName :: rest.names

/-- The names in a directory are different and have no slash. -/
def WellNamed : Dir → Prop
  | .done => True
  | .entry e inside rest =>
    '/' ∉ e.dName ∧ e.dName ∉ rest.names ∧ inside.WellNamed ∧ rest.WellNamed

/-- An entry that has something in it is given as a directory. -/
def Typed : Dir → Prop
  | .done => True
  | .entry e inside rest =>
    (e.isDot = false → (inside = .done ∨ e.dType = .dir) ∧ inside.Typed) ∧ rest.Typed

end Dir

/-- There is one entry for every path below the mount point, and the process does not exit. -/
def ContentsExact (fresh : FileAttributes) (path : List Char) (calls : DirCalls) (dir : Dir)
    (s : ContentsState) : Prop :=
  ∃ s', getContents fresh path calls dir s.reset = some s' ∧
    s'.contents.keys.Perm (dir.paths path)

/-! ## What the calls do to the counter and the paths -/

def addKey (keys : List (List Char)) (path : List Char) : List (List Char) :=
  if path ∈ keys then keys else keys ++ [path]

section

variable {fresh : FileAttributes}

theorem keys_file (s : ContentsState) (path : List Char) (e : DirEntry) :
    (s.file fresh path e).contents.keys = addKey s.contents.keys path := by
  show (s.contents.set path _).keys = _
  rw [Dict.keys_set, addKey]
  by_cases hfiled : path ∈ s.contents.keys
  · rw [if_pos hfiled, if_pos hfiled]
  · rw [if_neg hfiled, if_neg hfiled]

/-- A directory that opens is one more, whatever is in it. -/
theorem enterDir_eq {path : List Char} {calls : DirCalls} {dir : Dir} {s : ContentsState}
    (hopen : calls.opendir = none) (hread : calls.readdir = none) :
    enterDir path calls dir (readEntries fresh path dir) s =
      if s.maxDepth + 1 > 100 then none
      else readEntries fresh path dir { s with maxDepth := s.maxDepth + 1 } := by
  simp only [enterDir, hopen, hread]
  split_ifs
  · rfl
  · cases dir <;> rfl

/-- The outcome of a reading that goes into `n` directories and files the paths.  Where the counter
would go beyond a hundred the process has exited. -/
def Outcome (s : ContentsState) (n : Nat) (paths : List (List Char))
    (outcome : Option ContentsState) : Prop :=
  if s.maxDepth + n ≤ 100 then
    ∃ s', outcome = some s' ∧ s'.maxDepth = s.maxDepth + n ∧
      s'.contents.keys = paths.foldl addKey s.contents.keys
  else outcome = none

theorem Outcome.bind {s : ContentsState} {n m : Nat} {paths more : List (List Char)}
    {outcome : Option ContentsState} {next : ContentsState → Option ContentsState}
    (h : Outcome s n paths outcome)
    (hnext : ∀ t, t.maxDepth ≤ 100 → Outcome t m more (next t)) :
    Outcome s (n + m) (paths ++ more) (outcome.bind next) := by
  rw [Outcome] at h
  by_cases hfit : s.maxDepth + n ≤ 100
  · rw [if_pos hfit] at h
    obtain ⟨t, rfl, hdepth, hkeys⟩ := h
    have ht := hnext t (by omega)
    rw [Outcome, hdepth, hkeys, ← List.foldl_append, Nat.add_assoc] at ht
    exact ht
  · rw [if_neg hfit] at h
    rw [Outcome, if_neg (by omega), h]
    rfl

theorem outcome_nil {s : ContentsState} (hs : s.maxDepth ≤ 100) : Outcome s 0 [] (some s) := by
  rw [Outcome, Nat.add_zero, if_pos hs]
  exact ⟨s, rfl, rfl, rfl⟩

theorem Outcome.file {s : ContentsState} {n : Nat} {paths : List (List Char)}
    {outcome : Option ContentsState} {path : List Char} {e : DirEntry}
    (h : Outcome (s.file fresh path e) n paths outcome) : Outcome s n (path :: paths) outcome := by
  rw [Outcome, keys_file] at h
  exact h

theorem Outcome.enter {s : ContentsState} {n : Nat} {paths : List (List Char)} {path : List Char}
    {calls : DirCalls} {dir : Dir} (hopen : calls.opendir = none) (hread : calls.readdir = none)
    (h : s.maxDepth + 1 ≤ 100 → Outcome { s with maxDepth := s.maxDepth + 1 } n paths
      (readEntries fresh path dir { s with maxDepth := s.maxDepth + 1 })) :
    Outcome s (n + 1) paths (enterDir path calls dir (readEntries fresh path dir) s) := by
  rw [enterDir_eq hopen hread]
  by_cases hone : s.maxDepth + 1 ≤ 100
  · rw [if_neg (by omega)]
    have hin := h hone
    rw [Outcome] at hin
    rw [Outcome, Nat.add_comm n 1, ← Nat.add_assoc]
    exact hin
  · rw [if_pos (by omega), Outcome, if_neg (by omega)]

/-- The counter goes up by the directories, and stops the process at a hundred. -/
theorem readEntries_outcome {dir : Dir} (hdir : dir.Readable) (path : List Char)
    (s : ContentsState) (hs : s.maxDepth ≤ 100) :
    Outcome s dir.subdirs (dir.visited path) (readEntries fresh path dir s) := by
  induction dir generalizing path s with
  | done => exact outcome_nil hs
  | entry e inside rest ihin ihrest =>
    obtain ⟨hin, hrest⟩ := hdir
    apply Outcome.file
    refine Outcome.bind ?_ fun t ht => ihrest hrest path t ht
    by_cases henters : e.enters = true
    · obtain ⟨hopen, hread, hin⟩ := hin henters
      rw [if_pos henters, if_pos henters, if_pos henters]
      exact Outcome.enter hopen hread fun hone => ihin hin (currentPath path e) _ hone
    · rw [if_neg henters, if_neg henters, if_neg henters]
      exact outcome_nil hs

theorem foldl_addKey_eq {l keys : List (List Char)} (hnd : (keys ++ l).Nodup) :
    l.foldl addKey keys = keys ++ l := by
  induction l generalizing keys with
  | nil => exact (List.append_nil keys).symm
  | cons path rest ih =>
    have hnew : path ∉ keys := fun h =>
      (List.nodup_append.mp hnd).2.2 path h path List.mem_cons_self rfl
    rw [List.append_cons] at hnd
    rw [List.foldl_cons, addKey, if_neg hnew, ih hnd, ← List.append_cons]

theorem length_foldl_addKey_le (l keys : List (List Char)) :
    (l.foldl addKey keys).length ≤ keys.length + l.length := by
  induction l generalizing keys with
  | nil => exact Nat.le_refl _
  | cons path rest ih =>
    rw [List.foldl_cons, List.length_cons]
    refine (ih (addKey keys path)).trans ?_
    rw [addKey]
    split_ifs
    · omega
    · rw [List.length_append, List.length_singleton]
      omega

end

/-! ## Which paths are come to -/

theorem append_eq_append_of_sublist {α : Type} {l₁ l₂ r₁ r₂ : List α} (hl : l₁.Sublist l₂)
    (hr : r₁.Sublist r₂) : l₁ ++ r₁ = l₂ ++ r₂ ↔ l₁ = l₂ ∧ r₁ = r₂ := by
  constructor
  · intro h
    have hlen := congrArg List.length h
    rw [List.length_append, List.length_append] at hlen
    have hll := hl.length_le
    have hrl := hr.length_le
    exact ⟨hl.eq_of_length (by omega), hr.eq_of_length (by omega)⟩
  · rintro ⟨rfl, rfl⟩
    rfl

theorem DirEntry.enters_of_isDot {e : DirEntry} (hdot : e.isDot = true) : ¬ e.enters = true := by
  rw [DirEntry.enters, hdot, Bool.not_true, Bool.and_false]
  exact Bool.false_ne_true

theorem DirEntry.enters_iff {e : DirEntry} (hdot : ¬ e.isDot = true) :
    e.enters = true ↔ e.dType = .dir := by
  simp [DirEntry.enters, hdot]

namespace Dir

theorem entered_sublist {e : DirEntry} {inside paths : List (List Char)}
    (h : inside.Sublist paths) :
    (if e.enters then inside else []).Sublist (if e.isDot then [] else paths) := by
  by_cases hdot : e.isDot = true
  · rw [if_neg (DirEntry.enters_of_isDot hdot)]
    exact List.nil_sublist _
  · rw [if_neg hdot]
    split_ifs
    · exact h
    · exact List.nil_sublist _

theorem visited_sublist (dir : Dir) (path : List Char) :
    (dir.visited path).Sublist (dir.paths path) := by
  induction dir generalizing path with
  | done => exact List.Sublist.slnil
  | entry e inside rest ihin ihrest =>
    exact ((entered_sublist (ihin _)).append (ihrest path)).cons_cons _

theorem paths_eq_nil {dir : Dir} {path : List Char} : dir.paths path = [] ↔ dir = .done := by
  cases dir with
  | done => exact iff_of_true rfl rfl
  | entry e inside rest => exact iff_of_false (List.cons_ne_nil _ _) (by intro h; cases h)

/-- Every path is come to when what has something in it is given as a directory. -/
theorem visited_eq_iff (dir : Dir) (path : List Char) :
    dir.visited path = dir.paths path ↔ dir.Typed := by
  induction dir generalizing path with
  | done => exact iff_of_true rfl trivial
  | entry e inside rest ihin ihrest =>
    rw [visited, paths, Typed, List.cons.injEq, and_iff_right rfl,
      append_eq_append_of_sublist (entered_sublist (visited_sublist inside _))
        (visited_sublist rest path), ihrest path]
    apply and_congr_left
    intro _
    by_cases hdot : e.isDot = true
    · rw [if_neg (DirEntry.enters_of_isDot hdot), if_pos hdot, hdot]
      exact iff_of_true rfl (fun h => absurd h Bool.false_ne_true.symm)
    rw [if_neg hdot, forall_prop_of_true (Bool.eq_false_iff.mpr hdot)]
    by_cases hdir : e.dType = .dir
    · rw [if_pos ((DirEntry.enters_iff hdot).mpr hdir), ihin]
      exact (and_iff_right (Or.inr hdir)).symm
    · rw [if_neg ((DirEntry.enters_iff hdot).not.mpr hdir), eq_comm, paths_eq_nil, or_iff_left hdir]
      constructor
      · rintro rfl
        exact ⟨rfl, trivial⟩
      · exact And.left

/-- `q` is the path of the entry `n` of `path`, or is below it. -/
def Under (path n q : List Char) : Prop :=
  ∃ t, q = path ++ '/' :: (n ++ t) ∧ (t = [] ∨ ∃ u, t = '/' :: u)

/-- The name of the entry is what stands before the next slash. -/
theorem Under.name {path n q : List Char} (h : Under path n q) (hn : '/' ∉ n) :
    (q.drop (path.length + 1)).takeWhile (· ≠ '/') = n := by
  obtain ⟨t, rfl, ht⟩ := h
  have hdrop : (path ++ '/' :: (n ++ t)).drop (path.length + 1) = n ++ t := by
    rw [← List.drop_drop, List.drop_left]
    rfl
  have hall : ∀ c ∈ n, (decide (c ≠ '/')) = true := fun c hc =>
    decide_eq_true (fun h => hn (h ▸ hc))
  rw [hdrop, List.takeWhile_append_of_pos hall]
  obtain rfl | ⟨u, rfl⟩ := ht
  · rw [List.takeWhile_nil, List.append_nil]
  · rw [List.takeWhile_cons_of_neg (by decide), List.append_nil]

theorem under_current (path : List Char) (e : DirEntry) : Under path e.dName (currentPath path e) :=
  ⟨[], by rw [List.append_nil]; rfl, Or.inl rfl⟩

theorem Under.up {path q n : List Char} {e : DirEntry} (h : Under (currentPath path e) n q) :
    Under path e.dName q := by
  obtain ⟨t, rfl, _⟩ := h
  exact ⟨'/' :: (n ++ t), by rw [currentPath, List.append_assoc]; rfl, Or.inr ⟨_, rfl⟩⟩

theorem Under.ne {path n q : List Char} (h : Under path n q) : path ≠ q := by
  obtain ⟨t, rfl, _⟩ := h
  intro heq
  have hlen := congrArg List.length heq
  rw [List.length_append, List.length_cons] at hlen
  omega

theorem exists_under {dir : Dir} {path q : List Char} (hq : q ∈ dir.paths path) :
    ∃ n ∈ dir.names, Under path n q := by
  induction dir generalizing path with
  | done => exact absurd hq List.not_mem_nil
  | entry e inside rest ihin ihrest =>
    rw [paths, List.mem_cons, List.mem_append] at hq
    obtain rfl | hq | hq := hq
    · exact ⟨e.dName, List.mem_cons_self, under_current path e⟩
    · split_ifs at hq
      · exact absurd hq List.not_mem_nil
      · obtain ⟨n, _, hn⟩ := ihin hq
        exact ⟨e.dName, List.mem_cons_self, hn.up⟩
    · obtain ⟨n, hmem, hn⟩ := ihrest hq
      exact ⟨n, List.mem_cons_of_mem _ hmem, hn⟩

theorem WellNamed.no_slash {dir : Dir} (h : dir.WellNamed) {n : List Char} (hn : n ∈ dir.names) :
    '/' ∉ n := by
  induction dir with
  | done => exact absurd hn List.not_mem_nil
  | entry e inside rest _ ihrest =>
    obtain rfl | hn := List.mem_cons.mp hn
    · exact h.1
    · exact ihrest h.2.2.2 hn

/-- Different entries have different paths. -/
theorem paths_nodup {dir : Dir} (h : dir.WellNamed) (path : List Char) :
    (dir.paths path).Nodup := by
  induction dir generalizing path with
  | done => exact List.nodup_nil
  | entry e inside rest ihin ihrest =>
    obtain ⟨hslash, hnew, hin, hrest⟩ := h
    -- nothing in the rest has the entry's path, or is below it
    have hother : ∀ q ∈ rest.paths path, ¬ Under path e.dName q := by
      intro q hq hunder
      obtain ⟨n, hmem, hn⟩ := exists_under hq
      rw [← hunder.name hslash, hn.name (hrest.no_slash hmem)] at hnew
      exact hnew hmem
    have hbelow : ∀ q ∈ (if e.isDot then [] else inside.paths (currentPath path e)),
        ∃ n, Under (currentPath path e) n q := by
      intro q hq
      split_ifs at hq
      · exact absurd hq List.not_mem_nil
      · obtain ⟨n, _, hn⟩ := exists_under hq
        exact ⟨n, hn⟩
    rw [paths, List.nodup_cons, List.mem_append, List.nodup_append]
    refine ⟨?_, ?_, ihrest hrest path, ?_⟩
    · rintro (hq | hq)
      · obtain ⟨n, hn⟩ := hbelow _ hq
        exact hn.ne rfl
      · exact hother _ hq (under_current path e)
    · split_ifs
      · exact List.nodup_nil
      · exact ihin hin _
    · rintro q hq q' hq' rfl
      obtain ⟨n, hn⟩ := hbelow _ hq
      exact hother _ hq' hn.up

end Dir

/-! ## The entries -/

/-- The entries are the paths as long as there are at most a hundred directories. -/
theorem contents_exact_iff {fresh : FileAttributes} {path : List Char} {calls : DirCalls}
    {dir : Dir} {s : ContentsState} (hopen : calls.opendir = none) (hread : calls.readdir = none)
    (hdir : dir.Readable) (hnames : dir.WellNamed) :
    ContentsExact fresh path calls dir s ↔ dir.Typed ∧ dir.subdirs + 1 ≤ 100 := by
  have hone : (0 : Nat) + 1 ≤ 100 := by omega
  have hrun : getContents fresh path calls dir s.reset =
      readEntries fresh path dir { s.reset with maxDepth := 0 + 1 } := by
    rw [getContents, enterDir_eq hopen hread]
    exact if_neg (by show ¬ 0 + 1 > 100; omega)
  have hcases := @readEntries_outcome fresh dir hdir path
    { s.reset with maxDepth := 0 + 1 } hone
  rw [ContentsExact, hrun]
  by_cases hfit : dir.subdirs + 1 ≤ 100
  · rw [Outcome, if_pos (by show 0 + 1 + dir.subdirs ≤ 100; omega)] at hcases
    obtain ⟨s', hs', _, hkeys⟩ := hcases
    have hkeys : s'.contents.keys = (dir.visited path).foldl addKey [] := hkeys
    rw [and_iff_left hfit, ← Dir.visited_eq_iff dir path]
    constructor
    · rintro ⟨s₂, hs₂, hperm⟩
      obtain rfl : s' = s₂ := Option.some.inj (hs'.symm.trans hs₂)
      have hle := length_foldl_addKey_le (dir.visited path) []
      rw [← hkeys, hperm.length_eq, List.length_nil, Nat.zero_add] at hle
      exact (Dir.visited_sublist dir path).eq_of_length_le hle
    · intro hvisited
      refine ⟨s', hs', ?_⟩
      rw [hkeys, hvisited, foldl_addKey_eq (by simpa using Dir.paths_nodup hnames path)]
      exact List.Perm.refl _
  · rw [Outcome, if_neg (by show ¬ 0 + 1 + dir.subdirs ≤ 100; omega)] at hcases
    apply iff_of_false
    · rintro ⟨s', hs', _⟩
      rw [hcases] at hs'
      cases hs'
    · exact fun h => hfit h.2

/-- What is filed before `stat`. -/
def newAttributes : FileAttributes where
  dName := []
  dIno := 18446744073709551615
  dOff := -1
  dReclen := 65535
  dType := 255
  stIno := 18446744073709551615
  stSize := -1
  stBlksize := -1
  stBlocks := -1
  stNlink := 18446744073709551615
  stMode := 4294967295
  stUid := 4294967295
  stGid := 4294967295
  stRdev := 0
  stDev := 0
  md5sum := []

def emptyDirEntry (name : List Char) : DirEntry where
  dName := name
  dIno := 40
  dOff := 1
  dReclen := 24
  dType := .dir
  dTypeByte := 4
  stat := none
  lstat := .error (lit "No such file or directory")
  md5 := []

def newContents : ContentsState := { maxDepth := 0, errMsg := [], contents := Dict.empty }

/-- A directory with a file and the two names that stand for directories. -/
def smallTree : Dir :=
  .entry (emptyDirEntry ['.']) .done (.entry (emptyDirEntry ['.', '.']) .done
    (.entry (emptyDirEntry ['d'])
      (.entry { emptyDirEntry ['f'] with dType := .reg, dTypeByte := 8 } .done .done) .done))

theorem small_tree_exact :
    ContentsExact newAttributes (lit "/mnt") {} smallTree newContents ∧
      smallTree.paths (lit "/mnt") =
        [lit "/mnt/.", lit "/mnt/..", lit "/mnt/d", lit "/mnt/d/f"] := by
  have hread : smallTree.Readable := by
    simp [smallTree, Dir.Readable, emptyDirEntry]
  have hnames : smallTree.WellNamed := by
    simp [smallTree, Dir.WellNamed, Dir.names, emptyDirEntry]
  have htyped : smallTree.Typed := by
    simp [smallTree, Dir.Typed, emptyDirEntry]
  exact ⟨(contents_exact_iff rfl rfl hread hnames).mpr ⟨htyped, by decide⟩, by decide⟩

/-! ## A directory with a hundred empty directories -/

/-- Empty directories with the names `d`, `dd`, .. -/
def wide : Nat → Dir
  | 0 => .done
  | n + 1 => .entry (emptyDirEntry (List.replicate (n + 1) 'd')) .done (wide n)

theorem enters_wide (n : Nat) : (emptyDirEntry (List.replicate (n + 1) 'd')).enters = true := by
  rw [DirEntry.enters, Bool.and_eq_true, Bool.not_eq_true', DirEntry.isDot]
  refine ⟨rfl, decide_eq_false ?_⟩
  rintro (h | h) <;> exact absurd (List.cons.inj h).1 (by decide)

theorem subdirs_wide (n : Nat) : (wide n).subdirs = n := by
  induction n with
  | zero => rfl
  | succ n ih =>
    rw [wide, Dir.subdirs, if_pos (enters_wide n), ih]
    show 0 + 1 + n = n + 1
    omega

theorem depth_wide (n : Nat) : (wide n).depth ≤ 1 := by
  induction n with
  | zero => exact Nat.zero_le _
  | succ n ih =>
    rw [wide, Dir.depth, if_pos (enters_wide n)]
    exact Nat.max_le.mpr ⟨Nat.le_refl _, ih⟩

theorem readable_wide (n : Nat) : (wide n).Readable := by
  induction n with
  | zero => trivial
  | succ n ih => exact ⟨fun _ => ⟨rfl, rfl, trivial⟩, ih⟩

theorem names_wide {n : Nat} {name : List Char} (h : name ∈ (wide n).names) :
    name.length ≤ n := by
  induction n with
  | zero => exact absurd h List.not_mem_nil
  | succ n ih =>
    obtain rfl | h := List.mem_cons.mp h
    · exact (List.length_replicate ..).le
    · exact Nat.le_succ_of_le (ih h)

theorem wellNamed_wide (n : Nat) : (wide n).WellNamed := by
  induction n with
  | zero => trivial
  | succ n ih =>
    refine ⟨?_, ?_, trivial, ih⟩
    · intro h
      exact absurd (List.eq_of_mem_replicate h) (by decide)
    · intro h
      have hlen := names_wide h
      rw [show (emptyDirEntry (List.replicate (n + 1) 'd')).dName.length = n + 1 from
        List.length_replicate] at hlen
      omega

/-- Nothing is nested deeper than one directory, and the process exits. -/
theorem wide_exits :
    (wide 100).depth ≤ 100 ∧ (wide 100).Readable ∧ (wide 100).WellNamed ∧
      getContents newAttributes (lit "/mnt") {} (wide 100) newContents.reset = none ∧
      ¬ ContentsExact newAttributes (lit "/mnt") {} (wide 100) newContents := by
  have hcases := @readEntries_outcome newAttributes (wide 100) (readable_wide 100) (lit "/mnt")
    { newContents.reset with maxDepth := 0 + 1 } (by show 0 + 1 ≤ 100; omega)
  rw [Outcome, if_neg (by rw [subdirs_wide]; show ¬ 0 + 1 + 100 ≤ 100; omega)] at hcases
  have hnone : getContents newAttributes (lit "/mnt") {} (wide 100) newContents.reset = none := by
    rw [getContents, enterDir_eq rfl rfl]
    exact (if_neg (by show ¬ 0 + 1 > 100; omega)).trans hcases
  refine ⟨(depth_wide 100).trans (by omega), readable_wide 100, wellNamed_wide 100, hnone, ?_⟩
  rintro ⟨s', hs', _⟩
  rw [hnone] at hs'
  cases hs'

end DiskContent
end Silhouette
