/-
Every check of the generator keeps the program in step with the dictionaries.

The checks are taken in the order in which they are made.  Of each one it is said what
the dictionaries have when it is through, and what stays in them.
-/
import Silhouette.Ace.Satisfied

namespace Silhouette
namespace Ace

open Lib

/-! ## Names -/

theorem isDirOption_eq (f : Name) : isDirOption f = f.isDir := by cases f <;> rfl

theorem parent_cases (f : Name) :
    f.parent = .test ∨ f.parent = .A ∨ f.parent = .B ∨ f.parent = .AC := by
  cases f <;> simp [Name.parent]

theorem eq_of_parent_A {t : Name} (hp : t.parent = .A) : t = .Afoo ∨ t = .Abar ∨ t = .AC := by
  revert hp
  cases t <;> decide

theorem eq_of_parent_AC {t : Name} (hp : t.parent = .AC) : t = .ACfoo ∨ t = .ACbar := by
  revert hp
  cases t <;> decide

namespace Config

variable {cfg : Config} {f : Name}

theorem isDir_of_isFileOption (h : cfg.isFileOption f = true) : f.isDir = false := by
  obtain ⟨nested, demo⟩ := cfg
  revert h
  cases nested <;> cases demo <;> cases f <;> decide

theorem isFileOption_of_mem (h : f ∈ cfg.fileOptions) : cfg.isFileOption f = true :=
  Bool.or_eq_true_iff.mpr (Or.inl (decide_eq_true h))

theorem isFileOption_of_second (h : f ∈ cfg.secondFileOptions) : cfg.isFileOption f = true :=
  Bool.or_eq_true_iff.mpr (Or.inr (decide_eq_true h))

theorem isFileOption_of_mem_append (h : f ∈ cfg.fileOptions ++ cfg.secondFileOptions) :
    cfg.isFileOption f = true :=
  (List.mem_append.mp h).elim isFileOption_of_mem isFileOption_of_second

end Config

/-! ## What is in the dictionaries -/

/-- The directory is the mount point, or listed. -/
def HasDir (m : DepMaps) (d : Name) : Prop := d = .test ∨ d ∈ m.openDirMap.keys

theorem Agrees.mem_of_hasDir {m : DepMaps} {s : Prog} (h : Agrees m s) {d : Name}
    (hd : HasDir m d) : d ∈ m.openDirMap.keys := by
  rcases hd with rfl | hd
  · exact (h.dirs .test).mpr ⟨rfl, .dir, rfl⟩
  · exact hd

/-- Nothing goes from the dictionaries. -/
structure Keeps (m m' : DepMaps) : Prop where
  files : ∀ t ∈ m.openFileMap.keys, t ∈ m'.openFileMap.keys
  dirs : ∀ d, HasDir m d → HasDir m' d

namespace Keeps

variable {m m' m'' : DepMaps}

theorem refl (m : DepMaps) : Keeps m m := ⟨fun _ => id, fun _ => id⟩

theorem trans (h : Keeps m m') (h' : Keeps m' m'') : Keeps m m'' :=
  ⟨fun t ht => h'.files t (h.files t ht), fun d hd => h'.dirs d (h.dirs d hd)⟩

theorem setFile (m : DepMaps) (f : Name) (b : Bool) : Keeps m (m.setFile f b) :=
  ⟨fun _ ht => Dict.mem_keys_set.mpr (Or.inr ht), fun _ => id⟩

theorem setDir (m : DepMaps) (d : Name) (b : Bool) : Keeps m (m.setDir d b) :=
  ⟨fun _ => id, fun _ hd => hd.imp_right fun hd => Dict.mem_keys_set.mpr (Or.inr hd)⟩

theorem addLength (m : DepMaps) (f : Name) : Keeps m (m.addLength f) :=
  ⟨fun _ => id, fun _ => id⟩

theorem note (cfg : Config) (m : DepMaps) (f : Name) (b : Bool) : Keeps m (m.note cfg f b) := by
  unfold DepMaps.note
  split
  · exact setFile m f b
  · split
    · exact setDir m f b
    · exact refl m

end Keeps

/-- The files listed are among the parameters. -/
def Listed (cfg : Config) (m : DepMaps) : Prop :=
  ∀ f ∈ m.openFileMap.keys, cfg.isFileOption f = true

namespace Listed

variable {cfg : Config} {m : DepMaps} {f : Name}

theorem setFile (h : Listed cfg m) (hf : cfg.isFileOption f = true) (b : Bool) :
    Listed cfg (m.setFile f b) := by
  intro t ht
  rcases Dict.mem_keys_set.mp ht with rfl | ht
  · exact hf
  · exact h t ht

theorem popFile (h : Listed cfg m) : Listed cfg (m.popFile f) :=
  fun t ht => h t (Dict.mem_keys_erase.mp ht).2

theorem note (h : Listed cfg m) (b : Bool) : Listed cfg (m.note cfg f b) := by
  unfold DepMaps.note
  by_cases hf : cfg.isFileOption f = true
  · rw [if_pos hf]
    exact h.setFile hf b
  · rw [if_neg hf]
    split
    · exact h
    · exact h

end Listed

theorem note_of_file {cfg : Config} {f : Name} (h : cfg.isFileOption f = true) (m : DepMaps)
    (b : Bool) : m.note cfg f b = m.setFile f b := if_pos h

theorem note_fileLengthMap (cfg : Config) (m : DepMaps) (f : Name) (b : Bool) :
    (m.note cfg f b).fileLengthMap = m.fileLengthMap := by
  unfold DepMaps.note
  split
  · rfl
  · split <;> rfl

theorem get?_setFile (m : DepMaps) (f t : Name) (b : Bool) :
    (m.setFile f b).openFileMap.get? t = if t = f then some b else m.openFileMap.get? t :=
  Dict.get?_set _ _ _ _

/-! ## Insertions -/

/-- `Sim`, wherever the generator stands. -/
def InStep (cfg : Config) (numOps : Nat) (seen r : List Command) (g : Gen) : Prop :=
  ∃ e w, Sim cfg numOps seen g e r w

namespace InStep

variable {cfg : Config} {numOps : Nat} {seen r : List Command} {g : Gen}

theorem listed (h : InStep cfg numOps seen r g) : Listed cfg g.maps := by
  obtain ⟨e, w, h⟩ := h
  exact h.options

/-- A command of one line is inserted. -/
theorem insertLine (h : InStep cfg numOps seen r g) {c : Command} {m' : DepMaps} {l : Line}
    (hbuild : ∀ lm, buildJlang numOps lm c = some ([l], lm))
    (hsame : m'.fileLengthMap = g.maps.fileLengthMap) (hlisted : Listed cfg m')
    (hworks : ∀ s, Agrees g.maps s → Works l s m') :
    InStep cfg numOps seen r (g.insert (c, m')) := by
  obtain ⟨e, w, h⟩ := h
  refine ⟨_, _, h.insert (hbuild w.lm) ?_ hlisted fun s hs _ => (hworks s hs).all⟩
  rw [hsame]
  exact h.lengths

theorem insertUnlink (h : InStep cfg numOps seen r g) {f : Name}
    (hf : f ∈ g.maps.openFileMap.keys) : InStep cfg numOps seen r (g.insertUnlink f) :=
  h.insertLine (fun _ => rfl) rfl h.listed.popFile fun _ hs => hs.unlink_works hf

theorem insertOpen (h : InStep cfg numOps seen r g) {f : Name} (hf : cfg.isFileOption f = true)
    (hp : HasDir g.maps f.parent) : InStep cfg numOps seen r (g.insertOpen cfg f) := by
  have hdir := Config.isDir_of_isFileOption hf
  apply h.insertLine (l := .open' f)
  · intro lm
    rw [buildJlang, isDirOption_eq, hdir]
    rfl
  · exact note_fileLengthMap cfg g.maps f true
  · exact h.listed.note true
  · intro s hs
    rw [note_of_file hf]
    exact hs.open_works hdir (hs.mem_of_hasDir hp)

theorem insertClose (h : InStep cfg numOps seen r g) {f : Name}
    (hworks : ∀ s, Agrees g.maps s → Works (.close f) s (g.maps.note cfg f false)) :
    InStep cfg numOps seen r (g.insertClose cfg f) :=
  h.insertLine (fun _ => rfl) (note_fileLengthMap cfg g.maps f false) (h.listed.note false) hworks

theorem insertClose_file (h : InStep cfg numOps seen r g) {f : Name}
    (hf : g.maps.openFileMap.get? f = some true) :
    InStep cfg numOps seen r (g.insertClose cfg f) := by
  apply h.insertClose
  intro s hs
  rw [note_of_file (h.listed f (Agrees.mem_of_open hf))]
  exact hs.close_works hf

/-- No directory is open. -/
theorem insertClose_dir (h : InStep cfg numOps seen r g) {d : Name}
    (hd : g.maps.openDirMap.get? d = some true) :
    InStep cfg numOps seen r (g.insertClose cfg d) :=
  h.insertClose fun _ hs => absurd hd (hs.noDirOpen d)

theorem insertMkdir_maps {d : Name} (hd : d.isDir = true) :
    (g.insertMkdir d).maps = g.maps.setDir d false := by
  unfold Gen.insertMkdir
  rw [isDirOption_eq, if_pos hd]
  rfl

theorem insertMkdir (h : InStep cfg numOps seen r g) {d : Name} (hd : d.isDir = true)
    (hnew : d ∉ g.maps.openDirMap.keys) (hp : HasDir g.maps d.parent) :
    InStep cfg numOps seen r (g.insertMkdir d) := by
  unfold Gen.insertMkdir
  rw [isDirOption_eq, if_pos hd]
  exact h.insertLine (fun _ => rfl) rfl h.listed
    fun s hs => hs.mkdir_works hd hnew (hs.mem_of_hasDir hp)

theorem insertRmdir (h : InStep cfg numOps seen r g) {d : Name}
    (hd : d ∈ g.maps.openDirMap.keys) (hne : d ≠ .test)
    (hfiles : ∀ t, t.isDir = false → t.parent = d → t ∉ g.maps.openFileMap.keys)
    (hdirs : ∀ t, t ≠ .test → t.isDir = true → t.parent = d → t ∉ g.maps.openDirMap.keys) :
    InStep cfg numOps seen r (g.insertRmdir d) := by
  refine h.insertLine (fun _ => rfl) rfl h.listed fun s hs => hs.rmdir_works hd hne ?_
  intro t htest hp
  cases ht : t.isDir with
  | true => exact ⟨hs.ne_of_isDir ht, hdirs t htest ht hp⟩
  | false =>
    refine ⟨hfiles t ht hp, fun hmem => ?_⟩
    rw [((hs.dirs t).mp hmem).1] at ht
    cases ht

/-- The first write of a file is of one page. -/
theorem insertWrite (h : InStep cfg numOps seen r g) {f : Name}
    (hf : g.maps.openFileMap.get? f = some true) (hnew : f ∉ g.maps.fileLengthMap.keys) :
    InStep cfg numOps seen r (g.insertWrite f) := by
  obtain ⟨e, w, h⟩ := h
  obtain ⟨hlm, hemptied⟩ := h.lengths.unknown f hnew
  have hbuild : buildJlang numOps w.lm (.write f) =
      some ([.write f 0 4096], w.lm.set f 4096) := by
    rw [buildJlang, appendLine, hlm]
    rfl
  refine ⟨_, _, h.insert hbuild ?_ h.options
    fun s hs _ => (hs.write_works hf (le_refl 0)).all⟩
  apply h.lengths.change (mem_keys_addLength g.maps f) (by omega)
  · rw [hemptied]
    simp
  · exact fun _ _ => rfl

theorem countCore (h : InStep cfg numOps seen r g) :
    InStep cfg numOps seen r (g.countCore numOps) := by
  have hcount : InStep cfg numOps seen r { g with corefs := g.corefs + 1 } := by
    obtain ⟨e, w, h⟩ := h
    exact ⟨e, w, h.place, h.ran, h.lengths, h.options, h.agrees, h.ends⟩
  by_cases hlast : g.corefs + 1 = numOps
  · have hmark : InStep cfg numOps seen r
        ({ g with corefs := g.corefs + 1 }.insert (.mark, g.maps)) :=
      hcount.insertLine (l := .mark) (fun _ => rfl) rfl hcount.listed fun s hs => ⟨s, rfl, hs⟩
    have hg : g.countCore numOps = { g with corefs := g.corefs + 1 }.insert (.mark, g.maps) :=
      if_pos hlast
    exact hg ▸ hmark
  · have hg : g.countCore numOps = { g with corefs := g.corefs + 1 } := if_neg hlast
    exact hg ▸ hcount

end InStep

theorem countCore_maps (numOps : Nat) (g : Gen) : (g.countCore numOps).maps = g.maps := by
  show (if g.corefs + 1 = numOps then _ else _ : Gen).maps = g.maps
  split <;> rfl

theorem countCore_setMaps (numOps : Nat) (g : Gen) (m : DepMaps) :
    (g.setMaps m).countCore numOps = (g.countCore numOps).setMaps m := by
  show (if g.corefs + 1 = numOps then _ else _) =
    (if g.corefs + 1 = numOps then _ else _ : Gen).setMaps m
  split <;> rfl

/-! ## Checks -/

namespace InStep

variable {cfg : Config} {numOps : Nat} {seen r : List Command} {g : Gen}

/-- A directory is made unless it is listed. -/
theorem makeDir (h : InStep cfg numOps seen r g) {d : Name} (hd : d.isDir = true)
    (hp : HasDir g.maps d.parent) {g' : Gen}
    (hg' : g' = if d ∉ g.maps.openDirMap.keys then g.insertMkdir d else g) :
    InStep cfg numOps seen r g' ∧ Keeps g.maps g'.maps ∧ HasDir g'.maps d := by
  subst hg'
  by_cases hnew : d ∉ g.maps.openDirMap.keys
  · rw [if_pos hnew, insertMkdir_maps hd]
    exact ⟨h.insertMkdir hd hnew hp, Keeps.setDir g.maps d false,
      Or.inr (Dict.mem_keys_set.mpr (Or.inl rfl))⟩
  · rw [if_neg hnew]
    exact ⟨h, Keeps.refl g.maps, Or.inr (not_not.mp hnew)⟩

theorem checkParent (h : InStep cfg numOps seen r g) (f : Name) :
    InStep cfg numOps seen r (g.checkParent f) ∧ Keeps g.maps (g.checkParent f).maps ∧
      HasDir (g.checkParent f).maps f.parent := by
  unfold Gen.checkParent
  rcases parent_cases f with hp | hp | hp | hp
  · simp only [hp, reduceCtorEq, or_self, false_and, if_false]
    exact ⟨h, Keeps.refl g.maps, Or.inl rfl⟩
  · simp only [hp, reduceCtorEq, true_or, true_and, false_and, if_false]
    exact h.makeDir (d := .A) rfl (Or.inl rfl) rfl
  · simp only [hp, reduceCtorEq, or_true, true_and, false_and, if_false]
    exact h.makeDir (d := .B) rfl (Or.inl rfl) rfl
  · simp only [hp, reduceCtorEq, or_self, false_and, if_false, true_and]
    by_cases hnew : Name.AC ∉ g.maps.openDirMap.keys
    · rw [if_pos hnew]
      obtain ⟨hA, hkeeps, hhas⟩ := h.makeDir (d := .A) rfl (Or.inl rfl) rfl
      have hnew' : Name.AC ∉ (if Name.AC.parent ∉ g.maps.openDirMap.keys then
          g.insertMkdir Name.AC.parent else g).maps.openDirMap.keys := by
        split
        · rw [insertMkdir_maps rfl]
          exact fun hmem => hnew ((Dict.mem_keys_set.mp hmem).resolve_left (by decide))
        · exact hnew
      refine ⟨hA.insertMkdir rfl hnew' hhas, ?_, ?_⟩
      · rw [insertMkdir_maps rfl]
        exact hkeeps.trans (Keeps.setDir _ _ _)
      · rw [insertMkdir_maps rfl]
        exact Or.inr (Dict.mem_keys_set.mpr (Or.inl rfl))
    · rw [if_neg hnew]
      exact ⟨h, Keeps.refl g.maps, Or.inr (not_not.mp hnew)⟩

/-- A file is opened unless it is open. -/
theorem checkExistsDep (h : InStep cfg numOps seen r g) {f : Name}
    (hf : cfg.isFileOption f = true) (hp : HasDir g.maps f.parent) :
    InStep cfg numOps seen r (g.checkExistsDep cfg f) ∧
      Keeps g.maps (g.checkExistsDep cfg f).maps ∧
      (g.checkExistsDep cfg f).maps.openFileMap.get? f = some true := by
  have hnot : isDirOption f = false := by rw [isDirOption_eq, Config.isDir_of_isFileOption hf]
  have heq : g.checkExistsDep cfg f =
      if g.maps.openFileMap.get? f ≠ some true then g.insertOpen cfg f else g := by
    unfold Gen.checkExistsDep
    simp [hnot, hf]
  rw [heq]
  by_cases hopen : g.maps.openFileMap.get? f ≠ some true
  · rw [if_pos hopen]
    refine ⟨h.insertOpen hf hp, Keeps.note cfg g.maps f true, ?_⟩
    show (g.maps.note cfg f true).openFileMap.get? f = some true
    rw [note_of_file hf, get?_setFile, if_pos rfl]
  · rw [if_neg hopen]
    exact ⟨h, Keeps.refl g.maps, not_not.mp hopen⟩

/-- An open file is written to unless it has been. -/
theorem checkFileLength (h : InStep cfg numOps seen r g) {f : Name}
    (hf : g.maps.openFileMap.get? f = some true) :
    InStep cfg numOps seen r (g.checkFileLength f) ∧
      (g.checkFileLength f).maps.openFileMap = g.maps.openFileMap ∧
      f ∈ (g.checkFileLength f).maps.fileLengthMap.keys := by
  unfold Gen.checkFileLength
  by_cases hnew : f ∉ g.maps.fileLengthMap.keys
  · rw [if_pos hnew]
    exact ⟨h.insertWrite hf hnew, rfl, (mem_keys_addLength g.maps f f).mpr (Or.inl rfl)⟩
  · rw [if_neg hnew]
    exact ⟨h, rfl, not_not.mp hnew⟩

theorem closeSecond (h : InStep cfg numOps seen r g) (s : Name) :
    InStep cfg numOps seen r (g.closeSecond cfg s) ∧ Keeps g.maps (g.closeSecond cfg s).maps ∧
      (g.closeSecond cfg s).maps.openFileMap.get? s ≠ some true := by
  unfold Gen.closeSecond
  by_cases hopen : g.maps.openFileMap.get? s = some true
  · rw [if_pos hopen]
    refine ⟨h.insertClose_file hopen, Keeps.note cfg g.maps s false, ?_⟩
    show (g.maps.note cfg s false).openFileMap.get? s ≠ some true
    rw [note_of_file (h.listed s (Agrees.mem_of_open hopen)), get?_setFile, if_pos rfl]
    simp
  · rw [if_neg hopen]
    exact ⟨h, Keeps.refl g.maps, hopen⟩

/-- The second file is closed by now. -/
theorem unlinkSecond (h : InStep cfg numOps seen r g) {s : Name}
    (hclosed : g.maps.openFileMap.get? s ≠ some true) :
    InStep cfg numOps seen r (g.unlinkSecond s) ∧
      s ∉ (g.unlinkSecond s).maps.openFileMap.keys ∧
      (∀ t ∈ g.maps.openFileMap.keys, t ≠ s → t ∈ (g.unlinkSecond s).maps.openFileMap.keys) ∧
      (g.unlinkSecond s).maps.openDirMap = g.maps.openDirMap := by
  unfold Gen.unlinkSecond
  by_cases hfalse : g.maps.openFileMap.get? s = some false
  · rw [if_pos hfalse]
    refine ⟨h.insertUnlink (Agrees.mem_of_open hfalse), ?_, ?_, rfl⟩
    · exact fun hmem => (Dict.mem_keys_erase.mp hmem).1 rfl
    · exact fun t ht hts => Dict.mem_keys_erase.mpr ⟨hts, ht⟩
  · rw [if_neg hfalse]
    refine ⟨h, fun hmem => ?_, fun t ht _ => ht, rfl⟩
    obtain ⟨b, hb⟩ := Dict.mem_keys.mp hmem
    cases b with
    | true => exact hclosed hb
    | false => exact hfalse hb

theorem checkClosed (h : InStep cfg numOps seen r g) (f : Name) :
    InStep cfg numOps seen r (g.checkClosed cfg f) ∧ Keeps g.maps (g.checkClosed cfg f).maps := by
  obtain ⟨hfile, hkeeps, -⟩ := h.closeSecond f
  unfold Gen.checkClosed
  show InStep cfg numOps seen r (if (g.closeSecond cfg f).maps.openDirMap.get? f = some true then
      (g.closeSecond cfg f).insertClose cfg f else g.closeSecond cfg f) ∧
    Keeps g.maps (if (g.closeSecond cfg f).maps.openDirMap.get? f = some true then
      (g.closeSecond cfg f).insertClose cfg f else g.closeSecond cfg f).maps
  by_cases hdir : (g.closeSecond cfg f).maps.openDirMap.get? f = some true
  · rw [if_pos hdir]
    exact ⟨hfile.insertClose_dir hdir, hkeeps.trans (Keeps.note cfg _ f false)⟩
  · rw [if_neg hdir]
    exact ⟨hfile, hkeeps⟩

theorem checkCreatDep (h : InStep cfg numOps seen r g) (f : Name) :
    InStep cfg numOps seen r (g.checkCreatDep f) ∧
      (g.checkCreatDep f).maps.openDirMap = g.maps.openDirMap := by
  unfold Gen.checkCreatDep
  by_cases hf : f ∈ g.maps.openFileMap.keys
  · rw [if_pos hf]
    exact ⟨h.insertUnlink hf, rfl⟩
  · rw [if_neg hf]
    exact ⟨h, rfl⟩

/-- A file of a directory that is to go. -/
theorem clearFile (h : InStep cfg numOps seen r g) (f : Name) :
    InStep cfg numOps seen r (g.clearFile cfg f) ∧
      (∀ t, t ∈ (g.clearFile cfg f).maps.openFileMap.keys →
        t ≠ f ∧ t ∈ g.maps.openFileMap.keys) ∧
      (g.clearFile cfg f).maps.openDirMap = g.maps.openDirMap := by
  unfold Gen.clearFile
  by_cases htrue : g.maps.openFileMap.get? f = some true
  · rw [if_pos htrue]
    have hmem := Agrees.mem_of_open htrue
    have hnote : (g.insertClose cfg f).maps = g.maps.setFile f false :=
      note_of_file (h.listed f hmem) g.maps false
    refine ⟨(h.insertClose_file htrue).insertUnlink ?_, fun t ht => ?_, ?_⟩
    · rw [hnote]
      exact Dict.mem_keys_set.mpr (Or.inl rfl)
    · have ht : t ∈ ((g.insertClose cfg f).maps.popFile f).openFileMap.keys := ht
      rw [hnote] at ht
      obtain ⟨htf, ht⟩ := Dict.mem_keys_erase.mp ht
      exact ⟨htf, (Dict.mem_keys_set.mp ht).resolve_left htf⟩
    · show (g.insertClose cfg f).maps.openDirMap = _
      rw [hnote]
      rfl
  · rw [if_neg htrue]
    by_cases hfalse : g.maps.openFileMap.get? f = some false
    · rw [if_pos hfalse]
      exact ⟨h.insertUnlink (Agrees.mem_of_open hfalse),
        fun t ht => Dict.mem_keys_erase.mp ht, rfl⟩
    · rw [if_neg hfalse]
      refine ⟨h, fun t ht => ⟨fun htf => ?_, ht⟩, rfl⟩
      obtain ⟨b, hb⟩ := Dict.mem_keys.mp ht
      rw [htf] at hb
      cases b with
      | true => exact htrue hb
      | false => exact hfalse hb

theorem clearFiles (h : InStep cfg numOps seen r g) (f f' : Name) :
    InStep cfg numOps seen r ((g.clearFile cfg f).clearFile cfg f') ∧
      (∀ t, t ∈ ((g.clearFile cfg f).clearFile cfg f').maps.openFileMap.keys →
        t ≠ f ∧ t ≠ f' ∧ t ∈ g.maps.openFileMap.keys) ∧
      ((g.clearFile cfg f).clearFile cfg f').maps.openDirMap = g.maps.openDirMap := by
  obtain ⟨hfirst, hkeys, hdirs⟩ := h.clearFile f
  obtain ⟨hsecond, hkeys', hdirs'⟩ := hfirst.clearFile f'
  refine ⟨hsecond, fun t ht => ?_, hdirs'.trans hdirs⟩
  obtain ⟨htf', ht⟩ := hkeys' t ht
  obtain ⟨htf, ht⟩ := hkeys t ht
  exact ⟨htf, htf', ht⟩

/-- `AC` goes with its files. -/
theorem clearAC (h : InStep cfg numOps seen r g) :
    InStep cfg numOps seen r (g.clearAC cfg) ∧
      (∀ t ∈ (g.clearAC cfg).maps.openFileMap.keys, t ∈ g.maps.openFileMap.keys) ∧
      .AC ∉ (g.clearAC cfg).maps.openDirMap.keys ∧
      (.A ∈ g.maps.openDirMap.keys → .A ∈ (g.clearAC cfg).maps.openDirMap.keys) := by
  obtain ⟨g₁, hg₁⟩ : ∃ g₁, g₁ =
    if g.maps.openDirMap.get? .AC = some true then g.insertClose cfg .AC else g := ⟨_, rfl⟩
  have hclosed : InStep cfg numOps seen r g₁ ∧ g₁.maps.openFileMap = g.maps.openFileMap ∧
      (.A ∈ g.maps.openDirMap.keys → .A ∈ g₁.maps.openDirMap.keys) := by
    rw [hg₁]
    by_cases hopen : g.maps.openDirMap.get? .AC = some true
    · have hnot : ¬ cfg.isFileOption .AC = true := fun hAC =>
        absurd (Config.isDir_of_isFileOption hAC) (by decide)
      have hnote : g.maps.note cfg .AC false = g.maps.setDir .AC false := if_neg hnot
      rw [if_pos hopen]
      refine ⟨h.insertClose_dir hopen, ?_, fun hA => ?_⟩
      · show (g.maps.note cfg .AC false).openFileMap = _
        rw [hnote]
        rfl
      · show Name.A ∈ (g.maps.note cfg .AC false).openDirMap.keys
        rw [hnote]
        exact Dict.mem_keys_set.mpr (Or.inr hA)
    · rw [if_neg hopen]
      exact ⟨h, rfl, id⟩
  obtain ⟨hstep, hsame, hA⟩ := hclosed
  have heq : g.clearAC cfg = if .AC ∈ g₁.maps.openDirMap.keys then
      ((g₁.clearFile cfg .ACfoo).clearFile cfg .ACbar).insertRmdir .AC else g₁ := by
    rw [hg₁]
    rfl
  rw [heq, ← hsame]
  by_cases hAC : .AC ∈ g₁.maps.openDirMap.keys
  · rw [if_pos hAC]
    obtain ⟨hclear, hkeys, hdirs⟩ := hstep.clearFiles .ACfoo .ACbar
    refine ⟨hclear.insertRmdir ?_ (by decide) ?_ ?_, fun t ht => (hkeys t ht).2.2, ?_, fun hmem => ?_⟩
    · rw [hdirs]
      exact hAC
    · intro t _ hp ht
      obtain ⟨hfoo, hbar, -⟩ := hkeys t ht
      exact (eq_of_parent_AC hp).elim hfoo hbar
    · intro t _ hdir hp
      rcases eq_of_parent_AC hp with rfl | rfl
      · cases hdir
      · cases hdir
    · exact fun hmem => (Dict.mem_keys_erase.mp hmem).1 rfl
    · refine Dict.mem_keys_erase.mpr ⟨by decide, ?_⟩
      rw [hdirs]
      exact hA hmem
  · rw [if_neg hAC]
    exact ⟨hstep, fun t ht => ht, hAC, hA⟩

/-- The directory `A` goes with all that is in it. -/
theorem checkDirDep_A (h : InStep cfg numOps seen r g) :
    InStep cfg numOps seen r (g.checkDirDep cfg .A) ∧
      .A ∉ (g.checkDirDep cfg .A).maps.openDirMap.keys := by
  have heq : g.checkDirDep cfg .A = if .A ∈ g.maps.openDirMap.keys then
      (((g.clearFile cfg .Afoo).clearFile cfg .Abar).clearAC cfg).insertRmdir .A else g := by
    unfold Gen.checkDirDep
    simp
  rw [heq]
  by_cases hA : .A ∈ g.maps.openDirMap.keys
  · rw [if_pos hA]
    obtain ⟨hfiles, hkeys, hdirs⟩ := h.clearFiles .Afoo .Abar
    obtain ⟨hclear, hsub, hAC, hmem⟩ := hfiles.clearAC
    refine ⟨hclear.insertRmdir (hmem ?_) (by decide) ?_ ?_, ?_⟩
    · rw [hdirs]
      exact hA
    · intro t hfile hp ht
      obtain ⟨hfoo, hbar, -⟩ := hkeys t (hsub t ht)
      rcases eq_of_parent_A hp with rfl | rfl | rfl
      · exact hfoo rfl
      · exact hbar rfl
      · cases hfile
    · intro t _ hdir hp ht
      rcases eq_of_parent_A hp with rfl | rfl | rfl
      · cases hdir
      · cases hdir
      · exact hAC ht
    · exact fun hmem => (Dict.mem_keys_erase.mp hmem).1 rfl
  · rw [if_neg hA]
    exact ⟨h, hA⟩

end InStep

end Ace
end Silhouette
