/-
A workload on files runs to its end, unless it extends an emptied file.

There is one lemma for each operation, which goes through its checks, and then the run
over the sequence.
-/
import Silhouette.Ace.Checks

namespace Silhouette
namespace Ace

open Lib

/-! ## Commands of the sequence -/

/-- The lines of a command work where the dictionaries are `m`, and make them `m'`. -/
def Carries (numOps : Nat) (seen seen' : List Command) (c : Command) (m m' : DepMaps) : Prop :=
  ∀ lm, Lengths m.fileLengthMap lm seen → ∃ out, buildJlang numOps lm c = some out ∧
    Lengths m'.fileLengthMap out.2 seen' ∧
    ∀ s, Agrees m s → renamesApart s out.1 = true → WorksAll out.1 s m'

theorem extendsEmptied_concat_of {seen : List Command} {c : Command}
    (h : ∀ f, c = .falloc f .overlapExtend → emptied f seen = false) :
    ExtendsEmptied (seen ++ [c]) ↔ ExtendsEmptied seen := by
  rw [extendsEmptied_concat]
  refine ⟨fun hor => hor.resolve_right ?_, Or.inl⟩
  intro ⟨f, hc, hemptied⟩
  rw [h f hc] at hemptied
  cases hemptied

namespace InStep

variable {cfg : Config} {numOps : Nat} {seen r : List Command} {g : Gen} {c : Command}

theorem next (h : InStep cfg numOps seen (c :: r) g) {seen' : List Command} {m' : DepMaps}
    (hcarries : Carries numOps seen seen' c g.maps m') (hlisted : Listed cfg m')
    (hseen : ExtendsEmptied seen' ↔ ExtendsEmptied seen) :
    InStep cfg numOps seen' r (g.setMaps m').next := by
  obtain ⟨e, w, h⟩ := h
  obtain ⟨out, hbuild, hlengths, hworks⟩ := hcarries w.lm h.lengths
  exact ⟨_, _, h.next hbuild hlengths hlisted hworks hseen⟩

/-- An operation is counted, and come to. -/
theorem nextCore (h : InStep cfg numOps seen (c :: r) g) {m' : DepMaps}
    (hcarries : Carries numOps seen (seen ++ [c]) c g.maps m') (hlisted : Listed cfg m')
    (hfine : ∀ f, c = .falloc f .overlapExtend → emptied f seen = false) :
    InStep cfg numOps (seen ++ [c]) r ((g.countCore numOps).setMaps m').next := by
  apply h.countCore.next
  · rw [countCore_maps]
    exact hcarries
  · exact hlisted
  · exact extendsEmptied_concat_of hfine

/-- An operation of one line that says nothing of lengths is counted, and come to. -/
theorem nextLine (h : InStep cfg numOps seen (c :: r) g) {m' : DepMaps} (hlisted : Listed cfg m')
    {l : Line} (hbuild : ∀ lm, buildJlang numOps lm c = some ([l], lm))
    (hsame : m'.fileLengthMap = g.maps.fileLengthMap) (hempties : ∀ f, c.empties f = false)
    (hlengthens : ∀ f, c.lengthens f = false)
    (hworks : ∀ s, Agrees g.maps s → l.apart s = true → Works l s m') :
    InStep cfg numOps (seen ++ [c]) r ((g.countCore numOps).setMaps m').next := by
  refine h.nextCore (fun lm hlm => ⟨_, hbuild lm, ?_, fun s hs hapart => ?_⟩) hlisted fun f hc => ?_
  · rw [hsame]
    exact hlm.concat hempties hlengthens
  · exact (hworks s hs (Bool.and_eq_true_iff.mp hapart).1).all
  · have hextend : c.lengthens f = true := by
      rw [hc]
      exact decide_eq_true rfl
    rw [hlengthens] at hextend
    cases hextend

/-- The persistence point behind an operation. -/
theorem nextPoint {ret : Nat} (h : InStep cfg numOps seen (.none' ret :: r) g) :
    InStep cfg numOps seen r g.next := by
  show InStep cfg numOps seen r (g.setMaps g.maps).next
  refine h.next (fun lm hlm => ⟨_, rfl, hlm, fun s hs _ => ⟨s, ?_, hs⟩⟩) h.listed Iff.rfl
  show (if ret + 1 = numOps ∨ numOps = 1 then [Line.none', .checkpoint] else []).foldlM
    Line.exec s = some s
  split <;> rfl

/-- The file is there and open. -/
theorem exists_file (h : InStep cfg numOps seen r g) {f : Name} (hf : cfg.isFileOption f = true) :
    InStep cfg numOps seen r ((g.checkParentExistsDep [f]).checkExistsDep cfg f) ∧
      ((g.checkParentExistsDep [f]).checkExistsDep cfg f).maps.openFileMap.get? f = some true := by
  obtain ⟨hparent, -, hp⟩ := h.checkParent f
  obtain ⟨hexists, -, hopen⟩ := hparent.checkExistsDep hf hp
  exact ⟨hexists, hopen⟩

/-- The file is there and open, and its length is known. -/
theorem exists_length (h : InStep cfg numOps seen r g) {f : Name}
    (hf : cfg.isFileOption f = true) {g' : Gen}
    (hg' : g' = ((g.checkParentExistsDep [f]).checkExistsDep cfg f).checkFileLength f) :
    InStep cfg numOps seen r g' ∧ g'.maps.openFileMap.get? f = some true ∧
      f ∈ g'.maps.fileLengthMap.keys := by
  subst hg'
  obtain ⟨hexists, hopen⟩ := h.exists_file hf
  obtain ⟨hlen, hsame, hknown⟩ := hexists.checkFileLength hopen
  rw [hsame]
  exact ⟨hlen, hopen, hknown⟩

/-- Both files have their directories, and the first one is there. -/
theorem exists_first (h : InStep cfg numOps seen r g) {f s : Name}
    (hf : cfg.isFileOption f = true) {g' : Gen}
    (hg' : g' = (g.checkParentExistsDep [f, s]).checkExistsDep cfg f) :
    InStep cfg numOps seen r g' ∧ f ∈ g'.maps.openFileMap.keys ∧ HasDir g'.maps s.parent := by
  subst hg'
  obtain ⟨hfirst, -, hp⟩ := h.checkParent f
  obtain ⟨hsecond, hkeeps, hps⟩ := hfirst.checkParent s
  obtain ⟨hexists, hkeeps', hopen⟩ := hsecond.checkExistsDep hf (hkeeps.dirs _ hp)
  exact ⟨hexists, Agrees.mem_of_open hopen, hkeeps'.dirs _ hps⟩

end InStep

/-! ## Lengths behind an operation -/

theorem emptied_of_empties {f : Name} {c : Command} (h : c.empties f = true)
    (seen : List Command) : emptied f (seen ++ [c]) = true := by
  rw [emptied_concat, if_pos h]

theorem emptied_of_lengthens {f : Name} {c : Command} (hempties : c.empties f = false)
    (h : c.lengthens f = true) (seen : List Command) : emptied f (seen ++ [c]) = false := by
  rw [emptied_concat, hempties, if_neg (by simp), if_pos h]

theorem emptied_of_neither {f : Name} {c : Command} (hempties : c.empties f = false)
    (hlengthens : c.lengthens f = false) (seen : List Command) :
    emptied f (seen ++ [c]) = emptied f seen := by
  rw [emptied_concat, hempties, hlengthens]
  rfl

namespace Lengths

variable {written : Dict Name Nat} {lm : LengthMap} {seen : List Command}

/-- The operation lengthens one file. -/
theorem lengthen (h : Lengths written lm seen) {written' : Dict Name Nat} {c : Command}
    {f : Name} {size : Int} (hkeys : ∀ t, t ∈ written'.keys ↔ t = f ∨ t ∈ written.keys)
    (hsize : 1024 ≤ size) (hempties : ∀ t, c.empties t = false)
    (hlengthens : ∀ t, c.lengthens t = decide (f = t)) :
    Lengths written' (lm.set f size) (seen ++ [c]) := by
  apply h.change hkeys (by omega)
  · rw [emptied_of_lengthens (hempties f) (by rw [hlengthens]; exact decide_eq_true rfl)]
    simp only [Bool.false_eq_true, iff_false]
    omega
  · intro t ht
    exact emptied_of_neither (hempties t)
      (by rw [hlengthens]; exact decide_eq_false (Ne.symm ht)) seen

theorem empty (h : Lengths written lm seen) {f : Name} (hf : f ∈ written.keys) :
    Lengths written (lm.set f 0) (seen ++ [.truncate f .aligned]) := by
  apply h.change (f := f) (fun t => ⟨Or.inr, fun hor => hor.elim (fun ht => ht ▸ hf) id⟩) (le_refl 0)
  · rw [emptied_of_empties (c := .truncate f .aligned) (decide_eq_true rfl)]
    simp
  · intro t ht
    exact emptied_of_neither (c := .truncate f .aligned) (decide_eq_false (Ne.symm ht)) rfl seen

end Lengths

/-! ## Operations -/

namespace InStep

variable {cfg : Config} {numOps : Nat} {seen r : List Command} {g : Gen} {f s : Name}

theorem next_creat (h : InStep cfg numOps seen (.creat f :: r) g)
    (hf : cfg.isFileOption f = true) :
    InStep cfg numOps (seen ++ [.creat f]) r (g.satisfyDep cfg numOps (.creat f)).next := by
  obtain ⟨hparent, -, hp⟩ := h.checkParent f
  obtain ⟨hcreat, hdirs⟩ := hparent.checkCreatDep f
  rw [Gen.satisfyDep]
  show InStep _ _ _ _ (Gen.setMaps _ ((Gen.countCore _ _).maps.setFile f true)).next
  rw [countCore_maps]
  apply hcreat.nextLine (hcreat.listed.setFile hf true) (l := .open' f) (fun _ => rfl) rfl
    (fun _ => rfl) (fun _ => rfl)
  intro s hs _
  apply hs.open_works (Config.isDir_of_isFileOption hf)
  apply hs.mem_of_hasDir
  unfold HasDir
  rw [hdirs]
  exact hp

theorem next_mkdir (h : InStep cfg numOps seen (.mkdir .A :: r) g) :
    InStep cfg numOps (seen ++ [.mkdir .A]) r (g.satisfyDep cfg numOps (.mkdir .A)).next := by
  obtain ⟨hcheck, hnew⟩ := h.checkDirDep_A
  rw [Gen.satisfyDep]
  show InStep _ _ _ _ (Gen.setMaps _ ((Gen.countCore _ _).maps.setDir .A false)).next
  rw [countCore_maps]
  have hlisted : Listed cfg ((g.checkDirDep cfg .A).maps.setDir .A false) := hcheck.listed
  apply hcheck.nextLine hlisted (l := .mkdir .A) (fun _ => rfl) rfl (fun _ => rfl) (fun _ => rfl)
  exact fun s hs _ => hs.mkdir_works rfl hnew (hs.mem_of_hasDir (Or.inl rfl))

theorem next_link (h : InStep cfg numOps seen (.link f s :: r) g)
    (hf : cfg.isFileOption f = true) (hs : cfg.isFileOption s = true) (hne : f ≠ s) :
    InStep cfg numOps (seen ++ [.link f s]) r (g.satisfyDep cfg numOps (.link f s)).next := by
  obtain ⟨hexists, hmem, hp⟩ := h.exists_first (s := s) hf rfl
  obtain ⟨hclose, hkeeps, hclosed⟩ := hexists.closeSecond s
  obtain ⟨hunlink, hnot, hother, hdirs⟩ := hclose.unlinkSecond hclosed
  rw [Gen.satisfyDep, Gen.satisfyLink]
  show InStep _ _ _ _ (Gen.setMaps _ ((Gen.countCore _ _).maps.setFile s false)).next
  rw [countCore_maps]
  apply hunlink.nextLine (hunlink.listed.setFile hs false) (l := .link f s) (fun _ => rfl) rfl
    (fun _ => rfl) (fun _ => rfl)
  intro t ht _
  apply ht.link_works (hother f (hkeeps.files f hmem) hne) (Config.isDir_of_isFileOption hs) hnot
  apply ht.mem_of_hasDir
  unfold HasDir
  rw [hdirs]
  exact hkeeps.dirs _ hp

/-- `unlink` and `remove` differ in their lines only. -/
theorem next_satisfyRemove {c : Command} {l : Line} (h : InStep cfg numOps seen (c :: r) g)
    (hf : cfg.isFileOption f = true) (hbuild : ∀ lm, buildJlang numOps lm c = some ([l], lm))
    (hempties : ∀ t, c.empties t = false) (hlengthens : ∀ t, c.lengthens t = false)
    (hworks : ∀ m s, Agrees m s → f ∈ m.openFileMap.keys → Works l s (m.popFile f)) :
    InStep cfg numOps (seen ++ [c]) r (g.satisfyRemove cfg numOps f).next := by
  obtain ⟨hexists, hopen⟩ := h.exists_file hf
  obtain ⟨hclosed, hkeeps⟩ := hexists.checkClosed f
  have hmem := hkeeps.files f (Agrees.mem_of_open hopen)
  rw [Gen.satisfyRemove]
  show InStep _ _ _ _ (Gen.setMaps _ ((Gen.countCore _ _).maps.popFile f)).next
  rw [countCore_maps]
  exact hclosed.nextLine hclosed.listed.popFile hbuild rfl hempties hlengthens
    fun s hs _ => hworks _ s hs hmem

/-- The dictionaries follow a rename before it is counted. -/
theorem next_moveName (h : InStep cfg numOps seen (.rename f s :: r) g)
    (hf : cfg.isFileOption f = true) (hs : cfg.isFileOption s = true)
    (hmem : f ∈ g.maps.openFileMap.keys) (hp : HasDir g.maps s.parent) :
    InStep cfg numOps (seen ++ [.rename f s]) r ((g.moveName cfg f s).countCore numOps).next := by
  rw [Gen.moveName, if_pos hf, countCore_setMaps]
  apply h.nextLine (h.listed.popFile.setFile hs false) (l := .rename f s) (fun _ => rfl) rfl
    (fun _ => rfl) (fun _ => rfl)
  intro t ht hapart
  exact ht.rename_works hmem (Config.isDir_of_isFileOption hs) (ht.mem_of_hasDir hp)
    (of_decide_eq_true hapart)

theorem next_rename (h : InStep cfg numOps seen (.rename f s :: r) g)
    (hf : cfg.isFileOption f = true) (hs : cfg.isFileOption s = true) :
    InStep cfg numOps (seen ++ [.rename f s]) r (g.satisfyDep cfg numOps (.rename f s)).next := by
  obtain ⟨hexists, hmem, hp⟩ := h.exists_first (s := s) hf rfl
  obtain ⟨hfirst, hkeeps⟩ := hexists.checkClosed f
  obtain ⟨hclose, hkeeps', -⟩ := hfirst.closeSecond s
  rw [Gen.satisfyDep]
  exact hclose.next_moveName hf hs ((hkeeps.trans hkeeps').files f hmem)
    ((hkeeps.trans hkeeps').dirs _ hp)

theorem countCore_setMaps_self (numOps : Nat) (g : Gen) :
    (g.countCore numOps).setMaps g.maps = g.countCore numOps := by
  rw [← countCore_maps numOps g]
  rfl

/-- An extension over the end begins in front of a file that is empty. -/
theorem next_extend (h : InStep cfg numOps seen (.falloc f .overlapExtend :: r) g)
    (hopen : g.maps.openFileMap.get? f = some true) (hknown : f ∈ g.maps.fileLengthMap.keys) :
    InStep cfg numOps (seen ++ [.falloc f .overlapExtend]) r (g.countCore numOps).next := by
  have hlengthen : ∀ lm size, Lengths g.maps.fileLengthMap lm seen → 0 ≤ size →
      Lengths g.maps.fileLengthMap (lm.set f (size + 1024))
        (seen ++ [.falloc f .overlapExtend]) :=
    fun lm size hlm hsize => hlm.lengthen (fun t => ⟨Or.inr, fun hor => hor.elim (fun ht => ht ▸ hknown) id⟩)
      (by omega) (fun _ => rfl) (fun _ => rfl)
  have hbuild : ∀ lm size, lm.get? f = some size →
      buildJlang numOps lm (.falloc f .overlapExtend) =
        some ([.falloc f (size - 1024) 2048], lm.set f (size + 1024)) := by
    intro lm size hsize
    rw [buildJlang, hsize]
    rfl
  by_cases hempty : emptied f seen = true
  · obtain ⟨e, w, h⟩ := h.countCore
    have hlengths := h.lengths
    rw [countCore_maps] at hlengths
    obtain ⟨size, hsize, hpos, hiff⟩ := hlengths.known f hknown
    refine ⟨_, _, h.next_fails (hbuild w.lm size hsize) ?_
      ((extendsEmptied_concat _ _).mpr (Or.inr ⟨f, rfl, hempty⟩)) fun s => ?_⟩
    · rw [countCore_maps]
      exact hlengthen w.lm size hlengths hpos
    · have hsmall : size < 1024 := hiff.mpr hempty
      rw [List.foldlM_cons, Line.exec, if_neg (by omega)]
      rfl
  · rw [← countCore_setMaps_self]
    refine h.nextCore (fun lm hlm => ?_) h.listed fun t ht => ?_
    · obtain ⟨size, hsize, hpos, hiff⟩ := hlm.known f hknown
      refine ⟨_, hbuild lm size hsize, hlengthen lm size hlm hpos, fun s hs _ => ?_⟩
      have hlarge : ¬ size < 1024 := fun hsmall => hempty (hiff.mp hsmall)
      exact (hs.falloc_works hopen (by omega) (by omega)).all
    · injection ht with hft
      rw [← hft]
      exact Bool.not_eq_true _ ▸ hempty

theorem next_falloc {option : WriteOption} (h : InStep cfg numOps seen (.falloc f option :: r) g)
    (hf : cfg.isFileOption f = true) :
    InStep cfg numOps (seen ++ [.falloc f option]) r
      (g.satisfyDep cfg numOps (.falloc f option)).next := by
  obtain ⟨hlen, hopen, hknown⟩ := h.exists_length hf rfl
  rw [Gen.satisfyDep]
  cases option with
  | overlapExtend => exact hlen.next_extend hopen hknown
  | overlapUnalignedStart =>
    rw [← countCore_setMaps_self]
    exact hlen.nextLine hlen.listed (l := .falloc f 0 1024) (fun _ => rfl) rfl (fun _ => rfl)
      (fun _ => rfl) fun s hs _ => hs.falloc_works hopen (by omega) (by omega)
  | append =>
    rw [← countCore_setMaps_self]
    refine hlen.nextCore (fun lm hlm => ?_) hlen.listed fun t ht => by cases ht
    obtain ⟨size, hsize, hpos, -⟩ := hlm.known f hknown
    refine ⟨([.falloc f size 4096], lm.set f (size + 4096)), ?_, ?_, fun s hs _ => ?_⟩
    · rw [buildJlang, hsize]
      rfl
    · exact hlm.lengthen (fun t => ⟨Or.inr, fun hor => hor.elim (fun ht => ht ▸ hknown) id⟩)
        (by omega) (fun _ => rfl) (fun _ => rfl)
    · exact (hs.falloc_works hopen hpos (by omega)).all

theorem next_truncate {option : TruncateOption}
    (h : InStep cfg numOps seen (.truncate f option :: r) g) (hf : cfg.isFileOption f = true) :
    InStep cfg numOps (seen ++ [.truncate f option]) r
      (g.satisfyDep cfg numOps (.truncate f option)).next := by
  obtain ⟨hlen, hopen, hknown⟩ := h.exists_length hf rfl
  have hmem := Agrees.mem_of_open hopen
  rw [Gen.satisfyDep, ← countCore_setMaps_self]
  cases option with
  | aligned =>
    refine hlen.nextCore (fun lm hlm => ⟨_, rfl, hlm.empty hknown, fun s hs _ => ?_⟩) hlen.listed
      fun t ht => by cases ht
    exact (hs.truncate_works hmem (le_refl 0)).all
  | unaligned =>
    exact hlen.nextLine hlen.listed (l := .truncate f 256) (fun _ => rfl) rfl
      (fun t => by rfl) (fun _ => rfl) fun s hs _ => hs.truncate_works hmem (by omega)

/-- A direct write at the end counts as one before it is come to, as does its close. -/
theorem next_dwriteAppend (h : InStep cfg numOps seen (.dwrite f .append :: r) g)
    (hf : cfg.isFileOption f = true) (hopen : g.maps.openFileMap.get? f = some true) :
    InStep cfg numOps (seen ++ [.dwrite f .append]) r
      ((g.setMaps ((g.maps.addLength f).setFile f false)).countCore numOps).next := by
  rw [countCore_setMaps]
  refine h.nextCore (fun lm hlm => ?_) (Listed.setFile h.listed hf false) fun t ht => by cases ht
  refine ⟨appendLine .dwrite lm f, rfl, ?_, fun s hs _ => ?_⟩
  · have hpos := hlm.getD_nonneg f
    exact hlm.lengthen (mem_keys_addLength g.maps f) (by omega) (fun _ => rfl) (fun _ => rfl)
  · have hwrite : Works (.dwrite f ((lm.get? f).getD 0) 4096) s (g.maps.setFile f false) :=
      hs.dwrite_works hopen (hlm.getD_nonneg f)
    obtain ⟨s', hexec, hs'⟩ := hwrite
    exact Works.all ⟨s', hexec, hs'.files, hs'.dirs, hs'.named, hs'.handles, hs'.noDirOpen⟩

theorem next_dwrite {option : DWriteOption} (h : InStep cfg numOps seen (.dwrite f option :: r) g)
    (hf : cfg.isFileOption f = true) :
    InStep cfg numOps (seen ++ [.dwrite f option]) r
      (g.satisfyDep cfg numOps (.dwrite f option)).next := by
  cases option with
  | append =>
    obtain ⟨hexists, hopen⟩ := h.exists_file hf
    simp only [Gen.satisfyDep, if_pos hf]
    exact hexists.next_dwriteAppend hf hopen
  | overlapStart =>
    obtain ⟨hlen, hopen, -⟩ := h.exists_length hf rfl
    simp only [Gen.satisfyDep, if_pos hf, countCore_setMaps]
    exact hlen.nextLine (hlen.listed.setFile hf false) (l := .dwrite f 0 1024) (fun _ => rfl) rfl
      (fun _ => rfl) (fun _ => rfl) fun s hs _ => hs.dwrite_works hopen (le_refl 0)

end InStep

/-! ## Workloads -/

/-- The operations on files, and `mkdir`, with parameters out of the lists. -/
inductive OnOptions (cfg : Config) : Command → Prop
  | creat {f : Name} (hf : cfg.isFileOption f = true) : OnOptions cfg (.creat f)
  | mkdir : OnOptions cfg (.mkdir .A)
  | falloc {f : Name} (hf : cfg.isFileOption f = true) (option : WriteOption) :
      OnOptions cfg (.falloc f option)
  | dwrite {f : Name} (hf : cfg.isFileOption f = true) (option : DWriteOption) :
      OnOptions cfg (.dwrite f option)
  | truncate {f : Name} (hf : cfg.isFileOption f = true) (option : TruncateOption) :
      OnOptions cfg (.truncate f option)
  | link {f s : Name} (hf : cfg.isFileOption f = true) (hs : cfg.isFileOption s = true)
      (hne : f ≠ s) : OnOptions cfg (.link f s)
  | rename {f s : Name} (hf : cfg.isFileOption f = true) (hs : cfg.isFileOption s = true) :
      OnOptions cfg (.rename f s)
  | unlink {f : Name} (hf : cfg.isFileOption f = true) : OnOptions cfg (.unlink f)
  | remove {f : Name} (hf : cfg.isFileOption f = true) : OnOptions cfg (.remove f)

theorem isFileOption_of_filePairs {cfg : Config} {x : Name × Name} (h : x ∈ cfg.filePairs) :
    cfg.isFileOption x.1 = true ∧ cfg.isFileOption x.2 = true ∧ x.1 ≠ x.2 := by
  obtain ⟨hmem, hne⟩ := List.mem_filter.mp h
  obtain ⟨hf, hs⟩ := List.pair_mem_product.mp hmem
  exact ⟨Config.isFileOption_of_mem_append hf, Config.isFileOption_of_second hs,
    of_decide_eq_true hne⟩

theorem isDir_of_dirPairs {x : Name × Name} (h : x ∈ Config.dirPairs) : x.1.isDir = true := by
  obtain ⟨hmem, -⟩ := List.mem_filter.mp h
  have hall : ∀ d ∈ dirOptions ++ secondDirOptions, d.isDir = true := by decide
  exact hall x.1 (List.pair_mem_product.mp hmem).1

theorem onOptions_of_mem {cfg : Config} {op : Op} {c : Command} (h : c ∈ cfg.buildTuple op)
    (hfiles : c.onFiles = true) : OnOptions cfg c := by
  cases op with
  | creat =>
    obtain ⟨f, hf, rfl⟩ := List.mem_map.mp h
    exact .creat (Config.isFileOption_of_mem hf)
  | mkdir =>
    obtain ⟨d, hd, rfl⟩ := List.mem_map.mp h
    rw [List.mem_singleton.mp hd]
    exact .mkdir
  | falloc =>
    obtain ⟨x, hx, rfl⟩ := List.mem_map.mp h
    exact .falloc (Config.isFileOption_of_mem (List.pair_mem_product.mp hx).1) x.2
  | dwrite =>
    obtain ⟨x, hx, rfl⟩ := List.mem_map.mp h
    exact .dwrite (Config.isFileOption_of_mem (List.pair_mem_product.mp hx).1) x.2
  | truncate =>
    obtain ⟨x, hx, rfl⟩ := List.mem_map.mp h
    exact .truncate (Config.isFileOption_of_mem (List.pair_mem_product.mp hx).1) x.2
  | link =>
    obtain ⟨x, hx, rfl⟩ := List.mem_map.mp h
    obtain ⟨hf, hs, hne⟩ := isFileOption_of_filePairs hx
    exact .link hf hs hne
  | rename =>
    rcases List.mem_append.mp h with h | h
    · obtain ⟨x, hx, rfl⟩ := List.mem_map.mp h
      obtain ⟨hf, hs, -⟩ := isFileOption_of_filePairs hx
      exact .rename hf hs
    · obtain ⟨x, hx, rfl⟩ := List.mem_map.mp h
      rw [Command.onFiles, isDir_of_dirPairs hx] at hfiles
      cases hfiles
  | unlink =>
    obtain ⟨f, hf, rfl⟩ := List.mem_map.mp h
    exact .unlink (Config.isFileOption_of_mem_append hf)
  | remove =>
    obtain ⟨f, hf, rfl⟩ := List.mem_map.mp h
    exact .remove (Config.isFileOption_of_mem_append hf)
  | symlink =>
    obtain ⟨x, hx, rfl⟩ := List.mem_map.mp h
    cases hfiles
  | rmdir =>
    obtain ⟨d, hd, rfl⟩ := List.mem_map.mp h
    cases hfiles

namespace InStep

variable {cfg : Config} {numOps : Nat} {seen r : List Command} {g : Gen}

/-- An operation gets what it depends on, and works. -/
theorem satisfyDep {c : Command} (h : InStep cfg numOps seen (c :: r) g) (hc : OnOptions cfg c) :
    InStep cfg numOps (seen ++ [c]) r (g.satisfyDep cfg numOps c).next := by
  cases hc with
  | creat hf => exact h.next_creat hf
  | mkdir => exact h.next_mkdir
  | falloc hf option => exact h.next_falloc hf
  | dwrite hf option => exact h.next_dwrite hf
  | truncate hf option => exact h.next_truncate hf
  | link hf hs hne => exact h.next_link hf hs hne
  | rename hf hs => exact h.next_rename hf hs
  | unlink hf =>
    exact h.next_satisfyRemove hf (fun _ => rfl) (fun _ => rfl) (fun _ => rfl)
      fun m s hs hmem => hs.unlink_works hmem
  | remove hf =>
    exact h.next_satisfyRemove hf (fun _ => rfl) (fun _ => rfl) (fun _ => rfl)
      fun m s hs hmem => hs.remove_works hmem

theorem satisfyAll {l : List (Command × Nat)} (hl : ∀ x ∈ l, OnOptions cfg x.1)
    (h : InStep cfg numOps seen (withPoints numOps l) g) :
    InStep cfg numOps (seen ++ l.map Prod.fst) []
      (satisfyAll cfg numOps (withPoints numOps l) g) := by
  induction l generalizing seen g with
  | nil =>
    rw [List.map_nil, List.append_nil]
    exact h
  | cons x rest ih =>
    rw [satisfyAll_withPoints_cons, List.map_cons, ← List.singleton_append, ← List.append_assoc]
    rw [withPoints_cons] at h
    exact ih (fun y hy => hl y (List.mem_cons_of_mem x hy))
      (h.satisfyDep (hl x List.mem_cons_self)).nextPoint

/-- What is open is closed. -/
theorem closeAll (isOpen : Gen → Name → Bool) (l : List Name)
    (hclose : ∀ g f, InStep cfg numOps seen r g → isOpen g f = true →
      InStep cfg numOps seen r (g.insertClose cfg f))
    (h : InStep cfg numOps seen r g) : InStep cfg numOps seen r (g.closeAll cfg isOpen l) := by
  induction l generalizing g with
  | nil => exact h
  | cons f rest ih =>
    unfold Gen.closeAll
    rw [List.foldl_cons]
    apply ih
    split
    · exact hclose g f h ‹_›
    · exact h

theorem closeFiles (h : InStep cfg numOps seen r g) :
    InStep cfg numOps seen r (g.closeFiles cfg) :=
  closeAll _ _ (fun _ _ h hf => h.insertClose_file (of_decide_eq_true hf)) h

theorem closeDirs (h : InStep cfg numOps seen r g) :
    InStep cfg numOps seen r (g.closeDirs cfg) :=
  closeAll _ _ (fun _ _ h hd => h.insertClose_dir (of_decide_eq_true hd)) h

end InStep

theorem inStep_start (cfg : Config) (numOps : Nat) (seq : List Command) :
    InStep cfg numOps [] seq (Gen.start seq) := by
  refine ⟨[], World.start, ⟨rfl, rfl⟩, rfl, Lengths.start, ?_, ?_, ?_⟩
  · exact fun f hf => absurd hf List.not_mem_nil
  · intro _ s hs
    rw [← Option.some.inj hs]
    exact Agrees.start
  · intro _
    refine ⟨fun _ => ?_, fun _ => rfl⟩
    intro ⟨pre, f, post, heq, _⟩
    cases pre <;> cases heq

/-- The program of a workload on files always can be made.  When its renames are between
different files, no statement of it fails, except where an emptied file is extended over its
end. -/
theorem runProgram_jlangFile {cfg : Config} {ops : List Command} (hops : cfg.IsWorkload ops)
    (hfiles : ∀ c ∈ ops, c.onFiles = true) :
    ∃ lines, jlangFile cfg ops = some lines ∧
      (renamesApart Prog.start lines = true →
        ((runProgram lines).isSome = true ↔ ¬ ExtendsEmptied ops)) := by
  have hoptions : ∀ x ∈ ops.zipIdx, OnOptions cfg x.1 := by
    intro x hx
    have hmem : x.1 ∈ ops := List.fst_mem_of_mem_zipIdx hx
    obtain ⟨op, -, hop⟩ := hops x.1 hmem
    exact onOptions_of_mem hop (hfiles x.1 hmem)
  have hall := (inStep_start cfg ops.length (sequence ops)).satisfyAll hoptions
  rw [List.nil_append, List.zipIdx_map_fst] at hall
  obtain ⟨e, w, hplace, hran, -, -, -, hends⟩ := hall.closeFiles.closeDirs
  obtain ⟨lines, hlines, hrun, hapart⟩ := World.lines_of_run hran
  have hseq : modifiedSequence cfg ops = e := hplace.1.trans (List.append_nil e)
  refine ⟨lines, ?_, ?_⟩
  · unfold jlangFile jlangLines
    rw [hseq, hlines]
    rfl
  · rw [hrun, hapart]
    exact hends

theorem runProgram_jlangFile_rename :
    ∃ lines, jlangFile ⟨false, false⟩ [.dwrite .foo .append, .rename .foo .bar, .link .bar .Abar] =
        some lines ∧
      (renamesApart Prog.start lines = true →
        ((runProgram lines).isSome = true ↔
          ¬ ExtendsEmptied [.dwrite .foo .append, .rename .foo .bar, .link .bar .Abar])) :=
  runProgram_jlangFile (by decide) (by decide)

/-- Its renames are between different files. -/
example :
    (jlangFile ⟨false, false⟩ [.dwrite .foo .append, .rename .foo .bar, .link .bar .Abar]).map
      (renamesApart Prog.start) = some true := by decide

/-- The allocation begins at -1024. -/
example :
    ((jlangFile ⟨false, false⟩ [.truncate .foo .aligned, .falloc .foo .overlapExtend]).bind
      runProgram).isSome = false := by decide

/-- Renaming one link of a file to another leaves both, and the generator takes the first
one for gone. -/
example :
    ((jlangFile ⟨false, false⟩ [.link .bar .Abar, .rename .bar .Abar, .link .foo .bar]).bind
      runProgram).isSome = false := by decide

end Ace
end Silhouette
