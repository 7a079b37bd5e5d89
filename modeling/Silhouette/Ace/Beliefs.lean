/-
What the dictionaries of the generator say of the file system.

`Agrees` relates the dictionaries, as they are where the generator stands, to the state
that the program is in behind the commands in front of that place.  There is one lemma
for each command, with what the dictionaries have to say before it.
-/
import Silhouette.Ace.Jlang

namespace Silhouette
namespace Ace

open Lib Lib.PosixFs

/-- The dictionaries list the files and directories that there are; a file that they have
as open is so under its name, and no directory is open. -/
structure Agrees (m : DepMaps) (s : Prog) : Prop where
  files : ∀ f, f ∈ m.openFileMap.keys ↔ f.isDir = false ∧ ∃ v, s.fs.lookup f.path = some v
  dirs : ∀ d, d ∈ m.openDirMap.keys ↔ d.isDir = true ∧ ∃ v, s.fs.lookup d.path = some v
  named : ∀ p v, s.fs.lookup p = some v → ∃ f : Name, f.path = p ∧ v.isDir = f.isDir
  handles : ∀ f, m.openFileMap.get? f = some true →
    ∃ i, s.fs.lookup f.path = some (.file i) ∧ s.fd.get? f = some (some (.file i))
  noDirOpen : ∀ d, m.openDirMap.get? d ≠ some true

namespace Agrees

theorem start : Agrees DepMaps.start Prog.start where
  files := by
    intro f
    constructor
    · intro hf
      exact absurd hf (List.not_mem_nil)
    · intro ⟨hf, v, hv⟩
      have hne : f.path ≠ [] := by
        cases f <;> first | exact absurd hf (by decide) | exact List.cons_ne_nil _ _
      rw [show Prog.start.fs = Fs.empty from rfl, Fs.lookup_empty hne] at hv
      cases hv
  dirs := by
    intro d
    have hkeys : DepMaps.start.openDirMap.keys = [.test] := rfl
    rw [hkeys, List.mem_singleton]
    constructor
    · intro hd
      rw [hd]
      exact ⟨rfl, _, rfl⟩
    · intro ⟨_, v, hv⟩
      by_cases hp : d.path = []
      · exact Name.path_injective (hp.trans rfl)
      · rw [show Prog.start.fs = Fs.empty from rfl, Fs.lookup_empty hp] at hv
        cases hv
  named := by
    intro p v hv
    by_cases hp : p = []
    · rw [hp, Fs.lookup_nil] at hv
      exact ⟨.test, hp.symm, by rw [← Option.some.inj hv]; rfl⟩
    · rw [show Prog.start.fs = Fs.empty from rfl, Fs.lookup_empty hp] at hv
      cases hv
  handles := by
    intro f hf
    cases hf
  noDirOpen := by
    intro d hd
    cases d <;> cases hd

variable {m : DepMaps} {s : Prog}

theorem isDir_of_lookup (h : Agrees m s) {f : Name} {v : Node}
    (hv : s.fs.lookup f.path = some v) : v.isDir = f.isDir := by
  obtain ⟨t, hpath, hdir⟩ := h.named _ v hv
  rw [hdir, Name.path_injective hpath]

theorem file (h : Agrees m s) {f : Name} (hf : f ∈ m.openFileMap.keys) :
    ∃ i, s.fs.lookup f.path = some (.file i) := by
  obtain ⟨hdir, v, hv⟩ := (h.files f).mp hf
  have hv' := h.isDir_of_lookup hv
  cases v with
  | dir => rw [hdir] at hv'; cases hv'
  | file i => exact ⟨i, hv⟩

theorem dir (h : Agrees m s) {d : Name} (hd : d ∈ m.openDirMap.keys) :
    s.fs.lookup d.path = some .dir := by
  obtain ⟨hdir, v, hv⟩ := (h.dirs d).mp hd
  have hv' := h.isDir_of_lookup hv
  cases v with
  | dir => exact hv
  | file i => rw [hdir] at hv'; cases hv'

theorem no_file (h : Agrees m s) {f : Name} (hdir : f.isDir = false)
    (hf : f ∉ m.openFileMap.keys) : s.fs.lookup f.path = none := by
  cases hv : s.fs.lookup f.path with
  | none => rfl
  | some v => exact absurd ((h.files f).mpr ⟨hdir, v, hv⟩) hf

theorem no_dir (h : Agrees m s) {d : Name} (hdir : d.isDir = true)
    (hd : d ∉ m.openDirMap.keys) : s.fs.lookup d.path = none := by
  cases hv : s.fs.lookup d.path with
  | none => rfl
  | some v => exact absurd ((h.dirs d).mpr ⟨hdir, v, hv⟩) hd

/-- There is room for a file where its directory is. -/
theorem room_file (h : Agrees m s) {f : Name} (hdir : f.isDir = false)
    (hp : f.parent ∈ m.openDirMap.keys) : s.fs.Room f.path := by
  refine ⟨?_, fun hv => ?_⟩
  · rw [Name.path_dropLast]
    exact h.dir hp
  · have := h.isDir_of_lookup hv
    rw [hdir] at this
    cases this

theorem room_dir (h : Agrees m s) {d : Name} (hdir : d.isDir = true)
    (hd : d ∉ m.openDirMap.keys) (hp : d.parent ∈ m.openDirMap.keys) : s.fs.Room d.path := by
  refine ⟨?_, fun hv => ?_⟩
  · rw [Name.path_dropLast]
    exact h.dir hp
  · rw [h.no_dir hdir hd] at hv
    cases hv

/-! ## What changes -/

/-- One name changes, in the tree and in the dictionaries. -/
theorem change (h : Agrees m s) {f : Name} {v : Option Node} {m' : DepMaps} {s' : Prog}
    (hv : ∀ w, v = some w → w.isDir = f.isDir)
    (hfs : ∀ p, s'.fs.lookup p = if p = f.path then v else s.fs.lookup p)
    (hfile : f ∈ m'.openFileMap.keys ↔ f.isDir = false ∧ v.isSome = true)
    (hfiles : ∀ t, t ≠ f → (t ∈ m'.openFileMap.keys ↔ t ∈ m.openFileMap.keys))
    (hdir : f ∈ m'.openDirMap.keys ↔ f.isDir = true ∧ v.isSome = true)
    (hdirs : ∀ t, t ≠ f → (t ∈ m'.openDirMap.keys ↔ t ∈ m.openDirMap.keys))
    (hhandle : m'.openFileMap.get? f = some true →
      ∃ i, v = some (.file i) ∧ s'.fd.get? f = some (some (.file i)))
    (hhandles : ∀ t, t ≠ f → m'.openFileMap.get? t = some true →
      m.openFileMap.get? t = some true ∧ s'.fd.get? t = s.fd.get? t)
    (hclosed : ∀ d, m'.openDirMap.get? d ≠ some true) : Agrees m' s' := by
  have hother : ∀ t : Name, t ≠ f → s'.fs.lookup t.path = s.fs.lookup t.path := by
    intro t ht
    rw [hfs, if_neg (fun hp => ht (Name.path_injective hp))]
  have hself : s'.fs.lookup f.path = v := by rw [hfs, if_pos rfl]
  constructor
  case files =>
    intro t
    by_cases ht : t = f
    · rw [ht, hfile, hself, Option.isSome_iff_exists]
    · rw [hfiles t ht, hother t ht, h.files t]
  case dirs =>
    intro t
    by_cases ht : t = f
    · rw [ht, hdir, hself, Option.isSome_iff_exists]
    · rw [hdirs t ht, hother t ht, h.dirs t]
  case named =>
    intro p w hw
    rw [hfs] at hw
    by_cases hp : p = f.path
    · rw [if_pos hp] at hw
      exact ⟨f, hp.symm, hv w hw⟩
    · rw [if_neg hp] at hw
      exact h.named p w hw
  case handles =>
    intro t ht
    by_cases htf : t = f
    · subst htf
      rw [hself]
      exact hhandle ht
    · obtain ⟨hm, hfd⟩ := hhandles t htf ht
      rw [hother t htf, hfd]
      exact h.handles t hm
  case noDirOpen => exact hclosed

/-- A file is put under a name. -/
theorem put_file (h : Agrees m s) {f : Name} (hdir : f.isDir = false) {i : Nat} {isOpen : Bool}
    {s' : Prog} (hfs : ∀ p, s'.fs.lookup p = if p = f.path then some (.file i) else s.fs.lookup p)
    (hfd : ∀ t, t ≠ f → s'.fd.get? t = s.fd.get? t)
    (hopen : isOpen = true → s'.fd.get? f = some (some (.file i))) :
    Agrees (m.setFile f isOpen) s' := by
  have hkeys : ∀ t, t ∈ (m.setFile f isOpen).openFileMap.keys ↔ t = f ∨ t ∈ m.openFileMap.keys :=
    fun t => Dict.mem_keys_set
  have hget : ∀ t, (m.setFile f isOpen).openFileMap.get? t =
      if t = f then some isOpen else m.openFileMap.get? t := fun t => Dict.get?_set _ _ _ _
  apply h.change (f := f) (v := some (.file i))
  case hv =>
    intro w hw
    rw [← Option.some.inj hw, hdir]
    rfl
  case hfs => exact hfs
  case hfile => simp [hkeys, hdir]
  case hfiles =>
    intro t ht
    simp [hkeys, ht]
  case hdir => simp [DepMaps.setFile, h.dirs, hdir]
  case hdirs => exact fun _ _ => Iff.rfl
  case hhandle =>
    intro ht
    rw [hget, if_pos rfl] at ht
    exact ⟨i, rfl, hopen (Option.some.inj ht)⟩
  case hhandles =>
    intro t ht hget'
    rw [hget, if_neg ht] at hget'
    exact ⟨hget', hfd t ht⟩
  case hclosed => exact h.noDirOpen

/-- The name of a file is taken away. -/
theorem take_file (h : Agrees m s) {f : Name} (hdir : f.isDir = false) {s' : Prog}
    (hfs : ∀ p, s'.fs.lookup p = if p = f.path then none else s.fs.lookup p)
    (hfd : s'.fd = s.fd) : Agrees (m.popFile f) s' := by
  have hkeys : ∀ t, t ∈ (m.popFile f).openFileMap.keys ↔ t ≠ f ∧ t ∈ m.openFileMap.keys :=
    fun t => Dict.mem_keys_erase
  have hget : ∀ t, (m.popFile f).openFileMap.get? t =
      if t = f then none else m.openFileMap.get? t := fun t => Dict.get?_erase _ _ _
  apply h.change (f := f) (v := none)
  case hv => exact fun w hw => absurd hw (by simp)
  case hfs => exact hfs
  case hfile => simp [hkeys]
  case hfiles =>
    intro t ht
    simp [hkeys, ht]
  case hdir => simp [DepMaps.popFile, h.dirs, hdir]
  case hdirs => exact fun _ _ => Iff.rfl
  case hhandle =>
    intro ht
    rw [hget, if_pos rfl] at ht
    cases ht
  case hhandles =>
    intro t ht hget'
    rw [hget, if_neg ht] at hget'
    exact ⟨hget', by rw [hfd]⟩
  case hclosed => exact h.noDirOpen

/-- A file whose descriptor is open for it is no directory. -/
theorem ne_of_isDir (h : Agrees m s) {d : Name} (hdir : d.isDir = true) :
    d ∉ m.openFileMap.keys := by
  intro hd
  have := ((h.files d).mp hd).1
  rw [hdir] at this
  cases this

theorem mem_of_open {f : Name} {b : Bool} (hf : m.openFileMap.get? f = some b) :
    f ∈ m.openFileMap.keys := Dict.mem_keys.mpr ⟨b, hf⟩

/-- A directory is made. -/
theorem put_dir (h : Agrees m s) {d : Name} (hdir : d.isDir = true) {s' : Prog}
    (hfs : ∀ p, s'.fs.lookup p = if p = d.path then some .dir else s.fs.lookup p)
    (hfd : s'.fd = s.fd) : Agrees (m.setDir d false) s' := by
  have hkeys : ∀ t, t ∈ (m.setDir d false).openDirMap.keys ↔ t = d ∨ t ∈ m.openDirMap.keys :=
    fun t => Dict.mem_keys_set
  apply h.change (f := d) (v := some .dir)
  case hv =>
    intro w hw
    rw [← Option.some.inj hw, hdir]
    rfl
  case hfs => exact hfs
  case hfile => simp [DepMaps.setDir, h.files, hdir]
  case hfiles => exact fun _ _ => Iff.rfl
  case hdir => simp [hkeys, hdir]
  case hdirs =>
    intro t ht
    simp [hkeys, ht]
  case hhandle => exact fun ht => absurd (mem_of_open ht) (h.ne_of_isDir hdir)
  case hhandles => exact fun t _ ht => ⟨ht, by rw [hfd]⟩
  case hclosed =>
    intro t ht
    have ht : (m.openDirMap.set d false).get? t = some true := ht
    rw [Dict.get?_set] at ht
    by_cases htd : t = d
    · rw [if_pos htd] at ht
      cases ht
    · rw [if_neg htd] at ht
      exact h.noDirOpen t ht

/-- A directory is taken away. -/
theorem take_dir (h : Agrees m s) {d : Name} (hdir : d.isDir = true) {s' : Prog}
    (hfs : ∀ p, s'.fs.lookup p = if p = d.path then none else s.fs.lookup p)
    (hfd : s'.fd = s.fd) : Agrees (m.popDir d) s' := by
  have hkeys : ∀ t, t ∈ (m.popDir d).openDirMap.keys ↔ t ≠ d ∧ t ∈ m.openDirMap.keys :=
    fun t => Dict.mem_keys_erase
  apply h.change (f := d) (v := none)
  case hv => exact fun w hw => absurd hw (by simp)
  case hfs => exact hfs
  case hfile => simp [DepMaps.popDir, h.files, hdir]
  case hfiles => exact fun _ _ => Iff.rfl
  case hdir => simp [hkeys]
  case hdirs =>
    intro t ht
    simp [hkeys, ht]
  case hhandle => exact fun ht => absurd (mem_of_open ht) (h.ne_of_isDir hdir)
  case hhandles => exact fun t _ ht => ⟨ht, by rw [hfd]⟩
  case hclosed =>
    intro t ht
    have ht : (m.openDirMap.erase d).get? t = some true := ht
    rw [Dict.get?_erase] at ht
    by_cases htd : t = d
    · rw [if_pos htd] at ht
      cases ht
    · rw [if_neg htd] at ht
      exact h.noDirOpen t ht

theorem addLength (h : Agrees m s) (f : Name) : Agrees (m.addLength f) s :=
  ⟨h.files, h.dirs, h.named, h.handles, h.noDirOpen⟩

end Agrees

/-! ## Statements -/

/-- The statement of a line succeeds, and the dictionaries agree with what it leaves. -/
def Works (l : Line) (s : Prog) (m : DepMaps) : Prop := ∃ s', l.exec s = some s' ∧ Agrees m s'

namespace Agrees

variable {m : DepMaps} {s : Prog}

theorem isOpen (h : Agrees m s) {f : Name} (hf : m.openFileMap.get? f = some true) :
    s.isOpen f = true := by
  obtain ⟨i, -, hfd⟩ := h.handles f hf
  unfold Prog.isOpen
  rw [hfd]
  rfl

theorem isOpenFile (h : Agrees m s) {f : Name} (hf : m.openFileMap.get? f = some true) :
    s.isOpenFile f = true := by
  obtain ⟨i, -, hfd⟩ := h.handles f hf
  unfold Prog.isOpenFile
  rw [hfd]
  rfl

theorem get?_setFd (s : Prog) (f t : Name) (v : Option Node) :
    (s.setFd f v).fd.get? t = if t = f then some v else s.fd.get? t := Dict.get?_set _ _ _ _

theorem open_works (h : Agrees m s) {f : Name} (hdir : f.isDir = false)
    (hp : f.parent ∈ m.openDirMap.keys) : Works (.open' f) s (m.setFile f true) := by
  have hexec : ∀ fs i, s.fs.openCreat f.path = some (fs, i) →
      (Line.open' f).exec s = some ((s.setFs fs).setFd f (some (.file i))) := by
    intro fs i hcreat
    rw [Line.exec]
    rw [hcreat]
    rfl
  have hput : ∀ fs i, (∀ p, fs.lookup p = if p = f.path then some (.file i) else s.fs.lookup p) →
      Agrees (m.setFile f true) ((s.setFs fs).setFd f (some (.file i))) := by
    intro fs i hfs
    apply h.put_file hdir hfs
    · intro t ht
      rw [get?_setFd, if_neg ht]
      rfl
    · intro _
      rw [get?_setFd, if_pos rfl]
  by_cases hf : f ∈ m.openFileMap.keys
  · obtain ⟨i, hi⟩ := h.file hf
    refine ⟨_, hexec _ _ (Fs.openCreat_of_file hi), hput _ _ fun p => ?_⟩
    by_cases hpf : p = f.path
    · rw [if_pos hpf, hpf, hi]
    · rw [if_neg hpf]
  · have hroom := h.room_file hdir hp
    exact ⟨_, hexec _ _ (Fs.openCreat_of_room hroom (h.no_file hdir hf)),
      hput _ _ (Fs.lookup_put _ _ hroom)⟩

theorem close_works (h : Agrees m s) {f : Name} (hf : m.openFileMap.get? f = some true) :
    Works (.close f) s (m.setFile f false) := by
  refine ⟨s.setFd f none, ?_, ?_⟩
  · rw [Line.exec]
    exact if_pos (h.isOpen hf)
  · obtain ⟨i, hi, -⟩ := h.handles f hf
    apply h.put_file ((h.files f).mp (mem_of_open hf)).1 (i := i)
    · intro p
      by_cases hpf : p = f.path
      · rw [if_pos hpf, hpf]
        exact hi
      · rw [if_neg hpf]
        rfl
    · intro t ht
      rw [get?_setFd, if_neg ht]
    · exact fun hfalse => absurd hfalse (by simp)

theorem unlink_works (h : Agrees m s) {f : Name} (hf : f ∈ m.openFileMap.keys) :
    Works (.unlink f) s (m.popFile f) := by
  obtain ⟨i, hi⟩ := h.file hf
  refine ⟨s.setFs (s.fs.take f.path (Fs.bare_of_file hi)), ?_, ?_⟩
  · rw [Line.exec]
    rw [Fs.unlink_of_file hi]
    rfl
  · exact h.take_file ((h.files f).mp hf).1 (Fs.lookup_take _ (Fs.bare_of_file hi)) rfl

theorem remove_works (h : Agrees m s) {f : Name} (hf : f ∈ m.openFileMap.keys) :
    Works (.remove f) s (m.popFile f) := by
  obtain ⟨i, hi⟩ := h.file hf
  refine ⟨s.setFs (s.fs.take f.path (Fs.bare_of_file hi)), ?_, ?_⟩
  · rw [Line.exec]
    rw [Fs.remove_of_file hi]
    rfl
  · exact h.take_file ((h.files f).mp hf).1 (Fs.lookup_take _ (Fs.bare_of_file hi)) rfl

theorem mkdir_works (h : Agrees m s) {d : Name} (hdir : d.isDir = true)
    (hd : d ∉ m.openDirMap.keys) (hp : d.parent ∈ m.openDirMap.keys) :
    Works (.mkdir d) s (m.setDir d false) := by
  have hroom := h.room_dir hdir hd hp
  refine ⟨s.setFs (s.fs.put d.path .dir hroom), ?_, ?_⟩
  · rw [Line.exec]
    rw [Fs.mkdir_of_room hroom (h.no_dir hdir hd)]
    rfl
  · exact h.put_dir hdir (Fs.lookup_put _ _ hroom) rfl

/-- A directory can be removed when the dictionaries have nothing in it. -/
theorem rmdir_works (h : Agrees m s) {d : Name} (hd : d ∈ m.openDirMap.keys) (hne : d ≠ .test)
    (hbare : ∀ t, t ≠ .test → t.parent = d → t ∉ m.openFileMap.keys ∧ t ∉ m.openDirMap.keys) :
    Works (.rmdir d) s (m.popDir d) := by
  have hroot : ∀ f : Name, f.path = [] → f = .test := fun f hf => Name.path_injective (hf.trans rfl)
  have hbare' : s.fs.Bare d.path := by
    rw [Fs.bare_iff]
    refine ⟨fun hp => hne (hroot d hp), fun q v hq hv hdrop => ?_⟩
    obtain ⟨t, rfl, hdir⟩ := h.named q v hv
    rw [Name.path_dropLast] at hdrop
    have htest : t ≠ .test := fun ht => hq (by rw [ht]; rfl)
    obtain ⟨hfile, hdir'⟩ := hbare t htest (Name.path_injective hdrop)
    cases ht : t.isDir with
    | true => exact hdir' ((h.dirs t).mpr ⟨ht, v, hv⟩)
    | false => exact hfile ((h.files t).mpr ⟨ht, v, hv⟩)
  refine ⟨s.setFs (s.fs.take d.path hbare'), ?_, ?_⟩
  · rw [Line.exec]
    rw [Fs.rmdir_of_bare hbare' (h.dir hd)]
    rfl
  · exact h.take_dir ((h.dirs d).mp hd).1 (Fs.lookup_take _ hbare') rfl

theorem write_works (h : Agrees m s) {f : Name} (hf : m.openFileMap.get? f = some true)
    {off len : Int} (hoff : 0 ≤ off) : Works (.write f off len) s (m.addLength f) :=
  ⟨s, if_pos ⟨h.isOpenFile hf, hoff⟩, h.addLength f⟩

theorem falloc_works (h : Agrees m s) {f : Name} (hf : m.openFileMap.get? f = some true)
    {off len : Int} (hoff : 0 ≤ off) (hlen : 0 < len) : Works (.falloc f off len) s m :=
  ⟨s, if_pos ⟨h.isOpenFile hf, hoff, hlen⟩, h⟩

theorem truncate_works (h : Agrees m s) {f : Name} (hf : f ∈ m.openFileMap.keys) {len : Int}
    (hlen : 0 ≤ len) : Works (.truncate f len) s m := by
  obtain ⟨i, hi⟩ := h.file hf
  refine ⟨s, ?_, h⟩
  rw [Line.exec]
  rw [Fs.fileAt_eq_some.mpr hi]
  exact if_pos hlen

theorem dwrite_works (h : Agrees m s) {f : Name} (hf : m.openFileMap.get? f = some true)
    {off len : Int} (hoff : 0 ≤ off) : Works (.dwrite f off len) s (m.setFile f false) := by
  obtain ⟨i, hi, -⟩ := h.handles f hf
  refine ⟨s.setFd f (some (.file i)), ?_, ?_⟩
  · rw [Line.exec]
    rw [if_pos (h.isOpen hf), Fs.fileAt_eq_some.mpr hi]
    exact if_pos hoff
  · apply h.put_file ((h.files f).mp (mem_of_open hf)).1 (i := i)
    · intro p
      by_cases hpf : p = f.path
      · rw [if_pos hpf, hpf]
        exact hi
      · rw [if_neg hpf]
        rfl
    · intro t ht
      rw [get?_setFd, if_neg ht]
    · exact fun hfalse => absurd hfalse (by simp)

theorem link_works (h : Agrees m s) {f t : Name} (hf : f ∈ m.openFileMap.keys)
    (hdir : t.isDir = false) (ht : t ∉ m.openFileMap.keys) (hp : t.parent ∈ m.openDirMap.keys) :
    Works (.link f t) s (m.setFile t false) := by
  obtain ⟨i, hi⟩ := h.file hf
  have hroom := h.room_file hdir hp
  refine ⟨s.setFs (s.fs.put t.path (.file i) hroom), ?_, ?_⟩
  · rw [Line.exec]
    rw [Fs.link_of_room hi hroom (h.no_file hdir ht)]
    rfl
  · exact h.put_file hdir (Fs.lookup_put _ _ hroom) (fun _ _ => rfl)
      fun hfalse => absurd hfalse (by simp)

theorem rename_works (h : Agrees m s) {f t : Name} (hf : f ∈ m.openFileMap.keys)
    (hdir : t.isDir = false) (hp : t.parent ∈ m.openDirMap.keys)
    (hne : s.fs.lookup f.path ≠ s.fs.lookup t.path) :
    Works (.rename f t) s ((m.popFile f).setFile t false) := by
  obtain ⟨i, hi⟩ := h.file hf
  have hft : f.path ≠ t.path := fun he => hne (by rw [he])
  obtain ⟨fs', hrename, hlookup⟩ :=
    Fs.exists_rename hi (h.room_file hdir hp) (fun he => hne (hi.trans he.symm))
  refine ⟨s.setFs fs', ?_, ?_⟩
  · rw [Line.exec]
    rw [hrename]
    rfl
  · -- as if the old name went first
    have hgone : Agrees (m.popFile f) (s.setFs (s.fs.take f.path (Fs.bare_of_file hi))) :=
      h.take_file ((h.files f).mp hf).1 (Fs.lookup_take _ (Fs.bare_of_file hi)) rfl
    apply hgone.put_file hdir (i := i)
    · intro p
      show fs'.lookup p = _
      rw [hlookup, show (s.setFs (s.fs.take f.path (Fs.bare_of_file hi))).fs.lookup p =
        if p = f.path then none else s.fs.lookup p from Fs.lookup_take _ (Fs.bare_of_file hi) p]
      by_cases hpf : p = f.path
      · rw [if_pos hpf, if_pos hpf, if_neg (fun hpt => hft (hpf.symm.trans hpt))]
      · rw [if_neg hpf, if_neg hpf]
    · exact fun _ _ => rfl
    · exact fun hfalse => absurd hfalse (by simp)

end Agrees
end Ace
end Silhouette
