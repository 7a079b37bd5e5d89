/-
The workloads of ACE for file systems in persistent memory.

A workload is a sequence of core operations with parameters out of fixed lists.
`satisfyDep` goes through the sequence and inserts in front of each operation the
commands that it depends on.  Three dictionaries say what it believes of the file
system: which files and which directories there are, and whether a descriptor of
them is open, and which files have been written to.
-/
import Silhouette.Lib.Dict

namespace Silhouette
namespace Ace

open Lib

/-! ## Parameters -/

/-- The files and directories; `AC` is a directory in `A`. -/
inductive Name
  | test | A | B | AC
  | foo | bar | Afoo | Abar | Bfoo | Bbar | ACfoo | ACbar
  deriving DecidableEq, Repr

namespace Name

def all : List Name := [test, A, B, AC, foo, bar, Afoo, Abar, Bfoo, Bbar, ACfoo, ACbar]

theorem mem_all (f : Name) : f ∈ all := by cases f <;> decide

/-- `Parent` -/
def parent : Name → Name
  | foo | bar => test
  | Afoo | Abar | AC => A
  | Bfoo | Bbar => B
  | A | B | test => test
  | ACfoo | ACbar => AC

def isDir : Name → Bool
  | test | A | B | AC => true
  | _ => false

end Name

/-- The flags that change the lists of files. -/
structure Config where
  nested : Bool
  demo : Bool

namespace Config

/-- `FileOptions` -/
def fileOptions (cfg : Config) : List Name :=
  (if cfg.demo then [.foo] else [.foo, .Afoo]) ++ if cfg.nested then [.ACfoo] else []

/-- `SecondFileOptions` -/
def secondFileOptions (cfg : Config) : List Name :=
  (if cfg.demo then [.Abar] else [.bar, .Abar]) ++ [.ACbar]

def isFileOption (cfg : Config) (f : Name) : Bool :=
  f ∈ cfg.fileOptions || f ∈ cfg.secondFileOptions

end Config

def dirOptions : List Name := [.A]

def testDirOptions : List Name := [.test]

def secondDirOptions : List Name := [.B, .AC]

def isDirOption (f : Name) : Bool :=
  f ∈ dirOptions || f ∈ secondDirOptions || f ∈ testDirOptions

/-- `WriteOptions` -/
inductive WriteOption
  | append | overlapUnalignedStart | overlapExtend
  deriving DecidableEq, Repr

/-- `dWriteOptions` -/
inductive DWriteOption
  | append | overlapStart
  deriving DecidableEq, Repr

/-- `TruncateOptions` -/
inductive TruncateOption
  | aligned | unaligned
  deriving DecidableEq, Repr

/-- The commands of a workload.  `none'` is the persistence point behind an operation, and
`open'`, `close`, `write` and `mark` are only inserted. -/
inductive Command
  | creat (f : Name)
  | mkdir (d : Name)
  | falloc (f : Name) (option : WriteOption)
  | dwrite (f : Name) (option : DWriteOption)
  | link (f s : Name)
  | unlink (f : Name)
  | remove (f : Name)
  | rename (f s : Name)
  | truncate (f : Name) (option : TruncateOption)
  | symlink (f s : Name)
  | rmdir (d : Name)
  | none' (ret : Nat)
  | open' (f : Name)
  | close (f : Name)
  | write (f : Name)
  | mark
  deriving DecidableEq, Repr

inductive Op
  | creat | mkdir | falloc | dwrite | link | unlink | remove | rename | truncate | symlink | rmdir
  deriving DecidableEq, Repr

/-- `OperationSet` -/
def operationSet (numOps : Nat) : List Op :=
  if numOps = 3 then [.dwrite, .link, .unlink, .rename]
  else [.creat, .mkdir, .falloc, .dwrite, .link, .unlink, .remove, .rename, .truncate, .symlink,
    .rmdir]

/-- The pairs of different names. -/
def pairs (l m : List Name) : List (Name × Name) := (l ×ˢ m).filter fun x => x.1 ≠ x.2

namespace Config

variable (cfg : Config)

def filePairs : List (Name × Name) :=
  pairs (cfg.fileOptions ++ cfg.secondFileOptions) cfg.secondFileOptions

def dirPairs : List (Name × Name) := pairs (dirOptions ++ secondDirOptions) secondDirOptions

/-- The parameters of an operation. -/
def buildTuple : Op → List Command
  | .creat => cfg.fileOptions.map .creat
  | .mkdir => dirOptions.map .mkdir
  | .rmdir => dirOptions.map .rmdir
  | .falloc => (cfg.fileOptions ×ˢ [WriteOption.append, .overlapUnalignedStart, .overlapExtend]).map
      fun x => .falloc x.1 x.2
  | .dwrite => (cfg.fileOptions ×ˢ [DWriteOption.append, .overlapStart]).map
      fun x => .dwrite x.1 x.2
  | .link => cfg.filePairs.map fun x => .link x.1 x.2
  | .symlink => cfg.filePairs.map fun x => .symlink x.1 x.2
  | .rename => cfg.filePairs.map (fun x => .rename x.1 x.2) ++
      dirPairs.map fun x => .rename x.1 x.2
  | .remove => (cfg.fileOptions ++ cfg.secondFileOptions).map .remove
  | .unlink => (cfg.fileOptions ++ cfg.secondFileOptions).map .unlink
  | .truncate => (cfg.fileOptions ×ˢ [TruncateOption.aligned, .unaligned]).map
      fun x => .truncate x.1 x.2

/-- One of the sequences of core operations that are gone through. -/
def IsWorkload (ops : List Command) : Prop :=
  ∀ c ∈ ops, ∃ op ∈ operationSet ops.length, c ∈ cfg.buildTuple op

instance (ops : List Command) : Decidable (cfg.IsWorkload ops) :=
  inferInstanceAs (Decidable (∀ c ∈ ops, ∃ op ∈ operationSet ops.length, c ∈ cfg.buildTuple op))

end Config

/-! ## Dependencies -/

/-- `open_dir_map`, `open_file_map` and `file_length_map`. -/
structure DepMaps where
  openDirMap : Dict Name Bool
  openFileMap : Dict Name Bool
  fileLengthMap : Dict Name Nat

namespace DepMaps

def start : DepMaps := ⟨Dict.empty.set .test false, Dict.empty, Dict.empty⟩

def setFile (m : DepMaps) (f : Name) (isOpen : Bool) : DepMaps :=
  { m with openFileMap := m.openFileMap.set f isOpen }

def popFile (m : DepMaps) (f : Name) : DepMaps :=
  { m with openFileMap := m.openFileMap.erase f }

def setDir (m : DepMaps) (d : Name) (isOpen : Bool) : DepMaps :=
  { m with openDirMap := m.openDirMap.set d isOpen }

def popDir (m : DepMaps) (d : Name) : DepMaps :=
  { m with openDirMap := m.openDirMap.erase d }

def addLength (m : DepMaps) (f : Name) : DepMaps :=
  { m with fileLengthMap := m.fileLengthMap.set f ((m.fileLengthMap.get? f).getD 0 + 1) }

/-- What `insertOpen` and `insertClose` note. -/
def note (cfg : Config) (m : DepMaps) (f : Name) (isOpen : Bool) : DepMaps :=
  if cfg.isFileOption f then m.setFile f isOpen
  else if isDirOption f then m.setDir f isOpen else m

end DepMaps

/-- The sequence with the place to insert at, the dictionaries, and the core operations that
have been counted. -/
structure Gen where
  modifiedSequence : List Command
  modifiedPos : Nat
  maps : DepMaps
  corefs : Nat

namespace Gen

def start (seq : List Command) : Gen := ⟨seq, 0, DepMaps.start, 0⟩

def setMaps (g : Gen) (m : DepMaps) : Gen := { g with maps := m }

/-- Insert a command and go behind it. -/
def insert (g : Gen) (x : Command × DepMaps) : Gen :=
  { g with
    modifiedSequence :=
      g.modifiedSequence.take g.modifiedPos ++ x.1 :: g.modifiedSequence.drop g.modifiedPos
    modifiedPos := g.modifiedPos + 1
    maps := x.2 }

def next (g : Gen) : Gen := { g with modifiedPos := g.modifiedPos + 1 }

section Inserts

variable (cfg : Config) (g : Gen)

def insertUnlink (f : Name) : Gen := g.insert (.unlink f, g.maps.popFile f)

def insertRmdir (d : Name) : Gen := g.insert (.rmdir d, g.maps.popDir d)

def insertOpen (f : Name) : Gen := g.insert (.open' f, g.maps.note cfg f true)

def insertMkdir (d : Name) : Gen :=
  g.insert (.mkdir d, if isDirOption d then g.maps.setDir d false else g.maps)

def insertClose (f : Name) : Gen := g.insert (.close f, g.maps.note cfg f false)

def insertWrite (f : Name) : Gen := g.insert (.write f, g.maps.addLength f)

/-- Count a core operation; the last one is marked. -/
def countCore (numOps : Nat) : Gen :=
  let g := { g with corefs := g.corefs + 1 }
  if g.corefs = numOps then g.insert (.mark, g.maps) else g

end Inserts

/-- `checkCreatDep` -/
def checkCreatDep (g : Gen) (f : Name) : Gen :=
  if f ∈ g.maps.openFileMap.keys then g.insertUnlink f else g

/-- Close and remove a file of a directory. -/
def clearFile (cfg : Config) (g : Gen) (f : Name) : Gen :=
  if g.maps.openFileMap.get? f = some true then (g.insertClose cfg f).insertUnlink f
  else if g.maps.openFileMap.get? f = some false then g.insertUnlink f
  else g

/-- Remove `AC` with its files. -/
def clearAC (cfg : Config) (g : Gen) : Gen :=
  let g := if g.maps.openDirMap.get? .AC = some true then g.insertClose cfg .AC else g
  if .AC ∈ g.maps.openDirMap.keys then
    ((g.clearFile cfg .ACfoo).clearFile cfg .ACbar).insertRmdir .AC
  else g

/-- `checkDirDep` -/
def checkDirDep (cfg : Config) (g : Gen) (d : Name) : Gen :=
  if d ∈ g.maps.openDirMap.keys ∧ d ≠ .test then
    let g := if d = .A then ((g.clearFile cfg .Afoo).clearFile cfg .Abar).clearAC cfg else g
    let g := if d = .B then (g.clearFile cfg .Bfoo).clearFile cfg .Bbar else g
    let g := if d = .AC then (g.clearFile cfg .ACfoo).clearFile cfg .ACbar else g
    g.insertRmdir d
  else g

/-- Make the directories in which a name stands. -/
def checkParent (g : Gen) (f : Name) : Gen :=
  let g :=
    if (f.parent = .A ∨ f.parent = .B) ∧ f.parent ∉ g.maps.openDirMap.keys then
      g.insertMkdir f.parent
    else g
  if f.parent = .AC ∧ f.parent ∉ g.maps.openDirMap.keys then
    let g := if f.parent.parent ∉ g.maps.openDirMap.keys then g.insertMkdir f.parent.parent else g
    g.insertMkdir f.parent
  else g

/-- `checkParentExistsDep`, for the names among the parameters. -/
def checkParentExistsDep (g : Gen) (fs : List Name) : Gen := fs.foldl checkParent g

/-- `checkExistsDep` -/
def checkExistsDep (cfg : Config) (g : Gen) (f : Name) : Gen :=
  let g :=
    if isDirOption f then
      let g := if f ∉ g.maps.openDirMap.keys then g.insertMkdir f else g
      if g.maps.openDirMap.get? f = some false then g.insertOpen cfg f else g
    else g
  if (cfg.isFileOption f ∨ f = .ACfoo) ∧ g.maps.openFileMap.get? f ≠ some true then
    g.insertOpen cfg f
  else g

/-- `checkClosed` -/
def checkClosed (cfg : Config) (g : Gen) (f : Name) : Gen :=
  let g := if g.maps.openFileMap.get? f = some true then g.insertClose cfg f else g
  if g.maps.openDirMap.get? f = some true then g.insertClose cfg f else g

/-- `checkFileLength` -/
def checkFileLength (g : Gen) (f : Name) : Gen :=
  if f ∉ g.maps.fileLengthMap.keys then g.insertWrite f else g

/-- Close the second file of an operation. -/
def closeSecond (cfg : Config) (g : Gen) (s : Name) : Gen :=
  if g.maps.openFileMap.get? s = some true then g.insertClose cfg s else g

/-- Remove the second file of an operation, when it is closed. -/
def unlinkSecond (g : Gen) (s : Name) : Gen :=
  if g.maps.openFileMap.get? s = some false then g.insertUnlink s else g

/-- The dependencies of a link, of whichever kind. -/
def satisfyLink (cfg : Config) (numOps : Nat) (g : Gen) (f s : Name) : Gen :=
  let g := (g.checkParentExistsDep [f, s]).checkExistsDep cfg f
  let g := ((g.closeSecond cfg s).unlinkSecond s).countCore numOps
  g.setMaps (g.maps.setFile s false)

/-- The dependencies of `unlink` and `remove`. -/
def satisfyRemove (cfg : Config) (numOps : Nat) (g : Gen) (f : Name) : Gen :=
  let g := (g.checkParentExistsDep [f]).checkExistsDep cfg f
  let g := (g.checkClosed cfg f).countCore numOps
  g.setMaps (g.maps.popFile f)

/-- What `rename` does to the dictionaries. -/
def moveName (cfg : Config) (g : Gen) (f s : Name) : Gen :=
  if cfg.isFileOption f then g.setMaps ((g.maps.popFile f).setFile s false)
  else if f ∈ dirOptions ∨ f ∈ secondDirOptions then g.setMaps ((g.maps.popDir f).setDir s false)
  else g

/-- `satisfyDep`, for the commands of a sequence. -/
def satisfyDep (cfg : Config) (numOps : Nat) (g : Gen) : Command → Gen
  | .creat f =>
    let g := ((g.checkParentExistsDep [f]).checkCreatDep f).countCore numOps
    g.setMaps (g.maps.setFile f true)
  | .mkdir d =>
    let g := (g.checkDirDep cfg d).countCore numOps
    g.setMaps (g.maps.setDir d false)
  | .falloc f _ =>
    (((g.checkParentExistsDep [f]).checkExistsDep cfg f).checkFileLength f).countCore numOps
  | .dwrite f option =>
    let g := (g.checkParentExistsDep [f]).checkExistsDep cfg f
    let g :=
      match option with
      | .append => g.setMaps (g.maps.addLength f)
      -- the source tests a text for truth, so this is every other option
      | .overlapStart => g.checkFileLength f
    let g := if cfg.isFileOption f then g.setMaps (g.maps.setFile f false) else g
    g.countCore numOps
  | .link f s => g.satisfyLink cfg numOps f s
  | .symlink f s => g.satisfyLink cfg numOps f s
  | .rename f s =>
    let g := ((g.checkParentExistsDep [f, s]).checkExistsDep cfg f).checkClosed cfg f
    ((g.closeSecond cfg s).moveName cfg f s).countCore numOps
  | .unlink f => g.satisfyRemove cfg numOps f
  | .remove f => g.satisfyRemove cfg numOps f
  | .rmdir d =>
    let g := if d ∉ g.maps.openDirMap.keys then g.insertMkdir d else g
    let g := g.countCore numOps
    g.setMaps (g.maps.popFile d)
  | .truncate f _ =>
    (((g.checkParentExistsDep [f]).checkExistsDep cfg f).checkFileLength f).countCore numOps
  | _ => g

/-- Close what is open of some names. -/
def closeAll (cfg : Config) (isOpen : Gen → Name → Bool) (g : Gen) (l : List Name) : Gen :=
  l.foldl (fun g f => if isOpen g f then g.insertClose cfg f else g) g

def closeFiles (cfg : Config) (g : Gen) : Gen :=
  g.closeAll cfg (fun g f => g.maps.openFileMap.get? f = some true) g.maps.openFileMap.keys

def closeDirs (cfg : Config) (g : Gen) : Gen :=
  g.closeAll cfg (fun g f => g.maps.openDirMap.get? f = some true) g.maps.openDirMap.keys

end Gen

/-- The core operations, each with a persistence point behind it. -/
def sequence (ops : List Command) : List Command :=
  ops.zipIdx.flatMap fun x => [x.1, .none' (if x.2 + 1 = ops.length then 1 else 0)]

def satisfyAll (cfg : Config) (numOps : Nat) (seq : List Command) (g : Gen) : Gen :=
  seq.foldl (fun g c => (g.satisfyDep cfg numOps c).next) g

/-- The workload with its dependencies satisfied. -/
def modifiedSequence (cfg : Config) (ops : List Command) : List Command :=
  let seq := sequence ops
  let g := satisfyAll cfg ops.length seq (Gen.start seq)
  ((g.closeFiles cfg).closeDirs cfg).modifiedSequence

end Ace
end Silhouette
