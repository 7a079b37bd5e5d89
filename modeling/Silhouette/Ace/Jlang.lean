/-
The J-lang file of a workload, and what the program that is made of it does.

A J-lang line is turned into one statement of a test program, which ends with an
error unless its system call succeeds.  `Line.exec` is that statement over a
directory tree and the variables for descriptors.
-/
import Silhouette.Ace.Workload
import Silhouette.Lib.PosixFs
import Silhouette.Lib.Text

namespace Silhouette
namespace Ace

open Lib Lib.PosixFs Lib.Text

/-! ## Lines -/

/-- The lines of the run section. -/
inductive Line
  | open' (f : Name)
  | opendir (d : Name)
  | close (f : Name)
  | mkdir (d : Name)
  | rmdir (d : Name)
  | falloc (f : Name) (off len : Int)
  | write (f : Name) (off len : Int)
  | dwrite (f : Name) (off len : Int)
  | truncate (f : Name) (len : Int)
  | link (f s : Name)
  | symlink (f s : Name)
  | rename (f s : Name)
  | unlink (f : Name)
  | remove (f : Name)
  | none'
  | checkpoint
  | mark
  deriving DecidableEq, Repr

/-- The components of paths. -/
inductive Part
  | A | B | C | foo | bar
  deriving DecidableEq, Repr

namespace Name

/-- The name in the generator. -/
def text : Name → List Char
  | test => lit "test"
  | A => lit "A"
  | B => lit "B"
  | AC => lit "AC"
  | foo => lit "foo"
  | bar => lit "bar"
  | Afoo => lit "A/foo"
  | Abar => lit "A/bar"
  | Bfoo => lit "B/foo"
  | Bbar => lit "B/bar"
  | ACfoo => lit "AC/foo"
  | ACbar => lit "AC/bar"

/-- The name in J-lang files. -/
def jlang (f : Name) : List Char := f.text.filter (· ≠ '/')

/-- Where the program finds the name, below the mount point. -/
def path : Name → List Part
  | test => []
  | A => [.A]
  | B => [.B]
  | AC => [.A, .C]
  | foo => [.foo]
  | bar => [.bar]
  | Afoo => [.A, .foo]
  | Abar => [.A, .bar]
  | Bfoo => [.B, .foo]
  | Bbar => [.B, .bar]
  | ACfoo => [.A, .C, .foo]
  | ACbar => [.A, .C, .bar]

theorem path_injective {f t : Name} (h : f.path = t.path) : f = t := by
  have hall : ∀ f ∈ all, ∀ t ∈ all, f.path = t.path → f = t := by decide
  exact hall f (mem_all f) t (mem_all t) h

theorem path_dropLast (f : Name) : f.path.dropLast = f.parent.path := by cases f <;> rfl

end Name

/-- The words of a line. -/
def Line.words : Line → List (List Char)
  | .open' f => [lit "open", f.jlang, lit "O_RDWR|O_CREAT", lit "0777"]
  | .opendir d => [lit "opendir", d.jlang, lit "0777"]
  | .close f => [lit "close", f.jlang]
  | .mkdir d => [lit "mkdir", d.jlang, lit "0777"]
  | .rmdir d => [lit "rmdir", d.jlang]
  | .falloc f off len =>
    [lit "falloc", f.jlang, lit "FALLOC_FL_KEEP_SIZE", decimalInt off, decimalInt len]
  | .write f off len => [lit "write", f.jlang, decimalInt off, decimalInt len]
  | .dwrite f off len => [lit "dwrite", f.jlang, decimalInt off, decimalInt len]
  | .truncate f len => [lit "truncate", f.jlang, decimalInt len]
  | .link f s => [lit "link", f.jlang, s.jlang]
  | .symlink f s => [lit "symlink", f.jlang, s.jlang]
  | .rename f s => [lit "rename", f.jlang, s.jlang]
  | .unlink f => [lit "unlink", f.jlang]
  | .remove f => [lit "remove", f.jlang]
  | .none' => [lit "none"]
  | .checkpoint => [lit "checkpoint", lit "0"]
  | .mark => [lit "mark"]

/-- The lengths that `buildJlang` reckons with. -/
abbrev LengthMap := Dict Name Int

/-- An append: it begins where the file is thought to end. -/
def appendLine (line : Name → Int → Int → Line) (lm : LengthMap) (f : Name) :
    List Line × LengthMap :=
  let off := (lm.get? f).getD 0
  ([line f off 4096], lm.set f (off + 4096))

/-- `buildJlang`.  A file whose length is asked for and not known is an error. -/
def buildJlang (numOps : Nat) (lm : LengthMap) : Command → Option (List Line × LengthMap)
  | .open' f => some ([if isDirOption f then .opendir f else .open' f], lm)
  | .creat f => some ([.open' f], lm)
  | .mkdir d => some ([.mkdir d], lm)
  | .falloc f .append => do
    let size ← lm.get? f
    some ([.falloc f size 4096], lm.set f (size + 4096))
  | .falloc f .overlapUnalignedStart => some ([.falloc f 0 1024], lm)
  | .falloc f .overlapExtend => do
    let size ← lm.get? f
    some ([.falloc f (size - 1024) 2048], lm.set f (size + 1024))
  | .write f => some (appendLine .write lm f)
  | .dwrite f .append => some (appendLine .dwrite lm f)
  | .dwrite f .overlapStart => some ([.dwrite f 0 1024], lm)
  | .link f s => some ([.link f s], lm)
  | .rename f s => some ([.rename f s], lm)
  | .symlink f s => some ([.symlink f s], lm)
  | .unlink f => some ([.unlink f], lm)
  | .remove f => some ([.remove f], lm)
  | .rmdir d => some ([.rmdir d], lm)
  | .close f => some ([.close f], lm)
  | .none' ret =>
    some (if ret + 1 = numOps ∨ numOps = 1 then [.none', .checkpoint] else [], lm)
  | .mark => some ([.mark], lm)
  | .truncate f .aligned => some ([.truncate f 0], lm.set f 0)
  | .truncate f .unaligned => some ([.truncate f 256], lm)

/-- The lines of a command behind those there are. -/
def addCommand (numOps : Nat) (file : List Line × LengthMap) (c : Command) :
    Option (List Line × LengthMap) := do
  let (lines, lm) ← buildJlang numOps file.2 c
  some (file.1 ++ lines, lm)

/-- The run section of the J-lang file of a sequence. -/
def jlangLines (numOps : Nat) (cs : List Command) : Option (List Line) :=
  (cs.foldlM (addCommand numOps) ([], Dict.empty)).map Prod.fst

/-- The J-lang file of a workload. -/
def jlangFile (cfg : Config) (ops : List Command) : Option (List Line) :=
  jlangLines ops.length (modifiedSequence cfg ops)

/-! ## Programs -/

/-- The directory tree, and for each variable `fd_f` that is declared what it is open for. A
variable whose descriptor has been closed is not to be used: its number may be another's. -/
structure Prog where
  fs : Fs Part
  fd : Dict Name (Option Node)

namespace Prog

def start : Prog := ⟨Fs.empty, Dict.empty⟩

def isOpen (s : Prog) (f : Name) : Bool := ((s.fd.get? f).join).isSome

/-- The variable is open for a file. -/
def isOpenFile (s : Prog) (f : Name) : Bool :=
  match (s.fd.get? f).join with
  | some (.file _) => true
  | _ => false

def setFs (s : Prog) (fs : Fs Part) : Prog := { s with fs := fs }

def setFd (s : Prog) (f : Name) (v : Option Node) : Prog := { s with fd := s.fd.set f v }

end Prog

/-- The statement of a line.  Symbolic links and renames of directories are not modelled. -/
def Line.exec (s : Prog) : Line → Option Prog
  | .open' f => do
    let (fs, i) ← s.fs.openCreat f.path
    some ((s.setFs fs).setFd f (some (.file i)))
  | .opendir d =>
    if s.fs.lookup d.path = some .dir then some (s.setFd d (some .dir)) else none
  | .close f => if s.isOpen f then some (s.setFd f none) else none
  | .mkdir d => (s.fs.mkdir d.path).map s.setFs
  | .rmdir d => (s.fs.rmdir d.path).map s.setFs
  | .falloc f off len => if s.isOpenFile f ∧ 0 ≤ off ∧ 0 < len then some s else none
  | .write f off _ => if s.isOpenFile f ∧ 0 ≤ off then some s else none
  | .dwrite f off _ => do
    -- the descriptor is closed, and opened again without `O_CREAT`
    if s.isOpen f then
      let i ← s.fs.fileAt f.path
      if 0 ≤ off then some (s.setFd f (some (.file i))) else none
    else none
  | .truncate f len => do
    let _ ← s.fs.fileAt f.path
    if 0 ≤ len then some s else none
  | .link f t => (s.fs.link f.path t.path).map s.setFs
  | .rename f t => (s.fs.rename f.path t.path).map s.setFs
  | .unlink f => (s.fs.unlink f.path).map s.setFs
  | .remove f => (s.fs.remove f.path).map s.setFs
  | .symlink _ _ => none
  | .none' => some s
  | .checkpoint => some s
  | .mark => some s

/-- Run the statements of a program on an empty file system. -/
def runProgram (lines : List Line) : Option Prog := lines.foldlM Line.exec Prog.start

/-- A rename is not between two names of one file, where it would do nothing. -/
def Line.apart (s : Prog) : Line → Bool
  | .rename f t => s.fs.lookup f.path ≠ s.fs.lookup t.path
  | _ => true

/-- So are none of the renames that a program comes to. -/
def renamesApart (s : Prog) : List Line → Bool
  | [] => true
  | l :: rest =>
    l.apart s &&
      match l.exec s with
      | some s' => renamesApart s' rest
      | none => true

end Ace
end Silhouette
