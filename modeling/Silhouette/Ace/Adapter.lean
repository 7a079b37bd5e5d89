/-
The C++ program of a J-lang file.

The base file has places for the lines of `setup`, of `run` and of the declarations.
`index_map` says where the next line of each goes, and it is moved by what the adapter
takes the length of an insertion to be.  The file is read and written again for every
line of the J-lang file, so that an insertion is of lines.
-/
import Silhouette.Ace.Jlang

namespace Silhouette
namespace Ace
namespace Adapter

open Lib Lib.Text

/-! ## Indices -/

inductive Method
  | setup | run
  deriving DecidableEq, Repr

/-- `index_map` -/
structure IndexMap where
  setup : Nat
  run : Nat
  define : Nat
  deriving DecidableEq, Repr

namespace IndexMap

def updateSetupMap (m : IndexMap) (num : Nat) : IndexMap :=
  ⟨m.setup + num, m.run + num, m.define + num⟩

def updateRunMap (m : IndexMap) (num : Nat) : IndexMap := ⟨m.setup, m.run + num, m.define + num⟩

def updateDefineMap (m : IndexMap) (num : Nat) : IndexMap := ⟨m.setup, m.run, m.define + num⟩

def update (m : IndexMap) : Method → Nat → IndexMap
  | .setup => m.updateSetupMap
  | .run => m.updateRunMap

def of (m : IndexMap) : Method → Nat
  | .setup => m.setup
  | .run => m.run

end IndexMap

/-- `insert` of a list. -/
def insertAt {α : Type} (l : List α) (i : Nat) (new : List α) : List α :=
  l.take i ++ new ++ l.drop i

/-! ## Statements -/

/-- The lines that are inserted, what the index is moved by behind them, and the variables
that are declared by then. -/
structure Statement where
  text : List (List Char)
  num : Nat
  declared : List (List Char)

def tabs (n : Nat) : List Char := List.replicate n '\t'

/-- A call whose failure ends the program; behind it the disk content is written. -/
def checkedCall (call brace op desc : List Char) (count : Nat) : List (List Char) :=
  [[],
    tabs 4 ++ lit "if (cm_->" ++ call ++ brace,
    tabs 5 ++ lit "return -1;",
    tabs 4 ++ lit "\x7d",
    tabs 4 ++ lit "this->get_disk_content(\"oracle_" ++ padLeft 2 '0' (decimal count) ++ lit "_" ++
      op ++ lit ".txt\", " ++ desc ++ lit ");",
    []]

/-- The end of most checks. -/
def brace : List Char := lit ") < 0) \x7b"

/-- The text in front of a variable, and the variables that are declared behind it. -/
def declare (declared : List (List Char)) (name kind other : List Char) :
    List Char × List (List Char) :=
  if name ∈ declared then (other, declared) else (kind, declared ++ [name])

section Inserts

variable (words : List (List Char)) (declared : List (List Char)) (count : Nat)

/-- A line of which the last but one word is `addToSetup` ends in an error. -/
def insertFalloc : Option Statement := do
  let fname ← words[1]?
  let mode ← words[2]?
  let off ← words[3]?
  let length ← words[4]?
  if words.dropLast.getLast? = some (lit "addToSetup") then none
  else some ⟨checkedCall
    (lit "CmFallocate(fd_" ++ fname ++ lit ", " ++ mode ++ lit ", " ++ off ++ lit ", " ++ length)
    brace (lit "falloc")
    (lit "\"falloc \" + " ++ fname ++ lit "_path + \" " ++ mode ++ lit " " ++ length ++ lit "\"")
    count, 5, declared⟩

def insertMkdir : Option Statement := do
  let dirName ← words[1]?
  let mode ← words[2]?
  some ⟨checkedCall (lit "CmMkdir(" ++ dirName ++ lit "_path.c_str(), " ++ mode) brace (lit "mkdir")
    (lit "\"mkdir \" + " ++ dirName ++ lit "_path + \" " ++ mode ++ lit "\"") count, 5, declared⟩

def insertOpenFile : Option Statement := do
  let name ← words[1]?
  let flag ← words[2]?
  let mode ← words[3]?
  let fd := lit "fd_" ++ name
  let d := declare declared fd (lit "int ") (lit " ")
  let opening : List (List Char) := [[],
    tabs 4 ++ d.1 ++ fd ++ lit " = cm_->CmOpen(" ++ name ++ lit "_path.c_str() , " ++ flag ++
      lit " , " ++ mode ++ lit "); ",
    tabs 4 ++ lit "if ( " ++ fd ++ lit " < 0 ) \x7b",
    tabs 5 ++ lit "return -1;",
    tabs 4 ++ lit "\x7d"]
  let content : List (List Char) := [
    tabs 4 ++ lit "this->get_disk_content(\"oracle_" ++ padLeft 2 '0' (decimal count) ++
      lit "_open.txt\", \"open \" + " ++ name ++ lit "_path + \" " ++ flag ++ lit " " ++ mode ++
      lit "\");",
    []]
  some ⟨if lit "O_CREAT" <:+: flag then opening ++ content else opening, 6, d.2⟩

def insertOpenDir : Option Statement := do
  let name ← words[1]?
  let mode ← words[2]?
  let fd := lit "fd_" ++ name
  let d := declare declared fd (lit "int ") (lit " ")
  some ⟨[[],
    tabs 4 ++ d.1 ++ fd ++ lit " = cm_->CmOpen(" ++ name ++ lit "_path.c_str() , O_DIRECTORY , " ++
      mode ++ lit "); ",
    tabs 4 ++ lit "if ( " ++ fd ++ lit " < 0 ) \x7b ",
    tabs 5 ++ lit "cm_->CmClose( " ++ fd ++ lit "); ",
    tabs 5 ++ lit "return -1;",
    tabs 4 ++ lit "\x7d",
    []], 6, d.2⟩

/-- `remove` or `unlink`, in `option`. -/
def insertRemoveFile (option : List Char) : Option Statement := do
  let fname ← words[1]?
  let call := if option = lit "remove" then lit "CmRemove(" else lit "CmUnlink("
  let op := if option = lit "remove" then lit "remove" else lit "unlink"
  some ⟨checkedCall (call ++ fname ++ lit "_path.c_str()") (lit ") < 0)\x7b") op
    (lit "\"" ++ op ++ lit " \" + " ++ fname ++ lit "_path") count, 5, declared⟩

def insertTruncateFile : Option Statement := do
  let fname ← words[1]?
  let size ← words[2]?
  some ⟨checkedCall (lit "CmTruncate(" ++ fname ++ lit "_path.c_str(), " ++ size) brace
    (lit "truncate") (lit "\"truncate \" + " ++ fname ++ lit "_path + \" " ++ size ++ lit "\"") count,
    5, declared⟩

/-- A call without a disk content. -/
def bareCall (call : List Char) : List (List Char) :=
  [[],
    tabs 4 ++ lit "if ( " ++ call ++ lit ") < 0)\x7b ",
    tabs 5 ++ lit "return -1;",
    tabs 4 ++ lit "\x7d",
    []]

def insertClose : Option Statement := do
  let name ← words[1]?
  some ⟨bareCall (lit "cm_->CmClose ( fd_" ++ name), 4, declared⟩

def insertRmdir : Option Statement := do
  let dirName ← words[1]?
  some ⟨checkedCall (lit "CmRmdir(" ++ dirName ++ lit "_path.c_str()") brace (lit "rmdir")
    (lit "\"rmdir \" + " ++ dirName ++ lit "_path") count, 5, declared⟩

/-- `fsync` or `fdatasync`, in `option`. -/
def insertFsync (option : List Char) : Option Statement := do
  let name ← words[1]?
  let ins := if option = lit "fsync" then lit "cm_->CmFsync" else lit "cm_->CmFdatasync"
  some ⟨bareCall (ins ++ lit "( fd_" ++ name), 4, declared⟩

def insertSync : Option Statement :=
  some ⟨[[], tabs 4 ++ lit "cm_->CmSync(); ", []], 2, declared⟩

/-- A call on two names. -/
def twoNames (fn op : List Char) : Option Statement := do
  let srcFname ← words[1]?
  let dstFname ← words[2]?
  some ⟨checkedCall (fn ++ lit "(" ++ srcFname ++ lit "_path.c_str(), " ++ dstFname ++
      lit "_path.c_str()") brace op
    (lit "\"" ++ op ++ lit " \" + " ++ srcFname ++ lit "_path + \" \" + " ++ dstFname ++ lit "_path")
    count, 5, declared⟩

def insertRename : Option Statement := twoNames words declared count (lit "CmRename") (lit "rename")

def insertLink : Option Statement := twoNames words declared count (lit "CmLink") (lit "link")

def insertSymlink : Option Statement :=
  twoNames words declared count (lit "CmSymlink") (lit "symlink")

/-- Neither sets an attribute nor removes one. -/
def insertFsetxattr : Option Statement := some ⟨[], 0, declared⟩

def insertRemovexattr : Option Statement := some ⟨[], 0, declared⟩

/-- A write to a mapping of the file. -/
def insertMmapwrite : Option Statement := do
  let f ← words[1]?
  let off ← words[2]?
  let len ← words[3]?
  let filep := lit "filep_" ++ f
  let mtext := lit "mtext_" ++ f
  let toWrite := lit "to_write" ++ f
  let moffset := lit "moffset_" ++ f
  let textDecl := if filep ∈ declared then lit " " else
    lit "const char *" ++ mtext ++ lit "  = \"mmmmmmmmmmklmnopqrstuvwxyz123456\";"
  let dFilep := declare declared filep (lit "char *") (lit " ")
  let dWrite := declare dFilep.2 toWrite (lit "int ") (lit " ")
  let dMoffset := declare dWrite.2 moffset (lit "int ") (lit " ")
  some ⟨[[],
    tabs 4 ++ lit "if ( fallocate( fd_" ++ f ++ lit " , 0 , " ++ off ++ lit " , " ++ len ++
      lit ") < 0)\x7b ",
    tabs 5 ++ lit "cm_->CmClose( fd_" ++ f ++ lit ");",
    tabs 5 ++ lit " return -1;",
    tabs 4 ++ lit "\x7d",
    tabs 4 ++ dFilep.1 ++ filep ++ lit " = (char *) cm_->CmMmap(NULL, " ++ len ++ lit " + " ++ off ++
      lit ", PROT_WRITE|PROT_READ, MAP_SHARED, fd_" ++ f ++ lit ", 0);",
    tabs 4 ++ lit "if (" ++ filep ++ lit " == MAP_FAILED) \x7b",
    tabs 5 ++ lit " return -1;",
    tabs 4 ++ lit "\x7d",
    [],
    tabs 4 ++ dMoffset.1 ++ moffset ++ lit " = 0;",
    tabs 4 ++ dWrite.1 ++ toWrite ++ lit " = " ++ len ++ lit " ;",
    tabs 4 ++ textDecl,
    [],
    tabs 4 ++ lit "while (" ++ moffset ++ lit " < " ++ len ++ lit ")\x7b",
    tabs 5 ++ lit "if (" ++ toWrite ++ lit " < 32)\x7b",
    tabs 6 ++ lit "memcpy(" ++ filep ++ lit " + " ++ off ++ lit " + " ++ moffset ++ lit ", " ++
      mtext ++ lit ", " ++ toWrite ++ lit ");",
    tabs 6 ++ moffset ++ lit " += " ++ toWrite ++ lit ";",
    tabs 5 ++ lit "\x7d",
    tabs 5 ++ lit "else \x7b",
    tabs 6 ++ lit "memcpy(" ++ filep ++ lit " + " ++ off ++ lit " + " ++ moffset ++ lit "," ++
      mtext ++ lit ", 32);",
    tabs 6 ++ moffset ++ lit " += 32; ",
    tabs 5 ++ lit "\x7d ",
    tabs 4 ++ lit "\x7d",
    [],
    tabs 4 ++ lit "if ( cm_->CmMsync ( " ++ filep ++ lit " + " ++ off ++ lit ", 8192 , MS_SYNC) < 0)\x7b",
    tabs 5 ++ lit "cm_->CmMunmap( " ++ filep ++ lit "," ++ off ++ lit " + " ++ len ++ lit "); ",
    tabs 5 ++ lit "return -1;",
    tabs 4 ++ lit "\x7d",
    tabs 4 ++ lit "cm_->CmMunmap( " ++ filep ++ lit " , " ++ off ++ lit " + " ++ len ++ lit ");",
    []], 30, dMoffset.2⟩

def insertPlainWrite : Option Statement := do
  let fname ← words[1]?
  let off ← words[2]?
  let length ← words[3]?
  some ⟨checkedCall (lit "CmWriteData(fd_" ++ fname ++ lit ", " ++ off ++ lit ", " ++ length) brace
    (lit "write")
    (lit "\"write \" + " ++ fname ++ lit "_path + \" " ++ off ++ lit " " ++ length ++ lit "\"") count,
    5, declared⟩

/-- A direct write; the descriptor is closed and opened again for it. -/
def insertDwrite : Option Statement := do
  let f ← words[1]?
  let off ← words[2]?
  let len ← words[3]?
  let fd := lit "fd_" ++ f
  let offset := lit "offset_" ++ f
  let data := lit "data_" ++ f
  let text := lit "text_" ++ f
  let toWrite := lit "to_write" ++ f
  let dataDecl := if offset ∈ declared then lit " " else lit "void* " ++ data ++ lit ";"
  let textDecl := if offset ∈ declared then lit " " else
    lit "const char *" ++ text ++ lit "  = \"ddddddddddklmnopqrstuvwxyz123456\";"
  let dOffset := declare declared offset (lit "int ") (lit " ")
  let dWrite := declare dOffset.2 toWrite (lit "int ") []
  some ⟨[[],
    tabs 4 ++ lit "cm_->CmClose(" ++ fd ++ lit "); ",
    tabs 4 ++ fd ++ lit " = cm_->CmOpen(" ++ f ++ lit "_path.c_str() , O_RDWR|O_DIRECT|O_SYNC , 0777); ",
    tabs 4 ++ lit "if ( " ++ fd ++ lit " < 0 ) \x7b",
    tabs 5 ++ lit "return -1;",
    tabs 4 ++ lit "\x7d",
    [],
    tabs 4 ++ dataDecl,
    tabs 4 ++ lit "if (posix_memalign(&" ++ data ++ lit " , 4096, " ++ len ++ lit " ) < 0) \x7b",
    tabs 5 ++ lit "return -1;",
    tabs 4 ++ lit "\x7d",
    [],
    tabs 4 ++ lit " ",
    tabs 4 ++ dOffset.1 ++ offset ++ lit " = 0;",
    tabs 4 ++ dWrite.1 ++ toWrite ++ lit " = " ++ len ++ lit " ;",
    tabs 4 ++ textDecl,
    tabs 4 ++ lit "while (" ++ offset ++ lit " < " ++ len ++ lit ")\x7b",
    tabs 5 ++ lit "if (" ++ toWrite ++ lit " < 32)\x7b",
    tabs 6 ++ lit "memcpy((char *)" ++ data ++ lit "+ " ++ offset ++ lit ", " ++ text ++ lit ", " ++
      toWrite ++ lit ");",
    tabs 6 ++ offset ++ lit " += " ++ toWrite ++ lit ";",
    tabs 5 ++ lit "\x7d",
    tabs 5 ++ lit "else \x7b",
    tabs 6 ++ lit "memcpy((char *)" ++ data ++ lit "+ " ++ offset ++ lit "," ++ text ++ lit ", 32);",
    tabs 6 ++ offset ++ lit " += 32; ",
    tabs 5 ++ lit "\x7d ",
    tabs 4 ++ lit "\x7d ",
    [],
    tabs 4 ++ lit "if ( cm_->CmPwrite ( " ++ fd ++ lit ", " ++ data ++ lit ", " ++ len ++ lit ", " ++
      off ++ lit ") < 0)\x7b",
    tabs 5 ++ lit "return -1;",
    tabs 4 ++ lit "\x7d",
    tabs 4 ++ lit "this->get_disk_content(\"oracle_" ++ padLeft 2 '0' (decimal count) ++
      lit "_dwrite.txt\", \"dwrite \" + " ++ f ++ lit "_path + \" " ++ off ++ lit " " ++ len ++
      lit "\");",
    []], 31, dWrite.2⟩

/-- `mmapwrite`, `write` or `dwrite`, in `option`. -/
def insertWrite (option : List Char) : Option Statement :=
  if option = lit "mmapwrite" then insertMmapwrite words declared
  else if option = lit "write" then insertPlainWrite words declared count
  else insertDwrite words declared count

/-- A write to the file of the snapshots, which is opened and closed for it. -/
def snapshot (path written : List Char) : Statement :=
  let name := lit "fd_procfs"
  let d := declare declared name (lit "int ") (lit " ")
  ⟨[[],
    tabs 4 ++ d.1 ++ name ++ lit " = cm_->CmOpen( \"" ++ path ++ lit "\" , O_WRONLY );",
    tabs 4 ++ lit "if ( " ++ name ++ lit " < 0 ) \x7b",
    tabs 5 ++ lit "return -1;",
    tabs 4 ++ lit "\x7d",
    tabs 4 ++ lit "if ( cm_->CmWrite ( " ++ name ++ lit ", " ++ written ++ lit "\x7b ",
    tabs 5 ++ lit "return -1;",
    tabs 4 ++ lit "\x7d",
    tabs 4 ++ lit "if ( cm_->CmClose ( " ++ name ++ lit ") < 0)\x7b ",
    tabs 5 ++ lit "return -1;",
    tabs 4 ++ lit "\x7d",
    []], 11, d.2⟩

def insertCreateSnapshot : Option Statement := do
  let path ← words[1]?
  some (snapshot declared path (lit "\"1\", 1 ) != 1)"))

def insertDeleteSnapshot : Option Statement := do
  let path ← words[1]?
  let buf ← words[2]?
  some (snapshot declared path (lit "\"" ++ buf ++ lit "\", sizeof( \"" ++ buf ++
    lit "\" )  ) != sizeof(\"" ++ buf ++ lit "\") )"))

end Inserts

/-! ## The file -/

/-- The copy of the base file, the indices, the variables that are declared, and the number of
the last disk content. -/
structure Cpp where
  contents : List (List Char)
  indexMap : IndexMap
  declared : List (List Char)
  funcCount : Nat
  deriving DecidableEq

/-- An operation of J-lang: whether it is counted, and its statement. -/
structure Handler where
  counted : Bool
  build : List (List Char) → List (List Char) → Nat → Option Statement

/-- The branches of `insertFunctions` that insert something. -/
def handlers : List (List Char × Handler) := [
  (lit "falloc", ⟨true, insertFalloc⟩),
  (lit "mkdir", ⟨true, insertMkdir⟩),
  (lit "open", ⟨true, insertOpenFile⟩),
  (lit "opendir", ⟨false, fun words declared _ => insertOpenDir words declared⟩),
  (lit "remove", ⟨true, fun words declared count => insertRemoveFile words declared count (lit "remove")⟩),
  (lit "unlink", ⟨true, fun words declared count => insertRemoveFile words declared count (lit "unlink")⟩),
  (lit "close", ⟨false, fun words declared _ => insertClose words declared⟩),
  (lit "rmdir", ⟨true, insertRmdir⟩),
  (lit "truncate", ⟨true, insertTruncateFile⟩),
  (lit "fsync", ⟨false, fun words declared _ => insertFsync words declared (lit "fsync")⟩),
  (lit "fdatasync", ⟨false, fun words declared _ => insertFsync words declared (lit "fdatasync")⟩),
  (lit "sync", ⟨false, fun _ declared _ => insertSync declared⟩),
  (lit "rename", ⟨true, insertRename⟩),
  (lit "fsetxattr", ⟨false, fun _ declared _ => insertFsetxattr declared⟩),
  (lit "removexattr", ⟨false, fun _ declared _ => insertRemovexattr declared⟩),
  (lit "link", ⟨true, insertLink⟩),
  (lit "symlink", ⟨true, insertSymlink⟩),
  (lit "write", ⟨true, fun words declared count => insertWrite words declared count (lit "write")⟩),
  (lit "dwrite", ⟨true, fun words declared count => insertWrite words declared count (lit "dwrite")⟩),
  (lit "mmapwrite",
    ⟨true, fun words declared count => insertWrite words declared count (lit "mmapwrite")⟩),
  (lit "createSnapshot", ⟨false, fun words declared _ => insertCreateSnapshot words declared⟩),
  (lit "deleteSnapshot", ⟨false, fun words declared _ => insertDeleteSnapshot words declared⟩)]

/-- The statement of a line, with the number of the last disk content behind it.  Other words
(`mark`, `checkpoint`, `none`, `mknod`, `chmod`) have none. -/
def statementOf (words declared : List (List Char)) (count : Nat) :
    Option (Option (Statement × Nat)) :=
  match handlers.lookup (words.headD []) with
  | none => some none
  | some h => do
    let count := if h.counted then count + 1 else count
    let st ← h.build words declared count
    some (some (st, count))

/-- `insertFunctions` -/
def insertFunctions (method : Method) (words : List (List Char)) (o : Cpp) : Option Cpp := do
  match ← statementOf words o.declared o.funcCount with
  | none => some o
  | some (st, count) =>
    let index := o.indexMap.update method 1
    some {
      contents := insertAt o.contents (index.of method) st.text
      indexMap := index.update method st.num
      declared := st.declared
      funcCount := count }

/-- The lines for a name in `setup`, in `run` and in the declarations. -/
def setupPath (line : List Char) : List Char :=
  let fileStr := line.filter (· ≠ '/')
  if fileStr = lit "test" then tabs 4 ++ fileStr ++ lit "_path = mnt_dir_ ;"
  else tabs 4 ++ fileStr ++ lit "_path = mnt_dir_ + \"/" ++ line ++ lit "\";"

def runPath (line : List Char) : List Char :=
  let fileStr := line.filter (· ≠ '/')
  if fileStr = lit "test" then tabs 4 ++ fileStr ++ lit "_path = mnt_dir_ ;"
  else tabs 4 ++ fileStr ++ lit "_path =  mnt_dir_ + \"/" ++ line ++ lit "\";"

def definePath (line : List Char) : List Char :=
  tabs 3 ++ lit " string " ++ line.filter (· ≠ '/') ++ lit "_path; "

/-- `insertDefine` -/
def insertDefine (line : List Char) (o : Cpp) : Cpp :=
  let inSetup := o.indexMap.updateSetupMap 1
  let inRun := inSetup.updateRunMap 1
  let inDefine := inRun.updateDefineMap 1
  { o with
    contents :=
      insertAt (insertAt (insertAt o.contents inSetup.setup [setupPath line]) inRun.run
        [runPath line]) inDefine.define [definePath line]
    indexMap := inDefine }

def declareLine (line : List Char) : List Char := tabs 4 ++ lit "int " ++ line ++ lit " = 0 ;"

/-- `insertDeclare` -/
def insertDeclare (line : List Char) (o : Cpp) : Cpp :=
  let index := o.indexMap.updateRunMap 1
  { o with contents := insertAt o.contents index.run [declareLine line], indexMap := index }

/-- The last lines of the base file with a `setup`, a `run` and a `private:`, counted from one. -/
def findIndex (m : IndexMap) (x : List Char × Nat) : Option IndexMap :=
  let line := strip x.1
  let words := line.splitOn ' '
  if lit "virtual int setup()" <:+: line then do
    let word ← words[2]?
    some (if word = lit "setup()" then { m with setup := x.2 + 1 } else m)
  else if lit "virtual int run()" <:+: line then do
    let word ← words[2]?
    some (if word = lit "run()" then { m with run := x.2 + 1 } else m)
  else if lit "private" <:+: line then
    some (if words.headD [] = lit "private:" then { m with define := x.2 + 1 } else m)
  else some m

def findIndices (base : List (List Char)) : Option IndexMap :=
  base.zipIdx.foldlM findIndex ⟨0, 0, 0⟩

/-- One line of the J-lang file.  A line in front of all headings is an error. -/
def generateLine (s : Option (List Char) × Cpp) (line : List Char) :
    Option (Option (List Char) × Cpp) :=
  if line = [] then some s
  else
    let line := strip line
    if (line.splitOn ' ').headD [] = lit "#" then do
      let method ← (words line).getLast?
      some (some method, s.2)
    else do
      let method ← s.1
      if method = lit "define" then some (s.1, insertDefine line s.2)
      else if method = lit "declare" then some (s.1, insertDeclare line s.2)
      else if method = lit "setup" then do
        let o ← insertFunctions .setup (line.splitOn ' ') s.2
        some (s.1, o)
      else if method = lit "run" then do
        let o ← insertFunctions .run (line.splitOn ' ') s.2
        some (s.1, o)
      else some s

/-- `generateOneCpp` -/
def generateOneCpp (base file : List (List Char)) : Option (List (List Char)) := do
  let index ← findIndices base
  let s ← file.foldlM generateLine (none, ⟨base, index, [], 0⟩)
  some s.2.contents

end Adapter
end Ace
end Silhouette
