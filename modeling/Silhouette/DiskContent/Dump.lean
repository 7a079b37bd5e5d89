import Silhouette.Lib.Dict
import Silhouette.Lib.Text
import Mathlib.Data.Finset.SDiff
import Mathlib.Data.Finset.Card

/-!
# The dump of a file system

The state of a mounted file system is dumped as text, one block of lines for each path, and read
back to be compared with another dump.  Every line is a key and a value with a colon between them.

File names stand in the lines as they are.
-/

namespace Silhouette
namespace DiskContent

open Lib Lib.Text

/-! ## The writer -/

/-- What is printed of a directory entry and of the result of `stat`. -/
structure FileAttributes where
  dName : List Char
  dIno : Nat
  dOff : Int
  dReclen : Nat
  dType : UInt8
  stIno : Nat
  stSize : Int
  stBlksize : Int
  stBlocks : Int
  stNlink : Nat
  stMode : Nat
  stUid : Nat
  stGid : Nat
  stRdev : Nat
  stDev : Nat
  md5sum : List Char
  errMsg : List Char := []
  deriving DecidableEq

/-- Two digits of a byte. -/
def hexByte (b : UInt8) : List Char := [(b.toNat / 16).digitChar, (b.toNat % 16).digitChar]

namespace FileAttributes

def dirAttrs (a : FileAttributes) : List (List Char × List Char) :=
  [(lit "Dir_Name", a.dName), (lit "Dir_Inode", decimal a.dIno),
    (lit "Dir_Offset", decimalInt a.dOff), (lit "Dir_Length", decimal a.dReclen),
    (lit "Dir_Type", lit "0x" ++ hexByte a.dType)]

def statAttrs (a : FileAttributes) : List (List Char × List Char) :=
  [(lit "File_Inode", decimal a.stIno), (lit "File_TotalSize", decimalInt a.stSize),
    (lit "File_BlockSize", decimalInt a.stBlksize), (lit "File_#Blocks", decimalInt a.stBlocks),
    (lit "File_#HardLinks", decimal a.stNlink), (lit "File_Mode", decimal a.stMode),
    (lit "File_User ID", decimal a.stUid), (lit "File_Group ID", decimal a.stGid),
    (lit "File_Device ID", decimal a.stRdev), (lit "File_RootDev ID", decimal a.stDev)]

def md5Attr (a : FileAttributes) : List Char × List Char := (lit "File_MD5", lit "0x" ++ a.md5sum)

/-- The attributes in the order in which they are printed. -/
def attrs (a : FileAttributes) : List (List Char × List Char) :=
  a.dirAttrs ++ a.statAttrs ++ [a.md5Attr]

end FileAttributes

/-- A key in a column of some width, and its value. -/
def attrLine (width : Nat) (x : List Char × List Char) : List Char :=
  padRight width x.1 ++ (lit ": " ++ x.2)

def FileAttributes.lines (a : FileAttributes) : List (List Char) :=
  a.dirAttrs.map (attrLine 11) ++ a.statAttrs.map (attrLine 15) ++ [attrLine 9 a.md5Attr]

/-- The end of a line is put behind each. -/
def endLines (ls : List (List Char)) : List Char := ls.flatMap fun l => l ++ ['\n']

/-- `fileAttributes::to_string` -/
def FileAttributes.toString (a : FileAttributes) : List Char := endLines a.lines ++ a.errMsg

/-- The paths below a mount point, in order. -/
structure DiskContents where
  desc : List Char
  contents : List (List Char × FileAttributes)
  sorted : contents.Pairwise fun x y => x.1 < y.1
  errMsg : List Char := []

/-- The lines in front of the attributes of a path. -/
def pathLines (num : Nat) (path : List Char) : List (List Char) :=
  [lit "Content_ID: " ++ padLeft 5 '0' (decimal num), lit "Path : " ++ path]

/-- The blocks of the paths, numbered. -/
def blocks : Nat → List (List Char × FileAttributes) → List Char
  | _, [] => []
  | num, x :: rest =>
    endLines (pathLines (num + 1) x.1) ++ (x.2.toString ++ ['\n']) ++ blocks (num + 1) rest

/-- `DiskContents::toStr` -/
def DiskContents.toStr (c : DiskContents) : List Char :=
  endLines [lit "#### " ++ c.desc] ++ blocks 0 c.contents ++
    if c.errMsg.length > 0 then c.errMsg ++ ['\n'] else []

/-! ## The reader -/

inductive FSOpType where
  | unknown
  | create
  | unlink
  | mkdir
  | rmdir
  | append
  | write
  | link
  | symlink
  | rename
  | truncate
  | fallocate
  | umount
  deriving DecidableEq, Repr

/-- The operation a dump is the oracle of. -/
structure FileSystemOp where
  type : FSOpType := .unknown
  dirPath : Option (List Char) := none
  filePath : Option (List Char) := none
  fileSize : Option Int := none
  writeSize : Option Int := none
  writeOffset : Option Int := none
  srcPath : Option (List Char) := none
  dstPath : Option (List Char) := none

/-- A missing word or a malformed number ends the program. -/
def FileSystemOp.deduceFromOracleComment (op : FileSystemOp) (opStr : List Char) :
    Option FileSystemOp :=
  let opAttrs := opStr.splitOn ' '
  let cmd := opAttrs.headD []
  let word (i : Nat) : Option (List Char) := opAttrs[i]?
  let int (i : Nat) : Option Int := opAttrs[i]?.bind readInt
  if cmd = lit "open" then do
    if lit "O_CREAT" <:+: (← word 2) then
      return { op with type := .create, filePath := some (← word 1) }
    else return op
  else if cmd = lit "create" then do
    return { op with type := .create, filePath := some (← word 1) }
  else if cmd = lit "unlink" then do
    return { op with type := .unlink, filePath := some (← word 1) }
  else if cmd = lit "mkdir" then do return { op with type := .mkdir, dirPath := some (← word 1) }
  else if cmd = lit "rmdir" then do return { op with type := .rmdir, dirPath := some (← word 1) }
  else if cmd = lit "append" then do
    return { op with type := .append, filePath := some (← word 1), writeSize := some (← int 2) }
  else if cmd = lit "write" ∨ cmd = lit "dwrite" then do
    return { op with type := .write, filePath := some (← word 1), writeOffset := some (← int 2),
                     writeSize := some (← int 3) }
  else if cmd = lit "link" then do
    return { op with type := .link, srcPath := some (← word 1), dstPath := some (← word 2) }
  else if cmd = lit "symlink" then do
    return { op with type := .symlink, srcPath := some (← word 1), dstPath := some (← word 2) }
  else if cmd = lit "rename" then do
    return { op with type := .rename, srcPath := some (← word 1), dstPath := some (← word 2) }
  else if cmd = lit "truncate" then do
    return { op with type := .truncate, filePath := some (← word 1), fileSize := some (← int 2) }
  else if cmd = lit "falloc" then do
    return { op with type := .fallocate, filePath := some (← word 1) }
  else some op

structure DiskEntryAttrs where
  vars : Dict (List Char) (List Char)
  id : Int
  path : List Char

namespace DiskEntryAttrs

def new : DiskEntryAttrs := ⟨Dict.empty, -1, []⟩

/-- A line with a colon.  A key that is there already ends the program. -/
def addAttr (e : DiskEntryAttrs) (line : List Char) : Option DiskEntryAttrs :=
  if line.count ':' = 0 then some e
  else if (lit "Content_ID").isPrefixOf line then do
    return { e with id := ← (line.splitOn ':')[1]?.bind readInt }
  else if (lit "Path").isPrefixOf line then do
    return { e with path := strip (← (line.splitOn ':')[1]?) }
  else do
    let line := joinWords (words line)
    let key := strip (← (line.splitOn ':')[0]?)
    let val := strip (← (line.splitOn ':')[1]?)
    if key ∈ e.vars.keys then none else return { e with vars := e.vars.set key val }

/-- An entry without a number or a path ends the program. -/
def finalize (e : DiskEntryAttrs) : Option DiskEntryAttrs :=
  if e.id < 0 ∨ e.path = [] then none else some e

/-- `fzset`, once the entry is final. -/
def fzset (e : DiskEntryAttrs) : Finset (List Char × List Char) := e.vars.items.toFinset

end DiskEntryAttrs

structure CtxFileReader where
  hasErrMsg : Bool
  opComment : Option (List Char)
  fsOp : FileSystemOp
  entry : Option DiskEntryAttrs
  entries : List DiskEntryAttrs

namespace CtxFileReader

/-- One line of the dump, with its end. -/
def addLine (r : CtxFileReader) (line : List Char) : Option CtxFileReader :=
  if (lit "#### ").isPrefixOf line then do
    let comment := (strip line).drop 5
    return { r with opComment := some comment, fsOp := ← r.fsOp.deduceFromOracleComment comment }
  else if line = [] ∨ line.count ':' = 0 ∨ ['#'].isPrefixOf line then some r
  else if lit "error" <:+: line then some { r with hasErrMsg := true }
  else do
    let entry ← (r.entry.getD DiskEntryAttrs.new).addAttr line
    if (lit "File_MD5").isPrefixOf line then
      return { r with entry := none, entries := r.entries ++ [← entry.finalize] }
    else return { r with entry := some entry }

def new : CtxFileReader := ⟨false, none, {}, none, []⟩

/-- `CtxFileReader(lines=text)` -/
def read (text : List Char) : Option CtxFileReader :=
  ((text.splitOn '\n').map fun l => l ++ ['\n']).foldlM addLine new

/-- The entries by path; a later entry replaces an earlier one of the same path. -/
def entriesPathMap (r : CtxFileReader) : Dict (List Char) DiskEntryAttrs :=
  r.entries.foldl (fun d e => d.set e.path e) Dict.empty

end CtxFileReader

/-! ## Comparing two dumps -/

/-- The text of an attribute in a report; empty when there is none. -/
def getVarStr (e : DiskEntryAttrs) (key : List Char) : List Char :=
  match e.vars.get? key with
  | some val => key ++ (lit " : " ++ val)
  | none => []

/-- The keys in which two entries differ. -/
def diffKeys (e f : DiskEntryAttrs) (ignore : Finset (List Char)) : Finset (List Char) :=
  ((e.fzset \ f.fzset) ∪ (f.fzset \ e.fzset)).image Prod.fst \ ignore

/-- The number of these.  Keys whose texts are the same would end the program. -/
def diffAttrs (e f : DiskEntryAttrs) (ignore : Finset (List Char)) : Option Nat :=
  if e.fzset = f.fzset then some 0
  else if ∀ key ∈ diffKeys e f ignore, getVarStr e key ≠ getVarStr f key then
    some (diffKeys e f ignore).card
  else none

/-- The number of differences of a path of the first map. -/
def diffPath (b : Dict (List Char) DiskEntryAttrs) (ignore : Finset (List Char))
    (x : List Char × DiskEntryAttrs) : Option Nat :=
  match b.get? x.1 with
  | some f => diffAttrs x.2 f ignore
  | none => some x.2.vars.items.length

/-- The number of paths with a difference. -/
def diffCtx (a b : Dict (List Char) DiskEntryAttrs) (ignore : Finset (List Char)) : Option Nat := do
  let n ← a.items.foldlM (fun n x => do
    return if (← diffPath b ignore x) > 0 then n + 1 else n) 0
  return b.items.foldl (fun n x =>
    if x.1 ∈ a.keys then n else if x.2.vars.items.length > 0 then n + 1 else n) n

/-! ## What is read back -/

/-- File names without newlines, sums of hexadecimal digits, and a comment of one line. -/
structure DiskContents.Legal (c : DiskContents) : Prop where
  path : ∀ x ∈ c.contents, x.1 ≠ [] ∧ '\n' ∉ x.1
  name : ∀ x ∈ c.contents, '\n' ∉ x.2.dName
  md5sum : ∀ x ∈ c.contents, ∀ d ∈ x.2.md5sum, ∃ n < 16, d = n.digitChar
  desc : '\n' ∉ c.desc

/-- The operation of the comment line is complete. -/
def DiskContents.CommentReads (c : DiskContents) : Prop :=
  (FileSystemOp.deduceFromOracleComment {}
    ((strip (lit "#### " ++ c.desc ++ ['\n'])).drop 5)).isSome

/-- No error was recorded. -/
def DiskContents.NoError (c : DiskContents) : Prop :=
  c.errMsg = [] ∧ ∀ x ∈ c.contents, x.2.errMsg = []

/-- One entry for each path, under that path and with its attributes, and no error. -/
def ReadBack (c : DiskContents) (r : CtxFileReader) : Prop :=
  r.hasErrMsg = false ∧
    r.entries.map (fun e => (e.path, e.vars.items)) = c.contents.map (fun x => (x.1, x.2.attrs)) ∧
    ∀ x ∈ c.contents, ∃ e, r.entriesPathMap.get? x.1 = some e ∧ e.vars.items = x.2.attrs

/-- Two dumps are read back, and compare equal when their states are. -/
def DumpsCompare (c d : DiskContents) : Prop :=
  ∃ r s, CtxFileReader.read c.toStr = some r ∧ CtxFileReader.read d.toStr = some s ∧
    ReadBack c r ∧ ReadBack d s ∧
    (diffCtx r.entriesPathMap s.entriesPathMap ∅ = some 0 ↔ c.contents = d.contents)

/-- Names that the format does not break: no colon, no `error`, no blanks that reading changes. -/
structure PlainNames (x : List Char × FileAttributes) : Prop where
  path : ':' ∉ x.1 ∧ ¬ lit "error" <:+: x.1 ∧ strip x.1 = x.1
  name : ':' ∉ x.2.dName ∧ ¬ lit "error" <:+: x.2.dName ∧ joinWords (words x.2.dName) = x.2.dName

end DiskContent
end Silhouette
