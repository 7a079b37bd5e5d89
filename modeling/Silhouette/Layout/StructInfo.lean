import Silhouette.Lib.Dict
import Silhouette.Lib.Text

/-!
# Struct layouts

The layout tool writes one record per struct: a marker, a line for the struct and a line for each
member.  A record has no end mark.  The reader closes it when it meets the marker of the next one,
so the last record of a file is never closed.
-/

namespace Silhouette
namespace Layout

open Lib Lib.Text

/-! ## The writer -/

structure StructMemberInfo where
  tyName : String
  name : String
  sizeBits : Nat
  size : Nat
  offsetBits : Nat
  offset : Nat
  isPtr : Bool
  isAry : Bool
  deriving DecidableEq, Repr

/-- A struct with its members in the order of their offsets, one for each offset. -/
structure StructInfo where
  name : String
  sizeBits : Nat
  size : Nat
  members : List StructMemberInfo
  sorted : members.Pairwise fun m n => m.offsetBits < n.offsetBits

/-- `std::to_string` of a flag. -/
def flagText (b : Bool) : List Char := if b then ['1'] else ['0']

def StructMemberInfo.line (m : StructMemberInfo) : List Char :=
  m.tyName.toList ++ (',' :: (m.name.toList ++ (',' :: (decimal m.sizeBits ++ (',' ::
    (decimal m.size ++ (',' :: (decimal m.offsetBits ++ (',' :: (decimal m.offset ++ (',' ::
      (flagText m.isPtr ++ (',' :: flagText m.isAry)))))))))))))

def StructInfo.headerLine (s : StructInfo) : List Char :=
  s.name.toList ++ (',' :: (decimal s.sizeBits ++ (',' :: decimal s.size)))

/-- The line in front of a record. -/
def marker : List Char := "STRUCT RECORD".toList

def StructInfo.lines (s : StructInfo) : List (List Char) :=
  marker :: s.headerLine :: s.members.map StructMemberInfo.line

def StructInfo.serialize (s : StructInfo) : List Char := s.lines.flatMap fun l => l ++ ['\n']

/-- The contents of the file. -/
def serializeStInfoVec (vec : List StructInfo) : List Char := vec.flatMap StructInfo.serialize

/-! ## The reader -/

structure StructMemberVar where
  fatherName : String
  typeName : String
  rawTypeName : String
  varName : String
  sizeBits : Int
  sizeBytes : Int
  offsetBits : Int
  offsetBytes : Int
  isPtr : Bool
  isAry : Bool
  deriving DecidableEq, Repr

/-- The type of a member without `struct`, stars and one pair of brackets. -/
def cleanTypeName (raw : List Char) : List Char :=
  let name := if "struct ".toList.isPrefixOf raw then raw.drop 7 else raw
  let name := name.rdropWhile (· = '*')
  let name := if '[' ∈ name ∧ ']' ∈ name then
    name.take (name.idxOf '[') ++ name.drop (name.idxOf ']' + 1) else name
  strip name

/-- `StructMemberVar(father_name, line)`.  A malformed number ends the program. -/
def parseMember (fatherName : String) (line : List Char) : Option StructMemberVar := do
  let lst := (strip line).splitOn ','
  let raw ← lst[0]?
  let var ← lst[1]?
  let int (i : Nat) : Option Int := lst[i]?.bind readInt
  return {
    fatherName := fatherName
    typeName := String.ofList (cleanTypeName raw)
    rawTypeName := String.ofList raw
    varName := if var = [] then "anonymous" else String.ofList var
    sizeBits := ← int 2
    sizeBytes := ← int 3
    offsetBits := ← int 4
    offsetBytes := ← int 5
    isPtr := (← int 6) ≠ 0
    isAry := (← int 7) ≠ 0 }

/-- The name of a struct and its size in bits and in bytes. -/
structure StructHeader where
  structName : String
  sizeBits : Int
  sizeBytes : Int
  deriving DecidableEq, Repr

/-- A struct that is being read. -/
structure StructEntry where
  header : Option StructHeader
  children : List StructMemberVar
  deriving DecidableEq, Repr

namespace StructEntry

def addStructHeader (st : StructEntry) (line : List Char) : Option StructEntry :=
  match st.header with
  | some _ => none
  | none => do
    let lst := (strip line).splitOn ','
    let name ← lst[0]?
    let int (i : Nat) : Option Int := lst[i]?.bind readInt
    return { st with header := some ⟨String.ofList name, ← int 1, ← int 2⟩ }

def addMemberVar (st : StructEntry) (line : List Char) : Option StructEntry :=
  match st.header with
  | none => none
  | some h => (parseMember h.structName line).map fun child =>
    { st with children := st.children ++ [child] }

/-- The kind of a line is told by its commas. -/
def addLine (st : StructEntry) (line : List Char) : Option StructEntry :=
  if line.count ',' = 2 then st.addStructHeader line
  else if line.count ',' = 7 then st.addMemberVar line
  else none

/-- Members in the order of their offsets.  A struct without a header ends the program. -/
def finalize (st : StructEntry) : Option (String × StructEntry) :=
  st.header.map fun h =>
    (h.structName, { st with children := sortBy StructMemberVar.offsetBits st.children })

end StructEntry

structure StructInfoReader where
  structDict : Dict String StructEntry
  structInfo : Option StructEntry

namespace StructInfoReader

/-- Close the struct that is being read.  A name read before ends the program. -/
def close (r : StructInfoReader) : Option (Dict String StructEntry) :=
  match r.structInfo with
  | none => some r.structDict
  | some st => do
    let (name, st) ← st.finalize
    if name ∈ r.structDict.keys then none else return r.structDict.set name st

def addLine (r : StructInfoReader) (line : List Char) : Option StructInfoReader :=
  let line := strip line
  if line = [] then some r
  else if marker.isPrefixOf line then
    r.close.map fun d => ⟨d, some ⟨none, []⟩⟩
  else match r.structInfo with
    | some st => (st.addLine line).map fun st => { r with structInfo := some st }
    | none => none

/-- `struct_dict` after the whole file.  The struct that is still open is left out. -/
def readStructs (file : List Char) : Option (Dict String StructEntry) :=
  ((readLines file).foldlM addLine ⟨Dict.empty, none⟩).map structDict

end StructInfoReader

/-! ## What is read back -/

def SameMember (m : StructMemberInfo) (v : StructMemberVar) : Prop :=
  v.rawTypeName = m.tyName ∧ v.varName = m.name ∧ v.sizeBits = m.sizeBits ∧ v.sizeBytes = m.size ∧
    v.offsetBits = m.offsetBits ∧ v.offsetBytes = m.offset ∧ v.isPtr = m.isPtr ∧ v.isAry = m.isAry

/-- The same struct with the same members in the same order. -/
def SameStruct (s : StructInfo) (st : StructEntry) : Prop :=
  st.header = some ⟨s.name, s.sizeBits, s.size⟩ ∧ List.Forall₂ SameMember s.members st.children

def RoundTrips (vec : List StructInfo) : Prop :=
  ∃ d, StructInfoReader.readStructs (serializeStInfoVec vec) = some d ∧
    ∀ s ∈ vec, ∃ st, d.get? s.name = some st ∧ SameStruct s st

/-- The names and types in a layout hold no comma. -/
def StructInfo.CommaFree (s : StructInfo) : Prop :=
  ',' ∉ s.name.toList ∧ ∀ m ∈ s.members, ',' ∉ m.tyName.toList ∧ ',' ∉ m.name.toList

end Layout
end Silhouette
