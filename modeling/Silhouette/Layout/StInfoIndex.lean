import Silhouette.Layout.StructInfo
import Silhouette.Trace.TraceReader
import Mathlib.Data.Prod.Lex
import Mathlib.Logic.Function.Basic

/-!
# The structs of a trace

`StInfoIndex`.  Records of struct pointers tell at which addresses of persistent memory there are
structs, and every load or store inside one of them is annotated with it and the members it
touches.  Where the trace and the layout disagree about the size of a struct the trace is right, so
the index rewrites the layout before it annotates.

The interval trees are a library.  The index asks them for what covers a point, behind
`split_overlaps` and `merge_equals`, and for what overlaps a range; `IvQueries` are the answers.
-/

namespace Silhouette
namespace Layout

open Lib Trace

def StructEntry.sizeBytes (st : StructEntry) : Int :=
  (st.header.map StructHeader.sizeBytes).getD 0

def StructEntry.setSize (st : StructEntry) (size : Int) : StructEntry :=
  { st with header := st.header.map fun h => { h with sizeBytes := size, sizeBits := size * 8 } }

/-- A struct at an address.  The struct is shared, so it is named and not copied. -/
structure AddrToStInfoEntry where
  addr : Int
  structName : String
  deriving DecidableEq, Repr

/-- The answers of the interval trees: the data of the intervals at a point, each in some order,
and the data of those that overlap a range. -/
structure IvQueries where
  point : List (Int × Int × AddrToStInfoEntry) → Int → List (List AddrToStInfoEntry)
  overlap : List (Int × Int × StructMemberVar) → Int → Int → List StructMemberVar

namespace AddrToStInfoEntry

section

variable (structDict : Dict String StructEntry)

def sizeBytes (x : AddrToStInfoEntry) : Int :=
  ((structDict.get? x.structName).map StructEntry.sizeBytes).getD 0

def contains (x : AddrToStInfoEntry) (lo hi : Int) : Bool :=
  x.addr ≤ lo ∧ hi ≤ x.addr + x.sizeBytes structDict

/-- `addr_to_var_iv`. -/
def addrToVarIv (x : AddrToStInfoEntry) : List (Int × Int × StructMemberVar) :=
  (((structDict.get? x.structName).map StructEntry.children).getD []).map fun var =>
    (x.addr + var.offsetBytes, x.addr + var.offsetBytes + var.sizeBytes, var)

def getVarsByIv (iv : IvQueries) (x : AddrToStInfoEntry) (lo hi : Int) : List StructMemberVar :=
  sortBy StructMemberVar.offsetBytes (iv.overlap (x.addrToVarIv structDict) lo hi)

end

end AddrToStInfoEntry

/-! ## Building the trees -/

/-- The loops over the records of all processes. -/
def pidEntries (r : TraceReader) : List (Int × TraceEntry) :=
  r.pidSeqEntryMap.items.flatMap fun x => x.2.items.flatMap fun y => y.2.map fun e => (x.1, e)

structure IvState where
  structDict : Dict String StructEntry
  minStSize : Int
  pidAddrToStinfoIv : Dict Int (List (Int × Int × AddrToStInfoEntry))

/-- Enter a struct and the structs nested in it.  An empty interval and a recursion that does not
end are errors. -/
def IvState.helper (pid : Int) : Nat → Int → Int → String → IvState → Option IvState
  | 0, _, _, _, _ => none
  | limit + 1, addr, size, stName, s =>
    match s.structDict.get? stName with
    | none => some s
    | some st =>
      let st := if size ≠ st.sizeBytes then st.setSize size else st
      if st.children.any fun var => var.sizeBytes ≤ 0 then none
      else if size ≤ 0 then none
      else
        let iv := (s.pidAddrToStinfoIv.get? pid).getD []
        st.children.foldlM
          (fun s var => IvState.helper pid limit (addr + var.offsetBytes) (size - var.offsetBytes)
            var.typeName s)
          { structDict := s.structDict.set stName st
            minStSize := min s.minStSize st.sizeBytes
            pidAddrToStinfoIv :=
              s.pidAddrToStinfoIv.set pid (iv ++ [(addr, addr + size, ⟨addr, stName⟩)]) }

/-- `__init`. -/
def IvState.build (limit : Nat) (r : TraceReader) (structDict : Dict String StructEntry) :
    Option IvState :=
  (pidEntries r).foldlM
    (fun s x =>
      if x.2.type.isStructInfoSeries && isPmAddr x.2.addr r.pmAddr r.pmSize then
        IvState.helper x.1 limit x.2.addr x.2.size x.2.stName s
      else some s)
    ⟨structDict, maxSize, Dict.empty⟩

/-! ## Annotating the records -/

/-- What is set on a record: `stinfo_match` and `var_list`. -/
structure Annotation where
  stinfoMatch : AddrToStInfoEntry
  varList : List StructMemberVar
  deriving DecidableEq, Repr

abbrev Annotations := TraceEntry → Option Annotation

/-- Of several structs the one that starts closest, and whose first member is smallest. -/
def closest (e : TraceEntry) (l : List (AddrToStInfoEntry × List StructMemberVar)) :
    Option (AddrToStInfoEntry × List StructMemberVar) := do
  let keyed ← l.mapM fun x => x.2.head?.map fun var =>
    (toLex (e.addr - x.1.addr, var.sizeBytes), x)
  (sortBy Prod.fst keyed).head?.map Prod.snd

/-- The structs that contain a record as a whole. -/
def candidates (iv : IvQueries) (structDict : Dict String StructEntry) (e : TraceEntry)
    (data : List AddrToStInfoEntry) : List (AddrToStInfoEntry × List StructMemberVar) :=
  (data.filter fun x => x.contains structDict e.addr (e.addr + e.size)).map fun x =>
    (x, x.getVarsByIv structDict iv e.addr (e.addr + e.size))

/-- `__init_trace_entry_stinfo` for one record. -/
def annotateEntry (iv : IvQueries) (r : TraceReader) (s : IvState) (a : Annotations)
    (x : Int × TraceEntry) : Option Annotations :=
  let e := x.2
  if !(isPmAddr e.addr r.pmAddr r.pmSize && (e.type.isStoreSeries || e.type.isLoadSeries)) then
    some a
  else
    match iv.point ((s.pidAddrToStinfoIv.get? x.1).getD []) e.addr with
    | [data] =>
      match candidates iv s.structDict e data with
      | [] => some (Function.update a e none)
      | [y] => some (Function.update a e (some ⟨y.1, sortBy StructMemberVar.offsetBytes y.2⟩))
      | l => (closest e l).map fun y =>
        Function.update a e (some ⟨y.1, sortBy StructMemberVar.offsetBytes y.2⟩)
    | _ => some a

structure StInfoIndex where
  structDict : Dict String StructEntry
  pidAddrToStinfoIv : Dict Int (List (Int × Int × AddrToStInfoEntry))
  annotations : Annotations

def StInfoIndex.new (limit : Nat) (iv : IvQueries) (r : TraceReader)
    (structDict : Dict String StructEntry) : Option StInfoIndex := do
  let s ← IvState.build limit r structDict
  let a ← (pidEntries r).foldlM (annotateEntry iv r s) fun _ => none
  return ⟨s.structDict, s.pidAddrToStinfoIv, a⟩

/-! ## What is annotated contains the record -/

/-- Every annotated record lies inside its struct. -/
def Contained (structDict : Dict String StructEntry) (a : Annotations) : Prop :=
  ∀ e x, a e = some x → x.stinfoMatch.contains structDict e.addr (e.addr + e.size) = true

theorem closest_mem {e : TraceEntry} {l : List (AddrToStInfoEntry × List StructMemberVar)}
    {y : AddrToStInfoEntry × List StructMemberVar} (h : closest e l = some y) : y ∈ l := by
  obtain ⟨keyed, hkeyed, h⟩ := Option.bind_eq_some_iff.mp h
  obtain ⟨z, hz, rfl⟩ := Option.map_eq_some_iff.mp h
  obtain ⟨x, hx, hxz⟩ := exists_of_mem_mapM hkeyed (mem_sortBy.mp (List.mem_of_mem_head? hz))
  obtain ⟨var, -, rfl⟩ := Option.map_eq_some_iff.mp hxz
  exact hx

section

variable {iv : IvQueries} {r : TraceReader} {s : IvState} {a a' : Annotations}

theorem contains_of_mem_candidates {structDict : Dict String StructEntry} {e : TraceEntry}
    {data : List AddrToStInfoEntry} {y : AddrToStInfoEntry × List StructMemberVar}
    (h : y ∈ candidates iv structDict e data) :
    y.1.contains structDict e.addr (e.addr + e.size) = true := by
  obtain ⟨x, hx, rfl⟩ := List.mem_map.mp h
  exact (List.mem_filter.mp hx).2

theorem Contained.update {structDict : Dict String StructEntry} (h : Contained structDict a)
    {e : TraceEntry} {x : Option Annotation}
    (hx : ∀ y, x = some y → y.stinfoMatch.contains structDict e.addr (e.addr + e.size) = true) :
    Contained structDict (Function.update a e x) := by
  intro e' y hy
  by_cases he : e' = e
  · rw [he, Function.update_self] at hy
    exact he ▸ hx y hy
  · rw [Function.update_of_ne he] at hy
    exact h e' y hy

theorem Contained.annotateEntry {x : Int × TraceEntry} (h : Contained s.structDict a)
    (ha : annotateEntry iv r s a x = some a') : Contained s.structDict a' := by
  simp only [Layout.annotateEntry] at ha
  split at ha
  · exact Option.some.inj ha ▸ h
  · split at ha
    · rename_i data hdata
      split at ha
      · rw [← Option.some.inj ha]
        exact h.update fun y hy => absurd hy (by simp)
      · rename_i y hy
        rw [← Option.some.inj ha]
        refine h.update fun z hz => ?_
        rw [← Option.some.inj hz]
        exact contains_of_mem_candidates (hy ▸ List.mem_singleton_self y)
      · obtain ⟨y, hy, rfl⟩ := Option.map_eq_some_iff.mp ha
        refine h.update fun z hz => ?_
        rw [← Option.some.inj hz]
        exact contains_of_mem_candidates (closest_mem hy)
    · exact Option.some.inj ha ▸ h

end

/-- The index only annotates a record with a struct around it. -/
theorem contained_index {limit : Nat} {iv : IvQueries} {r : TraceReader}
    {structDict : Dict String StructEntry} {idx : StInfoIndex}
    (h : StInfoIndex.new limit iv r structDict = some idx) :
    Contained idx.structDict idx.annotations := by
  obtain ⟨s, -, h⟩ := Option.bind_eq_some_iff.mp h
  obtain ⟨a, ha, h⟩ := Option.bind_eq_some_iff.mp h
  rw [← Option.some.inj h]
  have hstart : Contained s.structDict fun _ => none := fun e x hx => absurd hx (by simp)
  exact foldlM_invariant (fun a x a' hc hstep => hc.annotateEntry hstep) hstart ha

end Layout
end Silhouette
