import Silhouette.Layout.StInfoIndex

/-!
# Links of pointers

A link is built from the stores of an operation that follow one pointer after the other.  Every
store becomes a node, the nodes are chained, and the index of addresses, the ranges of a link and
its name are all found by walking the chain from its header.

Nodes are mutable and refer to each other, so they live in a list and a reference is a position in
it.  The loop keeps its cursor on the first node: each further node is hung behind that one, in
place of the node before.  `visited_iff` says which chains come out whole all the same.
-/

namespace Silhouette
namespace Mech

open Lib Trace Layout

/-- What the fields for the process and the header hold: a process, the `MechLinkEntry` itself or a
node. -/
inductive LinkField where
  | pid (n : Int)
  | link
  | node (ref : Nat)
  deriving DecidableEq, Repr

/-- `get_parent_info_set`: the structs with a member of the type, and its offset there. -/
def parentInfoSet (structDict : Dict String StructEntry) (name : String) : List (String × Int) :=
  if name ∈ structDict.keys then
    structDict.items.flatMap fun x => (x.2.children.filter fun var => var.typeName = name).map fun var =>
      (x.1, var.offsetBytes)
  else []

/-- `get_var_by_addr`: one of the members at an address. -/
def getVarByAddr (iv : IvQueries) (structDict : Dict String StructEntry) (x : AddrToStInfoEntry)
    (addr : Int) : Option StructMemberVar :=
  (iv.overlap (x.addrToVarIv structDict) addr (addr + 1)).head?

/-- Several intervals at a point are an error. -/
def pointQueryIv (iv : IvQueries) (idx : StInfoIndex) (pid : LinkField) (addr : Int) :
    Option (Option (List AddrToStInfoEntry)) :=
  match pid with
  | .pid n =>
    match idx.pidAddrToStinfoIv.get? n with
    | none => some none
    | some tree =>
      match iv.point tree addr with
      | [] => some none
      | [data] => some (some data)
      | _ => none
  | _ => some none

structure LinkEntryWrapper where
  pid : LinkField
  header : LinkField
  pmStore : TraceEntry
  prev : Option Nat
  next : Option Nat
  var : Option StructMemberVar
  structInfo : List (String × Int)

namespace LinkEntryWrapper

section

variable (iv : IvQueries) (idx : StInfoIndex)

/-- `__init_struct_info`: the member that is stored to and the structs around it, the outermost
first.  An annotated store that hits no member is an error. -/
def initStructInfo (pid : LinkField) (op : TraceEntry) :
    Option (Option StructMemberVar × List (String × Int)) :=
  match idx.annotations op with
  | none => some (none, [])
  | some ann => do
    let name := ann.stinfoMatch.structName
    let var ← getVarByAddr iv idx.structDict ann.stinfoMatch op.addr
    let stAddr := op.addr - var.offsetBytes
    let parents := parentInfoSet idx.structDict name
    if parents = [] then return (some var, [(name, stAddr)])
    match ← pointQueryIv iv idx pid op.addr with
    | none => return (some var, [(name, stAddr)])
    | some data =>
      let outer := data.findSome? fun en =>
        (parents.find? fun parent => en.structName = parent.1).map fun parent =>
          (en.structName, stAddr - parent.2)
      return (some var, ((name, stAddr) :: outer.toList).reverse)

/-- The constructor, with its arguments in their order. -/
def new (pid header : LinkField) (store : TraceEntry) (prev next : Option Nat) :
    Option LinkEntryWrapper :=
  (initStructInfo iv idx pid store).map fun info => ⟨pid, header, store, prev, next, info.1, info.2⟩

end

end LinkEntryWrapper

structure MechLinkEntry where
  pid : Int
  nodes : List LinkEntryWrapper
  header : Option Nat

namespace MechLinkEntry

section

variable (iv : IvQueries) (idx : StInfoIndex)

/-- One turn of the loop of `__build_link`.  The second component is `prev`. -/
def linkStore (s : MechLinkEntry × Option Nat) (pmstore : TraceEntry) :
    Option (MechLinkEntry × Option Nat) :=
  let m := s.1
  let ref := m.nodes.length
  match s.2 with
  | none =>
    (LinkEntryWrapper.new iv idx .link (.pid m.pid) pmstore none none).map fun node =>
      ({ m with nodes := m.nodes ++ [node], header := some ref }, some ref)
  | some prev =>
    (LinkEntryWrapper.new iv idx .link (.pid m.pid) pmstore (some prev) none).map fun curr =>
      ({ m with nodes := m.nodes.modify prev (fun n => { n with next := some ref }) ++ [curr] },
        some prev)

/-- `__build_link` -/
def buildLink (pid : Int) (pmstoreList : List TraceEntry) : Option MechLinkEntry :=
  (pmstoreList.foldlM (linkStore iv idx) (⟨pid, [], none⟩, none)).map Prod.fst

end

variable (m : MechLinkEntry)

def nextOf (ref : Nat) : Option Nat := (m.nodes[ref]?).bind LinkEntryWrapper.next

/-- The nodes from `curr` on, as the loops `while curr` meet them. -/
def walk : Nat → Option Nat → List Nat
  | 0, _ => []
  | _ + 1, none => []
  | limit + 1, some ref => ref :: walk limit (m.nextOf ref)

/-- The nodes that `__build_iv_tree`, `get_available_addr_range` and `get_id_str` go through. -/
def chain : List Nat := m.walk m.nodes.length m.header

def visited : List TraceEntry :=
  m.chain.filterMap fun ref => (m.nodes[ref]?).map LinkEntryWrapper.pmStore

/-- `__build_iv_tree`: the range of the outermost struct of each node that has one. -/
def addrIvTree (structDict : Dict String StructEntry) : List (Int × Int × Nat) :=
  m.chain.filterMap fun ref => (m.nodes[ref]?).bind fun node =>
    node.structInfo.head?.map fun x =>
      (x.2, x.2 + ((structDict.get? x.1).map StructEntry.sizeBytes).getD 0, ref)

/-- `get_link_header_list_by_addr` for one link. -/
def linkHeaderListByAddr (structDict : Dict String StructEntry) (addr : Int) : List LinkField :=
  (((m.addrIvTree structDict).filter fun x => x.1 ≤ addr ∧ addr < x.2.1).filterMap fun x =>
    (m.nodes[x.2.2]?).map LinkEntryWrapper.header).dedup

/-- A doubly linked chain of the stores: the walk visits every store in order, the neighbours of
a node are the ones on the walk, and each node has the process of the operation and the first node
of the chain for its header. -/
structure Chained (pid : Int) (pmstoreList : List TraceEntry) : Prop where
  stores : m.visited = pmstoreList
  links : ∀ i ref node, m.chain[i]? = some ref → m.nodes[ref]? = some node →
    node.next = m.chain[i + 1]? ∧ node.prev = if i = 0 then none else m.chain[i - 1]?
  fields : ∀ ref node, ref ∈ m.chain → m.nodes[ref]? = some node →
    node.pid = .pid pid ∧ some node.header = m.header.map LinkField.node

/-! ## What the loop builds -/

/-- The first node and the nodes behind it, all of which are hung behind the first: only the one
that came last stays there. -/
def Built (pid : Int) (s : MechLinkEntry × Option Nat) : List TraceEntry → Prop
  | [] => s = (⟨pid, [], none⟩, none)
  | x :: rest => ∃ first others, s = (⟨pid, first :: others, some 0⟩, some 0) ∧
      first.pmStore = x ∧ first.pid = .link ∧
      first.next = (if others = [] then none else some others.length) ∧
      others.map LinkEntryWrapper.pmStore = rest ∧ ∀ n ∈ others, n.next = none

variable {m}

section

variable {iv : IvQueries} {idx : StInfoIndex} {pid : Int}

theorem Built.linkStore {s s' : MechLinkEntry × Option Nat} {l : List TraceEntry} {x : TraceEntry}
    (h : Built pid s l) (hs : linkStore iv idx s x = some s') : Built pid s' (l ++ [x]) := by
  cases l with
  | nil =>
    rw [Built] at h
    rw [h] at hs
    obtain ⟨node, hnode, heq⟩ := Option.map_eq_some_iff.mp hs
    obtain ⟨info, -, hinfo⟩ := Option.map_eq_some_iff.mp hnode
    rw [← heq, ← hinfo]
    exact ⟨_, [], rfl, rfl, rfl, rfl, rfl, fun n hn => absurd hn List.not_mem_nil⟩
  | cons y rest =>
    obtain ⟨first, others, hsame, hstore, hpid, -, hrest, hend⟩ := h
    rw [hsame] at hs
    obtain ⟨node, hnode, heq⟩ := Option.map_eq_some_iff.mp hs
    obtain ⟨info, -, hinfo⟩ := Option.map_eq_some_iff.mp hnode
    refine ⟨{ first with next := some (others.length + 1) }, others ++ [node], ?_, hstore, hpid,
      ?_, ?_, ?_⟩
    · rw [← heq]
      rfl
    · rw [if_neg (by simp), List.length_append]
      rfl
    · rw [List.map_append, hrest, ← hinfo]
      rfl
    · intro n hn
      rcases List.mem_append.mp hn with hold | hnew
      · exact hend n hold
      · rw [List.mem_singleton.mp hnew, ← hinfo]

theorem built_buildLink {l : List TraceEntry} (h : buildLink iv idx pid l = some m) :
    ∃ prev, Built pid (m, prev) l := by
  obtain ⟨s, hs, hm⟩ := Option.map_eq_some_iff.mp h
  suffices hbuilt : Built pid s l by
    refine ⟨s.2, ?_⟩
    rw [← hm]
    exact hbuilt
  clear h hm
  induction l using List.reverseRecOn generalizing s with
  | nil => exact (Option.some.inj hs).symm
  | append_singleton l x ih =>
    rw [List.foldlM_append] at hs
    obtain ⟨t, ht, hs⟩ := Option.bind_eq_some_iff.mp hs
    rw [List.foldlM_cons] at hs
    obtain ⟨u, hu, hs⟩ := Option.bind_eq_some_iff.mp hs
    rw [← Option.some.inj hs]
    exact (ih t ht).linkStore hu

/-- The walk goes from the first node to the last and is at its end. -/
theorem chain_built {x : TraceEntry} {rest : List TraceEntry} {prev : Option Nat}
    (h : Built pid (m, prev) (x :: rest)) :
    m.chain = if rest = [] then [0] else [0, rest.length] := by
  obtain ⟨first, others, hsame, -, -, hnext, hrest, hend⟩ := h
  obtain ⟨rfl, -⟩ := Prod.mk.inj hsame
  have hlen : rest.length = others.length := by rw [← hrest, List.length_map]
  have hnil : rest = [] ↔ others = [] := by
    rw [← List.length_eq_zero_iff, hlen, List.length_eq_zero_iff]
  have hfirst : nextOf ⟨pid, first :: others, some 0⟩ 0 = first.next := rfl
  show walk _ (others.length + 1) (some 0) = _
  rw [walk, hfirst, hnext]
  by_cases h0 : others = []
  · rw [if_pos h0, if_pos (hnil.mpr h0), h0]
    rfl
  · have hpos : 0 < others.length := List.length_pos_iff.mpr h0
    obtain ⟨k, hk⟩ : ∃ k, others.length = k + 1 := ⟨others.length - 1, by omega⟩
    have hlast : nextOf ⟨pid, first :: others, some 0⟩ (k + 1) = none := by
      show (others[k]?).bind LinkEntryWrapper.next = none
      rw [List.getElem?_eq_getElem (by omega)]
      exact hend _ (List.getElem_mem _)
    rw [if_neg h0, if_neg (fun hr => h0 (hnil.mp hr)), hlen, hk, walk, hlast]
    cases k <;> rfl

theorem visited_built {x : TraceEntry} {rest : List TraceEntry} {prev : Option Nat}
    (h : Built pid (m, prev) (x :: rest)) : m.visited = x :: rest.getLast?.toList := by
  have hchain := chain_built h
  obtain ⟨first, others, hsame, hstore, -, -, hrest, -⟩ := h
  obtain ⟨rfl, -⟩ := Prod.mk.inj hsame
  rw [visited, hchain, ← hrest, ← hstore]
  rcases List.eq_nil_or_concat others with h0 | h0
  · rw [h0]
    rfl
  · obtain ⟨init, last, h0⟩ := h0
    rw [h0, if_neg (by simp)]
    simp

/-- The walk meets every store when there are two at most. -/
theorem visited_iff {l : List TraceEntry} (h : buildLink iv idx pid l = some m) :
    m.visited = l ↔ l.length ≤ 2 := by
  obtain ⟨prev, hbuilt⟩ := built_buildLink h
  cases l with
  | nil =>
    obtain ⟨rfl, -⟩ := Prod.mk.inj hbuilt
    exact ⟨fun _ => Nat.zero_le _, fun _ => rfl⟩
  | cons x rest =>
    rw [visited_built hbuilt, List.cons.injEq]
    match rest with
    | [] => simp
    | [y] => simp
    | y :: z :: more =>
      have hlong : ((y :: z :: more).getLast?.toList).length ≤ 1 := by
        cases (y :: z :: more).getLast? <;> simp
      constructor
      · intro heq
        rw [heq.2, List.length_cons, List.length_cons] at hlong
        omega
      · intro hlen
        simp only [List.length_cons] at hlen
        omega

/-- The arguments for the process and the header stand in each other's place, so no node of any
link has the process of the operation. -/
theorem chained_iff_nil (l : List TraceEntry) :
    (∃ m, buildLink iv idx pid l = some m ∧ m.Chained pid l) ↔ l = [] := by
  constructor
  · intro h
    obtain ⟨m, hm, hchained⟩ := h
    obtain ⟨prev, hbuilt⟩ := built_buildLink hm
    cases l with
    | nil => rfl
    | cons x rest =>
      have hmem : 0 ∈ m.chain := by
        rw [chain_built hbuilt]
        split_ifs
        · exact List.mem_singleton_self 0
        · exact List.mem_cons_self
      obtain ⟨first, others, hsame, -, hpid, -⟩ := hbuilt
      obtain ⟨rfl, -⟩ := Prod.mk.inj hsame
      have hwrong := (hchained.fields 0 first hmem rfl).1
      rw [hpid] at hwrong
      cases hwrong
  · intro h
    rw [h]
    refine ⟨⟨pid, [], none⟩, rfl, rfl, ?_, ?_⟩
    · intro i ref node hi
      exact absurd hi (by simp [chain, walk])
    · intro ref node href
      exact absurd href (by simp [chain, walk])

/-- Three pointers that lead from one to the next, in memory without known structs: the middle one
is not on the chain, and a node has the process number for its header. -/
theorem three_pointers_lose_one : ∃ m,
    buildLink ⟨fun _ _ => [], fun _ _ _ => []⟩ ⟨Dict.empty, Dict.empty, fun _ => none⟩ 7
      [.plain .store 1 8 8, .plain .store 2 64 8, .plain .store 3 128 8] = some m ∧
    m.visited = [.plain .store 1 8 8, .plain .store 3 128 8] ∧
    (∀ node ∈ m.nodes, node.pid = .link ∧ node.header = .pid 7) ∧
    ¬ m.Chained 7 [.plain .store 1 8 8, .plain .store 2 64 8, .plain .store 3 128 8] := by
  have hnode : ∀ op prev next, LinkEntryWrapper.new ⟨fun _ _ => [], fun _ _ _ => []⟩
      ⟨Dict.empty, Dict.empty, fun _ => none⟩ .link (.pid 7) op prev next =
        some ⟨.link, .pid 7, op, prev, next, none, []⟩ := fun _ _ _ => rfl
  refine ⟨⟨7, [⟨.link, .pid 7, .plain .store 1 8 8, none, some 2, none, []⟩,
    ⟨.link, .pid 7, .plain .store 2 64 8, some 0, none, none, []⟩,
    ⟨.link, .pid 7, .plain .store 3 128 8, some 0, none, none, []⟩], some 0⟩, ?_, ?_, ?_, ?_⟩
  · simp only [buildLink, List.foldlM_cons, List.foldlM_nil, linkStore, hnode]
    rfl
  · rfl
  · intro node hmem
    simp only [List.mem_cons, List.not_mem_nil, or_false] at hmem
    obtain rfl | rfl | rfl := hmem
    · exact ⟨rfl, rfl⟩
    · exact ⟨rfl, rfl⟩
    · exact ⟨rfl, rfl⟩
  · intro h
    exact absurd h.stores (by decide)

end

end MechLinkEntry

end Mech
end Silhouette
