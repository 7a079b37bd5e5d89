import Silhouette.Mech.ReplData

/-!
# Finding replications

`MechReplReason`.  A copy into persistent memory of a struct that the cheat sheet names is a
replication.  Its source is the primary when it is in persistent memory itself; otherwise it is a
copy in DRAM, and the copies that filled that are looked up.  Last, the replications take the stores
to their primaries, each store going to the first replication that it was issued before.
-/

namespace Silhouette
namespace Mech

open Lib Trace Layout

namespace MechReplReason

/-- A replication while it is put together, with its `load_op_list`. -/
structure Candidate where
  loadOpList : List MechMemcpyEntry
  entry : MechReplEntry

/-- The query of an interval tree for a range. -/
def overlaps (addr size lower upper : Int) : Bool :=
  addr < upper ∧ lower < addr + size ∧ lower < upper

/-- `get_entry_by_addr_seq_range`, which gathers the entries in a set.  Here they keep their order. -/
def getEntryByAddrSeqRange (pmstores : List MechPMStoreEntry) (seq1 seq2 addr1 addr2 : Int) :
    List MechPMStoreEntry :=
  pmstores.filter fun s => overlaps s.addr s.size addr1 addr2 ∧ seq1 ≤ s.op.seq ∧ s.op.seq ≤ seq2

section

variable (idx : StInfoIndex) (structSet : List String) (pmAddr pmSize : Int)
  (pmstores : List MechPMStoreEntry) (copies : List MechMemcpyEntry)

def inSheet (cpy : MechMemcpyEntry) : Bool :=
  match idx.annotations cpy.opSt with
  | none => false
  | some ann => ann.stinfoMatch.structName ∈ structSet

/-- `children[-1].offset_bytes` of the struct of a copy. -/
def lastVarOffset (cpy : MechMemcpyEntry) : Option Int := do
  let ann ← idx.annotations cpy.opSt
  let st ← idx.structDict.get? ann.stinfoMatch.structName
  let var ← st.children.getLast?
  return var.offsetBytes

/-- A struct may have a variable length, so a copy that reaches the last member is enough.  An entry
without its store is an error. -/
def reachesLast (cpy : MechMemcpyEntry) : Option Bool := do
  if cpy.size > (← lastVarOffset idx cpy) then
    let _ ← pmstores.find? fun s => s.op.seq = cpy.opSt.seq
    return true
  else return false

/-- The first loop.  An empty range in the tree of the copies from DRAM is an error. -/
def candidate (cpy : MechMemcpyEntry) : Option (List Candidate) :=
  if !inSheet idx structSet cpy then some []
  else
    match cpy.type pmAddr pmSize with
    | .pmToPm =>
      (reachesLast idx pmstores cpy).map fun found =>
        if found then [⟨[cpy], { storeOp := cpy }⟩] else []
    | .kernelToPm =>
      (reachesLast idx pmstores cpy).bind fun found =>
        if !found then some []
        else if cpy.size ≤ 0 then none
        else some [⟨[], { storeOp := cpy }⟩]
    | _ => some []

/-- A copy of persistent memory into the DRAM that `repl` copies. -/
def isLoadOf (repl cpy : MechMemcpyEntry) : Bool :=
  inSheet idx structSet cpy && cpy.type pmAddr pmSize = .pmToKernel &&
    overlaps repl.srcAddr repl.size cpy.dstAddr (cpy.dstAddr + cpy.size) &&
    cpy.opSt.seq < repl.opSt.seq

/-- The second loop. -/
def findLoads (c : Candidate) : Candidate :=
  match c.entry.storeOp.type pmAddr pmSize with
  | .kernelToPm =>
    ⟨c.loadOpList ++ copies.filter (isLoadOf idx structSet pmAddr pmSize c.entry.storeOp), c.entry⟩
  | _ => c

/-- The latest copies that fill the addresses that are left. -/
def takeNearest : List Int → List MechMemcpyEntry → List MechMemcpyEntry
  | _, [] => []
  | left, cpy :: rest =>
    let left := left.filter fun a => !(cpy.dstAddr ≤ a ∧ a < cpy.dstAddr + cpy.size)
    if left = [] then [cpy] else cpy :: takeNearest left rest

/-- The third loop. -/
def keepNearest (c : Candidate) : Candidate :=
  let addrs := (List.range c.entry.storeOp.size.toNat).map fun i : Nat =>
    c.entry.storeOp.srcAddr + i
  let latest := sortBy (fun cpy => -cpy.opSt.seq) c.loadOpList
  { c with loadOpList := sortBy (fun cpy => cpy.opSt.seq) (takeNearest addrs latest) }

/-- The stores of a list that no replication has, and their sequence numbers with the others. -/
def takeStores (stores : List MechPMStoreEntry) (visited : List Int) :
    List MechPMStoreEntry × List Int :=
  stores.foldl (fun s pmstore =>
    if pmstore.op.seq ∈ s.2 then s else (s.1 ++ [pmstore], s.2 ++ [pmstore.op.seq])) ([], visited)

/-- One turn of the fourth loop. -/
def assignStores (s : List Candidate × List Int) (c : Candidate) : List Candidate × List Int :=
  match (c.loadOpList.map MechMemcpyEntry.srcAddr).min?,
      (c.loadOpList.map fun cpy => cpy.srcAddr + cpy.size).max? with
  | some lower, some upper =>
    let res := takeStores
      (getEntryByAddrSeqRange pmstores 0 c.entry.storeOp.opLd.seq lower upper) s.2
    (s.1 ++ [{ c with entry := { c.entry with
        storesToPrimaryReplica := sortBy (fun pmstore => pmstore.op.seq) res.1 } }], res.2)
  | _, _ => (s.1 ++ [c], s.2)

/-- `__init_entries` -/
def entries : Option (List Candidate) := do
  let found ← copies.mapM (candidate idx structSet pmAddr pmSize pmstores)
  let filled := found.flatten.map fun c =>
    keepNearest (findLoads idx structSet pmAddr pmSize copies c)
  let sorted := sortBy (fun c => c.entry.storeOp.opSt.seq) filled
  return (sorted.foldl (assignStores pmstores) ([], [])).1

end

/-! ## The stores of a replication -/

/-- A copy within persistent memory is its own source. -/
def Direct (pmAddr pmSize : Int) (c : Candidate) : Prop :=
  c.entry.storeOp.type pmAddr pmSize = .pmToPm → c.loadOpList = [c.entry.storeOp]

/-- The stores are issued before the copy, lie on its source and come in their order. -/
structure StoresBefore (pmstores : List MechPMStoreEntry) (e : MechReplEntry) : Prop where
  mem : ∀ s ∈ e.storesToPrimaryReplica, s ∈ pmstores
  overlap : ∀ s ∈ e.storesToPrimaryReplica,
    s.addr < e.storeOp.srcAddr + e.storeOp.size ∧ e.storeOp.srcAddr < s.addr + s.size
  before : ∀ s ∈ e.storesToPrimaryReplica, s.op.seq ≤ e.storeOp.opLd.seq
  sorted : e.storesToPrimaryReplica.Pairwise fun s t => s.op.seq ≤ t.op.seq

section

variable {idx : StInfoIndex} {structSet : List String} {pmAddr pmSize : Int}
  {pmstores : List MechPMStoreEntry} {copies : List MechMemcpyEntry}

/-- A candidate is its own source, or it is a copy of at least one byte of DRAM. -/
theorem candidate_cases {cpy : MechMemcpyEntry} {found : List Candidate}
    (h : candidate idx structSet pmAddr pmSize pmstores cpy = some found) {c : Candidate}
    (hc : c ∈ found) :
    c.entry.storesToPrimaryReplica = [] ∧
      (c.entry.storeOp.type pmAddr pmSize = .pmToPm ∧ c.loadOpList = [c.entry.storeOp] ∨
        c.entry.storeOp.type pmAddr pmSize = .kernelToPm ∧ c.loadOpList = [] ∧
          0 < c.entry.storeOp.size) := by
  rw [candidate] at h
  by_cases hsheet : (!inSheet idx structSet cpy) = true
  · rw [if_pos hsheet] at h
    rw [← Option.some.inj h] at hc
    exact absurd hc List.not_mem_nil
  · rw [if_neg hsheet] at h
    split at h
    · rename_i htype
      obtain ⟨reached, -, heq⟩ := Option.map_eq_some_iff.mp h
      rw [← heq] at hc
      split_ifs at hc
      · rw [List.mem_singleton.mp hc]
        exact ⟨rfl, Or.inl ⟨htype, rfl⟩⟩
      · exact absurd hc List.not_mem_nil
    · rename_i htype
      obtain ⟨reached, -, h⟩ := Option.bind_eq_some_iff.mp h
      split_ifs at h with hreached hsize
      · rw [← Option.some.inj h] at hc
        exact absurd hc List.not_mem_nil
      · rw [← Option.some.inj h] at hc
        rw [List.mem_singleton.mp hc]
        exact ⟨rfl, Or.inr ⟨htype, rfl, Int.not_le.mp hsize⟩⟩
    · rw [← Option.some.inj h] at hc
      exact absurd hc List.not_mem_nil

theorem direct_of_candidate {cpy : MechMemcpyEntry} {found : List Candidate}
    (h : candidate idx structSet pmAddr pmSize pmstores cpy = some found) :
    ∀ c ∈ found, Direct pmAddr pmSize c ∧ c.entry.storesToPrimaryReplica = [] := by
  intro c hc
  obtain ⟨hnil, ⟨_, hself⟩ | ⟨hkernel, _, _⟩⟩ := candidate_cases h hc
  · exact ⟨fun _ => hself, hnil⟩
  · refine ⟨fun htype => ?_, hnil⟩
    rw [hkernel] at htype
    cases htype

theorem Direct.keepNearest {c : Candidate} (h : Direct pmAddr pmSize c) :
    Direct pmAddr pmSize (keepNearest (findLoads idx structSet pmAddr pmSize copies c)) := by
  intro htype
  have hentry : (findLoads idx structSet pmAddr pmSize copies c).entry = c.entry := by
    rw [findLoads]
    split <;> rfl
  have htype' : c.entry.storeOp.type pmAddr pmSize = .pmToPm := hentry ▸ htype
  have hsame : findLoads idx structSet pmAddr pmSize copies c = c := by
    rw [findLoads, htype']
  rw [hsame, MechReplReason.keepNearest, h htype']
  show sortBy (fun cpy : MechMemcpyEntry => cpy.opSt.seq) (takeNearest _ [c.entry.storeOp]) =
    [c.entry.storeOp]
  rw [takeNearest, takeNearest, ite_self]
  rfl

theorem mem_takeStores {stores : List MechPMStoreEntry} {visited : List Int}
    {s : MechPMStoreEntry} (h : s ∈ (takeStores stores visited).1) : s ∈ stores := by
  induction stores using List.reverseRecOn with
  | nil => exact h
  | append_singleton l t ih =>
    rw [takeStores, List.foldl_append] at h
    by_cases hseen : t.op.seq ∈ (takeStores l visited).2
    · have hl : s ∈ (takeStores l visited).1 := by
        rw [← takeStores, List.foldl_cons, List.foldl_nil, if_pos hseen] at h
        exact h
      exact List.mem_append_left _ (ih hl)
    · rw [← takeStores, List.foldl_cons, List.foldl_nil, if_neg hseen] at h
      rcases List.mem_append.mp h with h | h
      · exact List.mem_append_left _ (ih h)
      · exact List.mem_append_right _ h

theorem storesBefore_nil {e : MechReplEntry} (h : e.storesToPrimaryReplica = []) :
    StoresBefore pmstores e := by
  constructor
  · intro s hs
    rw [h] at hs
    exact absurd hs List.not_mem_nil
  · intro s hs
    rw [h] at hs
    exact absurd hs List.not_mem_nil
  · intro s hs
    rw [h] at hs
    exact absurd hs List.not_mem_nil
  · rw [h]
    exact List.Pairwise.nil

/-- The turn of a copy within persistent memory. -/
theorem storesBefore_assignStores {c : Candidate} (hdirect : Direct pmAddr pmSize c)
    (hnil : c.entry.storesToPrimaryReplica = []) (s : List Candidate × List Int) :
    ∃ c', (assignStores pmstores s c).1 = s.1 ++ [c'] ∧
      c'.entry.storeOp = c.entry.storeOp ∧
      (c.entry.storeOp.type pmAddr pmSize = .pmToPm → StoresBefore pmstores c'.entry) := by
  rw [assignStores]
  split
  · rename_i lower upper hmin hmax
    refine ⟨_, rfl, rfl, fun htype => ?_⟩
    rw [hdirect htype] at hmin hmax
    have hlower : c.entry.storeOp.srcAddr = lower := Option.some.inj hmin
    have hupper : c.entry.storeOp.srcAddr + c.entry.storeOp.size = upper := Option.some.inj hmax
    have hmem : ∀ t ∈ sortBy (fun pmstore : MechPMStoreEntry => pmstore.op.seq)
        (takeStores (getEntryByAddrSeqRange pmstores 0 c.entry.storeOp.opLd.seq lower upper)
          s.2).1, t ∈ pmstores ∧ (overlaps t.addr t.size lower upper = true ∧ 0 ≤ t.op.seq ∧
            t.op.seq ≤ c.entry.storeOp.opLd.seq) := by
      intro t ht
      have hfound := mem_takeStores (mem_sortBy.mp ht)
      rw [getEntryByAddrSeqRange, List.mem_filter, decide_eq_true_eq] at hfound
      exact hfound
    refine ⟨fun t ht => (hmem t ht).1, fun t ht => ?_, fun t ht => (hmem t ht).2.2.2,
      sortBy_pairwise _ _⟩
    have hov := (hmem t ht).2.1
    rw [overlaps, decide_eq_true_eq, ← hlower, ← hupper] at hov
    exact ⟨hov.1, hov.2.1⟩
  · exact ⟨c, rfl, rfl, fun _ => storesBefore_nil hnil⟩

theorem storesBefore_foldl {cs : List Candidate}
    (hcs : ∀ c ∈ cs, Direct pmAddr pmSize c ∧ c.entry.storesToPrimaryReplica = [])
    {s : List Candidate × List Int}
    (hs : ∀ c ∈ s.1, c.entry.storeOp.type pmAddr pmSize = .pmToPm →
      StoresBefore pmstores c.entry) :
    ∀ c ∈ (cs.foldl (assignStores pmstores) s).1,
      c.entry.storeOp.type pmAddr pmSize = .pmToPm → StoresBefore pmstores c.entry := by
  induction cs generalizing s with
  | nil => exact hs
  | cons c rest ih =>
    refine ih (fun d hd => hcs d (List.mem_cons_of_mem _ hd)) ?_
    obtain ⟨hdirect, hnil⟩ := hcs c List.mem_cons_self
    obtain ⟨c', heq, hop, hbefore⟩ := storesBefore_assignStores hdirect hnil s
    intro d hd
    rw [heq] at hd
    rcases List.mem_append.mp hd with hd | hd
    · exact hs d hd
    · rw [List.mem_singleton.mp hd, hop]
      exact hbefore

/-- The replications within persistent memory have the stores to their source from before. -/
theorem storesBefore_entries {cs : List Candidate}
    (h : entries idx structSet pmAddr pmSize pmstores copies = some cs) {c : Candidate}
    (hc : c ∈ cs) (htype : c.entry.storeOp.type pmAddr pmSize = .pmToPm) :
    StoresBefore pmstores c.entry := by
  obtain ⟨found, hfound, h⟩ := Option.bind_eq_some_iff.mp h
  rw [← Option.some.inj h] at hc
  have hfilled : ∀ d ∈ sortBy (fun c : Candidate => c.entry.storeOp.opSt.seq)
      (found.flatten.map fun c =>
        keepNearest (findLoads idx structSet pmAddr pmSize copies c)),
      Direct pmAddr pmSize d ∧ d.entry.storesToPrimaryReplica = [] := by
    intro d hd
    obtain ⟨d₀, hd₀, rfl⟩ := List.mem_map.mp (mem_sortBy.mp hd)
    obtain ⟨l, hl, hd₀⟩ := List.mem_flatten.mp hd₀
    obtain ⟨cpy, -, hcpy⟩ := exists_of_mem_mapM hfound hl
    obtain ⟨hdirect, hnil⟩ := direct_of_candidate hcpy d₀ hd₀
    refine ⟨hdirect.keepNearest, ?_⟩
    rw [keepNearest, findLoads]
    split <;> exact hnil
  exact storesBefore_foldl hfilled (fun d hd => absurd hd List.not_mem_nil) c hc htype

/-- What the check of the data is about: a replication that was found, with the bytes that its
records promise and one struct around its stores. -/
theorem recorded_of_entries {info : RecordInfo} {A : Int} {cs : List Candidate}
    (h : entries idx structSet pmAddr pmSize pmstores copies = some cs) {c : Candidate}
    (hc : c ∈ cs) (htype : c.entry.storeOp.type pmAddr pmSize = .pmToPm)
    (hsize : 0 < c.entry.storeOp.size)
    (hpmstores : ∀ s ∈ pmstores, 0 < s.size ∧
      ∀ b, s.op.svEntry = some b → (b.length : Int) = s.size)
    (hannotated : ∀ s ∈ c.entry.storesToPrimaryReplica, info.structAddr s.op = some A)
    (hreplica : ∃ b, c.entry.storeOp.opSt.svEntry = some b ∧
      (b.length : Int) = c.entry.storeOp.size)
    (hold : ∀ b, info.ovEntry c.entry.storeOp.opSt = some b →
      (b.length : Int) = c.entry.storeOp.size) :
    MechReplEntry.Recorded info c.entry A := by
  have hstores := storesBefore_entries h hc htype
  refine ⟨hsize, fun s hs => ?_, hannotated, fun s hs => ?_, hreplica, hold⟩
  · exact ⟨(hpmstores s (hstores.mem s hs)).1, hstores.overlap s hs⟩
  · exact (hpmstores s (hstores.mem s hs)).2

end

end MechReplReason

end Mech
end Silhouette
