import Silhouette.Lib.Bytes
import Silhouette.Mech.LinkEntry
import Silhouette.Mech.NestedStructs
import Silhouette.Mech.PMStore

/-!
# Searching for links

`MechLinkReason`.  From a store of a pointer the search goes on to the stores at its destination:
to a pointer there, or to the pointers in the structs that begin there and around those.  Every store
is visited once, so the search ends on a ring of pointers too.  The loop over the stores to go on to
has a return in its body and makes one turn; `links_all_iff` says when that is enough.
-/

namespace Silhouette
namespace Mech

open Lib Trace Layout

/-- Stores are compared by these. -/
def MechPMStoreEntry.member (e : MechPMStoreEntry) : Int × TraceType × Int × Int :=
  (e.op.seq, e.op.type, e.op.addr, e.op.size)

/-- A set of stores comes out in some order, one store for each `member`. -/
structure StoreSetOrder where
  list : List MechPMStoreEntry → List MechPMStoreEntry
  subset : ∀ l, list l ⊆ l
  exists_member : ∀ l, ∀ e ∈ l, ∃ e' ∈ list l, e'.member = e.member
  nodup : ∀ l, ((list l).map MechPMStoreEntry.member).Nodup

/-- What the search gives back: stores, and lists. -/
inductive LinkItem where
  | store (e : MechPMStoreEntry)
  | list (items : List LinkItem)

/-- `get_all_inner_lists`: the lists in a list, and in those. -/
def getAllInnerLists : List LinkItem → List (List LinkItem)
  | [] => []
  | .store _ :: rest => getAllInnerLists rest
  | .list items :: rest => items :: (getAllInnerLists items ++ getAllInnerLists rest)

def pointerSize : Int := 8

namespace MechLinkReason

/-- The link that a store is appended to.  A new one begins with the store the search is at. -/
def linkSoFar (linkPmstoreList : List MechPMStoreEntry) (pmstore : MechPMStoreEntry) :
    List MechPMStoreEntry :=
  if linkPmstoreList = [] then [pmstore] else linkPmstoreList

section

variable (idx : StInfoIndex) (pmAddr pmSize : Int) (stores : List MechPMStoreEntry)
  (order : StoreSetOrder) (pairOrder : SetOrder (String × Int))

/-- `get_entry_set_by_addr` -/
def getEntrySetByAddr (addr : Int) : List MechPMStoreEntry :=
  order.list (stores.filter fun e => e.op.addr ≤ addr ∧ addr < e.op.addr + e.op.size)

/-- The struct that a store is annotated with, when it begins at the address. -/
def structAt (e : MechPMStoreEntry) (addr : Int) : Option String :=
  match idx.annotations e.op with
  | none => none
  | some ann => if ann.stinfoMatch.addr = addr then some ann.stinfoMatch.structName else none

/-- Where a store of a pointer points to.  The pointer is a physical address.  A store without its
bytes is an error. -/
def destAddr (e : MechPMStoreEntry) : Option (Option Int) :=
  if e.op.size = pointerSize ∧ isPmAddr e.op.addr pmAddr pmSize then
    e.op.svEntry.map fun data =>
      let dest := (Bytes.ofLE data : Int) + pmAddr
      if dest = pmAddr ∨ !isPmAddr dest pmAddr pmSize then none else some dest
  else some none

/-- The stores to the members of pointer size of a struct. -/
def pointerStores (pair : Int × String) : List MechPMStoreEntry :=
  (((idx.structDict.get? pair.2).map StructEntry.children).getD []).flatMap fun var =>
    if var.sizeBytes = pointerSize then
      (getEntrySetByAddr stores order (pair.1 + var.offsetBytes)).filter fun e =>
        e.op.addr = pair.1 + var.offsetBytes
    else []

/-- The stores at an address that are of a pointer or begin a struct. -/
def candidates (dest : Int) : List MechPMStoreEntry :=
  ((getEntrySetByAddr stores order dest).filter fun x => x.op.addr = dest).filter fun x =>
    x.op.size = pointerSize ∨ (structAt idx x dest).isSome

/-- The structs that begin at an address. -/
def structPairs (dest : Int) : List (Int × String) :=
  (candidates idx stores order dest).filterMap fun x =>
    (structAt idx x dest).map fun name => (dest, name)

/-- The stores to go on to at an address: those of a pointer, then those in the structs. -/
def targetsAt (limit : Nat) (dest : Int) : Option (List MechPMStoreEntry) :=
  if candidates idx stores order dest = [] then some []
  else (nestedStructs idx.structDict pairOrder limit (structPairs idx stores order dest)).map
    fun structList =>
      (candidates idx stores order dest).filter (fun x => (structAt idx x dest).isNone) ++
        structList.flatMap (pointerStores idx stores order)

/-- The stores to go on to from a store: none when it is no pointer or leads to none. -/
def targets (limit : Nat) (e : MechPMStoreEntry) : Option (List MechPMStoreEntry) :=
  (destAddr pmAddr pmSize e).bind fun dest =>
    match dest with
    | none => some []
    | some dest => targetsAt idx stores order pairOrder limit dest

/-- `__build_link_from_pmstore`, with the stores that are visited.  The `return` at the end of the
body of the loop ends it after the first store. -/
def buildLinkFromPmstore : Nat → List MechPMStoreEntry → List (Int × TraceType × Int × Int) →
    MechPMStoreEntry → Option (Option (List LinkItem) × List (Int × TraceType × Int × Int))
  | 0, _, _, _ => none
  | limit + 1, linkPmstoreList, visited, pmstore =>
    if pmstore.member ∈ visited then some (none, visited)
    else do
      let visited := pmstore.member :: visited
      match ← targets idx pmAddr pmSize stores order pairOrder limit pmstore with
      | [] => return (none, visited)
      | store :: _ =>
        let newList := linkSoFar linkPmstoreList pmstore ++ [store]
        let (tmp, visited) ← buildLinkFromPmstore limit newList visited store
        match tmp with
        | none | some [] => return (some [.list (newList.map .store)], visited)
        | some tmp =>
          let innerList := getAllInnerLists tmp
          return (some (if innerList = [] then [.list tmp] else innerList.map .list), visited)

/-- For each of the stores to go on to there is a link from this store to that. -/
def LinksAll (visited : List (Int × TraceType × Int × Int)) (pmstore : MechPMStoreEntry)
    (target : List MechPMStoreEntry) : Prop :=
  ∃ limit links visited', buildLinkFromPmstore idx pmAddr pmSize stores order pairOrder limit []
    visited pmstore = some (some links, visited') ∧
    ∀ store ∈ target, ∃ rest, .list ((pmstore :: store :: rest).map .store) ∈ links

end

/-! ## One link -/

theorem getAllInnerLists_map_store (l : List MechPMStoreEntry) :
    getAllInnerLists (l.map .store) = [] := by
  induction l with
  | nil => rw [List.map_nil, getAllInnerLists]
  | cons e rest ih => rw [List.map_cons, getAllInnerLists, ih]

theorem getAllInnerLists_singleton (l : List MechPMStoreEntry) :
    getAllInnerLists [.list (l.map .store)] = [l.map .store] := by
  rw [getAllInnerLists, getAllInnerLists_map_store, getAllInnerLists, List.append_nil]

section

variable {idx : StInfoIndex} {pmAddr pmSize : Int} {stores : List MechPMStoreEntry}
  {order : StoreSetOrder} {pairOrder : SetOrder (String × Int)}

/-- The search gives back nothing, or one link, which goes on to the first of the stores. -/
theorem build_cases {limit : Nat} {link : List MechPMStoreEntry}
    {visited visited' : List (Int × TraceType × Int × Int)} {e : MechPMStoreEntry}
    {res : Option (List LinkItem)}
    (h : buildLinkFromPmstore idx pmAddr pmSize stores order pairOrder limit link visited e =
      some (res, visited')) :
    (res = none ∧ (e.member ∈ visited ∨
      ∃ k, targets idx pmAddr pmSize stores order pairOrder k e = some [])) ∨
    ∃ k store rest l, e.member ∉ visited ∧
      targets idx pmAddr pmSize stores order pairOrder k e = some (store :: rest) ∧
      linkSoFar link e ++ [store] <+: l ∧ res = some [.list (l.map .store)] := by
  induction limit generalizing link visited e res visited' with
  | zero => cases h
  | succ limit ih =>
    rw [buildLinkFromPmstore] at h
    by_cases hvisited : e.member ∈ visited
    · rw [if_pos hvisited] at h
      exact Or.inl ⟨(congrArg Prod.fst (Option.some.inj h)).symm, Or.inl hvisited⟩
    rw [if_neg hvisited] at h
    obtain ⟨target, htarget, h⟩ := Option.bind_eq_some_iff.mp h
    cases target with
    | nil =>
      exact Or.inl ⟨(congrArg Prod.fst (Option.some.inj h)).symm, Or.inr ⟨limit, htarget⟩⟩
    | cons store rest =>
      obtain ⟨⟨tmp, v⟩, htmp, h⟩ := Option.bind_eq_some_iff.mp h
      have hne : linkSoFar link e ++ [store] ≠ [] := List.append_ne_nil_of_right_ne_nil _ (by simp)
      refine Or.inr ⟨limit, store, rest, ?_⟩
      rcases ih htmp with ⟨rfl, -⟩ | ⟨k, store', rest', l, -, -, hl, rfl⟩
      · exact ⟨linkSoFar link e ++ [store], hvisited, htarget, List.prefix_refl _,
          (congrArg Prod.fst (Option.some.inj h)).symm⟩
      · refine ⟨l, hvisited, htarget, ?_, ?_⟩
        · have hl : linkSoFar (linkSoFar link e ++ [store]) store ++ [store'] <+: l := hl
          rw [linkSoFar, if_neg hne] at hl
          exact (List.prefix_append _ _).trans hl
        · have hres := (congrArg Prod.fst (Option.some.inj h)).symm
          simp only [getAllInnerLists_singleton] at hres
          exact hres

/-! ## The search ends -/

theorem targets_mono {k m : Nat} (hle : k ≤ m) {e : MechPMStoreEntry}
    {l : List MechPMStoreEntry}
    (h : targets idx pmAddr pmSize stores order pairOrder k e = some l) :
    targets idx pmAddr pmSize stores order pairOrder m e = some l := by
  obtain ⟨dest, hdest, h⟩ := Option.bind_eq_some_iff.mp h
  rw [targets, hdest, Option.bind_some]
  cases dest with
  | none => exact h
  | some dest =>
    have h : targetsAt idx stores order pairOrder k dest = some l := h
    show targetsAt idx stores order pairOrder m dest = some l
    rw [targetsAt] at h ⊢
    split_ifs at h ⊢
    · exact h
    · obtain ⟨structList, hlist, heq⟩ := Option.map_eq_some_iff.mp h
      exact Option.map_eq_some_iff.mpr ⟨structList, search_mono hle hlist, heq⟩

theorem targets_unique {k m : Nat} {e : MechPMStoreEntry} {l l' : List MechPMStoreEntry}
    (hk : targets idx pmAddr pmSize stores order pairOrder k e = some l)
    (hm : targets idx pmAddr pmSize stores order pairOrder m e = some l') : l = l' :=
  Option.some.inj ((targets_mono (Nat.le_max_left k m) hk).symm.trans
    (targets_mono (Nat.le_max_right k m) hm))

theorem build_mono {k m : Nat} (hle : k ≤ m) {link : List MechPMStoreEntry}
    {visited : List (Int × TraceType × Int × Int)} {e : MechPMStoreEntry}
    {res : Option (List LinkItem) × List (Int × TraceType × Int × Int)}
    (h : buildLinkFromPmstore idx pmAddr pmSize stores order pairOrder k link visited e =
      some res) :
    buildLinkFromPmstore idx pmAddr pmSize stores order pairOrder m link visited e = some res := by
  induction k generalizing m link visited e res with
  | zero => cases h
  | succ k ih =>
    obtain ⟨m, rfl⟩ : ∃ n, m = n + 1 := ⟨m - 1, by omega⟩
    have hle : k ≤ m := Nat.le_of_succ_le_succ hle
    rw [buildLinkFromPmstore] at h ⊢
    split_ifs at h ⊢
    · exact h
    · obtain ⟨target, htarget, h⟩ := Option.bind_eq_some_iff.mp h
      refine Option.bind_eq_some_iff.mpr ⟨target, targets_mono hle htarget, ?_⟩
      cases target with
      | nil => exact h
      | cons store rest =>
        obtain ⟨tmp, htmp, h⟩ := Option.bind_eq_some_iff.mp h
        exact Option.bind_eq_some_iff.mpr ⟨tmp, ih hle htmp, h⟩

theorem mem_getEntrySetByAddr {addr : Int} {x : MechPMStoreEntry}
    (hx : x ∈ getEntrySetByAddr stores order addr) : x ∈ stores :=
  (List.mem_filter.mp (order.subset _ hx)).1

theorem mem_candidates {dest : Int} {x : MechPMStoreEntry}
    (hx : x ∈ candidates idx stores order dest) : x ∈ stores :=
  mem_getEntrySetByAddr (List.mem_filter.mp (List.mem_filter.mp hx).1).1

theorem mem_pointerStores {pair : Int × String} {x : MechPMStoreEntry}
    (hx : x ∈ pointerStores idx stores order pair) : x ∈ stores := by
  obtain ⟨var, -, hx⟩ := List.mem_flatMap.mp hx
  split_ifs at hx
  · exact mem_getEntrySetByAddr (List.mem_filter.mp hx).1
  · exact absurd hx List.not_mem_nil

theorem mem_targets {k : Nat} {e x : MechPMStoreEntry} {l : List MechPMStoreEntry}
    (h : targets idx pmAddr pmSize stores order pairOrder k e = some l) (hx : x ∈ l) :
    x ∈ stores := by
  obtain ⟨dest, -, h⟩ := Option.bind_eq_some_iff.mp h
  cases dest with
  | none =>
    rw [← Option.some.inj h] at hx
    exact absurd hx List.not_mem_nil
  | some dest =>
    have h : targetsAt idx stores order pairOrder k dest = some l := h
    rw [targetsAt] at h
    split_ifs at h
    · rw [← Option.some.inj h] at hx
      exact absurd hx List.not_mem_nil
    · obtain ⟨structList, -, heq⟩ := Option.map_eq_some_iff.mp h
      rw [← heq] at hx
      rcases List.mem_append.mp hx with hx | hx
      · exact mem_candidates (List.mem_filter.mp hx).1
      · obtain ⟨pair, -, hx⟩ := List.mem_flatMap.mp hx
        exact mem_pointerStores hx

theorem exists_targets (idx : StInfoIndex) (pmAddr pmSize : Int) (stores : List MechPMStoreEntry)
    (order : StoreSetOrder) (pairOrder : SetOrder (String × Int)) {e : MechPMStoreEntry}
    (he : e.op.size = pointerSize → e.op.svEntry.isSome = true) :
    ∃ k l, targets idx pmAddr pmSize stores order pairOrder k e = some l := by
  obtain ⟨dest, hdest⟩ : ∃ dest, destAddr pmAddr pmSize e = some dest := by
    rw [destAddr]
    split_ifs with hpointer
    · obtain ⟨data, hdata⟩ := Option.isSome_iff_exists.mp (he hpointer.1)
      exact ⟨_, by rw [hdata, Option.map_some]⟩
    · exact ⟨none, rfl⟩
  cases dest with
  | none => exact ⟨0, [], by rw [targets, hdest, Option.bind_some]⟩
  | some dest =>
    suffices h : ∃ k l, targetsAt idx stores order pairOrder k dest = some l by
      obtain ⟨k, l, h⟩ := h
      exact ⟨k, l, by rw [targets, hdest, Option.bind_some]; exact h⟩
    by_cases hnil : candidates idx stores order dest = []
    · exact ⟨0, [], by rw [targetsAt, if_pos hnil]⟩
    · obtain ⟨k, structList, hlist⟩ :=
        nestedStructs_ends idx.structDict pairOrder (structPairs idx stores order dest)
      exact ⟨k, _, by rw [targetsAt, if_neg hnil, hlist, Option.map_some]⟩

theorem build_succ {limit : Nat} {link : List MechPMStoreEntry}
    {visited v : List (Int × TraceType × Int × Int)} {e store : MechPMStoreEntry}
    {rest : List MechPMStoreEntry} {tmp : Option (List LinkItem)} (hvisited : e.member ∉ visited)
    (htarget : targets idx pmAddr pmSize stores order pairOrder limit e = some (store :: rest))
    (htmp : buildLinkFromPmstore idx pmAddr pmSize stores order pairOrder limit
      (linkSoFar link e ++ [store]) (e.member :: visited) store = some (tmp, v)) :
    ∃ res, buildLinkFromPmstore idx pmAddr pmSize stores order pairOrder (limit + 1) link visited e =
      some res := by
  rw [buildLinkFromPmstore, if_neg hvisited, htarget]
  simp only [Option.bind_eq_bind, Option.bind_some, htmp]
  split <;> exact ⟨_, rfl⟩

/-- Every call visits a store that none has visited, so the search ends on any graph of pointers. -/
theorem exists_build (idx : StInfoIndex) (pmAddr pmSize : Int) (order : StoreSetOrder)
    (pairOrder : SetOrder (String × Int))
    (hstores : ∀ x ∈ stores, x.op.size = pointerSize → x.op.svEntry.isSome = true)
    {e : MechPMStoreEntry} (he : e ∈ stores) (link : List MechPMStoreEntry)
    (visited : List (Int × TraceType × Int × Int)) :
    ∃ limit res, buildLinkFromPmstore idx pmAddr pmSize stores order pairOrder limit link visited e =
      some res := by
  induction hn : ((stores.map MechPMStoreEntry.member).toFinset \ visited.toFinset).card using
    Nat.strong_induction_on generalizing e link visited with
  | _ n ih =>
    by_cases hvisited : e.member ∈ visited
    · exact ⟨1, (none, visited), by rw [buildLinkFromPmstore, if_pos hvisited]⟩
    obtain ⟨k, target, htarget⟩ :=
      exists_targets idx pmAddr pmSize stores order pairOrder (hstores e he)
    cases target with
    | nil =>
      refine ⟨k + 1, (none, e.member :: visited), ?_⟩
      rw [buildLinkFromPmstore, if_neg hvisited, htarget]
      rfl
    | cons store rest =>
      have hlt : ((stores.map MechPMStoreEntry.member).toFinset \
          (e.member :: visited).toFinset).card < n := by
        rw [← hn, List.toFinset_cons, Finset.sdiff_insert]
        refine Finset.card_erase_lt_of_mem (Finset.mem_sdiff.mpr ⟨?_, ?_⟩)
        · exact List.mem_toFinset.mpr (List.mem_map_of_mem he)
        · exact fun h => hvisited (List.mem_toFinset.mp h)
      obtain ⟨m, ⟨tmp, v⟩, htmp⟩ := ih _ hlt (mem_targets htarget List.mem_cons_self)
        (linkSoFar link e ++ [store]) (e.member :: visited) rfl
      exact ⟨max k m + 1, build_succ hvisited (targets_mono (Nat.le_max_left k m) htarget)
        (build_mono (Nat.le_max_right k m) htmp)⟩

end

theorem LinksAll.same {idx : StInfoIndex} {pmAddr pmSize : Int} {stores : List MechPMStoreEntry}
    {order : StoreSetOrder} {pairOrder : SetOrder (String × Int)}
    {visited : List (Int × TraceType × Int × Int)} {pmstore store : MechPMStoreEntry} {limit : Nat}
    {rest : List MechPMStoreEntry}
    (h : LinksAll idx pmAddr pmSize stores order pairOrder visited pmstore (store :: rest))
    (htarget : targets idx pmAddr pmSize stores order pairOrder limit pmstore =
      some (store :: rest)) :
    pmstore.member ∉ visited ∧ ∀ store' ∈ rest, store' = store := by
  obtain ⟨k, links, v, hbuild, hall⟩ := h
  rcases build_cases hbuild with ⟨hnone, -⟩ | ⟨m, store₁, rest₁, l, hvisited, htarget₁, hl, hlinks⟩
  · cases hnone
  obtain ⟨rfl, rfl⟩ := List.cons.inj (targets_unique htarget₁ htarget)
  refine ⟨hvisited, fun store' hstore' => ?_⟩
  obtain ⟨more, hmore⟩ := hall store' (List.mem_cons_of_mem _ hstore')
  rw [Option.some.inj hlinks, List.mem_singleton] at hmore
  have heq : pmstore :: store' :: more = l :=
    List.map_injective_iff.mpr (fun _ _ => LinkItem.store.inj) (LinkItem.list.inj hmore)
  rw [← heq] at hl
  exact ((List.cons_prefix_cons.mp (List.cons_prefix_cons.mp hl).2).1).symm

/-- The search returns a link to each of the stores to go on to if and only if the store was not
visited and there is just one store to go on to, however often it is found. -/
theorem links_all_iff {idx : StInfoIndex} {pmAddr pmSize : Int} {stores : List MechPMStoreEntry}
    {order : StoreSetOrder} {pairOrder : SetOrder (String × Int)}
    (hstores : ∀ x ∈ stores, x.op.size = pointerSize → x.op.svEntry.isSome = true)
    (visited : List (Int × TraceType × Int × Int)) {pmstore store : MechPMStoreEntry}
    (hmem : pmstore ∈ stores) {limit : Nat} {rest : List MechPMStoreEntry}
    (htarget : targets idx pmAddr pmSize stores order pairOrder limit pmstore =
      some (store :: rest)) :
    LinksAll idx pmAddr pmSize stores order pairOrder visited pmstore (store :: rest) ↔
      pmstore.member ∉ visited ∧ ∀ store' ∈ rest, store' = store := by
  refine ⟨fun h => h.same htarget, fun ⟨hvisited, hsame⟩ => ?_⟩
  obtain ⟨k, ⟨res, v⟩, hbuild⟩ :=
    exists_build idx pmAddr pmSize order pairOrder hstores hmem [] visited
  rcases build_cases hbuild with ⟨-, hnot | ⟨m, hnil⟩⟩ | ⟨m, store₁, rest₁, l, -, htarget₁, hl, hres⟩
  · exact absurd hnot hvisited
  · cases targets_unique hnil htarget
  obtain ⟨rfl, rfl⟩ := List.cons.inj (targets_unique htarget₁ htarget)
  obtain ⟨more, hmore⟩ := hl
  refine ⟨k, _, v, hres ▸ hbuild, fun store' hstore' => ⟨more, ?_⟩⟩
  have hstore : store' = store₁ := (List.mem_cons.mp hstore').elim id (hsame store')
  rw [hstore, ← hmore]
  exact List.mem_singleton_self _

/-! ## A pointer to a list node -/

/-- The stores of a set as they are found. -/
def asFound : StoreSetOrder where
  list := firstsBy MechPMStoreEntry.member []
  subset := fun _ _ h => (mem_of_mem_firstsBy h).1
  exists_member := fun _ _ h => exists_mem_firstsBy h List.not_mem_nil
  nodup := fun _ => List.pairwise_map.mpr firstsBy_pairwise

/-- A store of a physical address in persistent memory that begins at 4096. -/
def storeOf (seq addr value : Nat) : MechPMStoreEntry :=
  { op := { TraceEntry.plain .store seq addr 8 with svEntry := some (Bytes.toLE 8 value) }
    addr := addr
    size := 8
    phyAddr := addr - 4096 }

/-- A node with two pointers at 4160. -/
def listIndex : StInfoIndex where
  structDict := Dict.empty.set "node"
    ⟨some ⟨"node", 128, 16⟩, [structVar "node" "next" 8 0, structVar "node" "prev" 8 8]⟩
  pidAddrToStinfoIv := Dict.empty
  annotations := fun e => if e.addr = 4160 then some ⟨⟨4160, "node"⟩, []⟩ else none

theorem links_all_one_target :
    LinksAll listIndex 4096 65536 [storeOf 1 4104 64, storeOf 2 4160 0] asFound (asListed _) []
      (storeOf 1 4104 64) [storeOf 2 4160 0] :=
  (links_all_iff (by decide) [] (by decide)
    (by decide +kernel : targets listIndex 4096 65536 [storeOf 1 4104 64, storeOf 2 4160 0] asFound
      (asListed _) 10 (storeOf 1 4104 64) = some [storeOf 2 4160 0])).mpr
    ⟨List.not_mem_nil, fun _ h => absurd h List.not_mem_nil⟩

/-- Both pointers of the node are stored, and there is a link to the first only. -/
theorem other_pointer_dropped :
    let stores := [storeOf 1 4104 64, storeOf 2 4160 0, storeOf 3 4168 0]
    targets listIndex 4096 65536 stores asFound (asListed _) 10 (storeOf 1 4104 64) =
      some [storeOf 2 4160 0, storeOf 3 4168 0] ∧
    (∃ visited, buildLinkFromPmstore listIndex 4096 65536 stores asFound (asListed _) 11 [] []
      (storeOf 1 4104 64) =
        some (some [.list [.store (storeOf 1 4104 64), .store (storeOf 2 4160 0)]], visited)) ∧
    ¬ LinksAll listIndex 4096 65536 stores asFound (asListed _) [] (storeOf 1 4104 64)
      [storeOf 2 4160 0, storeOf 3 4168 0] := by
  intro stores
  have htarget : targets listIndex 4096 65536 stores asFound (asListed _) 10 (storeOf 1 4104 64) =
      some [storeOf 2 4160 0, storeOf 3 4168 0] := by decide +kernel
  have hend : targets listIndex 4096 65536 stores asFound (asListed _) 9 (storeOf 2 4160 0) =
      some [] := by decide +kernel
  refine ⟨htarget, ?_, fun h => ?_⟩
  · have hmem : (storeOf 2 4160 0).member ∉ [(storeOf 1 4104 64).member] := by decide
    have hinner : buildLinkFromPmstore listIndex 4096 65536 stores asFound (asListed _) 10
        [storeOf 1 4104 64, storeOf 2 4160 0] [(storeOf 1 4104 64).member] (storeOf 2 4160 0) =
          some (none, [(storeOf 2 4160 0).member, (storeOf 1 4104 64).member]) := by
      rw [buildLinkFromPmstore, if_neg hmem, hend]
      rfl
    refine ⟨[(storeOf 2 4160 0).member, (storeOf 1 4104 64).member], ?_⟩
    rw [buildLinkFromPmstore, if_neg List.not_mem_nil, htarget]
    exact Option.bind_eq_some_iff.mpr ⟨_, rfl, Option.bind_eq_some_iff.mpr ⟨_, hinner, rfl⟩⟩
  · have hsame := (h.same htarget).2 (storeOf 3 4168 0) List.mem_cons_self
    exact absurd hsame (by decide)

end MechLinkReason

end Mech
end Silhouette
