import Silhouette.Cache.Lines
import Mathlib.Data.Finset.Image

/-!
# Write dependencies between the stores of a cache

`get_write_dep_seq_map` of `reorder_simulator.py` maps a sequence number to the
sequence numbers that must be durable first.  Its two passes share one loop: walk
over groups of stores and make every store depend on the groups before its own.
`mem_getWriteDepSeqMap` says which pairs come out of it.
-/

namespace Silhouette
namespace Cache

open Lib

/-- The eight-byte slot of its cacheline that a store starts in. -/
def slotOf (s : Store) : Int := s.addr % cachelineBytes / atomicWriteBytes

/-- The dependencies recorded under a sequence number. -/
def depsOf {α : Type} (rst : Dict Int (Finset α)) (seq : Int) : Finset α := (rst.get? seq).getD ∅

/-- `rst[seq] |= deps`, with an empty set when the key is new. -/
def addDeps {α : Type} [DecidableEq α] (rst : Dict Int (Finset α)) (seq : Int)
    (deps : Finset α) : Dict Int (Finset α) :=
  rst.set seq (depsOf rst seq ∪ deps)

theorem mem_depsOf_addDeps {α : Type} [DecidableEq α] {rst : Dict Int (Finset α)} {seq s : Int}
    {deps : Finset α} {t : α} :
    t ∈ depsOf (addDeps rst seq deps) s ↔ t ∈ depsOf rst s ∨ s = seq ∧ t ∈ deps := by
  rw [addDeps, depsOf, Dict.get?_set]
  by_cases h : s = seq
  · simp [h]
  · simp [h, depsOf]

/-- The stores of a list by a key, keys in the order of their first store. -/
def groupStores {κ : Type} [DecidableEq κ] (key : Store → κ) (ops : List Store) :
    Dict κ (List Store) :=
  ops.foldl (fun tmp op => tmp.set (key op) ((tmp.get? (key op)).getD [] ++ [op])) Dict.empty

/-- Every store of a group depends on the groups before it. -/
def layeredDeps (rst : Dict Int (Finset Store)) (groups : List (List Store)) :
    Dict Int (Finset Store) :=
  (groups.foldl
    (fun (acc : Dict Int (Finset Store) × Finset Store) group =>
      (group.foldl (fun rst op => addDeps rst op.seq acc.2) acc.1, acc.2 ∪ group.toFinset))
    (rst, ∅)).1

/-- The stores of a line by the number of fences they saw, fewest first. -/
def fenceGroups (h : Heap) (cl : WitcherCacheline) : List (List Store) :=
  (sortBy Prod.fst
    (groupStores (fun op => (h op.ref).fenceList.length) cl.storesList).items).map Prod.snd

/-- The stores of a line slot by slot, each slot in sequence order. -/
def slotLists (cl : WitcherCacheline) : List (List Store) :=
  (groupStores slotOf cl.storesList).values.map (sortBy Store.seq)

/-- Both passes, before the objects are replaced by their sequence numbers. -/
def collectDeps (m : Sim) : Dict Int (Finset Store) :=
  let fenced := m.getCachelines.foldl
    (fun rst cl => layeredDeps rst (fenceGroups m.heap cl)) Dict.empty
  m.getCachelines.foldl
    (fun rst cl => (slotLists cl).foldl
      (fun rst ops => layeredDeps rst (ops.map fun op => [op])) rst) fenced

def getWriteDepSeqMap (m : Sim) : Dict Int (Finset Int) :=
  (collectDeps m).items.foldl
    (fun normalized x =>
      let seqSet := (x.2.image Store.seq).erase x.1
      if seqSet = ∅ then normalized else normalized.set x.1 seqSet)
    Dict.empty

/-! ## Groups -/

theorem mem_groupStores {κ : Type} [DecidableEq κ] (key : Store → κ) {ops : List Store} {k : κ}
    {s : Store} :
    s ∈ ((groupStores key ops).get? k).getD [] ↔ s ∈ ops ∧ key s = k := by
  induction ops using List.reverseRecOn with
  | nil => simp [groupStores]
  | append_singleton ops op ih =>
    rw [groupStores, List.foldl_append] at *
    simp only [List.foldl_cons, List.foldl_nil, Dict.get?_set]
    by_cases hk : k = key op
    · subst hk
      simp only [if_true, Option.getD_some, List.mem_append, ih, List.mem_singleton]
      constructor
      · rintro (⟨hs, hkey⟩ | rfl)
        · exact ⟨Or.inl hs, hkey⟩
        · exact ⟨Or.inr rfl, rfl⟩
      · rintro ⟨hs | rfl, hkey⟩
        · exact Or.inl ⟨hs, hkey⟩
        · exact Or.inr rfl
    · simp only [hk, if_false, ih, List.mem_append, List.mem_singleton]
      constructor
      · rintro ⟨hs, hkey⟩
        exact ⟨Or.inl hs, hkey⟩
      · rintro ⟨hs | rfl, hkey⟩
        · exact ⟨hs, hkey⟩
        · exact absurd hkey.symm hk

theorem mem_of_mem_items_groupStores {κ : Type} [DecidableEq κ] {key : Store → κ}
    {ops : List Store} {x : κ × List Store} (hx : x ∈ (groupStores key ops).items) {s : Store} :
    s ∈ x.2 ↔ s ∈ ops ∧ key s = x.1 := by
  have hget : (groupStores key ops).get? x.1 = some x.2 := Dict.get?_eq_some.mpr hx
  rw [← mem_groupStores key, hget, Option.getD_some]

theorem exists_group {κ : Type} [DecidableEq κ] (key : Store → κ) {ops : List Store} {s : Store}
    (hs : s ∈ ops) : ∃ l, (key s, l) ∈ (groupStores key ops).items ∧ s ∈ l := by
  have h := (mem_groupStores key).mpr ⟨hs, rfl⟩
  cases hget : (groupStores key ops).get? (key s) with
  | none => simp [hget] at h
  | some l =>
    rw [hget, Option.getD_some] at h
    exact ⟨l, Dict.get?_eq_some.mp hget, h⟩

/-! ## The shared loop -/

theorem mem_depsOf_foldl_addDeps {rst : Dict Int (Finset Store)} {group : List Store}
    {deps : Finset Store} {s : Int} {t : Store} :
    t ∈ depsOf (group.foldl (fun rst op => addDeps rst op.seq deps) rst) s ↔
      t ∈ depsOf rst s ∨ (∃ op ∈ group, op.seq = s) ∧ t ∈ deps := by
  induction group generalizing rst with
  | nil => simp
  | cons op rest ih =>
    rw [List.foldl_cons, ih, mem_depsOf_addDeps, List.exists_mem_cons_iff]
    constructor
    · rintro ((h | ⟨rfl, h⟩) | ⟨h, ht⟩)
      · exact Or.inl h
      · exact Or.inr ⟨Or.inl rfl, h⟩
      · exact Or.inr ⟨Or.inr h, ht⟩
    · rintro (h | ⟨h | h, ht⟩)
      · exact Or.inl (Or.inl h)
      · exact Or.inl (Or.inr ⟨h.symm, ht⟩)
      · exact Or.inr ⟨h, ht⟩

/-- A store is recorded under the sequence numbers of the groups after its own. -/
theorem mem_depsOf_layeredDeps {rst : Dict Int (Finset Store)} {groups : List (List Store)}
    {s : Int} {t : Store} :
    t ∈ depsOf (layeredDeps rst groups) s ↔
      t ∈ depsOf rst s ∨
        ∃ pre group post, groups = pre ++ group :: post ∧ (∃ op ∈ group, op.seq = s) ∧
          ∃ g ∈ pre, t ∈ g := by
  have hgen : ∀ (rst : Dict Int (Finset Store)) (last : Finset Store),
      t ∈ depsOf (groups.foldl
        (fun (acc : Dict Int (Finset Store) × Finset Store) group =>
          (group.foldl (fun rst op => addDeps rst op.seq acc.2) acc.1, acc.2 ∪ group.toFinset))
        (rst, last)).1 s ↔
      t ∈ depsOf rst s ∨
        ∃ pre group post, groups = pre ++ group :: post ∧ (∃ op ∈ group, op.seq = s) ∧
          (t ∈ last ∨ ∃ g ∈ pre, t ∈ g) := by
    induction groups with
    | nil => simp
    | cons group rest ih =>
      intro rst last
      rw [List.foldl_cons, ih, mem_depsOf_foldl_addDeps]
      constructor
      · rintro ((h | ⟨hop, ht⟩) | ⟨pre, g, post, rfl, hop, ht⟩)
        · exact Or.inl h
        · exact Or.inr ⟨[], group, rest, rfl, hop, Or.inl ht⟩
        · refine Or.inr ⟨group :: pre, g, post, rfl, hop, ?_⟩
          rw [Finset.mem_union, List.mem_toFinset] at ht
          rcases ht with (ht | ht) | ⟨g', hg', ht⟩
          · exact Or.inl ht
          · exact Or.inr ⟨group, List.mem_cons_self, ht⟩
          · exact Or.inr ⟨g', List.mem_cons_of_mem _ hg', ht⟩
      · rintro (h | ⟨pre, g, post, heq, hop, ht⟩)
        · exact Or.inl (Or.inl h)
        · cases pre with
          | nil =>
            obtain ⟨rfl, rfl⟩ := List.cons.inj heq
            rcases ht with ht | ⟨g', hg', -⟩
            · exact Or.inl (Or.inr ⟨hop, ht⟩)
            · exact absurd hg' List.not_mem_nil
          | cons g' pre =>
            obtain ⟨rfl, rfl⟩ := List.cons.inj heq
            refine Or.inr ⟨pre, g, post, rfl, hop, ?_⟩
            rw [Finset.mem_union, List.mem_toFinset]
            rcases ht with ht | ⟨g'', hg'', ht⟩
            · exact Or.inl (Or.inl ht)
            · rcases List.mem_cons.mp hg'' with rfl | hg''
              · exact Or.inl (Or.inr ht)
              · exact Or.inr ⟨g'', hg'', ht⟩
  rw [layeredDeps, hgen]
  simp

/-! ## One line -/

/-- Groups that come from a sorted list of items. -/
theorem mem_depsOf_layeredDeps_map {β : Type} {rst : Dict Int (Finset Store)} {items : List β}
    {f : β → List Store} {s : Int} {t : Store} :
    t ∈ depsOf (layeredDeps rst (items.map f)) s ↔
      t ∈ depsOf rst s ∨ ∃ x y, (∃ op ∈ f x, op.seq = s) ∧ t ∈ f y ∧
        ∃ pre post, items = pre ++ x :: post ∧ y ∈ pre := by
  rw [mem_depsOf_layeredDeps]
  refine or_congr_right ⟨?_, ?_⟩
  · rintro ⟨pre, group, post, heq, hop, g, hg, ht⟩
    obtain ⟨pre', rest', rfl, rfl, hrest⟩ := List.map_eq_append_iff.mp heq
    obtain ⟨x, post', rfl, rfl, -⟩ := List.map_eq_cons_iff.mp hrest
    obtain ⟨y, hy, rfl⟩ := List.mem_map.mp hg
    exact ⟨x, y, hop, ht, pre', post', rfl, hy⟩
  · rintro ⟨x, y, hop, ht, pre, post, rfl, hy⟩
    exact ⟨pre.map f, f x, post.map f, by rw [List.map_append, List.map_cons], hop, f y,
      List.mem_map_of_mem hy, ht⟩

theorem mem_depsOf_fenceGroups (h : Heap) {s : Int} {t : Store} (rst : Dict Int (Finset Store))
    (cl : WitcherCacheline) :
    t ∈ depsOf (layeredDeps rst (fenceGroups h cl)) s ↔
      t ∈ depsOf rst s ∨ t ∈ cl.storesList ∧ ∃ op ∈ cl.storesList, op.seq = s ∧
        (h t.ref).fenceList.length < (h op.ref).fenceList.length := by
  let key : Store → Nat := fun op => (h op.ref).fenceList.length
  have hmem : ∀ x ∈ sortBy Prod.fst (groupStores key cl.storesList).items,
      ∀ op, op ∈ x.2 ↔ op ∈ cl.storesList ∧ key op = x.1 :=
    fun x hx op => mem_of_mem_items_groupStores (mem_sortBy.mp hx)
  rw [fenceGroups, mem_depsOf_layeredDeps_map]
  refine or_congr_right ⟨?_, ?_⟩
  · rintro ⟨x, y, ⟨op, hop, hs⟩, ht, pre, post, heq, hy⟩
    have hlt : (pre ++ x :: post).Pairwise fun x y => x.1 < y.1 :=
      heq ▸ sortBy_pairwise_lt (Dict.nodup_keys _)
    have hyx : y.1 < x.1 := (List.pairwise_append.mp hlt).2.2 y hy x List.mem_cons_self
    obtain ⟨hol, hok⟩ := (hmem x (by rw [heq]; simp) op).mp hop
    obtain ⟨htl, htk⟩ := (hmem y (by rw [heq]; simp [hy]) t).mp ht
    refine ⟨htl, op, hol, hs, ?_⟩
    show key t < key op
    omega
  · rintro ⟨ht, op, hop, hs, hlt⟩
    obtain ⟨lt, hlt', htl⟩ := exists_group key ht
    obtain ⟨lo, hlo, hopl⟩ := exists_group key hop
    exact ⟨(key op, lo), (key t, lt), ⟨op, hopl, hs⟩, htl,
      (precedes_iff_of_sorted (sortBy_pairwise Prod.fst _) (Nat.ne_of_lt hlt)).mpr
        ⟨mem_sortBy.mpr hlo, mem_sortBy.mpr hlt', hlt⟩⟩

/-- In a slot a store depends on those with smaller sequence numbers. -/
theorem mem_depsOf_sorted {rst : Dict Int (Finset Store)} {ops : List Store} {s : Int}
    {t : Store} (hts : t.seq ≠ s) :
    t ∈ depsOf (layeredDeps rst ((sortBy Store.seq ops).map fun op => [op])) s ↔
      t ∈ depsOf rst s ∨ t ∈ ops ∧ (∃ op ∈ ops, op.seq = s) ∧ t.seq < s := by
  rw [mem_depsOf_layeredDeps_map]
  have hprec : ∀ op : Store, t.seq ≠ op.seq → _ :=
    fun op => precedes_iff_of_sorted (x := op) (y := t) (sortBy_pairwise Store.seq ops)
  simp only [mem_sortBy] at hprec
  refine or_congr_right ⟨?_, ?_⟩
  · rintro ⟨x, y, ⟨op, hop, rfl⟩, ht, hpre⟩
    obtain rfl := List.mem_singleton.mp hop
    obtain rfl := List.mem_singleton.mp ht
    obtain ⟨h1, h2, h3⟩ := (hprec op hts).mp hpre
    exact ⟨h2, ⟨op, h1, rfl⟩, h3⟩
  · rintro ⟨ht, ⟨op, hop, rfl⟩, hlt⟩
    exact ⟨op, t, ⟨op, List.mem_singleton_self _, rfl⟩, List.mem_singleton_self _,
      (hprec op hts).mpr ⟨hop, ht, hlt⟩⟩

theorem mem_depsOf_slotLists {s : Int} {t : Store} (hts : t.seq ≠ s)
    (rst : Dict Int (Finset Store)) (cl : WitcherCacheline) :
    t ∈ depsOf ((slotLists cl).foldl
        (fun rst ops => layeredDeps rst (ops.map fun op => [op])) rst) s ↔
      t ∈ depsOf rst s ∨ t ∈ cl.storesList ∧ t.seq < s ∧
        ∃ op ∈ cl.storesList, op.seq = s ∧ slotOf op = slotOf t := by
  have hgen : ∀ groups : List (Int × List Store), ∀ rst : Dict Int (Finset Store),
      t ∈ depsOf (((groups.map Prod.snd).map (sortBy Store.seq)).foldl
        (fun rst ops => layeredDeps rst (ops.map fun op => [op])) rst) s ↔
      t ∈ depsOf rst s ∨ ∃ x ∈ groups, t ∈ x.2 ∧ (∃ op ∈ x.2, op.seq = s) ∧ t.seq < s := by
    intro groups
    induction groups with
    | nil => simp
    | cons x rest ih =>
      intro rst
      rw [List.map_cons, List.map_cons, List.foldl_cons, ih, mem_depsOf_sorted hts,
        List.exists_mem_cons_iff, or_assoc]
  rw [slotLists, Dict.values, hgen]
  refine or_congr_right ⟨?_, ?_⟩
  · rintro ⟨x, hx, ht, ⟨op, hop, hs⟩, hlt⟩
    obtain ⟨htl, htk⟩ := (mem_of_mem_items_groupStores hx).mp ht
    obtain ⟨hol, hok⟩ := (mem_of_mem_items_groupStores hx).mp hop
    exact ⟨htl, hlt, op, hol, hs, hok.trans htk.symm⟩
  · rintro ⟨ht, hlt, op, hop, hs, hslot⟩
    obtain ⟨l, hl, htl⟩ := exists_group slotOf ht
    exact ⟨_, hl, htl, ⟨op, (mem_of_mem_items_groupStores hl).mpr ⟨hop, hslot⟩, hs⟩, hlt⟩

/-! ## The whole cache -/

theorem foldl_depsOf_iff {β : Type} {f : Dict Int (Finset Store) → β → Dict Int (Finset Store)}
    {q : β → Prop} {s : Int} {t : Store}
    (hf : ∀ rst x, t ∈ depsOf (f rst x) s ↔ t ∈ depsOf rst s ∨ q x) (l : List β)
    (rst : Dict Int (Finset Store)) :
    t ∈ depsOf (l.foldl f rst) s ↔ t ∈ depsOf rst s ∨ ∃ x ∈ l, q x := by
  induction l generalizing rst with
  | nil => simp
  | cons x rest ih => rw [List.foldl_cons, ih, hf, List.exists_mem_cons_iff, or_assoc]

/-- The stores of one line, as the passes see them. -/
theorem exists_cacheline_iff {m : Sim} {q : List Store → Prop} (hq : ¬ q []) :
    (∃ cl ∈ m.getCachelines, q cl.storesList) ↔ ∃ a, q (m.line a) := by
  simp only [Sim.getCachelines, Dict.mem_values]
  constructor
  · rintro ⟨cl, ⟨a, ha⟩, h⟩
    exact ⟨a, (Sim.line_of_get? ha).symm ▸ h⟩
  · rintro ⟨a, h⟩
    cases hget : m.cache.cachelineDict.get? a with
    | none => simp [Sim.line, hget, hq] at h
    | some cl => exact ⟨cl, ⟨a, hget⟩, Sim.line_of_get? hget ▸ h⟩

/-- Why store `t` must be durable before store `op` of the same line. -/
def DependsOn (h : Heap) (op t : Store) : Prop :=
  (h t.ref).fenceList.length < (h op.ref).fenceList.length ∨
    t.seq < op.seq ∧ slotOf op = slotOf t

theorem mem_collectDeps {m : Sim} {s : Int} {t : Store} (hts : t.seq ≠ s) :
    t ∈ depsOf (collectDeps m) s ↔
      ∃ a, t ∈ m.line a ∧ ∃ op ∈ m.line a, op.seq = s ∧ DependsOn m.heap op t := by
  rw [collectDeps,
    foldl_depsOf_iff (mem_depsOf_slotLists hts), foldl_depsOf_iff (mem_depsOf_fenceGroups m.heap),
    exists_cacheline_iff (m := m) (q := fun l => t ∈ l ∧ ∃ op ∈ l, op.seq = s ∧
      (m.heap t.ref).fenceList.length < (m.heap op.ref).fenceList.length) (by simp),
    exists_cacheline_iff (m := m) (q := fun l => t ∈ l ∧ t.seq < s ∧
      ∃ op ∈ l, op.seq = s ∧ slotOf op = slotOf t) (by simp)]
  simp only [depsOf, Dict.get?_empty, Option.getD_none, Finset.notMem_empty, false_or]
  constructor
  · rintro (⟨a, ht, op, hop, hs, h⟩ | ⟨a, ht, hlt, op, hop, hs, h⟩)
    · exact ⟨a, ht, op, hop, hs, Or.inl h⟩
    · exact ⟨a, ht, op, hop, hs, Or.inr ⟨hs ▸ hlt, h⟩⟩
  · rintro ⟨a, ht, op, hop, hs, h | ⟨hlt, h⟩⟩
    · exact Or.inl ⟨a, ht, op, hop, hs, h⟩
    · exact Or.inr ⟨a, ht, hs ▸ hlt, op, hop, hs, h⟩

theorem depsOf_getWriteDepSeqMap (m : Sim) (s : Int) :
    depsOf (getWriteDepSeqMap m) s = ((depsOf (collectDeps m) s).image Store.seq).erase s := by
  have hgen : ∀ (items : List (Int × Finset Store)) (d : Dict Int (Finset Int)),
      (items.map Prod.fst).Nodup →
      depsOf (items.foldl (fun normalized x =>
        let seqSet := (x.2.image Store.seq).erase x.1
        if seqSet = ∅ then normalized else normalized.set x.1 seqSet) d) s =
      match items.lookup s with
      | some v => if (v.image Store.seq).erase s = ∅ then depsOf d s
          else (v.image Store.seq).erase s
      | none => depsOf d s := by
    intro items
    induction items with
    | nil => exact fun d _ => rfl
    | cons x rest ih =>
      intro d hnd
      obtain ⟨k, v⟩ := x
      rw [List.map_cons, List.nodup_cons] at hnd
      rw [List.foldl_cons, ih _ hnd.2]
      by_cases hk : s = k
      · subst hk
        have hnone : rest.lookup s = none := by
          rw [List.lookup_eq_none_iff]
          intro p hp
          exact bne_iff_ne.mpr fun hps => hnd.1 (List.mem_map.mpr ⟨p, hp, hps.symm⟩)
        rw [hnone, List.lookup_cons_self]
        by_cases he : (v.image Store.seq).erase s = ∅
        · simp [he]
        · simp [he, depsOf, Dict.get?_set]
      · have hb : (s == k) = false := beq_eq_false_iff_ne.mpr hk
        have hd : depsOf (if (v.image Store.seq).erase k = ∅ then d
            else d.set k ((v.image Store.seq).erase k)) s = depsOf d s := by
          by_cases he : (v.image Store.seq).erase k = ∅
          · rw [if_pos he]
          · rw [if_neg he, depsOf, depsOf, Dict.get?_set, if_neg hk]
        simp only [List.lookup_cons, hb]
        rw [hd]
  rw [getWriteDepSeqMap, hgen _ _ (Dict.nodup_keys _), depsOf, depsOf]
  show _ = ((((collectDeps m).items.lookup s).getD ∅).image Store.seq).erase s
  cases (collectDeps m).items.lookup s with
  | none => rfl
  | some v =>
    by_cases he : (v.image Store.seq).erase s = ∅
    · simp [he]
    · simp [he]

/-- The map holds the pairs of stores of one line in which one must be durable
before the other. -/
theorem mem_getWriteDepSeqMap {m : Sim} {s t : Int} :
    t ∈ depsOf (getWriteDepSeqMap m) s ↔ t ≠ s ∧ ∃ a, ∃ op ∈ m.line a, ∃ dep ∈ m.line a,
      op.seq = s ∧ dep.seq = t ∧ DependsOn m.heap op dep := by
  rw [depsOf_getWriteDepSeqMap, Finset.mem_erase, Finset.mem_image]
  refine and_congr_right (fun hts => ⟨?_, ?_⟩)
  · rintro ⟨dep, hdep, rfl⟩
    obtain ⟨a, hd, op, hop, hs, h⟩ := (mem_collectDeps hts).mp hdep
    exact ⟨a, op, hop, dep, hd, hs, rfl, h⟩
  · rintro ⟨a, op, hop, dep, hd, hs, rfl, h⟩
    exact ⟨dep, (mem_collectDeps hts).mpr ⟨a, hd, op, hop, hs, h⟩, rfl⟩

end Cache
end Silhouette
