import Silhouette.Mech.Memcpy
import Silhouette.Mech.ReplReason

/-!
# The loads of a replication

A replication from DRAM gathers the copies that filled its source, and keeps the latest of them, as
far back as it takes to fill the source.  `keeps_enough` says that no byte loses its last writer
by that.
-/

namespace Silhouette
namespace Mech
namespace MechReplReason

open Lib Trace Layout

/-- The copy writes the address. -/
def Fills (cpy : MechMemcpyEntry) (x : Int) : Prop := cpy.dstAddr ≤ x ∧ x < cpy.dstAddr + cpy.size

instance (cpy : MechMemcpyEntry) (x : Int) : Decidable (Fills cpy x) :=
  inferInstanceAs (Decidable (_ ∧ _))

/-- The copies fill the source of the replication. -/
def CoversSource (repl : MechMemcpyEntry) (seg : List MechMemcpyEntry) : Prop :=
  ∀ x, repl.srcAddr ≤ x → x < repl.srcAddr + repl.size → ∃ cpy ∈ seg, Fills cpy x

/-- The loads of a replication behind the second loop. -/
def collectedLoads (idx : StInfoIndex) (structSet : List String) (pmAddr pmSize : Int)
    (copies : List MechMemcpyEntry) (repl : MechMemcpyEntry) : List MechMemcpyEntry :=
  match repl.type pmAddr pmSize with
  | .pmToPm => [repl]
  | .kernelToPm => copies.filter (isLoadOf idx structSet pmAddr pmSize repl)
  | _ => []

/-- Of each byte of the source the latest load is kept; what is kept is the end of the loads, and no
shorter end fills the source when one does. -/
structure KeepsEnough (loads : List MechMemcpyEntry) (repl : MechMemcpyEntry)
    (kept : List MechMemcpyEntry) : Prop where
  latest : ∀ x, repl.srcAddr ≤ x → x < repl.srcAddr + repl.size → ∀ ld ∈ loads, Fills ld x →
    ∃ cpy ∈ kept, Fills cpy x ∧ ∀ ld' ∈ loads, Fills ld' x → ld'.opSt.seq ≤ cpy.opSt.seq
  segment : kept <:+ sortBy (fun cpy => cpy.opSt.seq) loads
  shortest : ∀ seg, seg <:+ sortBy (fun cpy => cpy.opSt.seq) loads → seg ≠ [] →
    CoversSource repl seg → CoversSource repl kept ∧ kept <:+ seg

/-! ## The nearest loads -/

section

variable {left : List Int} {cpy : MechMemcpyEntry} {rest l : List MechMemcpyEntry}

/-- The addresses that are left behind a copy are those that it does not write. -/
def unfilled (left : List Int) (cpy : MechMemcpyEntry) : List Int :=
  left.filter fun a => !(cpy.dstAddr ≤ a ∧ a < cpy.dstAddr + cpy.size)

theorem mem_unfilled {x : Int} : x ∈ unfilled left cpy ↔ x ∈ left ∧ ¬ Fills cpy x := by
  rw [unfilled, List.mem_filter, Bool.not_eq_true', decide_eq_false_iff_not]
  rfl

theorem takeNearest_cons : takeNearest left (cpy :: rest) =
    if unfilled left cpy = [] then [cpy] else cpy :: takeNearest (unfilled left cpy) rest := rfl

theorem takeNearest_prefix (left : List Int) (l : List MechMemcpyEntry) :
    takeNearest left l <+: l := by
  induction l generalizing left with
  | nil => exact List.nil_prefix
  | cons cpy rest ih =>
    rw [takeNearest_cons]
    split_ifs
    · exact ⟨rest, rfl⟩
    · exact (List.cons_prefix_cons).mpr ⟨rfl, ih _⟩

/-- The first copy in the list that writes an address is kept. -/
theorem takeNearest_latest (hl : l.Pairwise fun x y => y.opSt.seq ≤ x.opSt.seq) {x : Int}
    (hx : x ∈ left) {ld : MechMemcpyEntry} (hld : ld ∈ l) (hfill : Fills ld x) :
    ∃ c ∈ takeNearest left l, Fills c x ∧ ∀ ld' ∈ l, Fills ld' x → ld'.opSt.seq ≤ c.opSt.seq := by
  induction l generalizing left with
  | nil => exact absurd hld List.not_mem_nil
  | cons cpy rest ih =>
    obtain ⟨hfirst, hrest⟩ := List.pairwise_cons.mp hl
    by_cases hcpy : Fills cpy x
    · have hkept : cpy ∈ takeNearest left (cpy :: rest) := by
        rw [takeNearest_cons]
        split_ifs <;> exact List.mem_cons_self
      refine ⟨cpy, hkept, hcpy, fun ld' hld' _ => ?_⟩
      obtain rfl | hld' := List.mem_cons.mp hld'
      · exact Int.le_refl _
      · exact hfirst ld' hld'
    · have hx' : x ∈ unfilled left cpy := mem_unfilled.mpr ⟨hx, hcpy⟩
      have hmem : ∀ ld' ∈ cpy :: rest, Fills ld' x → ld' ∈ rest := by
        intro ld' hld' hfill'
        obtain rfl | hld' := List.mem_cons.mp hld'
        · exact absurd hfill' hcpy
        · exact hld'
      obtain ⟨c, hc, hcx, hmax⟩ := ih hrest hx' (hmem ld hld hfill)
      rw [takeNearest_cons, if_neg (List.ne_nil_of_mem hx')]
      exact ⟨c, List.mem_cons_of_mem _ hc, hcx,
        fun ld' hld' hfill' => hmax ld' (hmem ld' hld' hfill') hfill'⟩

/-- A beginning of the list that writes all addresses is no shorter than what is kept. -/
theorem takeNearest_shortest {p : List MechMemcpyEntry} (hp : p <+: l) (hne : p ≠ [])
    (hcov : ∀ x ∈ left, ∃ c ∈ p, Fills c x) :
    (∀ x ∈ left, ∃ c ∈ takeNearest left l, Fills c x) ∧ takeNearest left l <+: p := by
  induction l generalizing left p with
  | nil => exact absurd (List.prefix_nil.mp hp) hne
  | cons cpy rest ih =>
    obtain ⟨c, p, rfl⟩ := List.exists_cons_of_ne_nil hne
    obtain ⟨rfl, htail⟩ := List.cons_prefix_cons.mp hp
    rw [takeNearest_cons]
    by_cases hdone : unfilled left c = []
    · rw [if_pos hdone]
      refine ⟨fun x hx => ⟨c, List.mem_singleton_self c, ?_⟩, ⟨p, rfl⟩⟩
      by_contra hno
      exact List.ne_nil_of_mem (mem_unfilled.mpr ⟨hx, hno⟩) hdone
    · rw [if_neg hdone]
      have hcov' : ∀ x ∈ unfilled left c, ∃ d ∈ p, Fills d x := by
        intro x hx
        obtain ⟨hx, hno⟩ := mem_unfilled.mp hx
        obtain ⟨d, hd, hfill⟩ := hcov x hx
        obtain rfl | hd := List.mem_cons.mp hd
        · exact absurd hfill hno
        · exact ⟨d, hd, hfill⟩
      have hp_ne : p ≠ [] := by
        obtain ⟨x, hx⟩ := List.exists_mem_of_ne_nil _ hdone
        obtain ⟨d, hd, _⟩ := hcov' x hx
        exact List.ne_nil_of_mem hd
      obtain ⟨hall, hpre⟩ := ih htail hp_ne hcov'
      refine ⟨fun x hx => ?_, List.cons_prefix_cons.mpr ⟨rfl, hpre⟩⟩
      by_cases hfill : Fills c x
      · exact ⟨c, List.mem_cons_self, hfill⟩
      · obtain ⟨d, hd, hdx⟩ := hall x (mem_unfilled.mpr ⟨hx, hfill⟩)
        exact ⟨d, List.mem_cons_of_mem _ hd, hdx⟩

end

/-! ## The loads in the order of the trace -/

/-- The addresses of the source, which are counted down. -/
def sourceAddrs (repl : MechMemcpyEntry) : List Int :=
  (List.range repl.size.toNat).map fun i : Nat => repl.srcAddr + i

theorem mem_sourceAddrs {repl : MechMemcpyEntry} {x : Int} :
    x ∈ sourceAddrs repl ↔ repl.srcAddr ≤ x ∧ x < repl.srcAddr + repl.size := by
  rw [sourceAddrs, List.mem_map]
  constructor
  · rintro ⟨i, hi, rfl⟩
    rw [List.mem_range] at hi
    omega
  · intro h
    refine ⟨(x - repl.srcAddr).toNat, List.mem_range.mpr ?_, ?_⟩
    · omega
    · omega

theorem coversSource_iff {repl : MechMemcpyEntry} {seg : List MechMemcpyEntry} :
    CoversSource repl seg ↔ ∀ x ∈ sourceAddrs repl, ∃ d ∈ seg, Fills d x := by
  simp only [CoversSource, mem_sourceAddrs, and_imp]

theorem coversSource_reverse {repl : MechMemcpyEntry} {seg : List MechMemcpyEntry} :
    CoversSource repl seg.reverse ↔ CoversSource repl seg := by
  simp only [CoversSource, List.mem_reverse]

/-- The loads from the latest to the earliest. -/
def latestFirst (loads : List MechMemcpyEntry) : List MechMemcpyEntry :=
  sortBy (fun cpy => -cpy.opSt.seq) loads

theorem latestFirst_perm (loads : List MechMemcpyEntry) : (latestFirst loads).Perm loads :=
  sortBy_perm _ loads

section

variable {loads : List MechMemcpyEntry} (hnd : (loads.map fun cpy => cpy.opSt.seq).Nodup)
include hnd

theorem latestFirst_pairwise :
    (latestFirst loads).Pairwise fun x y => y.opSt.seq < x.opSt.seq := by
  have hneg : (loads.map fun cpy => -cpy.opSt.seq).Nodup := by
    have hmap : (loads.map fun cpy => -cpy.opSt.seq) =
        (loads.map fun cpy => cpy.opSt.seq).map (- ·) := by
      rw [List.map_map]
      rfl
    rw [hmap]
    exact hnd.map neg_injective
  exact (sortBy_pairwise_lt hneg).imp fun h => neg_lt_neg_iff.mp h

/-- In the order of the trace the loads are turned round. -/
theorem sortBy_seq_eq :
    sortBy (fun cpy => cpy.opSt.seq) loads = (latestFirst loads).reverse :=
  sortBy_eq_reverse (latestFirst_perm loads) (latestFirst_pairwise hnd)

theorem sortBy_takeNearest_eq (left : List Int) :
    sortBy (fun cpy => cpy.opSt.seq) (takeNearest left (latestFirst loads)) =
      (takeNearest left (latestFirst loads)).reverse := by
  have hpre := takeNearest_prefix left (latestFirst loads)
  exact sortBy_eq_reverse (List.Perm.refl _) ((latestFirst_pairwise hnd).sublist hpre.sublist)

end

/-- What the third loop keeps of loads that have different sequence numbers. -/
theorem keepsEnough_keepNearest {c : Candidate}
    (hnd : (c.loadOpList.map fun cpy => cpy.opSt.seq).Nodup) :
    KeepsEnough c.loadOpList c.entry.storeOp (keepNearest c).loadOpList := by
  have hlatest := latestFirst_pairwise hnd
  have hperm := latestFirst_perm c.loadOpList
  have hpre := takeNearest_prefix (sourceAddrs c.entry.storeOp) (latestFirst c.loadOpList)
  have hkept : (keepNearest c).loadOpList =
      (takeNearest (sourceAddrs c.entry.storeOp) (latestFirst c.loadOpList)).reverse :=
    sortBy_takeNearest_eq hnd _
  rw [hkept]
  constructor
  · intro x hlo hhi ld hld hfill
    obtain ⟨d, hd, hdx, hmax⟩ := takeNearest_latest (hlatest.imp fun h => le_of_lt h)
      (mem_sourceAddrs.mpr ⟨hlo, hhi⟩) (hperm.mem_iff.mpr hld) hfill
    exact ⟨d, List.mem_reverse.mpr hd, hdx,
      fun ld' hld' => hmax ld' (hperm.mem_iff.mpr hld')⟩
  · rw [sortBy_seq_eq hnd]
    exact List.reverse_suffix.mpr hpre
  · intro seg hseg hne hcov
    rw [sortBy_seq_eq hnd] at hseg
    have hsegpre : seg.reverse <+: latestFirst c.loadOpList := by
      rw [← List.reverse_suffix, List.reverse_reverse]
      exact hseg
    obtain ⟨hall, hshort⟩ := takeNearest_shortest hsegpre
      (fun h => hne (List.reverse_eq_nil_iff.mp h))
      (coversSource_iff.mp (coversSource_reverse.mpr hcov))
    constructor
    · exact coversSource_reverse.mpr (coversSource_iff.mpr hall)
    · rw [← List.reverse_prefix, List.reverse_reverse]
      exact hshort

/-! ## The copies of an operation -/

/-- The store of a pair comes right behind the number that the pair is filed under. -/
theorem store_seq_of_memcpyPairs {op : OpTraceEntry} {k : Int}
    {pair : Option TraceEntry × Option TraceEntry}
    (h : (MechMemcpyReason.memcpyPairs op).get? k = some pair) {opSt : TraceEntry}
    (hst : pair.2 = some opSt) : opSt.seq = k + 1 := by
  rw [MechMemcpyReason.memcpyPairs] at h
  generalize op.seqEntryMap.items.flatMap Prod.snd = l at h
  induction l using List.reverseRecOn generalizing k pair with
  | nil => cases h
  | append_singleton l e ih =>
    rw [List.foldl_append, List.foldl_cons, List.foldl_nil, MechMemcpyReason.addHalf] at h
    generalize hpairs : l.foldl MechMemcpyReason.addHalf Dict.empty = pairs at h ih
    split_ifs at h
    · rw [Dict.get?_set] at h
      split_ifs at h with hk
      · obtain rfl := Option.some.inj h
        cases hget : pairs.get? e.seq with
        | none =>
          rw [hget] at hst
          cases hst
        | some old =>
          rw [hget] at hst
          rw [hk]
          exact ih (show old.2 = some opSt from hst) hget
      · exact ih hst h
    · rw [Dict.get?_set] at h
      split_ifs at h with hk
      · obtain rfl := Option.some.inj h
        obtain rfl : e = opSt := Option.some.inj hst
        omega
      · exact ih hst h
    · exact ih hst h

/-- A pair is at most one more copy, with the store of the pair. -/
theorem addPair_cases {s s' : List MechMemcpyEntry × Annotations}
    {pair : Option TraceEntry × Option TraceEntry}
    (h : MechMemcpyReason.addPair s pair = some s') :
    s'.1 = s.1 ∨ ∃ cpy, s'.1 = s.1 ++ [cpy] ∧ pair.2 = some cpy.opSt := by
  obtain ⟨ld, st⟩ := pair
  cases ld with
  | none => exact Or.inl (congrArg Prod.fst (Option.some.inj h).symm)
  | some opLd =>
    cases st with
    | none => exact Or.inl (congrArg Prod.fst (Option.some.inj h).symm)
    | some opSt =>
      obtain ⟨cpy, hcpy, rfl⟩ := Option.map_eq_some_iff.mp h
      rw [MechMemcpyEntry.new] at hcpy
      split_ifs at hcpy
      rw [← Option.some.inj hcpy]
      exact Or.inr ⟨_, rfl, rfl⟩

/-- The stores come in the order of the pairs. -/
theorem copies_sublist {items : List (Int × (Option TraceEntry × Option TraceEntry))}
    (hitems : ∀ x ∈ items, ∀ opSt, x.2.2 = some opSt → opSt.seq = x.1 + 1)
    {s s' : List MechMemcpyEntry × Annotations}
    (h : (items.map Prod.snd).foldlM MechMemcpyReason.addPair s = some s') :
    ∃ copies, s'.1 = s.1 ++ copies ∧
      (copies.map fun cpy => cpy.opSt.seq).Sublist (items.map fun x => x.1 + 1) := by
  induction items generalizing s with
  | nil =>
    obtain rfl := Option.some.inj h
    exact ⟨[], (List.append_nil _).symm, List.Sublist.slnil⟩
  | cons x rest ih =>
    rw [List.map_cons, List.foldlM_cons] at h
    obtain ⟨s₁, hs₁, h⟩ := Option.bind_eq_some_iff.mp h
    obtain ⟨copies, hcopies, hsub⟩ := ih (fun y hy => hitems y (List.mem_cons_of_mem _ hy)) h
    obtain heq | ⟨cpy, heq, hst⟩ := addPair_cases hs₁
    · exact ⟨copies, by rw [hcopies, heq], hsub.cons _⟩
    · refine ⟨cpy :: copies, by rw [hcopies, heq, List.append_assoc]; rfl, ?_⟩
      rw [List.map_cons, List.map_cons, hitems x List.mem_cons_self _ hst]
      exact hsub.cons_cons _

/-- Different copies have different stores. -/
theorem nodup_copies {op : OpTraceEntry} {a a' : Annotations} {copies : List MechMemcpyEntry}
    (h : MechMemcpyReason.run op a = some (copies, a')) :
    (copies.map fun cpy => cpy.opSt.seq).Nodup := by
  have hitems : ∀ x ∈ (MechMemcpyReason.memcpyPairs op).items, ∀ opSt, x.2.2 = some opSt →
      opSt.seq = x.1 + 1 := fun x hx opSt hst =>
    store_seq_of_memcpyPairs (Dict.get?_eq_some.mpr hx) hst
  obtain ⟨found, hfound, hsub⟩ := copies_sublist hitems h
  obtain rfl : copies = found := hfound
  have hkeys : ((MechMemcpyReason.memcpyPairs op).items.map fun x => x.1 + 1).Nodup := by
    have hmap : ((MechMemcpyReason.memcpyPairs op).items.map fun x => x.1 + 1) =
        (MechMemcpyReason.memcpyPairs op).keys.map (· + 1) := by
      rw [Dict.keys, List.map_map]
      rfl
    rw [hmap]
    exact (Dict.nodup_keys _).map (add_left_injective 1)
  exact hkeys.sublist hsub

/-! ## The replications -/

section

variable {idx : StInfoIndex} {structSet : List String} {pmAddr pmSize : Int}
  {pmstores : List MechPMStoreEntry} {copies : List MechMemcpyEntry}

theorem findLoads_eq {cpy : MechMemcpyEntry} {found : List Candidate}
    (h : candidate idx structSet pmAddr pmSize pmstores cpy = some found) {c : Candidate}
    (hc : c ∈ found) :
    (findLoads idx structSet pmAddr pmSize copies c).loadOpList =
        collectedLoads idx structSet pmAddr pmSize copies c.entry.storeOp ∧
      (findLoads idx structSet pmAddr pmSize copies c).entry = c.entry := by
  rw [findLoads, collectedLoads]
  obtain ⟨_, ⟨htype, hself⟩ | ⟨htype, hnone, _⟩⟩ := candidate_cases h hc
  · rw [htype]
    exact ⟨hself, rfl⟩
  · rw [htype, hnone]
    exact ⟨rfl, rfl⟩

theorem nodup_collectedLoads (hnd : (copies.map fun cpy => cpy.opSt.seq).Nodup)
    (repl : MechMemcpyEntry) :
    ((collectedLoads idx structSet pmAddr pmSize copies repl).map fun cpy => cpy.opSt.seq).Nodup := by
  rw [collectedLoads]
  split
  · exact List.nodup_singleton _
  · exact hnd.sublist (List.filter_sublist.map _)
  · exact List.nodup_nil

/-- The fourth loop leaves the loads. -/
theorem loads_assignStores {cs : List Candidate} {s : List Candidate × List Int}
    {P : MechMemcpyEntry → List MechMemcpyEntry → Prop}
    (hcs : ∀ c ∈ cs, P c.entry.storeOp c.loadOpList)
    (hs : ∀ c ∈ s.1, P c.entry.storeOp c.loadOpList) :
    ∀ c ∈ (cs.foldl (assignStores pmstores) s).1, P c.entry.storeOp c.loadOpList := by
  induction cs generalizing s with
  | nil => exact hs
  | cons c rest ih =>
    apply ih (fun d hd => hcs d (List.mem_cons_of_mem _ hd))
    intro d hd
    have hc := hcs c List.mem_cons_self
    rw [assignStores] at hd
    split at hd
    · obtain hd | hd := List.mem_append.mp hd
      · exact hs d hd
      · rw [List.mem_singleton.mp hd]
        exact hc
    · obtain hd | hd := List.mem_append.mp hd
      · exact hs d hd
      · rw [List.mem_singleton.mp hd]
        exact hc

/-- Every replication has kept enough of its loads, and one from DRAM copies a byte at least. -/
theorem keeps_enough {op : OpTraceEntry} {a a' : Annotations}
    (hrun : MechMemcpyReason.run op a = some (copies, a')) {cs : List Candidate}
    (h : entries idx structSet pmAddr pmSize pmstores copies = some cs) :
    ∀ c ∈ cs, KeepsEnough (collectedLoads idx structSet pmAddr pmSize copies c.entry.storeOp)
        c.entry.storeOp c.loadOpList ∧
      (c.entry.storeOp.type pmAddr pmSize = .kernelToPm → 0 < c.entry.storeOp.size) := by
  obtain ⟨found, hfound, h⟩ := Option.bind_eq_some_iff.mp h
  rw [← Option.some.inj h]
  apply @loads_assignStores pmstores _ _ (fun repl kept =>
    KeepsEnough (collectedLoads idx structSet pmAddr pmSize copies repl) repl kept ∧
      (repl.type pmAddr pmSize = .kernelToPm → 0 < repl.size))
  · intro c hc
    obtain ⟨c₀, hc₀, rfl⟩ := List.mem_map.mp (mem_sortBy.mp hc)
    obtain ⟨l, hl, hc₀⟩ := List.mem_flatten.mp hc₀
    obtain ⟨cpy, -, hcpy⟩ := exists_of_mem_mapM hfound hl
    obtain ⟨hloads, hentry⟩ := @findLoads_eq _ _ _ _ _ copies _ _ hcpy _ hc₀
    have hnd := @nodup_collectedLoads idx structSet pmAddr pmSize _ (nodup_copies hrun)
      c₀.entry.storeOp
    rw [← hloads] at hnd
    have hkeeps := keepsEnough_keepNearest hnd
    rw [hloads, hentry] at hkeeps
    have hop : (keepNearest (findLoads idx structSet pmAddr pmSize copies c₀)).entry = c₀.entry :=
      hentry
    rw [hop]
    refine ⟨hkeeps, fun htype => ?_⟩
    obtain ⟨_, ⟨hpm, _⟩ | ⟨_, _, hsize⟩⟩ := candidate_cases hcpy hc₀
    · rw [hpm] at htype
      cases htype
    · exact hsize
  · exact fun c hc => absurd hc List.not_mem_nil

end

/-! ## A replication that two loads fill -/

def dramAddr : Int := nodeAddr + 0x100000

/-- The records of a copy. -/
def setCopy (d : Dict Int (List TraceEntry)) (seq src dst size : Int) : Dict Int (List TraceEntry) :=
  (d.set seq [.plain .memTransLoad seq src size]).set (seq + 1)
    [.plain .memTransStore (seq + 1) dst size]

/-- The whole struct is loaded, then each half again, and all of it is stored. -/
def replOp : OpTraceEntry :=
  { OpTraceEntry.new (.plain .startFn 1 0 0) "write" nodeAddr 4096 0 with
    seqEntryMap := setCopy (setCopy (setCopy (setCopy Dict.empty 2 nodeAddr dramAddr 16)
      4 nodeAddr dramAddr 8) 6 (nodeAddr + 8) (dramAddr + 8) 8) 8 dramAddr (nodeAddr + 64) 16 }

def replIdx : StInfoIndex where
  structDict := nodeDict
  pidAddrToStinfoIv := Dict.empty
  annotations := fun _ => some ⟨⟨nodeAddr, "node"⟩, []⟩

def replPmstores : List MechPMStoreEntry :=
  [{ op := .plain .memTransStore 9 (nodeAddr + 64) 16, addr := nodeAddr + 64, size := 16,
     phyAddr := 64 }]

def replRun : List MechMemcpyEntry × Annotations :=
  (MechMemcpyReason.run replOp replIdx.annotations).get (by decide +kernel)

def replCandidates : List Candidate :=
  (entries replIdx ["node"] nodeAddr 4096 replPmstores replRun.1).get (by decide +kernel)

theorem keeps_enough_two_halves :
    (replCandidates.map fun c => c.loadOpList.map fun cpy => cpy.opSt.seq) = [[5, 7]] ∧
      ∀ c ∈ replCandidates, KeepsEnough
        (collectedLoads replIdx ["node"] nodeAddr 4096 replRun.1 c.entry.storeOp)
        c.entry.storeOp c.loadOpList := by
  have hrun : MechMemcpyReason.run replOp replIdx.annotations = some replRun :=
    (Option.some_get _).symm
  have hentries : entries replIdx ["node"] nodeAddr 4096 replPmstores replRun.1 =
      some replCandidates := (Option.some_get _).symm
  exact ⟨by decide +kernel, fun c hc => (keeps_enough hrun hentries c hc).1⟩

end MechReplReason
end Mech
end Silhouette
