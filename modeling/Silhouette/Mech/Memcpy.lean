import Silhouette.Layout.StInfoIndex
import Silhouette.Lib.Partners
import Silhouette.Mech.InvariantCheck
import Silhouette.Trace.SplitOpMgr

/-!
# Memory copies and the structs they copy

A memory copy is two records, a load and the store that follows it.  `MechMemcpyReason` pairs them,
and the half that has no struct takes over the annotation of the other, with its address.  None of
the other reasoners writes an annotation.
-/

namespace Silhouette
namespace Mech

open Lib Trace Layout

inductive MemcpyType where
  | pmToPm
  | pmToKernel
  | pmToUser
  | kernelToPm
  | kernelToKernel
  | kernelToUser
  | userToPm
  | userToKernel
  | userToUser
  | unknown
  deriving DecidableEq, Repr

namespace MechMemcpyEntry

def srcAddr (e : MechMemcpyEntry) : Int := e.opLd.addr

def dstAddr (e : MechMemcpyEntry) : Int := e.opSt.addr

def size (e : MechMemcpyEntry) : Int := e.opLd.size

/-- `__init_type`. -/
def type (e : MechMemcpyEntry) (pmAddr pmSize : Int) : MemcpyType :=
  let srcPm := isPmAddr e.srcAddr pmAddr pmSize
  let dstPm := isPmAddr e.dstAddr pmAddr pmSize
  let srcKn := TraceReader.isKernelSpaceAddr e.srcAddr
  let dstKn := TraceReader.isKernelSpaceAddr e.dstAddr
  if srcPm && dstPm then .pmToPm
  else if srcPm && dstKn then .pmToKernel
  else if srcPm && !dstKn then .pmToUser
  else if srcKn && dstPm then .kernelToPm
  else if srcKn && dstKn then .kernelToKernel
  else if srcKn && !dstKn then .kernelToUser
  else if !srcKn && dstPm then .userToPm
  else if !srcKn && dstKn then .userToKernel
  else .userToUser

/-- Halves of different sizes are asserted not to exist. -/
def new (opLd opSt : TraceEntry) : Option MechMemcpyEntry :=
  if opLd.size = opSt.size then some ⟨opLd, opSt⟩ else none

/-- `__sync_data_type`: a half without annotation takes over that of the other. -/
def syncDataType (opLd opSt : TraceEntry) (a : Annotations) : Annotations :=
  match a opLd, a opSt with
  | some x, none => Function.update a opSt (some x)
  | none, some x => Function.update a opLd (some x)
  | _, _ => a

end MechMemcpyEntry

namespace MechMemcpyReason

/-- File a half under the sequence number of the load. -/
def addHalf (pairs : Dict Int (Option TraceEntry × Option TraceEntry)) (op : TraceEntry) :
    Dict Int (Option TraceEntry × Option TraceEntry) :=
  if op.type.isMemTransLoad then
    pairs.set op.seq (some op, ((pairs.get? op.seq).getD (none, none)).2)
  else if op.type.isMemTransStore then
    pairs.set (op.seq - 1) (((pairs.get? (op.seq - 1)).getD (none, none)).1, some op)
  else pairs

def memcpyPairs (op : OpTraceEntry) : Dict Int (Option TraceEntry × Option TraceEntry) :=
  (op.seqEntryMap.items.flatMap Prod.snd).foldl addHalf Dict.empty

/-- One turn of the loop over the pairs.  A half without its other is only logged. -/
def addPair (s : List MechMemcpyEntry × Annotations)
    (pair : Option TraceEntry × Option TraceEntry) : Option (List MechMemcpyEntry × Annotations) :=
  match pair with
  | (some opLd, some opSt) =>
    (MechMemcpyEntry.new opLd opSt).map fun entry =>
      (s.1 ++ [entry], MechMemcpyEntry.syncDataType opLd opSt s.2)
  | _ => some s

/-- The copies of an operation, and the annotations behind them. -/
def run (op : OpTraceEntry) (a : Annotations) : Option (List MechMemcpyEntry × Annotations) :=
  (memcpyPairs op).values.foldlM addPair ([], a)

end MechMemcpyReason

/-- The reasoners that `deduce_mech` calls. -/
inductive Reasoner where
  | pmstore
  | memset
  | memcpy
  | link
  | undojnl
  | replication
  | lsw
  deriving DecidableEq, Repr

/-- What a reasoner does to the annotations. -/
def Reasoner.annotate (op : OpTraceEntry) (a : Annotations) : Reasoner → Option Annotations
  | .memcpy => (MechMemcpyReason.run op a).map Prod.snd
  | _ => some a

def runReasoners (a : Annotations) (op : OpTraceEntry) : Option Annotations :=
  [Reasoner.pmstore, .memset, .memcpy, .link, .undojnl, .replication, .lsw].foldlM
    (Reasoner.annotate op) a

theorem runReasoners_eq (a : Annotations) (op : OpTraceEntry) :
    runReasoners a op = (MechMemcpyReason.run op a).map Prod.snd := by
  cases h : MechMemcpyReason.run op a with
  | none => simp [runReasoners, Reasoner.annotate, h]
  | some s => simp [runReasoners, Reasoner.annotate, h]

/-! ## The pairs -/

/-- The two halves of a memory copy in an operation. -/
structure CopiedIn (op : OpTraceEntry) (opLd opSt : TraceEntry) : Prop where
  load : opLd ∈ op.seqEntryMap.items.flatMap Prod.snd
  store : opSt ∈ op.seqEntryMap.items.flatMap Prod.snd
  loadType : opLd.type.isMemTransLoad = true
  storeType : opSt.type.isMemTransStore = true
  seq : opSt.seq = opLd.seq + 1

/-- A sequence number has one half of a copy in it at most. -/
def OneHalf (l : List TraceEntry) : Prop :=
  ∀ x ∈ l, ∀ y ∈ l, x.seq = y.seq → (x.type.isMemTransLoad || x.type.isMemTransStore) = true →
    (y.type.isMemTransLoad || y.type.isMemTransStore) = true → x = y

theorem not_isMemTransStore_of_load {t : TraceType} (h : t.isMemTransLoad = true) :
    t.isMemTransStore = false := by
  cases t <;> revert h <;> decide

namespace MechMemcpyReason

/-- What is filed behind some of the records. -/
structure Filed (l : List TraceEntry) (pairs : Dict Int (Option TraceEntry × Option TraceEntry)) :
    Prop where
  load : ∀ k x, ((pairs.get? k).getD (none, none)).1 = some x ↔
    x ∈ l ∧ x.type.isMemTransLoad = true ∧ x.seq = k
  store : ∀ k x, ((pairs.get? k).getD (none, none)).2 = some x ↔
    x ∈ l ∧ x.type.isMemTransStore = true ∧ x.seq = k + 1

theorem filed_empty : Filed [] Dict.empty :=
  ⟨fun k x => by simp [Dict.empty, Dict.get?], fun k x => by simp [Dict.empty, Dict.get?]⟩

/-- Only what the new record satisfies is added by it. -/
theorem mem_concat_and_iff {l : List TraceEntry} {e x : TraceEntry} {p : TraceEntry → Prop}
    (h : ¬ p e) : x ∈ l ++ [e] ∧ p x ↔ x ∈ l ∧ p x := by
  constructor
  · rintro ⟨hx, hp⟩
    rcases List.mem_append.mp hx with hx | hx
    · exact ⟨hx, hp⟩
    · exact absurd (List.mem_singleton.mp hx ▸ hp) h
  · exact fun hx => ⟨List.mem_append_left _ hx.1, hx.2⟩

section

variable {l : List TraceEntry} {e : TraceEntry}
  {pairs : Dict Int (Option TraceEntry × Option TraceEntry)}

/-- A record that is no load of a pair leaves its load as it is. -/
theorem Filed.load_concat (h : Filed l pairs) {k : Int}
    (hno : e.type.isMemTransLoad = true → e.seq ≠ k) (x : TraceEntry) :
    ((pairs.get? k).getD (none, none)).1 = some x ↔
      x ∈ l ++ [e] ∧ x.type.isMemTransLoad = true ∧ x.seq = k := by
  have hnot : ¬ (e.type.isMemTransLoad = true ∧ e.seq = k) := fun hp => hno hp.1 hp.2
  exact (h.load k x).trans (@mem_concat_and_iff l e x
    (fun x => x.type.isMemTransLoad = true ∧ x.seq = k) hnot).symm

theorem Filed.store_concat (h : Filed l pairs) {k : Int}
    (hno : e.type.isMemTransStore = true → e.seq ≠ k + 1) (x : TraceEntry) :
    ((pairs.get? k).getD (none, none)).2 = some x ↔
      x ∈ l ++ [e] ∧ x.type.isMemTransStore = true ∧ x.seq = k + 1 := by
  have hnot : ¬ (e.type.isMemTransStore = true ∧ e.seq = k + 1) := fun hp => hno hp.1 hp.2
  exact (h.store k x).trans (@mem_concat_and_iff l e x
    (fun x => x.type.isMemTransStore = true ∧ x.seq = k + 1) hnot).symm

/-- A load is filed beside the store that is there. -/
theorem store_set_load (pairs : Dict Int (Option TraceEntry × Option TraceEntry)) (j k : Int)
    (ld : Option TraceEntry) :
    (((pairs.set j (ld, ((pairs.get? j).getD (none, none)).2)).get? k).getD (none, none)).2 =
      ((pairs.get? k).getD (none, none)).2 := by
  rw [Dict.get?_set]
  split_ifs with hk
  · rw [hk]
    rfl
  · rfl

theorem load_set_store (pairs : Dict Int (Option TraceEntry × Option TraceEntry)) (j k : Int)
    (st : Option TraceEntry) :
    (((pairs.set j (((pairs.get? j).getD (none, none)).1, st)).get? k).getD (none, none)).1 =
      ((pairs.get? k).getD (none, none)).1 := by
  rw [Dict.get?_set]
  split_ifs with hk
  · rw [hk]
    rfl
  · rfl

theorem Filed.addLoad (h : Filed l pairs) (hone : OneHalf (l ++ [e]))
    (hld : e.type.isMemTransLoad = true) :
    Filed (l ++ [e]) (pairs.set e.seq (some e, ((pairs.get? e.seq).getD (none, none)).2)) where
  load := by
    intro k x
    rw [Dict.get?_set]
    by_cases hk : k = e.seq
    · rw [if_pos hk, Option.getD_some, Option.some.injEq]
      have hlast : e ∈ l ++ [e] := List.mem_append_right _ (List.mem_singleton_self e)
      constructor
      · rintro rfl
        exact ⟨hlast, hld, hk.symm⟩
      · rintro ⟨hx, hxl, hxs⟩
        exact hone e hlast x hx (hk.symm.trans hxs.symm) (by rw [hld]; rfl) (by rw [hxl]; rfl)
    · rw [if_neg hk]
      exact h.load_concat (fun _ heq => hk heq.symm) x
  store := by
    intro k x
    have hst := not_isMemTransStore_of_load hld
    rw [store_set_load]
    exact h.store_concat (fun hst' => absurd (hst.symm.trans hst') Bool.false_ne_true) x

theorem Filed.addStore (h : Filed l pairs) (hone : OneHalf (l ++ [e]))
    (hld : ¬ e.type.isMemTransLoad = true) (hst : e.type.isMemTransStore = true) :
    Filed (l ++ [e])
      (pairs.set (e.seq - 1) (((pairs.get? (e.seq - 1)).getD (none, none)).1, some e)) where
  load := by
    intro k x
    rw [load_set_store]
    exact h.load_concat (fun hld' => absurd hld' hld) x
  store := by
    intro k x
    rw [Dict.get?_set]
    by_cases hk : k = e.seq - 1
    · rw [if_pos hk, Option.getD_some, Option.some.injEq]
      have hlast : e ∈ l ++ [e] := List.mem_append_right _ (List.mem_singleton_self e)
      constructor
      · rintro rfl
        exact ⟨hlast, hst, by omega⟩
      · rintro ⟨hx, hxt, hxs⟩
        exact hone e hlast x hx (by omega) (by rw [hst, Bool.or_true]) (by rw [hxt, Bool.or_true])
    · rw [if_neg hk]
      exact h.store_concat (fun _ => by omega) x

theorem Filed.addHalf (h : Filed l pairs) (hone : OneHalf (l ++ [e])) :
    Filed (l ++ [e]) (MechMemcpyReason.addHalf pairs e) := by
  rw [MechMemcpyReason.addHalf]
  by_cases hld : e.type.isMemTransLoad = true
  · rw [if_pos hld]
    exact h.addLoad hone hld
  · rw [if_neg hld]
    by_cases hst : e.type.isMemTransStore = true
    · rw [if_pos hst]
      exact h.addStore hone hld hst
    · rw [if_neg hst]
      exact ⟨fun k x => h.load_concat (fun hld' => absurd hld' hld) x,
        fun k x => h.store_concat (fun hst' => absurd hst' hst) x⟩

end

theorem filed_foldl {l : List TraceEntry} (hone : OneHalf l) :
    Filed l (l.foldl MechMemcpyReason.addHalf Dict.empty) := by
  induction l using List.reverseRecOn with
  | nil => exact filed_empty
  | append_singleton l e ih =>
    rw [List.foldl_append]
    refine (ih fun x hx y hy => ?_).addHalf hone
    exact hone x (List.mem_append_left _ hx) y (List.mem_append_left _ hy)

/-- The pairs are the copies. -/
theorem mem_memcpyPairs {op : OpTraceEntry}
    (hone : OneHalf (op.seqEntryMap.items.flatMap Prod.snd)) {opLd opSt : TraceEntry} :
    (some opLd, some opSt) ∈ (memcpyPairs op).values ↔ CopiedIn op opLd opSt := by
  have hfiled := filed_foldl hone
  constructor
  · intro h
    obtain ⟨x, hx, hval⟩ := List.mem_map.mp h
    have hget : (memcpyPairs op).get? x.1 = some (some opLd, some opSt) :=
      Dict.get?_eq_some.mpr (hval ▸ hx)
    obtain ⟨hl, hlt, hls⟩ := (hfiled.load x.1 opLd).mp (by rw [← memcpyPairs, hget]; rfl)
    obtain ⟨hs, hst, hss⟩ := (hfiled.store x.1 opSt).mp (by rw [← memcpyPairs, hget]; rfl)
    exact ⟨hl, hs, hlt, hst, by omega⟩
  · intro h
    have hld := (hfiled.load opLd.seq opLd).mpr ⟨h.load, h.loadType, rfl⟩
    have hst := (hfiled.store opLd.seq opSt).mpr ⟨h.store, h.storeType, h.seq⟩
    rw [← memcpyPairs] at hld hst
    cases hget : (memcpyPairs op).get? opLd.seq with
    | none =>
      rw [hget] at hld
      exact absurd hld (by simp)
    | some p =>
      rw [hget, Option.getD_some] at hld hst
      have hp : p = (some opLd, some opSt) := Prod.ext hld hst
      exact List.mem_map.mpr ⟨_, Dict.get?_eq_some.mp (hp ▸ hget), rfl⟩

end MechMemcpyReason

/-! ## What the annotations are behind a run -/

/-- A pair with both halves. -/
def bothHalves (pair : Option TraceEntry × Option TraceEntry) : Option (TraceEntry × TraceEntry) :=
  pair.1.bind fun opLd => pair.2.map fun opSt => (opLd, opSt)

/-- The copies of an operation, as the loop finds them. -/
def copiesOf (op : OpTraceEntry) : List (TraceEntry × TraceEntry) :=
  (MechMemcpyReason.memcpyPairs op).values.filterMap bothHalves

theorem mem_copiesOf {op : OpTraceEntry}
    (hone : OneHalf (op.seqEntryMap.items.flatMap Prod.snd)) {p : TraceEntry × TraceEntry} :
    p ∈ copiesOf op ↔ CopiedIn op p.1 p.2 := by
  rw [← MechMemcpyReason.mem_memcpyPairs hone, copiesOf, List.mem_filterMap]
  constructor
  · rintro ⟨⟨ld, st⟩, hmem, h⟩
    obtain ⟨opLd, rfl, h⟩ := Option.bind_eq_some_iff.mp h
    obtain ⟨opSt, rfl, rfl⟩ := Option.map_eq_some_iff.mp h
    exact hmem
  · exact fun hmem => ⟨_, hmem, rfl⟩

theorem syncDataType_eq_share (opLd opSt : TraceEntry) (a : Annotations) :
    MechMemcpyEntry.syncDataType opLd opSt a = share a (opLd, opSt) := by
  rw [MechMemcpyEntry.syncDataType, share]
  cases a opLd <;> cases a opSt <;> rfl

theorem addPair_eq {pair : Option TraceEntry × Option TraceEntry}
    {s s' : List MechMemcpyEntry × Annotations}
    (h : MechMemcpyReason.addPair s pair = some s') :
    s'.2 = (bothHalves pair).toList.foldl share s.2 := by
  obtain ⟨ld, st⟩ := pair
  cases ld with
  | none => exact congrArg Prod.snd (Option.some.inj h).symm
  | some opLd =>
    cases st with
    | none => exact congrArg Prod.snd (Option.some.inj h).symm
    | some opSt =>
      obtain ⟨entry, -, rfl⟩ := Option.map_eq_some_iff.mp h
      exact syncDataType_eq_share opLd opSt s.2

/-- A run that does not fail shares the annotation of every pair. -/
theorem foldlM_addPair {pairs : List (Option TraceEntry × Option TraceEntry)}
    {s s' : List MechMemcpyEntry × Annotations}
    (h : pairs.foldlM MechMemcpyReason.addPair s = some s') :
    s'.2 = (pairs.filterMap bothHalves).foldl share s.2 := by
  induction pairs generalizing s with
  | nil =>
    rw [← Option.some.inj h]
    rfl
  | cons pair rest ih =>
    rw [List.foldlM_cons] at h
    obtain ⟨s₁, h₁, h⟩ := Option.bind_eq_some_iff.mp h
    rw [ih h, addPair_eq h₁, ← List.foldl_append, List.filterMap_cons]
    cases bothHalves pair <;> rfl

theorem runReasoners_eq_foldl {ops : List OpTraceEntry} {a a' : Annotations}
    (h : ops.foldlM runReasoners a = some a') : a' = (ops.flatMap copiesOf).foldl share a := by
  induction ops generalizing a with
  | nil => exact (Option.some.inj h).symm
  | cons op rest ih =>
    rw [List.foldlM_cons] at h
    obtain ⟨a₁, h₁, h⟩ := Option.bind_eq_some_iff.mp h
    rw [runReasoners_eq] at h₁
    obtain ⟨s, hs, rfl⟩ := Option.map_eq_some_iff.mp h₁
    rw [ih h, foldlM_addPair hs, List.flatMap_cons, List.foldl_append]
    rfl

section

variable {r : TraceReader}

/-- A half of a copy is the record of its sequence number. -/
theorem eq_of_half (hl : r.Loaded) {op op' : OpTraceEntry} (hop : FromTrace r op)
    (hop' : FromTrace r op') {x y : TraceEntry} (hx : x ∈ op.seqEntryMap.items.flatMap Prod.snd)
    (hy : y ∈ op'.seqEntryMap.items.flatMap Prod.snd) (hseq : x.seq = y.seq)
    (hhalf : (x.type.isMemTransLoad || x.type.isMemTransStore) = true)
    (hhalf' : (y.type.isMemTransLoad || y.type.isMemTransStore) = true) : x = y := by
  have hrecord : ∀ {op : OpTraceEntry}, FromTrace r op → ∀ {z : TraceEntry},
      z ∈ op.seqEntryMap.items.flatMap Prod.snd →
      (z.type.isMemTransLoad || z.type.isMemTransStore) = true →
      (z.seq, z.getEntryList) ∈ r.seqEntryMap.items := by
    intro op hop z hz hhalf
    obtain ⟨item, hitem, hz⟩ := List.mem_flatMap.mp hz
    obtain ⟨e, rfl⟩ := hl.item item (hop item hitem)
    rcases TraceEntry.mem_getEntryList.mp hz with rfl | ⟨-, rfl⟩
    · exact hop _ hitem
    · exact absurd (show (TraceType.asmFlush.isMemTransLoad ||
        TraceType.asmFlush.isMemTransStore) = true from hhalf) (by decide)
  have hgx := Dict.get?_eq_some.mpr (hrecord hop hx hhalf)
  have hgy := Dict.get?_eq_some.mpr (hrecord hop' hy hhalf')
  rw [hseq, hgy, Option.some.injEq] at hgx
  have hhead := x.head?_getEntryList
  rw [← hgx, y.head?_getEntryList, Option.some.injEq] at hhead
  exact hhead.symm

theorem oneHalf_of_fromTrace (hl : r.Loaded) {op : OpTraceEntry} (hop : FromTrace r op) :
    OneHalf (op.seqEntryMap.items.flatMap Prod.snd) :=
  fun _ hx _ hy hseq hhalf hhalf' => eq_of_half hl hop hop hx hy hseq hhalf hhalf'

/-- A record is a half of one copy at most. -/
theorem matching_copies (hl : r.Loaded) {ops : List OpTraceEntry}
    (hops : ∀ op ∈ ops, FromTrace r op) : Matching (ops.flatMap copiesOf) := by
  have hcopied : ∀ x y, (x, y) ∈ ops.flatMap copiesOf → ∃ op ∈ ops, CopiedIn op x y := by
    intro x y h
    obtain ⟨op, hop, h⟩ := List.mem_flatMap.mp h
    exact ⟨op, hop, (mem_copiesOf (oneHalf_of_fromTrace hl (hops op hop))).mp h⟩
  rintro x y z (hy | hy) (hz | hz)
  · obtain ⟨op, hop, hy⟩ := hcopied x y hy
    obtain ⟨op', hop', hz⟩ := hcopied x z hz
    refine eq_of_half hl (hops op hop) (hops op' hop') hy.store hz.store ?_ ?_ ?_
    · rw [hy.seq, hz.seq]
    · rw [hy.storeType, Bool.or_true]
    · rw [hz.storeType, Bool.or_true]
  · obtain ⟨op, hop, hy⟩ := hcopied x y hy
    obtain ⟨op', hop', hz⟩ := hcopied z x hz
    exact absurd hz.storeType (by rw [not_isMemTransStore_of_load hy.loadType]; simp)
  · obtain ⟨op, hop, hy⟩ := hcopied y x hy
    obtain ⟨op', hop', hz⟩ := hcopied x z hz
    exact absurd hy.storeType (by rw [not_isMemTransStore_of_load hz.loadType]; simp)
  · obtain ⟨op, hop, hy⟩ := hcopied y x hy
    obtain ⟨op', hop', hz⟩ := hcopied z x hz
    refine eq_of_half hl (hops op hop) (hops op' hop') hy.load hz.load ?_ ?_ ?_
    · have hy := hy.seq
      have hz := hz.seq
      omega
    · rw [hy.loadType, Bool.true_or]
    · rw [hz.loadType, Bool.true_or]

end

/-- If one half of a copy has a struct and the other has none, the struct is around the other as
well. -/
structure CopyInside (structDict : Dict String StructEntry) (a : Annotations)
    (opLd opSt : TraceEntry) : Prop where
  toStore : ∀ x, a opLd = some x → a opSt = none →
    x.stinfoMatch.contains structDict opSt.addr (opSt.addr + opSt.size) = true
  toLoad : ∀ x, a opSt = some x → a opLd = none →
    x.stinfoMatch.contains structDict opLd.addr (opLd.addr + opLd.size) = true

/-- The annotations stay around their records exactly when every copy inherits a struct that is
around both of its halves. -/
theorem annotations_contained_iff {lines : List TraceEntry} {r : TraceReader}
    (hload : TraceReader.load lines = some r) {limit : Nat} {iv : IvQueries}
    {structDict : Dict String StructEntry} {idx : StInfoIndex}
    (hidx : StInfoIndex.new limit iv r structDict = some idx) {vfsOpInfo : String → Bool}
    {ops : List OpTraceEntry} (hops : SplitOpMgr.splitTrace r vfsOpInfo = some ops)
    {run : List OpTraceEntry} (hrun : run ⊆ ops) {a : Annotations}
    (ha : run.foldlM runReasoners idx.annotations = some a) :
    Contained idx.structDict a ↔ ∀ op ∈ run, ∀ opLd opSt, CopiedIn op opLd opSt →
      CopyInside idx.structDict idx.annotations opLd opSt := by
  have hl := TraceReader.loaded_of_load hload
  have hfrom : ∀ op ∈ run, FromTrace r op := fun op hop =>
    SplitOpMgr.fromTrace_of_splitTrace hl hops op (hrun hop)
  have hmatch := matching_copies hl hfrom
  have hpairs : ∀ x y, (x, y) ∈ run.flatMap copiesOf ↔ ∃ op ∈ run, CopiedIn op x y := by
    intro x y
    rw [List.mem_flatMap]
    exact exists_congr fun op => and_congr_right fun hop =>
      mem_copiesOf (p := (x, y)) (oneHalf_of_fromTrace hl (hfrom op hop))
  have hfinal : ∀ e x, a e = some x ↔ idx.annotations e = some x ∨
      idx.annotations e = none ∧ ∃ e', Partner (run.flatMap copiesOf) e e' ∧
        idx.annotations e' = some x := by
    intro e x
    rw [runReasoners_eq_foldl ha]
    exact foldl_share_eq_some_iff hmatch idx.annotations
  constructor
  · intro h op hop opLd opSt hcopy
    have hmem := (hpairs opLd opSt).mpr ⟨op, hop, hcopy⟩
    exact ⟨fun x hx hnone => h opSt x ((hfinal opSt x).mpr
        (Or.inr ⟨hnone, opLd, Or.inr hmem, hx⟩)),
      fun x hx hnone => h opLd x ((hfinal opLd x).mpr
        (Or.inr ⟨hnone, opSt, Or.inl hmem, hx⟩))⟩
  · intro h e x hx
    rcases (hfinal e x).mp hx with hx | ⟨hnone, e', hmem | hmem, hx⟩
    · exact contained_index hidx e x hx
    · obtain ⟨op, hop, hcopy⟩ := (hpairs e e').mp hmem
      exact (h op hop e e' hcopy).toLoad x hx hnone
    · obtain ⟨op, hop, hcopy⟩ := (hpairs e' e).mp hmem
      exact (h op hop e' e hcopy).toStore x hx hnone

/-- Look through all intervals. -/
def listQueries : IvQueries where
  point l p :=
    match l.filter fun x => x.1 ≤ p ∧ p < x.2.1 with
    | [] => []
    | found => [(found.map fun x => x.2.2).dedup]
  overlap l lo hi :=
    (l.filter fun x => lo < hi ∧ x.1 < hi ∧ lo < x.2.1).map fun x => x.2.2

/-- A struct of two words. -/
def nodeDict : Dict String StructEntry :=
  Dict.empty.set "node" ⟨some ⟨"node", 128, 16⟩,
    [⟨"node", "long", "long", "value", 64, 8, 0, 0, false, false⟩,
      ⟨"node", "long", "long", "next", 64, 8, 64, 8, false, false⟩]⟩

def nodeAddr : Int := 0x8000000000000000

/-- An operation that copies the first word of a struct to an address. -/
def copyLines (dst : Int) : List TraceEntry :=
  [.plain .daxDevInfo 0 nodeAddr 4096,
    { TraceEntry.plain .startFn 1 0 0 with fnName := "write" },
    { TraceEntry.plain .pmStPtr 2 nodeAddr 16 with stName := "node" },
    .plain .memTransLoad 3 nodeAddr 8, .plain .memTransStore 4 dst 8,
    { TraceEntry.plain .endFn 5 0 0 with fnName := "write" }]

/-- The copy goes to the second word. -/
def insideReader : TraceReader := (TraceReader.load (copyLines (nodeAddr + 8))).get (by decide +kernel)

def insideIndex : StInfoIndex :=
  (StInfoIndex.new 1000 listQueries insideReader nodeDict).get (by decide +kernel)

def insideOps : List OpTraceEntry :=
  (SplitOpMgr.splitTrace insideReader fun name => name = "write").get (by decide +kernel)

def insideAnnotations : Annotations :=
  (insideOps.foldlM runReasoners insideIndex.annotations).get (by decide +kernel)

theorem annotations_contained_inside :
    (insideAnnotations (.plain .memTransStore 4 (nodeAddr + 8) 8)).isSome ∧
      Contained insideIndex.structDict insideAnnotations := by
  refine ⟨by decide +kernel, (annotations_contained_iff (Option.some_get _).symm
    (Option.some_get _).symm (Option.some_get _).symm (List.Subset.refl insideOps)
    (Option.some_get _).symm).mpr ?_⟩
  have hhalves : ∀ op ∈ insideOps, ∀ e ∈ op.seqEntryMap.items.flatMap Prod.snd,
      (e.type.isMemTransLoad || e.type.isMemTransStore) = true →
        insideIndex.annotations e ≠ none := by decide +kernel
  intro op hop opLd opSt hcopy
  refine ⟨fun x _ hnone => absurd hnone (hhalves op hop opSt hcopy.store ?_),
    fun x _ hnone => absurd hnone (hhalves op hop opLd hcopy.load ?_)⟩
  · rw [hcopy.storeType, Bool.or_true]
  · rw [hcopy.loadType, Bool.true_or]

/-- The copy goes to memory that no struct is known for. -/
def outsideReader : TraceReader :=
  (TraceReader.load (copyLines (nodeAddr + 64))).get (by decide +kernel)

def outsideIndex : StInfoIndex :=
  (StInfoIndex.new 1000 listQueries outsideReader nodeDict).get (by decide +kernel)

def outsideOps : List OpTraceEntry :=
  (SplitOpMgr.splitTrace outsideReader fun name => name = "write").get (by decide +kernel)

def outsideAnnotations : Annotations :=
  (outsideOps.foldlM runReasoners outsideIndex.annotations).get (by decide +kernel)

/-- The store is annotated with the struct it was copied from. -/
theorem copy_annotated_elsewhere :
    TraceReader.load (copyLines (nodeAddr + 64)) = some outsideReader ∧
    StInfoIndex.new 1000 listQueries outsideReader nodeDict = some outsideIndex ∧
    SplitOpMgr.splitTrace outsideReader (fun name => name = "write") = some outsideOps ∧
    outsideOps.foldlM runReasoners outsideIndex.annotations = some outsideAnnotations ∧
    ¬ Contained outsideIndex.structDict outsideAnnotations := by
  refine ⟨(Option.some_get _).symm, (Option.some_get _).symm, (Option.some_get _).symm,
    (Option.some_get _).symm, fun h => ?_⟩
  have hout : (outsideAnnotations (.plain .memTransStore 4 (nodeAddr + 64) 8)).any (fun x =>
      !x.stinfoMatch.contains outsideIndex.structDict (nodeAddr + 64) (nodeAddr + 64 + 8)) = true := by
    decide +kernel
  obtain ⟨x, hx, hnot⟩ := (Option.any_eq_true _ _).mp hout
  have hin := h _ x hx
  rw [show (TraceEntry.plain .memTransStore 4 (nodeAddr + 64) 8).addr = nodeAddr + 64 from rfl,
    show (TraceEntry.plain .memTransStore 4 (nodeAddr + 64) 8).size = 8 from rfl] at hin
  rw [hin] at hnot
  exact absurd hnot (by decide)

end Mech
end Silhouette
