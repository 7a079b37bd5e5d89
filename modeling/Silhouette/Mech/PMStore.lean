import Silhouette.Lib.IntervalTree
import Silhouette.OpTrace.Window

/-!
# The flushes and fences of a store

`MechPMStoreEntry` and `MechPMStoreReason`.  For every store in persistent memory they
find the flushes that cover its bytes, by chopping the flushed ranges out of an interval
tree, and the fences behind the store and behind its last flush.
-/

namespace Silhouette
namespace Mech

open Lib Lib.Persist Cache Trace OpTrace

structure MechPMStoreEntry where
  op : TraceEntry
  addr : Int
  size : Int
  /-- The physical address in persistent memory. -/
  phyAddr : Int
  /-- The operations that flush this store; could be more than one. -/
  flushOp : List TraceEntry := []
  fenceOp : Option TraceEntry := none
  /-- The first fence behind the store, which may not be `fenceOp`. -/
  firstFenceOp : Option TraceEntry := none
  deriving DecidableEq

namespace MechPMStoreEntry

def new (op : TraceEntry) (splitEntry : OpTraceEntry) : MechPMStoreEntry :=
  { op := op
    addr := op.addr
    size := op.size
    phyAddr := op.addr - splitEntry.pmAddr }

section

variable {τ : Type} (iv : IntervalTree τ)

/-- The loop of `init_flush`: chop the flushes that meet what is left, until nothing is. -/
def chopFlushes (seq : Int) : List TraceEntry → τ → List TraceEntry → τ × List TraceEntry
  | [], t, flushOp => (t, flushOp)
  | flush :: rest, t, flushOp =>
    if iv.isEmpty t then (t, flushOp)
    else if flush.seq ≥ seq then
      if iv.overlap t flush.addr (flush.addr + flush.size) then
        chopFlushes seq rest (iv.chop t flush.addr (flush.addr + flush.size)) (flushOp ++ [flush])
      else chopFlushes seq rest t flushOp
    else chopFlushes seq rest t flushOp

/-- Unless all bytes are flushed, the flushes found are dropped. -/
def initFlush (e : MechPMStoreEntry) (flushList : List TraceEntry) : Option MechPMStoreEntry :=
  (iv.ofRange e.addr (e.addr + e.size)).map fun t =>
    let res := chopFlushes iv e.op.seq flushList t e.flushOp
    { e with flushOp := sortBy TraceEntry.seq (if iv.isEmpty res.1 then res.2 else []) }

end

/-- The loop of `init_fence`: the first fence behind the store and the one behind its last
flush, where it stops. -/
def scanFences (seq lastFlushSeq : Int) :
    List TraceEntry → Option TraceEntry → Option TraceEntry × Option TraceEntry
  | [], first => (first, none)
  | fence :: rest, first =>
    let first := if first = none ∧ fence.seq ≥ seq then some fence else first
    if fence.seq ≥ lastFlushSeq then (first, some fence)
    else scanFences seq lastFlushSeq rest first

def initFence (e : MechPMStoreEntry) (fenceList : List TraceEntry) : MechPMStoreEntry :=
  match e.flushOp.getLast? with
  | none => e
  | some flush =>
    let res := scanFences e.op.seq flush.seq fenceList e.firstFenceOp
    { e with firstFenceOp := res.1, fenceOp := res.2.or e.fenceOp }

end MechPMStoreEntry

/-- The entries of an operation, by the sequence numbers `finalize` sorted. -/
def sortedEntries (splitEntry : OpTraceEntry) : Option (List TraceEntry) :=
  (splitEntry.pmSortedSeq.mapM splitEntry.pmSeqEntryMap.get?).map List.flatten

/-- The stores with their flushes and fences.  An empty byte range is refused already when
the store is filed by address. -/
def MechPMStoreReason.entryList {τ : Type} (iv : IntervalTree τ) (splitEntry : OpTraceEntry) :
    Option (List MechPMStoreEntry) := do
  let ops ← sortedEntries splitEntry
  let flushList := ops.filter fun op => op.type.isFlushTy
  let fenceList := ops.filter fun op => op.type.isFenceTy
  (ops.filter fun op => op.type.isStoreSeries).mapM fun op =>
    ((MechPMStoreEntry.new op splitEntry).initFlush iv flushList).map fun e =>
      e.initFence fenceList

/-! ## Fences in order -/

/-- The loop stops at the first fence behind the last flush, and has seen the first behind the store
by then. -/
theorem scanFences_eq {seq last : Int} (hle : seq ≤ last) (l : List TraceEntry)
    (first : Option TraceEntry) :
    MechPMStoreEntry.scanFences seq last l first =
      (first.or (l.find? fun g => g.seq ≥ seq), l.find? fun g => g.seq ≥ last) := by
  induction l generalizing first with
  | nil => cases first <;> rfl
  | cons g rest ih =>
    have hcons : ∀ x : Int, (g :: rest).find? (fun g => g.seq ≥ x) =
        if g.seq ≥ x then some g else rest.find? fun g => g.seq ≥ x := by
      intro x
      rw [List.find?_cons]
      by_cases hx : g.seq ≥ x <;> simp [hx]
    rw [MechPMStoreEntry.scanFences, hcons, hcons]
    by_cases hlast : g.seq ≥ last
    · have hseq : g.seq ≥ seq := hle.trans hlast
      rw [if_pos hlast, if_pos hlast, if_pos hseq]
      cases first <;> simp [hseq]
    · rw [if_neg hlast, if_neg hlast, ih]
      by_cases hseq : g.seq ≥ seq
      · rw [if_pos hseq]
        cases first <;> simp [hseq]
      · rw [if_neg hseq]
        simp [hseq]

theorem initFence_eq {e : MechPMStoreEntry} {f : TraceEntry} (hlast : e.flushOp.getLast? = some f)
    (hfirst : e.firstFenceOp = none) (hfence : e.fenceOp = none) (hle : e.op.seq ≤ f.seq)
    (l : List TraceEntry) :
    e.initFence l = { e with
      firstFenceOp := l.find? fun g => g.seq ≥ e.op.seq
      fenceOp := l.find? fun g => g.seq ≥ f.seq } := by
  simp only [MechPMStoreEntry.initFence, hlast, hfirst, hfence, scanFences_eq hle, Option.or_none,
    Option.none_or]

/-! ## Flushes that cover a store -/

/-- The flush has the byte. -/
def Flushes (f : TraceEntry) (a : Int) : Prop := f.addr ≤ a ∧ a < f.addr + f.size

/-- The flushes issued from the store on have all its bytes. -/
def Covered (st : TraceEntry) (flushes : List TraceEntry) : Prop :=
  ∀ a, st.addr ≤ a → a < st.addr + st.size → ∃ f ∈ flushes, st.seq ≤ f.seq ∧ Flushes f a

/-- In the order of the list, the store is covered with this flush and not before it. -/
def Completes (st : TraceEntry) (flushes : List TraceEntry) (f : TraceEntry) : Prop :=
  ∃ before after, flushes = before ++ f :: after ∧ ¬ Covered st before ∧ Covered st (before ++ [f])

/-- The first of the fences from a sequence number on, and nothing when there is none. -/
def IsNext (fences : List TraceEntry) (seq : Int) : Option TraceEntry → Prop
  | none => ∀ g ∈ fences, g.seq < seq
  | some g => ∃ before after, fences = before ++ g :: after ∧ (∀ x ∈ before, x.seq < seq) ∧
      seq ≤ g.seq

theorem isNext_find? (fences : List TraceEntry) (seq : Int) :
    IsNext fences seq (fences.find? fun g => g.seq ≥ seq) := by
  cases hg : fences.find? fun g => g.seq ≥ seq with
  | none =>
    intro g hmem
    have hnot := List.find?_eq_none.mp hg g hmem
    simpa using hnot
  | some g =>
    obtain ⟨hseq, before, after, hsplit, hbefore⟩ := List.find?_eq_some_iff_append.mp hg
    refine ⟨before, after, hsplit, fun x hx => ?_, of_decide_eq_true hseq⟩
    have hnot := hbefore x hx
    simpa using hnot

namespace Completes

variable {st f : TraceEntry} {flushes : List TraceEntry}

theorem covered (h : Completes st flushes f) : Covered st flushes := by
  obtain ⟨before, after, rfl, -, hwith⟩ := h
  intro a hlo hhi
  obtain ⟨x, hx, hxa⟩ := hwith a hlo hhi
  rw [List.append_cons]
  exact ⟨x, List.mem_append_left _ hx, hxa⟩

/-- The flush has a byte that those before it have not. -/
theorem exists_byte (h : Completes st flushes f) : ∃ before after, flushes = before ++ f :: after ∧
    Covered st (before ++ [f]) ∧ st.seq ≤ f.seq ∧ ∃ a, st.addr ≤ a ∧ a < st.addr + st.size ∧
      Flushes f a ∧ ∀ x ∈ before, st.seq ≤ x.seq → ¬ Flushes x a := by
  obtain ⟨before, after, hsplit, hbefore, hwith⟩ := h
  rw [Covered] at hbefore
  push Not at hbefore
  obtain ⟨a, hlo, hhi, hnone⟩ := hbefore
  obtain ⟨x, hx, hseq, hxa⟩ := hwith a hlo hhi
  rcases List.mem_append.mp hx with hx | hx
  · exact absurd hxa (hnone x hx hseq)
  · rw [List.mem_singleton.mp hx] at hseq hxa
    exact ⟨before, after, hsplit, hwith, hseq, a, hlo, hhi, hxa, hnone⟩

theorem seq_le (h : Completes st flushes f) : st.seq ≤ f.seq := by
  obtain ⟨before, after, -, -, hseq, -⟩ := h.exists_byte
  exact hseq

end Completes

section

variable {τ : Type} {iv : IntervalTree τ} {points : τ → Set Int}

theorem chopFlushes_of_isEmpty {t : τ} (h : iv.isEmpty t = true) (seq : Int)
    (l flushOp : List TraceEntry) :
    MechPMStoreEntry.chopFlushes iv seq l t flushOp = (t, flushOp) := by
  cases l with
  | nil => rfl
  | cons flush rest => rw [MechPMStoreEntry.chopFlushes, if_pos h]

/-- A round of the loop: a flush is taken when something it has is left. -/
theorem chopFlushes_cons {t : τ} (hne : ¬ iv.isEmpty t = true) (seq : Int) (g : TraceEntry)
    (rest flushOp : List TraceEntry) :
    MechPMStoreEntry.chopFlushes iv seq (g :: rest) t flushOp =
      if seq ≤ g.seq ∧ iv.overlap t g.addr (g.addr + g.size) = true then
        MechPMStoreEntry.chopFlushes iv seq rest (iv.chop t g.addr (g.addr + g.size))
          (flushOp ++ [g])
      else MechPMStoreEntry.chopFlushes iv seq rest t flushOp := by
  rw [MechPMStoreEntry.chopFlushes, if_neg hne]
  by_cases hseq : seq ≤ g.seq
  · rw [if_pos hseq]
    simp only [hseq, true_and]
  · rw [if_neg hseq, if_neg fun h => hseq h.1]

/-- A flush that is passed over has nothing that is left. -/
theorem not_flushes_of_not_overlap (hiv : iv.Lawful points) {t : τ} {g : TraceEntry}
    (h : ¬ iv.overlap t g.addr (g.addr + g.size) = true) {a : Int} (ha : a ∈ points t) :
    ¬ Flushes g a :=
  fun hga => h ((hiv.overlap_iff t _ _).mpr ⟨a, ha, hga⟩)

theorem mem_points_chop (hiv : iv.Lawful points) {t : τ} {g : TraceEntry}
    (h : iv.overlap t g.addr (g.addr + g.size) = true) {a : Int} :
    a ∈ points (iv.chop t g.addr (g.addr + g.size)) ↔ a ∈ points t ∧ ¬ Flushes g a := by
  obtain ⟨b, -, hb⟩ := (hiv.overlap_iff t _ _).mp h
  rw [hiv.points_chop t (lt_of_le_of_lt hb.1 hb.2)]
  rfl

/-- A byte that no flush has is left in the end. -/
theorem chopFlushes_left (hiv : iv.Lawful points) {seq a : Int} {l : List TraceEntry}
    (hl : ∀ f ∈ l, seq ≤ f.seq → ¬ Flushes f a) {t : τ} (ha : a ∈ points t)
    (flushOp : List TraceEntry) :
    a ∈ points (MechPMStoreEntry.chopFlushes iv seq l t flushOp).1 := by
  induction l generalizing t flushOp with
  | nil => exact ha
  | cons g rest ih =>
    obtain ⟨hg, hrest⟩ := List.forall_mem_cons.mp hl
    by_cases hempty : iv.isEmpty t = true
    · rw [chopFlushes_of_isEmpty hempty]
      exact ha
    rw [chopFlushes_cons hempty]
    split_ifs with htake
    · exact ih hrest ((mem_points_chop hiv htake.2).mpr ⟨ha, hg htake.1⟩) _
    · exact ih hrest ha _

/-- When the flushes have all bytes, the loop ends with the flush that has the last of them. -/
theorem chopFlushes_stop (hiv : iv.Lawful points) {seq : Int} {l : List TraceEntry} {t : τ}
    (hne : (points t).Nonempty) (hall : ∀ a ∈ points t, ∃ f ∈ l, seq ≤ f.seq ∧ Flushes f a)
    (flushOp : List TraceEntry) :
    ∃ before f after us, l = before ++ f :: after ∧ us.Sublist before ∧
      (∃ a ∈ points t, ∀ x ∈ before, seq ≤ x.seq → ¬ Flushes x a) ∧
      (∀ a ∈ points t, ∃ x ∈ before ++ [f], seq ≤ x.seq ∧ Flushes x a) ∧
      iv.isEmpty (MechPMStoreEntry.chopFlushes iv seq l t flushOp).1 = true ∧
      (MechPMStoreEntry.chopFlushes iv seq l t flushOp).2 = flushOp ++ (us ++ [f]) := by
  induction l generalizing t flushOp with
  | nil =>
    obtain ⟨a, ha⟩ := hne
    obtain ⟨f, hf, -⟩ := hall a ha
    exact absurd hf List.not_mem_nil
  | cons g rest ih =>
    have hempty : ¬ iv.isEmpty t = true := by
      rw [hiv.isEmpty_iff]
      exact hne.ne_empty
    have hrest : ∀ a ∈ points t, ¬ (seq ≤ g.seq ∧ Flushes g a) →
        ∃ f ∈ rest, seq ≤ f.seq ∧ Flushes f a := by
      intro a ha hg
      obtain ⟨f, hf, hfa⟩ := hall a ha
      rcases List.mem_cons.mp hf with rfl | hf
      · exact absurd hfa hg
      · exact ⟨f, hf, hfa⟩
    rw [chopFlushes_cons hempty]
    by_cases htake : seq ≤ g.seq ∧ iv.overlap t g.addr (g.addr + g.size) = true
    · rw [if_pos htake]
      have hchop := fun {a} => mem_points_chop hiv htake.2 (a := a)
      rcases (points (iv.chop t g.addr (g.addr + g.size))).eq_empty_or_nonempty with hnone | hsome
      · -- nothing is left behind this flush
        have hstop := (hiv.isEmpty_iff _).mpr hnone
        rw [chopFlushes_of_isEmpty hstop]
        obtain ⟨a, ha⟩ := hne
        refine ⟨[], g, rest, [], rfl, List.Sublist.refl _, ⟨a, ha, fun x hx => ?_⟩, fun b hb => ?_,
          hstop, rfl⟩
        · exact absurd hx List.not_mem_nil
        · refine ⟨g, List.mem_singleton_self g, htake.1, ?_⟩
          by_contra hgb
          have := hchop.mpr ⟨hb, hgb⟩
          rw [hnone] at this
          exact this
      · obtain ⟨before, f, after, us, rfl, hus, ⟨a, ha, hbyte⟩, hwith, hres⟩ :=
          ih hsome (fun a ha => hrest a (hchop.mp ha).1 fun h => (hchop.mp ha).2 h.2)
            (flushOp ++ [g])
        rw [List.append_assoc] at hres
        refine ⟨g :: before, f, after, g :: us, rfl, hus.cons_cons g,
          ⟨a, (hchop.mp ha).1, List.forall_mem_cons.mpr ⟨fun _ => (hchop.mp ha).2, hbyte⟩⟩,
          fun b hb => ?_, hres⟩
        by_cases hgb : Flushes g b
        · exact ⟨g, List.mem_cons_self, htake.1, hgb⟩
        · obtain ⟨x, hx, hxb⟩ := hwith b (hchop.mpr ⟨hb, hgb⟩)
          exact ⟨x, List.mem_cons_of_mem _ hx, hxb⟩
    · rw [if_neg htake]
      have hskip : ∀ a ∈ points t, ¬ (seq ≤ g.seq ∧ Flushes g a) := fun a ha hg =>
        not_flushes_of_not_overlap hiv (fun h => htake ⟨hg.1, h⟩) ha hg.2
      obtain ⟨before, f, after, us, rfl, hus, ⟨a, ha, hbyte⟩, hwith, hres⟩ :=
        ih hne (fun a ha => hrest a ha (hskip a ha)) flushOp
      refine ⟨g :: before, f, after, us, rfl, hus.cons g, ⟨a, ha, ?_⟩, fun b hb => ?_, hres⟩
      · exact List.forall_mem_cons.mpr ⟨fun hseq hga => hskip a ha ⟨hseq, hga⟩, hbyte⟩
      · obtain ⟨x, hx, hxb⟩ := hwith b hb
        exact ⟨x, List.mem_cons_of_mem _ hx, hxb⟩

/-- The flushes found for a store: none unless they cover it, and the last is the one with which
they do. -/
theorem initFlush_eq (hiv : iv.Lawful points) {op : TraceEntry} (hsize : 1 ≤ op.size)
    (splitEntry : OpTraceEntry) {flushes : List TraceEntry}
    (hsorted : flushes.Pairwise fun a b => a.seq ≤ b.seq) :
    ∃ flushOp, (MechPMStoreEntry.new op splitEntry).initFlush iv flushes =
        some { MechPMStoreEntry.new op splitEntry with flushOp := flushOp } ∧
      (¬ Covered op flushes ∧ flushOp = [] ∨
        ∃ f, flushOp.getLast? = some f ∧ Completes op flushes f) := by
  obtain ⟨t, ht⟩ := Option.isSome_iff_exists.mp
    ((hiv.ofRange_isSome op.addr (op.addr + op.size)).mpr (by omega))
  have hpts : ∀ a, a ∈ points t ↔ op.addr ≤ a ∧ a < op.addr + op.size := by
    intro a
    rw [hiv.points_ofRange ht]
    rfl
  have hinit : (MechPMStoreEntry.new op splitEntry).initFlush iv flushes =
      some { MechPMStoreEntry.new op splitEntry with
        flushOp := sortBy TraceEntry.seq
          (if iv.isEmpty (MechPMStoreEntry.chopFlushes iv op.seq flushes t []).1 then
            (MechPMStoreEntry.chopFlushes iv op.seq flushes t []).2 else []) } :=
    congrArg (Option.map _) ht
  refine ⟨_, hinit, ?_⟩
  by_cases hcov : Covered op flushes
  · obtain ⟨before, f, after, us, rfl, hus, ⟨a, ha, hbyte⟩, hwith, hempty, hfound⟩ :=
      chopFlushes_stop hiv ⟨op.addr, (hpts _).mpr ⟨le_refl _, by omega⟩⟩
        (fun a ha => hcov a ((hpts a).mp ha).1 ((hpts a).mp ha).2) []
    -- the flushes were found in order
    have hfoundSub : (us ++ [f]).Sublist (before ++ f :: after) :=
      hus.append (List.singleton_sublist.mpr List.mem_cons_self)
    have horder : sortBy TraceEntry.seq (us ++ [f]) = us ++ [f] :=
      (hsorted.sublist hfoundSub).insertionSort_eq
    rw [if_pos hempty, hfound, List.nil_append, horder]
    refine Or.inr ⟨f, List.getLast?_concat, before, after, rfl, fun h => ?_,
      fun b hlo hhi => hwith b ((hpts b).mpr ⟨hlo, hhi⟩)⟩
    obtain ⟨x, hx, hseq, hxa⟩ := h a ((hpts a).mp ha).1 ((hpts a).mp ha).2
    exact hbyte x hx hseq hxa
  · have hleft : ¬ iv.isEmpty (MechPMStoreEntry.chopFlushes iv op.seq flushes t []).1 = true := by
      rw [hiv.isEmpty_iff]
      have hnone := hcov
      rw [Covered] at hnone
      push Not at hnone
      obtain ⟨a, hlo, hhi, hnone⟩ := hnone
      exact Set.Nonempty.ne_empty ⟨a, chopFlushes_left hiv hnone ((hpts a).mpr ⟨hlo, hhi⟩) []⟩
    rw [if_neg hleft]
    exact Or.inl ⟨hcov, rfl⟩

/-- The fences of a store: none unless it is covered, and then the next ones behind the store and
behind the flush with which it is. -/
theorem initFence_initFlush (hiv : iv.Lawful points) {op : TraceEntry} (hsize : 1 ≤ op.size)
    (splitEntry : OpTraceEntry) {flushes : List TraceEntry}
    (hsorted : flushes.Pairwise fun a b => a.seq ≤ b.seq) (fences : List TraceEntry) :
    ∃ e, ((MechPMStoreEntry.new op splitEntry).initFlush iv flushes).map
        (fun e => e.initFence fences) = some e ∧ e.op = op ∧
      (¬ Covered op flushes ∧ e.flushOp = [] ∧ e.fenceOp = none ∨
        ∃ f, e.flushOp.getLast? = some f ∧ Completes op flushes f ∧
          e.firstFenceOp = fences.find? (fun g => g.seq ≥ op.seq) ∧
          e.fenceOp = fences.find? fun g => g.seq ≥ f.seq) := by
  obtain ⟨flushOp, hflush, hfound⟩ := initFlush_eq hiv hsize splitEntry hsorted
  rw [hflush, Option.map_some]
  rcases hfound with ⟨hcov, rfl⟩ | ⟨f, hf, hcompletes⟩
  · exact ⟨_, rfl, rfl, Or.inl ⟨hcov, rfl, rfl⟩⟩
  · have hscan := initFence_eq (e := { MechPMStoreEntry.new op splitEntry with flushOp := flushOp })
      hf rfl rfl hcompletes.seq_le fences
    rw [hscan]
    exact ⟨_, rfl, rfl, Or.inr ⟨f, hf, hcompletes, rfl, rfl⟩⟩

/-- Flushes are found for a store exactly when they cover it.  The last of them is the one with
which they do, and the two fences are the next ones behind the store and behind that flush. -/
theorem flush_fence_exact (iv : IntervalTree τ) (points : τ → Set Int) (hiv : iv.Lawful points)
    (op : TraceEntry) (hsize : 1 ≤ op.size) (splitEntry : OpTraceEntry)
    (flushes fences : List TraceEntry) (hflushes : flushes.Pairwise fun a b => a.seq ≤ b.seq) :
    ∃ e, ((MechPMStoreEntry.new op splitEntry).initFlush iv flushes).map
        (fun e => e.initFence fences) = some e ∧
      (e.flushOp = [] ↔ ¬ Covered op flushes) ∧
      (Covered op flushes → ∃ f, e.flushOp.getLast? = some f ∧ Completes op flushes f ∧
        IsNext fences op.seq e.firstFenceOp ∧ IsNext fences f.seq e.fenceOp) := by
  obtain ⟨e, he, -, hfound⟩ := initFence_initFlush hiv hsize splitEntry hflushes fences
  refine ⟨e, he, ?_⟩
  rcases hfound with ⟨hcov, hnil, -⟩ | ⟨f, hf, hcompletes, hfirst, hfence⟩
  · exact ⟨⟨fun _ => hcov, fun _ => hnil⟩, fun h => absurd h hcov⟩
  · have hne : e.flushOp ≠ [] := List.ne_nil_of_mem (List.mem_of_getLast? hf)
    refine ⟨⟨fun h => absurd h hne, fun h => absurd hcompletes.covered h⟩, fun _ => ?_⟩
    rw [hfirst, hfence]
    exact ⟨f, hf, hcompletes, isNext_find? _ _, isNext_find? _ _⟩

end

/-- The first of two lines is flushed three times, the second once. -/
def twoLineFlushes : List TraceEntry :=
  [.plain .asmFlush 3 0 64, .plain .asmFlush 6 0 64, .plain .asmFlush 7 0 64,
    .plain .asmFlush 9 64 64]

def threeFences : List TraceEntry :=
  [.plain .asmFence 4 0 0, .plain .asmFence 8 0 0, .plain .asmFence 10 0 0]

/-- A store across the two lines. -/
theorem flush_fence_exact_two_lines :
    ∃ e f, ((MechPMStoreEntry.new (.plain .store 5 60 8)
        (.new (.plain .startFn 2 0 0) "write" 0 4096 0)).initFlush IntervalTree.RangeList.tree
        twoLineFlushes).map (fun e => e.initFence threeFences) = some e ∧
      e.flushOp.getLast? = some f ∧ Completes (.plain .store 5 60 8) twoLineFlushes f ∧
      IsNext threeFences 5 e.firstFenceOp ∧ IsNext threeFences f.seq e.fenceOp := by
  obtain ⟨e, he, -, hfound⟩ := flush_fence_exact IntervalTree.RangeList.tree
    IntervalTree.RangeList.points IntervalTree.RangeList.lawful (.plain .store 5 60 8) (by decide)
    (.new (.plain .startFn 2 0 0) "write" 0 4096 0) twoLineFlushes threeFences (by decide)
  have hcovered : Covered (.plain .store 5 60 8) twoLineFlushes := by
    intro a hlo hhi
    have hlo' : 60 ≤ a := hlo
    have hhi' : a < 68 := hhi
    by_cases hline : a < 64
    · refine ⟨.plain .asmFlush 6 0 64, by decide, by decide, ?_⟩
      show 0 ≤ a ∧ a < 64
      omega
    · refine ⟨.plain .asmFlush 9 64 64, by decide, by decide, ?_⟩
      show 64 ≤ a ∧ a < 128
      omega
  obtain ⟨f, hf⟩ := hfound hcovered
  exact ⟨e, f, he, hf⟩

/-! ## The entries of an operation -/

theorem sortedEntries_eq {op : OpTraceEntry} (hwf : op.WellFormed) :
    sortedEntries op = some op.pmEntries := by
  have hget : op.pmSortedItems.mapM (op.pmSeqEntryMap.get? ∘ Prod.fst) =
      some (op.pmSortedItems.map Prod.snd) :=
    mapM_eq_some fun x hx => Dict.get?_eq_some.mpr (mem_sortBy.mp hx)
  rw [sortedEntries, hwf.sortedSeq, List.mapM_map, hget, OpTraceEntry.pmEntries, List.flatMap_def]
  rfl

theorem sorted_flushes {op : OpTraceEntry} (hwf : op.WellFormed) :
    (op.pmEntries.filter fun x => x.type.isFlushTy).Pairwise fun a b => a.seq ≤ b.seq := by
  refine ((pmEntries_pairwise hwf).filter _).imp fun hab => ?_
  rcases hab with hlt | ⟨heq, -, -⟩
  · exact hlt.le
  · exact heq.le

theorem initFence_op (e : MechPMStoreEntry) (l : List TraceEntry) : (e.initFence l).op = e.op := by
  rw [MechPMStoreEntry.initFence]
  cases e.flushOp.getLast? <;> rfl

/-- An entry keeps the store that it is made for. -/
theorem op_of_made {τ : Type} {iv : IntervalTree τ} {op : OpTraceEntry} {x : TraceEntry}
    {e : MechPMStoreEntry} {flushes fences : List TraceEntry}
    (h : (((MechPMStoreEntry.new x op).initFlush iv flushes).map fun e => e.initFence fences) =
      some e) : e.op = x := by
  obtain ⟨e₁, he₁, rfl⟩ := Option.map_eq_some_iff.mp h
  obtain ⟨t, -, rfl⟩ := Option.map_eq_some_iff.mp he₁
  rw [initFence_op]
  rfl

/-- The entries come in the order of their sequence numbers. -/
theorem pairwise_entryList {τ : Type} {iv : IntervalTree τ} {op : OpTraceEntry}
    (hwf : op.WellFormed) {entries : List MechPMStoreEntry}
    (hent : MechPMStoreReason.entryList iv op = some entries) :
    entries.Pairwise fun a b => a.op.seq ≤ b.op.seq := by
  rw [MechPMStoreReason.entryList, sortedEntries_eq hwf] at hent
  have hops := map_of_mapM (fun x e he => op_of_made he) hent
  have hsorted : (entries.map MechPMStoreEntry.op).Pairwise fun a b => a.seq ≤ b.seq := by
    rw [hops]
    refine ((pmEntries_pairwise hwf).filter _).imp fun hab => ?_
    rcases hab with hlt | ⟨heq, -, -⟩
    · exact hlt.le
    · exact heq.le
  rwa [List.pairwise_map] at hsorted

/-- The store records of an operation are those of its entries. -/
theorem isPmStore_iff_entry {τ : Type} {iv : IntervalTree τ} {op : OpTraceEntry}
    (hwf : op.WellFormed) {entries : List MechPMStoreEntry}
    (hent : MechPMStoreReason.entryList iv op = some entries) {st : TraceEntry} :
    op.IsPmStore st ↔ ∃ e ∈ entries, e.op = st := by
  have hfilter : op.IsPmStore st ↔ st ∈ op.pmEntries.filter fun x => x.type.isStoreSeries := by
    rw [hwf.isPmStore_iff, List.mem_filter]
  rw [MechPMStoreReason.entryList, sortedEntries_eq hwf] at hent
  rw [hfilter]
  constructor
  · intro hst
    obtain ⟨e, he, hmk⟩ := exists_mem_of_mapM hent hst
    exact ⟨e, he, op_of_made hmk⟩
  · rintro ⟨e, he, rfl⟩
    obtain ⟨x, hx, hmk⟩ := exists_of_mem_mapM hent he
    rwa [op_of_made hmk]

/-- What is found for a store of the operation. -/
theorem entry_spec {τ : Type} {iv : IntervalTree τ} {points : τ → Set Int} (hiv : iv.Lawful points)
    {op : OpTraceEntry} (hwf : op.WellFormed) {entries : List MechPMStoreEntry}
    (hent : MechPMStoreReason.entryList iv op = some entries) {e : MechPMStoreEntry}
    (he : e ∈ entries) :
    ¬ Covered e.op (op.pmEntries.filter fun x => x.type.isFlushTy) ∧ e.fenceOp = none ∨
      ∃ f, Completes e.op (op.pmEntries.filter fun x => x.type.isFlushTy) f ∧
        e.firstFenceOp = op.fenceEntries.find? (fun g => g.seq ≥ e.op.seq) ∧
        e.fenceOp = op.fenceEntries.find? fun g => g.seq ≥ f.seq := by
  rw [MechPMStoreReason.entryList, sortedEntries_eq hwf] at hent
  obtain ⟨st, -, hinit⟩ := exists_of_mem_mapM hent he
  have hsize : 1 ≤ st.size := by
    obtain ⟨e₁, he₁, -⟩ := Option.map_eq_some_iff.mp hinit
    obtain ⟨t, ht, -⟩ := Option.map_eq_some_iff.mp he₁
    have hlt : st.addr < st.addr + st.size :=
      (hiv.ofRange_isSome _ _).mp (Option.isSome_iff_exists.mpr ⟨t, ht⟩)
    omega
  obtain ⟨e', he', hop, hfound⟩ :=
    initFence_initFlush hiv hsize op (sorted_flushes hwf) op.fenceEntries
  obtain rfl : e' = e := Option.some.inj (he'.symm.trans hinit)
  rw [hop]
  rcases hfound with ⟨hcov, -, hnone⟩ | ⟨f, -, hrest⟩
  · exact Or.inl ⟨hcov, hnone⟩
  · exact Or.inr ⟨f, hrest⟩

end Mech
end Silhouette
