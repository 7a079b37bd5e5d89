import Silhouette.Cache.EntryOpConv
import Silhouette.Lib.Ranges

/-!
# Atomic conversion loses no byte

A store is cut at word boundaries by a `for` loop over the words its range meets, a flush at line
boundaries by a `while` loop that moves its lower end.  The pieces of either tile the range of the
record.  The flush that accompanies a non-temporal store or a compare-and-swap is as long as the
lines the record touches.
-/

namespace Silhouette
namespace Cache

open Lib Lib.Persist Trace

/-- The `while` loop of `convert_entry`, entered with the lower end `lo`, ends with these pieces. -/
inductive FlushLoop (seq hi : Int) : Int → List Flush → Prop
  | done {lo : Int} (h : ¬ lo < hi) : FlushLoop seq hi lo []
  | sameLine {lo : Int} (h : lo < hi) (hline : lo / cachelineBytes = hi / cachelineBytes) :
      FlushLoop seq hi lo [⟨seq, lo, hi - lo⟩]
  | aligned {lo : Int} {rest : List Flush} (h : lo < hi)
      (hline : lo / cachelineBytes ≠ hi / cachelineBytes) (haligned : lo % cachelineBytes = 0)
      (hrest : FlushLoop seq hi (lo + cachelineBytes) rest) :
      FlushLoop seq hi lo (⟨seq, lo, cachelineBytes⟩ :: rest)
  | unaligned {lo : Int} {rest : List Flush} (h : lo < hi)
      (hline : lo / cachelineBytes ≠ hi / cachelineBytes) (haligned : lo % cachelineBytes ≠ 0)
      (hrest : FlushLoop seq hi (lo + (cachelineBytes - lo % cachelineBytes)) rest) :
      FlushLoop seq hi lo (⟨seq, lo, cachelineBytes - lo % cachelineBytes⟩ :: rest)

/-- With a round for each line the loop comes to its end. -/
theorem flushLoop_flushPieces {seq hi lo : Int} {fuel : Nat} (hfuel : hi / 64 - lo / 64 < fuel) :
    FlushLoop seq hi lo (flushPieces seq hi fuel lo) := by
  induction fuel generalizing lo with
  | zero => exact .done (by omega)
  | succ fuel ih =>
    rw [flushPieces]
    split_ifs with hlt hline haligned
    · exact .sameLine hlt hline
    · refine .aligned hlt hline haligned (ih ?_)
      simp only [cachelineBytes] at hline haligned ⊢
      omega
    · refine .unaligned hlt hline haligned (ih ?_)
      simp only [cachelineBytes] at hline haligned ⊢
      omega
    · exact .done hlt

/-- The ranges of flushes. -/
def flushRanges (fs : List Flush) : List (Int × Int) := fs.map fun f => (f.addr, f.size)

/-- The ranges of stores. -/
def storeRanges (ps : List StoreArgs) : List (Int × Int) := ps.map fun p => (p.addr, p.size)

/-- What the loop ends with tiles the range it was entered with. -/
theorem FlushLoop.tiles {seq hi lo : Int} {fs : List Flush} (h : FlushLoop seq hi lo fs) :
    Tiles 64 lo hi (flushRanges fs) := by
  -- both ways to go on stop at the end of the line
  have hcut : ∀ {lo : Int} {fs : List Flush} (n : Int), n = lo / 64 * 64 + 64 - lo →
      lo < hi → lo / 64 ≠ hi / 64 → Tiles 64 (lo + n) hi (flushRanges fs) →
      Tiles 64 lo hi (flushRanges (⟨seq, lo, n⟩ :: fs)) := by
    intro lo fs n hn hlt hline ih
    have hmin : min hi (lo + n) - lo = n := by omega
    have hcons := Tiles.cons hlt (show lo < lo + n by omega) (by omega) ih
    rwa [hmin] at hcons
  induction h with
  | done h => exact Tiles.nil (by omega)
  | @sameLine lo h hline =>
    simp only [cachelineBytes] at hline
    have hone : Tiles 64 lo hi [(lo, min hi hi - lo)] :=
      Tiles.cons h h (by omega) (Tiles.nil (le_refl hi))
    rwa [min_self] at hone
  | aligned h hline haligned hrest ih =>
    simp only [cachelineBytes] at hline haligned ih ⊢
    exact hcut 64 (by omega) h hline ih
  | unaligned h hline haligned hrest ih =>
    simp only [cachelineBytes] at hline haligned ih ⊢
    exact hcut _ (by omega) h hline ih

theorem FlushLoop.seq_eq {seq hi lo : Int} {fs : List Flush} (h : FlushLoop seq hi lo fs) :
    ∀ f ∈ fs, f.seq = seq := by
  induction h with
  | done => exact fun f hf => absurd hf List.not_mem_nil
  | sameLine => exact List.forall_mem_singleton.mpr rfl
  | aligned _ _ _ _ ih => exact List.forall_mem_cons.mpr ⟨rfl, ih⟩
  | unaligned _ _ _ _ ih => exact List.forall_mem_cons.mpr ⟨rfl, ih⟩

theorem pyRange_nil {lo hi step : Int} (hstep : 0 < step) (h : hi ≤ lo) :
    pyRange lo hi step = [] := by
  refine List.eq_nil_iff_forall_not_mem.mpr fun x hx => ?_
  obtain ⟨i, rfl, hlt⟩ := (mem_pyRange hstep).mp hx
  have := Int.mul_nonneg (Int.natCast_nonneg i) (le_of_lt hstep)
  omega

theorem pyRange_cons {lo hi step : Int} (hstep : 0 < step) (h : lo < hi) :
    pyRange lo hi step = lo :: pyRange (lo + step) hi step := by
  have hcount : (hi - lo + step - 1) / step = (hi - (lo + step) + step - 1) / step + 1 := by
    rw [← Int.add_mul_ediv_right _ 1 (ne_of_gt hstep)]
    congr 1
    omega
  have hnonneg : 0 ≤ (hi - (lo + step) + step - 1) / step :=
    Int.ediv_nonneg (by omega) (le_of_lt hstep)
  rw [pyRange, hcount, Int.toNat_add hnonneg (by decide), Int.toNat_one, List.range_succ_eq_map,
    List.map_cons, List.map_map, pyRange]
  congr 1
  · simp
  · refine List.map_congr_left fun i _ => ?_
    simp only [Function.comp, Nat.succ_eq_add_one, Int.natCast_add, Int.add_mul]
    omega

/-- From any word on, the pieces tile what remains of the store. -/
theorem tiles_storePiece (e : TraceEntry) (n : Nat) {w : Int} (hn : e.addr + e.size ≤ w + 8 * n)
    (haligned : w % 8 = 0) (hlo : e.addr < w + 8) (hhi : e.addr < e.addr + e.size) :
    Tiles 8 (max e.addr w) (e.addr + e.size)
      (storeRanges ((pyRange w (e.addr + e.size) 8).map (storePiece e))) := by
  induction n generalizing w with
  | zero =>
    rw [pyRange_nil (by decide) (by omega)]
    exact Tiles.nil (by omega)
  | succ n ih =>
    by_cases hend : w < e.addr + e.size
    · have hrest := ih (w := w + 8) (by omega) (by omega) (by omega)
      have hnext : max e.addr (w + 8) = w + 8 := by omega
      rw [hnext] at hrest
      rw [pyRange_cons (by decide) hend, List.map_cons, storePiece_eq hlo hend]
      exact Tiles.cons (by omega) (by omega) (by omega) hrest
    · rw [pyRange_nil (by decide) (by omega)]
      exact Tiles.nil (by omega)

theorem tiles_storePieces {e : TraceEntry} (h : 1 ≤ e.size) :
    Tiles 8 e.addr (e.addr + e.size) (storeRanges (storePieces e)) := by
  have hfloor := tiles_storePiece e (e.size + 8).toNat (w := e.addr / 8 * 8) (by omega) (by omega)
    (by omega) (by omega)
  have hstart : max e.addr (e.addr / 8 * 8) = e.addr := by omega
  rwa [hstart] at hfloor

/-! ## Records -/

section

variable {e : TraceEntry}

/-- A store is converted unless it has no stored value, which is asserted. -/
theorem convertEntry_store (hstore : e.type.isStoreSeries = true) (hcas : e.type.isCASTy = false)
    (hsize : 1 ≤ e.size) :
    convertEntry e = if e.svEntry = none then none else some ((storePieces e).map .store) := by
  obtain ⟨hflush, hfence, hload⟩ := TraceType.isStoreSeries_cases hstore
  have hpieces : storePieces e ≠ [] := by
    intro hnil
    have hhead := head?_storePieces hsize
    rw [hnil] at hhead
    exact absurd hhead (by simp)
  simp only [convertEntry, hfence, hflush, hload, hcas, Bool.false_eq_true, if_false, hpieces,
    ne_eq, not_false_eq_true, true_and]

theorem convertEntry_flush (hflush : e.type.isFlushTy = true) :
    convertEntry e = some ((flushPieces e.seq (e.addr + e.size)
      (flushFuel e.addr (e.addr + e.size)) e.addr).map .flush) := by
  have hfence : e.type.isFenceTy = false := by
    rw [of_decide_eq_true hflush]
    rfl
  simp only [convertEntry, hfence, hflush, Bool.false_eq_true, if_false, if_true]

/-- The lines of a range that is not empty. -/
theorem mem_flushOf (hsize : 1 ≤ e.size) (x : Int) :
    e.flushOf.addr ≤ x ∧ x < e.flushOf.addr + e.flushOf.size ↔
      ∃ b, e.addr ≤ b ∧ b < e.addr + e.size ∧ x / 64 = b / 64 := by
  simp only [TraceEntry.flushOf, alignToFloor, alignToCeil, cachelineBytes]
  constructor
  · rintro ⟨hlo, hhi⟩
    -- the byte of the record next to `x`
    exact ⟨max e.addr (min x (e.addr + e.size - 1)), by omega, by omega, by omega⟩
  · rintro ⟨b, hlo, hhi, hline⟩
    omega

/-- The stores of a record tile it by words and its flushes by lines, and the flush that goes with a
record covers the lines the record touches. -/
theorem convert_entry_tiles (e : TraceEntry) :
    (e.type.isStoreSeries = true → e.type.isCASTy = false → 1 ≤ e.size →
      (convertEntry e = none ↔ e.svEntry = none) ∧
      ∀ ops, convertEntry e = some ops → ∃ ps : List StoreArgs, ops = ps.map .store ∧
        (∀ p ∈ ps, p.seq = e.seq) ∧
        Tiles atomicWriteBytes e.addr (e.addr + e.size) (storeRanges ps)) ∧
    (e.type.isFlushTy = true → ∃ fs : List Flush, convertEntry e = some (fs.map .flush) ∧
      FlushLoop e.seq (e.addr + e.size) e.addr fs ∧ (∀ f ∈ fs, f.seq = e.seq) ∧
      Tiles cachelineBytes e.addr (e.addr + e.size) (flushRanges fs)) ∧
    ((e.type.isStoreAndFlushTy || e.type.isCASTy) = true → 1 ≤ e.size →
      ∃ f : TraceEntry, e.getEntryList = [e, f] ∧ f.type = .asmFlush ∧ f.seq = e.seq ∧
        ∀ x, f.addr ≤ x ∧ x < f.addr + f.size ↔
          ∃ b, e.addr ≤ b ∧ b < e.addr + e.size ∧ x / cachelineBytes = b / cachelineBytes) := by
  refine ⟨fun hstore hcas hsize => ?_, fun hflush => ?_, fun hboth hsize => ?_⟩
  · rw [convertEntry_store hstore hcas hsize]
    refine ⟨by simp, fun ops hops => ⟨storePieces e, ?_, fun p => seq_of_mem_storePieces,
      tiles_storePieces hsize⟩⟩
    split_ifs at hops
    exact (Option.some.inj hops).symm
  · have hloop : FlushLoop e.seq (e.addr + e.size) e.addr _ :=
      flushLoop_flushPieces (lines_lt_flushFuel e.addr (e.addr + e.size))
    exact ⟨_, convertEntry_flush hflush, hloop, hloop.seq_eq, hloop.tiles⟩
  · exact ⟨e.flushOf, if_pos hboth, rfl, rfl, mem_flushOf hsize⟩

end

/-- A store across words, a flush across lines and a compare-and-swap across lines. -/
theorem convert_entry_tiles_unaligned :
    (∃ ps : List StoreArgs, convertEntry (.plain .store 1 13 20) = some (ps.map .store) ∧
      Tiles 8 13 33 (storeRanges ps)) ∧
    (∃ fs : List Flush, convertEntry (.plain .asmFlush 2 100 100) = some (fs.map .flush) ∧
      FlushLoop 2 200 100 fs ∧ Tiles 64 100 200 (flushRanges fs)) ∧
    ∃ f : TraceEntry,
      (TraceEntry.plain .asmCAS 3 56 16).getEntryList = [.plain .asmCAS 3 56 16, f] ∧
      ∀ x, f.addr ≤ x ∧ x < f.addr + f.size ↔ ∃ b : Int, 56 ≤ b ∧ b < 72 ∧ x / 64 = b / 64 := by
  refine ⟨?_, ?_, ?_⟩
  · obtain ⟨hnone, hsome⟩ :=
      (convert_entry_tiles (.plain .store 1 13 20)).1 (by decide) (by decide) (by decide)
    obtain ⟨ops, hops⟩ := Option.ne_none_iff_exists'.mp (mt hnone.mp (by decide))
    obtain ⟨ps, rfl, -, htiles⟩ := hsome ops hops
    exact ⟨ps, hops, htiles⟩
  · obtain ⟨fs, hfs, hloop, -, htiles⟩ :=
      (convert_entry_tiles (.plain .asmFlush 2 100 100)).2.1 (by decide)
    exact ⟨fs, hfs, hloop, htiles⟩
  · obtain ⟨f, hf, -, -, hcover⟩ :=
      (convert_entry_tiles (.plain .asmCAS 3 56 16)).2.2 (by decide) (by decide)
    exact ⟨f, hf, hcover⟩

end Cache
end Silhouette
