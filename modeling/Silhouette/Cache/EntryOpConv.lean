import Silhouette.Trace.OpTraceEntry

/-!
# From trace entries to atomic operations

`entry_op_conv.py`.  The constructor arguments of stores come first and the objects are
allocated when the list is complete, so that each store of the result is an object of
its own.  `none` is a failed assertion or an index out of range.
-/

namespace Silhouette
namespace Cache

open Lib Lib.Persist Trace

/-- The arguments of the constructor of `Store`. -/
structure StoreArgs where
  seq : Int
  addr : Int
  size : Int
  deriving DecidableEq, Repr

abbrev RawOp := Event StoreArgs Flush Fence

/-- `range(lo, hi, step)` for a positive step. -/
def pyRange (lo hi step : Int) : List Int :=
  (List.range ((hi - lo + step - 1) / step).toNat).map fun i : Nat => lo + i * step

/-- The loop that cuts a flush of `[lo, hi)` at line boundaries. -/
def flushPieces (seq hi : Int) : Nat → Int → List Flush
  | 0, _ => []
  | fuel + 1, lo =>
    if lo < hi then
      if lo / cachelineBytes = hi / cachelineBytes then [⟨seq, lo, hi - lo⟩]
      else if lo % cachelineBytes = 0 then
        ⟨seq, lo, cachelineBytes⟩ :: flushPieces seq hi fuel (lo + cachelineBytes)
      else
        ⟨seq, lo, cachelineBytes - lo % cachelineBytes⟩ ::
          flushPieces seq hi fuel (lo + (cachelineBytes - lo % cachelineBytes))
    else []

/-- One more round than there are line boundaries in the range. -/
def flushFuel (lo hi : Int) : Nat := (hi / cachelineBytes - lo / cachelineBytes).toNat + 1

/-- The word of a store that starts at `addr`, clipped to the range of the entry. -/
def storePiece (e : TraceEntry) (addr : Int) : StoreArgs :=
  let size := if addr < e.addr then addr + atomicWriteBytes - e.addr else atomicWriteBytes
  let addr := if addr < e.addr then e.addr else addr
  ⟨e.seq, addr, if addr + size > e.addr + e.size then e.addr + e.size - addr else size⟩

def storePieces (e : TraceEntry) : List StoreArgs :=
  (pyRange (alignToFloor e.addr atomicWriteBytes) (e.addr + e.size) atomicWriteBytes).map
    (storePiece e)

/-- Stored values are asserted to be there for every word of a store. -/
def convertEntry (e : TraceEntry) : Option (List RawOp) :=
  if e.type.isFenceTy then some [.fence ⟨e.seq⟩]
  else if e.type.isFlushTy then
    some ((flushPieces e.seq (e.addr + e.size) (flushFuel e.addr (e.addr + e.size)) e.addr).map
      .flush)
  else if e.type.isLoadSeries then some []
  else if e.type.isCASTy then some [.store ⟨e.seq, e.addr, e.size⟩]
  else if storePieces e ≠ [] ∧ e.svEntry = none then none
  else some ((storePieces e).map .store)

structure ConvFlags where
  ignoreNonatomicWrite : Bool
  nonatomicAsOne : Bool
  samplingNonatomicWrite : Bool
  deriving DecidableEq, Repr

/-- Above this number of words a sample of them is taken. -/
def atomicSamplingNumber : Nat := 1

section

variable (flags : ConvFlags) (sample : List RawOp → List RawOp)

/-- The iteration of `convert_entry_list` for one entry; `sample` draws
`ATOMIC_SAMPLING_NUMBER` of the words. -/
def convertOne (e : TraceEntry) : Option (List RawOp) :=
  if e.type.isMemTransStore || e.type.isMemset then
    if flags.ignoreNonatomicWrite then some []
    else do
      let tmp ← convertEntry e
      if flags.nonatomicAsOne then tmp.head?.map fun op => [op]
      else if flags.samplingNonatomicWrite && tmp.length > atomicSamplingNumber then
        some (sample tmp)
      else some tmp
  else convertEntry e

def convertEntryList (entries : List TraceEntry) : Option (List RawOp) :=
  (entries.mapM (convertOne flags sample)).map List.flatten

def convertSeqEntrylistDict (d : Dict Int (List TraceEntry)) : Option (List RawOp) :=
  ((sortBy Prod.fst d.items).mapM fun x => convertEntryList flags sample x.2).map List.flatten

end

/-- Construct the stores, each a new object. -/
def allocate : Nat → List RawOp → List AtomicOp
  | _, [] => []
  | n, .store a :: rest => .store ⟨n, a.seq, a.addr, a.size⟩ :: allocate (n + 1) rest
  | n, .flush f :: rest => .flush f :: allocate n rest
  | n, .fence g :: rest => .fence g :: allocate n rest

/-- The atomic operations of an operation's trace. -/
def convertAtomicOps (flags : ConvFlags) (sample : List RawOp → List RawOp)
    (op : OpTraceEntry) : Option (List AtomicOp) :=
  (convertSeqEntrylistDict flags sample op.pmSeqEntryMap).map (allocate 0)

/-! ## Allocation -/

theorem map_ref_stores_allocate (n : Nat) (raw : List RawOp) :
    (stores (allocate n raw)).map Store.ref = List.range' n (stores raw).length := by
  induction raw generalizing n with
  | nil => rfl
  | cons op rest ih =>
    cases op with
    | store a => simp [allocate, stores, ih, List.range'_succ]
    | flush f => exact ih n
    | fence g => exact ih n

theorem fresh_allocate (n : Nat) (raw : List RawOp) : Fresh (allocate n raw) := by
  rw [Fresh, map_ref_stores_allocate]
  exact List.nodup_range'

/-- The arguments a store was constructed from. -/
def Store.args (s : Store) : StoreArgs := ⟨s.seq, s.addr, s.size⟩

/-- An operation without the identity of its object. -/
def rawOf : AtomicOp → RawOp
  | .store s => .store s.args
  | .flush f => .flush f
  | .fence g => .fence g

theorem map_rawOf_allocate (n : Nat) (raw : List RawOp) : (allocate n raw).map rawOf = raw := by
  induction raw generalizing n with
  | nil => rfl
  | cons op rest ih =>
    cases op with
    | store a => simp [allocate, rawOf, Store.args, ih]
    | flush f => simp [allocate, rawOf, ih]
    | fence g => simp [allocate, rawOf, ih]

/-! ## Pieces -/

theorem mem_pyRange {lo hi step x : Int} (hstep : 0 < step) :
    x ∈ pyRange lo hi step ↔ ∃ i : Nat, x = lo + i * step ∧ x < hi := by
  simp only [pyRange, List.mem_map, List.mem_range]
  have hlt : ∀ i : Nat, i < ((hi - lo + step - 1) / step).toNat ↔ lo + i * step < hi := by
    intro i
    have h1 : i < ((hi - lo + step - 1) / step).toNat ↔
        (i : Int) + 1 ≤ (hi - lo + step - 1) / step := by omega
    rw [h1, Int.le_ediv_iff_mul_le hstep, Int.add_mul, Int.one_mul]
    constructor
    · intro h; omega
    · intro h; omega
  constructor
  · rintro ⟨i, hi, rfl⟩
    exact ⟨i, rfl, (hlt i).mp hi⟩
  · rintro ⟨i, rfl, hi⟩
    exact ⟨i, (hlt i).mpr hi, rfl⟩

/-- The part of a store in a word it meets. -/
theorem storePiece_eq {e : TraceEntry} {w : Int} (hlo : e.addr < w + 8)
    (hhi : w < e.addr + e.size) :
    storePiece e w = ⟨e.seq, max e.addr w, min (e.addr + e.size) (w + 8) - max e.addr w⟩ := by
  simp only [storePiece, StoreArgs.mk.injEq, true_and]
  refine ⟨by split_ifs <;> omega, ?_⟩
  simp only [atomicWriteBytes]
  split_ifs <;> omega

/-- The words of a store: the parts of its range inside the aligned words it meets. -/
theorem mem_storePieces {e : TraceEntry} {p : StoreArgs} :
    p ∈ storePieces e ↔ ∃ w : Int, w % 8 = 0 ∧ e.addr < w + 8 ∧ w < e.addr + e.size ∧
      p = ⟨e.seq, max e.addr w, min (e.addr + e.size) (w + 8) - max e.addr w⟩ := by
  simp only [storePieces, List.mem_map, mem_pyRange (show (0 : Int) < atomicWriteBytes by decide)]
  simp only [alignToFloor, atomicWriteBytes]
  constructor
  · rintro ⟨w, ⟨i, rfl, hlt⟩, rfl⟩
    exact ⟨_, by omega, by omega, hlt, storePiece_eq (by omega) hlt⟩
  · rintro ⟨w, hal, h1, h2, rfl⟩
    refine ⟨w, ⟨((w - e.addr / 8 * 8) / 8).toNat, ?_, h2⟩, storePiece_eq h1 h2⟩
    have hnn : 0 ≤ (w - e.addr / 8 * 8) / 8 := by omega
    rw [Int.toNat_of_nonneg hnn]
    omega

theorem seq_of_mem_storePieces {e : TraceEntry} {p : StoreArgs} (h : p ∈ storePieces e) :
    p.seq = e.seq := by
  obtain ⟨_, -, -, -, rfl⟩ := mem_storePieces.mp h
  rfl

/-- A store of at least one byte has a first word, and it starts with the store. -/
theorem head?_storePieces {e : TraceEntry} (h : 1 ≤ e.size) :
    (storePieces e).head? =
      some ⟨e.seq, e.addr, min (e.addr + e.size) (alignToFloor e.addr 8 + 8) - e.addr⟩ := by
  have hlen : 0 < ((e.addr + e.size - alignToFloor e.addr 8 + 8 - 1) / 8).toNat := by
    simp only [alignToFloor]
    omega
  obtain ⟨n, hn⟩ := Nat.exists_eq_succ_of_ne_zero (Nat.ne_of_gt hlen)
  simp only [storePieces, pyRange, atomicWriteBytes, hn, List.range_succ_eq_map, List.map_cons,
    List.head?_cons, Option.some.injEq, storePiece, StoreArgs.mk.injEq, true_and]
  simp only [alignToFloor]
  refine ⟨by split_ifs <;> omega, ?_⟩
  split_ifs <;> omega

theorem lines_lt_flushFuel (lo hi : Int) : hi / 64 - lo / 64 < (flushFuel lo hi : Nat) := by
  simp only [flushFuel, cachelineBytes]
  omega

/-- Both branches behind the first test cut at the end of the first line. -/
theorem flushPieces_succ (seq hi lo : Int) (fuel : Nat) :
    flushPieces seq hi (fuel + 1) lo =
      if lo < hi then
        if lo / 64 = hi / 64 then [⟨seq, lo, hi - lo⟩]
        else ⟨seq, lo, lo / 64 * 64 + 64 - lo⟩ :: flushPieces seq hi fuel (lo / 64 * 64 + 64)
      else [] := by
  have hcut : (if lo % 64 = 0 then
        (⟨seq, lo, 64⟩ : Flush) :: flushPieces seq hi fuel (lo + 64)
      else ⟨seq, lo, 64 - lo % 64⟩ :: flushPieces seq hi fuel (lo + (64 - lo % 64))) =
      ⟨seq, lo, lo / 64 * 64 + 64 - lo⟩ :: flushPieces seq hi fuel (lo / 64 * 64 + 64) := by
    by_cases hal : lo % 64 = 0
    · have h1 : lo / 64 * 64 + 64 - lo = 64 := by omega
      have h2 : lo / 64 * 64 + 64 = lo + 64 := by omega
      rw [if_pos hal, h1, h2]
    · have h1 : lo / 64 * 64 + 64 - lo = 64 - lo % 64 := by omega
      have h2 : lo / 64 * 64 + 64 = lo + (64 - lo % 64) := by omega
      rw [if_neg hal, h1, h2]
  rw [← hcut]
  rfl

/-- The pieces of a flush: the parts of its range inside the lines it meets. -/
theorem mem_flushPieces {seq lo hi : Int} {fuel : Nat} {f : Flush}
    (hfuel : hi / 64 - lo / 64 < fuel) :
    f ∈ flushPieces seq hi fuel lo ↔ ∃ l : Int, l % 64 = 0 ∧ max lo l < min hi (l + 64) ∧
      f = ⟨seq, max lo l, min hi (l + 64) - max lo l⟩ := by
  induction fuel generalizing lo with
  | zero =>
    simp only [flushPieces, List.not_mem_nil, false_iff]
    rintro ⟨l, -, h1, -⟩
    omega
  | succ fuel ih =>
    rw [flushPieces_succ]
    by_cases hlt : lo < hi
    · rw [if_pos hlt]
      by_cases hsame : lo / 64 = hi / 64
      · rw [if_pos hsame, List.mem_singleton]
        constructor
        · rintro rfl
          refine ⟨lo / 64 * 64, by omega, by omega, ?_⟩
          simp only [Flush.mk.injEq, true_and]
          omega
        · rintro ⟨l, hl, h1, rfl⟩
          simp only [Flush.mk.injEq, true_and]
          omega
      · rw [if_neg hsame, List.mem_cons, ih (by omega)]
        constructor
        · rintro (rfl | ⟨l, hl, h1, rfl⟩)
          · refine ⟨lo / 64 * 64, by omega, by omega, ?_⟩
            simp only [Flush.mk.injEq, true_and]
            omega
          · refine ⟨l, hl, by omega, ?_⟩
            simp only [Flush.mk.injEq, true_and]
            omega
        · rintro ⟨l, hl, h1, rfl⟩
          by_cases hfirst : l = lo / 64 * 64
          · refine Or.inl ?_
            simp only [Flush.mk.injEq, true_and]
            omega
          · refine Or.inr ⟨l, hl, by omega, ?_⟩
            simp only [Flush.mk.injEq, true_and]
            omega
    · rw [if_neg hlt]
      simp only [List.not_mem_nil, false_iff]
      rintro ⟨l, -, h1, -⟩
      omega

end Cache
end Silhouette
