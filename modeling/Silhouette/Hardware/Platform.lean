import Silhouette.Lib.PmMachine
import Silhouette.Image.PlanImage
import Silhouette.CrashPlan.Tso

/-!
# The platform the traces are taken on

Crash images stand for what a power failure leaves of persistent memory, so the records of an
operation are run on a machine that has one.  A store record writes every cacheline it touches,
each of them on its own.  A flush record requests the lines it touches, whole or not.  Nothing
here comes from the tool: it is what the tool's images are compared with.
-/

namespace Silhouette
namespace Hardware

open Lib Lib.Persist Cache Trace OpTrace CrashPlan Image
open scoped List

/-- The part of a store record that goes to one cacheline. -/
structure LineStore where
  entry : TraceEntry
  line : Int
  deriving DecidableEq

/-- The cachelines with a byte of a record. -/
def linesOf (e : TraceEntry) : List Int :=
  if 0 < e.size then pyRange (lineOf e.addr) (e.addr + e.size) cachelineBytes else []

def lineStores (e : TraceEntry) : List LineStore := (linesOf e).map fun a => ⟨e, a⟩

/-- A byte for every address. -/
abbrev Memory := Int → UInt8

/-- What a store record has for an address. -/
def recordByte (b : Int) (e : TraceEntry) : Option UInt8 :=
  e.svEntry.bind fun data =>
    if e.addr ≤ b ∧ b < e.addr + e.size then data[(b - e.addr).toNat]? else none

def LineStore.byte (b : Int) (s : LineStore) : Option UInt8 :=
  if lineOf b = s.line then recordByte b s.entry else none

def writeLine (m : Memory) (s : LineStore) : Memory := fun b => (s.byte b).getD (m b)

/-- A byte of the record lies in the line. -/
def touchesLine (e : TraceEntry) (a : Int) : Bool :=
  max e.addr a < min (e.addr + e.size) (a + cachelineBytes)

def platform : PmMachine LineStore TraceEntry Int Memory where
  line := LineStore.line
  covers := fun f s => touchesLine f s.line
  write := writeLine

abbrev PlatformEvent := Event LineStore TraceEntry TraceEntry

def eventsOf (e : TraceEntry) : List PlatformEvent :=
  if e.type.isFenceTy then [.fence e]
  else if e.type.isFlushTy then [.flush e]
  else if e.type.isStoreSeries then (lineStores e).map .store
  else []

def events (l : List TraceEntry) : List PlatformEvent := l.flatMap eventsOf

/-- Persistent memory with an image in it. -/
def imageMemory (pmAddr : Int) (img : Bytes) : Memory :=
  fun b => if pmAddr ≤ b then img.getD (b - pmAddr).toNat 0 else 0

/-- An image is what a crash behind some records can leave of persistent memory that had another
image in it before them. -/
def CrashImage (pmAddr : Int) (records : List TraceEntry) (img img' : Bytes) : Prop :=
  img'.length = img.length ∧ ∃ st, platform.Reaches (imageMemory pmAddr img) (events records) st ∧
    ∀ k : Nat, k < img.length → img'[k]? = some (st.memory (pmAddr + k))

/-! ## Lines -/

section

variable {e : TraceEntry} {a b : Int}

theorem mem_linesOf : a ∈ linesOf e ↔ Touches e a := by
  unfold linesOf Touches
  split_ifs with h
  · rw [mem_pyRange (by decide)]
    simp only [lineOf, alignToFloor, cachelineBytes]
    constructor
    · rintro ⟨i, rfl, hlt⟩
      refine ⟨max e.addr (e.addr / 64 * 64 + i * 64), ?_, ?_, ?_⟩
      · omega
      · omega
      · omega
    · rintro ⟨b, h1, h2, rfl⟩
      refine ⟨(b / 64 - e.addr / 64).toNat, ?_, ?_⟩
      · omega
      · omega
  · constructor
    · exact fun h => absurd h List.not_mem_nil
    · rintro ⟨b, h1, h2, -⟩
      omega

theorem mem_lineStores {s : LineStore} : s ∈ lineStores e ↔ s.entry = e ∧ Touches e s.line := by
  unfold lineStores
  rw [List.mem_map]
  constructor
  · rintro ⟨a, ha, rfl⟩
    exact ⟨rfl, mem_linesOf.mp ha⟩
  · rintro ⟨rfl, h⟩
    exact ⟨s.line, mem_linesOf.mpr h, rfl⟩

theorem nodup_lineStores (e : TraceEntry) : (lineStores e).Nodup := by
  refine List.Nodup.map (fun a b h => (LineStore.mk.inj h).2) ?_
  unfold linesOf
  split_ifs with h
  · refine List.Nodup.map (fun i j h => ?_) List.nodup_range
    simp only [cachelineBytes] at h
    omega
  · exact List.nodup_nil

/-- A flush that reaches a line of a store inside it has a byte in common with the line. -/
theorem touchesLine_iff : touchesLine e a = true ↔
    ∃ b, e.addr ≤ b ∧ b < e.addr + e.size ∧ a ≤ b ∧ b < a + cachelineBytes := by
  unfold touchesLine
  rw [decide_eq_true_eq]
  constructor
  · intro h
    exact ⟨max e.addr a, by omega, by omega, by omega, by omega⟩
  · rintro ⟨b, h1, h2, h3, h4⟩
    omega

end

/-! ## Memory -/

theorem write_comm (m : Memory) (s t : LineStore) (h : platform.line s ≠ platform.line t) :
    platform.write (platform.write m s) t = platform.write (platform.write m t) s := by
  funext b
  show (t.byte b).getD ((s.byte b).getD (m b)) = (s.byte b).getD ((t.byte b).getD (m b))
  unfold LineStore.byte
  by_cases hs : lineOf b = s.line
  · have ht : ¬ lineOf b = t.line := fun ht => h (hs.symm.trans ht)
    rw [if_neg ht]
    rfl
  · rw [if_neg hs]
    rfl

/-- The last store to write a byte decides about it. -/
theorem foldl_writeLine (l : List LineStore) (m : Memory) (b : Int) :
    l.foldl writeLine m b = (lastWrite (LineStore.byte b) l).getD (m b) := by
  induction l using List.reverseRecOn with
  | nil => rfl
  | append_singleton l s ih =>
    rw [List.foldl_append, List.foldl_cons, List.foldl_nil, lastWrite_append, lastWrite_singleton]
    show (s.byte b).getD (l.foldl writeLine m b) = _
    rw [ih]
    cases s.byte b with
    | none => rfl
    | some v => rfl

/-- Of the lines of a record at most one has the byte. -/
theorem lastWrite_lineStores (e : TraceEntry) (b : Int) :
    lastWrite (LineStore.byte b) (lineStores e) = recordByte b e := by
  by_cases hin : e.addr ≤ b ∧ b < e.addr + e.size
  · have hmem : (⟨e, lineOf b⟩ : LineStore) ∈ lineStores e :=
      mem_lineStores.mpr ⟨rfl, b, hin.1, hin.2, rfl⟩
    obtain ⟨l₁, l₂, hl⟩ := List.append_of_mem hmem
    have hnd := nodup_lineStores e
    rw [hl] at hnd
    have hother : ∀ s ∈ l₁ ++ l₂, s.byte b = none := by
      intro s hs
      have hs' : s ∈ lineStores e := by
        rw [hl]
        rcases List.mem_append.mp hs with hs | hs
        · exact List.mem_append_left _ hs
        · exact List.mem_append_right _ (List.mem_cons_of_mem _ hs)
      have hne : s ≠ ⟨e, lineOf b⟩ := by
        rintro rfl
        exact (List.nodup_cons.mp (List.nodup_middle.mp hnd)).1 hs
      refine if_neg fun heq => hne ?_
      obtain ⟨hse, -⟩ := mem_lineStores.mp hs'
      cases s
      simp_all
    rw [hl, lastWrite_append, lastWrite_eq_none _ fun s hs => hother s (List.mem_append_left _ hs)]
    have hcons : lastWrite (LineStore.byte b) (⟨e, lineOf b⟩ :: l₂) = recordByte b e := by
      rw [← List.singleton_append, lastWrite_append, lastWrite_singleton,
        lastWrite_eq_none _ fun s hs => hother s (List.mem_append_right _ hs), Option.none_or]
      exact if_pos rfl
    rw [hcons, Option.or_none]
  · have hnone : recordByte b e = none := by
      unfold recordByte
      cases e.svEntry with
      | none => rfl
      | some data => exact if_neg hin
    rw [hnone]
    refine lastWrite_eq_none _ fun s hs => ?_
    obtain ⟨rfl, -⟩ := mem_lineStores.mp hs
    unfold LineStore.byte
    rw [hnone, ite_self]

theorem lastWrite_flatMap_lineStores (l : List TraceEntry) (b : Int) :
    lastWrite (LineStore.byte b) (l.flatMap lineStores) = lastWrite (recordByte b) l := by
  induction l with
  | nil => rfl
  | cons e l ih =>
    rw [List.flatMap_cons, lastWrite_append, ih, lastWrite_lineStores, ← List.singleton_append,
      lastWrite_append, lastWrite_singleton]

end Hardware
end Silhouette
