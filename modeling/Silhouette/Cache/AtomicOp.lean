import Silhouette.Lib.Persist
import Mathlib.Data.Int.Order.Basic

/-!
# Atomic operations of the cache simulation

Stores, flushes and fences as `atomic_op.py` has them.  A `Store` object is shared
by every list that holds it, and its `state`, `flush_list` and `fence_list` change
in place.  The model separates the two: `Store` is the reference with the fields
set once by the constructor, and the heap maps a reference to the fields that
change.  Two occurrences of one object therefore always show the same state.

Sequence numbers, addresses and sizes are Python integers, hence `Int`.
-/

namespace Silhouette

def cachelineBytes : Int := 64

def atomicWriteBytes : Int := 8

/-- What `sys.maxsize` is. -/
def maxSize : Int := 9223372036854775807

def alignToFloor (x align : Int) : Int := x / align * align

/-- If already aligned, the next aligned address. -/
def alignToCeil (x align : Int) : Int := (1 + x / align) * align

def isAlignedBy (num align : Int) : Bool := num % align = 0

namespace Cache

open Lib.Persist

structure Flush where
  seq : Int
  addr : Int
  size : Int
  deriving DecidableEq, Repr

structure Fence where
  seq : Int
  deriving DecidableEq, Repr

inductive AtomicStoreState where
  | volatile
  | flushed
  | persisted
  deriving DecidableEq, Repr

/-- A reference to a `Store` object, with the fields no method reassigns. -/
structure Store where
  ref : Nat
  seq : Int
  addr : Int
  size : Int
  deriving DecidableEq, Repr

/-- The fields of a `Store` object that change after construction. -/
structure StoreObj where
  state : AtomicStoreState
  flushList : List Flush
  fenceList : List Fence
  deriving DecidableEq, Repr

namespace StoreObj

def init : StoreObj := ⟨.volatile, [], []⟩

def isClear (o : StoreObj) : Bool := o.state = .volatile

def isFlushing (o : StoreObj) : Bool := o.state = .flushed

def isPersisted (o : StoreObj) : Bool := o.state = .persisted

def acceptFlush (f : Flush) (o : StoreObj) : StoreObj :=
  { o with flushList := o.flushList ++ [f], state := .flushed }

def acceptFence (g : Fence) (o : StoreObj) : StoreObj :=
  { o with
    fenceList := o.fenceList ++ [g]
    state := if o.isClear then o.state else .persisted }

end StoreObj

/-- The objects a reference leads to. -/
def Heap := Nat → StoreObj

namespace Heap

/-- Every object as its constructor left it. -/
def fresh : Heap := fun _ => StoreObj.init

def modify (h : Heap) (r : Nat) (f : StoreObj → StoreObj) : Heap :=
  fun r' => if r' = r then f (h r') else h r'

/-- A loop that updates the object of each store in a list. -/
def modifyAll (h : Heap) (l : List Store) (f : StoreObj → StoreObj) : Heap :=
  l.foldl (fun h s => h.modify s.ref f) h

theorem modifyAll_append (h : Heap) (a b : List Store) (f : StoreObj → StoreObj) :
    h.modifyAll (a ++ b) f = (h.modifyAll a f).modifyAll b f :=
  List.foldl_append

/-- An object is updated once for each occurrence of its reference. -/
theorem modifyAll_apply (h : Heap) (l : List Store) (f : StoreObj → StoreObj) (r : Nat) :
    h.modifyAll l f r = f^[(l.map Store.ref).count r] (h r) := by
  induction l generalizing h with
  | nil => rfl
  | cons s rest ih =>
    show (h.modify s.ref f).modifyAll rest f r = _
    rw [ih, List.map_cons, List.count_cons]
    by_cases hr : s.ref = r
    · rw [modify, if_pos hr.symm]
      simp only [hr, beq_self_eq_true, if_true]
      exact (Function.iterate_succ_apply f _ _).symm
    · rw [modify, if_neg (Ne.symm hr)]
      simp [hr]

theorem modifyAll_of_notMem (h : Heap) {l : List Store} (f : StoreObj → StoreObj) {r : Nat}
    (hr : r ∉ l.map Store.ref) : h.modifyAll l f r = h r := by
  rw [modifyAll_apply, List.count_eq_zero_of_not_mem hr]
  rfl

end Heap

abbrev AtomicOp := Event Store Flush Fence

/-- The cacheline address `WitcherCache` files an address under. -/
def lineOf (addr : Int) : Int := alignToFloor addr cachelineBytes

/-- What `WitcherCacheline.accept_flush` asks of a store of its own line. -/
def Flush.contains (f : Flush) (s : Store) : Bool :=
  f.addr ≤ s.addr ∧ s.addr + s.size ≤ f.addr + f.size

/-- A flush reaches the stores it contains among those of its own line. -/
def Flush.covers (f : Flush) (s : Store) : Bool :=
  lineOf f.addr = lineOf s.addr ∧ f.contains s

/-- The operation stays inside the cacheline of its first byte. -/
def inOneLine : AtomicOp → Bool
  | .store s => s.addr + s.size ≤ lineOf s.addr + cachelineBytes
  | .flush f => f.addr + f.size ≤ lineOf f.addr + cachelineBytes
  | .fence _ => true

/-- No two stores of the list are one object. -/
def Fresh (ops : List AtomicOp) : Prop := ((stores ops).map Store.ref).Nodup

instance (ops : List AtomicOp) : Decidable (Fresh ops) :=
  inferInstanceAs (Decidable (List.Nodup _))

theorem lineOf_le (addr : Int) : lineOf addr ≤ addr := by
  simp only [lineOf, alignToFloor, cachelineBytes]
  omega

theorem Fresh.left {a b : List AtomicOp} (h : Fresh (a ++ b)) : Fresh a := by
  rw [Fresh, stores_append, List.map_append] at h
  exact (List.nodup_append.mp h).1

end Cache
end Silhouette
