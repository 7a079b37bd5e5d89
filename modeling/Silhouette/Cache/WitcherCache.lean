import Silhouette.Cache.AtomicOp
import Silhouette.Lib.Dict

/-!
# The Witcher cache

`WitcherCacheline` and `WitcherCache` of `witcher_cache.py`, with the heap passed
explicitly.  A failed assertion is `none`.  The backing binary file is the empty
one in every use, so a write-back only drops stores from their line.
-/

namespace Silhouette
namespace Cache

open Lib Lib.Persist

structure WitcherCacheline where
  address : Int
  size : Int
  storesList : List Store
  /-- The stores whose `flush_list` object was put on the list of duplicates. -/
  dupFlushList : List Store
  deriving DecidableEq, Repr

namespace WitcherCacheline

def new (address : Int) : WitcherCacheline := ⟨address, cachelineBytes, [], []⟩

def isEmpty (cl : WitcherCacheline) : Bool := cl.storesList.length = 0

def canAcceptStoreOp (cl : WitcherCacheline) (s : Store) : Bool :=
  cl.address ≤ s.addr ∧ s.addr + s.size ≤ cl.address + cl.size

def canAcceptFlushOp (cl : WitcherCacheline) (f : Flush) : Bool :=
  cl.address ≤ f.addr ∧ cl.address + cl.size ≥ f.addr + f.size

def acceptStore (cl : WitcherCacheline) (s : Store) : Option WitcherCacheline :=
  if cl.canAcceptStoreOp s then some { cl with storesList := cl.storesList ++ [s] } else none

/-- Mark every store of the line that the flush contains as flushing. -/
def acceptFlush (cl : WitcherCacheline) (h : Heap) (f : Flush) : Option Heap :=
  if cl.canAcceptFlushOp f then
    some (cl.storesList.foldl
      (fun h s => if f.contains s then h.modify s.ref (StoreObj.acceptFlush f) else h) h)
  else none

/-- Persisted stores stay in the line; a write-back removes them. -/
def acceptFence (cl : WitcherCacheline) (h : Heap) (g : Fence) : Heap × WitcherCacheline :=
  let r := cl.storesList.foldl
    (fun (acc : Heap × List Store) s =>
      (acc.1.modify s.ref (StoreObj.acceptFence g),
        if (acc.1 s.ref).flushList.length > 1 then acc.2 ++ [s] else acc.2))
    (h, cl.dupFlushList)
  (r.1, { cl with dupFlushList := r.2 })

def writeBackAllFlushingStores (h : Heap) (cl : WitcherCacheline) : WitcherCacheline :=
  { cl with storesList := cl.storesList.filter fun s => !(h s.ref).isFlushing }

def writeBackAllPersistedStores (h : Heap) (cl : WitcherCacheline) : WitcherCacheline :=
  { cl with storesList := cl.storesList.filter fun s => !(h s.ref).isPersisted }

end WitcherCacheline

structure WitcherCache where
  cachelineDict : Dict Int WitcherCacheline
  lastOp : Option AtomicOp
  dupFenceList : List (Fence × Fence)
  dupFlushList : List Store

def WitcherCache.new : WitcherCache := ⟨Dict.empty, none, [], []⟩

/-- A cache together with the objects its lines refer to. -/
structure Sim where
  heap : Heap
  cache : WitcherCache

namespace Sim

/-- An empty cache over objects as their constructors left them. -/
def start : Sim := ⟨Heap.fresh, WitcherCache.new⟩

def getCachelines (m : Sim) : List WitcherCacheline := m.cache.cachelineDict.values

/-- The line of an address, created when the dictionary has none. -/
def getCachelineFromAddress (m : Sim) (address : Int) : WitcherCacheline :=
  (m.cache.cachelineDict.get? (lineOf address)).getD (WitcherCacheline.new (lineOf address))

def setCacheline (m : Sim) (address : Int) (cl : WitcherCacheline) : Sim :=
  { m with cache :=
    { m.cache with cachelineDict := m.cache.cachelineDict.set (lineOf address) cl } }

def acceptStore (m : Sim) (s : Store) : Option Sim :=
  ((m.getCachelineFromAddress s.addr).acceptStore s).map (m.setCacheline s.addr)

def acceptFlush (m : Sim) (f : Flush) : Option Sim :=
  let cl := m.getCachelineFromAddress f.addr
  (cl.acceptFlush m.heap f).map fun h => { m.setCacheline f.addr cl with heap := h }

/-- Every line accepts the fence and hands its duplicates to the cache. -/
def acceptFence (m : Sim) (g : Fence) : Sim :=
  let r := m.getCachelines.foldl
    (fun (acc : Heap × List Store) cl =>
      let s := cl.acceptFence acc.1 g
      (s.1, acc.2 ++ s.2.dupFlushList))
    (m.heap, m.cache.dupFlushList)
  { heap := r.1
    cache :=
      { m.cache with
        cachelineDict := m.cache.cachelineDict.mapValues fun cl => { cl with dupFlushList := [] }
        dupFlushList := r.2 } }

def setLastOp (op : AtomicOp) (m : Sim) : Sim := { m with cache := { m.cache with lastOp := some op } }

/-- Two fences in a row are recorded as a duplicate. -/
def noteDupFence (m : Sim) (g : Fence) : Sim :=
  match m.cache.lastOp with
  | some (.fence last) =>
    { m with cache := { m.cache with dupFenceList := m.cache.dupFenceList ++ [(last, g)] } }
  | _ => m

def accept (m : Sim) : AtomicOp → Option Sim
  | .store s => (m.acceptStore s).map (setLastOp (.store s))
  | .flush f => (m.acceptFlush f).map (setLastOp (.flush f))
  | .fence g => some (setLastOp (.fence g) ((m.acceptFence g).noteDupFence g))

/-- Apply a write-back to every line and delete the lines it empties. -/
def writeBack (wb : WitcherCacheline → WitcherCacheline) (m : Sim) : Sim :=
  { m with cache :=
    { m.cache with
      cachelineDict := (m.cache.cachelineDict.mapValues wb).filterValues fun cl => !cl.isEmpty } }

def writeBackAllFlushingStores (m : Sim) : Sim :=
  m.writeBack (WitcherCacheline.writeBackAllFlushingStores m.heap)

def writeBackAllPersistedStores (m : Sim) : Sim :=
  m.writeBack (WitcherCacheline.writeBackAllPersistedStores m.heap)

/-- The stores of the cache, line by line, whose object satisfies `p`. -/
def getAllWhere (p : StoreObj → Bool) (m : Sim) : List Store :=
  m.getCachelines.flatMap fun cl => cl.storesList.filter fun s => p (m.heap s.ref)

def getAllVolatileOps (m : Sim) : List Store := m.getAllWhere StoreObj.isClear

def getAllFlushingOps (m : Sim) : List Store := m.getAllWhere StoreObj.isFlushing

def getAllPersistedOps (m : Sim) : List Store := m.getAllWhere StoreObj.isPersisted

def getAllOps (m : Sim) : List Store := m.getCachelines.flatMap WitcherCacheline.storesList

def getInFightOps (m : Sim) : List Store := m.getAllVolatileOps ++ m.getAllFlushingOps

def getInFightNums (m : Sim) : Nat := m.getAllVolatileOps.length + m.getAllFlushingOps.length

end Sim

end Cache
end Silhouette
