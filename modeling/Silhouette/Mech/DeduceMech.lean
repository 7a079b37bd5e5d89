import Silhouette.Mech.InvariantCheck
import Mathlib.Data.Finset.Basic

/-!
# The stores of the deduced mechanisms

`DeduceMech.get_persist_seq`: which stores belong to a mechanism, which of them are to be persisted
alone and which are to be left out alone.
-/

namespace Silhouette
namespace Mech

open Lib Trace

/-- The entries of the reasoners that have run. -/
structure DeduceMech where
  pmstoreReason : List MechPMStoreEntry
  undojnlReason : Option (List MechUndoJnlEntry) := none
  repReason : Option (List MechReplEntry) := none
  lswReasonList : List (List MechLSWEntry) := []

/-- The three sets that `get_persist_seq` returns. -/
structure PersistSeq where
  persistSelfSeqSet : Finset Int := ∅
  persistOtherSeqSet : Finset Int := ∅
  mechSeqSet : Finset Int := ∅

def seqsOf (stores : List MechPMStoreEntry) : Finset Int := (stores.map fun s => s.op.seq).toFinset

theorem mem_seqsOf {stores : List MechPMStoreEntry} {x : Int} :
    x ∈ seqsOf stores ↔ ∃ s ∈ stores, s.op.seq = x := by
  rw [seqsOf, List.mem_toFinset, List.mem_map]

def MechUndoJnlEntry.getAllSeq (e : MechUndoJnlEntry) : Finset Int := seqsOf e.stores

def MechReplEntry.getAllSeq (e : MechReplEntry) : Finset Int :=
  insert e.storeOp.opSt.seq (seqsOf e.storesToPrimaryReplica)

def MechLSWEntry.getAllSeq (e : MechLSWEntry) : Finset Int := seqsOf e.stores

namespace PersistSeq

section

variable (checkUnsafe checkRecovery : Bool)

/-- To check the recovery of the journal, everything but the head is persisted. -/
def addJnl (p : PersistSeq) (e : MechUndoJnlEntry) : PersistSeq where
  persistSelfSeqSet :=
    if checkUnsafe then p.persistSelfSeqSet ∪ e.unsafePselfSet else p.persistSelfSeqSet
  persistOtherSeqSet :=
    let others :=
      if checkUnsafe then p.persistOtherSeqSet ∪ e.unsafePotherSet else p.persistOtherSeqSet
    if checkRecovery then others ∪ seqsOf e.endStore.toList else others
  mechSeqSet := p.mechSeqSet ∪ e.getAllSeq

/-- The copy is left out to see the mismatch, and persisted alone to see a partial copy. -/
def addRep (p : PersistSeq) (e : MechReplEntry) : PersistSeq where
  persistSelfSeqSet :=
    let selves :=
      if checkUnsafe then p.persistSelfSeqSet ∪ e.unsafePselfSet else p.persistSelfSeqSet
    if checkRecovery then insert e.storeOp.opSt.seq selves else selves
  persistOtherSeqSet :=
    let others :=
      if checkUnsafe then p.persistOtherSeqSet ∪ e.unsafePotherSet else p.persistOtherSeqSet
    if checkRecovery then insert e.storeOp.opSt.seq others else others
  mechSeqSet := p.mechSeqSet ∪ e.getAllSeq

/-- The updates of a log are atomic: there is nothing to check. -/
def addLsw (p : PersistSeq) (e : MechLSWEntry) : PersistSeq :=
  { p with mechSeqSet := p.mechSeqSet ∪ e.getAllSeq }

end

end PersistSeq

namespace DeduceMech

def jnlEntries (d : DeduceMech) : List MechUndoJnlEntry := d.undojnlReason.getD []

def repEntries (d : DeduceMech) : List MechReplEntry := d.repReason.getD []

def lswEntries (d : DeduceMech) : List MechLSWEntry := d.lswReasonList.flatten

def getPersistSeq (d : DeduceMech) (checkUnsafe checkRecovery : Bool) : PersistSeq :=
  let p := d.jnlEntries.foldl (PersistSeq.addJnl checkUnsafe checkRecovery) {}
  let p := d.repEntries.foldl (PersistSeq.addRep checkUnsafe checkRecovery) p
  d.lswEntries.foldl PersistSeq.addLsw p

/-- All entries are about the stores of one operation. -/
structure Over (d : DeduceMech) (op : OpTraceEntry) : Prop where
  jnl : ∀ e ∈ d.jnlEntries, ∀ s ∈ e.stores, op.IsPmStore s.op
  rep : ∀ e ∈ d.repEntries, op.IsPmStore e.storeOp.opSt ∧
    ∀ s ∈ e.storesToPrimaryReplica, op.IsPmStore s.op
  lsw : ∀ e ∈ d.lswEntries, ∀ s ∈ e.stores, op.IsPmStore s.op

variable {d : DeduceMech} {x : Int}

theorem mem_mechSeqSet {checkUnsafe checkRecovery : Bool} :
    x ∈ (d.getPersistSeq checkUnsafe checkRecovery).mechSeqSet ↔
      (∃ e ∈ d.jnlEntries, x ∈ e.getAllSeq) ∨ (∃ e ∈ d.repEntries, x ∈ e.getAllSeq) ∨
        ∃ e ∈ d.lswEntries, x ∈ e.getAllSeq := by
  have hjnl := foldl_collects (f := PersistSeq.addJnl checkUnsafe checkRecovery)
    (fun p x => x ∈ p.mechSeqSet) (fun e x => x ∈ e.getAllSeq) fun _ _ _ => Finset.mem_union
  have hrep := foldl_collects (f := PersistSeq.addRep checkUnsafe checkRecovery)
    (fun p x => x ∈ p.mechSeqSet) (fun e x => x ∈ e.getAllSeq) fun _ _ _ => Finset.mem_union
  have hlsw := foldl_collects (f := PersistSeq.addLsw)
    (fun p x => x ∈ p.mechSeqSet) (fun e x => x ∈ e.getAllSeq) fun _ _ _ => Finset.mem_union
  rw [getPersistSeq, hlsw, hrep, hjnl, or_assoc, or_assoc]
  simp

theorem mem_persistSelfSeqSet :
    x ∈ (d.getPersistSeq false true).persistSelfSeqSet ↔
      ∃ e ∈ d.repEntries, x = e.storeOp.opSt.seq := by
  have hjnl := foldl_collects (f := PersistSeq.addJnl false true)
    (fun p x => x ∈ p.persistSelfSeqSet) (fun _ _ => False) (by simp [PersistSeq.addJnl])
  have hrep := foldl_collects (f := PersistSeq.addRep false true)
    (fun p x => x ∈ p.persistSelfSeqSet) (fun e x => x = e.storeOp.opSt.seq)
    (by simp [PersistSeq.addRep, or_comm])
  have hlsw := foldl_collects (f := PersistSeq.addLsw)
    (fun p x => x ∈ p.persistSelfSeqSet) (fun _ _ => False) (by simp [PersistSeq.addLsw])
  rw [getPersistSeq, hlsw, hrep, hjnl]
  simp

theorem mem_persistOtherSeqSet :
    x ∈ (d.getPersistSeq false true).persistOtherSeqSet ↔
      (∃ e ∈ d.jnlEntries, x ∈ seqsOf e.endStore.toList) ∨
        ∃ e ∈ d.repEntries, x = e.storeOp.opSt.seq := by
  have hjnl := foldl_collects (f := PersistSeq.addJnl false true)
    (fun p x => x ∈ p.persistOtherSeqSet) (fun e x => x ∈ seqsOf e.endStore.toList)
    (by simp [PersistSeq.addJnl])
  have hrep := foldl_collects (f := PersistSeq.addRep false true)
    (fun p x => x ∈ p.persistOtherSeqSet) (fun e x => x = e.storeOp.opSt.seq)
    (by simp [PersistSeq.addRep, or_comm])
  have hlsw := foldl_collects (f := PersistSeq.addLsw)
    (fun p x => x ∈ p.persistOtherSeqSet) (fun _ _ => False) (by simp [PersistSeq.addLsw])
  rw [getPersistSeq, hlsw, hrep, hjnl]
  simp

theorem endStore_mem_stores {e : MechUndoJnlEntry} {s : MechPMStoreEntry}
    (hs : e.endStore = some s) : s ∈ e.stores := by
  rw [MechUndoJnlEntry.endStore, Option.or_eq_some_iff] at hs
  rcases hs with hs | ⟨-, hs⟩ <;> simp [MechUndoJnlEntry.stores, hs]

theorem persistSelf_subset_mech :
    (d.getPersistSeq false true).persistSelfSeqSet ⊆ (d.getPersistSeq false true).mechSeqSet := by
  intro x hx
  obtain ⟨e, he, rfl⟩ := mem_persistSelfSeqSet.mp hx
  exact mem_mechSeqSet.mpr (.inr (.inl ⟨e, he, Finset.mem_insert_self _ _⟩))

theorem persistOther_subset_mech :
    (d.getPersistSeq false true).persistOtherSeqSet ⊆ (d.getPersistSeq false true).mechSeqSet := by
  intro x hx
  rcases mem_persistOtherSeqSet.mp hx with ⟨e, he, hx⟩ | ⟨e, he, rfl⟩
  · obtain ⟨s, hs, rfl⟩ := mem_seqsOf.mp hx
    refine mem_mechSeqSet.mpr (.inl ⟨e, he, mem_seqsOf.mpr ⟨s, ?_, rfl⟩⟩)
    exact endStore_mem_stores (Option.mem_toList.mp hs)
  · exact mem_mechSeqSet.mpr (.inr (.inl ⟨e, he, Finset.mem_insert_self _ _⟩))

/-- The stores of the three sets are stores of the operation. -/
theorem Over.exists_store {op : OpTraceEntry} (h : d.Over op)
    (hx : x ∈ (d.getPersistSeq false true).mechSeqSet) : ∃ st, op.IsPmStore st ∧ st.seq = x := by
  rcases mem_mechSeqSet.mp hx with ⟨e, he, hx⟩ | ⟨e, he, hx⟩ | ⟨e, he, hx⟩
  · obtain ⟨s, hs, rfl⟩ := mem_seqsOf.mp hx
    exact ⟨s.op, h.jnl e he s hs, rfl⟩
  · rcases Finset.mem_insert.mp hx with rfl | hx
    · exact ⟨_, (h.rep e he).1, rfl⟩
    · obtain ⟨s, hs, rfl⟩ := mem_seqsOf.mp hx
      exact ⟨s.op, (h.rep e he).2 s hs, rfl⟩
  · obtain ⟨s, hs, rfl⟩ := mem_seqsOf.mp hx
    exact ⟨s.op, h.lsw e he s hs, rfl⟩

end DeduceMech

end Mech
end Silhouette
