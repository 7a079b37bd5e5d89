import Silhouette.CheatSheet.Sheets
import Silhouette.Mech.PMStore

/-!
# What the reasoners do to the sheets

`MechUndoJnlReason` and `MechLSWReason` walk the stores of an operation and advance the
sheets as they go.  The log-structured writes take every store.  The journal looks at the
head only inside a transaction, and at the tail only there or to open one, so the stores
it misses are those outside.

`Journaled` says that it misses none.  Then reasoning about an operation and updating the
sheets without reasoning do the same.
-/

namespace Silhouette
namespace Mech

open Lib Trace CheatSheet

section

variable (info : TraceEntry → Deduced)

/-- The stores of an operation, as `MechPMStoreReason` lists them. -/
def reasonedStores (op : OpTraceEntry) : List TraceEntry :=
  ((sortedEntries op).getD []).filter fun e => e.type.isStoreSeries

/-- The journal sheet and `tx_started` after one store. -/
def scanStore (x : Bool × UndoJnlCheatSheetBase) (e : TraceEntry) : Bool × UndoJnlCheatSheetBase :=
  match (info e).structName, (info e).varNames with
  | some st, [_] =>
    if x.1 then
      let u := (x.2.updateTail info e).2
      let r := u.updateHead info e
      (!r.1, r.2)
    else if x.2.preAlloc then x.2.updateTail info e
    else (x.2.logEntryStruct.contains st, x.2)
  | _, _ => x

def reasonUndoJnl (op : OpTraceEntry) (u : UndoJnlCheatSheetBase) : UndoJnlCheatSheetBase :=
  ((reasonedStores op).foldl (scanStore info) (false, u)).2

def reasonLsw (op : OpTraceEntry) (l : LSWCheatSheetBase) : LSWCheatSheetBase :=
  (reasonedStores op).foldl (fun l e => l.updateTail info e) l

/-- The part of `deduce_mech` that changes the sheets. -/
def deduceMech (op : OpTraceEntry) (s : CheatSheetBase) : CheatSheetBase where
  undoJnlSheet := s.undoJnlSheet.map (reasonUndoJnl info op)
  lswSheetList := s.lswSheetList.map (reasonLsw info op)

/-! ## Transactions -/

/-- A store that opens a transaction: to the tail where the log space is allocated first,
else to a log entry. -/
def opens (u : UndoJnlCheatSheetBase) (e : TraceEntry) : Bool :=
  match (info e).structName, (info e).varNames with
  | some st, [_] =>
    if u.preAlloc then (u.tailComputation.update info e).1 else u.logEntryStruct.contains st
  | _, _ => false

/-- Is a transaction open behind these stores.  A store to the head closes it. -/
def txOpen (u : UndoJnlCheatSheetBase) (stores : List TraceEntry) : Bool :=
  stores.foldl (fun b e => if b then !(u.headComputation.update info e).1 else opens info u e) false

/-- Outside a transaction there is no store to the head, nor to the tail unless it opens
one. -/
def Journaled (u : UndoJnlCheatSheetBase) (stores : List TraceEntry) : Prop :=
  ∀ i (h : i < stores.length), txOpen info u (stores.take i) = false →
    u.headComputation.tracks info stores[i] = false ∧
      (u.preAlloc = false → u.tailComputation.tracks info stores[i] = false)

instance (u : UndoJnlCheatSheetBase) (stores : List TraceEntry) :
    Decidable (Journaled info u stores) :=
  inferInstanceAs (Decidable (∀ i (_ : i < stores.length), _ → _))

end

section

variable {info : TraceEntry → Deduced}

theorem txOpen_append (u : UndoJnlCheatSheetBase) (stores : List TraceEntry) (e : TraceEntry) :
    txOpen info u (stores ++ [e]) =
      if txOpen info u stores then !(u.headComputation.update info e).1 else opens info u e := by
  rw [txOpen, List.foldl_append]
  rfl

theorem update_fst_mapValues (f : String → String → Bool → Option Int → Option Int)
    (c : ComputationSheet) (e : TraceEntry) :
    ((c.mapValues f).update info e).1 = (c.update info e).1 := by
  rw [ComputationSheet.update, ComputationSheet.update]
  cases matchedVar info e with
  | none => rfl
  | some m =>
    show ((c.mapValues f).setValue m.1 m.2.1 m.2.2).1 = (c.setValue m.1 m.2.1 m.2.2).1
    rw [ComputationSheet.setValue, ComputationSheet.setValue]
    simp only [ComputationSheet.isPureNumber_mapValues, ComputationSheet.containVar_mapValues]
    split_ifs
    · rfl
    · rfl
    · rfl

/-- A store that does not match leaves the computation as it is. -/
theorem update_eq_of_fst {c : ComputationSheet} {e : TraceEntry} (h : (c.update info e).1 = false) :
    (c.update info e).2 = c := by
  rw [ComputationSheet.update] at h ⊢
  cases hm : matchedVar info e with
  | none => rfl
  | some m =>
    rw [hm] at h
    simp only [ComputationSheet.setValue] at h ⊢
    by_cases hpure : c.isPureNumber = true
    · rw [if_pos hpure]
    · rw [if_neg hpure] at h ⊢
      by_cases hvar : c.containVar m.1 m.2.1 = true
      · rw [if_pos hvar] at h
        cases h
      · rw [if_neg hvar]

theorem Journaled.init {u : UndoJnlCheatSheetBase} {stores : List TraceEntry} {e : TraceEntry}
    (h : Journaled info u (stores ++ [e])) : Journaled info u stores := by
  intro i hi hopen
  have hlen : i < (stores ++ [e]).length := by
    rw [List.length_append]
    omega
  have := h i hlen (by rwa [List.take_append_of_le_length (le_of_lt hi)])
  rwa [List.getElem_append_left hi] at this

theorem Journaled.last {u : UndoJnlCheatSheetBase} {stores : List TraceEntry} {e : TraceEntry}
    (h : Journaled info u (stores ++ [e])) (hopen : txOpen info u stores = false) :
    u.headComputation.tracks info e = false ∧
      (u.preAlloc = false → u.tailComputation.tracks info e = false) := by
  have := h stores.length (by simp) (by rwa [List.take_left])
  rwa [List.getElem_concat_length rfl] at this

/-- An entry is matched to one variable, or whatever looks at that variable passes it over. -/
theorem matched_or (info : TraceEntry → Deduced) (e : TraceEntry) :
    (∃ st v, (info e).structName = some st ∧ (info e).varNames = [v]) ∨
      ∀ {β : Type} (f : String → String → β) (d : β),
        (match (info e).structName, (info e).varNames with
          | some st, [v] => f st v
          | _, _ => d) = d := by
  cases (info e).structName with
  | none => exact Or.inr fun f d => rfl
  | some st =>
    match (info e).varNames with
    | [] => exact Or.inr fun f d => rfl
    | [v] => exact Or.inl ⟨st, v, rfl, rfl⟩
    | _ :: _ :: _ => exact Or.inr fun f d => rfl

/-- An entry that is not matched changes nothing. -/
theorem matched_or_idle (info : TraceEntry → Deduced) (e : TraceEntry) :
    (∃ st v, (info e).structName = some st ∧ (info e).varNames = [v]) ∨
      matchedVar info e = none ∧ (∀ x, scanStore info x e = x) ∧ ∀ u, opens info u e = false := by
  rcases matched_or info e with hmatched | hskip
  · exact Or.inl hmatched
  · exact Or.inr ⟨hskip _ none, fun x => hskip _ x, fun u => hskip _ false⟩

theorem scanStore_eq {u : UndoJnlCheatSheetBase} {b : Bool} {e : TraceEntry}
    (h : b = false → u.headComputation.tracks info e = false ∧
      (u.preAlloc = false → u.tailComputation.tracks info e = false)) :
    scanStore info (b, u) e =
      (if b then !(u.headComputation.update info e).1 else opens info u e, u.update info e) := by
  rcases matched_or_idle info e with ⟨st, v, hst, hv⟩ | ⟨hnone, hidle, hopens⟩
  · simp only [scanStore, opens, hst, hv]
    cases b with
    | true => rfl
    | false =>
      obtain ⟨hhead, htail⟩ := h rfl
      have hskip : (u.updateHead info e).2 = u := by
        show { u with headComputation := (u.headComputation.update info e).2 } = u
        rw [ComputationSheet.update_of_not_tracks info hhead]
      simp only [Bool.false_eq_true, if_false, UndoJnlCheatSheetBase.update, hskip]
      cases hpre : u.preAlloc with
      | true => rfl
      | false =>
        have hstay : (u.updateTail info e).2 = u := by
          show { u with tailComputation := (u.tailComputation.update info e).2 } = u
          rw [ComputationSheet.update_of_not_tracks info (htail hpre)]
        rw [hstay]
        rfl
  · have hupdate : ∀ c : ComputationSheet, c.update info e = (false, c) := by
      intro c
      rw [ComputationSheet.update, hnone]
    have hsame : u.update info e = u := by
      show { u with
        headComputation := (u.headComputation.update info e).2
        tailComputation := (u.tailComputation.update info e).2 } = u
      rw [hupdate, hupdate]
    rw [hidle, hopens, hsame, hupdate]
    cases b with
    | true => rfl
    | false => rfl

/-- Where no store is missed, the walk over the stores updates head and tail with all of
them. -/
theorem foldl_scanStore {u : UndoJnlCheatSheetBase} {stores : List TraceEntry}
    (h : Journaled info u stores) :
    stores.foldl (scanStore info) (false, u) =
      (txOpen info u stores, stores.foldl (fun u e => u.update info e) u) := by
  induction stores using List.reverseRecOn with
  | nil => rfl
  | append_singleton stores e ih =>
    rw [List.foldl_append, ih h.init, List.foldl_cons, List.foldl_nil, List.foldl_append,
      List.foldl_cons, List.foldl_nil, txOpen_append]
    -- the values do not matter for what a store does to the transaction
    rw [UndoJnlCheatSheetBase.foldl_update, scanStore_eq]
    · simp only [ComputationSheet.after, opens, update_fst_mapValues]
    · simp only [ComputationSheet.after, ComputationSheet.tracks_mapValues]
      exact h.last

theorem Journaled.after {u : UndoJnlCheatSheetBase} {stores : List TraceEntry}
    (h : Journaled info u stores) (before : List TraceEntry) :
    Journaled info (before.foldl (fun u e => u.update info e) u) stores := by
  have hopen : ∀ l, txOpen info (before.foldl (fun u e => u.update info e) u) l = txOpen info u l := by
    intro l
    simp only [txOpen, UndoJnlCheatSheetBase.foldl_update, ComputationSheet.after, opens,
      update_fst_mapValues]
  intro i hi
  rw [hopen, UndoJnlCheatSheetBase.foldl_update]
  simp only [ComputationSheet.after, ComputationSheet.tracks_mapValues]
  exact h i hi

/-- The stores of an operation that was split off a trace. -/
theorem reasonedStores_eq {r : TraceReader} {op : OpTraceEntry} (h : Split r op) :
    reasonedStores op = op.pmStoreEntries := by
  rw [reasonedStores, sortedEntries_eq h.wf, Option.getD_some, OpTraceEntry.pmEntries,
    pmSortedItems_eq h.ordered, OpTraceEntry.pmStoreEntries]
  have hrecord : ∀ x ∈ op.pmSeqEntryMap.items, x.2.filter (fun e => e.type.isStoreSeries) =
      (x.2.head?.filter fun e => e.type.isStoreSeries).toList := by
    intro x hx
    obtain ⟨e, rfl, -⟩ := h.wf.item x hx
    rw [e.head?_getEntryList, TraceEntry.getEntryList]
    -- the flush that is split off a store is no store
    have hflush : e.flushOf.type.isStoreSeries = false := rfl
    by_cases hpair : (e.type.isStoreAndFlushTy || e.type.isCASTy) = true
    · rw [if_pos hpair, List.filter_cons, List.filter_cons, hflush]
      cases hst : e.type.isStoreSeries <;> simp [hst, Option.filter]
    · rw [if_neg hpair, List.filter_cons]
      cases hst : e.type.isStoreSeries <;> simp [hst, Option.filter]
  rw [List.filter_flatMap, List.filterMap_eq_flatMap_toList]
  exact List.flatMap_congr hrecord

/-- Reasoning about an operation updates the sheets with its stores. -/
theorem deduceMech_eq {r : TraceReader} {op : OpTraceEntry} (hop : Split r op) {s : CheatSheetBase}
    (h : ∀ u ∈ s.undoJnlSheet, Journaled info u op.pmStoreEntries) :
    deduceMech info op s = op.pmStoreEntries.foldl (fun s e => s.update info e) s := by
  rw [CheatSheetBase.foldl_update, deduceMech]
  congr 1
  · refine Option.map_congr (fun u hu => ?_)
    rw [reasonUndoJnl, reasonedStores_eq hop, foldl_scanStore (h u hu)]
  · refine List.map_congr_left (fun l _ => ?_)
    rw [reasonLsw, reasonedStores_eq hop]

end

end Mech
end Silhouette
