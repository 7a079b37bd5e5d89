import Silhouette.Mech.UndoJnlWalk

/-!
# In-place writes and the entries of a journal

Behind the walk every transaction takes the stores to the ranges that it logged, between its commit and
its head.  That part is right whatever the stores are.  The entries are not alike, however: only the
first one remembers that the log space is allocated first, so that the others are checked as if their
tails were the commits.  `journal_right_iff` says when that shows.
-/

namespace Silhouette
namespace Mech

open Lib Trace CheatSheet

/-- The write is to the range that the logging entry has logged. -/
def UndoJnlLoggingEntry.OverlapsLogged (le : UndoJnlLoggingEntry) (w : MechPMStoreEntry) : Prop :=
  ∃ addr size, le.loggedAddr = some addr ∧ le.loggedSize = some size ∧
    addr < w.phyAddr + w.size ∧ w.phyAddr < addr + size

/-- The write is issued between the commit and the head.  The commit is the one of the logging entry
where the log space is allocated first, else the tail. -/
def MechUndoJnlEntry.InWindow (preAlloc : Bool) (e : MechUndoJnlEntry) (le : UndoJnlLoggingEntry)
    (w : MechPMStoreEntry) : Prop :=
  ∃ commit head, (if preAlloc then le.loggingCommitList = [commit] else e.tailStore = some commit) ∧
    e.headStore = some head ∧ commit.op.seq ≤ w.op.seq ∧ w.op.seq < head.op.seq

/-- The reasoner finds the transactions in their order, all with the discipline of the sheet, and gives
them in-place writes to what they logged that are in their windows. -/
def JournalRight (info : TraceEntry → Deduced) (structAddr : TraceEntry → Int) (pmAddr : Int)
    (sheet : UndoJnlSheet) (pmstores : List MechPMStoreEntry) : Prop :=
  ∃ entries, MechUndoJnlReason.entries info structAddr pmAddr sheet pmstores = some entries ∧
    List.Forall₂ (MechUndoJnlEntry.EntryOf info structAddr sheet)
      (transactions info sheet.base pmstores) entries ∧
    (∀ e ∈ entries, e.preAlloc = sheet.base.preAlloc) ∧
    ∀ e ∈ entries, ∀ le ∈ e.loggingEntryMap.values, ∀ w ∈ le.inPlaceWriteList,
      le.OverlapsLogged w ∧ e.InWindow sheet.base.preAlloc le w

/-! ## Taking the in-place writes -/

section

variable {pre : Bool}

/-- What is taken is to the range, and behind the commit if that is asked for. -/
theorem takes_spec {le : UndoJnlLoggingEntry} {pm : MechPMStoreEntry} {checkCommit : Bool}
    (h : le.takes pm checkCommit = true) : le.OverlapsLogged pm ∧
      (checkCommit = true → ∃ commit, le.loggingCommitList = [commit] ∧
        commit.op.seq ≤ pm.op.seq) := by
  rw [UndoJnlLoggingEntry.takes, Bool.and_eq_true] at h
  obtain ⟨hcommit, hrange⟩ := h
  constructor
  · cases haddr : le.loggedAddr with
    | none => rw [haddr] at hrange; cases hrange
    | some addr =>
      cases hsize : le.loggedSize with
      | none => rw [haddr, hsize] at hrange; cases hrange
      | some size =>
        rw [haddr, hsize] at hrange
        have hover := (Bool.and_eq_true_iff.mp hrange).2
        rw [isOverlapping, decide_eq_true_eq] at hover
        exact ⟨addr, size, haddr, hsize, by omega, by omega⟩
  · intro hcheck
    rw [hcheck] at hcommit
    match hlist : le.loggingCommitList with
    | [] => rw [hlist] at hcommit; cases hcommit
    | [commit] =>
      rw [hlist] at hcommit
      exact ⟨commit, rfl, of_decide_eq_true hcommit⟩
    | _ :: _ :: _ => rw [hlist] at hcommit; cases hcommit

namespace MechUndoJnlEntry

/-- The entry is the other one with in-place writes taken. -/
structure Taken (pre : Bool) (e e' : MechUndoJnlEntry) : Prop where
  preAlloc : e'.preAlloc = e.preAlloc
  headStore : e'.headStore = e.headStore
  tailStore : e'.tailStore = e.tailStore
  txCommitStore : e'.txCommitStore = e.txCommitStore
  writes : ∀ a, (e'.logAt a).loggingWriteList = (e.logAt a).loggingWriteList
  data : ∀ a, (e'.logAt a).loggingDataList = (e.logAt a).loggingDataList
  commits : ∀ a, (e'.logAt a).loggingCommitList = (e.logAt a).loggingCommitList
  right : ∀ le ∈ e'.loggingEntryMap.values, ∀ w ∈ le.inPlaceWriteList,
    le.OverlapsLogged w ∧ e'.InWindow pre le w

/-- An entry without in-place writes. -/
theorem Taken.refl {e : MechUndoJnlEntry} (h : ∀ a, (e.logAt a).inPlaceWriteList = []) :
    Taken pre e e where
  preAlloc := rfl
  headStore := rfl
  tailStore := rfl
  txCommitStore := rfl
  writes := fun _ => rfl
  data := fun _ => rfl
  commits := fun _ => rfl
  right := by
    intro le hle w hw
    obtain ⟨a, ha⟩ := Dict.mem_values.mp hle
    have hnil := h a
    rw [logAt, ha, Option.getD_some] at hnil
    rw [hnil] at hw
    cases hw

/-- The logging entry behind the lookup of a store. -/
def withWrite (pm : MechPMStoreEntry) (checkCommit : Bool) (le : UndoJnlLoggingEntry) :
    UndoJnlLoggingEntry :=
  if le.takes pm checkCommit then { le with inPlaceWriteList := le.inPlaceWriteList ++ [pm] } else le

theorem logAt_lookupInplaceWrite (e : MechUndoJnlEntry) (pm : MechPMStoreEntry)
    (checkCommit : Bool) (a : Int) :
    (e.lookupInplaceWrite pm checkCommit).logAt a = withWrite pm checkCommit (e.logAt a) := by
  have hempty : withWrite pm checkCommit {} = {} :=
    if_neg (by simp [UndoJnlLoggingEntry.takes])
  rw [logAt, logAt, lookupInplaceWrite, Dict.get?_mapValues]
  cases e.loggingEntryMap.get? a with
  | none => exact hempty.symm
  | some le => rfl

/-- Only the in-place writes change. -/
theorem withWrite_lists (pm : MechPMStoreEntry) (checkCommit : Bool) (le : UndoJnlLoggingEntry) :
    (withWrite pm checkCommit le).loggingWriteList = le.loggingWriteList ∧
      (withWrite pm checkCommit le).loggingDataList = le.loggingDataList ∧
      (withWrite pm checkCommit le).loggingCommitList = le.loggingCommitList ∧
      (withWrite pm checkCommit le).loggedAddr = le.loggedAddr ∧
      (withWrite pm checkCommit le).loggedSize = le.loggedSize := by
  rw [withWrite]
  split_ifs
  · exact ⟨rfl, rfl, rfl, rfl, rfl⟩
  · exact ⟨rfl, rfl, rfl, rfl, rfl⟩

/-- A store in the window is looked up. -/
theorem Taken.lookup {e e' : MechUndoJnlEntry} (h : Taken pre e e') {pm : MechPMStoreEntry}
    (hwindow : ∀ le : UndoJnlLoggingEntry, le.takes pm pre = true →
      e'.InWindow pre le pm) :
    Taken pre e (e'.lookupInplaceWrite pm pre) where
  preAlloc := h.preAlloc
  headStore := h.headStore
  tailStore := h.tailStore
  txCommitStore := h.txCommitStore
  writes := by
    intro a
    rw [logAt_lookupInplaceWrite, (withWrite_lists pm pre _).1, h.writes]
  data := by
    intro a
    rw [logAt_lookupInplaceWrite, (withWrite_lists pm pre _).2.1, h.data]
  commits := by
    intro a
    rw [logAt_lookupInplaceWrite, (withWrite_lists pm pre _).2.2.1, h.commits]
  right := by
    intro le' hle' w hw
    obtain ⟨a, ha⟩ := Dict.mem_values.mp hle'
    rw [lookupInplaceWrite, Dict.get?_mapValues, Option.map_eq_some_iff] at ha
    obtain ⟨le, hle, heq⟩ := ha
    have heq' : withWrite pm pre le = le' := heq
    obtain ⟨-, -, hcommits, haddr, hsize⟩ := withWrite_lists pm pre le
    rw [heq'] at hcommits haddr hsize
    have hright : le.OverlapsLogged w ∧ e'.InWindow pre le w := by
      by_cases htakes : le.takes pm pre = true
      · rw [← heq', withWrite, if_pos htakes] at hw
        rcases List.mem_append.mp hw with hw | hw
        · exact h.right le (Dict.mem_values.mpr ⟨a, hle⟩) w hw
        · rw [List.mem_singleton.mp hw]
          exact ⟨(takes_spec htakes).1, hwindow le htakes⟩
      · rw [← heq', withWrite, if_neg htakes] at hw
        exact h.right le (Dict.mem_values.mpr ⟨a, hle⟩) w hw
    rw [UndoJnlLoggingEntry.OverlapsLogged, InWindow, haddr, hsize, hcommits]
    exact hright

/-- The transaction is ended by a head, and its commit is no later than that. -/
def Ended (e : MechUndoJnlEntry) : Prop :=
  ∃ head, e.headStore = some head ∧ ∀ c, e.txCommitStore = some c → c.op.seq ≤ head.op.seq

/-- One store. -/
theorem Taken.takeInPlace {e e' : MechUndoJnlEntry} (h : Taken pre e e') (hended : e.Ended)
    (pm : MechPMStoreEntry) :
    ∃ e'', e'.takeInPlace pm pre = some e'' ∧ Taken pre e e'' := by
  obtain ⟨head, hhead, hcommit⟩ := hended
  rw [← h.headStore] at hhead
  rw [← h.txCommitStore] at hcommit
  have hend : e'.endStore = some head := by
    rw [endStore, hhead]
    rfl
  rw [MechUndoJnlEntry.takeInPlace, hend]
  cases htail : e'.tailStore with
  | none => exact ⟨e', rfl, h⟩
  | some tail =>
    cases pre with
    | true =>
      have hwindow : pm.op.seq < head.op.seq → ∀ le : UndoJnlLoggingEntry,
          le.takes pm true = true → e'.InWindow true le pm := by
        intro hlt le htakes
        obtain ⟨commit, hlist, hle⟩ := (takes_spec htakes).2 rfl
        exact ⟨commit, head, hlist, hhead, hle, hlt⟩
      -- the commit is looked at first, but it is not behind the head
      by_cases hc : (e'.txCommitStore.any fun c => pm.op.seq < c.op.seq) = true
      · obtain ⟨c, hcs, hlt⟩ := (Option.any_eq_true _ _).mp hc
        rw [decide_eq_true_eq] at hlt
        have hle := hcommit c hcs
        simp only [hc, if_true]
        exact ⟨_, rfl, h.lookup (hwindow (by omega))⟩
      · simp only [hc, if_true, Bool.false_eq_true, if_false, hhead, Option.any_some,
          decide_eq_true_eq]
        by_cases hlt : pm.op.seq < head.op.seq
        · rw [if_pos hlt]
          exact ⟨_, rfl, h.lookup (hwindow hlt)⟩
        · rw [if_neg hlt]
          exact ⟨e', rfl, h⟩
    | false =>
      simp only [Bool.false_eq_true, if_false, hhead, Option.map_some]
      by_cases hgt : pm.op.seq > tail.op.seq
      · rw [if_pos hgt]
        by_cases hlt : pm.op.seq < head.op.seq
        · rw [if_pos hlt]
          refine ⟨_, rfl, h.lookup (fun le _ => ⟨tail, head, ?_, hhead, ?_, hlt⟩)⟩
          · exact htail
          · omega
        · rw [if_neg hlt]
          exact ⟨e', rfl, h⟩
      · rw [if_neg hgt]
        exact ⟨e', rfl, h⟩

/-- An entry of the walk whose head ends it stays that of its transaction. -/
theorem EntryOf.taken {info : TraceEntry → Deduced} {structAddr : TraceEntry → Int}
    {sheet : UndoJnlSheet} {txn : List MechPMStoreEntry} {e e' : MechUndoJnlEntry}
    (h : EntryOf info structAddr sheet txn e) (ht : Taken pre e e') :
    EntryOf info structAddr sheet txn e' where
  tail := ht.tailStore.trans h.tail
  writes := fun a => (ht.writes a).trans (h.writes a)
  data := fun a => (ht.data a).trans (h.data a)
  commits := fun a => (ht.commits a).trans (h.commits a)
  txCommit := fun c hc => h.txCommit c (ht.txCommitStore.symm.trans hc)
  head := ht.headStore.trans h.head

/-- The second pass gets to its end, and takes the in-place writes. -/
theorem foldlM_takeInPlace {found : List MechUndoJnlEntry} (hended : ∀ e ∈ found, e.Ended)
    (pmstores : List MechPMStoreEntry) {l : List MechUndoJnlEntry}
    (h : List.Forall₂ (Taken pre) found l) :
    ∃ l', pmstores.foldlM (fun l pm => l.mapM fun e => e.takeInPlace pm pre) l = some l' ∧
      List.Forall₂ (Taken pre) found l' := by
  induction pmstores generalizing l with
  | nil => exact ⟨l, rfl, h⟩
  | cons pm rest ih =>
    have hmap : ∃ l1, (l.mapM fun e => e.takeInPlace pm pre) = some l1 ∧
        List.Forall₂ (Taken pre) found l1 := by
      clear ih
      induction h with
      | nil => exact ⟨[], rfl, .nil⟩
      | @cons e e' es es' he hes ih =>
        obtain ⟨e1, he1, ht1⟩ := he.takeInPlace (hended e List.mem_cons_self) pm
        obtain ⟨l1, hl1, htl⟩ := ih fun e he => hended e (List.mem_cons_of_mem _ he)
        exact ⟨e1 :: l1, by rw [List.mapM_cons, he1, hl1]; rfl, .cons ht1 htl⟩
    obtain ⟨l1, hl1, htaken⟩ := hmap
    obtain ⟨l', hl', htaken'⟩ := ih htaken
    refine ⟨l', ?_, htaken'⟩
    rw [List.foldlM_cons, hl1]
    exact hl'

end MechUndoJnlEntry

end

/-! ## The stores of the transactions -/

section

variable {info : TraceEntry → Deduced} {structAddr : TraceEntry → Int} {sheet : UndoJnlSheet}

variable (info) in
/-- The transactions, and the stores of one that is open, come from the stores in their order. -/
theorem foldl_splitTx (u : UndoJnlCheatSheetBase) (pmstores : List MechPMStoreEntry) :
    ((pmstores.foldl (splitTx info u) ([], none)).1.flatten ++
        (pmstores.foldl (splitTx info u) ([], none)).2.getD []).Sublist pmstores ∧
      (∀ txn ∈ (pmstores.foldl (splitTx info u) ([], none)).1, txn ≠ []) ∧
      (pmstores.foldl (splitTx info u) ([], none)).2.isSome =
        txOpen info u (pmstores.map MechPMStoreEntry.op) := by
  induction pmstores using List.reverseRecOn with
  | nil => exact ⟨.slnil, fun txn htxn => absurd htxn List.not_mem_nil, rfl⟩
  | append_singleton l pm ih =>
    obtain ⟨hsub, hne, hopen⟩ := ih
    rw [List.foldl_append, List.foldl_cons, List.foldl_nil, List.map_append, List.map_singleton,
      txOpen_append, ← hopen]
    generalize l.foldl (splitTx info u) ([], none) = x at hsub hne hopen ⊢
    obtain ⟨done, cur⟩ := x
    cases cur with
    | none =>
      rw [splitTx]
      simp only [Option.getD_none, List.append_nil] at hsub
      refine ⟨?_, hne, ?_⟩
      · cases opens info u pm.op with
        | true => exact hsub.append (.refl [pm])
        | false =>
          refine List.Sublist.trans ?_ (List.sublist_append_left l [pm])
          simpa using hsub
      · cases opens info u pm.op with
        | true => rfl
        | false => rfl
    | some cur =>
      rw [splitTx]
      simp only [Option.getD_some] at hsub
      cases (u.headComputation.update info pm.op).1 with
      | true =>
        refine ⟨?_, ?_, rfl⟩
        · simpa [List.append_assoc] using hsub.append (.refl [pm])
        · intro txn htxn
          rcases List.mem_append.mp htxn with htxn | htxn
          · exact hne txn htxn
          · rw [List.mem_singleton.mp htxn]
            exact List.append_ne_nil_of_right_ne_nil _ (List.cons_ne_nil _ _)
      | false =>
        refine ⟨?_, hne, rfl⟩
        simpa [List.append_assoc] using hsub.append (.refl [pm])

/-- A transaction of stores in the order of their sequence numbers is ended by its head. -/
theorem MechUndoJnlEntry.EntryOf.ended {pmstores txn : List MechPMStoreEntry}
    (hsorted : pmstores.Pairwise fun a b => a.op.seq ≤ b.op.seq)
    (htxn : txn ∈ transactions info sheet.base pmstores) {e : MechUndoJnlEntry}
    (h : EntryOf info structAddr sheet txn e) : e.Ended := by
  obtain ⟨hsub, hne, -⟩ := foldl_splitTx info sheet.base pmstores
  have htxnSub : txn.Sublist pmstores :=
    ((List.sublist_flatten_of_mem htxn).trans (List.sublist_append_left _ _)).trans hsub
  have hlast := h.head
  rw [List.getLast?_eq_getLast_of_ne_nil (hne txn htxn)] at hlast
  refine ⟨_, hlast, fun c hc => ?_⟩
  have hpair := hsorted.sublist htxnSub
  rw [← List.dropLast_append_getLast (hne txn htxn), List.pairwise_append] at hpair
  have hmem := h.txCommit c hc
  rw [← List.dropLast_append_getLast (hne txn htxn)] at hmem
  rcases List.mem_append.mp hmem with hmem | hmem
  · exact hpair.2.2 c hmem _ (List.mem_singleton_self _)
  · rw [List.mem_singleton.mp hmem]

/-! ## The discipline of the transactions -/

theorem forall₂_taken {pre : Bool} {txns : List (List MechPMStoreEntry)}
    {l l' : List MechUndoJnlEntry}
    (h : List.Forall₂ (MechUndoJnlEntry.EntryOf info structAddr sheet) txns l)
    (ht : List.Forall₂ (MechUndoJnlEntry.Taken pre) l l') :
    List.Forall₂ (MechUndoJnlEntry.EntryOf info structAddr sheet) txns l' := by
  induction h generalizing l' with
  | nil =>
    rw [List.forall₂_nil_left_iff.mp ht]
    exact .nil
  | cons hentry hrest ih =>
    obtain ⟨e', es', he', hes', heq⟩ := List.forall₂_cons_left_iff.mp ht
    rw [heq]
    exact .cons (hentry.taken he') (ih hes')

/-- The first entry has the flag of the sheet, and no other has it. -/
theorem all_eq_iff {α : Type} {p : α → Bool} {b : Bool} {l : List α} {x : α}
    (h : (l ++ [x]).map p = b :: List.replicate l.length false) :
    (∀ e ∈ l, p e = b) ↔ b = false ∨ l.length ≤ 1 := by
  cases l with
  | nil => exact iff_of_true (fun e he => absurd he List.not_mem_nil) (Or.inr (Nat.zero_le 1))
  | cons e rest =>
    rw [List.cons_append, List.map_cons] at h
    obtain ⟨hfirst, hrest⟩ := List.cons.inj h
    have hlater : ∀ e' ∈ rest, p e' = false := by
      intro e' he'
      have hmem : p e' ∈ (rest ++ [x]).map p := List.mem_map_of_mem (List.mem_append_left _ he')
      rw [hrest] at hmem
      exact List.eq_of_mem_replicate hmem
    rw [List.forall_mem_cons, List.length_cons]
    constructor
    · intro hall
      cases rest with
      | nil => exact Or.inr (Nat.le_refl 1)
      | cons e' rest' =>
        left
        rw [← hall.2 e' List.mem_cons_self]
        exact hlater e' List.mem_cons_self
    · intro hcond
      refine ⟨hfirst, fun e' he' => ?_⟩
      rcases hcond with hb | hlen
      · rw [hb]
        exact hlater e' he'
      · have hnil : rest = [] := List.eq_nil_of_length_eq_zero (by omega)
        rw [hnil] at he'
        cases he'

/-- The second pass leaves the flags of the entries. -/
theorem forall_preAlloc_taken {pre : Bool} {l l' : List MechUndoJnlEntry}
    (h : List.Forall₂ (MechUndoJnlEntry.Taken pre) l l') (b : Bool) :
    (∀ e ∈ l', e.preAlloc = b) ↔ ∀ e ∈ l, e.preAlloc = b := by
  constructor
  · intro hall e he
    obtain ⟨e', he', ht⟩ := exists_mem_of_forall₂ h.flip he
    exact ht.preAlloc.symm.trans (hall e' he')
  · intro hall e' he'
    obtain ⟨e, he, ht⟩ := exists_mem_of_forall₂ h he'
    exact ht.preAlloc.trans (hall e he)

/-- A walk that has ended its transactions leaves entries that the second pass completes. -/
theorem Walked.exists_taken {pmstores : List MechPMStoreEntry} {s : JnlScan sheet}
    (hw : Walked info structAddr (transactions info sheet.base pmstores) none s)
    (hsorted : pmstores.Pairwise fun a b => a.op.seq ≤ b.op.seq) :
    ∃ l', pmstores.foldlM (fun l pm => l.mapM fun e => e.takeInPlace pm sheet.base.preAlloc)
        s.entryList = some l' ∧
      List.Forall₂ (MechUndoJnlEntry.Taken sheet.base.preAlloc) s.entryList l' := by
  have hended : ∀ e ∈ s.entryList, e.Ended := by
    intro e he
    obtain ⟨txn, htxn, hentry⟩ := exists_mem_of_forall₂ hw.found he
    exact hentry.ended hsorted htxn
  have htaken : List.Forall₂ (MechUndoJnlEntry.Taken sheet.base.preAlloc) s.entryList s.entryList :=
    List.forall₂_same.mpr fun e he => .refl fun a => hw.noInPlace e (List.mem_append_left _ he) a
  exact MechUndoJnlEntry.foldlM_takeInPlace hended pmstores htaken

/-- For stores in their order (`pairwise_entryList`) that leave no transaction open, the reasoner is right
if and only if what it reads is there, and the log space is not allocated first or there is one
transaction at most. -/
theorem journal_right_iff (info : TraceEntry → Deduced) (structAddr : TraceEntry → Int)
    (pmAddr : Int) (sheet : UndoJnlSheet) {pmstores : List MechPMStoreEntry}
    (hsorted : pmstores.Pairwise fun a b => a.op.seq ≤ b.op.seq)
    (hclosed : txOpen info sheet.base (pmstores.map MechPMStoreEntry.op) = false) :
    JournalRight info structAddr pmAddr sheet pmstores ↔
      Readable info sheet (false, sheet.base) pmstores ∧
      (sheet.base.preAlloc = false ∨ (transactions info sheet.base pmstores).length ≤ 1) := by
  have hnone : (pmstores.foldl (splitTx info sheet.base) ([], none)).2 = none := by
    rw [← Option.not_isSome_iff_eq_none, (foldl_splitTx info sheet.base pmstores).2.2, hclosed]
    exact Bool.false_ne_true
  by_cases hev : evaluates sheet.base = true
  · obtain ⟨n, hhead⟩ := Option.isSome_iff_exists.mp (Bool.and_eq_true_iff.mp hev).1
    obtain ⟨m, htail⟩ := Option.isSome_iff_exists.mp (Bool.and_eq_true_iff.mp hev).2
    obtain ⟨hsome, hwalk⟩ :=
      (walked_init info structAddr sheet pmAddr).walk structAddr pmAddr hev pmstores
    rw [JournalRight, MechUndoJnlReason.entries, hhead, htail]
    simp only [Option.bind_eq_bind, Option.bind_some]
    cases hs : pmstores.foldlM (scanJnlStore info structAddr sheet pmAddr) (.init sheet pmAddr) with
    | none =>
      rw [hs] at hsome
      refine iff_of_false (fun h => ?_) (fun h => ?_)
      · obtain ⟨entries, hentries, -⟩ := h
        cases hentries
      · exact Bool.false_ne_true (hsome.mpr h.1)
    | some s =>
      rw [hs] at hsome
      have hread := hsome.mp rfl
      have hw := hwalk s hs
      rw [hnone] at hw
      have hw : Walked info structAddr (transactions info sheet.base pmstores) none s := hw
      have hblank := hw.idle rfl
      have hnotOpen : ¬ (s.tx.2.tailStore.isSome = true ∨ s.tx.2.loggingEntryMap.items ≠ []) := by
        rw [hblank.tailStore, hblank.loggingEntryMap]
        exact fun h => h.elim (fun h => nomatch h) (fun h => h rfl)
      obtain ⟨l', hl', htaken⟩ := hw.exists_taken hsorted
      simp only [if_neg hnotOpen, Option.bind_some, hl', Option.some.injEq, exists_eq_left']
      rw [forall_preAlloc_taken htaken, all_eq_iff hw.preAlloc, hw.found.length_eq]
      constructor
      · intro h
        exact ⟨hread, h.2.1⟩
      · intro h
        refine ⟨forall₂_taken hw.found htaken, h.2, fun e' he' => ?_⟩
        obtain ⟨e, he, ht⟩ := exists_mem_of_forall₂ htaken he'
        exact ht.right
  · refine iff_of_false ?_ (fun h => hev h.1.evaluates)
    intro h
    obtain ⟨entries, hentries, -⟩ := h
    obtain ⟨n, hhead, hentries⟩ := Option.bind_eq_some_iff.mp hentries
    obtain ⟨m, htail, -⟩ := Option.bind_eq_some_iff.mp hentries
    rw [evaluates, hhead, htail] at hev
    exact hev rfl

end

/-- The journal of PMFS, with head and tail at the start of the log space. -/
def pmfsJournal : UndoJnlSheet where
  base :=
    { preAlloc := true
      logEntryStruct := ["pmfs_logentry_t"]
      headComputation := ⟨[.var "pmfs_journal" "head" false (some 0),
        .var "pmfs_journal" "base" false (some 4096), .operator '+']⟩
      tailComputation := ⟨[.var "pmfs_journal" "tail" false (some 0),
        .var "pmfs_journal" "base" false (some 4096), .operator '+']⟩ }
  loggedAddr := .ofVar "pmfs_logentry_t" "addr_offset" (by decide) (by decide)
  loggedSize := .ofVar "pmfs_logentry_t" "size" (by decide) (by decide)
  loggedData := ⟨[.var "pmfs_logentry_t" "data" false none]⟩
  loggingCommit := some ⟨[.var "pmfs_logentry_t" "gen_id" false none]⟩
  txCommitVar := some (.ofVar "pmfs_logentry_t" "type" (by decide) (by decide))
  txCommitVarVal := some 2

/-- Persistent memory starts at 4294967296, the journal 2048 bytes behind that.  The other stores go to
log entries. -/
def pmfsInfo (e : TraceEntry) : Deduced :=
  if e.addr = 4294969360 then ⟨some "pmfs_journal", ["tail"]⟩
  else if e.addr = 4294969356 then ⟨some "pmfs_journal", ["head"]⟩
  else ⟨some "pmfs_logentry_t", ["gen_id"]⟩

def genIdOffset (e : TraceEntry) : Int := e.addr - 12

def journalStore (seq addr size : Int) (data : List UInt8) : MechPMStoreEntry where
  op := { TraceEntry.plain .store seq addr size with svEntry := some data }
  addr := addr
  size := size
  phyAddr := addr - 4294967296
  fenceOp := some (.plain .fence (seq + 1) 0 0)

/-- Twice a log entry is allocated, committed and left behind. -/
def twoTransactions : List MechPMStoreEntry :=
  [journalStore 1 4294969360 4 [64, 0, 0, 0], journalStore 3 4294971404 2 [1, 0],
    journalStore 5 4294969356 4 [64, 0, 0, 0], journalStore 7 4294969360 4 [128, 0, 0, 0],
    journalStore 9 4294971468 2 [1, 0], journalStore 11 4294969356 4 [128, 0, 0, 0]]

theorem journal_right_twoTransactions :
    JournalRight pmfsInfo genIdOffset 4294967296 pmfsJournal twoTransactions ↔
      Readable pmfsInfo pmfsJournal (false, pmfsJournal.base) twoTransactions ∧
      (pmfsJournal.base.preAlloc = false ∨
        (transactions pmfsInfo pmfsJournal.base twoTransactions).length ≤ 1) :=
  journal_right_iff pmfsInfo genIdOffset 4294967296 pmfsJournal (by decide) (by decide)

/-- The second entry is not allocated first, so its logging write is reported although it is the commit;
that of the first is not. -/
theorem second_transaction_reported :
    txOpen pmfsInfo pmfsJournal.base (twoTransactions.map MechPMStoreEntry.op) = false ∧
      ¬ JournalRight pmfsInfo genIdOffset 4294967296 pmfsJournal twoTransactions ∧
      (MechUndoJnlReason.entries pmfsInfo genIdOffset 4294967296 pmfsJournal twoTransactions).map
          (fun l => l.map fun e =>
            e.invariantCheck ⟨TraceEntry.svEntry, fun _ => none, fun _ => rfl⟩ true) =
        some [some [], some [.loggingWriteFencedAfterLoggingCommit]] := by
  refine ⟨by decide, ?_, by decide +kernel⟩
  intro h
  obtain ⟨entries, hentries, -, hpre, -⟩ := h
  have hrun : (MechUndoJnlReason.entries pmfsInfo genIdOffset 4294967296 pmfsJournal
      twoTransactions).map (fun l => l.map MechUndoJnlEntry.preAlloc) = some [true, false] := by
    decide +kernel
  rw [hentries, Option.map_some, Option.some.injEq] at hrun
  have hmem : false ∈ entries.map MechUndoJnlEntry.preAlloc := by
    rw [hrun]
    decide
  obtain ⟨e, he, hfalse⟩ := List.mem_map.mp hmem
  have htrue : e.preAlloc = true := hpre e he
  rw [hfalse] at htrue
  cases htrue

end Mech
end Silhouette
