import Silhouette.Mech.UndoJnlReason

/-!
# The walk over the stores of a journal

One store takes the walk from the entry of the stores before it to the entry of the stores with it
(`Walked.step`), and a whole walk finds the entry of every transaction.  It gets to its end if and only
if whatever it reads is there (`Walked.walk`).
-/

namespace Silhouette
namespace Mech

open Lib Trace CheatSheet

section

variable {info : TraceEntry → Deduced} {structAddr : TraceEntry → Int} {sheet : UndoJnlSheet}

/-! ## One store -/

/-- What a store does to a computation does not depend on the values. -/
theorem update_fst_of_blank {c c' : ComputationSheet} (h : c.blank = c'.blank) (e : TraceEntry) :
    (c.update info e).1 = (c'.update info e).1 := by
  rw [← update_fst_mapValues (fun _ _ _ _ => none) c,
    ← update_fst_mapValues (fun _ _ _ _ => none) c']
  exact congrArg (fun d : ComputationSheet => (d.update info e).1) h

/-- The sheet of the walk is the one that it started with, but for the values. -/
structure SameVars (u u' : UndoJnlCheatSheetBase) : Prop where
  preAlloc : u'.preAlloc = u.preAlloc
  struct : u'.logEntryStruct = u.logEntryStruct
  head : u'.headComputation.blank = u.headComputation.blank
  tail : u'.tailComputation.blank = u.tailComputation.blank

theorem blank_update (c : ComputationSheet) (e : TraceEntry) :
    (c.update info e).2.blank = c.blank := by
  rw [ComputationSheet.update_snd, ComputationSheet.blank_mapValues]

theorem SameVars.updateTail {u u' : UndoJnlCheatSheetBase} (h : SameVars u u') (e : TraceEntry) :
    SameVars u (u'.updateTail info e).2 :=
  ⟨h.preAlloc, h.struct, h.head, (blank_update _ e).trans h.tail⟩

theorem SameVars.updateHead {u u' : UndoJnlCheatSheetBase} (h : SameVars u u') (e : TraceEntry) :
    SameVars u (u'.updateHead info e).2 :=
  ⟨h.preAlloc, h.struct, (blank_update _ e).trans h.head, h.tail⟩

variable (info) in
/-- The tail is evaluated where it was stored. -/
theorem updateTail_spec (s : JnlScan sheet) (pm : MechPMStoreEntry)
    (hev : s.jnl.tailComputation.evaluate.toOption.isSome = true) :
    ((s.updateTail info pm).isSome = true ↔
      (s.jnl.updateTail info pm.op).2.tailComputation.evaluate.toOption.isSome = true) ∧
    ∀ r, s.updateTail info pm = some r → r.1 = (s.jnl.tailComputation.update info pm.op).1 ∧
      r.2 = { s with
        jnl := (s.jnl.updateTail info pm.op).2
        tx := (s.tx.1, { s.tx.2 with
          tailStore := if r.1 then some pm else s.tx.2.tailStore }) } := by
  rw [JnlScan.updateTail]
  by_cases h : (s.jnl.tailComputation.update info pm.op).1 = true
  · have h' : (s.jnl.updateTail info pm.op).1 = true := h
    simp only [h', if_true]
    refine ⟨by rw [Option.isSome_map], fun r hr => ?_⟩
    obtain ⟨n, -, heq⟩ := Option.map_eq_some_iff.mp hr
    rw [← heq, h]
    exact ⟨rfl, rfl⟩
  · have h' : (s.jnl.updateTail info pm.op).1 ≠ true := h
    have hsame : (s.jnl.updateTail info pm.op).2.tailComputation = s.jnl.tailComputation :=
      update_eq_of_fst (Bool.eq_false_of_not_eq_true h)
    simp only [if_neg h', hsame]
    refine ⟨iff_of_true rfl hev, fun r hr => ?_⟩
    rw [← Option.some.inj hr, Bool.eq_false_of_not_eq_true h]
    exact ⟨rfl, rfl⟩

variable (info) in
/-- Head and tail are evaluated where the head was stored. -/
theorem updateHead_spec (pmAddr : Int) (s : JnlScan sheet) (pm : MechPMStoreEntry)
    (hev : evaluates s.jnl = true) :
    ((s.updateHead info pmAddr pm).isSome = true ↔
      evaluates (s.jnl.updateHead info pm.op).2 = true) ∧
    ∀ r, s.updateHead info pmAddr pm = some r →
      r.1 = (s.jnl.headComputation.update info pm.op).1 ∧
      r.2 = if r.1 then
          { s with
            txStarted := false
            jnl := (s.jnl.updateHead info pm.op).2
            tx := (s.tx.1, { pmAddr := pmAddr })
            entryList := s.entryList ++ [{ s.tx.2 with headStore := some pm }] }
        else { s with jnl := (s.jnl.updateHead info pm.op).2 } := by
  rw [JnlScan.updateHead]
  by_cases h : (s.jnl.headComputation.update info pm.op).1 = true
  · have h' : (s.jnl.updateHead info pm.op).1 = true := h
    rw [evaluates, Bool.and_eq_true]
    simp only [h', if_true]
    cases hhead : (s.jnl.updateHead info pm.op).2.headComputation.evaluate.toOption with
    | none =>
      exact ⟨iff_of_false (fun hc => nomatch hc) (fun hc => nomatch hc.1), fun r hr => nomatch hr⟩
    | some n =>
      cases htail : (s.jnl.updateHead info pm.op).2.tailComputation.evaluate.toOption with
      | none =>
        exact ⟨iff_of_false (fun hc => nomatch hc) (fun hc => nomatch hc.2), fun r hr => nomatch hr⟩
      | some m =>
        refine ⟨iff_of_true rfl ⟨rfl, rfl⟩, fun r hr => ?_⟩
        rw [← Option.some.inj hr, h]
        exact ⟨rfl, rfl⟩
  · have h' : (s.jnl.updateHead info pm.op).1 ≠ true := h
    have hsame : (s.jnl.updateHead info pm.op).2 = s.jnl := by
      show { s.jnl with headComputation := (s.jnl.headComputation.update info pm.op).2 } = s.jnl
      rw [update_eq_of_fst (Bool.eq_false_of_not_eq_true h)]
    simp only [if_neg h']
    refine ⟨iff_of_true rfl (by rw [hsame]; exact hev), fun r hr => ?_⟩
    rw [← Option.some.inj hr, Bool.eq_false_of_not_eq_true h]
    exact ⟨rfl, rfl⟩

/-! ## The entry of a transaction -/

namespace MechUndoJnlEntry

theorem storesVar_eq {pm : MechPMStoreEntry} {st v : String} (hst : (info pm.op).structName = some st)
    (hv : (info pm.op).varNames = [v]) (p : String → String → Bool) :
    storesVar info p pm = p st v := by
  rw [storesVar, hst, hv]

theorem loggingStores_append {cur : List MechPMStoreEntry} (h : cur ≠ []) (pm : MechPMStoreEntry) :
    loggingStores sheet (cur ++ [pm]) = loggingStores sheet cur ++ [pm] := by
  rw [loggingStores, loggingStores, List.tail_append_of_ne_nil h]
  split_ifs
  · rfl
  · rfl

theorem tailStores_append {cur : List MechPMStoreEntry} (h : cur ≠ []) (pm : MechPMStoreEntry) :
    tailStores sheet (cur ++ [pm]) = tailStores sheet cur ++ [pm] := by
  rw [tailStores, tailStores, List.tail_append_of_ne_nil h]
  split_ifs
  · rfl
  · rfl

/-- One more store of the transaction. -/
theorem Gathers.append {cur : List MechPMStoreEntry} {e e' : MechUndoJnlEntry} {pm : MechPMStoreEntry}
    (h : Gathers info structAddr sheet cur e) (hcur : cur ≠ [])
    (hadds : Adds structAddr (if isLogWrite info sheet pm then [pm] else [])
      (if isLoggedData info sheet pm then [pm] else [])
      (if isLogCommit info sheet pm then [pm] else [])
      { e with tailStore := if isTailStore info sheet pm then some pm else e.tailStore } e') :
    Gathers info structAddr sheet (cur ++ [pm]) e' where
  tail := by
    rw [hadds.tailStore, tailStores_append hcur, List.filter_append, List.filter_singleton]
    cases isTailStore info sheet pm with
    | true => exact (List.getLast?_concat).symm
    | false => exact h.tail.trans (congrArg List.getLast? (List.append_nil _).symm)
  writes := by
    intro a
    rw [hadds.writes, loggingStores_append hcur, List.filter_append, atStruct_append,
      List.filter_singleton, Bool.cond_eq_ite]
    exact congrArg (· ++ _) (h.writes a)
  data := by
    intro a
    rw [hadds.data, loggingStores_append hcur, List.filter_append, atStruct_append,
      List.filter_singleton, Bool.cond_eq_ite]
    exact congrArg (· ++ _) (h.data a)
  commits := by
    intro a
    rw [hadds.commits, List.tail_append_of_ne_nil hcur, List.filter_append, atStruct_append,
      List.filter_singleton, Bool.cond_eq_ite]
    exact congrArg (· ++ _) (h.commits a)
  txCommit := by
    intro c hc
    rw [hadds.txCommitStore] at hc
    exact List.mem_append_left _ (h.txCommit c hc)

/-- A lookup that adds nothing. -/
theorem Gathers.adds_nothing {cur : List MechPMStoreEntry} {e e' : MechUndoJnlEntry}
    (h : Gathers info structAddr sheet cur e) (hadds : Adds structAddr [] [] [] e e') :
    Gathers info structAddr sheet cur e' where
  tail := hadds.tailStore.trans h.tail
  writes := fun a => (hadds.writes a).trans ((List.append_nil _).trans (h.writes a))
  data := fun a => (hadds.data a).trans ((List.append_nil _).trans (h.data a))
  commits := fun a => (hadds.commits a).trans ((List.append_nil _).trans (h.commits a))
  txCommit := fun c hc => h.txCommit c (hadds.txCommitStore.symm.trans hc)

/-- An entry that nothing was found for. -/
structure Blank (e : MechUndoJnlEntry) : Prop where
  tailStore : e.tailStore = none
  txCommitStore : e.txCommitStore = none
  loggingEntryMap : e.loggingEntryMap = Dict.empty

theorem Blank.logAt {e : MechUndoJnlEntry} (h : Blank e) (a : Int) : e.logAt a = {} := by
  rw [MechUndoJnlEntry.logAt, h.loggingEntryMap]
  rfl

end MechUndoJnlEntry

/-- The state of the walk behind whole transactions and the stores of an open one. -/
structure Walked (info : TraceEntry → Deduced) (structAddr : TraceEntry → Int)
    (done : List (List MechPMStoreEntry)) (cur : Option (List MechPMStoreEntry))
    (s : JnlScan sheet) : Prop where
  vars : SameVars sheet.base s.jnl
  started : s.txStarted = cur.isSome
  found : List.Forall₂ (MechUndoJnlEntry.EntryOf info structAddr sheet) done s.entryList
  noInPlace : ∀ e ∈ s.entryList ++ [s.tx.2], ∀ a, (e.logAt a).inPlaceWriteList = []
  preAlloc : (s.entryList ++ [s.tx.2]).map MechUndoJnlEntry.preAlloc =
    sheet.base.preAlloc :: List.replicate s.entryList.length false
  idle : cur = none → s.tx.2.Blank
  running : ∀ l, cur = some l → l ≠ [] ∧ s.tx.2.Gathers info structAddr sheet l

/-! ## The step -/

theorem isSome_bind_iff {α β : Type} {o : Option α} {f : α → Option β} {p : Prop}
    (h : ∀ x, o = some x → ((f x).isSome = true ↔ p)) :
    (o.bind f).isSome = true ↔ o.isSome = true ∧ p := by
  cases o with
  | none => exact iff_of_false (fun hc => nomatch hc) (fun hc => nomatch hc.1)
  | some x => exact (h x rfl).trans (and_iff_right rfl).symm

section

variable {s : JnlScan sheet} {pm : MechPMStoreEntry} {st v : String} {pmAddr : Int}

/-- The sheet behind a store inside a transaction. -/
def behind (info : TraceEntry → Deduced) (u : UndoJnlCheatSheetBase) (e : TraceEntry) :
    UndoJnlCheatSheetBase := ((u.updateTail info e).2.updateHead info e).2

theorem scanStore_started (hst : (info pm.op).structName = some st)
    (hv : (info pm.op).varNames = [v]) (u : UndoJnlCheatSheetBase) :
    scanStore info (true, u) pm.op =
      (!(u.headComputation.update info pm.op).1, behind info u pm.op) := by
  simp only [scanStore, hst, hv, if_true]
  rfl

/-- Inside a transaction everything is looked up. -/
theorem isSome_scanMatched_started (hst : (info pm.op).structName = some st)
    (hv : (info pm.op).varNames = [v]) (hstarted : s.txStarted = true)
    (hev : evaluates s.jnl = true) :
    (scanMatched info structAddr sheet pmAddr s pm st v).isSome = true ↔
      (needsBytes info sheet (true, s.jnl) pm = true → pm.op.svEntry.isSome = true) ∧
      evaluates (behind info s.jnl pm.op) = true := by
  have hev' := hev
  rw [evaluates, Bool.and_eq_true] at hev'
  obtain ⟨htailSome, htail⟩ := updateTail_spec info s pm hev'.2
  rw [scanMatched, if_pos hstarted, needsBytes, MechUndoJnlEntry.storesVar_eq hst hv]
  refine (isSome_bind_iff (p := ((sheet.base.logEntryStruct.contains st &&
      (sheet.loggedAddr.comp.containVar st v || sheet.loggedSize.comp.containVar st v)) = true →
        pm.op.svEntry.isSome = true) ∧ evaluates (behind info s.jnl pm.op) = true ∧
      ((s.jnl.headComputation.update info pm.op).1 = false →
        (sheet.txCommitVar.any fun f => f.comp.containVar st v) = true →
        pm.op.svEntry.isSome = true)) ?_).trans ?_
  · intro r hr
    obtain ⟨-, hr2⟩ := htail r hr
    have hjnl : evaluates r.2.jnl = true := by
      rw [hr2, evaluates, Bool.and_eq_true]
      exact ⟨hev'.1, htailSome.mp (by rw [hr]; rfl)⟩
    have hupdate : (r.2.jnl.updateHead info pm.op).2 = behind info s.jnl pm.op := by
      rw [hr2]
      rfl
    refine (isSome_bind_iff (p := evaluates (behind info s.jnl pm.op) = true ∧
      ((s.jnl.headComputation.update info pm.op).1 = false →
        (sheet.txCommitVar.any fun f => f.comp.containVar st v) = true →
        pm.op.svEntry.isSome = true)) ?_).trans
      (and_congr_left fun _ => (lookupLogging_spec r.2.tx pm st v).1)
    intro r' hr'
    obtain ⟨hheadSome, hhead⟩ := updateHead_spec info pmAddr
      { r.2 with tx := lookupLogCommit structAddr sheet r'.2 pm st v } pm hjnl
    refine (isSome_bind_iff (p := ((s.jnl.headComputation.update info pm.op).1 = false →
        (sheet.txCommitVar.any fun f => f.comp.containVar st v) = true →
        pm.op.svEntry.isSome = true)) ?_).trans (and_congr_left fun _ => ?_)
    · intro r'' hr''
      obtain ⟨ended, s''⟩ := r''
      have hended : ended = (s.jnl.headComputation.update info pm.op).1 := by
        refine (hhead _ hr'').1.trans ?_
        rw [hr2]
        rfl
      rw [← hended]
      cases ended with
      | true => exact iff_of_true rfl (fun hc => nomatch hc)
      | false =>
        refine (isSome_bind_iff (p := True) ?_).trans ?_
        · intro x hx
          obtain ⟨committed, tx⟩ := x
          cases committed with
          | true => exact iff_of_true rfl trivial
          | false => exact iff_of_true rfl trivial
        · rw [and_true, (lookupTxCommit_spec s''.tx pm st v).1]
          exact ⟨fun hc _ => hc, fun hc => hc rfl⟩
    · rw [← hupdate]
      exact hheadSome
  · have hsame : (behind info s.jnl pm.op).tailComputation =
        (s.jnl.updateTail info pm.op).2.tailComputation := rfl
    rw [htailSome, evaluates, Bool.and_eq_true, hsame]
    simp only [Bool.true_or, Bool.true_and, Bool.or_eq_true, Bool.and_eq_true, Bool.not_eq_true']
    tauto

/-- Outside of one, only what may open one is. -/
theorem isSome_scanMatched_idle (hst : (info pm.op).structName = some st)
    (hv : (info pm.op).varNames = [v]) (hidle : s.txStarted = false)
    (hvars : SameVars sheet.base s.jnl) (hev : evaluates s.jnl = true) :
    (scanMatched info structAddr sheet pmAddr s pm st v).isSome = true ↔
      (needsBytes info sheet (false, s.jnl) pm = true → pm.op.svEntry.isSome = true) ∧
      evaluates (scanStore info (false, s.jnl) pm.op).2 = true := by
  have hev' := hev
  rw [evaluates, Bool.and_eq_true] at hev'
  rw [scanMatched, if_neg (by rw [hidle]; decide), needsBytes, MechUndoJnlEntry.storesVar_eq hst hv]
  simp only [scanStore, hst, hv, hvars.preAlloc, Bool.false_and, Bool.or_false, Bool.false_or,
    Bool.false_eq_true, if_false]
  by_cases hpre : sheet.base.preAlloc = true
  · simp only [hpre, if_true, Bool.not_true, Bool.false_and, Bool.false_eq_true, false_implies,
      true_and]
    refine (isSome_bind_iff (p := True) (fun r hr => iff_of_true rfl trivial)).trans ?_
    rw [and_true, (updateTail_spec info s pm hev'.2).1, evaluates, Bool.and_eq_true]
    exact ⟨fun h => ⟨hev'.1, h⟩, fun h => h.2⟩
  · simp only [hpre, Bool.false_eq_true, if_false, Bool.not_false, Bool.true_and]
    refine (isSome_bind_iff (p := True) (fun r hr => iff_of_true rfl trivial)).trans ?_
    rw [and_true, (lookupLogging_spec s.tx pm st v).1]
    exact (and_iff_left hev).symm

/-- The entry behind the lookups of a store inside a transaction. -/
theorem Walked.lookups {done : List (List MechPMStoreEntry)} {l : List MechPMStoreEntry}
    (hw : Walked info structAddr done (some l) s) (hst : (info pm.op).structName = some st)
    (hv : (info pm.op).varNames = [v]) (hev : evaluates s.jnl = true) {r : Bool × JnlScan sheet}
    (hr : s.updateTail info pm = some r) {r' : Bool × JnlTx sheet}
    (hr' : lookupLogging structAddr sheet r.2.tx pm st v = some r') :
    (lookupLogCommit structAddr sheet r'.2 pm st v).2.Gathers info structAddr sheet (l ++ [pm]) ∧
      (∀ a, ((lookupLogCommit structAddr sheet r'.2 pm st v).2.logAt a).inPlaceWriteList = []) ∧
      (lookupLogCommit structAddr sheet r'.2 pm st v).2.preAlloc = s.tx.2.preAlloc := by
  obtain ⟨hne, hgathers⟩ := hw.running l rfl
  rw [evaluates, Bool.and_eq_true] at hev
  obtain ⟨htail, hr2⟩ := (updateTail_spec info s pm hev.2).2 r hr
  have hadds := ((lookupLogging_spec r.2.tx pm st v).2 r' hr').2.trans
    (adds_lookupLogCommit r'.2 pm st v)
  have htail' : r.1 = isTailStore info sheet pm := htail.trans (update_fst_of_blank hw.vars.tail _)
  rw [hr2, htail', List.append_nil, List.append_nil, List.nil_append] at hadds
  refine ⟨hgathers.append hne ?_, ?_, hadds.preAlloc⟩
  · rw [isLogWrite, isLoggedData, isLogCommit, MechUndoJnlEntry.storesVar_eq hst hv,
      MechUndoJnlEntry.storesVar_eq hst hv, MechUndoJnlEntry.storesVar_eq hst hv]
    exact hadds
  · intro a
    exact (hadds.inPlace a).trans
      (hw.noInPlace s.tx.2 (List.mem_append_right _ (List.mem_singleton_self _)) a)

/-- The transaction goes on. -/
theorem Walked.extend {done : List (List MechPMStoreEntry)} {cur : Option (List MechPMStoreEntry)}
    (hw : Walked info structAddr done cur s) {u : UndoJnlCheatSheetBase} (hvars : SameVars sheet.base u)
    {tx : JnlTx sheet} {l : List MechPMStoreEntry} (hne : l ≠ [])
    (hgathers : tx.2.Gathers info structAddr sheet l)
    (hnoInPlace : ∀ a, (tx.2.logAt a).inPlaceWriteList = [])
    (hpre : tx.2.preAlloc = s.tx.2.preAlloc) :
    Walked info structAddr done (some l) ⟨true, u, tx, s.entryList⟩ where
  vars := hvars
  started := rfl
  found := hw.found
  noInPlace := by
    intro e he a
    rcases List.mem_append.mp he with he | he
    · exact hw.noInPlace e (List.mem_append_left _ he) a
    · rw [List.mem_singleton.mp he]
      exact hnoInPlace a
  preAlloc := by
    have hw' := hw.preAlloc
    rw [List.map_append, List.map_singleton] at hw' ⊢
    rw [hpre]
    exact hw'
  idle := fun hc => nomatch hc
  running := by
    intro l' hl'
    rw [← Option.some.inj hl']
    exact ⟨hne, hgathers⟩

/-- A store to the head ends the transaction, and the entry of the next one is not allocated first. -/
theorem Walked.close {done : List (List MechPMStoreEntry)} {cur : Option (List MechPMStoreEntry)}
    (hw : Walked info structAddr done cur s) {u : UndoJnlCheatSheetBase} (hvars : SameVars sheet.base u)
    {tx : JnlTx sheet} {l : List MechPMStoreEntry}
    (hgathers : tx.2.Gathers info structAddr sheet (l ++ [pm]))
    (hnoInPlace : ∀ a, (tx.2.logAt a).inPlaceWriteList = [])
    (hpre : tx.2.preAlloc = s.tx.2.preAlloc) (pmAddr : Int) :
    Walked info structAddr (done ++ [l ++ [pm]]) none ⟨false, u, (tx.1, { pmAddr := pmAddr }),
      s.entryList ++ [{ tx.2 with headStore := some pm }]⟩ where
  vars := hvars
  started := rfl
  found := by
    refine List.rel_append hw.found (.cons ?_ .nil)
    exact ⟨⟨hgathers.tail, hgathers.writes, hgathers.data, hgathers.commits, hgathers.txCommit⟩,
      List.getLast?_concat.symm⟩
  noInPlace := by
    intro e he a
    simp only [List.mem_append, List.mem_singleton] at he
    rcases he with (he | he) | he
    · exact hw.noInPlace e (List.mem_append_left _ he) a
    · rw [he]
      exact hnoInPlace a
    · rw [he]
      rfl
  preAlloc := by
    have hw' := hw.preAlloc
    rw [List.map_append, List.map_singleton, ← hpre] at hw'
    rw [List.map_append, List.map_append, List.map_singleton, List.map_singleton,
      List.length_append, List.length_singleton, List.replicate_succ', ← List.cons_append, ← hw']
  idle := fun _ => ⟨rfl, rfl, rfl⟩
  running := fun _ hl' => nomatch hl'

/-- What a store inside a transaction does: it ends the transaction, or is looked up for its
commit. -/
theorem scanMatched_started_cases (hstarted : s.txStarted = true) (hev : evaluates s.jnl = true)
    {s' : JnlScan sheet}
    (hs : scanMatched info structAddr sheet pmAddr s pm st v = some s') :
    ∃ r r', s.updateTail info pm = some r ∧
      lookupLogging structAddr sheet r.2.tx pm st v = some r' ∧
      ((s.jnl.headComputation.update info pm.op).1 = true ∧
        s' = ⟨false, behind info s.jnl pm.op,
          ((lookupLogCommit structAddr sheet r'.2 pm st v).1, { pmAddr := pmAddr }), s.entryList ++
          [{ (lookupLogCommit structAddr sheet r'.2 pm st v).2 with headStore := some pm }]⟩ ∨
      (s.jnl.headComputation.update info pm.op).1 = false ∧
        ∃ committed tx, lookupTxCommit structAddr sheet (lookupLogCommit structAddr sheet r'.2 pm st v)
          pm st v = some (committed, tx) ∧
        s' = ⟨true, behind info s.jnl pm.op,
          if committed then (tx.1, { tx.2 with txCommitStore := some pm }) else tx, s.entryList⟩) := by
  have hev' := hev
  rw [evaluates, Bool.and_eq_true] at hev'
  obtain ⟨htailSome, htail⟩ := updateTail_spec info s pm hev'.2
  rw [scanMatched, if_pos hstarted] at hs
  obtain ⟨r, hr, hs⟩ := Option.bind_eq_some_iff.mp hs
  obtain ⟨r', hr', hs⟩ := Option.bind_eq_some_iff.mp hs
  obtain ⟨⟨ended, s''⟩, hr'', hs⟩ := Option.bind_eq_some_iff.mp hs
  refine ⟨r, r', hr, hr', ?_⟩
  have hr2 := (htail r hr).2
  have hjnl : evaluates r.2.jnl = true := by
    rw [hr2, evaluates, Bool.and_eq_true]
    exact ⟨hev'.1, htailSome.mp (by rw [hr]; rfl)⟩
  obtain ⟨hended, hr3⟩ := (updateHead_spec info pmAddr
    { r.2 with tx := lookupLogCommit structAddr sheet r'.2 pm st v } pm hjnl).2 _ hr''
  have hhead : ended = (s.jnl.headComputation.update info pm.op).1 := by
    refine hended.trans ?_
    rw [hr2]
    rfl
  have hbehind : (r.2.jnl.updateHead info pm.op).2 = behind info s.jnl pm.op := by
    rw [hr2]
    rfl
  have hentries : r.2.entryList = s.entryList := by rw [hr2]
  have hrun : r.2.txStarted = true := by
    rw [hr2]
    exact hstarted
  rw [← hhead]
  cases ended with
  | true =>
    refine Or.inl ⟨rfl, ?_⟩
    rw [← hentries, ← hbehind]
    exact (Option.some.inj hs).symm.trans hr3
  | false =>
    obtain ⟨⟨committed, tx⟩, hx, hs⟩ := Option.bind_eq_some_iff.mp hs
    have hs3 : s'' = { r.2 with
        jnl := behind info s.jnl pm.op
        tx := lookupLogCommit structAddr sheet r'.2 pm st v } := by
      rw [← hbehind]
      exact hr3
    rw [hs3] at hx hs
    refine Or.inr ⟨rfl, committed, tx, hx, ?_⟩
    rw [← hentries]
    cases committed with
    | true => exact (Option.some.inj hs).symm.trans (congrArg (JnlScan.mk · _ _ _) hrun)
    | false => exact (Option.some.inj hs).symm.trans (congrArg (JnlScan.mk · _ _ _) hrun)

theorem MechUndoJnlEntry.Gathers.commit {cur : List MechPMStoreEntry} {e : MechUndoJnlEntry}
    (h : e.Gathers info structAddr sheet cur) (hpm : pm ∈ cur) :
    { e with txCommitStore := some pm }.Gathers info structAddr sheet cur where
  tail := h.tail
  writes := h.writes
  data := h.data
  commits := h.commits
  txCommit := fun _ hc => Option.some.inj hc ▸ hpm

/-- A store inside a transaction. -/
theorem Walked.scanMatched_started {done : List (List MechPMStoreEntry)} {l : List MechPMStoreEntry}
    (hw : Walked info structAddr done (some l) s) (hst : (info pm.op).structName = some st)
    (hv : (info pm.op).varNames = [v]) (hev : evaluates s.jnl = true) {s' : JnlScan sheet}
    (hs : scanMatched info structAddr sheet pmAddr s pm st v = some s') :
    Walked info structAddr (splitTx info sheet.base (done, some l) pm).1
        (splitTx info sheet.base (done, some l) pm).2 s' ∧
      (s'.txStarted, s'.jnl) = scanStore info (s.txStarted, s.jnl) pm.op := by
  have hstarted : s.txStarted = true := hw.started
  have hvars : SameVars sheet.base (behind info s.jnl pm.op) :=
    (hw.vars.updateTail pm.op).updateHead pm.op
  obtain ⟨r, r', hr, hr', hcases⟩ := scanMatched_started_cases hstarted hev hs
  obtain ⟨hgathers, hnoInPlace, hpreAlloc⟩ := hw.lookups hst hv hev hr hr'
  rw [hstarted, scanStore_started hst hv, splitTx, ← update_fst_of_blank hw.vars.head]
  rcases hcases with ⟨hended, rfl⟩ | ⟨hended, committed, tx, hx, rfl⟩
  · rw [hended]
    exact ⟨hw.close hvars hgathers hnoInPlace hpreAlloc pmAddr, rfl⟩
  · rw [hended]
    have hadds := (lookupTxCommit_spec (lookupLogCommit structAddr sheet r'.2 pm st v) pm st v).2 _ hx
    have htx := hgathers.adds_nothing hadds
    have hinPlace : ∀ a, (tx.2.logAt a).inPlaceWriteList = [] :=
      fun a => (hadds.inPlace a).trans (hnoInPlace a)
    have hne : l ++ [pm] ≠ [] := List.append_ne_nil_of_right_ne_nil _ (List.cons_ne_nil _ _)
    refine ⟨?_, rfl⟩
    cases committed with
    | true =>
      exact hw.extend hvars hne (htx.commit (List.mem_append_right _ (List.mem_singleton_self _)))
        hinPlace (hadds.preAlloc.trans hpreAlloc)
    | false => exact hw.extend hvars hne htx hinPlace (hadds.preAlloc.trans hpreAlloc)

/-- Nothing was started. -/
theorem Walked.stay {done : List (List MechPMStoreEntry)} (hw : Walked info structAddr done none s)
    {u : UndoJnlCheatSheetBase} (hvars : SameVars sheet.base u) :
    Walked info structAddr done none ⟨false, u, s.tx, s.entryList⟩ where
  vars := hvars
  started := rfl
  found := hw.found
  noInPlace := hw.noInPlace
  preAlloc := hw.preAlloc
  idle := hw.idle
  running := fun _ hl' => nomatch hl'

/-- The store to the tail that allocates the log space. -/
theorem MechUndoJnlEntry.Blank.gathers_tail {e : MechUndoJnlEntry} (h : e.Blank)
    (hpre : sheet.base.preAlloc = true) (htail : isTailStore info sheet pm = true) :
    { e with tailStore := some pm }.Gathers info structAddr sheet [pm] where
  tail := by
    rw [tailStores, if_pos hpre, List.filter_singleton, htail]
    rfl
  writes := by
    intro a
    rw [loggingStores, if_pos hpre]
    exact congrArg UndoJnlLoggingEntry.loggingWriteList (h.logAt a)
  data := by
    intro a
    rw [loggingStores, if_pos hpre]
    exact congrArg UndoJnlLoggingEntry.loggingDataList (h.logAt a)
  commits := fun a => congrArg UndoJnlLoggingEntry.loggingCommitList (h.logAt a)
  txCommit := by
    intro c hc
    have hnone : e.txCommitStore = some c := hc
    rw [h.txCommitStore] at hnone
    cases hnone

/-- The first logging write. -/
theorem MechUndoJnlEntry.Blank.gathers_write {e e' : MechUndoJnlEntry} (h : e.Blank)
    (hpre : sheet.base.preAlloc = false)
    (hadds : Adds structAddr (if isLogWrite info sheet pm then [pm] else [])
      (if isLoggedData info sheet pm then [pm] else []) [] e e') :
    e'.Gathers info structAddr sheet [pm] where
  tail := by
    rw [hadds.tailStore, h.tailStore, tailStores, hpre]
    rfl
  writes := by
    intro a
    rw [hadds.writes, h.logAt, loggingStores, hpre, if_neg Bool.false_ne_true,
      List.filter_singleton, Bool.cond_eq_ite]
    rfl
  data := by
    intro a
    rw [hadds.data, h.logAt, loggingStores, hpre, if_neg Bool.false_ne_true,
      List.filter_singleton, Bool.cond_eq_ite]
    rfl
  commits := by
    intro a
    rw [hadds.commits, h.logAt]
    rfl
  txCommit := by
    intro c hc
    rw [hadds.txCommitStore, h.txCommitStore] at hc
    cases hc

theorem lookupLogging_of_not {x : JnlTx sheet} (h : sheet.base.logEntryStruct.contains st = false) :
    lookupLogging structAddr sheet x pm st v = some (false, x) := by
  simp only [lookupLogging, lookupLoggingWrites, h, Bool.false_eq_true, if_false]
  rfl

/-- A store outside of any transaction. -/
theorem Walked.scanMatched_idle {done : List (List MechPMStoreEntry)}
    (hw : Walked info structAddr done none s) (hst : (info pm.op).structName = some st)
    (hv : (info pm.op).varNames = [v]) (hev : evaluates s.jnl = true) {s' : JnlScan sheet}
    (hs : scanMatched info structAddr sheet pmAddr s pm st v = some s') :
    Walked info structAddr (splitTx info sheet.base (done, none) pm).1
        (splitTx info sheet.base (done, none) pm).2 s' ∧
      (s'.txStarted, s'.jnl) = scanStore info (s.txStarted, s.jnl) pm.op := by
  have hidle : s.txStarted = false := hw.started
  have hblank := hw.idle rfl
  have hnoInPlace : ∀ a, (s.tx.2.logAt a).inPlaceWriteList = [] :=
    hw.noInPlace s.tx.2 (List.mem_append_right _ (List.mem_singleton_self _))
  rw [evaluates, Bool.and_eq_true] at hev
  rw [scanMatched, if_neg (by rw [hidle]; decide)] at hs
  simp only [hidle, scanStore, splitTx, opens, hst, hv, hw.vars.preAlloc, Bool.false_eq_true,
    if_false]
  by_cases hpre : sheet.base.preAlloc = true
  · rw [if_pos hpre] at hs
    simp only [hpre, if_true]
    obtain ⟨⟨started, s''⟩, hr, hs⟩ := Option.bind_eq_some_iff.mp hs
    obtain ⟨htail, hr2⟩ := (updateTail_spec info s pm hev.2).2 _ hr
    have hflag : started = (sheet.base.tailComputation.update info pm.op).1 :=
      htail.trans (update_fst_of_blank hw.vars.tail _)
    rw [← Option.some.inj hs, ← hflag]
    cases started with
    | true =>
      have hs'' : s'' = ⟨s.txStarted, (s.jnl.updateTail info pm.op).2,
          (s.tx.1, { s.tx.2 with tailStore := some pm }), s.entryList⟩ := hr2
      rw [hs'']
      exact ⟨hw.extend (hw.vars.updateTail pm.op) (List.cons_ne_nil _ _)
        (hblank.gathers_tail hpre hflag.symm) hnoInPlace rfl, Prod.ext htail rfl⟩
    | false =>
      have hs'' : s'' = ⟨s.txStarted, (s.jnl.updateTail info pm.op).2, s.tx, s.entryList⟩ := hr2
      rw [hs'']
      exact ⟨hw.stay (hw.vars.updateTail pm.op), Prod.ext htail rfl⟩
  · rw [if_neg hpre] at hs
    simp only [hpre, Bool.false_eq_true, if_false]
    cases hlog : sheet.base.logEntryStruct.contains st with
    | true =>
      obtain ⟨⟨started, tx⟩, hr, hs⟩ := Option.bind_eq_some_iff.mp hs
      obtain ⟨hstarted, hadds⟩ := (lookupLogging_spec s.tx pm st v).2 _ hr
      have hstarted' : started = true := hstarted.trans hlog
      rw [← Option.some.inj hs, hstarted']
      have hgathers : tx.2.Gathers info structAddr sheet [pm] := by
        refine hblank.gathers_write (Bool.eq_false_of_not_eq_true hpre) ?_
        rw [isLogWrite, isLoggedData, MechUndoJnlEntry.storesVar_eq hst hv,
          MechUndoJnlEntry.storesVar_eq hst hv]
        exact hadds
      refine ⟨hw.extend hw.vars (List.cons_ne_nil _ _) hgathers ?_ hadds.preAlloc, ?_⟩
      · exact fun a => (hadds.inPlace a).trans (hnoInPlace a)
      · rw [hw.vars.struct, hlog]
    | false =>
      rw [lookupLogging_of_not hlog] at hs
      rw [← Option.some.inj hs]
      refine ⟨hw.stay hw.vars, ?_⟩
      rw [hw.vars.struct, hlog]

end

section

variable (structAddr) (pmAddr : Int) {s : JnlScan sheet}

/-- A store that is not matched to one variable is passed over. -/
theorem scanJnlStore_cases (pm : MechPMStoreEntry) :
    (∃ st v, (info pm.op).structName = some st ∧ (info pm.op).varNames = [v] ∧
      scanJnlStore info structAddr sheet pmAddr s pm =
        scanMatched info structAddr sheet pmAddr s pm st v) ∨
    matchedVar info pm.op = none ∧ (∀ p, storesVar info p pm = false) ∧
      scanJnlStore info structAddr sheet pmAddr s pm = some s := by
  rcases matched_or info pm.op with hmatched | hskip
  · obtain ⟨st, v, hst, hv⟩ := hmatched
    refine Or.inl ⟨st, v, hst, hv, ?_⟩
    rw [scanJnlStore, hst, hv]
  · exact Or.inr ⟨hskip _ none, fun p => hskip _ false, hskip _ (some s)⟩

/-- What one store does to the walk: it goes on if what it reads is there, and stays with the
transactions of the stores. -/
theorem Walked.step {done : List (List MechPMStoreEntry)} {cur : Option (List MechPMStoreEntry)}
    (hw : Walked info structAddr done cur s) (hev : evaluates s.jnl = true) (pm : MechPMStoreEntry) :
    ((scanJnlStore info structAddr sheet pmAddr s pm).isSome = true ↔
      (needsBytes info sheet (s.txStarted, s.jnl) pm = true → pm.op.svEntry.isSome = true) ∧
      evaluates (scanStore info (s.txStarted, s.jnl) pm.op).2 = true) ∧
    ∀ s', scanJnlStore info structAddr sheet pmAddr s pm = some s' →
      Walked info structAddr (splitTx info sheet.base (done, cur) pm).1
        (splitTx info sheet.base (done, cur) pm).2 s' ∧
      (s'.txStarted, s'.jnl) = scanStore info (s.txStarted, s.jnl) pm.op := by
  rcases scanJnlStore_cases structAddr pmAddr (s := s) pm with
    ⟨st, v, hst, hv, heq⟩ | ⟨hnone, hvar, hskip⟩
  · rw [heq]
    cases cur with
    | none =>
      have hidle : s.txStarted = false := hw.started
      refine ⟨?_, fun s' => hw.scanMatched_idle hst hv hev⟩
      rw [hidle]
      exact isSome_scanMatched_idle hst hv hidle hw.vars hev
    | some l =>
      have hstarted : s.txStarted = true := hw.started
      refine ⟨?_, fun s' => hw.scanMatched_started hst hv hev⟩
      rw [hstarted, isSome_scanMatched_started hst hv hstarted hev, scanStore_started hst hv]
  · obtain ⟨st, v, hst, hv⟩ | ⟨-, hstay, hopens⟩ := matched_or_idle info pm.op
    · have hone := hvar fun _ _ => true
      rw [MechUndoJnlEntry.storesVar_eq hst hv] at hone
      cases hone
    · rw [hskip, hstay, needsBytes, hvar]
      refine ⟨iff_of_true rfl ⟨(fun hc => nomatch hc), hev⟩, fun s' hs' => ?_⟩
      have hupdate : ∀ c : ComputationSheet, (c.update info pm.op).1 = false := by
        intro c
        rw [ComputationSheet.update, hnone]
      rw [← Option.some.inj hs']
      refine ⟨?_, rfl⟩
      cases cur with
      | none =>
        rw [splitTx]
        simp only [hopens, Bool.false_eq_true, if_false]
        exact hw
      | some l =>
        obtain ⟨hne, hgathers⟩ := hw.running l rfl
        have hmore : s.tx.2.Gathers info structAddr sheet (l ++ [pm]) := by
          refine hgathers.append hne ?_
          rw [isLogWrite, isLoggedData, isLogCommit, isTailStore, hvar, hvar, hvar, hupdate]
          exact .refl _
        have hstarted : s.txStarted = true := hw.started
        have hs : s = ⟨true, s.jnl, s.tx, s.entryList⟩ :=
          congrArg (JnlScan.mk · s.jnl s.tx s.entryList) hstarted
        rw [splitTx]
        simp only [hupdate, Bool.false_eq_true, if_false]
        rw [hs]
        exact hw.extend hw.vars (List.append_ne_nil_of_right_ne_nil _ (List.cons_ne_nil _ _)) hmore
          (hw.noInPlace s.tx.2 (List.mem_append_right _ (List.mem_singleton_self _))) rfl

theorem Readable.evaluates {x : Bool × UndoJnlCheatSheetBase} {l : List MechPMStoreEntry}
    (h : Readable info sheet x l) : evaluates x.2 = true := by
  cases l with
  | nil => exact h
  | cons pm rest => exact h.1

/-- A whole walk. -/
theorem Walked.walk {done : List (List MechPMStoreEntry)} {cur : Option (List MechPMStoreEntry)}
    (hw : Walked info structAddr done cur s) (hev : evaluates s.jnl = true)
    (pmstores : List MechPMStoreEntry) :
    ((pmstores.foldlM (scanJnlStore info structAddr sheet pmAddr) s).isSome = true ↔
      Readable info sheet (s.txStarted, s.jnl) pmstores) ∧
    ∀ s', pmstores.foldlM (scanJnlStore info structAddr sheet pmAddr) s = some s' →
      Walked info structAddr (pmstores.foldl (splitTx info sheet.base) (done, cur)).1
        (pmstores.foldl (splitTx info sheet.base) (done, cur)).2 s' := by
  induction pmstores generalizing s done cur with
  | nil =>
    refine ⟨iff_of_true rfl hev, fun s' hs' => ?_⟩
    rw [← Option.some.inj hs']
    exact hw
  | cons pm rest ih =>
    obtain ⟨hsome, hstep⟩ := hw.step structAddr pmAddr hev pm
    have hnext : ∀ s1, scanJnlStore info structAddr sheet pmAddr s pm = some s1 →
        Walked info structAddr (splitTx info sheet.base (done, cur) pm).1
          (splitTx info sheet.base (done, cur) pm).2 s1 ∧
        (s1.txStarted, s1.jnl) = scanStore info (s.txStarted, s.jnl) pm.op ∧
        evaluates s1.jnl = true := by
      intro s1 hs1
      obtain ⟨hw1, heq⟩ := hstep s1 hs1
      have hev1 := (hsome.mp (by rw [hs1]; rfl)).2
      rw [← heq] at hev1
      exact ⟨hw1, heq, hev1⟩
    refine ⟨?_, fun s' hs' => ?_⟩
    · rw [List.foldlM_cons, Readable]
      refine (isSome_bind_iff (p := Readable info sheet
        (scanStore info (s.txStarted, s.jnl) pm.op) rest) ?_).trans ?_
      · intro s1 hs1
        obtain ⟨hw1, heq, hev1⟩ := hnext s1 hs1
        rw [← heq]
        exact (ih hw1 hev1).1
      · rw [hsome]
        constructor
        · intro h
          exact ⟨hev, h.1.1, h.2⟩
        · intro h
          exact ⟨⟨h.2.1, h.2.2.evaluates⟩, h.2.2⟩
    · rw [List.foldlM_cons] at hs'
      obtain ⟨s1, hs1, hrest⟩ := Option.bind_eq_some_iff.mp hs'
      obtain ⟨hw1, -, hev1⟩ := hnext s1 hs1
      rw [List.foldl_cons]
      exact (ih hw1 hev1).2 s' hrest

variable (info sheet)

/-- The walk starts with no transaction. -/
theorem walked_init : Walked info structAddr [] none (JnlScan.init sheet pmAddr) where
  vars := ⟨rfl, rfl, rfl, rfl⟩
  started := rfl
  found := .nil
  noInPlace := by
    intro e he a
    rw [List.mem_singleton.mp he]
    rfl
  preAlloc := rfl
  idle := fun _ => ⟨rfl, rfl, rfl⟩
  running := fun _ hl' => nomatch hl'

end

end

end Mech
end Silhouette
