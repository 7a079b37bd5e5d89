import Mathlib.Algebra.Group.Int.Defs
import Mathlib.Algebra.Group.Nat.Defs
import Silhouette.Lib.LastWrite
import Silhouette.Trace.SplitOpMgr

/-!
# Cheat sheets

A cheat sheet says which structure variables hold the head and the tail of the undo
journal and the tails of the log-structured writes, as computations in reverse Polish
notation over such variables.  The value of a variable is set by every store that the
data type analysis matches to exactly that variable.

A computation object is created from its list by the first update.  It holds no value
then, so the model has it from the start.
-/

namespace Silhouette
namespace CheatSheet

open Lib Trace

inductive RpnElement where
  | operator (c : Char)
  | number (value : Option Int)
  | var (stName varName : String) (signed : Bool) (value : Option Int)
  deriving DecidableEq, Repr

/-- `int.from_bytes` in little-endian order. -/
def intFromBytes (signed : Bool) (data : List UInt8) : Int :=
  let n : Nat := data.foldr (fun b n => b.toNat + 256 * n) 0
  if signed ∧ 2 ^ (8 * data.length) ≤ 2 * n then (n : Int) - 2 ^ (8 * data.length) else n

structure ComputationSheet where
  rpn : List RpnElement
  deriving DecidableEq, Repr

namespace ComputationSheet

/-- The names of a variable contain no dot, so comparing `st.var` compares both. -/
def containVar (c : ComputationSheet) (stName varName : String) : Bool :=
  c.rpn.any fun
    | .var st v _ _ => st = stName ∧ v = varName
    | _ => false

def isPureNumber (c : ComputationSheet) : Bool :=
  c.rpn.all fun
    | .var _ _ _ _ => false
    | _ => true

/-- Give every variable the value `f` has for it. -/
def mapValues (f : String → String → Bool → Option Int → Option Int) (c : ComputationSheet) :
    ComputationSheet :=
  ⟨c.rpn.map fun
    | .var st v signed value => .var st v signed (f st v signed value)
    | e => e⟩

/-- Returns whether the names are matched. -/
def setValue (c : ComputationSheet) (stName varName : String) (data : List UInt8) :
    Bool × ComputationSheet :=
  if c.isPureNumber then (true, c)
  else if c.containVar stName varName then
    (true, c.mapValues fun st v signed value =>
      if st = stName ∧ v = varName then some (intFromBytes signed data) else value)
  else (false, c)

/-- The computation as it is created. -/
def blank (c : ComputationSheet) : ComputationSheet := c.mapValues fun _ _ _ _ => none

theorem mapValues_mapValues (f g : String → String → Bool → Option Int → Option Int)
    (c : ComputationSheet) :
    (c.mapValues f).mapValues g = c.mapValues fun st v signed x => g st v signed (f st v signed x) := by
  simp only [mapValues, List.map_map, ComputationSheet.mk.injEq]
  refine List.map_congr_left (fun e _ => ?_)
  cases e <;> rfl

theorem mapValues_congr {f g : String → String → Bool → Option Int → Option Int}
    {c : ComputationSheet}
    (h : ∀ st v signed x, .var st v signed x ∈ c.rpn → f st v signed x = g st v signed x) :
    c.mapValues f = c.mapValues g := by
  simp only [mapValues, ComputationSheet.mk.injEq]
  refine List.map_congr_left (fun e he => ?_)
  cases e with
  | operator c => rfl
  | number value => rfl
  | var st v signed x => exact congrArg _ (h st v signed x he)

theorem mapValues_self (c : ComputationSheet) : (c.mapValues fun _ _ _ x => x) = c := by
  refine congrArg ComputationSheet.mk
    ((List.map_congr_left (fun e _ => ?_)).trans (List.map_id c.rpn))
  cases e <;> rfl

@[simp] theorem containVar_mapValues (f : String → String → Bool → Option Int → Option Int)
    (c : ComputationSheet) (stName varName : String) :
    (c.mapValues f).containVar stName varName = c.containVar stName varName := by
  rw [containVar, containVar, mapValues, List.any_map]
  refine congrArg (List.any c.rpn) (funext fun e => ?_)
  cases e <;> rfl

@[simp] theorem isPureNumber_mapValues (f : String → String → Bool → Option Int → Option Int)
    (c : ComputationSheet) : (c.mapValues f).isPureNumber = c.isPureNumber := by
  rw [isPureNumber, isPureNumber, mapValues, List.all_map]
  refine congrArg (List.all c.rpn) (funext fun e => ?_)
  cases e <;> rfl

theorem containVar_of_mem {c : ComputationSheet} {st v : String} {signed : Bool} {x : Option Int}
    (h : .var st v signed x ∈ c.rpn) : c.containVar st v = true :=
  List.any_eq_true.mpr ⟨_, h, decide_eq_true ⟨rfl, rfl⟩⟩

/-- A number has no variables. -/
theorem not_isPureNumber_of_containVar {c : ComputationSheet} {st v : String}
    (h : c.containVar st v = true) : c.isPureNumber = false := by
  obtain ⟨e, he, hmatch⟩ := List.any_eq_true.mp h
  rw [isPureNumber, List.all_eq_false]
  cases e with
  | operator c => exact absurd hmatch (by simp)
  | number value => exact absurd hmatch (by simp)
  | var st v signed x => exact ⟨_, he, by simp⟩

end ComputationSheet

/-- What the data type analysis attaches to an entry: the structure it is in, if one was
found, and the variables of it that the entry covers. -/
structure Deduced where
  structName : Option String
  varNames : List String

section

variable (info : TraceEntry → Deduced)

/-- The variable an entry stores to and the bytes it stores. -/
def matchedVar (e : TraceEntry) : Option (String × String × List UInt8) :=
  match (info e).structName, (info e).varNames with
  | some st, [v] => e.svEntry.map fun data => (st, v, data)
  | _, _ => none

namespace ComputationSheet

/-- What `update_head`, `update_tail` and the others do to their computation. -/
def update (c : ComputationSheet) (e : TraceEntry) : Bool × ComputationSheet :=
  match matchedVar info e with
  | some (st, v, data) => c.setValue st v data
  | none => (false, c)

/-- The entry goes to a variable of the computation. -/
def tracks (c : ComputationSheet) (e : TraceEntry) : Bool :=
  (matchedVar info e).any fun x => c.containVar x.1 x.2.1

end ComputationSheet

/-- The bytes an entry stores to a variable. -/
def storedTo (e : TraceEntry) (stName varName : String) : Option (List UInt8) :=
  (matchedVar info e).bind fun x => if x.1 = stName ∧ x.2.1 = varName then some x.2.2 else none

/-- The bytes last stored to a variable. -/
def lastStored (stores : List TraceEntry) (stName varName : String) : Option (List UInt8) :=
  lastWrite (fun e => storedTo info e stName varName) stores

theorem lastStored_append (stores : List TraceEntry) (e : TraceEntry) (st v : String) :
    lastStored info (stores ++ [e]) st v = (storedTo info e st v).or (lastStored info stores st v) := by
  rw [lastStored, lastWrite_append, lastWrite_singleton, lastStored]

namespace ComputationSheet

variable (c : ComputationSheet)

/-- The computation after stores that came upon the values it has. -/
def after (stores : List TraceEntry) : ComputationSheet :=
  c.mapValues fun st v signed x => ((lastStored info stores st v).map (intFromBytes signed)).or x

/-- An update sets the variable the entry stores to, if it is one of the computation. -/
theorem update_snd (e : TraceEntry) :
    (c.update info e).2 = c.mapValues fun st v signed x =>
      ((storedTo info e st v).map (intFromBytes signed)).or x := by
  have hself : ∀ f : String → String → Bool → Option Int → Option Int,
      (∀ st v signed x, .var st v signed x ∈ c.rpn → f st v signed x = x) → c.mapValues f = c :=
    fun f hf => (mapValues_congr hf).trans c.mapValues_self
  rw [update]
  cases h : matchedVar info e with
  | none =>
    refine (hself _ (fun st v signed x _ => ?_)).symm
    rw [storedTo, h]
    rfl
  | some m =>
    obtain ⟨st, v, data⟩ := m
    have hstored : ∀ st' v', storedTo info e st' v' =
        if st = st' ∧ v = v' then some data else none := by
      intro st' v'
      rw [storedTo, h]
      rfl
    show (c.setValue st v data).2 = _
    rw [setValue]
    by_cases hc : c.containVar st v = true
    · rw [if_neg (by rw [not_isPureNumber_of_containVar hc]; simp), if_pos hc]
      refine mapValues_congr (fun st' v' signed x _ => ?_)
      rw [hstored]
      by_cases hst : st' = st ∧ v' = v
      · rw [if_pos hst, if_pos ⟨hst.1.symm, hst.2.symm⟩]
        rfl
      · rw [if_neg hst, if_neg (fun hst' => hst ⟨hst'.1.symm, hst'.2.symm⟩)]
        rfl
    · -- the variables of the computation have other names
      have hsame : c = c.mapValues fun st v signed x =>
          ((storedTo info e st v).map (intFromBytes signed)).or x := by
        refine (hself _ (fun st' v' signed x hmem => ?_)).symm
        have hne : ¬ (st = st' ∧ v = v') := by
          rintro ⟨rfl, rfl⟩
          exact hc (containVar_of_mem hmem)
        rw [hstored, if_neg hne]
        rfl
      rw [if_neg hc]
      split_ifs
      · exact hsame
      · exact hsame

theorem update_of_not_tracks {c : ComputationSheet} {e : TraceEntry}
    (h : c.tracks info e = false) : (c.update info e).2 = c := by
  rw [update_snd]
  refine (mapValues_congr (fun st v signed x hmem => ?_)).trans c.mapValues_self
  rw [tracks, Option.any_eq_false] at h
  have hnone : storedTo info e st v = none := by
    rw [storedTo, Option.bind_eq_none_iff]
    intro m hm
    refine if_neg (fun hst => ?_)
    have hf := h m hm
    rw [hst.1, hst.2, containVar_of_mem hmem] at hf
    exact absurd hf (by simp)
  rw [hnone]
  rfl

@[simp] theorem tracks_mapValues (f : String → String → Bool → Option Int → Option Int)
    (e : TraceEntry) : (c.mapValues f).tracks info e = c.tracks info e := by
  simp only [tracks, containVar_mapValues]

theorem blank_mapValues (f : String → String → Bool → Option Int → Option Int) :
    (c.mapValues f).blank = c.blank := mapValues_mapValues _ _ _

/-- A run of updates. -/
theorem foldl_update (stores : List TraceEntry) :
    stores.foldl (fun c e => (c.update info e).2) c = c.after info stores := by
  induction stores using List.reverseRecOn with
  | nil =>
    refine (c.mapValues_self).symm.trans (mapValues_congr (fun st v signed x _ => ?_))
    rfl
  | append_singleton stores e ih =>
    rw [List.foldl_append, ih, List.foldl_cons, List.foldl_nil, update_snd, after, mapValues_mapValues]
    refine mapValues_congr (fun st v signed x _ => ?_)
    rw [lastStored_append]
    cases storedTo info e st v with
    | none => rfl
    | some data => rfl

theorem after_append (stores : List TraceEntry) (e : TraceEntry) :
    c.after info (stores ++ [e]) = ((c.after info stores).update info e).2 := by
  rw [← foldl_update, ← foldl_update, List.foldl_append]
  rfl

theorem after_of_not_tracks {c : ComputationSheet} {stores : List TraceEntry}
    (h : ∀ e ∈ stores, c.tracks info e = false) : c.after info stores = c := by
  rw [← foldl_update]
  induction stores with
  | nil => rfl
  | cons e rest ih =>
    rw [List.foldl_cons, update_of_not_tracks info (h e List.mem_cons_self)]
    exact ih (fun e' he' => h e' (List.mem_cons_of_mem _ he'))

theorem tracks_eq_of_blank {c c' : ComputationSheet} (h : c.blank = c'.blank) (e : TraceEntry) :
    c.tracks info e = c'.tracks info e := by
  rw [← c.tracks_mapValues info (fun _ _ _ _ => none), ← c'.tracks_mapValues info fun _ _ _ _ => none]
  exact congrArg (fun d : ComputationSheet => d.tracks info e) h

end ComputationSheet

structure UndoJnlCheatSheetBase where
  preAlloc : Bool
  logEntryStruct : List String
  headComputation : ComputationSheet
  tailComputation : ComputationSheet
  deriving DecidableEq

namespace UndoJnlCheatSheetBase

def updateHead (u : UndoJnlCheatSheetBase) (e : TraceEntry) : Bool × UndoJnlCheatSheetBase :=
  let r := u.headComputation.update info e
  (r.1, { u with headComputation := r.2 })

def updateTail (u : UndoJnlCheatSheetBase) (e : TraceEntry) : Bool × UndoJnlCheatSheetBase :=
  let r := u.tailComputation.update info e
  (r.1, { u with tailComputation := r.2 })

/-- Both, as for operations that are not tested. -/
def update (u : UndoJnlCheatSheetBase) (e : TraceEntry) : UndoJnlCheatSheetBase :=
  ((u.updateHead info e).2.updateTail info e).2

def tracks (u : UndoJnlCheatSheetBase) (e : TraceEntry) : Bool :=
  u.headComputation.tracks info e || u.tailComputation.tracks info e

end UndoJnlCheatSheetBase

/-- Different logs have their tails at different locations.  `tail` is the phoney
computation, which is only asked for its variables. -/
structure LSWCheatSheetBase where
  tail : ComputationSheet
  tailLocToComputationDict : Dict Int ComputationSheet
  tail_blank : tail.blank = tail
  made : ∀ loc c, tailLocToComputationDict.get? loc = some c → c.blank = tail

namespace LSWCheatSheetBase

/-- The addresses before and after the update are returned for the entries of the reasoner
and left out here. -/
def updateTail (l : LSWCheatSheetBase) (e : TraceEntry) : LSWCheatSheetBase :=
  if l.tail.tracks info e then
    { l with
      tailLocToComputationDict := l.tailLocToComputationDict.set e.addr
        (((l.tailLocToComputationDict.get? e.addr).getD l.tail).update info e).2
      made := by
        intro loc c hc
        rw [Dict.get?_set] at hc
        by_cases hloc : loc = e.addr
        · rw [if_pos hloc, Option.some.injEq] at hc
          rw [← hc, ComputationSheet.update_snd, ComputationSheet.blank_mapValues]
          cases hold : l.tailLocToComputationDict.get? e.addr with
          | none => exact l.tail_blank
          | some c => exact l.made _ c hold
        · rw [if_neg hloc] at hc
          exact l.made loc c hc }
  else l

/-- The computation of a location, or the one that would be made for it. -/
def compAt (l : LSWCheatSheetBase) (a : Int) : ComputationSheet :=
  (l.tailLocToComputationDict.get? a).getD l.tail

theorem blank_compAt (l : LSWCheatSheetBase) (a : Int) : (l.compAt a).blank = l.tail := by
  rw [compAt]
  cases h : l.tailLocToComputationDict.get? a with
  | none => exact l.tail_blank
  | some c => exact l.made a c h

theorem tracks_compAt (l : LSWCheatSheetBase) (a : Int) (e : TraceEntry) :
    (l.compAt a).tracks info e = l.tail.tracks info e :=
  ComputationSheet.tracks_eq_of_blank info ((l.blank_compAt a).trans l.tail_blank.symm) e

theorem tail_updateTail (l : LSWCheatSheetBase) (e : TraceEntry) :
    (l.updateTail info e).tail = l.tail := by
  rw [updateTail]
  split_ifs
  · rfl
  · rfl

theorem get?_updateTail (l : LSWCheatSheetBase) (e : TraceEntry) (a : Int) :
    (l.updateTail info e).tailLocToComputationDict.get? a =
      if a = e.addr ∧ l.tail.tracks info e = true then
        some ((l.compAt a).update info e).2
      else l.tailLocToComputationDict.get? a := by
  rw [updateTail]
  by_cases h : l.tail.tracks info e = true
  · rw [if_pos h]
    simp only [Dict.get?_set, h, and_true]
    by_cases ha : a = e.addr
    · rw [if_pos ha, if_pos ha, ha, compAt]
    · rw [if_neg ha, if_neg ha]
  · rw [if_neg h, if_neg (fun hc => h hc.2)]

end LSWCheatSheetBase

structure CheatSheetBase where
  undoJnlSheet : Option UndoJnlCheatSheetBase
  lswSheetList : List LSWCheatSheetBase

namespace CheatSheetBase

/-- One round of `update_necessary_computations`. -/
def update (s : CheatSheetBase) (e : TraceEntry) : CheatSheetBase where
  undoJnlSheet := s.undoJnlSheet.map fun u => u.update info e
  lswSheetList := s.lswSheetList.map fun l => l.updateTail info e

/-- The entry goes to a variable of some sheet. -/
def tracks (s : CheatSheetBase) (e : TraceEntry) : Bool :=
  s.undoJnlSheet.any (fun u => u.tracks info e) || s.lswSheetList.any fun l => l.tail.tracks info e

end CheatSheetBase

/-! ## In step with a sequence of stores -/

/-- The computation with the values that the stores leave behind, and no others. -/
def ComputationSheet.filled (c : ComputationSheet) (stores : List TraceEntry) : ComputationSheet :=
  c.mapValues fun st v signed _ => (lastStored info stores st v).map (intFromBytes signed)

/-- Head and tail have the values last stored to their variables. -/
def UndoJnlCheatSheetBase.InStep (u : UndoJnlCheatSheetBase) (stores : List TraceEntry) : Prop :=
  u.headComputation = u.headComputation.filled info stores ∧
    u.tailComputation = u.tailComputation.filled info stores

/-- The stores to one location. -/
def atLoc (stores : List TraceEntry) (a : Int) : List TraceEntry :=
  stores.filter fun e => e.addr = a

/-- Every location that the tail was stored to has the values last stored there, and no
other location has any. -/
def LSWCheatSheetBase.InStep (l : LSWCheatSheetBase) (stores : List TraceEntry) : Prop :=
  ∀ a, l.tailLocToComputationDict.get? a =
    if (atLoc stores a).any (l.tail.tracks info) then some (l.tail.filled info (atLoc stores a))
    else none

def CheatSheetBase.InStep (s : CheatSheetBase) (stores : List TraceEntry) : Prop :=
  (∀ u ∈ s.undoJnlSheet, u.InStep info stores) ∧ ∀ l ∈ s.lswSheetList, l.InStep info stores

/-! What the sheets still have from an earlier test case is stored anew. -/

def ComputationSheet.Renewed (c : ComputationSheet) (stores : List TraceEntry) : Prop :=
  ∀ st v signed x, .var st v signed (some x) ∈ c.rpn → (lastStored info stores st v).isSome

def LSWCheatSheetBase.Renewed (l : LSWCheatSheetBase) (stores : List TraceEntry) : Prop :=
  ∀ a c, l.tailLocToComputationDict.get? a = some c →
    (atLoc stores a).any (l.tail.tracks info) = true ∧ c.Renewed info (atLoc stores a)

def CheatSheetBase.Renewed (s : CheatSheetBase) (stores : List TraceEntry) : Prop :=
  (∀ u ∈ s.undoJnlSheet, u.headComputation.Renewed info stores ∧
    u.tailComputation.Renewed info stores) ∧ ∀ l ∈ s.lswSheetList, l.Renewed info stores

end

section

variable {info : TraceEntry → Deduced}

theorem ComputationSheet.filled_after (c : ComputationSheet) (stores : List TraceEntry) :
    (c.after info stores).filled info stores = c.filled info stores :=
  mapValues_mapValues _ _ _

theorem ComputationSheet.filled_blank (c : ComputationSheet) (stores : List TraceEntry) :
    c.blank.filled info stores = c.filled info stores := mapValues_mapValues _ _ _

theorem ComputationSheet.Renewed.after_eq {c : ComputationSheet} {stores : List TraceEntry}
    (h : c.Renewed info stores) : c.after info stores = c.filled info stores := by
  refine mapValues_congr (fun st v signed x hmem => ?_)
  cases x with
  | none => rw [Option.or_none]
  | some x =>
    obtain ⟨data, hdata⟩ := Option.isSome_iff_exists.mp (h st v signed x hmem)
    rw [hdata]
    rfl

/-- A computation as it is created has no value that could be left over. -/
theorem ComputationSheet.renewed_of_blank {c : ComputationSheet} (h : c.blank = c)
    (stores : List TraceEntry) : c.Renewed info stores := by
  intro st v signed x hmem
  rw [← h] at hmem
  obtain ⟨e, -, he⟩ := List.mem_map.mp hmem
  cases e <;> simp at he

/-- Head and tail are advanced independently. -/
theorem UndoJnlCheatSheetBase.foldl_update (u : UndoJnlCheatSheetBase) (stores : List TraceEntry) :
    stores.foldl (fun u e => u.update info e) u =
      { u with
        headComputation := u.headComputation.after info stores
        tailComputation := u.tailComputation.after info stores } := by
  rw [← ComputationSheet.foldl_update, ← ComputationSheet.foldl_update]
  induction stores generalizing u with
  | nil => rfl
  | cons e rest ih =>
    rw [List.foldl_cons, ih]
    rfl

namespace LSWCheatSheetBase

theorem tail_foldl (l : LSWCheatSheetBase) (stores : List TraceEntry) :
    (stores.foldl (fun l e => l.updateTail info e) l).tail = l.tail := by
  induction stores generalizing l with
  | nil => rfl
  | cons e rest ih => rw [List.foldl_cons, ih, tail_updateTail]

/-- Every location is advanced by the stores that go there. -/
theorem get?_foldl (l : LSWCheatSheetBase) (stores : List TraceEntry) (a : Int) :
    (stores.foldl (fun l e => l.updateTail info e) l).tailLocToComputationDict.get? a =
      if (atLoc stores a).any (l.tail.tracks info) then
        some ((l.compAt a).after info (atLoc stores a))
      else l.tailLocToComputationDict.get? a := by
  induction stores using List.reverseRecOn with
  | nil => rfl
  | append_singleton stores e ih =>
    rw [List.foldl_append, List.foldl_cons, List.foldl_nil, get?_updateTail, tail_foldl, ih]
    by_cases ha : e.addr = a
    · have hloc : atLoc (stores ++ [e]) a = atLoc stores a ++ [e] := by
        rw [atLoc, List.filter_append]
        simp [ha, atLoc]
      rw [hloc, List.any_append, compAt, tail_foldl, ih]
      by_cases hany : (atLoc stores a).any (l.tail.tracks info) = true
      · have hany' : ((atLoc stores a).any (l.tail.tracks info) ||
            [e].any (l.tail.tracks info)) = true := by rw [hany, Bool.true_or]
        rw [if_pos hany, if_pos hany', ComputationSheet.after_append]
        by_cases he : l.tail.tracks info e = true
        · rw [if_pos ⟨ha.symm, he⟩, Option.getD_some]
        · have hstay : ((l.compAt a).after info (atLoc stores a)).tracks info e = false := by
            rw [ComputationSheet.after, ComputationSheet.tracks_mapValues, tracks_compAt]
            exact Bool.eq_false_of_not_eq_true he
          rw [if_neg (fun hc => he hc.2), ComputationSheet.update_of_not_tracks info hstay]
      · -- nothing went to the location before
        have hnone : (l.compAt a).after info (atLoc stores a) = l.compAt a := by
          refine ComputationSheet.after_of_not_tracks info (fun e' he' => ?_)
          rw [tracks_compAt]
          exact Bool.eq_false_of_not_eq_true fun ht => hany (List.any_eq_true.mpr ⟨e', he', ht⟩)
        rw [if_neg hany, ← compAt]
        by_cases he : l.tail.tracks info e = true
        · rw [if_pos ⟨ha.symm, he⟩, if_pos (by simp [he]), ComputationSheet.after_append, hnone]
        · rw [if_neg (fun hc => he hc.2), if_neg (by simp [hany, he])]
    · have hloc : atLoc (stores ++ [e]) a = atLoc stores a := by
        rw [atLoc, List.filter_append]
        simp [ha, atLoc]
      rw [hloc, if_neg (fun hc => ha hc.1.symm)]

/-- Once what it had is stored anew, a sheet that saw all stores is in step with them. -/
theorem Renewed.inStep {l : LSWCheatSheetBase} {stores : List TraceEntry} (h : l.Renewed info stores) :
    (stores.foldl (fun l e => l.updateTail info e) l).InStep info stores := by
  intro a
  rw [get?_foldl, tail_foldl]
  by_cases hany : (atLoc stores a).any (l.tail.tracks info) = true
  · have hrenewed : (l.compAt a).Renewed info (atLoc stores a) := by
      rw [compAt]
      cases hget : l.tailLocToComputationDict.get? a with
      | some c => exact (h a c hget).2
      | none => exact ComputationSheet.renewed_of_blank l.tail_blank _
    rw [if_pos hany, if_pos hany, hrenewed.after_eq, ← ComputationSheet.filled_blank, blank_compAt]
  · rw [if_neg hany, if_neg hany, Option.eq_none_iff_forall_ne_some]
    exact fun c hc => hany (h a c hc).1

end LSWCheatSheetBase

namespace CheatSheetBase

variable (s : CheatSheetBase)

theorem foldl_update (stores : List TraceEntry) :
    stores.foldl (fun s e => s.update info e) s =
      { undoJnlSheet := s.undoJnlSheet.map fun u => stores.foldl (fun u e => u.update info e) u
        lswSheetList := s.lswSheetList.map fun l =>
          stores.foldl (fun l e => l.updateTail info e) l } := by
  induction stores generalizing s with
  | nil => simp
  | cons e rest ih =>
    rw [List.foldl_cons, ih]
    simp only [update, Option.map_map, List.map_map]
    rfl

theorem Renewed.inStep {s : CheatSheetBase} {stores : List TraceEntry} (h : s.Renewed info stores) :
    (stores.foldl (fun s e => s.update info e) s).InStep info stores := by
  rw [foldl_update]
  refine ⟨fun u hu => ?_, fun l hl => ?_⟩
  · obtain ⟨u₀, hu₀, rfl⟩ := Option.map_eq_some_iff.mp hu
    obtain ⟨hhead, htail⟩ := h.1 u₀ hu₀
    rw [UndoJnlCheatSheetBase.foldl_update]
    refine ⟨?_, ?_⟩
    · rw [ComputationSheet.filled_after, hhead.after_eq]
    · rw [ComputationSheet.filled_after, htail.after_eq]
  · obtain ⟨l₀, hl₀, rfl⟩ := List.mem_map.mp hl
    exact (h.2 l₀ hl₀).inStep

/-- Sheets that were not used before have nothing left over. -/
theorem renewed_of_fresh {s : CheatSheetBase}
    (hundo : ∀ u ∈ s.undoJnlSheet, u.headComputation.blank = u.headComputation ∧
      u.tailComputation.blank = u.tailComputation)
    (hlsw : ∀ l ∈ s.lswSheetList, l.tailLocToComputationDict.items = []) (stores : List TraceEntry) :
    s.Renewed info stores := by
  refine ⟨fun u hu => ?_, fun l hl a c hc => ?_⟩
  · exact ⟨ComputationSheet.renewed_of_blank (hundo u hu).1 stores,
      ComputationSheet.renewed_of_blank (hundo u hu).2 stores⟩
  · rw [Dict.get?_eq_some, hlsw l hl] at hc
    exact absurd hc List.not_mem_nil

/-- Seeing a stretch of stores twice does no harm. -/
theorem InStep.replay {s : CheatSheetBase} {l₁ l₂ l₃ stores : List TraceEntry}
    (h : ((l₁ ++ l₂ ++ l₃).foldl (fun s e => s.update info e) s).InStep info stores) :
    ((l₁ ++ l₂ ++ l₂ ++ l₃).foldl (fun s e => s.update info e) s).InStep info stores := by
  have hafter : ∀ (c : ComputationSheet) (m₁ m₂ m₃ : List TraceEntry),
      c.after info (m₁ ++ m₂ ++ m₂ ++ m₃) = c.after info (m₁ ++ m₂ ++ m₃) := by
    intro c m₁ m₂ m₃
    simp only [ComputationSheet.after, lastStored, lastWrite_replay]
  rw [foldl_update] at h ⊢
  refine ⟨fun u hu => ?_, fun l hl => ?_⟩
  · obtain ⟨u₀, hu₀, rfl⟩ := Option.map_eq_some_iff.mp hu
    have hin := h.1 _ (Option.map_eq_some_iff.mpr ⟨u₀, hu₀, rfl⟩)
    rw [UndoJnlCheatSheetBase.foldl_update] at hin ⊢
    rwa [hafter, hafter]
  · obtain ⟨l₀, hl₀, rfl⟩ := List.mem_map.mp hl
    have hin := h.2 _ (List.mem_map.mpr ⟨l₀, hl₀, rfl⟩)
    intro a
    have hloc := hin a
    rw [LSWCheatSheetBase.get?_foldl, LSWCheatSheetBase.tail_foldl] at hloc ⊢
    simp only [atLoc, List.filter_append, List.any_append, hafter, Bool.or_assoc, Bool.or_self_left]
      at hloc ⊢
    exact hloc

/-! Entries that go to no variable of the sheets do not matter. -/

theorem tracks_update (e e' : TraceEntry) : (s.update info e').tracks info e = s.tracks info e := by
  have hundo : ∀ u : UndoJnlCheatSheetBase, (u.update info e').tracks info e = u.tracks info e := by
    intro u
    show ((u.headComputation.update info e').2.tracks info e ||
      (u.tailComputation.update info e').2.tracks info e) = _
    rw [ComputationSheet.update_snd, ComputationSheet.update_snd, ComputationSheet.tracks_mapValues,
      ComputationSheet.tracks_mapValues]
    rfl
  have hlsw : ∀ l : LSWCheatSheetBase,
      (l.updateTail info e').tail.tracks info e = l.tail.tracks info e := by
    intro l
    rw [LSWCheatSheetBase.tail_updateTail]
  simp only [tracks, update, Option.any_map, List.any_map, Function.comp_def, hundo, hlsw]

theorem tracks_foldl (stores : List TraceEntry) (e : TraceEntry) :
    (stores.foldl (fun s e => s.update info e) s).tracks info e = s.tracks info e := by
  induction stores generalizing s with
  | nil => rfl
  | cons e' rest ih => rw [List.foldl_cons, ih, tracks_update]

theorem update_of_not_tracks {s : CheatSheetBase} {e : TraceEntry} (h : s.tracks info e = false) :
    s.update info e = s := by
  rw [tracks, Bool.or_eq_false_iff, Option.any_eq_false, List.any_eq_false] at h
  have hundo : s.undoJnlSheet.map (fun u => u.update info e) = s.undoJnlSheet := by
    cases hs : s.undoJnlSheet with
    | none => rfl
    | some u =>
      obtain ⟨hhead, htail⟩ := Bool.or_eq_false_iff.mp (h.1 u hs)
      rw [Option.map_some, UndoJnlCheatSheetBase.update]
      simp only [UndoJnlCheatSheetBase.updateHead, UndoJnlCheatSheetBase.updateTail,
        ComputationSheet.update_of_not_tracks info hhead,
        ComputationSheet.update_of_not_tracks info htail]
  have hlsw : s.lswSheetList.map (fun l => l.updateTail info e) = s.lswSheetList := by
    refine (List.map_congr_left (fun l hl => ?_)).trans (List.map_id _)
    rw [LSWCheatSheetBase.updateTail, if_neg (h.2 l hl)]
    rfl
  rw [update, hundo, hlsw]

theorem foldl_update_filter (stores : List TraceEntry) :
    stores.foldl (fun s e => s.update info e) s =
      (stores.filter (s.tracks info)).foldl (fun s e => s.update info e) s := by
  induction stores generalizing s with
  | nil => rfl
  | cons e rest ih =>
    have hsame : (s.update info e).tracks info = s.tracks info := funext fun e' => s.tracks_update e' e
    by_cases he : s.tracks info e = true
    · rw [List.foldl_cons, List.filter_cons_of_pos he, List.foldl_cons, ih, hsame]
    · rw [List.foldl_cons, List.filter_cons_of_neg he,
        update_of_not_tracks (Bool.eq_false_of_not_eq_true he), ih]

/-- So two lists with the same tracked entries do the same. -/
theorem foldl_update_congr {l m : List TraceEntry}
    (h : l.filter (s.tracks info) = m.filter (s.tracks info)) :
    l.foldl (fun s e => s.update info e) s = m.foldl (fun s e => s.update info e) s := by
  rw [foldl_update_filter, h, ← foldl_update_filter]

end CheatSheetBase

end

end CheatSheet
end Silhouette
