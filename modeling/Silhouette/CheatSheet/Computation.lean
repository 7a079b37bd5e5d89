import Silhouette.Lib.Rpn
import Silhouette.Lib.Text
import Silhouette.CheatSheet.Sheets

/-!
# Computation sheets

A computation sheet is made from a list in reverse Polish notation, its variables get their
values one by one, and it is evaluated once all of them have one.  A list without variables is
a number: setting and cleaning leave it alone, and its value is kept beside the list.

Constants and variables are elements of one type, and cleaning takes the value from both.
Setting gives it back to variables only.
-/

namespace Silhouette
namespace CheatSheet

open Lib Lib.Rpn Lib.Text

/-! ## The code -/

/-- An entry of the list a sheet is made from. -/
inductive RpnWord where
  | int (n : Int)
  | text (s : String)
  deriving DecidableEq, Repr

/-- `isnumeric` of plain digits. -/
def isNumeric (cs : List Char) : Bool := cs ≠ [] ∧ cs.all Char.isDigit

/-- A string of another form is refused. -/
def RpnElement.ofText (cs : List Char) : Option RpnElement :=
  if cs ∈ [['+'], ['-'], ['*'], ['/']] then cs.head?.map .operator
  else if isNumeric cs then (readNat 10 cs).map fun n => .number (some n)
  else match cs.splitOn '.' with
    | [st, v, sign] =>
      some (.var (String.ofList st) (String.ofList v) (sign = "signed".toList) none)
    | _ => none

def RpnElement.new : RpnWord → Option RpnElement
  | .int n => some (.number (some n))
  | .text s => ofText s.toList

/-- `val` of `set_value`, a number or bytes that `convert_from_bytes` asks to decode. -/
inductive SetVal where
  | bytes (data : List UInt8)
  | number (n : Int)
  deriving DecidableEq, Repr

def SetVal.toInt (signed : Bool) : SetVal → Int
  | .bytes data => intFromBytes signed data
  | .number n => n

/-- How an evaluation stops: the stack is too short, or an operand has no value.  A quotient is
a floating point number, which no sheet has a use for; it is not computed here. -/
inductive EvalError where
  | indexError
  | typeError
  | quotient
  deriving DecidableEq, Repr

def applyOperator (c : Char) (operand2 operand1 : Option Int) : Except EvalError (Option Int) :=
  match operand2, operand1 with
  | some x, some y =>
    if c = '+' then .ok (some (x + y))
    else if c = '-' then .ok (some (x - y))
    else if c = '*' then .ok (some (x * y))
    else .error .quotient
  | _, _ => .error .typeError

def RpnElement.token : RpnElement → Token (Option Int) Char
  | .operator c => .operator c
  | .number value => .operand value
  | .var _ _ _ value => .operand value

namespace ComputationSheet

def new (rpnList : List RpnWord) : Option ComputationSheet :=
  if rpnList = [] then none else (rpnList.mapM RpnElement.new).map .mk

/-- The last number of the list.  It is read from sheets without variables only, and these keep
their numbers. -/
def pureNum (c : ComputationSheet) : Option Int :=
  (c.rpn.reverse.findSome? fun
    | .number value => some value
    | _ => none).join

def setVal (c : ComputationSheet) (stName varName : String) (val : SetVal) :
    Bool × ComputationSheet :=
  if c.isPureNumber then (true, c)
  else if c.containVar stName varName then
    (true, c.mapValues fun st v signed value =>
      if st = stName ∧ v = varName then some (val.toInt signed) else value)
  else (false, c)

def cleanVal (c : ComputationSheet) : ComputationSheet :=
  if c.isPureNumber then c
  else ⟨c.rpn.map fun
    | .operator o => .operator o
    | .number _ => .number none
    | .var st v signed _ => .var st v signed none⟩

def isFinalized (c : ComputationSheet) : Bool :=
  c.isPureNumber || c.rpn.all fun
    | .operator _ => true
    | .number value => value.isSome
    | .var _ _ _ value => value.isSome

/-- The value is `None` where the first operand has none and nothing is applied to it. -/
def evaluate (c : ComputationSheet) : Except EvalError (Option Int) :=
  if c.isPureNumber then .ok c.pureNum
  else (run id applyOperator .indexError [] (c.rpn.map RpnElement.token)).bind fun stack =>
    match stack.getLast? with
    | some value => .ok value
    | none => .error .indexError

/-- The bytes of a store are set by the same call. -/
theorem setValue_eq (c : ComputationSheet) (stName varName : String) (data : List UInt8) :
    c.setValue stName varName data = c.setVal stName varName (.bytes data) := rfl

end ComputationSheet

/-! ## What the lists mean -/

inductive Operand where
  | const (n : Int)
  | var (stName varName : String) (signed : Bool)
  deriving DecidableEq, Repr

inductive ArithOp where
  | add
  | sub
  | mul
  deriving DecidableEq, Repr

namespace ArithOp

def char : ArithOp → Char
  | add => '+'
  | sub => '-'
  | mul => '*'

def apply : ArithOp → Int → Int → Int
  | add, x, y => x + y
  | sub, x, y => x - y
  | mul, x, y => x * y

end ArithOp

abbrev RpnToken := Token Operand ArithOp

/-- How a token is written in a list. -/
inductive Spells : RpnWord → RpnToken → Prop
  | int (n : Int) : Spells (.int n) (.operand (.const n))
  | digits {s : String} {n : Nat} (hs : isNumeric s.toList = true)
      (hn : readNat 10 s.toList = some n) : Spells (.text s) (.operand (.const n))
  | var {s st v : String} (signed : Bool) (hst : '.' ∉ st.toList) (hv : '.' ∉ v.toList)
      (hs : s.toList = st.toList ++ '.' :: (v.toList ++
        '.' :: (if signed then "signed".toList else "unsigned".toList))) :
      Spells (.text s) (.operand (.var st v signed))
  | operator {s : String} (o : ArithOp) (hs : s.toList = [o.char]) : Spells (.text s) (.operator o)

inductive SheetCall where
  | setValue (stName varName : String) (val : SetVal)
  | cleanVal
  deriving DecidableEq, Repr

/-- The values set since the last clean, by the names of the variables. -/
def lastSet (calls : List SheetCall) : String → String → Option SetVal :=
  calls.foldl (fun vals call =>
    match call with
    | .setValue st v val => fun st' v' => if st' = st ∧ v' = v then some val else vals st' v'
    | .cleanVal => fun _ _ => none) fun _ _ => none

theorem lastSet_append_setValue (cs : List SheetCall) (st v : String) (val : SetVal) :
    lastSet (cs ++ [.setValue st v val]) =
      fun st' v' => if st' = st ∧ v' = v then some val else lastSet cs st' v' := by
  rw [lastSet, List.foldl_append]
  rfl

theorem lastSet_append_cleanVal (cs : List SheetCall) :
    lastSet (cs ++ [.cleanVal]) = fun _ _ => none := by
  rw [lastSet, List.foldl_append]
  rfl

namespace ComputationSheet

def call (c : ComputationSheet) : SheetCall → ComputationSheet
  | .setValue st v val => (c.setVal st v val).2
  | .cleanVal => c.cleanVal

def calls (c : ComputationSheet) (cs : List SheetCall) : ComputationSheet := cs.foldl call c

end ComputationSheet

/-! ## The state behind a run of calls -/

/-- The element of a token when `vals` are the values last set and `cleaned` says whether the
sheet was cleaned before. -/
def RpnElement.view (cleaned : Bool) (vals : String → String → Option SetVal) :
    RpnToken → RpnElement
  | .operator o => .operator o.char
  | .operand (.const n) => .number (if cleaned then none else some n)
  | .operand (.var st v signed) => .var st v signed ((vals st v).map (SetVal.toInt signed))

def Operand.isVar : Operand → Bool
  | .const _ => false
  | .var _ _ _ => true

/-- An operator is neither a numeral nor does it hold a dot. -/
theorem of_mem_operators {cs : List Char} (h : cs ∈ [['+'], ['-'], ['*'], ['/']]) :
    isNumeric cs = false ∧ '.' ∉ cs := by
  simp only [List.mem_cons, List.not_mem_nil, or_false] at h
  obtain rfl | rfl | rfl | rfl := h
  · decide
  · decide
  · decide
  · decide

theorem not_isNumeric_of_dot {cs : List Char} (h : '.' ∈ cs) : isNumeric cs = false := by
  rw [isNumeric, decide_eq_false_iff_not]
  intro hnum
  exact absurd (List.all_eq_true.mp hnum.2 '.' h) (by decide)

theorem RpnElement.ofText_var {st v sign : List Char} (hst : '.' ∉ st) (hv : '.' ∉ v)
    (hsign : '.' ∉ sign) : ofText (st ++ '.' :: (v ++ '.' :: sign)) =
      some (.var (String.ofList st) (String.ofList v) (sign = "signed".toList) none) := by
  have hmem : '.' ∈ st ++ '.' :: (v ++ '.' :: sign) :=
    List.mem_append_right _ List.mem_cons_self
  have hsplit : (st ++ '.' :: (v ++ '.' :: sign)).splitOn '.' = [st, v, sign] := by
    rw [List.splitOn_append_cons_self_of_not_mem hst, List.splitOn_append_cons_self_of_not_mem hv,
      List.splitOn_eq_singleton hsign]
  rw [ofText, if_neg fun hop => (of_mem_operators hop).2 hmem,
    if_neg (Bool.eq_false_iff.mp (not_isNumeric_of_dot hmem)), hsplit]

theorem RpnElement.new_of_spells {w : RpnWord} {t : RpnToken} (h : Spells w t) :
    RpnElement.new w = some (RpnElement.view false (fun _ _ => none) t) := by
  cases h with
  | int n => rfl
  | @digits s n hs hn =>
    have hop : s.toList ∉ [['+'], ['-'], ['*'], ['/']] := by
      intro hop
      rw [(of_mem_operators hop).1] at hs
      cases hs
    rw [RpnElement.new, ofText, if_neg hop, if_pos hs, hn]
    rfl
  | @var s st v signed hst hv hs =>
    rw [RpnElement.new, hs, ofText_var hst hv (by cases signed <;> decide), String.ofList_toList,
      String.ofList_toList]
    cases signed with
    | true => rfl
    | false => rfl
  | @operator s o hs =>
    rw [RpnElement.new, hs]
    cases o with
    | add => rfl
    | sub => rfl
    | mul => rfl

namespace ComputationSheet

def view (cleaned : Bool) (vals : String → String → Option SetVal) (toks : List RpnToken) :
    ComputationSheet := ⟨toks.map (RpnElement.view cleaned vals)⟩

theorem new_of_spells {words : List RpnWord} {toks : List RpnToken} (hne : toks ≠ [])
    (h : List.Forall₂ Spells words toks) : new words = some (view false (fun _ _ => none) toks) := by
  have hmap : words.mapM RpnElement.new =
      some (toks.map (RpnElement.view false fun _ _ => none)) := by
    clear hne
    induction h with
    | nil => rfl
    | cons hw hrest ih =>
      rw [List.mapM_cons, RpnElement.new_of_spells hw, ih]
      rfl
  have hwords : words ≠ [] := by
    intro hnil
    rw [hnil] at h
    exact hne (List.forall₂_nil_left_iff.mp h)
  rw [new, if_neg hwords, hmap]
  rfl

/-- A sheet starts without values. -/
theorem blank_view (toks : List RpnToken) :
    (view false (fun _ _ => none) toks).blank = view false (fun _ _ => none) toks := by
  refine congrArg ComputationSheet.mk (List.map_map.trans (List.map_congr_left (fun t _ => ?_)))
  cases t with
  | operator o => rfl
  | operand a => cases a <;> rfl

section

variable {e : Expr Operand ArithOp} (cleaned : Bool) (vals : String → String → Option SetVal)

theorem isPureNumber_view :
    (view cleaned vals e.rpn).isPureNumber = !e.leaves.any Operand.isVar := by
  rw [Bool.eq_iff_iff, isPureNumber, Bool.not_eq_true', List.any_eq_false, view, List.all_map,
    List.all_eq_true]
  constructor
  · intro h a ha
    have hop := h _ (Expr.operand_mem_rpn.mpr ha)
    cases a with
    | const n => simp [Operand.isVar]
    | var st v signed => exact absurd hop (by simp [RpnElement.view])
  · intro h t ht
    cases t with
    | operator o => rfl
    | operand a =>
      have hno := h a (Expr.operand_mem_rpn.mp ht)
      cases a with
      | const n => rfl
      | var st v signed => exact absurd rfl hno

/-- The sheet has the variables of the list. -/
theorem containVar_view (stName varName : String) :
    (view cleaned vals e.rpn).containVar stName varName = true ↔
      ∃ signed, Operand.var stName varName signed ∈ e.leaves := by
  rw [containVar, view, List.any_map, List.any_eq_true]
  constructor
  · intro h
    obtain ⟨t, ht, hmatch⟩ := h
    cases t with
    | operator o => exact absurd hmatch (by simp [RpnElement.view])
    | operand a =>
      cases a with
      | const n => exact absurd hmatch (by simp [RpnElement.view])
      | var st v signed =>
        have heq : st = stName ∧ v = varName := of_decide_eq_true hmatch
        exact ⟨signed, Expr.operand_mem_rpn.mp (heq.1 ▸ heq.2 ▸ ht)⟩
  · intro h
    obtain ⟨signed, hmem⟩ := h
    exact ⟨_, Expr.operand_mem_rpn.mpr hmem, decide_eq_true ⟨rfl, rfl⟩⟩

theorem view_congr {vals' : String → String → Option SetVal}
    (h : ∀ st v signed, Operand.var st v signed ∈ e.leaves → vals st v = vals' st v) :
    view cleaned vals e.rpn = view cleaned vals' e.rpn := by
  refine congrArg ComputationSheet.mk (List.map_congr_left (fun t ht => ?_))
  cases t with
  | operator o => rfl
  | operand a =>
    cases a with
    | const n => rfl
    | var st v signed =>
      rw [RpnElement.view, RpnElement.view, h st v signed (Expr.operand_mem_rpn.mp ht)]

theorem setVal_view (hvar : e.leaves.any Operand.isVar = true) (stName varName : String)
    (val : SetVal) :
    ((view cleaned vals e.rpn).setVal stName varName val).2 = view cleaned
      (fun st v => if st = stName ∧ v = varName then some val else vals st v) e.rpn := by
  rw [setVal, isPureNumber_view, hvar, if_neg (by simp)]
  split_ifs with hc
  · refine congrArg ComputationSheet.mk (List.map_map.trans (List.map_congr_left (fun t _ => ?_)))
    cases t with
    | operator o => rfl
    | operand a =>
      cases a with
      | const n => rfl
      | var st v signed =>
        by_cases heq : st = stName ∧ v = varName
        · simp [RpnElement.view, heq]
        · simp [RpnElement.view, heq]
  · refine view_congr cleaned vals (fun st v signed hmem => (if_neg ?_).symm)
    intro heq
    exact hc ((containVar_view cleaned vals _ _).mpr ⟨signed, heq.1 ▸ heq.2 ▸ hmem⟩)

theorem cleanVal_view (hvar : e.leaves.any Operand.isVar = true) :
    (view cleaned vals e.rpn).cleanVal = view true (fun _ _ => none) e.rpn := by
  rw [cleanVal, isPureNumber_view, hvar, if_neg (by simp)]
  refine congrArg ComputationSheet.mk (List.map_map.trans (List.map_congr_left (fun t _ => ?_)))
  cases t with
  | operator o => rfl
  | operand a => cases a <;> rfl

end

theorem calls_append (c : ComputationSheet) (cs : List SheetCall) (x : SheetCall) :
    c.calls (cs ++ [x]) = (c.calls cs).call x := by
  rw [calls, List.foldl_append]
  rfl

/-- A list with variables remembers the values last set, and whether it was cleaned. -/
theorem calls_view {e : Expr Operand ArithOp} (hvar : e.leaves.any Operand.isVar = true)
    (cs : List SheetCall) : (view false (fun _ _ => none) e.rpn).calls cs =
      view (decide (SheetCall.cleanVal ∈ cs)) (lastSet cs) e.rpn := by
  induction cs using List.reverseRecOn with
  | nil => rfl
  | append_singleton cs x ih =>
    rw [calls_append, ih]
    cases x with
    | setValue st v val =>
      rw [call, setVal_view _ _ hvar, lastSet_append_setValue]
      simp only [List.mem_append, List.mem_singleton, reduceCtorEq, or_false]
    | cleanVal =>
      rw [call, cleanVal_view _ _ hvar, lastSet_append_cleanVal]
      simp only [List.mem_append, List.mem_singleton, or_true, decide_true]

/-- A number stays as it is. -/
theorem calls_of_isPureNumber {c : ComputationSheet} (h : c.isPureNumber = true)
    (cs : List SheetCall) : c.calls cs = c := by
  induction cs with
  | nil => rfl
  | cons x rest ih =>
    have hcall : c.call x = c := by
      cases x with
      | setValue st v val => rw [call, setVal, if_pos h]
      | cleanVal => rw [call, cleanVal, if_pos h]
    rw [calls, List.foldl_cons, hcall]
    exact ih

end ComputationSheet

/-! ## The answers of a sheet -/

/-- The variables of the list were set since the last clean. -/
def AllSet (e : Expr Operand ArithOp) (cs : List SheetCall) : Prop :=
  ∀ st v signed, Operand.var st v signed ∈ e.leaves → (lastSet cs st v).isSome

def Operand.value (vals : String → String → Option SetVal) : Operand → Int
  | .const n => n
  | .var st v signed => ((vals st v).map (SetVal.toInt signed)).getD 0

def Operand.const? : Operand → Option Int
  | .const n => some n
  | .var _ _ _ => none

/-- The value of the list under the values last set. -/
def rpnValue (e : Expr Operand ArithOp) (cs : List SheetCall) : Int :=
  e.eval (Operand.value (lastSet cs)) ArithOp.apply

namespace ComputationSheet

/-- What a sheet should answer that was made from the list of `e` and got the calls. -/
def Answers (c : ComputationSheet) (e : Expr Operand ArithOp) (cs : List SheetCall) : Prop :=
  (c.isFinalized = true ↔ AllSet e cs) ∧
    (AllSet e cs → c.evaluate = .ok (some (rpnValue e cs)))

section

variable {e : Expr Operand ArithOp} {cleaned : Bool} {vals : String → String → Option SetVal}

/-- The constants count as well, so a cleaned sheet that has one is never final again. -/
theorem isFinalized_view (hvar : e.leaves.any Operand.isVar = true) :
    (view cleaned vals e.rpn).isFinalized = true ↔
      (∀ n, Operand.const n ∈ e.leaves → cleaned = false) ∧
        ∀ st v signed, Operand.var st v signed ∈ e.leaves → (vals st v).isSome := by
  rw [isFinalized, isPureNumber_view, hvar, Bool.not_true, Bool.false_or, view, List.all_map,
    List.all_eq_true]
  constructor
  · intro h
    refine ⟨fun n hn => ?_, fun st v signed hmem => ?_⟩
    · have hsome := h _ (Expr.operand_mem_rpn.mpr hn)
      cases cleaned with
      | false => rfl
      | true => exact absurd hsome (by simp [RpnElement.view])
    · have hsome := h _ (Expr.operand_mem_rpn.mpr hmem)
      simpa [RpnElement.view] using hsome
  · intro h t ht
    cases t with
    | operator o => rfl
    | operand a =>
      have hmem := Expr.operand_mem_rpn.mp ht
      cases a with
      | const n => simp [RpnElement.view, h.1 n hmem]
      | var st v signed => simpa [RpnElement.view] using h.2 st v signed hmem

theorem applyOperator_char (o : ArithOp) (x y : Int) :
    applyOperator o.char (some x) (some y) = .ok (some (o.apply x y)) := by
  cases o with
  | add => rfl
  | sub => rfl
  | mul => rfl

/-- The list is evaluated by the stack machine that reads its elements. -/
theorem run_view (stack : List (Option Int)) (toks : List RpnToken) :
    run id applyOperator .indexError stack ((view cleaned vals toks).rpn.map RpnElement.token) =
      run (fun a => match a with
        | .const n => if cleaned then none else some n
        | .var st v signed => (vals st v).map (SetVal.toInt signed))
        (fun o => applyOperator (ArithOp.char o)) .indexError stack toks := by
  rw [view, List.map_map]
  induction toks generalizing stack with
  | nil => rfl
  | cons t rest ih =>
    simp only [run, List.map_cons, List.foldlM_cons] at ih ⊢
    have hstep : step id applyOperator .indexError stack
          ((RpnElement.token ∘ RpnElement.view cleaned vals) t) =
        step (fun a => match a with
          | .const n => if cleaned then none else some n
          | .var st v signed => (vals st v).map (SetVal.toInt signed))
          (fun o => applyOperator (ArithOp.char o)) EvalError.indexError stack t := by
      cases t with
      | operator o => rfl
      | operand a => cases a <;> rfl
    rw [hstep]
    exact bind_congr (fun s => ih s)

theorem evaluate_view (hvar : e.leaves.any Operand.isVar = true)
    (hconst : ∀ n, Operand.const n ∈ e.leaves → cleaned = false)
    (hset : ∀ st v signed, Operand.var st v signed ∈ e.leaves → (vals st v).isSome) :
    (view cleaned vals e.rpn).evaluate = .ok (some (e.eval (Operand.value vals) ArithOp.apply)) := by
  have hleaves : ∀ a ∈ e.leaves, (match a with
      | .const n => if cleaned then none else some n
      | .var st v signed => (vals st v).map (SetVal.toInt signed)) = some (a.value vals) := by
    intro a ha
    cases a with
    | const n => simp [hconst n ha, Operand.value]
    | var st v signed =>
      obtain ⟨val, hval⟩ := Option.isSome_iff_exists.mp (hset st v signed ha)
      simp [hval, Operand.value]
  rw [evaluate, isPureNumber_view, hvar, if_neg (by simp), run_view, run_rpn,
    Expr.evalM_eq_ok hleaves applyOperator_char]
  rfl

/-- Without variables the last leaf is the number that counts. -/
theorem pureNum_view (hpure : e.leaves.any Operand.isVar = false) :
    (view false vals e.rpn).pureNum = e.leaves.getLast?.bind Operand.const? := by
  have hfold : (view false vals e.rpn).rpn.filterMap (fun
      | .number value => some value
      | _ => none) = e.leaves.filterMap fun a =>
        match a with
        | .const n => some (some n)
        | .var _ _ _ => none := by
    rw [view, List.filterMap_map, ← Expr.filterMap_rpn]
    refine List.filterMap_congr (fun t _ => ?_)
    cases t with
    | operator o => rfl
    | operand a => cases a <;> rfl
  have hall : e.leaves.filterMap (fun a =>
      match a with
      | .const n => some (some n)
      | .var _ _ _ => none) = e.leaves.map Operand.const? := by
    rw [← List.filterMap_eq_map]
    refine List.filterMap_congr (fun a ha => ?_)
    cases a with
    | const n => rfl
    | var st v signed => exact absurd rfl (List.any_eq_false.mp hpure _ ha)
  rw [pureNum, ← List.getLast?_filterMap, hfold, hall, List.getLast?_map]
  cases e.leaves.getLast? with
  | none => rfl
  | some a => rfl

end

end ComputationSheet

/-! ## Sheets with all values set -/

/-- The computations that come from setting values have a value once all variables are set. -/
def Evaluable (tail : ComputationSheet) : Prop :=
  ∀ c : ComputationSheet, c.blank = tail → c.isFinalized = true →
    ∃ v, c.evaluate = .ok (some v)

/-- What `is_finalized` asks of an element. -/
def isSet : RpnElement → Bool
  | .operator _ => true
  | .number value => value.isSome
  | .var _ _ _ value => value.isSome

def blankElement : RpnElement → RpnElement
  | .var st v signed _ => .var st v signed none
  | a => a

theorem succeeds_token {a : RpnElement} {t : RpnToken} (hset : isSet a = true)
    (h : blankElement a = RpnElement.view false (fun _ _ => none) t) :
    Succeeds some id applyOperator a.token t := by
  cases t with
  | operator o =>
    cases a with
    | operator c =>
      obtain rfl : c = o.char := RpnElement.operator.inj h
      exact .operator fun x y => ⟨_, ComputationSheet.applyOperator_char o x y⟩
    | number value => cases h
    | var st v signed value => cases h
  | operand b =>
    cases a with
    | operator c =>
      cases b with
      | const n => cases h
      | var st v signed => cases h
    | number value =>
      obtain ⟨n, hn⟩ := Option.isSome_iff_exists.mp hset
      exact .operand n hn
    | var st v signed value =>
      obtain ⟨n, hn⟩ := Option.isSome_iff_exists.mp hset
      exact .operand n hn

/-- A sheet from a list in reverse Polish notation has a value once all its variables have. -/
theorem evaluable_of_spells {words : List RpnWord} {e : Expr Operand ArithOp}
    {tail : ComputationSheet} (h : List.Forall₂ Spells words e.rpn)
    (htail : ComputationSheet.new words = some tail) : Evaluable tail := by
  rw [ComputationSheet.new_of_spells e.rpn_ne_nil h, Option.some.injEq] at htail
  intro c hc hfin
  rw [← htail] at hc
  rw [ComputationSheet.evaluate]
  by_cases hpure : c.isPureNumber = true
  · -- a number is its own blank
    have hsame : c.blank = c := by
      refine (ComputationSheet.mapValues_congr (fun st v signed x hmem => ?_)).trans c.mapValues_self
      have hvar := List.all_eq_true.mp hpure _ hmem
      cases hvar
    have hc' : c = ComputationSheet.view false (fun _ _ => none) e.rpn := hsame.symm.trans hc
    rw [if_pos hpure, hc']
    rw [hc', ComputationSheet.isPureNumber_view, Bool.not_eq_true'] at hpure
    rw [ComputationSheet.pureNum_view hpure, List.getLast?_eq_getLast_of_ne_nil e.leaves_ne_nil]
    have hlast := List.any_eq_false.mp hpure _ (List.getLast_mem e.leaves_ne_nil)
    cases hl : e.leaves.getLast e.leaves_ne_nil with
    | const n => exact ⟨n, rfl⟩
    | var st v signed =>
      rw [hl] at hlast
      exact absurd rfl hlast
  · have hset : ∀ a ∈ c.rpn, isSet a = true := by
      rw [ComputationSheet.isFinalized, Bool.or_eq_true] at hfin
      exact List.all_eq_true.mp (hfin.resolve_left hpure)
    have hblank : c.rpn.map blankElement = e.rpn.map (RpnElement.view false fun _ _ => none) :=
      congrArg ComputationSheet.rpn hc
    rw [← List.forall₂_eq_eq_eq, List.forall₂_map_left_iff, List.forall₂_map_right_iff] at hblank
    have hrun : List.Forall₂ (Succeeds some id applyOperator)
        (c.rpn.map RpnElement.token) e.rpn := by
      rw [List.forall₂_map_left_iff]
      exact ((List.forall₂_and_left _ _).mpr ⟨hset, hblank⟩).imp fun a t hat =>
        succeeds_token hat.1 hat.2
    obtain ⟨v, hv⟩ := run_of_forall₂ EvalError.indexError e [] hrun
    rw [if_neg hpure, hv]
    exact ⟨v, rfl⟩

/-- The lists and calls for which a sheet answers as it should.  A number is only read where it
stands last; cleaning takes the constants away for good, which shows as soon as all variables
are set again. -/
def SheetAnswers (e : Expr Operand ArithOp) (cs : List SheetCall) : Prop :=
  if e.leaves.any Operand.isVar then
    ¬ (SheetCall.cleanVal ∈ cs ∧ (∃ n, Operand.const n ∈ e.leaves) ∧ AllSet e cs)
  else e.leaves.getLast? = some (.const (rpnValue e cs))

/-- Every list in reverse Polish notation over integers, variables and `+`, `-`, `*` makes a
sheet, and the answers of the sheet are right under exactly these circumstances. -/
theorem computationSheet_answers_iff {words : List RpnWord} {e : Expr Operand ArithOp}
    (h : List.Forall₂ Spells words e.rpn) (cs : List SheetCall) :
    ∃ c, ComputationSheet.new words = some c ∧ ((c.calls cs).Answers e cs ↔ SheetAnswers e cs) := by
  refine ⟨_, ComputationSheet.new_of_spells e.rpn_ne_nil h, ?_⟩
  rw [SheetAnswers]
  cases hvar : e.leaves.any Operand.isVar with
  | true =>
    rw [if_pos rfl, ComputationSheet.calls_view hvar, ComputationSheet.Answers,
      ComputationSheet.isFinalized_view hvar]
    constructor
    · intro hans hbad
      obtain ⟨hclean, hconst, hset⟩ := hbad
      obtain ⟨n, hn⟩ := hconst
      have hno := (hans.1.mpr hset).1 n hn
      rw [decide_eq_true hclean] at hno
      cases hno
    · intro hgood
      have hconst : AllSet e cs → ∀ n, Operand.const n ∈ e.leaves →
          decide (SheetCall.cleanVal ∈ cs) = false := by
        intro hset n hn
        exact decide_eq_false fun hclean => hgood ⟨hclean, ⟨n, hn⟩, hset⟩
      refine ⟨⟨fun hfin => hfin.2, fun hset => ⟨hconst hset, hset⟩⟩, fun hset => ?_⟩
      exact ComputationSheet.evaluate_view hvar (hconst hset) hset
  | false =>
    have hpure : (ComputationSheet.view false (fun _ _ => none) e.rpn).isPureNumber = true := by
      rw [ComputationSheet.isPureNumber_view, hvar]
      rfl
    have hset : AllSet e cs := by
      intro st v signed hmem
      exact absurd rfl (List.any_eq_false.mp hvar _ hmem)
    have hlast : e.leaves.getLast?.bind Operand.const? = some (rpnValue e cs) ↔
        e.leaves.getLast? = some (.const (rpnValue e cs)) := by
      cases e.leaves.getLast? with
      | none => simp
      | some a => cases a <;> simp [Operand.const?]
    rw [ComputationSheet.calls_of_isPureNumber hpure, if_neg (by simp), ComputationSheet.Answers,
      ComputationSheet.isFinalized, hpure, ComputationSheet.evaluate, if_pos hpure,
      ComputationSheet.pureNum_view hvar, Except.ok.injEq, hlast]
    simp [hset]

/-- NOVA's size of the logged data, from the type of the log entry. -/
def loggedSize : Expr Operand ArithOp :=
  .node .sub (.leaf (.const 232))
    (.node .mul (.leaf (.const 112)) (.leaf (.var "nova_lite_journal_entry" "type" false)))

theorem spells_loggedSize : List.Forall₂ Spells
    [.int 232, .int 112, .text "nova_lite_journal_entry.type.unsigned", .text "*", .text "-"]
    loggedSize.rpn :=
  .cons (.int 232) (.cons (.int 112) (.cons (.var false (by decide) (by decide) (by decide))
    (.cons (.operator .mul rfl) (.cons (.operator .sub rfl) .nil))))

/-- A log entry of type 1 logs 120 bytes. -/
theorem computationSheet_answers_loggedSize : ∃ c,
    ComputationSheet.new [.int 232, .int 112, .text "nova_lite_journal_entry.type.unsigned",
      .text "*", .text "-"] = some c ∧
    ((c.calls [.setValue "nova_lite_journal_entry" "type" (.bytes [1])]).Answers loggedSize
        [.setValue "nova_lite_journal_entry" "type" (.bytes [1])] ↔
      SheetAnswers loggedSize [.setValue "nova_lite_journal_entry" "type" (.bytes [1])]) :=
  computationSheet_answers_iff spells_loggedSize _

/-- Cleaned and set again, the size is not final, and `2 + 3` is 3. -/
theorem computationSheet_cleaned_or_pure :
    (∃ c, ComputationSheet.new [.int 232, .int 112,
        .text "nova_lite_journal_entry.type.unsigned", .text "*", .text "-"] = some c ∧
      ¬ (c.calls [.cleanVal, .setValue "nova_lite_journal_entry" "type" (.bytes [1])]).Answers
        loggedSize [.cleanVal, .setValue "nova_lite_journal_entry" "type" (.bytes [1])]) ∧
    ∃ c, ComputationSheet.new [.int 2, .int 3, .text "+"] = some c ∧
      ¬ (c.calls []).Answers (.node .add (.leaf (.const 2)) (.leaf (.const 3))) [] := by
  refine ⟨⟨_, ComputationSheet.new_of_spells loggedSize.rpn_ne_nil spells_loggedSize, ?_⟩,
    ⟨⟨[.number (some 2), .number (some 3), .operator '+']⟩, by decide, ?_⟩⟩
  · intro h
    have hset : AllSet loggedSize
        [.cleanVal, .setValue "nova_lite_journal_entry" "type" (.bytes [1])] := by
      intro st v signed hmem
      simp only [loggedSize, Expr.leaves, List.mem_append, List.mem_singleton, reduceCtorEq,
        Operand.var.injEq, false_or] at hmem
      rw [hmem.1, hmem.2.1]
      rfl
    exact absurd (h.1.mpr hset) (by decide)
  · intro h
    have hset : AllSet (.node .add (.leaf (.const 2)) (.leaf (.const 3))) [] := by
      intro st v signed hmem
      simp [Expr.leaves] at hmem
    exact absurd (h.2 hset) (by decide)

end CheatSheet
end Silhouette
