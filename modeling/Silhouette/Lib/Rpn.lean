/-
Reverse Polish notation.

An expression over binary operators is written with its operators behind their operands, and a
stack machine reads that list from the left: it pushes operands and applies an operator to the two
topmost values.  Application may fail, and so may the machine when the stack is too short.  Running
the list of an expression does what evaluating the expression does (`run_rpn`), whatever is on the
stack already.
-/
import Mathlib.Data.List.Forall2

namespace Lib
namespace Rpn

variable {α β γ ε : Type}

inductive Token (α β : Type) where
  | operand (a : α)
  | operator (o : β)
  deriving DecidableEq, Repr

inductive Expr (α β : Type) where
  | leaf (a : α)
  | node (o : β) (left right : Expr α β)
  deriving DecidableEq, Repr

namespace Expr

/-- The expression in reverse Polish notation. -/
def rpn : Expr α β → List (Token α β)
  | leaf a => [.operand a]
  | node o left right => left.rpn ++ right.rpn ++ [.operator o]

def leaves : Expr α β → List α
  | leaf a => [a]
  | node _ left right => left.leaves ++ right.leaves

/-- The value, left operands first. -/
def evalM (val : α → γ) (ap : β → γ → γ → Except ε γ) : Expr α β → Except ε γ
  | leaf a => .ok (val a)
  | node o left right => do
    let x ← left.evalM val ap
    let y ← right.evalM val ap
    ap o x y

def eval (val : α → γ) (ap : β → γ → γ → γ) : Expr α β → γ
  | leaf a => val a
  | node o left right => ap o (left.eval val ap) (right.eval val ap)

theorem rpn_ne_nil (e : Expr α β) : e.rpn ≠ [] := by
  cases e with
  | leaf a => exact List.cons_ne_nil _ _
  | node o left right => exact List.append_ne_nil_of_right_ne_nil _ (List.cons_ne_nil _ _)

theorem leaves_ne_nil (e : Expr α β) : e.leaves ≠ [] := by
  induction e with
  | leaf a => exact List.cons_ne_nil _ _
  | node o left right ihl ihr => exact List.append_ne_nil_of_right_ne_nil _ ihr

/-- The operands of the list are the leaves. -/
theorem operand_mem_rpn {e : Expr α β} {a : α} : .operand a ∈ e.rpn ↔ a ∈ e.leaves := by
  induction e with
  | leaf b => simp [rpn, leaves]
  | node o left right ihl ihr => simp [rpn, leaves, ihl, ihr]

/-- Whatever is taken from the operands of the list comes in the order of the leaves. -/
theorem filterMap_rpn (f : α → Option γ) (e : Expr α β) :
    e.rpn.filterMap (fun
      | .operand a => f a
      | .operator _ => none) = e.leaves.filterMap f := by
  induction e with
  | leaf a => rfl
  | node o left right ihl ihr =>
    rw [rpn, List.filterMap_append, List.filterMap_append, ihl, ihr, leaves, List.filterMap_append]
    exact List.append_nil _

/-- Where no operator fails on the values of the leaves, nothing does. -/
theorem evalM_eq_ok {e : Expr α β} {δ : Type} {emb : δ → γ} {val : α → γ} {val' : α → δ}
    {ap : β → γ → γ → Except ε γ} {ap' : β → δ → δ → δ} (hval : ∀ a ∈ e.leaves, val a = emb (val' a))
    (hap : ∀ o x y, ap o (emb x) (emb y) = .ok (emb (ap' o x y))) :
    e.evalM val ap = .ok (emb (e.eval val' ap')) := by
  induction e with
  | leaf a => exact congrArg Except.ok (hval a (List.mem_singleton_self a))
  | node o left right ihl ihr =>
    have hl := ihl fun a ha => hval a (List.mem_append_left _ ha)
    have hr := ihr fun a ha => hval a (List.mem_append_right _ ha)
    rw [evalM, hl, hr]
    exact hap o _ _

end Expr

/-- One token on a stack with the topmost value in front. -/
def step (val : α → γ) (ap : β → γ → γ → Except ε γ) (underflow : ε) (stack : List γ) :
    Token α β → Except ε (List γ)
  | .operand a => .ok (val a :: stack)
  | .operator o =>
    match stack with
    | operand1 :: operand2 :: rest => (ap o operand2 operand1).map (· :: rest)
    | _ => .error underflow

def run (val : α → γ) (ap : β → γ → γ → Except ε γ) (underflow : ε) (stack : List γ)
    (tokens : List (Token α β)) : Except ε (List γ) :=
  tokens.foldlM (step val ap underflow) stack

section

variable (val : α → γ) (ap : β → γ → γ → Except ε γ) (underflow : ε)

theorem run_append (stack : List γ) (l m : List (Token α β)) :
    run val ap underflow stack (l ++ m) =
      (run val ap underflow stack l).bind fun s => run val ap underflow s m :=
  List.foldlM_append

/-- The list of an expression leaves the value of the expression on the stack. -/
theorem run_rpn (e : Expr α β) (stack : List γ) :
    run val ap underflow stack e.rpn = (e.evalM val ap).map (· :: stack) := by
  induction e generalizing stack with
  | leaf a => rfl
  | node o left right ihl ihr =>
    rw [Expr.rpn, run_append, run_append, ihl, Expr.evalM]
    cases left.evalM val ap with
    | error err => rfl
    | ok x =>
      show ((run val ap underflow (x :: stack) right.rpn).bind _) = _
      rw [ihr]
      cases right.evalM val ap with
      | error err => rfl
      | ok y =>
        show run val ap underflow (y :: x :: stack) [.operator o] = (ap o x y).map (· :: stack)
        rw [run, List.foldlM_cons, step]
        cases ap o x y with
        | error err => rfl
        | ok z => rfl

end

/-! Lists of the same shape. -/

/-- The token is of the kind of the other one, and no failure comes from it among values of `emb`. -/
inductive Succeeds {α' β' δ : Type} (emb : δ → γ) (val : α' → γ) (ap : β' → γ → γ → Except ε γ) :
    Token α' β' → Token α β → Prop
  | operand {a : α'} {b : α} (v : δ) (h : val a = emb v) : Succeeds emb val ap (.operand a) (.operand b)
  | operator {o : β'} {p : β} (h : ∀ x y, ∃ z, ap o (emb x) (emb y) = .ok (emb z)) :
    Succeeds emb val ap (.operator o) (.operator p)

section

variable {α' β' δ : Type} {emb : δ → γ} {val : α' → γ} {ap : β' → γ → γ → Except ε γ}

/-- What has the shape of a list that is an expression and a rest leaves one value and a rest. -/
theorem run_of_forall₂_append (underflow : ε) (e : Expr α β) {rest : List (Token α β)}
    {tokens : List (Token α' β')} (stack : List γ)
    (h : List.Forall₂ (Succeeds emb val ap) tokens (e.rpn ++ rest)) :
    ∃ v tokens', List.Forall₂ (Succeeds emb val ap) tokens' rest ∧
      run val ap underflow stack tokens = run val ap underflow (emb v :: stack) tokens' := by
  induction e generalizing rest tokens stack with
  | leaf b =>
    obtain ⟨t, tokens', ht, hrest, heq⟩ := List.forall₂_cons_right_iff.mp h
    cases ht with
    | @operand a _ v hv =>
      refine ⟨v, tokens', hrest, ?_⟩
      rw [heq, run, List.foldlM_cons, step, hv]
      rfl
  | node p left right ihl ihr =>
    rw [Expr.rpn, List.append_assoc, List.append_assoc] at h
    obtain ⟨x, lefts, hlefts, hl⟩ := ihl stack h
    obtain ⟨y, rights, hrights, hr⟩ := ihr (emb x :: stack) hlefts
    obtain ⟨t, tokens', ht, hrest, heq⟩ := List.forall₂_cons_right_iff.mp hrights
    cases ht with
    | @operator o _ ho =>
      obtain ⟨z, hz⟩ := ho x y
      refine ⟨z, tokens', hrest, ?_⟩
      rw [hl, hr, heq, run, List.foldlM_cons, step, hz]
      rfl

theorem run_of_forall₂ (underflow : ε) (e : Expr α β) {tokens : List (Token α' β')} (stack : List γ)
    (h : List.Forall₂ (Succeeds emb val ap) tokens e.rpn) :
    ∃ v, run val ap underflow stack tokens = .ok (emb v :: stack) := by
  rw [← List.append_nil e.rpn] at h
  obtain ⟨v, tokens', hrest, hrun⟩ := run_of_forall₂_append underflow e stack h
  rw [hrun, List.forall₂_nil_right_iff.mp hrest]
  exact ⟨v, rfl⟩

end

end Rpn
end Lib
