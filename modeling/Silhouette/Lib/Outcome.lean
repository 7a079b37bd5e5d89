/-
Fallible programs: what holds when they return and what holds when they fail.

`Ends x Q E` says both about a program `x`: a value it returns meets `Q`, and a failure it
ends in meets `E`.  The rules follow the program: a sequence by `Ends.bind`, a check by
`Ends.check`, a loop over a list by an invariant of the elements that are left.
-/
import Mathlib.Logic.Basic

namespace Lib

variable {ε α β : Type}

/-- What is returned meets `Q` and a failure meets `E`. -/
def Ends (x : Except ε α) (Q : α → Prop) (E : ε → Prop) : Prop :=
  match x with
  | .ok a => Q a
  | .error e => E e

/-- Stop with a failure unless a test succeeds. -/
def check (test : Bool) (e : ε) : Except ε Unit := if test then .ok () else .error e

namespace Ends

variable {x : Except ε α} {Q R : α → Prop} {E F : ε → Prop}

theorem ok {a : α} (h : Q a) : Ends (.ok a) Q E := h

theorem pure {a : α} (h : Q a) : Ends (Pure.pure a) Q E := h

theorem error {e : ε} (h : E e) : Ends (.error e : Except ε α) Q E := h

theorem mono (h : Ends x Q E) (hQ : ∀ a, Q a → R a) (hE : ∀ e, E e → F e) : Ends x R F := by
  cases x with
  | ok a => exact hQ a h
  | error e => exact hE e h

theorem imp (h : Ends x Q E) (hQ : ∀ a, Q a → R a) : Ends x R E := h.mono hQ fun _ he => he

theorem and (h : Ends x Q E) (h' : Ends x R F) :
    Ends x (fun a => Q a ∧ R a) (fun e => E e ∧ F e) := by
  cases x with
  | ok a => exact ⟨h, h'⟩
  | error e => exact ⟨h, h'⟩

theorem bind {S : β → Prop} {f : α → Except ε β} (h : Ends x Q E)
    (hf : ∀ a, Q a → Ends (f a) S E) : Ends (x >>= f) S E := by
  cases x with
  | ok a => exact hf a h
  | error e => exact h

theorem check {test : Bool} {e : ε} (h : test = false → E e) :
    Ends (Lib.check test e) (fun _ => test = true) E := by
  cases test with
  | true => exact rfl
  | false => exact h rfl

theorem ite {c : Prop} [Decidable c] {y : Except ε α} (hx : c → Ends x Q E)
    (hy : ¬ c → Ends y Q E) : Ends (if c then x else y) Q E := by
  by_cases h : c
  · rw [if_pos h]
    exact hx h
  · rw [if_neg h]
    exact hy h

/-- A loop over a list keeps an invariant that may speak of the elements left. -/
theorem foldlM {I : List β → α → Prop} {f : α → β → Except ε α}
    (h : ∀ b rest a, I (b :: rest) a → Ends (f a b) (I rest) E) {l : List β} {a : α}
    (h0 : I l a) : Ends (l.foldlM f a) (I []) E := by
  induction l generalizing a with
  | nil => exact h0
  | cons b rest ih =>
    rw [List.foldlM_cons]
    exact (h b rest a h0).bind fun a' ha' => ih ha'

theorem of_ok {a : α} (h : Ends x Q E) (hx : x = .ok a) : Q a := by
  subst hx
  exact h

theorem of_error {e : ε} (h : Ends x Q E) (hx : x = .error e) : E e := by
  subst hx
  exact h

/-- A program none of whose failures can happen returns. -/
theorem exists_ok (h : Ends x Q fun _ => False) : ∃ a, x = .ok a ∧ Q a := by
  cases x with
  | ok a => exact ⟨a, rfl, h⟩
  | error e => exact h.elim

end Ends
end Lib
