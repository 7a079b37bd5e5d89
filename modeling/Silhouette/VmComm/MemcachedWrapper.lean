import Mathlib.Logic.Function.Basic

/-!
# Requests to memcached

A wrapper sends its request up to `MC_CMD_RETRY_TIMES` times.  An attempt that raises is
repeated, and an attempt can raise although the server has carried out the request: the
reply was lost.
-/

namespace Silhouette
namespace VmComm

/-- `MC_CMD_RETRY_TIMES` -/
def mcCmdRetryTimes : Nat := 5

/-- What becomes of one attempt. -/
inductive Attempt
  | replied
  | replyLost
  | requestLost
  deriving DecidableEq, Repr

/-- The server carries out the request. -/
def Attempt.served : Attempt → Bool
  | .replied => true
  | .replyLost => true
  | .requestLost => false

/-- The client gets the reply. -/
def Attempt.answered : Attempt → Bool
  | .replied => true
  | .replyLost => false
  | .requestLost => false

theorem Attempt.served_of_answered {a : Attempt} (h : a.answered = true) : a.served = true := by
  cases a <;> revert h <;> decide

/-- How a wrapper goes on after an exception: with the next attempt, or by raising
`MemcachedOPFailed` when none is left. -/
def nextTry {β : Type} (left : Nat) (again : Nat → β) (opFailed : β) : β :=
  if left ≤ 1 then opFailed else again (left - 1)

theorem nextTry_cases {β : Type} (left : Nat) (again : Nat → β) (opFailed : β) :
    nextTry left again opFailed = opFailed ∨
      ∃ n, nextTry left again opFailed = again n := by
  rw [nextTry]
  by_cases h : left ≤ 1
  · exact Or.inl (if_pos h)
  · exact Or.inr ⟨left - 1, if_neg h⟩

end VmComm
end Silhouette
