import Mathlib.Data.Finset.Insert
import Mathlib.Data.Int.Order.Basic

/-!
# Crash plans

`CrashPlanType`, `CrashPlanSamplingType` and `CrashPlanEntry`.
-/

namespace Silhouette
namespace CrashPlan

inductive CrashPlanType where
  | prevOpOracle
  | postOpOracle
  | unprotectedPersistSelf
  | unprotectedPersistOther
  | mechPersistSelf
  | mechPersistOther
  | undojnlChkRecv
  | undojnlUnsafe
  | repChkRecv
  | repUnsafe
  | lswChkRecv
  | lswUnsafe
  | combPersist
  | combPersistSelf
  | combPersistOther
  | dummy
  | unknown
  deriving DecidableEq, Repr

/-- A plan of this type has no bytes to look at after recovery. -/
def CrashPlanType.noContentToCheck (t : CrashPlanType) : Bool :=
  t ∈ [combPersist, combPersistSelf, combPersistOther, dummy]

inductive CrashPlanSamplingType where
  | samplingNone
  | samplingAtomic
  deriving DecidableEq, Repr

/-- A crash plan and how to construct its crash image: operations before `startSeq`
are all persisted, and those in `persistSeqs` too. -/
structure CrashPlanEntry where
  type : CrashPlanType
  instructionId : Int
  startSeq : Int
  persistSeqs : Finset Int
  expDataSeqs : Finset Int
  info : String
  samplingType : CrashPlanSamplingType := .samplingNone
  samplingSeq : Option Int := none
  samplingAddr : Option Int := none
  numCpEntries : Nat := 1
  deriving DecidableEq

end CrashPlan
end Silhouette
