import Silhouette.Executor.ReportKeys
import Silhouette.Image.CrashImage
import Silhouette.Mech.InvariantCheck

/-!
# The content after recovery

`check_recovered_content` reads the device where the stores of a plan went.  A recovery to the
state before the operation should have left their old bytes there, one to the state behind it
their new bytes.

Both comparisons ask for `check_old_value`.  The call for new values compares nothing, and the call
for old values goes on to the new ones.
-/

namespace Silhouette
namespace Executor

open Lib Trace CrashPlan Mech Image

/-- `fd.read` at an offset of the device.  A negative size reads up to the end. -/
def readDev (dev : List UInt8) (offset size : Int) : Option (List UInt8) :=
  if offset < 0 then none
  else if size < 0 then some (dev.drop offset.toNat)
  else some ((dev.drop offset.toNat).take size.toNat)

/-- One of the two comparisons; the value is looked up only when it is asked for. -/
def valueDiffers (check : Bool) (value : Option (List UInt8)) (recData : List UInt8) :
    Option Bool :=
  if check then value.map fun data => data ≠ recData else some false

def contentKey (op : OpTraceEntry) (e : TraceEntry) : String :=
  op.opName ++ "." ++ toString e.instid

section

variable {ι κ : Type} (py : PyRuntime κ) (seed : ι → κ) (p : ι)

def foundKeyInsert (s : ReportState ι) (tp : ValidateRstType) (foundKey : String) : ReportState ι :=
  { s with
    hashKeys := s.hashKeys ++ [foundHashKey py (seed p) tp foundKey]
    inserted := s.inserted ++ [(tp, foundKey)] }

variable (info : RecordInfo) (strEntry : TraceEntry → String) (strPlan : CrashPlanEntry → String)
  (dev : List UInt8) (op : OpTraceEntry) (cp : CrashPlanEntry)

/-- The loop over the sequence numbers. -/
def checkSeqs (checkOldValue checkNewValue : Bool) (s : ReportState ι) :
    List Int → Option ((ValidateRstType × Option String) × ReportState ι)
  | [] => some ((.good, none), s)
  | seq :: rest => do
    let e ← recordAt op.pmSeqEntryMap seq
    let foundKey := contentKey op e
    let inOld := foundKeyExist py seed s p .mismatchOldValue foundKey
    let inNew := foundKeyExist py seed s p .mismatchNewValue foundKey
    if checkOldValue && checkNewValue && inOld && inNew then
      checkSeqs checkOldValue checkNewValue s rest
    else if checkOldValue && inOld then checkSeqs checkOldValue checkNewValue s rest
    else if checkNewValue && inNew then checkSeqs checkOldValue checkNewValue s rest
    else
      let recData ← readDev dev (e.addr - op.pmAddr) e.size
      if ← valueDiffers checkOldValue (info.ovEntry e) recData then
        some ((.mismatchOldValue,
          some ("match prev oracle but mismatch the old content: " ++ strEntry e ++ ", " ++
            strPlan cp)), foundKeyInsert py seed p s .mismatchOldValue foundKey)
      -- again the flag of the old value
      else if ← valueDiffers checkOldValue e.svEntry recData then
        some ((.mismatchNewValue,
          some ("match post oracle but mismatch the new content: " ++ strEntry e ++ ", " ++
            strPlan cp)), foundKeyInsert py seed p s .mismatchNewValue foundKey)
      else checkSeqs checkOldValue checkNewValue s rest

/-- `order` is the order in which Python goes through a set. -/
def checkRecoveredContent (order : Finset Int → List Int) (checkOldValue checkNewValue : Bool)
    (s : ReportState ι) : Option ((ValidateRstType × Option String) × ReportState ι) :=
  if cp.type.noContentToCheck || (!checkOldValue && !checkNewValue) || cp.expDataSeqs = ∅ then
    some ((.good, none), s)
  else
    checkSeqs py seed p info strEntry strPlan dev op cp checkOldValue checkNewValue s
      (order cp.expDataSeqs)

/-! ## What a call should return -/

/-- The store is not yet among the found ones and the device does not hold the value. -/
def differs (tp : ValidateRstType) (value : TraceEntry → Option (List UInt8)) (s : ReportState ι)
    (seq : Int) : Bool :=
  (recordAt op.pmSeqEntryMap seq).any fun e =>
    !foundKeyExist py seed s p tp (contentKey op e) &&
      (value e).any fun data => readDev dev (e.addr - op.pmAddr) e.size ≠ some data

def newDiffers : ReportState ι → Int → Bool :=
  differs py seed p dev op .mismatchNewValue TraceEntry.svEntry

def oldDiffers : ReportState ι → Int → Bool :=
  differs py seed p dev op .mismatchOldValue info.ovEntry

/-- The store is not among those found to have lost their old value, and the device does not hold
its new one. -/
def notOverwritten : ReportState ι → Int → Bool :=
  differs py seed p dev op .mismatchOldValue TraceEntry.svEntry

/-- The type of the result says whether there is a mismatch. -/
structure Tells (rst : Option ValidateRstType) (tp : ValidateRstType) (mismatch : Prop) : Prop where
  reported : mismatch → rst = some tp
  good : ¬ mismatch → rst = some .good

/-- A store on the device with its values. -/
def Readable (op : OpTraceEntry) (seq : Int) : Prop :=
  ∃ e, recordAt op.pmSeqEntryMap seq = some e ∧ e.svEntry.isSome = true ∧ op.pmAddr ≤ e.addr

/-- A plan for the operation.  What it wants to have looked at are stores of the operation; a plan
with no content to check names no record. -/
structure PlanFor (op : OpTraceEntry) (cp : CrashPlanEntry) : Prop where
  store : cp.type.noContentToCheck = false → ∀ seq ∈ cp.expDataSeqs, Readable op seq
  noRecord : cp.type.noContentToCheck = true → ∀ seq ∈ cp.expDataSeqs,
    recordAt op.pmSeqEntryMap seq = none

end

section

variable {ι κ : Type} {py : PyRuntime κ} {seed : ι → κ} {p : ι} {info : RecordInfo}
  {strEntry : TraceEntry → String} {strPlan : CrashPlanEntry → String} {dev : List UInt8}
  {op : OpTraceEntry} {cp : CrashPlanEntry} {s : ReportState ι} {l : List Int}

theorem exists_readDev (dev : List UInt8) {offset : Int} (h : 0 ≤ offset) (size : Int) :
    ∃ recData, readDev dev offset size = some recData := by
  unfold readDev
  rw [if_neg (by omega)]
  by_cases hsize : size < 0
  · exact ⟨_, if_pos hsize⟩
  · exact ⟨_, if_neg hsize⟩

/-- The call for new values goes past every store. -/
theorem checkSeqs_new (h : ∀ seq ∈ l, Readable op seq) :
    checkSeqs py seed p info strEntry strPlan dev op cp false true s l = some ((.good, none), s) := by
  induction l with
  | nil => rfl
  | cons seq rest ih =>
    have ih' := ih fun seq' h' => h seq' (List.mem_cons_of_mem _ h')
    obtain ⟨e, he, -, haddr⟩ := h seq List.mem_cons_self
    obtain ⟨recData, hrec⟩ := exists_readDev dev (show 0 ≤ e.addr - op.pmAddr by omega) e.size
    simp only [checkSeqs, he, hrec, ih', valueDiffers, Option.bind_eq_bind, Option.bind_some,
      Bool.false_and, Bool.true_and, Bool.false_eq_true, if_false, ite_self]

/-- What the call for old values makes of the first store that is not as it should be. -/
def oldVerdict (a b : Int → Bool) (l : List Int) : ValidateRstType :=
  match l.find? fun seq => a seq || b seq with
  | none => .good
  | some seq => if a seq then .mismatchOldValue else .mismatchNewValue

theorem oldVerdict_cons (a b : Int → Bool) (seq : Int) (l : List Int) :
    oldVerdict a b (seq :: l) =
      if a seq then .mismatchOldValue else if b seq then .mismatchNewValue else oldVerdict a b l := by
  unfold oldVerdict
  rw [List.find?_cons]
  cases ha : a seq with
  | true => simp [ha]
  | false =>
    cases b seq with
    | true => simp [ha]
    | false => rfl

theorem checkSeqs_old (h : ∀ seq ∈ l, Readable op seq) :
    (checkSeqs py seed p info strEntry strPlan dev op cp true false s l).map (fun r => r.1.1) =
      some (oldVerdict (oldDiffers py seed p info dev op s) (notOverwritten py seed p dev op s) l) := by
  induction l with
  | nil => rfl
  | cons seq rest ih =>
    have ih' := ih fun seq' h' => h seq' (List.mem_cons_of_mem _ h')
    obtain ⟨e, he, hsv, haddr⟩ := h seq List.mem_cons_self
    obtain ⟨recData, hrec⟩ := exists_readDev dev (show 0 ≤ e.addr - op.pmAddr by omega) e.size
    obtain ⟨new, hnew⟩ := Option.isSome_iff_exists.mp hsv
    obtain ⟨old, hold⟩ := Option.isSome_iff_exists.mp ((info.values e).trans hsv)
    have hodiff : oldDiffers py seed p info dev op s seq =
        (!foundKeyExist py seed s p .mismatchOldValue (contentKey op e) && decide (old ≠ recData)) := by
      simp [oldDiffers, differs, he, hold, hrec, eq_comm]
    have hndiff : notOverwritten py seed p dev op s seq =
        (!foundKeyExist py seed s p .mismatchOldValue (contentKey op e) && decide (new ≠ recData)) := by
      simp [notOverwritten, differs, he, hnew, hrec, eq_comm]
    rw [oldVerdict_cons, hodiff, hndiff]
    simp only [checkSeqs, he, hrec, hold, hnew, valueDiffers, Option.bind_eq_bind, Option.bind_some,
      Bool.false_and, Bool.true_and, Bool.and_false, Bool.false_eq_true, if_false, if_true,
      Option.map_some]
    cases foundKeyExist py seed s p .mismatchOldValue (contentKey op e) with
    | true => exact ih'
    | false =>
      by_cases ho : old = recData
      · by_cases hn : new = recData
        · simpa [ho, hn] using ih'
        · simp [ho, hn]
      · simp [ho]

theorem tells_oldVerdict (a b : Int → Bool) (l : List Int) :
    Tells (some (oldVerdict a b l)) .mismatchOldValue (∃ seq ∈ l, a seq = true) ↔
      ∀ seq, l.find? (fun seq => a seq || b seq) = some seq → a seq = true := by
  unfold oldVerdict
  cases hfind : l.find? fun seq => a seq || b seq with
  | none =>
    have hnone : ¬ ∃ seq ∈ l, a seq = true := by
      rintro ⟨seq, hseq, ha⟩
      have := List.find?_eq_none.mp hfind seq hseq
      rw [ha, Bool.true_or] at this
      exact this rfl
    exact ⟨fun _ seq hseq => (Option.some_ne_none _ hseq.symm).elim, fun _ =>
      ⟨fun h => absurd h hnone, fun _ => rfl⟩⟩
  | some seq =>
    have hmem := List.mem_of_find?_eq_some hfind
    cases ha : a seq with
    | true =>
      refine ⟨fun _ seq' h => Option.some.inj h ▸ ha, fun _ => ⟨fun _ => ?_, fun h => ?_⟩⟩
      · exact congrArg some (if_pos ha)
      · exact absurd ⟨seq, hmem, ha⟩ h
    | false =>
      constructor
      · intro ht
        -- the call says that a new value is missing, whether an old one is or not
        by_cases h : ∃ seq ∈ l, a seq = true
        · exact absurd (ht.reported h) (by simp [ha])
        · exact absurd (ht.good h) (by simp [ha])
      · intro h
        exact absurd (h seq rfl) (by rw [ha]; simp)

theorem PlanFor.differs_eq_false (h : PlanFor op cp) (hno : cp.type.noContentToCheck = true)
    (tp : ValidateRstType) (value : TraceEntry → Option (List UInt8)) {seq : Int}
    (hseq : seq ∈ cp.expDataSeqs) : differs py seed p dev op tp value s seq = false := by
  rw [differs, h.noRecord hno seq hseq]
  rfl

theorem checkRecoveredContent_new {order : Finset Int → List Int}
    (horder : ∀ set seq, seq ∈ order set ↔ seq ∈ set) (h : PlanFor op cp) :
    checkRecoveredContent py seed p info strEntry strPlan dev op cp order false true s =
      some ((.good, none), s) := by
  unfold checkRecoveredContent
  split_ifs with hskip
  · rfl
  · have hcontent : cp.type.noContentToCheck = false := by
      cases hno : cp.type.noContentToCheck with
      | false => rfl
      | true => exact absurd (by rw [hno]; rfl) hskip
    exact checkSeqs_new fun seq hseq => h.store hcontent seq ((horder _ _).mp hseq)

theorem checkRecoveredContent_old {order : Finset Int → List Int}
    (horder : ∀ set seq, seq ∈ order set ↔ seq ∈ set) (h : PlanFor op cp) :
    (checkRecoveredContent py seed p info strEntry strPlan dev op cp order true false s).map
        (fun r => r.1.1) =
      some (oldVerdict (oldDiffers py seed p info dev op s) (notOverwritten py seed p dev op s)
        (order cp.expDataSeqs)) := by
  unfold checkRecoveredContent
  cases hno : cp.type.noContentToCheck with
  | true =>
    have hfind : (order cp.expDataSeqs).find? (fun seq => oldDiffers py seed p info dev op s seq ||
        notOverwritten py seed p dev op s seq) = none := by
      refine List.find?_eq_none.mpr (fun seq hseq hdiff => ?_)
      have hmem := (horder _ _).mp hseq
      rw [oldDiffers, notOverwritten, h.differs_eq_false hno _ _ hmem,
        h.differs_eq_false hno _ _ hmem] at hdiff
      exact Bool.false_ne_true hdiff
    rw [oldVerdict, hfind]
    rfl
  | false =>
    have hall := fun seq hseq => h.store hno seq ((horder cp.expDataSeqs seq).mp hseq)
    by_cases hempty : cp.expDataSeqs = ∅
    · have hnil : order cp.expDataSeqs = [] := by
        refine List.eq_nil_iff_forall_not_mem.mpr (fun seq hseq => ?_)
        have := (horder _ _).mp hseq
        rw [hempty] at this
        exact absurd this (Finset.notMem_empty seq)
      rw [hnil, if_pos (by simp [hempty])]
      rfl
    · rw [if_neg (by simp [hempty])]
      exact checkSeqs_old hall

/-- The call for new values is right exactly when there is nothing to report.  The call for old
values is right exactly when the first store that the device has not both values of misses its old
one. -/
theorem content_check_iff {order : Finset Int → List Int}
    (horder : ∀ set seq, seq ∈ order set ↔ seq ∈ set) (h : PlanFor op cp) :
    (Tells ((checkRecoveredContent py seed p info strEntry strPlan dev op cp order false true s).map
          fun r => r.1.1) .mismatchNewValue
        (∃ seq ∈ cp.expDataSeqs, newDiffers py seed p dev op s seq = true) ↔
      ∀ seq ∈ cp.expDataSeqs, newDiffers py seed p dev op s seq = false) ∧
    (Tells ((checkRecoveredContent py seed p info strEntry strPlan dev op cp order true false s).map
          fun r => r.1.1) .mismatchOldValue
        (∃ seq ∈ cp.expDataSeqs, oldDiffers py seed p info dev op s seq = true) ↔
      ∀ seq, (order cp.expDataSeqs).find? (fun seq => oldDiffers py seed p info dev op s seq ||
          notOverwritten py seed p dev op s seq) = some seq →
        oldDiffers py seed p info dev op s seq = true) := by
  constructor
  · rw [checkRecoveredContent_new horder h]
    constructor
    · intro ht seq hseq
      by_contra hdiff
      exact absurd (ht.reported ⟨seq, hseq, Bool.eq_true_of_not_eq_false hdiff⟩) (by simp)
    · intro hall
      refine ⟨?_, fun _ => rfl⟩
      rintro ⟨seq, hseq, hdiff⟩
      rw [hall seq hseq] at hdiff
      exact absurd hdiff Bool.false_ne_true
  · rw [checkRecoveredContent_old horder h, ← tells_oldVerdict]
    simp only [horder]

end

/-! One store of eight bytes over zeros. -/

def zeroesInfo : RecordInfo where
  ovEntry e := e.svEntry.map fun data => data.map fun _ => 0
  structAddr _ := none
  values _ := Option.isSome_map

def oneStoreOp : OpTraceEntry :=
  { OpTraceEntry.new (.plain .startFn 2 0 0) "write" 0 64 0 with
    pmSeqEntryMap := Dict.empty.set 3 [.plain .store 3 0 8] }

def oneStorePlan : CrashPlanEntry where
  type := .unprotectedPersistSelf
  instructionId := 0
  startSeq := 3
  persistSeqs := {3}
  expDataSeqs := {3}
  info := ""

def sortedSet (set : Finset Int) : List Int := set.sort (· ≤ ·)

def constHash : PyRuntime Unit := ⟨fun _ _ => 0, fun _ _ => ""⟩

/-- Nothing is known to memcached yet. -/
def noKeys : ReportState Unit := ⟨[], fun _ => 0, [], fun _ => .idle, [], [], []⟩

/-- The call for the store, on a device that is the same byte everywhere. -/
def checkOneStore (byte : UInt8) (checkOldValue checkNewValue : Bool) : Option ValidateRstType :=
  (checkRecoveredContent constHash id () zeroesInfo TraceEntry.toResultStr CrashPlanEntry.info
    (List.replicate 64 byte) oneStoreOp oneStorePlan sortedSet checkOldValue checkNewValue
    noKeys).map fun r => r.1.1

theorem planFor_oneStore : PlanFor oneStoreOp oneStorePlan where
  store _ seq hseq := by
    rw [show seq = 3 from Finset.mem_singleton.mp hseq]
    exact ⟨.plain .store 3 0 8, by decide +kernel⟩
  noRecord h := absurd h (by decide)

/-- On a device with neither value the call for old values is right. -/
theorem content_check_iff_lost :
    Tells (checkOneStore 2 true false) .mismatchOldValue
      (∃ seq ∈ oneStorePlan.expDataSeqs, oldDiffers constHash id () zeroesInfo
        (List.replicate 64 2) oneStoreOp noKeys seq = true) := by
  refine (content_check_iff (fun set seq => Finset.mem_sort _) planFor_oneStore).2.mpr ?_
  intro seq hseq
  have hmem := (Finset.mem_sort _).mp (List.mem_of_find?_eq_some hseq)
  rw [show seq = 3 from Finset.mem_singleton.mp hmem]
  decide +kernel

/-- On a device with the old value neither call is: the one for new values finds nothing to report
and the one for old values reports the new value. -/
theorem content_check_swaps_values :
    PlanFor oneStoreOp oneStorePlan ∧
      (checkOneStore 0 false true = some .good ∧
        ¬ Tells (checkOneStore 0 false true) .mismatchNewValue
          (∃ seq ∈ oneStorePlan.expDataSeqs, newDiffers constHash id ()
            (List.replicate 64 0) oneStoreOp noKeys seq = true)) ∧
      checkOneStore 0 true false = some .mismatchNewValue ∧
        ¬ Tells (checkOneStore 0 true false) .mismatchOldValue
          (∃ seq ∈ oneStorePlan.expDataSeqs, oldDiffers constHash id () zeroesInfo
            (List.replicate 64 0) oneStoreOp noKeys seq = true) := by
  have hsorted : sortedSet oneStorePlan.expDataSeqs = [3] := Finset.sort_singleton _ _
  have hnew : checkOneStore 0 false true = some .good := by
    unfold checkOneStore checkRecoveredContent
    rw [hsorted]
    decide +kernel
  have hold : checkOneStore 0 true false = some .mismatchNewValue := by
    unfold checkOneStore checkRecoveredContent
    rw [hsorted]
    decide +kernel
  refine ⟨planFor_oneStore, ⟨hnew, fun ht => ?_⟩, hold, fun ht => ?_⟩
  · have := ht.reported ⟨3, Finset.mem_singleton_self 3, by decide +kernel⟩
    exact absurd (hnew.symm.trans this) (by decide)
  · refine absurd (hold.symm.trans (ht.good ?_)) (by decide)
    rintro ⟨seq, hseq, hdiff⟩
    rw [show seq = 3 from Finset.mem_singleton.mp hseq] at hdiff
    exact absurd hdiff (by decide +kernel)

end Executor
end Silhouette
