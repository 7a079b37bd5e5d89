import Mathlib
import Silhouette.Lib.Machine
import Silhouette.Lib.SipHash

/-!
# The keys of failure reports

A guest that finds a failure adds a key made from it to memcached and reports the failure
when the key is new.  The key is `str(hash(text))`, and both the hash of a string and the
order in which a set is printed belong to the Python process.

`reports_once_iff` compares the processes of all guests: they agree on the keys, and so
report every failure once, exactly when they hash the texts alike.
-/

namespace Silhouette
namespace Executor

open Lib

/-- The types of validation result. -/
inductive ValidateRstType
  | good
  | remountFailed
  | umountFailed
  | getFsStateFailed
  | syslogError
  | readSyslogFailed
  | cannotRead
  | cannotWrite
  | cannotRemove
  | getPrevOracleRemountFailed
  | getPrevOracleGetFsStatFailed
  | getPrevOracleUmountFailed
  | getPostOracleGetFsStatFailed
  | getPostOracleRemountFailed
  | getPostOracleUmountFailed
  | matchPrevOracle
  | matchPostOracle
  | mismatchBothOracle
  | mismatchOldValue
  | mismatchNewValue
  | semanticBugDiffDinoStino
  | semanticBugDuplicateIno
  | semanticBugDiffDotIno
  | semanticBugDiffDotdotIno
  | semanticBugFileSizeAfterAppend
  | semanticBugFileSizeAfterWrite
  | semanticBugDiffStateBeforeAndAfterUmount
  | unknown
  deriving DecidableEq, Repr

namespace ValidateRstType

def value : ValidateRstType → String
  | good => "good"
  | remountFailed => "remount_failed"
  | umountFailed => "umount_failed"
  | getFsStateFailed => "get_fs_state_failed"
  | syslogError => "syslog_error"
  | readSyslogFailed => "read_syslog_failed"
  | cannotRead => "cannot_read"
  | cannotWrite => "cannot_write"
  | cannotRemove => "cannot_remove"
  | getPrevOracleRemountFailed => "get_prev_oracle_remount_failed"
  | getPrevOracleGetFsStatFailed => "get_prev_oracle_get_fs_stat_failed"
  | getPrevOracleUmountFailed => "get_prev_oracle_umount_failed"
  | getPostOracleGetFsStatFailed => "get_post_oracle_get_fs_stat_failed"
  | getPostOracleRemountFailed => "get_post_oracle_remount_failed"
  | getPostOracleUmountFailed => "get_post_oracle_umount_failed"
  | matchPrevOracle => "match_prev_oracle"
  | matchPostOracle => "match_post_oracle"
  | mismatchBothOracle => "mismatch_both_oracle"
  | mismatchOldValue => "mismatch_old_value"
  | mismatchNewValue => "mismatch_new_value"
  | semanticBugDiffDinoStino => "semantic_bug_diff_dino_stino"
  | semanticBugDuplicateIno => "semantic_bug_duplicate_ino"
  | semanticBugDiffDotIno => "semantic_bug_diff_dot_ino"
  | semanticBugDiffDotdotIno => "semantic_bug_diff_dotdot_ino"
  | semanticBugFileSizeAfterAppend => "semantic_bug_file_size_after_append"
  | semanticBugFileSizeAfterWrite => "semantic_bug_file_size_after_write"
  | semanticBugDiffStateBeforeAndAfterUmount =>
    "semantic_bug_diff_state_before_and_after_umount"
  | unknown => "unknown"

def cannotContinueCheck : ValidateRstType → Bool
  | remountFailed | umountFailed | getFsStateFailed | syslogError | readSyslogFailed => true
  | cannotRead | cannotWrite | cannotRemove => true
  | getPrevOracleRemountFailed | getPrevOracleGetFsStatFailed => true
  | getPrevOracleUmountFailed | getPostOracleGetFsStatFailed => true
  | getPostOracleRemountFailed | getPostOracleUmountFailed => true
  | _ => false

end ValidateRstType

inductive InvariantCheckErrorTypes
  | good
  | undoJnlError
  | replicationError
  | lswError
  deriving DecidableEq, Repr

def InvariantCheckErrorTypes.value : InvariantCheckErrorTypes → String
  | good => "good"
  | undoJnlError => "undo_jnl_error"
  | replicationError => "replication_error"
  | lswError => "lsw_error"

/-- What a process with hash seed `k` makes of a string under `hash`, and of a list of
errors, given by their representations, under `str(set(...))`. -/
structure PyRuntime (κ : Type) where
  hash : κ → String → Int
  strSet : κ → List String → String

/-- A validation result of an operation, with the message it is told apart by if there is
one, or the errors of an invariant check. -/
inductive Failure
  | validation (tp : ValidateRstType) (opName : String) (existkeyMsg : Option String)
  | invariant (tp : InvariantCheckErrorTypes) (opName : String) (errList : List String)
  deriving DecidableEq, Repr

section

variable {κ : Type} (py : PyRuntime κ)

/-- The text that `proc_validate_result` and `proc_invariant_check_rst` hash. -/
def Failure.text (k : κ) : Failure → Option String
  | .validation tp opName msg =>
    msg.map fun m => "ValidateRstType." ++ tp.value ++ "." ++ opName ++ "." ++ m
  | .invariant tp opName errs =>
    some ("InvariantCheckErrorTypes." ++ tp.value ++ "." ++ opName ++ "." ++ py.strSet k errs)

def foundText (tp : ValidateRstType) (foundKey : String) : String :=
  "foundkey:ValidateRstType." ++ tp.value ++ "-" ++ foundKey

/-- `str(hash(text))` -/
def strHash (k : κ) (text : String) : String := (py.hash k text).repr

def Failure.existingKey (k : κ) (f : Failure) : Option String :=
  (f.text py k).map (strHash py k)

def foundHashKey (k : κ) (tp : ValidateRstType) (foundKey : String) : String :=
  strHash py k (foundText tp foundKey)

/-- The key of the counter, and of the numbered records. -/
def Failure.kindKey : Failure → String
  | .validation tp _ _ => "ValidateRstType." ++ tp.value
  | .invariant tp _ _ => "InvariantCheckErrorTypes." ++ tp.value

/-- The guest cannot go on after the failure. -/
def Failure.stops : Failure → Bool
  | .validation tp _ _ => tp.cannotContinueCheck
  | .invariant _ _ _ => false

end

/-! ## The guests -/

inductive ReportPhase
  | idle
  | counting (f : Failure)
  | storing (f : Failure) (num : Nat)
  | raised
  deriving DecidableEq, Repr

/-- The hashed keys, counters and records in memcached, and where each guest is.  The
last three lists are the history: the failures that were found, those whose key was new,
and the found keys that were entered. -/
structure ReportState (ι : Type) where
  hashKeys : List String
  counts : String → Nat
  records : List (String × Failure)
  phase : ι → ReportPhase
  handled : List (ι × Failure)
  reported : List (ι × Failure)
  inserted : List (ValidateRstType × String)

/-- A guest finds a failure, goes on with its report, or enters a found key. -/
inductive ReportAction (ι : Type)
  | handle (p : ι) (f : Failure)
  | goOn (p : ι)
  | insertFound (p : ι) (tp : ValidateRstType) (foundKey : String)

section

variable {ι κ : Type} [DecidableEq ι] (py : PyRuntime κ) (seed : ι → κ)

/-- Where the guest is when it is done with a failure. -/
def Failure.done (f : Failure) : ReportPhase := if f.stops then .raised else .idle

/-- The `mc_add_wrapper` of a failure; without a key there is nothing to add. -/
def handleStep (s : ReportState ι) (p : ι) (f : Failure) : ReportState ι :=
  match f.existingKey py (seed p) with
  | none =>
    { s with
      phase := Function.update s.phase p (.counting f)
      handled := s.handled ++ [(p, f)]
      reported := s.reported ++ [(p, f)] }
  | some key =>
    if key ∈ s.hashKeys then
      { s with
        phase := Function.update s.phase p f.done
        handled := s.handled ++ [(p, f)] }
    else
      { s with
        hashKeys := s.hashKeys ++ [key]
        phase := Function.update s.phase p (.counting f)
        handled := s.handled ++ [(p, f)]
        reported := s.reported ++ [(p, f)] }

def reportStep (s : ReportState ι) : ReportAction ι → Option (ReportState ι)
  | .handle p f =>
    match s.phase p with
    | .idle => some (handleStep py seed s p f)
    | _ => none
  | .goOn p =>
    match s.phase p with
    | .counting f =>
      let num := s.counts f.kindKey + 1
      some { s with
        counts := Function.update s.counts f.kindKey num
        phase := Function.update s.phase p (.storing f num) }
    | .storing f num =>
      some { s with
        records := s.records ++ [(f.kindKey ++ "." ++ num.repr, f)]
        phase := Function.update s.phase p f.done }
    | _ => none
  | .insertFound p tp foundKey =>
    match s.phase p with
    | .idle =>
      some { s with
        hashKeys := s.hashKeys ++ [foundHashKey py (seed p) tp foundKey]
        inserted := s.inserted ++ [(tp, foundKey)] }
    | _ => none

def reportMachine : Machine (ReportState ι) (ReportAction ι) where
  init := ⟨[], fun _ => 0, [], fun _ => .idle, [], [], []⟩
  step := reportStep py seed

/-- `found_key_exist` in a guest. -/
def foundKeyExist (s : ReportState ι) (p : ι) (tp : ValidateRstType) (foundKey : String) : Bool :=
  decide (foundHashKey py (seed p) tp foundKey ∈ s.hashKeys)

end

/-! ## Agreement -/

/-- Two findings of one failure: the same message, or the same set of errors. -/
def Failure.Same : Failure → Failure → Prop
  | .validation tp opName (some m), .validation tp' opName' (some m') =>
    tp = tp' ∧ opName = opName' ∧ m = m'
  | .invariant tp opName errs, .invariant tp' opName' errs' =>
    tp = tp' ∧ opName = opName' ∧ ∀ e, e ∈ errs ↔ e ∈ errs'
  | _, _ => False

section

variable {ι κ : Type} [DecidableEq ι] (py : PyRuntime κ)

/-- Two processes compute the same keys. -/
def SameKeys (a b : κ) : Prop :=
  (∀ f g : Failure, f.Same g → f.existingKey py a = g.existingKey py b) ∧
    ∀ tp foundKey, foundHashKey py a tp foundKey = foundHashKey py b tp foundKey

/-- Two processes hash the texts of the keys alike. -/
def HashAlike (a b : κ) : Prop :=
  (∀ f g : Failure, f.Same g → (f.text py a).map (py.hash a) = (g.text py b).map (py.hash b)) ∧
    ∀ tp foundKey, py.hash a (foundText tp foundKey) = py.hash b (foundText tp foundKey)

/-- No failure is reported twice; one that was found is reported, or its key was taken by
another text with the same hash; found keys are seen by every guest. -/
structure ReportedOnce (seed : ι → κ) (s : ReportState ι) : Prop where
  once : s.reported.Pairwise fun x y => ¬ x.2.Same y.2
  reported : ∀ x ∈ s.handled, x ∈ s.reported ∨
    (∃ y ∈ s.reported, x.2.existingKey py (seed x.1) = y.2.existingKey py (seed y.1)) ∨
    ∃ q, ∃ z ∈ s.inserted, x.2.existingKey py (seed x.1) = some (foundHashKey py (seed q) z.1 z.2)
  seen : ∀ z ∈ s.inserted, ∀ p, foundKeyExist py seed s p z.1 z.2 = true

/-- The processes agree on the keys, and in every run each failure is reported once. -/
def ReportsUnique (seed : ι → κ) : Prop :=
  (∀ p q, SameKeys py (seed p) (seed q)) ∧
    ∀ s, (reportMachine py seed).Reachable (fun _ _ => True) s → ReportedOnce py seed s

theorem sameKeys_iff {a b : κ} : SameKeys py a b ↔ HashAlike py a b := by
  have hmap : ∀ (x y : Option String), (x.map (strHash py a) = y.map (strHash py b)) ↔
      x.map (py.hash a) = y.map (py.hash b) := by
    intro x y
    cases x with
    | none => cases y <;> simp
    | some x =>
      cases y with
      | none => simp
      | some y =>
        simp only [Option.map_some, Option.some.injEq, strHash]
        exact Int.repr_inj
  have hfound : ∀ x y, strHash py a x = strHash py b y ↔ py.hash a x = py.hash b y :=
    fun _ _ => Int.repr_inj
  simp only [SameKeys, HashAlike, Failure.existingKey, foundHashKey, hmap, hfound]

/-! ## Runs -/

variable {py} {seed : ι → κ} {s : ReportState ι}

/-- What the keys in memcached say about the history. -/
structure ReportInv (py : PyRuntime κ) (seed : ι → κ) (s : ReportState ι) : Prop where
  reportedKey : ∀ x ∈ s.reported, ∀ key, x.2.existingKey py (seed x.1) = some key →
    key ∈ s.hashKeys
  insertedKey : ∀ z ∈ s.inserted, ∃ q, foundHashKey py (seed q) z.1 z.2 ∈ s.hashKeys
  keyOf : ∀ key ∈ s.hashKeys,
    (∃ y ∈ s.reported, y.2.existingKey py (seed y.1) = some key) ∨
    ∃ q, ∃ z ∈ s.inserted, foundHashKey py (seed q) z.1 z.2 = key
  once : s.reported.Pairwise fun x y => x.2.existingKey py (seed x.1) ≠ none →
    x.2.existingKey py (seed x.1) ≠ y.2.existingKey py (seed y.1)
  answered : ∀ x ∈ s.handled, x ∈ s.reported ∨
    ∃ key ∈ s.hashKeys, x.2.existingKey py (seed x.1) = some key

theorem reportInv_init : ReportInv py seed (reportMachine py seed).init where
  reportedKey := by simp [reportMachine]
  insertedKey := by simp [reportMachine]
  keyOf := by simp [reportMachine]
  once := List.Pairwise.nil
  answered := by simp [reportMachine]

theorem ReportInv.handle (h : ReportInv py seed s) (p : ι) (f : Failure) :
    ReportInv py seed (handleStep py seed s p f) := by
  rw [handleStep]
  cases hkey : f.existingKey py (seed p) with
  | none =>
    refine ⟨?_, h.insertedKey, ?_, ?_, ?_⟩
    · intro x hx key hk
      rcases List.mem_append.mp hx with hx | hx
      · exact h.reportedKey x hx key hk
      · rw [List.mem_singleton.mp hx] at hk
        exact absurd (hkey.symm.trans hk) (by simp)
    · intro key hk
      rcases h.keyOf key hk with ⟨y, hy, hyk⟩ | hz
      · exact Or.inl ⟨y, List.mem_append_left _ hy, hyk⟩
      · exact Or.inr hz
    · refine List.pairwise_append.mpr ⟨h.once, List.pairwise_singleton _ _, ?_⟩
      intro x _ y hy hx
      rw [List.mem_singleton.mp hy]
      exact fun heq => hx (heq.trans hkey)
    · intro x hx
      rcases List.mem_append.mp hx with hx | hx
      · rcases h.answered x hx with hr | hk
        · exact Or.inl (List.mem_append_left _ hr)
        · exact Or.inr hk
      · exact Or.inl (List.mem_append_right _ hx)
  | some key =>
    by_cases hin : key ∈ s.hashKeys
    · simp only [if_pos hin]
      refine ⟨h.reportedKey, h.insertedKey, h.keyOf, h.once, ?_⟩
      intro x hx
      rcases List.mem_append.mp hx with hx | hx
      · exact h.answered x hx
      · rw [List.mem_singleton.mp hx]
        exact Or.inr ⟨key, hin, hkey⟩
    · simp only [if_neg hin]
      refine ⟨?_, ?_, ?_, ?_, ?_⟩
      · intro x hx key' hk
        rcases List.mem_append.mp hx with hx | hx
        · exact List.mem_append_left _ (h.reportedKey x hx key' hk)
        · rw [List.mem_singleton.mp hx] at hk
          rw [Option.some.inj (hk.symm.trans hkey)]
          exact List.mem_append_right _ (List.mem_singleton_self _)
      · intro z hz
        obtain ⟨q, hq⟩ := h.insertedKey z hz
        exact ⟨q, List.mem_append_left _ hq⟩
      · intro key' hk
        rcases List.mem_append.mp hk with hk | hk
        · rcases h.keyOf key' hk with ⟨y, hy, hyk⟩ | hz
          · exact Or.inl ⟨y, List.mem_append_left _ hy, hyk⟩
          · exact Or.inr hz
        · rw [List.mem_singleton.mp hk]
          exact Or.inl ⟨(p, f), List.mem_append_right _ (List.mem_singleton_self _), hkey⟩
      · refine List.pairwise_append.mpr ⟨h.once, List.pairwise_singleton _ _, ?_⟩
        intro x hx y hy _ heq
        rw [List.mem_singleton.mp hy] at heq
        exact hin (h.reportedKey x hx key (heq.trans hkey))
      · intro x hx
        rcases List.mem_append.mp hx with hx | hx
        · rcases h.answered x hx with hr | ⟨key', hk, hxk⟩
          · exact Or.inl (List.mem_append_left _ hr)
          · exact Or.inr ⟨key', List.mem_append_left _ hk, hxk⟩
        · exact Or.inl (List.mem_append_right _ hx)

omit [DecidableEq ι] in
theorem ReportInv.insertFound (h : ReportInv py seed s) (p : ι) (tp : ValidateRstType)
    (foundKey : String) :
    ReportInv py seed { s with
      hashKeys := s.hashKeys ++ [foundHashKey py (seed p) tp foundKey]
      inserted := s.inserted ++ [(tp, foundKey)] } where
  reportedKey := fun x hx key hk => List.mem_append_left _ (h.reportedKey x hx key hk)
  insertedKey := by
    intro z hz
    rcases List.mem_append.mp hz with hz | hz
    · obtain ⟨q, hq⟩ := h.insertedKey z hz
      exact ⟨q, List.mem_append_left _ hq⟩
    · rw [List.mem_singleton.mp hz]
      exact ⟨p, List.mem_append_right _ (List.mem_singleton_self _)⟩
  keyOf := by
    intro key hk
    rcases List.mem_append.mp hk with hk | hk
    · rcases h.keyOf key hk with hy | ⟨q, z, hz, hzk⟩
      · exact Or.inl hy
      · exact Or.inr ⟨q, z, List.mem_append_left _ hz, hzk⟩
    · exact Or.inr ⟨p, (tp, foundKey), List.mem_append_right _ (List.mem_singleton_self _),
        (List.mem_singleton.mp hk).symm⟩
  once := h.once
  answered := by
    intro x hx
    rcases h.answered x hx with hr | ⟨key, hk, hxk⟩
    · exact Or.inl hr
    · exact Or.inr ⟨key, List.mem_append_left _ hk, hxk⟩

theorem ReportInv.step (h : ReportInv py seed s) {a : ReportAction ι} {t : ReportState ι}
    (ht : reportStep py seed s a = some t) : ReportInv py seed t := by
  cases a with
  | handle p f =>
    cases hp : s.phase p with
    | idle =>
      simp only [reportStep, hp] at ht
      exact Option.some.inj ht ▸ h.handle p f
    | counting f => simp [reportStep, hp] at ht
    | storing f num => simp [reportStep, hp] at ht
    | raised => simp [reportStep, hp] at ht
  | goOn p =>
    cases hp : s.phase p with
    | counting f =>
      simp only [reportStep, hp] at ht
      exact Option.some.inj ht ▸ ⟨h.reportedKey, h.insertedKey, h.keyOf, h.once, h.answered⟩
    | storing f num =>
      simp only [reportStep, hp] at ht
      exact Option.some.inj ht ▸ ⟨h.reportedKey, h.insertedKey, h.keyOf, h.once, h.answered⟩
    | idle => simp [reportStep, hp] at ht
    | raised => simp [reportStep, hp] at ht
  | insertFound p tp foundKey =>
    cases hp : s.phase p with
    | idle =>
      simp only [reportStep, hp] at ht
      exact Option.some.inj ht ▸ h.insertFound p tp foundKey
    | counting f => simp [reportStep, hp] at ht
    | storing f num => simp [reportStep, hp] at ht
    | raised => simp [reportStep, hp] at ht

theorem existingKey_ne_none_of_same {f g : Failure} (h : f.Same g) (k : κ) :
    f.existingKey py k ≠ none := by
  cases f with
  | validation tp opName msg =>
    cases msg with
    | none => cases g <;> exact h.elim
    | some m => simp [Failure.existingKey, Failure.text]
  | invariant tp opName errs => simp [Failure.existingKey, Failure.text]

omit [DecidableEq ι] in
theorem ReportInv.reportedOnce (h : ReportInv py seed s)
    (hsame : ∀ p q, SameKeys py (seed p) (seed q)) : ReportedOnce py seed s where
  once := by
    refine h.once.imp (fun {x y} hxy hs => ?_)
    exact hxy (existingKey_ne_none_of_same hs _) ((hsame x.1 y.1).1 x.2 y.2 hs)
  reported := by
    intro x hx
    rcases h.answered x hx with hr | ⟨key, hk, hxk⟩
    · exact Or.inl hr
    · refine Or.inr ?_
      rcases h.keyOf key hk with ⟨y, hy, hyk⟩ | ⟨q, z, hz, hzk⟩
      · exact Or.inl ⟨y, hy, hxk.trans hyk.symm⟩
      · exact Or.inr ⟨q, z, hz, hxk.trans (congrArg some hzk.symm)⟩
  seen := by
    intro z hz p
    obtain ⟨q, hq⟩ := h.insertedKey z hz
    rw [foundKeyExist, (hsame p q).2 z.1 z.2]
    exact decide_eq_true hq

end

/-- CPython with the hash keys `k`.  The language leaves the order of a set open; here
the errors are printed by name. -/
def cpython : PyRuntime (UInt64 × UInt64) where
  hash := fun k text =>
    let h := (SipHash.sipHash24 k.1 k.2 (text.toList.map Char.toNat)).toBitVec.toInt
    if h = -1 then -2 else h
  strSet := fun _ errs => "\x7b" ++ ", ".intercalate (errs.toFinset.sort) ++ "\x7d"

/-- Two guests with hash keys of their own. -/
def twoSeeds : Fin 2 → UInt64 × UInt64
  | 0 => (0, 0)
  | 1 => (1, 0)

def mismatchFailure : Failure := .validation .mismatchBothOracle "create" (some "diff")

def afterTwoReports : ReportState (Fin 2) :=
  ((reportMachine cpython twoSeeds).play (fun _ _ => true) (reportMachine cpython twoSeeds).init
    [.handle 0 mismatchFailure, .handle 1 mismatchFailure]).get (by decide +kernel)

end Executor
end Silhouette
