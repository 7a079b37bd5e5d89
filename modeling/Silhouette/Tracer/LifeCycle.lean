import Silhouette.Lib.Dict
import Silhouette.Lib.Machine
import Silhouette.Tracer.StoredValues

/-!
# The life cycle of the tracer

`trace_init_all` and `trace_destroy_all` set up and clear the caches, files and offsets of the
tracer, with records traced in between.  The creation of a cache and the opening of a file may
fail; a failed open leaves an error pointer, which is not `NULL`.

A call that dereferences an error pointer does not return, so its step is `none`.
-/

namespace Silhouette
namespace Tracer
namespace LifeCycle

open Lib

/-- A pointer to an open file description. -/
inductive FilePtr where
  | null
  | errPtr
  | file (n : Nat)
  deriving DecidableEq

structure LifeState where
  traceEnabled : Int := 0
  /-- The caches that are not `NULL`. -/
  traceWbufCachep : Bool := false
  traceSvbufCachep : Bool := false
  filp : FilePtr := .null
  svFilp : FilePtr := .null
  offset : Nat := 0
  svOffset : Nat := 0
  /-- The sizes of the buffered records and values. -/
  wbuf : List Nat := []
  svbuf : List Nat := []
  /-- The files that are open, and the number of the next one. -/
  openFiles : List Nat := []
  nextFile : Nat := 0
  /-- The number of the next file when the tracer was destroyed last. -/
  destroyed : Nat := 0
  deriving DecidableEq

/-- How the four requests of an initialisation turn out. -/
structure Outcome where
  wbufCache : Bool
  svbufCache : Bool
  file : Bool
  svFile : Bool
  deriving DecidableEq

namespace LifeState

/-! ## Files -/

/-- `filp_open` -/
def filpOpen (s : LifeState) (ok : Bool) : FilePtr × LifeState :=
  if ok then
    (.file s.nextFile, { s with openFiles := s.nextFile :: s.openFiles, nextFile := s.nextFile + 1 })
  else (.errPtr, s)

/-- `filp_close` -/
def filpClose (s : LifeState) : FilePtr → Option LifeState
  | .file n => some { s with openFiles := s.openFiles.filter (· ≠ n) }
  | _ => none

def openFile (s : LifeState) (ok : Bool) : LifeState :=
  if s.filp ≠ .null then s
  else { (s.filpOpen ok).2 with filp := (s.filpOpen ok).1 }

def openSvFile (s : LifeState) (ok : Bool) : LifeState :=
  if s.svFilp ≠ .null then s
  else { (s.filpOpen ok).2 with svFilp := (s.filpOpen ok).1 }

def closeFile (s : LifeState) : Option LifeState :=
  if s.filp = .null then some s
  else (s.filpClose s.filp).map fun s => { s with filp := .null }

/-- Unlike `close_file` it clears the pointer of the other file. -/
def closeSvFile (s : LifeState) : Option LifeState :=
  if s.svFilp = .null then some s
  else (s.filpClose s.svFilp).map fun s => { s with filp := .null }

/-! ## Records -/

/-- `write_file` -/
def writeFile (s : LifeState) (len : Nat) : Option LifeState :=
  if s.filp = .errPtr then none else some { s with offset := s.offset + len }

/-- `write_sv_file` -/
def writeSvFile (s : LifeState) (len : Nat) : Option LifeState :=
  if len > maxSvBufSize then some s
  else if s.svFilp = .errPtr then none
  else some { s with svOffset := s.svOffset + (8 + 8 + len) }

def traceWbufWriteAll (s : LifeState) : Option LifeState :=
  (s.wbuf.foldlM writeFile s).map fun s => { s with wbuf := [] }

def traceSvbufWriteAll (s : LifeState) : Option LifeState :=
  (s.svbuf.foldlM writeSvFile s).map fun s => { s with svbuf := [] }

def outputRecord (s : LifeState) (atomic : Bool) (size : Nat) : Option LifeState :=
  if atomic then some { s with wbuf := s.wbuf ++ [min size 512] }
  else s.traceWbufWriteAll.bind fun s => s.writeFile size

def outputStoreValue (s : LifeState) (atomic : Bool) (len : Nat) : Option LifeState :=
  if atomic then some (if len > maxSvBufSize then s else { s with svbuf := s.svbuf ++ [len] })
  else s.traceSvbufWriteAll.bind fun s => s.writeSvFile len

/-! ## Set up and clear -/

def traceInitAll (s : LifeState) (o : Outcome) : LifeState :=
  if s.traceEnabled ≠ 0 then s
  else
    let s := { s with
      traceWbufCachep := s.traceWbufCachep || o.wbufCache
      traceSvbufCachep := s.traceSvbufCachep || o.svbufCache }
    let s := if s.traceWbufCachep then s else { s with traceEnabled := -1 }
    let s := (s.openFile o.file).openSvFile o.svFile
    let s := { s with offset := 0, traceEnabled := 1 }
    if s.filp = .null ∨ s.svFilp = .null then { s with traceEnabled := -1 } else s

def traceDestroyAll (s : LifeState) (initFsRetVal : Int) : Option LifeState :=
  if initFsRetVal = 0 ∨ s.traceEnabled = 0 then some s
  else do
    let s ← s.traceWbufWriteAll
    let s ← s.traceSvbufWriteAll
    let s := { s with
      offset := 0
      traceEnabled := 0
      traceSvbufCachep := false
      traceWbufCachep := false
      destroyed := s.nextFile }
    let s ← s.closeFile
    s.closeSvFile

end LifeState

inductive Action where
  | init (o : Outcome)
  | destroy (initFsRetVal : Int)
  | record (atomic : Bool) (size : Nat)
  | storeValue (atomic : Bool) (len : Nat)

/-- Nothing is traced while the tracer is not enabled. -/
def LifeState.step (s : LifeState) : Action → Option LifeState
  | .init o => some (s.traceInitAll o)
  | .destroy initFsRetVal => s.traceDestroyAll initFsRetVal
  | .record atomic size => if s.traceEnabled = 0 then some s else s.outputRecord atomic size
  | .storeValue atomic len => if s.traceEnabled = 0 then some s else s.outputStoreValue atomic len

def machine : Machine LifeState Action := ⟨{}, LifeState.step⟩

/-! ## What is promised -/

namespace LifeState

/-- The pointer is to a file that is open and was opened since the tracer was destroyed last. -/
def OpenSince (s : LifeState) (p : FilePtr) : Prop :=
  ∃ n, p = .file n ∧ n ∈ s.openFiles ∧ s.destroyed ≤ n

/-- An enabled tracer has its caches and files. -/
def Ready (s : LifeState) : Prop :=
  s.traceEnabled = 1 → s.traceWbufCachep = true ∧ s.traceSvbufCachep = true ∧
    s.OpenSince s.filp ∧ s.OpenSince s.svFilp

end LifeState

/-- An initialisation that is not skipped gets all it asks for, and finds neither a pointer to a
file of values nor an offset in it. -/
def InitFits (s : LifeState) : Action → Prop
  | .init o => s.traceEnabled = 0 →
    o.wbufCache = true ∧ o.svbufCache = true ∧ o.file = true ∧ o.svFile = true ∧
      s.svFilp = .null ∧ s.svOffset = 0
  | _ => True

namespace LifeState

/-- Both states agree on all but the buffers and the offsets. -/
def Agrees (s t : LifeState) : Prop :=
  t = { s with offset := t.offset, svOffset := t.svOffset, wbuf := t.wbuf, svbuf := t.svbuf }

theorem Agrees.refl (s : LifeState) : Agrees s s := rfl

theorem Agrees.trans {s t u : LifeState} (hst : Agrees s t) (htu : Agrees t u) : Agrees s u := by
  rw [Agrees, htu, hst]

theorem agrees_writeFile {s t : LifeState} {len : Nat} (h : s.writeFile len = some t) :
    Agrees s t := by
  rw [writeFile] at h
  split at h
  · cases h
  · rw [← Option.some.inj h]
    rfl

theorem agrees_writeSvFile {s t : LifeState} {len : Nat} (h : s.writeSvFile len = some t) :
    Agrees s t := by
  rw [writeSvFile] at h
  split_ifs at h
  · rw [← Option.some.inj h]
    rfl
  · rw [← Option.some.inj h]
    rfl

theorem agrees_traceWbufWriteAll {s t : LifeState} (h : s.traceWbufWriteAll = some t) :
    Agrees s t := by
  obtain ⟨u, hu, rfl⟩ := Option.map_eq_some_iff.mp h
  have hagrees : Agrees s u :=
    foldlM_invariant (P := Agrees s) (fun _ _ _ hb hstep => hb.trans (agrees_writeFile hstep))
      (Agrees.refl s) hu
  exact hagrees.trans rfl

theorem agrees_traceSvbufWriteAll {s t : LifeState} (h : s.traceSvbufWriteAll = some t) :
    Agrees s t := by
  obtain ⟨u, hu, rfl⟩ := Option.map_eq_some_iff.mp h
  have hagrees : Agrees s u :=
    foldlM_invariant (P := Agrees s) (fun _ _ _ hb hstep => hb.trans (agrees_writeSvFile hstep))
      (Agrees.refl s) hu
  exact hagrees.trans rfl

theorem agrees_outputRecord {s t : LifeState} {atomic : Bool} {size : Nat}
    (h : s.outputRecord atomic size = some t) : Agrees s t := by
  rw [outputRecord] at h
  split at h
  · rw [← Option.some.inj h]
    rfl
  · obtain ⟨u, hu, h⟩ := Option.bind_eq_some_iff.mp h
    exact (agrees_traceWbufWriteAll hu).trans (agrees_writeFile h)

theorem agrees_outputStoreValue {s t : LifeState} {atomic : Bool} {len : Nat}
    (h : s.outputStoreValue atomic len = some t) : Agrees s t := by
  rw [outputStoreValue] at h
  split at h
  · rw [← Option.some.inj h]
    split <;> rfl
  · obtain ⟨u, hu, h⟩ := Option.bind_eq_some_iff.mp h
    exact (agrees_traceSvbufWriteAll hu).trans (agrees_writeSvFile h)

/-- What closing a file keeps. -/
theorem closeFile_eq {s t : LifeState} (h : s.closeFile = some t) :
    t.filp = .null ∧ t.traceEnabled = s.traceEnabled ∧ t.nextFile = s.nextFile ∧
      t.destroyed = s.destroyed := by
  rw [closeFile] at h
  split at h
  · rename_i hnull
    rw [← Option.some.inj h]
    exact ⟨hnull, rfl, rfl, rfl⟩
  · obtain ⟨u, hu, rfl⟩ := Option.map_eq_some_iff.mp h
    rw [filpClose.eq_def] at hu
    split at hu
    · rw [← Option.some.inj hu]
      exact ⟨rfl, rfl, rfl, rfl⟩
    · cases hu

theorem closeSvFile_eq {s t : LifeState} (h : s.closeSvFile = some t) (hnull : s.filp = .null) :
    t.filp = .null ∧ t.traceEnabled = s.traceEnabled ∧ t.nextFile = s.nextFile ∧
      t.destroyed = s.destroyed := by
  rw [closeSvFile] at h
  split at h
  · rw [← Option.some.inj h]
    exact ⟨hnull, rfl, rfl, rfl⟩
  · obtain ⟨u, hu, rfl⟩ := Option.map_eq_some_iff.mp h
    rw [filpClose.eq_def] at hu
    split at hu
    · rw [← Option.some.inj hu]
      exact ⟨rfl, rfl, rfl, rfl⟩
    · cases hu

/-! ## Runs -/

structure Inv (s : LifeState) : Prop where
  ready : s.Ready
  idle : s.traceEnabled = 0 → s.filp = .null
  le : s.destroyed ≤ s.nextFile

theorem Inv.agrees {s t : LifeState} (h : s.Inv) (hst : Agrees s t) : t.Inv := by
  rw [hst]
  exact ⟨h.ready, h.idle, h.le⟩

/-- An initialisation that gets all it asks for. -/
theorem traceInitAll_eq {s : LifeState} {o : Outcome} (h0 : s.traceEnabled = 0)
    (hfilp : s.filp = .null) (hfits : InitFits s (.init o)) :
    s.traceInitAll o = { s with
      traceEnabled := 1
      traceWbufCachep := true
      traceSvbufCachep := true
      filp := .file s.nextFile
      svFilp := .file (s.nextFile + 1)
      offset := 0
      openFiles := (s.nextFile + 1) :: s.nextFile :: s.openFiles
      nextFile := s.nextFile + 1 + 1 } := by
  obtain ⟨h₁, h₂, h₃, h₄, hsv, -⟩ := hfits h0
  simp [traceInitAll, h0, h₁, h₂, openFile, openSvFile, filpOpen, hfilp, hsv, h₃, h₄]

theorem Inv.init {s : LifeState} (h : s.Inv) {o : Outcome} (hfits : InitFits s (.init o)) :
    (s.traceInitAll o).Inv := by
  by_cases h0 : s.traceEnabled = 0
  · rw [traceInitAll_eq h0 (h.idle h0) hfits]
    refine ⟨fun _ => ⟨rfl, rfl, ⟨s.nextFile, rfl, ?_, h.le⟩, s.nextFile + 1, rfl, ?_, ?_⟩,
      fun hone => ?_, ?_⟩
    · exact List.mem_cons_of_mem _ List.mem_cons_self
    · exact List.mem_cons_self
    · exact Nat.le_succ_of_le h.le
    · cases hone
    · exact Nat.le_succ_of_le (Nat.le_succ_of_le h.le)
  · rw [traceInitAll, if_pos h0]
    exact h

theorem Inv.destroy {s t : LifeState} (h : s.Inv) {ret : Int}
    (ht : s.traceDestroyAll ret = some t) : t.Inv := by
  rw [traceDestroyAll] at ht
  split at ht
  · exact Option.some.inj ht ▸ h
  · obtain ⟨u, -, ht⟩ := Option.bind_eq_some_iff.mp ht
    obtain ⟨v, -, ht⟩ := Option.bind_eq_some_iff.mp ht
    obtain ⟨w, hw, ht⟩ := Option.bind_eq_some_iff.mp ht
    obtain ⟨hnull, henabled, hnext, hdestroyed⟩ := closeFile_eq hw
    obtain ⟨hnull', henabled', hnext', hdestroyed'⟩ := closeSvFile_eq ht hnull
    have hzero : t.traceEnabled = 0 := henabled'.trans henabled
    refine ⟨fun hone => ?_, fun _ => hnull', ?_⟩
    · rw [hzero] at hone
      cases hone
    · rw [hdestroyed', hnext', hdestroyed, hnext]

theorem Inv.step {s t : LifeState} {a : Action} (h : s.Inv) (hfits : InitFits s a)
    (ht : s.step a = some t) : t.Inv := by
  cases a with
  | init o => exact Option.some.inj ht ▸ h.init hfits
  | destroy ret => exact h.destroy ht
  | record atomic size =>
    rw [LifeState.step] at ht
    split at ht
    · exact Option.some.inj ht ▸ h
    · exact h.agrees (agrees_outputRecord ht)
  | storeValue atomic len =>
    rw [LifeState.step] at ht
    split at ht
    · exact Option.some.inj ht ▸ h
    · exact h.agrees (agrees_outputStoreValue ht)

theorem inv_of_reachable {s : LifeState} (h : machine.Reachable InitFits s) : s.Inv := by
  refine h.invariant ⟨fun hone => ?_, fun _ => rfl, Nat.le_refl _⟩
    fun s a t hs hfits ht => hs.step hfits ht
  cases hone

end LifeState

/-- In every run whose initialisations all fit, an enabled tracer is ready, and each initialisation
that enables it starts both files anew. -/
theorem ready_and_anew {s : LifeState} (h : machine.Reachable InitFits s) :
    s.Ready ∧ ∀ o t, InitFits s (.init o) → s.step (.init o) = some t → s.traceEnabled = 0 →
      t.traceEnabled = 1 → t.offset = 0 ∧ t.svOffset = 0 := by
  have hinv := LifeState.inv_of_reachable h
  refine ⟨hinv.ready, fun o t hfits ht h0 _ => ?_⟩
  rw [← Option.some.inj ht, LifeState.traceInitAll_eq h0 (hinv.idle h0) hfits]
  exact ⟨rfl, (hfits h0).2.2.2.2.2⟩

instance : (s : LifeState) → (a : Action) → Decidable (InitFits s a)
  | _, .init _ => inferInstanceAs (Decidable (_ → _))
  | _, .destroy _ => inferInstanceAs (Decidable True)
  | _, .record _ _ => inferInstanceAs (Decidable True)
  | _, .storeValue _ _ => inferInstanceAs (Decidable True)

def allFine : Outcome := ⟨true, true, true, true⟩

/-- One mount with two records and a value. -/
def firstMount : List Action :=
  [.init allFine, .record true 40, .record false 30, .storeValue false 8]

def firstMountState : LifeState :=
  (machine.play (fun s a => decide (InitFits s a)) machine.init firstMount).get (by decide +kernel)

theorem ready_and_anew_first_mount :
    firstMountState.traceEnabled = 1 ∧ firstMountState.offset = 70 ∧
      firstMountState.svOffset = 24 ∧ firstMountState.Ready := by
  have hreach : machine.Reachable InitFits firstMountState :=
    Machine.reachable_of_play (fun _ _ h => of_decide_eq_true h) (Option.some_get _).symm
  exact ⟨by decide +kernel, by decide +kernel, by decide +kernel, (ready_and_anew hreach).1⟩

def secondMountState : LifeState :=
  (machine.play (fun _ _ => true) machine.init (firstMount ++ [.destroy 1, .init allFine])).get
    (by decide +kernel)

/-- The second mount is enabled with the closed file of values and an offset in it, though
every cache is created and every open succeeds. -/
theorem second_mount_stale :
    machine.Reachable (fun _ _ => True) secondMountState ∧ secondMountState.traceEnabled = 1 ∧
      ¬ secondMountState.Ready ∧ secondMountState.svOffset = 24 := by
  refine ⟨Machine.reachable_of_play (fun _ _ _ => trivial) (Option.some_get _).symm,
    by decide +kernel, fun hready => ?_, by decide +kernel⟩
  obtain ⟨-, -, -, n, hn, hmem, -⟩ := hready (by decide +kernel)
  have hfile : secondMountState.svFilp = .file 1 := by decide +kernel
  have hopen : secondMountState.openFiles = [2] := by decide +kernel
  rw [hfile] at hn
  rw [hopen, ← FilePtr.file.inj hn] at hmem
  exact absurd hmem (by decide)

end LifeCycle
end Tracer
end Silhouette
