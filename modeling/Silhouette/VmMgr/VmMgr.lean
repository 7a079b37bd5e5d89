import Silhouette.Lib.Machine
import Silhouette.Lib.Outcome
import Silhouette.VmMgr.SshConfig

/-!
# The manager of the virtual machines

A virtual machine that is created takes a VNC number of the list and an SSH configuration
of the pool.  When its process has ended it is moved to the dead ones and the number goes
back; the configuration and the files go back when the dead machine is reclaimed.

`Inv` is kept by every call, and none of the assertions about the manager's own lists can
fail.  What a call does beside the lists is up to the operating system, whose answers are
given for one moment after the other.
-/

namespace Silhouette
namespace VmMgr

open Lib Lib.Text
open scoped List

abbrev FileName := List Char

structure VMConfig where
  strId : List Char
  numCpu : Nat
  memSizeGb : Nat
  pmFile : FileName
  pmSizeMb : Nat
  imgFile : FileName
  vncNum : Int
  commPort : Int
  dramEmulatePm : Bool
  deriving DecidableEq, Repr

/-- The number tells two objects apart. -/
structure VMInstance where
  id : Nat
  sshConfig : SSHConfig
  vmConfig : VMConfig
  vmParent : VMConfig
  deriving DecidableEq, Repr

def getBackupImgFname (fname : FileName) : FileName := fname ++ lit ".bak"

/-- What the operating system answers at one moment. -/
structure Os where
  isProcessRunning : FileName → Bool
  killProcess : FileName → Bool
  removeFile : FileName → Bool
  copyFile : Bool
  createFile : Bool
  qemuImgCreate : Bool
  portInUsing : Nat → Bool
  freeSpaceGiB : FileName → Nat
  timestamp : Nat

/-- The assertions and exceptions that end the program. -/
inductive Failure
  | noDeadResource
  | noSuffix
  | sshConfigFailed
  | aliasInFile
  | vncListEmpty
  | vncListDuplicates
  | vncListLength
  | createImageFailed
  | backupImageFailed
  | createPmFileFailed
  | reclaimFailed
  | removeFailed
  | notDead
  | killFailed
  | poolNotRestored
  | outOfFuel
  deriving DecidableEq, Repr

/-- The failures of the manager's own bookkeeping. -/
def Failure.bookkeeping : Failure → Bool
  | .aliasInFile | .vncListEmpty | .vncListDuplicates | .vncListLength | .outOfFuel => true
  | _ => false

/-- The manager with its pool, the machines whose `start` has been called, the number of
objects made so far, and the files of virtual machines that exist. -/
structure VMMgr where
  runLimit : Int
  baseVmConfig : VMConfig
  vncNumList : List Int
  liveVmInstances : List VMInstance
  deadVmInstances : List VMInstance
  reclaimedVmInstances : List VMInstance
  sshConfigPool : SSHConfigPool
  started : List Nat
  created : Nat
  files : List FileName

def minImgDevSpace : Nat := 50
def minPmDevSpace : Nat := 2

/-- The limit of `__init__` for a machine with some number of processors. -/
def runLimitOf (limit : Int) (cpuCount : Nat) : Int :=
  let limit := if limit ≤ 0 ∨ cpuCount ≤ limit then (cpuCount : Int) - 1 else limit
  if limit = 0 then 1 else limit

/-- `range(10, run_limit + 10)` -/
def vncNums (runLimit : Int) : List Int :=
  (List.range runLimit.toNat).map fun i : Nat => (i : Int) + 10

namespace VMMgr

def init (limit : Int) (cpuCount : Nat) (base : VMConfig) (pool : SSHConfigPool)
    (files : List FileName) : VMMgr where
  runLimit := runLimitOf limit cpuCount
  baseVmConfig := { base with strId := lit "base", vncNum := -1, commPort := -1 }
  vncNumList := vncNums (runLimitOf limit cpuCount)
  liveVmInstances := []
  deadVmInstances := []
  reclaimedVmInstances := []
  sshConfigPool := pool
  started := []
  created := 0
  files := files

variable (m : VMMgr)

/-! ## Files -/

def fileExists (f : FileName) : Bool := decide (f ∈ m.files)

def addFile (f : FileName) : VMMgr := { m with files := f :: m.files }

def dropFile (f : FileName) : VMMgr := { m with files := m.files.filter (· ≠ f) }

/-- A file that is in the way is removed when no process uses it. -/
def removeOld (os : Os) (f : FileName) (e : Failure) : Except Failure VMMgr :=
  if m.fileExists f then do
    check (!os.isProcessRunning f) e
    check (os.removeFile f) e
    pure (m.dropFile f)
  else pure m

/-- The parts of `VMInstance.init`. -/
def createImage (os : Os) (vm : VMInstance) : Except Failure VMMgr := do
  check (m.fileExists vm.vmParent.imgFile) .createImageFailed
  let m ← m.removeOld os vm.vmConfig.imgFile .createImageFailed
  check os.qemuImgCreate .createImageFailed
  pure (m.addFile vm.vmConfig.imgFile)

def backupImgFile (os : Os) (vm : VMInstance) : Except Failure VMMgr := do
  check os.copyFile .backupImageFailed
  pure (m.addFile (getBackupImgFname vm.vmConfig.imgFile))

def createPmFile (os : Os) (vm : VMInstance) : Except Failure VMMgr :=
  if vm.vmConfig.dramEmulatePm then pure m
  else do
    let m ← m.removeOld os vm.vmConfig.pmFile .createPmFileFailed
    check os.createFile .createPmFileFailed
    pure (m.addFile vm.vmConfig.pmFile)

def initInstance (os : Nat → Os) (vm : VMInstance) : Except Failure VMMgr := do
  let m ← m.createImage (os 0) vm
  let m ← m.backupImgFile (os 1) vm
  m.createPmFile (os 2) vm

def removeIfExists (os : Os) (f : FileName) : Except Failure VMMgr :=
  if m.fileExists f then do
    check (os.removeFile f) .removeFailed
    pure (m.dropFile f)
  else pure m

/-! ## Dead machines -/

def isStarted (vm : VMInstance) : Bool := decide (vm.id ∈ m.started)

def isRunning (os : Os) (vm : VMInstance) : Bool :=
  m.isStarted vm && os.isProcessRunning vm.vmConfig.imgFile

/-- `VMInstance.start`: the machine has a process from now on. -/
def start (id : Nat) : VMMgr := { m with started := id :: m.started }

def exceedRunLimit : Bool := decide (m.runLimit ≤ m.liveVmInstances.length)

/-- What the loops of `search_dead_vm` and `kill_all_vm` do with a machine that has ended. -/
def bury (vm : VMInstance) : Except Failure VMMgr := do
  let m := { m with
    deadVmInstances := m.deadVmInstances ++ [vm]
    vncNumList := m.vncNumList ++ [vm.vmConfig.vncNum] }
  check (decide m.vncNumList.Nodup) .vncListDuplicates
  pure m

def searchDeadVm (os : Os) : Except Failure VMMgr := do
  let r ← m.liveVmInstances.foldlM (fun (r : VMMgr × List VMInstance) vm =>
    if r.1.isStarted vm && !r.1.isRunning os vm then do
      let m ← r.1.bury vm
      pure (m, r.2)
    else pure (r.1, r.2 ++ [vm])) (m, [])
  pure { r.1 with liveVmInstances := r.2 }

def removePmFile (os : Os) (vm : VMInstance) : Except Failure VMMgr :=
  if vm.vmConfig.dramEmulatePm then pure m else m.removeIfExists os vm.vmConfig.pmFile

/-- `destory_resource` of the image, its backup and the PM file. -/
def destoryResource (os : Os) (vm : VMInstance) : Except Failure (Bool × VMMgr) :=
  if m.isRunning os vm then pure (false, m)
  else do
    let m ← m.removeIfExists os vm.vmConfig.imgFile
    let m ← m.removeIfExists os (getBackupImgFname vm.vmConfig.imgFile)
    let m ← m.removePmFile os vm
    pure (true, m)

/-- `reclaim_resource` from where the machine is known. -/
def reclaim (os : Os) (vm : VMInstance) : Except Failure VMMgr := do
  let r ← m.destoryResource os vm
  check r.1 .reclaimFailed
  let m := { r.2 with sshConfigPool := r.2.sshConfigPool.deallocSshConfig vm.sshConfig }
  check (m.deadVmInstances.any (·.id = vm.id)) .notDead
  pure { m with
    deadVmInstances := m.deadVmInstances.eraseP (·.id = vm.id)
    reclaimedVmInstances := m.reclaimedVmInstances ++ [vm] }

def reclaimResource (os : Nat → Os) : Option VMInstance → Except Failure (Bool × VMMgr)
  | some vm => do
    let m ← m.reclaim (os 1) vm
    pure (true, m)
  | none => do
    let m ← m.searchDeadVm (os 0)
    match m.deadVmInstances with
    | [] => pure (false, m)
    | vm :: _ => do
      let m ← m.reclaim (os 1) vm
      pure (true, m)

/-- `VMInstance.kill` -/
def kill (os : Os) (vm : VMInstance) : Bool :=
  !m.isRunning os vm || os.killProcess vm.vmConfig.imgFile

def killAllVm (os : Nat → Os) : Except Failure VMMgr := do
  let m ← m.liveVmInstances.foldlM (fun (m : VMMgr) vm => do
    check (!m.isRunning (os 0) vm || m.kill (os 1) vm) .killFailed
    m.bury vm) m
  let m := { m with liveVmInstances := [] }
  check (decide ((m.vncNumList.length : Int) = m.runLimit)) .vncListLength
  pure m

/-- `destory_all_vm`: every pass takes two moments. -/
def destoryAllLoop : Nat → (Nat → Os) → VMMgr → Except Failure VMMgr
  | fuel, os, m =>
    if m.deadVmInstances = [] then pure m
    else
      match fuel with
      | 0 => .error .outOfFuel
      | fuel + 1 => do
        let r ← m.reclaimResource os none
        destoryAllLoop fuel (fun n => os (n + 2)) r.2

/-- Every pass of the loop reclaims a machine. -/
def destoryAllVm (os : Nat → Os) : Except Failure VMMgr :=
  destoryAllLoop (m.liveVmInstances.length + m.deadVmInstances.length) os m

def destory (os : Nat → Os) : Except Failure VMMgr := do
  let m ← m.killAllVm os
  m.destoryAllVm fun n => os (n + 2)

/-! ## Creating -/

def hasEnoughSpace (os : Os) : Bool :=
  !decide (os.freeSpaceGiB m.baseVmConfig.imgFile < minImgDevSpace) &&
    (m.baseVmConfig.dramEmulatePm ||
      !decide (os.freeSpaceGiB m.baseVmConfig.pmFile < minPmDevSpace))

/-- The part of the name in front of its last dot. -/
def stem (f : FileName) : FileName := ((f.reverse.dropWhile (· ≠ '.')).drop 1).reverse

/-- The names for a time stamp, unless the caller gives them. -/
def vmFileNameOf (timestamp : List Char) : Option FileName → Except Failure FileName
  | some name => pure name
  | none => do
    check (decide ('.' ∈ m.baseVmConfig.imgFile)) .noSuffix
    pure (stem m.baseVmConfig.imgFile ++ lit "." ++ timestamp ++ lit ".qcow2")

def pmFileNameOf (timestamp : List Char) : Option FileName → FileName
  | some name => name
  | none => m.baseVmConfig.pmFile ++ lit "." ++ timestamp

/-- A search when the limit is reached. -/
def searchIfExceeded (os : Os) : Except Failure VMMgr :=
  if m.exceedRunLimit then m.searchDeadVm os else pure m

/-- Room for the files of a new machine, if need be from a dead one. -/
def makeSpace (os : Nat → Os) : Except Failure VMMgr :=
  if m.hasEnoughSpace (os 0) then pure m
  else do
    let r ← m.reclaimResource (fun n => os (n + 1)) none
    check r.1 .noDeadResource
    pure r.2

variable (env : SSHEnv)

def allocSshConfig (os : Os) : Except Failure (SSHConfig × VMMgr) :=
  match m.sshConfigPool.allocSshConfig env os.portInUsing with
  | none => .error .aliasInFile
  | some (none, _) => .error .sshConfigFailed
  | some (some conf, pool) => pure (conf, { m with sshConfigPool := pool })

/-- The machine with the first free VNC number. -/
def newInstance (timestamp : List Char) (vmFile pmFile : FileName) (father : VMConfig)
    (conf : SSHConfig) : Except Failure (VMInstance × VMMgr) :=
  match m.vncNumList with
  | [] => .error .vncListEmpty
  | num :: rest =>
    let config : VMConfig := ⟨timestamp, father.numCpu, father.memSizeGb, pmFile, father.pmSizeMb,
      vmFile, num, conf.port, m.baseVmConfig.dramEmulatePm⟩
    pure (⟨m.created, conf, config, father⟩, { m with vncNumList := rest, created := m.created + 1 })

/-- `create_vm`; there is no machine where it returns that the limit is exceeded. -/
def createVm (os : Nat → Os) (vmFileName pmFileName : Option FileName)
    (fatherConfig : Option VMConfig) : Except Failure (Option VMInstance × VMMgr) := do
  let m ← m.searchIfExceeded (os 0)
  if m.exceedRunLimit then pure (none, m)
  else do
    let m ← m.makeSpace fun n => os (n + 1)
    let timestamp := decimal (os 4).timestamp
    let vmFile ← m.vmFileNameOf timestamp vmFileName
    let r ← m.allocSshConfig env (os 4)
    let s ← r.2.newInstance timestamp vmFile (r.2.pmFileNameOf timestamp pmFileName)
      (fatherConfig.getD r.2.baseVmConfig) r.1
    let m ← s.2.initInstance (fun n => os (n + 5)) s.1
    pure (some s.1, { m with liveVmInstances := m.liveVmInstances ++ [s.1] })

/-- `HostProc.clear_vm`, with the moments of its three calls. -/
def clearVm (os atEnd : Nat → Os) (copyFile removeFile : Bool) :
    Except Failure (Bool × VMMgr) := do
  let m ← m.destory os
  let r ← m.reclaimResource atEnd none
  match r.2.sshConfigPool.destoryPool env copyFile removeFile with
  | none => .error .poolNotRestored
  | some (restored, pool) => pure (restored, { r.2 with sshConfigPool := pool })

end VMMgr
end VmMgr
end Silhouette
