import Silhouette.VmMgr.Fleet

/-!
# Runs of the manager

Any calls in any order, with any answers of the operating system in between.  A failed
assertion ends the program, so a run goes on behind the calls that return.
-/

namespace Silhouette
namespace VmMgr

open Lib Lib.Text
open scoped List

section

variable {env : SSHEnv} {original : List Char} {files : List FileName} {limit : Int} {m m' : VMMgr}

/-! ## Creating a machine -/

theorem removeOld_ends (os : Os) (f : FileName) {e : Failure} (he : e.bookkeeping = false) :
    Ends (m.removeOld os f e) (fun m' => ∃ fs, m' = { m with files := fs } ∧ fs ⊆ m.files)
      fun e => e.bookkeeping = false := by
  refine Ends.ite (fun _ => ?_) fun _ => Ends.pure ⟨m.files, rfl, List.Subset.refl _⟩
  refine (check_ends he).bind fun _ _ => ?_
  refine (check_ends he).bind fun _ _ => ?_
  exact Ends.pure ⟨_, rfl, List.filter_subset_self _⟩

theorem createImage_ends (os : Os) (vm : VMInstance) :
    Ends (m.createImage os vm) (fun m' => ∃ fs, m' = { m with files := fs } ∧
        ∀ x ∈ fs, x ∈ m.files ∨ x ∈ vm.ownFiles)
      fun e => e.bookkeeping = false := by
  refine (check_ends rfl).bind fun _ _ => ?_
  refine (removeOld_ends os _ rfl).bind ?_
  rintro _ ⟨fs, rfl, hsub⟩
  refine (check_ends rfl).bind fun _ _ => ?_
  refine Ends.pure ⟨_, rfl, fun x hx => ?_⟩
  rcases List.mem_cons.mp hx with rfl | hx
  · exact Or.inr List.mem_cons_self
  · exact Or.inl (hsub hx)

theorem createPmFile_ends (os : Os) (vm : VMInstance) :
    Ends (m.createPmFile os vm) (fun m' => ∃ fs, m' = { m with files := fs } ∧
        ∀ x ∈ fs, x ∈ m.files ∨ x ∈ vm.ownFiles)
      fun e => e.bookkeeping = false := by
  refine Ends.ite (fun _ => Ends.pure ⟨m.files, rfl, fun x hx => Or.inl hx⟩) fun hdram => ?_
  refine (removeOld_ends os _ rfl).bind ?_
  rintro _ ⟨fs, rfl, hsub⟩
  refine (check_ends rfl).bind fun _ _ => ?_
  refine Ends.pure ⟨_, rfl, fun x hx => ?_⟩
  rcases List.mem_cons.mp hx with rfl | hx
  · refine Or.inr (List.mem_append_right _ ?_)
    rw [if_neg hdram]
    exact List.mem_singleton.mpr rfl
  · exact Or.inl (hsub hx)

/-- `VMInstance.init` makes no files but the machine's own. -/
theorem initInstance_ends (os : Nat → Os) (vm : VMInstance) :
    Ends (m.initInstance os vm) (fun m' => ∃ fs, m' = { m with files := fs } ∧
        ∀ x ∈ fs, x ∈ m.files ∨ x ∈ vm.ownFiles)
      fun e => e.bookkeeping = false := by
  refine (createImage_ends (os 0) vm).bind ?_
  rintro _ ⟨fs₁, rfl, h₁⟩
  refine Ends.bind (Q := fun m' => m' = ({ m with files := fs₁ } : VMMgr).addFile
    (getBackupImgFname vm.vmConfig.imgFile)) ?_ ?_
  · refine (check_ends rfl).bind fun _ _ => ?_
    exact Ends.pure rfl
  rintro _ rfl
  refine (createPmFile_ends (os 2) vm).imp ?_
  rintro _ ⟨fs, rfl, h⟩
  refine ⟨fs, rfl, fun x hx => ?_⟩
  rcases h x hx with hx | hx
  · rcases List.mem_cons.mp hx with rfl | hx
    · exact Or.inr (List.mem_cons_of_mem _ List.mem_cons_self)
    · exact h₁ x hx
  · exact Or.inr hx

theorem Inv.searchIfExceeded (h : Inv env original files limit m) (os : Os) :
    Ends (m.searchIfExceeded os) (Inv env original files limit) fun e => e.bookkeeping = false :=
  Ends.ite (fun _ => (h.searchDeadVm os).mono (fun _ hm => hm.1) fun _ he => he.elim)
    fun _ => Ends.pure h

theorem Inv.makeSpace (h : Inv env original files limit m) (os : Nat → Os) :
    Ends (m.makeSpace os) (fun m' => Inv env original files limit m' ∧
        m'.liveVmInstances <+ m.liveVmInstances) fun e => e.bookkeeping = false := by
  refine Ends.ite (fun _ => Ends.pure ⟨h, .refl _⟩) fun _ => ?_
  refine ((h.reclaimResource fun n => os (n + 1)).mono (fun _ hr => hr) fun _ he => he.1).bind ?_
  rintro ⟨done, m₂⟩ ⟨hinv, m₁, hs, hr⟩
  refine (check_ends rfl).bind
    fun _ hdone => Ends.pure ⟨hinv, ?_⟩
  rcases hr with ⟨heq, -⟩ | ⟨-, vm, hrec⟩
  · exact absurd ((congrArg Prod.fst heq).symm.trans hdone) Bool.false_ne_true
  · exact hrec.live ▸ hs.live

theorem Inv.allocSshConfig (hd : env.Distinct original) (h : Inv env original files limit m)
    (os : Os) : Ends (m.allocSshConfig env os) (fun r => ∃ pool,
        r.2 = { m with sshConfigPool := pool } ∧
        pool.Keeps env original (r.1 :: m.held.map (·.sshConfig)))
      fun e => e.bookkeeping = false := by
  obtain ⟨⟨conf, pool⟩, heq, hkeeps⟩ := h.pool.alloc hd os.portInUsing
  rw [VMMgr.allocSshConfig, heq]
  cases conf with
  | none => exact Ends.error rfl
  | some conf => exact Ends.pure ⟨pool, rfl, hkeeps conf rfl⟩

/-- Below the limit there is a free VNC number. -/
theorem Inv.newInstance (h : Inv env original files limit m)
    (hlive : (m.liveVmInstances.length : Int) < limit) (pool : SSHConfigPool)
    (timestamp : List Char) (vmFile pmFile : FileName) (father : VMConfig) (conf : SSHConfig) :
    Ends (({ m with sshConfigPool := pool } : VMMgr).newInstance timestamp vmFile pmFile father conf)
      (fun s => s.1.id = m.created ∧ s.1.sshConfig = conf ∧ ∃ rest,
        m.vncNumList = s.1.vmConfig.vncNum :: rest ∧
        s.2 = { m with sshConfigPool := pool, vncNumList := rest, created := m.created + 1 })
      fun e => e.bookkeeping = false := by
  have hlen := h.vnc.length_eq
  rw [length_vncNums, List.length_append, List.length_map] at hlen
  rw [VMMgr.newInstance]
  cases hvnc : m.vncNumList with
  | nil =>
    rw [hvnc, List.length_nil] at hlen
    omega
  | cons num rest => exact Ends.pure ⟨rfl, rfl, rest, rfl, rfl⟩

/-- `create_vm` -/
theorem Inv.createVm (hd : env.Distinct original) (h : Inv env original files limit m)
    (os : Nat → Os) (vmFileName pmFileName : Option FileName) (father : Option VMConfig) :
    Ends (m.createVm env os vmFileName pmFileName father)
      (fun r => Inv env original files limit r.2) fun e => e.bookkeeping = false := by
  refine (h.searchIfExceeded (os 0)).bind fun m₁ h₁ => ?_
  refine Ends.ite (fun _ => Ends.pure h₁) fun hfull => ?_
  refine (h₁.makeSpace fun n => os (n + 1)).bind fun m₂ ⟨h₂, hlive₂⟩ => ?_
  have hlive : (m₂.liveVmInstances.length : Int) < limit := by
    have hle := hlive₂.length_le
    rw [VMMgr.exceedRunLimit, decide_eq_true_eq, h₁.runLimit] at hfull
    omega
  refine Ends.bind (Q := fun _ => True) ?_ fun vmFile _ => ?_
  · cases vmFileName with
    | some name => exact Ends.pure trivial
    | none =>
      refine (check_ends rfl).bind
        fun _ _ => Ends.pure trivial
  refine (h₂.allocSshConfig hd (os 4)).bind ?_
  rintro ⟨conf, m₃⟩ ⟨pool, heq, hpool⟩
  obtain rfl : m₃ = { m₂ with sshConfigPool := pool } := heq
  refine (h₂.newInstance hlive pool _ _ _ _ _).bind ?_
  rintro ⟨vm, m₄⟩ ⟨hid, hconf, rest, hvnc, heq⟩
  replace hid : vm.id = m₂.created := hid
  obtain rfl : m₄ = { m₂ with
    sshConfigPool := pool, vncNumList := rest, created := m₂.created + 1 } := heq
  refine (initInstance_ends _ vm).bind ?_
  rintro _ ⟨fs, rfl, hfs⟩
  refine Ends.pure ?_
  have hheld : m₂.liveVmInstances ++ [vm] ++ m₂.deadVmInstances ~ vm :: m₂.held := by
    rw [List.append_assoc]
    exact List.perm_middle
  have hfleet : m₂.liveVmInstances ++ [vm] ++ m₂.deadVmInstances ++ m₂.reclaimedVmInstances ~
      vm :: m₂.fleet := hheld.append_right _
  refine ⟨h₂.runLimit, ?_, ?_, fun x hx => ?_, ?_, fun f hf => ?_⟩
  · show rest ++ (m₂.liveVmInstances ++ [vm]).map _ ~ _
    refine List.Perm.trans ?_ h₂.vnc
    rw [hvnc, List.map_append, ← List.append_assoc, List.cons_append]
    exact List.perm_append_singleton _ _
  · refine (hfleet.map _).nodup_iff.mpr ?_
    rw [List.map_cons, List.nodup_cons]
    refine ⟨fun hmem => ?_, h₂.ids⟩
    obtain ⟨x, hx, hxid⟩ := List.mem_map.mp hmem
    exact absurd (h₂.fresh x hx) (by omega)
  · show x.id < m₂.created + 1
    rcases List.mem_cons.mp (hfleet.mem_iff.mp hx) with rfl | hx
    · omega
    · exact (h₂.fresh x hx).trans (Nat.lt_succ_self _)
  · refine hpool.perm ?_
    rw [← hconf]
    exact (hheld.map _).symm
  · rcases hfs f hf with hf | hf
    · refine (h₂.files f hf).imp_right fun ⟨x, hx, hfx⟩ => ⟨x, ?_, hfx⟩
      exact hheld.mem_iff.mpr (List.mem_cons_of_mem _ hx)
    · exact Or.inr ⟨vm, hheld.mem_iff.mpr List.mem_cons_self, hf⟩

/-! ## Cleaning up -/

/-- `destory` reclaims every machine when the system lets it kill and remove. -/
theorem Inv.destory (hlimit : 0 < limit) (h : Inv env original files limit m) (os : Nat → Os) :
    Ends (m.destory os) (fun m' => Inv env original files limit m' ∧ m'.liveVmInstances = [] ∧
        m'.deadVmInstances = [] ∧ m'.reclaimedVmInstances ~ m.fleet)
      fun e => e.bookkeeping = false ∧ ¬ ((os 1).Kills ∧ ∀ n, (os (n + 2)).Clears) := by
  refine ((h.killAllVm hlimit os).mono (fun _ hm => hm) fun e he => ?_).bind ?_
  · exact ⟨he.1, fun hos => he.2 hos.1⟩
  rintro m₁ ⟨h₁, hlive₁, hheld₁, hreclaimed₁⟩
  refine (h₁.destoryAllLoop _ (fun n => os (n + 2)) (List.length_append).le).mono ?_ ?_
  · rintro m₂ ⟨h₂, hdead₂, hfleet₂, hlive₂⟩
    have hnil : m₂.liveVmInstances = [] := List.sublist_nil.mp (hlive₁ ▸ hlive₂)
    refine ⟨h₂, hnil, hdead₂, ?_⟩
    rw [VMMgr.fleet, VMMgr.held, hnil, hdead₂, VMMgr.fleet, hreclaimed₁] at hfleet₂
    exact hfleet₂.trans (hheld₁.append_right _)
  · rintro e ⟨he, n, hn⟩
    exact ⟨he, fun hos => hn (hos.2 n)⟩

/-- Without live and dead machines there is nothing to reclaim. -/
theorem reclaimResource_nil (hlive : m.liveVmInstances = []) (hdead : m.deadVmInstances = [])
    (os : Nat → Os) : m.reclaimResource os none = .ok (false, m) := by
  have hsearch : m.searchDeadVm (os 0) = .ok m := by
    rw [VMMgr.searchDeadVm, hlive, List.foldlM_nil]
    show Except.ok { m with liveVmInstances := [] } = _
    rw [← hlive]
  simp only [VMMgr.reclaimResource, hsearch, bind, Except.bind, hdead]
  rfl

theorem Inv.clearVm (hlimit : 0 < limit) (h : Inv env original files limit m) (os atEnd : Nat → Os)
    (copyFile removeFile : Bool) :
    Ends (m.clearVm env os atEnd copyFile removeFile) (fun r => r.1 = true ∧ r.2.held = [] ∧
        r.2.reclaimedVmInstances ~ m.fleet ∧ r.2.vncNumList ~ vncNums limit ∧
        r.2.files ⊆ files ∧ r.2.sshConfigPool.configFile = original ∧
        (removeFile = true → r.2.sshConfigPool.backupFile = none))
      fun _ => ¬ ((os 1).Kills ∧ (∀ n, (os (n + 2)).Clears) ∧ copyFile = true) := by
  refine ((h.destory hlimit os).mono (fun _ hm => hm) fun e he hos => he.2 ⟨hos.1, hos.2.1⟩).bind ?_
  rintro m₁ ⟨h₁, hlive, hdead, hfleet⟩
  have hheld : m₁.held = [] := by rw [VMMgr.held, hlive, hdead, List.append_nil]
  rw [reclaimResource_nil hlive hdead]
  have hpool := h₁.pool
  rw [hheld, List.map_nil] at hpool
  obtain ⟨q, hq, hfile, hbackup⟩ := hpool.destory copyFile removeFile
  simp only [bind, Except.bind, hq]
  cases copyFile with
  | false => exact Ends.error fun hos => absurd hos.2.2 Bool.false_ne_true
  | true =>
    have hvnc := h₁.vnc
    rw [hlive, List.map_nil, List.append_nil] at hvnc
    refine Ends.pure ⟨rfl, hheld, hfleet, hvnc, fun f hf => ?_, hfile, hbackup⟩
    refine (h₁.files f hf).resolve_right ?_
    rintro ⟨vm, hvm, -⟩
    exact absurd (hheld ▸ hvm) List.not_mem_nil

/-! ## The calls of a host -/

inductive Call
  | createVm (os : Nat → Os) (vmFileName pmFileName : Option FileName)
      (fatherConfig : Option VMConfig)
  | start (id : Nat)
  | searchDeadVm (os : Os)
  | reclaimResource (os : Nat → Os) (vm : Option VMInstance)
  | killAllVm (os : Nat → Os)
  | destoryAllVm (os : Nat → Os)

def VMMgr.call (env : SSHEnv) (m : VMMgr) : Call → Except Failure VMMgr
  | .createVm os vmFileName pmFileName fatherConfig => do
    let r ← m.createVm env os vmFileName pmFileName fatherConfig
    pure r.2
  | .start id => pure (m.start id)
  | .searchDeadVm os => m.searchDeadVm os
  | .reclaimResource os vm => do
    let r ← m.reclaimResource os vm
    pure r.2
  | .killAllVm os => m.killAllVm os
  | .destoryAllVm os => m.destoryAllVm os

/-- A machine that is to be reclaimed has been made by the manager. -/
def Call.sound (m : VMMgr) : Call → Bool
  | .reclaimResource _ (some vm) => decide (vm ∈ m.fleet)
  | _ => true

/-- Every call keeps the invariant or fails for an outer reason. -/
theorem Inv.call (hd : env.Distinct original) (hlimit : 0 < limit)
    (h : Inv env original files limit m) {c : Call} (hc : c.sound m = true) :
    Ends (m.call env c) (Inv env original files limit) fun e => e.bookkeeping = false := by
  cases c with
  | createVm os vmFileName pmFileName father =>
    exact (h.createVm hd os vmFileName pmFileName father).bind fun r hr => Ends.pure hr
  | start id => exact Ends.pure (h.rearrange rfl (.refl _) (.refl _) rfl rfl rfl rfl)
  | searchDeadVm os => exact (h.searchDeadVm os).mono (fun _ hm => hm.1) fun _ he => he.elim
  | reclaimResource os vm =>
    cases vm with
    | none =>
      refine ((h.reclaimResource os).mono (fun _ hr => hr) fun _ he => he.1).bind ?_
      exact fun r hr => Ends.pure hr.1
    | some vm =>
      refine Ends.bind (Q := fun r => Inv env original files limit r.2) ?_ fun r hr => Ends.pure hr
      by_cases hdead : vm ∈ m.deadVmInstances
      · refine ((h.reclaim hdead (os 1)).mono (fun _ hr => hr) fun _ he => he.1).bind ?_
        exact fun _ hr => Ends.pure hr.1
      · have hfleet : vm ∈ m.fleet := of_decide_eq_true hc
        exact (reclaim_ends_of_notMem h.ids hfleet hdead (os 1)).bind fun _ hr => hr.elim
  | killAllVm os => exact (h.killAllVm hlimit os).mono (fun _ hm => hm.1) fun _ he => he.1
  | destoryAllVm os =>
    refine (h.destoryAllLoop _ os ?_).mono (fun _ hm => hm.1) fun _ he => he.1
    exact (List.length_append).le

end

/-- A host: its processors, what it is configured with, and the files it starts from. -/
structure HostSetup where
  env : SSHEnv
  limit : Int
  cpuCount : Nat
  base : VMConfig
  sshFile : Option (List Char)
  files : List FileName
  cpuCount_pos : 0 < cpuCount
  distinct : env.Distinct (sshFile.getD [])

namespace HostSetup

variable (s : HostSetup)

/-- What the SSH configuration file of the user says before the manager is made. -/
def original : List Char := s.sshFile.getD []

def runLimit : Int := runLimitOf s.limit s.cpuCount

/-- The runs of a manager on the host. -/
def machine : Machine VMMgr Call where
  init := VMMgr.init s.limit s.cpuCount s.base (SSHConfigPool.init s.sshFile) s.files
  step m c := (m.call s.env c).toOption

/-- The states of the manager. -/
abbrev Reachable (m : VMMgr) : Prop := s.machine.Reachable (fun m c => c.sound m = true) m

theorem runLimit_pos : 0 < s.runLimit := by
  have hcpu := s.cpuCount_pos
  simp only [runLimit, runLimitOf]
  split_ifs <;> omega

theorem inv_init : Inv s.env s.original s.files s.runLimit s.machine.init where
  runLimit := rfl
  vnc := by
    show vncNums _ ++ [] ~ _
    rw [List.append_nil]
    rfl
  ids := List.nodup_nil
  fresh _ hvm := absurd hvm List.not_mem_nil
  pool := SSHConfigPool.keeps_init s.sshFile
  files _ hf := Or.inl hf

variable {s} {m : VMMgr}

theorem Reachable.inv (h : s.Reachable m) : Inv s.env s.original s.files s.runLimit m := by
  refine Machine.Reachable.invariant (p := Inv s.env s.original s.files s.runLimit) s.inv_init ?_ h
  intro m c m' hinv hc hstep
  have hcall : m.call s.env c = .ok m' := by
    cases hres : m.call s.env c with
    | ok a => exact congrArg _ (Option.some.inj ((congrArg Except.toOption hres).symm.trans hstep))
    | error e =>
      have hnone : none = some m' := (congrArg Except.toOption hres).symm.trans hstep
      exact absurd hnone (by simp)
  exact (hinv.call s.distinct s.runLimit_pos hc).of_ok hcall

/-- In every run the numbers and the configurations are shared out: no two machines have one
in common, none is lost, and the file of the user has the entries that were made behind
what it said. -/
theorem resources_shared_out (h : s.Reachable m) :
    m.vncNumList ++ m.liveVmInstances.map (·.vmConfig.vncNum) ~ vncNums s.runLimit ∧
    (m.liveVmInstances.length : Int) ≤ s.runLimit ∧
    ∃ ports : List Nat, ports.Pairwise (· < ·) ∧
      (∀ port ∈ ports, firstPortNum ≤ port ∧ port ≤ lastPortNum) ∧
      m.held.map (·.sshConfig) ++ m.sshConfigPool.freePool ~ ports.map s.env.confOf ∧
      m.sshConfigPool.configFile = s.env.fileWith s.original ports := by
  have hinv := h.inv
  have hlen := hinv.vnc.length_eq
  rw [length_vncNums, List.length_append, List.length_map] at hlen
  have hpos := s.runLimit_pos
  obtain ⟨ports, hsorted, hports, hmade, hfile⟩ := hinv.pool.made
  exact ⟨hinv.vnc, by omega, ports, hsorted, fun q hq => ⟨(hports q hq).1, (hports q hq).2.2⟩,
    hmade, hfile⟩

/-- No call of a run ends in an assertion about the lists of the manager. -/
theorem bookkeeping_never_fails (h : s.Reachable m) {c : Call} (hc : c.sound m = true)
    {e : Failure} (he : m.call s.env c = .error e) : e.bookkeeping = false :=
  (h.inv.call s.distinct s.runLimit_pos hc).of_error he

/-- Cleaning up behind any run gives everything back: the files, the numbers and the user's
configuration file.  It goes through when processes can be killed and files removed. -/
theorem clear_vm_restores (h : s.Reachable m) (os atEnd : Nat → Os) (copyFile removeFile : Bool) :
    (∀ r, m.clearVm s.env os atEnd copyFile removeFile = .ok r →
      r.1 = true ∧ r.2.held = [] ∧ r.2.reclaimedVmInstances ~ m.fleet ∧
      r.2.vncNumList ~ vncNums s.runLimit ∧ r.2.files ⊆ s.files ∧
      r.2.sshConfigPool.configFile = s.original ∧
      (removeFile = true → r.2.sshConfigPool.backupFile = none)) ∧
    ((os 1).Kills → (∀ n, (os (n + 2)).Clears) → copyFile = true →
      ∃ r, m.clearVm s.env os atEnd copyFile removeFile = .ok r) := by
  have hclear := h.inv.clearVm s.runLimit_pos os atEnd copyFile removeFile
  refine ⟨fun r hr => hclear.of_ok hr, fun hkills hclears hcopy => ?_⟩
  cases hres : m.clearVm s.env os atEnd copyFile removeFile with
  | ok r => exact ⟨r, rfl⟩
  | error e => exact absurd ⟨hkills, hclears, hcopy⟩ (hclear.of_error hres)

end HostSetup

/-! ## A host with two machines at a time -/

/-- Everything works; the processes of the given images run. -/
def calm (running : List FileName) (timestamp : Nat) : Os where
  isProcessRunning f := decide (f ∈ running)
  killProcess _ := true
  removeFile _ := true
  copyFile := true
  createFile := true
  qemuImgCreate := true
  portInUsing port := decide (port = 8001)
  freeSpaceGiB _ := 100
  timestamp := timestamp

def smallEnv : SSHEnv := ⟨4, lit "localhost", lit "user", lit "key", lit "guest", lit "1"⟩

theorem smallEnv_distinct : smallEnv.Distinct (lit "Host other") :=
  ⟨by decide, by decide, by decide, by decide, by decide, by decide, by decide⟩

def smallHost : HostSetup where
  env := smallEnv
  limit := 2
  cpuCount := 8
  base := ⟨[], 4, 8, lit "pm", 64, lit "a.qcow2", -1, -1, false⟩
  sshFile := some (lit "Host other")
  files := [lit "a.qcow2"]
  cpuCount_pos := Nat.succ_pos 7
  distinct := smallEnv_distinct

/-- Two machines run.  The process of the first ends, a third machine takes its number, and
when the first is reclaimed and the second has ended a fourth gets its configuration. -/
def smallCalls : List Call :=
  [.createVm (fun _ => calm [] 1) none none none, .start 0,
    .createVm (fun _ => calm [lit "a.1.qcow2"] 2) none none none, .start 1,
    .createVm (fun _ => calm [lit "a.2.qcow2"] 3) none none none,
    .reclaimResource (fun _ => calm [lit "a.2.qcow2"] 4) none,
    .createVm (fun _ => calm [] 5) none none none]

def smallFleet : VMMgr :=
  (smallHost.machine.play (fun m c => c.sound m) smallHost.machine.init smallCalls).get
    (by decide +kernel)

theorem smallFleet_reachable : smallHost.Reachable smallFleet :=
  Machine.reachable_of_play (fun _ _ h => h) (Option.some_get _).symm

theorem resources_shared_out_small :
    smallFleet.liveVmInstances.map (·.sshConfig.port) = [8003, 8000] ∧
    smallFleet.vncNumList ++ smallFleet.liveVmInstances.map (·.vmConfig.vncNum) ~ [10, 11] := by
  refine ⟨by decide +kernel, ?_⟩
  exact (HostSetup.resources_shared_out smallFleet_reachable).1

/-- A file of the dead machine that cannot be removed. -/
theorem bookkeeping_never_fails_small : ∃ e, smallFleet.call smallHost.env
    (.reclaimResource (fun _ => { calm [] 6 with removeFile := fun _ => false }) none) = .error e ∧
      e.bookkeeping = false := by
  cases hres : smallFleet.call smallHost.env
    (.reclaimResource (fun _ => { calm [] 6 with removeFile := fun _ => false }) none) with
  | ok m =>
    have hnone : (smallFleet.call smallHost.env (.reclaimResource
      (fun _ => { calm [] 6 with removeFile := fun _ => false }) none)).toOption.isNone = true := by
      decide +kernel
    rw [hres] at hnone
    exact absurd hnone Bool.false_ne_true
  | error e => exact ⟨e, rfl, HostSetup.bookkeeping_never_fails smallFleet_reachable rfl hres⟩

theorem clear_vm_restores_small : ∃ r, smallFleet.clearVm smallHost.env (fun _ => calm [] 6)
    (fun _ => calm [] 7) true true = .ok r ∧ r.2.files ⊆ [lit "a.qcow2"] ∧
      r.2.sshConfigPool.configFile = lit "Host other" := by
  obtain ⟨hpost, hret⟩ := HostSetup.clear_vm_restores smallFleet_reachable (fun _ => calm [] 6)
    (fun _ => calm [] 7) true true
  obtain ⟨r, hr⟩ := hret (fun _ _ => rfl) (fun _ => ⟨fun _ => rfl, fun _ => rfl⟩) rfl
  obtain ⟨-, -, -, -, hfiles, hfile, -⟩ := hpost r hr
  exact ⟨r, hr, hfiles, hfile⟩

end VmMgr
end Silhouette
