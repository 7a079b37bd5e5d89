import Mathlib.Data.List.Nodup
import Silhouette.VmMgr.VmMgr

/-!
# The machines of a manager in every run

`Inv` follows the machines that hold something: the VNC numbers are shared out among the
list and the live machines, the SSH configurations among the pool and the machines that
are not reclaimed, and every file that is left belongs to one of these.
-/

namespace Silhouette
namespace VmMgr

open Lib Lib.Text
open scoped List

/-- The files that `VMInstance.init` makes. -/
def VMInstance.ownFiles (vm : VMInstance) : List FileName :=
  [vm.vmConfig.imgFile, getBackupImgFname vm.vmConfig.imgFile] ++
    if vm.vmConfig.dramEmulatePm then [] else [vm.vmConfig.pmFile]

/-- The machines that have not been reclaimed. -/
def VMMgr.held (m : VMMgr) : List VMInstance := m.liveVmInstances ++ m.deadVmInstances

def VMMgr.fleet (m : VMMgr) : List VMInstance := m.held ++ m.reclaimedVmInstances

structure Inv (env : SSHEnv) (original : List Char) (files : List FileName) (limit : Int)
    (m : VMMgr) : Prop where
  runLimit : m.runLimit = limit
  vnc : m.vncNumList ++ m.liveVmInstances.map (·.vmConfig.vncNum) ~ vncNums limit
  ids : (m.fleet.map (·.id)).Nodup
  fresh : ∀ vm ∈ m.fleet, vm.id < m.created
  pool : m.sshConfigPool.Keeps env original (m.held.map (·.sshConfig))
  files : ∀ f ∈ m.files, f ∈ files ∨ ∃ vm ∈ m.held, f ∈ vm.ownFiles

section

variable {env : SSHEnv} {original : List Char} {files : List FileName} {limit : Int} {m m' : VMMgr}

theorem nodup_vncNums (limit : Int) : (vncNums limit).Nodup :=
  List.Nodup.map (fun a b h => by simpa using h) List.nodup_range

theorem length_vncNums (limit : Int) : (vncNums limit).length = limit.toNat := by
  rw [vncNums, List.length_map, List.length_range]

/-- The invariant does not depend on the order of the lists. -/
theorem Inv.rearrange (h : Inv env original files limit m) (hlimit : m'.runLimit = m.runLimit)
    (hvnc : m'.vncNumList ++ m'.liveVmInstances.map (·.vmConfig.vncNum) ~
      m.vncNumList ++ m.liveVmInstances.map (·.vmConfig.vncNum))
    (hheld : m'.held ~ m.held) (hreclaimed : m'.reclaimedVmInstances = m.reclaimedVmInstances)
    (hcreated : m'.created = m.created) (hpool : m'.sshConfigPool = m.sshConfigPool)
    (hfiles : m'.files = m.files) : Inv env original files limit m' := by
  have hfleet : m'.fleet ~ m.fleet := by
    rw [VMMgr.fleet, VMMgr.fleet, hreclaimed]
    exact hheld.append_right _
  refine ⟨hlimit.trans h.runLimit, hvnc.trans h.vnc, ?_, ?_, ?_, ?_⟩
  · exact (hfleet.map _).nodup_iff.mpr h.ids
  · intro vm hvm
    rw [hcreated]
    exact h.fresh vm (hfleet.mem_iff.mp hvm)
  · rw [hpool]
    exact h.pool.perm (hheld.map _).symm
  · intro f hf
    rw [hfiles] at hf
    refine (h.files f hf).imp_right fun ⟨vm, hvm, hown⟩ => ?_
    exact ⟨vm, hheld.mem_iff.mpr hvm, hown⟩

theorem perm_bury {α : Type} (keep rest dead : List α) (a : α) :
    keep ++ rest ++ (dead ++ [a]) ~ keep ++ a :: rest ++ dead := by
  have hright : keep ++ a :: rest ++ dead ~ a :: (keep ++ rest ++ dead) := by
    rw [List.append_assoc, List.cons_append, List.append_assoc]
    exact List.perm_middle
  rw [← List.append_assoc]
  exact (List.perm_append_singleton _ _).trans hright.symm

/-- A machine becomes a dead one, and its number was not in the list. -/
theorem Inv.bury {keep rest : List VMInstance} {vm : VMInstance}
    (h : Inv env original files limit { m with liveVmInstances := keep ++ vm :: rest }) :
    Ends (m.bury vm) (fun m' => m' = { m with
        deadVmInstances := m.deadVmInstances ++ [vm]
        vncNumList := m.vncNumList ++ [vm.vmConfig.vncNum] } ∧
      Inv env original files limit { m' with liveVmInstances := keep ++ rest }) fun _ => False := by
  have hnodup : (m.vncNumList ++ [vm.vmConfig.vncNum]).Nodup := by
    refine List.Nodup.sublist ?_ (h.vnc.nodup_iff.mpr (nodup_vncNums limit))
    refine List.Sublist.append_left ?_ _
    rw [List.map_append, List.map_cons]
    exact (List.singleton_sublist.mpr List.mem_cons_self).trans (List.sublist_append_right _ _)
  refine (Ends.check fun hc => absurd hnodup (of_decide_eq_false hc)).bind fun _ _ => ?_
  refine Ends.pure ⟨rfl, h.rearrange rfl ?_ ?_ rfl rfl rfl rfl⟩
  · show (m.vncNumList ++ [vm.vmConfig.vncNum]) ++ (keep ++ rest).map _ ~
      m.vncNumList ++ (keep ++ vm :: rest).map _
    rw [List.append_assoc, List.map_append, List.map_append, List.map_cons, List.singleton_append]
    exact List.perm_middle.symm.append_left _
  · show keep ++ rest ++ (m.deadVmInstances ++ [vm]) ~ keep ++ vm :: rest ++ m.deadVmInstances
    exact perm_bury _ _ _ _

/-- What a search does with the machines. -/
structure Searched (m m' : VMMgr) : Prop where
  held : m'.held ~ m.held
  reclaimed : m'.reclaimedVmInstances = m.reclaimedVmInstances
  live : m'.liveVmInstances <+ m.liveVmInstances
  dead : m.deadVmInstances <+: m'.deadVmInstances

theorem Inv.searchDeadVm (h : Inv env original files limit m) (os : Os) :
    Ends (m.searchDeadVm os) (fun m' => Inv env original files limit m' ∧ Searched m m')
      fun _ => False := by
  refine Ends.bind (Q := fun r : VMMgr × List VMInstance =>
    Inv env original files limit { r.1 with liveVmInstances := r.2 ++ [] } ∧
      Searched m { r.1 with liveVmInstances := r.2 ++ [] }) ?_ fun r hr => ?_
  · refine Ends.foldlM (I := fun rest (r : VMMgr × List VMInstance) =>
      Inv env original files limit { r.1 with liveVmInstances := r.2 ++ rest } ∧
        Searched m { r.1 with liveVmInstances := r.2 ++ rest }) ?_
      ⟨h, .refl _, rfl, List.Sublist.refl _, List.prefix_rfl⟩
    rintro vm rest ⟨m₁, keep⟩ ⟨hinv, hs⟩
    refine Ends.ite (fun _ => ?_) fun _ => ?_
    · refine hinv.bury.bind fun m₂ ⟨heq, hinv₂⟩ => Ends.pure ⟨hinv₂, ?_⟩
      subst heq
      refine ⟨List.Perm.trans ?_ hs.held, hs.reclaimed, ?_, hs.dead.trans (List.prefix_append _ _)⟩
      · show keep ++ rest ++ (m₁.deadVmInstances ++ [vm]) ~ keep ++ vm :: rest ++ m₁.deadVmInstances
        exact perm_bury _ _ _ _
      · exact ((List.sublist_cons_self _ _).append_left _).trans hs.live
    · refine Ends.pure ?_
      simp only [List.append_assoc, List.singleton_append]
      exact ⟨hinv, hs⟩
  · rw [List.append_nil] at hr
    exact Ends.pure hr

theorem check_ends {test : Bool} {e : Failure} (he : e.bookkeeping = false) :
    Ends (check test e) (fun _ => test = true) fun e => e.bookkeeping = false :=
  Ends.check fun _ => he

/-! ## Ending -/

/-- Every process of a virtual machine that runs can be killed. -/
def Os.Kills (os : Os) : Prop :=
  ∀ f, os.isProcessRunning f = true → os.killProcess f = true

/-- No process of a virtual machine runs, and files can be removed. -/
def Os.Clears (os : Os) : Prop :=
  (∀ f, os.isProcessRunning f = false) ∧ ∀ f, os.removeFile f = true

theorem Inv.killAllVm (h : Inv env original files limit m) (hlimit : 0 < limit) (os : Nat → Os) :
    Ends (m.killAllVm os) (fun m' => Inv env original files limit m' ∧
        m'.liveVmInstances = [] ∧ m'.held ~ m.held ∧
        m'.reclaimedVmInstances = m.reclaimedVmInstances)
      fun e => e.bookkeeping = false ∧ ¬ (os 1).Kills := by
  refine Ends.bind (Q := fun m₁ : VMMgr =>
    Inv env original files limit { m₁ with liveVmInstances := [] ++ [] } ∧
      { m₁ with liveVmInstances := [] ++ [] }.held ~ m.held ∧
      m₁.reclaimedVmInstances = m.reclaimedVmInstances) ?_ fun m₁ hm₁ => ?_
  · refine Ends.foldlM (I := fun rest (m₁ : VMMgr) =>
      Inv env original files limit { m₁ with liveVmInstances := [] ++ rest } ∧
        { m₁ with liveVmInstances := [] ++ rest }.held ~ m.held ∧
        m₁.reclaimedVmInstances = m.reclaimedVmInstances) ?_ ⟨h, .refl _, rfl⟩
    rintro vm rest m₁ ⟨hinv, hheld, hreclaimed⟩
    refine (Ends.check fun hc => ⟨rfl, fun hkill => ?_⟩).bind fun _ _ => ?_
    · refine (hinv.bury.mono ?_ fun e he => he.elim)
      rintro m₂ ⟨heq, hinv₂⟩
      subst heq
      exact ⟨hinv₂, (perm_bury [] rest m₁.deadVmInstances vm).trans hheld, hreclaimed⟩
    · simp only [Bool.or_eq_false_iff, VMMgr.kill, VMMgr.isRunning, Bool.not_eq_false',
        Bool.and_eq_true] at hc
      rw [hkill _ hc.2.1.2] at hc
      exact absurd hc.2.2 (by decide)
  · obtain ⟨hinv, hheld, hreclaimed⟩ := hm₁
    have hlen : (m₁.vncNumList.length : Int) = m₁.runLimit := by
      have hperm := hinv.vnc.length_eq
      rw [length_vncNums] at hperm
      have hrun := hinv.runLimit
      simp only [List.append_nil, List.map_nil] at hperm hrun
      omega
    refine (Ends.check fun hc => absurd hlen (of_decide_eq_false hc)).bind fun _ _ => ?_
    exact Ends.pure ⟨hinv, rfl, hheld, hreclaimed⟩

theorem removeIfExists_ends (os : Os) (f : FileName) :
    Ends (m.removeIfExists os f) (fun m' => ∃ fs, m' = { m with files := fs } ∧
        ∀ x ∈ fs, x ∈ m.files ∧ x ≠ f)
      fun e => e = .removeFailed ∧ ¬ os.Clears := by
  refine Ends.ite (fun _ => ?_) fun hex => ?_
  · refine (Ends.check fun hc => ⟨rfl, fun hcl => ?_⟩).bind fun _ _ => Ends.pure ⟨_, rfl, ?_⟩
    · intro x hx
      exact ⟨(List.mem_filter.mp hx).1, of_decide_eq_true (List.mem_filter.mp hx).2⟩
    · rw [hcl.2] at hc
      exact absurd hc (by decide)
  · refine Ends.pure ⟨m.files, rfl, fun x hx => ⟨hx, ?_⟩⟩
    rintro rfl
    exact hex (decide_eq_true hx)

theorem removePmFile_ends (os : Os) (vm : VMInstance) :
    Ends (m.removePmFile os vm) (fun m' => ∃ fs, m' = { m with files := fs } ∧
        ∀ x ∈ fs, x ∈ m.files ∧ (vm.vmConfig.dramEmulatePm = false → x ≠ vm.vmConfig.pmFile))
      fun e => e = .removeFailed ∧ ¬ os.Clears := by
  refine Ends.ite (fun hdram => ?_) fun _ => ?_
  · refine Ends.pure ⟨m.files, rfl, fun x hx => ⟨hx, fun h => ?_⟩⟩
    exact absurd (hdram.symm.trans h) (by decide)
  · refine (removeIfExists_ends os _).imp ?_
    rintro _ ⟨fs, rfl, h⟩
    exact ⟨fs, rfl, fun x hx => ⟨(h x hx).1, fun _ => (h x hx).2⟩⟩

/-- `destory_resource` leaves none of the files of the machine. -/
theorem destoryResource_ends (os : Os) (vm : VMInstance) :
    Ends (m.destoryResource os vm) (fun r => ∃ fs, r.2 = { m with files := fs } ∧
        (∀ x ∈ fs, x ∈ m.files) ∧ (r.1 = true → ∀ x ∈ fs, x ∉ vm.ownFiles) ∧
        (r.1 = false → ¬ os.Clears))
      fun e => e = .removeFailed ∧ ¬ os.Clears := by
  refine Ends.ite (fun hrun => ?_) fun _ => ?_
  · refine Ends.pure ⟨m.files, rfl, fun x hx => hx, Bool.noConfusion, fun _ hcl => ?_⟩
    rw [VMMgr.isRunning, hcl.1, Bool.and_false] at hrun
    exact absurd hrun (by decide)
  · refine (removeIfExists_ends os _).bind fun m₁ hm₁ => ?_
    obtain ⟨fs₁, rfl, h₁⟩ := hm₁
    refine (removeIfExists_ends os _).bind fun m₂ hm₂ => ?_
    obtain ⟨fs₂, rfl, h₂⟩ := hm₂
    refine (removePmFile_ends os vm).bind fun m₃ hm₃ => ?_
    obtain ⟨fs, rfl, h₃⟩ := hm₃
    refine Ends.pure ⟨fs, rfl, fun x hx => (h₁ x (h₂ x (h₃ x hx).1).1).1, fun _ x hx => ?_,
      Bool.noConfusion⟩
    have hfs₂ := (h₃ x hx).1
    have hpm := (h₃ x hx).2
    have himg := (h₁ x (h₂ x hfs₂).1).2
    have hbak := (h₂ x hfs₂).2
    cases hdram : vm.vmConfig.dramEmulatePm with
    | true => simp [VMInstance.ownFiles, hdram, himg, hbak]
    | false => simp [VMInstance.ownFiles, hdram, himg, hbak, hpm hdram]

theorem eq_of_id_eq {l : List VMInstance} (h : (l.map (·.id)).Nodup) {a b : VMInstance} (ha : a ∈ l)
    (hb : b ∈ l) (hab : a.id = b.id) : a = b :=
  List.inj_on_of_nodup_map h ha hb hab

/-- Removing a machine of a list by its number. -/
theorem eraseP_perm {l : List VMInstance} (h : (l.map (·.id)).Nodup) {vm : VMInstance}
    (hvm : vm ∈ l) : l ~ vm :: l.eraseP (·.id = vm.id) := by
  obtain ⟨a, l₁, l₂, -, ha, hl, herase⟩ :=
    List.exists_of_eraseP (p := fun x => decide (x.id = vm.id)) hvm (decide_eq_true rfl)
  have hmem : a ∈ l := hl ▸ List.mem_append_right _ List.mem_cons_self
  obtain rfl := eq_of_id_eq h hmem hvm (of_decide_eq_true ha)
  rw [herase, hl]
  exact List.perm_middle

/-- What reclaiming a machine does. -/
structure Reclaimed (vm : VMInstance) (m m' : VMMgr) : Prop where
  held : m.held ~ vm :: m'.held
  reclaimed : m'.reclaimedVmInstances = m.reclaimedVmInstances ++ [vm]
  live : m'.liveVmInstances = m.liveVmInstances

/-- A dead machine gives its configuration and its files back. -/
theorem Inv.reclaim (h : Inv env original files limit m) {vm : VMInstance}
    (hvm : vm ∈ m.deadVmInstances) (os : Os) :
    Ends (m.reclaim os vm) (fun m' => Inv env original files limit m' ∧ Reclaimed vm m m')
      fun e => e.bookkeeping = false ∧ ¬ os.Clears := by
  have hids : (m.deadVmInstances.map (·.id)).Nodup := by
    have hnd := h.ids
    rw [VMMgr.fleet, VMMgr.held, List.map_append, List.map_append] at hnd
    exact (List.nodup_append.mp (List.nodup_append.mp hnd).1).2.1
  have hany : m.deadVmInstances.any (·.id = vm.id) = true :=
    List.any_eq_true.mpr ⟨vm, hvm, decide_eq_true rfl⟩
  have hheld : m.held ~ vm :: (m.liveVmInstances ++ m.deadVmInstances.eraseP (·.id = vm.id)) :=
    ((eraseP_perm hids hvm).append_left _).trans List.perm_middle
  refine ((destoryResource_ends os vm).mono (fun _ hr => hr) ?_).bind ?_
  · rintro e ⟨rfl, hcl⟩
    exact ⟨rfl, hcl⟩
  rintro ⟨done, m₁⟩ ⟨fs, heq, hsub, hown, hfalse⟩
  obtain rfl : m₁ = { m with files := fs } := heq
  refine (Ends.check fun hc => ⟨rfl, hfalse hc⟩).bind fun _ hdone => ?_
  refine (Ends.check fun hc => ?_).bind fun _ _ => Ends.pure ⟨?_, hheld, rfl, rfl⟩
  · exact absurd hany (by simpa using hc)
  · have hfleet : m.fleet ~ m.liveVmInstances ++ m.deadVmInstances.eraseP (·.id = vm.id) ++
        (m.reclaimedVmInstances ++ [vm]) := by
      rw [← List.append_assoc]
      exact (hheld.append_right _).trans (List.perm_append_singleton _ _).symm
    refine ⟨h.runLimit, h.vnc, (hfleet.map _).nodup_iff.mp h.ids, fun x hx => ?_,
      (h.pool.perm (hheld.map _)).dealloc, fun f hf => ?_⟩
    · exact h.fresh x (hfleet.mem_iff.mpr hx)
    · refine (h.files f (hsub f hf)).imp_right fun ⟨x, hx, hfx⟩ => ⟨x, ?_, hfx⟩
      rcases List.mem_cons.mp (hheld.mem_iff.mp hx) with rfl | hx
      · exact absurd hfx (hown hdone f hf)
      · exact hx

/-- Other machines cannot be reclaimed. -/
theorem reclaim_ends_of_notMem {vm : VMInstance} (hids : (m.fleet.map (·.id)).Nodup)
    (hfleet : vm ∈ m.fleet) (hvm : vm ∉ m.deadVmInstances) (os : Os) :
    Ends (m.reclaim os vm) (fun _ => False) fun e => e.bookkeeping = false := by
  have hany : m.deadVmInstances.any (·.id = vm.id) = false := by
    rw [List.any_eq_false]
    intro x hx hid
    have hmem : x ∈ m.fleet := List.mem_append_left _ (List.mem_append_right _ hx)
    obtain rfl := eq_of_id_eq hids hmem hfleet (of_decide_eq_true hid)
    exact hvm hx
  refine ((destoryResource_ends os vm).mono (fun _ hr => hr) ?_).bind ?_
  · rintro e ⟨rfl, -⟩
    rfl
  rintro ⟨done, m₁⟩ ⟨fs, heq, -⟩
  obtain rfl : m₁ = { m with files := fs } := heq
  refine (check_ends rfl).bind fun _ _ => ?_
  refine (check_ends rfl).bind fun _ hc => ?_
  exact absurd (hany.symm.trans hc) (by decide)

/-- `reclaim_resource()` reclaims the first dead machine, if there is one. -/
theorem Inv.reclaimResource (h : Inv env original files limit m) (os : Nat → Os) :
    Ends (m.reclaimResource os none) (fun r => Inv env original files limit r.2 ∧
        ∃ m₁, Searched m m₁ ∧ (r = (false, m₁) ∧ m₁.deadVmInstances = [] ∨
          r.1 = true ∧ ∃ vm, Reclaimed vm m₁ r.2))
      fun e => e.bookkeeping = false ∧ ¬ (os 1).Clears := by
  refine ((h.searchDeadVm (os 0)).mono (fun _ hm => hm) fun e he => he.elim).bind ?_
  rintro m₁ ⟨hinv, hs⟩
  cases hdead : m₁.deadVmInstances with
  | nil => exact Ends.pure ⟨hinv, m₁, hs, Or.inl ⟨rfl, hdead⟩⟩
  | cons vm rest =>
    refine (hinv.reclaim (hdead ▸ List.mem_cons_self) (os 1)).bind fun m₂ hm₂ => ?_
    exact Ends.pure ⟨hm₂.1, m₁, hs, Or.inr ⟨rfl, vm, hm₂.2⟩⟩

/-- The loop of `destory_all_vm` ends when every dead machine is reclaimed. -/
theorem Inv.destoryAllLoop (fuel : Nat) (h : Inv env original files limit m) (os : Nat → Os)
    (hfuel : m.held.length ≤ fuel) :
    Ends (VMMgr.destoryAllLoop fuel os m) (fun m' => Inv env original files limit m' ∧
        m'.deadVmInstances = [] ∧ m'.fleet ~ m.fleet ∧ m'.liveVmInstances <+ m.liveVmInstances)
      fun e => e.bookkeeping = false ∧ ∃ n, ¬ (os n).Clears := by
  induction fuel generalizing m os with
  | zero =>
    have hdead : m.deadVmInstances = [] := by
      rw [VMMgr.held, List.length_append] at hfuel
      exact List.length_eq_zero_iff.mp (by omega)
    rw [VMMgr.destoryAllLoop, if_pos hdead]
    exact Ends.pure ⟨h, hdead, .refl _, .refl _⟩
  | succ fuel ih =>
    rw [VMMgr.destoryAllLoop]
    refine Ends.ite (fun hdead => Ends.pure ⟨h, hdead, .refl _, .refl _⟩) fun hdead => ?_
    refine ((h.reclaimResource os).mono (fun _ hr => hr) fun e he => ⟨he.1, 1, he.2⟩).bind ?_
    rintro ⟨done, m₂⟩ ⟨hinv, m₁, hs, hr⟩
    have hsearch : m₁.fleet ~ m.fleet := by
      rw [VMMgr.fleet, VMMgr.fleet, hs.reclaimed]
      exact hs.held.append_right _
    have hstep : m₂.held.length ≤ fuel ∧ m₂.fleet ~ m.fleet ∧
        m₂.liveVmInstances <+ m.liveVmInstances := by
      rcases hr with ⟨heq, hnil⟩ | ⟨-, vm, hrec⟩
      · exact absurd (List.prefix_nil.mp (hnil ▸ hs.dead)) hdead
      · have hlen : m₂.held.length + 1 = m.held.length :=
          hrec.held.length_eq.symm.trans hs.held.length_eq
        refine ⟨by omega, List.Perm.trans ?_ hsearch, hrec.live ▸ hs.live⟩
        rw [VMMgr.fleet, VMMgr.fleet, hrec.reclaimed, ← List.append_assoc]
        exact (List.perm_append_singleton _ _).trans (hrec.held.symm.append_right _)
    refine (ih hinv (fun n => os (n + 2)) hstep.1).mono ?_ ?_
    · rintro m₃ ⟨hinv₃, hdead₃, hfleet₃, hlive₃⟩
      exact ⟨hinv₃, hdead₃, hfleet₃.trans hstep.2.1, hlive₃.trans hstep.2.2⟩
    · rintro e ⟨he, n, hn⟩
      exact ⟨he, n + 2, hn⟩

end
end VmMgr
end Silhouette
