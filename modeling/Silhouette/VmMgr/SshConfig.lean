import Mathlib.Data.List.Perm.Subperm
import Silhouette.Lib.Text

/-!
# SSH configurations

Every virtual machine is reached through a port of the host, and the pool keeps an entry
for the port in the SSH configuration file of the user.  A configuration that is given
back is given out again before a new one is made.  One that is given out a second time is
not put into `using_pool`, so the pool does not know all the configurations in use:
`SSHConfigPool.Holds` is about the ones in use, whoever keeps them.
-/

namespace Silhouette
namespace VmMgr

open Lib Lib.Text
open scoped List

/-! ## Ports -/

def firstPortNum : Nat := 8000
def lastPortNum : Nat := 65535

/-- `find_first_available_port`, from `glo_start_port` on. -/
def findFirstAvailablePort (portInUsing : Nat → Bool) (gloStartPort : Nat) : Option Nat :=
  (List.range' gloStartPort (lastPortNum + 1 - gloStartPort)).find? fun port => !portInUsing port

theorem findFirstAvailablePort_some {portInUsing : Nat → Bool} {start port : Nat}
    (h : findFirstAvailablePort portInUsing start = some port) :
    start ≤ port ∧ port ≤ lastPortNum ∧ portInUsing port = false := by
  have hmem := List.mem_range'_1.mp (List.mem_of_find?_eq_some h)
  have hfree := List.find?_some h
  rw [Bool.not_eq_true'] at hfree
  refine ⟨hmem.1, ?_, hfree⟩
  omega

/-! ## The pool -/

structure SSHConfig where
  port : Nat
  aliasName : List Char
  deriving DecidableEq, Repr

/-- What the pool takes from the environment, with the time stamp that marks its entries. -/
structure SSHEnv where
  poolSize : Int
  guestAddr : List Char
  userName : List Char
  sshKeyFile : List Char
  guestAliasName : List Char
  idStr : List Char

/-- The pool, the SSH configuration file and its backup, and the global `glo_start_port`.
`using_pool` can hold `None`, for a configuration that could not be made. -/
structure SSHConfigPool where
  freePool : List SSHConfig
  usingPool : List (Option SSHConfig)
  configFile : List Char
  backupFile : Option (List Char)
  destoried : Bool
  gloStartPort : Nat

/-- The pool when the configuration file, if there is one, has been backed up. -/
def SSHConfigPool.init (file : Option (List Char)) : SSHConfigPool where
  freePool := []
  usingPool := []
  configFile := file.getD []
  backupFile := some (file.getD [])
  destoried := false
  gloStartPort := firstPortNum

namespace SSHEnv

variable (env : SSHEnv)

/-- The configuration `__generate_ssh_config` makes for a port. -/
def confOf (port : Nat) : SSHConfig := ⟨port, env.guestAliasName ++ decimal port⟩

def genSshConfigFileContent (conf : SSHConfig) : List Char :=
  lit "\nHost " ++ conf.aliasName ++
    (lit "\n    Hostname " ++ env.guestAddr ++
    (lit "\n    Port " ++ decimal conf.port ++
    (lit "\n    User " ++ env.userName ++
    (lit "\n    IdentityFile " ++ env.sshKeyFile ++
    (lit "\n    IdentitiesOnly Yes" ++
    (lit "\n    StrictHostKeyChecking no" ++
    (lit "\n# " ++ env.idStr ++ lit "\n")))))))

end SSHEnv

namespace SSHConfigPool

variable (env : SSHEnv) (p : SSHConfigPool)

/-- The file as it is read in text mode. -/
def ctx : List Char := universalNewlines p.configFile

def configExistInSshFile (conf : SSHConfig) : Bool :=
  decide (lit "Host " ++ conf.aliasName <:+: p.ctx)

/-- `__add_to_ssh_config_file`, `none` where it asserts that the host is new. -/
def addToSshConfigFile (conf : SSHConfig) : Option SSHConfigPool :=
  if p.configExistInSshFile conf then none
  else some { p with configFile := p.configFile ++ env.genSshConfigFileContent conf }

/-- `__generate_ssh_config` -/
def generateSshConfig (portInUsing : Nat → Bool) : Option (Option SSHConfig × SSHConfigPool) :=
  match findFirstAvailablePort portInUsing p.gloStartPort with
  | none => some (none, p)
  | some port =>
    let p := { p with gloStartPort := port + 1 }
    (p.addToSshConfigFile env (env.confOf port)).map fun p => (some (env.confOf port), p)

def allocSshConfig (portInUsing : Nat → Bool) : Option (Option SSHConfig × SSHConfigPool) :=
  if env.poolSize ≤ p.usingPool.length then some (none, p)
  else
    match p.freePool with
    | conf :: rest => some (some conf, { p with freePool := rest })
    | [] =>
      (p.generateSshConfig env portInUsing).map fun r =>
        (r.1, { r.2 with usingPool := r.2.usingPool ++ [r.1] })

def deallocSshConfig (conf : SSHConfig) : SSHConfigPool :=
  let p := { p with usingPool := p.usingPool.erase (some conf) }
  if conf ∈ p.freePool then p else { p with freePool := p.freePool ++ [conf] }

/-- `__remove_from_ssh_config_file`: the text without the entry is dropped, and the file is
written as it was read. -/
def removeFromSshConfigFile (conf : SSHConfig) : SSHConfigPool :=
  if p.configExistInSshFile conf then
    if env.genSshConfigFileContent conf <:+: p.ctx then { p with configFile := p.ctx } else p
  else p

/-- `destory_pool`, `none` where the backup cannot be copied back. -/
def destoryPool (copyFile removeFile : Bool) : Option (Bool × SSHConfigPool) :=
  if p.destoried then some (true, p)
  else
    let p := p.freePool.foldl (removeFromSshConfigFile env) p
    if 0 < p.usingPool.length then some (false, p)
    else
      match p.backupFile with
      | none => none
      | some backup =>
        if copyFile then
          some (true, { p with
            configFile := backup
            backupFile := if removeFile then none else some backup
            destoried := true })
        else none

end SSHConfigPool

/-! ## Entries

An entry is looked for by the text `Host` with its alias, which would also be found in
front of a longer alias.  Ports from 8000 on have no longer port that starts with them. -/

theorem eq_of_host_isInfix {name : List Char} {m n : Nat} (hm : firstPortNum ≤ m)
    (hn : n ≤ lastPortNum)
    (h : lit "Host " ++ (name ++ decimal m) <:+: lit "Host " ++ (name ++ decimal n)) : m = n := by
  rw [firstPortNum] at hm
  rw [lastPortNum] at hn
  have hlm : 3 < (decimal m).length := by
    rw [← not_le, length_decimal_le_iff (by omega)]
    omega
  have hln : (decimal n).length ≤ 5 := by
    rw [length_decimal_le_iff (by omega)]
    omega
  obtain ⟨s, t, hst⟩ := h
  have hlen := congrArg List.length hst
  simp only [List.length_append] at hlen
  have hs : s = [] := by
    cases s with
    | nil => rfl
    | cons c s =>
      cases s with
      | nil => exact absurd (List.cons.inj (List.cons.inj hst).2).1 (by decide)
      | cons d s =>
        simp only [List.length_cons] at hlen
        omega
  subst hs
  rw [List.nil_append, List.append_assoc, List.append_assoc] at hst
  have hdig := List.append_cancel_left (List.append_cancel_left hst)
  have hlen' := congrArg List.length hdig
  rw [List.length_append] at hlen'
  cases t with
  | nil =>
    rw [List.append_nil] at hdig
    exact decimal_injective hdig
  | cons c t =>
    cases t with
    | nil =>
      have hten : ¬ n < 10 ^ 1 := by
        rw [← length_decimal_le_iff Nat.one_pos]
        omega
      have hdiv := decimal_of_eq_append hdig.symm (by omega)
      omega
    | cons d t =>
      simp only [List.length_cons] at hlen'
      omega

/-- No text of the environment or of the user's file looks like a host with the alias of the
pool. -/
structure SSHEnv.Distinct (env : SSHEnv) (original : List Char) : Prop where
  newline : '\n' ∉ env.guestAliasName
  carriage : '\r' ∉ env.guestAliasName
  original : ¬ lit "Host " ++ env.guestAliasName <:+: original
  addr : ¬ lit "Host " ++ env.guestAliasName <:+: lit "    Hostname " ++ env.guestAddr
  user : ¬ lit "Host " ++ env.guestAliasName <:+: lit "    User " ++ env.userName
  key : ¬ lit "Host " ++ env.guestAliasName <:+: lit "    IdentityFile " ++ env.sshKeyFile
  id : ¬ lit "Host " ++ env.guestAliasName <:+: lit "# " ++ env.idStr

section

variable {env : SSHEnv} {original : List Char}

/-- The text an entry is looked for by. -/
def SSHEnv.hostOf (env : SSHEnv) (port : Nat) : List Char :=
  lit "Host " ++ (env.confOf port).aliasName

theorem SSHEnv.hostOf_eq (env : SSHEnv) (port : Nat) :
    env.hostOf port = (lit "Host " ++ env.guestAliasName) ++ decimal port :=
  (List.append_assoc _ _ _).symm

theorem SSHEnv.Distinct.notMem_hostOf (h : env.Distinct original) (port : Nat) :
    '\n' ∉ env.hostOf port ∧ '\r' ∉ env.hostOf port := by
  rw [SSHEnv.hostOf_eq]
  have hdig : ∀ c ∈ decimal port, c ≠ '\n' ∧ c ≠ '\r' := by
    intro c hc
    obtain ⟨d, hd, rfl⟩ := decimal_plain port c hc
    interval_cases d <;> decide
  simp only [List.mem_append, not_or]
  exact ⟨⟨⟨by decide, h.newline⟩, fun hc => (hdig _ hc).1 rfl⟩,
    ⟨by decide, h.carriage⟩, fun hc => (hdig _ hc).2 rfl⟩

theorem not_infix_of_append {a b c : List Char} (h : ¬ a <:+: c) : ¬ a ++ b <:+: c :=
  fun hab => h ((List.prefix_append a b).isInfix.trans hab)

/-- A host is found in an entry only in its first line. -/
theorem SSHEnv.Distinct.infix_entry_iff (h : env.Distinct original) (port : Nat)
    (conf : SSHConfig) (file : List Char) :
    env.hostOf port <:+: file ++ env.genSshConfigFileContent conf ↔
      env.hostOf port <:+: file ∨ env.hostOf port <:+: lit "Host " ++ conf.aliasName := by
  have hn := (h.notMem_hostOf port).1
  have hline : ∀ a l v b : List Char, env.hostOf port <:+: a ++ ('\n' :: l ++ v ++ b) ↔
      env.hostOf port <:+: a ∨ env.hostOf port <:+: l ++ v ++ b :=
    fun a l v b => infix_append_cons_iff hn
  have hother : ∀ {l : List Char}, ¬ lit "Host " ++ env.guestAliasName <:+: l →
      ¬ env.hostOf port <:+: l := by
    intro l hl
    rw [SSHEnv.hostOf_eq]
    exact not_infix_of_append hl
  have hhost : ∀ {l : List Char}, ¬ lit "Host " <:+: l → ¬ env.hostOf port <:+: l :=
    fun hl => hother (not_infix_of_append hl)
  have hport : ¬ env.hostOf port <:+: lit "    Port " ++ decimal conf.port := by
    intro hin
    have hmem : 'H' ∈ lit "    Port " ++ decimal conf.port :=
      hin.subset (List.mem_append_left _ (by decide))
    rcases List.mem_append.mp hmem with hl | hd
    · exact absurd hl (by decide)
    · obtain ⟨d, hd, hH⟩ := decimal_plain _ _ hd
      interval_cases d <;> exact absurd hH (by decide)
  show env.hostOf port <:+: file ++ ('\n' :: lit "Host " ++ conf.aliasName ++
    ('\n' :: lit "    Hostname " ++ env.guestAddr ++ ('\n' :: lit "    Port " ++
    decimal conf.port ++ ('\n' :: lit "    User " ++ env.userName ++
    ('\n' :: lit "    IdentityFile " ++ env.sshKeyFile ++ ('\n' :: lit "    IdentitiesOnly Yes" ++
    [] ++ ('\n' :: lit "    StrictHostKeyChecking no" ++ [] ++ ('\n' :: lit "# " ++ env.idStr ++
    ('\n' :: [] ++ [] ++ []))))))))) ↔ _
  iterate 9 rw [hline]
  simp only [List.append_nil, hother h.addr, hport, hother h.user, hother h.key, hother h.id,
    hhost (l := lit "    IdentitiesOnly Yes") (by decide),
    hhost (l := lit "    StrictHostKeyChecking no") (by decide), hhost (l := []) (by decide), or_false]

/-! ## Runs of the pool -/

/-- The user's text with the entries of some ports behind it. -/
def SSHEnv.fileWith (env : SSHEnv) (original : List Char) (ports : List Nat) : List Char :=
  original ++ (ports.map env.confOf).flatMap env.genSshConfigFileContent

theorem SSHEnv.fileWith_append (ports : List Nat) (port : Nat) :
    env.fileWith original (ports ++ [port]) =
      env.fileWith original ports ++ env.genSshConfigFileContent (env.confOf port) := by
  simp [SSHEnv.fileWith]

theorem SSHEnv.confOf_injective : Function.Injective env.confOf :=
  fun _ _ h => congrArg SSHConfig.port h

theorem SSHEnv.Distinct.infix_entries_iff (h : env.Distinct original) (port : Nat)
    (ports : List Nat) (file : List Char) :
    env.hostOf port <:+: file ++ (ports.map env.confOf).flatMap env.genSshConfigFileContent ↔
      env.hostOf port <:+: file ∨ ∃ q ∈ ports, env.hostOf port <:+: env.hostOf q := by
  induction ports generalizing file with
  | nil => simp
  | cons q rest ih =>
    rw [List.map_cons, List.flatMap_cons, ← List.append_assoc, ih, h.infix_entry_iff, or_assoc,
      List.exists_mem_cons_iff]
    rfl

/-- The host of a port without an entry is not found in the file. -/
theorem SSHEnv.Distinct.not_infix_fileWith (h : env.Distinct original) {port : Nat}
    {ports : List Nat} (hport : firstPortNum ≤ port) (hports : ∀ q ∈ ports, q ≤ lastPortNum)
    (hnew : port ∉ ports) : ¬ env.hostOf port <:+: env.fileWith original ports := by
  rw [SSHEnv.fileWith, h.infix_entries_iff]
  rintro (hin | ⟨q, hq, hin⟩)
  · rw [SSHEnv.hostOf_eq] at hin
    exact not_infix_of_append h.original hin
  · exact hnew (eq_of_host_isInfix hport (hports q hq) hin ▸ hq)

end

namespace SSHConfigPool

/-- The configurations in use and the free ones are together the ones that were made, one for
each port and in the order of the ports, and the file has an entry for each of them. -/
structure Keeps (env : SSHEnv) (original : List Char) (inUse : List SSHConfig)
    (p : SSHConfigPool) : Prop where
  made : ∃ ports : List Nat, ports.Pairwise (· < ·) ∧
    (∀ port ∈ ports, firstPortNum ≤ port ∧ port < p.gloStartPort ∧ port ≤ lastPortNum) ∧
    inUse ++ p.freePool ~ ports.map env.confOf ∧ p.configFile = env.fileWith original ports
  listed : ∃ confs : List SSHConfig, p.usingPool = confs.map some ∧ confs <+~ inUse
  start : firstPortNum ≤ p.gloStartPort
  backup : p.backupFile = some original
  alive : p.destoried = false

variable {env : SSHEnv} {original : List Char} {inUse : List SSHConfig} {p : SSHConfigPool}

theorem keeps_init (file : Option (List Char)) :
    (SSHConfigPool.init file).Keeps env (file.getD []) [] where
  made := ⟨[], .nil, by simp, .refl _, by simp [SSHEnv.fileWith, SSHConfigPool.init]⟩
  listed := ⟨[], rfl, .refl _⟩
  start := le_refl _
  backup := rfl
  alive := rfl

/-- No configuration is in use twice or in use and free. -/
theorem Keeps.nodup (h : p.Keeps env original inUse) : (inUse ++ p.freePool).Nodup := by
  obtain ⟨ports, hsorted, -, hperm, -⟩ := h.made
  rw [hperm.nodup_iff]
  exact (hsorted.imp ne_of_lt).map _ fun a b hab h => hab (SSHEnv.confOf_injective h)

theorem Keeps.perm {inUse' : List SSHConfig} (h : p.Keeps env original inUse)
    (hperm : inUse ~ inUse') : p.Keeps env original inUse' := by
  obtain ⟨ports, hsorted, hports, hmade, hfile⟩ := h.made
  obtain ⟨confs, hlisted, hsub⟩ := h.listed
  exact ⟨⟨ports, hsorted, hports, (hperm.symm.append_right _).trans hmade, hfile⟩,
    ⟨confs, hlisted, hperm.subperm_left.mp hsub⟩, h.start, h.backup, h.alive⟩

/-- The entry of a new port can be added. -/
theorem Keeps.generate (hd : env.Distinct original) (h : p.Keeps env original inUse)
    {portInUsing : Nat → Bool} {port : Nat}
    (hport : findFirstAvailablePort portInUsing p.gloStartPort = some port) :
    p.generateSshConfig env portInUsing = some (some (env.confOf port), { p with
      gloStartPort := port + 1
      configFile := p.configFile ++ env.genSshConfigFileContent (env.confOf port) }) := by
  obtain ⟨ports, -, hports, -, hfile⟩ := h.made
  obtain ⟨hstart, hlast, -⟩ := findFirstAvailablePort_some hport
  have hnew : ¬ env.hostOf port <:+: p.ctx := by
    rw [ctx, infix_universalNewlines_iff (hd.notMem_hostOf port).1 (hd.notMem_hostOf port).2, hfile]
    refine hd.not_infix_fileWith (h.start.trans hstart) (fun q hq => (hports q hq).2.2) fun hin => ?_
    exact absurd (hports port hin).2.1 (not_lt.mpr hstart)
  have hexist : { p with gloStartPort := port + 1 }.configExistInSshFile (env.confOf port) = false :=
    decide_eq_false hnew
  rw [generateSshConfig, hport]
  simp only [addToSshConfigFile, hexist]
  rfl

/-- `alloc_ssh_config` finds no old entry, and what it gives out was not in use. -/
theorem Keeps.alloc (hd : env.Distinct original) (h : p.Keeps env original inUse)
    (portInUsing : Nat → Bool) : ∃ r, p.allocSshConfig env portInUsing = some r ∧
      ∀ conf, r.1 = some conf → r.2.Keeps env original (conf :: inUse) := by
  obtain ⟨ports, hsorted, hports, hmade, hfile⟩ := h.made
  obtain ⟨confs, hlisted, hsub⟩ := h.listed
  rw [allocSshConfig]
  split_ifs with hfull
  · exact ⟨_, rfl, fun conf hconf => absurd hconf (by simp)⟩
  cases hfree : p.freePool with
  | cons conf rest =>
    refine ⟨_, rfl, fun c hc => ?_⟩
    obtain rfl := Option.some.inj hc
    refine ⟨⟨ports, hsorted, hports, ?_, hfile⟩, ⟨confs, hlisted, hsub.trans ?_⟩, h.start, h.backup,
      h.alive⟩
    · rw [hfree] at hmade
      exact List.perm_middle.symm.trans hmade
    · exact (List.sublist_cons_self _ _).subperm
  | nil =>
    cases hport : findFirstAvailablePort portInUsing p.gloStartPort with
    | none =>
      refine ⟨_, by simp only [generateSshConfig, hport]; rfl, fun c hc => absurd hc (by simp)⟩
    | some port =>
      obtain ⟨hstart, hlast, -⟩ := findFirstAvailablePort_some hport
      rw [h.generate hd hport]
      refine ⟨_, rfl, fun c hc => ?_⟩
      obtain rfl := Option.some.inj hc
      have hlt : ∀ q ∈ ports, q < port := fun q hq => (hports q hq).2.1.trans_le hstart
      refine ⟨⟨ports ++ [port], ?_, ?_, ?_, ?_⟩, ⟨confs ++ [env.confOf port], ?_, ?_⟩, ?_,
        h.backup, h.alive⟩
      · exact List.pairwise_append.mpr ⟨hsorted, List.pairwise_singleton _ _,
          fun a ha b hb => List.mem_singleton.mp hb ▸ hlt a ha⟩
      · intro q hq
        rcases List.mem_append.mp hq with hq | hq
        · exact ⟨(hports q hq).1, (hlt q hq).trans (Nat.lt_succ_self _), (hports q hq).2.2⟩
        · rw [List.mem_singleton.mp hq]
          exact ⟨h.start.trans hstart, Nat.lt_succ_self _, hlast⟩
      · rw [hfree, List.append_nil] at hmade
        rw [hfree, List.append_nil, List.map_append, List.map_singleton]
        exact (hmade.cons _).trans (List.perm_append_singleton _ _).symm
      · rw [SSHEnv.fileWith_append, ← hfile]
      · rw [hlisted, List.map_append, List.map_singleton]
      · exact (List.perm_append_singleton _ _).subperm_right.mpr ((List.subperm_cons _).mpr hsub)
      · exact (h.start.trans hstart).trans (Nat.le_succ _)

/-- `dealloc_ssh_config` of a configuration in use makes it free. -/
theorem Keeps.dealloc {conf : SSHConfig} (h : p.Keeps env original (conf :: inUse)) :
    (p.deallocSshConfig conf).Keeps env original inUse := by
  obtain ⟨ports, hsorted, hports, hmade, hfile⟩ := h.made
  obtain ⟨confs, hlisted, hsub⟩ := h.listed
  have hnot : conf ∉ p.freePool := by
    have hnd := h.nodup
    rw [List.cons_append, List.nodup_cons, List.mem_append, not_or] at hnd
    exact hnd.1.2
  rw [deallocSshConfig, if_neg hnot]
  refine ⟨⟨ports, hsorted, hports, ?_, hfile⟩, ⟨confs.erase conf, ?_, ?_⟩, h.start, h.backup,
    h.alive⟩
  · refine List.Perm.trans ?_ hmade
    rw [← List.append_assoc]
    exact List.perm_append_singleton _ _
  · show p.usingPool.erase (some conf) = _
    rw [hlisted, List.map_erase (Option.some_injective _)]
  · have := hsub.erase conf
    rwa [List.erase_cons_head] at this

variable (env) in
theorem removeFromSshConfigFile_eq (q : SSHConfigPool) (conf : SSHConfig) :
    (q.removeFromSshConfigFile env conf).usingPool = q.usingPool ∧
      (q.removeFromSshConfigFile env conf).backupFile = q.backupFile := by
  rw [removeFromSshConfigFile]
  split_ifs <;> exact ⟨rfl, rfl⟩

variable (env) in
theorem removeAll_eq (confs : List SSHConfig) (q : SSHConfigPool) :
    (confs.foldl (removeFromSshConfigFile env) q).usingPool = q.usingPool ∧
      (confs.foldl (removeFromSshConfigFile env) q).backupFile = q.backupFile := by
  induction confs generalizing q with
  | nil => exact ⟨rfl, rfl⟩
  | cons conf rest ih =>
    obtain ⟨h1, h2⟩ := removeFromSshConfigFile_eq env q conf
    rw [List.foldl_cons, (ih _).1, (ih _).2, h1, h2]
    exact ⟨rfl, rfl⟩

/-- When no configuration is in use, destroying the pool gives the user the file back. -/
theorem Keeps.destory (h : p.Keeps env original []) (copyFile removeFile : Bool) :
    ∃ q, p.destoryPool env copyFile removeFile = (if copyFile then some (true, q) else none) ∧
      q.configFile = original ∧ (removeFile = true → q.backupFile = none) := by
  obtain ⟨confs, hlisted, hsub⟩ := h.listed
  rw [List.subperm_nil] at hsub
  have hall := removeAll_eq env p.freePool p
  subst hsub
  rw [hlisted, List.map_nil, h.backup] at hall
  simp only [destoryPool, h.alive, Bool.false_eq_true, if_false, hall.1, hall.2, List.length_nil,
    lt_irrefl]
  exact ⟨_, rfl, rfl, fun hr => if_pos hr⟩

end SSHConfigPool
end VmMgr
end Silhouette
