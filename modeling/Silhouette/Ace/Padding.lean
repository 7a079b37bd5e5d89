/-
Where the dependencies go.

The sequence is changed while it is gone through.  It always is what has been dealt
with, followed by the rest of the original sequence, and the place to insert at lies
between the two; so dependencies come right before the operation they are for.
-/
import Silhouette.Ace.Workload

namespace Silhouette
namespace Ace

open Lib

/-- The commands that other ones depend on. -/
def Command.isDep : Command → Bool
  | .open' _ | .close _ | .mkdir _ | .rmdir _ | .unlink _ | .write _ => true
  | _ => false

/-- The operations with parameters. -/
def Command.isCore : Command → Bool
  | .none' _ | .open' _ | .close _ | .write _ | .mark => false
  | _ => true

/-- The operations in their order, each behind commands it depends on and in front of a
persistence point, and the last one marked; what follows closes files. -/
inductive Padded : List Command → List Command → Prop
  | done {closes : List Command} (h : ∀ c ∈ closes, ∃ f, c = .close f) : Padded [] closes
  | op {deps rest out : List Command} {c : Command} (hdeps : ∀ d ∈ deps, d.isDep = true)
      (h : Padded rest out) :
      Padded (c :: rest)
        (deps ++ (if rest = [] then [.mark, c, .none' 1] else [c, .none' 0]) ++ out)

namespace Gen

/-- What has been dealt with, and what is left. -/
def At (g : Gen) (e r : List Command) : Prop :=
  g.modifiedSequence = e ++ r ∧ g.modifiedPos = e.length

theorem At.insert {g : Gen} {e r : List Command} (h : g.At e r) (x : Command × DepMaps) :
    (g.insert x).At (e ++ [x.1]) r := by
  obtain ⟨hseq, hpos⟩ := h
  unfold At Gen.insert
  constructor
  · show g.modifiedSequence.take g.modifiedPos ++ x.1 :: g.modifiedSequence.drop g.modifiedPos = _
    rw [hseq, hpos, List.take_left, List.drop_left, List.append_assoc, List.singleton_append]
  · show g.modifiedPos + 1 = _
    rw [hpos, List.length_append, List.length_singleton]

theorem At.next {g : Gen} {e r : List Command} {c : Command} (h : g.At e (c :: r)) :
    g.next.At (e ++ [c]) r := by
  obtain ⟨hseq, hpos⟩ := h
  constructor
  · show g.modifiedSequence = _
    rw [hseq, List.append_assoc, List.singleton_append]
  · show g.modifiedPos + 1 = _
    rw [hpos, List.length_append, List.length_singleton]

/-- From one state to another by inserting commands. -/
def InsertsTo (g g' : Gen) (more : List Command) : Prop :=
  ∀ e r, g.At e r → g'.At (e ++ more) r

/-- Only commands that others depend on are inserted. -/
def Leads (g g' : Gen) : Prop :=
  g'.corefs = g.corefs ∧ ∃ deps, (∀ d ∈ deps, d.isDep = true) ∧ g.InsertsTo g' deps

namespace Leads

theorem refl (g : Gen) : Leads g g :=
  ⟨rfl, [], by simp, fun e r h => by rwa [List.append_nil]⟩

theorem trans {g g' g'' : Gen} (h : Leads g g') (h' : Leads g' g'') : Leads g g'' := by
  obtain ⟨hc, deps, hdeps, hto⟩ := h
  obtain ⟨hc', deps', hdeps', hto'⟩ := h'
  refine ⟨hc'.trans hc, deps ++ deps', fun d hd => ?_, fun e r hat => ?_⟩
  · rcases List.mem_append.mp hd with hd | hd
    · exact hdeps d hd
    · exact hdeps' d hd
  · rw [← List.append_assoc]
    exact hto' _ _ (hto e r hat)

theorem setMaps {g g' : Gen} (h : Leads g g') (m : DepMaps) : Leads g (g'.setMaps m) := h

theorem insert (g : Gen) {x : Command × DepMaps} (h : x.1.isDep = true) :
    Leads g (g.insert x) := by
  refine ⟨rfl, [x.1], fun d hd => ?_, fun e r hat => hat.insert x⟩
  rw [List.mem_singleton.mp hd]
  exact h

theorem ite {c : Prop} [Decidable c] {g a b : Gen} (ha : Leads g a) (hb : Leads g b) :
    Leads g (if c then a else b) := by
  by_cases h : c
  · rwa [if_pos h]
  · rwa [if_neg h]

theorem foldl {f : Gen → Name → Gen} (h : ∀ g x, Leads g (f g x)) (l : List Name) (g : Gen) :
    Leads g (l.foldl f g) := by
  induction l generalizing g with
  | nil => exact refl g
  | cons x rest ih => exact (h g x).trans (ih (f g x))

end Leads

section Checks

variable (cfg : Config) (g : Gen) (f : Name)

theorem leads_insertUnlink : Leads g (g.insertUnlink f) := Leads.insert g rfl

theorem leads_insertRmdir : Leads g (g.insertRmdir f) := Leads.insert g rfl

theorem leads_insertOpen : Leads g (g.insertOpen cfg f) := Leads.insert g rfl

theorem leads_insertMkdir : Leads g (g.insertMkdir f) := Leads.insert g rfl

theorem leads_insertClose : Leads g (g.insertClose cfg f) := Leads.insert g rfl

theorem leads_insertWrite : Leads g (g.insertWrite f) := Leads.insert g rfl

theorem leads_checkCreatDep : Leads g (g.checkCreatDep f) :=
  Leads.ite (leads_insertUnlink g f) (Leads.refl g)

theorem leads_clearFile : Leads g (g.clearFile cfg f) :=
  Leads.ite ((leads_insertClose cfg g f).trans (leads_insertUnlink _ f))
    (Leads.ite (leads_insertUnlink g f) (Leads.refl g))

theorem leads_clearFiles (f' : Name) : Leads g ((g.clearFile cfg f).clearFile cfg f') :=
  (leads_clearFile cfg g f).trans (leads_clearFile cfg _ f')

theorem leads_clearAC : Leads g (g.clearAC cfg) := by
  have hclose : Leads g
      (if g.maps.openDirMap.get? .AC = some true then g.insertClose cfg .AC else g) :=
    Leads.ite (leads_insertClose cfg g _) (Leads.refl g)
  exact Leads.ite ((hclose.trans (leads_clearFiles cfg _ _ _)).trans (leads_insertRmdir _ _)) hclose

theorem leads_checkDirDep : Leads g (g.checkDirDep cfg f) := by
  have hA : Leads g
      (if f = .A then ((g.clearFile cfg .Afoo).clearFile cfg .Abar).clearAC cfg else g) :=
    Leads.ite ((leads_clearFiles cfg g _ _).trans (leads_clearAC cfg _)) (Leads.refl g)
  have hB := hA.trans (Leads.ite (c := f = .B) (leads_clearFiles cfg _ .Bfoo .Bbar) (Leads.refl _))
  have hAC :=
    hB.trans (Leads.ite (c := f = .AC) (leads_clearFiles cfg _ .ACfoo .ACbar) (Leads.refl _))
  exact Leads.ite (hAC.trans (leads_insertRmdir _ f)) (Leads.refl g)

theorem leads_checkParent : Leads g (g.checkParent f) := by
  have hfirst : Leads g
      (if (f.parent = .A ∨ f.parent = .B) ∧ f.parent ∉ g.maps.openDirMap.keys then
        g.insertMkdir f.parent
      else g) :=
    Leads.ite (leads_insertMkdir g _) (Leads.refl g)
  exact Leads.ite
    ((hfirst.trans (Leads.ite (leads_insertMkdir _ _) (Leads.refl _))).trans
      (leads_insertMkdir _ _))
    hfirst

theorem leads_checkParentExistsDep (fs : List Name) : Leads g (g.checkParentExistsDep fs) :=
  Leads.foldl leads_checkParent fs g

theorem leads_checkExistsDep : Leads g (g.checkExistsDep cfg f) := by
  have hmkdir : Leads g (if f ∉ g.maps.openDirMap.keys then g.insertMkdir f else g) :=
    Leads.ite (leads_insertMkdir g f) (Leads.refl g)
  unfold checkExistsDep
  have hdir := Leads.ite (c := isDirOption f = true)
    (hmkdir.trans (Leads.ite
      (c := (if f ∉ g.maps.openDirMap.keys then g.insertMkdir f else g).maps.openDirMap.get? f =
        some false)
      (leads_insertOpen cfg _ f) (Leads.refl _)))
    (Leads.refl g)
  exact Leads.ite (hdir.trans (leads_insertOpen cfg _ f)) hdir

theorem leads_checkClosed : Leads g (g.checkClosed cfg f) := by
  have hfile : Leads g
      (if g.maps.openFileMap.get? f = some true then g.insertClose cfg f else g) :=
    Leads.ite (leads_insertClose cfg g f) (Leads.refl g)
  exact Leads.ite (hfile.trans (leads_insertClose cfg _ f)) hfile

theorem leads_checkFileLength : Leads g (g.checkFileLength f) :=
  Leads.ite (leads_insertWrite g f) (Leads.refl g)

theorem leads_closeSecond : Leads g (g.closeSecond cfg f) :=
  Leads.ite (leads_insertClose cfg g f) (Leads.refl g)

theorem leads_unlinkSecond : Leads g (g.unlinkSecond f) :=
  Leads.ite (leads_insertUnlink g f) (Leads.refl g)

theorem leads_moveName (s : Name) : Leads g (g.moveName cfg f s) :=
  Leads.ite ((Leads.refl g).setMaps _) (Leads.ite ((Leads.refl g).setMaps _) (Leads.refl g))

end Checks

/-- Dependencies are inserted, an operation is counted, and the last one is marked. -/
def Serves (numOps : Nat) (g g' : Gen) : Prop :=
  g'.corefs = g.corefs + 1 ∧ ∃ deps, (∀ d ∈ deps, d.isDep = true) ∧
    g.InsertsTo g' (deps ++ if g.corefs + 1 = numOps then [.mark] else [])

theorem Serves.setMaps {numOps : Nat} {g g' : Gen} (h : Serves numOps g g') (m : DepMaps) :
    Serves numOps g (g'.setMaps m) := h

theorem Leads.countCore {g g' : Gen} (h : Leads g g') (numOps : Nat) :
    Serves numOps g (g'.countCore numOps) := by
  obtain ⟨hc, deps, hdeps, hto⟩ := h
  by_cases hlast : g'.corefs + 1 = numOps
  · have hg : g'.countCore numOps =
        { g' with corefs := g'.corefs + 1 }.insert (.mark, g'.maps) := if_pos hlast
    rw [hg]
    refine ⟨congrArg (· + 1) hc, deps, hdeps, fun e r hat => ?_⟩
    rw [if_pos (hc ▸ hlast), ← List.append_assoc]
    exact (show At { g' with corefs := g'.corefs + 1 } _ _ from hto e r hat).insert _
  · have hg : g'.countCore numOps = { g' with corefs := g'.corefs + 1 } := if_neg hlast
    rw [hg]
    refine ⟨congrArg (· + 1) hc, deps, hdeps, fun e r hat => ?_⟩
    rw [if_neg (hc ▸ hlast), List.append_nil]
    exact hto e r hat

section Satisfy

variable (cfg : Config) (numOps : Nat) (g : Gen)

theorem serves_satisfyLink (f s : Name) : Serves numOps g (g.satisfyLink cfg numOps f s) :=
  (((((leads_checkParentExistsDep g [f, s]).trans (leads_checkExistsDep cfg _ f)).trans
    (leads_closeSecond cfg _ s)).trans (leads_unlinkSecond _ s)).countCore numOps).setMaps _

theorem serves_satisfyRemove (f : Name) : Serves numOps g (g.satisfyRemove cfg numOps f) :=
  ((((leads_checkParentExistsDep g [f]).trans (leads_checkExistsDep cfg _ f)).trans
    (leads_checkClosed cfg _ f)).countCore numOps).setMaps _

/-- An operation gets its dependencies and is counted. -/
theorem serves_satisfyDep {c : Command} (h : c.isCore = true) :
    Serves numOps g (g.satisfyDep cfg numOps c) := by
  have hexists : ∀ f, Leads g ((g.checkParentExistsDep [f]).checkExistsDep cfg f) :=
    fun f => (leads_checkParentExistsDep g [f]).trans (leads_checkExistsDep cfg _ f)
  cases c with
  | creat f =>
    exact (((leads_checkParentExistsDep g [f]).trans (leads_checkCreatDep _ f)).countCore _).setMaps _
  | mkdir d => exact ((leads_checkDirDep cfg g d).countCore numOps).setMaps _
  | falloc f _ => exact ((hexists f).trans (leads_checkFileLength _ f)).countCore numOps
  | truncate f _ => exact ((hexists f).trans (leads_checkFileLength _ f)).countCore numOps
  | dwrite f option =>
    refine Leads.countCore ?_ numOps
    cases option with
    | append => exact Leads.ite (((hexists f).setMaps _).setMaps _) ((hexists f).setMaps _)
    | overlapStart =>
      have hlen := (hexists f).trans (leads_checkFileLength _ f)
      exact Leads.ite (hlen.setMaps _) hlen
  | link f s => exact serves_satisfyLink cfg numOps g f s
  | symlink f s => exact serves_satisfyLink cfg numOps g f s
  | unlink f => exact serves_satisfyRemove cfg numOps g f
  | remove f => exact serves_satisfyRemove cfg numOps g f
  | rename f s =>
    exact (((((leads_checkParentExistsDep g [f, s]).trans (leads_checkExistsDep cfg _ f)).trans
      (leads_checkClosed cfg _ f)).trans (leads_closeSecond cfg _ s)).trans
        (leads_moveName cfg _ f s)).countCore numOps
  | rmdir d =>
    exact ((Leads.ite (leads_insertMkdir g d) (Leads.refl g)).countCore numOps).setMaps _
  | none' _ => cases h
  | open' _ => cases h
  | close _ => cases h
  | write _ => cases h
  | mark => cases h

end Satisfy

/-- Closing only inserts `close`. -/
theorem inserts_closeAll (cfg : Config) (isOpen : Gen → Name → Bool) (l : List Name) (g : Gen) :
    ∃ closes, (∀ c ∈ closes, ∃ f, c = .close f) ∧ g.InsertsTo (g.closeAll cfg isOpen l) closes := by
  induction l generalizing g with
  | nil => exact ⟨[], by simp, fun e r h => by rwa [List.append_nil]⟩
  | cons f rest ih =>
    unfold closeAll
    rw [List.foldl_cons]
    by_cases hopen : isOpen g f = true
    · rw [if_pos hopen]
      obtain ⟨closes, hcloses, hto⟩ := ih (g.insertClose cfg f)
      refine ⟨.close f :: closes, fun c hc => ?_, fun e r hat => ?_⟩
      · rcases List.mem_cons.mp hc with rfl | hc
        · exact ⟨f, rfl⟩
        · exact hcloses c hc
      · have := hto _ _ (hat.insert (.close f, g.maps.note cfg f false))
        rwa [List.append_assoc, List.singleton_append] at this
    · rw [if_neg hopen]
      exact ih g

end Gen

/-! ## Whole sequences -/

/-- Operations with their numbers, each with its persistence point. -/
def withPoints (numOps : Nat) (l : List (Command × Nat)) : List Command :=
  l.flatMap fun x => [x.1, .none' (if x.2 + 1 = numOps then 1 else 0)]

theorem sequence_eq (ops : List Command) : sequence ops = withPoints ops.length ops.zipIdx := rfl

theorem withPoints_cons (numOps : Nat) (c : Command) (i : Nat) (l : List (Command × Nat)) :
    withPoints numOps ((c, i) :: l) =
      c :: .none' (if i + 1 = numOps then 1 else 0) :: withPoints numOps l := rfl

/-- One operation and its persistence point. -/
theorem satisfyAll_withPoints_cons (cfg : Config) (numOps : Nat) (c : Command) (i : Nat)
    (l : List (Command × Nat)) (g : Gen) :
    satisfyAll cfg numOps (withPoints numOps ((c, i) :: l)) g =
      satisfyAll cfg numOps (withPoints numOps l) (g.satisfyDep cfg numOps c).next.next := rfl

/-- What has been dealt with grows by operations with their dependencies. -/
theorem satisfyAll_at (cfg : Config) (ops : List Command) (k : Nat) {g : Gen}
    (hcore : ∀ c ∈ ops, c.isCore = true) (hk : g.corefs = k) {e : List Command}
    (hat : g.At e (withPoints (k + ops.length) (ops.zipIdx k))) :
    ∃ out, (satisfyAll cfg (k + ops.length) (withPoints (k + ops.length) (ops.zipIdx k)) g).At
        (e ++ out) [] ∧
      ∀ closes, (∀ c ∈ closes, ∃ f, c = .close f) → Padded ops (out ++ closes) := by
  induction ops generalizing g e k with
  | nil =>
    refine ⟨[], ?_, fun closes h => Padded.done h⟩
    rw [List.append_nil]
    exact hat
  | cons c rest ih =>
    rw [List.zipIdx_cons] at hat ⊢
    rw [withPoints_cons] at hat
    rw [satisfyAll_withPoints_cons]
    obtain ⟨hc', deps, hdeps, hto⟩ :=
      Gen.serves_satisfyDep cfg (k + (c :: rest).length) g (hcore c List.mem_cons_self)
    have hlen : k + (c :: rest).length = k + 1 + rest.length := by
      rw [List.length_cons]
      omega
    have hlast : k + 1 = k + 1 + rest.length ↔ rest = [] := by
      rw [← List.length_eq_zero_iff]
      omega
    have hnext := (hto e _ hat).next.next
    rw [hk, hlen] at hnext
    rw [hlen] at hc' ⊢
    have hc' : (g.satisfyDep cfg (k + 1 + rest.length) c).next.next.corefs = k + 1 :=
      hc'.trans (congrArg (· + 1) hk)
    obtain ⟨out, hout, hpad⟩ :=
      ih (k + 1) (fun d hd => hcore d (List.mem_cons_of_mem c hd)) hc' hnext
    refine ⟨deps ++ (if rest = [] then [.mark, c, .none' 1] else [c, .none' 0]) ++ out, ?_,
      fun closes hcloses => ?_⟩
    · by_cases hr : rest = []
      · rw [if_pos (hlast.mpr hr), if_pos (hlast.mpr hr)] at hout
        rw [if_pos hr]
        simpa using hout
      · rw [if_neg (fun h => hr (hlast.mp h)), if_neg (fun h => hr (hlast.mp h))] at hout
        rw [if_neg hr]
        simpa using hout
    · rw [List.append_assoc]
      exact Padded.op hdeps (hpad closes hcloses)

theorem isCore_of_mem {cfg : Config} {op : Op} {c : Command} (h : c ∈ cfg.buildTuple op) :
    c.isCore = true := by
  have hall : ∀ c ∈ cfg.buildTuple op, c.isCore = true := by
    obtain ⟨nested, demo⟩ := cfg
    cases nested <;> cases demo <;> cases op <;> decide
  exact hall c h

/-- The dependencies of a workload stand where they belong. -/
theorem modifiedSequence_padded {cfg : Config} {ops : List Command} (hops : cfg.IsWorkload ops) :
    Padded ops (modifiedSequence cfg ops) := by
  have hcore : ∀ c ∈ ops, c.isCore = true := by
    intro c hc
    obtain ⟨op, -, hop⟩ := hops c hc
    exact isCore_of_mem hop
  have hstart : (Gen.start (sequence ops)).At [] (withPoints (0 + ops.length) (ops.zipIdx 0)) := by
    rw [Nat.zero_add]
    exact ⟨rfl, rfl⟩
  obtain ⟨out, hout, hpad⟩ := satisfyAll_at cfg ops 0 hcore rfl hstart
  rw [Nat.zero_add, ← sequence_eq] at hout
  obtain ⟨files, hfiles, htoF⟩ := Gen.inserts_closeAll cfg
    (fun g f => g.maps.openFileMap.get? f = some true) _ _
  obtain ⟨dirs, hdirs, htoD⟩ := Gen.inserts_closeAll cfg
    (fun g f => g.maps.openDirMap.get? f = some true) _ _
  have hend := (htoD _ _ (htoF _ _ hout)).1
  have hpadded := hpad (files ++ dirs) fun c hc => (List.mem_append.mp hc).elim (hfiles c) (hdirs c)
  rw [List.nil_append, List.append_nil, List.append_assoc] at hend
  unfold modifiedSequence
  exact hend ▸ hpadded

theorem modifiedSequence_padded_links : Padded [.link .foo .bar, .rename .bar .Abar]
    (modifiedSequence ⟨false, false⟩ [.link .foo .bar, .rename .bar .Abar]) :=
  modifiedSequence_padded (by decide)

end Ace
end Silhouette
