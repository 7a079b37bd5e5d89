/-
Workloads whose dependencies are satisfied run.

`Sim` holds where the generator stands: the commands in front of that place have been
made lines, and run, and the dictionaries say what these leave.  Every insertion and every
operation keeps it.  Only one operation ends a program, an allocation behind a file that
has been truncated to nothing; it begins in front of the file.
-/
import Silhouette.Ace.Padding
import Silhouette.Ace.Beliefs

namespace Silhouette
namespace Ace

open Lib Lib.PosixFs

/-! ## What is written to files -/

namespace Command

/-- The operation truncates the file to nothing. -/
def empties (f : Name) : Command → Bool
  | .truncate t .aligned => t = f
  | _ => false

/-- The operation writes or allocates at the end of the file. -/
def lengthens (f : Name) : Command → Bool
  | .dwrite t .append => t = f
  | .falloc t .append => t = f
  | .falloc t .overlapExtend => t = f
  | _ => false

/-- The operation is on files, or makes a directory; symbolic links are none of them. -/
def onFiles : Command → Bool
  | .symlink _ _ | .rmdir _ => false
  | .rename f _ => !f.isDir
  | _ => true

end Command

/-- Behind the operations, the file has been truncated to nothing and not lengthened since. -/
def emptied (f : Name) (ops : List Command) : Bool :=
  ops.foldl (fun b c => if c.empties f then true else if c.lengthens f then false else b) false

/-- A file that has been emptied is extended over its end. -/
def ExtendsEmptied (ops : List Command) : Prop :=
  ∃ pre f post, ops = pre ++ .falloc f .overlapExtend :: post ∧ emptied f pre = true

theorem emptied_concat (f : Name) (ops : List Command) (c : Command) :
    emptied f (ops ++ [c]) =
      if c.empties f then true else if c.lengthens f then false else emptied f ops := by
  unfold emptied
  rw [List.foldl_append]
  rfl

theorem extendsEmptied_concat (ops : List Command) (c : Command) :
    ExtendsEmptied (ops ++ [c]) ↔
      ExtendsEmptied ops ∨ ∃ f, c = .falloc f .overlapExtend ∧ emptied f ops = true := by
  constructor
  · intro ⟨pre, f, post, heq, hpre⟩
    rcases List.eq_nil_or_concat post with rfl | ⟨post', d, rfl⟩
    · obtain ⟨rfl, hc⟩ := List.append_inj' heq rfl
      exact Or.inr ⟨f, List.head_eq_of_cons_eq hc, hpre⟩
    · rw [List.concat_eq_append, ← List.cons_append, ← List.append_assoc] at heq
      obtain ⟨rfl, -⟩ := List.append_inj' heq rfl
      exact Or.inl ⟨pre, f, post', rfl, hpre⟩
  · intro h
    rcases h with ⟨pre, f, post, rfl, hpre⟩ | ⟨f, rfl, hops⟩
    · exact ⟨pre, f, post ++ [c], by simp, hpre⟩
    · exact ⟨ops, f, [], rfl, hops⟩

/-- The files that have been written to, and what their lengths are reckoned to be. -/
structure Lengths (written : Dict Name Nat) (lm : LengthMap) (seen : List Command) : Prop where
  known : ∀ f ∈ written.keys,
    ∃ size, lm.get? f = some size ∧ 0 ≤ size ∧ (size < 1024 ↔ emptied f seen = true)
  unknown : ∀ f, f ∉ written.keys → lm.get? f = none ∧ emptied f seen = false

namespace Lengths

variable {written : Dict Name Nat} {lm : LengthMap} {seen : List Command}

theorem start : Lengths Dict.empty Dict.empty [] where
  known := fun _ hf => absurd hf List.not_mem_nil
  unknown := fun _ _ => ⟨rfl, rfl⟩

/-- The length of one file changes. -/
theorem change (h : Lengths written lm seen) {written' : Dict Name Nat} {seen' : List Command}
    {f : Name} {size : Int} (hkeys : ∀ t, t ∈ written'.keys ↔ t = f ∨ t ∈ written.keys)
    (hsize : 0 ≤ size) (hf : size < 1024 ↔ emptied f seen' = true)
    (hother : ∀ t, t ≠ f → emptied t seen' = emptied t seen) :
    Lengths written' (lm.set f size) seen' where
  known := by
    intro t ht
    rw [Dict.get?_set]
    by_cases htf : t = f
    · rw [if_pos htf, htf]
      exact ⟨size, rfl, hsize, hf⟩
    · rw [if_neg htf, hother t htf]
      exact h.known t (((hkeys t).mp ht).resolve_left htf)
  unknown := by
    intro t ht
    have htf : t ≠ f := fun he => ht ((hkeys t).mpr (Or.inl he))
    rw [Dict.get?_set, if_neg htf, hother t htf]
    exact h.unknown t fun hmem => ht ((hkeys t).mpr (Or.inr hmem))

/-- An operation that says nothing of lengths. -/
theorem concat (h : Lengths written lm seen) {c : Command} (hempties : ∀ f, c.empties f = false)
    (hlengthens : ∀ f, c.lengthens f = false) : Lengths written lm (seen ++ [c]) := by
  have hsame : ∀ f, emptied f (seen ++ [c]) = emptied f seen := by
    intro f
    rw [emptied_concat, hempties, hlengthens]
    rfl
  constructor
  · intro f hf
    rw [hsame]
    exact h.known f hf
  · intro f hf
    rw [hsame]
    exact h.unknown f hf

theorem getD_nonneg (h : Lengths written lm seen) (f : Name) : 0 ≤ (lm.get? f).getD 0 := by
  by_cases hf : f ∈ written.keys
  · obtain ⟨size, hsize, hpos, -⟩ := h.known f hf
    rw [hsize]
    exact hpos
  · rw [(h.unknown f hf).1]
    exact le_refl 0

end Lengths

theorem mem_keys_addLength (m : DepMaps) (f t : Name) :
    t ∈ (m.addLength f).fileLengthMap.keys ↔ t = f ∨ t ∈ m.fileLengthMap.keys :=
  Dict.mem_keys_set

/-! ## Running commands -/

/-- The lengths that are reckoned with, where the program is unless it has ended with an
error, and whether its renames have been between different files. -/
structure World where
  lm : LengthMap
  prog : Option Prog
  apart : Bool

namespace World

def start : World := ⟨Dict.empty, some Prog.start, true⟩

/-- The lines of a command are run. -/
def run (w : World) (r : List Line × LengthMap) : World where
  lm := r.2
  prog := w.prog.bind fun s => r.1.foldlM Line.exec s
  apart := w.apart && w.prog.all fun s => renamesApart s r.1

/-- A command is made lines, and these are run. -/
def step (numOps : Nat) (w : World) (c : Command) : Option World :=
  (buildJlang numOps w.lm c).map w.run

theorem renamesApart_append (s : Prog) (ls ms : List Line) :
    renamesApart s (ls ++ ms) =
      (renamesApart s ls && (ls.foldlM Line.exec s).all fun s' => renamesApart s' ms) := by
  induction ls generalizing s with
  | nil => rfl
  | cons l rest ih =>
    rw [List.cons_append, renamesApart, renamesApart, List.foldlM_cons]
    cases h : l.exec s with
    | none => simp
    | some s' => simp [ih, Bool.and_assoc]

/-- To run each command as it comes is to run the whole file. -/
theorem lines_of_run {numOps : Nat} {cs : List Command} {w : World}
    (h : cs.foldlM (step numOps) start = some w) :
    ∃ lines, cs.foldlM (addCommand numOps) ([], Dict.empty) = some (lines, w.lm) ∧
      runProgram lines = w.prog ∧ renamesApart Prog.start lines = w.apart := by
  induction cs using List.reverseRecOn generalizing w with
  | nil =>
    rw [← Option.some.inj h]
    exact ⟨[], rfl, rfl, rfl⟩
  | append_singleton cs c ih =>
    rw [List.foldlM_append] at h ⊢
    obtain ⟨w', hw', h⟩ := Option.bind_eq_some_iff.mp h
    obtain ⟨lines, hlines, hrun, hapart⟩ := ih hw'
    rw [List.foldlM_cons] at h
    obtain ⟨w'', hstep, h⟩ := Option.bind_eq_some_iff.mp h
    obtain ⟨r, hr, hstep⟩ := Option.map_eq_some_iff.mp hstep
    have hw : w'' = w := Option.some.inj h
    subst hw hstep
    refine ⟨lines ++ r.1, ?_, ?_, ?_⟩
    · rw [hlines, Option.bind_eq_bind, Option.bind_some, List.foldlM_cons]
      unfold addCommand
      rw [hr]
      rfl
    · unfold runProgram at hrun ⊢
      rw [List.foldlM_append, hrun]
      rfl
    · unfold runProgram at hrun
      rw [renamesApart_append, hapart, hrun]
      rfl

end World

/-- The statements of lines succeed. -/
def WorksAll (ls : List Line) (s : Prog) (m : DepMaps) : Prop :=
  ∃ s', ls.foldlM Line.exec s = some s' ∧ Agrees m s'

theorem Works.all {l : Line} {s : Prog} {m : DepMaps} (h : Works l s m) : WorksAll [l] s m := by
  obtain ⟨s', hexec, hs'⟩ := h
  refine ⟨s', ?_, hs'⟩
  rw [List.foldlM_cons, hexec]
  rfl

/-! ## The simulation -/

/-- The generator stands in front of `r` and behind `e`, and has seen the operations of
`seen`. -/
structure Sim (cfg : Config) (numOps : Nat) (seen : List Command) (g : Gen)
    (e r : List Command) (w : World) : Prop where
  place : g.At e r
  ran : e.foldlM (World.step numOps) World.start = some w
  lengths : Lengths g.maps.fileLengthMap w.lm seen
  options : ∀ f ∈ g.maps.openFileMap.keys, cfg.isFileOption f = true
  agrees : w.apart = true → ∀ s, w.prog = some s → Agrees g.maps s
  ends : w.apart = true → (w.prog.isSome = true ↔ ¬ ExtendsEmptied seen)

theorem ran_concat {numOps : Nat} {e : List Command} {w : World} {c : Command}
    {r : List Line × LengthMap} (h : e.foldlM (World.step numOps) World.start = some w)
    (hbuild : buildJlang numOps w.lm c = some r) :
    (e ++ [c]).foldlM (World.step numOps) World.start = some (w.run r) := by
  rw [List.foldlM_append, h, Option.bind_eq_bind, Option.bind_some, List.foldlM_cons]
  unfold World.step
  rw [hbuild]
  rfl

/-- Lines that work leave the program running, and where the dictionaries say. -/
theorem run_works {w : World} {m m' : DepMaps} {r : List Line × LengthMap}
    (hagrees : w.apart = true → ∀ s, w.prog = some s → Agrees m s)
    (hworks : ∀ s, Agrees m s → renamesApart s r.1 = true → WorksAll r.1 s m')
    (hapart : (w.run r).apart = true) :
    w.apart = true ∧ (∀ s, (w.run r).prog = some s → Agrees m' s) ∧
      (w.run r).prog.isSome = w.prog.isSome := by
  obtain ⟨hw, hr⟩ := Bool.and_eq_true_iff.mp hapart
  refine ⟨hw, ?_⟩
  unfold World.run
  cases hprog : w.prog with
  | none => exact ⟨fun s hs => (Option.some_ne_none s hs.symm).elim, rfl⟩
  | some s =>
    rw [hprog] at hr
    obtain ⟨s', hexec, hs'⟩ := hworks s (hagrees hw s hprog) hr
    rw [Option.bind_some, hexec]
    exact ⟨fun t ht => Option.some.inj ht ▸ hs', rfl⟩

namespace Sim

variable {cfg : Config} {numOps : Nat} {seen : List Command} {g : Gen} {e r : List Command}
  {w : World}

/-- A dependency is inserted. -/
theorem insert (h : Sim cfg numOps seen g e r w) {c : Command} {m' : DepMaps}
    {out : List Line × LengthMap} (hbuild : buildJlang numOps w.lm c = some out)
    (hlengths : Lengths m'.fileLengthMap out.2 seen)
    (hoptions : ∀ f ∈ m'.openFileMap.keys, cfg.isFileOption f = true)
    (hworks : ∀ s, Agrees g.maps s → renamesApart s out.1 = true → WorksAll out.1 s m') :
    Sim cfg numOps seen (g.insert (c, m')) (e ++ [c]) r (w.run out) where
  place := h.place.insert (c, m')
  ran := ran_concat h.ran hbuild
  lengths := hlengths
  options := hoptions
  agrees := fun hapart => (run_works h.agrees hworks hapart).2.1
  ends := by
    intro hapart
    obtain ⟨hw, -, hsome⟩ := run_works h.agrees hworks hapart
    rw [hsome]
    exact h.ends hw

/-- A command of the sequence is come to. -/
theorem next (h : Sim cfg numOps seen g e (c :: r) w) {seen' : List Command} {m' : DepMaps}
    {out : List Line × LengthMap} (hbuild : buildJlang numOps w.lm c = some out)
    (hlengths : Lengths m'.fileLengthMap out.2 seen')
    (hoptions : ∀ f ∈ m'.openFileMap.keys, cfg.isFileOption f = true)
    (hworks : ∀ s, Agrees g.maps s → renamesApart s out.1 = true → WorksAll out.1 s m')
    (hseen : ExtendsEmptied seen' ↔ ExtendsEmptied seen) :
    Sim cfg numOps seen' (g.setMaps m').next (e ++ [c]) r (w.run out) where
  place := Gen.At.next (show (g.setMaps m').At e (c :: r) from h.place)
  ran := ran_concat h.ran hbuild
  lengths := hlengths
  options := hoptions
  agrees := fun hapart => (run_works h.agrees hworks hapart).2.1
  ends := by
    intro hapart
    obtain ⟨hw, -, hsome⟩ := run_works h.agrees hworks hapart
    rw [hsome, hseen]
    exact h.ends hw

/-- An operation that ends the program. -/
theorem next_fails (h : Sim cfg numOps seen g e (c :: r) w) {seen' : List Command}
    {out : List Line × LengthMap} (hbuild : buildJlang numOps w.lm c = some out)
    (hlengths : Lengths g.maps.fileLengthMap out.2 seen') (hseen : ExtendsEmptied seen')
    (hfails : ∀ s, out.1.foldlM Line.exec s = none) :
    Sim cfg numOps seen' g.next (e ++ [c]) r (w.run out) := by
  have hnone : (w.run out).prog = none := by
    unfold World.run
    cases w.prog with
    | none => rfl
    | some s => exact hfails s
  refine ⟨h.place.next, ran_concat h.ran hbuild, hlengths, h.options, fun _ s hs => ?_, fun _ => ?_⟩
  · rw [hnone] at hs
    cases hs
  · rw [hnone]
    exact ⟨fun h => absurd h (by simp), fun h => absurd hseen h⟩

end Sim
end Ace
end Silhouette
