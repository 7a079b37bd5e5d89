/-
Directory trees, with what the system calls on names make of them.

A tree has a root, and every other name stands in a directory of it; that is a
field.  What a call does to a tree is said through `lookup`, by one lemma for
putting a node under a name and one for taking it away.
-/
import Silhouette.Lib.Dict

namespace Lib
namespace PosixFs

/-- What a name is of.  Names of one file have its number in common. -/
inductive Node
  | dir
  | file (ino : Nat)
  deriving DecidableEq, Repr

def Node.isDir : Node → Bool
  | .dir => true
  | .file _ => false

/-- The names below the root, by the components of their paths, and the next number
for a file. -/
structure Fs (κ : Type) [DecidableEq κ] where
  nodes : Dict (List κ) Node
  nextIno : Nat
  inDir : ∀ p v, nodes.get? p = some v →
    p ≠ [] ∧ (p.dropLast = [] ∨ nodes.get? p.dropLast = some .dir)

variable {κ : Type} [DecidableEq κ]

namespace Fs

def empty : Fs κ where
  nodes := Dict.empty
  nextIno := 0
  inDir := by
    intro p v h
    rw [Dict.get?_empty] at h
    cases h

def lookup (fs : Fs κ) (p : List κ) : Option Node :=
  if p = [] then some .dir else fs.nodes.get? p

@[simp] theorem lookup_nil (fs : Fs κ) : fs.lookup [] = some .dir := rfl

theorem lookup_empty {p : List κ} (h : p ≠ []) : (empty : Fs κ).lookup p = none := by
  unfold lookup
  rw [if_neg h]
  rfl

theorem lookup_dropLast {fs : Fs κ} {p : List κ} {v : Node} (h : fs.lookup p = some v) :
    fs.lookup p.dropLast = some .dir := by
  by_cases hp : p = []
  · rw [hp]
    rfl
  · rw [lookup, if_neg hp] at h
    obtain ⟨-, hroot | hdir⟩ := fs.inDir p v h
    · rw [hroot]
      rfl
    · unfold lookup
      rw [hdir]
      split <;> rfl

/-! ## Putting and taking nodes -/

/-- A node can be put under the name: what is there, if anything, is no directory. -/
def Room (fs : Fs κ) (p : List κ) : Prop :=
  fs.lookup p.dropLast = some .dir ∧ fs.lookup p ≠ some .dir

/-- No name stands in this one. -/
def Bare (fs : Fs κ) (p : List κ) : Prop := p ≠ [] ∧ ∀ q ∈ fs.nodes.keys, q.dropLast ≠ p

instance (fs : Fs κ) (p : List κ) : Decidable (fs.Room p) := by
  unfold Room
  infer_instance

instance (fs : Fs κ) (p : List κ) : Decidable (fs.Bare p) := by
  unfold Bare
  infer_instance

theorem Room.ne_nil {fs : Fs κ} {p : List κ} (h : fs.Room p) : p ≠ [] := by
  intro hp
  rw [hp] at h
  exact h.2 rfl

/-- A directory stays one when a node is put where there is room. -/
theorem Room.keeps_dir {fs : Fs κ} {p : List κ} (h : fs.Room p) (v : Node) {q : List κ}
    (hq : q = [] ∨ fs.nodes.get? q = some .dir) :
    q = [] ∨ (fs.nodes.set p v).get? q = some .dir := by
  rcases hq with hq | hq
  · exact Or.inl hq
  · apply Or.inr
    have hne : q ≠ p := by
      intro he
      have hdir := h.2
      rw [lookup, if_neg h.ne_nil, ← he] at hdir
      exact hdir hq
    rw [Dict.get?_set, if_neg hne]
    exact hq

theorem Room.parent {fs : Fs κ} {p : List κ} (h : fs.Room p) :
    p.dropLast = [] ∨ fs.nodes.get? p.dropLast = some .dir := by
  by_cases hp : p.dropLast = []
  · exact Or.inl hp
  · apply Or.inr
    have hdir := h.1
    rwa [lookup, if_neg hp] at hdir

def put (fs : Fs κ) (p : List κ) (v : Node) (h : fs.Room p) : Fs κ where
  nodes := fs.nodes.set p v
  nextIno := fs.nextIno + 1
  inDir := by
    intro q w hq
    rw [Dict.get?_set] at hq
    by_cases hqp : q = p
    · subst hqp
      exact ⟨h.ne_nil, h.keeps_dir v h.parent⟩
    · rw [if_neg hqp] at hq
      obtain ⟨hne, hdir⟩ := fs.inDir q w hq
      exact ⟨hne, h.keeps_dir v hdir⟩

def take (fs : Fs κ) (p : List κ) (h : fs.Bare p) : Fs κ where
  nodes := fs.nodes.erase p
  nextIno := fs.nextIno
  inDir := by
    intro q w hq
    rw [Dict.get?_erase] at hq
    by_cases hqp : q = p
    · rw [if_pos hqp] at hq
      cases hq
    · rw [if_neg hqp] at hq
      have hnot : q.dropLast ≠ p := h.2 q (Dict.mem_keys.mpr ⟨w, hq⟩)
      rw [Dict.get?_erase, if_neg hnot]
      exact fs.inDir q w hq

@[simp] theorem lookup_put (fs : Fs κ) {p : List κ} (v : Node) (h : fs.Room p) (q : List κ) :
    (fs.put p v h).lookup q = if q = p then some v else fs.lookup q := by
  unfold lookup put
  by_cases hq : q = []
  · rw [if_pos hq, if_neg (fun he => h.ne_nil (he.symm.trans hq)), if_pos hq]
  · rw [if_neg hq, Dict.get?_set, if_neg hq]

@[simp] theorem lookup_take (fs : Fs κ) {p : List κ} (h : fs.Bare p) (q : List κ) :
    (fs.take p h).lookup q = if q = p then none else fs.lookup q := by
  unfold lookup take
  by_cases hq : q = []
  · rw [if_pos hq, if_neg (fun he => h.1 (he.symm.trans hq)), if_pos hq]
  · rw [if_neg hq, Dict.get?_erase, if_neg hq]

theorem mem_keys {fs : Fs κ} {p : List κ} :
    p ∈ fs.nodes.keys ↔ p ≠ [] ∧ ∃ v, fs.lookup p = some v := by
  rw [Dict.mem_keys]
  constructor
  · intro ⟨v, hv⟩
    have hne : p ≠ [] := (fs.inDir p v hv).1
    exact ⟨hne, v, by rw [lookup, if_neg hne, hv]⟩
  · intro ⟨hne, v, hv⟩
    rw [lookup, if_neg hne] at hv
    exact ⟨v, hv⟩

theorem bare_iff {fs : Fs κ} {p : List κ} :
    fs.Bare p ↔ p ≠ [] ∧ ∀ q v, q ≠ [] → fs.lookup q = some v → q.dropLast ≠ p := by
  unfold Bare
  constructor
  · intro ⟨hne, h⟩
    exact ⟨hne, fun q v hq hv => h q (mem_keys.mpr ⟨hq, v, hv⟩)⟩
  · intro ⟨hne, h⟩
    refine ⟨hne, fun q hq => ?_⟩
    obtain ⟨hq, v, hv⟩ := mem_keys.mp hq
    exact h q v hq hv

theorem bare_of_file {fs : Fs κ} {p : List κ} {i : Nat} (h : fs.lookup p = some (.file i)) :
    fs.Bare p := by
  rw [bare_iff]
  refine ⟨fun hp => ?_, fun q v _ hv hq => ?_⟩
  · rw [hp, lookup_nil] at h
    cases h
  · have hdir := lookup_dropLast hv
    rw [hq, h] at hdir
    cases hdir

/-! ## The calls -/

/-- `open` with `O_CREAT` of a file for writing. -/
def openCreat (fs : Fs κ) (p : List κ) : Option (Fs κ × Nat) :=
  match fs.lookup p with
  | some (.file i) => some (fs, i)
  | some .dir => none
  | none => if h : fs.Room p then some (fs.put p (.file fs.nextIno) h, fs.nextIno) else none

/-- The file of a name. -/
def fileAt (fs : Fs κ) (p : List κ) : Option Nat :=
  match fs.lookup p with
  | some (.file i) => some i
  | _ => none

def mkdir (fs : Fs κ) (p : List κ) : Option (Fs κ) :=
  if h : fs.Room p then if fs.lookup p = none then some (fs.put p .dir h) else none else none

def rmdir (fs : Fs κ) (p : List κ) : Option (Fs κ) :=
  if h : fs.Bare p then if fs.lookup p = some .dir then some (fs.take p h) else none else none

def unlink (fs : Fs κ) (p : List κ) : Option (Fs κ) := do
  let _ ← fs.fileAt p
  if h : fs.Bare p then some (fs.take p h) else none

/-- `remove` of the C library. -/
def remove (fs : Fs κ) (p : List κ) : Option (Fs κ) :=
  if fs.lookup p = some .dir then fs.rmdir p else fs.unlink p

def link (fs : Fs κ) (p q : List κ) : Option (Fs κ) := do
  let i ← fs.fileAt p
  if h : fs.Room q then if fs.lookup q = none then some (fs.put q (.file i) h) else none else none

/-- `rename` of a file.  Between two names of one file it does nothing. -/
def rename (fs : Fs κ) (p q : List κ) : Option (Fs κ) := do
  let i ← fs.fileAt p
  if fs.lookup q = some (.file i) then some fs
  else if h : fs.Room q then (fs.put q (.file i) h).unlink p else none

theorem fileAt_eq_some {fs : Fs κ} {p : List κ} {i : Nat} :
    fs.fileAt p = some i ↔ fs.lookup p = some (.file i) := by
  unfold fileAt
  cases h : fs.lookup p with
  | none => simp
  | some v => cases v <;> simp

theorem openCreat_of_file {fs : Fs κ} {p : List κ} {i : Nat}
    (h : fs.lookup p = some (.file i)) : fs.openCreat p = some (fs, i) := by
  unfold openCreat
  rw [h]

theorem openCreat_of_room {fs : Fs κ} {p : List κ} (h : fs.Room p) (hnone : fs.lookup p = none) :
    fs.openCreat p = some (fs.put p (.file fs.nextIno) h, fs.nextIno) := by
  unfold openCreat
  rw [hnone]
  exact dif_pos h

theorem mkdir_of_room {fs : Fs κ} {p : List κ} (h : fs.Room p) (hnone : fs.lookup p = none) :
    fs.mkdir p = some (fs.put p .dir h) := by
  unfold mkdir
  rw [dif_pos h, if_pos hnone]

theorem rmdir_of_bare {fs : Fs κ} {p : List κ} (h : fs.Bare p) (hdir : fs.lookup p = some .dir) :
    fs.rmdir p = some (fs.take p h) := by
  unfold rmdir
  rw [dif_pos h, if_pos hdir]

theorem unlink_of_file {fs : Fs κ} {p : List κ} {i : Nat} (h : fs.lookup p = some (.file i)) :
    fs.unlink p = some (fs.take p (bare_of_file h)) := by
  unfold unlink
  rw [fileAt_eq_some.mpr h]
  exact dif_pos (bare_of_file h)

theorem remove_of_file {fs : Fs κ} {p : List κ} {i : Nat} (h : fs.lookup p = some (.file i)) :
    fs.remove p = some (fs.take p (bare_of_file h)) := by
  unfold remove
  rw [if_neg (by rw [h]; simp), unlink_of_file h]

theorem link_of_room {fs : Fs κ} {p q : List κ} {i : Nat} (h : fs.lookup p = some (.file i))
    (hq : fs.Room q) (hnone : fs.lookup q = none) :
    fs.link p q = some (fs.put q (.file i) hq) := by
  unfold link
  rw [fileAt_eq_some.mpr h]
  show (if h : fs.Room q then _ else _) = _
  rw [dif_pos hq, if_pos hnone]

/-- A file that is renamed to a name of another file, or of none, is moved there. -/
theorem exists_rename {fs : Fs κ} {p q : List κ} {i : Nat} (h : fs.lookup p = some (.file i))
    (hq : fs.Room q) (hne : fs.lookup q ≠ some (.file i)) :
    ∃ fs', fs.rename p q = some fs' ∧
      ∀ r, fs'.lookup r =
        if r = p then none else if r = q then some (.file i) else fs.lookup r := by
  have hpq : p ≠ q := by
    intro he
    exact hne (he ▸ h)
  have hput : (fs.put q (.file i) hq).lookup p = some (.file i) := by
    rw [lookup_put, if_neg hpq, h]
  refine ⟨(fs.put q (.file i) hq).take p (bare_of_file hput), ?_, fun r => ?_⟩
  · unfold rename
    rw [fileAt_eq_some.mpr h]
    show (if fs.lookup q = some (.file i) then some fs else _) = _
    rw [if_neg hne, dif_pos hq, unlink_of_file hput]
  · rw [lookup_take, lookup_put]

end Fs
end PosixFs
end Lib
