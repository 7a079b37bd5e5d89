import Silhouette.Layout.StInfoVisits
import Mathlib.Data.Set.Finite.Basic
import Mathlib.Order.RelClasses

/-!
# Structs inside a struct

A struct is inside another when a member has its type, or is an array of it.  The index finds the
structs inside by the names of the types, and a name does not say if the member is a pointer: the
stars are taken off when the layout is read.  So it enters what is pointed to as well, at the address
of the pointer, and a list node that points to the next one is entered again and again.
-/

namespace Silhouette
namespace Layout

open Lib

/-- The helper goes from `root` to the struct `n`, at an offset. -/
inductive Met (d : Dict String StructEntry) (root : String) : Int → String → Prop where
  | root : (d.get? root).isSome = true → Met d root 0 root
  | member {off : Int} {n : String} {st : StructEntry} {var : StructMemberVar} :
      Met d root off n → d.get? n = some st → var ∈ st.children →
      (d.get? var.typeName).isSome = true → Met d root (off + var.offsetBytes) var.typeName

/-- The struct `n` is inside `root`, at an offset: it is a member of a struct that is inside, or an
element of an array that is. -/
inductive Embedded (d : Dict String StructEntry) (root : String) : Int → String → Prop where
  | root : (d.get? root).isSome = true → Embedded d root 0 root
  | member {off : Int} {n : String} {st : StructEntry} {var : StructMemberVar} :
      Embedded d root off n → d.get? n = some st → var ∈ st.children → var.isPtr = false →
      (d.get? var.typeName).isSome = true → Embedded d root (off + var.offsetBytes) var.typeName
  | element {off : Int} {n : String} {st inner : StructEntry} {var : StructMemberVar} {i : Nat} :
      Embedded d root off n → d.get? n = some st → var ∈ st.children → var.isPtr = false →
      var.isAry = true → d.get? var.typeName = some inner →
      (i + 1) * inner.sizeBytes ≤ var.sizeBytes →
      Embedded d root (off + var.offsetBytes + i * inner.sizeBytes) var.typeName

/-- A member of the struct `n` has a type whose name is that of the struct `m`. -/
def Follows (d : Dict String StructEntry) (n m : String) : Prop :=
  ∃ st var, d.get? n = some st ∧ var ∈ st.children ∧ var.typeName = m ∧ (d.get? m).isSome = true

/-- The helper returns, and the intervals that it adds are those of structs inside `stName`, at
their addresses. -/
def HelperRight (pid addr size : Int) (stName : String) (s : IvState) : Prop :=
  ∃ limit s' added, IvState.helper pid limit addr size stName s = some s' ∧
    s'.tree pid = s.tree pid ++ added ∧
    ∀ iv ∈ added, ∃ off, Embedded s.structDict stName off iv.2.2.structName ∧
      iv.1 = addr + off ∧ iv.2.2.addr = addr + off

/-- What the names lead to from `stName` never leads back to itself, begins inside the record, has no
empty member, and is inside `stName` where it is met. -/
structure MetRight (d : Dict String StructEntry) (size : Int) (stName : String) : Prop where
  acyclic : ∀ off n, Met d stName off n → ¬ Relation.TransGen (Follows d) n n
  begins : ∀ off n, Met d stName off n → off < size
  members : ∀ off n st, Met d stName off n → d.get? n = some st →
    ∀ var ∈ st.children, 0 < var.sizeBytes
  embedded : ∀ off n, Met d stName off n → Embedded d stName off n

section

variable {d : Dict String StructEntry} {root : String}

theorem Met.known {off : Int} {n : String} (h : Met d root off n) : (d.get? n).isSome = true := by
  cases h with
  | root h => exact h
  | member _ _ _ h => exact h

/-! ## What is entered is what is met -/

theorem met_of_mem_visits {limit : Nat} {addr size off : Int} {n : String} {v : Visit}
    (h : v ∈ visits d limit (addr + off) (size - off) n) (hn : Met d root off n) :
    ∃ off', v.addr = addr + off' ∧ v.size = size - off' ∧ Met d root off' v.stName := by
  induction limit generalizing off n with
  | zero => exact absurd h List.not_mem_nil
  | succ limit ih =>
    rw [visits] at h
    obtain ⟨st, hst⟩ := Option.isSome_iff_exists.mp hn.known
    rw [hst] at h
    rcases List.mem_cons.mp h with rfl | h
    · exact ⟨off, rfl, rfl, hn⟩
    · obtain ⟨var, hvar, h⟩ := List.mem_flatMap.mp h
      have haddr : addr + off + var.offsetBytes = addr + (off + var.offsetBytes) := by omega
      have hsize : size - off - var.offsetBytes = size - (off + var.offsetBytes) := by omega
      rw [haddr, hsize] at h
      by_cases hknown : (d.get? var.typeName).isSome = true
      · exact ih h (hn.member hst hvar hknown)
      · -- nothing is entered for a type that is no struct
        have hnone : d.get? var.typeName = none := Option.not_isSome_iff_eq_none.mp hknown
        cases limit with
        | zero => exact absurd h List.not_mem_nil
        | succ k =>
          rw [visits, hnone] at h
          exact absurd h List.not_mem_nil

/-- A struct that is met is entered, when the limit lets the helper return. -/
theorem entered_of_met {limit : Nat} (addr : Int) {size : Int} (henters : Enters d limit size root)
    {off : Int} {n : String} (h : Met d root off n) :
    ∃ k, Enters d k (size - off) n ∧
      ∀ v ∈ visits d k (addr + off) (size - off) n, v ∈ visits d limit addr size root := by
  induction h with
  | root _ =>
    rw [sub_zero, add_zero]
    exact ⟨limit, henters, fun v hv => hv⟩
  | @member off n st var _ hst hvar _ ih =>
    obtain ⟨k, hk, hsub⟩ := ih
    cases k with
    | zero => exact hk.elim
    | succ k =>
      have haddr : addr + off + var.offsetBytes = addr + (off + var.offsetBytes) := by omega
      have hsize : size - off - var.offsetBytes = size - (off + var.offsetBytes) := by omega
      simp only [Enters, hst] at hk
      refine ⟨k, hsize ▸ hk.2.2 var hvar, fun v hv => hsub v ?_⟩
      rw [visits, hst]
      refine List.mem_cons_of_mem _ (List.mem_flatMap.mpr ⟨var, hvar, ?_⟩)
      rw [haddr, hsize]
      exact hv

theorem Enters.follows {limit : Nat} {size : Int} {n m : String} (h : Enters d limit size n)
    (hm : Follows d n m) : ∃ size' k, k < limit ∧ Enters d k size' m := by
  obtain ⟨st, var, hst, hvar, rfl, -⟩ := hm
  cases limit with
  | zero => exact h.elim
  | succ limit =>
    simp only [Enters, hst] at h
    exact ⟨_, limit, Nat.lt_succ_self limit, h.2.2 var hvar⟩

theorem Enters.leads {limit : Nat} {size : Int} {n m : String} (h : Enters d limit size n)
    (hm : Relation.TransGen (Follows d) n m) : ∃ size' k, k < limit ∧ Enters d k size' m := by
  induction hm with
  | single hm => exact h.follows hm
  | tail _ hstep ih =>
    obtain ⟨size₁, k₁, hk₁, h₁⟩ := ih
    obtain ⟨size₂, k₂, hk₂, h₂⟩ := h₁.follows hstep
    exact ⟨size₂, k₂, hk₂.trans hk₁, h₂⟩

/-- Each turn of a cycle needs more of the limit. -/
theorem not_enters_of_cycle {n : String} (hcycle : Relation.TransGen (Follows d) n n) :
    ∀ (limit : Nat) (size : Int), ¬ Enters d limit size n := by
  intro limit
  induction limit using Nat.strong_induction_on with
  | _ limit ih =>
    intro size h
    obtain ⟨size', k, hk, h'⟩ := h.leads hcycle
    exact ih k hk size' h'

/-! ## Enough of a limit -/

theorem Enters.succ {limit : Nat} {size : Int} {n : String} (h : Enters d limit size n) :
    Enters d (limit + 1) size n := by
  induction limit generalizing size n with
  | zero => exact h.elim
  | succ limit ih =>
    cases hst : d.get? n with
    | none => simp only [Enters, hst]
    | some st =>
      simp only [Enters, hst] at h ⊢
      exact ⟨h.1, h.2.1, fun var hvar => ih (h.2.2 var hvar)⟩

theorem Enters.mono {limit limit' : Nat} (hle : limit ≤ limit') {size : Int} {n : String}
    (h : Enters d limit size n) : Enters d limit' size n := by
  induction hle with
  | refl => exact h
  | step _ ih => exact ih.succ

/-- A limit for several members at once. -/
theorem exists_limit {l : List StructMemberVar} {size : Int}
    (h : ∀ var ∈ l, ∃ k, Enters d k (size - var.offsetBytes) var.typeName) :
    ∃ k, ∀ var ∈ l, Enters d k (size - var.offsetBytes) var.typeName := by
  induction l with
  | nil => exact ⟨0, fun var hvar => absurd hvar List.not_mem_nil⟩
  | cons var rest ih =>
    obtain ⟨k, hk⟩ := h var List.mem_cons_self
    obtain ⟨k', hk'⟩ := ih fun v hv => h v (List.mem_cons_of_mem _ hv)
    refine ⟨max k k', fun v hv => ?_⟩
    rcases List.mem_cons.mp hv with rfl | hv
    · exact hk.mono (Nat.le_max_left k k')
    · exact (hk' v hv).mono (Nat.le_max_right k k')

/-- Without cycles, what is met can be gone through from the innermost structs outwards. -/
theorem wellFounded_follows
    (h : ∀ off n, Met d root off n → ¬ Relation.TransGen (Follows d) n n) :
    WellFounded fun x y : {n // ∃ off, Met d root off n} =>
      Relation.TransGen (Follows d) y.1 x.1 := by
  have hfinite : Finite {n // ∃ off, Met d root off n} := by
    refine (List.finite_toSet d.keys).subset fun n hn => ?_
    obtain ⟨off, hn⟩ := hn
    obtain ⟨st, hst⟩ := Option.isSome_iff_exists.mp hn.known
    exact Dict.mem_keys.mpr ⟨st, hst⟩
  have htrans : IsTrans {n // ∃ off, Met d root off n} fun x y =>
      Relation.TransGen (Follows d) y.1 x.1 := ⟨fun x y z hxy hyz => hyz.trans hxy⟩
  have hirrefl : Std.Irrefl fun x y : {n // ∃ off, Met d root off n} =>
      Relation.TransGen (Follows d) y.1 x.1 := ⟨fun x hx => by
    obtain ⟨off, hoff⟩ := x.2
    exact h off x.1 hoff hx⟩
  exact Finite.wellFounded_of_trans_of_irrefl _

theorem MetRight.enters {size : Int} (h : MetRight d size root) :
    ∀ off n, Met d root off n → ∃ limit, Enters d limit (size - off) n := by
  have hwf := wellFounded_follows h.acyclic
  have hall : ∀ x : {n // ∃ off, Met d root off n}, ∀ off, Met d root off x.1 →
      ∃ limit, Enters d limit (size - off) x.1 := by
    intro x
    induction x using hwf.induction with
    | _ x ih =>
      intro off hmet
      obtain ⟨st, hst⟩ := Option.isSome_iff_exists.mp hmet.known
      have hmembers : ∀ var ∈ st.children,
          ∃ k, Enters d k (size - off - var.offsetBytes) var.typeName := by
        intro var hvar
        by_cases hknown : (d.get? var.typeName).isSome = true
        · have hnext := hmet.member hst hvar hknown
          obtain ⟨k, hk⟩ := ih ⟨var.typeName, _, hnext⟩
            (Relation.TransGen.single ⟨st, var, hst, hvar, rfl, hknown⟩) _ hnext
          have hsize : size - off - var.offsetBytes = size - (off + var.offsetBytes) := by omega
          rw [hsize]
          exact ⟨k, hk⟩
        · have hnone : d.get? var.typeName = none := Option.not_isSome_iff_eq_none.mp hknown
          refine ⟨1, ?_⟩
          simp only [Enters, hnone]
      obtain ⟨k, hk⟩ := exists_limit hmembers
      have hbegins := h.begins off x.1 hmet
      refine ⟨k + 1, ?_⟩
      simp only [Enters, hst]
      exact ⟨h.members off x.1 st hmet hst, by omega, hk⟩
  exact fun off n hmet => hall ⟨n, off, hmet⟩ off hmet

/-! ## When the helper is right -/

theorem Visit.mem_visits {limit : Nat} {addr size : Int} {n : String}
    (henters : Enters d limit size n) (hn : (d.get? n).isSome = true) :
    (⟨addr, size, n⟩ : Visit) ∈ visits d limit addr size n := by
  obtain ⟨st, hst⟩ := Option.isSome_iff_exists.mp hn
  cases limit with
  | zero => exact henters.elim
  | succ limit =>
    rw [visits, hst]
    exact List.mem_cons_self

theorem Enters.positive {limit : Nat} {size : Int} {n : String} {st : StructEntry}
    (h : Enters d limit size n) (hst : d.get? n = some st) :
    (∀ var ∈ st.children, 0 < var.sizeBytes) ∧ 0 < size := by
  cases limit with
  | zero => exact h.elim
  | succ limit =>
    simp only [Enters, hst] at h
    exact ⟨h.1, h.2.1⟩

theorem MetRight.of_helperRight {pid addr size : Int} {stName : String} {s : IvState}
    (h : HelperRight pid addr size stName s) : MetRight s.structDict size stName := by
  obtain ⟨limit, s', added, hhelper, htree, hadded⟩ := h
  have hsame := SameMembers.refl s.structDict
  obtain ⟨henters, hs'⟩ := (helper_eq_some_iff hsame).mp hhelper
  have hivs := tree_foldl_enter pid
    (fun v hv => known_of_mem_visits hv : ∀ v ∈ visits s.structDict limit addr size stName, _)
    hsame pid
  rw [← hs', if_pos rfl, htree] at hivs
  have hall := List.append_cancel_left hivs
  constructor
  · intro off n hmet hcycle
    obtain ⟨k, hk, -⟩ := entered_of_met addr henters hmet
    exact not_enters_of_cycle hcycle k _ hk
  · intro off n hmet
    obtain ⟨k, hk, -⟩ := entered_of_met addr henters hmet
    obtain ⟨st, hst⟩ := Option.isSome_iff_exists.mp hmet.known
    have hpos := (hk.positive hst).2
    omega
  · intro off n st hmet hst
    obtain ⟨k, hk, -⟩ := entered_of_met addr henters hmet
    exact (hk.positive hst).1
  · intro off n hmet
    obtain ⟨k, hk, hsub⟩ := entered_of_met addr henters hmet
    have hmem := hsub _ (Visit.mem_visits hk hmet.known)
    have hiv : (⟨addr + off, size - off, n⟩ : Visit).iv ∈ added := by
      rw [hall]
      exact List.mem_map_of_mem hmem
    obtain ⟨off', hemb, hoff, -⟩ := hadded _ hiv
    have hsum : addr + off = addr + off' := hoff
    have heq : off = off' := by omega
    rw [heq]
    exact hemb

theorem MetRight.helperRight {pid addr size : Int} {stName : String} {s : IvState}
    (h : MetRight s.structDict size stName) : HelperRight pid addr size stName s := by
  have hsame := SameMembers.refl s.structDict
  have hlimit : ∃ limit, Enters s.structDict limit size stName := by
    by_cases hknown : (s.structDict.get? stName).isSome = true
    · obtain ⟨limit, hlimit⟩ := h.enters 0 stName (Met.root hknown)
      exact ⟨limit, by rw [sub_zero] at hlimit; exact hlimit⟩
    · have hnone : s.structDict.get? stName = none := Option.not_isSome_iff_eq_none.mp hknown
      refine ⟨1, ?_⟩
      simp only [Enters, hnone]
  obtain ⟨limit, henters⟩ := hlimit
  refine ⟨limit, _, (visits s.structDict limit addr size stName).map Visit.iv,
    (helper_eq_some_iff hsame).mpr ⟨henters, rfl⟩, ?_, ?_⟩
  · exact (tree_foldl_enter pid (fun v hv => known_of_mem_visits hv) hsame pid).trans (if_pos rfl)
  · intro iv hiv
    obtain ⟨v, hv, rfl⟩ := List.mem_map.mp hiv
    have hknown : (s.structDict.get? stName).isSome = true := by
      by_contra hno
      have hnone : s.structDict.get? stName = none := Option.not_isSome_iff_eq_none.mp hno
      cases limit with
      | zero => exact henters.elim
      | succ k =>
        rw [visits, hnone] at hv
        exact absurd hv List.not_mem_nil
    have hv' : v ∈ visits s.structDict limit (addr + 0) (size - 0) stName := by
      rw [add_zero, sub_zero]
      exact hv
    obtain ⟨off, haddr, -, hmet⟩ := met_of_mem_visits hv' (Met.root hknown)
    exact ⟨off, h.embedded off _ hmet, haddr, haddr⟩

end

/-- The helper returns, having added structs inside the record's struct only, if and only if what
the names of the types lead to is finite, not empty and inside. -/
theorem helper_right_iff (pid addr size : Int) (stName : String) (s : IvState) :
    HelperRight pid addr size stName s ↔ MetRight s.structDict size stName :=
  ⟨MetRight.of_helperRight, MetRight.helperRight⟩

/-! ## A list -/

def nextVar : StructMemberVar :=
  ⟨"list_head", "list_head", "struct list_head *", "next", 64, 8, 0, 0, true, false⟩

def prevVar : StructMemberVar :=
  ⟨"list_head", "list_head", "struct list_head *", "prev", 64, 8, 64, 8, true, false⟩

example : parseMember "list_head" "struct list_head *,next,64,8,0,0,1,0".toList = some nextVar := by
  decide +kernel

def listDict : Dict String StructEntry :=
  Dict.empty.set "list_head" ⟨some ⟨"list_head", 128, 16⟩, [nextVar, prevVar]⟩

/-- The node of a list is entered at the address of its first pointer, which is its own, for ever. -/
theorem list_head_entered_forever :
    (∀ limit, IvState.helper 7 limit 4096 16 "list_head" ⟨listDict, maxSize, Dict.empty⟩ = none) ∧
      ¬ HelperRight 7 4096 16 "list_head" ⟨listDict, maxSize, Dict.empty⟩ := by
  have hself : Follows listDict "list_head" "list_head" :=
    ⟨_, nextVar, rfl, List.mem_cons_self, rfl, rfl⟩
  have hnone : ∀ limit, IvState.helper 7 limit 4096 16 "list_head"
      ⟨listDict, maxSize, Dict.empty⟩ = none := by
    intro limit
    exact (helper_eq 7 limit 4096 16 "list_head" (SameMembers.refl listDict)).2
      (not_enters_of_cycle (Relation.TransGen.single hself) limit 16)
  refine ⟨hnone, ?_⟩
  intro h
  obtain ⟨limit, s', added, hhelper, -⟩ := h
  rw [hnone limit] at hhelper
  cases hhelper

end Layout
end Silhouette
