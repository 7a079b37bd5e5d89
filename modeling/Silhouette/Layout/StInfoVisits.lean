import Silhouette.Layout.StInfoIndex

/-!
# The structs that a record leads to

For a record of a struct the index enters the struct, and then what the types of its members name,
and so on.  Whether this comes to an end depends on the members and on the size of the record alone,
and then it does the same as entering a list of structs one after the other.
-/

namespace Silhouette
namespace Layout

open Lib

/-- A struct to enter: its address, the size that is left for it, and its name. -/
structure Visit where
  addr : Int
  size : Int
  stName : String
  deriving DecidableEq, Repr

/-- The structs that the helper enters, in its order. -/
def visits (structDict : Dict String StructEntry) : Nat → Int → Int → String → List Visit
  | 0, _, _, _ => []
  | limit + 1, addr, size, stName =>
    match structDict.get? stName with
    | none => []
    | some st => ⟨addr, size, stName⟩ :: st.children.flatMap fun var =>
        visits structDict limit (addr + var.offsetBytes) (size - var.offsetBytes) var.typeName

/-- The struct of an entry, with the size of the record. -/
def resized (st : StructEntry) (size : Int) : StructEntry :=
  if size ≠ st.sizeBytes then st.setSize size else st

/-- Enter one struct. -/
def IvState.enter (pid : Int) (s : IvState) (v : Visit) : IvState :=
  match s.structDict.get? v.stName with
  | none => s
  | some st =>
    let iv := (s.pidAddrToStinfoIv.get? pid).getD []
    { structDict := s.structDict.set v.stName (resized st v.size)
      minStSize := min s.minStSize (resized st v.size).sizeBytes
      pidAddrToStinfoIv := s.pidAddrToStinfoIv.set pid
        (iv ++ [(v.addr, v.addr + v.size, ⟨v.addr, v.stName⟩)]) }

/-- No interval on the way is empty, and the way is not longer than the limit. -/
def Enters (structDict : Dict String StructEntry) : Nat → Int → String → Prop
  | 0, _, _ => False
  | limit + 1, size, stName =>
    match structDict.get? stName with
    | none => True
    | some st => (∀ var ∈ st.children, 0 < var.sizeBytes) ∧ 0 < size ∧
        ∀ var ∈ st.children, Enters structDict limit (size - var.offsetBytes) var.typeName

/-- Two layouts with the same members.  The sizes of the structs may differ. -/
def SameMembers (d d' : Dict String StructEntry) : Prop :=
  ∀ n, (d.get? n).map StructEntry.children = (d'.get? n).map StructEntry.children

theorem SameMembers.refl (d : Dict String StructEntry) : SameMembers d d := fun _ => rfl

theorem SameMembers.get? {d d' : Dict String StructEntry} (h : SameMembers d d') {n : String}
    {st : StructEntry} (hst : d.get? n = some st) :
    ∃ st', d'.get? n = some st' ∧ st'.children = st.children := by
  have hn := h n
  rw [hst, Option.map_some] at hn
  exact Option.map_eq_some_iff.mp hn.symm

theorem SameMembers.get?_none {d d' : Dict String StructEntry} (h : SameMembers d d') {n : String}
    (hn : d.get? n = none) : d'.get? n = none := by
  have h := h n
  rw [hn, Option.map_none] at h
  exact Option.map_eq_none_iff.mp h.symm

theorem children_resized (st : StructEntry) (size : Int) :
    (resized st size).children = st.children := by
  rw [resized]
  split_ifs <;> rfl

theorem SameMembers.enter {s : IvState} {d : Dict String StructEntry}
    (h : SameMembers s.structDict d) (pid : Int) (v : Visit) :
    SameMembers (s.enter pid v).structDict d := by
  intro n
  rw [IvState.enter]
  cases hst : s.structDict.get? v.stName with
  | none => exact h n
  | some st =>
    show ((s.structDict.set v.stName (resized st v.size)).get? n).map StructEntry.children = _
    rw [← h n, Dict.get?_set]
    by_cases hn : n = v.stName
    · rw [if_pos hn, hn, hst, Option.map_some, Option.map_some, children_resized]
    · rw [if_neg hn]

theorem SameMembers.foldl_enter {d : Dict String StructEntry} (pid : Int) (l : List Visit)
    {s : IvState} (h : SameMembers s.structDict d) :
    SameMembers (l.foldl (IvState.enter pid) s).structDict d := by
  induction l generalizing s with
  | nil => exact h
  | cons v rest ih => exact ih (h.enter pid v)

section

variable {pid : Int} {d : Dict String StructEntry}

/-- What the helper does at a struct, before it goes on to the members. -/
theorem helper_succ {limit : Nat} {addr size : Int} {stName : String} {s : IvState}
    {st : StructEntry} (hst : s.structDict.get? stName = some st) :
    IvState.helper pid (limit + 1) addr size stName s =
      if (st.children.any fun var => var.sizeBytes ≤ 0) = true ∨ size ≤ 0 then none
      else st.children.foldlM
        (fun s var => IvState.helper pid limit (addr + var.offsetBytes) (size - var.offsetBytes)
          var.typeName s) (s.enter pid ⟨addr, size, stName⟩) := by
  have hresized : (if size ≠ st.sizeBytes then st.setSize size else st) = resized st size := rfl
  simp only [IvState.helper, hst, hresized, children_resized, IvState.enter]
  by_cases hnull : (st.children.any fun var => var.sizeBytes ≤ 0) = true
  · rw [if_pos hnull, if_pos (Or.inl hnull)]
  · rw [if_neg hnull]
    by_cases hsize : size ≤ 0
    · rw [if_pos hsize, if_pos (Or.inr hsize)]
    · rw [if_neg hsize, if_neg fun h => h.elim hnull hsize]

theorem not_null_iff {st : StructEntry} {size : Int} :
    ¬ ((st.children.any fun var => var.sizeBytes ≤ 0) = true ∨ size ≤ 0) ↔
      (∀ var ∈ st.children, 0 < var.sizeBytes) ∧ 0 < size := by
  rw [not_or, List.any_eq_true]
  constructor
  · intro h
    refine ⟨fun var hvar => ?_, by omega⟩
    by_contra hle
    exact h.1 ⟨var, hvar, decide_eq_true (by omega)⟩
  · intro h
    refine ⟨fun hnull => ?_, by omega⟩
    obtain ⟨var, hvar, hle⟩ := hnull
    have hpos := h.1 var hvar
    have hle := of_decide_eq_true hle
    omega

/-- The helper returns if and only if it can enter everything, and it enters that and no more. -/
theorem helper_eq (pid : Int) (limit : Nat) (addr size : Int) (stName : String) {s : IvState}
    (hs : SameMembers s.structDict d) :
    (Enters d limit size stName → IvState.helper pid limit addr size stName s =
      some ((visits d limit addr size stName).foldl (IvState.enter pid) s)) ∧
    (¬ Enters d limit size stName → IvState.helper pid limit addr size stName s = none) := by
  induction limit generalizing addr size stName s with
  | zero => exact ⟨fun h => h.elim, fun _ => rfl⟩
  | succ limit ih =>
    cases hst : s.structDict.get? stName with
    | none =>
      have hd := hs.get?_none hst
      have henters : Enters d (limit + 1) size stName := by
        simp only [Enters, hd]
      refine ⟨fun _ => ?_, fun hno => absurd henters hno⟩
      simp only [IvState.helper, hst, visits, hd]
      rfl
    | some st =>
      obtain ⟨st', hd, hchildren⟩ := hs.get? hst
      rw [helper_succ hst]
      have henters : Enters d (limit + 1) size stName ↔
          ((∀ var ∈ st.children, 0 < var.sizeBytes) ∧ 0 < size) ∧
            ∀ var ∈ st.children, Enters d limit (size - var.offsetBytes) var.typeName := by
        simp only [Enters, hd, hchildren, and_assoc]
      -- the members one after the other, from any state with these members
      have hloop : ∀ (l : List StructMemberVar) (s₁ : IvState), SameMembers s₁.structDict d →
          ((∀ var ∈ l, Enters d limit (size - var.offsetBytes) var.typeName) →
            l.foldlM (fun s var => IvState.helper pid limit (addr + var.offsetBytes)
                (size - var.offsetBytes) var.typeName s) s₁ =
              some ((l.flatMap fun var => visits d limit (addr + var.offsetBytes)
                (size - var.offsetBytes) var.typeName).foldl (IvState.enter pid) s₁)) ∧
          (¬ (∀ var ∈ l, Enters d limit (size - var.offsetBytes) var.typeName) →
            l.foldlM (fun s var => IvState.helper pid limit (addr + var.offsetBytes)
                (size - var.offsetBytes) var.typeName s) s₁ = none) := by
        intro l
        induction l with
        | nil => exact fun s₁ hs₁ => ⟨fun _ => rfl, fun hno => absurd (by simp) hno⟩
        | cons var rest ihl =>
          intro s₁ hs₁
          obtain ⟨hyes, hno⟩ := ih (addr + var.offsetBytes) (size - var.offsetBytes) var.typeName hs₁
          obtain ⟨hyes', hno'⟩ := ihl _ (hs₁.foldl_enter pid (visits d limit
            (addr + var.offsetBytes) (size - var.offsetBytes) var.typeName))
          rw [List.foldlM_cons, List.flatMap_cons, List.foldl_append]
          by_cases hvar : Enters d limit (size - var.offsetBytes) var.typeName
          · rw [hyes hvar]
            exact ⟨fun h => hyes' fun v hv => h v (List.mem_cons_of_mem _ hv),
              fun h => hno' fun hrest => h (List.forall_mem_cons.mpr ⟨hvar, hrest⟩)⟩
          · rw [hno hvar]
            exact ⟨fun h => absurd (h var List.mem_cons_self) hvar, fun _ => rfl⟩
      obtain ⟨hyes, hno⟩ := hloop st.children _ (hs.enter pid ⟨addr, size, stName⟩)
      rw [henters]
      constructor
      · intro h
        rw [if_neg (not_null_iff.mpr h.1), hyes h.2]
        simp only [visits, hd, hchildren]
        rfl
      · intro h
        by_cases hnull : (∀ var ∈ st.children, 0 < var.sizeBytes) ∧ 0 < size
        · rw [if_neg (not_null_iff.mpr hnull)]
          exact hno fun hall => h ⟨hnull, hall⟩
        · rw [if_pos (not_not.mp (mt not_null_iff.mp hnull))]

theorem helper_eq_some_iff {limit : Nat} {addr size : Int} {stName : String} {s s' : IvState}
    (hs : SameMembers s.structDict d) :
    IvState.helper pid limit addr size stName s = some s' ↔ Enters d limit size stName ∧
      s' = (visits d limit addr size stName).foldl (IvState.enter pid) s := by
  obtain ⟨hyes, hno⟩ := helper_eq pid limit addr size stName hs
  by_cases h : Enters d limit size stName
  · rw [hyes h, Option.some.injEq]
    exact ⟨fun heq => ⟨h, heq.symm⟩, fun heq => heq.2.symm⟩
  · rw [hno h]
    exact ⟨fun heq => absurd heq (by simp), fun heq => absurd heq.1 h⟩

end

/-! ## The intervals -/

/-- The interval of an entered struct. -/
def Visit.iv (v : Visit) : Int × Int × AddrToStInfoEntry :=
  (v.addr, v.addr + v.size, ⟨v.addr, v.stName⟩)

/-- The intervals of a process. -/
def IvState.tree (s : IvState) (pid : Int) : List (Int × Int × AddrToStInfoEntry) :=
  (s.pidAddrToStinfoIv.get? pid).getD []

theorem tree_enter {s : IvState} {pid : Int} {v : Visit}
    (hv : (s.structDict.get? v.stName).isSome = true) (p : Int) :
    (s.enter pid v).tree p = if p = pid then s.tree pid ++ [v.iv] else s.tree p := by
  obtain ⟨st, hst⟩ := Option.isSome_iff_exists.mp hv
  simp only [IvState.enter, hst, IvState.tree, Dict.get?_set, Visit.iv]
  by_cases hp : p = pid
  · rw [if_pos hp, if_pos hp, Option.getD_some]
  · rw [if_neg hp, if_neg hp]

theorem known_of_mem_visits {d : Dict String StructEntry} {limit : Nat} {addr size : Int}
    {stName : String} {v : Visit} (h : v ∈ visits d limit addr size stName) :
    (d.get? v.stName).isSome = true := by
  induction limit generalizing addr size stName with
  | zero => exact absurd h List.not_mem_nil
  | succ limit ih =>
    rw [visits] at h
    cases hst : d.get? stName with
    | none =>
      rw [hst] at h
      exact absurd h List.not_mem_nil
    | some st =>
      rw [hst] at h
      rcases List.mem_cons.mp h with rfl | h
      · exact Option.isSome_iff_exists.mpr ⟨st, hst⟩
      · obtain ⟨var, -, h⟩ := List.mem_flatMap.mp h
        exact ih h

/-- Entering structs adds their intervals to those of the process. -/
theorem tree_foldl_enter {d : Dict String StructEntry} (pid : Int) {l : List Visit}
    (hl : ∀ v ∈ l, (d.get? v.stName).isSome = true) {s : IvState}
    (hs : SameMembers s.structDict d) (p : Int) :
    (l.foldl (IvState.enter pid) s).tree p =
      if p = pid then s.tree pid ++ l.map Visit.iv else s.tree p := by
  induction l generalizing s with
  | nil =>
    split_ifs with hp
    · rw [hp, List.map_nil, List.append_nil]
      rfl
    · rfl
  | cons v rest ih =>
    have hknown : (s.structDict.get? v.stName).isSome = true := by
      have hn := congrArg Option.isSome (hs v.stName)
      rw [Option.isSome_map, Option.isSome_map] at hn
      rw [hn]
      exact hl v List.mem_cons_self
    rw [List.foldl_cons, ih (fun w hw => hl w (List.mem_cons_of_mem _ hw)) (hs.enter pid v),
      tree_enter hknown, tree_enter hknown, if_pos rfl]
    split_ifs with hp
    · rw [List.map_cons, List.append_assoc]
      rfl
    · rfl

end Layout
end Silhouette
