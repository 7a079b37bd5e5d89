import Silhouette.Layout.StructInfo
import Silhouette.Lib.LabelSearch

/-!
# The structs around a struct

The reader of the layouts remembers which structs have members of which struct types, in both
directions.  From the struct at the destination of a pointer the reasoner goes to the structs that
can lie around it and inside it, with their addresses.  It goes on from the first place where it
meets a struct, and from no other, so a second member of the same type is a dead end:
`nested_exact_iff`.
-/

namespace Silhouette

open Lib

namespace Layout

/-- A set that is iterated comes out in some order. -/
structure SetOrder (α : Type) where
  list : List α → List α
  perm : ∀ l, (list l).Perm l

/-- The members with a struct type of each struct, and the structs that each struct is a member of,
with the offsets. -/
structure NestedDicts where
  nestedStnameToVarStname : Dict String (List (String × Int))
  nestedVarStnameToParentStname : Dict String (List (String × Int))

namespace StructInfoReader

def addNested (d : Dict String (List (String × Int))) (name : String) (x : String × Int) :
    Dict String (List (String × Int)) :=
  d.set name (((d.get? name).getD []).insert x)

/-- One turn of the inner loop of `__init_nested`. -/
def initNestedVar (structDict : Dict String StructEntry) (name : String) (nd : NestedDicts)
    (var : StructMemberVar) : NestedDicts :=
  if var.typeName ∈ structDict.keys then
    ⟨addNested nd.nestedStnameToVarStname name (var.typeName, var.offsetBytes),
      addNested nd.nestedVarStnameToParentStname var.typeName (name, var.offsetBytes)⟩
  else nd

/-- `__init_nested` -/
def initNested (structDict : Dict String StructEntry) : NestedDicts :=
  structDict.items.foldl
    (fun nd st => st.2.children.foldl (initNestedVar structDict st.1) nd) ⟨Dict.empty, Dict.empty⟩

end StructInfoReader

/-- The struct `n` has a member of the struct type `m`, at an offset. -/
def MemberOf (d : Dict String StructEntry) (n m : String) (off : Int) : Prop :=
  ∃ st var, d.get? n = some st ∧ var ∈ st.children ∧ m ∈ d.keys ∧ var.typeName = m ∧
    var.offsetBytes = off

namespace StructInfoReader

variable {d : Dict String StructEntry}

theorem mem_addNested {nd : Dict String (List (String × Int))} {name n : String}
    {x y : String × Int} : y ∈ ((addNested nd name x).get? n).getD [] ↔
      y ∈ (nd.get? n).getD [] ∨ n = name ∧ y = x := by
  rw [addNested, Dict.get?_set]
  by_cases hn : n = name
  · rw [if_pos hn, Option.getD_some, List.mem_insert_iff, hn]
    constructor
    · rintro (rfl | hy)
      · exact Or.inr ⟨rfl, rfl⟩
      · exact Or.inl hy
    · rintro (hy | ⟨-, rfl⟩)
      · exact Or.inr hy
      · exact Or.inl rfl
  · rw [if_neg hn]
    exact ⟨Or.inl, fun h => h.resolve_right fun hr => hn hr.1⟩

/-- What either dictionary holds, given where a member goes in it. -/
theorem mem_initNested {p : NestedDicts → Dict String (List (String × Int))}
    {key : String → StructMemberVar → String} {val : String → StructMemberVar → String × Int}
    (hempty : p ⟨Dict.empty, Dict.empty⟩ = Dict.empty)
    (hset : ∀ name nd var, var.typeName ∈ d.keys →
      p (initNestedVar d name nd var) = addNested (p nd) (key name var) (val name var))
    (n : String) (y : String × Int) :
    y ∈ ((p (initNested d)).get? n).getD [] ↔ ∃ st ∈ d.items, ∃ var ∈ st.2.children,
      var.typeName ∈ d.keys ∧ n = key st.1 var ∧ y = val st.1 var := by
  have hvar : ∀ (name : String) (nd : NestedDicts) (var : StructMemberVar) (y : String × Int),
      y ∈ ((p (initNestedVar d name nd var)).get? n).getD [] ↔ y ∈ ((p nd).get? n).getD [] ∨
        (var.typeName ∈ d.keys ∧ n = key name var ∧ y = val name var) := by
    intro name nd var y
    by_cases hkey : var.typeName ∈ d.keys
    · rw [hset name nd var hkey, mem_addNested]
      exact or_congr_right ⟨fun h => ⟨hkey, h⟩, And.right⟩
    · rw [initNestedVar, if_neg hkey]
      exact ⟨Or.inl, fun h => h.resolve_right fun hr => hkey hr.1⟩
  have hstruct : ∀ (nd : NestedDicts) (st : String × StructEntry) (y : String × Int),
      y ∈ ((p (st.2.children.foldl (initNestedVar d st.1) nd)).get? n).getD [] ↔
        y ∈ ((p nd).get? n).getD [] ∨ ∃ var ∈ st.2.children,
          var.typeName ∈ d.keys ∧ n = key st.1 var ∧ y = val st.1 var :=
    fun nd st => foldl_collects (fun nd y => y ∈ ((p nd).get? n).getD []) _ (hvar st.1) _ nd
  rw [initNested, foldl_collects (fun nd y => y ∈ ((p nd).get? n).getD []) _ hstruct, hempty]
  simp

/-- The members of a struct. -/
theorem mem_vars_iff {n : String} {y : String × Int} :
    y ∈ ((initNested d).nestedStnameToVarStname.get? n).getD [] ↔ MemberOf d n y.1 y.2 := by
  rw [mem_initNested (p := NestedDicts.nestedStnameToVarStname) rfl
    fun name nd var hkey => by rw [initNestedVar, if_pos hkey]]
  constructor
  · rintro ⟨st, hst, var, hvar, hkey, rfl, rfl⟩
    exact ⟨st.2, var, Dict.get?_eq_some.mpr hst, hvar, hkey, rfl, rfl⟩
  · rintro ⟨st, var, hst, hvar, hkey, htype, hoff⟩
    exact ⟨(n, st), Dict.get?_eq_some.mp hst, var, hvar, htype ▸ hkey, rfl,
      Prod.ext htype.symm hoff.symm⟩

/-- The structs that a struct is a member of. -/
theorem mem_parents_iff {n : String} {y : String × Int} :
    y ∈ ((initNested d).nestedVarStnameToParentStname.get? n).getD [] ↔ MemberOf d y.1 n y.2 := by
  rw [mem_initNested (p := NestedDicts.nestedVarStnameToParentStname) rfl
    fun name nd var hkey => by rw [initNestedVar, if_pos hkey]]
  constructor
  · rintro ⟨st, hst, var, hvar, hkey, rfl, rfl⟩
    exact ⟨st.2, var, Dict.get?_eq_some.mpr hst, hvar, hkey, rfl, rfl⟩
  · rintro ⟨st, var, hst, hvar, hkey, htype, hoff⟩
    exact ⟨(y.1, st), Dict.get?_eq_some.mp hst, var, hvar, htype ▸ hkey, htype.symm,
      Prod.ext rfl hoff.symm⟩

end StructInfoReader

end Layout

namespace Mech

open Layout

/-! ## The loop -/

section

variable (d : Dict String StructEntry) (order : SetOrder (String × Int))

/-- What is appended for a pair of an address and a struct: the structs around it, then the structs
in it. -/
def nestedPairs (pair : Int × String) : List (Int × String) :=
  let nd := StructInfoReader.initNested d
  let parents := (nd.nestedVarStnameToParentStname.get? pair.2).getD []
  let children := (nd.nestedStnameToVarStname.get? pair.2).getD []
  (order.list parents).map (fun parent => (pair.1 - parent.2, parent.1)) ++
    (order.list children).map fun child => (pair.1 + child.2, child.1)

/-- `helper_nested_struct`: the names that are visited are those of structs.  The list and the names
are changed in place, and the flag says if the list has grown. -/
def helperNestedStruct (limit : Nat) (structList : List (Int × String))
    (stNameVisited : List String) : Option (SearchState (Int × String) String) :=
  searchPass Prod.snd (nestedPairs d order) limit 0 ⟨structList, stNameVisited, false⟩

/-- The loop around `helper_nested_struct`. -/
def nestedStructs (limit : Nat) (structList : List (Int × String)) : Option (List (Int × String)) :=
  search Prod.snd (nestedPairs d order) limit structList []

theorem nestedStructs_succ (limit : Nat) (structList : List (Int × String)) (seen : List String) :
    search Prod.snd (nestedPairs d order) (limit + 1) structList seen =
      (helperNestedStruct d order limit structList seen).bind fun s =>
        if s.grown then search Prod.snd (nestedPairs d order) limit s.nodes s.seen
        else some s.nodes := rfl

end

/-! ## What lies around a struct -/

/-- One step, to a struct around this one or to a struct in it. -/
inductive NestedStep (d : Dict String StructEntry) : Int × String → Int × String → Prop where
  | parent {addr off : Int} {n m : String} :
      MemberOf d m n off → NestedStep d (addr, n) (addr - off, m)
  | child {addr off : Int} {n m : String} :
      MemberOf d n m off → NestedStep d (addr, n) (addr + off, m)

/-- A path that visits the structs of these names, each of them once, leads to a pair. -/
inductive NestedPath (d : Dict String StructEntry) (start : List (Int × String)) :
    List String → Int × String → Prop where
  | start {p : Int × String} : p ∈ start → NestedPath d start [p.2] p
  | step {names : List String} {p q : Int × String} :
      NestedPath d start names p → NestedStep d p q → q.2 ∉ names →
      NestedPath d start (names ++ [q.2]) q

/-- The loop ends, and every such path leads to a pair in the list. -/
def NestedExact (d : Dict String StructEntry) (order : SetOrder (String × Int))
    (start : List (Int × String)) : Prop :=
  ∃ limit pairs, nestedStructs d order limit start = some pairs ∧
    ∀ names p, NestedPath d start names p → p ∈ pairs

section

variable {d : Dict String StructEntry} {order : SetOrder (String × Int)}
  {start : List (Int × String)}

theorem mem_nestedPairs {p q : Int × String} : q ∈ nestedPairs d order p ↔ NestedStep d p q := by
  simp only [nestedPairs, List.mem_append, List.mem_map, (order.perm _).mem_iff,
    StructInfoReader.mem_parents_iff, StructInfoReader.mem_vars_iff]
  constructor
  · rintro (⟨parent, hparent, rfl⟩ | ⟨child, hchild, rfl⟩)
    · exact NestedStep.parent hparent
    · exact NestedStep.child hchild
  · intro h
    cases h with
    | @parent addr off n m h => exact Or.inl ⟨(m, off), h, rfl⟩
    | @child addr off n m h => exact Or.inr ⟨(m, off), h, rfl⟩

/-- Which structs are around a struct does not depend on where it is. -/
theorem map_snd_nestedPairs {p q : Int × String} (h : p.2 = q.2) :
    (nestedPairs d order p).map Prod.snd = (nestedPairs d order q).map Prod.snd := by
  simp only [nestedPairs, List.map_append, List.map_map, h]
  rfl

theorem NestedStep.known {p q : Int × String} (h : NestedStep d p q) : q.2 ∈ d.keys := by
  cases h with
  | parent h =>
    obtain ⟨st, -, hst, -⟩ := h
    exact Dict.mem_keys.mpr ⟨st, hst⟩
  | child h =>
    obtain ⟨-, -, -, -, hkey, -⟩ := h
    exact hkey

theorem nestedStructs_ends (d : Dict String StructEntry) (order : SetOrder (String × Int))
    (start : List (Int × String)) : ∃ limit pairs, nestedStructs d order limit start = some pairs := by
  refine exists_search (d.keys ++ start.map Prod.snd).toFinset (fun p q hq => ?_) fun p hp => ?_
  · rw [List.mem_toFinset]
    exact List.mem_append_left _ (mem_nestedPairs.mp hq).known
  · rw [List.mem_toFinset]
    exact List.mem_append_right _ (List.mem_map_of_mem hp)

/-- Any limit that lets the loop end gives the same list. -/
theorem nestedStructs_unique {k m : Nat} {l l' : List (Int × String)}
    (hk : nestedStructs d order k start = some l) (hm : nestedStructs d order m start = some l') :
    l = l' :=
  Option.some.inj ((search_mono (Nat.le_max_left k m) hk).symm.trans
    (search_mono (Nat.le_max_right k m) hm))

end

/-- The loop ends with every pair that a path leads to if and only if each of them is a pair that it
begins with or one step from the first place where some struct is met. -/
theorem nested_exact_iff (d : Dict String StructEntry) (order : SetOrder (String × Int))
    (start : List (Int × String)) : NestedExact d order start ↔
      ∀ names p, NestedPath d start names p → p ∈ start ∨
        ∃ q, Foremost Prod.snd (nestedPairs d order) start q ∧ NestedStep d q p := by
  have hmem : ∀ {limit pairs}, nestedStructs d order limit start = some pairs → ∀ p,
      p ∈ pairs ↔ p ∈ start ∨
        ∃ q, Foremost Prod.snd (nestedPairs d order) start q ∧ NestedStep d q p := by
    intro limit pairs h p
    rw [mem_search_iff (fun p q => map_snd_nestedPairs) h]
    simp only [mem_nestedPairs]
  constructor
  · rintro ⟨limit, pairs, h, hall⟩ names p hp
    exact (hmem h p).mp (hall names p hp)
  · intro hall
    obtain ⟨limit, pairs, h⟩ := nestedStructs_ends d order start
    exact ⟨limit, pairs, h, fun names p hp => (hmem h p).mpr (hall names p hp)⟩

/-! ## Two members of one type -/

def structVar (father type : String) (size off : Int) : StructMemberVar :=
  ⟨father, type, "struct " ++ type, type, size * 8, size, off * 8, off, false, false⟩

/-- A pair of items, each with a tail in it. -/
def pairDict : Dict String StructEntry :=
  ((Dict.empty.set "pair" ⟨some ⟨"pair", 256, 32⟩,
    [structVar "pair" "item" 16 0, structVar "pair" "item" 16 16]⟩).set "item"
      ⟨some ⟨"item", 128, 16⟩, [structVar "item" "tail" 8 8]⟩).set "tail"
        ⟨some ⟨"tail", 64, 8⟩, []⟩

def asListed (α : Type) : SetOrder α := ⟨id, fun _ => List.Perm.refl _⟩

/-- Both items are in the list, but the tail of one of them is not. -/
theorem other_tail_missed :
    (∃ pairs, nestedStructs pairDict (asListed _) 20 [(4096, "pair")] = some pairs ∧
      (4096, "item") ∈ pairs ∧ (4120, "tail") ∈ pairs ∧ (4104, "tail") ∉ pairs) ∧
    NestedPath pairDict [(4096, "pair")] ["pair", "item", "tail"] (4104, "tail") ∧
    ¬ NestedExact pairDict (asListed _) [(4096, "pair")] := by
  have hlist : ∃ pairs, nestedStructs pairDict (asListed _) 20 [(4096, "pair")] = some pairs ∧
      (4096, "item") ∈ pairs ∧ (4120, "tail") ∈ pairs ∧ (4104, "tail") ∉ pairs := by
    refine ⟨(nestedStructs pairDict (asListed _) 20 [(4096, "pair")]).get ?_, ?_, ?_⟩
    · decide +kernel
    · exact (Option.some_get _).symm
    · decide +kernel
  have hpath : NestedPath pairDict [(4096, "pair")] ["pair", "item", "tail"] (4104, "tail") := by
    have hitem : MemberOf pairDict "pair" "item" 0 :=
      ⟨_, structVar "pair" "item" 16 0, rfl, by simp, by decide +kernel, rfl, rfl⟩
    have htail : MemberOf pairDict "item" "tail" 8 :=
      ⟨_, structVar "item" "tail" 8 8, rfl, by simp, by decide +kernel, rfl, rfl⟩
    have hone : NestedPath pairDict [(4096, "pair")] (["pair"] ++ ["item"]) (4096, "item") :=
      NestedPath.step (NestedPath.start (List.mem_singleton_self _))
        (@NestedStep.child _ 4096 _ _ _ hitem) (by decide)
    exact NestedPath.step hone (@NestedStep.child _ 4096 _ _ _ htail) (by decide)
  refine ⟨hlist, hpath, ?_⟩
  rintro ⟨limit, pairs, h, hall⟩
  obtain ⟨pairs', h', -, -, hmiss⟩ := hlist
  rw [nestedStructs_unique h h'] at hall
  exact hmiss (hall _ _ hpath)

end Mech
end Silhouette
