import Silhouette.Layout.StInfoIndex
import Mathlib.Data.List.Dedup

/-!
# The struct of a record

Behind its overlaps split and its equal intervals merged, a tree has one interval at an address at
most, and that has all structs that were entered there.  Of those around the whole record the one
that starts closest is taken, and of several that start there, the one whose first touched member is
smallest.

Ranking several structs looks at the first member that the record touches in each.  A record in the
padding of one of them touches none, which ends the program.
-/

namespace Silhouette
namespace Layout

open Lib Trace

/-- What `__eq__` of members compares. -/
def SameVar (v w : StructMemberVar) : Prop :=
  v.fatherName = w.fatherName ∧ v.typeName = w.typeName ∧ v.varName = w.varName

/-- The library.  A point has one interval at most, with the data of all that cover it, in some
order.  A range has the data of the intervals that it meets, but of two intervals with the same
bounds and equal data the tree keeps one. -/
structure IvQueries.Lawful (iv : IvQueries) : Prop where
  uncovered : ∀ t a, (∀ x ∈ t, ¬ (x.1 ≤ a ∧ a < x.2.1)) → iv.point t a = []
  covered : ∀ t a, (∃ x ∈ t, x.1 ≤ a ∧ a < x.2.1) → ∃ data, iv.point t a = [data] ∧
    ∀ y, y ∈ data ↔ ∃ x ∈ t, (x.1 ≤ a ∧ a < x.2.1) ∧ x.2.2 = y
  met : ∀ t lo hi v, v ∈ iv.overlap t lo hi → ∃ x ∈ t, lo < hi ∧ x.1 < hi ∧ lo < x.2.1 ∧ x.2.2 = v
  kept : ∀ t lo hi, ∀ x ∈ t, lo < hi → x.1 < hi → lo < x.2.1 →
    ∃ v ∈ iv.overlap t lo hi, ∃ y ∈ t, y.1 = x.1 ∧ y.2.1 = x.2.1 ∧ y.2.2 = v ∧ SameVar v x.2.2

/-- The records that get a struct: loads and stores in persistent memory. -/
def IsAccess (r : TraceReader) (e : TraceEntry) : Bool :=
  isPmAddr e.addr r.pmAddr r.pmSize && (e.type.isStoreSeries || e.type.isLoadSeries)

section

variable (s : IvState) (pid : Int) (e : TraceEntry)

/-- The struct was entered in the index for the process. -/
def Indexed (y : AddrToStInfoEntry) : Prop :=
  ∃ iv ∈ (s.pidAddrToStinfoIv.get? pid).getD [], iv.2.2 = y

/-- It was entered with an interval around the record's address. -/
def IndexedAt (y : AddrToStInfoEntry) : Prop :=
  ∃ iv ∈ (s.pidAddrToStinfoIv.get? pid).getD [], (iv.1 ≤ e.addr ∧ e.addr < iv.2.1) ∧ iv.2.2 = y

/-- The struct is around the whole record. -/
def Around (y : AddrToStInfoEntry) : Prop :=
  y.contains s.structDict e.addr (e.addr + e.size) = true

/-- The members of a struct. -/
def membersOf (y : AddrToStInfoEntry) : List StructMemberVar :=
  ((s.structDict.get? y.structName).map StructEntry.children).getD []

/-- The record touches the member. -/
def Touches (y : AddrToStInfoEntry) (v : StructMemberVar) : Prop :=
  v ∈ membersOf s y ∧ 0 < e.size ∧ y.addr + v.offsetBytes < e.addr + e.size ∧
    e.addr < y.addr + v.offsetBytes + v.sizeBytes

/-- The members that the record touches, in the order of their offsets. -/
structure VarsRight (y : AddrToStInfoEntry) (l : List StructMemberVar) : Prop where
  sorted : l.Pairwise fun v w => v.offsetBytes ≤ w.offsetBytes
  touched : ∀ v ∈ l, Touches s e y v
  all : ∀ w, Touches s e y w → ∃ v ∈ l, SameVar v w ∧ v.offsetBytes = w.offsetBytes ∧
    v.sizeBytes = w.sizeBytes

/-- If there is a struct around the record, one with the greatest address is found, and the members
that the record touches. -/
def MatchRight (m : Option Annotation) : Prop :=
  (∃ y, Indexed s pid y ∧ Around s e y) →
    ∃ ann, m = some ann ∧ Indexed s pid ann.stinfoMatch ∧ Around s e ann.stinfoMatch ∧
      (∀ y, Indexed s pid y → Around s e y → y.addr ≤ ann.stinfoMatch.addr) ∧
      VarsRight s e ann.stinfoMatch ann.varList

end

/-- No record has several structs around it, at its address, one of which has padding there, and a
struct around a record is not out of reach: one that starts there or later has an interval at the
record's address. -/
structure Matchable (iv : IvQueries) (r : TraceReader) (s : IvState) : Prop where
  ranked : ∀ x ∈ pidEntries r, IsAccess r x.2 = true → ∀ data,
    iv.point ((s.pidAddrToStinfoIv.get? x.1).getD []) x.2.addr = [data] →
    (data.filter fun y => y.contains s.structDict x.2.addr (x.2.addr + x.2.size)).length ≤ 1 ∨
      ∀ y ∈ data, Around s x.2 y → ∃ v, Touches s x.2 y v
  reached : ∀ x ∈ pidEntries r, IsAccess r x.2 = true → ∀ y, Indexed s x.1 y → Around s x.2 y →
    ∃ z, IndexedAt s x.1 x.2 z ∧ Around s x.2 z ∧ y.addr ≤ z.addr

/-! ## The annotation of a record -/

/-- What a record gets, from the structs at its address. -/
def matchAmong (iv : IvQueries) (s : IvState) (e : TraceEntry) (data : List AddrToStInfoEntry) :
    Option (Option Annotation) :=
  match candidates iv s.structDict e data with
  | [] => some none
  | [y] => some (some ⟨y.1, sortBy StructMemberVar.offsetBytes y.2⟩)
  | l => (closest e l).map fun y => some ⟨y.1, sortBy StructMemberVar.offsetBytes y.2⟩

/-- What a record gets.  Nothing is found where there is no interval, or more than one. -/
def matchOf (iv : IvQueries) (s : IvState) (x : Int × TraceEntry) : Option (Option Annotation) :=
  match iv.point ((s.pidAddrToStinfoIv.get? x.1).getD []) x.2.addr with
  | [data] => matchAmong iv s x.2 data
  | _ => some none

section

variable {iv : IvQueries} {r : TraceReader} {s : IvState}

theorem annotateEntry_eq {a : Annotations} {x : Int × TraceEntry}
    (ha : IsAccess r x.2 = true → a x.2 = none ∨ matchOf iv s x = some (a x.2)) :
    annotateEntry iv r s a x =
      if IsAccess r x.2 = true then (matchOf iv s x).map (Function.update a x.2) else some a := by
  rw [annotateEntry]
  by_cases hacc : IsAccess r x.2 = true
  · have hno : ¬ (!IsAccess r x.2) = true := by
      rw [hacc]
      decide
    rw [if_pos hacc]
    refine (if_neg hno).trans ?_
    have hsame : matchOf iv s x = some none → some a = some (Function.update a x.2 none) := by
      intro hm
      have hnone : a x.2 = none := by
        rcases ha hacc with h | h
        · exact h
        · exact Option.some.inj (h.symm.trans hm)
      rw [← hnone, Function.update_eq_self]
    cases hpoint : iv.point ((s.pidAddrToStinfoIv.get? x.1).getD []) x.2.addr with
    | nil =>
      rw [matchOf, hpoint] at hsame ⊢
      exact hsame rfl
    | cons data rest =>
      cases rest with
      | nil =>
        simp only [matchOf, hpoint, matchAmong]
        cases candidates iv s.structDict x.2 data with
        | nil => rfl
        | cons y ys =>
          cases ys with
          | nil => rfl
          | cons z zs =>
            simp only [Option.map_map]
            rfl
      | cons data' rest =>
        rw [matchOf, hpoint] at hsame ⊢
        exact hsame rfl
  · have hno : (!IsAccess r x.2) = true := by
      rw [Bool.not_eq_true] at hacc
      rw [hacc]
      rfl
    rw [if_neg hacc]
    exact if_pos hno

/-- Each of the records has what was found for it, and nothing else has anything. -/
structure Annotated (iv : IvQueries) (r : TraceReader) (s : IvState) (l : List (Int × TraceEntry))
    (a : Annotations) : Prop where
  found : ∀ x ∈ l, IsAccess r x.2 = true → matchOf iv s x = some (a x.2)
  source : ∀ e, a e ≠ none → ∃ x ∈ l, x.2 = e ∧ IsAccess r e = true

theorem annotated_nil : Annotated iv r s [] fun _ => none :=
  ⟨fun _ hx => absurd hx List.not_mem_nil, fun _ he => absurd rfl he⟩

section

variable {l : List (Int × TraceEntry)} {x : Int × TraceEntry} {a : Annotations}

/-- What is there already comes from this very record. -/
theorem Annotated.before (h : Annotated iv r s l a) (hpid : ∀ y ∈ l ++ [x], y.1 = y.2.pid) :
    a x.2 = none ∨ matchOf iv s x = some (a x.2) := by
  by_cases hnone : a x.2 = none
  · exact Or.inl hnone
  · obtain ⟨y, hy, heq, hacc⟩ := h.source x.2 hnone
    have hxy : y = x := by
      apply Prod.ext _ heq
      rw [hpid y (List.mem_append_left _ hy), hpid x List.mem_concat_self, heq]
    rw [← hxy] at hacc ⊢
    exact Or.inr (h.found y hy (heq.symm ▸ hacc))

theorem Annotated.update (h : Annotated iv r s l a) (hpid : ∀ y ∈ l ++ [x], y.1 = y.2.pid)
    (hacc : IsAccess r x.2 = true) {m : Option Annotation} (hm : matchOf iv s x = some m) :
    Annotated iv r s (l ++ [x]) (Function.update a x.2 m) where
  found := by
    intro y hy hyacc
    by_cases heq : y.2 = x.2
    · have hxy : y = x := Prod.ext (by rw [hpid y hy, hpid x List.mem_concat_self, heq]) heq
      rw [hxy, Function.update_self, hm]
    · rw [Function.update_of_ne heq]
      rcases List.mem_append.mp hy with hy | hy
      · exact h.found y hy hyacc
      · exact absurd (congrArg Prod.snd (List.mem_singleton.mp hy)) heq
  source := by
    intro e he
    by_cases heq : e = x.2
    · exact ⟨x, List.mem_concat_self, heq.symm, heq ▸ hacc⟩
    · rw [Function.update_of_ne heq] at he
      obtain ⟨y, hy, hye⟩ := h.source e he
      exact ⟨y, List.mem_append_left _ hy, hye⟩

theorem Annotated.skip (h : Annotated iv r s l a) (hacc : ¬ IsAccess r x.2 = true) :
    Annotated iv r s (l ++ [x]) a where
  found := by
    intro y hy hyacc
    rcases List.mem_append.mp hy with hy | hy
    · exact h.found y hy hyacc
    · rw [List.mem_singleton.mp hy] at hyacc
      exact absurd hyacc hacc
  source := by
    intro e he
    obtain ⟨y, hy, hye⟩ := h.source e he
    exact ⟨y, List.mem_append_left _ hy, hye⟩

end

theorem annotated_foldlM {l : List (Int × TraceEntry)} (hpid : ∀ x ∈ l, x.1 = x.2.pid)
    {a : Annotations} (ha : l.foldlM (annotateEntry iv r s) (fun _ => none) = some a) :
    Annotated iv r s l a := by
  induction l using List.reverseRecOn generalizing a with
  | nil => exact Option.some.inj ha ▸ annotated_nil
  | append_singleton l x ih =>
    rw [List.foldlM_append] at ha
    obtain ⟨a₀, ha₀, ha⟩ := Option.bind_eq_some_iff.mp ha
    have h₀ := ih (fun y hy => hpid y (List.mem_append_left _ hy)) ha₀
    rw [List.foldlM_cons, annotateEntry_eq fun _ => h₀.before hpid] at ha
    by_cases hacc : IsAccess r x.2 = true
    · rw [if_pos hacc] at ha
      obtain ⟨a₁, ha₁, hlast⟩ := Option.bind_eq_some_iff.mp ha
      obtain ⟨m, hm, rfl⟩ := Option.map_eq_some_iff.mp ha₁
      rw [← Option.some.inj hlast]
      exact h₀.update hpid hacc hm
    · rw [if_neg hacc] at ha
      obtain rfl : a₀ = a := Option.some.inj ha
      exact h₀.skip hacc

/-- The loop returns when it does so at every record. -/
theorem isSome_foldlM_annotateEntry {l : List (Int × TraceEntry)}
    (hpid : ∀ x ∈ l, x.1 = x.2.pid)
    (hall : ∀ x ∈ l, IsAccess r x.2 = true → (matchOf iv s x).isSome = true) :
    (l.foldlM (annotateEntry iv r s) (fun _ => none)).isSome = true := by
  induction l using List.reverseRecOn with
  | nil => rfl
  | append_singleton l x ih =>
    have hpid' : ∀ y ∈ l, y.1 = y.2.pid := fun y hy => hpid y (List.mem_append_left _ hy)
    obtain ⟨a, ha⟩ := Option.isSome_iff_exists.mp
      (ih hpid' fun y hy => hall y (List.mem_append_left _ hy))
    have h := annotated_foldlM hpid' ha
    rw [List.foldlM_append, ha]
    show ([x].foldlM (annotateEntry iv r s) a).isSome = true
    rw [List.foldlM_cons, annotateEntry_eq fun _ => h.before hpid]
    by_cases hacc : IsAccess r x.2 = true
    · obtain ⟨m, hm⟩ := Option.isSome_iff_exists.mp (hall x List.mem_concat_self hacc)
      rw [if_pos hacc, hm]
      rfl
    · rw [if_neg hacc]
      rfl

/-! ## The members of a record -/

theorem mem_addrToVarIv {structDict : Dict String StructEntry} {y : AddrToStInfoEntry}
    {x : Int × Int × StructMemberVar} :
    x ∈ y.addrToVarIv structDict ↔
      x.2.2 ∈ ((structDict.get? y.structName).map StructEntry.children).getD [] ∧
        x.1 = y.addr + x.2.2.offsetBytes ∧
        x.2.1 = y.addr + x.2.2.offsetBytes + x.2.2.sizeBytes := by
  rw [AddrToStInfoEntry.addrToVarIv, List.mem_map]
  constructor
  · intro h
    obtain ⟨var, hvar, rfl⟩ := h
    exact ⟨hvar, rfl, rfl⟩
  · intro h
    exact ⟨x.2.2, h.1, Prod.ext h.2.1.symm (Prod.ext h.2.2.symm rfl)⟩

theorem varsRight_of_lawful (hiv : iv.Lawful) (e : TraceEntry) (y : AddrToStInfoEntry) :
    VarsRight s e y (sortBy StructMemberVar.offsetBytes
      (y.getVarsByIv s.structDict iv e.addr (e.addr + e.size))) := by
  have hmem : ∀ v, v ∈ sortBy StructMemberVar.offsetBytes
      (y.getVarsByIv s.structDict iv e.addr (e.addr + e.size)) ↔
      v ∈ iv.overlap (y.addrToVarIv s.structDict) e.addr (e.addr + e.size) := fun v =>
    mem_sortBy.trans mem_sortBy
  refine ⟨sortBy_pairwise _ _, fun v hv => ?_, fun w hw => ?_⟩
  · obtain ⟨x, hx, hpos, hlo, hhi, hxv⟩ := hiv.met _ _ _ v ((hmem v).mp hv)
    obtain ⟨hvar, hbegin, hend⟩ := mem_addrToVarIv.mp hx
    rw [hxv] at hvar hbegin hend
    exact ⟨hvar, by omega, by omega, by omega⟩
  · obtain ⟨hw, hpos, hlo, hhi⟩ := hw
    have hx : (y.addr + w.offsetBytes, y.addr + w.offsetBytes + w.sizeBytes, w) ∈
        y.addrToVarIv s.structDict := mem_addrToVarIv.mpr ⟨hw, rfl, rfl⟩
    obtain ⟨v, hv, z, hz, hbegin, hend, hzv, hsame⟩ :=
      hiv.kept _ e.addr (e.addr + e.size) _ hx (by omega) hlo hhi
    obtain ⟨-, hbegin', hend'⟩ := mem_addrToVarIv.mp hz
    rw [hzv] at hbegin' hend'
    have hbegin : z.1 = y.addr + w.offsetBytes := hbegin
    have hend : z.2.1 = y.addr + w.offsetBytes + w.sizeBytes := hend
    exact ⟨v, (hmem v).mpr hv, hsame, by omega, by omega⟩

theorem getVarsByIv_ne_nil_iff (hiv : iv.Lawful) {e : TraceEntry} {y : AddrToStInfoEntry} :
    y.getVarsByIv s.structDict iv e.addr (e.addr + e.size) ≠ [] ↔ ∃ v, Touches s e y v := by
  have hvars := varsRight_of_lawful (s := s) hiv e y
  constructor
  · intro h
    obtain ⟨v, hv⟩ := List.exists_mem_of_ne_nil _ h
    exact ⟨v, hvars.touched v (mem_sortBy.mpr hv)⟩
  · intro h hnil
    obtain ⟨v, hv⟩ := h
    obtain ⟨w, hw, -⟩ := hvars.all v hv
    have hmem := mem_sortBy.mp hw
    rw [hnil] at hmem
    exact absurd hmem List.not_mem_nil

/-! ## The closest struct -/

theorem mem_candidates {e : TraceEntry} {data : List AddrToStInfoEntry}
    {y : AddrToStInfoEntry × List StructMemberVar} :
    y ∈ candidates iv s.structDict e data ↔ y.1 ∈ data ∧ Around s e y.1 ∧
      y.2 = y.1.getVarsByIv s.structDict iv e.addr (e.addr + e.size) := by
  rw [candidates, List.mem_map]
  constructor
  · intro h
    obtain ⟨x, hx, rfl⟩ := h
    obtain ⟨hdata, haround⟩ := List.mem_filter.mp hx
    exact ⟨hdata, haround, rfl⟩
  · intro h
    exact ⟨y.1, List.mem_filter.mpr ⟨h.1, h.2.1⟩, Prod.ext rfl h.2.2.symm⟩

theorem closest_isSome_iff {e : TraceEntry} {l : List (AddrToStInfoEntry × List StructMemberVar)} :
    (closest e l).isSome = true ↔ l ≠ [] ∧ ∀ y ∈ l, y.2 ≠ [] := by
  have hheads : (∀ y ∈ l, (y.2.head?.map fun var =>
      (toLex (e.addr - y.1.addr, var.sizeBytes), y)).isSome = true) ↔ ∀ y ∈ l, y.2 ≠ [] := by
    refine forall₂_congr fun y _ => ?_
    rw [Option.isSome_map]
    exact List.isSome_head?
  rw [← hheads, closest]
  cases hkeyed : l.mapM fun y => y.2.head?.map fun var =>
      (toLex (e.addr - y.1.addr, var.sizeBytes), y) with
  | none =>
    constructor
    · intro h
      cases h
    · intro h
      have hsome := isSome_mapM_iff.mpr h.2
      rw [hkeyed] at hsome
      cases hsome
  | some keyed =>
    have hall := isSome_mapM_iff.mp (Option.isSome_iff_exists.mpr ⟨keyed, hkeyed⟩)
    show ((sortBy Prod.fst keyed).head?.map Prod.snd).isSome = true ↔ _
    rw [Option.isSome_map, List.isSome_head?]
    constructor
    · intro hne
      obtain ⟨k, hk⟩ := List.exists_mem_of_ne_nil _ hne
      obtain ⟨y, hy, -⟩ := exists_of_mem_mapM hkeyed (mem_sortBy.mp hk)
      exact ⟨List.ne_nil_of_mem hy, hall⟩
    · intro h
      obtain ⟨y, hy⟩ := List.exists_mem_of_ne_nil _ h.1
      obtain ⟨k, hk, -⟩ := exists_mem_of_mapM hkeyed hy
      exact List.ne_nil_of_mem (mem_sortBy.mpr hk)

theorem le_of_closest {e : TraceEntry} {l : List (AddrToStInfoEntry × List StructMemberVar)}
    {y : AddrToStInfoEntry × List StructMemberVar} (h : closest e l = some y) :
    ∀ z ∈ l, z.1.addr ≤ y.1.addr := by
  obtain ⟨keyed, hkeyed, h⟩ := Option.bind_eq_some_iff.mp h
  obtain ⟨first, hfirst, rfl⟩ := Option.map_eq_some_iff.mp h
  have hkey : ∀ k ∈ keyed, ∃ n, k.1 = toLex (e.addr - k.2.1.addr, n) := by
    intro k hk
    obtain ⟨x, -, hx⟩ := exists_of_mem_mapM hkeyed hk
    obtain ⟨var, -, rfl⟩ := Option.map_eq_some_iff.mp hx
    exact ⟨var.sizeBytes, rfl⟩
  obtain ⟨n, hn⟩ := hkey first (mem_sortBy.mp (List.mem_of_mem_head? hfirst))
  intro z hz
  obtain ⟨k, hk, hz'⟩ := exists_mem_of_mapM hkeyed hz
  obtain ⟨var, -, rfl⟩ := Option.map_eq_some_iff.mp hz'
  obtain ⟨rest, hsorted⟩ : ∃ rest, sortBy Prod.fst keyed = first :: rest := by
    cases hs : sortBy Prod.fst keyed with
    | nil =>
      rw [hs] at hfirst
      cases hfirst
    | cons a rest =>
      rw [hs] at hfirst
      exact ⟨rest, by rw [Option.some.inj hfirst]⟩
  have hpair := sortBy_pairwise Prod.fst keyed
  rw [hsorted] at hpair
  have hle : first.1 ≤ toLex (e.addr - z.1.addr, var.sizeBytes) := by
    have hmem : (toLex (e.addr - z.1.addr, var.sizeBytes), z) ∈ sortBy Prod.fst keyed :=
      mem_sortBy.mpr hk
    rw [hsorted] at hmem
    rcases List.mem_cons.mp hmem with heq | hmem
    · rw [← heq]
    · exact List.rel_of_pairwise_cons hpair hmem
  rw [hn, Prod.Lex.toLex_le_toLex] at hle
  rcases hle with hlt | ⟨heq, -⟩
  · have hlt : e.addr - first.2.1.addr < e.addr - z.1.addr := hlt
    omega
  · have heq : e.addr - first.2.1.addr = e.addr - z.1.addr := heq
    omega

/-! ## When every record is matched -/

theorem point_cases (hiv : iv.Lawful) (s : IvState) (pid : Int) (e : TraceEntry) :
    (∃ data, iv.point ((s.pidAddrToStinfoIv.get? pid).getD []) e.addr = [data] ∧
      ∀ y, y ∈ data ↔ IndexedAt s pid e y) ∨
    (iv.point ((s.pidAddrToStinfoIv.get? pid).getD []) e.addr = [] ∧
      ∀ y, ¬ IndexedAt s pid e y) := by
  by_cases h : ∃ x ∈ (s.pidAddrToStinfoIv.get? pid).getD [], x.1 ≤ e.addr ∧ e.addr < x.2.1
  · exact Or.inl (hiv.covered _ _ h)
  · right
    have hno : ∀ x ∈ (s.pidAddrToStinfoIv.get? pid).getD [], ¬ (x.1 ≤ e.addr ∧ e.addr < x.2.1) :=
      fun x hx hin => h ⟨x, hx, hin⟩
    refine ⟨hiv.uncovered _ _ hno, fun y hy => ?_⟩
    obtain ⟨x, hx, hin, -⟩ := hy
    exact hno x hx hin

theorem matchAmong_isSome_iff {e : TraceEntry} {data : List AddrToStInfoEntry} :
    (matchAmong iv s e data).isSome = true ↔
      (candidates iv s.structDict e data).length ≤ 1 ∨
        ∀ y ∈ candidates iv s.structDict e data, y.2 ≠ [] := by
  rw [matchAmong]
  cases hc : candidates iv s.structDict e data with
  | nil => simp
  | cons y ys =>
    cases ys with
    | nil => simp
    | cons z zs =>
      show ((closest e (y :: z :: zs)).map _).isSome = true ↔ _
      rw [Option.isSome_map, closest_isSome_iff]
      constructor
      · exact fun h => Or.inr h.2
      · intro h
        rcases h with h | h
        · rw [List.length_cons, List.length_cons] at h
          omega
        · exact ⟨List.cons_ne_nil _ _, h⟩

theorem matchAmong_cases {e : TraceEntry} {data : List AddrToStInfoEntry} {m : Option Annotation}
    (h : matchAmong iv s e data = some m) :
    (candidates iv s.structDict e data = [] ∧ m = none) ∨
      ∃ y ∈ candidates iv s.structDict e data,
        m = some ⟨y.1, sortBy StructMemberVar.offsetBytes y.2⟩ ∧
        ∀ z ∈ candidates iv s.structDict e data, z.1.addr ≤ y.1.addr := by
  rw [matchAmong] at h
  cases hc : candidates iv s.structDict e data with
  | nil =>
    rw [hc] at h
    exact Or.inl ⟨rfl, (Option.some.inj h).symm⟩
  | cons y ys =>
    right
    rw [hc] at h
    cases ys with
    | nil =>
      refine ⟨y, List.mem_cons_self, (Option.some.inj h).symm, fun z hz => ?_⟩
      rw [List.mem_singleton.mp hz]
    | cons z zs =>
      obtain ⟨x, hx, heq⟩ := Option.map_eq_some_iff.mp h
      exact ⟨x, closest_mem hx, heq.symm, le_of_closest hx⟩

theorem matchOf_isSome_iff (hiv : iv.Lawful) {x : Int × TraceEntry} :
    (matchOf iv s x).isSome = true ↔ ∀ data,
      iv.point ((s.pidAddrToStinfoIv.get? x.1).getD []) x.2.addr = [data] →
      (data.filter fun y => y.contains s.structDict x.2.addr (x.2.addr + x.2.size)).length ≤ 1 ∨
        ∀ y ∈ data, Around s x.2 y → ∃ v, Touches s x.2 y v := by
  rcases point_cases hiv s x.1 x.2 with ⟨data, hdata, -⟩ | ⟨hnil, -⟩
  · have hpadding : (∀ y ∈ candidates iv s.structDict x.2 data, y.2 ≠ []) ↔
        ∀ y ∈ data, Around s x.2 y → ∃ v, Touches s x.2 y v := by
      constructor
      · intro h y hy haround
        exact (getVarsByIv_ne_nil_iff hiv).mp
          (h (y, _) (mem_candidates.mpr ⟨hy, haround, rfl⟩))
      · intro h y hy
        obtain ⟨hdata, haround, hvars⟩ := mem_candidates.mp hy
        rw [hvars]
        exact (getVarsByIv_ne_nil_iff hiv).mpr (h y.1 hdata haround)
    have hlen : (candidates iv s.structDict x.2 data).length =
        (data.filter fun y =>
          y.contains s.structDict x.2.addr (x.2.addr + x.2.size)).length := List.length_map _
    have hmatch : matchOf iv s x = matchAmong iv s x.2 data := by
      rw [matchOf, hdata]
    rw [hmatch, matchAmong_isSome_iff, hpadding, hlen, hdata]
    constructor
    · intro h data' heq
      rw [← List.head_eq_of_cons_eq heq]
      exact h
    · exact fun h => h data rfl
  · rw [matchOf, hnil]
    refine ⟨fun _ data hdata => ?_, fun _ => rfl⟩
    cases hdata

theorem matchRight_iff (hiv : iv.Lawful) {x : Int × TraceEntry} {m : Option Annotation}
    (hm : matchOf iv s x = some m) :
    MatchRight s x.1 x.2 m ↔ ∀ y, Indexed s x.1 y → Around s x.2 y →
      ∃ z, IndexedAt s x.1 x.2 z ∧ Around s x.2 z ∧ y.addr ≤ z.addr := by
  have hnone : m = none → (∀ z, IndexedAt s x.1 x.2 z → ¬ Around s x.2 z) →
      (MatchRight s x.1 x.2 m ↔ ∀ y, Indexed s x.1 y → Around s x.2 y →
        ∃ z, IndexedAt s x.1 x.2 z ∧ Around s x.2 z ∧ y.addr ≤ z.addr) := by
    intro hm hno
    constructor
    · intro h y hy haround
      obtain ⟨ann, hann, -⟩ := h ⟨y, hy, haround⟩
      rw [hm] at hann
      cases hann
    · intro h hex
      obtain ⟨y, hy, haround⟩ := hex
      obtain ⟨z, hz, hzaround, -⟩ := h y hy haround
      exact absurd hzaround (hno z hz)
  rcases point_cases hiv s x.1 x.2 with ⟨data, hdata, hmem⟩ | ⟨hnil, hno⟩
  · rw [matchOf, hdata] at hm
    rcases matchAmong_cases hm with ⟨hempty, hm⟩ | ⟨y, hy, hm, hbest⟩
    · refine hnone hm fun z hz haround => ?_
      have hcand : (z, z.getVarsByIv s.structDict iv x.2.addr (x.2.addr + x.2.size)) ∈
          candidates iv s.structDict x.2 data :=
        mem_candidates.mpr ⟨(hmem z).mpr hz, haround, rfl⟩
      rw [hempty] at hcand
      exact absurd hcand List.not_mem_nil
    · obtain ⟨hyd, hyaround, hvars⟩ := mem_candidates.mp hy
      have hyat := (hmem y.1).mp hyd
      have hle : ∀ z, IndexedAt s x.1 x.2 z → Around s x.2 z → z.addr ≤ y.1.addr :=
        fun z hz haround =>
          hbest (z, z.getVarsByIv s.structDict iv x.2.addr (x.2.addr + x.2.size))
            (mem_candidates.mpr ⟨(hmem z).mpr hz, haround, rfl⟩)
      constructor
      · intro h y' hy' haround
        obtain ⟨ann, hann, -, -, hgreatest, -⟩ := h ⟨y', hy', haround⟩
        rw [hm] at hann
        refine ⟨y.1, hyat, hyaround, ?_⟩
        have hmatch := hgreatest y' hy' haround
        rw [← Option.some.inj hann] at hmatch
        exact hmatch
      · intro h _
        refine ⟨_, hm, ?_, hyaround, fun y' hy' haround => ?_, ?_⟩
        · obtain ⟨iv', hiv', -, heq⟩ := hyat
          exact ⟨iv', hiv', heq⟩
        · obtain ⟨z, hz, hzaround, hyz⟩ := h y' hy' haround
          exact hyz.trans (hle z hz hzaround)
        · rw [hvars]
          exact varsRight_of_lawful hiv x.2 y.1
  · rw [matchOf, hnil] at hm
    exact hnone (Option.some.inj hm).symm fun z hz => absurd hz (hno z)

theorem pid_of_mem_pidEntries (hr : r.Loaded) : ∀ x ∈ pidEntries r, x.1 = x.2.pid := by
  intro x hx
  obtain ⟨p, hp, hx⟩ := List.mem_flatMap.mp hx
  obtain ⟨y, hy, hx⟩ := List.mem_flatMap.mp hx
  obtain ⟨e, he, rfl⟩ := List.mem_map.mp hx
  obtain ⟨-, e', rfl, hpid⟩ := hr.ofPid p hp y hy
  rcases TraceEntry.mem_getEntryList.mp he with rfl | ⟨-, rfl⟩
  · exact hpid.symm
  · exact hpid.symm

end

/-- The annotation returns, with the right struct for every record, if and only if no record has to
be ranked in a padding and none lies behind the interval of its struct. -/
theorem matches_right_iff {iv : IvQueries} (hiv : iv.Lawful) {lines : List TraceEntry}
    {r : TraceReader} (hload : TraceReader.load lines = some r) (s : IvState) :
    (∃ a, (pidEntries r).foldlM (annotateEntry iv r s) (fun _ => none) = some a ∧
      ∀ x ∈ pidEntries r, IsAccess r x.2 = true → MatchRight s x.1 x.2 (a x.2)) ↔
    Matchable iv r s := by
  have hpid := pid_of_mem_pidEntries (TraceReader.loaded_of_load hload)
  constructor
  · intro h
    obtain ⟨a, ha, hright⟩ := h
    have hfound := (annotated_foldlM hpid ha).found
    refine ⟨fun x hx hacc => ?_, fun x hx hacc => ?_⟩
    · exact (matchOf_isSome_iff hiv).mp (Option.isSome_iff_exists.mpr ⟨_, hfound x hx hacc⟩)
    · exact (matchRight_iff hiv (hfound x hx hacc)).mp (hright x hx hacc)
  · intro h
    obtain ⟨a, ha⟩ := Option.isSome_iff_exists.mp
      (isSome_foldlM_annotateEntry hpid
        fun x hx hacc => (matchOf_isSome_iff hiv).mpr (h.ranked x hx hacc))
    have hfound := (annotated_foldlM hpid ha).found
    exact ⟨a, ha, fun x hx hacc =>
      (matchRight_iff hiv (hfound x hx hacc)).mpr (h.reached x hx hacc)⟩

/-! ## A nested struct with padding -/

/-- Look through all intervals.  Intervals of one struct that were entered with different sizes are
told apart. -/
def scanQueries : IvQueries where
  point l p :=
    match l.filter fun x => x.1 ≤ p ∧ p < x.2.1 with
    | [] => []
    | found => [found.dedup.map fun x => x.2.2]
  overlap l lo hi :=
    (l.filter fun x => lo < hi ∧ x.1 < hi ∧ lo < x.2.1).map fun x => x.2.2

theorem lawful_scanQueries : scanQueries.Lawful where
  uncovered := by
    intro t a h
    have hnil : (t.filter fun x => x.1 ≤ a ∧ a < x.2.1) = [] := by
      refine List.filter_eq_nil_iff.mpr fun x hx hin => h x hx (of_decide_eq_true hin)
    simp only [scanQueries, hnil]
  covered := by
    intro t a h
    obtain ⟨x, hx, hin⟩ := h
    have hmem : ∀ z, z ∈ t.filter (fun x => x.1 ≤ a ∧ a < x.2.1) ↔
        z ∈ t ∧ (z.1 ≤ a ∧ a < z.2.1) := by
      intro z
      rw [List.mem_filter, decide_eq_true_eq]
    refine ⟨((t.filter fun x => x.1 ≤ a ∧ a < x.2.1).dedup).map fun x => x.2.2, ?_, fun y => ?_⟩
    · have hx' := (hmem x).mpr ⟨hx, hin⟩
      simp only [scanQueries]
      cases hfound : t.filter fun x => x.1 ≤ a ∧ a < x.2.1 with
      | nil =>
        rw [hfound] at hx'
        exact absurd hx' List.not_mem_nil
      | cons z zs => rfl
    · rw [List.mem_map]
      constructor
      · intro hy
        obtain ⟨z, hz, hzy⟩ := hy
        obtain ⟨hzt, hzin⟩ := (hmem z).mp (List.mem_dedup.mp hz)
        exact ⟨z, hzt, hzin, hzy⟩
      · intro hy
        obtain ⟨z, hzt, hzin, hzy⟩ := hy
        exact ⟨z, List.mem_dedup.mpr ((hmem z).mpr ⟨hzt, hzin⟩), hzy⟩
  met := by
    intro t lo hi v hv
    obtain ⟨x, hx, hxv⟩ := List.mem_map.mp hv
    obtain ⟨hxt, hin⟩ := List.mem_filter.mp hx
    obtain ⟨hpos, hlo, hhi⟩ := of_decide_eq_true hin
    exact ⟨x, hxt, hpos, hlo, hhi, hxv⟩
  kept := by
    intro t lo hi x hx hpos hlo hhi
    have hmem : x ∈ t.filter fun x => lo < hi ∧ x.1 < hi ∧ lo < x.2.1 :=
      List.mem_filter.mpr ⟨hx, decide_eq_true ⟨hpos, hlo, hhi⟩⟩
    exact ⟨x.2.2, List.mem_map_of_mem hmem, x, hx, rfl, rfl, rfl, rfl, rfl, rfl⟩

/-- A struct whose first member is a struct with four bytes of padding. -/
def outerDict : Dict String StructEntry :=
  (Dict.empty.set "inner" ⟨some ⟨"inner", 128, 16⟩,
    [⟨"inner", "int", "int", "flags", 32, 4, 0, 0, false, false⟩,
      ⟨"inner", "long", "long", "value", 64, 8, 64, 8, false, false⟩]⟩).set
  "outer" ⟨some ⟨"outer", 128, 16⟩,
    [⟨"outer", "inner", "struct inner", "in", 128, 16, 0, 0, false, false⟩]⟩

def outerAddr : Int := 0x8000000000000000

/-- A store into the struct at `outerAddr`. -/
def outerLines (off size : Int) : List TraceEntry :=
  [.plain .daxDevInfo 0 outerAddr 4096,
    { TraceEntry.plain .pmStPtr 1 outerAddr 16 with stName := "outer" },
    .plain .store 2 (outerAddr + off) size]

def valueReader : TraceReader := (TraceReader.load (outerLines 8 8)).get (by decide +kernel)

def valueState : IvState := (IvState.build 1000 valueReader outerDict).get (by decide +kernel)

theorem matches_right_value :
    (∃ a, (pidEntries valueReader).foldlM (annotateEntry scanQueries valueReader valueState)
        (fun _ => none) = some a ∧
      ∀ x ∈ pidEntries valueReader, IsAccess valueReader x.2 = true →
        MatchRight valueState x.1 x.2 (a x.2)) ↔
    Matchable scanQueries valueReader valueState :=
  matches_right_iff lawful_scanQueries (Option.some_get _).symm valueState

def paddingReader : TraceReader := (TraceReader.load (outerLines 4 4)).get (by decide +kernel)

def paddingState : IvState := (IvState.build 1000 paddingReader outerDict).get (by decide +kernel)

/-- A store to the padding is inside both structs, and touches a member of one of them only. -/
theorem padding_store_fails :
    TraceReader.load (outerLines 4 4) = some paddingReader ∧
    IvState.build 1000 paddingReader outerDict = some paddingState ∧
    scanQueries.Lawful ∧
    (pidEntries paddingReader).foldlM (annotateEntry scanQueries paddingReader paddingState)
      (fun _ => none) = none := by
  refine ⟨(Option.some_get _).symm, (Option.some_get _).symm, lawful_scanQueries, ?_⟩
  rw [← Option.isNone_iff_eq_none]
  decide +kernel

end Layout
end Silhouette
