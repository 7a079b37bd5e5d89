import Silhouette.Layout.StInfoMatch
import Silhouette.Layout.StInfoVisits

/-!
# The order of the struct records

A struct has one entry in the layout, which everything that was entered shares.  Entering it with
another size than it has rewrites that entry, and inside a record a struct is entered with the size
that is left behind its offset, which is its own size at the end of the record only.  What remains is
the last size, so it depends on which record comes last.
-/

namespace Silhouette
namespace Layout

open Lib Trace

open scoped List

/-- The records of structs in persistent memory, in the order of the loops. -/
def structRecords (r : TraceReader) : List (Int × TraceEntry) :=
  (pidEntries r).filter fun x =>
    x.2.type.isStructInfoSeries && isPmAddr x.2.addr r.pmAddr r.pmSize

/-- Enter records in the order of a list. -/
def IvState.buildFrom (limit : Nat) (l : List (Int × TraceEntry))
    (structDict : Dict String StructEntry) : Option IvState :=
  l.foldlM (fun s x => IvState.helper x.1 limit x.2.addr x.2.size x.2.stName s)
    ⟨structDict, maxSize, Dict.empty⟩

theorem build_eq_buildFrom (limit : Nat) (r : TraceReader) (structDict : Dict String StructEntry) :
    IvState.build limit r structDict = IvState.buildFrom limit (structRecords r) structDict := by
  rw [IvState.buildFrom, structRecords, List.foldlM_filter]
  rfl

/-- Name, size in bits and size in bytes are as in the layout. -/
def SizesUnchanged (structDict : Dict String StructEntry) (s : IvState) : Prop :=
  ∀ n, (s.structDict.get? n).map StructEntry.header = (structDict.get? n).map StructEntry.header

/-- What a record may get, with some library.  The library is free in the order of what it returns,
and so is the choice between structs of the same rank. -/
def Possible (s : IvState) (x : Int × TraceEntry) (m : Option (Option Annotation)) : Prop :=
  ∃ iv : IvQueries, iv.Lawful ∧ matchOf iv s x = m

/-- In every order of the struct records the sizes stay, and every record may get the same. -/
def OrderFree (limit : Nat) (r : TraceReader) (structDict : Dict String StructEntry) : Prop :=
  ∀ l, l ~ structRecords r → ∀ s, IvState.buildFrom limit l structDict = some s →
    SizesUnchanged structDict s ∧
      ∀ l', l' ~ structRecords r → ∀ s', IvState.buildFrom limit l' structDict = some s' →
        ∀ x m, Possible s x m ↔ Possible s' x m

/-- The structs that a record leads to. -/
def visitsOf (structDict : Dict String StructEntry) (limit : Nat) (x : Int × TraceEntry) :
    List Visit :=
  visits structDict limit x.2.addr x.2.size x.2.stName

/-- The sizes with which a record enters a struct, which are what is left of the record behind the
offsets of the struct. -/
def enteredSizes (structDict : Dict String StructEntry) (limit : Nat) (n : String)
    (x : Int × TraceEntry) : List Int :=
  ((visitsOf structDict limit x).filter fun v => v.stName = n).map Visit.size

/-- Every struct is entered with its own size, or else at least at the last time in each record, and
its size in bits is eight times that in bytes. -/
def KeepsSizes (structDict : Dict String StructEntry) (limit : Nat)
    (l : List (Int × TraceEntry)) : Prop :=
  ∀ n st h, structDict.get? n = some st → st.header = some h →
    (∀ x ∈ l, ∀ z ∈ enteredSizes structDict limit n x, z = h.sizeBytes) ∨
      (h.sizeBits = h.sizeBytes * 8 ∧
        ∀ x ∈ l, ∀ z, (enteredSizes structDict limit n x).getLast? = some z → z = h.sizeBytes)

/-! ## The sizes in the end -/

theorem header_resized {st : StructEntry} {h : StructHeader} (hst : st.header = some h) (z : Int) :
    (resized st z).header = some (if z = h.sizeBytes then h else
      { h with sizeBytes := z, sizeBits := z * 8 }) := by
  have hsize : st.sizeBytes = h.sizeBytes := by rw [StructEntry.sizeBytes, hst]; rfl
  rw [resized, hsize]
  by_cases hz : z = h.sizeBytes
  · rw [if_neg (not_not.mpr hz), if_pos hz]
    exact hst
  · rw [if_pos hz, if_neg hz, StructEntry.setSize, hst]
    rfl

/-- Unless all sizes are that of the struct, the last one remains. -/
theorem header_foldl_resized {st : StructEntry} {h : StructHeader} (hst : st.header = some h)
    (sizes : List Int) : (sizes.foldl resized st).header =
      some (if ∀ z ∈ sizes, z = h.sizeBytes then h else
        { h with
          sizeBytes := sizes.getLast?.getD h.sizeBytes
          sizeBits := sizes.getLast?.getD h.sizeBytes * 8 }) := by
  induction sizes using List.reverseRecOn with
  | nil =>
    rw [if_pos fun z hz => absurd hz List.not_mem_nil]
    exact hst
  | append_singleton l z ih =>
    rw [List.foldl_append, List.foldl_cons, List.foldl_nil, header_resized ih, List.getLast?_concat,
      Option.getD_some]
    by_cases hall : ∀ y ∈ l, y = h.sizeBytes
    · rw [if_pos hall]
      by_cases hz : z = h.sizeBytes
      · rw [if_pos hz, if_pos]
        intro y hy
        rcases List.mem_append.mp hy with hy | hy
        · exact hall y hy
        · rw [List.mem_singleton.mp hy]
          exact hz
      · rw [if_neg hz, if_neg fun hno => hz (hno z (List.mem_append_right _ List.mem_cons_self))]
    · have hno : ¬ ∀ y ∈ l ++ [z], y = h.sizeBytes :=
        fun hno => hall fun y hy => hno y (List.mem_append_left _ hy)
      rw [if_neg hall, if_neg hno]
      by_cases hz : z = l.getLast?.getD h.sizeBytes
      · rw [if_pos hz, ← hz]
      · rw [if_neg hz]

theorem header_foldl_resized_iff {st : StructEntry} {h : StructHeader} (hst : st.header = some h)
    (sizes : List Int) : (sizes.foldl resized st).header = st.header ↔
      (∀ z ∈ sizes, z = h.sizeBytes) ∨
        (h.sizeBits = h.sizeBytes * 8 ∧ ∀ z, sizes.getLast? = some z → z = h.sizeBytes) := by
  rw [header_foldl_resized hst, hst, Option.some.injEq]
  by_cases hall : ∀ z ∈ sizes, z = h.sizeBytes
  · rw [if_pos hall]
    exact ⟨fun _ => Or.inl hall, fun _ => rfl⟩
  · rw [if_neg hall]
    obtain ⟨last, hlast⟩ : ∃ last, sizes.getLast? = some last := by
      cases hlast : sizes.getLast? with
      | none =>
        rw [List.getLast?_eq_none_iff.mp hlast] at hall
        exact absurd (fun z hz => absurd hz List.not_mem_nil) hall
      | some last => exact ⟨last, rfl⟩
    rw [hlast, Option.getD_some]
    constructor
    · intro heq
      have hbytes : last = h.sizeBytes := congrArg StructHeader.sizeBytes heq
      have hbits : last * 8 = h.sizeBits := congrArg StructHeader.sizeBits heq
      refine Or.inr ⟨by rw [← hbits, hbytes], fun z hz => ?_⟩
      rw [← Option.some.inj hz]
      exact hbytes
    · intro hor
      rcases hor with hno | ⟨hbits, hbytes⟩
      · exact absurd hno hall
      · rw [hbytes last rfl, ← hbits]

theorem resized_of_header_none {st : StructEntry} (hst : st.header = none) (z : Int) :
    resized st z = st := by
  rw [resized]
  split_ifs
  · rw [StructEntry.setSize, hst]
    cases st
    cases hst
    rfl
  · rfl

theorem get?_enter (pid : Int) (s : IvState) (v : Visit) (n : String) :
    (s.enter pid v).structDict.get? n =
      (s.structDict.get? n).map fun st => if v.stName = n then resized st v.size else st := by
  rw [IvState.enter]
  cases hst : s.structDict.get? v.stName with
  | none =>
    show s.structDict.get? n = _
    cases hn : s.structDict.get? n with
    | none => rfl
    | some st =>
      rw [Option.map_some, if_neg]
      intro heq
      rw [heq, hn] at hst
      cases hst
  | some st =>
    show (s.structDict.set v.stName (resized st v.size)).get? n = _
    rw [Dict.get?_set]
    by_cases hn : n = v.stName
    · rw [if_pos hn, hn, hst, Option.map_some, if_pos rfl]
    · rw [if_neg hn]
      cases s.structDict.get? n with
      | none => rfl
      | some st' => rw [Option.map_some, if_neg fun heq => hn heq.symm]

theorem get?_foldl_enter (pid : Int) (l : List Visit) (s : IvState) (n : String) :
    (l.foldl (IvState.enter pid) s).structDict.get? n = (s.structDict.get? n).map fun st =>
      ((l.filter fun v => v.stName = n).map Visit.size).foldl resized st := by
  induction l generalizing s with
  | nil =>
    cases hn : s.structDict.get? n with
    | none => exact hn
    | some st => exact hn
  | cons v rest ih =>
    rw [List.foldl_cons, ih, get?_enter, Option.map_map]
    congr 1
    funext st
    by_cases hv : v.stName = n
    · rw [List.filter_cons_of_pos (by rw [hv]; exact decide_eq_true rfl), Function.comp_apply,
        if_pos hv, List.map_cons, List.foldl_cons]
    · rw [List.filter_cons_of_neg (by simpa using hv), Function.comp_apply, if_neg hv]

/-! ## Entering all records -/

section

variable {limit : Nat} {structDict : Dict String StructEntry}

/-- Enter what a record leads to. -/
def IvState.enterAll (structDict : Dict String StructEntry) (limit : Nat) (s : IvState)
    (x : Int × TraceEntry) : IvState :=
  (visitsOf structDict limit x).foldl (IvState.enter x.1) s

theorem foldlM_helper (l : List (Int × TraceEntry)) {s s' : IvState}
    (hs : SameMembers s.structDict structDict) :
    l.foldlM (fun s x => IvState.helper x.1 limit x.2.addr x.2.size x.2.stName s) s = some s' ↔
      (∀ x ∈ l, Enters structDict limit x.2.size x.2.stName) ∧
        s' = l.foldl (IvState.enterAll structDict limit) s := by
  induction l generalizing s with
  | nil =>
    constructor
    · exact fun h => ⟨fun x hx => absurd hx List.not_mem_nil, (Option.some.inj h).symm⟩
    · exact fun h => congrArg some h.2.symm
  | cons x rest ih =>
    have hrest := ih (hs.foldl_enter x.1 (visitsOf structDict limit x))
    rw [List.foldlM_cons, List.forall_mem_cons, Option.bind_eq_bind, Option.bind_eq_some_iff]
    constructor
    · intro h
      obtain ⟨s₁, h₁, h⟩ := h
      obtain ⟨henters, hs₁⟩ := (helper_eq_some_iff hs).mp h₁
      rw [hs₁] at h
      obtain ⟨hall, hs'⟩ := hrest.mp h
      exact ⟨⟨henters, hall⟩, hs'⟩
    · intro h
      exact ⟨_, (helper_eq_some_iff hs).mpr ⟨h.1.1, rfl⟩, hrest.mpr ⟨h.1.2, h.2⟩⟩

theorem buildFrom_eq_some_iff {l : List (Int × TraceEntry)} {s : IvState} :
    IvState.buildFrom limit l structDict = some s ↔
      (∀ x ∈ l, Enters structDict limit x.2.size x.2.stName) ∧
        s = l.foldl (IvState.enterAll structDict limit) ⟨structDict, maxSize, Dict.empty⟩ :=
  foldlM_helper l (SameMembers.refl structDict)

/-- Another order returns as well. -/
theorem exists_buildFrom_of_perm {l l' : List (Int × TraceEntry)} (hl : l ~ l') {s : IvState}
    (h : IvState.buildFrom limit l structDict = some s) :
    ∃ s', IvState.buildFrom limit l' structDict = some s' :=
  ⟨_, buildFrom_eq_some_iff.mpr
    ⟨fun x hx => (buildFrom_eq_some_iff.mp h).1 x (hl.mem_iff.mpr hx), rfl⟩⟩

theorem get?_foldl_enterAll (l : List (Int × TraceEntry)) (s : IvState) (n : String) :
    (l.foldl (IvState.enterAll structDict limit) s).structDict.get? n =
      (s.structDict.get? n).map fun st =>
        (l.flatMap (enteredSizes structDict limit n)).foldl resized st := by
  induction l generalizing s with
  | nil =>
    cases hn : s.structDict.get? n with
    | none => exact hn
    | some st => exact hn
  | cons x rest ih =>
    rw [List.foldl_cons, ih, IvState.enterAll, get?_foldl_enter, Option.map_map, List.flatMap_cons]
    congr 1
    funext st
    rw [List.foldl_append]
    rfl

theorem header_buildFrom {l : List (Int × TraceEntry)} {s : IvState}
    (h : IvState.buildFrom limit l structDict = some s) (n : String) :
    s.structDict.get? n = (structDict.get? n).map fun st =>
      (l.flatMap (enteredSizes structDict limit n)).foldl resized st := by
  rw [(buildFrom_eq_some_iff.mp h).2]
  exact get?_foldl_enterAll l _ n

theorem tree_foldl_enterAll (l : List (Int × TraceEntry)) {s : IvState}
    (hs : SameMembers s.structDict structDict) (p : Int) :
    (l.foldl (IvState.enterAll structDict limit) s).tree p = s.tree p ++
      l.flatMap fun x =>
        if x.1 = p then (visitsOf structDict limit x).map Visit.iv else [] := by
  induction l generalizing s with
  | nil =>
    rw [List.flatMap_nil, List.append_nil]
    rfl
  | cons x rest ih =>
    have htree := tree_foldl_enter x.1
      (fun v hv => known_of_mem_visits hv : ∀ v ∈ visitsOf structDict limit x, _) hs p
    rw [List.foldl_cons, IvState.enterAll,
      ih (hs.foldl_enter x.1 (visitsOf structDict limit x)), htree, List.flatMap_cons]
    by_cases hp : p = x.1
    · rw [if_pos hp, if_pos hp.symm, hp, List.append_assoc]
    · rw [if_neg hp, if_neg fun h => hp h.symm, List.nil_append]

/-- The intervals are the same in every order. -/
theorem tree_perm {l l' : List (Int × TraceEntry)} (hl : l ~ l') {s s' : IvState}
    (h : IvState.buildFrom limit l structDict = some s)
    (h' : IvState.buildFrom limit l' structDict = some s') (p : Int) : s.tree p ~ s'.tree p := by
  rw [(buildFrom_eq_some_iff.mp h).2, (buildFrom_eq_some_iff.mp h').2,
    tree_foldl_enterAll l (SameMembers.refl structDict),
    tree_foldl_enterAll l' (SameMembers.refl structDict)]
  exact (hl.flatMap_right _).append_left _

/-! ## What a record may get -/

/-- Two layouts that answer the same. -/
theorem candidates_congr {d d' : Dict String StructEntry} (hd : ∀ n, d.get? n = d'.get? n)
    {iv iv' : IvQueries} (hiv : iv.overlap = iv'.overlap) (e : TraceEntry)
    (data : List AddrToStInfoEntry) : candidates iv d e data = candidates iv' d' e data := by
  have hcontains : ∀ y : AddrToStInfoEntry, y.contains d = y.contains d' := by
    intro y
    funext lo hi
    rw [AddrToStInfoEntry.contains, AddrToStInfoEntry.contains, AddrToStInfoEntry.sizeBytes,
      AddrToStInfoEntry.sizeBytes, hd]
  have hvars : ∀ y : AddrToStInfoEntry, y.getVarsByIv d iv = y.getVarsByIv d' iv' := by
    intro y
    funext lo hi
    rw [AddrToStInfoEntry.getVarsByIv, AddrToStInfoEntry.getVarsByIv,
      AddrToStInfoEntry.addrToVarIv, AddrToStInfoEntry.addrToVarIv, hd, hiv]
  simp only [candidates, hcontains, hvars]

/-- A library that answers for one list as another does for a list of the same intervals. -/
def IvQueries.swap (iv : IvQueries) (t t' : List (Int × Int × AddrToStInfoEntry)) : IvQueries :=
  { iv with point := fun u a => if u = t' then iv.point t a else iv.point u a }

theorem IvQueries.Lawful.swap {iv : IvQueries} (h : iv.Lawful)
    {t t' : List (Int × Int × AddrToStInfoEntry)} (ht : t ~ t') : (iv.swap t t').Lawful where
  uncovered := by
    intro u a hu
    show (if u = t' then iv.point t a else iv.point u a) = []
    by_cases heq : u = t'
    · rw [if_pos heq]
      exact h.uncovered t a fun x hx => hu x (heq ▸ ht.mem_iff.mp hx)
    · rw [if_neg heq]
      exact h.uncovered u a hu
  covered := by
    intro u a hu
    show ∃ data, (if u = t' then iv.point t a else iv.point u a) = [data] ∧ _
    by_cases heq : u = t'
    · rw [if_pos heq]
      obtain ⟨x, hx, hin⟩ := hu
      obtain ⟨data, hdata, hmem⟩ := h.covered t a ⟨x, ht.mem_iff.mpr (heq ▸ hx), hin⟩
      refine ⟨data, hdata, fun y => (hmem y).trans ?_⟩
      rw [heq]
      exact exists_congr fun z => and_congr_left fun _ => ht.mem_iff
    · rw [if_neg heq]
      exact h.covered u a hu
  met := h.met
  kept := h.kept

theorem Possible.of_perm {s s' : IvState} (hd : ∀ n, s.structDict.get? n = s'.structDict.get? n)
    {x : Int × TraceEntry} (ht : s.tree x.1 ~ s'.tree x.1) {m : Option (Option Annotation)}
    (h : Possible s x m) : Possible s' x m := by
  obtain ⟨iv, hiv, hm⟩ := h
  refine ⟨iv.swap (s.tree x.1) (s'.tree x.1), hiv.swap ht, ?_⟩
  have hpoint : (iv.swap (s.tree x.1) (s'.tree x.1)).point
      ((s'.pidAddrToStinfoIv.get? x.1).getD []) x.2.addr =
      iv.point ((s.pidAddrToStinfoIv.get? x.1).getD []) x.2.addr := if_pos rfl
  have hcand : ∀ data, candidates (iv.swap (s.tree x.1) (s'.tree x.1)) s'.structDict x.2 data =
      candidates iv s.structDict x.2 data :=
    fun data => (candidates_congr hd rfl x.2 data).symm
  rw [← hm]
  simp only [matchOf, hpoint, matchAmong, hcand]

end

/-! ## When the order does not matter -/

section

variable {limit : Nat} {structDict : Dict String StructEntry}

theorem KeepsSizes.unchanged {l : List (Int × TraceEntry)} (hl : KeepsSizes structDict limit l)
    {l' : List (Int × TraceEntry)} (hperm : l' ~ l) {s : IvState}
    (h : IvState.buildFrom limit l' structDict = some s) : SizesUnchanged structDict s := by
  intro n
  rw [header_buildFrom h n]
  cases hn : structDict.get? n with
  | none => rfl
  | some st =>
    rw [Option.map_some, Option.map_some, Option.map_some, Option.some.injEq]
    cases hst : st.header with
    | none =>
      have hsame : ∀ sizes : List Int, sizes.foldl resized st = st := by
        intro sizes
        induction sizes with
        | nil => rfl
        | cons z rest ih =>
          rw [List.foldl_cons, resized_of_header_none hst]
          exact ih
      rw [hsame]
      exact hst
    | some h₀ =>
      rw [← hst, header_foldl_resized_iff hst]
      rcases hl n st h₀ hn hst with hall | ⟨hbits, hlast⟩
      · left
        intro z hz
        obtain ⟨x, hx, hz⟩ := List.mem_flatMap.mp hz
        exact hall x (hperm.mem_iff.mp hx) z hz
      · refine Or.inr ⟨hbits, fun z hz => ?_⟩
        -- the last size of all is the last one of some record
        have hrecord : ∀ m : List (Int × TraceEntry), (∀ x ∈ m, x ∈ l) →
            (m.flatMap (enteredSizes structDict limit n)).getLast? = some z → z = h₀.sizeBytes := by
          intro m
          induction m using List.reverseRecOn with
          | nil =>
            intro _ hz
            cases hz
          | append_singleton m x ih =>
            intro hm hz
            rw [List.flatMap_append, List.flatMap_singleton, List.getLast?_append] at hz
            cases hx : (enteredSizes structDict limit n x).getLast? with
            | none =>
              rw [hx, Option.none_or] at hz
              exact ih (fun y hy => hm y (List.mem_append_left _ hy)) hz
            | some z' =>
              rw [hx, Option.some_or] at hz
              rw [← Option.some.inj hz]
              exact hlast x (hm x (List.mem_append_right _ List.mem_cons_self)) z' hx
        exact hrecord l' (fun x hx => hperm.mem_iff.mp hx) hz

theorem SizesUnchanged.get? {l : List (Int × TraceEntry)} {s : IvState}
    (h : SizesUnchanged structDict s) (hs : IvState.buildFrom limit l structDict = some s)
    (n : String) : s.structDict.get? n = structDict.get? n := by
  have hheader := h n
  rw [header_buildFrom hs n] at hheader ⊢
  cases hn : structDict.get? n with
  | none => rfl
  | some st =>
    rw [hn, Option.map_some, Option.map_some, Option.map_some, Option.some.injEq] at hheader
    rw [Option.map_some, Option.some.injEq]
    have hchildren : ∀ (sizes : List Int) (st : StructEntry),
        (sizes.foldl resized st).children = st.children := by
      intro sizes
      induction sizes with
      | nil => exact fun st => rfl
      | cons z rest ih => exact fun st => (ih (resized st z)).trans (children_resized st z)
    have hsame := hchildren (l.flatMap (enteredSizes structDict limit n)) st
    cases hfold : (l.flatMap (enteredSizes structDict limit n)).foldl resized st with
    | mk header children =>
      rw [hfold] at hheader hsame
      cases st with
      | mk header' children' =>
        have hheader : header = header' := hheader
        have hsame : children = children' := hsame
        rw [hheader, hsame]

theorem KeepsSizes.of_orderFree {r : TraceReader} {s : IvState}
    (hbuild : IvState.build limit r structDict = some s) (h : OrderFree limit r structDict) :
    KeepsSizes structDict limit (structRecords r) := by
  rw [build_eq_buildFrom] at hbuild
  intro n st h₀ hn hst
  -- in no order are the sizes of the struct changed
  have hiff : ∀ l, l ~ structRecords r →
      (∀ z ∈ l.flatMap (enteredSizes structDict limit n), z = h₀.sizeBytes) ∨
        (h₀.sizeBits = h₀.sizeBytes * 8 ∧
          ∀ z, (l.flatMap (enteredSizes structDict limit n)).getLast? = some z → z = h₀.sizeBytes) := by
    intro l hl
    obtain ⟨s', hs'⟩ := exists_buildFrom_of_perm hl.symm hbuild
    have hsame := (h l hl s' hs').1 n
    rw [header_buildFrom hs' n, hn, Option.map_some, Option.map_some, Option.map_some,
      Option.some.injEq] at hsame
    exact (header_foldl_resized_iff hst _).mp hsame
  by_cases hall : ∀ x ∈ structRecords r, ∀ z ∈ enteredSizes structDict limit n x, z = h₀.sizeBytes
  · exact Or.inl hall
  · have hnot : ∀ l, l ~ structRecords r →
        ¬ ∀ z ∈ l.flatMap (enteredSizes structDict limit n), z = h₀.sizeBytes := by
      intro l hl hz
      exact hall fun x hx z hmem =>
        hz z (List.mem_flatMap.mpr ⟨x, hl.mem_iff.mpr hx, hmem⟩)
    have hlast : ∀ l, l ~ structRecords r → h₀.sizeBits = h₀.sizeBytes * 8 ∧
        ∀ z, (l.flatMap (enteredSizes structDict limit n)).getLast? = some z → z = h₀.sizeBytes :=
      fun l hl => (hiff l hl).resolve_left (hnot l hl)
    refine Or.inr ⟨(hlast _ (List.Perm.refl _)).1, fun x hx z hz => ?_⟩
    -- the order in which the record comes last
    obtain ⟨before, after, heq⟩ := List.append_of_mem hx
    have hperm : before ++ after ++ [x] ~ structRecords r := by
      rw [heq]
      exact List.perm_append_singleton x (before ++ after) |>.trans List.perm_middle.symm
    refine (hlast _ hperm).2 z ?_
    rw [List.flatMap_append, List.flatMap_singleton, List.getLast?_append, hz, Option.some_or]

/-- The sizes stay in every order of the records, and with them what every record may get, if and
only if each struct has its own size left where a record enters it last. -/
theorem order_free_iff {r : TraceReader} {s : IvState}
    (hbuild : IvState.build limit r structDict = some s) :
    OrderFree limit r structDict ↔ KeepsSizes structDict limit (structRecords r) := by
  constructor
  · exact KeepsSizes.of_orderFree hbuild
  · intro hkeeps l hl s₁ hs₁
    have hsizes := hkeeps.unchanged hl hs₁
    refine ⟨hsizes, fun l' hl' s₂ hs₂ x m => ?_⟩
    have hsizes' := hkeeps.unchanged hl' hs₂
    have hd : ∀ n, s₁.structDict.get? n = s₂.structDict.get? n := fun n =>
      (hsizes.get? hs₁ n).trans (hsizes'.get? hs₂ n).symm
    have ht := tree_perm (hl.trans hl'.symm) hs₁ hs₂ x.1
    exact ⟨Possible.of_perm hd ht, Possible.of_perm (fun n => (hd n).symm) ht.symm⟩

end

/-! ## A struct that is not at the end -/

/-- The first of two words of a struct is a struct of its own. -/
def pairDict : Dict String StructEntry :=
  (Dict.empty.set "word" ⟨some ⟨"word", 64, 8⟩,
    [⟨"word", "long", "long", "value", 64, 8, 0, 0, false, false⟩]⟩).set
  "pair" ⟨some ⟨"pair", 128, 16⟩,
    [⟨"pair", "word", "struct word", "first", 64, 8, 0, 0, false, false⟩,
      ⟨"pair", "long", "long", "second", 64, 8, 64, 8, false, false⟩]⟩

/-- A word, a pair behind it, and a store to the second word of the pair. -/
def pairLines : List TraceEntry :=
  [.plain .daxDevInfo 0 outerAddr 4096,
    { TraceEntry.plain .pmStPtr 1 outerAddr 8 with stName := "word" },
    { TraceEntry.plain .pmStPtr 2 (outerAddr + 64) 16 with stName := "pair" },
    .plain .store 3 (outerAddr + 72) 8]

def pairReader : TraceReader := (TraceReader.load pairLines).get (by decide +kernel)

def pairState : IvState := (IvState.build 1000 pairReader pairDict).get (by decide +kernel)

theorem order_free_pair :
    OrderFree 1000 pairReader pairDict ↔ KeepsSizes pairDict 1000 (structRecords pairReader) :=
  order_free_iff (s := pairState) (Option.some_get _).symm

/-- The index with the pair first. -/
def pairFirstState : IvState :=
  (IvState.buildFrom 1000 (structRecords pairReader).reverse pairDict).get (by decide +kernel)

/-- The records have the sizes of their structs.  The pair, which comes last, makes the word as long
as itself, and a store to its second word then fails in the word's padding.  With the pair first the
word gets its size back, and the store is matched. -/
theorem word_grows_to_pair :
    TraceReader.load pairLines = some pairReader ∧
    (∀ x ∈ structRecords pairReader,
      (pairDict.get? x.2.stName).map StructEntry.sizeBytes = some x.2.size) ∧
    IvState.build 1000 pairReader pairDict = some pairState ∧
    (pairState.structDict.get? "word").bind StructEntry.header = some ⟨"word", 128, 16⟩ ∧
    ¬ SizesUnchanged pairDict pairState ∧
    IvState.buildFrom 1000 (structRecords pairReader).reverse pairDict = some pairFirstState ∧
    matchOf scanQueries pairState (0, .plain .store 3 (outerAddr + 72) 8) = none ∧
    ((matchOf scanQueries pairFirstState (0, .plain .store 3 (outerAddr + 72) 8)).bind id).map
      Annotation.stinfoMatch = some ⟨outerAddr + 64, "pair"⟩ := by
  refine ⟨(Option.some_get _).symm, by decide +kernel, (Option.some_get _).symm,
    by decide +kernel, ?_, (Option.some_get _).symm, by decide +kernel, by decide +kernel⟩
  intro h
  have hword := h "word"
  revert hword
  decide +kernel

end Layout
end Silhouette
