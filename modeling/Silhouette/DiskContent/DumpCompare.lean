import Silhouette.DiskContent.RoundTrip

/-!
# Comparing two dumps

Two entries differ in the keys of the pairs that only one of them has, so a comparison that counts
no difference is one of equal maps.  What is printed of a path determines it.
-/

namespace Silhouette
namespace DiskContent

open Lib Lib.Text

/-! ## Two entries -/

theorem mem_fzset {e : DiskEntryAttrs} {key val : List Char} :
    (key, val) ∈ e.fzset ↔ e.vars.get? key = some val := by
  rw [DiskEntryAttrs.fzset, List.mem_toFinset, Dict.get?_eq_some]

theorem getVarStr_eq {e f : DiskEntryAttrs} {key : List Char}
    (h : getVarStr e key = getVarStr f key) : e.vars.get? key = f.vars.get? key := by
  have hlit : lit " : " ≠ [] := by decide
  rw [getVarStr, getVarStr] at h
  cases he : e.vars.get? key with
  | none =>
    cases hf : f.vars.get? key with
    | none => rfl
    | some w =>
      simp only [he, hf] at h
      exact absurd h.symm (by simp [hlit])
  | some v =>
    cases hf : f.vars.get? key with
    | none =>
      simp only [he, hf] at h
      exact absurd h (by simp [hlit])
    | some w =>
      simp only [he, hf] at h
      rw [List.append_cancel_left (List.append_cancel_left h)]

theorem mem_diffKeys {e f : DiskEntryAttrs} {ignore : Finset (List Char)} {key : List Char} :
    key ∈ diffKeys e f ignore ↔ e.vars.get? key ≠ f.vars.get? key ∧ key ∉ ignore := by
  rw [diffKeys, Finset.mem_sdiff, Finset.mem_image]
  refine and_congr_left fun _ => ⟨?_, fun hne => ?_⟩
  · rintro ⟨⟨k, v⟩, hmem, rfl⟩ heq
    rw [Finset.mem_union, Finset.mem_sdiff, Finset.mem_sdiff, mem_fzset, mem_fzset, heq] at hmem
    rcases hmem with ⟨h₁, h₂⟩ | ⟨h₁, h₂⟩
    · exact h₂ h₁
    · exact h₂ h₁
  · cases he : e.vars.get? key with
    | some v =>
      refine ⟨(key, v), Finset.mem_union_left _ (Finset.mem_sdiff.mpr ⟨mem_fzset.mpr he, ?_⟩), rfl⟩
      exact fun hf => hne (he.trans (mem_fzset.mp hf).symm)
    | none =>
      cases hf : f.vars.get? key with
      | none => exact absurd (he.trans hf.symm) hne
      | some w =>
        refine ⟨(key, w), Finset.mem_union_right _ (Finset.mem_sdiff.mpr ⟨mem_fzset.mpr hf, ?_⟩), rfl⟩
        intro he'
        rw [mem_fzset, he] at he'
        cases he'

/-- A key in which two entries differ has other texts in them. -/
theorem getVarStr_ne {e f : DiskEntryAttrs} {ignore : Finset (List Char)} {key : List Char}
    (h : key ∈ diffKeys e f ignore) : getVarStr e key ≠ getVarStr f key := fun heq =>
  (mem_diffKeys.mp h).1 (getVarStr_eq heq)

theorem fzset_eq_iff {e f : DiskEntryAttrs} :
    e.fzset = f.fzset ↔ ∀ key, e.vars.get? key = f.vars.get? key := by
  constructor
  · intro h key
    refine Option.ext fun v => ?_
    rw [← mem_fzset, h, mem_fzset]
  · intro h
    ext ⟨key, v⟩
    rw [mem_fzset, h, mem_fzset]

theorem diffKeys_eq_empty {e f : DiskEntryAttrs} {ignore : Finset (List Char)} :
    diffKeys e f ignore = ∅ ↔ ∀ key ∉ ignore, e.vars.get? key = f.vars.get? key := by
  rw [Finset.eq_empty_iff_forall_notMem]
  refine forall_congr' fun key => ?_
  rw [mem_diffKeys, not_and', not_not]

theorem diffKeys_empty_eq_empty {e f : DiskEntryAttrs} :
    diffKeys e f ∅ = ∅ ↔ e.fzset = f.fzset := by
  rw [diffKeys_eq_empty, fzset_eq_iff]
  simp

theorem diffKeys_comm (e f : DiskEntryAttrs) (ignore : Finset (List Char)) :
    diffKeys e f ignore = diffKeys f e ignore := by
  ext key
  rw [mem_diffKeys, mem_diffKeys, ne_comm]

/-- The comparison of two entries cannot fail. -/
theorem diffAttrs_eq (e f : DiskEntryAttrs) (ignore : Finset (List Char)) :
    diffAttrs e f ignore = some (diffKeys e f ignore).card := by
  rw [diffAttrs]
  by_cases h : e.fzset = f.fzset
  · rw [if_pos h, diffKeys_eq_empty.mpr fun key _ => fzset_eq_iff.mp h key]
    rfl
  · rw [if_neg h, if_pos fun key hkey => getVarStr_ne hkey]

/-! ## Two maps -/

theorem foldl_count {α : Type} (p : α → Bool) (xs : List α) (n : Nat) :
    xs.foldl (fun n x => if p x then n + 1 else n) n = n + xs.countP p := by
  induction xs generalizing n with
  | nil => rfl
  | cons x rest ih =>
    rw [List.foldl_cons, ih, List.countP_cons]
    split_ifs <;> omega

/-- The differences that a path of the first map counts. -/
def pathDiffs (b : Dict (List Char) DiskEntryAttrs) (ignore : Finset (List Char))
    (x : List Char × DiskEntryAttrs) : Nat :=
  match b.get? x.1 with
  | some f => (diffKeys x.2 f ignore).card
  | none => x.2.vars.items.length

theorem diffPath_eq (b : Dict (List Char) DiskEntryAttrs) (ignore : Finset (List Char))
    (x : List Char × DiskEntryAttrs) : diffPath b ignore x = some (pathDiffs b ignore x) := by
  rw [diffPath, pathDiffs]
  cases b.get? x.1 with
  | none => rfl
  | some f => exact diffAttrs_eq x.2 f ignore

theorem diffCtx_eq (a b : Dict (List Char) DiskEntryAttrs) (ignore : Finset (List Char)) :
    diffCtx a b ignore = some (a.items.countP (fun x => decide (pathDiffs b ignore x > 0)) +
      b.items.countP fun x => decide (x.1 ∉ a.keys ∧ x.2.vars.items.length > 0)) := by
  have hfirst : ∀ (n : Nat), ∀ x ∈ a.items,
      (do return if (← diffPath b ignore x) > 0 then n + 1 else n) =
        some (if decide (pathDiffs b ignore x > 0) then n + 1 else n) := by
    intro n x _
    rw [diffPath_eq]
    simp
  have hsecond : (fun (n : Nat) (x : List Char × DiskEntryAttrs) =>
      if x.1 ∈ a.keys then n else if x.2.vars.items.length > 0 then n + 1 else n) =
      fun n x => if decide (x.1 ∉ a.keys ∧ x.2.vars.items.length > 0) then n + 1 else n := by
    funext n x
    by_cases hkey : x.1 ∈ a.keys
    · simp [hkey]
    · simp [hkey]
  rw [diffCtx, foldlM_eq_some hfirst, hsecond]
  simp only [Option.bind_eq_bind, Option.bind_some, Option.pure_def, foldl_count, Nat.zero_add]

/-- No difference is counted between maps of equal entries. -/
theorem diffCtx_eq_zero_iff {a b : Dict (List Char) DiskEntryAttrs}
    (ha : ∀ x ∈ a.items, x.2.vars.items ≠ []) (hb : ∀ x ∈ b.items, x.2.vars.items ≠ []) :
    diffCtx a b ∅ = some 0 ↔
      (∀ x ∈ a.items, ∃ f, b.get? x.1 = some f ∧ x.2.fzset = f.fzset) ∧
        ∀ x ∈ b.items, x.1 ∈ a.keys := by
  rw [diffCtx_eq, Option.some_inj, Nat.add_eq_zero_iff, List.countP_eq_zero, List.countP_eq_zero]
  refine and_congr (forall₂_congr fun x hx => ?_) (forall₂_congr fun x hx => ?_)
  · have hpos := List.length_pos_of_ne_nil (ha x hx)
    rw [pathDiffs]
    cases b.get? x.1 with
    | none => simp [ha x hx]
    | some f => simp [diffKeys_empty_eq_empty]
  · have hpos := List.length_pos_of_ne_nil (hb x hx)
    simp [hpos]

/-! ## What is printed determines the path -/

theorem decimal_inj {m n : Nat} (h : decimal m = decimal n) : m = n := by
  have hread := congrArg readInt h
  rw [readInt_decimal, readInt_decimal, Option.some_inj] at hread
  exact Int.ofNat_inj.mp hread

theorem decimalInt_inj {i j : Int} (h : decimalInt i = decimalInt j) : i = j := by
  have hread := congrArg readInt h
  rwa [readInt_decimalInt, readInt_decimalInt, Option.some_inj] at hread

theorem digitChar_inj {m n : Nat} (hm : m < 16) (hn : n < 16) (h : m.digitChar = n.digitChar) :
    m = n := by
  have hval := congrArg digitVal h
  rwa [digitVal_digitChar hm, digitVal_digitChar hn, Option.some_inj] at hval

theorem hexByte_inj {b c : UInt8} (h : hexByte b = hexByte c) : b = c := by
  have hb : b.toNat < 256 := b.toNat_lt
  have hc : c.toNat < 256 := c.toNat_lt
  obtain ⟨hhigh, htail⟩ := List.cons.inj h
  obtain ⟨hlow, -⟩ := List.cons.inj htail
  have hdiv := digitChar_inj (by omega) (by omega) hhigh
  have hmod := digitChar_inj (by omega) (by omega) hlow
  exact UInt8.toNat_inj.mp (by omega)

theorem attrs_inj {a b : FileAttributes} (h : a.attrs = b.attrs) (herr : a.errMsg = b.errMsg) :
    a = b := by
  cases a
  cases b
  simp only [FileAttributes.attrs, FileAttributes.dirAttrs, FileAttributes.statAttrs,
    FileAttributes.md5Attr, List.cons_append, List.nil_append, List.cons.injEq, Prod.mk.injEq,
    true_and, and_true, List.append_cancel_left_eq] at h
  obtain ⟨h1, h2, h3, h4, h5, h6, h7, h8, h9, h10, h11, h12, h13, h14, h15, h16⟩ := h
  rw [FileAttributes.mk.injEq]
  exact ⟨h1, decimal_inj h2, decimalInt_inj h3, decimal_inj h4, hexByte_inj h5, decimal_inj h6,
    decimalInt_inj h7, decimalInt_inj h8, decimalInt_inj h9, decimal_inj h10, decimal_inj h11,
    decimal_inj h12, decimal_inj h13, decimal_inj h14, decimal_inj h15, h16, herr⟩

/-- Pairs under the same distinct keys are in the same order. -/
theorem eq_of_keys_eq {κ ν : Type} {l m : List (κ × ν)} (hkeys : l.map Prod.fst = m.map Prod.fst)
    (hnodup : (l.map Prod.fst).Nodup) (h : ∀ x ∈ l, x ∈ m) : l = m := by
  induction l generalizing m with
  | nil => exact (List.map_eq_nil_iff.mp hkeys.symm).symm
  | cons x l ih =>
    cases m with
    | nil => cases hkeys
    | cons y m =>
      obtain ⟨hxy, hrest⟩ := List.cons.inj hkeys
      obtain ⟨hfresh, hnodup'⟩ := List.nodup_cons.mp hnodup
      have hx : x = y := by
        rcases List.mem_cons.mp (h x List.mem_cons_self) with heq | hmem
        · exact heq
        · exact absurd (hrest ▸ List.mem_map_of_mem hmem) hfresh
      subst hx
      refine congrArg (x :: ·) (ih hrest hnodup' fun z hz => ?_)
      rcases List.mem_cons.mp (h z (List.mem_cons_of_mem _ hz)) with rfl | hmem
      · exact absurd (List.mem_map_of_mem hz) hfresh
      · exact hmem

theorem attrs_eq_of_toFinset {a b : FileAttributes} (h : a.attrs.toFinset = b.attrs.toFinset) :
    a.attrs = b.attrs := by
  refine eq_of_keys_eq rfl (keys_attrs a) fun x hx => ?_
  rw [← List.mem_toFinset, ← h, List.mem_toFinset]
  exact hx

theorem attrs_ne_nil (a : FileAttributes) : a.attrs ≠ [] := List.cons_ne_nil _ _

/-- Dumps with the same paths and attributes have the same contents. -/
theorem contents_eq {c d : DiskContents} (h : ∀ x, x ∈ c.contents ↔ x ∈ d.contents) :
    c.contents = d.contents := by
  have hperm : c.contents.Perm d.contents :=
    (List.perm_ext_iff_of_nodup (nodup_paths c).of_map (nodup_paths d).of_map).mpr h
  refine hperm.eq_of_pairwise (fun x y _ _ hxy hyx => ?_) c.sorted d.sorted
  exact absurd hyx (List.lt_asymm hxy)

/-! ## The comparison -/

theorem mem_entries {c : DiskContents} {r : CtxFileReader} (h : ReadBack c r)
    {e : DiskEntryAttrs} (he : e ∈ r.entries) :
    ∃ x ∈ c.contents, e.path = x.1 ∧ e.vars.items = x.2.attrs := by
  have hmem : (e.path, e.vars.items) ∈ c.contents.map fun x => (x.1, x.2.attrs) := by
    rw [← h.2.1]
    exact List.mem_map_of_mem (f := fun e : DiskEntryAttrs => (e.path, e.vars.items)) he
  obtain ⟨x, hx, heq⟩ := List.mem_map.mp hmem
  obtain ⟨hpath, hvars⟩ := Prod.mk.inj heq
  exact ⟨x, hx, hpath.symm, hvars.symm⟩

theorem mem_items {c : DiskContents} {r : CtxFileReader} (h : ReadBack c r)
    {y : List Char × DiskEntryAttrs} (hy : y ∈ r.entriesPathMap.items) :
    ∃ x ∈ c.contents, y.1 = x.1 ∧ y.2.vars.items = x.2.attrs := by
  rw [entriesPathMap_items h.2.1] at hy
  obtain ⟨e, he, rfl⟩ := List.mem_map.mp hy
  exact mem_entries h he

/-- Dumps that were read back compare equal exactly when they are of equal contents. -/
theorem diffCtx_eq_zero_of_readBack {c d : DiskContents} {r s : CtxFileReader}
    (hc : c.NoError) (hd : d.NoError) (hr : ReadBack c r) (hs : ReadBack d s) :
    diffCtx r.entriesPathMap s.entriesPathMap ∅ = some 0 ↔ c.contents = d.contents := by
  have hne : ∀ {c : DiskContents} {r : CtxFileReader}, ReadBack c r →
      ∀ x ∈ r.entriesPathMap.items, x.2.vars.items ≠ [] := by
    intro c r hr x hx
    obtain ⟨y, -, -, hvars⟩ := mem_items hr hx
    rw [hvars]
    exact attrs_ne_nil _
  rw [diffCtx_eq_zero_iff (hne hr) (hne hs)]
  constructor
  · rintro ⟨hleft, hright⟩
    -- a path of the first dump is in the second with the same attributes
    have hsub : ∀ x ∈ c.contents, x ∈ d.contents := by
      intro x hx
      obtain ⟨e, hget, hvars⟩ := hr.2.2 x hx
      obtain ⟨f, hf, hset⟩ := hleft (x.1, e) (Dict.get?_eq_some.mp hget)
      obtain ⟨y, hy, hpath, hvars'⟩ := mem_items hs (Dict.get?_eq_some.mp hf)
      rw [DiskEntryAttrs.fzset, DiskEntryAttrs.fzset, hvars, hvars'] at hset
      have hattrs := attrs_inj (attrs_eq_of_toFinset hset) ((hc.2 x hx).trans (hd.2 y hy).symm)
      rwa [Prod.ext hpath hattrs]
    refine contents_eq fun x => ⟨hsub x, fun hx => ?_⟩
    obtain ⟨f, hget, -⟩ := hs.2.2 x hx
    obtain ⟨e, he⟩ := Dict.mem_keys.mp (hright (x.1, f) (Dict.get?_eq_some.mp hget))
    obtain ⟨y, hy, hpath, -⟩ := mem_items hr (Dict.get?_eq_some.mp he)
    rwa [List.inj_on_of_nodup_map (nodup_paths d) hx (hsub y hy) hpath]
  · intro heq
    refine ⟨fun x hx => ?_, fun x hx => ?_⟩
    · obtain ⟨y, hy, hpath, hvars⟩ := mem_items hr hx
      obtain ⟨f, hf, hvars'⟩ := hs.2.2 y (heq ▸ hy)
      refine ⟨f, hpath ▸ hf, ?_⟩
      rw [DiskEntryAttrs.fzset, DiskEntryAttrs.fzset, hvars, hvars']
    · obtain ⟨y, hy, hpath, -⟩ := mem_items hs hx
      obtain ⟨e, he, -⟩ := hr.2.2 y (heq ▸ hy)
      exact Dict.mem_keys.mpr ⟨e, hpath ▸ he⟩

/-- A mount point with one empty file. -/
def oneFile (name : List Char) : DiskContents where
  desc := lit "creat /mnt/a"
  contents := [(lit "/mnt/" ++ name,
    { dName := name, dIno := 33, dOff := 1, dReclen := 24, dType := 8, stIno := 33, stSize := 0,
      stBlksize := 4096, stBlocks := 0, stNlink := 1, stMode := 33188, stUid := 0, stGid := 0,
      stRdev := 0, stDev := 259, md5sum := lit "d41d8cd98f00b204e9800998ecf8427e" })]
  sorted := List.pairwise_singleton _ _

theorem oneFile_legal {name : List Char} (h : '\n' ∉ name) : (oneFile name).Legal where
  path := by
    intro x hx
    obtain rfl := List.mem_singleton.mp hx
    have hlit : '\n' ∉ lit "/mnt/" ∧ lit "/mnt/" ≠ [] := by decide
    exact ⟨by simp [hlit.2], by simp [hlit.1, h]⟩
  name := by
    intro x hx
    obtain rfl := List.mem_singleton.mp hx
    exact h
  md5sum := by
    intro x hx
    obtain rfl := List.mem_singleton.mp hx
    have hall : (lit "d41d8cd98f00b204e9800998ecf8427e").all
        (fun d => decide (∃ n < 16, d = n.digitChar)) = true := by decide +kernel
    intro d hd
    exact of_decide_eq_true (List.all_eq_true.mp hall d hd)
  desc := by
    show '\n' ∉ lit "creat /mnt/a"
    decide

theorem oneFile_noError (name : List Char) : (oneFile name).NoError := by
  refine ⟨rfl, fun x hx => ?_⟩
  obtain rfl := List.mem_singleton.mp hx
  rfl

end DiskContent
end Silhouette
