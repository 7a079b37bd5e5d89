import Silhouette.Cache.ReorderSimulator

/-!
# The memo of the reorder simulator

`__get_reorder_nums` keeps the numbers of its sub cases under the addresses of their dependent
lines, in one dict for all levels.  `memo_refines_plain` says that this changes no number: in every
call the recursion makes, what is stored for some lines is what the recursion without a memo comes
to for them.
-/

namespace Silhouette
namespace Cache
namespace ReorderSimulator

open Lib

/-- The combinations of dependent lines that are gone through. -/
def subCombos (r : FenceRegions) : List (List Int) :=
  (List.range' 1 (r.postDep.keys.length - 1)).flatMap (combinations r.postDep.keys)

/-- Some of the dependent lines with all other lines. -/
def restrictRegions (r : FenceRegions) (combo : List Int) : Option FenceRegions := do
  let prev ← restrict r.prevDep combo
  let post ← restrict r.postDep combo
  return { r with prevDep := prev, postDep := post }

/-- The numbers of the sub cases, each computed by `sub`. -/
def sumPlain (r : FenceRegions) (sub : FenceRegions → Option Int) (combos : List (List Int))
    (start : Int) : Option Int :=
  combos.foldlM (fun n combo => do
    let rs ← restrictRegions r combo
    let m ← sub rs
    return n + m) start

/-- `__get_reorder_nums` without the memo. -/
def getReorderNumsPlain (considerOw : Bool) : Nat → FenceRegions → Option Int
  | 0, _ => none
  | fuel + 1, r =>
    if r.prevDep.keys.length = r.postDep.keys.length then do
      let one ← atLeastOneOf considerOw r.postNonDep
      let preDep ← productOfLines true considerOw r.prevDep
      let pre ← productOfLines true considerOw r.prevNonDep
      let postDep ← productOfLines false considerOw r.postDep
      let post ← productOfLines true considerOw r.postNonDep
      let case3 ← sumPlain r (getReorderNumsPlain considerOw fuel) (subCombos r) 0
      return one * preDep * pre + postDep * pre * post + case3
    else none

def recursiveValue (considerOw : Bool) (r : FenceRegions) : Option Int :=
  getReorderNumsPlain considerOw (r.postDep.keys.length + 1) r

/-- The calls that the recursion can make, at any depth. -/
inductive CallOf (r : FenceRegions) : FenceRegions → Prop where
  | top : CallOf r r
  | sub {rc rs : FenceRegions} {combo : List Int} (hcall : CallOf r rc)
      (hcombo : combo ∈ subCombos rc) (hrs : restrictRegions rc combo = some rs) : CallOf r rs

/-- What is stored is the value without a memo, in every call that looks it up. -/
def MemoSound (considerOw : Bool) (r : FenceRegions) (memo : Memo) : Prop :=
  ∀ rc combo n, CallOf r rc → combo ∈ subCombos rc → memo.get? combo = some n →
    ∃ rs, restrictRegions rc combo = some rs ∧ recursiveValue considerOw rs = some n

/-- The memoised call returns the value without a memo and leaves a memo that is sound. -/
def CallExact (considerOw : Bool) (r rc : FenceRegions) (fuel : Nat) (memo : Memo) : Prop :=
  ∃ n memo', getReorderNumsDep considerOw fuel rc memo = some (n, memo') ∧
    recursiveValue considerOw rc = some n ∧ MemoSound considerOw r memo'

/-! ## Restrictions -/

theorem mem_subCombos {r : FenceRegions} {combo : List Int} (h : combo ∈ subCombos r) :
    combo.Sublist r.postDep.keys ∧ combo.length < r.postDep.keys.length := by
  obtain ⟨k, hk, hc⟩ := List.mem_flatMap.mp h
  obtain ⟨hsub, hlen⟩ := sublist_of_mem_combinations hc
  have hk' := List.mem_range'.mp hk
  exact ⟨hsub, by omega⟩

theorem restrict_congr {l₁ l₂ : LineStores} {combo : List Int}
    (h : ∀ a ∈ combo, l₁.get? a = l₂.get? a) : restrict l₁ combo = restrict l₂ combo := by
  apply foldlM_congr_of_mem
  intro d a ha
  rw [h a ha]

theorem get?_restrict {lines d : LineStores} {combo : List Int} (h : restrict lines combo = some d)
    {a : Int} (ha : a ∈ combo) : d.get? a = lines.get? a := by
  induction combo using List.reverseRecOn generalizing d with
  | nil => exact absurd ha List.not_mem_nil
  | append_singleton combo b ih =>
    rw [restrict, List.foldlM_append, ← restrict] at h
    cases hd : restrict lines combo with
    | none => rw [hd] at h; cases h
    | some d' =>
      cases hv : lines.get? b with
      | none => simp [hd, hv] at h
      | some v =>
        have hset : d'.set b v = d := by simpa [hd, hv] using h
        rw [← hset, Dict.get?_set]
        by_cases hab : a = b
        · rw [if_pos hab, hab, hv]
        · rw [if_neg hab]
          have ha' : a ∈ combo := by simpa [hab] using ha
          exact ih hd ha'

theorem restrictRegions_eq_some {r rs : FenceRegions} {combo : List Int}
    (h : restrictRegions r combo = some rs) :
    ∃ prev post, restrict r.prevDep combo = some prev ∧ restrict r.postDep combo = some post ∧
      rs = { r with prevDep := prev, postDep := post } := by
  obtain ⟨prev, hprev, h⟩ := Option.bind_eq_some_iff.mp h
  obtain ⟨post, hpost, h⟩ := Option.bind_eq_some_iff.mp h
  exact ⟨prev, post, hprev, hpost, (Option.some.inj h).symm⟩

/-- A call has the lines that it is for as the top call has them. -/
structure SameLines (r rc : FenceRegions) : Prop where
  sub : rc.postDep.keys.Sublist r.postDep.keys
  keys : ∀ a, a ∈ rc.prevDep.keys ↔ a ∈ rc.postDep.keys
  prev : ∀ a ∈ rc.postDep.keys, rc.prevDep.get? a = r.prevDep.get? a
  post : ∀ a ∈ rc.postDep.keys, rc.postDep.get? a = r.postDep.get? a
  prevNonDep : rc.prevNonDep = r.prevNonDep
  postNonDep : rc.postNonDep = r.postNonDep

theorem SameLines.refl {r : FenceRegions} (h : ∀ a, a ∈ r.prevDep.keys ↔ a ∈ r.postDep.keys) :
    SameLines r r :=
  ⟨List.Sublist.refl _, h, fun _ _ => rfl, fun _ _ => rfl, rfl, rfl⟩

theorem SameLines.length_eq {r rc : FenceRegions} (h : SameLines r rc) :
    rc.prevDep.keys.length = rc.postDep.keys.length :=
  ((List.perm_ext_iff_of_nodup rc.prevDep.nodup_keys rc.postDep.nodup_keys).mpr h.keys).length_eq

/-- The lines of a sub case are the same wherever it comes up. -/
theorem SameLines.restrictRegions_eq {r rc : FenceRegions} (h : SameLines r rc)
    {combo : List Int} (hsub : combo.Sublist rc.postDep.keys) :
    restrictRegions rc combo = restrictRegions r combo := by
  have hprev : restrict rc.prevDep combo = restrict r.prevDep combo :=
    restrict_congr fun a ha => h.prev a (hsub.subset ha)
  have hpost : restrict rc.postDep combo = restrict r.postDep combo :=
    restrict_congr fun a ha => h.post a (hsub.subset ha)
  simp only [restrictRegions, hprev, hpost, h.prevNonDep, h.postNonDep]

/-- Every sub case has its lines, and they are again those of the top call. -/
theorem SameLines.exists_restrict {r rc : FenceRegions} (h : SameLines r rc) {combo : List Int}
    (hsub : combo.Sublist rc.postDep.keys) :
    ∃ rs, restrictRegions rc combo = some rs ∧ rs.postDep.keys = combo ∧ SameLines r rs := by
  have hnd : combo.Nodup := rc.postDep.nodup_keys.sublist hsub
  obtain ⟨prev, hprev, hprevKeys⟩ := restrict_eq rc.prevDep hnd
    (fun a ha => (h.keys a).mpr (hsub.subset ha))
  obtain ⟨post, hpost, hpostKeys⟩ := restrict_eq rc.postDep hnd (fun a ha => hsub.subset ha)
  refine ⟨{ rc with prevDep := prev, postDep := post }, ?_, hpostKeys, ?_⟩
  · rw [restrictRegions, hprev, hpost]
    rfl
  · exact
      { sub := by
          show post.keys.Sublist _
          rw [hpostKeys]
          exact hsub.trans h.sub
        keys := by
          intro a
          show a ∈ prev.keys ↔ a ∈ post.keys
          rw [hprevKeys, hpostKeys]
        prev := by
          intro a ha
          have ha' : a ∈ combo := hpostKeys ▸ ha
          exact (get?_restrict hprev ha').trans (h.prev a (hsub.subset ha'))
        post := by
          intro a ha
          have ha' : a ∈ combo := hpostKeys ▸ ha
          exact (get?_restrict hpost ha').trans (h.post a (hsub.subset ha'))
        prevNonDep := h.prevNonDep
        postNonDep := h.postNonDep }

theorem CallOf.sameLines {r rc : FenceRegions} (h : CallOf r rc)
    (hkeys : ∀ a, a ∈ r.prevDep.keys ↔ a ∈ r.postDep.keys) : SameLines r rc := by
  induction h with
  | top => exact SameLines.refl hkeys
  | sub _ hcombo hrs ih =>
    obtain ⟨rs, hrs', _, hsame⟩ := ih.exists_restrict (mem_subCombos hcombo).1
    obtain rfl : rs = _ := Option.some.inj (hrs'.symm.trans hrs)
    exact hsame

/-! ## The recursion without a memo -/

theorem sumPlain_congr {r : FenceRegions} {f g : FenceRegions → Option Int}
    {combos : List (List Int)}
    (h : ∀ combo ∈ combos, ∀ rs, restrictRegions r combo = some rs → f rs = g rs) (start : Int) :
    sumPlain r f combos start = sumPlain r g combos start := by
  apply foldlM_congr_of_mem
  intro n combo hcombo
  cases hrs : restrictRegions r combo with
  | none => rfl
  | some rs =>
    show (f rs).bind _ = (g rs).bind _
    rw [h combo hcombo rs hrs]

theorem postDep_keys_sub {r rs : FenceRegions} {combo : List Int} (hcombo : combo ∈ subCombos r)
    (hrs : restrictRegions r combo = some rs) : rs.postDep.keys = combo := by
  have hsub := (mem_subCombos hcombo).1
  obtain ⟨prev, post, -, hpost, rfl⟩ := restrictRegions_eq_some hrs
  obtain ⟨post', hpost', hkeys⟩ := restrict_eq r.postDep (r.postDep.nodup_keys.sublist hsub)
    (fun a ha => hsub.subset ha)
  obtain rfl : post = post' := Option.some.inj (hpost.symm.trans hpost')
  exact hkeys

/-- The fuel does not matter when there is enough for every level. -/
theorem getReorderNumsPlain_fuel {considerOw : Bool} {fuel fuel' : Nat} {r : FenceRegions}
    (h : r.postDep.keys.length < fuel) (h' : r.postDep.keys.length < fuel') :
    getReorderNumsPlain considerOw fuel r = getReorderNumsPlain considerOw fuel' r := by
  induction fuel generalizing fuel' r with
  | zero => exact absurd h (Nat.not_lt_zero _)
  | succ fuel ih =>
    cases fuel' with
    | zero => exact absurd h' (Nat.not_lt_zero _)
    | succ fuel' =>
      have hsum : sumPlain r (getReorderNumsPlain considerOw fuel) (subCombos r) 0 =
          sumPlain r (getReorderNumsPlain considerOw fuel') (subCombos r) 0 := by
        apply sumPlain_congr
        intro combo hcombo rs hrs
        have hlen := (mem_subCombos hcombo).2
        have hkeys := postDep_keys_sub hcombo hrs
        apply ih
        · rw [hkeys]
          omega
        · rw [hkeys]
          omega
      rw [getReorderNumsPlain, getReorderNumsPlain, hsum]

theorem sumPlain_recursiveValue (considerOw : Bool) (r : FenceRegions) :
    sumPlain r (getReorderNumsPlain considerOw r.postDep.keys.length) (subCombos r) 0 =
      sumPlain r (recursiveValue considerOw) (subCombos r) 0 := by
  apply sumPlain_congr
  intro combo hcombo rs hrs
  have hlen := (mem_subCombos hcombo).2
  have hkeys := postDep_keys_sub hcombo hrs
  exact getReorderNumsPlain_fuel (by rw [hkeys]; exact hlen) (Nat.lt_succ_self _)

/-! ## The memo -/

section

variable {considerOw : Bool} {r : FenceRegions}

theorem memoSound_empty : MemoSound considerOw r Dict.empty := by
  intro _ combo n _ _ hget
  cases hget

/-- A value that one call has computed serves all calls. -/
theorem MemoSound.set (hkeys : ∀ a, a ∈ r.prevDep.keys ↔ a ∈ r.postDep.keys) {memo : Memo}
    (hmemo : MemoSound considerOw r memo) {rc rs : FenceRegions} {combo : List Int} {n : Int}
    (hcall : CallOf r rc) (hcombo : combo ∈ subCombos rc)
    (hrs : restrictRegions rc combo = some rs) (hn : recursiveValue considerOw rs = some n) :
    MemoSound considerOw r (memo.set combo n) := by
  intro rc' combo' m hcall' hcombo' hget
  rw [Dict.get?_set] at hget
  by_cases heq : combo' = combo
  · subst heq
    rw [if_pos rfl] at hget
    have hlines := (hcall.sameLines hkeys).restrictRegions_eq (mem_subCombos hcombo).1
    have hlines' := (hcall'.sameLines hkeys).restrictRegions_eq (mem_subCombos hcombo').1
    exact ⟨rs, by rw [hlines', ← hlines, hrs], by rw [hn, hget]⟩
  · rw [if_neg heq] at hget
    exact hmemo rc' combo' m hcall' hcombo' hget

/-- The sum over the sub cases is the sum without a memo. -/
theorem sumSubCases_memo (hkeys : ∀ a, a ∈ r.prevDep.keys ↔ a ∈ r.postDep.keys)
    {rc : FenceRegions} (hcall : CallOf r rc) {fuel : Nat}
    (hsub : ∀ combo ∈ subCombos rc, ∀ rs, restrictRegions rc combo = some rs → ∀ memo,
      MemoSound considerOw r memo → CallExact considerOw r rs fuel memo)
    {combos : List (List Int)} (hcombos : ∀ combo ∈ combos, combo ∈ subCombos rc) {memo : Memo}
    (hmemo : MemoSound considerOw r memo) :
    ∃ n memo', sumSubCases rc (getReorderNumsDep considerOw fuel) combos memo = some (n, memo') ∧
      sumPlain rc (recursiveValue considerOw) combos 0 = some n ∧
      MemoSound considerOw r memo' := by
  unfold sumSubCases sumPlain
  generalize (0 : Int) = start
  induction combos generalizing start memo with
  | nil => exact ⟨start, memo, rfl, rfl, hmemo⟩
  | cons combo rest ih =>
    have hcombo := hcombos combo List.mem_cons_self
    have hrest := fun c hc => hcombos c (List.mem_cons_of_mem combo hc)
    rw [List.foldlM_cons, List.foldlM_cons]
    cases hget : memo.get? combo with
    | some m =>
      obtain ⟨rs, hrs, hval⟩ := hmemo rc combo m hcall hcombo hget
      simpa [hget, hrs, hval] using ih hrest hmemo (start + m)
    | none =>
      obtain ⟨rs, hrs, _⟩ := (hcall.sameLines hkeys).exists_restrict (mem_subCombos hcombo).1
      obtain ⟨m, memo', hrun, hval, hmemo'⟩ := hsub combo hcombo rs hrs memo hmemo
      have hset := hmemo'.set hkeys hcall hcombo hrs hval
      have hafter := ih hrest hset (start + m)
      obtain ⟨prev, post, hprev, hpost, rfl⟩ := restrictRegions_eq_some hrs
      simpa [hget, hrs, hprev, hpost, hrun, hval] using hafter

/-- Every call with a sound memo is exact. -/
theorem callExact_of_sound (hkeys : ∀ a, a ∈ r.prevDep.keys ↔ a ∈ r.postDep.keys) {fuel : Nat}
    {rc : FenceRegions} (hcall : CallOf r rc) {memo : Memo} (hmemo : MemoSound considerOw r memo)
    (hfuel : rc.postDep.keys.length < fuel) : CallExact considerOw r rc fuel memo := by
  induction fuel generalizing rc memo with
  | zero => exact absurd hfuel (Nat.not_lt_zero _)
  | succ fuel ih =>
    have hsame := hcall.sameLines hkeys
    have hsub : ∀ combo ∈ subCombos rc, ∀ rs, restrictRegions rc combo = some rs → ∀ memo,
        MemoSound considerOw r memo → CallExact considerOw r rs fuel memo := by
      intro combo hcombo rs hrs memo hmemo
      have hlen := (mem_subCombos hcombo).2
      apply ih (CallOf.sub hcall hcombo hrs) hmemo
      rw [postDep_keys_sub hcombo hrs]
      omega
    obtain ⟨n, memo', hrun, hval, hmemo'⟩ := sumSubCases_memo hkeys hcall hsub
      (fun _ h => h) hmemo
    obtain ⟨one, preDep, pre, postDep, post, hone, hpreDep, hpre, hpostDep, hpost⟩ :=
      exists_regionNumbers considerOw rc
    rw [← sumPlain_recursiveValue] at hval
    refine ⟨one * preDep * pre + postDep * pre * post + n, memo', ?_, ?_, hmemo'⟩
    · rw [getReorderNumsDep, if_pos hsame.length_eq, hone, hpreDep, hpre, hpostDep, hpost]
      show (sumSubCases rc (getReorderNumsDep considerOw fuel) (subCombos rc) memo).bind _ = _
      rw [hrun]
      rfl
    · rw [recursiveValue, getReorderNumsPlain, if_pos hsame.length_eq, hone, hpreDep, hpre, hpostDep,
        hpost, hval]
      rfl

end

/-- The memoised recursion ends with the number of the recursion without a memo, and so does every
call that it makes from any memo that is sound. -/
theorem memo_refines_plain (considerOw : Bool) {r : FenceRegions}
    (hkeys : ∀ a, a ∈ r.prevDep.keys ↔ a ∈ r.postDep.keys) :
    CallExact considerOw r r (r.postDep.keys.length + 1) Dict.empty ∧
      ∀ rc, CallOf r rc → ∀ memo, MemoSound considerOw r memo → ∀ fuel,
        rc.postDep.keys.length < fuel → CallExact considerOw r rc fuel memo :=
  ⟨callExact_of_sound hkeys CallOf.top memoSound_empty (Nat.lt_succ_self _),
    fun _ hcall _ hmemo _ hfuel => callExact_of_sound hkeys hcall hmemo hfuel⟩

/-- The number that is reported is that of the recursion without a memo. -/
theorem getReorderNums_plain (considerOw : Bool) (m : Sim) :
    (getReorderNums considerOw m).map Prod.fst =
      (if (regions m).prevDep.keys.length = 0 then getReorderNumsNoDep considerOw (regions m)
        else recursiveValue considerOw (regions m)).map fun n => min n maxReported := by
  have hkeys : ∀ a, a ∈ (regions m).prevDep.keys ↔ a ∈ (regions m).postDep.keys := by
    intro a
    rw [keys_regions]
  obtain ⟨n, memo', hrun, hval, _⟩ := @callExact_of_sound considerOw _ hkeys
    ((regions m).postDep.keys.length + 1) _ CallOf.top _ memoSound_empty (Nat.lt_succ_self _)
  rw [getReorderNums, hrun, hval]
  by_cases hnone : (regions m).prevDep.keys.length = 0
  · cases getReorderNumsNoDep considerOw (regions m) <;> simp [hnone]
  · simp [hnone]

/-- Three dependent lines and one that has no store before the fence. -/
def threeLines : FenceRegions where
  prevDep := ((Dict.empty.set 0 [⟨1, 1, 0, 8⟩]).set 64 [⟨2, 2, 64, 8⟩]).set 128 [⟨3, 3, 128, 8⟩]
  prevNonDep := Dict.empty
  postDep := ((Dict.empty.set 0 [⟨4, 4, 0, 8⟩]).set 64 [⟨5, 5, 64, 8⟩]).set 128 [⟨6, 6, 128, 8⟩]
  postNonDep := Dict.empty.set 192 [⟨7, 7, 192, 8⟩]

theorem memo_refines_three_lines :
    ∃ memo', getReorderNumsDep true 4 threeLines Dict.empty = some (64, memo') ∧
      MemoSound true threeLines memo' := by
  obtain ⟨n, memo', hrun, hval, hmemo⟩ := (memo_refines_plain true (r := threeLines)
    (fun _ => Iff.rfl)).1
  have hn : recursiveValue true threeLines = some 64 := by decide +kernel
  obtain rfl : n = 64 := Option.some.inj (hval.symm.trans hn)
  exact ⟨memo', hrun, hmemo⟩

end ReorderSimulator
end Cache
end Silhouette
