/-
A finite map that remembers the order in which its keys were first written.

Writing an existing key keeps its position, writing a new key appends, and
traversals visit the keys in that order.  Key uniqueness is a field, so a lookup
and membership of the pair among the items say the same thing, and that
equivalence is what the lemmas below are stated through.
-/
import Mathlib.Data.List.Induction
import Mathlib.Data.List.Nodup
import Mathlib.Data.List.Lookmap
import Mathlib.Data.List.Sort

namespace Lib

open scoped List

/-! ## Stable sorting by a key -/

section Sorting

variable {α κ : Type} [LinearOrder κ]

def sortBy (key : α → κ) (l : List α) : List α := l.insertionSort fun x y => key x ≤ key y

theorem sortBy_perm (key : α → κ) (l : List α) : sortBy key l ~ l := List.perm_insertionSort _ l

theorem mem_sortBy {key : α → κ} {l : List α} {x : α} : x ∈ sortBy key l ↔ x ∈ l :=
  (sortBy_perm key l).mem_iff

theorem sortBy_pairwise (key : α → κ) (l : List α) :
    (sortBy key l).Pairwise fun x y => key x ≤ key y := by
  have : Std.Total fun x y : α => key x ≤ key y := ⟨fun x y => le_total (key x) (key y)⟩
  have : IsTrans α fun x y => key x ≤ key y := ⟨fun _ _ _ hxy hyz => le_trans hxy hyz⟩
  exact List.pairwise_insertionSort _ l

/-- Distinct keys come out strictly increasing. -/
theorem sortBy_pairwise_lt {key : α → κ} {l : List α} (h : (l.map key).Nodup) :
    (sortBy key l).Pairwise fun x y => key x < key y := by
  have hne : (sortBy key l).Pairwise fun x y => key x ≠ key y :=
    List.pairwise_map.mp (((sortBy_perm key l).map key).nodup_iff.mpr h)
  exact (hne.and (sortBy_pairwise key l)).imp fun hxy => lt_of_le_of_ne hxy.2 hxy.1

/-- A list of distinct keys is sorted in one way. -/
theorem sortBy_eq_of_perm {key : α → κ} {l m : List α} (hperm : m ~ l)
    (hm : m.Pairwise fun x y => key x < key y) : sortBy key l = m := by
  have hnd : (m.map key).Nodup := List.pairwise_map.mpr (hm.imp fun h => ne_of_lt h)
  refine List.Perm.eq_of_pairwise (fun x y hx hy hxy hyx => ?_) (sortBy_pairwise key l)
    (hm.imp fun h => le_of_lt h) ((sortBy_perm key l).trans hperm.symm)
  have hx' : x ∈ m := hperm.mem_iff.mpr (mem_sortBy.mp hx)
  exact List.inj_on_of_nodup_map hnd hx' hy (le_antisymm hxy hyx)

theorem sortBy_eq_reverse {key : α → κ} {l m : List α} (hperm : m ~ l)
    (hm : m.Pairwise fun x y => key y < key x) : sortBy key l = m.reverse :=
  sortBy_eq_of_perm ((List.reverse_perm m).trans hperm) (List.pairwise_reverse.mpr hm)

/-- Sorting keeps the order of the elements with one key. -/
theorem filter_sortBy (key : α → κ) (l : List α) (k : κ) :
    (sortBy key l).filter (fun x => key x = k) = l.filter (fun x => key x = k) := by
  have hsub : l.filter (fun x => key x = k) <+ sortBy key l := by
    refine List.sublist_insertionSort ?_ List.filter_sublist
    refine List.pairwise_of_forall_mem_list (fun x hx y hy => ?_)
    rw [of_decide_eq_true (List.mem_filter.mp hx).2, of_decide_eq_true (List.mem_filter.mp hy).2]
  have hfilter := hsub.filter (fun x => key x = k)
  rw [List.filter_filter] at hfilter
  simp only [Bool.and_self] at hfilter
  exact (hfilter.eq_of_length ((sortBy_perm key l).filter _).length_eq.symm).symm

theorem eq_nil_of_filter {key : α → κ} {l : List α}
    (h : ∀ k, l.filter (fun x => key x = k) = []) : l = [] := by
  cases l with
  | nil => rfl
  | cons a l => exact absurd (h (key a)) (by simp)

/-- A sorted list is determined by its elements of each key, in their order. -/
theorem eq_of_filter_eq {key : α → κ} {l m : List α}
    (hl : l.Pairwise fun x y => key x ≤ key y) (hm : m.Pairwise fun x y => key x ≤ key y)
    (h : ∀ k, l.filter (fun x => key x = k) = m.filter (fun x => key x = k)) : l = m := by
  induction l generalizing m with
  | nil => exact (eq_nil_of_filter fun k => (h k).symm).symm
  | cons a l ih =>
    cases m with
    | nil => exact eq_nil_of_filter h
    | cons b m =>
      have hmem : ∀ x, x ∈ a :: l ↔ x ∈ b :: m := by
        intro x
        have hx := congrArg (fun r => x ∈ r) (h (key x))
        simpa [List.mem_filter] using hx
      -- both heads have the least key
      have hab : key a ≤ key b := by
        rcases List.mem_cons.mp ((hmem b).mpr List.mem_cons_self) with heq | hb
        · exact (congrArg key heq).ge
        · exact List.rel_of_pairwise_cons hl hb
      have hba : key b ≤ key a := by
        rcases List.mem_cons.mp ((hmem a).mp List.mem_cons_self) with heq | ha
        · exact (congrArg key heq).ge
        · exact List.rel_of_pairwise_cons hm ha
      have hkey : key a = key b := le_antisymm hab hba
      have hhead := h (key a)
      rw [List.filter_cons_of_pos (by simp), List.filter_cons_of_pos (by simp [hkey])] at hhead
      obtain ⟨rfl, htail⟩ := List.cons.inj hhead
      refine congrArg (a :: ·) (ih hl.of_cons hm.of_cons (fun k => ?_))
      by_cases hk : key a = k
      · exact hk ▸ htail
      · have hrest := h k
        rwa [List.filter_cons_of_neg (by simpa using hk),
          List.filter_cons_of_neg (by simpa using hk)] at hrest

/-- Two lists are sorted alike exactly when they agree on the elements of each key. -/
theorem sortBy_eq_iff {key : α → κ} {l m : List α} :
    sortBy key l = sortBy key m ↔
      ∀ k, l.filter (fun x => key x = k) = m.filter (fun x => key x = k) := by
  constructor
  · intro h k
    rw [← filter_sortBy key l k, h, filter_sortBy]
  · intro h
    refine eq_of_filter_eq (sortBy_pairwise key l) (sortBy_pairwise key m) (fun k => ?_)
    rw [filter_sortBy, filter_sortBy, h]

/-- In a list sorted by a key, an element stands before those with larger keys. -/
theorem precedes_iff_of_sorted {key : α → κ} {l : List α}
    (h : l.Pairwise fun x y => key x ≤ key y) {x y : α} (hne : key y ≠ key x) :
    (∃ pre post, l = pre ++ x :: post ∧ y ∈ pre) ↔ x ∈ l ∧ y ∈ l ∧ key y < key x := by
  constructor
  · rintro ⟨pre, post, rfl, hy⟩
    have hle := (List.pairwise_append.mp h).2.2 y hy x List.mem_cons_self
    exact ⟨List.mem_append_right _ List.mem_cons_self, List.mem_append_left _ hy,
      lt_of_le_of_ne hle hne⟩
  · rintro ⟨hx, hy, hlt⟩
    obtain ⟨pre, post, rfl⟩ := List.append_of_mem hx
    refine ⟨pre, post, rfl, ?_⟩
    rcases List.mem_append.mp hy with hy | hy
    · exact hy
    · rcases List.mem_cons.mp hy with rfl | hy
      · exact absurd rfl hne
      · exact absurd (List.rel_of_pairwise_cons (List.pairwise_append.mp h).2.1 hy)
          (not_le_of_gt hlt)

/-- A sorted list falls apart at a key. -/
theorem filter_lt_append {key : α → κ} {l : List α} (h : l.Pairwise fun x y => key x ≤ key y)
    {a b : κ} (hab : a ≤ b) :
    l.filter (fun x => key x < b) =
      l.filter (fun x => key x < a) ++ l.filter fun x => a ≤ key x ∧ key x < b := by
  induction l with
  | nil => rfl
  | cons x rest ih =>
    obtain ⟨hx, hrest⟩ := List.pairwise_cons.mp h
    by_cases ha : key x < a
    · have hb : key x < b := lt_of_lt_of_le ha hab
      rw [List.filter_cons_of_pos (by simpa using hb), List.filter_cons_of_pos (by simpa using ha),
        List.filter_cons_of_neg (by simp [ha]), ih hrest, List.cons_append]
    · have hnone : (x :: rest).filter (fun y => key y < a) = [] := by
        refine List.filter_eq_nil_iff.mpr (fun y hy => ?_)
        rcases List.mem_cons.mp hy with rfl | hy
        · simpa using ha
        · simpa using le_trans (le_of_not_gt ha) (hx y hy)
      rw [hnone, List.nil_append]
      refine List.filter_congr (fun y hy => ?_)
      have hay : a ≤ key y := by
        rcases List.mem_cons.mp hy with rfl | hy
        · exact le_of_not_gt ha
        · exact le_trans (le_of_not_gt ha) (hx y hy)
      simp [hay]

/-! Sorted sets of integers rest on these. -/

instance isTrans_int_le : IsTrans Int fun x y => x ≤ y := ⟨fun _ _ _ => Int.le_trans⟩

instance antisymm_int_le : Std.Antisymm fun x y : Int => x ≤ y := ⟨fun _ _ => Int.le_antisymm⟩

end Sorting

/-! ## Loops that cannot fail -/

theorem foldlM_eq_some {α β : Type} {f : β → α → Option β} {g : β → α → β} {l : List α}
    (h : ∀ b, ∀ x ∈ l, f b x = some (g b x)) (b : β) : l.foldlM f b = some (l.foldl g b) := by
  induction l generalizing b with
  | nil => rfl
  | cons x rest ih =>
    rw [List.foldlM_cons, h b x List.mem_cons_self, List.foldl_cons]
    exact ih (fun b y hy => h b y (List.mem_cons_of_mem _ hy)) (g b x)

theorem foldlM_isSome {α β : Type} {f : β → α → Option β} {l : List α}
    (h : ∀ b, ∀ x ∈ l, (f b x).isSome) (b : β) : (l.foldlM f b).isSome := by
  induction l generalizing b with
  | nil => rfl
  | cons x rest ih =>
    obtain ⟨c, hc⟩ := Option.isSome_iff_exists.mp (h b x List.mem_cons_self)
    rw [List.foldlM_cons, hc]
    exact ih (fun b y hy => h b y (List.mem_cons_of_mem _ hy)) c

/-- A loop goes through when each of its turns does. -/
theorem foldlM_isSome_iff {α β : Type} {f : β → α → Option β} {ok : α → Prop} {l : List α}
    (h : ∀ b, ∀ x ∈ l, (f b x).isSome ↔ ok x) (b : β) : (l.foldlM f b).isSome ↔ ∀ x ∈ l, ok x := by
  refine ⟨fun hfold => ?_, fun hok => foldlM_isSome (fun b x hx => (h b x hx).mpr (hok x hx)) b⟩
  induction l generalizing b with
  | nil => exact fun x hx => absurd hx List.not_mem_nil
  | cons x rest ih =>
    rw [List.foldlM_cons] at hfold
    cases hx : f b x with
    | none =>
      rw [hx] at hfold
      cases hfold
    | some c =>
      rw [hx] at hfold
      refine List.forall_mem_cons.mpr ⟨(h b x List.mem_cons_self).mp (by rw [hx]; rfl), ?_⟩
      exact ih (fun b y hy => h b y (List.mem_cons_of_mem _ hy)) c hfold

/-- What every turn of a loop keeps holds behind the loop. -/
theorem foldlM_invariant_of_mem {α β : Type} {f : β → α → Option β} {P : β → Prop} {l : List α}
    (hstep : ∀ b, ∀ x ∈ l, ∀ b', P b → f b x = some b' → P b') {b b' : β} (hb : P b)
    (h : l.foldlM f b = some b') : P b' := by
  induction l generalizing b with
  | nil => exact Option.some.inj h ▸ hb
  | cons x rest ih =>
    rw [List.foldlM_cons] at h
    obtain ⟨c, hc, h⟩ := Option.bind_eq_some_iff.mp h
    exact ih (fun b y hy => hstep b y (List.mem_cons_of_mem _ hy))
      (hstep b x List.mem_cons_self c hb hc) h

theorem foldlM_invariant {α β : Type} {f : β → α → Option β} {P : β → Prop}
    (hstep : ∀ b x b', P b → f b x = some b' → P b') {l : List α} {b b' : β} (hb : P b)
    (h : l.foldlM f b = some b') : P b' :=
  foldlM_invariant_of_mem (fun b x _ => hstep b x) hb h

/-- What a loop has collected: what was there, and what some turn added. -/
theorem foldl_collects {α β γ : Type} {f : β → α → β} (has : β → γ → Prop) (adds : α → γ → Prop)
    (h : ∀ b a x, has (f b a) x ↔ has b x ∨ adds a x) (l : List α) (b : β) (x : γ) :
    has (l.foldl f b) x ↔ has b x ∨ ∃ a ∈ l, adds a x := by
  induction l generalizing b with
  | nil => simp
  | cons a rest ih => rw [List.foldl_cons, ih, h, List.exists_mem_cons_iff, or_assoc]

theorem foldlM_congr_of_mem {α β : Type} {f g : β → α → Option β} {l : List α}
    (h : ∀ b, ∀ x ∈ l, f b x = g b x) (b : β) : l.foldlM f b = l.foldlM g b := by
  induction l generalizing b with
  | nil => rfl
  | cons x rest ih =>
    rw [List.foldlM_cons, List.foldlM_cons, h b x List.mem_cons_self]
    exact congrArg _ (funext fun b' => ih (fun b y hy => h b y (List.mem_cons_of_mem _ hy)) b')

theorem mapM_eq_some {α β : Type} {f : α → Option β} {g : α → β} {l : List α}
    (h : ∀ x ∈ l, f x = some (g x)) : l.mapM f = some (l.map g) := by
  induction l with
  | nil => rfl
  | cons x rest ih =>
    rw [List.mapM_cons, h x List.mem_cons_self,
      ih (fun y hy => h y (List.mem_cons_of_mem _ hy))]
    rfl

theorem mapM_eq_map {α β : Type} {f : α → Option β} {g : α → β}
    (hfg : ∀ x y, f x = some y → y = g x) {l : List α} {r : List β} (h : l.mapM f = some r) : r = l.map g := by
  induction l generalizing r with
  | nil => exact (Option.some.inj h).symm
  | cons x rest ih =>
    rw [List.mapM_cons] at h
    obtain ⟨y, hy, h⟩ := Option.bind_eq_some_iff.mp h
    obtain ⟨ys, hys, h⟩ := Option.bind_eq_some_iff.mp h
    rw [← Option.some.inj h, List.map_cons, ← hfg x y hy, ← ih hys]

/-- What is made of elements, and can be taken back to them, comes in their order. -/
theorem map_of_mapM {α β : Type} {f : α → Option β} {g : β → α}
    (hfg : ∀ x y, f x = some y → g y = x) {l : List α} {r : List β} (h : l.mapM f = some r) :
    r.map g = l := by
  induction l generalizing r with
  | nil =>
    rw [← Option.some.inj h]
    rfl
  | cons x rest ih =>
    rw [List.mapM_cons] at h
    obtain ⟨y, hy, h⟩ := Option.bind_eq_some_iff.mp h
    obtain ⟨ys, hys, h⟩ := Option.bind_eq_some_iff.mp h
    rw [← Option.some.inj h, List.map_cons, hfg x y hy, ih hys]

theorem exists_of_mapM_eq_some {α β : Type} {f : α → Option β} {l : List α} {r : List β}
    (h : l.mapM f = some r) : ∀ x ∈ l, ∃ y, f x = some y := by
  induction l generalizing r with
  | nil => simp
  | cons x rest ih =>
    rw [List.mapM_cons] at h
    obtain ⟨y, hy, h⟩ := Option.bind_eq_some_iff.mp h
    obtain ⟨ys, hys, -⟩ := Option.bind_eq_some_iff.mp h
    intro z hz
    rcases List.mem_cons.mp hz with rfl | hz
    · exact ⟨y, hy⟩
    · exact ih hys z hz

theorem exists_mem_of_forall₂ {α β : Type} {R : α → β → Prop} {l : List α} {m : List β}
    (h : List.Forall₂ R l m) {y : β} (hy : y ∈ m) : ∃ x ∈ l, R x y := by
  induction h with
  | nil => exact absurd hy List.not_mem_nil
  | cons hxy _ ih =>
    rcases List.mem_cons.mp hy with rfl | hy
    · exact ⟨_, List.mem_cons_self, hxy⟩
    · obtain ⟨x, hx, hR⟩ := ih hy
      exact ⟨x, List.mem_cons_of_mem _ hx, hR⟩

theorem exists_mem_of_mapM {α β : Type} {f : α → Option β} {l : List α} {r : List β}
    (h : l.mapM f = some r) {x : α} (hx : x ∈ l) : ∃ y ∈ r, f x = some y := by
  induction l generalizing r with
  | nil => exact absurd hx List.not_mem_nil
  | cons z rest ih =>
    rw [List.mapM_cons] at h
    obtain ⟨y, hy, h⟩ := Option.bind_eq_some_iff.mp h
    obtain ⟨ys, hys, h⟩ := Option.bind_eq_some_iff.mp h
    rw [← Option.some.inj h]
    rcases List.mem_cons.mp hx with rfl | hx
    · exact ⟨y, List.mem_cons_self, hy⟩
    · obtain ⟨y', hy', hfx⟩ := ih hys hx
      exact ⟨y', List.mem_cons_of_mem _ hy', hfx⟩

theorem exists_of_mem_mapM {α β : Type} {f : α → Option β} {l : List α} {r : List β} {y : β}
    (h : l.mapM f = some r) (hy : y ∈ r) : ∃ x ∈ l, f x = some y := by
  induction l generalizing r with
  | nil =>
    rw [List.mapM_nil] at h
    rw [← Option.some.inj h] at hy
    exact absurd hy List.not_mem_nil
  | cons x rest ih =>
    rw [List.mapM_cons] at h
    obtain ⟨z, hz, h⟩ := Option.bind_eq_some_iff.mp h
    obtain ⟨zs, hzs, h⟩ := Option.bind_eq_some_iff.mp h
    rw [← Option.some.inj h] at hy
    rcases List.mem_cons.mp hy with rfl | hy
    · exact ⟨x, List.mem_cons_self, hz⟩
    · obtain ⟨x', hx', hfx⟩ := ih hzs hy
      exact ⟨x', List.mem_cons_of_mem _ hx', hfx⟩

theorem isSome_mapM_iff {α β : Type} {f : α → Option β} {l : List α} :
    (l.mapM f).isSome ↔ ∀ x ∈ l, (f x).isSome := by
  induction l with
  | nil => simp
  | cons x rest ih =>
    rw [List.mapM_cons, List.forall_mem_cons, ← ih]
    cases f x with
    | none => simp
    | some y => cases rest.mapM f <;> simp

/-- Work on the values of a list of pairs, and then look up. -/
theorem lookup_mapM {κ α β : Type} [DecidableEq κ] {f : α → Option β} {l : List (κ × α)}
    {r : List (κ × β)} (h : l.mapM (fun x => (f x.2).map (Prod.mk x.1)) = some r) (k : κ) :
    r.lookup k = (l.lookup k).bind f := by
  induction l generalizing r with
  | nil =>
    rw [List.mapM_nil] at h
    rw [← Option.some.inj h]
    rfl
  | cons x rest ih =>
    rw [List.mapM_cons] at h
    obtain ⟨y, hy, h⟩ := Option.bind_eq_some_iff.mp h
    obtain ⟨ys, hys, h⟩ := Option.bind_eq_some_iff.mp h
    obtain ⟨z, hz, hyz⟩ := Option.map_eq_some_iff.mp hy
    rw [← Option.some.inj h, ← hyz]
    by_cases hk : k = x.1
    · rw [hk, List.lookup_cons_self, List.lookup_cons_self, Option.bind_some, hz]
    · have hne : (k == x.1) = false := beq_eq_false_iff_ne.mpr hk
      rw [List.lookup_cons, hne, List.lookup_cons, hne]
      exact ih hys

/-! ## Dictionaries -/

structure Dict (κ ν : Type) where
  items : List (κ × ν)
  nodup : (items.map Prod.fst).Nodup

namespace Dict

variable {κ ν : Type}

def empty : Dict κ ν := ⟨[], List.nodup_nil⟩

def keys (d : Dict κ ν) : List κ := d.items.map Prod.fst

def values (d : Dict κ ν) : List ν := d.items.map Prod.snd

theorem nodup_keys (d : Dict κ ν) : d.keys.Nodup := d.nodup

/-- Replace every value in place. -/
def mapValues (f : ν → ν) (d : Dict κ ν) : Dict κ ν where
  items := d.items.map fun x => (x.1, f x.2)
  nodup := by
    have h : (d.items.map fun x => (x.1, f x.2)).map Prod.fst = d.items.map Prod.fst := by
      rw [List.map_map]
      rfl
    rw [h]
    exact d.nodup

/-- Delete the keys whose value fails `p`. -/
def filterValues (p : ν → Bool) (d : Dict κ ν) : Dict κ ν where
  items := d.items.filter fun x => p x.2
  nodup := d.nodup.sublist (List.filter_sublist.map Prod.fst)

variable [DecidableEq κ]

def get? (d : Dict κ ν) (k : κ) : Option ν := d.items.lookup k

/-- Write `v` under `k`: in place when the key exists, at the end otherwise. -/
def set (d : Dict κ ν) (k : κ) (v : ν) : Dict κ ν :=
  if h : k ∈ d.items.map Prod.fst then
    { items := d.items.map fun x => if x.1 = k then (k, v) else x
      nodup := by
        have hk : (d.items.map fun x => if x.1 = k then (k, v) else x).map Prod.fst =
            d.items.map Prod.fst := by
          rw [List.map_map]
          refine List.map_congr_left (fun x _ => ?_)
          by_cases hx : x.1 = k <;> simp [hx]
        rw [hk]
        exact d.nodup }
  else
    { items := d.items ++ [(k, v)]
      nodup := by
        rw [List.map_append, List.nodup_append]
        refine ⟨d.nodup, List.nodup_singleton k, ?_⟩
        intro a ha b hb hab
        rw [List.map_singleton, List.mem_singleton] at hb
        rw [hab, hb] at ha
        exact h ha }

/-- Delete a key if it is there. -/
def erase (d : Dict κ ν) (k : κ) : Dict κ ν where
  items := d.items.filter fun x => x.1 ≠ k
  nodup := d.nodup.sublist (List.filter_sublist.map Prod.fst)

/-- A lookup succeeds exactly on the pairs among the items. -/
theorem get?_eq_some {d : Dict κ ν} {k : κ} {v : ν} :
    d.get? k = some v ↔ (k, v) ∈ d.items := by
  obtain ⟨items, hnd⟩ := d
  show items.lookup k = some v ↔ (k, v) ∈ items
  induction items with
  | nil => simp
  | cons x rest ih =>
    obtain ⟨k', v'⟩ := x
    rw [List.map_cons, List.nodup_cons] at hnd
    by_cases hk : k = k'
    · subst hk
      simp only [List.lookup_cons, beq_self_eq_true, Option.some.injEq, List.mem_cons,
        Prod.mk.injEq, true_and]
      constructor
      · exact fun e => Or.inl e.symm
      · rintro (e | hmem)
        · exact e.symm
        · exact absurd (List.mem_map_of_mem hmem) hnd.1
    · have hb : (k == k') = false := beq_eq_false_iff_ne.mpr hk
      simp only [List.lookup_cons, hb, List.mem_cons, Prod.mk.injEq, hk, false_and, false_or]
      exact ih hnd.2

theorem get?_eq_none {d : Dict κ ν} {k : κ} : d.get? k = none ↔ k ∉ d.keys := by
  constructor
  · intro h hk
    obtain ⟨x, hx, rfl⟩ := List.mem_map.mp hk
    rw [get?_eq_some.mpr hx] at h
    exact absurd h (by simp)
  · intro h
    cases hg : d.get? k with
    | none => rfl
    | some v => exact absurd (List.mem_map_of_mem (get?_eq_some.mp hg)) h

theorem mem_keys {d : Dict κ ν} {k : κ} : k ∈ d.keys ↔ ∃ v, d.get? k = some v := by
  cases h : d.get? k with
  | none => simp [get?_eq_none.mp h]
  | some v =>
    have hk : k ∈ d.keys := List.mem_map_of_mem (get?_eq_some.mp h)
    simp [hk]

theorem mem_values {d : Dict κ ν} {v : ν} : v ∈ d.values ↔ ∃ k, d.get? k = some v := by
  simp only [values, List.mem_map, get?_eq_some, Prod.exists, exists_eq_right]

@[simp] theorem get?_empty (k : κ) : (empty : Dict κ ν).get? k = none := rfl

theorem get?_set (d : Dict κ ν) (k k' : κ) (v : ν) :
    (d.set k v).get? k' = if k' = k then some v else d.get? k' := by
  apply Option.ext
  intro w
  rw [get?_eq_some]
  by_cases hk : k ∈ d.items.map Prod.fst
  · simp only [set, hk, dite_true, List.mem_map, Prod.exists]
    by_cases he : k' = k
    · subst he
      rw [if_pos rfl]
      constructor
      · rintro ⟨a, b, -, h⟩
        by_cases ha : a = k'
        · simp only [ha, if_true, Prod.mk.injEq, true_and] at h
          rw [h]
        · simp only [ha, if_false, Prod.mk.injEq, false_and] at h
      · intro h
        obtain ⟨x, hx, hxk⟩ := List.mem_map.mp hk
        exact ⟨x.1, x.2, hx, by rw [if_pos hxk, Option.some.inj h]⟩
    · rw [if_neg he, get?_eq_some]
      constructor
      · rintro ⟨a, b, hab, h⟩
        by_cases ha : a = k
        · simp only [ha, if_true, Prod.mk.injEq] at h
          exact absurd h.1.symm he
        · simp only [ha, if_false] at h
          exact h ▸ hab
      · intro h
        exact ⟨k', w, h, by rw [if_neg he]⟩
  · simp only [set, hk, dite_false, List.mem_append, List.mem_singleton, Prod.mk.injEq]
    by_cases he : k' = k
    · subst he
      rw [if_pos rfl]
      constructor
      · rintro (h | h)
        · exact absurd (List.mem_map_of_mem h) hk
        · rw [h.2]
      · exact fun h => Or.inr ⟨rfl, (Option.some.inj h).symm⟩
    · rw [if_neg he, get?_eq_some]
      simp [he]

theorem keys_set (d : Dict κ ν) (k : κ) (v : ν) :
    (d.set k v).keys = if k ∈ d.keys then d.keys else d.keys ++ [k] := by
  by_cases hk : k ∈ d.keys
  · have hk' : k ∈ d.items.map Prod.fst := hk
    rw [if_pos hk]
    simp only [keys, set, hk', dite_true, List.map_map]
    refine List.map_congr_left (fun x _ => ?_)
    by_cases hx : x.1 = k <;> simp [hx]
  · have hk' : k ∉ d.items.map Prod.fst := hk
    rw [if_neg hk]
    simp only [keys, set, hk', dite_false, List.map_append, List.map_cons, List.map_nil]

theorem items_set_of_notMem {d : Dict κ ν} {k : κ} (h : k ∉ d.keys) (v : ν) :
    (d.set k v).items = d.items ++ [(k, v)] := by
  have h' : k ∉ d.items.map Prod.fst := h
  simp only [set, h', dite_false]

/-- A loop that files some elements of a list under distinct keys. -/
theorem items_foldl_set {α : Type} (key : α → κ) (val : α → ν) (p : α → Bool) {l : List α}
    (hl : (l.map key).Nodup) :
    (l.foldl (fun d x => if p x then d.set (key x) (val x) else d) empty).items =
      (l.filter p).map fun x => (key x, val x) := by
  induction l using List.reverseRecOn with
  | nil => rfl
  | append_singleton l x ih =>
    rw [List.map_append, List.nodup_append] at hl
    have ih' := ih hl.1
    rw [List.foldl_append, List.foldl_cons, List.foldl_nil, List.filter_append, List.map_append]
    by_cases hp : p x = true
    · rw [if_pos hp, List.filter_cons_of_pos hp, items_set_of_notMem, ih']
      · rfl
      · rw [keys, ih', List.map_map]
        intro hmem
        obtain ⟨y, hy, hxy⟩ := List.mem_map.mp hmem
        exact hl.2.2 _ (List.mem_map_of_mem (List.mem_filter.mp hy).1) _ (by simp) hxy
    · rw [if_neg hp, List.filter_cons_of_neg hp, ih']
      simp

theorem get?_mapValues (f : ν → ν) (d : Dict κ ν) (k : κ) :
    (d.mapValues f).get? k = (d.get? k).map f := by
  apply Option.ext
  intro w
  rw [get?_eq_some, Option.map_eq_some_iff]
  simp only [mapValues, List.mem_map, Prod.exists, Prod.mk.injEq, get?_eq_some]
  constructor
  · rintro ⟨a, b, hab, rfl, hb⟩
    exact ⟨b, hab, hb⟩
  · rintro ⟨b, hab, hb⟩
    exact ⟨k, b, hab, rfl, hb⟩

theorem get?_filterValues (p : ν → Bool) (d : Dict κ ν) (k : κ) :
    (d.filterValues p).get? k = (d.get? k).filter p := by
  apply Option.ext
  intro w
  rw [get?_eq_some, Option.filter_eq_some_iff, get?_eq_some]
  simp only [filterValues, List.mem_filter]

theorem get?_erase (d : Dict κ ν) (k k' : κ) :
    (d.erase k).get? k' = if k' = k then none else d.get? k' := by
  apply Option.ext
  intro w
  rw [get?_eq_some]
  simp only [erase, List.mem_filter, decide_eq_true_eq, ← get?_eq_some]
  by_cases hk : k' = k <;> simp [hk]

theorem mem_keys_set {d : Dict κ ν} {k k' : κ} {v : ν} :
    k' ∈ (d.set k v).keys ↔ k' = k ∨ k' ∈ d.keys := by
  rw [mem_keys, mem_keys, get?_set]
  by_cases hk : k' = k <;> simp [hk]

theorem mem_keys_erase {d : Dict κ ν} {k k' : κ} :
    k' ∈ (d.erase k).keys ↔ k' ≠ k ∧ k' ∈ d.keys := by
  rw [mem_keys, mem_keys, get?_erase]
  by_cases hk : k' = k <;> simp [hk]

/-- A dictionary of counts, each key repeated as often as it was counted. -/
theorem count_flatMap_replicate (d : Dict κ Nat) (k : κ) :
    (d.items.flatMap fun x => List.replicate x.2 x.1).count k = (d.get? k).getD 0 := by
  obtain ⟨items, hnd⟩ := d
  show _ = (items.lookup k).getD 0
  induction items with
  | nil => rfl
  | cons x rest ih =>
    obtain ⟨k', n⟩ := x
    rw [List.map_cons, List.nodup_cons] at hnd
    rw [List.flatMap_cons, List.count_append, ih hnd.2]
    by_cases hk : k = k'
    · subst hk
      have hnone : rest.lookup k = none := by
        rw [List.lookup_eq_none_iff]
        intro p hp
        exact bne_iff_ne.mpr fun hps => hnd.1 (List.mem_map.mpr ⟨p, hp, hps.symm⟩)
      rw [hnone, List.lookup_cons_self]
      simp
    · have hb : (k == k') = false := beq_eq_false_iff_ne.mpr hk
      simp [List.lookup_cons, hb, List.count_replicate, Ne.symm hk]

end Dict
end Lib
