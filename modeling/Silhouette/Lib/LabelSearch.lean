/-
Searching a graph by labels.

A list of nodes is gone through while it grows.  The first node with a label appends its neighbours
and a later one with the label is passed over, so the search ends when the labels do, even where
the nodes do not.  What is passed over has neighbours of its own that are never looked at.

A route says how a node is come to: a position in the list at the beginning, then positions among
neighbours.  Shorter routes come first, and of two of one length the one that is smaller where they
part.  When the labels around a node depend on its label only, `mem_search_iff` says what the list
holds in the end: the nodes it began with, and the neighbours of each node whose route is the first
to its label.
-/
import Silhouette.Lib.OnePass
import Mathlib.Data.Finset.Card
import Mathlib.Data.Finset.SDiff
import Mathlib.Data.List.Lex
import Mathlib.Data.Prod.Lex

namespace Lib

section Search

variable {α κ : Type} [DecidableEq κ]

/-- The list, the labels that have been met and whether something was appended. -/
structure SearchState (α κ : Type) where
  nodes : List α
  seen : List κ
  grown : Bool

section

variable (label : α → κ) (next : α → List α)

def SearchState.visit (s : SearchState α κ) (x : α) : SearchState α κ :=
  if label x ∈ s.seen then s
  else ⟨s.nodes ++ next x, label x :: s.seen, s.grown || !(next x).isEmpty⟩

/-- The pass over the list from a position on.  It comes to what it appends. -/
def searchPass : Nat → Nat → SearchState α κ → Option (SearchState α κ)
  | 0, _, _ => none
  | limit + 1, i, s =>
    match s.nodes[i]? with
    | none => some s
    | some x => searchPass limit (i + 1) (s.visit label next x)

/-- Passes, until one appends nothing. -/
def search : Nat → List α → List κ → Option (List α)
  | 0, _, _ => none
  | limit + 1, nodes, seen =>
    (searchPass label next limit 0 ⟨nodes, seen, false⟩).bind fun s =>
      if s.grown then search limit s.nodes s.seen else some s.nodes

end

/-! ## Routes -/

/-- Shorter routes come first. -/
def routeKey (w : List Nat) : ℕ ×ₗ List ℕ := toLex (w.length, w)

theorem append_lt_append {u v : List Nat} (hlen : u.length = v.length) (h : u < v) (s t : List Nat) :
    u ++ s < v ++ t := by
  induction u generalizing v with
  | nil =>
    rw [List.length_nil] at hlen
    rw [List.length_eq_zero_iff.mp hlen.symm] at h
    exact absurd h (lt_irrefl _)
  | cons a u ih =>
    cases v with
    | nil => exact absurd hlen (by simp)
    | cons b v =>
      rw [List.cons_append, List.cons_append]
      rcases List.cons_lt_cons_iff.mp h with hab | hab
      · exact List.cons_lt_cons_iff.mpr (Or.inl hab)
      · exact List.cons_lt_cons_iff.mpr (Or.inr ⟨hab.1, ih (Nat.succ.inj hlen) hab.2⟩)

theorem routeKey_lt_of_length {u v : List Nat} (h : u.length < v.length) :
    routeKey u < routeKey v :=
  Prod.Lex.toLex_lt_toLex.mpr (Or.inl h)

/-- Routes on from two nodes are in the order of the routes to them. -/
theorem routeKey_append_lt {u v : List Nat} (h : routeKey u < routeKey v) (i j : Nat) :
    routeKey (u ++ [i]) < routeKey (v ++ [j]) := by
  refine Prod.Lex.toLex_lt_toLex.mpr ?_
  rcases Prod.Lex.toLex_lt_toLex.mp h with hlen | hlex
  · have hlen : u.length < v.length := hlen
    exact Or.inl (by simp; omega)
  · have hlen : u.length = v.length := hlex.1
    exact Or.inr ⟨by simp [hlen], append_lt_append hlen hlex.2 _ _⟩

theorem routeKey_append_le {u v : List Nat} (h : routeKey u ≤ routeKey v) (j : Nat) :
    routeKey (u ++ [j]) ≤ routeKey (v ++ [j]) := by
  rcases lt_or_eq_of_le h with hlt | heq
  · exact le_of_lt (routeKey_append_lt hlt j j)
  · have huv : u = v := congrArg (fun k => (ofLex k).2) heq
    rw [huv]

theorem routeKey_append_of_lt (w : List Nat) {i j : Nat} (h : i < j) :
    routeKey (w ++ [i]) < routeKey (w ++ [j]) := by
  refine Prod.Lex.toLex_lt_toLex.mpr (Or.inr ⟨by simp, ?_⟩)
  exact List.append_left_lt (List.cons_lt_cons_iff.mpr (Or.inl h))

section

variable (label : α → κ) (next : α → List α) (start : List α)

/-- The positions in the list at the beginning and among the neighbours on the way to a node. -/
inductive Route : List Nat → α → Prop where
  | start {i : Nat} {x : α} : start[i]? = some x → Route [i] x
  | step {w : List Nat} {x : α} {j : Nat} {y : α} :
      Route w x → (next x)[j]? = some y → Route (w ++ [j]) y

/-- No node with the label has a route before the route to this one. -/
def Foremost (x : α) : Prop :=
  ∃ w, Route next start w x ∧
    ∀ v y, Route next start v y → label y = label x → routeKey w ≤ routeKey v

/-! ## The routes to the nodes of the list -/

/-- The nodes at the beginning with their routes. -/
def startRoutes : List (List Nat × α) := start.mapIdx fun i x => ([i], x)

/-- The neighbours of a node with their routes. -/
def nextRoutes (a : List Nat × α) : List (List Nat × α) :=
  (next a.2).mapIdx fun j y => (a.1 ++ [j], y)

/-- What the list holds before position `i` has been gone through. -/
structure Explored (i : Nat) (s : SearchState α κ) (routed : List (List Nat × α)) : Prop where
  nodes : routed.map Prod.snd = s.nodes
  le : i ≤ routed.length
  built : routed = startRoutes start ++
    (firstsBy (fun a => label a.2) [] (routed.take i)).flatMap (nextRoutes next)
  sorted : routed.Pairwise fun a b => routeKey a.1 < routeKey b.1
  seen : ∀ k, k ∈ s.seen ↔ ∃ a ∈ routed.take i, label a.2 = k

end

section

variable {label : α → κ} {next : α → List α} {start : List α}

theorem mem_startRoutes {a : List Nat × α} :
    a ∈ startRoutes start ↔ ∃ i x, start[i]? = some x ∧ a = ([i], x) := by
  rw [startRoutes, List.mem_mapIdx]
  constructor
  · rintro ⟨i, hi, rfl⟩
    exact ⟨i, start[i], List.getElem?_eq_getElem hi, rfl⟩
  · rintro ⟨i, x, hx, rfl⟩
    obtain ⟨hi, rfl⟩ := List.getElem?_eq_some_iff.mp hx
    exact ⟨i, hi, rfl⟩

theorem mem_nextRoutes {a b : List Nat × α} :
    b ∈ nextRoutes next a ↔ ∃ j y, (next a.2)[j]? = some y ∧ b = (a.1 ++ [j], y) := by
  rw [nextRoutes, List.mem_mapIdx]
  constructor
  · rintro ⟨j, hj, rfl⟩
    exact ⟨j, (next a.2)[j], List.getElem?_eq_getElem hj, rfl⟩
  · rintro ⟨j, y, hy, rfl⟩
    obtain ⟨hj, rfl⟩ := List.getElem?_eq_some_iff.mp hy
    exact ⟨j, hj, rfl⟩

theorem map_snd_mapIdx (f : Nat → List Nat) (l : List α) :
    (l.mapIdx fun i x => (f i, x)).map Prod.snd = l := by
  refine List.ext_getElem? fun i => ?_
  rw [List.getElem?_map, List.getElem?_mapIdx]
  cases l[i]? with
  | none => rfl
  | some x => rfl

theorem explored_init : Explored label next start 0 ⟨start, [], false⟩ (startRoutes start) := by
  refine ⟨?_, Nat.zero_le _, ?_, ?_, ?_⟩
  · exact map_snd_mapIdx _ start
  · rw [List.take_zero, firstsBy, List.flatMap_nil, List.append_nil]
  · rw [startRoutes, List.pairwise_iff_getElem]
    intro i j hi hj hij
    rw [List.getElem_mapIdx, List.getElem_mapIdx]
    exact routeKey_append_of_lt [] hij
  · intro k
    simp

section

variable {i : Nat} {s : SearchState α κ} {routed : List (List Nat × α)}

/-- A node of the list is one from the beginning or a neighbour of one that was gone through. -/
theorem Explored.mem_cases (h : Explored label next start i s routed) {a : List Nat × α}
    (ha : a ∈ routed) : a ∈ startRoutes start ∨ ∃ b ∈ routed.take i, a ∈ nextRoutes next b := by
  rw [h.built] at ha
  rcases List.mem_append.mp ha with ha | ha
  · exact Or.inl ha
  · obtain ⟨b, hb, ha⟩ := List.mem_flatMap.mp ha
    exact Or.inr ⟨b, (mem_of_mem_firstsBy hb).1, ha⟩

theorem Explored.ne_nil (h : Explored label next start i s routed) {a : List Nat × α}
    (ha : a ∈ routed) : a.1 ≠ [] := by
  rcases h.mem_cases ha with ha | ⟨b, -, ha⟩
  · obtain ⟨j, x, -, rfl⟩ := mem_startRoutes.mp ha
    exact List.cons_ne_nil j []
  · obtain ⟨j, y, -, rfl⟩ := mem_nextRoutes.mp ha
    exact List.append_ne_nil_of_right_ne_nil _ (List.cons_ne_nil j [])

/-- What a node appends comes behind everything in the list. -/
theorem Explored.lt_nextRoutes (h : Explored label next start i s routed) {c : List Nat × α}
    (hc : routed[i]? = some c) {a b : List Nat × α} (ha : a ∈ routed)
    (hb : b ∈ nextRoutes next c) : routeKey a.1 < routeKey b.1 := by
  obtain ⟨hi, rfl⟩ := List.getElem?_eq_some_iff.mp hc
  obtain ⟨j, y, -, rfl⟩ := mem_nextRoutes.mp hb
  rcases h.mem_cases ha with ha | ⟨d, hd, ha⟩
  · obtain ⟨k, x, -, rfl⟩ := mem_startRoutes.mp ha
    have hpos : 0 < routed[i].1.length := List.length_pos_iff.mpr (h.ne_nil (List.getElem_mem hi))
    exact routeKey_lt_of_length (by simp; omega)
  · obtain ⟨k, x, -, rfl⟩ := mem_nextRoutes.mp ha
    obtain ⟨m, hm, rfl⟩ := List.mem_take_iff_getElem.mp hd
    have hmi : m < i := lt_of_lt_of_le hm (Nat.min_le_left _ _)
    exact routeKey_append_lt (List.pairwise_iff_getElem.mp h.sorted m i _ hi hmi) k j

theorem take_add_one_of_some {c : List Nat × α} (hc : routed[i]? = some c) :
    routed.take (i + 1) = routed.take i ++ [c] := by
  rw [List.take_add_one, hc]
  rfl

/-- The first nodes of their labels, with one more gone through. -/
theorem Explored.firstsBy_take_add_one (h : Explored label next start i s routed)
    (c : List Nat × α) :
    firstsBy (fun a => label a.2) [] (routed.take i ++ [c]) =
      firstsBy (fun a => label a.2) [] (routed.take i) ++
        if label c.2 ∈ s.seen then [] else [c] := by
  have hmet : (label c.2 ∈ ([] : List κ) ∨ ∃ b ∈ routed.take i, label b.2 = label c.2) ↔
      label c.2 ∈ s.seen := by
    rw [h.seen]
    simp
  rw [firstsBy_concat]
  exact congrArg _ (if_congr hmet rfl rfl)

theorem Explored.seen_add_one (h : Explored label next start i s routed) (c : List Nat × α)
    (k : κ) : (∃ a ∈ routed.take i ++ [c], label a.2 = k) ↔ k ∈ s.seen ∨ k = label c.2 := by
  rw [h.seen]
  simp only [List.mem_append, List.mem_singleton, or_and_right, exists_or, exists_eq_left]
  exact or_congr_right eq_comm

theorem Explored.passOver (h : Explored label next start i s routed) {c : List Nat × α}
    (hc : routed[i]? = some c) (hseen : label c.2 ∈ s.seen) :
    Explored label next start (i + 1) s routed where
  nodes := h.nodes
  le := (List.getElem?_eq_some_iff.mp hc).1
  built := by
    rw [take_add_one_of_some hc, h.firstsBy_take_add_one, if_pos hseen, List.append_nil]
    exact h.built
  sorted := h.sorted
  seen := by
    intro k
    rw [take_add_one_of_some hc, h.seen_add_one]
    exact ⟨Or.inl, fun hk => hk.elim id fun hk => hk ▸ hseen⟩

theorem Explored.append (h : Explored label next start i s routed) {c : List Nat × α}
    (hc : routed[i]? = some c) (hseen : label c.2 ∉ s.seen) (grown : Bool) :
    Explored label next start (i + 1) ⟨s.nodes ++ next c.2, label c.2 :: s.seen, grown⟩
      (routed ++ nextRoutes next c) := by
  have hi : i + 1 ≤ routed.length := (List.getElem?_eq_some_iff.mp hc).1
  have htake : (routed ++ nextRoutes next c).take (i + 1) = routed.take i ++ [c] := by
    rw [List.take_append_of_le_length hi, take_add_one_of_some hc]
  refine ⟨?_, ?_, ?_, ?_, fun k => ?_⟩
  · rw [List.map_append, h.nodes, nextRoutes, map_snd_mapIdx]
  · rw [List.length_append]
    omega
  · rw [htake, h.firstsBy_take_add_one, if_neg hseen, List.flatMap_append, ← List.append_assoc,
      ← h.built, List.flatMap_singleton]
  · apply List.pairwise_append.mpr
    refine ⟨h.sorted, ?_, fun a ha b hb => h.lt_nextRoutes hc ha hb⟩
    rw [nextRoutes, List.pairwise_iff_getElem]
    intro j k hj hk hjk
    rw [List.getElem_mapIdx, List.getElem_mapIdx]
    exact routeKey_append_of_lt c.1 hjk
  · rw [htake, h.seen_add_one, List.mem_cons]
    exact or_comm

theorem Explored.visit (h : Explored label next start i s routed) {x : α}
    (hx : s.nodes[i]? = some x) :
    ∃ routed', Explored label next start (i + 1) (s.visit label next x) routed' := by
  rw [← h.nodes, List.getElem?_map] at hx
  obtain ⟨c, hc, rfl⟩ := Option.map_eq_some_iff.mp hx
  rw [SearchState.visit]
  by_cases hseen : label c.2 ∈ s.seen
  · rw [if_pos hseen]
    exact ⟨routed, h.passOver hc hseen⟩
  · rw [if_neg hseen]
    exact ⟨routed ++ nextRoutes next c, h.append hc hseen _⟩

/-- A pass that ends has gone through all that it appended. -/
theorem Explored.pass (h : Explored label next start i s routed) {limit : Nat}
    {s' : SearchState α κ} (hs' : searchPass label next limit i s = some s') :
    ∃ routed', Explored label next start routed'.length s' routed' := by
  induction limit generalizing i s routed with
  | zero => cases hs'
  | succ limit ih =>
    rw [searchPass] at hs'
    split at hs'
    · rename_i hnone
      obtain rfl := Option.some.inj hs'
      have hlen : routed.length ≤ i := by
        rw [← List.length_map (f := Prod.snd), h.nodes]
        exact List.getElem?_eq_none_iff.mp hnone
      obtain rfl : routed.length = i := Nat.le_antisymm hlen h.le
      exact ⟨routed, h⟩
    · rename_i x hx
      obtain ⟨routed', h'⟩ := h.visit hx
      exact ih h' hs'

/-- A pass over labels that have been met changes nothing. -/
theorem searchPass_of_seen (hseen : ∀ x ∈ s.nodes, label x ∈ s.seen) {limit : Nat}
    {s' : SearchState α κ} (hs' : searchPass label next limit i s = some s') : s' = s := by
  induction limit generalizing i with
  | zero => cases hs'
  | succ limit ih =>
    rw [searchPass] at hs'
    split at hs'
    · exact (Option.some.inj hs').symm
    · rename_i x hx
      rw [SearchState.visit, if_pos (hseen x (List.mem_of_getElem? hx))] at hs'
      exact ih hs'

end

theorem Explored.all_seen {s : SearchState α κ} {routed : List (List Nat × α)}
    (h : Explored label next start routed.length s routed) : ∀ x ∈ s.nodes, label x ∈ s.seen := by
  intro x hx
  rw [← h.nodes] at hx
  obtain ⟨a, ha, rfl⟩ := List.mem_map.mp hx
  rw [h.seen, List.take_length]
  exact ⟨a, ha, rfl⟩

/-- The second pass is over labels that have been met. -/
theorem explored_search {limit : Nat} {nodes : List α}
    (h : search label next limit start [] = some nodes) :
    ∃ s routed, s.nodes = nodes ∧ Explored label next start routed.length s routed := by
  cases limit with
  | zero => cases h
  | succ limit =>
    obtain ⟨s, hs, h⟩ := Option.bind_eq_some_iff.mp h
    obtain ⟨routed, hex⟩ := explored_init.pass hs
    refine ⟨s, routed, ?_, hex⟩
    by_cases hgrown : s.grown = true
    · rw [if_pos hgrown] at h
      cases limit with
      | zero => cases h
      | succ limit =>
        obtain ⟨t, ht, h⟩ := Option.bind_eq_some_iff.mp h
        obtain rfl := searchPass_of_seen (s := ⟨s.nodes, s.seen, false⟩) hex.all_seen ht
        exact Option.some.inj h
    · rw [if_neg hgrown] at h
      exact Option.some.inj h

/-! ## What the list holds in the end -/

theorem Route.eq {w : List Nat} {x y : α} (hx : Route next start w x) (hy : Route next start w y) :
    x = y := by
  induction hx generalizing y with
  | @start i x hx =>
    generalize hw : [i] = w at hy
    cases hy with
    | start hy =>
      obtain rfl := (List.cons.inj hw).1
      exact Option.some.inj (hx.symm.trans hy)
    | @step u z j y hu hy =>
      have hlen := congrArg List.length hw
      cases hu <;> simp at hlen
  | @step w x j x' hx hstep ih =>
    generalize hv : w ++ [j] = v at hy
    cases hy with
    | start hy =>
      have hlen := congrArg List.length hv
      cases hx <;> simp at hlen
    | @step u z k y hu hy =>
      obtain ⟨rfl, hjk⟩ := List.append_inj' hv rfl
      obtain rfl := (List.cons.inj hjk).1
      obtain rfl := ih hu
      exact Option.some.inj (hstep.symm.trans hy)

section

variable {s : SearchState α κ} {routed : List (List Nat × α)}

theorem Explored.route (h : Explored label next start routed.length s routed)
    {a : List Nat × α} (ha : a ∈ routed) : Route next start a.1 a.2 := by
  induction hn : a.1.length using Nat.strong_induction_on generalizing a with
  | _ n ih =>
    rcases h.mem_cases ha with hstart | ⟨b, hb, hnext⟩
    · obtain ⟨i, x, hx, rfl⟩ := mem_startRoutes.mp hstart
      exact Route.start hx
    · rw [List.take_length] at hb
      obtain ⟨j, y, hy, rfl⟩ := mem_nextRoutes.mp hnext
      rw [List.length_append, List.length_singleton] at hn
      exact Route.step (ih b.1.length (by omega) hb rfl) hy

theorem Explored.mem_of_first (h : Explored label next start routed.length s routed)
    {a b : List Nat × α} (ha : a ∈ firstsBy (fun a => label a.2) [] routed)
    (hb : b ∈ nextRoutes next a) : b ∈ routed := by
  rw [h.built, List.take_length]
  exact List.mem_append_right _ (List.mem_flatMap.mpr ⟨a, ha, hb⟩)

/-- A node that comes first of its label, and its route. -/
theorem Explored.exists_first (h : Explored label next start routed.length s routed)
    {a : List Nat × α} (ha : a ∈ routed) :
    ∃ b ∈ firstsBy (fun a => label a.2) [] routed, label b.2 = label a.2 ∧
      routeKey b.1 ≤ routeKey a.1 := by
  obtain ⟨b, hb, hba⟩ := @exists_mem_firstsBy _ _ _ (fun a : List Nat × α => label a.2) _ _ _ ha
    List.not_mem_nil
  refine ⟨b, hb, hba, ?_⟩
  rcases rel_of_mem_firstsBy h.sorted hb ha hba.symm with rfl | hlt
  · exact le_rfl
  · exact le_of_lt hlt

/-- To the label of every node that can be come to there is a route in the list that is no later. -/
theorem Explored.exists_le (h : Explored label next start routed.length s routed)
    (hnext : ∀ x y, label x = label y → (next x).map label = (next y).map label)
    {v : List Nat} {y : α} (hv : Route next start v y) :
    ∃ a ∈ routed, label a.2 = label y ∧ routeKey a.1 ≤ routeKey v := by
  induction hv with
  | @start i x hx =>
    refine ⟨([i], x), ?_, rfl, le_rfl⟩
    rw [h.built]
    exact List.mem_append_left _ (mem_startRoutes.mpr ⟨i, x, hx, rfl⟩)
  | @step u x j y _ hy ih =>
    obtain ⟨a, ha, hax, hau⟩ := ih
    obtain ⟨b, hb, hba, hle⟩ := h.exists_first ha
    have hlabels := congrArg (fun l => l[j]?) (hnext b.2 x (hba.trans hax))
    simp only [List.getElem?_map, hy, Option.map_some] at hlabels
    obtain ⟨y', hy', hlabel⟩ := Option.map_eq_some_iff.mp hlabels
    exact ⟨(b.1 ++ [j], y'), h.mem_of_first hb (mem_nextRoutes.mpr ⟨j, y', hy', rfl⟩), hlabel,
      routeKey_append_le (hle.trans hau) j⟩

/-- What is gone through are the foremost nodes. -/
theorem Explored.first_iff (h : Explored label next start routed.length s routed)
    (hnext : ∀ x y, label x = label y → (next x).map label = (next y).map label) {x : α} :
    (∃ w, (w, x) ∈ firstsBy (fun a => label a.2) [] routed) ↔ Foremost label next start x := by
  constructor
  · rintro ⟨w, hw⟩
    refine ⟨w, h.route (mem_of_mem_firstsBy hw).1, fun v y hv hlabel => ?_⟩
    obtain ⟨a, ha, hay, hle⟩ := h.exists_le hnext hv
    rcases rel_of_mem_firstsBy h.sorted hw ha (hay.trans hlabel) with rfl | hlt
    · exact hle
    · exact (le_of_lt hlt).trans hle
  · rintro ⟨w, hw, hmin⟩
    obtain ⟨a, ha, hax, hle⟩ := h.exists_le hnext hw
    obtain ⟨b, hb, hba, hba'⟩ := h.exists_first ha
    have hroute := h.route (mem_of_mem_firstsBy hb).1
    have heq : routeKey b.1 = routeKey w :=
      le_antisymm (hba'.trans hle) (hmin b.1 b.2 hroute (hba.trans hax))
    have hbw : b.1 = w := congrArg (fun k => (ofLex k).2) heq
    have hbx : b.2 = x := Route.eq (hbw ▸ hroute) hw
    exact ⟨w, hbw ▸ hbx ▸ hb⟩

end

/-- In the end the list holds the nodes it began with and the neighbours of the foremost nodes. -/
theorem mem_search_iff {limit : Nat} {nodes : List α}
    (hnext : ∀ x y, label x = label y → (next x).map label = (next y).map label)
    (h : search label next limit start [] = some nodes) (y : α) :
    y ∈ nodes ↔ y ∈ start ∨ ∃ x, Foremost label next start x ∧ y ∈ next x := by
  obtain ⟨s, routed, rfl, hex⟩ := explored_search h
  have hmap : routed.map Prod.snd = start ++
      (firstsBy (fun a => label a.2) [] routed).flatMap fun a => next a.2 := by
    have hbuilt := congrArg (List.map Prod.snd) hex.built
    rw [List.take_length, List.map_append, List.map_flatMap, startRoutes, map_snd_mapIdx] at hbuilt
    rw [hbuilt]
    refine congrArg _ (List.flatMap_congr fun a _ => ?_)
    exact map_snd_mapIdx _ _
  rw [← hex.nodes, hmap, List.mem_append, List.mem_flatMap]
  refine or_congr_right ⟨?_, ?_⟩
  · rintro ⟨a, ha, hy⟩
    exact ⟨a.2, (hex.first_iff hnext).mp ⟨a.1, ha⟩, hy⟩
  · rintro ⟨x, hx, hy⟩
    obtain ⟨w, hw⟩ := (hex.first_iff hnext).mpr hx
    exact ⟨(w, x), hw, hy⟩

/-! ## The search ends -/

theorem searchPass_mono {limit limit' : Nat} (hle : limit ≤ limit') {i : Nat}
    {s s' : SearchState α κ} (h : searchPass label next limit i s = some s') :
    searchPass label next limit' i s = some s' := by
  induction limit generalizing i s limit' with
  | zero => cases h
  | succ limit ih =>
    obtain ⟨k, rfl⟩ : ∃ k, limit' = k + 1 := ⟨limit' - 1, by omega⟩
    rw [searchPass] at h ⊢
    split at h
    · exact h
    · exact ih (Nat.le_of_succ_le_succ hle) h

theorem search_mono {limit limit' : Nat} (hle : limit ≤ limit') {l nodes : List α} {seen : List κ}
    (h : search label next limit l seen = some nodes) :
    search label next limit' l seen = some nodes := by
  induction limit generalizing l seen limit' with
  | zero => cases h
  | succ limit ih =>
    obtain ⟨k, rfl⟩ : ∃ k, limit' = k + 1 := ⟨limit' - 1, by omega⟩
    have hle : limit ≤ k := Nat.le_of_succ_le_succ hle
    obtain ⟨s, hs, h⟩ := Option.bind_eq_some_iff.mp h
    rw [search, searchPass_mono hle hs, Option.bind_some]
    by_cases hgrown : s.grown = true
    · rw [if_pos hgrown] at h ⊢
      exact ih hle h
    · rw [if_neg hgrown] at h ⊢
      exact h

/-- Labels that have not been met run out first, then the rest of the list. -/
theorem exists_searchPass (U : Finset κ) (hU : ∀ x, ∀ y ∈ next x, label y ∈ U) (i : Nat)
    (s : SearchState α κ) (hs : ∀ x ∈ s.nodes, label x ∈ U) :
    ∃ limit s', searchPass label next limit i s = some s' := by
  induction hn : (U \ s.seen.toFinset).card using Nat.strong_induction_on generalizing i s with
  | _ n ih =>
    induction hm : s.nodes.length - i generalizing i with
    | zero =>
      have hnone : s.nodes[i]? = none := List.getElem?_eq_none (by omega)
      exact ⟨1, s, by rw [searchPass, hnone]⟩
    | succ m ihm =>
      obtain ⟨x, hx⟩ : ∃ x, s.nodes[i]? = some x := ⟨_, List.getElem?_eq_getElem (by omega)⟩
      suffices h : ∃ limit s', searchPass label next limit (i + 1) (s.visit label next x) =
          some s' by
        obtain ⟨limit, s', h⟩ := h
        exact ⟨limit + 1, s', by rw [searchPass, hx]; exact h⟩
      rw [SearchState.visit]
      by_cases hseen : label x ∈ s.seen
      · rw [if_pos hseen]
        exact ihm (i + 1) (by omega)
      · rw [if_neg hseen]
        have hxU : label x ∈ U := hs x (List.mem_of_getElem? hx)
        refine ih _ ?_ (i + 1) _ (fun y hy => ?_) rfl
        · rw [← hn]
          refine Finset.card_lt_card (Finset.ssubset_iff_subset_ne.mpr
            ⟨fun k hk => ?_, fun heq => ?_⟩)
          · rw [Finset.mem_sdiff, List.mem_toFinset] at hk ⊢
            exact ⟨hk.1, fun hmem => hk.2 (List.mem_cons_of_mem _ hmem)⟩
          · have hmem : label x ∈ U \ s.seen.toFinset :=
              Finset.mem_sdiff.mpr ⟨hxU, fun h => hseen (List.mem_toFinset.mp h)⟩
            rw [← heq, Finset.mem_sdiff, List.mem_toFinset] at hmem
            exact hmem.2 List.mem_cons_self
        · rcases List.mem_append.mp hy with hy | hy
          · exact hs y hy
          · exact hU x y hy

theorem exists_search (U : Finset κ) (hU : ∀ x, ∀ y ∈ next x, label y ∈ U)
    (hstart : ∀ x ∈ start, label x ∈ U) :
    ∃ limit nodes, search label next limit start [] = some nodes := by
  obtain ⟨k, s, hs⟩ := exists_searchPass U hU 0 ⟨start, [], false⟩ hstart
  obtain ⟨routed, hex⟩ := explored_init.pass hs
  have hlabels : ∀ x ∈ s.nodes, label x ∈ U := by
    intro x hx
    rw [← hex.nodes] at hx
    obtain ⟨a, ha, rfl⟩ := List.mem_map.mp hx
    rcases hex.mem_cases ha with ha | ⟨b, -, ha⟩
    · obtain ⟨i, y, hy, rfl⟩ := mem_startRoutes.mp ha
      exact hstart y (List.mem_of_getElem? hy)
    · obtain ⟨j, y, hy, rfl⟩ := mem_nextRoutes.mp ha
      exact hU b.2 y (List.mem_of_getElem? hy)
  obtain ⟨m, t, ht⟩ := exists_searchPass U hU 0 ⟨s.nodes, s.seen, false⟩ hlabels
  refine ⟨max k (m + 1) + 1, s.nodes, ?_⟩
  rw [search, searchPass_mono (Nat.le_max_left k (m + 1)) hs, Option.bind_some]
  by_cases hgrown : s.grown = true
  · rw [if_pos hgrown]
    refine search_mono (Nat.le_max_right k (m + 1)) ?_
    rw [search, ht, searchPass_of_seen (s := ⟨s.nodes, s.seen, false⟩) hex.all_seen ht]
    rfl
  · rw [if_neg hgrown]

end

end Search

end Lib
