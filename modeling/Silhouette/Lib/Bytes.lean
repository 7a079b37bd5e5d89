/-
Numbers as bytes, the low byte first, and slices.
-/
import Mathlib.Data.Nat.Basic
import Mathlib.Tactic.Ring

namespace Lib
namespace Bytes

/-- The `w` low bytes of a number. -/
def toLE : Nat → Nat → List UInt8
  | 0, _ => []
  | w + 1, n => UInt8.ofNat n :: toLE w (n / 256)

def ofLE : List UInt8 → Nat
  | [] => 0
  | b :: rest => b.toNat + ofLE rest * 256

@[simp] theorem length_toLE (w n : Nat) : (toLE w n).length = w := by
  induction w generalizing n with
  | zero => rfl
  | succ w ih => rw [toLE, List.length_cons, ih]

theorem ofLE_toLE {w n : Nat} (h : n < 256 ^ w) : ofLE (toLE w n) = n := by
  induction w generalizing n with
  | zero =>
    rw [pow_zero, Nat.lt_one_iff] at h
    rw [h]
    rfl
  | succ w ih =>
    have hrest : n / 256 < 256 ^ w := by
      rw [Nat.div_lt_iff_lt_mul (by decide), ← pow_succ]
      exact h
    have hlow : (UInt8.ofNat n).toNat = n % 256 := UInt8.toNat_ofNat'
    rw [toLE, ofLE, ih hrest, hlow, Nat.mod_add_div']

theorem toLE_ofLE (bs : List UInt8) : toLE bs.length (ofLE bs) = bs := by
  induction bs with
  | nil => rfl
  | cons b rest ih =>
    have hb : b.toNat < 256 := b.toNat_lt
    have hdiv : (b.toNat + ofLE rest * 256) / 256 = ofLE rest := by omega
    have hlow : UInt8.ofNat (b.toNat + ofLE rest * 256) = b := by
      refine UInt8.toNat_inj.mp ?_
      rw [UInt8.toNat_ofNat']
      omega
    rw [List.length_cons, toLE, ofLE, hdiv, ih, hlow]

theorem ofLE_lt (bs : List UInt8) : ofLE bs < 256 ^ bs.length := by
  induction bs with
  | nil => exact Nat.one_pos
  | cons b rest ih =>
    have hb : b.toNat < 256 := b.toNat_lt
    rw [ofLE, List.length_cons, pow_succ]
    omega

/-! ## Slices -/

section

variable {α : Type}

/-- Where a bound of a slice lies: negative ones count from the end. -/
def sliceIndex (len : Nat) (i : Int) : Nat := if i < 0 then (i + len).toNat else min i.toNat len

def slice (xs : List α) (i j : Int) : List α :=
  (xs.take (sliceIndex xs.length j)).drop (sliceIndex xs.length i)

/-- Replace a slice; an empty one is filled where it begins. -/
def setSlice (xs : List α) (i j : Int) (ys : List α) : List α :=
  xs.take (sliceIndex xs.length i) ++ ys ++
    xs.drop (max (sliceIndex xs.length i) (sliceIndex xs.length j))

theorem sliceIndex_le (len : Nat) (i : Int) : sliceIndex len i ≤ len := by
  rw [sliceIndex]
  split_ifs
  · omega
  · exact Nat.min_le_right _ _

theorem length_setSlice (xs : List α) (i j : Int) (ys : List α) :
    (setSlice xs i j ys).length = sliceIndex xs.length i + ys.length +
      (xs.length - max (sliceIndex xs.length i) (sliceIndex xs.length j)) := by
  have hi := sliceIndex_le xs.length i
  rw [setSlice, List.length_append, List.length_append, List.length_take, List.length_drop,
    Nat.min_eq_left hi]

/-- A slice as long as its bounds say is not made shorter. -/
theorem length_le_setSlice (xs : List α) (i : Int) (ys : List α) :
    xs.length ≤ (setSlice xs i (i + ys.length) ys).length := by
  have hi := sliceIndex_le xs.length i
  have hj := sliceIndex_le xs.length (i + ys.length)
  rw [length_setSlice]
  rw [sliceIndex] at *
  rw [sliceIndex] at *
  split_ifs at * <;> omega

/-- It keeps its length when the bounds are as far apart in the list. -/
theorem length_setSlice_eq_iff {xs ys : List α} (i : Int) (hys : ys ≠ []) :
    (setSlice xs i (i + ys.length) ys).length = xs.length ↔
      sliceIndex xs.length (i + ys.length) = sliceIndex xs.length i + ys.length := by
  have hpos := List.length_pos_iff.mpr hys
  have hi := sliceIndex_le xs.length i
  have hj := sliceIndex_le xs.length (i + ys.length)
  rw [length_setSlice]
  constructor
  · intro h
    have hle : sliceIndex xs.length (i + ys.length) ≤ sliceIndex xs.length i + ys.length := by
      rw [sliceIndex, sliceIndex]
      split_ifs <;> omega
    omega
  · intro h
    omega

/-- Write bytes at an offset, as far as they lie in the list. -/
def writeAt (xs : List α) (off : Int) (ys : List α) : List α :=
  xs.mapIdx fun i x => if off ≤ i then (ys[((i : Int) - off).toNat]?).getD x else x

@[simp] theorem length_writeAt (xs : List α) (off : Int) (ys : List α) :
    (writeAt xs off ys).length = xs.length := List.length_mapIdx

theorem getElem?_writeAt (xs : List α) (off : Int) (ys : List α) (i : Nat) :
    (writeAt xs off ys)[i]? =
      if off ≤ i ∧ (i : Int) < off + ys.length ∧ i < xs.length then ys[((i : Int) - off).toNat]?
      else xs[i]? := by
  rw [writeAt, List.getElem?_mapIdx]
  by_cases hi : i < xs.length
  · rw [List.getElem?_eq_getElem hi, Option.map_some]
    by_cases hlo : off ≤ i
    · by_cases hhi : (i : Int) < off + ys.length
      · have hin : ((i : Int) - off).toNat < ys.length := by omega
        rw [if_pos hlo, if_pos ⟨hlo, hhi, hi⟩, List.getElem?_eq_getElem hin, Option.getD_some]
      · have hout : ys.length ≤ ((i : Int) - off).toNat := by omega
        rw [if_pos hlo, if_neg (fun h => hhi h.2.1), List.getElem?_eq_none hout, Option.getD_none]
    · rw [if_neg hlo, if_neg fun h => hlo h.1]
  · rw [List.getElem?_eq_none (Nat.not_lt.mp hi), if_neg fun h => hi h.2.2]
    rfl

theorem writeAt_replicate (n m : Nat) (off : Int) (x : α) :
    writeAt (List.replicate n x) off (List.replicate m x) = List.replicate n x := by
  refine List.ext_getElem? fun i => ?_
  rw [getElem?_writeAt]
  split_ifs with h
  · rw [List.length_replicate, List.length_replicate] at h
    rw [List.getElem?_replicate_of_lt (by omega), List.getElem?_replicate_of_lt h.2.2]
  · rfl

/-- Where the bytes went shows from those that changed, when all of them are in the list. -/
theorem off_eq_of_writeAt_replicate {n m lo : Nat} {off : Int} {x y : α} (hxy : x ≠ y)
    (hm : 0 < m) (hlo : lo + m ≤ n)
    (h : writeAt (List.replicate n x) lo (List.replicate m y) =
      writeAt (List.replicate n x) off (List.replicate m y)) : off = lo := by
  have hchanged : ∀ i, lo ≤ i → i < lo + m → off ≤ i ∧ (i : Int) < off + m := by
    intro i hi hi'
    have hget := congrArg (fun l => l[i]?) h
    simp only [getElem?_writeAt, List.length_replicate] at hget
    rw [if_pos (by omega), List.getElem?_replicate_of_lt (by omega)] at hget
    by_cases hoff : off ≤ i ∧ (i : Int) < off + m
    · exact hoff
    · rw [if_neg fun hin => hoff ⟨hin.1, hin.2.1⟩, List.getElem?_replicate_of_lt (by omega)] at hget
      exact absurd (Option.some.inj hget).symm hxy
  have hfirst := hchanged lo (Nat.le_refl _) (by omega)
  have hlast := hchanged (lo + m - 1) (by omega) (by omega)
  omega

/-- A slice that lies in the list is written where it begins. -/
theorem setSlice_eq_writeAt {xs ys : List α} {i : Int} {off : Nat}
    (hi : sliceIndex xs.length i = off)
    (hj : sliceIndex xs.length (i + ys.length) = off + ys.length) :
    setSlice xs i (i + ys.length) ys = writeAt xs off ys := by
  have hle := sliceIndex_le xs.length (i + ys.length)
  refine List.ext_getElem? fun k => ?_
  rw [setSlice, hi, hj, getElem?_writeAt, Nat.max_eq_right (Nat.le_add_right _ _)]
  have hfront : (xs.take off ++ ys).length = off + ys.length := by
    rw [List.length_append, List.length_take]
    omega
  by_cases hk : k < off
  · rw [List.append_assoc, List.getElem?_append_left (by rw [List.length_take]; omega),
      List.getElem?_take_of_lt hk, if_neg (by omega)]
  · by_cases hk' : k < off + ys.length
    · have hidx : ((k : Int) - off).toNat = k - off := by omega
      rw [List.getElem?_append_left (by omega), List.getElem?_append_right
        (by rw [List.length_take]; omega), List.length_take, if_pos (by omega), hidx,
        Nat.min_eq_left (by omega)]
    · rw [List.getElem?_append_right (by omega), List.getElem?_drop, hfront, if_neg (by omega)]
      congr 1
      omega

end

end Bytes
end Lib
