import Silhouette.Layout.StructInfo

/-!
# The layout of a record

The layout tool visits the fields of a C record and gives each one the sum of the type sizes before
it for an offset.  The members are kept in a map by that offset, so a field whose offset is taken
already is dropped.

The x86-64 ABI places a field at the next multiple of its alignment, lets bit-fields share a storage
unit and starts every field of a union at zero.  `records_iff` is about the difference.  The sizes
and alignments of the types are those of Clang, and so is the size of the record.
-/

namespace Silhouette
namespace Layout

/-- A field with the size and the alignment of its type in bits. -/
structure FieldDecl where
  tyName : String
  name : String
  tySize : Nat
  tyAlign : Nat
  bitWidth : Option Nat
  isPtr : Bool
  isAry : Bool
  size_bytes : 8 ∣ tySize
  align_pos : 0 < tyAlign
  width_le : ∀ w, bitWidth = some w → w ≤ tySize

inductive RecordKind where
  | struct
  | union
  deriving DecidableEq, Repr

structure RecordDecl where
  name : String
  kind : RecordKind
  packed : Bool
  tySize : Nat
  fields : List FieldDecl

/-! ## The tool -/

def StructMemberInfo.new (decl : FieldDecl) (offsetBits : Nat) : StructMemberInfo where
  tyName := decl.tyName
  name := decl.name
  sizeBits := decl.tySize
  size := decl.tySize / 8
  offsetBits := offsetBits
  offset := offsetBits / 8
  isPtr := decl.isPtr
  isAry := decl.isAry

/-- `members_.insert`.  A key that is there keeps its value. -/
def insertMember (mb : StructMemberInfo) : List StructMemberInfo → List StructMemberInfo
  | [] => [mb]
  | m :: rest =>
    if mb.offsetBits < m.offsetBits then mb :: m :: rest
    else if mb.offsetBits = m.offsetBits then m :: rest
    else m :: insertMember mb rest

theorem mem_insertMember {mb m : StructMemberInfo} {l : List StructMemberInfo}
    (h : m ∈ insertMember mb l) : m = mb ∨ m ∈ l := by
  induction l with
  | nil => exact Or.inl (List.mem_singleton.mp h)
  | cons x rest ih =>
    rw [insertMember] at h
    split_ifs at h
    · exact List.mem_cons.mp h
    · exact Or.inr h
    · rcases List.mem_cons.mp h with hx | hrest
      · exact Or.inr (hx ▸ List.mem_cons_self)
      · exact (ih hrest).imp id (List.mem_cons_of_mem x)

theorem pairwise_insertMember (mb : StructMemberInfo) {l : List StructMemberInfo}
    (h : l.Pairwise fun m n => m.offsetBits < n.offsetBits) :
    (insertMember mb l).Pairwise fun m n => m.offsetBits < n.offsetBits := by
  induction l with
  | nil => exact List.pairwise_singleton _ _
  | cons x rest ih =>
    obtain ⟨hx, hrest⟩ := List.pairwise_cons.mp h
    rw [insertMember]
    split_ifs with hlt heq
    · refine List.pairwise_cons.mpr ⟨fun m hm => ?_, h⟩
      rcases List.mem_cons.mp hm with rfl | hm
      · exact hlt
      · exact Nat.lt_trans hlt (hx m hm)
    · exact h
    · refine List.pairwise_cons.mpr ⟨fun m hm => ?_, ih hrest⟩
      rcases mem_insertMember hm with rfl | hm
      · omega
      · exact hx m hm

/-- One turn of the loop over the fields: the sum of the sizes and the members so far. -/
def addField (s : Nat × List StructMemberInfo) (fdecl : FieldDecl) : Nat × List StructMemberInfo :=
  let mb := StructMemberInfo.new fdecl s.1
  (s.1 + mb.sizeBits, insertMember mb s.2)

def recordMembers (fields : List FieldDecl) : List StructMemberInfo := (fields.foldl addField (0, [])).2

theorem pairwise_recordMembers (fields : List FieldDecl) :
    (recordMembers fields).Pairwise fun m n => m.offsetBits < n.offsetBits := by
  induction fields using List.reverseRecOn with
  | nil => exact List.Pairwise.nil
  | append_singleton fields f ih =>
    rw [recordMembers, List.foldl_append]
    exact pairwise_insertMember _ ih

def StructInfo.new (decl : RecordDecl) : StructInfo where
  name := decl.name
  sizeBits := decl.tySize
  size := decl.tySize / 8
  members := recordMembers decl.fields
  sorted := pairwise_recordMembers decl.fields

/-! ## The ABI -/

/-- The least multiple of `a` from `n` on. -/
def alignTo (n a : Nat) : Nat := (n + (a - 1)) / a * a

theorem alignTo_eq_iff {n a m : Nat} (ha : 0 < a) :
    alignTo n a = m ↔ a ∣ m ∧ n ≤ m ∧ m < n + a := by
  have hspec : a ∣ alignTo n a ∧ n ≤ alignTo n a ∧ alignTo n a < n + a := by
    have hdiv := Nat.div_add_mod (n + (a - 1)) a
    have hmod := Nat.mod_lt (n + (a - 1)) ha
    rw [alignTo, Nat.mul_comm]
    exact ⟨Nat.dvd_mul_right _ _, by omega, by omega⟩
  constructor
  · intro h
    exact h ▸ hspec
  · intro h
    -- two multiples less than `a` apart
    obtain ⟨k, hk⟩ := hspec.1
    obtain ⟨j, hj⟩ := h.1
    have hkj : k = j := by
      rcases Nat.lt_trichotomy k j with hlt | heq | hgt
      · have := Nat.mul_le_mul_left a (Nat.succ_le_of_lt hlt)
        rw [Nat.mul_succ] at this
        omega
      · exact heq
      · have := Nat.mul_le_mul_left a (Nat.succ_le_of_lt hgt)
        rw [Nat.mul_succ] at this
        omega
    rw [hk, hj, hkj]

namespace FieldDecl

variable (packed : Bool)

/-- The bits that a field takes up. -/
def extent (f : FieldDecl) : Nat := f.bitWidth.getD f.tySize

/-- Where a field of a struct goes when `free` is the first bit behind the field before.  A
bit-field goes there, packed or not, unless it would not fit into a storage unit of its type; one
of width zero ends the unit. -/
def place (free : Nat) (f : FieldDecl) : Nat :=
  match f.bitWidth with
  | none => alignTo free (if packed then 8 else f.tyAlign)
  | some w =>
    let a := if packed ∧ w ≠ 0 then 1 else f.tyAlign
    if w = 0 ∨ f.tySize < free % a + w then alignTo free a else free

/-- From `free` on, the field comes to start at `start`. -/
def StartsAt (f : FieldDecl) (free start : Nat) : Prop :=
  match f.bitWidth with
  | none => (if packed then 8 else f.tyAlign) ∣ start ∧ free ≤ start ∧
      start < free + (if packed then 8 else f.tyAlign)
  | some w =>
    if w ≠ 0 ∧ (packed = true ∨ free % f.tyAlign + w ≤ f.tySize) then start = free
    else f.tyAlign ∣ start ∧ free ≤ start ∧ start < free + f.tyAlign

theorem startsAt_iff (f : FieldDecl) (free start : Nat) :
    f.StartsAt packed free start ↔ place packed free f = start := by
  rw [StartsAt, place]
  cases hw : f.bitWidth with
  | none =>
    have ha : 0 < if packed then 8 else f.tyAlign := by
      cases packed
      · exact f.align_pos
      · exact Nat.succ_pos 7
    exact (alignTo_eq_iff ha).symm
  | some w =>
    have hle := f.width_le w hw
    by_cases h0 : w = 0
    · simp [h0, alignTo_eq_iff f.align_pos]
    · cases packed with
      | true =>
        have hfit : ¬ f.tySize < free % 1 + w := by omega
        simp [h0, hfit, eq_comm]
      | false =>
        by_cases hfit : free % f.tyAlign + w ≤ f.tySize
        · simp [h0, hfit, Nat.not_lt.mpr hfit, eq_comm]
        · simp [h0, hfit, Nat.lt_of_not_le hfit, alignTo_eq_iff f.align_pos]

/-- The first field starts at zero. -/
theorem place_zero (f : FieldDecl) : place packed 0 f = 0 := by
  rw [← startsAt_iff, StartsAt]
  cases f.bitWidth with
  | none =>
    cases packed
    · simpa using f.align_pos
    · simp
  | some w =>
    have ha := f.align_pos
    simpa using fun _ => ha

theorem le_place (free : Nat) (f : FieldDecl) : free ≤ place packed free f := by
  have h := (startsAt_iff packed f free _).mpr rfl
  rw [StartsAt] at h
  cases hw : f.bitWidth with
  | none =>
    rw [hw] at h
    exact h.2.1
  | some w =>
    simp only [hw] at h
    split_ifs at h
    · exact Nat.le_of_eq h.symm
    · exact h.2.1

/-- The offsets of the fields of a struct behind the bit `free`. -/
def structOffsets : Nat → List FieldDecl → List Nat
  | _, [] => []
  | free, f :: rest =>
    place packed free f :: structOffsets (place packed free f + f.extent) rest

end FieldDecl

/-- The offsets the ABI gives to the fields, in bits. -/
def RecordDecl.abiOffsets (decl : RecordDecl) : List Nat :=
  match decl.kind with
  | .struct => FieldDecl.structOffsets decl.packed 0 decl.fields
  | .union => List.replicate decl.fields.length 0

def RecordDecl.abiMembers (decl : RecordDecl) : List StructMemberInfo :=
  List.zipWith StructMemberInfo.new decl.fields decl.abiOffsets

def StructMemberInfo.covers (byte : Nat) (m : StructMemberInfo) : Bool :=
  m.offset ≤ byte ∧ byte < m.offset + m.size

/-- Every field is recorded once, where the ABI has it, inside the record; and the bytes a field has
bits in are attributed to that field. -/
structure Records (decl : RecordDecl) : Prop where
  once : (StructInfo.new decl).members.Perm decl.abiMembers
  inside : ∀ m ∈ (StructInfo.new decl).members, m.offsetBits + m.sizeBits ≤ decl.tySize
  attributed : ∀ f o, (f, o) ∈ decl.fields.zip decl.abiOffsets → ∀ byte,
    o < 8 * (byte + 1) → 8 * byte < o + f.extent →
    (StructInfo.new decl).members.filter (StructMemberInfo.covers byte) = [StructMemberInfo.new f o]

/-! ## Where the sums are the offsets -/

def sizesOf (fields : List FieldDecl) : Nat := (fields.map FieldDecl.tySize).sum

/-- No room is left between the types of the fields and none is shared: all but the last have bits,
the next field comes to start where the type of the one before ends, and the types fit into the
record.  A union has one field at most. -/
structure NoPadding (decl : RecordDecl) : Prop where
  union : decl.kind = .union → decl.fields.length ≤ 1
  next : ∀ pre f g post, decl.fields = pre ++ f :: g :: post →
    0 < f.tySize ∧ g.StartsAt decl.packed (sizesOf pre + f.extent) (sizesOf pre + f.tySize)
  total : sizesOf decl.fields ≤ decl.tySize

/-- The sums of the sizes in front of each field. -/
def sumsFrom : Nat → List FieldDecl → List Nat
  | _, [] => []
  | s, f :: rest => s :: sumsFrom (s + f.tySize) rest

theorem sizesOf_append (a b : List FieldDecl) : sizesOf (a ++ b) = sizesOf a + sizesOf b := by
  rw [sizesOf, List.map_append, List.sum_append, sizesOf, sizesOf]

theorem sizesOf_cons (f : FieldDecl) (l : List FieldDecl) :
    sizesOf (f :: l) = f.tySize + sizesOf l := rfl

theorem length_sumsFrom (s : Nat) (l : List FieldDecl) : (sumsFrom s l).length = l.length := by
  induction l generalizing s with
  | nil => rfl
  | cons f rest ih => rw [sumsFrom, List.length_cons, ih, List.length_cons]

theorem sumsFrom_append (s : Nat) (a b : List FieldDecl) :
    sumsFrom s (a ++ b) = sumsFrom s a ++ sumsFrom (s + sizesOf a) b := by
  induction a generalizing s with
  | nil => rfl
  | cons f rest ih =>
    rw [List.cons_append, sumsFrom, ih, sumsFrom, sizesOf_cons, Nat.add_assoc, List.cons_append]

/-- A field stands with the sum of what is in front of it. -/
theorem mem_zip_sumsFrom {s o : Nat} {l : List FieldDecl} {f : FieldDecl}
    (h : (f, o) ∈ l.zip (sumsFrom s l)) : ∃ pre post, l = pre ++ f :: post ∧ o = s + sizesOf pre := by
  induction l generalizing s with
  | nil => exact absurd h List.not_mem_nil
  | cons x rest ih =>
    rcases List.mem_cons.mp h with heq | hrest
    · obtain ⟨rfl, rfl⟩ := Prod.mk.inj heq
      exact ⟨[], rest, rfl, rfl⟩
    · obtain ⟨pre, post, hsplit, ho⟩ := ih hrest
      refine ⟨x :: pre, post, by rw [hsplit]; rfl, ?_⟩
      rw [ho, sizesOf_cons, Nat.add_assoc]

/-- The sums stay between the first one and the sum of all. -/
theorem mem_sumsFrom {s x : Nat} {l : List FieldDecl} (h : x ∈ sumsFrom s l) :
    s ≤ x ∧ x ≤ s + sizesOf l := by
  induction l generalizing s with
  | nil => exact absurd h List.not_mem_nil
  | cons f rest ih =>
    rw [sizesOf_cons]
    rcases List.mem_cons.mp h with hx | hx
    · omega
    · have := ih hx
      omega

theorem pairwise_sumsFrom (s : Nat) (l : List FieldDecl) :
    (sumsFrom s l).Pairwise (· ≤ ·) := by
  induction l generalizing s with
  | nil => exact List.Pairwise.nil
  | cons f rest ih =>
    refine List.pairwise_cons.mpr ⟨fun x hx => ?_, ih _⟩
    have := (mem_sumsFrom hx).1
    omega

theorem pairwise_structOffsets (packed : Bool) (free : Nat) (l : List FieldDecl) :
    (FieldDecl.structOffsets packed free l).Pairwise (· ≤ ·) ∧
      ∀ x ∈ FieldDecl.structOffsets packed free l, free ≤ x := by
  induction l generalizing free with
  | nil => exact ⟨List.Pairwise.nil, fun x hx => absurd hx List.not_mem_nil⟩
  | cons f rest ih =>
    have hplace := FieldDecl.le_place packed free f
    have ih := ih (FieldDecl.place packed free f + f.extent)
    refine ⟨List.pairwise_cons.mpr ⟨fun x hx => ?_, ih.1⟩, fun x hx => ?_⟩
    · have := ih.2 x hx
      omega
    · rcases List.mem_cons.mp hx with hx | hx
      · omega
      · have := ih.2 x hx
        omega

/-- Equal offsets tell where the neighbours are. -/
theorem place_of_structOffsets_eq {packed : Bool} {free s : Nat} {pre post : List FieldDecl}
    {f g : FieldDecl} (h : FieldDecl.structOffsets packed free (pre ++ f :: g :: post) =
      sumsFrom s (pre ++ f :: g :: post)) :
    FieldDecl.place packed (s + sizesOf pre + f.extent) g = s + sizesOf pre + f.tySize := by
  induction pre generalizing free s with
  | nil =>
    obtain ⟨hf, hrest⟩ := List.cons.inj h
    obtain ⟨hg, -⟩ := List.cons.inj hrest
    rw [hf] at hg
    exact hg
  | cons x rest ih =>
    obtain ⟨-, hrest⟩ := List.cons.inj h
    rw [sizesOf_cons, ← Nat.add_assoc]
    exact ih hrest

theorem structOffsets_eq_sumsFrom {packed : Bool} {free : Nat} {fields : List FieldDecl}
    (hnext : ∀ pre f g post, fields = pre ++ f :: g :: post →
      FieldDecl.place packed (sizesOf pre + f.extent) g = sizesOf pre + f.tySize)
    (pre : List FieldDecl) (l : List FieldDecl) (hl : fields = pre ++ l)
    (hfirst : ∀ f ∈ l.head?, FieldDecl.place packed free f = sizesOf pre) :
    FieldDecl.structOffsets packed free l = sumsFrom (sizesOf pre) l := by
  induction l generalizing pre free with
  | nil => rfl
  | cons f rest ih =>
    have hf := hfirst f rfl
    have hpre : sizesOf (pre ++ [f]) = sizesOf pre + f.tySize := sizesOf_append pre [f]
    rw [FieldDecl.structOffsets, sumsFrom, hf, ← hpre]
    refine congrArg (List.cons _) (ih (pre ++ [f]) (by rw [hl, List.append_assoc]; rfl) ?_)
    intro g hg
    obtain ⟨post, hpost⟩ : ∃ post, rest = g :: post := by
      cases rest with
      | nil => cases hg
      | cons x post => exact ⟨post, by rw [Option.some.inj hg]⟩
    rw [hpre]
    exact hnext pre f g post (by rw [hl, hpost])

/-! ## The members of the map -/

theorem length_insertMember_le (mb : StructMemberInfo) (l : List StructMemberInfo) :
    (insertMember mb l).length ≤ l.length + 1 := by
  induction l with
  | nil => exact Nat.le_refl 1
  | cons m rest ih =>
    rw [insertMember]
    split_ifs
    · exact Nat.le_refl _
    · exact Nat.le_succ _
    · exact Nat.succ_le_succ ih

/-- Behind all keys that are there the member is added at the end. -/
theorem insertMember_of_lt {mb : StructMemberInfo} {l : List StructMemberInfo}
    (h : ∀ m ∈ l, m.offsetBits < mb.offsetBits) : insertMember mb l = l ++ [mb] := by
  induction l with
  | nil => rfl
  | cons m rest ih =>
    have hm := h m List.mem_cons_self
    rw [insertMember, if_neg (by omega), if_neg (by omega),
      ih fun x hx => h x (List.mem_cons_of_mem m hx)]
    rfl

theorem insertMember_of_mem {mb m : StructMemberInfo} {l : List StructMemberInfo}
    (hl : l.Pairwise fun m n => m.offsetBits < n.offsetBits) (hm : m ∈ l)
    (heq : m.offsetBits = mb.offsetBits) : insertMember mb l = l := by
  induction l with
  | nil => exact absurd hm List.not_mem_nil
  | cons x rest ih =>
    obtain ⟨hx, hrest⟩ := List.pairwise_cons.mp hl
    rw [insertMember]
    rcases List.mem_cons.mp hm with rfl | hm
    · rw [if_neg (by omega), if_pos heq.symm]
    · have hlt := hx m hm
      rw [if_neg (by omega), if_neg (by omega), ih hrest hm]

/-- The key is there afterwards. -/
theorem exists_mem_insertMember (mb : StructMemberInfo) (l : List StructMemberInfo) :
    ∃ m ∈ insertMember mb l, m.offsetBits = mb.offsetBits := by
  induction l with
  | nil => exact ⟨mb, List.mem_singleton_self mb, rfl⟩
  | cons x rest ih =>
    rw [insertMember]
    split_ifs with hlt heq
    · exact ⟨mb, List.mem_cons_self, rfl⟩
    · exact ⟨x, List.mem_cons_self, heq.symm⟩
    · obtain ⟨m, hm, hoff⟩ := ih
      exact ⟨m, List.mem_cons_of_mem x hm, hoff⟩

theorem foldl_addField_fst (l : List FieldDecl) (s : Nat × List StructMemberInfo) :
    (l.foldl addField s).1 = s.1 + sizesOf l := by
  induction l generalizing s with
  | nil => rfl
  | cons f rest ih =>
    rw [List.foldl_cons, ih, sizesOf_cons, ← Nat.add_assoc]
    rfl

theorem length_foldl_addField_le (l : List FieldDecl) (s : Nat × List StructMemberInfo) :
    (l.foldl addField s).2.length ≤ s.2.length + l.length := by
  induction l generalizing s with
  | nil => exact Nat.le_refl _
  | cons f rest ih =>
    have hstep := length_insertMember_le (StructMemberInfo.new f s.1) s.2
    have hrest := ih (addField s f)
    rw [List.foldl_cons, List.length_cons]
    have hsame : (addField s f).2.length = (insertMember (StructMemberInfo.new f s.1) s.2).length := rfl
    omega

theorem recordMembers_append (a b : List FieldDecl) :
    recordMembers (a ++ b) = (b.foldl addField (sizesOf a, recordMembers a)).2 := by
  have hstate : a.foldl addField (0, []) = (sizesOf a, recordMembers a) :=
    Prod.ext ((foldl_addField_fst a (0, [])).trans (Nat.zero_add _)) rfl
  rw [recordMembers, List.foldl_append, hstate]

/-- A field without bits in front of another one costs a member. -/
theorem length_recordMembers_lt {pre post : List FieldDecl} {f g : FieldDecl} (hf : f.tySize = 0) :
    (recordMembers (pre ++ f :: g :: post)).length < (pre ++ f :: g :: post).length := by
  have hwith : recordMembers (pre ++ [f]) =
      insertMember (StructMemberInfo.new f (sizesOf pre)) (recordMembers pre) :=
    recordMembers_append pre [f]
  have hsize : sizesOf (pre ++ [f]) = sizesOf pre := by
    rw [sizesOf_append, sizesOf_cons, hf]
    rfl
  -- the second one finds the offset taken
  have htaken : insertMember (StructMemberInfo.new g (sizesOf (pre ++ [f])))
      (recordMembers (pre ++ [f])) = recordMembers (pre ++ [f]) := by
    obtain ⟨m, hm, hoff⟩ :=
      exists_mem_insertMember (StructMemberInfo.new f (sizesOf pre)) (recordMembers pre)
    exact insertMember_of_mem (pairwise_recordMembers _) (hwith ▸ hm) (by rw [hoff, hsize]; rfl)
  have hsplit : recordMembers (pre ++ f :: g :: post) =
      (post.foldl addField (sizesOf (pre ++ [f]) + g.tySize, recordMembers (pre ++ [f]))).2 := by
    have h := recordMembers_append (pre ++ [f]) (g :: post)
    rw [List.foldl_cons, addField, htaken, List.append_assoc] at h
    exact h
  have hlen := length_foldl_addField_le (pre ++ [f]) (0, [])
  have hpost := length_foldl_addField_le post
    (sizesOf (pre ++ [f]) + g.tySize, recordMembers (pre ++ [f]))
  have hpre := length_foldl_addField_le pre (0, [])
  have hstep := length_insertMember_le (StructMemberInfo.new f (sizesOf pre)) (recordMembers pre)
  rw [← hwith] at hstep
  rw [hsplit, List.length_append, List.length_cons, List.length_cons]
  change (recordMembers pre).length ≤ 0 + pre.length at hpre
  dsimp only at hpost
  omega

theorem mem_zipWith_new {l : List FieldDecl} {os : List Nat} {m : StructMemberInfo}
    (h : m ∈ List.zipWith StructMemberInfo.new l os) :
    ∃ f o, (f, o) ∈ l.zip os ∧ m = StructMemberInfo.new f o := by
  rw [← List.map_uncurry_zip_eq_zipWith] at h
  obtain ⟨x, hx, hm⟩ := List.mem_map.mp h
  exact ⟨x.1, x.2, hx, hm.symm⟩

/-- As long as the sums grow, every field is added at the end. -/
theorem recordMembers_eq {fields : List FieldDecl}
    (hpos : ∀ pre f g post, fields = pre ++ f :: g :: post → 0 < f.tySize) :
    recordMembers fields = List.zipWith StructMemberInfo.new fields (sumsFrom 0 fields) := by
  induction fields using List.reverseRecOn with
  | nil => rfl
  | append_singleton l f ih =>
    have hl := ih fun pre x g post h => hpos pre x g (post ++ [f]) (by rw [h]; simp)
    have hlt : ∀ m ∈ recordMembers l, m.offsetBits < sizesOf l := by
      intro m hm
      rw [hl] at hm
      obtain ⟨x, o, hxo, rfl⟩ := mem_zipWith_new hm
      obtain ⟨pre, post, hsplit, ho⟩ := mem_zip_sumsFrom hxo
      have hx : 0 < x.tySize := by
        cases post with
        | nil => exact hpos pre x f [] (by rw [hsplit, List.append_assoc]; rfl)
        | cons g post =>
          exact hpos pre x g (post ++ [f]) (by rw [hsplit, List.append_assoc]; rfl)
      show o < sizesOf l
      rw [hsplit, sizesOf_append, sizesOf_cons]
      omega
    rw [recordMembers_append, List.foldl_cons, List.foldl_nil, addField, insertMember_of_lt hlt, hl,
      sumsFrom_append, List.zipWith_append (length_sumsFrom 0 l).symm, Nat.zero_add]
    rfl

theorem map_offsetBits_zipWith {l : List FieldDecl} {os : List Nat} (h : os.length = l.length) :
    (List.zipWith StructMemberInfo.new l os).map StructMemberInfo.offsetBits = os := by
  rw [← List.map_uncurry_zip_eq_zipWith, List.map_map]
  exact List.map_snd_zip h.le

theorem length_abiOffsets (decl : RecordDecl) : decl.abiOffsets.length = decl.fields.length := by
  have hstruct : ∀ free l, (FieldDecl.structOffsets decl.packed free l).length = l.length := by
    intro free l
    induction l generalizing free with
    | nil => rfl
    | cons f rest ih => rw [FieldDecl.structOffsets, List.length_cons, ih, List.length_cons]
  rw [RecordDecl.abiOffsets]
  cases decl.kind with
  | struct => exact hstruct 0 decl.fields
  | union => exact List.length_replicate

theorem pairwise_abiOffsets (decl : RecordDecl) : decl.abiOffsets.Pairwise (· ≤ ·) := by
  rw [RecordDecl.abiOffsets]
  cases decl.kind with
  | struct => exact (pairwise_structOffsets decl.packed 0 decl.fields).1
  | union => exact List.pairwise_replicate.mpr (Or.inr (Nat.le_refl 0))

/-- Without padding the sums are the offsets of the ABI. -/
theorem NoPadding.abiOffsets_eq {decl : RecordDecl} (h : NoPadding decl) :
    decl.abiOffsets = sumsFrom 0 decl.fields := by
  rw [RecordDecl.abiOffsets]
  cases hk : decl.kind with
  | struct =>
    refine structOffsets_eq_sumsFrom (fun pre f g post hsplit => ?_) [] decl.fields rfl ?_
    · exact (FieldDecl.startsAt_iff _ g _ _).mp (h.next pre f g post hsplit).2
    · exact fun f _ => FieldDecl.place_zero decl.packed f
  | union =>
    have hlen := h.union hk
    cases hf : decl.fields with
    | nil => rfl
    | cons f rest =>
      rw [hf, List.length_cons] at hlen
      rw [List.length_eq_zero_iff.mp (by omega : rest.length = 0)]
      rfl

theorem NoPadding.members_eq {decl : RecordDecl} (h : NoPadding decl) :
    (StructInfo.new decl).members = decl.abiMembers := by
  rw [RecordDecl.abiMembers, h.abiOffsets_eq]
  exact recordMembers_eq fun pre f g post hsplit => (h.next pre f g post hsplit).1

theorem FieldDecl.extent_le (f : FieldDecl) : f.extent ≤ f.tySize := by
  rw [extent]
  cases hw : f.bitWidth with
  | none => exact Nat.le_refl _
  | some w => exact f.width_le w hw

theorem dvd_sizesOf (l : List FieldDecl) : 8 ∣ sizesOf l := by
  induction l with
  | nil => exact Nat.dvd_zero 8
  | cons f rest ih => exact (sizesOf_cons f rest).symm ▸ Nat.dvd_add f.size_bytes ih

/-- Members that lie one behind the other do not share a byte. -/
theorem filter_covers {fields : List FieldDecl} {f : FieldDecl} {o byte : Nat}
    (hfo : (f, o) ∈ fields.zip (sumsFrom 0 fields)) (hlo : o < 8 * (byte + 1))
    (hhi : 8 * byte < o + f.extent) :
    (List.zipWith StructMemberInfo.new fields (sumsFrom 0 fields)).filter
      (StructMemberInfo.covers byte) = [StructMemberInfo.new f o] := by
  obtain ⟨pre, post, hsplit, ho⟩ := mem_zip_sumsFrom hfo
  have hext := f.extent_le
  have hbytes := f.size_bytes
  have hpre := dvd_sizesOf pre
  rw [Nat.zero_add] at ho
  have hhere : StructMemberInfo.covers byte (StructMemberInfo.new f o) = true := by
    refine decide_eq_true ⟨?_, ?_⟩
    · show o / 8 ≤ byte
      omega
    · show byte < o / 8 + f.tySize / 8
      omega
  have hbefore : ∀ m ∈ List.zipWith StructMemberInfo.new pre (sumsFrom 0 pre),
      ¬ StructMemberInfo.covers byte m = true := by
    intro m hm hcovers
    obtain ⟨x, ox, hx, rfl⟩ := mem_zipWith_new hm
    obtain ⟨p, q, hpq, hox⟩ := mem_zip_sumsFrom hx
    have hlt : byte < ox / 8 + x.tySize / 8 := (of_decide_eq_true hcovers).2
    have hx8 := x.size_bytes
    rw [hpq, sizesOf_append, sizesOf_cons] at ho
    omega
  have hbehind : ∀ m ∈ List.zipWith StructMemberInfo.new post (sumsFrom (o + f.tySize) post),
      ¬ StructMemberInfo.covers byte m = true := by
    intro m hm hcovers
    obtain ⟨x, ox, hx, rfl⟩ := mem_zipWith_new hm
    have hle : ox / 8 ≤ byte := (of_decide_eq_true hcovers).1
    have hox := (mem_sumsFrom (List.of_mem_zip hx).2).1
    omega
  rw [hsplit, sumsFrom_append, Nat.zero_add, sumsFrom, ← ho,
    List.zipWith_append (length_sumsFrom 0 pre).symm, List.zipWith_cons_cons, List.filter_append,
    List.filter_cons_of_pos hhere, List.filter_eq_nil_iff.mpr hbefore,
    List.filter_eq_nil_iff.mpr hbehind]
  rfl

theorem NoPadding.records {decl : RecordDecl} (h : NoPadding decl) : Records decl := by
  refine ⟨h.members_eq ▸ List.Perm.refl _, fun m hm => ?_, fun f o hfo byte hlo hhi => ?_⟩
  · rw [h.members_eq, RecordDecl.abiMembers, h.abiOffsets_eq] at hm
    obtain ⟨f, o, hfo, rfl⟩ := mem_zipWith_new hm
    obtain ⟨pre, post, hsplit, ho⟩ := mem_zip_sumsFrom hfo
    have htotal := h.total
    rw [hsplit, sizesOf_append, sizesOf_cons] at htotal
    show o + f.tySize ≤ decl.tySize
    omega
  · rw [h.abiOffsets_eq] at hfo
    rw [h.members_eq, RecordDecl.abiMembers, h.abiOffsets_eq]
    exact filter_covers hfo hlo hhi

theorem Records.noPadding {decl : RecordDecl} (h : Records decl) : NoPadding decl := by
  have hpos : ∀ pre f g post, decl.fields = pre ++ f :: g :: post → 0 < f.tySize := by
    intro pre f g post hsplit
    refine Nat.pos_of_ne_zero fun h0 => ?_
    have hlt : (recordMembers (pre ++ f :: g :: post)).length < (pre ++ f :: g :: post).length :=
      length_recordMembers_lt h0
    have hlen := h.once.length_eq
    rw [RecordDecl.abiMembers, List.length_zipWith, length_abiOffsets, Nat.min_self] at hlen
    rw [← hsplit] at hlt
    exact absurd hlen (Nat.ne_of_lt hlt)
  have hmembers : (StructInfo.new decl).members =
      List.zipWith StructMemberInfo.new decl.fields (sumsFrom 0 decl.fields) :=
    recordMembers_eq hpos
  -- both lists of offsets are in order, so they are the same list
  have hoffsets : decl.abiOffsets = sumsFrom 0 decl.fields := by
    have hperm := h.once.map StructMemberInfo.offsetBits
    rw [hmembers, RecordDecl.abiMembers, map_offsetBits_zipWith (length_sumsFrom _ _),
      map_offsetBits_zipWith (length_abiOffsets decl)] at hperm
    exact hperm.symm.eq_of_pairwise (fun a b _ _ => Nat.le_antisymm) (pairwise_abiOffsets decl)
      (pairwise_sumsFrom 0 decl.fields)
  have hunion : decl.kind = .union → decl.fields.length ≤ 1 := by
    intro hk
    cases hf : decl.fields with
    | nil => exact Nat.zero_le 1
    | cons f rest =>
      cases rest with
      | nil => exact Nat.le_refl 1
      | cons g post =>
        rw [RecordDecl.abiOffsets, hk, hf] at hoffsets
        obtain ⟨-, hrest⟩ := List.cons.inj hoffsets
        obtain ⟨hzero, -⟩ := List.cons.inj hrest
        have := hpos [] f g post hf
        omega
  refine ⟨hunion, fun pre f g post hsplit => ⟨hpos pre f g post hsplit, ?_⟩, ?_⟩
  · cases hk : decl.kind with
    | union =>
      have hlen := hunion hk
      rw [hsplit, List.length_append, List.length_cons, List.length_cons] at hlen
      omega
    | struct =>
      rw [RecordDecl.abiOffsets, hk, hsplit] at hoffsets
      have hplace := place_of_structOffsets_eq hoffsets
      rw [Nat.zero_add] at hplace
      exact (FieldDecl.startsAt_iff _ g _ _).mpr hplace
  · rcases List.eq_nil_or_concat decl.fields with hnil | hlast
    · rw [hnil]
      exact Nat.zero_le _
    · obtain ⟨l, f, hl⟩ := hlast
      rw [List.concat_eq_append] at hl
      have hmem : StructMemberInfo.new f (sizesOf l) ∈ (StructInfo.new decl).members := by
        rw [hmembers, hl, sumsFrom_append, List.zipWith_append (length_sumsFrom 0 l).symm,
          Nat.zero_add]
        exact List.mem_append_right _ (List.mem_singleton_self _)
      have hin := h.inside _ hmem
      rw [hl, sizesOf_append]
      exact hin

/-- The records of the tool are right for exactly the layouts without padding. -/
theorem records_iff (decl : RecordDecl) : Records decl ↔ NoPadding decl :=
  ⟨Records.noPadding, NoPadding.records⟩

def charField : FieldDecl where
  tyName := "char"
  name := "c"
  tySize := 8
  tyAlign := 8
  bitWidth := none
  isPtr := false
  isAry := false
  size_bytes := by decide
  align_pos := by decide
  width_le := by simp

def intField : FieldDecl where
  tyName := "int"
  name := "i"
  tySize := 32
  tyAlign := 32
  bitWidth := none
  isPtr := false
  isAry := false
  size_bytes := by decide
  align_pos := by decide
  width_le := by simp

/-- In `struct { char c; int i; }` the integer is recorded at the second byte. -/
theorem char_int_misplaced :
    ¬ Records ⟨"pair", .struct, false, 64, [charField, intField]⟩ := by
  intro h
  have hmem : StructMemberInfo.new intField 8 ∈
      (StructInfo.new ⟨"pair", .struct, false, 64, [charField, intField]⟩).members := by decide
  exact absurd (h.once.subset hmem) (by decide)

end Layout
end Silhouette
