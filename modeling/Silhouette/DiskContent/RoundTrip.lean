import Silhouette.DiskContent.Dump

/-!
# Reading a dump back

A path is read up to its first colon and without the blanks around it, the name of a directory
entry likewise with its blanks squeezed, and a line that says `error` is taken for a report.  So a
dump is read back exactly when its names have none of these.
-/

namespace Silhouette
namespace DiskContent

open Lib Lib.Text

/-! ## One attribute -/

/-- What is read of a path. -/
def readPath (path : List Char) : List Char := strip (path.takeWhile (· ≠ ':'))

/-- What is read of a value. -/
def readValue (value : List Char) : List Char := squeeze (value.takeWhile (· ≠ ':'))

/-- The keys that are not those of the number, the path or a comment, and hold at most one `r`. -/
structure AttrKey (key : List Char) : Prop where
  colon : ':' ∉ key
  squeezed : squeeze key = key
  first : key.head?.any fun c => c ≠ 'C' && c ≠ 'P' && c ≠ '#'
  letters : key.count 'r' ≤ 1

theorem attrKey_of_mem {a : FileAttributes} {x : List Char × List Char} (hx : x ∈ a.attrs) :
    AttrKey x.1 := by
  have hkeys : ∀ key ∈ a.attrs.map Prod.fst, ':' ∉ key ∧ squeeze key = key ∧
      (key.head?.any fun c => c ≠ 'C' && c ≠ 'P' && c ≠ '#') = true ∧ key.count 'r' ≤ 1 := by
    show ∀ key ∈ [lit "Dir_Name", lit "Dir_Inode", lit "Dir_Offset", lit "Dir_Length",
      lit "Dir_Type", lit "File_Inode", lit "File_TotalSize", lit "File_BlockSize",
      lit "File_#Blocks", lit "File_#HardLinks", lit "File_Mode", lit "File_User ID",
      lit "File_Group ID", lit "File_Device ID", lit "File_RootDev ID", lit "File_MD5"], _
    decide +kernel
  obtain ⟨h1, h2, h3, h4⟩ := hkeys x.1 (List.mem_map_of_mem hx)
  exact ⟨h1, h2, h3, h4⟩

theorem takeWhile_of_notMem {w : List Char} (h : ':' ∉ w) : w.takeWhile (· ≠ ':') = w := by
  rw [List.takeWhile_eq_self_iff]
  exact fun c hc => decide_eq_true fun heq => h (heq ▸ hc)

theorem takeWhile_append_colon {w : List Char} (h : ':' ∉ w) (rest : List Char) :
    (w ++ ':' :: rest).takeWhile (· ≠ ':') = w := by
  have hw : ∀ c ∈ w, decide (c ≠ ':') = true := fun c hc => decide_eq_true fun heq => h (heq ▸ hc)
  rw [List.takeWhile_append_of_pos hw]
  simp

/-- Splitting at the first colon. -/
theorem splitOn_colon {a b : List Char} (ha : ':' ∉ a) :
    ((a ++ ':' :: b).splitOn ':')[0]? = some a ∧
      ((a ++ ':' :: b).splitOn ':')[1]? = some (b.takeWhile (· ≠ ':')) := by
  have hsplit : ∀ {a b : List Char}, ':' ∉ a → (a ++ ':' :: b).splitOn ':' = a :: b.splitOn ':' := by
    intro a b ha
    refine List.splitOnP_append_cons_of_forall_mem (p := (· == ':')) (fun c hc => ?_) ':' rfl b
    exact beq_eq_false_iff_ne.mpr fun heq => ha (heq ▸ hc)
  rw [hsplit ha]
  refine ⟨rfl, ?_⟩
  rw [List.getElem?_cons_succ]
  by_cases hb : ':' ∈ b
  · obtain ⟨w, rest, rfl, hw⟩ := List.eq_append_cons_of_mem hb
    rw [hsplit hw, takeWhile_append_colon hw]
    rfl
  · rw [takeWhile_of_notMem hb, List.splitOn, List.splitOnP_eq_singleton]
    · rfl
    · exact fun c hc => beq_eq_false_iff_ne.mpr fun heq => hb (heq ▸ hc)

theorem colon_notMem_squeeze {w : List Char} (h : ':' ∉ w) : ':' ∉ squeeze w := by
  intro hmem
  rcases mem_squeeze hmem with heq | hmem
  · exact absurd heq (by decide)
  · exact h hmem

theorem colon_notMem_blank {s : List Char} (h : ∀ c ∈ s, isSpace c = true) : ':' ∉ s :=
  fun hmem => absurd (h ':' hmem) (by decide)

/-- The key and the value of a squeezed line. -/
theorem squeeze_line {k v : List Char} (hk : ':' ∉ k) :
    (((squeeze (k ++ ':' :: v)).splitOn ':')[0]?.map strip = some (squeeze k)) ∧
      ((squeeze (k ++ ':' :: v)).splitOn ':')[1]?.map strip = some (readValue v) := by
  obtain ⟨s, t, hs, ht, heq⟩ := squeeze_append_cons (c := ':') (by decide) k v
  have hnone : ∀ c ∈ ([] : List Char), isSpace c = true := fun c hc => absurd hc (by simp)
  have hcolon : ':' ∉ squeeze k ++ s := by
    rw [List.mem_append, not_or]
    exact ⟨colon_notMem_squeeze hk, colon_notMem_blank hs⟩
  obtain ⟨h0, h1⟩ := splitOn_colon (b := t ++ squeeze v) hcolon
  rw [heq, h0, h1, Option.map_some, Option.map_some]
  constructor
  · have h := strip_squeeze hnone hs k
    rw [List.nil_append] at h
    rw [h]
  · congr 1
    rw [readValue]
    by_cases hv : ':' ∈ v
    · obtain ⟨w, rest, rfl, hw⟩ := List.eq_append_cons_of_mem hv
      obtain ⟨s', t', hs', -, heq'⟩ := squeeze_append_cons (c := ':') (by decide) w rest
      have hfront : ':' ∉ t ++ squeeze w ++ s' := by
        rw [List.mem_append, not_or, List.mem_append, not_or]
        exact ⟨⟨colon_notMem_blank ht, colon_notMem_squeeze hw⟩, colon_notMem_blank hs'⟩
      rw [takeWhile_append_colon hw, heq', ← List.append_assoc, ← List.append_assoc,
        takeWhile_append_colon hfront]
      exact strip_squeeze ht hs' w
    · have hall : ':' ∉ t ++ squeeze v := by
        rw [List.mem_append, not_or]
        exact ⟨colon_notMem_blank ht, colon_notMem_squeeze hv⟩
      have h := strip_squeeze ht hnone v
      rw [List.append_nil] at h
      rw [takeWhile_of_notMem hall, takeWhile_of_notMem hv, h]

theorem newline_blank : ∀ c ∈ ['\n'], isSpace c = true :=
  List.forall_mem_singleton.mpr (by decide)

theorem space_blank : ∀ c ∈ [' '], isSpace c = true :=
  List.forall_mem_singleton.mpr (by decide)

/-- A value stands between a blank and the end of its line. -/
theorem takeWhile_line (value : List Char) :
    ∃ t, (∀ c ∈ t, isSpace c = true) ∧ (' ' :: (value ++ ['\n'])).takeWhile (· ≠ ':') =
      [' '] ++ value.takeWhile (· ≠ ':') ++ t := by
  by_cases hv : ':' ∈ value
  · obtain ⟨w, rest, rfl, hw⟩ := List.eq_append_cons_of_mem hv
    have hw' : ':' ∉ ' ' :: w := by
      rw [List.mem_cons, not_or]
      exact ⟨by decide, hw⟩
    have heq : ' ' :: (w ++ ':' :: rest ++ ['\n']) = (' ' :: w) ++ ':' :: (rest ++ ['\n']) := by simp
    refine ⟨[], fun c hc => absurd hc (by simp), ?_⟩
    rw [heq, takeWhile_append_colon hw', takeWhile_append_colon hw, List.append_nil]
    rfl
  · have hv' : ':' ∉ ' ' :: (value ++ ['\n']) := by
      rw [List.mem_cons, not_or, List.mem_append, not_or]
      exact ⟨by decide, hv, by decide⟩
    refine ⟨['\n'], newline_blank, ?_⟩
    rw [takeWhile_of_notMem hv', takeWhile_of_notMem hv]
    rfl

theorem readValue_line (value : List Char) :
    readValue (' ' :: (value ++ ['\n'])) = readValue value := by
  obtain ⟨t, ht, heq⟩ := takeWhile_line value
  rw [readValue, heq, squeeze_blanks space_blank ht]
  rfl

theorem readPath_line (path : List Char) :
    strip ((' ' :: (path ++ ['\n'])).takeWhile (· ≠ ':')) = readPath path := by
  obtain ⟨t, ht, heq⟩ := takeWhile_line path
  rw [heq, strip_blanks space_blank ht]
  rfl

/-! ## One line -/

/-- A line of the dump as the reader gets it: the key, blanks, a colon and the value. -/
theorem attrLine_eq (width : Nat) (key value : List Char) :
    ∃ pad, (∀ c ∈ pad, isSpace c = true) ∧
      attrLine width (key, value) ++ ['\n'] = (key ++ pad) ++ ':' :: (' ' :: (value ++ ['\n'])) := by
  refine ⟨List.replicate (width - key.length) ' ', fun c hc => ?_, ?_⟩
  · rw [List.eq_of_mem_replicate hc]
    rfl
  · have hlit : lit ": " = [':', ' '] := by decide
    simp [attrLine, padRight, hlit]

/-- Another character in front. -/
theorem not_isPrefixOf_of_head {p : List Char} {c : Char} (hp : p.head? = some c) {line : List Char}
    (h : line.head?.any (· ≠ c) = true) : ¬ p.isPrefixOf line = true := by
  cases p with
  | nil => cases hp
  | cons d p =>
    cases line with
    | nil => cases h
    | cons e line =>
      obtain rfl : d = c := Option.some.inj hp
      have hne : e ≠ d := by simpa using h
      simp [List.isPrefixOf, hne.symm]

theorem head_attrLine {key : List Char} (hkey : AttrKey key) (width : Nat) (value : List Char) :
    (attrLine width (key, value) ++ ['\n']).head? = key.head? := by
  cases hk : key with
  | nil =>
    have hfirst := hkey.first
    rw [hk] at hfirst
    cases hfirst
  | cons c rest => rfl

theorem addAttr_line {key : List Char} (hkey : AttrKey key) (width : Nat) (value : List Char)
    (e : DiskEntryAttrs) :
    e.addAttr (attrLine width (key, value) ++ ['\n']) =
      if key ∈ e.vars.keys then none
      else some { e with vars := e.vars.set key (readValue value) } := by
  obtain ⟨pad, hpad, hline⟩ := attrLine_eq width key value
  have hnone : ∀ c ∈ ([] : List Char), isSpace c = true := fun c hc => absurd hc (by simp)
  have hcolon : ':' ∉ key ++ pad := by
    rw [List.mem_append, not_or]
    exact ⟨hkey.colon, colon_notMem_blank hpad⟩
  obtain ⟨h0, h1⟩ := squeeze_line (v := ' ' :: (value ++ ['\n'])) hcolon
  have hsq : squeeze (key ++ pad) = key := by
    have h := squeeze_blanks hnone hpad key
    rw [List.nil_append] at h
    rw [h, hkey.squeezed]
  rw [← hline, hsq] at h0
  rw [← hline, readValue_line] at h1
  have hfirst := hkey.first
  rw [← head_attrLine hkey width value] at hfirst
  have hcount : ¬ (attrLine width (key, value) ++ ['\n']).count ':' = 0 := by
    rw [hline, List.count_append, List.count_cons_self]
    omega
  have hid : ¬ (lit "Content_ID").isPrefixOf (attrLine width (key, value) ++ ['\n']) = true := by
    refine not_isPrefixOf_of_head (c := 'C') (by decide) ?_
    revert hfirst
    cases (attrLine width (key, value) ++ ['\n']).head? with
    | none => exact fun h => h
    | some c => simp +contextual
  have hpath : ¬ (lit "Path").isPrefixOf (attrLine width (key, value) ++ ['\n']) = true := by
    refine not_isPrefixOf_of_head (c := 'P') (by decide) ?_
    revert hfirst
    cases (attrLine width (key, value) ++ ['\n']).head? with
    | none => exact fun h => h
    | some c => simp +contextual
  rw [DiskEntryAttrs.addAttr, if_neg hcount, if_neg hid, if_neg hpath]
  obtain ⟨k, hk, hk'⟩ := Option.map_eq_some_iff.mp h0
  obtain ⟨v, hv, hv'⟩ := Option.map_eq_some_iff.mp h1
  rw [squeeze] at hk hv
  simp only [hk, hv, Option.bind_eq_bind, Option.bind_some, hk', hv']
  rfl

theorem not_error_of_count {line : List Char} (h : line.count 'r' ≤ 2) : ¬ lit "error" <:+: line := by
  intro herror
  have hle := herror.sublist.count_le 'r'
  have hcount : (lit "error").count 'r' = 3 := by decide
  omega

/-- An error is reported in the value or nowhere. -/
theorem error_line_iff {k : List Char} (hk : k.count 'r' ≤ 2) (value : List Char) :
    lit "error" <:+: k ++ ':' :: (' ' :: (value ++ ['\n'])) ↔ lit "error" <:+: value := by
  have hfront : ¬ lit "error" <:+: k := not_error_of_count hk
  have hnil : ¬ lit "error" <:+: ([] : List Char) := by decide
  rw [infix_append_cons_iff (by decide), or_iff_right hfront, ← List.nil_append (' ' :: _),
    infix_append_cons_iff (by decide), or_iff_right hnil, infix_append_cons_iff (by decide),
    or_iff_left hnil]

theorem error_attrLine_iff {key : List Char} (hkey : AttrKey key) (width : Nat) (value : List Char) :
    lit "error" <:+: attrLine width (key, value) ++ ['\n'] ↔ lit "error" <:+: value := by
  obtain ⟨pad, hpad, hline⟩ := attrLine_eq width key value
  have hpad0 : pad.count 'r' = 0 :=
    List.count_eq_zero.mpr fun hmem => absurd (hpad 'r' hmem) (by decide)
  have hletters := hkey.letters
  rw [hline, error_line_iff]
  rw [List.count_append, hpad0]
  omega

/-- A line with a colon that is no comment. -/
theorem addLine_colon {k v : List Char} {c : Char} (hk : k.head? = some c) (hc : c ≠ '#')
    (r : CtxFileReader) :
    r.addLine (k ++ ':' :: v) =
      if lit "error" <:+: k ++ ':' :: v then some { r with hasErrMsg := true }
      else ((r.entry.getD DiskEntryAttrs.new).addAttr (k ++ ':' :: v)).bind
        fun entry => if (lit "File_MD5").isPrefixOf (k ++ ':' :: v) then
          entry.finalize.map fun e => { r with entry := none, entries := r.entries ++ [e] }
        else some { r with entry := some entry } := by
  have hhead : (k ++ ':' :: v).head?.any (· ≠ '#') = true := by
    cases k with
    | nil => cases hk
    | cons d rest =>
      obtain rfl : d = c := Option.some.inj hk
      simp [hc]
  have hcount : ¬ (k ++ ':' :: v).count ':' = 0 := by
    rw [List.count_append, List.count_cons_self]
    omega
  have hskip : ¬ (k ++ ':' :: v = [] ∨ (k ++ ':' :: v).count ':' = 0 ∨
      ['#'].isPrefixOf (k ++ ':' :: v) = true) := by
    rintro (h | h | h)
    · simp at h
    · exact hcount h
    · exact not_isPrefixOf_of_head rfl hhead h
  rw [CtxFileReader.addLine, if_neg (not_isPrefixOf_of_head (by decide) hhead), if_neg hskip]
  refine if_congr Iff.rfl rfl ?_
  refine Option.bind_congr fun entry _ => ?_
  split_ifs
  · cases entry.finalize <;> rfl
  · rfl

/-- A line of an attribute is handed to the entry, unless it is taken for an error. -/
theorem addLine_attrLine {key : List Char} (hkey : AttrKey key) (width : Nat) (value : List Char)
    (r : CtxFileReader) :
    r.addLine (attrLine width (key, value) ++ ['\n']) =
      if lit "error" <:+: value then some { r with hasErrMsg := true }
      else ((r.entry.getD DiskEntryAttrs.new).addAttr (attrLine width (key, value) ++ ['\n'])).bind
        fun entry => if (lit "File_MD5").isPrefixOf (attrLine width (key, value) ++ ['\n']) then
          entry.finalize.map fun e => { r with entry := none, entries := r.entries ++ [e] }
        else some { r with entry := some entry } := by
  obtain ⟨pad, -, hline⟩ := attrLine_eq width key value
  have hfirst := hkey.first
  cases hk : key.head? with
  | none =>
    rw [hk] at hfirst
    cases hfirst
  | some c =>
    have hc : c ≠ '#' := by
      rw [hk] at hfirst
      simp only [Option.any_some, Bool.and_eq_true, decide_eq_true_eq] at hfirst
      exact hfirst.2
    have hhead : (key ++ pad).head? = some c := by
      rw [List.head?_append, hk]
      rfl
    have herror := error_attrLine_iff hkey width value
    rw [hline] at herror ⊢
    rw [addLine_colon hhead hc]
    exact if_congr herror rfl rfl

/-- Keys in front of the last. -/
theorem not_md5_of_key {key : List Char} {width : Nat} (hwidth : 8 ≤ width)
    (h : ¬ lit "File_MD5" <+: padRight width key) (value : List Char) :
    ¬ (lit "File_MD5").isPrefixOf (attrLine width (key, value) ++ ['\n']) = true := by
  intro hpre
  rw [List.isPrefixOf_iff_prefix] at hpre
  refine h (List.prefix_of_prefix_length_le hpre ?_ ?_)
  · exact ⟨lit ": " ++ value ++ ['\n'], by simp [attrLine]⟩
  · have hlen : (lit "File_MD5").length = 8 := by decide
    rw [hlen, padRight, List.length_append, List.length_replicate]
    omega

/-- An attribute whose value is read as it is. -/
structure PlainAttr (width : Nat) (x : List Char × List Char) : Prop where
  key : AttrKey x.1
  other : ¬ lit "File_MD5" <+: padRight width x.1
  value : readValue x.2 = x.2
  noError : ¬ lit "error" <:+: x.2

theorem addLine_attrs {width : Nat} (hwidth : 8 ≤ width) {kvs : List (List Char × List Char)}
    (hplain : ∀ x ∈ kvs, PlainAttr width x) (r : CtxFileReader) (e : DiskEntryAttrs)
    (hkeys : (e.vars.keys ++ kvs.map Prod.fst).Nodup) :
    ∃ d : Dict (List Char) (List Char), d.items = e.vars.items ++ kvs ∧
      (kvs.map fun x => attrLine width x ++ ['\n']).foldlM CtxFileReader.addLine
          { r with entry := some e } =
        some { r with entry := some { e with vars := d } } := by
  induction kvs generalizing e with
  | nil => exact ⟨e.vars, (List.append_nil _).symm, rfl⟩
  | cons x rest ih =>
    have hx := hplain x List.mem_cons_self
    have hfresh : x.1 ∉ e.vars.keys := by
      rw [List.map_cons, List.nodup_append] at hkeys
      exact fun hmem => hkeys.2.2 x.1 hmem x.1 List.mem_cons_self rfl
    have hitems := Dict.items_set_of_notMem hfresh x.2
    have hkeys' : ((e.vars.set x.1 x.2).keys ++ rest.map Prod.fst).Nodup := by
      rw [Dict.keys, hitems, List.map_append, List.append_assoc]
      exact hkeys
    obtain ⟨d, hd, hfold⟩ := ih (fun y hy => hplain y (List.mem_cons_of_mem _ hy))
      { e with vars := e.vars.set x.1 x.2 } hkeys'
    refine ⟨d, ?_, ?_⟩
    · rw [hd, hitems, List.append_assoc]
      rfl
    · have hline : CtxFileReader.addLine { r with entry := some e } (attrLine width x ++ ['\n']) =
          some { r with entry := some { e with vars := e.vars.set x.1 x.2 } } := by
        rw [addLine_attrLine hx.key, if_neg hx.noError, Option.getD_some, addAttr_line hx.key,
          if_neg hfresh, Option.bind_some, if_neg (not_md5_of_key hwidth hx.other x.2), hx.value]
      rw [List.map_cons, List.foldlM_cons, hline]
      exact hfold

/-! ## The block of a path -/

/-- The characters of numbers and sums. -/
def IsNumeral (v : List Char) : Prop :=
  v ≠ [] ∧ ∀ c ∈ v, c = '-' ∨ c = 'x' ∨ ∃ d, d < 16 ∧ c = d.digitChar

theorem isNumeral_decimal (n : Nat) : IsNumeral (decimal n) :=
  ⟨Nat.toDigits_ne_nil, fun c hc => Or.inr (Or.inr (decimal_plain n c hc))⟩

theorem isNumeral_decimalInt (i : Int) : IsNumeral (decimalInt i) := by
  cases i with
  | ofNat n => exact isNumeral_decimal n
  | negSucc n =>
    refine ⟨List.cons_ne_nil _ _, fun c hc => ?_⟩
    rcases List.mem_cons.mp hc with rfl | hc
    · exact Or.inl rfl
    · exact (isNumeral_decimal (n + 1)).2 c hc

theorem isNumeral_hex {ds : List Char} (h : ∀ c ∈ ds, ∃ d, d < 16 ∧ c = d.digitChar) :
    IsNumeral (lit "0x" ++ ds) := by
  have hlit : lit "0x" = ['0', 'x'] := by decide
  rw [hlit]
  refine ⟨by simp, fun c hc => ?_⟩
  rcases List.mem_append.mp hc with hc | hc
  · rcases List.mem_cons.mp hc with rfl | hc
    · exact Or.inr (Or.inr ⟨0, by decide, rfl⟩)
    · exact Or.inr (Or.inl (List.mem_singleton.mp hc))
  · exact Or.inr (Or.inr (h c hc))

theorem isNumeral_hexByte (b : UInt8) : IsNumeral (lit "0x" ++ hexByte b) := by
  refine isNumeral_hex fun c hc => ?_
  have hb : b.toNat < 256 := b.toNat_lt
  rcases List.mem_cons.mp hc with rfl | hc
  · exact ⟨_, by omega, rfl⟩
  · exact ⟨_, by omega, List.mem_singleton.mp hc⟩

/-- None of them is blank, a colon, a line end or the letter `r`. -/
theorem IsNumeral.plain {v : List Char} (h : IsNumeral v) {c : Char} (hc : c ∈ v) :
    isSpace c = false ∧ c ≠ ':' ∧ c ≠ '\n' ∧ c ≠ 'r' := by
  rcases h.2 c hc with rfl | rfl | ⟨d, hd, rfl⟩
  · decide
  · decide
  · interval_cases d <;> decide

theorem IsNumeral.readValue {v : List Char} (h : IsNumeral v) : readValue v = v := by
  have hcolon : ':' ∉ v := fun hmem => (h.plain hmem).2.1 rfl
  rw [DiskContent.readValue, takeWhile_of_notMem hcolon, squeeze,
    words_nonspace fun c hc => (h.plain hc).1, if_neg h.1, joinWords_cons]
  simp [wordSep, joinWords]

theorem IsNumeral.noError {v : List Char} (h : IsNumeral v) : ¬ lit "error" <:+: v := by
  refine not_error_of_count ?_
  rw [List.count_eq_zero.mpr fun hmem => (h.plain hmem).2.2.2 rfl]
  decide

theorem isNumeral_dir {a : FileAttributes} {x : List Char × List Char} (hx : x ∈ a.dirAttrs.tail) :
    IsNumeral x.2 := by
  have hx' : x ∈ [(lit "Dir_Inode", decimal a.dIno), (lit "Dir_Offset", decimalInt a.dOff),
    (lit "Dir_Length", decimal a.dReclen), (lit "Dir_Type", lit "0x" ++ hexByte a.dType)] := hx
  simp only [List.mem_cons, List.not_mem_nil, or_false] at hx'
  rcases hx' with rfl | rfl | rfl | rfl
  · exact isNumeral_decimal _
  · exact isNumeral_decimalInt _
  · exact isNumeral_decimal _
  · exact isNumeral_hexByte _

theorem plainAttr_dir {a : FileAttributes} {x : List Char × List Char} (hx : x ∈ a.dirAttrs.tail) :
    PlainAttr 11 x := by
  have hkey : AttrKey x.1 :=
    attrKey_of_mem (List.mem_append_left _ (List.mem_append_left _ (List.mem_of_mem_tail hx)))
  have hother : ∀ key ∈ a.dirAttrs.map Prod.fst, ¬ lit "File_MD5" <+: padRight 11 key := by
    show ∀ key ∈ [lit "Dir_Name", lit "Dir_Inode", lit "Dir_Offset", lit "Dir_Length",
      lit "Dir_Type"], _
    decide +kernel
  have hnum := isNumeral_dir hx
  exact ⟨hkey, hother x.1 (List.mem_map_of_mem (List.mem_of_mem_tail hx)), hnum.readValue,
    hnum.noError⟩

theorem isNumeral_stat {a : FileAttributes} {x : List Char × List Char} (hx : x ∈ a.statAttrs) :
    IsNumeral x.2 := by
  simp only [FileAttributes.statAttrs, List.mem_cons, List.not_mem_nil, or_false] at hx
  rcases hx with rfl | rfl | rfl | rfl | rfl | rfl | rfl | rfl | rfl | rfl
  all_goals first | exact isNumeral_decimal _ | exact isNumeral_decimalInt _

theorem plainAttr_stat {a : FileAttributes} {x : List Char × List Char} (hx : x ∈ a.statAttrs) :
    PlainAttr 15 x := by
  have hkey : AttrKey x.1 := attrKey_of_mem (List.mem_append_left _ (List.mem_append_right _ hx))
  have hother : ∀ key ∈ a.statAttrs.map Prod.fst, ¬ lit "File_MD5" <+: padRight 15 key := by
    show ∀ key ∈ [lit "File_Inode", lit "File_TotalSize", lit "File_BlockSize",
      lit "File_#Blocks", lit "File_#HardLinks", lit "File_Mode", lit "File_User ID",
      lit "File_Group ID", lit "File_Device ID", lit "File_RootDev ID"], _
    decide +kernel
  have hnum := isNumeral_stat hx
  exact ⟨hkey, hother x.1 (List.mem_map_of_mem hx), hnum.readValue, hnum.noError⟩

theorem addLine_blank (r : CtxFileReader) : r.addLine ['\n'] = some r := by
  have hmark : ¬ (lit "#### ").isPrefixOf ['\n'] = true := by decide
  have hskip : ['\n'] = [] ∨ ['\n'].count ':' = 0 ∨ ['#'].isPrefixOf ['\n'] = true := by decide
  rw [CtxFileReader.addLine, if_neg hmark, if_pos hskip]

theorem addLine_id {r : CtxFileReader} (hr : r.entry = none) (num : Nat) :
    r.addLine (lit "Content_ID: " ++ padLeft 5 '0' (decimal num) ++ ['\n']) =
      some { r with entry := some { DiskEntryAttrs.new with id := num } } := by
  have hline : lit "Content_ID: " ++ padLeft 5 '0' (decimal num) ++ ['\n'] =
      lit "Content_ID" ++ ':' :: (' ' :: (padLeft 5 '0' (decimal num) ++ ['\n'])) := by
    have hlit : lit "Content_ID: " = lit "Content_ID" ++ [':', ' '] := by decide
    rw [hlit]
    simp
  have hdigits : ∀ c ∈ padLeft 5 '0' (decimal num), ∃ d, d < 16 ∧ c = d.digitChar := by
    intro c hc
    rcases List.mem_append.mp hc with hc | hc
    · exact ⟨0, by decide, List.eq_of_mem_replicate hc⟩
    · exact decimal_plain num c hc
  have hnum : IsNumeral (padLeft 5 '0' (decimal num)) :=
    ⟨by simp [padLeft, decimal], fun c hc => Or.inr (Or.inr (hdigits c hc))⟩
  have hcolon : ':' ∉ ' ' :: (padLeft 5 '0' (decimal num) ++ ['\n']) := by
    rw [List.mem_cons, not_or, List.mem_append, not_or]
    exact ⟨by decide, fun hmem => (hnum.plain hmem).2.1 rfl, by decide⟩
  have hmd5 : ¬ (lit "File_MD5").isPrefixOf
      (lit "Content_ID" ++ ':' :: (' ' :: (padLeft 5 '0' (decimal num) ++ ['\n']))) = true :=
    not_isPrefixOf_of_head (c := 'F') (by decide) (by
      have hhead : lit "Content_ID" = 'C' :: lit "ontent_ID" := by decide
      rw [hhead]
      rfl)
  have hpre : (lit "Content_ID").isPrefixOf
      (lit "Content_ID" ++ ':' :: (' ' :: (padLeft 5 '0' (decimal num) ++ ['\n']))) = true := by
    rw [List.isPrefixOf_iff_prefix]
    exact List.prefix_append _ _
  have hcount : ¬ (lit "Content_ID" ++ ':' :: (' ' :: (padLeft 5 '0' (decimal num) ++ ['\n']))).count
      ':' = 0 := by
    rw [List.count_append, List.count_cons_self]
    omega
  have hread : readInt (' ' :: (padLeft 5 '0' (decimal num) ++ ['\n'])) = some (num : Int) := by
    have h := readInt_padded space_blank newline_blank 5 num
    rwa [List.append_assoc, List.singleton_append] at h
  rw [hline, addLine_colon (c := 'C') (by decide) (by decide),
    if_neg (fun h => hnum.noError ((error_line_iff (by decide) _).mp h)), hr, Option.getD_none,
    DiskEntryAttrs.addAttr, if_neg hcount, if_pos hpre, (splitOn_colon (by decide)).2,
    takeWhile_of_notMem hcolon, Option.bind_some, hread]
  simp only [Option.bind_eq_bind, Option.bind_some, Option.pure_def, if_neg hmd5]

theorem addLine_path {r : CtxFileReader} {e : DiskEntryAttrs} (hr : r.entry = some e)
    (path : List Char) :
    r.addLine (lit "Path : " ++ path ++ ['\n']) =
      if lit "error" <:+: path then some { r with hasErrMsg := true }
      else some { r with entry := some { e with path := readPath path } } := by
  have hline : lit "Path : " ++ path ++ ['\n'] =
      lit "Path " ++ ':' :: (' ' :: (path ++ ['\n'])) := by
    have hlit : lit "Path : " = lit "Path " ++ [':', ' '] := by decide
    rw [hlit]
    simp
  have hhead : lit "Path " = 'P' :: lit "ath " := by decide
  have hmd5 : ¬ (lit "File_MD5").isPrefixOf (lit "Path " ++ ':' :: (' ' :: (path ++ ['\n']))) = true :=
    not_isPrefixOf_of_head (c := 'F') (by decide) (by rw [hhead]; rfl)
  have hid : ¬ (lit "Content_ID").isPrefixOf
      (lit "Path " ++ ':' :: (' ' :: (path ++ ['\n']))) = true :=
    not_isPrefixOf_of_head (c := 'C') (by decide) (by rw [hhead]; rfl)
  have hpre : (lit "Path").isPrefixOf (lit "Path " ++ ':' :: (' ' :: (path ++ ['\n']))) = true := by
    rw [List.isPrefixOf_iff_prefix]
    exact (show lit "Path" <+: lit "Path " by decide).trans (List.prefix_append _ _)
  have hcount : ¬ (lit "Path " ++ ':' :: (' ' :: (path ++ ['\n']))).count ':' = 0 := by
    rw [List.count_append, List.count_cons_self]
    omega
  rw [hline, addLine_colon (c := 'P') (by decide) (by decide)]
  refine if_congr (error_line_iff (by decide) path) rfl ?_
  rw [hr, Option.getD_some, DiskEntryAttrs.addAttr, if_neg hcount, if_neg hid, if_pos hpre,
    (splitOn_colon (by decide)).2]
  simp only [Option.bind_eq_bind, Option.bind_some, Option.pure_def, if_neg hmd5]
  rw [readPath_line]

/-- The attributes as they are read: the name may be missing or cut. -/
def readAttrs (a : FileAttributes) : List (List Char × List Char) :=
  (if lit "error" <:+: a.dName then [] else [(lit "Dir_Name", readValue a.dName)]) ++ a.attrs.tail

/-- The lines of a path as the reader gets them. -/
def blockLines (num : Nat) (x : List Char × FileAttributes) : List (List Char) :=
  pathLines num x.1 ++ x.2.lines ++ [[]]

theorem addLine_name {a : FileAttributes} (r : CtxFileReader) (e : DiskEntryAttrs)
    (hvars : e.vars = Dict.empty) :
    CtxFileReader.addLine { r with entry := some e }
        (attrLine 11 (lit "Dir_Name", a.dName) ++ ['\n']) =
      if lit "error" <:+: a.dName then some { r with hasErrMsg := true, entry := some e }
      else some { r with
        entry := some { e with vars := e.vars.set (lit "Dir_Name") (readValue a.dName) } } := by
  have hkey : AttrKey (lit "Dir_Name") :=
    attrKey_of_mem (a := a) (x := (lit "Dir_Name", a.dName)) List.mem_cons_self
  have hfresh : lit "Dir_Name" ∉ e.vars.keys := by
    rw [hvars]
    exact List.not_mem_nil
  rw [addLine_attrLine hkey]
  refine if_congr Iff.rfl rfl ?_
  rw [Option.getD_some, addAttr_line hkey, if_neg hfresh, Option.bind_some,
    if_neg (not_md5_of_key (by decide) (by decide) a.dName)]

theorem addLine_md5 {a : FileAttributes} (hnum : IsNumeral a.md5Attr.2) (r : CtxFileReader)
    (e : DiskEntryAttrs) (hfresh : lit "File_MD5" ∉ e.vars.keys) (hid : 0 ≤ e.id) :
    CtxFileReader.addLine { r with entry := some e } (attrLine 9 a.md5Attr ++ ['\n']) =
      if e.path = [] then none
      else some { r with
        entry := none
        entries := r.entries ++ [{ e with vars := e.vars.set (lit "File_MD5") a.md5Attr.2 }] } := by
  have hkey : AttrKey (lit "File_MD5") :=
    attrKey_of_mem (a := a) (x := a.md5Attr) (List.mem_append_right _ (List.mem_singleton_self _))
  have hpre : (lit "File_MD5").isPrefixOf (attrLine 9 a.md5Attr ++ ['\n']) = true := by
    rw [List.isPrefixOf_iff_prefix]
    exact ⟨[' '] ++ (lit ": " ++ a.md5Attr.2) ++ ['\n'], by
      have hpad : padRight 9 (lit "File_MD5") = lit "File_MD5" ++ [' '] := by decide
      rw [attrLine, FileAttributes.md5Attr, hpad]
      simp⟩
  have hline : attrLine 9 a.md5Attr = attrLine 9 (lit "File_MD5", a.md5Attr.2) := rfl
  rw [hline] at hpre ⊢
  rw [addLine_attrLine hkey, if_neg hnum.noError, Option.getD_some, addAttr_line hkey,
    if_neg hfresh, Option.bind_some, if_pos hpre, DiskEntryAttrs.finalize, hnum.readValue]
  have hneg : ¬ e.id < 0 := Int.not_lt.mpr hid
  by_cases hpath : e.path = []
  · rw [if_pos (Or.inr hpath), if_pos hpath]
    rfl
  · rw [if_neg (not_or.mpr ⟨hneg, hpath⟩), if_neg hpath]
    rfl

theorem keys_attrs (a : FileAttributes) : (a.attrs.map Prod.fst).Nodup := by
  show [lit "Dir_Name", lit "Dir_Inode", lit "Dir_Offset", lit "Dir_Length",
    lit "Dir_Type", lit "File_Inode", lit "File_TotalSize", lit "File_BlockSize",
    lit "File_#Blocks", lit "File_#HardLinks", lit "File_Mode", lit "File_User ID",
    lit "File_Group ID", lit "File_Device ID", lit "File_RootDev ID", lit "File_MD5"].Nodup
  decide +kernel

/-- The attributes of a path, behind its number and its name. -/
theorem addLine_lines {a : FileAttributes} (hmd5 : IsNumeral a.md5Attr.2) (r : CtxFileReader)
    {id : Int} (hid : 0 ≤ id) (path : List Char) :
    ∃ d : Dict (List Char) (List Char), d.items = readAttrs a ∧
      (a.lines.map fun l => l ++ ['\n']).foldlM CtxFileReader.addLine
          { r with entry := some ⟨Dict.empty, id, path⟩ } =
        if path = [] then none
        else some { r with
          hasErrMsg := r.hasErrMsg || decide (lit "error" <:+: a.dName)
          entry := none
          entries := r.entries ++ [⟨d, id, path⟩] } := by
  have hlines : a.lines.map (fun l => l ++ ['\n']) =
      (attrLine 11 (lit "Dir_Name", a.dName) ++ ['\n']) ::
        ((a.dirAttrs.tail.map fun x => attrLine 11 x ++ ['\n']) ++
          ((a.statAttrs.map fun x => attrLine 15 x ++ ['\n']) ++
            [attrLine 9 a.md5Attr ++ ['\n']])) := by
    simp [FileAttributes.lines, FileAttributes.dirAttrs]
  -- The name may be missing; the other keys are fresh either way.
  obtain ⟨d₀, hd₀, hname⟩ : ∃ d₀ : Dict (List Char) (List Char),
      d₀.items = (if lit "error" <:+: a.dName then [] else [(lit "Dir_Name", readValue a.dName)]) ∧
      CtxFileReader.addLine { r with entry := some ⟨Dict.empty, id, path⟩ }
          (attrLine 11 (lit "Dir_Name", a.dName) ++ ['\n']) =
        some { r with
          hasErrMsg := r.hasErrMsg || decide (lit "error" <:+: a.dName)
          entry := some ⟨d₀, id, path⟩ } := by
    rw [addLine_name r ⟨Dict.empty, id, path⟩ rfl]
    by_cases herror : lit "error" <:+: a.dName
    · refine ⟨Dict.empty, ?_, ?_⟩
      · rw [if_pos herror]
        rfl
      · rw [if_pos herror, decide_eq_true herror, Bool.or_true]
    · refine ⟨Dict.empty.set (lit "Dir_Name") (readValue a.dName), ?_, ?_⟩
      · rw [if_neg herror]
        rfl
      · rw [if_neg herror, decide_eq_false herror, Bool.or_false]
  have hkeys : (d₀.keys ++ (a.attrs.tail.map Prod.fst)).Nodup := by
    have hall := keys_attrs a
    have hsub : (d₀.keys ++ a.attrs.tail.map Prod.fst).Sublist (a.attrs.map Prod.fst) := by
      rw [Dict.keys, hd₀]
      split_ifs
      · exact List.sublist_cons_self _ _
      · exact List.Sublist.refl _
    exact hall.sublist hsub
  have htail : a.attrs.tail = a.dirAttrs.tail ++ (a.statAttrs ++ [a.md5Attr]) := by
    simp [FileAttributes.attrs, FileAttributes.dirAttrs]
  rw [htail, List.map_append, List.map_append] at hkeys
  obtain ⟨d₁, hd₁, hdir⟩ := addLine_attrs (show 8 ≤ 11 by decide) (fun x hx => plainAttr_dir hx)
    { r with hasErrMsg := r.hasErrMsg || decide (lit "error" <:+: a.dName) } ⟨d₀, id, path⟩
    (hkeys.sublist ((List.Sublist.refl _).append (List.sublist_append_left _ _)))
  have hkeys₁ : (d₁.keys ++ (a.statAttrs.map Prod.fst ++ [lit "File_MD5"])).Nodup := by
    rw [Dict.keys, hd₁, List.map_append, List.append_assoc]
    exact hkeys
  obtain ⟨d₂, hd₂, hstat⟩ := addLine_attrs (show 8 ≤ 15 by decide) (fun x hx => plainAttr_stat hx)
    { r with hasErrMsg := r.hasErrMsg || decide (lit "error" <:+: a.dName) } ⟨d₁, id, path⟩
    (hkeys₁.sublist ((List.Sublist.refl _).append (List.sublist_append_left _ _)))
  have hfresh : lit "File_MD5" ∉ d₂.keys := by
    have hnodup : (d₂.keys ++ [lit "File_MD5"]).Nodup := by
      rw [Dict.keys, hd₂, List.map_append, List.append_assoc]
      exact hkeys₁
    rw [List.nodup_append] at hnodup
    exact fun hmem => hnodup.2.2 _ hmem _ (List.mem_singleton_self _) rfl
  refine ⟨d₂.set (lit "File_MD5") a.md5Attr.2, ?_, ?_⟩
  · rw [Dict.items_set_of_notMem hfresh, hd₂, hd₁, hd₀, readAttrs, htail]
    simp [FileAttributes.md5Attr]
  · rw [hlines, List.foldlM_cons, hname]
    show List.foldlM CtxFileReader.addLine _ _ = _
    rw [List.foldlM_append, hdir]
    show List.foldlM CtxFileReader.addLine _ _ = _
    rw [List.foldlM_append, hstat]
    show List.foldlM CtxFileReader.addLine _ _ = _
    rw [List.foldlM_cons, addLine_md5 hmd5 _ ⟨d₂, id, path⟩ hfresh hid]
    split_ifs <;> rfl

/-- The block of a path. -/
theorem addLine_block {x : List Char × FileAttributes} (hmd5 : IsNumeral x.2.md5Attr.2)
    {r : CtxFileReader} (hr : r.entry = none) (num : Nat) :
    ∃ d : Dict (List Char) (List Char), d.items = readAttrs x.2 ∧
      ((blockLines num x).map fun l => l ++ ['\n']).foldlM CtxFileReader.addLine r =
        if lit "error" <:+: x.1 ∨ readPath x.1 = [] then none
        else some { r with
          hasErrMsg := r.hasErrMsg || decide (lit "error" <:+: x.2.dName)
          entries := r.entries ++ [⟨d, num, readPath x.1⟩] } := by
  have hlines : (blockLines num x).map (fun l => l ++ ['\n']) =
      (lit "Content_ID: " ++ padLeft 5 '0' (decimal num) ++ ['\n']) ::
        (lit "Path : " ++ x.1 ++ ['\n']) :: ((x.2.lines.map fun l => l ++ ['\n']) ++ [['\n']]) := by
    simp [blockLines, pathLines]
  have hnum : (0 : Int) ≤ num := Int.natCast_nonneg num
  rw [hlines, List.foldlM_cons, addLine_id hr]
  show ∃ d : Dict (List Char) (List Char), d.items = readAttrs x.2 ∧
    List.foldlM CtxFileReader.addLine _ _ = _
  rw [List.foldlM_cons, addLine_path rfl]
  by_cases herror : lit "error" <:+: x.1
  · -- Without its path the entry is refused.
    obtain ⟨d, hd, hfold⟩ := addLine_lines hmd5 { r with hasErrMsg := true } hnum []
    refine ⟨d, hd, ?_⟩
    rw [if_pos herror, if_pos (Or.inl herror)]
    show List.foldlM CtxFileReader.addLine _ _ = _
    rw [List.foldlM_append]
    exact (congrArg (Option.bind · _) hfold).trans rfl
  · obtain ⟨d, hd, hfold⟩ := addLine_lines hmd5 r hnum (readPath x.1)
    refine ⟨d, hd, ?_⟩
    rw [if_neg herror]
    show List.foldlM CtxFileReader.addLine _ _ = _
    rw [List.foldlM_append]
    refine (congrArg (Option.bind · _) hfold).trans ?_
    by_cases hpath : readPath x.1 = []
    · rw [if_pos hpath, if_pos (Or.inr hpath)]
      rfl
    · rw [if_neg hpath, if_neg (not_or.mpr ⟨herror, hpath⟩)]
      simp only [Option.bind_some, List.foldlM_cons, List.foldlM_nil, addLine_blank, hr]
      rfl

/-! ## The whole dump -/

/-- The lines of the blocks. -/
def dumpLines : Nat → List (List Char × FileAttributes) → List (List Char)
  | _, [] => []
  | num, x :: rest => blockLines (num + 1) x ++ dumpLines (num + 1) rest

theorem endLines_append (ls ms : List (List Char)) :
    endLines (ls ++ ms) = endLines ls ++ endLines ms := List.flatMap_append

theorem blocks_eq {xs : List (List Char × FileAttributes)} (h : ∀ x ∈ xs, x.2.errMsg = [])
    (num : Nat) : blocks num xs = endLines (dumpLines num xs) := by
  induction xs generalizing num with
  | nil => rfl
  | cons x rest ih =>
    have hx := h x List.mem_cons_self
    rw [blocks, dumpLines, endLines_append, ih fun y hy => h y (List.mem_cons_of_mem _ hy)]
    simp [blockLines, FileAttributes.toString, hx, endLines]

theorem toStr_eq {c : DiskContents} (h : c.NoError) :
    c.toStr = endLines ((lit "#### " ++ c.desc) :: dumpLines 0 c.contents) := by
  rw [DiskContents.toStr, h.1, if_neg (by decide), List.append_nil, blocks_eq h.2,
    ← endLines_append, List.singleton_append]

theorem newline_notMem_attrLine {width : Nat} {x : List Char × List Char} (hkey : '\n' ∉ x.1)
    (hval : '\n' ∉ x.2) : '\n' ∉ attrLine width x := by
  have hlit : '\n' ∉ lit ": " := by decide
  rw [attrLine, padRight, List.mem_append, List.mem_append, List.mem_append]
  rintro ((h | h) | h | h)
  · exact hkey h
  · exact absurd (List.eq_of_mem_replicate h) (by decide)
  · exact hlit h
  · exact hval h

theorem newline_notMem_key {a : FileAttributes} {x : List Char × List Char} (hx : x ∈ a.attrs) :
    '\n' ∉ x.1 := by
  have hkeys : ∀ key ∈ a.attrs.map Prod.fst, '\n' ∉ key := by
    show ∀ key ∈ [lit "Dir_Name", lit "Dir_Inode", lit "Dir_Offset", lit "Dir_Length",
      lit "Dir_Type", lit "File_Inode", lit "File_TotalSize", lit "File_BlockSize",
      lit "File_#Blocks", lit "File_#HardLinks", lit "File_Mode", lit "File_User ID",
      lit "File_Group ID", lit "File_Device ID", lit "File_RootDev ID", lit "File_MD5"], _
    decide +kernel
  exact hkeys x.1 (List.mem_map_of_mem hx)

theorem isNumeral_md5 {c : DiskContents} (h : c.Legal) {x : List Char × FileAttributes}
    (hx : x ∈ c.contents) : IsNumeral x.2.md5Attr.2 :=
  isNumeral_hex (h.md5sum x hx)

theorem newline_notMem_lines {c : DiskContents} (h : c.Legal) {x : List Char × FileAttributes}
    (hx : x ∈ c.contents) : ∀ l ∈ x.2.lines, '\n' ∉ l := by
  have hname := h.name x hx
  have hmd5 := isNumeral_md5 h hx
  have hattr : ∀ {width : Nat} {y : List Char × List Char}, y ∈ x.2.attrs → '\n' ∉ y.2 →
      '\n' ∉ attrLine width y :=
    fun hy hval => newline_notMem_attrLine (newline_notMem_key hy) hval
  have hnum : ∀ {v : List Char}, IsNumeral v → '\n' ∉ v := fun hv hmem => (hv.plain hmem).2.2.1 rfl
  intro l hl
  rw [FileAttributes.lines, List.mem_append, List.mem_append, List.mem_map, List.mem_map,
    List.mem_singleton] at hl
  rcases hl with (⟨y, hy, rfl⟩ | ⟨y, hy, rfl⟩) | rfl
  · refine hattr (List.mem_append_left _ (List.mem_append_left _ hy)) ?_
    rcases List.mem_cons.mp hy with rfl | hy
    · exact hname
    · exact hnum (isNumeral_dir hy)
  · exact hattr (List.mem_append_left _ (List.mem_append_right _ hy)) (hnum (isNumeral_stat hy))
  · exact hattr (List.mem_append_right _ (List.mem_singleton_self _)) (hnum hmd5)

theorem newline_notMem_dumpLines {c : DiskContents} (h : c.Legal)
    {xs : List (List Char × FileAttributes)} (hxs : ∀ x ∈ xs, x ∈ c.contents) (num : Nat) :
    ∀ l ∈ dumpLines num xs, '\n' ∉ l := by
  induction xs generalizing num with
  | nil => exact fun l hl => absurd hl List.not_mem_nil
  | cons x rest ih =>
    have hx := hxs x List.mem_cons_self
    have hid : '\n' ∉ lit "Content_ID: " := by decide
    have hpath : '\n' ∉ lit "Path : " := by decide
    intro l hl
    rw [dumpLines, blockLines, pathLines, List.mem_append, List.mem_append, List.mem_append] at hl
    rcases hl with ((hl | hl) | hl) | hl
    · rcases List.mem_cons.mp hl with rfl | hl
      · rw [List.mem_append, padLeft, List.mem_append, not_or, not_or]
        refine ⟨hid, fun hmem => ?_, fun hmem => ?_⟩
        · exact absurd (List.eq_of_mem_replicate hmem) (by decide)
        · exact ((isNumeral_decimal _).plain hmem).2.2.1 rfl
      · rw [List.mem_singleton.mp hl, List.mem_append, not_or]
        exact ⟨hpath, (h.path x hx).2⟩
    · exact newline_notMem_lines h hx l hl
    · rw [List.mem_singleton.mp hl]
      exact List.not_mem_nil
    · exact ih (fun y hy => hxs y (List.mem_cons_of_mem _ hy)) (num + 1) l hl

/-- The entries of the paths. -/
theorem addLine_dumpLines {xs : List (List Char × FileAttributes)}
    (hmd5 : ∀ x ∈ xs, IsNumeral x.2.md5Attr.2) {r : CtxFileReader} (hr : r.entry = none) (num : Nat)
    (hpaths : ∀ x ∈ xs, ¬ (lit "error" <:+: x.1 ∨ readPath x.1 = [])) :
    ∃ es : List DiskEntryAttrs,
      es.map (fun e => (e.path, e.vars.items)) = xs.map (fun x => (readPath x.1, readAttrs x.2)) ∧
      ((dumpLines num xs).map fun l => l ++ ['\n']).foldlM CtxFileReader.addLine r =
        some { r with
          hasErrMsg := r.hasErrMsg || xs.any fun x => decide (lit "error" <:+: x.2.dName)
          entries := r.entries ++ es } := by
  induction xs generalizing r num with
  | nil => exact ⟨[], rfl, by simp [dumpLines]⟩
  | cons x rest ih =>
    obtain ⟨d, hd, hblock⟩ := addLine_block (hmd5 x List.mem_cons_self) hr (num + 1)
    rw [if_neg (hpaths x List.mem_cons_self)] at hblock
    obtain ⟨es, hes, hfold⟩ := ih (fun y hy => hmd5 y (List.mem_cons_of_mem _ hy))
      (r := { r with
        hasErrMsg := r.hasErrMsg || decide (lit "error" <:+: x.2.dName)
        entries := r.entries ++ [⟨d, (num + 1 : Nat), readPath x.1⟩] })
      hr (num + 1) fun y hy => hpaths y (List.mem_cons_of_mem _ hy)
    refine ⟨⟨d, (num + 1 : Nat), readPath x.1⟩ :: es, ?_, ?_⟩
    · rw [List.map_cons, List.map_cons, hes, hd]
    · rw [dumpLines, List.map_append, List.foldlM_append, hblock]
      refine hfold.trans ?_
      rw [List.any_cons, Bool.or_assoc, List.append_assoc, List.singleton_append]

/-- A path that cannot be read ends the program. -/
theorem addLine_dumpLines_none {xs : List (List Char × FileAttributes)}
    (hmd5 : ∀ x ∈ xs, IsNumeral x.2.md5Attr.2) {r : CtxFileReader} (hr : r.entry = none) (num : Nat)
    {x : List Char × FileAttributes} (hx : x ∈ xs)
    (hpath : lit "error" <:+: x.1 ∨ readPath x.1 = []) :
    ((dumpLines num xs).map fun l => l ++ ['\n']).foldlM CtxFileReader.addLine r = none := by
  induction xs generalizing r num with
  | nil => exact absurd hx List.not_mem_nil
  | cons y rest ih =>
    obtain ⟨d, -, hblock⟩ := addLine_block (hmd5 y List.mem_cons_self) hr (num + 1)
    rw [dumpLines, List.map_append, List.foldlM_append, hblock]
    by_cases hy : lit "error" <:+: y.1 ∨ readPath y.1 = []
    · rw [if_pos hy]
      rfl
    · rw [if_neg hy]
      rcases List.mem_cons.mp hx with rfl | hx
      · exact absurd hpath hy
      · refine ih (fun z hz => hmd5 z (List.mem_cons_of_mem _ hz)) (r := { r with
          hasErrMsg := r.hasErrMsg || decide (lit "error" <:+: y.2.dName)
          entries := r.entries ++ [⟨d, (num + 1 : Nat), readPath y.1⟩] }) hr (num + 1) hx

/-! ## What is read back -/

theorem addLine_comment (c : DiskContents) :
    CtxFileReader.new.addLine (lit "#### " ++ c.desc ++ ['\n']) =
      (FileSystemOp.deduceFromOracleComment {}
        ((strip (lit "#### " ++ c.desc ++ ['\n'])).drop 5)).map fun op =>
          { CtxFileReader.new with
            opComment := some ((strip (lit "#### " ++ c.desc ++ ['\n'])).drop 5), fsOp := op } := by
  have hpre : (lit "#### ").isPrefixOf (lit "#### " ++ c.desc ++ ['\n']) = true := by
    rw [List.isPrefixOf_iff_prefix, List.append_assoc]
    exact List.prefix_append _ _
  rw [CtxFileReader.addLine, if_pos hpre]
  show (Option.bind (FileSystemOp.deduceFromOracleComment {} _) _) = _
  cases FileSystemOp.deduceFromOracleComment {} ((strip (lit "#### " ++ c.desc ++ ['\n'])).drop 5)
  · rfl
  · rfl

/-- A dump that is read: its comment, the blocks and a blank line. -/
theorem read_toStr {c : DiskContents} (hlegal : c.Legal) (hno : c.NoError) :
    CtxFileReader.read c.toStr =
      (CtxFileReader.new.addLine (lit "#### " ++ c.desc ++ ['\n'])).bind fun r =>
        ((dumpLines 0 c.contents).map fun l => l ++ ['\n']).foldlM CtxFileReader.addLine r := by
  have hmark : '\n' ∉ lit "#### " := by decide
  have hnewline : ∀ l ∈ (lit "#### " ++ c.desc) :: dumpLines 0 c.contents, '\n' ∉ l := by
    intro l hl
    rcases List.mem_cons.mp hl with rfl | hl
    · rw [List.mem_append, not_or]
      exact ⟨hmark, hlegal.desc⟩
    · exact newline_notMem_dumpLines hlegal (fun x hx => hx) 0 l hl
  rw [CtxFileReader.read, toStr_eq hno, endLines, splitOn_lines hnewline, List.cons_append,
    List.map_cons, List.foldlM_cons, List.map_append]
  refine Option.bind_congr fun r _ => ?_
  rw [List.foldlM_append]
  show Option.bind _ (fun r => List.foldlM CtxFileReader.addLine r [['\n']]) = _
  have hblank : (fun r => List.foldlM CtxFileReader.addLine r [['\n']]) = some := by
    funext r
    rw [List.foldlM_cons, addLine_blank]
    rfl
  rw [hblank, Option.bind_fun_some]

/-- A dump that is read has its comment and its paths read. -/
theorem read_eq_some_iff {c : DiskContents} (hlegal : c.Legal) (hno : c.NoError) :
    (∃ r, CtxFileReader.read c.toStr = some r) ↔ c.CommentReads ∧
      ∀ x ∈ c.contents, ¬ (lit "error" <:+: x.1 ∨ readPath x.1 = []) := by
  have hmd5 : ∀ x ∈ c.contents, IsNumeral x.2.md5Attr.2 := fun x hx => isNumeral_md5 hlegal hx
  rw [read_toStr hlegal hno, addLine_comment, DiskContents.CommentReads]
  cases FileSystemOp.deduceFromOracleComment {} ((strip (lit "#### " ++ c.desc ++ ['\n'])).drop 5)
    with
  | none =>
    constructor
    · rintro ⟨r, hr⟩
      cases hr
    · rintro ⟨h, -⟩
      cases h
  | some op =>
    rw [Option.map_some, Option.bind_some]
    constructor
    · rintro ⟨r, hr⟩
      refine ⟨rfl, fun x hx hpath => ?_⟩
      rw [addLine_dumpLines_none hmd5 rfl 0 hx hpath] at hr
      cases hr
    · rintro ⟨-, hpaths⟩
      have hnew : CtxFileReader.new.entry = none := rfl
      obtain ⟨es, -, hfold⟩ := addLine_dumpLines (r := { CtxFileReader.new with
        opComment := some ((strip (lit "#### " ++ c.desc ++ ['\n'])).drop 5), fsOp := op }) hmd5 hnew
        0 hpaths
      exact ⟨_, hfold⟩

/-- What a dump is read as. -/
theorem of_read {c : DiskContents} (hlegal : c.Legal) (hno : c.NoError) {r : CtxFileReader}
    (hr : CtxFileReader.read c.toStr = some r) :
    r.hasErrMsg = c.contents.any (fun x => decide (lit "error" <:+: x.2.dName)) ∧
      r.entries.map (fun e => (e.path, e.vars.items)) =
        c.contents.map fun x => (readPath x.1, readAttrs x.2) := by
  have hmd5 : ∀ x ∈ c.contents, IsNumeral x.2.md5Attr.2 := fun x hx => isNumeral_md5 hlegal hx
  obtain ⟨-, hpaths⟩ := (read_eq_some_iff hlegal hno).mp ⟨r, hr⟩
  rw [read_toStr hlegal hno, addLine_comment] at hr
  obtain ⟨s, hs, hr⟩ := Option.bind_eq_some_iff.mp hr
  obtain ⟨op, -, rfl⟩ := Option.map_eq_some_iff.mp hs
  have hnew : CtxFileReader.new.entry = none := rfl
  obtain ⟨es, hes, hfold⟩ := addLine_dumpLines (r := { CtxFileReader.new with
    opComment := some ((strip (lit "#### " ++ c.desc ++ ['\n'])).drop 5), fsOp := op }) hmd5 hnew
    0 hpaths
  rw [hfold] at hr
  obtain rfl := Option.some.inj hr
  exact ⟨Bool.false_or _, hes⟩

theorem readPath_eq_self {path : List Char} :
    readPath path = path ↔ ':' ∉ path ∧ strip path = path := by
  constructor
  · intro h
    have hcolon : ':' ∉ path := by
      intro hmem
      rw [← h] at hmem
      have := List.mem_takeWhile_imp (mem_of_mem_strip hmem)
      simp at this
    rw [readPath, takeWhile_of_notMem hcolon] at h
    exact ⟨hcolon, h⟩
  · rintro ⟨hcolon, h⟩
    rw [readPath, takeWhile_of_notMem hcolon, h]

theorem readValue_eq_self {value : List Char} :
    readValue value = value ↔ ':' ∉ value ∧ squeeze value = value := by
  constructor
  · intro h
    have hcolon : ':' ∉ value := by
      intro hmem
      rw [← h] at hmem
      rcases mem_squeeze hmem with heq | hmem
      · exact absurd heq (by decide)
      · have := List.mem_takeWhile_imp hmem
        simp at this
    rw [readValue, takeWhile_of_notMem hcolon] at h
    exact ⟨hcolon, h⟩
  · rintro ⟨hcolon, h⟩
    rw [readValue, takeWhile_of_notMem hcolon, h]

theorem readAttrs_eq_iff (a : FileAttributes) :
    readAttrs a = a.attrs ↔ ¬ lit "error" <:+: a.dName ∧ readValue a.dName = a.dName := by
  have hattrs : a.attrs = (lit "Dir_Name", a.dName) :: a.attrs.tail := rfl
  constructor
  · intro h
    by_cases herror : lit "error" <:+: a.dName
    · rw [readAttrs, if_pos herror, List.nil_append] at h
      have hlen := congrArg List.length h
      rw [List.length_tail, hattrs, List.length_cons] at hlen
      omega
    · rw [readAttrs, if_neg herror, List.singleton_append] at h
      rw [hattrs] at h
      exact ⟨herror, congrArg Prod.snd (List.cons.inj h).1⟩
  · rintro ⟨herror, h⟩
    rw [readAttrs, if_neg herror, h, List.singleton_append, ← hattrs]

/-- The plain names are those that are read as they are. -/
theorem plainNames_iff (x : List Char × FileAttributes) :
    PlainNames x ↔ ¬ lit "error" <:+: x.1 ∧ readPath x.1 = x.1 ∧ readAttrs x.2 = x.2.attrs := by
  rw [readPath_eq_self, readAttrs_eq_iff, readValue_eq_self]
  constructor
  · rintro ⟨⟨hc, he, hs⟩, hc', he', hs'⟩
    exact ⟨he, ⟨hc, hs⟩, he', hc', hs'⟩
  · rintro ⟨he, ⟨hc, hs⟩, he', hc', hs'⟩
    exact ⟨⟨hc, he, hs⟩, hc', he', hs'⟩

theorem nodup_paths (c : DiskContents) : (c.contents.map Prod.fst).Nodup := by
  rw [List.Nodup, List.pairwise_map]
  refine c.sorted.imp fun {x y} hlt heq => ?_
  rw [heq] at hlt
  exact List.lt_irrefl _ hlt

/-- The map of a dump that was read back. -/
theorem entriesPathMap_items {c : DiskContents} {r : CtxFileReader}
    (h : r.entries.map (fun e => (e.path, e.vars.items)) = c.contents.map (fun x => (x.1, x.2.attrs))) :
    r.entriesPathMap.items = r.entries.map fun e => (e.path, e) := by
  have hpaths : r.entries.map (fun e => e.path) = c.contents.map Prod.fst := by
    have := congrArg (List.map Prod.fst) h
    simpa [List.map_map, Function.comp_def] using this
  have hnodup : (r.entries.map fun e => e.path).Nodup := hpaths ▸ nodup_paths c
  have hitems := Dict.items_foldl_set (fun e : DiskEntryAttrs => e.path) id (fun _ => true) hnodup
  simpa [CtxFileReader.entriesPathMap] using hitems

theorem get?_entriesPathMap {c : DiskContents} {r : CtxFileReader}
    (h : r.entries.map (fun e => (e.path, e.vars.items)) = c.contents.map (fun x => (x.1, x.2.attrs)))
    {x : List Char × FileAttributes} (hx : x ∈ c.contents) :
    ∃ e, r.entriesPathMap.get? x.1 = some e ∧ e.vars.items = x.2.attrs := by
  have hmem : (x.1, x.2.attrs) ∈ r.entries.map fun e => (e.path, e.vars.items) := by
    rw [h]
    exact List.mem_map_of_mem hx
  obtain ⟨e, he, heq⟩ := List.mem_map.mp hmem
  obtain ⟨hpath, hvars⟩ := Prod.mk.inj heq
  refine ⟨e, Dict.get?_eq_some.mpr ?_, hvars⟩
  rw [entriesPathMap_items h, ← hpath]
  exact List.mem_map_of_mem he

/-- A dump is read back exactly when its names are plain and its comment is complete. -/
theorem readBack_iff {c : DiskContents} (hlegal : c.Legal) (hno : c.NoError) :
    (∃ r, CtxFileReader.read c.toStr = some r ∧ ReadBack c r) ↔
      c.CommentReads ∧ ∀ x ∈ c.contents, PlainNames x := by
  constructor
  · rintro ⟨r, hr, -, hentries, -⟩
    obtain ⟨hcomment, hpaths⟩ := (read_eq_some_iff hlegal hno).mp ⟨r, hr⟩
    rw [(of_read hlegal hno hr).2, List.map_inj_left] at hentries
    refine ⟨hcomment, fun x hx => (plainNames_iff x).mpr ⟨?_, ?_⟩⟩
    · exact fun herror => hpaths x hx (Or.inl herror)
    · exact Prod.mk.inj (hentries x hx)
  · rintro ⟨hcomment, hplain⟩
    have hnames := fun x hx => (plainNames_iff x).mp (hplain x hx)
    have hpaths : ∀ x ∈ c.contents, ¬ (lit "error" <:+: x.1 ∨ readPath x.1 = []) := by
      rintro x hx (herror | hempty)
      · exact (hnames x hx).1 herror
      · rw [(hnames x hx).2.1] at hempty
        exact (hlegal.path x hx).1 hempty
    obtain ⟨r, hr⟩ := (read_eq_some_iff hlegal hno).mpr ⟨hcomment, hpaths⟩
    obtain ⟨herr, hentries⟩ := of_read hlegal hno hr
    have hback : r.entries.map (fun e => (e.path, e.vars.items)) =
        c.contents.map fun x => (x.1, x.2.attrs) := by
      rw [hentries, List.map_inj_left]
      intro x hx
      rw [(hnames x hx).2.1, (hnames x hx).2.2]
    refine ⟨r, hr, ?_, hback, fun x hx => get?_entriesPathMap hback hx⟩
    rw [herr, List.any_eq_false]
    exact fun x hx => by simpa using ((readAttrs_eq_iff x.2).mp (hnames x hx).2.2).1

end DiskContent
end Silhouette
