import Silhouette.Layout.StructInfo
import Mathlib.Algebra.Order.BigOperators.Group.List

/-!
# Which structs are read back

All of a file but the last struct.  That one stays open when the file ends, whatever its names are:
the commas of the last line belong to no struct of the dictionary.
-/

namespace Silhouette
namespace Layout

open Lib Lib.Text

/-! ## Counting commas

The commas of a file are those of its struct lines and member lines.  A struct in the dictionary
accounts for its own, and the last line of the file is in none of them. -/

/-- The commas of the lines a struct was read from. -/
def StructEntry.weight (st : StructEntry) : Nat :=
  (if st.header.isSome then 2 else 0) + 7 * st.children.length

def dictWeight (d : Dict String StructEntry) : Nat := (d.values.map StructEntry.weight).sum

def StructInfoReader.weight (r : StructInfoReader) : Nat :=
  dictWeight r.structDict + (r.structInfo.map StructEntry.weight).getD 0

theorem weight_addLine {st st' : StructEntry} {line : List Char} (h : st.addLine line = some st') :
    st'.weight ≤ st.weight + line.count ',' := by
  rw [StructEntry.addLine] at h
  split_ifs at h with h2 h7
  · cases hh : st.header with
    | some x =>
      rw [StructEntry.addStructHeader, hh] at h
      cases h
    | none =>
      have hc : st'.children = st.children ∧ st'.header.isSome := by
        simp only [StructEntry.addStructHeader, hh, Option.bind_eq_bind, Option.bind_eq_some_iff,
          Option.pure_def, Option.some.injEq] at h
        obtain ⟨_, -, _, -, _, -, rfl⟩ := h
        exact ⟨rfl, rfl⟩
      rw [StructEntry.weight, StructEntry.weight, hc.1, hc.2, hh, h2]
      simp only [Option.isSome_none, if_true, Bool.false_eq_true, if_false]
      omega
  · cases hh : st.header with
    | none =>
      rw [StructEntry.addMemberVar, hh] at h
      cases h
    | some x =>
      rw [StructEntry.addMemberVar, hh] at h
      obtain ⟨child, -, rfl⟩ := Option.map_eq_some_iff.mp h
      simp only [StructEntry.weight, hh, List.length_append, List.length_singleton, h7]
      omega

theorem weight_close {r : StructInfoReader} {d : Dict String StructEntry} (h : r.close = some d) :
    dictWeight d = r.weight := by
  unfold StructInfoReader.close at h
  cases hs : r.structInfo with
  | none =>
    rw [hs] at h
    rw [StructInfoReader.weight, hs, ← Option.some.inj h]
    rfl
  | some st =>
    rw [hs] at h
    cases hh : st.header with
    | none => simp [StructEntry.finalize, hh] at h
    | some x =>
      simp only [StructEntry.finalize, hh, Option.map_some, Option.bind_eq_bind,
        Option.bind_some] at h
      split_ifs at h with hmem
      rw [← Option.some.inj h, StructInfoReader.weight, hs, dictWeight, dictWeight, Dict.values,
        Dict.items_set_of_notMem hmem, List.map_append, List.map_append, List.sum_append]
      simp [StructEntry.weight, hh, Dict.values, (sortBy_perm _ _).length_eq]

/-- A line adds no more than its commas, and the dictionary holds what was there before it. -/
theorem weight_readLine {r r' : StructInfoReader} {line : List Char} (h : r.addLine line = some r') :
    r'.weight ≤ r.weight + line.count ',' ∧ dictWeight r'.structDict ≤ r.weight := by
  have hstrip : (strip line).count ',' ≤ line.count ',' := by
    refine List.Sublist.count_le _ ?_
    exact (List.rdropWhile_prefix _ _).sublist.trans (List.dropWhile_sublist _)
  have hdict : dictWeight r.structDict ≤ r.weight := Nat.le_add_right _ _
  unfold StructInfoReader.addLine at h
  simp only at h
  split_ifs at h with hnil hmark
  · cases h
    exact ⟨Nat.le_add_right _ _, hdict⟩
  · obtain ⟨d, hd, rfl⟩ := Option.map_eq_some_iff.mp h
    have hw := weight_close hd
    refine ⟨?_, Nat.le_of_eq hw⟩
    show dictWeight d + 0 ≤ _
    omega
  · cases hs : r.structInfo with
    | none =>
      rw [hs] at h
      cases h
    | some st =>
      rw [hs] at h
      obtain ⟨st', hst', rfl⟩ := Option.map_eq_some_iff.mp h
      have hw := weight_addLine hst'
      refine ⟨?_, hdict⟩
      rw [StructInfoReader.weight, StructInfoReader.weight, hs]
      simp only [Option.map_some, Option.getD_some]
      omega

theorem weight_readLines {lines : List (List Char)} {r r' : StructInfoReader}
    (h : lines.foldlM StructInfoReader.addLine r = some r') :
    r'.weight ≤ r.weight + (lines.map (List.count ',')).sum := by
  induction lines generalizing r with
  | nil =>
    cases h
    exact Nat.le_add_right _ _
  | cons line rest ih =>
    rw [List.foldlM_cons] at h
    obtain ⟨r₁, h₁, h₂⟩ := Option.bind_eq_some_iff.mp h
    have hline := (weight_readLine h₁).1
    have hrest := ih h₂
    rw [List.map_cons, List.sum_cons]
    omega

/-- The commas of the last line of a file are not in the dictionary. -/
theorem dictWeight_readStructs {a b : List Char} (hb : '\n' ∉ b) (hr : '\r' ∉ b)
    {d : Dict String StructEntry}
    (h : StructInfoReader.readStructs (a ++ (',' :: b ++ ['\n'])) = some d) :
    dictWeight d ≤ a.count ',' := by
  have hplain : '\r' ∉ ',' :: b ++ ['\n'] := by
    simp only [List.cons_append, List.mem_cons, List.mem_append]
    rintro (h | h | h | h)
    · exact absurd h (by decide)
    · exact hr h
    · exact absurd h (by decide)
    · exact absurd h List.not_mem_nil
  have hsep : '\n' ∉ ',' :: b := by
    rw [List.mem_cons, not_or]
    exact ⟨by decide, hb⟩
  obtain ⟨init, last, hsplit, hlines⟩ :=
    splitOn_append_of_notMem (d := '\n') hsep (universalNewlines a)
  have hread : readLines (a ++ (',' :: b ++ ['\n'])) = init ++ [last ++ (',' :: b), []] := by
    rw [readLines, universalNewlines_append (by simp), universalNewlines_of_plain hplain,
      ← List.append_assoc, List.splitOn,
      List.splitOnP_append_cons (p := fun c => c == '\n') _ _ rfl, ← List.splitOn, hlines,
      List.append_assoc]
    rfl
  rw [StructInfoReader.readStructs, hread, List.foldlM_append] at h
  obtain ⟨r, hr, rfl⟩ := Option.map_eq_some_iff.mp h
  obtain ⟨r₁, hr₁, hr⟩ := Option.bind_eq_some_iff.mp hr
  rw [List.foldlM_cons] at hr
  obtain ⟨r₂, hr₂, hr⟩ := Option.bind_eq_some_iff.mp hr
  -- The empty line behind the last end changes nothing.
  have hend : r = r₂ := (Option.some.inj hr).symm
  have hcount := sum_count_splitOn (c := ',') (d := '\n') (by decide) (universalNewlines a)
  rw [hsplit, List.map_append, List.sum_append,
    count_universalNewlines (by decide) (by decide)] at hcount
  have hinit := weight_readLines hr₁
  have hzero : StructInfoReader.weight ⟨Dict.empty, none⟩ = 0 := rfl
  have hlast := (weight_readLine hr₂).2
  rw [hend]
  omega

theorem count_decimal (n : Nat) : (decimal n).count ',' = 0 := by
  rw [List.count_eq_zero]
  intro hmem
  obtain ⟨d, hd, heq⟩ := decimal_plain n ',' hmem
  exact (digitChar_plain hd).2.2.2.2.1 heq.symm

theorem count_flagText (b : Bool) : (flagText b).count ',' = 0 := by
  cases b <;> rfl

theorem count_headerLine {s : StructInfo} (h : s.CommaFree) : s.headerLine.count ',' = 2 := by
  simp [StructInfo.headerLine, count_decimal, List.count_eq_zero_of_not_mem h.1]

theorem count_memberLine {s : StructInfo} (h : s.CommaFree) {m : StructMemberInfo}
    (hm : m ∈ s.members) : m.line.count ',' = 7 := by
  obtain ⟨hty, hname⟩ := h.2 m hm
  simp [StructMemberInfo.line, count_decimal, count_flagText, List.count_eq_zero_of_not_mem hty,
    List.count_eq_zero_of_not_mem hname]

theorem count_marker : marker.count ',' = 0 := by decide

theorem count_serialize {s : StructInfo} (h : s.CommaFree) :
    s.serialize.count ',' = 2 + 7 * s.members.length := by
  have hmembers : ∀ l : List StructMemberInfo, (∀ m ∈ l, m.line.count ',' = 7) →
      ((l.map StructMemberInfo.line).flatMap fun l => l ++ ['\n']).count ',' = 7 * l.length := by
    intro l hl
    induction l with
    | nil => rfl
    | cons m rest ih =>
      rw [List.map_cons, List.flatMap_cons, List.count_append, List.count_append,
        hl m List.mem_cons_self, ih fun n hn => hl n (List.mem_cons_of_mem _ hn),
        List.length_cons]
      show 7 + 0 + _ = _
      omega
  rw [StructInfo.serialize, StructInfo.lines, List.flatMap_cons, List.flatMap_cons,
    List.count_append, List.count_append, List.count_append, List.count_append, count_marker,
    count_headerLine h, hmembers s.members fun m hm => count_memberLine h hm]
  show 0 + 0 + (2 + 0 + _) = _
  omega

/-- A file that is not empty ends in a number behind a comma. -/
theorem serialize_eq (s : StructInfo) :
    ∃ a b, s.serialize = a ++ (',' :: b ++ ['\n']) ∧ '\n' ∉ b ∧ '\r' ∉ b := by
  have hdecimal : ∀ n, '\n' ∉ decimal n ∧ '\r' ∉ decimal n := by
    intro n
    constructor
    · intro hmem
      obtain ⟨d, hd, heq⟩ := decimal_plain n '\n' hmem
      exact (digitChar_plain hd).2.2.2.2.2.2.2.1 heq.symm
    · intro hmem
      obtain ⟨d, hd, heq⟩ := decimal_plain n '\r' hmem
      exact absurd (digitChar_plain hd).2.2.2.1 (by rw [← heq]; decide)
  have hflag : ∀ b, '\n' ∉ flagText b ∧ '\r' ∉ flagText b := by
    intro b
    cases b <;> decide
  rcases List.eq_nil_or_concat s.members with hnil | ⟨init, m, hm⟩
  · refine ⟨marker ++ '\n' :: (s.name.toList ++ ',' :: decimal s.sizeBits),
      decimal s.size, ?_, hdecimal s.size⟩
    rw [StructInfo.serialize, StructInfo.lines, hnil, StructInfo.headerLine]
    simp
  · refine ⟨((marker :: s.headerLine :: init.map StructMemberInfo.line).flatMap fun l => l ++ ['\n']) ++
      (m.tyName.toList ++ (',' :: (m.name.toList ++
        (',' :: (decimal m.sizeBits ++ (',' :: (decimal m.size ++ (',' :: (decimal m.offsetBits ++
          (',' :: (decimal m.offset ++ (',' :: flagText m.isPtr)))))))))))),
      flagText m.isAry, ?_, hflag m.isAry⟩
    rw [StructInfo.serialize, StructInfo.lines, hm]
    simp [StructMemberInfo.line]

/-- Structs found under distinct names account for their commas. -/
theorem sum_weight_le {vec : List StructInfo} {d : Dict String StructEntry}
    (hnames : (vec.map StructInfo.name).Nodup)
    (h : ∀ s ∈ vec, ∃ st, d.get? s.name = some st ∧ SameStruct s st) :
    (vec.map fun s => 2 + 7 * s.members.length).sum ≤ dictWeight d := by
  let weightOf (name : String) : Nat := ((d.get? name).map StructEntry.weight).getD 0
  have hvec : vec.map (fun s => 2 + 7 * s.members.length) = (vec.map StructInfo.name).map weightOf := by
    rw [List.map_map]
    refine List.map_congr_left fun s hs => ?_
    obtain ⟨st, hst, hheader, hmembers⟩ := h s hs
    rw [Function.comp_apply]
    simp only [weightOf, hst, Option.map_some, Option.getD_some, StructEntry.weight, hheader,
      Option.isSome_some, if_true, hmembers.length_eq]
  have hdict : d.values.map StructEntry.weight = d.keys.map weightOf := by
    rw [Dict.values, Dict.keys, List.map_map, List.map_map]
    refine List.map_congr_left fun x hx => ?_
    simp only [Function.comp_apply, weightOf, Dict.get?_eq_some.mpr hx, Option.map_some,
      Option.getD_some]
  have hsub : vec.map StructInfo.name ⊆ d.keys := by
    intro name hname
    obtain ⟨s, hs, rfl⟩ := List.mem_map.mp hname
    obtain ⟨st, hst, -⟩ := h s hs
    exact Dict.mem_keys.mpr ⟨st, hst⟩
  obtain ⟨l, hperm, hl⟩ := List.subperm_of_subset hnames hsub
  rw [hvec, dictWeight, hdict, ← (hperm.map weightOf).sum_nat]
  exact (hl.map weightOf).sum_le_sum fun _ _ => Nat.zero_le _

/-! ## What is read

Names and types as a compiler prints them: no commas, no line ends, no blank in front. -/

/-- A text that can start a line of a record. -/
structure PlainStart (text : List Char) : Prop where
  comma : ',' ∉ text
  newline : '\n' ∉ text ∧ '\r' ∉ text
  start : text.head?.all fun c => !isSpace c
  marker : ¬ marker <+: text

structure StructInfo.Plain (s : StructInfo) : Prop where
  name : PlainStart s.name.toList
  types : ∀ m ∈ s.members, PlainStart m.tyName.toList
  names : ∀ m ∈ s.members, ',' ∉ m.name.toList ∧ '\n' ∉ m.name.toList ∧ '\r' ∉ m.name.toList

/-- A member as it is read.  One without a name gets one. -/
def StructMemberInfo.var (m : StructMemberInfo) (fatherName : String) : StructMemberVar where
  fatherName := fatherName
  typeName := String.ofList (cleanTypeName m.tyName.toList)
  rawTypeName := m.tyName
  varName := if m.name.toList = [] then "anonymous" else m.name
  sizeBits := m.sizeBits
  sizeBytes := m.size
  offsetBits := m.offsetBits
  offsetBytes := m.offset
  isPtr := m.isPtr
  isAry := m.isAry

def StructInfo.entry (s : StructInfo) : StructEntry where
  header := some ⟨s.name, s.sizeBits, s.size⟩
  children := s.members.map fun m => m.var s.name

theorem decimal_notMem (n : Nat) : ',' ∉ decimal n ∧ '\n' ∉ decimal n ∧ '\r' ∉ decimal n := by
  refine ⟨?_, ?_, ?_⟩
  all_goals
    intro hmem
    obtain ⟨d, hd, heq⟩ := decimal_plain n _ hmem
    have hplain := digitChar_plain hd
    rw [← heq] at hplain
    revert hplain
    decide

theorem flagText_notMem (b : Bool) :
    ',' ∉ flagText b ∧ '\n' ∉ flagText b ∧ '\r' ∉ flagText b := by
  cases b <;> decide

theorem readInt_flagText (b : Bool) : readInt (flagText b) = some (if b then 1 else 0) := by
  cases b <;> decide

theorem splitOn_cons_append {w rest : List Char} (h : ',' ∉ w) :
    (w ++ ',' :: rest).splitOn ',' = w :: rest.splitOn ',' := by
  refine List.splitOnP_append_cons_of_forall_mem (p := (· == ',')) (fun c hc => ?_) ',' rfl rest
  exact beq_eq_false_iff_ne.mpr fun heq => h (heq ▸ hc)

theorem splitOn_of_notMem {w : List Char} (h : ',' ∉ w) : w.splitOn ',' = [w] := by
  refine List.splitOnP_eq_singleton fun c hc => ?_
  exact beq_eq_false_iff_ne.mpr fun heq => h (heq ▸ hc)

theorem splitOn_headerLine {s : StructInfo} (h : s.Plain) :
    s.headerLine.splitOn ',' = [s.name.toList, decimal s.sizeBits, decimal s.size] := by
  rw [StructInfo.headerLine, splitOn_cons_append h.name.comma,
    splitOn_cons_append (decimal_notMem _).1, splitOn_of_notMem (decimal_notMem _).1]

theorem splitOn_memberLine {s : StructInfo} (h : s.Plain) {m : StructMemberInfo}
    (hm : m ∈ s.members) :
    m.line.splitOn ',' = [m.tyName.toList, m.name.toList, decimal m.sizeBits, decimal m.size,
      decimal m.offsetBits, decimal m.offset, flagText m.isPtr, flagText m.isAry] := by
  rw [StructMemberInfo.line, splitOn_cons_append (h.types m hm).comma,
    splitOn_cons_append (h.names m hm).1]
  simp only [splitOn_cons_append (decimal_notMem _).1, splitOn_cons_append (flagText_notMem _).1,
    splitOn_of_notMem (flagText_notMem _).1]

theorem StructInfo.Plain.commaFree {s : StructInfo} (h : s.Plain) : s.CommaFree :=
  ⟨h.name.comma, fun m hm => ⟨(h.types m hm).comma, (h.names m hm).1⟩⟩

/-- A line that starts with a plain text and does not end with a blank is read as it is. -/
theorem strip_line {text rest : List Char} (h : PlainStart text) (hne : rest ≠ [])
    (hlast : rest.getLast?.all fun c => !isSpace c) :
    strip (text ++ ',' :: rest) = text ++ ',' :: rest ∧
      ¬ marker.isPrefixOf (text ++ ',' :: rest) = true := by
  constructor
  · have hnone : ∀ c ∈ ([] : List Char), isSpace c = true := fun c hc => absurd hc (by simp)
    have hfirst : (text ++ ',' :: rest).head?.all fun c => !isSpace c := by
      cases hhead : text with
      | nil => rfl
      | cons c cs =>
        have := h.start
        rw [hhead] at this
        exact this
    have hend : (text ++ ',' :: rest).getLast? = rest.getLast? := by
      rw [List.getLast?_append, List.getLast?_cons, List.getLast?_eq_some_getLast hne]
      rfl
    have := strip_append hnone hnone hfirst (by rw [hend]; exact hlast)
    rwa [List.nil_append, List.append_nil] at this
  · intro hpre
    rw [List.isPrefixOf_iff_prefix] at hpre
    refine h.marker ?_
    -- The marker holds no comma, so it ends in front of the first one.
    by_cases hlen : marker.length ≤ text.length
    · exact List.prefix_of_prefix_length_le hpre (List.prefix_append _ _) hlen
    · have hcomma : text ++ [','] <+: marker := by
        refine List.prefix_of_prefix_length_le ?_ hpre ?_
        · exact ⟨rest, by simp⟩
        · rw [List.length_append, List.length_singleton]
          omega
      exact absurd (hcomma.subset (List.mem_append_right _ (List.mem_singleton_self ',')))
        (by decide)

theorem decimal_getLast (n : Nat) : (decimal n).getLast?.all fun c => !isSpace c := by
  rw [Option.all_eq_true]
  intro c hc
  obtain ⟨d, hd, rfl⟩ := decimal_plain n c (List.mem_of_mem_getLast? hc)
  rw [(digitChar_plain hd).2.2.2.1]
  rfl

theorem flagText_getLast (b : Bool) : (flagText b).getLast?.all fun c => !isSpace c := by
  cases b <;> decide

theorem decimal_ne_nil (n : Nat) : decimal n ≠ [] := Nat.toDigits_ne_nil

theorem flagText_ne_nil (b : Bool) : flagText b ≠ [] := by
  cases b <;> decide

theorem getLast?_append_cons {a b : List Char} {c : Char} (hb : b ≠ []) :
    (a ++ c :: b).getLast? = b.getLast? := by
  rw [List.getLast?_append, List.getLast?_cons, List.getLast?_eq_some_getLast hb]
  rfl

theorem addLine_header {s : StructInfo} (h : s.Plain) (d : Dict String StructEntry) :
    StructInfoReader.addLine ⟨d, some ⟨none, []⟩⟩ s.headerLine =
      some ⟨d, some ⟨some ⟨s.name, s.sizeBits, s.size⟩, []⟩⟩ := by
  have hrest : decimal s.sizeBits ++ ',' :: decimal s.size ≠ [] := by simp
  have hlast : (decimal s.sizeBits ++ ',' :: decimal s.size).getLast?.all fun c => !isSpace c := by
    rw [getLast?_append_cons (decimal_ne_nil _)]
    exact decimal_getLast _
  obtain ⟨hstrip, hmark⟩ := strip_line h.name hrest hlast
  have hne : s.headerLine ≠ [] := by simp [StructInfo.headerLine]
  unfold StructInfoReader.addLine
  rw [← StructInfo.headerLine] at hstrip hmark
  simp only [hstrip, if_neg hne, if_neg hmark, StructEntry.addLine, count_headerLine h.commaFree,
    if_true, StructEntry.addStructHeader, splitOn_headerLine h]
  simp [readInt_decimal]

theorem addLine_member {s : StructInfo} (h : s.Plain) {m : StructMemberInfo} (hm : m ∈ s.members)
    (d : Dict String StructEntry) (header : StructHeader) (children : List StructMemberVar) :
    StructInfoReader.addLine ⟨d, some ⟨some header, children⟩⟩ m.line =
      some ⟨d, some ⟨some header, children ++ [m.var header.structName]⟩⟩ := by
  have hne : m.line ≠ [] := by simp [StructMemberInfo.line]
  have hlast : (m.name.toList ++ (',' :: (decimal m.sizeBits ++ (',' ::
    (decimal m.size ++ (',' :: (decimal m.offsetBits ++ (',' :: (decimal m.offset ++ (',' ::
      (flagText m.isPtr ++ (',' :: flagText m.isAry)))))))))))).getLast?.all fun c => !isSpace c := by
    simp only [getLast?_append_cons, ne_eq, List.append_eq_nil_iff, reduceCtorEq, and_false,
      not_false_eq_true, flagText_ne_nil]
    exact flagText_getLast _
  obtain ⟨hstrip, hmark⟩ := strip_line (h.types m hm) (by simp) hlast
  rw [← StructMemberInfo.line] at hstrip hmark
  unfold StructInfoReader.addLine
  simp only [hstrip, if_neg hne, if_neg hmark, StructEntry.addLine, count_memberLine h.commaFree hm,
    StructEntry.addMemberVar, parseMember, splitOn_memberLine h hm]
  cases hp : m.isPtr <;> cases ha : m.isAry <;>
    simp [readInt_decimal, readInt_flagText, StructMemberInfo.var, hp, ha]

theorem addLine_members {s : StructInfo} (h : s.Plain) {ms : List StructMemberInfo}
    (hms : ∀ m ∈ ms, m ∈ s.members) (d : Dict String StructEntry) (header : StructHeader)
    (children : List StructMemberVar) :
    (ms.map StructMemberInfo.line).foldlM StructInfoReader.addLine
        ⟨d, some ⟨some header, children⟩⟩ =
      some ⟨d, some ⟨some header, children ++ ms.map fun m => m.var header.structName⟩⟩ := by
  induction ms generalizing children with
  | nil =>
    rw [List.map_nil, List.map_nil, List.append_nil]
    rfl
  | cons m rest ih =>
    rw [List.map_cons, List.foldlM_cons, addLine_member h (hms m List.mem_cons_self)]
    show (rest.map StructMemberInfo.line).foldlM StructInfoReader.addLine _ = _
    rw [ih (fun n hn => hms n (List.mem_cons_of_mem _ hn)), List.append_assoc, List.map_cons]
    rfl

/-- The lines of a struct close the struct before it and leave this one open. -/
theorem addLine_struct {s : StructInfo} (h : s.Plain) {r : StructInfoReader}
    {d : Dict String StructEntry} (hr : r.close = some d) :
    s.lines.foldlM StructInfoReader.addLine r = some ⟨d, some s.entry⟩ := by
  have hmark : r.addLine marker = some ⟨d, some ⟨none, []⟩⟩ := by
    have hstrip : strip marker = marker := by decide
    have hne : marker ≠ [] := by decide
    have hpre : marker.isPrefixOf marker = true := by decide
    unfold StructInfoReader.addLine
    simp only [hstrip, if_neg hne, if_pos hpre, hr, Option.map_some]
  rw [StructInfo.lines, List.foldlM_cons, hmark]
  show (s.headerLine :: s.members.map StructMemberInfo.line).foldlM StructInfoReader.addLine _ = _
  rw [List.foldlM_cons, addLine_header h]
  show (s.members.map StructMemberInfo.line).foldlM StructInfoReader.addLine _ = _
  rw [addLine_members h fun m hm => hm]
  rfl

/-- Members are written in order, so sorting leaves them alone. -/
theorem finalize_entry (s : StructInfo) : s.entry.finalize = some (s.name, s.entry) := by
  have hsorted : sortBy StructMemberVar.offsetBits s.entry.children = s.entry.children := by
    refine List.Pairwise.insertionSort_eq ?_
    rw [StructInfo.entry, List.pairwise_map]
    exact s.sorted.imp fun hlt => Int.ofNat_le.mpr (Nat.le_of_lt hlt)
  rw [StructEntry.finalize, hsorted]
  rfl

/-- Behind the lines of some structs: all but the last are in the dictionary. -/
theorem addLine_structs {vec : List StructInfo} (hnames : (vec.map StructInfo.name).Nodup)
    (hplain : ∀ s ∈ vec, s.Plain) :
    ∃ r d, (vec.flatMap StructInfo.lines).foldlM StructInfoReader.addLine ⟨Dict.empty, none⟩ =
        some r ∧ r.structDict.items = vec.dropLast.map (fun s => (s.name, s.entry)) ∧
      r.close = some d ∧ d.items = vec.map fun s => (s.name, s.entry) := by
  induction vec using List.reverseRecOn with
  | nil => exact ⟨_, _, rfl, rfl, rfl, rfl⟩
  | append_singleton init s ih =>
    rw [List.map_append, List.nodup_append] at hnames
    obtain ⟨r, d, hr, -, hclose, hitems⟩ :=
      ih hnames.1 fun t ht => hplain t (List.mem_append_left _ ht)
    have hs : s.Plain := hplain s (List.mem_append_right _ (List.mem_singleton_self s))
    have hfresh : s.name ∉ d.keys := by
      rw [Dict.keys, hitems, List.map_map]
      exact fun hmem => hnames.2.2 s.name hmem s.name (List.mem_singleton_self _) rfl
    refine ⟨⟨d, some s.entry⟩, d.set s.name s.entry, ?_, ?_, ?_, ?_⟩
    · rw [List.flatMap_append, List.foldlM_append, hr, List.flatMap_singleton]
      exact addLine_struct hs hclose
    · rw [List.dropLast_concat]
      exact hitems
    · simp [StructInfoReader.close, finalize_entry, hfresh]
    · rw [Dict.items_set_of_notMem hfresh, hitems, List.map_append]
      rfl

theorem lines_plain {s : StructInfo} (h : s.Plain) :
    ∀ l ∈ s.lines, '\n' ∉ l ∧ '\r' ∉ l := by
  intro l hl
  rw [StructInfo.lines, List.mem_cons, List.mem_cons] at hl
  rcases hl with rfl | rfl | hl
  · decide
  · have hname := h.name.newline
    have hbits := decimal_notMem s.sizeBits
    have hsize := decimal_notMem s.size
    simp [StructInfo.headerLine, hname, hbits, hsize]
  · obtain ⟨m, hm, rfl⟩ := List.mem_map.mp hl
    have hty := (h.types m hm).newline
    have hname := h.names m hm
    simp [StructMemberInfo.line, hty, hname, decimal_notMem, flagText_notMem]

/-- The reader reads every struct but the last. -/
theorem readStructs_serialize {vec : List StructInfo} (hnames : (vec.map StructInfo.name).Nodup)
    (hplain : ∀ s ∈ vec, s.Plain) :
    ∃ d, StructInfoReader.readStructs (serializeStInfoVec vec) = some d ∧
      d.items = vec.dropLast.map fun s => (s.name, s.entry) := by
  have hlines : readLines (serializeStInfoVec vec) = vec.flatMap StructInfo.lines ++ [[]] := by
    rw [← readLines_flatMap]
    · rw [serializeStInfoVec, List.flatMap_assoc]
      rfl
    · intro l hl
      obtain ⟨s, hs, hl⟩ := List.mem_flatMap.mp hl
      exact lines_plain (hplain s hs) l hl
  obtain ⟨r, -, hr, hitems, -, -⟩ := addLine_structs hnames hplain
  refine ⟨r.structDict, ?_, hitems⟩
  rw [StructInfoReader.readStructs, hlines, List.foldlM_append, hr]
  rfl

/-! ## When everything is read -/

theorem roundTrips_iff_nil {vec : List StructInfo} (hnames : (vec.map StructInfo.name).Nodup)
    (hcommas : ∀ s ∈ vec, s.CommaFree) : RoundTrips vec ↔ vec = [] := by
  constructor
  · rintro ⟨d, hd, hall⟩
    rcases List.eq_nil_or_concat vec with hnil | ⟨init, s, hvec⟩
    · exact hnil
    · exfalso
      rw [List.concat_eq_append] at hvec
      obtain ⟨a, b, hs, hb⟩ := serialize_eq s
      have htext : serializeStInfoVec vec =
          (serializeStInfoVec init ++ a) ++ (',' :: b ++ ['\n']) := by
        rw [serializeStInfoVec, hvec, List.flatMap_append, List.flatMap_singleton, hs,
          ← List.append_assoc]
        rfl
      have hcount : (serializeStInfoVec vec).count ',' =
          (vec.map fun s => 2 + 7 * s.members.length).sum := by
        have hmap : vec.map (List.count ',' ∘ StructInfo.serialize) =
            vec.map fun s => 2 + 7 * s.members.length :=
          List.map_congr_left fun s hs => by rw [Function.comp_apply, count_serialize (hcommas s hs)]
        rw [serializeStInfoVec, List.count_flatMap, hmap]
      have hle := sum_weight_le hnames hall
      rw [htext] at hd
      have hdict := dictWeight_readStructs hb.1 hb.2 hd
      rw [htext, List.count_append, List.cons_append, List.count_cons_self] at hcount
      omega
  · rintro rfl
    exact ⟨Dict.empty, rfl, fun s hs => absurd hs List.not_mem_nil⟩

/-- A struct of one member. -/
def oneMember (name : String) : StructInfo where
  name := name
  sizeBits := 32
  size := 4
  members := [⟨"int", "x", 32, 4, 0, 0, false, false⟩]
  sorted := List.pairwise_singleton _ _

theorem oneMember_commaFree {name : String} (h : ',' ∉ name.toList) : (oneMember name).CommaFree := by
  refine ⟨h, fun m hm => ?_⟩
  rw [List.mem_singleton.mp hm]
  exact ⟨by decide, by decide⟩

theorem roundTrips_single_fails : ¬ RoundTrips [oneMember "foo"] := by
  have hnames : ([oneMember "foo"].map StructInfo.name).Nodup := by decide
  have hcommas : ∀ s ∈ [oneMember "foo"], s.CommaFree := by
    intro s hs
    rw [List.mem_singleton.mp hs]
    exact oneMember_commaFree (by decide)
  exact fun h => absurd ((roundTrips_iff_nil hnames hcommas).mp h) (List.cons_ne_nil _ _)

/-- Of two structs the second is lost. -/
theorem last_struct_lost :
    (([oneMember "foo", oneMember "bar"].map StructInfo.name).Nodup ∧
      ∀ s ∈ [oneMember "foo", oneMember "bar"], s.CommaFree) ∧
    (StructInfoReader.readStructs (serializeStInfoVec [oneMember "foo", oneMember "bar"])).map
      Dict.keys = some ["foo"] ∧
    ¬ RoundTrips [oneMember "foo", oneMember "bar"] := by
  have hkeys : (StructInfoReader.readStructs
      (serializeStInfoVec [oneMember "foo", oneMember "bar"])).map Dict.keys = some ["foo"] := by
    decide +kernel
  refine ⟨⟨by decide, fun s hs => ?_⟩, hkeys, ?_⟩
  · rcases List.mem_cons.mp hs with rfl | hs
    · exact oneMember_commaFree (by decide)
    · rw [List.mem_singleton.mp hs]
      exact oneMember_commaFree (by decide)
  · rintro ⟨d, hd, hall⟩
    rw [hd, Option.map_some, Option.some.injEq] at hkeys
    obtain ⟨st, hst, -⟩ := hall (oneMember "bar") (by simp)
    have hmem : "bar" ∈ d.keys := Dict.mem_keys.mpr ⟨st, hst⟩
    rw [hkeys] at hmem
    exact absurd hmem (by decide)

end Layout
end Silhouette
