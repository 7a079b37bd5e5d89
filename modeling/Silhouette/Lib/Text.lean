/-
Text as lists of characters: splitting at blanks, stripping, printing numbers and reading
them back.

`fields p` are the maximal runs without a `p`-character.  A text that is put together from
closed pieces, each ending in a separator or followed by one, has the fields of its pieces,
which is how formatted lines are taken apart below.  `readInt` and `readInt0` are the
numerals of Python's `int(s)` and `int(s, 0)` over ASCII digits.
-/
import Mathlib.Data.List.DropRight
import Mathlib.Data.List.Infix
import Mathlib.Tactic.IntervalCases

namespace Lib
namespace Text

/-- Texts are looked up by equality. -/
instance lawfulBEq_chars : LawfulBEq (List Char) := List.instLawfulBEq

/-- The characters of a literal, kept folded. -/
def lit (s : String) : List Char := s.toList

/-! ## Fields -/

/-- Maximal runs without a separator. -/
def fields (p : Char → Bool) (cs : List Char) : List (List Char) :=
  (cs.splitOnP p).filter (· ≠ [])

section

variable {p : Char → Bool}

theorem fields_append_sep {c : Char} (hc : p c = true) (a b : List Char) :
    fields p (a ++ c :: b) = fields p a ++ fields p b := by
  rw [fields, List.splitOnP_append_cons _ _ hc, List.filter_append]
  rfl

@[simp] theorem fields_nil : fields p [] = [] := rfl

theorem fields_cons_sep {c : Char} (hc : p c = true) (b : List Char) :
    fields p (c :: b) = fields p b := by
  have h := fields_append_sep hc [] b
  rw [List.nil_append] at h
  rw [h]
  rfl

/-- The text behind a piece that ends in a separator is taken apart on its own. -/
theorem fields_append_of_closed {a : List Char} (h : a.getLast?.all p = true) (b : List Char) :
    fields p (a ++ b) = fields p a ++ fields p b := by
  rcases List.eq_nil_or_concat a with rfl | ⟨l, c, rfl⟩
  · rfl
  · have hc : p c = true := by simpa using h
    rw [List.concat_eq_append, List.append_assoc, List.singleton_append, fields_append_sep hc, fields_append_sep hc,
      fields_nil, List.append_nil]

/-- So is the text that starts with one. -/
theorem fields_append_of_open (a : List Char) {b : List Char} (h : b.head?.all p = true) :
    fields p (a ++ b) = fields p a ++ fields p b := by
  cases b with
  | nil => rw [List.append_nil, fields_nil, List.append_nil]
  | cons c rest =>
    have hc : p c = true := by simpa using h
    rw [fields_append_sep hc, fields_cons_sep hc]

theorem fields_word {w : List Char} (hw : ∀ c ∈ w, p c = false) (hne : w ≠ []) :
    fields p w = [w] := by
  rw [fields, List.splitOnP_eq_singleton hw, List.filter_cons_of_pos (by simpa using hne),
    List.filter_nil]

theorem fields_blank {w : List Char} (hw : ∀ c ∈ w, p c = true) : fields p w = [] := by
  induction w with
  | nil => rfl
  | cons c rest ih =>
    rw [fields_cons_sep (hw c List.mem_cons_self)]
    exact ih fun d hd => hw d (List.mem_cons_of_mem _ hd)

/-- No field is empty or holds a separator. -/
theorem of_mem_fields {cs w : List Char} (h : w ∈ fields p cs) :
    w ≠ [] ∧ ∀ c ∈ w, p c = false := by
  obtain ⟨hmem, hne⟩ := List.mem_filter.mp h
  refine ⟨by simpa using hne, ?_⟩
  have hgen : ∀ (l : List Char), ∀ v ∈ l.splitOnP p, ∀ c ∈ v, p c = false := by
    intro l
    induction l with
    | nil =>
      intro v hv c hc
      rw [List.splitOnP_nil, List.mem_singleton] at hv
      rw [hv] at hc
      exact absurd hc List.not_mem_nil
    | cons d rest ih =>
      intro v hv c hc
      rw [List.splitOnP_cons_eq_if_modifyHead] at hv
      by_cases hd : p d = true
      · rw [if_pos hd] at hv
        rcases List.mem_cons.mp hv with rfl | hv
        · exact absurd hc List.not_mem_nil
        · exact ih v hv c hc
      · rw [if_neg hd] at hv
        obtain ⟨u, us, hus⟩ := List.exists_cons_of_ne_nil (List.splitOnP_ne_nil p rest)
        rw [hus] at hv ih
        rcases List.mem_cons.mp hv with rfl | hv
        · rcases List.mem_cons.mp hc with rfl | hc
          · exact Bool.eq_false_iff.mpr hd
          · exact ih u List.mem_cons_self c hc
        · exact ih v (List.mem_cons_of_mem _ hv) c hc
  exact hgen cs w hmem

/-- Replacing characters by separators makes them separators. -/
theorem fields_map {q : Char → Bool} {f : Char → Char} (hf : ∀ c, p (f c) = q c)
    (hid : ∀ c, q c = false → f c = c) (cs : List Char) :
    fields p (cs.map f) = fields q cs := by
  have hsplit : (cs.map f).splitOnP p = (cs.splitOnP q).map fun w => w.map f := by
    induction cs with
    | nil => rfl
    | cons c rest ih =>
      rw [List.map_cons, List.splitOnP_cons_eq_if_modifyHead, List.splitOnP_cons_eq_if_modifyHead,
        hf, ih]
      by_cases hq : q c = true
      · rw [if_pos hq, if_pos hq]
        rfl
      · rw [if_neg hq, if_neg hq]
        obtain ⟨u, us, hus⟩ := List.exists_cons_of_ne_nil (List.splitOnP_ne_nil q rest)
        rw [hus]
        rfl
  rw [fields, hsplit, List.filter_map]
  have hfields : (cs.splitOnP q).filter ((fun w => decide (w ≠ [])) ∘ fun w => w.map f) =
      fields q cs := by
    rw [fields]
    refine List.filter_congr (fun w _ => ?_)
    simp
  rw [hfields]
  refine (List.map_congr_left fun w hw => ?_).trans (List.map_id _)
  have hw' := (of_mem_fields hw).2
  exact (List.map_congr_left fun c hc => hid c (hw' c hc)).trans (List.map_id _)

end

/-! ## Blanks -/

/-- `str.isspace` -/
def isSpace (c : Char) : Bool :=
  let n := c.toNat
  (9 ≤ n && n ≤ 13) || (28 ≤ n && n ≤ 32) || n = 0x85 || n = 0xa0 || n = 0x1680 ||
    (0x2000 ≤ n && n ≤ 0x200a) || n = 0x2028 || n = 0x2029 || n = 0x202f || n = 0x205f ||
    n = 0x3000

theorem isAlphanum_range {c : Char} (h : c.isAlphanum = true) : 48 ≤ c.toNat ∧ c.toNat ≤ 122 := by
  have hcases : ((decide (c.val ≥ 'A'.val ∧ c.val ≤ 'Z'.val) ||
      (decide (c.val ≥ 'a'.val) && decide (c.val ≤ 'z'.val))) ||
      (decide (c.val ≥ '0'.val) && decide (c.val ≤ '9'.val))) = true := h
  simp only [Bool.or_eq_true, Bool.and_eq_true, decide_eq_true_eq, UInt32.le_iff_toNat_le,
    ge_iff_le] at hcases
  simp at hcases
  omega

theorem isSpace_of_isAlphanum {c : Char} (h : c.isAlphanum = true) : isSpace c = false := by
  have hr := isAlphanum_range h
  simp only [isSpace, Bool.or_eq_false_iff, Bool.and_eq_false_iff, decide_eq_false_iff_not]
  omega

/-- `str.split()` -/
def words (cs : List Char) : List (List Char) := fields isSpace cs

/-- `str.strip()` -/
def strip (cs : List Char) : List Char := (cs.dropWhile isSpace).rdropWhile isSpace

/-- `" ".join(ws)` -/
def joinWords (ws : List (List Char)) : List Char := [' '].intercalate ws

/-- Words joined by blanks and split at them again. -/
theorem splitOn_joinWords {ws : List (List Char)} (hne : ws ≠ [])
    (hw : ∀ w ∈ ws, ∀ c ∈ w, isSpace c = false) : (joinWords ws).splitOn ' ' = ws := by
  refine List.splitOn_intercalate ' ' (fun w hm hmem => ?_) hne
  exact absurd (hw w hm ' ' hmem) (by decide)

/-- Blanks around a text that neither starts nor ends with one. -/
theorem strip_append {a w b : List Char} (ha : ∀ c ∈ a, isSpace c = true)
    (hb : ∀ c ∈ b, isSpace c = true) (hfirst : w.head?.all fun c => !isSpace c)
    (hlast : w.getLast?.all fun c => !isSpace c) : strip (a ++ w ++ b) = w := by
  cases w with
  | nil =>
    have hall : ∀ c ∈ a ++ [] ++ b, isSpace c = true := by
      intro c hc
      rw [List.append_nil] at hc
      rcases List.mem_append.mp hc with hc | hc
      · exact ha c hc
      · exact hb c hc
    rw [strip, List.dropWhile_eq_nil_iff.mpr hall]
    rfl
  | cons c w =>
    have hc : ¬ isSpace c = true := by simpa using hfirst
    rw [strip, List.append_assoc, List.dropWhile_append_of_pos ha, List.cons_append,
      List.dropWhile_cons_of_neg hc, ← List.cons_append, List.rdropWhile, List.reverse_append,
      List.dropWhile_append_of_pos (fun d hd => hb d (List.mem_reverse.mp hd))]
    obtain ⟨l, d, hl⟩ := (List.eq_nil_or_concat (c :: w)).resolve_left (by simp)
    rw [hl, List.concat_eq_append] at hlast ⊢
    have hd : ¬ isSpace d = true := by simpa using hlast
    rw [List.reverse_append, List.reverse_singleton, List.singleton_append,
      List.dropWhile_cons_of_neg hd, List.reverse_cons, List.reverse_reverse]

theorem strip_word {w : List Char} (hw : ∀ c ∈ w, isSpace c = false) : strip w = w := by
  have hnone : ∀ c ∈ ([] : List Char), isSpace c = true := fun c hc => absurd hc (by simp)
  have h := strip_append (w := w) hnone hnone
    (by simpa [Option.all_eq_true] using fun c hc => hw c (List.mem_of_mem_head? hc))
    (by simpa [Option.all_eq_true] using fun c hc => hw c (List.mem_of_mem_getLast? hc))
  rwa [List.nil_append, List.append_nil] at h

theorem strip_blanks {s t : List Char} (hs : ∀ c ∈ s, isSpace c = true)
    (ht : ∀ c ∈ t, isSpace c = true) (cs : List Char) : strip (s ++ cs ++ t) = strip cs := by
  have hend : ∀ x : List Char, (x ++ t).rdropWhile isSpace = x.rdropWhile isSpace := by
    intro x
    rw [List.rdropWhile, List.reverse_append,
      List.dropWhile_append_of_pos fun c hc => ht c (List.mem_reverse.mp hc), List.rdropWhile]
  rw [strip, strip, List.append_assoc, List.dropWhile_append_of_pos hs, List.dropWhile_append]
  split_ifs with hempty
  · rw [List.isEmpty_iff.mp hempty, List.dropWhile_eq_nil_iff.mpr ht]
  · exact hend _

theorem mem_of_mem_strip {cs : List Char} {c : Char} (h : c ∈ strip cs) : c ∈ cs :=
  (List.dropWhile_sublist _).subset ((List.rdropWhile_prefix _ _).subset h)

/-- What stands between two runs of words. -/
def wordSep (xs ys : List (List Char)) : List Char := if xs = [] ∨ ys = [] then [] else [' ']

theorem mem_wordSep {xs ys : List (List Char)} {c : Char} (h : c ∈ wordSep xs ys) : c = ' ' := by
  unfold wordSep at h
  split at h
  · exact absurd h List.not_mem_nil
  · exact List.mem_singleton.mp h

theorem wordSep_blank (xs ys : List (List Char)) : ∀ c ∈ wordSep xs ys, isSpace c = true := by
  intro c hc
  rw [mem_wordSep hc]
  rfl

theorem joinWords_cons (w : List Char) (ws : List (List Char)) :
    joinWords (w :: ws) = w ++ (wordSep [w] ws ++ joinWords ws) := by
  cases ws with
  | nil => simp [joinWords, wordSep]
  | cons v vs =>
    rw [wordSep, if_neg (by simp)]
    rfl

theorem joinWords_append (xs ys : List (List Char)) :
    joinWords (xs ++ ys) = joinWords xs ++ (wordSep xs ys ++ joinWords ys) := by
  induction xs with
  | nil => simp [joinWords, wordSep]
  | cons x rest ih =>
    rw [List.cons_append, joinWords_cons, joinWords_cons, ih]
    cases rest with
    | nil => simp [joinWords, wordSep]
    | cons v vs => simp [wordSep, List.append_assoc]

theorem mem_of_mem_fields {p : Char → Bool} {cs w : List Char} {c : Char} (hw : w ∈ fields p cs)
    (hc : c ∈ w) : c ∈ cs := by
  have hgen : ∀ l : List Char, ∀ v ∈ l.splitOnP p, c ∈ v → c ∈ l := by
    intro l
    induction l with
    | nil =>
      intro v hv hc
      rw [List.splitOnP_nil, List.mem_singleton] at hv
      exact hv ▸ hc
    | cons d rest ih =>
      intro v hv hc
      rw [List.splitOnP_cons_eq_if_modifyHead] at hv
      obtain ⟨u, us, hus⟩ := List.exists_cons_of_ne_nil (List.splitOnP_ne_nil p rest)
      rw [hus] at hv ih
      split_ifs at hv
      · rcases List.mem_cons.mp hv with rfl | hv
        · exact absurd hc List.not_mem_nil
        · exact List.mem_cons_of_mem _ (ih v hv hc)
      · rcases List.mem_cons.mp hv with rfl | hv
        · rcases List.mem_cons.mp hc with rfl | hc
          · exact List.mem_cons_self
          · exact List.mem_cons_of_mem _ (ih u List.mem_cons_self hc)
        · exact List.mem_cons_of_mem _ (ih v (List.mem_cons_of_mem _ hv) hc)
  exact hgen cs w (List.mem_filter.mp hw).1 hc

/-- Runs of blanks become one blank, and those at the ends go. -/
def squeeze (cs : List Char) : List Char := joinWords (words cs)

theorem mem_squeeze {cs : List Char} {c : Char} (h : c ∈ squeeze cs) : c = ' ' ∨ c ∈ cs := by
  have hgen : ∀ ws : List (List Char), c ∈ joinWords ws → c = ' ' ∨ ∃ w ∈ ws, c ∈ w := by
    intro ws
    induction ws with
    | nil => exact fun h => absurd h List.not_mem_nil
    | cons w rest ih =>
      intro h
      rw [joinWords_cons, List.mem_append, List.mem_append] at h
      rcases h with h | h | h
      · exact Or.inr ⟨w, List.mem_cons_self, h⟩
      · exact Or.inl (mem_wordSep h)
      · rcases ih h with h | ⟨v, hv, hc⟩
        · exact Or.inl h
        · exact Or.inr ⟨v, List.mem_cons_of_mem _ hv, hc⟩
  rcases hgen _ h with h | ⟨w, hw, hc⟩
  · exact Or.inl h
  · exact Or.inr (mem_of_mem_fields hw hc)

theorem squeeze_head (cs : List Char) : (squeeze cs).head?.all fun c => !isSpace c := by
  rw [squeeze]
  cases hws : words cs with
  | nil => rfl
  | cons w ws =>
    have hmem : w ∈ words cs := by rw [hws]; exact List.mem_cons_self
    have hw := of_mem_fields hmem
    rw [joinWords_cons]
    cases hcs : w with
    | nil => exact absurd hcs hw.1
    | cons c rest =>
      have hc := hw.2 c (hcs ▸ List.mem_cons_self)
      simp [hc]

theorem joinWords_singleton (w : List Char) : joinWords [w] = w := by
  rw [joinWords_cons]
  simp [wordSep, joinWords]

theorem squeeze_getLast (cs : List Char) : (squeeze cs).getLast?.all fun c => !isSpace c := by
  rw [squeeze]
  rcases List.eq_nil_or_concat (words cs) with hws | ⟨ws, w, hws⟩
  · rw [hws]
    rfl
  · have hmem : w ∈ words cs := by rw [hws, List.concat_eq_append]; exact List.mem_concat_self
    have hw := of_mem_fields hmem
    rw [hws, List.concat_eq_append, joinWords_append, ← List.append_assoc, List.getLast?_append]
    rw [joinWords_singleton, List.getLast?_eq_some_getLast hw.1]
    have hc := hw.2 _ (List.getLast_mem hw.1)
    simp [hc]

/-- Blanks around a squeezed text. -/
theorem strip_squeeze {s t : List Char} (hs : ∀ c ∈ s, isSpace c = true)
    (ht : ∀ c ∈ t, isSpace c = true) (cs : List Char) : strip (s ++ squeeze cs ++ t) = squeeze cs :=
  strip_append hs ht (squeeze_head cs) (squeeze_getLast cs)

/-- Blanks at the ends do not count. -/
theorem squeeze_blanks {s t : List Char} (hs : ∀ c ∈ s, isSpace c = true)
    (ht : ∀ c ∈ t, isSpace c = true) (cs : List Char) : squeeze (s ++ cs ++ t) = squeeze cs := by
  have hclosed : s.getLast?.all isSpace = true := by
    rw [Option.all_eq_true]
    exact fun c hc => hs c (List.mem_of_mem_getLast? hc)
  have hopen : t.head?.all isSpace = true := by
    rw [Option.all_eq_true]
    exact fun c hc => ht c (List.mem_of_mem_head? hc)
  rw [squeeze, words, fields_append_of_open _ hopen, fields_append_of_closed hclosed,
    fields_blank hs, fields_blank ht, List.nil_append, List.append_nil]
  rfl

theorem words_nonspace {w : List Char} (h : ∀ c ∈ w, isSpace c = false) :
    words w = if w = [] then [] else [w] := by
  split_ifs with hw
  · rw [hw]
    rfl
  · exact fields_word h hw

/-- The part of a word that a text ends with. -/
theorem exists_wordBehind (a : List Char) :
    ∃ a' w, a = a' ++ w ∧ (∀ x ∈ w, isSpace x = false) ∧ a'.getLast?.all isSpace = true := by
  refine ⟨a.rdropWhile fun x => !isSpace x, a.rtakeWhile fun x => !isSpace x,
    List.rdropWhile_append_rtakeWhile.symm, ?_, ?_⟩
  · intro x hx
    simpa using List.mem_rtakeWhile_imp hx
  · rw [Option.all_eq_true]
    intro x hx
    have hne : (a.rdropWhile fun x => !isSpace x) ≠ [] := by
      intro hnil
      rw [hnil] at hx
      cases hx
    have hlast := List.rdropWhile_last_not _ a hne
    rw [List.getLast?_eq_some_getLast hne] at hx
    cases hx
    simpa using hlast

/-- The part of a word that a text begins with. -/
theorem exists_wordInFront (b : List Char) :
    ∃ u b', b = u ++ b' ∧ (∀ x ∈ u, isSpace x = false) ∧ b'.head?.all isSpace = true := by
  refine ⟨b.takeWhile fun x => !isSpace x, b.dropWhile fun x => !isSpace x,
    List.takeWhile_append_dropWhile.symm, ?_, ?_⟩
  · intro x hx
    simpa using List.mem_takeWhile_imp hx
  · rw [Option.all_eq_true]
    intro x hx
    have hfirst := List.head?_dropWhile_not (fun x => !isSpace x) b
    rw [hx] at hfirst
    simpa using hfirst

/-- The words of a text, when `c` is in the word between `a'` and `b'`. -/
theorem words_around {a' b' w u : List Char} {c : Char} (hclosed : a'.getLast?.all isSpace = true)
    (hopen : b'.head?.all isSpace = true) (hw : ∀ x ∈ w, isSpace x = false)
    (hu : ∀ x ∈ u, isSpace x = false) (hc : isSpace c = false) :
    words (a' ++ w ++ c :: (u ++ b')) = words a' ++ [w ++ c :: u] ++ words b' := by
  have hword : ∀ x ∈ w ++ c :: u, isSpace x = false := by
    intro x hx
    rcases List.mem_append.mp hx with hx | hx
    · exact hw x hx
    · rcases List.mem_cons.mp hx with rfl | hx
      · exact hc
      · exact hu x hx
  have heq : a' ++ w ++ c :: (u ++ b') = a' ++ ((w ++ c :: u) ++ b') := by simp
  rw [heq, words, fields_append_of_closed hclosed, fields_append_of_open _ hopen,
    fields_word hword (by simp), ← List.append_assoc]
  rfl

/-- Squeezing keeps what is not blank where it is. -/
theorem squeeze_append_cons {c : Char} (hc : isSpace c = false) (a b : List Char) :
    ∃ s t, (∀ x ∈ s, isSpace x = true) ∧ (∀ x ∈ t, isSpace x = true) ∧
      squeeze (a ++ c :: b) = squeeze a ++ s ++ c :: (t ++ squeeze b) := by
  -- The word around `c`: its part in `a` and its part in `b`.
  obtain ⟨a', w, rfl, hw, hclosed⟩ := exists_wordBehind a
  obtain ⟨u, b', rfl, hu, hopen⟩ := exists_wordInFront b
  have hwa : words (a' ++ w) = words a' ++ words w := by
    rw [words, fields_append_of_closed hclosed]
    rfl
  have hwb : words (u ++ b') = words u ++ words b' := by
    rw [words, fields_append_of_open _ hopen]
    rfl
  refine ⟨if w = [] then wordSep (words a') [c :: u] else [],
    if u = [] then wordSep [[c]] (words b') else [], ?_, ?_, ?_⟩
  · intro x hx
    split_ifs at hx
    · exact wordSep_blank _ _ x hx
    · exact absurd hx List.not_mem_nil
  · intro x hx
    split_ifs at hx
    · exact wordSep_blank _ _ x hx
    · exact absurd hx List.not_mem_nil
  · rw [squeeze, words_around hclosed hopen hw hu hc, joinWords_append, joinWords_append,
      joinWords_singleton, squeeze, squeeze, hwa, hwb, joinWords_append, joinWords_append,
      words_nonspace hw, words_nonspace hu]
    by_cases hw0 : w = []
    · by_cases hu0 : u = []
      · simp [hw0, hu0, wordSep, joinWords]
      · simp [hw0, hu0, wordSep, joinWords]
    · by_cases hu0 : u = []
      · simp [hw0, hu0, wordSep, joinWords]
      · simp [hw0, hu0, wordSep, joinWords_singleton]

/-- A word without a character is on one side of it. -/
theorem infix_append_cons_iff {w a b : List Char} {c : Char} (hc : c ∉ w) :
    w <:+: a ++ c :: b ↔ w <:+: a ∨ w <:+: b := by
  constructor
  · rintro ⟨s, t, h⟩
    rcases List.append_eq_append_iff.mp h with ⟨a', ha, -⟩ | ⟨b', hb, hrest⟩
    · exact Or.inl ⟨s, a', ha.symm⟩
    · cases b' with
      | nil =>
        rw [List.append_nil] at hb
        exact Or.inl ⟨s, [], by rw [List.append_nil, hb]⟩
      | cons d b' =>
        rw [List.cons_append, List.cons.injEq] at hrest
        obtain ⟨rfl, hrest⟩ := hrest
        rcases List.append_eq_append_iff.mp hb with ⟨a', -, hw'⟩ | ⟨s', hs, hw'⟩
        · exact absurd (hw' ▸ List.mem_append_right _ List.mem_cons_self) hc
        · cases s' with
          | nil =>
            rw [List.nil_append] at hw'
            exact absurd (hw' ▸ List.mem_cons_self) hc
          | cons e s' =>
            rw [List.cons_append, List.cons.injEq] at hw'
            exact Or.inr ⟨s', t, by rw [hrest, hw'.2]⟩
  · rintro (h | h)
    · exact h.trans (List.prefix_append _ _).isInfix
    · exact h.trans ((List.suffix_cons c b).trans (List.suffix_append a _)).isInfix

/-! ## Lines -/

/-- Reading in text mode: every line ends with a newline. -/
def universalNewlines : List Char → List Char
  | [] => []
  | '\r' :: '\n' :: cs => '\n' :: universalNewlines cs
  | c :: cs => (if c = '\r' then '\n' else c) :: universalNewlines cs

/-- The lines of a file without their ends.  What follows the last end is a line too. -/
def readLines (cs : List Char) : List (List Char) := (universalNewlines cs).splitOn '\n'

theorem universalNewlines_of_plain {cs : List Char} (h : '\r' ∉ cs) :
    universalNewlines cs = cs := by
  fun_induction universalNewlines cs with
  | case1 => rfl
  | case2 cs ih => exact absurd List.mem_cons_self h
  | case3 c cs hne ih =>
    rw [List.mem_cons, not_or] at h
    rw [if_neg (Ne.symm h.1), ih h.2]

/-- A text without line ends is found in the lines that are read. -/
theorem infix_append_universalNewlines_iff {w : List Char} (hn : '\n' ∉ w) (hr : '\r' ∉ w)
    (s a : List Char) : w <:+: a ++ universalNewlines s ↔ w <:+: a ++ s := by
  induction s using universalNewlines.induct generalizing a with
  | case1 => rfl
  | case2 cs ih =>
    have hback := infix_append_cons_iff (a := []) (b := cs) hn
    rw [List.nil_append] at hback
    rw [universalNewlines, infix_append_cons_iff hn, infix_append_cons_iff hr, hback]
    have hrest := ih []
    rw [List.nil_append, List.nil_append] at hrest
    rw [hrest]
    constructor
    · exact fun h => h.imp_right Or.inr
    · rintro (h | h | h)
      · exact Or.inl h
      · exact Or.inl (h.trans (List.nil_infix))
      · exact Or.inr h
  | case3 c cs hne ih =>
    rw [universalNewlines]
    · split_ifs with hc
      · subst hc
        have hrest := ih []
        rw [List.nil_append, List.nil_append] at hrest
        rw [infix_append_cons_iff hn, infix_append_cons_iff hr, hrest]
      · have hrest := ih (a ++ [c])
        rwa [List.append_assoc, List.append_assoc, List.singleton_append,
          List.singleton_append] at hrest
    · exact hne

theorem infix_universalNewlines_iff {w : List Char} (hn : '\n' ∉ w) (hr : '\r' ∉ w)
    (s : List Char) : w <:+: universalNewlines s ↔ w <:+: s :=
  infix_append_universalNewlines_iff hn hr s []

/-- No line end is put together by joining two texts. -/
theorem universalNewlines_append {a b : List Char} (h : b.head? ≠ some '\n') :
    universalNewlines (a ++ b) = universalNewlines a ++ universalNewlines b := by
  fun_induction universalNewlines a with
  | case1 => rfl
  | case2 cs ih =>
    rw [List.cons_append, List.cons_append, universalNewlines, ih, List.cons_append]
  | case3 c cs hne ih =>
    rw [List.cons_append, universalNewlines, ih, List.cons_append]
    rintro cs' rfl heq
    cases cs with
    | nil =>
      rw [List.nil_append] at heq
      rw [heq] at h
      exact h rfl
    | cons d cs =>
      rw [List.cons_append, List.cons.injEq] at heq
      exact hne cs rfl (by rw [heq.1])

theorem count_universalNewlines {c : Char} (hr : c ≠ '\r') (hn : c ≠ '\n') (cs : List Char) :
    (universalNewlines cs).count c = cs.count c := by
  fun_induction universalNewlines cs with
  | case1 => rfl
  | case2 cs ih =>
    rw [List.count_cons_of_ne hn.symm, List.count_cons_of_ne hr.symm,
      List.count_cons_of_ne hn.symm, ih]
  | case3 d cs hne ih =>
    rw [List.count_cons, List.count_cons, ih]
    by_cases hd : d = '\r'
    · simp [hd, hr.symm, hn.symm]
    · rw [if_neg hd]

/-- Splitting loses nothing but the separators. -/
theorem sum_count_splitOn {c d : Char} (h : c ≠ d) (cs : List Char) :
    ((cs.splitOn d).map (List.count c)).sum = cs.count c := by
  induction cs with
  | nil => rfl
  | cons x rest ih =>
    rw [List.splitOn, List.splitOnP_cons_eq_if_modifyHead]
    by_cases hx : x = d
    · rw [if_pos (beq_iff_eq.mpr hx), List.map_cons, List.sum_cons, List.count_nil, Nat.zero_add, hx,
        List.count_cons_of_ne h.symm]
      exact ih
    · rw [if_neg (by simpa using hx)]
      obtain ⟨u, us, hus⟩ := List.exists_cons_of_ne_nil (List.splitOnP_ne_nil (· == d) rest)
      rw [List.splitOn, hus, List.map_cons, List.sum_cons] at ih
      rw [hus, List.modifyHead_cons, List.map_cons, List.sum_cons, List.count_cons, List.count_cons]
      omega

/-- Text without a separator goes to the last piece. -/
theorem splitOn_append_of_notMem {d : Char} {b : List Char} (h : d ∉ b) (a : List Char) :
    ∃ init last, a.splitOn d = init ++ [last] ∧ (a ++ b).splitOn d = init ++ [last ++ b] := by
  induction a with
  | nil =>
    refine ⟨[], [], rfl, ?_⟩
    rw [List.nil_append, List.splitOn, List.splitOnP_eq_singleton]
    · rfl
    · exact fun c hc => beq_eq_false_iff_ne.mpr fun heq => h (heq ▸ hc)
  | cons x rest ih =>
    obtain ⟨init, last, h1, h2⟩ := ih
    rw [List.splitOn] at h1 h2
    rw [List.cons_append, List.splitOn, List.splitOn, List.splitOnP_cons_eq_if_modifyHead,
      List.splitOnP_cons_eq_if_modifyHead, h1, h2]
    by_cases hx : (x == d) = true
    · rw [if_pos hx, if_pos hx]
      exact ⟨[] :: init, last, rfl, rfl⟩
    · rw [if_neg hx, if_neg hx]
      cases init with
      | nil => exact ⟨[], x :: last, rfl, rfl⟩
      | cons u us => exact ⟨(x :: u) :: us, last, rfl, rfl⟩

/-- Lines written with their ends split into the lines. -/
theorem splitOn_lines {ls : List (List Char)} (h : ∀ l ∈ ls, '\n' ∉ l) :
    (ls.flatMap fun l => l ++ ['\n']).splitOn '\n' = ls ++ [[]] := by
  induction ls with
  | nil => rfl
  | cons l rest ih =>
    have hrest := ih fun m hm => h m (List.mem_cons_of_mem _ hm)
    rw [List.flatMap_cons, List.append_assoc, List.singleton_append, List.splitOn,
      List.splitOnP_append_cons (p := fun c => c == '\n') _ _ rfl,
      List.splitOnP_eq_singleton]
    · rw [List.splitOn] at hrest
      rw [hrest]
      rfl
    · exact fun c hc => beq_eq_false_iff_ne.mpr fun heq => h l List.mem_cons_self (heq ▸ hc)

theorem readLines_flatMap {ls : List (List Char)} (h : ∀ l ∈ ls, '\n' ∉ l ∧ '\r' ∉ l) :
    readLines (ls.flatMap fun l => l ++ ['\n']) = ls ++ [[]] := by
  have hplain : '\r' ∉ ls.flatMap fun l => l ++ ['\n'] := by
    intro hmem
    obtain ⟨l, hl, hc⟩ := List.mem_flatMap.mp hmem
    rcases List.mem_append.mp hc with hc | hc
    · exact (h l hl).2 hc
    · exact absurd hc (by decide)
  rw [readLines, universalNewlines_of_plain hplain, splitOn_lines fun l hl => (h l hl).1]

/-! ## Numerals -/

def digitVal (c : Char) : Option Nat :=
  let n := c.toNat
  if 48 ≤ n ∧ n ≤ 57 then some (n - 48)
  else if 97 ≤ n ∧ n ≤ 122 then some (n - 87)
  else if 65 ≤ n ∧ n ≤ 90 then some (n - 55)
  else none

def digitOf (base : Nat) (c : Char) : Option Nat := (digitVal c).filter (· < base)

/-- The digits behind the first; one underscore may stand between two of them. -/
def readDigits (base acc : Nat) : List Char → Option Nat
  | [] => some acc
  | c :: cs =>
    if c = '_' then
      match cs with
      | [] => none
      | d :: _ => if (digitOf base d).isSome then readDigits base acc cs else none
    else (digitOf base c).bind fun v => readDigits base (acc * base + v) cs

def readNat (base : Nat) : List Char → Option Nat
  | [] => none
  | c :: cs => if c = '_' then none else readDigits base 0 (c :: cs)

/-- An optional sign in front of a numeral. -/
def readSigned (read : List Char → Option Nat) : List Char → Option Int
  | '-' :: cs => (read cs).map fun n => -(n : Int)
  | '+' :: cs => (read cs).map Int.ofNat
  | cs => (read cs).map Int.ofNat

/-- `int(s)` -/
def readInt (cs : List Char) : Option Int := readSigned (readNat 10) (strip cs)

def baseOf (c : Char) : Option Nat :=
  if c = 'x' ∨ c = 'X' then some 16
  else if c = 'o' ∨ c = 'O' then some 8
  else if c = 'b' ∨ c = 'B' then some 2
  else none

def dropUnderscore : List Char → List Char
  | '_' :: cs => cs
  | cs => cs

/-- A numeral that names its base.  A decimal one other than zero starts with no zero. -/
def readNat0 : List Char → Option Nat
  | '0' :: c :: cs =>
    match baseOf c with
    | some base => readNat base (dropUnderscore cs)
    | none => (readNat 10 ('0' :: c :: cs)).filter (· = 0)
  | cs => readNat 10 cs

/-- `int(s, 0)` -/
def readInt0 (cs : List Char) : Option Int := readSigned readNat0 (strip cs)

/-- `%u` -/
def decimal (n : Nat) : List Char := Nat.toDigits 10 n

/-- `%d` -/
def decimalInt : Int → List Char
  | .ofNat n => decimal n
  | .negSucc n => '-' :: decimal (n + 1)

/-- `0x%lx` -/
def hex (n : Nat) : List Char := '0' :: 'x' :: Nat.toDigits 16 n

/-- A field of at least `w` characters, filled up in front. -/
def padLeft (w : Nat) (fill : Char) (cs : List Char) : List Char :=
  List.replicate (w - cs.length) fill ++ cs

/-- Filled up behind. -/
def padRight (w : Nat) (cs : List Char) : List Char := cs ++ List.replicate (w - cs.length) ' '

theorem digitVal_digitChar {n : Nat} (h : n < 16) : digitVal n.digitChar = some n := by
  interval_cases n <;> rfl

theorem digitOf_digitChar {base n : Nat} (hb : base ≤ 16) (h : n < base) :
    digitOf base n.digitChar = some n := by
  rw [digitOf, digitVal_digitChar (by omega), Option.filter_some, if_pos (by simpa using h)]

/-- A digit is neither a sign nor blank nor an underscore. -/
theorem digitChar_plain {n : Nat} (h : n < 16) :
    n.digitChar ≠ '_' ∧ n.digitChar ≠ '-' ∧ n.digitChar ≠ '+' ∧ isSpace n.digitChar = false ∧
      n.digitChar ≠ ',' ∧ n.digitChar ≠ '.' ∧ n.digitChar ≠ ':' ∧ n.digitChar ≠ '\n' ∧
      n.digitChar ≠ 'x' := by
  interval_cases n <;> decide

theorem mem_toDigits {base n : Nat} (hb : 1 < base) {c : Char} (h : c ∈ Nat.toDigits base n) :
    ∃ d, d < base ∧ c = d.digitChar := by
  induction n using Nat.strongRecOn with
  | ind n ih =>
    rw [Nat.toDigits_eq_if hb] at h
    split_ifs at h with hlt
    · exact ⟨n, hlt, List.mem_singleton.mp h⟩
    · rcases List.mem_append.mp h with h | h
      · exact ih (n / base) (Nat.div_lt_self (by omega) hb) h
      · exact ⟨n % base, Nat.mod_lt _ (by omega), List.mem_singleton.mp h⟩

theorem readDigits_cons_digit {base d : Nat} (hb : base ≤ 16) (hd : d < base) (acc : Nat)
    (cs : List Char) :
    readDigits base acc (d.digitChar :: cs) = readDigits base (acc * base + d) cs := by
  rw [readDigits.eq_def]
  simp only [if_neg (digitChar_plain (lt_of_lt_of_le hd hb)).1, digitOf_digitChar hb hd,
    Option.bind_some]

/-- Reading one more digit. -/
theorem readDigits_append_digit {base : Nat} (hb : base ≤ 16) {d : Nat} (hd : d < base)
    {cs : List Char} (hcs : ∀ c ∈ cs, ∃ e, e < base ∧ c = e.digitChar) (acc : Nat) :
    readDigits base acc (cs ++ [d.digitChar]) =
      (readDigits base acc cs).map fun n => n * base + d := by
  induction cs generalizing acc with
  | nil =>
    rw [List.nil_append, readDigits_cons_digit hb hd]
    rfl
  | cons c rest ih =>
    obtain ⟨e, he, rfl⟩ := hcs c List.mem_cons_self
    rw [List.cons_append, readDigits_cons_digit hb he, readDigits_cons_digit hb he]
    exact ih (fun x hx => hcs x (List.mem_cons_of_mem _ hx)) _

theorem readDigits_toDigits {base : Nat} (hb : 1 < base) (hb' : base ≤ 16) (n : Nat) :
    readDigits base 0 (Nat.toDigits base n) = some n := by
  induction n using Nat.strongRecOn with
  | ind n ih =>
    rw [Nat.toDigits_eq_if hb]
    split_ifs with hlt
    · rw [readDigits_cons_digit hb' hlt, Nat.zero_mul, Nat.zero_add, readDigits]
    · rw [readDigits_append_digit hb' (Nat.mod_lt _ (by omega)) (fun c hc => mem_toDigits hb hc),
        ih _ (Nat.div_lt_self (by omega) hb), Option.map_some, Nat.div_add_mod']

theorem readNat_toDigits {base : Nat} (hb : 1 < base) (hb' : base ≤ 16) (n : Nat) :
    readNat base (Nat.toDigits base n) = some n := by
  have h := readDigits_toDigits hb hb' n
  cases hd : Nat.toDigits base n with
  | nil => exact absurd hd Nat.toDigits_ne_nil
  | cons c cs =>
    obtain ⟨d, hlt, rfl⟩ := mem_toDigits (c := c) (n := n) hb (hd ▸ List.mem_cons_self)
    rw [readNat, if_neg (digitChar_plain (by omega)).1, ← hd, h]

theorem dropUnderscore_toDigits {base : Nat} (hb : 1 < base) (hb' : base ≤ 16) (n : Nat) :
    dropUnderscore (Nat.toDigits base n) = Nat.toDigits base n := by
  cases hd : Nat.toDigits base n with
  | nil => rfl
  | cons c cs =>
    obtain ⟨d, hlt, rfl⟩ := mem_toDigits (c := c) (n := n) hb (hd ▸ List.mem_cons_self)
    unfold dropUnderscore
    split
    · rename_i heq
      exact absurd (List.cons.inj heq).1 (digitChar_plain (lt_of_lt_of_le hlt hb')).1
    · rfl

theorem decimal_plain (n : Nat) : ∀ c ∈ decimal n, ∃ d, d < 16 ∧ c = d.digitChar := by
  intro c hc
  obtain ⟨d, hd, rfl⟩ := mem_toDigits (by decide) hc
  exact ⟨d, by omega, rfl⟩

theorem decimal_injective {m n : Nat} (h : decimal m = decimal n) : m = n := by
  rw [← Nat.ofDigitChars_ten_toDigits (n := m), ← Nat.ofDigitChars_ten_toDigits (n := n)]
  exact congrArg _ h

theorem length_decimal_le_iff {n k : Nat} (hk : 0 < k) : (decimal n).length ≤ k ↔ n < 10 ^ k :=
  Nat.length_toDigits_le_iff (by decide) hk

/-- The digits in front of the last one. -/
theorem decimal_of_eq_append {m n : Nat} {c : Char} (h : decimal n = decimal m ++ [c])
    (hn : 10 ≤ n) : m = n / 10 := by
  rw [decimal, Nat.toDigits_of_base_le (by decide) hn] at h
  exact (decimal_injective (List.append_inj' h rfl).1).symm

theorem readSigned_digits {read : List Char → Option Nat} {n : Nat} {w : List Char}
    (hw : ∀ c ∈ w, c ≠ '-' ∧ c ≠ '+') (hread : read w = some n) :
    readSigned read w = some (n : Int) := by
  unfold readSigned
  split
  · exact absurd rfl (hw '-' List.mem_cons_self).1
  · exact absurd rfl (hw '+' List.mem_cons_self).2
  · rw [hread]
    rfl

theorem readInt_decimal (n : Nat) : readInt (decimal n) = some (n : Int) := by
  have hd := decimal_plain n
  rw [readInt, strip_word]
  · refine readSigned_digits (fun c hc => ?_) (readNat_toDigits (by decide) (by decide) n)
    obtain ⟨d, hlt, rfl⟩ := hd c hc
    exact ⟨(digitChar_plain hlt).2.1, (digitChar_plain hlt).2.2.1⟩
  · intro c hc
    obtain ⟨d, hlt, rfl⟩ := hd c hc
    exact (digitChar_plain hlt).2.2.2.1

/-- Leading zeros and blanks do not count. -/
theorem readInt_padded {a b : List Char} (ha : ∀ c ∈ a, isSpace c = true)
    (hb : ∀ c ∈ b, isSpace c = true) (w n : Nat) :
    readInt (a ++ padLeft w '0' (decimal n) ++ b) = some (n : Int) := by
  have hplain : ∀ c ∈ padLeft w '0' (decimal n), ∃ d, d < 16 ∧ c = d.digitChar := by
    intro c hc
    rcases List.mem_append.mp hc with hc | hc
    · exact ⟨0, by decide, List.eq_of_mem_replicate hc⟩
    · exact decimal_plain n c hc
  have hspace : ∀ c ∈ padLeft w '0' (decimal n), isSpace c = false := by
    intro c hc
    obtain ⟨d, hd, rfl⟩ := hplain c hc
    exact (digitChar_plain hd).2.2.2.1
  have hread : ∀ k : Nat, readNat 10 (List.replicate k '0' ++ decimal n) = some n := by
    intro k
    have hdigits : readDigits 10 0 (List.replicate k '0' ++ decimal n) = some n := by
      induction k with
      | zero => exact readDigits_toDigits (by decide) (by decide) n
      | succ k ih =>
        rw [List.replicate_succ, List.cons_append, show '0' = Nat.digitChar 0 from rfl,
          readDigits_cons_digit (by decide) (by decide)]
        exact ih
    cases k with
    | zero => exact readNat_toDigits (by decide) (by decide) n
    | succ k =>
      rw [List.replicate_succ, List.cons_append, readNat, if_neg (by decide), ← List.cons_append,
        ← List.replicate_succ]
      exact hdigits
  rw [readInt, strip_append ha hb]
  · refine readSigned_digits (fun c hc => ?_) (hread _)
    obtain ⟨d, hd, rfl⟩ := hplain c hc
    exact ⟨(digitChar_plain hd).2.1, (digitChar_plain hd).2.2.1⟩
  · simpa [Option.all_eq_true] using fun c hc => hspace c (List.mem_of_mem_head? hc)
  · simpa [Option.all_eq_true] using fun c hc => hspace c (List.mem_of_mem_getLast? hc)

theorem readInt_decimalInt (i : Int) : readInt (decimalInt i) = some i := by
  cases i with
  | ofNat n => exact readInt_decimal n
  | negSucc n =>
    rw [decimalInt, readInt, strip_word]
    · show (readNat 10 (decimal (n + 1))).map (fun m => -(m : Int)) = _
      rw [decimal, readNat_toDigits (by decide) (by decide)]
      rfl
    · intro c hc
      rcases List.mem_cons.mp hc with rfl | hc
      · decide
      · obtain ⟨d, hlt, rfl⟩ := decimal_plain _ c hc
        exact (digitChar_plain hlt).2.2.2.1

theorem readInt0_hex (n : Nat) : readInt0 (hex n) = some (n : Int) := by
  have hd : ∀ c ∈ Nat.toDigits 16 n, ∃ d, d < 16 ∧ c = d.digitChar :=
    fun c hc => mem_toDigits (by decide) hc
  have hx : ∀ c ∈ hex n, c = '0' ∨ c = 'x' ∨ ∃ d, d < 16 ∧ c = d.digitChar := by
    intro c hc
    rcases List.mem_cons.mp hc with rfl | hc
    · exact Or.inl rfl
    · rcases List.mem_cons.mp hc with rfl | hc
      · exact Or.inr (Or.inl rfl)
      · exact Or.inr (Or.inr (hd c hc))
  rw [readInt0, strip_word]
  · refine readSigned_digits (fun c hc => ?_) ?_
    · rcases hx c hc with rfl | rfl | ⟨d, hlt, rfl⟩
      · decide
      · decide
      · exact ⟨(digitChar_plain hlt).2.1, (digitChar_plain hlt).2.2.1⟩
    · show readNat 16 (dropUnderscore (Nat.toDigits 16 n)) = some n
      rw [dropUnderscore_toDigits (by decide) (by decide), readNat_toDigits (by decide) (by decide)]
  · intro c hc
    rcases hx c hc with rfl | rfl | ⟨d, hlt, rfl⟩
    · decide
    · decide
    · exact (digitChar_plain hlt).2.2.2.1

end Text
end Lib
