import Silhouette.Tracer.TraceLines

/-!
# Reading a line back

A line splits at blanks, commas and dots into the items its format was put together from, and
the reader finds the fields of the record at their positions.

Every record comes back except two: an unknown assembly record, whose caller is read from
the item behind it, and the record of the device, which is printed without its instruction
and with its size in whole mebibytes.
-/

namespace Silhouette
namespace Tracer

open Lib.Text Trace

/-! ## The items of a line -/

def isBlank (c : Char) : Bool := isSpace c || c = ',' || c = '.'

theorem lineItems_eq {line : List Char} (h : fields isBlank line ≠ []) :
    lineItems line = fields isBlank line := by
  have hmap : words (line.map fun c => if c = ',' ∨ c = '.' then ' ' else c) =
      fields isBlank line := by
    refine fields_map (fun c => ?_) (fun c hc => ?_) line
    · by_cases hc : c = ',' ∨ c = '.'
      · rw [if_pos hc]
        rcases hc with rfl | rfl
        · rfl
        · rfl
      · rw [if_neg hc]
        rw [not_or] at hc
        simp [isBlank, hc.1, hc.2]
    · refine if_neg (fun hc' => ?_)
      rcases hc' with rfl | rfl
      · exact absurd hc (by decide)
      · exact absurd hc (by decide)
  rw [lineItems, hmap]
  refine splitOn_joinWords h (fun w hw c hc => ?_)
  have hb := (of_mem_fields hw).2 c hc
  simp only [isBlank, Bool.or_eq_false_iff] at hb
  exact hb.1.1

theorem digit_not_blank {d : Nat} (h : d < 16) : isBlank d.digitChar = false := by
  interval_cases d <;> decide

theorem fields_decimal (n : Nat) : fields isBlank (decimal n) = [decimal n] := by
  refine fields_word (fun c hc => ?_) Nat.toDigits_ne_nil
  obtain ⟨d, hd, rfl⟩ := decimal_plain n c hc
  exact digit_not_blank hd

theorem fields_decimalInt (i : Int) : fields isBlank (decimalInt i) = [decimalInt i] := by
  cases i with
  | ofNat n => exact fields_decimal n
  | negSucc n =>
    refine fields_word (fun c hc => ?_) (List.cons_ne_nil _ _)
    rcases List.mem_cons.mp hc with rfl | hc
    · decide
    · obtain ⟨d, hd, rfl⟩ := decimal_plain _ c hc
      exact digit_not_blank hd

theorem fields_hex (n : Nat) : fields isBlank (hex n) = [hex n] := by
  refine fields_word (fun c hc => ?_) (List.cons_ne_nil _ _)
  rcases List.mem_cons.mp hc with rfl | hc
  · decide
  · rcases List.mem_cons.mp hc with rfl | hc
    · decide
    · obtain ⟨d, hd, rfl⟩ := mem_toDigits (by decide) hc
      exact digit_not_blank hd

theorem fields_padLeft (w : Nat) (cs : List Char) :
    fields isBlank (padLeft w ' ' cs) = fields isBlank cs := by
  have hblank : ∀ c ∈ List.replicate (w - cs.length) ' ', isBlank c = true := by
    intro c hc
    rw [List.eq_of_mem_replicate hc]
    rfl
  rw [padLeft, fields_append_of_closed, fields_blank hblank, List.nil_append]
  rw [Option.all_eq_true]
  exact fun c hc => hblank c (List.mem_of_mem_getLast? hc)

theorem fields_padRight (w : Nat) (cs : List Char) :
    fields isBlank (padRight w cs) = fields isBlank cs := by
  have hblank : ∀ c ∈ List.replicate (w - cs.length) ' ', isBlank c = true := by
    intro c hc
    rw [List.eq_of_mem_replicate hc]
    rfl
  rw [padRight, fields_append_of_open, fields_blank hblank, List.append_nil]
  rw [Option.all_eq_true]
  exact fun c hc => hblank c (List.mem_of_mem_head? hc)

theorem fields_identifier {s : String} (h : IsIdentifier s) :
    fields isBlank s.toList = [s.toList] := by
  refine fields_word (fun c hc => ?_) h.1
  by_contra hb
  rw [Bool.not_eq_false, isBlank] at hb
  simp only [Bool.or_eq_true, decide_eq_true_eq] at hb
  have hplain := h.2 c hc
  rcases hb with (hb | rfl) | rfl
  · rcases hplain with hc | rfl
    · exact absurd hb (Bool.eq_false_iff.mp (isSpace_of_isAlphanum hc))
    · exact absurd hb (by decide)
  · exact absurd hplain (by decide)
  · exact absurd hplain (by decide)

/-- A word and the label behind it. -/
theorem fields_tok_append (tok rest : List Char) {sep : String}
    (h : (lit sep).head?.any isBlank = true) :
    fields isBlank (tok ++ (lit sep ++ rest)) =
      fields isBlank tok ++ fields isBlank (lit sep ++ rest) := by
  refine fields_append_of_open _ ?_
  cases hs : lit sep with
  | nil => exact absurd h (by simp [hs])
  | cons c cs => simpa [hs] using h

theorem fields_sep_append {sep : String}
    (h : (lit sep).getLast?.all isBlank = true) (rest : List Char) :
    fields isBlank (lit sep ++ rest) =
      fields isBlank (lit sep) ++ fields isBlank rest :=
  fields_append_of_closed h rest

/-- A record is printed under the name of its type. -/
theorem tag_eq (r : TraceRecord) : r.tag = typeString r.type := by
  cases r with
  | access kind => cases kind <;> rfl
  | func kind => cases kind <;> rfl
  | call kind => cases kind <;> rfl
  | uaccess kind => cases kind <;> rfl
  | structPtr kind => cases kind <;> rfl
  | _ => rfl

theorem typeOfString_typeString (t : TraceType) : typeOfString (typeString t).toList = some t := by
  cases t <;> decide

theorem fields_typeString (t : TraceType) :
    fields isBlank (typeString t).toList = [(typeString t).toList] := by
  cases t <;> decide

theorem details_head (r : TraceRecord) : r.details.head?.all isBlank = true := by
  cases r <;> rfl

/-- The items of a line up to the instruction. -/
theorem fields_text (r : TraceRecord) (seq : Nat) (pid : Int) :
    fields isBlank (r.text seq pid) =
      [decimal seq, decimalInt pid, r.tag.toList, "id:".toList, decimal r.printedId] ++
        fields isBlank r.details := by
  have hcomma : fields isBlank (lit ", ") = [] := by decide
  have hid : fields isBlank (lit ", id: ") = ["id:".toList] := by decide
  rw [TraceRecord.text, tag_eq]
  simp (disch := decide) only [fields_tok_append, fields_sep_append]
  rw [fields_append_of_open _ (details_head r), hcomma, hid]
  simp only [TraceRecord.num, fields_padLeft, fields_padRight, fields_decimal, fields_decimalInt,
    fields_typeString]
  rfl

/-- The items behind the instruction, up to a file name or an assembly text. -/
def TraceRecord.items : TraceRecord → List (List Char)
  | .asmFlush _ src => ["ptr:".toList, hex src]
  | .asmFence _ | .impFence _ => []
  | .access _ _ ptr size | .centFlush _ ptr size =>
    ["ptr:".toList, hex ptr, "size:".toList, decimal size]
  | .ukAsm _ caller .. => ["caller:".toList, caller.toList, "fname:".toList]
  | .func _ _ ptr fn => ["ptr:".toList, hex ptr, "fn:".toList, fn.toList]
  | .endBB _ ptr fn callId =>
    ["ptr:".toList, hex ptr, "fn:".toList, fn.toList, "call_id:".toList, decimal callId]
  | .select _ flag => ["flag:".toList, decimal flag]
  | .call _ _ caller callee .. =>
    ["caller:".toList, caller.toList, "callee:".toList, callee.toList, "fname:".toList]
  | .uaccess _ _ src dst size =>
    ["from:".toList, hex src, "to:".toList, hex dst, "size:".toList, decimal size]
  | .daxDevInfo _ addr pages =>
    [hex addr, hex (daxEnd addr pages), decimalInt ((daxSize pages).tdiv 1048576)]
  | .structPtr _ _ stname ptr idx size =>
    ["type:".toList, stname.toList, "ptr:".toList, hex ptr, "idx:".toList, decimal idx,
      "size:".toList, decimal size]
  | .dbgStore _ stname ptr size =>
    ["type:".toList, stname.toList, "ptr:".toList, hex ptr, "size:".toList, decimal size]

/-- The labels of the formats. -/
theorem fields_labels :
    fields isBlank (lit ", ptr: ") = ["ptr:".toList] ∧
    fields isBlank (lit ", size: ") = ["size:".toList] ∧
    fields isBlank (lit ", fn: ") = ["fn:".toList] ∧
    fields isBlank (lit ", call_id: ") = ["call_id:".toList] ∧
    fields isBlank (lit ", flag: ") = ["flag:".toList] ∧
    fields isBlank (lit ", caller: ") = ["caller:".toList] ∧
    fields isBlank (lit ", callee: ") = ["callee:".toList] ∧
    fields isBlank (lit ", fname: ") = ["fname:".toList] ∧
    fields isBlank (lit ", from: ") = ["from:".toList] ∧
    fields isBlank (lit ", to: ") = ["to:".toList] ∧
    fields isBlank (lit ", type: ") = ["type:".toList] ∧
    fields isBlank (lit ", idx: ") = ["idx:".toList] ∧
    fields isBlank (lit ", ") = [] ∧ fields isBlank (lit ".\n") = [] := by
  decide

theorem fields_end {tok : List Char} :
    fields isBlank (tok ++ lit ".\n") = fields isBlank tok := by
  rw [fields_append_of_open _ (by decide)]
  exact List.append_nil _

theorem fields_details {r : TraceRecord} (h : r.Named) :
    ∃ rest, fields isBlank r.details = r.items ++ rest := by
  -- Behind the file name anything may follow; the items in front of it are known.
  cases r with
  | ukAsm id caller fname line asm =>
    refine ⟨fields isBlank (fname.toList ++ (lit ", line: " ++ (decimal line ++
      (lit ", asm: " ++ (asm.toList ++ lit ".\n"))))), ?_⟩
    rw [TraceRecord.details, fields_sep_append (by decide), fields_tok_append _ _ (by decide),
      fields_sep_append (by decide), fields_identifier h]
    simp only [fields_labels]
    rfl
  | call kind id caller callee fname line =>
    refine ⟨fields isBlank (fname.toList ++ (lit ", line: " ++ (decimal line ++
      lit ".\n"))), ?_⟩
    rw [TraceRecord.details, fields_sep_append (by decide), fields_tok_append _ _ (by decide),
      fields_sep_append (by decide), fields_tok_append _ _ (by decide),
      fields_sep_append (by decide), fields_identifier h.1, fields_identifier h.2]
    simp only [fields_labels]
    rfl
  | func kind id ptr fn | endBB id ptr fn callId | structPtr kind id stname ptr idx size
  | dbgStore id stname ptr size =>
    refine ⟨[], ?_⟩
    simp (disch := decide) only [TraceRecord.details, fields_tok_append, fields_sep_append,
      fields_end, fields_labels, fields_identifier h, fields_hex, fields_padLeft, fields_padRight,
      fields_decimal, TraceRecord.num]
    rfl
  | _ =>
    refine ⟨[], ?_⟩
    simp (disch := decide) only [TraceRecord.details, fields_tok_append, fields_sep_append,
      fields_end, fields_labels, fields_hex, fields_padLeft, fields_decimal, fields_decimalInt,
      TraceRecord.num]
    rfl

theorem isValidTraceLine_text (r : TraceRecord) (seq : Nat) (pid : Int) :
    isValidTraceLine (r.text seq pid) = true := by
  have hid : lit ", id: " = [',', ' '] ++ "id:".toList ++ [' '] := by decide
  rw [isValidTraceLine, decide_eq_true_eq, TraceRecord.text, hid]
  refine ⟨TraceRecord.num seq ++ (lit ", " ++ (padLeft 8 ' ' (decimalInt pid) ++
    (lit ", " ++ (padRight 15 r.tag.toList ++ [',', ' '])))),
    [' '] ++ (TraceRecord.num r.printedId ++ r.details), ?_⟩
  simp only [List.append_assoc]

/-- The items of a record in front of whatever follows a file name. -/
def TraceRecord.line (r : TraceRecord) (seq : Nat) (pid : Int) (rest : List (List Char)) :
    List (List Char) :=
  decimal seq :: decimalInt pid :: r.tag.toList :: "id:".toList :: decimal r.printedId ::
    (r.items ++ rest)

theorem parseLine_text {r : TraceRecord} (h : r.Named) (seq : Nat) (pid : Int) :
    ∃ rest, parseLine (r.text seq pid) = parseDetails (r.line seq pid rest)
      { r.base seq pid with instid := r.printedId } := by
  obtain ⟨rest, hrest⟩ := fields_details h
  have hfields : fields isBlank (r.text seq pid) = r.line seq pid rest := by
    rw [fields_text, hrest]
    rfl
  have hitems : lineItems (r.text seq pid) = r.line seq pid rest := by
    rw [lineItems_eq, hfields]
    rw [hfields]
    exact List.cons_ne_nil _ _
  refine ⟨rest, ?_⟩
  rw [parseLine, if_pos (isValidTraceLine_text r seq pid), hitems]
  simp only [TraceRecord.line, List.getElem?_cons_zero, List.getElem?_cons_succ, Option.bind_some,
    readInt_decimal, readInt_decimalInt, tag_eq, typeOfString_typeString]
  rfl

theorem parseDetails_ukAsm (seq : Nat) (pid : Int) (rest : List (List Char)) (id line : Nat)
    (caller fname asm : String) (e : TraceEntry) (h : e.type = .ukAsm) :
    parseDetails (TraceRecord.line (.ukAsm id caller fname line asm) seq pid rest) e =
      some { e with caller := "fname:" } := by
  simp [parseDetails, TraceRecord.line, TraceRecord.items, h]

theorem parseDetails_daxDevInfo (seq : Nat) (pid : Int) (rest : List (List Char)) (id addr : Nat)
    (pages : Int) (e : TraceEntry) (h : e.type = .daxDevInfo) :
    let size := (TraceRecord.daxSize pages).tdiv 1048576 * 1048576
    parseDetails (TraceRecord.line (.daxDevInfo id addr pages) seq pid rest) e =
      if addr + size = TraceRecord.daxEnd addr pages then
        some { e with addr := addr, size := size } else none := by
  simp [parseDetails, TraceRecord.line, TraceRecord.items, h, readInt0_hex, readInt_decimalInt]

/-- The fields of a record of any other kind. -/
theorem parseDetails_line {r : TraceRecord} (seq : Nat) (pid : Int) (rest : List (List Char))
    (hasm : r.type ≠ .ukAsm) (hdax : r.type ≠ .daxDevInfo) :
    parseDetails (r.line seq pid rest) { r.base seq pid with instid := r.printedId } =
      some (r.entry seq pid) := by
  cases r with
  | ukAsm id caller fname line asm => exact absurd rfl hasm
  | daxDevInfo id addr pages => exact absurd rfl hdax
  | call kind id caller callee fname line =>
    cases kind <;> simp [parseDetails, TraceRecord.line, TraceRecord.items, TraceRecord.base,
      TraceRecord.type, TraceRecord.entry, TraceRecord.instid]
  | func kind id ptr fn =>
    cases kind <;> simp [parseDetails, TraceRecord.line, TraceRecord.items, TraceRecord.base,
      TraceRecord.type, TraceRecord.entry, TraceRecord.instid, readInt0_hex]
  | access kind | uaccess kind | structPtr kind =>
    cases kind <;> simp [parseDetails, TraceRecord.line, TraceRecord.items, TraceRecord.base,
      TraceRecord.type, TraceRecord.entry, TraceRecord.instid, readInt0_hex, readInt_decimal]
  | _ =>
    simp [parseDetails, TraceRecord.line, TraceRecord.items, TraceRecord.base, TraceRecord.type,
      TraceRecord.entry, TraceRecord.instid, readInt0_hex, readInt_decimal]

/-! ## Which records come back -/

theorem roundTrips_iff {r : TraceRecord} {seq : Nat} {pid : Int}
    (hlen : (r.text seq pid).length < 512) :
    RoundTrips seq pid r ↔ parseLine (r.text seq pid) = some (r.entry seq pid) := by
  have hout : outputRecord seq pid r = some (r.text seq pid) := by
    simp only [outputRecord, if_pos hlen]
  constructor
  · rintro ⟨line, hline, -, hparse⟩
    rw [hout, Option.some.injEq] at hline
    rw [hline]
    exact hparse
  · exact fun hparse => ⟨_, hout, isValidTraceLine_text r seq pid, hparse⟩

theorem roundTrips_of_other {r : TraceRecord} {seq : Nat} {pid : Int} (hnamed : r.Named)
    (hlen : (r.text seq pid).length < 512) (hasm : r.type ≠ .ukAsm)
    (hdax : r.type ≠ .daxDevInfo) : RoundTrips seq pid r := by
  obtain ⟨rest, hparse⟩ := parseLine_text hnamed seq pid
  rw [roundTrips_iff hlen, hparse, parseDetails_line seq pid rest hasm hdax]

/-- The caller of an unknown assembly record is read as the label behind it. -/
theorem not_roundTrips_ukAsm {id line seq : Nat} {pid : Int} {caller fname asm : String}
    (hnamed : IsIdentifier caller)
    (hlen : ((TraceRecord.ukAsm id caller fname line asm).text seq pid).length < 512) :
    ¬ RoundTrips seq pid (.ukAsm id caller fname line asm) := by
  obtain ⟨rest, hparse⟩ := parseLine_text (r := .ukAsm id caller fname line asm) hnamed seq pid
  rw [roundTrips_iff hlen, hparse, parseDetails_ukAsm _ _ _ _ _ _ _ _ _ rfl]
  intro heq
  have hcaller : "fname:" = caller := congrArg TraceEntry.caller (Option.some.inj heq)
  have hcolon := hnamed.2 ':' (by rw [← hcaller]; decide)
  exact absurd hcolon (by decide)

theorem daxEnd_eq_iff (addr : Nat) (pages : Int) :
    (addr : Int) + TraceRecord.daxSize pages = TraceRecord.daxEnd addr pages ↔
      0 ≤ addr + TraceRecord.daxSize pages ∧ addr + TraceRecord.daxSize pages < 2 ^ 64 := by
  rw [TraceRecord.daxEnd]
  omega

/-- A size in bytes is a whole number of mebibytes when the pages are. -/
theorem daxSize_dvd_iff (pages : Int) : 1048576 ∣ TraceRecord.daxSize pages ↔ 256 ∣ pages := by
  rw [TraceRecord.daxSize, Int.bmod_def]
  split_ifs <;> omega

theorem roundTrips_daxDevInfo_iff {id addr seq : Nat} {pid pages : Int}
    (hlen : ((TraceRecord.daxDevInfo id addr pages).text seq pid).length < 512) :
    RoundTrips seq pid (.daxDevInfo id addr pages) ↔
      id = 0 ∧ 256 ∣ pages ∧ 0 ≤ addr + TraceRecord.daxSize pages ∧
        addr + TraceRecord.daxSize pages < 2 ^ 64 := by
  obtain ⟨rest, hparse⟩ := parseLine_text (r := .daxDevInfo id addr pages) trivial seq pid
  rw [roundTrips_iff hlen, hparse, parseDetails_daxDevInfo _ _ _ _ _ _ _ rfl, ← daxSize_dvd_iff,
    ← daxEnd_eq_iff]
  have htdiv : 1048576 ∣ TraceRecord.daxSize pages ↔
      (TraceRecord.daxSize pages).tdiv 1048576 * 1048576 = TraceRecord.daxSize pages :=
    ⟨Int.tdiv_mul_cancel, fun h => ⟨_, (Int.mul_comm _ _ ▸ h).symm⟩⟩
  constructor
  · intro heq
    split_ifs at heq with hend
    have he := Option.some.inj heq
    have hid : ((0 : Nat) : Int) = id := congrArg TraceEntry.instid he
    have hsize : (TraceRecord.daxSize pages).tdiv 1048576 * 1048576 = TraceRecord.daxSize pages :=
      congrArg TraceEntry.size he
    rw [hsize] at hend
    exact ⟨by omega, htdiv.mpr hsize, hend⟩
  · rintro ⟨rfl, hdvd, hend⟩
    have hsize := htdiv.mp hdvd
    rw [hsize, if_pos hend]
    rfl

/-- What a call must meet for its records to come back: it is not an unknown assembly text,
and a device comes without an instruction, in whole mebibytes and within the address space. -/
def TraceCall.Faithful : TraceCall → Prop
  | inlineAsmUnknown .. => False
  | daxAccess id addr size => id = 0 ∧ 256 ∣ size ∧
    0 ≤ addr + TraceRecord.daxSize size ∧ addr + TraceRecord.daxSize size < 2 ^ 64
  | _ => True

theorem call_roundTrips_iff (m : Nvmm) (call : TraceCall) (seq : Nat) (pid : Int)
    (hnamed : ∀ x ∈ call.records m seq, x.2.Named)
    (hlen : ∀ x ∈ call.records m seq, (x.2.text x.1 pid).length < 512) :
    (∀ x ∈ call.records m seq, RoundTrips x.1 pid x.2) ↔ call.Faithful := by
  have hother : (∀ x ∈ call.records m seq, x.2.type ≠ .ukAsm ∧ x.2.type ≠ .daxDevInfo) →
      ∀ x ∈ call.records m seq, RoundTrips x.1 pid x.2 :=
    fun h x hx => roundTrips_of_other (hnamed x hx) (hlen x hx) (h x hx).1 (h x hx).2
  cases call with
  | inlineAsmUnknown id callerName fname line asmStr =>
    simp only [TraceCall.records, List.forall_mem_singleton] at hnamed hlen ⊢
    exact iff_of_false (not_roundTrips_ukAsm hnamed hlen) not_false
  | daxAccess id addr size =>
    simp only [TraceCall.records, List.forall_mem_singleton] at hlen ⊢
    exact roundTrips_daxDevInfo_iff hlen
  | unknownStructPtrInst id ptr idx size stname =>
    refine iff_of_true (hother ?_) trivial
    rw [TraceCall.records]
    split_ifs <;> simp [TraceRecord.type]
  | uaccessCalls id dst src size | uaccessNtCalls id dst src size =>
    refine iff_of_true (hother fun x hx => ?_) trivial
    replace hx := (mem_checkSeq.mp hx).2
    revert x
    split_ifs <;> simp [TraceRecord.type]
  | inlineAsmXchglq | inlineAsmCas | inlineAsmMemsetnt | storeInst | xchgInst | rmwInst
  | memsetInst | memtransferInst | centralizedFlush =>
    refine iff_of_true (hother fun x hx => ?_) trivial
    replace hx := (mem_checkSeq.mp hx).2
    revert x
    simp [TraceRecord.type]
  | _ =>
    refine iff_of_true (hother ?_) trivial
    simp [TraceCall.records, TraceRecord.type]

theorem call_roundTrips_store :
    (∀ x ∈ (TraceCall.storeInst 7 4096 8).records ⟨0, 0, 0⟩ 12, x.2.Named) ∧
      ∀ x ∈ (TraceCall.storeInst 7 4096 8).records ⟨0, 0, 0⟩ 12, RoundTrips x.1 100 x.2 := by
  have hnamed : ∀ x ∈ (TraceCall.storeInst 7 4096 8).records ⟨0, 0, 0⟩ 12, x.2.Named := by
    intro x hx
    rw [List.mem_singleton.mp (mem_checkSeq.mp hx).2]
    trivial
  have hlen : ∀ x ∈ (TraceCall.storeInst 7 4096 8).records ⟨0, 0, 0⟩ 12,
      (x.2.text x.1 100).length < 512 := by
    decide +kernel
  exact ⟨hnamed, (call_roundTrips_iff _ _ 12 100 hnamed hlen).mpr trivial⟩

/-- The caller of an assembly text in `foo` is read as `fname:`. -/
theorem ukAsm_caller_lost :
    (∀ x ∈ (TraceCall.inlineAsmUnknown 3 "foo" "a.c" 9 "nop").records ⟨0, 0, 0⟩ 5,
      x.2.Named ∧ (x.2.text x.1 100).length < 512) ∧
    ∃ x ∈ (TraceCall.inlineAsmUnknown 3 "foo" "a.c" 9 "nop").records ⟨0, 0, 0⟩ 5,
      (parseLine (x.2.text x.1 100)).map TraceEntry.caller = some "fname:" ∧
        ¬ RoundTrips x.1 100 x.2 := by
  have hall : "foo".toList.all (fun c => decide (c.isAlphanum ∨ c = '_')) = true := by decide
  have hnamed : IsIdentifier "foo" :=
    ⟨by decide, fun c hc => of_decide_eq_true (List.all_eq_true.mp hall c hc)⟩
  have hlen : ((TraceRecord.ukAsm 3 "foo" "a.c" 9 "nop").text 5 100).length < 512 := by
    decide +kernel
  refine ⟨List.forall_mem_singleton.mpr ⟨hnamed, hlen⟩, _, List.mem_singleton_self _, ?_, ?_⟩
  · decide +kernel
  · exact not_roundTrips_ukAsm hnamed hlen

end Tracer
end Silhouette
