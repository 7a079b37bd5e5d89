import Silhouette.Tracer.TraceLines
import Mathlib.Data.List.GetD

/-!
# The buffer of `output_record`

A record is printed into 512 bytes on the stack.  `snprintf` returns how long the text is and not
how much of it was written, so that the sum of two such lengths may be more than there is.
`one_line_iff` says which records come out as one line.
-/

namespace Silhouette
namespace Tracer
namespace RecordBuffer

open Lib.Text TraceRecord

/-! ## The stack -/

/-- The bytes of the stack, from the first byte of the buffer on. -/
abbrev Stack := Nat → Char

def writeBytes (mem : Stack) (off : Nat) (bs : List Char) : Stack := fun i =>
  if off ≤ i then bs.getD (i - off) (mem i) else mem i

def readBytes (mem : Stack) (n : Nat) : List Char := (List.range n).map mem

/-- `snprintf`: as much as there is room for and a null byte are written.  The length is that of
the whole text. -/
def snprintf (mem : Stack) (off size : Nat) (text : List Char) : Stack × Nat :=
  (if size = 0 then mem else writeBytes mem off (text.take (size - 1) ++ ['\x00']), text.length)

theorem writeBytes_inside {mem : Stack} {bs : List Char} {i : Nat} (h : i < bs.length) :
    writeBytes mem 0 bs i = bs[i] := by
  rw [writeBytes, if_pos (Nat.zero_le i), Nat.sub_zero, List.getD_eq_getElem _ _ h]

theorem readBytes_writeBytes {mem : Stack} {bs : List Char} {n : Nat} (h : n ≤ bs.length) :
    readBytes (writeBytes mem 0 bs) n = bs.take n := by
  refine List.ext_getElem ?_ (fun i hi _ => ?_)
  · rw [readBytes, List.length_map, List.length_range, List.length_take, Nat.min_eq_left h]
  · have hlt : i < n := by simpa [readBytes] using hi
    simp only [readBytes, List.getElem_map, List.getElem_range, List.getElem_take]
    exact writeBytes_inside (by omega)

/-- The later text takes the place of what was behind the earlier. -/
theorem writeBytes_writeBytes (mem : Stack) (a : List Char) {b c : List Char}
    (h : c.length ≤ b.length) :
    writeBytes (writeBytes mem 0 (a ++ c)) a.length b = writeBytes mem 0 (a ++ b) := by
  funext i
  by_cases hi : i < a.length
  · have hc : i < (a ++ c).length := by rw [List.length_append]; omega
    have hb : i < (a ++ b).length := by rw [List.length_append]; omega
    rw [writeBytes, if_neg (by omega), writeBytes_inside hc, writeBytes_inside hb,
      List.getElem_append_left hi, List.getElem_append_left hi]
  · by_cases hin : i - a.length < b.length
    · have hb : i < (a ++ b).length := by rw [List.length_append]; omega
      rw [writeBytes, if_pos (by omega), writeBytes_inside hb, List.getElem_append_right (by omega),
        List.getD_eq_getElem _ _ hin]
    · have hc : (a ++ c).length ≤ i := by rw [List.length_append]; omega
      have hb : (a ++ b).length ≤ i := by rw [List.length_append]; omega
      rw [writeBytes, if_pos (by omega), List.getD_eq_default _ _ (by omega), writeBytes, writeBytes,
        if_pos (by omega), if_pos (by omega), Nat.sub_zero, List.getD_eq_default _ _ hc,
        List.getD_eq_default _ _ hb]

/-! ## A record -/

/-- `"%8lu, %8d, "` -/
def recordPrefix (seq : UInt64) (pid : Int32) : List Char :=
  num seq.toNat ++ (lit ", " ++ (padLeft 8 ' ' (decimalInt pid.toInt) ++ lit ", "))

/-- The text of a record.  `body` is what the format of the record comes to. -/
def recordText (seq : UInt64) (pid : Int32) (body : List Char) : List Char :=
  recordPrefix seq pid ++ body

/-- `output_record` up to the choice of the route: the stack and `size1 + size2`. -/
def formatRecord (mem : Stack) (seq : UInt64) (pid : Int32) (body : List Char) : Stack × Nat :=
  let p₁ := snprintf mem 0 512 (recordPrefix seq pid)
  let p₂ := snprintf p₁.1 p₁.2 (512 - p₁.2) body
  (if p₁.2 + p₂.2 = 512 then writeBytes p₂.1 511 ['\n'] else p₂.1, p₁.2 + p₂.2)

/-- What `trace_wbuf_add` copies into the node. -/
def traceWbufAdd (src : Stack) (size : Nat) : List Char :=
  readBytes src (if size > 512 then 512 else size)

/-- What `write_file` writes to the file. -/
def writeFile (data : Stack) (len : Nat) : List Char := readBytes data len

/-- `output_record`: the bytes that go to the trace file or to the list. -/
def outputBytes (mem : Stack) (atomic : Bool) (seq : UInt64) (pid : Int32) (body : List Char) :
    List Char :=
  let r := formatRecord mem seq pid body
  if atomic then traceWbufAdd r.1 r.2 else writeFile r.1 r.2

/-- The bytes are one line of the trace and come from the text. -/
structure OneLine (size : Nat) (bytes text : List Char) : Prop where
  bound : size ≤ 512
  last : bytes.getLast? = some '\n'
  one : '\n' ∉ bytes.dropLast
  within : bytes.dropLast <+: text
  short : bytes.length ≤ text.length

theorem length_num_le (n : Nat) (h : n < 2 ^ 64) : (num n).length ≤ 20 := by
  have hlen : (decimal n).length ≤ 20 :=
    (Nat.length_toDigits_le_iff (by decide) (by decide)).mpr (by omega)
  rw [num, padLeft, List.length_append, List.length_replicate]
  omega

theorem length_decimalInt_le (i : Int32) : (decimalInt i.toInt).length ≤ 11 := by
  have hlo := i.le_toInt
  have hhi := i.toInt_lt
  have hlen : ∀ n : Nat, n < 10 ^ 10 → (decimal n).length ≤ 10 := fun n hn =>
    (Nat.length_toDigits_le_iff (by decide) (by decide)).mpr hn
  generalize i.toInt = j at hlo hhi
  cases j with
  | ofNat n =>
    change (n : Int) < _ at hhi
    have h := hlen n (by omega)
    show (decimal n).length ≤ 11
    omega
  | negSucc n =>
    have h := hlen (n + 1) (by omega)
    show (decimal (n + 1)).length + 1 ≤ 11
    omega

/-- The prefix always fits. -/
theorem length_recordPrefix_le (seq : UInt64) (pid : Int32) :
    (recordPrefix seq pid).length ≤ 35 := by
  have hseq := length_num_le seq.toNat seq.toNat_lt
  have hpid := length_decimalInt_le pid
  have hcomma : (lit ", ").length = 2 := rfl
  rw [recordPrefix, List.length_append, List.length_append, List.length_append, padLeft,
    List.length_append, List.length_replicate, hcomma]
  omega

theorem snprintf_size (mem : Stack) (seq : UInt64) (pid : Int32) (body : List Char) :
    (formatRecord mem seq pid body).2 = (recordText seq pid body).length := by
  rw [recordText, List.length_append]
  rfl

/-- The buffer has what fits of the text and a null byte, or a newline where the text has just the
length of the buffer. -/
theorem formatRecord_stack (mem : Stack) (seq : UInt64) (pid : Int32) (body : List Char) :
    (formatRecord mem seq pid body).1 = writeBytes mem 0 ((recordText seq pid body).take 511 ++
      [if (recordText seq pid body).length = 512 then '\n' else '\x00']) := by
  have hlen := length_recordPrefix_le seq pid
  have hone : (recordPrefix seq pid).take 511 = recordPrefix seq pid :=
    List.take_of_length_le (by omega)
  have hsnprintf : (snprintf (snprintf mem 0 512 (recordPrefix seq pid)).1
      (recordPrefix seq pid).length (512 - (recordPrefix seq pid).length) body).1 =
        writeBytes mem 0 ((recordText seq pid body).take 511 ++ ['\x00']) := by
    rw [snprintf, snprintf, if_neg (by omega), if_neg (by omega)]
    show writeBytes (writeBytes mem 0 ((recordPrefix seq pid).take 511 ++ ['\x00'])) _ _ = _
    rw [hone, writeBytes_writeBytes _ _ (by rw [List.length_append]; exact Nat.le_add_left _ _),
      recordText, List.take_append, hone, List.append_assoc]
    congr 4
    omega
  show (if (recordPrefix seq pid).length + body.length = 512 then _ else _) = _
  rw [recordText, List.length_append]
  by_cases hfull : (recordPrefix seq pid).length + body.length = 512
  · have htake : ((recordText seq pid body).take 511).length = 511 := by
      rw [recordText, List.length_take, List.length_append]
      omega
    rw [if_pos hfull, if_pos hfull]
    show writeBytes (snprintf (snprintf mem 0 512 (recordPrefix seq pid)).1
      (recordPrefix seq pid).length (512 - (recordPrefix seq pid).length) body).1 511 ['\n'] = _
    rw [hsnprintf]
    have hover := @writeBytes_writeBytes mem ((recordText seq pid body).take 511) ['\n'] ['\x00']
      (Nat.le_refl 1)
    rw [htake] at hover
    exact hover
  · rw [if_neg hfull, if_neg hfull]
    exact hsnprintf

/-- A record gives away as many bytes as its text has, as long as it fits the buffer. -/
theorem outputBytes_eq {seq : UInt64} {pid : Int32} {body : List Char} (mem : Stack)
    (atomic : Bool) (hfit : (recordText seq pid body).length ≤ 512) :
    outputBytes mem atomic seq pid body =
      if (recordText seq pid body).length = 512 then (recordText seq pid body).take 511 ++ ['\n']
      else recordText seq pid body := by
  have hsize : (if (formatRecord mem seq pid body).2 > 512 then 512
      else (formatRecord mem seq pid body).2) = (recordText seq pid body).length := by
    rw [snprintf_size, if_neg (by omega)]
  have hbytes : outputBytes mem atomic seq pid body =
      readBytes (formatRecord mem seq pid body).1 (recordText seq pid body).length := by
    cases atomic with
    | false =>
      show readBytes _ (formatRecord mem seq pid body).2 = _
      rw [snprintf_size]
    | true =>
      show readBytes _ (if (formatRecord mem seq pid body).2 > 512 then 512
        else (formatRecord mem seq pid body).2) = _
      rw [hsize]
  rw [hbytes, formatRecord_stack, readBytes_writeBytes]
  · split_ifs with hfull
    · apply List.take_of_length_le
      rw [List.length_append, List.length_take, List.length_singleton]
      omega
    · rw [List.take_append_of_le_length (by rw [List.length_take]; omega), List.take_take,
        List.take_of_length_le (by omega)]
  · rw [List.length_append, List.length_take, List.length_singleton]
    omega

/-- `write_file` takes the length of the text, whatever the buffer holds of it. -/
theorem length_outputBytes (mem : Stack) (seq : UInt64) (pid : Int32) (body : List Char) :
    (outputBytes mem false seq pid body).length = (recordText seq pid body).length := by
  show (readBytes _ (formatRecord mem seq pid body).2).length = _
  rw [snprintf_size, readBytes, List.length_map, List.length_range]

/-- A record is one line when it is shorter than the buffer and its text is one, or when the text
has just the length of the buffer and no newline before its last byte. -/
theorem one_line_iff (mem : Stack) (atomic : Bool) (seq : UInt64) (pid : Int32)
    (body : List Char) :
    OneLine (formatRecord mem seq pid body).2 (outputBytes mem atomic seq pid body)
        (recordText seq pid body) ↔
      ((recordText seq pid body).length < 512 ∧ (recordText seq pid body).getLast? = some '\n' ∧
        '\n' ∉ (recordText seq pid body).dropLast) ∨
      ((recordText seq pid body).length = 512 ∧ '\n' ∉ (recordText seq pid body).take 511) := by
  rw [snprintf_size]
  by_cases hfit : (recordText seq pid body).length ≤ 512
  · rw [outputBytes_eq mem atomic hfit]
    generalize recordText seq pid body = text at hfit
    by_cases hfull : text.length = 512
    · rw [if_pos hfull]
      constructor
      · intro h
        have hone := h.one
        rw [List.dropLast_concat] at hone
        exact Or.inr ⟨hfull, hone⟩
      · rintro (⟨hlt, _⟩ | ⟨_, hone⟩)
        · omega
        · exact
            { bound := hfit
              last := List.getLast?_concat
              one := by rw [List.dropLast_concat]; exact hone
              within := by rw [List.dropLast_concat]; exact List.take_prefix 511 text
              short := by
                rw [List.length_append, List.length_take, List.length_singleton]
                omega }
    · rw [if_neg hfull]
      constructor
      · intro h
        exact Or.inl ⟨by omega, h.last, h.one⟩
      · rintro (⟨_, hlast, hone⟩ | ⟨hlen, _⟩)
        · exact ⟨hfit, hlast, hone, List.dropLast_prefix text, Nat.le_refl _⟩
        · exact absurd hlen hfull
  · apply iff_of_false
    · exact fun h => hfit h.bound
    · rintro (⟨hlt, _⟩ | ⟨hlen, _⟩) <;> omega

/-! ## The records of the trace functions -/

/-- What the format of a record comes to. -/
def recordBody (r : TraceRecord) : List Char :=
  padRight 15 r.tag.toList ++ (lit ", id: " ++ (num r.printedId ++ r.details))

theorem recordText_body (r : TraceRecord) (seq : UInt64) (pid : Int32) :
    recordText seq pid (recordBody r) = r.text seq.toNat pid.toInt := by
  rw [recordText, recordPrefix, recordBody, TraceRecord.text]
  simp only [List.append_assoc]

/-- The line of a record is what goes to the trace file, whatever was on the stack. -/
theorem outputRecord_bytes {r : TraceRecord} {seq : UInt64} {pid : Int32} {line : List Char}
    (mem : Stack) (atomic : Bool) (h : outputRecord seq.toNat pid.toInt r = some line) :
    outputBytes mem atomic seq pid (recordBody r) = line := by
  have hfit : (recordText seq pid (recordBody r)).length ≤ 512 := by
    rw [recordText_body]
    rw [outputRecord] at h
    split_ifs at h with hlt hfull <;> omega
  rw [outputBytes_eq mem atomic hfit, recordText_body]
  rw [outputRecord] at h
  split_ifs at h ⊢ with hlt hfull
  · omega
  · exact Option.some.inj h
  · exact Option.some.inj h

/-- An instruction of 399 characters in a function and a file with long names. -/
def longAsm : TraceRecord :=
  .ukAsm 3 (String.ofList (List.replicate 30 'f')) (String.ofList (List.replicate 60 'p')) 10
    (String.ofList (List.replicate 399 'a'))

theorem length_longAsm : (recordText 1 1 (recordBody longAsm)).length = 576 := by
  have hprefix : (recordPrefix 1 1).length = 20 := by decide +kernel
  have htag : (padRight 15 longAsm.tag.toList ++ (lit ", id: " ++ num longAsm.printedId)).length =
      29 := by decide +kernel
  have hparts : (lit ", caller: ").length = 10 ∧ (lit ", fname: ").length = 9 ∧
      (lit ", line: ").length = 8 ∧ (decimal 10).length = 2 ∧ (lit ", asm: ").length = 7 ∧
      (lit ".\n").length = 2 := by decide +kernel
  obtain ⟨hcaller, hfname, hline, hnumber, hasm, hdot⟩ := hparts
  rw [List.length_append, List.length_append] at htag
  rw [recordText, List.length_append, hprefix, recordBody, List.length_append, List.length_append,
    List.length_append]
  have hdetails : longAsm.details.length = 527 := by
    simp only [longAsm, details, List.length_append, String.toList_ofList, List.length_replicate,
      hcaller, hfname, hline, hnumber, hasm, hdot]
  omega

/-- `trace_inline_asm_unknown` lets the instruction pass.  Neither route gives a line, and what
goes to the file ends behind the buffer. -/
theorem long_record_not_line :
    TraceCall.records ⟨0, 0, 0⟩ 1 (.inlineAsmUnknown 3 (String.ofList (List.replicate 30 'f'))
        (String.ofList (List.replicate 60 'p')) 10 (String.ofList (List.replicate 399 'a'))) =
      [(1, longAsm)] ∧
    (∀ atomic, ¬ OneLine (formatRecord (fun _ => '\x00') 1 1 (recordBody longAsm)).2
      (outputBytes (fun _ => '\x00') atomic 1 1 (recordBody longAsm))
      (recordText 1 1 (recordBody longAsm))) ∧
    (outputBytes (fun _ => '\x00') false 1 1 (recordBody longAsm)).length = 576 := by
  refine ⟨?_, fun atomic h => ?_, ?_⟩
  · rw [TraceCall.records, if_pos (by rw [String.length_ofList, List.length_replicate]; omega)]
    rfl
  · have hbound := h.bound
    rw [snprintf_size, length_longAsm] at hbound
    omega
  · rw [length_outputBytes, length_longAsm]

end RecordBuffer
end Tracer
end Silhouette
