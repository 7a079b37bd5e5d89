import Silhouette.Mech.Memcpy

/-!
# The data of a replication

The check of a replication puts the stores to the primary over the old bytes of the replica, and
compares what comes out with the bytes that were copied.  It writes every store at its offset from
the struct that the store is annotated with, by assigning to a slice, and never looks where the copy
starts.  A struct around or inside the copied range gives other offsets, and a slice that does not
lie in the buffer moves the bytes behind it.

`data_check_iff` says for which stores the comparison is the one that the check is for, whatever
bytes they carry.
-/

namespace Silhouette
namespace Mech

open Lib Lib.Bytes Trace

namespace MechReplEntry

open ReplInvariantErrorType

/-- The stores over the old bytes, each at its offset from the source of the copy, and what lies
outside of the copy left out. -/
def copiedData (src : Int) (stores : List MechPMStoreEntry) (old : List UInt8) : List UInt8 :=
  stores.foldl (fun data pmStore =>
    match pmStore.op.svEntry with
    | none => data
    | some bytes => writeAt data (pmStore.addr - src) bytes) old

/-- A replication as it is recorded, with stores that are annotated with the struct at `A`: the
stores lie on the copied range, and their bytes and those of the copy are as many as the records
say. -/
structure Recorded (info : RecordInfo) (e : MechReplEntry) (A : Int) : Prop where
  size_pos : 0 < e.storeOp.size
  overlap : ∀ s ∈ e.storesToPrimaryReplica, 0 < s.size ∧
    s.addr < e.storeOp.srcAddr + e.storeOp.size ∧ e.storeOp.srcAddr < s.addr + s.size
  annotated : ∀ s ∈ e.storesToPrimaryReplica, info.structAddr s.op = some A
  bytes : ∀ s ∈ e.storesToPrimaryReplica, ∀ b, s.op.svEntry = some b → (b.length : Int) = s.size
  replica : ∃ b, e.storeOp.opSt.svEntry = some b ∧ (b.length : Int) = e.storeOp.size
  old : ∀ b, info.ovEntry e.storeOp.opSt = some b → (b.length : Int) = e.storeOp.size

/-- The check returns, reports a mismatch if and only if the stores do not give the copied bytes,
and compares two buffers that are as long as the copy. -/
def DataRight (info : RecordInfo) (e : MechReplEntry) : Prop :=
  ∃ errs, e.invariantCheck info = some errs ∧
    ∀ replica old, e.storeOp.opSt.svEntry = some replica →
      info.ovEntry e.storeOp.opSt = some old →
      (primaryAndReplicaDataNotMatch ∈ errs ↔
        copiedData e.storeOp.srcAddr e.storesToPrimaryReplica old ≠ replica) ∧
      (∀ x, e.storesToPrimaryReplica.foldlM
          (checkPrimaryStore info e.storeOp.opSt.seq) ([], 0) = some x →
        ((primaryData x.2 e.storesToPrimaryReplica old).length : Int) = e.storeOp.size ∧
          (replica.length : Int) = e.storeOp.size)

/-- Two records that differ in their bytes at most. -/
def SameRecord (op op' : TraceEntry) : Prop :=
  ∃ b : Option (List UInt8), b.isSome = op.svEntry.isSome ∧ op' = { op with svEntry := b }

/-- Two replications that differ in the bytes that are stored and copied at most. -/
structure SameShape (e e' : MechReplEntry) : Prop where
  load : e'.storeOp.opLd = e.storeOp.opLd
  store : SameRecord e.storeOp.opSt e'.storeOp.opSt
  stores : List.Forall₂ (fun s s' : MechPMStoreEntry => ∃ op, SameRecord s.op op ∧
    s' = { s with op := op }) e.storesToPrimaryReplica e'.storesToPrimaryReplica

/-- There are stores, all of them are fenced, and those with bytes lie in the copied range.  The
struct they are annotated with starts where the copy does.  It may also start where the copy ends,
since then all offsets are counted from the end of the buffer, but no store may reach it. -/
structure Placed (e : MechReplEntry) (A : Int) : Prop where
  stores : e.storesToPrimaryReplica ≠ []
  struct : A ≠ 0
  fenced : ∀ s ∈ e.storesToPrimaryReplica, s.fenceOp.isSome = true
  within : ∀ s ∈ e.storesToPrimaryReplica, s.op.svEntry.isSome = true →
    e.storeOp.srcAddr ≤ s.addr ∧ s.addr + s.size ≤ e.storeOp.srcAddr + e.storeOp.size
  start : ∀ s ∈ e.storesToPrimaryReplica, s.op.svEntry.isSome = true →
    A = e.storeOp.srcAddr ∨
      A = e.storeOp.srcAddr + e.storeOp.size ∧ s.addr + s.size < A

/-! ## The report -/

section

variable {info : RecordInfo} {A : Int}

theorem checkPrimaryStore_eq {seq : Int} {x : List ReplInvariantErrorType × Int}
    {s : MechPMStoreEntry} (hs : info.structAddr s.op = some A) (hx : x.2 = 0 ∨ x.2 = A) :
    checkPrimaryStore info seq x s = s.fenceSeq.map fun fence =>
      (x.1 ++ if fence ≥ seq then [storeToPrimaryFencedAfterMemcpy] else [], A) := by
  cases hfence : s.fenceSeq with
  | none => simp [checkPrimaryStore, hfence]
  | some fence =>
    by_cases hlate : fence ≥ seq
    · rcases hx with hx | hx
      · simp [checkPrimaryStore, hfence, hs, hx, hlate]
      · by_cases h0 : A = 0 <;> simp [checkPrimaryStore, hfence, hs, hx, hlate, h0]
    · rcases hx with hx | hx
      · simp [checkPrimaryStore, hfence, hs, hx, hlate]
      · by_cases h0 : A = 0 <;> simp [checkPrimaryStore, hfence, hs, hx, hlate, h0]

/-- The loop over stores of one struct finds that struct, and no error but a late fence. -/
theorem foldlM_checkPrimaryStore {seq : Int} {stores : List MechPMStoreEntry}
    (hstores : ∀ s ∈ stores, info.structAddr s.op = some A)
    (x : List ReplInvariantErrorType × Int) (hx : x.2 = 0 ∨ x.2 = A) :
    stores.foldlM (checkPrimaryStore info seq) x =
      (stores.mapM MechPMStoreEntry.fenceSeq).map fun fences =>
        (x.1 ++ fences.flatMap fun fence =>
          if fence ≥ seq then [storeToPrimaryFencedAfterMemcpy] else [],
          if stores = [] then x.2 else A) := by
  induction stores generalizing x with
  | nil => simp
  | cons s rest ih =>
    rw [List.foldlM_cons, List.mapM_cons,
      checkPrimaryStore_eq (hstores s List.mem_cons_self) hx]
    cases hfence : s.fenceSeq with
    | none => rfl
    | some fence =>
      have hrest := ih (fun t ht => hstores t (List.mem_cons_of_mem _ ht))
        (x.1 ++ if fence ≥ seq then [storeToPrimaryFencedAfterMemcpy] else [], A) (Or.inr rfl)
      show rest.foldlM (checkPrimaryStore info seq)
        (x.1 ++ if fence ≥ seq then [storeToPrimaryFencedAfterMemcpy] else [], A) = _
      rw [hrest]
      cases rest.mapM MechPMStoreEntry.fenceSeq with
      | none => rfl
      | some fences => simp [List.append_assoc]

/-- The errors of the loop. -/
def lateErrors (seq : Int) (fences : List Int) : List ReplInvariantErrorType :=
  fences.flatMap fun fence => if fence ≥ seq then [storeToPrimaryFencedAfterMemcpy] else []

theorem eq_of_mem_lateErrors {seq : Int} {fences : List Int} {err : ReplInvariantErrorType}
    (h : err ∈ lateErrors seq fences) : err = storeToPrimaryFencedAfterMemcpy := by
  obtain ⟨fence, -, herr⟩ := List.mem_flatMap.mp h
  split_ifs at herr
  · exact List.mem_singleton.mp herr
  · exact absurd herr List.not_mem_nil

variable {e : MechReplEntry}

theorem Recorded.invariantCheck_eq (h : Recorded info e A)
    (hne : e.storesToPrimaryReplica ≠ []) {replica old : List UInt8}
    (hreplica : e.storeOp.opSt.svEntry = some replica)
    (hold : info.ovEntry e.storeOp.opSt = some old) :
    e.invariantCheck info = (e.storesToPrimaryReplica.mapM MechPMStoreEntry.fenceSeq).map
      fun fences => lateErrors e.storeOp.opSt.seq fences ++
        if A ≠ 0 ∧ primaryData A e.storesToPrimaryReplica old ≠ replica then
          [primaryAndReplicaDataNotMatch] else [] := by
  rw [invariantCheck, if_neg hne,
    foldlM_checkPrimaryStore h.annotated ([], 0) (Or.inl rfl)]
  cases e.storesToPrimaryReplica.mapM MechPMStoreEntry.fenceSeq with
  | none => rfl
  | some fences =>
    have hsame : storeToPrimaryNotInSameStruct ∉ lateErrors e.storeOp.opSt.seq fences :=
      fun hmem => absurd (eq_of_mem_lateErrors hmem) (by decide)
    simp only [Option.map_some, Option.bind_eq_bind, Option.bind_some, List.nil_append, if_neg hne]
    show (if storeToPrimaryNotInSameStruct ∈ lateErrors e.storeOp.opSt.seq fences ∨ A = 0 then
      some (lateErrors e.storeOp.opSt.seq fences) else _) = _
    by_cases hA : A = 0
    · rw [if_pos (Or.inr hA), if_neg (fun hmis => hmis.1 hA), List.append_nil]
    · rw [if_neg (fun hor => hor.elim hsame hA), hreplica, hold]
      show (if primaryData A e.storesToPrimaryReplica old ≠ replica then
        some (lateErrors e.storeOp.opSt.seq fences ++ [primaryAndReplicaDataNotMatch])
        else some (lateErrors e.storeOp.opSt.seq fences)) = _
      by_cases hdata : primaryData A e.storesToPrimaryReplica old ≠ replica
      · rw [if_pos hdata, if_pos ⟨hA, hdata⟩]
      · rw [if_neg hdata, if_neg (fun hmis => hdata hmis.2), List.append_nil]

/-- A mismatch is reported if and only if the buffers differ and there is a struct to count from. -/
theorem Recorded.reports_iff (h : Recorded info e A) (hne : e.storesToPrimaryReplica ≠ [])
    {replica old : List UInt8} (hreplica : e.storeOp.opSt.svEntry = some replica)
    (hold : info.ovEntry e.storeOp.opSt = some old) {errs : List ReplInvariantErrorType}
    (herrs : e.invariantCheck info = some errs) :
    primaryAndReplicaDataNotMatch ∈ errs ↔
      A ≠ 0 ∧ primaryData A e.storesToPrimaryReplica old ≠ replica := by
  rw [h.invariantCheck_eq hne hreplica hold] at herrs
  obtain ⟨fences, -, herrs⟩ := Option.map_eq_some_iff.mp herrs
  rw [← herrs, List.mem_append]
  constructor
  · intro hmem
    rcases hmem with hmem | hmem
    · exact absurd (eq_of_mem_lateErrors hmem) (by decide)
    · split_ifs at hmem with hmis
      · exact hmis
      · exact absurd hmem List.not_mem_nil
  · intro hmis
    rw [if_pos hmis]
    exact Or.inr (List.mem_singleton_self _)

end

/-! ## The buffers -/

section

variable {A src : Int}

theorem primaryData_append (l m : List MechPMStoreEntry) (old : List UInt8) :
    primaryData A (l ++ m) old = primaryData A m (primaryData A l old) := List.foldl_append

theorem copiedData_append (l m : List MechPMStoreEntry) (old : List UInt8) :
    copiedData src (l ++ m) old = copiedData src m (copiedData src l old) := List.foldl_append

theorem primaryData_cons_none {s : MechPMStoreEntry} (hs : s.op.svEntry = none)
    (rest : List MechPMStoreEntry) (old : List UInt8) :
    primaryData A (s :: rest) old = primaryData A rest old := by
  simp only [primaryData, List.foldl_cons, hs]

theorem primaryData_cons_some {s : MechPMStoreEntry} {b : List UInt8} (hs : s.op.svEntry = some b)
    (hb : (b.length : Int) = s.size) (rest : List MechPMStoreEntry) (old : List UInt8) :
    primaryData A (s :: rest) old =
      primaryData A rest (setSlice old (s.addr - A) (s.addr - A + b.length) b) := by
  simp only [primaryData, List.foldl_cons, hs, hb]

theorem copiedData_cons_none {s : MechPMStoreEntry} (hs : s.op.svEntry = none)
    (rest : List MechPMStoreEntry) (old : List UInt8) :
    copiedData src (s :: rest) old = copiedData src rest old := by
  simp only [copiedData, List.foldl_cons, hs]

theorem copiedData_cons_some {s : MechPMStoreEntry} {b : List UInt8} (hs : s.op.svEntry = some b)
    (rest : List MechPMStoreEntry) (old : List UInt8) :
    copiedData src (s :: rest) old = copiedData src rest (writeAt old (s.addr - src) b) := by
  simp only [copiedData, List.foldl_cons, hs]

/-- As many bytes as the record says. -/
def SizedBytes (stores : List MechPMStoreEntry) : Prop :=
  ∀ s ∈ stores, 0 < s.size ∧ ∀ b, s.op.svEntry = some b → (b.length : Int) = s.size

theorem length_le_primaryData {stores : List MechPMStoreEntry} (h : SizedBytes stores)
    (old : List UInt8) : old.length ≤ (primaryData A stores old).length := by
  induction stores generalizing old with
  | nil => exact Nat.le_refl _
  | cons s rest ih =>
    have hrest := ih fun t ht => h t (List.mem_cons_of_mem _ ht)
    cases hb : s.op.svEntry with
    | none =>
      rw [primaryData_cons_none hb]
      exact hrest old
    | some b =>
      rw [primaryData_cons_some hb ((h s List.mem_cons_self).2 b hb)]
      exact (length_le_setSlice old (s.addr - A) b).trans (hrest _)

theorem length_copiedData (stores : List MechPMStoreEntry) (old : List UInt8) :
    (copiedData src stores old).length = old.length := by
  induction stores generalizing old with
  | nil => rfl
  | cons s rest ih =>
    cases hb : s.op.svEntry with
    | none => rw [copiedData_cons_none hb, ih]
    | some b => rw [copiedData_cons_some hb, ih, length_writeAt]

/-- The slice of a store is as long as the store, so that it moves no other byte. -/
def Keeps (len : Nat) (A : Int) (s : MechPMStoreEntry) : Prop :=
  (sliceIndex len (s.addr - A + s.size) : Int) = sliceIndex len (s.addr - A) + s.size

/-- A buffer that has its length in the end had it all the time. -/
theorem keeps_of_length_eq {stores : List MechPMStoreEntry} (h : SizedBytes stores)
    {old : List UInt8} (hlen : (primaryData A stores old).length = old.length) :
    ∀ s ∈ stores, s.op.svEntry.isSome = true → Keeps old.length A s := by
  induction stores generalizing old with
  | nil => exact fun s hs => absurd hs List.not_mem_nil
  | cons t rest ih =>
    have hrest : SizedBytes rest := fun s hs => h s (List.mem_cons_of_mem _ hs)
    obtain ⟨hpos, hbytes⟩ := h t List.mem_cons_self
    intro s hs hsome
    cases hb : t.op.svEntry with
    | none =>
      rw [primaryData_cons_none hb] at hlen
      rcases List.mem_cons.mp hs with rfl | hs
      · rw [hb] at hsome
        exact absurd hsome Bool.false_ne_true
      · exact ih hrest hlen s hs hsome
    | some b =>
      have hlenb := hbytes b hb
      rw [primaryData_cons_some hb hlenb] at hlen
      have hgrow := length_le_setSlice old (t.addr - A) b
      have hgrow' := length_le_primaryData (A := A) hrest
        (setSlice old (t.addr - A) (t.addr - A + b.length) b)
      have hstep : (setSlice old (t.addr - A) (t.addr - A + b.length) b).length = old.length := by
        omega
      rcases List.mem_cons.mp hs with rfl | hs
      · have hne : b ≠ [] := List.length_pos_iff.mp (by omega)
        have hslice := (length_setSlice_eq_iff (s.addr - A) hne).mp hstep
        rw [Keeps, ← hlenb]
        exact_mod_cast hslice
      · rw [← hstep]
        exact ih hrest (hlen.trans hstep.symm) s hs hsome

/-! ## Slices in place -/

/-- A slice that moves no other byte is a write at its beginning. -/
theorem setSlice_eq_of_keeps {s : MechPMStoreEntry} {b old : List UInt8}
    (hb : (b.length : Int) = s.size) (h : Keeps old.length A s) :
    setSlice old (s.addr - A) (s.addr - A + b.length) b =
      writeAt old (sliceIndex old.length (s.addr - A)) b := by
  rw [Keeps, ← hb] at h
  exact setSlice_eq_writeAt rfl (by omega)

theorem sliceIndex_of_placed {len : Nat} {a n : Int} (hn : 0 < n) (hlo : src ≤ a)
    (hhi : a + n ≤ src + len) (hA : A = src ∨ A = src + len ∧ a + n < A) :
    (sliceIndex len (a - A) : Int) = a - src ∧
      (sliceIndex len (a - A + n) : Int) = sliceIndex len (a - A) + n := by
  rw [sliceIndex, sliceIndex]
  split_ifs <;> omega

/-- A store on the copied range whose slice moves no other byte lies in the range. -/
theorem placed_of_sliceIndex {len : Nat} {a n : Int} (hn : 0 < n) (hlo : src < a + n)
    (hhi : a < src + len) (hA : A = src ∨ A = src + len)
    (hkeeps : (sliceIndex len (a - A + n) : Int) = sliceIndex len (a - A) + n) :
    src ≤ a ∧ a + n ≤ src + len ∧ (A = src ∨ A = src + len ∧ a + n < A) := by
  rw [sliceIndex, sliceIndex] at hkeeps
  split_ifs at hkeeps <;> omega

/-- The two structs from which an offset can be counted. -/
theorem start_of_sliceIndex {len : Nat} {a n : Int} (hn : 0 < n)
    (hkeeps : (sliceIndex len (a - A + n) : Int) = sliceIndex len (a - A) + n)
    (hoff : a - src = sliceIndex len (a - A)) : A = src ∨ A = src + len := by
  rw [sliceIndex, sliceIndex] at hkeeps
  rw [sliceIndex] at hoff
  split_ifs at hkeeps hoff <;> omega

theorem primaryData_eq_copiedData {stores : List MechPMStoreEntry} (h : SizedBytes stores)
    {old : List UInt8}
    (hplaced : ∀ s ∈ stores, s.op.svEntry.isSome = true →
      (sliceIndex old.length (s.addr - A) : Int) = s.addr - src ∧ Keeps old.length A s) :
    primaryData A stores old = copiedData src stores old := by
  induction stores generalizing old with
  | nil => rfl
  | cons s rest ih =>
    have hrest : SizedBytes rest := fun t ht => h t (List.mem_cons_of_mem _ ht)
    cases hb : s.op.svEntry with
    | none =>
      rw [primaryData_cons_none hb, copiedData_cons_none hb]
      exact ih hrest fun t ht => hplaced t (List.mem_cons_of_mem _ ht)
    | some b =>
      have hlen := (h s List.mem_cons_self).2 b hb
      obtain ⟨hoff, hkeeps⟩ := hplaced s List.mem_cons_self (by rw [hb]; rfl)
      rw [primaryData_cons_some hb hlen, copiedData_cons_some hb, setSlice_eq_of_keeps hlen hkeeps,
        hoff]
      refine ih hrest fun t ht => ?_
      rw [length_writeAt]
      exact hplaced t (List.mem_cons_of_mem _ ht)

/-! ## Other bytes -/

/-- The store with the same byte everywhere. -/
def blank (v : UInt8) (s : MechPMStoreEntry) : MechPMStoreEntry :=
  { s with op := { s.op with svEntry := s.op.svEntry.map fun b => List.replicate b.length v } }

theorem sizedBytes_blank {stores : List MechPMStoreEntry} (h : SizedBytes stores) (v : UInt8) :
    SizedBytes (stores.map (blank v)) := by
  intro s hs
  obtain ⟨t, ht, rfl⟩ := List.mem_map.mp hs
  refine ⟨(h t ht).1, fun b hb => ?_⟩
  obtain ⟨c, hc, rfl⟩ := Option.map_eq_some_iff.mp hb
  rw [List.length_replicate]
  exact (h t ht).2 c hc

theorem copiedData_blank (stores : List MechPMStoreEntry) (n : Nat) (v : UInt8) :
    copiedData src (stores.map (blank v)) (List.replicate n v) = List.replicate n v := by
  induction stores with
  | nil => rfl
  | cons s rest ih =>
    rw [List.map_cons]
    cases hb : s.op.svEntry with
    | none =>
      rw [copiedData_cons_none (by rw [blank, hb]; rfl), ih]
    | some b =>
      rw [copiedData_cons_some (b := List.replicate b.length v) (by rw [blank, hb]; rfl),
        writeAt_replicate, ih]

theorem primaryData_blank {stores : List MechPMStoreEntry} (h : SizedBytes stores) {n : Nat}
    (hkeeps : ∀ s ∈ stores, s.op.svEntry.isSome = true → Keeps n A s) (v : UInt8) :
    primaryData A (stores.map (blank v)) (List.replicate n v) = List.replicate n v := by
  induction stores with
  | nil => rfl
  | cons s rest ih =>
    have hrest := ih (fun t ht => h t (List.mem_cons_of_mem _ ht)) fun t ht =>
      hkeeps t (List.mem_cons_of_mem _ ht)
    rw [List.map_cons]
    cases hb : s.op.svEntry with
    | none =>
      rw [primaryData_cons_none (by rw [blank, hb]; rfl), hrest]
    | some b =>
      have hlen : ((List.replicate b.length v).length : Int) = (blank v s).size := by
        rw [List.length_replicate]
        exact (h s List.mem_cons_self).2 b hb
      have hkeep : Keeps (List.replicate n v).length A (blank v s) := by
        rw [List.length_replicate]
        exact hkeeps s List.mem_cons_self (by rw [hb]; rfl)
      rw [primaryData_cons_some (b := List.replicate b.length v) (by rw [blank, hb]; rfl) hlen,
        setSlice_eq_of_keeps hlen hkeep, writeAt_replicate, hrest]

/-- The last store with bytes. -/
theorem exists_last_recorded (stores : List MechPMStoreEntry) :
    (∀ s ∈ stores, s.op.svEntry = none) ∨
      ∃ l s m b, stores = l ++ s :: m ∧ s.op.svEntry = some b ∧ ∀ t ∈ m, t.op.svEntry = none := by
  induction stores with
  | nil => exact Or.inl fun s hs => absurd hs List.not_mem_nil
  | cons s rest ih =>
    rcases ih with hnone | ⟨l, t, m, b, hrest, hb, hnone⟩
    · cases hb : s.op.svEntry with
      | none =>
        refine Or.inl fun t ht => ?_
        rcases List.mem_cons.mp ht with rfl | ht
        · exact hb
        · exact hnone t ht
      | some b => exact Or.inr ⟨[], s, rest, b, rfl, hb, hnone⟩
    · exact Or.inr ⟨s :: l, t, m, b, by rw [hrest]; rfl, hb, hnone⟩

theorem primaryData_of_none {stores : List MechPMStoreEntry}
    (h : ∀ s ∈ stores, s.op.svEntry = none) (old : List UInt8) :
    primaryData A stores old = old := by
  induction stores with
  | nil => rfl
  | cons s rest ih =>
    rw [primaryData_cons_none (h s List.mem_cons_self)]
    exact ih fun t ht => h t (List.mem_cons_of_mem _ ht)

theorem copiedData_of_none {stores : List MechPMStoreEntry}
    (h : ∀ s ∈ stores, s.op.svEntry = none) (old : List UInt8) :
    copiedData src stores old = old := by
  induction stores with
  | nil => rfl
  | cons s rest ih =>
    rw [copiedData_cons_none (h s List.mem_cons_self)]
    exact ih fun t ht => h t (List.mem_cons_of_mem _ ht)

/-- Zeros in the stores before `s`, and ones in `s`. -/
def probe (l : List MechPMStoreEntry) (s : MechPMStoreEntry) (m : List MechPMStoreEntry) :
    List MechPMStoreEntry :=
  l.map (blank 0) ++ blank 1 s :: m

section

variable {l m : List MechPMStoreEntry} {s : MechPMStoreEntry} {b : List UInt8} {n : Nat}

theorem probe_ne_nil (l : List MechPMStoreEntry) (s : MechPMStoreEntry)
    (m : List MechPMStoreEntry) : probe l s m ≠ [] := by
  intro hnil
  exact absurd (List.append_eq_nil_iff.mp hnil).2 (List.cons_ne_nil _ _)

theorem svEntry_blank (hb : s.op.svEntry = some b) (v : UInt8) :
    (blank v s).op.svEntry = some (List.replicate b.length v) := by
  rw [blank, hb]
  rfl

theorem copiedData_probe (hb : s.op.svEntry = some b) (hm : ∀ t ∈ m, t.op.svEntry = none) :
    copiedData src (probe l s m) (List.replicate n 0) =
      writeAt (List.replicate n 0) (s.addr - src) (List.replicate b.length 1) := by
  rw [probe, copiedData_append, copiedData_blank, copiedData_cons_some (svEntry_blank hb 1),
    copiedData_of_none hm]
  rfl

theorem primaryData_probe (hl : SizedBytes l)
    (hkeeps : ∀ t ∈ l, t.op.svEntry.isSome = true → Keeps n A t) (hb : s.op.svEntry = some b)
    (hlen : (b.length : Int) = s.size) (hkeep : Keeps n A s)
    (hm : ∀ t ∈ m, t.op.svEntry = none) :
    primaryData A (probe l s m) (List.replicate n 0) =
      writeAt (List.replicate n 0) (sliceIndex n (s.addr - A)) (List.replicate b.length 1) := by
  have hones : ((List.replicate b.length (1 : UInt8)).length : Int) = (blank 1 s).size := by
    rw [List.length_replicate]
    exact hlen
  have hsame : Keeps (List.replicate n (0 : UInt8)).length A (blank 1 s) := by
    rw [List.length_replicate]
    exact hkeep
  rw [probe, primaryData_append, primaryData_blank hl hkeeps,
    primaryData_cons_some (svEntry_blank hb 1) hones, setSlice_eq_of_keeps hones hsame,
    primaryData_of_none hm, List.length_replicate]
  rfl

theorem sizedBytes_probe (h : SizedBytes (l ++ s :: m)) : SizedBytes (probe l s m) := by
  intro t ht
  rcases List.mem_append.mp ht with ht | ht
  · exact sizedBytes_blank (fun u hu => h u (List.mem_append_left _ hu)) 0 t ht
  · rcases List.mem_cons.mp ht with rfl | ht
    · exact sizedBytes_blank (fun u hu => h u (List.mem_append_right _ hu)) 1 _
        (List.mem_map_of_mem List.mem_cons_self)
    · exact h t (List.mem_append_right _ (List.mem_cons_of_mem _ ht))

end

end

section

variable {info : RecordInfo} {e : MechReplEntry} {A : Int}

theorem Recorded.sizedBytes (h : Recorded info e A) : SizedBytes e.storesToPrimaryReplica :=
  fun s hs => ⟨(h.overlap s hs).1, h.bytes s hs⟩

theorem Recorded.exists_data (h : Recorded info e A) : ∃ replica old,
    e.storeOp.opSt.svEntry = some replica ∧ info.ovEntry e.storeOp.opSt = some old ∧
      (replica.length : Int) = e.storeOp.size ∧ (old.length : Int) = e.storeOp.size := by
  obtain ⟨replica, hreplica, hlen⟩ := h.replica
  have hsome : (info.ovEntry e.storeOp.opSt).isSome = true := by
    rw [info.values, hreplica]
    rfl
  obtain ⟨old, hold⟩ := Option.isSome_iff_exists.mp hsome
  exact ⟨replica, old, hreplica, hold, hlen, h.old old hold⟩

/-- The copy with other stores and other copied bytes. -/
def withData (e : MechReplEntry) (stores : List MechPMStoreEntry) (replica : List UInt8) :
    MechReplEntry :=
  { e with
    storeOp := { e.storeOp with opSt := { e.storeOp.opSt with svEntry := some replica } }
    storesToPrimaryReplica := stores }

/-- One struct around all stores, and old bytes wherever there are new ones. -/
def constInfo (A : Int) (old : List UInt8) : RecordInfo :=
  ⟨fun op => op.svEntry.map fun _ => old, fun _ => some A, fun op => by rw [Option.isSome_map]⟩

theorem Recorded.withData (h : Recorded info e A) {stores : List MechPMStoreEntry}
    (hstores : List.Forall₂ (fun s s' : MechPMStoreEntry => ∃ op, SameRecord s.op op ∧
      s' = { s with op := op }) e.storesToPrimaryReplica stores) (hsized : SizedBytes stores)
    {replica old : List UInt8} (hreplica : (replica.length : Int) = e.storeOp.size)
    (hold : (old.length : Int) = e.storeOp.size) :
    SameShape e (e.withData stores replica) ∧
      Recorded (constInfo A old) (e.withData stores replica) A := by
  obtain ⟨b, hb, -⟩ := h.replica
  refine ⟨⟨rfl, ⟨some replica, by rw [hb]; rfl, rfl⟩, hstores⟩, h.size_pos, ?_, fun s hs => rfl,
    fun s hs => (hsized s hs).2, ⟨replica, rfl, hreplica⟩, ?_⟩
  · intro s hs
    obtain ⟨t, ht, op, -, rfl⟩ := exists_mem_of_forall₂ hstores hs
    exact h.overlap t ht
  · intro c hc
    rw [← Option.some.inj hc]
    exact hold

theorem sameRecord_refl (op : TraceEntry) : SameRecord op op := ⟨op.svEntry, rfl, rfl⟩

theorem forall₂_refl (stores : List MechPMStoreEntry) :
    List.Forall₂ (fun s s' : MechPMStoreEntry => ∃ op, SameRecord s.op op ∧
      s' = { s with op := op }) stores stores :=
  List.forall₂_same.mpr fun s _ => ⟨s.op, sameRecord_refl s.op, rfl⟩

theorem forall₂_blank (stores : List MechPMStoreEntry) (v : UInt8) :
    List.Forall₂ (fun s s' : MechPMStoreEntry => ∃ op, SameRecord s.op op ∧
      s' = { s with op := op }) stores (stores.map (blank v)) :=
  List.forall₂_map_right_iff.mpr (List.forall₂_same.mpr fun s _ =>
    ⟨_, ⟨s.op.svEntry.map fun b => List.replicate b.length v, by rw [Option.isSome_map], rfl⟩, rfl⟩)

theorem forall₂_probe (l : List MechPMStoreEntry) (s : MechPMStoreEntry)
    (m : List MechPMStoreEntry) : List.Forall₂ (fun s s' : MechPMStoreEntry =>
      ∃ op, SameRecord s.op op ∧ s' = { s with op := op }) (l ++ s :: m) (probe l s m) :=
  List.rel_append (forall₂_blank l 0) (List.Forall₂.cons
    ⟨_, ⟨s.op.svEntry.map fun b => List.replicate b.length 1, by rw [Option.isSome_map], rfl⟩, rfl⟩
    (forall₂_refl m))

theorem SameShape.placed {e' : MechReplEntry} (h : SameShape e e') (hp : Placed e A) :
    Placed e' A := by
  have hsrc : e'.storeOp.srcAddr = e.storeOp.srcAddr := congrArg TraceEntry.addr h.load
  have hsize : e'.storeOp.size = e.storeOp.size := congrArg TraceEntry.size h.load
  refine ⟨?_, hp.struct, ?_, ?_, ?_⟩
  · intro hnil
    have hlen := h.stores.length_eq
    rw [hnil] at hlen
    exact hp.stores (List.length_eq_zero_iff.mp hlen)
  · intro s hs
    obtain ⟨t, ht, op, -, rfl⟩ := exists_mem_of_forall₂ h.stores hs
    exact hp.fenced t ht
  · intro s hs hsome
    obtain ⟨t, ht, op, ⟨b, hb, hop⟩, rfl⟩ := exists_mem_of_forall₂ h.stores hs
    rw [hsrc, hsize]
    rw [hop] at hsome
    exact hp.within t ht (hb.symm.trans hsome)
  · intro s hs hsome
    obtain ⟨t, ht, op, ⟨b, hb, hop⟩, rfl⟩ := exists_mem_of_forall₂ h.stores hs
    rw [hsrc, hsize]
    rw [hop] at hsome
    exact hp.start t ht (hb.symm.trans hsome)

/-! ## When the comparison is right -/

theorem Recorded.dataRight (h : Recorded info e A) (hp : Placed e A) : DataRight info e := by
  obtain ⟨replica, old, hreplica, hold, hlen, hlen'⟩ := h.exists_data
  have hfences : (e.storesToPrimaryReplica.mapM MechPMStoreEntry.fenceSeq).isSome = true := by
    refine isSome_mapM_iff.mpr fun s hs => ?_
    rw [MechPMStoreEntry.fenceSeq, Option.isSome_map]
    exact hp.fenced s hs
  obtain ⟨fences, hfences⟩ := Option.isSome_iff_exists.mp hfences
  have hcheck := h.invariantCheck_eq hp.stores hreplica hold
  rw [hfences, Option.map_some] at hcheck
  refine ⟨_, hcheck, fun replica' old' hreplica' hold' => ?_⟩
  rw [hreplica] at hreplica'
  rw [hold] at hold'
  rw [← Option.some.inj hreplica', ← Option.some.inj hold']
  have hdata : primaryData A e.storesToPrimaryReplica old =
      copiedData e.storeOp.srcAddr e.storesToPrimaryReplica old := by
    refine primaryData_eq_copiedData h.sizedBytes fun s hs hsome => ?_
    have hwithin := hp.within s hs hsome
    have hstart := hp.start s hs hsome
    rw [← hlen'] at hwithin hstart
    exact sliceIndex_of_placed (h.overlap s hs).1 hwithin.1 hwithin.2 hstart
  refine ⟨?_, fun x hx => ⟨?_, hlen⟩⟩
  · rw [h.reports_iff hp.stores hreplica hold hcheck, hdata]
    exact ⟨fun hmis => hmis.2, fun hmis => ⟨hp.struct, hmis⟩⟩
  · rw [foldlM_checkPrimaryStore h.annotated ([], 0) (Or.inl rfl), hfences] at hx
    rw [← Option.some.inj hx, if_neg hp.stores, hdata, length_copiedData]
    exact hlen'

/-- With every content the check tells when the buffers differ from what was copied. -/
def AlwaysRight (e : MechReplEntry) (A : Int) : Prop :=
  ∀ info' e', SameShape e e' → Recorded info' e' A → DataRight info' e'

/-- A mismatch has to be reported, so there are stores, which are fenced, and a struct. -/
theorem Recorded.of_alwaysRight (h : Recorded info e A) (hr : AlwaysRight e A) :
    e.storesToPrimaryReplica ≠ [] ∧ A ≠ 0 ∧
      ∀ s ∈ e.storesToPrimaryReplica, s.fenceOp.isSome = true := by
  obtain ⟨replica, old, hreplica, hold, hlen, hlen'⟩ := h.exists_data
  -- some other bytes are copied than the stores give
  have hother : ∃ other : List UInt8, (other.length : Int) = e.storeOp.size ∧
      copiedData e.storeOp.srcAddr e.storesToPrimaryReplica old ≠ other := by
    by_cases hzero : copiedData e.storeOp.srcAddr e.storesToPrimaryReplica old =
        List.replicate old.length 0
    · refine ⟨List.replicate old.length 1, by rw [List.length_replicate]; exact hlen', ?_⟩
      have hpos := h.size_pos
      rw [hzero]
      intro heq
      rcases List.replicate_inj.mp heq with ⟨-, hnil | hval⟩
      · omega
      · exact absurd hval (by decide)
    · exact ⟨List.replicate old.length 0, by rw [List.length_replicate]; exact hlen', hzero⟩
  obtain ⟨other, hother, hne⟩ := hother
  obtain ⟨hshape, hrec⟩ := h.withData (forall₂_refl _) h.sizedBytes hother hlen'
  obtain ⟨errs, hcheck, hright⟩ := hr _ _ hshape hrec
  have hreport := (hright other old rfl rfl).1.mpr hne
  have hnil : e.storesToPrimaryReplica ≠ [] := by
    intro hnil
    have hempty : (e.withData e.storesToPrimaryReplica other).invariantCheck (constInfo A old) =
        some [noStoreToPrimary] := if_pos hnil
    rw [← Option.some.inj (hempty.symm.trans hcheck)] at hreport
    exact absurd hreport (by decide)
  have hA := ((hrec.reports_iff hnil rfl rfl hcheck).mp hreport).1
  refine ⟨hnil, hA, fun s hs => ?_⟩
  rw [hrec.invariantCheck_eq hnil rfl rfl] at hcheck
  obtain ⟨fences, hfences, -⟩ := Option.map_eq_some_iff.mp hcheck
  have hsome := isSome_mapM_iff.mp (Option.isSome_iff_exists.mpr ⟨fences, hfences⟩) s hs
  rw [MechPMStoreEntry.fenceSeq, Option.isSome_map] at hsome
  exact hsome

theorem Recorded.keeps_of_alwaysRight (h : Recorded info e A) (hr : AlwaysRight e A) {n : Nat}
    (hn : (n : Int) = e.storeOp.size) :
    ∀ s ∈ e.storesToPrimaryReplica, s.op.svEntry.isSome = true → Keeps n A s := by
  obtain ⟨replica, old, hreplica, hold, hlen, hlen'⟩ := h.exists_data
  obtain ⟨hne, hA, hfenced⟩ := h.of_alwaysRight hr
  have hshape : SameShape e e := ⟨rfl, sameRecord_refl _, forall₂_refl _⟩
  obtain ⟨errs, hcheck, hright⟩ := hr info e hshape h
  rw [h.invariantCheck_eq hne hreplica hold] at hcheck
  obtain ⟨fences, hfences, -⟩ := Option.map_eq_some_iff.mp hcheck
  have hloop : e.storesToPrimaryReplica.foldlM (checkPrimaryStore info e.storeOp.opSt.seq) ([], 0) =
      some ([] ++ lateErrors e.storeOp.opSt.seq fences, A) := by
    rw [foldlM_checkPrimaryStore h.annotated ([], 0) (Or.inl rfl), hfences, if_neg hne]
    rfl
  have hsize : ((primaryData A e.storesToPrimaryReplica old).length : Int) = e.storeOp.size :=
    ((hright replica old hreplica hold).2 _ hloop).1
  have hold_len : old.length = n := by omega
  rw [← hold_len]
  exact keeps_of_length_eq h.sizedBytes (by omega)

/-- The last store with bytes shows from where the offsets are counted: over zeros, it alone writes
ones. -/
theorem Recorded.start_of_alwaysRight (h : Recorded info e A) (hr : AlwaysRight e A) :
    (∀ s ∈ e.storesToPrimaryReplica, s.op.svEntry = none) ∨
      A = e.storeOp.srcAddr ∨ A = e.storeOp.srcAddr + e.storeOp.size := by
  obtain ⟨hne, hA, -⟩ := h.of_alwaysRight hr
  have hpos := h.size_pos
  have hn : ((e.storeOp.size.toNat : Nat) : Int) = e.storeOp.size := by omega
  have hkeeps := h.keeps_of_alwaysRight hr hn
  rcases exists_last_recorded e.storesToPrimaryReplica with hnone | ⟨l, s, m, b, heq, hb, hm⟩
  · exact Or.inl hnone
  · right
    have hs : s ∈ e.storesToPrimaryReplica := by
      rw [heq]
      exact List.mem_append_right _ List.mem_cons_self
    have hl : SizedBytes l := fun t ht => h.sizedBytes t (heq ▸ List.mem_append_left _ ht)
    have hlkeeps : ∀ t ∈ l, t.op.svEntry.isSome = true → Keeps e.storeOp.size.toNat A t :=
      fun t ht => hkeeps t (heq ▸ List.mem_append_left _ ht)
    have hsize := h.bytes s hs b hb
    have hspos := (h.overlap s hs).1
    have hkeep := hkeeps s hs (by rw [hb]; rfl)
    have hsized := h.sizedBytes
    have hstores := forall₂_probe l s m
    rw [heq] at hsized
    rw [← heq] at hstores
    have hzlen : ((List.replicate e.storeOp.size.toNat (0 : UInt8)).length : Int) =
        e.storeOp.size := by
      rw [List.length_replicate]
      exact hn
    have hcopied : copiedData e.storeOp.srcAddr (probe l s m)
        (List.replicate e.storeOp.size.toNat 0) =
        writeAt (List.replicate e.storeOp.size.toNat 0) (s.addr - e.storeOp.srcAddr)
          (List.replicate b.length 1) :=
      copiedData_probe hb hm
    have hprimary := primaryData_probe hl hlkeeps hb hsize hkeep hm
    have hlen : (copiedData e.storeOp.srcAddr (probe l s m) (List.replicate e.storeOp.size.toNat
        0)).length = (List.replicate e.storeOp.size.toNat (0 : UInt8)).length :=
      length_copiedData _ _
    rw [hcopied] at hlen
    obtain ⟨hshape, hrec⟩ := h.withData hstores (sizedBytes_probe hsized)
      ((congrArg Nat.cast hlen).trans hzlen) hzlen
    obtain ⟨errs, hcheck, hright⟩ := hr _ _ hshape hrec
    have hreport := (hright _ _ rfl rfl).1
    have hreports := hrec.reports_iff (probe_ne_nil l s m) rfl rfl hcheck
    -- the replica has what the stores give, so nothing is reported
    have hno : primaryAndReplicaDataNotMatch ∉ errs := fun hmem => hreport.mp hmem hcopied
    have hequal : writeAt (List.replicate e.storeOp.size.toNat 0)
          (sliceIndex e.storeOp.size.toNat (s.addr - A)) (List.replicate b.length (1 : UInt8)) =
        writeAt (List.replicate e.storeOp.size.toNat 0) (s.addr - e.storeOp.srcAddr)
          (List.replicate b.length 1) := by
      by_contra hne'
      exact hno (hreports.mpr ⟨hA, fun heq' => hne' (hprimary.symm.trans heq')⟩)
    have hle := sliceIndex_le e.storeOp.size.toNat (s.addr - A + s.size)
    rw [Keeps] at hkeep
    have hoff := off_eq_of_writeAt_replicate (by decide) (by omega) (by omega) hequal
    rw [← hn]
    exact start_of_sliceIndex hspos hkeep hoff

/-- With every content the report is right if and only if the stores are placed as the slices take
them to be. -/
theorem data_check_iff (h : Recorded info e A) : AlwaysRight e A ↔ Placed e A := by
  constructor
  · intro hr
    obtain ⟨hne, hA, hfenced⟩ := h.of_alwaysRight hr
    have hpos := h.size_pos
    have hn : ((e.storeOp.size.toNat : Nat) : Int) = e.storeOp.size := by omega
    have hplaced : ∀ s ∈ e.storesToPrimaryReplica, s.op.svEntry.isSome = true →
        e.storeOp.srcAddr ≤ s.addr ∧ s.addr + s.size ≤ e.storeOp.srcAddr + e.storeOp.size ∧
          (A = e.storeOp.srcAddr ∨
            A = e.storeOp.srcAddr + e.storeOp.size ∧ s.addr + s.size < A) := by
      intro s hs hsome
      have hkeeps := h.keeps_of_alwaysRight hr hn s hs hsome
      obtain ⟨hspos, hlt, hgt⟩ := h.overlap s hs
      rcases h.start_of_alwaysRight hr with hnone | hstart
      · rw [hnone s hs] at hsome
        exact absurd hsome Bool.false_ne_true
      · rw [← hn] at hlt hstart ⊢
        exact placed_of_sliceIndex hspos hgt hlt hstart hkeeps
    exact ⟨hne, hA, hfenced, fun s hs hsome => ⟨(hplaced s hs hsome).1, (hplaced s hs hsome).2.1⟩,
      fun s hs hsome => (hplaced s hs hsome).2.2⟩
  · intro hp info' e' hshape hrec
    exact hrec.dataRight (hshape.placed hp)

/-- Sixteen bytes at 4096 are copied to 8192, and the second eight of them were stored and fenced
before.  The copy has the bytes that were stored. -/
def secondWord : MechReplEntry :=
  let word : MechPMStoreEntry :=
    { op := .plain .store 1 4104 8
      addr := 4104
      size := 8
      phyAddr := 8
      fenceOp := some (.plain .fence 2 0 0) }
  { storeOp := ⟨.plain .memTransLoad 3 4096 16,
      { TraceEntry.plain .memTransStore 4 8192 16 with
        svEntry := some (List.replicate 8 0 ++ List.replicate 8 1) }⟩
    storesToPrimaryReplica := [word] }

theorem recorded_secondWord (A : Int) :
    Recorded (constInfo A (List.replicate 16 0)) secondWord A where
  size_pos := by decide
  overlap := by
    intro s hs
    rw [List.mem_singleton.mp hs]
    exact ⟨by decide, by decide, by decide⟩
  annotated := fun s hs => rfl
  bytes := by
    intro s hs b hb
    rw [List.mem_singleton.mp hs] at hb ⊢
    rw [← Option.some.inj hb]
    decide
  replica := ⟨_, rfl, by decide⟩
  old := by
    intro b hb
    rw [← Option.some.inj hb]
    decide

theorem data_check_secondWord :
    AlwaysRight secondWord 4096 ↔ Placed secondWord 4096 :=
  data_check_iff (recorded_secondWord 4096)

/-- The struct that the store is annotated with is nested at 4104, so its bytes are written to the
front of the buffer, and a mismatch is reported. -/
theorem nested_struct_reported : Recorded (constInfo 4104 (List.replicate 16 0)) secondWord 4104 ∧
    ¬ DataRight (constInfo 4104 (List.replicate 16 0)) secondWord := by
  refine ⟨recorded_secondWord 4104, ?_⟩
  intro h
  obtain ⟨errs, hcheck, hright⟩ := h
  have herrs : secondWord.invariantCheck (constInfo 4104 (List.replicate 16 0)) =
      some [primaryAndReplicaDataNotMatch] := by decide +kernel
  rw [herrs] at hcheck
  have hreport := (hright _ _ rfl rfl).1.mp (Option.some.inj hcheck ▸ List.mem_singleton_self _)
  exact hreport (by decide +kernel)

end

end MechReplEntry

end Mech
end Silhouette
