import Silhouette.CrashPlan.Causality
import Silhouette.CrashPlan.SchemeMech2CP
import Silhouette.Image.BaseImage

/-!
# Plans that sample a store

A memcpy or memset may be torn at any word, so its plans come in copies that name an address of
the store.  `put_cp_to_img` writes one word for such a copy: from the address to the end of its
word or of the store.  It looks at the sampled store before it looks at the persisted ones, and
it takes the bytes from the start of the stored value.
-/

namespace Silhouette
namespace CrashPlan

open Lib Cache Trace OpTrace Image

/-- `random.sample(words, 1)` draws one of the words. -/
def Picks (pick : List Int → Int) : Prop := ∀ words, words ≠ [] → pick words ∈ words

/-- The value of a store is recorded, as long as the store. -/
structure HasValue (st : TraceEntry) (data : Bytes) : Prop where
  value : st.svEntry = some data
  length : (data.length : Int) = st.size

/-- The calls of `_gen_2cp_for_a_store` that the schemes make: which plans, and their type. -/
inductive Asked : Bool → Bool → Option CrashPlanType → Prop where
  | both : Asked true true none
  | persistSelf : Asked true false (some .mechPersistSelf)
  | persistOther : Asked false true (some .mechPersistOther)

/-- The end of what is written for an address of a store. -/
def sampleEnd (st : TraceEntry) (addr : Int) : Int :=
  min (alignToCeil addr atomicWriteBytes) (st.addr + st.size)

/-! ## The copies of a plan -/

section

variable {op : OpTraceEntry} {r : Analysis} {flags : PlanFlags} {pick : List Int → Int}
  {st : TraceEntry} {cp cp' : CrashPlanEntry} {l plans : List CrashPlanEntry}

/-- The addresses of exhaustive mode: the first byte of an unaligned store, then every byte from
the next word on. -/
def exhaustiveAddrs (st : TraceEntry) : List Int :=
  if st.addr % atomicWriteBytes ≠ 0 then
    st.addr :: pyRange (alignToCeil st.addr atomicWriteBytes) (st.addr + st.size) 1
  else pyRange st.addr (st.addr + st.size) 1

theorem expandPlan_unsampled (hs : sampled flags st = false) (cp : CrashPlanEntry) :
    expandPlan flags pick st cp = some [cp] := by
  simp only [expandPlan, hs, Bool.false_eq_true, if_false]

theorem expandPlan_exhaustive (hs : sampled flags st = true)
    (hflag : flags.samplingNonatomicWrite = false) (cp : CrashPlanEntry) :
    expandPlan flags pick st cp = some ((exhaustiveAddrs st).map (sampleAt cp st.seq)) := by
  simp only [expandPlan, exhaustiveAddrs, hs, hflag, Bool.false_eq_true, if_false, if_true]
  split_ifs
  · rfl
  · rfl

theorem mem_pyRange_one {lo hi x : Int} : x ∈ pyRange lo hi 1 ↔ lo ≤ x ∧ x < hi := by
  rw [mem_pyRange (by decide)]
  constructor
  · rintro ⟨i, rfl, hlt⟩
    omega
  · rintro ⟨hle, hlt⟩
    exact ⟨(x - lo).toNat, by omega, hlt⟩

theorem mem_exhaustiveAddrs (hsize : 0 < st.size) {x : Int} :
    x ∈ exhaustiveAddrs st ↔ (x = st.addr ∨ st.addr % 8 = 0 ∧ st.addr ≤ x ∨
      st.addr / 8 < x / 8) ∧ st.addr ≤ x ∧ x < st.addr + st.size := by
  by_cases h : st.addr % atomicWriteBytes ≠ 0
  · rw [exhaustiveAddrs, if_pos h, List.mem_cons, mem_pyRange_one]
    simp only [alignToCeil, atomicWriteBytes] at h ⊢
    omega
  · rw [exhaustiveAddrs, if_neg h, mem_pyRange_one]
    simp only [atomicWriteBytes] at h
    omega

theorem size_ne_zero_of_sampled (hs : sampled flags st = true) : st.size ≠ 0 := by
  intro hzero
  simp [sampled, hzero] at hs

/-- A sampled copy names an address inside the store. -/
theorem mem_expandPlan_sampled (hpick : Picks pick) (hs : sampled flags st = true)
    (hsize : 0 ≤ st.size) (h : expandPlan flags pick st cp = some l) (hmem : cp' ∈ l) :
    ∃ addr, (st.addr ≤ addr ∧ addr < st.addr + st.size) ∧ cp' = sampleAt cp st.seq addr := by
  have hpos := size_ne_zero_of_sampled hs
  cases hflag : flags.samplingNonatomicWrite with
  | false =>
    rw [expandPlan_exhaustive hs hflag, Option.some.injEq] at h
    rw [← h] at hmem
    obtain ⟨addr, haddr, rfl⟩ := List.mem_map.mp hmem
    exact ⟨addr, ((mem_exhaustiveAddrs (by omega)).mp haddr).2, rfl⟩
  | true =>
    simp only [expandPlan, hs, hflag, if_true] at h
    by_cases hnil : pyRange st.addr (st.addr + st.size) atomicWriteBytes = []
    · rw [if_pos hnil] at h
      cases h
    · rw [if_neg hnil, Option.some.injEq] at h
      rw [← h, List.mem_singleton] at hmem
      refine ⟨_, ?_, hmem⟩
      obtain ⟨i, -, hlt⟩ := (mem_pyRange (by decide)).mp (hpick _ hnil)
      have hfloor : alignToFloor (pick (pyRange st.addr (st.addr + st.size) atomicWriteBytes))
          atomicWriteBytes ≤ pick (pyRange st.addr (st.addr + st.size) atomicWriteBytes) := by
        simp only [alignToFloor, atomicWriteBytes]
        omega
      split_ifs
      · omega
      · omega

/-- The two plans a store starts with. -/
theorem plan_base (h : persistSelfPlan op r st = some cp ∨ persistOtherPlan op r st = some cp) :
    cp.startSeq ≤ st.seq ∧ cp.samplingType = .samplingNone ∧ cp.samplingAddr = none := by
  have hmin : ∀ seqSet, minSeq st.seq seqSet ≤ st.seq := fun seqSet =>
    not_lt.mp fun hlt => lt_irrefl _ (lt_minSeq.mp hlt).1
  rcases h with h | h
  · obtain ⟨_, -, h⟩ := Option.bind_eq_some_iff.mp h
    obtain ⟨_, -, h⟩ := Option.bind_eq_some_iff.mp h
    rw [← Option.some.inj h]
    exact ⟨hmin _, rfl, rfl⟩
  · obtain ⟨_, -, h⟩ := Option.bind_eq_some_iff.mp h
    obtain ⟨_, -, h⟩ := Option.bind_eq_some_iff.mp h
    rw [← Option.some.inj h]
    exact ⟨hmin _, rfl, rfl⟩

theorem emitPlan_eq_some {cpType : Option CrashPlanType} {emit : Bool}
    {plan : Option CrashPlanEntry} (h : emitPlan flags pick cpType st emit plan = some l) :
    (emit = false ∧ l = []) ∨ (emit = true ∧ ∃ cp₀, plan = some cp₀ ∧
      expandPlan flags pick st { cp₀ with type := cpType.getD cp₀.type } = some l) := by
  cases emit with
  | false => exact Or.inl ⟨rfl, (Option.some.inj h).symm⟩
  | true => exact Or.inr ⟨rfl, Option.bind_eq_some_iff.mp h⟩

theorem genPlans_eq_some {persistSelf persistOther : Bool} {cpType : Option CrashPlanType}
    (h : genPlans op r flags pick persistSelf persistOther cpType st = some plans) :
    ∃ l₁ l₂, emitPlan flags pick cpType st persistSelf (persistSelfPlan op r st) = some l₁ ∧
      emitPlan flags pick cpType st persistOther (persistOtherPlan op r st) = some l₂ ∧
      plans = l₁ ++ l₂ := by
  obtain ⟨l₁, h₁, h⟩ := Option.bind_eq_some_iff.mp h
  obtain ⟨l₂, h₂, h⟩ := Option.bind_eq_some_iff.mp h
  exact ⟨l₁, l₂, h₁, h₂, (Option.some.inj h).symm⟩

/-- Every plan is a copy of one of the two. -/
theorem mem_genPlans_expand {persistSelf persistOther : Bool} {cpType : Option CrashPlanType}
    (h : genPlans op r flags pick persistSelf persistOther cpType st = some plans)
    (hcp : cp ∈ plans) :
    ∃ cp₀ l, (persistSelf = true ∧ persistSelfPlan op r st = some cp₀ ∨
        persistOther = true ∧ persistOtherPlan op r st = some cp₀) ∧
      expandPlan flags pick st { cp₀ with type := cpType.getD cp₀.type } = some l ∧ cp ∈ l := by
  obtain ⟨l₁, l₂, h₁, h₂, rfl⟩ := genPlans_eq_some h
  rcases List.mem_append.mp hcp with hcp | hcp
  · rcases emitPlan_eq_some h₁ with ⟨-, rfl⟩ | ⟨hemit, cp₀, hcp₀, hl⟩
    · cases hcp
    · exact ⟨cp₀, l₁, Or.inl ⟨hemit, hcp₀⟩, hl, hcp⟩
  · rcases emitPlan_eq_some h₂ with ⟨-, rfl⟩ | ⟨hemit, cp₀, hcp₀, hl⟩
    · cases hcp
    · exact ⟨cp₀, l₂, Or.inr ⟨hemit, hcp₀⟩, hl, hcp⟩

theorem type_of_mem_expandPlan (hsize : 0 ≤ st.size) (h : expandPlan flags pick st cp = some l)
    (hmem : cp' ∈ l) : cp'.type = cp.type := by
  cases hs : sampled flags st with
  | false =>
    rw [expandPlan_unsampled hs, Option.some.injEq] at h
    rw [← h, List.mem_singleton] at hmem
    rw [hmem]
  | true =>
    have hpos := size_ne_zero_of_sampled hs
    obtain ⟨l', hl', -, hall⟩ := @expandPlan_spec flags pick st (by omega) cp
    rw [h, Option.some.injEq] at hl'
    exact (hall cp' (hl' ▸ hmem)).1

/-- A plan that samples an address of a store. -/
structure SamplesStore (st : TraceEntry) (cp : CrashPlanEntry) (addr : Int) : Prop where
  start : cp.startSeq ≤ st.seq
  seq : sampledSeq cp = some st.seq
  named : cp.samplingAddr = some addr
  lower : st.addr ≤ addr
  upper : addr < st.addr + st.size

theorem samplesStore_of_mem (hpick : Picks pick) (hsize : 0 ≤ st.size)
    (hs : sampled flags st = true) {persistSelf persistOther : Bool}
    {cpType : Option CrashPlanType}
    (h : genPlans op r flags pick persistSelf persistOther cpType st = some plans)
    (hcp : cp ∈ plans) : ∃ addr, SamplesStore st cp addr := by
  obtain ⟨cp₀, l, hplan, hl, hmem⟩ := mem_genPlans_expand h hcp
  obtain ⟨hstart, -⟩ := plan_base (hplan.imp And.right And.right)
  obtain ⟨addr, ⟨hlower, hupper⟩, rfl⟩ := mem_expandPlan_sampled hpick hs hsize hl hmem
  exact ⟨addr, hstart, rfl, rfl, hlower, hupper⟩

/-- Without words of its own a store has no sampled plan. -/
theorem samplingAddr_eq_none (hs : sampled flags st = false) {persistSelf persistOther : Bool}
    {cpType : Option CrashPlanType}
    (h : genPlans op r flags pick persistSelf persistOther cpType st = some plans)
    (hcp : cp ∈ plans) : cp.samplingAddr = none := by
  obtain ⟨cp₀, l, hplan, hl, hmem⟩ := mem_genPlans_expand h hcp
  rw [expandPlan_unsampled hs, Option.some.injEq] at hl
  rw [← hl, List.mem_singleton] at hmem
  rw [hmem]
  exact (plan_base (hplan.imp And.right And.right)).2.2

end

/-! ## What is written for an address -/

section

variable {op : OpTraceEntry} {st : TraceEntry} {data : Bytes} {cp : CrashPlanEntry} {addr : Int}

theorem recordAt_of_isPmStore (hst : op.IsPmStore st) :
    recordAt op.pmSeqEntryMap st.seq = some st := by
  rw [recordAt, Dict.get?_eq_some.mpr hst.2, Option.bind_some, st.head?_getEntryList]

/-- A store of the operation lies in the persistent memory. -/
theorem isPmStore_inside (hwf : op.WellFormed) (hst : op.IsPmStore st) :
    op.pmAddr ≤ st.addr ∧ st.addr + st.size ≤ op.pmAddr + op.pmSize := by
  obtain ⟨e, he, -, hpm⟩ := hwf.item _ hst.2
  have heq : st = e := by
    have hhead := st.head?_getEntryList
    rw [(Prod.mk.inj he).2, e.head?_getEntryList, Option.some.injEq] at hhead
    exact hhead.symm
  obtain ⟨hflush, hfence, -⟩ := TraceType.isStoreSeries_cases hst.1
  have himp : st.type.isImpFenceTy = false := by
    cases hty : st.type.isImpFenceTy with
    | false => rfl
    | true =>
      rw [of_decide_eq_true hty] at hfence
      exact absurd hfence (by decide)
  rw [← heq, isPmEntry, hflush, hfence, himp, hst.1] at hpm
  exact of_decide_eq_true hpm

/-- From the address to the end of its word or of the store, with the first bytes of the value. -/
theorem putSample_eq (hval : HasValue st data) (hlower : st.addr ≤ addr)
    (hupper : addr < st.addr + st.size) {pmAddr : Int} (hpm : pmAddr ≤ st.addr) (img : Bytes) :
    putSample pmAddr addr img st =
      some (writeAt img (addr - pmAddr).toNat (data.take (sampleEnd st addr - addr).toNat)) := by
  have hword : (if isAlignedBy (addr + atomicWriteBytes) atomicWriteBytes = true then
      addr + atomicWriteBytes else alignToFloor (addr + atomicWriteBytes) atomicWriteBytes) =
      alignToCeil addr atomicWriteBytes := by
    by_cases hal : isAlignedBy (addr + atomicWriteBytes) atomicWriteBytes = true
    · rw [if_pos hal]
      have hmod := of_decide_eq_true hal
      simp only [alignToCeil, atomicWriteBytes] at hmod ⊢
      omega
    · rw [if_neg hal]
      simp only [alignToFloor, alignToCeil, atomicWriteBytes]
      omega
  have hgt : addr < alignToCeil addr atomicWriteBytes := by
    simp only [alignToCeil, atomicWriteBytes]
    omega
  have hclamp : (if alignToCeil addr atomicWriteBytes > st.addr + st.size ∨
      alignToCeil addr atomicWriteBytes < addr then st.addr + st.size
      else alignToCeil addr atomicWriteBytes) = sampleEnd st addr := by
    rw [sampleEnd]
    split_ifs
    · omega
    · omega
  have hend : addr < sampleEnd st addr := lt_min hgt hupper
  have hlen : sampleEnd st addr - pmAddr - (addr - pmAddr) = sampleEnd st addr - addr := by omega
  simp only [putSample]
  rw [if_neg (not_lt.mpr hlower), hword, hclamp, hval.value, Option.bind_some, doStoreDirect,
    if_pos (by omega), if_neg (by omega), hlen]

theorem putCpSeq_sampled (hwf : op.WellFormed) (hst : op.IsPmStore st) (hval : HasValue st data)
    (h : SamplesStore st cp addr) (img : Bytes) :
    putCpSeq op cp img st.seq =
      some (writeAt img (addr - op.pmAddr).toNat (data.take (sampleEnd st addr - addr).toNat)) := by
  rw [putCpSeq, if_neg (not_lt.mpr h.start), if_pos h.seq, recordAt_of_isPmStore hst, h.named]
  exact putSample_eq hval h.lower h.upper (isPmStore_inside hwf hst).1 img

/-- The bytes of an image behind the sampled step. -/
theorem getElem?_sampled (hwf : op.WellFormed) (hst : op.IsPmStore st) (hval : HasValue st data)
    (h : SamplesStore st cp addr) {img : Bytes} (himg : (img.length : Int) = op.pmSize) (k : Nat) :
    (writeAt img (addr - op.pmAddr).toNat (data.take (sampleEnd st addr - addr).toNat))[k]? =
      if addr ≤ op.pmAddr + k ∧ op.pmAddr + k < sampleEnd st addr then
        data[(op.pmAddr + k - addr).toNat]? else img[k]? := by
  obtain ⟨hlo, hhi⟩ := isPmStore_inside hwf hst
  have hlower := h.lower
  have hupper := h.upper
  have hlen := hval.length
  have hend : sampleEnd st addr ≤ st.addr + st.size := min_le_right _ _
  rw [getElem?_writeAt (by omega)]
  by_cases hin : addr ≤ op.pmAddr + k ∧ op.pmAddr + k < sampleEnd st addr
  · obtain ⟨h1, h2⟩ := hin
    have hk : k - (addr - op.pmAddr).toNat = (op.pmAddr + k - addr).toNat := by omega
    have hdata : data[(op.pmAddr + k - addr).toNat]? =
        some data[(op.pmAddr + k - addr).toNat] := List.getElem?_eq_getElem (by omega)
    have hpos : (addr - op.pmAddr).toNat ≤ k := by omega
    rw [if_pos hpos, if_pos ⟨h1, h2⟩, hk, List.getElem?_take_of_lt (by omega), hdata,
      Option.some_or]
  · rw [if_neg hin]
    by_cases hpos : (addr - op.pmAddr).toNat ≤ k
    · rw [if_pos hpos, List.getElem?_take_eq_none (by omega), Option.none_or]
    · rw [if_neg hpos, Option.none_or]

/-- An image with another byte in place of one of the value changes there. -/
theorem exists_image_changed (hwf : op.WellFormed) (hst : op.IsPmStore st)
    (hval : HasValue st data) (h : SamplesStore st cp addr) {i : Nat}
    (hi : addr + i < sampleEnd st addr) :
    ∃ img img' : Bytes, (img.length : Int) = op.pmSize ∧
      putCpSeq op cp img st.seq = some img' ∧
      img'[(addr + i - op.pmAddr).toNat]? = data[i]? ∧
      img'[(addr + i - op.pmAddr).toNat]? ≠ img[(addr + i - op.pmAddr).toNat]? := by
  obtain ⟨hlo, hhi⟩ := isPmStore_inside hwf hst
  have hlower := h.lower
  have hlen := hval.length
  have hend : sampleEnd st addr ≤ st.addr + st.size := min_le_right _ _
  have hdata : data[i]? = some data[i] := List.getElem?_eq_getElem (by omega)
  obtain ⟨b, hb⟩ : ∃ b : UInt8, b ≠ data[i] := by
    by_cases hzero : data[i] = 0
    · exact ⟨1, by rw [hzero]; decide⟩
    · exact ⟨0, fun heq => hzero heq.symm⟩
  have himg : ((List.replicate op.pmSize.toNat b).length : Int) = op.pmSize := by
    rw [List.length_replicate]
    omega
  have hget := getElem?_sampled hwf hst hval h himg (addr + i - op.pmAddr).toNat
  have hi' : (op.pmAddr + (addr + i - op.pmAddr).toNat - addr).toNat = i := by omega
  rw [if_pos ⟨by omega, by omega⟩, hi'] at hget
  refine ⟨_, _, himg, putCpSeq_sampled hwf hst hval h _, hget, ?_⟩
  rw [hget, hdata, List.getElem?_replicate_of_lt (by omega)]
  exact fun heq => hb (Option.some.inj heq).symm

end

/-! ## Persisting the others -/

/-- A plan writes nothing for a store: its turn changes no image, and the image of the plan is
the one with the other stores of the plan. -/
def LeavesOut (op : OpTraceEntry) (st : TraceEntry) (cp : CrashPlanEntry) : Prop :=
  ∀ img : Bytes, (img.length : Int) = op.pmSize →
    putCpSeq op cp img st.seq = some img ∧
      putCpToImg img op cp = ((writtenSeqs op cp).filter (· ≠ st.seq)).foldlM
        (fun img seq => (recordAt op.pmSeqEntryMap seq).bind (putStore op.pmAddr img)) img

theorem leavesOut_of_unsampled {op : OpTraceEntry} (hwf : op.WellFormed) {r : Analysis}
    {st : TraceEntry} {c : Nat} {cp : CrashPlanEntry} (hp : PersistsOther op r st c cp)
    (hun : cp.samplingType = .samplingNone) : LeavesOut op st cp := by
  intro img _
  have hnot := self_notMem_written hwf hp
  constructor
  · have hstart : ¬ st.seq < cp.startSeq := by
      rw [hp.start, lt_minSeq]
      exact fun hlt => lt_irrefl _ hlt.1
    have hset : st.seq ∉ cp.persistSeqs := by
      rw [hp.set]
      exact fun hmem => ((mem_persistOtherSet hwf).mp hmem).2.1 rfl
    rw [putCpSeq, if_neg hstart, sampledSeq, if_pos hun, if_neg (by simp), if_neg hset]
  · rw [putCpToImg_eq_written img op hun, List.filter_eq_self.mpr]
    intro seq hseq
    exact decide_eq_true fun heq => hnot (heq ▸ hseq)

/-- A plan that is asked for is there. -/
theorem exists_persistOther {op : OpTraceEntry} {r : Analysis} {flags : PlanFlags}
    {pick : List Int → Int} {st : TraceEntry} (hsize : 1 ≤ st.size)
    {persistSelf persistOther : Bool} {cpType : Option CrashPlanType}
    (hasked : Asked persistSelf persistOther cpType) (hother : persistOther = true)
    {plans : List CrashPlanEntry}
    (h : genPlans op r flags pick persistSelf persistOther cpType st = some plans) :
    ∃ cp ∈ plans, cp.type = .unprotectedPersistOther ∨ cp.type = .mechPersistOther := by
  obtain ⟨l₁, l₂, -, h₂, rfl⟩ := genPlans_eq_some h
  obtain ⟨hemit, -⟩ | ⟨-, cp₀, hcp₀, hl₂⟩ := emitPlan_eq_some h₂
  · exact absurd (hother.symm.trans hemit) Bool.noConfusion
  obtain ⟨l, hl, hne, hall⟩ := @expandPlan_spec flags pick st hsize
    { cp₀ with type := cpType.getD cp₀.type }
  rw [hl₂, Option.some.injEq] at hl
  obtain ⟨cp, hcp⟩ := List.exists_mem_of_ne_nil l hne
  have hty : cp.type = cpType.getD .unprotectedPersistOther := by
    rw [← (persistOtherPlan_eq_some hcp₀).1.1]
    exact (hall cp hcp).1
  refine ⟨cp, List.mem_append_right l₁ (hl ▸ hcp), ?_⟩
  cases hasked with
  | both => exact Or.inl hty
  | persistSelf => cases hother
  | persistOther => exact Or.inr hty

/-- The plans that persist the other stores leave the store out exactly if it is not sampled. -/
theorem persist_other_leaves_out_iff (op : OpTrace) (r : Analysis) (flags : PlanFlags)
    (pick : List Int → Int) (hpick : Picks pick) (st : TraceEntry) (hst : op.IsPmStore st)
    {data : Bytes} (hval : HasValue st data) {persistSelf persistOther : Bool}
    {cpType : Option CrashPlanType} (hasked : Asked persistSelf persistOther cpType)
    {plans : List CrashPlanEntry}
    (hplans : genPlans op.toOpTraceEntry r flags pick persistSelf persistOther cpType st =
      some plans) :
    (∀ cp ∈ plans, cp.type = .unprotectedPersistOther ∨ cp.type = .mechPersistOther →
      LeavesOut op.toOpTraceEntry st cp) ↔ (persistOther = true → sampled flags st = false) := by
  have hlen := hval.length
  constructor
  · intro hall hother
    by_contra hs
    rw [Bool.not_eq_false] at hs
    have hpos := size_ne_zero_of_sampled hs
    obtain ⟨cp, hcp, hty⟩ := exists_persistOther (by omega) hasked hother hplans
    obtain ⟨addr, hsample⟩ := samplesStore_of_mem hpick (by omega) hs hplans hcp
    have hzero : addr + (0 : Nat) < sampleEnd st addr := by
      have hupper := hsample.upper
      rw [sampleEnd, alignToCeil, atomicWriteBytes]
      omega
    obtain ⟨img, img', himg, hput, -, hne⟩ :=
      exists_image_changed op.wf hst hval hsample hzero
    rw [(hall cp hcp hty img himg).1, Option.some.injEq] at hput
    rw [hput] at hne
    exact hne rfl
  · intro hun cp hcp hty
    obtain ⟨cp₀, l, hplan, hl, hmem⟩ := mem_genPlans_expand hplans hcp
    rcases hplan with ⟨hself, hcp₀⟩ | ⟨hother, hcp₀⟩
    · have htype := type_of_mem_expandPlan (by omega) hl hmem
      rw [(persistSelfPlan_eq_some hcp₀).1.1] at htype
      rw [htype] at hty
      cases hasked with
      | both => simp at hty
      | persistSelf => simp at hty
      | persistOther => cases hself
    · rw [expandPlan_unsampled (hun hother), Option.some.injEq] at hl
      rw [← hl, List.mem_singleton] at hmem
      obtain ⟨⟨-, hnone⟩, c, hp⟩ := persistOtherPlan_eq_some hcp₀
      rw [hmem]
      exact leavesOut_of_unsampled op.wf (hp.retype _) hnone

theorem picks_head : Picks fun words => words.headD 0 := by
  intro words hne
  cases words with
  | nil => exact absurd rfl hne
  | cons w rest => exact List.mem_cons_self

/-- A copy of two words with different bytes. -/
def tornRecord : TraceEntry :=
  { TraceEntry.plain .memTransStore 1 8 16 with
    svEntry := some [1, 2, 3, 4, 5, 6, 7, 8, 9, 10, 11, 12, 13, 14, 15, 16] }

def tornTrace : OpTrace :=
  OpTrace.ofRecords (.plain .startFn 0 0 0) "write" 0 32 0
    [tornRecord, .plain .asmFlush 2 0 64, .plain .asmFence 3 0 0] (by decide +kernel)

def tornAnalysis : Analysis :=
  (analysisInCacheRun ⟨false, true, false⟩ id tornTrace.toOpTraceEntry).get (by decide +kernel)

/-- The plans of the copy, one for every address. -/
def tornPlans : List CrashPlanEntry :=
  (Scheme2CP.gen2cpForAStore tornTrace.toOpTraceEntry tornAnalysis ⟨false, false⟩
    (fun words => words.headD 0) tornRecord).get (by decide +kernel)

/-- The two plans that take the copy as one store. -/
def wholePlans : List CrashPlanEntry :=
  (Scheme2CP.gen2cpForAStore tornTrace.toOpTraceEntry tornAnalysis ⟨true, false⟩
    (fun words => words.headD 0) tornRecord).get (by decide +kernel)

theorem hasValue_tornRecord :
    HasValue tornRecord [1, 2, 3, 4, 5, 6, 7, 8, 9, 10, 11, 12, 13, 14, 15, 16] := ⟨rfl, rfl⟩

/-- As one store the copy is left out. -/
theorem persist_other_leaves_out_whole :
    (∃ cp ∈ wholePlans, cp.type = .unprotectedPersistOther) ∧
      ∀ cp ∈ wholePlans, cp.type = .unprotectedPersistOther ∨ cp.type = .mechPersistOther →
        LeavesOut tornTrace.toOpTraceEntry tornRecord cp :=
  ⟨by decide +kernel,
    (persist_other_leaves_out_iff tornTrace tornAnalysis ⟨true, false⟩ _ picks_head tornRecord
      (by decide +kernel) hasValue_tornRecord .both (Option.some_get _).symm).mpr fun _ => rfl⟩

/-- A plan that persists the others writes a word of the copy, the only store there is. -/
theorem persist_other_writes_itself :
    ∃ cp ∈ tornPlans, cp.type = .unprotectedPersistOther ∧
      putCpToImg (zeroImage 32) tornTrace.toOpTraceEntry cp ≠ some (zeroImage 32) ∧
      ¬ LeavesOut tornTrace.toOpTraceEntry tornRecord cp := by
  obtain ⟨cp, hcp, hty, hput, hseq⟩ : ∃ cp ∈ tornPlans, cp.type = .unprotectedPersistOther ∧
      putCpToImg (zeroImage 32) tornTrace.toOpTraceEntry cp ≠ some (zeroImage 32) ∧
      putCpSeq tornTrace.toOpTraceEntry cp (zeroImage 32) 1 ≠ some (zeroImage 32) := by
    decide +kernel
  exact ⟨cp, hcp, hty, hput, fun hout => hseq (hout (zeroImage 32) (by decide +kernel)).1⟩

/-! ## The sampled word -/

/-- The turn of a sampled store changes bytes of the word of the address that belong to the
store, each to its byte of the value. -/
def WritesWord (op : OpTraceEntry) (st : TraceEntry) (data : Bytes) (cp : CrashPlanEntry)
    (addr : Int) : Prop :=
  ∀ img : Bytes, (img.length : Int) = op.pmSize → ∃ img', putCpSeq op cp img st.seq = some img' ∧
    ∀ k : Nat, img'[k]? ≠ img[k]? →
      (op.pmAddr + k) / atomicWriteBytes = addr / atomicWriteBytes ∧
      (st.addr ≤ op.pmAddr + k ∧ op.pmAddr + k < st.addr + st.size) ∧
      img'[k]? = data[(op.pmAddr + k - st.addr).toNat]?

/-- A sampled plan writes the right bytes exactly if the value begins with them. -/
theorem writes_word_iff (op : OpTrace) (r : Analysis) (flags : PlanFlags) (pick : List Int → Int)
    (hpick : Picks pick) (st : TraceEntry) (hst : op.IsPmStore st) {data : Bytes}
    (hval : HasValue st data) {persistSelf persistOther : Bool} {cpType : Option CrashPlanType}
    {plans : List CrashPlanEntry}
    (hplans : genPlans op.toOpTraceEntry r flags pick persistSelf persistOther cpType st =
      some plans) {cp : CrashPlanEntry} (hcp : cp ∈ plans) {addr : Int}
    (haddr : cp.samplingAddr = some addr) :
    WritesWord op.toOpTraceEntry st data cp addr ↔
      ∀ i : Nat, addr + i < alignToCeil addr atomicWriteBytes → addr + i < st.addr + st.size →
        data[i]? = data[i + (addr - st.addr).toNat]? := by
  have hlen := hval.length
  have hs : sampled flags st = true := by
    by_contra hs
    rw [samplingAddr_eq_none (Bool.eq_false_iff.mpr hs) hplans hcp] at haddr
    cases haddr
  obtain ⟨addr', h⟩ := samplesStore_of_mem hpick (by omega) hs hplans hcp
  obtain rfl : addr' = addr := Option.some.inj (h.named.symm.trans haddr)
  have hlower := h.lower
  have hpm := (isPmStore_inside op.wf hst).1
  constructor
  · intro hall i h1 h2
    -- an image that has another byte in this place
    obtain ⟨img, img', himg, hput, hget, hne⟩ :=
      exists_image_changed op.wf hst hval h (lt_min h1 h2)
    obtain ⟨img'', hput', hbyte⟩ := hall img himg
    rw [hput, Option.some.injEq] at hput'
    obtain ⟨-, -, hdata⟩ := hbyte _ (hput' ▸ hne)
    rw [← hput', hget] at hdata
    rw [hdata]
    congr 1
    omega
  · intro hdata img himg
    refine ⟨_, putCpSeq_sampled op.wf hst hval h img, fun k hk => ?_⟩
    rw [getElem?_sampled op.wf hst hval h himg k] at hk ⊢
    by_cases hin : addr' ≤ op.pmAddr + k ∧ op.pmAddr + k < sampleEnd st addr'
    · obtain ⟨h1, h2⟩ := hin
      obtain ⟨hword, hend⟩ := lt_min_iff.mp h2
      have hi : (op.pmAddr + k - addr').toNat + (addr' - st.addr).toNat =
          (op.pmAddr + k - st.addr).toNat := by omega
      refine ⟨?_, ⟨by omega, hend⟩, ?_⟩
      · simp only [alignToCeil, atomicWriteBytes] at hword ⊢
        omega
      · rw [if_pos ⟨h1, h2⟩, hdata _ (by omega) (by omega), hi]
    · rw [if_neg hin] at hk
      exact absurd rfl hk

/-- The first word of the copy is written as it is. -/
theorem writes_word_first :
    ∃ cp ∈ tornPlans, cp.samplingAddr = some 8 ∧
      WritesWord tornTrace.toOpTraceEntry tornRecord
        [1, 2, 3, 4, 5, 6, 7, 8, 9, 10, 11, 12, 13, 14, 15, 16] cp 8 := by
  obtain ⟨cp, hcp, haddr⟩ : ∃ cp ∈ tornPlans, cp.samplingAddr = some 8 := by decide +kernel
  refine ⟨cp, hcp, haddr, ?_⟩
  exact (writes_word_iff tornTrace tornAnalysis ⟨false, false⟩ _ picks_head tornRecord
    (by decide +kernel) hasValue_tornRecord (Option.some_get _).symm hcp haddr).mpr
      fun _ _ _ => rfl

/-- The second word of the copy is written with the bytes of the first. -/
theorem writes_word_shifted :
    ∃ cp ∈ tornPlans, cp.samplingAddr = some 16 ∧
      putCpSeq tornTrace.toOpTraceEntry cp (zeroImage 32) 1 =
        some (List.replicate 16 0 ++ [1, 2, 3, 4, 5, 6, 7, 8] ++ List.replicate 8 0) ∧
      ¬ WritesWord tornTrace.toOpTraceEntry tornRecord
        [1, 2, 3, 4, 5, 6, 7, 8, 9, 10, 11, 12, 13, 14, 15, 16] cp 16 := by
  obtain ⟨cp, hcp, haddr, hput⟩ : ∃ cp ∈ tornPlans, cp.samplingAddr = some 16 ∧
      putCpSeq tornTrace.toOpTraceEntry cp (zeroImage 32) 1 =
        some (List.replicate 16 0 ++ [1, 2, 3, 4, 5, 6, 7, 8] ++ List.replicate 8 0) := by
    decide +kernel
  refine ⟨cp, hcp, haddr, hput, fun hall => ?_⟩
  obtain ⟨img', hput', hbyte⟩ := hall (zeroImage 32) (by decide +kernel)
  obtain rfl := Option.some.inj (hput.symm.trans hput')
  exact absurd (hbyte 16 (by decide +kernel)).2.2 (by decide +kernel)

/-! ## One plan for every word -/

/-- A plan that persists its store. -/
def isPersistSelf (cp : CrashPlanEntry) : Bool :=
  cp.type = .unprotectedPersistSelf ∨ cp.type = .mechPersistSelf

/-- The addresses the plans that persist the store name. -/
def selfAddrs (plans : List CrashPlanEntry) : List Int :=
  (plans.filter isPersistSelf).filterMap CrashPlanEntry.samplingAddr

/-- Every word of a store has one address, and what is written for the addresses tiles it. -/
structure EnumeratesWords (st : TraceEntry) (addrs : List Int) : Prop where
  inside : ∀ a ∈ addrs, st.addr ≤ a ∧ a < st.addr + st.size
  word : ∀ a, st.addr ≤ a → a < st.addr + st.size →
    addrs.countP (fun b => b / atomicWriteBytes = a / atomicWriteBytes) = 1
  tile : ∀ a, st.addr ≤ a → a < st.addr + st.size →
    addrs.countP (fun b => b ≤ a ∧ a < sampleEnd st b) = 1

/-- The first byte of a store in the word of an address. -/
def firstInWord (st : TraceEntry) (addr : Int) : Int :=
  max (alignToFloor addr atomicWriteBytes) st.addr

theorem countP_eq_one {l : List Int} (hnodup : l.Nodup) {p : Int → Bool} {x : Int} (hx : x ∈ l)
    (hp : ∀ y ∈ l, p y = true ↔ y = x) : l.countP p = 1 := by
  have hcount : l.countP p = l.count x := by
    refine List.countP_congr fun y hy => ?_
    rw [hp y hy, beq_iff_eq]
  rw [hcount]
  exact List.count_eq_one_of_mem hnodup hx

section

variable {op : OpTraceEntry} {r : Analysis} {pick : List Int → Int} {st : TraceEntry}
  {plans : List CrashPlanEntry}

/-- One address for every word is enough if it is the first one in the word. -/
theorem enumeratesWords_of_first {addrs : List Int} (hnodup : addrs.Nodup)
    (hinside : ∀ a ∈ addrs, st.addr ≤ a ∧ a < st.addr + st.size)
    (hfirst : ∀ a ∈ addrs, a = firstInWord st a)
    (hall : ∀ a, st.addr ≤ a → a < st.addr + st.size → firstInWord st a ∈ addrs) :
    EnumeratesWords st addrs where
  inside := hinside
  word a h1 h2 := by
    refine countP_eq_one hnodup (hall a h1 h2) fun b hb => ?_
    have hfb := hfirst b hb
    rw [decide_eq_true_eq]
    simp only [firstInWord, alignToFloor, atomicWriteBytes] at hfb ⊢
    omega
  tile a h1 h2 := by
    refine countP_eq_one hnodup (hall a h1 h2) fun b hb => ?_
    have hfb := hfirst b hb
    rw [decide_eq_true_eq]
    simp only [firstInWord, sampleEnd, alignToFloor, alignToCeil, atomicWriteBytes] at hfb ⊢
    omega

theorem nodup_exhaustiveAddrs (st : TraceEntry) : (exhaustiveAddrs st).Nodup := by
  have hrange : ∀ lo hi : Int, (pyRange lo hi 1).Nodup := by
    intro lo hi
    refine List.Nodup.map (fun i j hij => ?_) List.nodup_range
    simpa using hij
  rw [exhaustiveAddrs]
  split_ifs with h
  · refine List.nodup_cons.mpr ⟨fun hmem => ?_, hrange _ _⟩
    rw [mem_pyRange_one] at hmem
    simp only [alignToCeil, atomicWriteBytes] at hmem
    omega
  · exact hrange _ _

theorem filter_isPersistSelf {flags : PlanFlags} (hsize : 0 ≤ st.size) {persistOther : Bool}
    {cpType : Option CrashPlanType} (hasked : Asked true persistOther cpType)
    (h : genPlans op r flags pick true persistOther cpType st = some plans) :
    ∃ cp₀, persistSelfPlan op r st = some cp₀ ∧
      expandPlan flags pick st { cp₀ with type := cpType.getD cp₀.type } =
        some (plans.filter isPersistSelf) := by
  obtain ⟨l₁, l₂, h₁, h₂, rfl⟩ := genPlans_eq_some h
  obtain ⟨hemit, -⟩ | ⟨-, cp₀, hcp₀, hl₁⟩ := emitPlan_eq_some h₁
  · cases hemit
  have hself : l₁.filter isPersistSelf = l₁ := by
    refine List.filter_eq_self.mpr fun cp hcp => ?_
    have hty := type_of_mem_expandPlan hsize hl₁ hcp
    rw [(persistSelfPlan_eq_some hcp₀).1.1] at hty
    cases hasked with
    | both => exact decide_eq_true (Or.inl hty)
    | persistSelf => exact decide_eq_true (Or.inr hty)
  have hother : l₂.filter isPersistSelf = [] := by
    refine List.filter_eq_nil_iff.mpr fun cp hcp => ?_
    obtain ⟨-, rfl⟩ | ⟨hemit, cp₁, hcp₁, hl₂⟩ := emitPlan_eq_some h₂
    · cases hcp
    cases hasked with
    | both =>
      have hty : cp.type = .unprotectedPersistOther :=
        (type_of_mem_expandPlan hsize hl₂ hcp).trans (persistOtherPlan_eq_some hcp₁).1.1
      rw [isPersistSelf, hty]
      decide
    | persistSelf => cases hemit
  refine ⟨cp₀, hcp₀, ?_⟩
  rw [List.filter_append, hself, hother, List.append_nil]
  exact hl₁

theorem sampled_exhaustive (hty : (st.type.isMemset || st.type.isMemTransStore) = true) :
    sampled ⟨false, false⟩ st = true ↔
      st.addr / atomicWriteBytes ≠ (st.addr + st.size) / atomicWriteBytes := by
  simp only [sampled, hty, Bool.not_false, Bool.true_and, decide_eq_true_eq]

/-- The plans that persist a store name all of its addresses or none. -/
theorem selfAddrs_eq (hsize : 0 ≤ st.size) {persistOther : Bool}
    {cpType : Option CrashPlanType} (hasked : Asked true persistOther cpType)
    (h : genPlans op r ⟨false, false⟩ pick true persistOther cpType st = some plans) :
    selfAddrs plans = if sampled ⟨false, false⟩ st = true then exhaustiveAddrs st else [] := by
  obtain ⟨cp₀, hcp₀, hl⟩ := filter_isPersistSelf hsize hasked h
  rw [selfAddrs]
  by_cases hs : sampled ⟨false, false⟩ st = true
  · rw [expandPlan_exhaustive hs rfl, Option.some.injEq] at hl
    rw [if_pos hs, ← hl, List.filterMap_map]
    exact List.filterMap_some
  · rw [expandPlan_unsampled (Bool.eq_false_iff.mpr hs), Option.some.injEq] at hl
    have hnone : ({ cp₀ with type := cpType.getD cp₀.type } : CrashPlanEntry).samplingAddr = none :=
      (plan_base (Or.inl hcp₀)).2.2
    rw [if_neg hs, ← hl, List.filterMap_cons_none hnone, List.filterMap_nil]

theorem firstInWord_mem (hsize : 0 < st.size) {a : Int} (h1 : st.addr ≤ a)
    (h2 : a < st.addr + st.size) : firstInWord st a ∈ exhaustiveAddrs st := by
  rw [mem_exhaustiveAddrs hsize]
  simp only [firstInWord, alignToFloor, atomicWriteBytes]
  omega

/-- The addresses that come first in their word. -/
def wordFirsts (st : TraceEntry) (addrs : List Int) : List Int :=
  addrs.filter fun a => a = firstInWord st a

theorem enumeratesWords_wordFirsts (hsize : 0 < st.size) :
    EnumeratesWords st (wordFirsts st (exhaustiveAddrs st)) := by
  refine enumeratesWords_of_first ((nodup_exhaustiveAddrs st).filter _) ?_ ?_ ?_
  · intro a ha
    exact ((mem_exhaustiveAddrs hsize).mp (List.mem_of_mem_filter ha)).2
  · intro a ha
    exact of_decide_eq_true (List.mem_filter.mp ha).2
  · intro a h1 h2
    refine List.mem_filter.mpr ⟨firstInWord_mem hsize h1 h2, decide_eq_true ?_⟩
    simp only [firstInWord, alignToFloor, atomicWriteBytes]
    omega

/-- When the addresses of the plans are exactly one for every word: the loop has no step, so
only a store that ends within one byte of the first boundary inside has no word with two. -/
theorem enumeratesWords_iff (hty : (st.type.isMemset || st.type.isMemTransStore) = true)
    (hsize : 0 ≤ st.size) {persistOther : Bool} {cpType : Option CrashPlanType}
    (hasked : Asked true persistOther cpType)
    (h : genPlans op r ⟨false, false⟩ pick true persistOther cpType st = some plans) :
    EnumeratesWords st (selfAddrs plans) ↔ st.size = 0 ∨
      st.addr % atomicWriteBytes ≠ 0 ∧
        alignToCeil st.addr atomicWriteBytes ≤ st.addr + st.size ∧
        st.addr + st.size ≤ alignToCeil st.addr atomicWriteBytes + 1 := by
  rw [selfAddrs_eq hsize hasked h]
  by_cases hs : sampled ⟨false, false⟩ st = true
  · have hpos : 0 < st.size := lt_of_le_of_ne hsize (size_ne_zero_of_sampled hs).symm
    have hcross := (sampled_exhaustive hty).mp hs
    rw [if_pos hs]
    constructor
    · intro henum
      refine Or.inr ?_
      -- two neighbours in one word are two addresses of it
      have htwo : ∀ a, a ∈ exhaustiveAddrs st → a + 1 ∈ exhaustiveAddrs st →
          (a + 1) / 8 ≠ a / 8 := by
        intro a ha ha' hword
        obtain ⟨-, h1, h2⟩ := (mem_exhaustiveAddrs hpos).mp ha
        have hone := henum.word a h1 h2
        rw [List.countP_eq_length_filter, List.length_eq_one_iff] at hone
        obtain ⟨z, hz⟩ := hone
        have hmem : ∀ b ∈ exhaustiveAddrs st, b / 8 = a / 8 → b = z := by
          intro b hb hword
          rw [← List.mem_singleton, ← hz]
          exact List.mem_filter.mpr ⟨hb, decide_eq_true hword⟩
        have hz1 := hmem a ha rfl
        have hz2 := hmem (a + 1) ha' hword
        omega
      have hfirst := htwo st.addr
      have hnext := htwo (alignToCeil st.addr atomicWriteBytes)
      simp only [mem_exhaustiveAddrs hpos] at hfirst hnext
      simp only [alignToCeil, atomicWriteBytes] at hcross hnext ⊢
      omega
    · rintro (hzero | ⟨hal, hle, hlast⟩)
      · omega
      · refine enumeratesWords_of_first (nodup_exhaustiveAddrs st)
          (fun a ha => ((mem_exhaustiveAddrs hpos).mp ha).2) (fun a ha => ?_)
          fun a => firstInWord_mem hpos
        rw [mem_exhaustiveAddrs hpos] at ha
        simp only [firstInWord, alignToCeil, alignToFloor, atomicWriteBytes] at hal hlast ⊢
        omega
  · have hsame := not_not.mp fun hcross => hs ((sampled_exhaustive hty).mpr hcross)
    rw [if_neg hs]
    constructor
    · intro henum
      by_contra hcond
      exact absurd (henum.word st.addr (le_refl _) (by omega)) (by simp)
    · rintro (hzero | ⟨-, hle, -⟩)
      · refine ⟨by simp, fun a h1 h2 => ?_, fun a h1 h2 => ?_⟩
        · omega
        · omega
      · simp only [alignToCeil, atomicWriteBytes] at hsame hle
        omega

/-- A store inside one word gets one plan without address.  Any other gets sampled plans only,
for addresses of the store, and those that come first in their word are one for every word and
tile it. -/
theorem exhaustive_words (op : OpTraceEntry) (r : Analysis) (pick : List Int → Int)
    (st : TraceEntry) (hty : (st.type.isMemset || st.type.isMemTransStore) = true)
    (hsize : 0 ≤ st.size) {persistOther : Bool} {cpType : Option CrashPlanType}
    (hasked : Asked true persistOther cpType) {plans : List CrashPlanEntry}
    (hplans : genPlans op r ⟨false, false⟩ pick true persistOther cpType st = some plans) :
    (st.addr / atomicWriteBytes = (st.addr + st.size) / atomicWriteBytes →
      ∃ cp, plans.filter isPersistSelf = [cp] ∧ cp.samplingType = .samplingNone ∧
        cp.samplingAddr = none) ∧
    (st.addr / atomicWriteBytes ≠ (st.addr + st.size) / atomicWriteBytes →
      (∀ cp ∈ plans.filter isPersistSelf, ∃ a, cp.samplingAddr = some a ∧
        cp.samplingType = .samplingAtomic ∧ st.addr ≤ a ∧ a < st.addr + st.size) ∧
      EnumeratesWords st (wordFirsts st (selfAddrs plans))) := by
  obtain ⟨cp₀, hcp₀, hl⟩ := filter_isPersistSelf hsize hasked hplans
  obtain ⟨-, hnone, haddr⟩ := plan_base (Or.inl hcp₀)
  constructor
  · intro hone
    have hs : sampled ⟨false, false⟩ st = false :=
      Bool.eq_false_iff.mpr fun hs => (sampled_exhaustive hty).mp hs hone
    rw [expandPlan_unsampled hs, Option.some.injEq] at hl
    exact ⟨_, hl.symm, hnone, haddr⟩
  · intro hcross
    have hs := (sampled_exhaustive hty).mpr hcross
    have hpos : 0 < st.size := lt_of_le_of_ne hsize (size_ne_zero_of_sampled hs).symm
    constructor
    · intro cp hcp
      rw [expandPlan_exhaustive hs rfl, Option.some.injEq] at hl
      rw [← hl] at hcp
      obtain ⟨a, ha, rfl⟩ := List.mem_map.mp hcp
      exact ⟨a, rfl, rfl, ((mem_exhaustiveAddrs hpos).mp ha).2⟩
    · rw [selfAddrs_eq hsize hasked hplans, if_pos hs]
      exact enumeratesWords_wordFirsts hpos

end

/-- The two words of the copy. -/
theorem exhaustive_words_torn :
    wordFirsts tornRecord (selfAddrs tornPlans) = [8, 16] ∧
      EnumeratesWords tornRecord (wordFirsts tornRecord (selfAddrs tornPlans)) :=
  ⟨by decide +kernel,
    ((exhaustive_words tornTrace.toOpTraceEntry tornAnalysis _ tornRecord (by decide) (by decide)
      .both (Option.some_get _).symm).2 (by decide)).2⟩

/-- A memset of half a word. -/
def halfWordTrace : OpTrace :=
  OpTrace.ofRecords (.plain .startFn 0 0 0) "write" 0 32 0
    [.plain .memset 1 0 4, .plain .asmFlush 2 0 64, .plain .asmFence 3 0 0] (by decide +kernel)

def halfWordAnalysis : Analysis :=
  (analysisInCacheRun ⟨false, true, false⟩ id halfWordTrace.toOpTraceEntry).get (by decide +kernel)

def halfWordPlans : List CrashPlanEntry :=
  (Scheme2CP.gen2cpForAStore halfWordTrace.toOpTraceEntry halfWordAnalysis ⟨false, false⟩
    (fun words => words.headD 0) (.plain .memset 1 0 4)).get (by decide +kernel)

/-- Its word has no address. -/
theorem half_word_unnamed :
    selfAddrs halfWordPlans = [] ∧
      ¬ EnumeratesWords (.plain .memset 1 0 4) (selfAddrs halfWordPlans) := by
  have hnil : selfAddrs halfWordPlans = [] := by decide +kernel
  refine ⟨hnil, fun henum => ?_⟩
  rw [hnil] at henum
  exact absurd (henum.word 0 (by decide) (by decide)) (by decide)

end CrashPlan
end Silhouette
