import Silhouette.Mech.PMStore

/-!
# Stores that are flushed and fenced

A store is persisted in its operation when a fence stands behind flushes of all its bytes.  The
reasoner finds a fence for exactly these stores: it stops chopping at the first flush behind which
nothing of the store is left, and takes the next fence.
-/

namespace Silhouette
namespace Mech

open Lib Cache Trace OpTrace

/-- A fence of the operation stands behind flushes of all bytes of the store. -/
def Persisted (op : OpTraceEntry) (st : TraceEntry) : Prop :=
  ∃ g ∈ op.fenceEntries, ∀ a, st.addr ≤ a → a < st.addr + st.size →
    ∃ f ∈ op.pmEntries, f.type.isFlushTy = true ∧ st.seq ≤ f.seq ∧ f.seq ≤ g.seq ∧
      f.addr ≤ a ∧ a < f.addr + f.size

/-- A fence is found for the stores that are persisted. -/
theorem fenceOp_isSome_iff {τ : Type} {iv : IntervalTree τ} {points : τ → Set Int}
    (hiv : iv.Lawful points) {op : OpTraceEntry} (hwf : op.WellFormed)
    {entries : List MechPMStoreEntry} (hent : MechPMStoreReason.entryList iv op = some entries)
    {e : MechPMStoreEntry} (he : e ∈ entries) : e.fenceOp.isSome ↔ Persisted op e.op := by
  obtain ⟨hcov, hnone⟩ | ⟨f, hcompletes, -, hfence⟩ := entry_spec hiv hwf hent he
  · rw [hnone]
    refine ⟨fun h => absurd h (by simp), fun ⟨g, _, hbytes⟩ => absurd ?_ hcov⟩
    intro a hlo hhi
    obtain ⟨f, hf, hty, hfs, -, hfa⟩ := hbytes a hlo hhi
    exact ⟨f, List.mem_filter.mpr ⟨hf, hty⟩, hfs, hfa⟩
  · obtain ⟨before, after, hsplit, hwith, -, a, hlo, hhi, -, hbyte⟩ := hcompletes.exists_byte
    have hsorted := sorted_flushes hwf
    rw [hsplit] at hsorted
    obtain ⟨-, hbehind, hahead⟩ := List.pairwise_append.mp hsorted
    rw [hfence, List.find?_isSome]
    constructor
    · rintro ⟨g, hg, hge⟩
      refine ⟨g, hg, fun b hlo hhi => ?_⟩
      obtain ⟨x, hx, hseq, hxb⟩ := hwith b hlo hhi
      have hxf : x.seq ≤ f.seq := by
        rcases List.mem_append.mp hx with hx | hx
        · exact hahead x hx f List.mem_cons_self
        · rw [List.mem_singleton.mp hx]
      have hmem : x ∈ op.pmEntries.filter fun x => x.type.isFlushTy := by
        rw [hsplit, List.append_cons]
        exact List.mem_append_left _ hx
      obtain ⟨hmem, hty⟩ := List.mem_filter.mp hmem
      exact ⟨x, hmem, hty, hseq, hxf.trans (of_decide_eq_true hge), hxb⟩
    · rintro ⟨g, hg, hbytes⟩
      -- the flush of the byte that `f` is the first to have is not before `f`
      obtain ⟨x, hx, hty, hseq, hxg, hxa⟩ := hbytes a hlo hhi
      refine ⟨g, hg, decide_eq_true ?_⟩
      have hmem : x ∈ before ++ f :: after := hsplit ▸ List.mem_filter.mpr ⟨hx, hty⟩
      rcases List.mem_append.mp hmem with hmem | hmem
      · exact absurd hxa (hbyte x hmem hseq)
      · rcases List.mem_cons.mp hmem with rfl | hmem
        · exact hxg
        · exact (List.rel_of_pairwise_cons hbehind hmem).trans hxg

end Mech
end Silhouette
