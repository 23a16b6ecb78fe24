import MiddleEnd.Proofs.Dominance
import MiddleEnd.Proofs.Prune

/-!
# Functions in SSA form

In SSA form control flow can be followed everywhere, each phi has one entry for each predecessor, and
every value is available where it is read: it has been computed on all paths to that place.

A function in SSA form can be analyzed, if it has an entry that nothing leads back to.  This deletes
the unreachable blocks and leaves a function in SSA form.
-/

namespace MiddleEnd

open List Instr

variable {k : Instr} {e : PhiEntry} {v : Operand}

lemma Instr.targets_filterEntries (keep : BlockId → Bool) (k : Instr) :
    (k.filterEntries keep).targets = k.targets := by
  cases k <;> rfl

lemma Instr.entries_filterEntries (keep : BlockId → Bool) (k : Instr) :
    (k.filterEntries keep).entries = k.entries.filter fun e => keep e.block := by
  cases k <;> rfl

lemma Instr.operands_filterEntries_subset (keep : BlockId → Bool) (k : Instr) :
    (k.filterEntries keep).operands ⊆ k.operands := by
  cases k with
  | phi es => exact (filter_sublist.filterMap PhiEntry.value).subset
  | _ => exact List.Subset.refl _

lemma Instr.mem_operands_of_entry (he : e ∈ k.entries)
    (hv : e.value = some v) : v ∈ k.operands := by
  cases k with
  | phi es => exact mem_filterMap.mpr ⟨e, he, hv⟩
  | _ => cases he

lemma Instr.isPhi_of_mem_entries (he : e ∈ k.entries) : k.isPhi := by
  cases k with
  | phi es => rfl
  | _ => cases he

lemma Instr.exists_entry_of_mem_operands (hk : k.isPhi) (hv : v ∈ k.operands) :
    ∃ e ∈ k.entries, e.value = some v := by
  cases k with
  | phi es => exact mem_filterMap.mp hv
  | _ => exact absurd hk Bool.false_ne_true

namespace Func

variable {f g : Func} {opens : InstId → Prop} {b : BlockId}

/-! ## Definitions -/

/-- The value can be read in `b` after the instructions `before` of that block.  If it is the result
of an instruction, that is one of these or is in another block, which dominates `b`. -/
def Available (f : Func) (b : BlockId) (before : List InstId) (v : Operand) : Prop :=
  ∀ i, v = .inst i → i ∈ before ∨ (f.inst i).block ≠ b ∧ f.Dom (f.inst i).block b

/-- The entries of a phi of `b` are one for each predecessor. -/
def Covers (f : Func) (b : BlockId) (es : List PhiEntry) : Prop :=
  (es.map PhiEntry.block).Nodup ∧ ∀ p, p ∈ es.map PhiEntry.block ↔ f.Edge p b

/-- What SSA form asks for besides what verification checks.  Entries of the phis in `opens` may be
open. -/
structure SsaForm (f : Func) (opens : InstId → Prop) : Prop where
  resolved : ∀ b ∈ f.liveBlocks, ∀ i ∈ f.instsOf b, (f.instr i).isPendingJump = false
  targets : ∀ b ∈ f.liveBlocks, ∀ c ∈ f.targets b, c ∈ f.liveBlocks
  entry : ∀ i ∈ f.instsOf ⟨0⟩, (f.instr i).isPhi = false
  covers : ∀ b ∈ f.liveBlocks, ∀ i ∈ f.instsOf b, (f.instr i).isPhi →
    f.Covers b (f.instr i).entries
  filled : ∀ b ∈ f.liveBlocks, ∀ i ∈ f.instsOf b, ¬ opens i →
    ∀ e ∈ (f.instr i).entries, e.value ≠ none
  /-- An operand has been computed before the instruction. -/
  dominated : ∀ b ∈ f.liveBlocks, f.Reachable b → ∀ pre i post, f.instsOf b = pre ++ i :: post →
    (f.instr i).isPhi = false → ∀ v ∈ (f.instr i).operands, f.Available b pre v
  /-- The value of a phi entry has been computed at the end of the predecessor. -/
  flows : ∀ b ∈ f.liveBlocks, f.Reachable b → ∀ i ∈ f.instsOf b, ∀ e ∈ (f.instr i).entries,
    ∀ v, e.value = some v → f.Available e.block (f.instsOf e.block) v

/-- What SSA form asks of edges, phis and operands: it leaves out pending jumps and the entry. -/
structure SsaFlow (f : Func) (opens : InstId → Prop) : Prop where
  targets : ∀ b ∈ f.liveBlocks, ∀ c ∈ f.targets b, c ∈ f.liveBlocks
  covers : ∀ b ∈ f.liveBlocks, ∀ i ∈ f.instsOf b, (f.instr i).isPhi →
    f.Covers b (f.instr i).entries
  filled : ∀ b ∈ f.liveBlocks, ∀ i ∈ f.instsOf b, ¬ opens i →
    ∀ e ∈ (f.instr i).entries, e.value ≠ none
  dominated : ∀ b ∈ f.liveBlocks, f.Reachable b → ∀ pre i post, f.instsOf b = pre ++ i :: post →
    (f.instr i).isPhi = false → ∀ v ∈ (f.instr i).operands, f.Available b pre v
  flows : ∀ b ∈ f.liveBlocks, f.Reachable b → ∀ i ∈ f.instsOf b, ∀ e ∈ (f.instr i).entries,
    ∀ v, e.value = some v → f.Available e.block (f.instsOf e.block) v

lemma SsaForm.ssaFlow (hf : f.SsaForm opens) : f.SsaFlow opens :=
  ⟨hf.targets, hf.covers, hf.filled, hf.dominated, hf.flows⟩

structure Ssa (f : Func) : Prop where
  consistent : f.Consistent
  verified : f.verify = .ok ()
  form : f.SsaForm fun _ => False

def Complete (f : Func) : Prop :=
  ∀ b ∈ f.liveBlocks, ∀ i ∈ f.instsOf b, ∀ v ∈ (f.instr i).operands, f.defines v

lemma ssa_iff : f.Ssa ↔ f.Formed ∧ f.Complete ∧ f.SsaForm fun _ => False := by
  constructor
  · rintro ⟨hcons, hverified, hform⟩
    obtain ⟨hformed, hcomp⟩ := hcons.verify_eq_ok_iff.mp hverified
    exact ⟨hformed, hcomp, hform⟩
  · rintro ⟨hformed, hcomp, hform⟩
    exact ⟨hformed.consistent, hformed.verify_eq_ok_iff.mpr ⟨hformed, hcomp⟩, hform⟩

lemma Ssa.formed (hf : f.Ssa) : f.Formed :=
  (ssa_iff.mp hf).1

lemma Ssa.complete (hf : f.Ssa) : f.Complete :=
  (ssa_iff.mp hf).2.1

/-- The value can be read in `b` after the instructions `before` of that block, because it is the
result of one of these or of one in the entry. -/
def Near (f : Func) (b : BlockId) (before : List InstId) (v : Operand) : Prop :=
  ∀ i ∈ v.inst?, i ∈ before ∨ (f.inst i).block = ⟨0⟩ ∧ b ≠ ⟨0⟩

instance (f : Func) (b : BlockId) (before : List InstId) (v : Operand) :
    Decidable (f.Near b before v) :=
  inferInstanceAs (Decidable (∀ i ∈ v.inst?, i ∈ before ∨ (f.inst i).block = ⟨0⟩ ∧ b ≠ ⟨0⟩))

lemma Near.available {before : List InstId} (h : f.Near b before v) :
    f.Available b before v := by
  rintro i rfl
  refine (h i rfl).imp_right fun ⟨hblk, hne⟩ => ?_
  rw [hblk]
  exact ⟨hne.symm, Dominates.of_root b⟩

/-- A phi of `b` has one entry for each predecessor, with a value that is near its end. -/
def Joins (f : Func) (b : BlockId) (es : List PhiEntry) : Prop :=
  (es.map PhiEntry.block).Nodup ∧
    (∀ e ∈ es, (e.block ∈ f.liveBlocks ∧ b ∈ f.liveTargets e.block) ∧ e.value.isSome ∧
      ∀ v ∈ e.value, f.Near e.block (f.instsOf e.block) v) ∧
    ∀ p ∈ f.liveBlocks, b ∈ f.liveTargets p → p ∈ es.map PhiEntry.block

instance (f : Func) (b : BlockId) (es : List PhiEntry) : Decidable (f.Joins b es) :=
  inferInstanceAs (Decidable (_ ∧ (∀ e ∈ es, _ ∧ _ ∧ _) ∧ ∀ p ∈ f.liveBlocks, _ → _))

lemma Joins.covers {es : List PhiEntry} (h : f.Joins b es) : f.Covers b es := by
  obtain ⟨hnd, hents, hpreds⟩ := h
  refine ⟨hnd, fun p => ⟨fun hp => ?_, fun hp => hpreds p hp.1 hp.2⟩⟩
  obtain ⟨e, he, rfl⟩ := mem_map.mp hp
  exact (hents e he).1

lemma ssa_of_near (hverify : f.verify = .ok ()) (h : f.Consistent ∧
    (∀ b ∈ f.liveBlocks, ∀ i ∈ f.instsOf b, (f.instr i).isPendingJump = false) ∧
    (∀ b ∈ f.liveBlocks, ∀ c ∈ f.targets b, c ∈ f.liveBlocks) ∧
    (∀ i ∈ f.instsOf ⟨0⟩, (f.instr i).isPhi = false) ∧
    (∀ b ∈ f.liveBlocks, ∀ i ∈ f.instsOf b, (f.instr i).isPhi → f.Joins b (f.instr i).entries) ∧
    ∀ b ∈ f.liveBlocks, ∀ p ∈ (f.instsOf b).zipIdx, (f.instr p.1).isPhi = false →
      ∀ v ∈ (f.instr p.1).operands, f.Near b ((f.instsOf b).take p.2) v) : f.Ssa := by
  obtain ⟨hf, hresolved, htgts, hent, hjoins, hnear⟩ := h
  refine ⟨hf, hverify, hresolved, htgts, hent, fun b hb i hi hphi => (hjoins b hb i hi hphi).covers,
    fun b hb i hi _ e he => ?_, fun b hb _ pre i post hsplit hplain v hv => ?_,
    fun b hb _ i hi e he v hv => ?_⟩
  · exact Option.isSome_iff_ne_none.mp ((hjoins b hb i hi (isPhi_of_mem_entries he)).2.1 e he).2.1
  · have hindex : (i, pre.length) ∈ (f.instsOf b).zipIdx := by
      rw [mem_zipIdx_iff_getElem?, hsplit]
      simp
    have hbefore : (f.instsOf b).take pre.length = pre := by rw [hsplit, take_left]
    exact hbefore ▸ (hnear b hb _ hindex hplain v hv).available
  · exact (((hjoins b hb i hi (isPhi_of_mem_entries he)).2.1 e he).2.2 v hv).available

lemma ssa_of_local (hverify : f.verify = .ok ()) (h : f.Consistent ∧
    (∀ n < f.insts.size, (f.instr ⟨n⟩).isPhi = false ∧ (f.instr ⟨n⟩).isPendingJump = false) ∧
    (∀ b ∈ f.liveBlocks, ∀ c ∈ f.targets b, c ∈ f.liveBlocks) ∧
    ∀ b ∈ f.liveBlocks, ∀ p ∈ (f.instsOf b).zipIdx, ∀ v ∈ (f.instr p.1).operands,
      f.Near b ((f.instsOf b).take p.2) v) : f.Ssa := by
  obtain ⟨hf, hkinds, htgts, hlocal⟩ := h
  have hkind {b : BlockId} {i : InstId} (hi : i ∈ f.instsOf b) :=
    hkinds i.idx ((hasInst_iff f).mp (f.hasInst_of_live (hf.live_of_mem hi)))
  refine ssa_of_near hverify ⟨hf, fun b _ i hi => (hkind hi).2, htgts, fun i hi => (hkind hi).1,
    fun b _ i hi hphi => ?_, fun b hb p hp _ => hlocal b hb p hp⟩
  rw [(hkind hi).1] at hphi
  exact absurd hphi Bool.false_ne_true

/-! ## Available values -/

namespace Available

variable {i : InstId}

variable {b c : BlockId} {pre post : List InstId} {v : Operand}

lemma of_forall_ne (h : ∀ i, v ≠ .inst i) : f.Available b pre v :=
  fun i hi => absurd hi (h i)

lemma of_mem (h : i ∈ pre) : f.Available b pre (.inst i) := by
  rintro j hj
  exact Or.inl (Operand.inst.inj hj ▸ h)

lemma of_dom_block (h : (f.inst i).block ≠ b ∧ f.Dom (f.inst i).block b) :
    f.Available b pre (.inst i) := by
  rintro j hj
  exact Or.inr (Operand.inst.inj hj ▸ h)

lemma mono (h : f.Available b pre v) (hsub : pre ⊆ post) : f.Available b post v :=
  fun i hi => (h i hi).imp_left (hsub ·)

lemma of_concat (h : f.Available b (pre ++ [i]) v) (hne : v ≠ .inst i) : f.Available b pre v := by
  intro j hj
  refine (h j hj).imp_left fun hmem => ?_
  refine (mem_append.mp hmem).resolve_right fun hmem => hne ?_
  rw [hj, mem_singleton.mp hmem]

/-- What is available at the end of a block is available in the blocks that it dominates. -/
lemma of_dom (hf : f.Consistent) (h : f.Available b (f.instsOf b) v) (hdom : f.Dom b c)
    (hne : b ≠ c) (hc : f.Reachable c) : f.Available c [] v := by
  intro i hi
  right
  obtain ⟨l, hl⟩ := exists_path_iff.mpr hc
  rcases h i hi with hmem | ⟨-, hdom'⟩
  · rw [hf.block_of_mem hmem]
    exact ⟨hne, hdom⟩
  · refine ⟨?_, hdom'.trans hdom⟩
    rintro rfl
    exact hne (hdom.antisymm hdom' hl)

/-- What is available at the start of a block is available at the end of its predecessors. -/
lemma of_edge (hf : f.Consistent) (hedge : f.Edge b c) (hi : (f.inst i).live)
    (h : f.Available c [] (.inst i)) : f.Available b (f.instsOf b) (.inst i) := by
  rintro j hj
  obtain rfl := Operand.inst.inj hj
  obtain ⟨hne, hdom⟩ := (h i rfl).resolve_left not_mem_nil
  by_cases hblk : (f.inst i).block = b
  · exact Or.inl (hblk ▸ hf.mem_of_live hi)
  · exact Or.inr ⟨hblk, hdom.of_edge hne hedge⟩

lemma trans (hf : f.Consistent) (hi : f.Available b post (.inst i))
    (hv : f.Available (f.inst i).block pre v) (hpre : i ∈ post → (f.inst i).block = b ∧ pre ⊆ post)
    (hmem : pre ⊆ f.instsOf (f.inst i).block) (hb : f.Reachable b) : f.Available b post v := by
  rcases hi i rfl with hpost | ⟨hne, hdom⟩
  · obtain ⟨hblk, hsub⟩ := hpre hpost
    rw [hblk] at hv
    exact hv.mono hsub
  · exact ((hv.mono hmem).of_dom hf hdom hne hb).mono (nil_subset _)

lemma reachable (hf : f.Consistent) (h : f.Available b (f.instsOf b) (.inst i))
    (hb : f.Reachable b) : f.Reachable (f.inst i).block := by
  rcases h i rfl with hmem | ⟨-, hdom⟩
  · rwa [hf.block_of_mem hmem]
  · exact exists_path_iff.mp (hdom.exists_trail (exists_path_iff.mpr hb))

end Available

lemma Consistent.not_available_self (hf : f.Consistent) {i : InstId}
    {pre post : List InstId} (hsplit : f.instsOf b = pre ++ i :: post) :
    ¬ f.Available b pre (.inst i) := by
  intro h
  have hnd := hf.nodup b
  rw [hsplit] at hnd
  rcases h i rfl with hmem | ⟨hne, -⟩
  · exact (nodup_append.mp hnd).2.2 i hmem i (.head _) rfl
  · exact hne (hf.block_of_mem (by simp [hsplit]))

/-! ## Reachable code -/

section Reachable

variable {b : BlockId} {opens : InstId → Prop}

lemma SsaForm.mem_liveBlocks (hf : f.SsaForm opens)
    (hent : ⟨0⟩ ∈ f.liveBlocks) (hb : f.Reachable b) : b ∈ f.liveBlocks := by
  induction hb with
  | refl => exact hent
  | tail _ hedge _ => exact hf.targets _ hedge.1 _ (mem_liveTargets.mp hedge.2).1

lemma Ssa.placed_of_available (hf : f.Ssa) (hent : ⟨0⟩ ∈ f.liveBlocks) (hb : f.Reachable b)
    {j : InstId} (hlive : (f.inst j).live)
    (hj : f.Available b (f.instsOf b) (.inst j)) : f.placed j := by
  have hblk := hf.form.mem_liveBlocks hent (hj.reachable hf.consistent hb)
  exact hf.consistent.placed_of_mem hblk ((hf.consistent.mem_instsOf _ _).mpr ⟨hlive, rfl⟩)

lemma Ssa.edge_of_target (hf : f.Ssa) (hb : b ∈ f.liveBlocks) {i : InstId} (hi : i ∈ f.instsOf b)
    {c : BlockId} (hc : c ∈ (f.instr i).targets) : f.Edge b c ∧ c ∈ f.liveBlocks := by
  have hmem : c ∈ f.targets b := (hf.formed.mem_targets hb).mpr ⟨i, hi, hc⟩
  have hlive := hf.form.targets b hb c hmem
  refine ⟨⟨hb, mem_liveTargets.mpr ⟨hmem, ?_⟩⟩, hlive⟩
  simpa using (mem_filter.mp hlive).2

lemma SsaForm.placed_of_operand (hform : f.SsaForm opens)
    (hf : f.Consistent) (hcomp : f.Complete) (hent : ⟨0⟩ ∈ f.liveBlocks)
    (hreach : ∀ b ∈ f.liveBlocks, f.Reachable b) {u j : InstId} (hu : f.placed u)
    (hj : .inst j ∈ (f.instr u).operands) : f.placed j := by
  obtain ⟨b, hb, hub⟩ := mem_flatMap.mp (hf.mem_liveInsts.mpr hu)
  have hlive : (f.inst j).live := hcomp b hb u hub _ hj
  have hblk : f.Reachable (f.inst j).block := by
    cases hphi : (f.instr u).isPhi with
    | false =>
      obtain ⟨pre, post, hsplit⟩ := append_of_mem hub
      have havail := hform.dominated b hb (hreach b hb) pre u post hsplit hphi _ hj
      refine (havail.mono ?_).reachable hf (hreach b hb)
      rw [hsplit]
      exact subset_append_left pre _
    | true =>
      obtain ⟨e, he, hval⟩ := exists_entry_of_mem_operands hphi hj
      have hedge : f.Edge e.block b :=
        ((hform.covers b hb u hub hphi).2 e.block).mp (mem_map_of_mem he)
      have havail := hform.flows b hb (hreach b hb) u hub e he _ hval
      exact havail.reachable hf (hreach _ hedge.1)
  exact hf.placed_of_mem (hform.mem_liveBlocks hent hblk) (hf.mem_of_live hlive)

end Reachable

/-! ## Stored analyses -/

lemma dom_congr (h : g.Edge = f.Edge) : g.Dom = f.Dom := by
  rw [Dom, Dom, h]

lemma reachable_congr (h : g.Edge = f.Edge) : g.Reachable = f.Reachable := by
  rw [Reachable, Reachable, h]

namespace SameCode

lemma available (hfg : f.SameCode g) : g.Available = f.Available := by
  funext b pre v
  simp only [Available, hfg.inst, dom_congr hfg.edge]

lemma covers (hfg : f.SameCode g) : g.Covers = f.Covers := by
  funext b es
  simp only [Covers, hfg.edge]

lemma complete (hfg : f.SameCode g) (hf : f.Complete) : g.Complete := by
  intro b hb i hi v hv
  rw [hfg.liveBlocks] at hb
  rw [hfg.instsOf] at hi
  rw [hfg.instr] at hv
  rw [hfg.defines]
  exact hf b hb i hi v hv

lemma ssaForm (hfg : f.SameCode g) (hf : f.SsaForm opens) :
    g.SsaForm opens where
  resolved := by simpa only [hfg.liveBlocks, hfg.instsOf, hfg.instr] using hf.resolved
  targets := by simpa only [hfg.liveBlocks, hfg.targets] using hf.targets
  entry := by simpa only [hfg.instsOf, hfg.instr] using hf.entry
  covers := by
    simpa only [hfg.liveBlocks, hfg.instsOf, hfg.instr, hfg.covers] using hf.covers
  filled := by simpa only [hfg.liveBlocks, hfg.instsOf, hfg.instr] using hf.filled
  dominated := by
    simpa only [hfg.liveBlocks, reachable_congr hfg.edge, hfg.instsOf, hfg.instr, hfg.available]
      using hf.dominated
  flows := by
    simpa only [hfg.liveBlocks, reachable_congr hfg.edge, hfg.instsOf, hfg.instr, hfg.available]
      using hf.flows

end SameCode

/-! ## Pruned functions -/

namespace Pruned

variable {opens : InstId → Prop} {i : InstId}

variable {b c : BlockId}

variable (hf : f.Routed)
include hf

lemma notMem_unreachable (hfg : f.Pruned g) (hb : b ∈ g.liveBlocks) : b ∉ f.unreachable := fun h =>
  (hf.mem_unreachable.mp h).2 ((hf.mem_liveBlocks_of_without hfg.without).mp hb).2

lemma instsOf (hfg : f.Pruned g) (hb : b ∈ g.liveBlocks) : g.instsOf b = f.instsOf b := by
  rw [hfg.without.instsOf, if_neg (hfg.notMem_unreachable hf hb)]

lemma instr_of_mem (hg : g.Consistent) (hfg : f.Pruned g) (hb : b ∈ g.liveBlocks)
    (hi : i ∈ g.instsOf b) :
    g.instr i = (f.instr i).filterEntries fun c => !f.unreachable.contains c := by
  have hb' := ((hf.mem_liveBlocks_of_without hfg.without).mp hb).1
  refine hfg.instr i (hg.live_of_mem hi) (hf.placed_of_mem hb' ?_)
  rwa [← hfg.instsOf hf hb]

section

variable (hg : g.Formed) (hfg : f.Pruned g)
include hg hfg

lemma mem_targets (hb : b ∈ g.liveBlocks) : c ∈ g.targets b ↔ c ∈ f.targets b := by
  have hb' := ((hf.mem_liveBlocks_of_without hfg.without).mp hb).1
  rw [hg.mem_targets hb, hf.mem_targets hb']
  have htgts {i : InstId} (hi : i ∈ g.instsOf b) : (g.instr i).targets = (f.instr i).targets := by
    rw [hfg.instr_of_mem hf hg.consistent hb hi, targets_filterEntries]
  constructor
  · rintro ⟨i, hi, hc⟩
    exact ⟨i, hfg.instsOf hf hb ▸ hi, htgts hi ▸ hc⟩
  · rintro ⟨i, hi, hc⟩
    have hi' : i ∈ g.instsOf b := by rwa [hfg.instsOf hf hb]
    exact ⟨i, hi', (htgts hi').symm ▸ hc⟩

lemma edge_iff : g.Edge b c ↔ f.Edge b c ∧ f.Reachable b := by
  constructor
  · rintro ⟨hb, hc⟩
    obtain ⟨hb', hreach⟩ := (hf.mem_liveBlocks_of_without hfg.without).mp hb
    obtain ⟨htgt, hdel⟩ := mem_liveTargets.mp hc
    rw [hfg.mem_targets hf hg hb] at htgt
    rw [hf.deleted_of_edge hfg.without hb htgt] at hdel
    exact ⟨⟨hb', mem_liveTargets.mpr ⟨htgt, hdel⟩⟩, hreach⟩
  · rintro ⟨⟨hb', hc⟩, hreach⟩
    have hb := (hf.mem_liveBlocks_of_without hfg.without).mpr ⟨hb', hreach⟩
    obtain ⟨htgt, hdel⟩ := mem_liveTargets.mp hc
    refine ⟨hb, mem_liveTargets.mpr ⟨(hfg.mem_targets hf hg hb).mpr htgt, ?_⟩⟩
    rwa [hf.deleted_of_edge hfg.without hb htgt]

lemma path_iff {l : List BlockId} : g.Path l ↔ f.Path l := by
  constructor
  · intro h
    induction h with
    | root => exact .root
    | step _ hedge ih => exact ih.step ((hfg.edge_iff hf hg).mp hedge).1
  · intro h
    induction h with
    | root => exact .root
    | step hl hedge ih =>
      exact ih.step ((hfg.edge_iff hf hg).mpr ⟨hedge, exists_path_iff.mp ⟨_, hl⟩⟩)

lemma dom_iff : g.Dom b c ↔ f.Dom b c :=
  forall_congr' fun _ => imp_congr_left (hfg.path_iff hf hg)

lemma available {pre : List InstId} :
    g.Available b pre v ↔ f.Available b pre v := by
  simp only [Available, hfg.without.block, hfg.dom_iff hf hg]

end

lemma live_of_available (hfg : f.Pruned g) (hi : (f.inst i).live)
    (h : f.Available b (f.instsOf b) (.inst i)) (hb : f.Reachable b) : (g.inst i).live := by
  rw [hfg.without.live, hi, Bool.true_and, decide_eq_true_eq]
  exact fun hmem => (hf.mem_unreachable.mp hmem).2 (h.reachable hf.consistent hb)

variable (hg : g.Formed) (hfg : f.Pruned g)
include hg hfg

lemma ssaFlow (hform : f.SsaFlow opens) : g.SsaFlow opens := by
  have hlive {b : BlockId} (hb : b ∈ g.liveBlocks) := (hf.mem_liveBlocks_of_without
    hfg.without).mp hb
  have hinstr {b : BlockId} (hb : b ∈ g.liveBlocks) {i : InstId} (hi : i ∈ g.instsOf b) :=
    hfg.instr_of_mem hf hg.consistent hb hi
  refine ⟨fun b hb c hc => ?_, fun b hb i hi hphi => ?_, fun b hb i hi hopen e he => ?_,
    fun b hb _ pre i post hsplit hphi v hv => ?_, fun b hb _ i hi e he v hv => ?_⟩
  · rw [hfg.mem_targets hf hg hb] at hc
    have hc' := hform.targets b (hlive hb).1 c hc
    have hedge : f.Edge b c := ⟨(hlive hb).1, mem_liveTargets.mpr
      ⟨hc, (hf.mem_liveBlocks.mp hc').2⟩⟩
    exact (hf.mem_liveBlocks_of_without hfg.without).mpr ⟨hc', (hlive hb).2.tail hedge⟩
  · rw [hinstr hb hi] at hphi ⊢
    rw [Instr.filterEntries_isPhi] at hphi
    obtain ⟨hnd, hmem⟩ := hform.covers b (hlive hb).1 i (hfg.instsOf hf hb ▸ hi) hphi
    rw [Instr.entries_filterEntries]
    refine ⟨(filter_sublist.map PhiEntry.block).nodup hnd, fun p => ?_⟩
    have hkept : p ∈ (List.filter (fun e : PhiEntry => !f.unreachable.contains e.block)
        (f.instr i).entries).map PhiEntry.block ↔
        p ∈ (f.instr i).entries.map PhiEntry.block ∧ p ∉ f.unreachable := by
      constructor
      · grind
      · grind
    rw [hkept, hmem, hfg.edge_iff hf hg]
    refine and_congr_right fun hedge => ?_
    rw [hf.mem_unreachable, not_and, not_not]
    exact ⟨fun h => h hedge.1, fun h _ => h⟩
  · rw [hinstr hb hi, Instr.entries_filterEntries] at he
    exact hform.filled b (hlive hb).1 i (hfg.instsOf hf hb ▸ hi) hopen e (mem_filter.mp he).1
  · rw [hfg.available hf hg]
    have hi : i ∈ g.instsOf b := by simp [hsplit]
    rw [hinstr hb hi] at hphi hv
    rw [Instr.filterEntries_isPhi] at hphi
    rw [hfg.instsOf hf hb] at hsplit
    exact hform.dominated b (hlive hb).1 (hlive hb).2 pre i post hsplit hphi v
      (Instr.operands_filterEntries_subset _ _ hv)
  · rw [hfg.available hf hg]
    rw [hinstr hb hi, Instr.entries_filterEntries, mem_filter] at he
    have havail := hform.flows b (hlive hb).1 (hlive hb).2 i (hfg.instsOf hf hb ▸ hi) e he.1 v hv
    rwa [hfg.without.instsOf, if_neg (by simpa using he.2)]

lemma ssaForm (hform : f.SsaForm opens) : g.SsaForm opens := by
  obtain ⟨htgts, hcovers, hfilled, hdominated, hflows⟩ := hfg.ssaFlow hf hg hform.ssaFlow
  refine ⟨fun b hb i hi => ?_, htgts, fun i hi => ?_, hcovers, hfilled, hdominated, hflows⟩
  · have hb' := ((hf.mem_liveBlocks_of_without hfg.without).mp hb).1
    rw [hfg.instr_of_mem hf hg.consistent hb hi]
    have hpend := hform.resolved b hb' i (hfg.instsOf hf hb ▸ hi)
    cases hk : f.instr i with
    | jump t => rwa [hk] at hpend
    | _ => rfl
  · have hmem : i ∈ f.instsOf ⟨0⟩ := by
      rw [hfg.without.instsOf] at hi
      split at hi
      · cases hi
      · exact hi
    have hphi := hform.entry i hmem
    cases hpl : f.placed i with
    | true => rw [hfg.instr i (hg.live_of_mem hi) hpl, filterEntries_isPhi, hphi]
    | false => rw [hfg.other i hpl, hphi]

lemma complete (hform : f.SsaFlow opens) (hcomp : f.Complete) : g.Complete := by
  intro b hb i hi v hv
  obtain ⟨hb', hreach⟩ := (hf.mem_liveBlocks_of_without hfg.without).mp hb
  have hi' : i ∈ f.instsOf b := hfg.instsOf hf hb ▸ hi
  have hinstr := hfg.instr_of_mem hf hg.consistent hb hi
  have hv' : v ∈ (f.instr i).operands := by
    rw [hinstr] at hv
    exact operands_filterEntries_subset _ _ hv
  have hdefs := hcomp b hb' i hi' v hv'
  cases v with
  | inst d =>
    cases hphi : (f.instr i).isPhi with
    | false =>
      obtain ⟨pre, post, hsplit⟩ := append_of_mem hi'
      have havail := hform.dominated b hb' hreach pre i post hsplit hphi _ hv'
      refine hfg.live_of_available hf hdefs (havail.mono ?_) hreach
      exact fun j hj => hsplit ▸ mem_append_left _ hj
    | true =>
      rw [hinstr] at hv
      obtain ⟨e, he, hval⟩ := exists_entry_of_mem_operands (by rw [filterEntries_isPhi, hphi]) hv
      rw [entries_filterEntries, mem_filter] at he
      have havail := hform.flows b hb' hreach i hi' e he.1 _ hval
      have hedge : f.Edge e.block b := ((hform.covers b hb' i hi' hphi).2 e.block).mp
        (mem_map_of_mem he.1)
      refine hfg.live_of_available hf hdefs havail (by_contra fun hnot => ?_)
      have hkept : e.block ∉ f.unreachable := by simpa using he.2
      exact hkept (hf.mem_unreachable.mpr ⟨hedge.1, hnot⟩)
  | arg n =>
    have hsize := congrArg Array.size hfg.without.params
    rw [Array.size_map, Array.size_map] at hsize
    simpa only [defines, hsize] using hdefs
  | const c => rfl
  | global c => rfl

end Pruned

/-! ## Analysis -/

lemma SsaForm.flow (hform : f.SsaForm opens) (hf : f.Formed)
    (hb : b ∈ f.liveBlocks) : f.flowError? b = none ∧ f.hasDeadBranch b = false := by
  obtain ⟨t, ht⟩ := hf.exists_terminator hb
  obtain ⟨hmem, hterm⟩ := (hf.terminator?_eq_some hb).mp ht
  have hpend := hform.resolved b hb t hmem
  have htgt (c : BlockId) (hc : c ∈ (f.instr t).targets) :
      f.hasBlock c ∧ (f.block c).deleted = false := by
    refine hf.mem_liveBlocks.mp (hform.targets b hb c ?_)
    rwa [Func.targets, ht]
  rw [flowError?, hasDeadBranch, ht, Option.map_some]
  cases hk : f.instr t with
  | branch c x y =>
    rw [hk] at htgt
    obtain ⟨hx, hx'⟩ := htgt x (by simp [Instr.targets])
    obtain ⟨hy, hy'⟩ := htgt y (by simp [Instr.targets])
    simp [hx, hx', hy, hy']
  | jump target =>
    cases target with
    | none =>
      rw [hk] at hpend
      exact absurd hpend (by simp [isPendingJump])
    | some c => grind
  | ret v => simp [Instr.targets]
  | _ => grind

lemma Ssa.connect (hf : f.Ssa) : f.connect = (.ok [], f.setEdges f.liveBlocks) ∧
    (f.setEdges f.liveBlocks).Routed := by
  obtain ⟨hformed, -, hform⟩ := ssa_iff.mp hf
  have hflow (b : BlockId) (hb : b ∈ f.liveBlocks) := hform.flow hformed hb
  have hnone : f.liveBlocks.filter f.hasDeadBranch = [] :=
    filter_eq_nil_iff.mpr fun b hb => by simp [(hflow b hb).2]
  have hconn := connect_of_flow fun b hb => (hflow b hb).1
  rw [hnone] at hconn
  exact ⟨hconn, hformed.routed_setEdges (fun b hb => (hflow b hb).1) fun b hb => (hflow b hb).2⟩

lemma Ssa.prune (hf : f.Ssa) : ∃ g, f.connect = (.ok [], f.setEdges f.liveBlocks) ∧
    (f.setEdges f.liveBlocks).prune = (.ok (f.setEdges f.liveBlocks).unreachable, g) ∧
    (f.setEdges f.liveBlocks).Routed ∧ (f.setEdges f.liveBlocks).Pruned g ∧ g.Routed ∧ g.Ssa ∧
    (∀ b ∈ g.liveBlocks, g.Reachable b) ∧
    ∀ i, g.placed i → f.placed i ∧
      ∃ keep, g.instr i = (f.instr i).filterEntries keep := by
  obtain ⟨hconn, hrouted⟩ := hf.connect
  obtain ⟨hformed, hcomp, hform⟩ := ssa_iff.mp hf
  have hsame := sameCode_setEdges f f.liveBlocks
  obtain ⟨g, hprune, hg, hprun, hreach⟩ := hrouted.prune
  refine ⟨g, hconn, hprune, hrouted, hprun, hg, ssa_iff.mpr ⟨hg.formed, ?_, ?_⟩, hreach,
    fun i hi => ?_⟩
  · exact hprun.complete hrouted hg.formed (hsame.ssaForm hform).ssaFlow (hsame.complete hcomp)
  · exact hprun.ssaForm hrouted hg.formed (hsame.ssaForm hform)
  · have hpl : f.placed i := by
      have hi' := hi
      rw [placed, hprun.without.live, hprun.without.block, hprun.without.blockDeleted,
        Bool.not_or, Bool.and_eq_true, Bool.and_eq_true, Bool.and_eq_true] at hi'
      rw [← hsame.placed, placed, hi'.1.1, hi'.2.1]
      rfl
    rw [hprun.instr i (Formed.live_of_placed hi) (hsame.placed ▸ hpl)]
    exact ⟨hpl, _, rfl⟩

/-- The analyses before an optimization that needs dominance succeed on every function in SSA form
whose entry has no predecessor.  They leave SSA form, and take out blocks and phi entries only. -/
lemma Ssa.analyze (hf : f.Ssa) (hent : f.hasBlock ⟨0⟩) (hpreds : ∀ b, ¬ f.Edge b ⟨0⟩) :
    ∃ folded m dead g, f.connect = (.ok folded, m) ∧ m.prune = (.ok dead, g) ∧
      g.computeDominance = .ok g.withDominance ∧ g.withDominance.Analyzed ∧ g.withDominance.Ssa ∧
      ∀ i, g.withDominance.placed i → f.placed i ∧
        ∃ keep, g.withDominance.instr i = (f.instr i).filterEntries keep := by
  obtain ⟨g, hconn, hprune, hrouted, hprun, hg, hssa, hreach, hinstr⟩ := hf.prune
  obtain ⟨-, hgcomplete, hgform⟩ := ssa_iff.mp hssa
  have hsame := sameCode_setEdges f f.liveBlocks
  have hgentry : g.hasBlock ⟨0⟩ := by
    rw [hprun.without.hasBlock, hsame.hasBlock, hent]
  have hgpreds (b : BlockId) : ¬ g.Edge b ⟨0⟩ := by
    rw [hprun.edge_iff hrouted hg.formed, hsame.edge]
    exact fun h => hpreds b h.1
  have hdominance := sameCode_withDominance g
  refine ⟨_, _, _, g, hconn, hprune, hg.computeDominance hreach hgentry hgpreds,
    hg.analyzed_withDominance hreach hgentry hgpreds, ssa_iff.mpr ⟨?_, ?_, ?_⟩, fun i hi => ?_⟩
  · exact hg.sameCode hdominance
  · exact hdominance.complete hgcomplete
  · exact hdominance.ssaForm hgform
  · rw [hdominance.placed] at hi
    exact hinstr i hi

end Func

end MiddleEnd
