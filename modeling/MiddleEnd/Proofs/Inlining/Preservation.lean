import MiddleEnd.Proofs.DeadCode
import MiddleEnd.Proofs.Inlining.Execution
import MiddleEnd.Proofs.Machine.Pruned
import MiddleEnd.Proofs.Machine.Transfer

/-!
# Inlining preserves runs

When one call is replaced, all calls have the outcomes that they had, if each move may take a number of
additional cells.  So they have when calls are replaced one after the other.  A function that is retired
is not called any more.  A scalar program does after inlining what it did before, in a memory that is
large enough.

The interpreter starts at the first block of a function even if that has been deleted.  A copy of such a
function has nothing to start with, and inlining fails.
-/

namespace MiddleEnd.Inlining

open List Bool Program Nat Func Option

open Local (At State World Outcome CallSem Advances Yields Moves Completes CallMoves callMoves_iff
  callMoves_mono callMoves_within)

variable {f g : Func} {p q : Program} {calls : CallSem} {args : List Value} {w : World}
  {room d : Nat} {o : Outcome} {callee : FuncId} {fs : List FuncId}

/-- The part of a function that control can reach returns what the function returns. -/
lemma completes_reachablePart (hf : f.Ssa) (hent : ⟨0⟩ ∈ f.liveBlocks)
    (hg : reachablePart f = .ok g) (h : Completes p (CallMoves p d) f args w room o) :
    Completes p (CallMoves p d) g args w room o := by
  obtain ⟨g', hok, hrouted, hprun, hssa, -, -⟩ := exists_pruned hf
  obtain rfl : g' = g := Except.ok.inj (hok.symm.trans hg)
  have hcode := f.sameCode_setEdges f.liveBlocks
  have hentry' : ⟨0⟩ ∈ (f.setEdges f.liveBlocks).liveBlocks := by rwa [hcode.liveBlocks]
  have hself : (CallMoves p d).Within 0 (CallMoves p d) := callMoves_mono (le_refl d)
  have hroom : room + 0 * o.steps ≤ room := by rw [zero_mul, add_zero]
  have hpart := hprun.simplifies hrouted (hcode.ssaForm hf.form) hssa.formed hentry'
  exact (h.of_simplifies hself rfl hcode.simplifies hroom).of_simplifies hself rfl hpart hroom

/-! ## One call after the other -/

/-- Slots are scalars, and what is called with a format has no body. -/
def isPlain (p : Program) : Instr → Bool
  | .alloc t => t.isScalar
  | .call callee _ (some _) => (p.func callee).external
  | _ => true

lemma stable_isPlain (p : Program) : Stable fun k => isPlain p k where
  mapOperands σ k hk := by
    cases k with
    | call callee args format => cases format <;> exact hk
    | _ => exact hk
  renameEntry old new k hk := by
    cases k with
    | phi => rfl
    | _ => exact hk
  filterEntries keep k hk := by
    cases k with
    | phi => rfl
    | _ => exact hk
  copy c k hk := by
    cases k with
    | call callee args format => cases format <;> exact hk
    | ret v => rfl
    | _ => exact hk
  jump _ := rfl
  phi _ := rfl
  store _ _ := rfl
  cast _ _ := rfl
  call _ _ := rfl

/-- The functions of the program have plain code that starts in a live block. -/
structure Plain (p : Program) : Prop where
  code : ∀ id, (p.func id).isDefined →
    ∀ i ∈ (p.func id).liveInsts, isPlain p ((p.func id).instr i)
  entry : ∀ id, (p.func id).isDefined → (p.func id).EntryLive

/-- Calls have the same outcomes, with more room for each move. -/
structure Preserved (p q : Program) : Prop where
  globals : q.globals = p.globals
  strings : q.strings = p.strings
  size : q.funcs.size = p.funcs.size
  head : ∀ id, (p.func id).SameHead (q.func id)
  calls : ∃ k, ∀ depth, (CallMoves p depth).Within k (CallMoves q depth)

lemma Preserved.refl (p : Program) : Preserved p p :=
  ⟨rfl, rfl, rfl, fun _ => .refl _, 0, fun depth => callMoves_mono (le_refl depth)⟩

lemma Preserved.trans {r : Program} (h : Preserved p q) (h' : Preserved q r) : Preserved p r := by
  obtain ⟨k, hk⟩ := h.calls
  obtain ⟨k', hk'⟩ := h'.calls
  exact ⟨h'.globals.trans h.globals, h'.strings.trans h.strings, h'.size.trans h.size,
    fun id => (h.head id).trans (h'.head id), k + k', fun depth => (hk depth).trans (hk' depth)⟩

lemma isPlain_congr (h : ∀ id, (p.func id).SameHead (q.func id)) (k : Instr) :
    isPlain q k = isPlain p k := by
  cases k with
  | call callee args format =>
    cases format with
    | none => rfl
    | some str => exact (h callee).external
  | _ => rfl

lemma needsFill_eq_false (h : ∀ i ∈ f.liveInsts, ∀ ty, f.instr i = .alloc ty → ty.isScalar) :
    needsFill f = false := by
  refine any_eq_false.mpr fun i hi => ?_
  cases hk : f.instr i with
  | alloc ty =>
    obtain ⟨zero, hzero, -⟩ := exists_zero (h i hi ty hk)
    simp [hzero]
  | _ => simp

lemma Replaced.within {caller : FuncId} {s : Site} {n : Nat} {memset : Option FuncId}
    {pre post : List InstId} {clears merge : List (Instr × Ty)} {value : Option Operand} {m : Func}
    (h : Replaced (p.func caller) s n memset pre post clears merge value m g)
    (hcaller : caller.idx < p.funcs.size) (hlive : ⟨0⟩ ∈ (p.func caller).liveBlocks)
    (hinstr : (p.func caller).instr s.call = .call callee s.args none)
    (hdef : (p.func callee).external = false) (hssa : (p.func callee).Ssa)
    (hent : ⟨0⟩ ∈ (p.func callee).liveBlocks) (hpart : reachablePart (p.func callee) = .ok s.callee)
    (hscalar : ∀ i ∈ s.callee.liveInsts, ∀ ty, s.callee.instr i = .alloc ty → ty.isScalar)
    (depth : Nat) : (CallMoves p depth).Within (s.copy (p.func caller)).slots.length
      (CallMoves (p.setFunc caller g) depth) := by
  have hfunc := Program.func_setFunc_of_lt (g := g) hcaller
  have hstrs : (p.setFunc caller g).strings = p.strings := rfl
  refine callMoves_within (by simp [Program.setFunc]) h.head.setFunc
    (fun depth ih id args w room o _ hcompletes room' hroom => ?_) depth
  have hcalls := ih depth (Nat.le_refl depth)
  by_cases hid : id = caller
  · rw [hfunc, if_pos hid]
    rw [hid] at hcompletes
    refine h.completes hscalar hstrs hinstr (fun vs w room o ho => ?_) (Nat.le_refl _) hcalls hlive
      hcompletes hroom
    obtain ⟨-, -, -, -, hbody⟩ := callMoves_iff.mp ho
    obtain ⟨d, n, rfl, hn, hcompletes⟩ := hbody hdef
    have hinner := (ih d (Nat.le_succ d)).trans (callMoves_mono (Nat.le_succ d))
    exact ⟨n, CallMoves p d, hn, hinner, completes_reachablePart hssa hent hpart hcompletes⟩
  · rw [hfunc, if_neg hid]
    refine hcompletes.of_simplifies hcalls hstrs (Func.Simplifies.refl _) ?_
    exact Nat.le_trans (Nat.add_le_add_left (Nat.mul_le_mul_left _ (Nat.le_succ _)) _) hroom

lemma Expands.preserved (h : Expands p q) (hp : Plain p) : Plain q ∧ Preserved p q := by
  obtain ⟨hcaller, hdef, hdef', hssa, hent, hpart, hinstr, hrepl, hq⟩ := h
  next caller callee site format g =>
  obtain ⟨n, memset, pre, post, clears, merge, value, m, hrepl⟩ := hrepl
  have hplain := stable_isPlain p
  have hcode := hplain.reachablePart hssa hpart (hp.code callee hdef')
  have hscalar : ∀ i ∈ site.callee.liveInsts, ∀ ty, site.callee.instr i = .alloc ty →
      ty.isScalar := fun i hi ty hty => by
    have hk := hcode i hi
    rw [hty] at hk
    exact hk
  obtain rfl := hq (needsFill_eq_false hscalar)
  have hfunc := Program.func_setFunc_of_lt (g := g) hcaller
  have hlive := hp.entry caller hdef hrepl.fits.hasBlock_entry
  have hexternal : (p.func callee).external = false := by
    rw [isDefined, and_eq_true, not_eq_true'] at hdef'
    exact hdef'.1
  have hhead := hrepl.head.setFunc
  obtain rfl : format = none := by
    have hk := hp.code caller hdef site.call
      (hrepl.fits.consistent.mem_liveInsts.mpr hrepl.fits.call)
    rw [hinstr] at hk
    cases format with
    | none => rfl
    | some str => exact absurd (hexternal.symm.trans hk) false_ne_true
  refine ⟨⟨fun id hid => ?_, fun id hid => ?_⟩, rfl, rfl, by simp [setFunc], hhead, _,
    hrepl.within hcaller hlive hinstr hexternal hssa hent hpart hscalar⟩
  · rw [(hhead id).isDefined] at hid
    intro i hi
    rw [isPlain_congr hhead]
    rw [hfunc] at hi ⊢
    split at hi
    · next heq =>
      rw [if_pos heq]
      exact hrepl.stable hplain (hp.code caller hdef) hcode i hi
    · next heq =>
      rw [if_neg heq]
      exact hp.code id hid i hi
  · rw [(hhead id).isDefined] at hid
    rw [hfunc]
    split
    · exact fun _ => hrepl.mem_liveBlocks_of_old hlive
    · exact hp.entry id hid

lemma Plain.preserved (hp : Plain p) (h : Relation.ReflTransGen Expands p q) :
    Plain q ∧ Preserved p q := by
  induction h with
  | refl => exact ⟨hp, .refl p⟩
  | tail _ hstep ih =>
    obtain ⟨hplain, hpres⟩ := hstep.preserved ih.1
    exact ⟨hplain, ih.2.trans hpres⟩

/-! ## Retired functions -/

lemma forM_retire_data {s t : Session} (h : fs.forM retire s = .ok () t) :
    t.program.globals = s.program.globals ∧ t.program.strings = s.program.strings := by
  induction fs generalizing s with
  | nil =>
    obtain rfl := (EStateM.Result.ok.inj h).2
    exact ⟨rfl, rfl⟩
  | cons f fs ih =>
    obtain ⟨⟨⟩, s₁, hfirst, hrest⟩ := bind_eq_ok h
    obtain ⟨hglob, hstrs⟩ := ih hrest
    obtain rfl := (EStateM.Result.ok.inj hfirst).2
    exact ⟨hglob, hstrs⟩

lemma moves_of_calls (hf : f.Ssa) {b : BlockId} {is : List InstId} {s : State}
    (h : Moves p calls f args b is s o) (hb : b ∈ f.liveBlocks) (his : is ⊆ f.instsOf b) :
    Moves p (fun callee vs w room o => callee ∈ f.calls ∧ calls callee vs w room o) f args b is s
      o := by
  induction h with
  | @next b i is s t n o hstep _ ih =>
    refine .next ?_ (ih hb (List.Subset.trans (subset_cons_self i is) his))
    have hlive : i ∈ f.liveInsts := mem_flatMap.mpr ⟨b, hb, his (.head _)⟩
    generalize hk : f.instr i = k at hstep
    cases hstep with
    | yield hy =>
      refine .yield ?_
      cases hy with
      | compute hv => exact .compute hv
      | load hv hty => exact .load hv hty
      | call hvs ho => exact .call hvs ⟨Func.mem_calls.mpr ⟨i, hlive, by rw [hk]; rfl⟩, ho⟩
      | print hvs hstr hw => exact .print hvs hstr hw
    | alloc hcells hfree hroom => exact .alloc hcells hfree hroom
    | store hv hptr => exact .store hv hptr
  | @jump b c i is s o htgt hblk hphis _ ih =>
    have hc := (hf.edge_of_target hb (his (.head _)) (Instr.target?_mem_targets htgt)).2
    exact .jump htgt hblk hphis (ih hc (filter_subset_self _))
  | ret hv => exact .ret hv

lemma callMoves_of_retire (hstrs : q.strings = p.strings)
    (hsize : q.funcs.size = p.funcs.size) (hfunc : ∀ f, q.func f =
      if f ∈ fs then { p.func f with deleted := true } else p.func f)
    (hfs : ∀ f ∈ fs, isCalled p f = false) (hssa : ∀ f, (p.func f).isDefined → (p.func f).Ssa)
    (hent : ∀ f, (p.func f).isDefined → (p.func f).EntryLive) {depth : Nat}
    (hcallee : callee ∉ fs) {room' : Nat} (hroom : room ≤ room')
    (h : CallMoves p depth callee args w room o) : CallMoves q depth callee args w room' o := by
  induction depth using Nat.strongRecOn generalizing callee args w room room' o with
  | ind depth ih =>
    obtain ⟨hhas, hlive, hargs, hbuiltin, hbody⟩ := callMoves_iff.mp h
    have hsame : q.func callee = p.func callee := by rw [hfunc, if_neg hcallee]
    refine callMoves_iff.mpr ?_
    rw [hasFunc, hsize, hsame]
    refine ⟨hhas, hlive, hargs, hbuiltin, fun hext => ?_⟩
    obtain ⟨d, n, rfl, hn, hblk, hphis, hmoves⟩ := hbody hext
    have hdef : (p.func callee).isDefined := by simp [isDefined, hext, hlive]
    have hmoves' := moves_of_calls (hssa callee hdef) hmoves (hent callee hdef hblk)
      (filter_subset_self _)
    refine ⟨d, n, rfl, hn, Completes.of_simplifies
      (fun c vs w room o ho room' hroom => ?_) hstrs
      (Simplifies.refl _) ⟨hblk, hphis, hmoves'⟩ (by rwa [zero_mul])⟩
    rw [zero_mul] at hroom
    refine ih d (lt_succ_self d) (fun hmem => ?_) hroom ho.2
    have hcalled : isCalled p c := by
      refine Array.any_eq_true'.mpr ⟨p.func callee, mem_funcs hhas, ?_⟩
      simp [hdef, ho.1]
    exact absurd (hcalled.symm.trans (hfs c hmem)) Bool.noConfusion

/-! ## Scalar programs -/

lemma exists_of_mem_call? {k : Instr} {c : FuncId × List Operand} (h : c ∈ k.call?) :
    ∃ format, k = .call c.1 c.2 format := by
  cases k with
  | call callee args format =>
    obtain rfl := Option.some.inj h
    exact ⟨format, rfl⟩
  | _ => cases h

section Scalar

variable (hp : p.Entered)

include hp

lemma plain_of_entered : Plain p where
  code := Program.forall_func (P := fun f => f.isDefined →
    ∀ i ∈ f.liveInsts, isPlain p (f.instr i)) (fun _ _ hi => absurd hi not_mem_nil)
    fun f hf hdef i hi => by
      have htyped := (hp.scalar.funcs f hf hdef).typed i hi
      unfold isWellTyped at htyped
      cases hk : f.instr i with
      | alloc t =>
        simp only [hk, and_eq_true] at htyped
        exact htyped.1.1
      | call callee args format =>
        cases format with
        | none => rfl
        | some str =>
          simp only [hk, and_eq_true] at htyped
          exact htyped.1.1
      | _ => rfl
  entry := Program.forall_func
    (fun _ hblk => by cases hblk) hp.entry

lemma call_of_entered (hf : f ∈ p.funcs) (hdef : f.isDefined) {u : InstId}
    (hu : u ∈ f.liveInsts) {args : List Operand} {format : Option StrId}
    (hk : f.instr u = .call callee args format) : p.hasFunc callee ∧
      ((p.func callee).isDefined →
        args.length = (p.func callee).params.size ∧ (f.inst u).ty = (p.func callee).ret) := by
  have htyped := (hp.scalar.funcs f hf hdef).typed u hu
  unfold Program.isWellTyped at htyped
  cases format with
  | none =>
    simp only [hk, isCallable, and_eq_true, decide_eq_true_eq] at htyped
    exact ⟨htyped.1.1.1.1, fun _ => ⟨htyped.1.2, htyped.1.1.2⟩⟩
  | some str =>
    simp only [hk, and_eq_true] at htyped
    have hexternal := htyped.1.1
    refine ⟨?_, fun h => ?_⟩
    · by_contra hnone
      have hsize : p.funcs.size ≤ callee.idx := by simpa [hasFunc] using hnone
      rw [func_of_size_le hsize] at hexternal
      cases hexternal
    · rw [isDefined, hexternal] at h
      cases h

lemma ready_of_entered : Ready p where
  body f hf hdef := by
    have hscalar := hp.scalar.funcs f hf hdef
    refine ⟨hscalar.ssa, fun hret i hi hnone => ?_, fun i hi t ht => ?_⟩
    · have htyped := hscalar.typed i hi
      unfold Program.isWellTyped at htyped
      simp only [hnone, and_eq_true, decide_eq_true_eq] at htyped
      exact hret htyped.1
    · have htyped := hscalar.typed i hi
      unfold Program.isWellTyped at htyped
      cases hk : f.instr i with
      | alloc t' =>
        rw [hk] at ht
        obtain rfl := some.inj ht
        simp only [hk, and_eq_true] at htyped
        rw [Ty.cells_of_isScalar htyped.1.1]
        decide
      | _ =>
        rw [hk] at ht
        cases ht
  called f hf hdef g hg := by
    obtain ⟨u, hu, hcallee⟩ := Func.mem_calls.mp hg
    cases hk : f.instr u with
    | call callee args format =>
      rw [hk] at hcallee
      obtain rfl := some.inj hcallee
      exact (call_of_entered hp hf hdef hu hk).1
    | _ =>
      rw [hk] at hcallee
      cases hcallee
  args f hf hdef u hu c hc hcallee := by
    obtain ⟨format, hk⟩ := exists_of_mem_call? hc
    exact ((call_of_entered hp hf hdef hu hk).2 hcallee).1

lemma forCalls_entry : p.ForCalls fun _ _ g _ => (g.block ⟨0⟩).deleted = false := by
  intro f _ _ u _ c _ hcallee
  have hent := (plain_of_entered hp).entry c.1 hcallee
  cases hblk : (p.func c.1).hasBlock ⟨0⟩ with
  | true => simpa using (mem_filter.mp (hent hblk)).2
  | false =>
    have hsize : (p.func c.1).blocks.size ≤ 0 := by
      simpa [Func.hasBlock] using hblk
    rw [Func.block, Array.getD_eq_getD_getElem?, Array.getElem?_eq_none hsize]
    rfl

lemma forCalls_unused : p.ForCalls fun f u g _ => Constant.zero? g.ret = none → f.Unused u := by
  intro f hf hdef u hu c hc hcallee hzero v hv hmem
  have hscalar := hp.scalar.funcs f hf hdef
  obtain ⟨format, hk⟩ := exists_of_mem_call? hc
  obtain ⟨hhas, hcall⟩ := call_of_entered hp hf hdef hu hk
  have hvoid : (f.inst u).ty.isScalar = false := by
    rw [(hcall hcallee).2]
    cases hret : (p.func c.1).ret with
    | i1 | i32 | float =>
      rw [hret] at hzero
      cases hzero
    | _ => rfl
  rcases Func.place_or_hasType_of_operand (hscalar.typed v hv) hmem with hplace | ⟨t, ht⟩
  · simp [placeTy?, hk] at hplace
  · obtain ⟨htrue, hty⟩ := and_eq_true_iff.mp ht
    have hty := of_decide_eq_true hty
    rw [some.inj hty, htrue] at hvoid
    cases hvoid

end Scalar

/-- Inlining succeeds on a scalar program whose entries have not been deleted, and keeps every
successful run of a function that has not been retired: the same result, output, input left and
globals.  The memory may have to be larger, and the number of instructions is not limited, apart from
the width of the counter. -/
theorem exists_run_preserved {s : Session} (hp : s.program.Entered) (threshold : Option Nat) :
    ∃ changed t, run threshold s = .ok changed t ∧
      ∀ limits input e m name args v m', s.program.load limits input = .ok (e, m) →
        s.program.Accepts name args → e.run name args m = .ok v m' →
        (∀ id, s.program.findFunc? name = some id → (t.program.func id).deleted = false) →
        (limits.instructions = 0 → m'.steps < 2 ^ 64) →
        ∃ cells e' m₁ m₁', t.program.load { limits with instructions := 0, cells } input =
        .ok (e', m₁) ∧
          e'.run name args m₁ = .ok v m₁' ∧ m₁'.output = m'.output ∧ m₁'.input = m'.input ∧
          e'.globals = e.globals ∧ m₁'.memory.cells = m'.memory.cells := by
  obtain ⟨changed, fs, u, t, hrun, hexpands, hbody, hfs, hretire⟩ := exists_run_retire threshold
    (ready_of_entered hp) (forCalls_entry hp) (forCalls_unused hp)
  obtain ⟨hplain, hpreserved⟩ := (plain_of_entered hp).preserved hexpands
  obtain ⟨hsize, hfunc⟩ := forM_retire (fun f hf => (hfs f hf).1) hretire
  obtain ⟨hglobals, hstrings⟩ := forM_retire_data hretire
  obtain ⟨k, hk⟩ := hpreserved.calls
  refine ⟨changed, t, hrun, fun limits input e m name args v m' hload hargs hm' hlive hsteps => ?_⟩
  refine hp.run_of_within (k := k) (hglobals.trans hpreserved.globals) (hsize.trans hpreserved.size)
    (fun id => ?_) (fun depth callee args w room o hdeleted ho room' hroom => ?_) hload hargs hm'
      hlive hsteps
  · have head := hpreserved.head id
    rw [hfunc]
    split
    · exact ⟨head.name, head.external, head.params_size⟩
    · exact ⟨head.name, head.external, head.params_size⟩
  · have hcallee : callee ∉ fs := fun hmem => by
      rw [hfunc, if_pos hmem] at hdeleted
      cases hdeleted
    exact callMoves_of_retire hstrings hsize hfunc (fun f hf => (hfs f hf).2)
      (fun f hf => (hbody f hf).ssa) hplain.entry hcallee (Nat.le_refl _)
      (hk depth callee args w room o ho room' hroom)

/-! ## A slot that is fresh in every round of a loop -/

section Repeating

open Local

def successor : Func :=
  Edit.applyAll (.new "next" .i32 [])
    [.addBlock "entry",
      .append ⟨0⟩ (.alloc .i32) (.pointer .i32),
      .append ⟨0⟩ (.load (.inst ⟨0⟩)) .i32,
      .append ⟨0⟩ (.binary .add (.inst ⟨1⟩) (.int 1)) .i32,
      .append ⟨0⟩ (.store (.inst ⟨2⟩) (.inst ⟨0⟩)) .void,
      .append ⟨0⟩ (.load (.inst ⟨0⟩)) .i32,
      .append ⟨0⟩ (.ret (some (.inst ⟨4⟩))) .void]

/-- Calls `successor` until it gives the same value twice. -/
def repeater : Func :=
  Edit.applyAll (.new "main" .i32 [])
    [.addBlock "entry", .addBlock "loop", .addBlock "exit",
      .append ⟨0⟩ (.jump (some ⟨1⟩)) .void,
      .append ⟨1⟩ (.phi [⟨⟨0⟩, some (.int 0)⟩, ⟨⟨1⟩, none⟩]) .i32,
      .append ⟨1⟩ (.call ⟨1⟩ [] none) .i32,
      .append ⟨1⟩ (.icmp .eq (.inst ⟨1⟩) (.inst ⟨2⟩)) .i1,
      .append ⟨1⟩ (.branch (.inst ⟨3⟩) ⟨2⟩ ⟨1⟩) .void,
      .append ⟨2⟩ (.phi [⟨⟨1⟩, some (.inst ⟨2⟩)⟩]) .i32,
      .append ⟨2⟩ (.ret (some (.inst ⟨5⟩))) .void,
      .fillPhi ⟨1⟩ ⟨1⟩ (.inst ⟨2⟩)]

def repeating : Session where
  program := { funcs := #[repeater, successor] }

lemma entered_repeating : repeating.program.Entered where
  scalar := {
    globals := fun g hg => absurd hg (by simp [repeating])
    funcs := fun f hf _ => by
      rcases mem_pair.mp (Array.mem_toList_iff.mpr hf) with rfl | rfl
      · exact ⟨ssa_of_near (by cbv) (by decide +kernel), by decide +kernel,
          by decide +kernel, by decide +kernel⟩
      · exact ⟨ssa_of_local (by cbv) (by decide +kernel), by decide +kernel, by decide +kernel,
          by decide +kernel⟩ }
  entry f hf _ := by
    rcases mem_pair.mp (Array.mem_toList_iff.mpr hf) with rfl | rfl
    · exact fun _ => by decide +kernel
    · exact fun _ => by decide +kernel

lemma changed_repeating : repeating.program.findFunc? "main" = some ⟨0⟩ ∧
    (match run none repeating with
      | .ok changed t => changed && !(t.program.func ⟨0⟩).deleted
      | .error _ _ => false) = true := by decide +kernel

lemma load_repeating :
    repeating.program.load {} "" = .ok ({ program := repeating.program }, DeadCode.start) := rfl

lemma accepts_repeating : repeating.program.Accepts "main" [] := by
  intro id hid _
  obtain rfl := Option.some.inj (changed_repeating.1.symm.trans hid)
  exact .nil

lemma run_repeating : ∃ t, Image.run { program := repeating.program } "main" [] DeadCode.start =
    .ok (.int 1) t := by
  exact exists_run_of_call? 20 changed_repeating.1 rfl (Nat.zero_add _) (fun _ => by decide)
    (by decide +kernel)

theorem exists_run_preserved_repeating : ∃ e m t w cells e' m₁ t',
    repeating.program.load {} "" = .ok (e, m) ∧ e.run "main" [] m = .ok (.int 1) t ∧
      run none repeating = .ok true w ∧
      w.program.load { instructions := 0, cells } "" = .ok (e', m₁) ∧
      e'.run "main" [] m₁ = .ok (.int 1) t' ∧ t'.output = t.output ∧ t'.input = t.input ∧
      e'.globals = e.globals ∧ t'.memory.cells = t.memory.cells := by
  obtain ⟨changed, w, hrun, hpreserved⟩ := exists_run_preserved entered_repeating none
  obtain ⟨t, ht⟩ := run_repeating
  obtain ⟨rfl, hmain⟩ : changed = true ∧ (w.program.func ⟨0⟩).deleted = false := by
    have hchanged := changed_repeating.2
    rw [hrun] at hchanged
    simpa using hchanged
  have hlive : ∀ id, repeating.program.findFunc? "main" = some id →
      (w.program.func id).deleted = false :=
    fun id hid => Option.some.inj (changed_repeating.1.symm.trans hid) ▸ hmain
  obtain ⟨cells, e', m₁, t', hafter⟩ := hpreserved {} "" _ _ "main" [] (.int 1) t load_repeating
    accepts_repeating ht hlive fun hzero => absurd hzero (by decide)
  exact ⟨_, _, t, w, cells, e', m₁, t', load_repeating, ht, hrun, hafter⟩

end Repeating

/-! ## A deleted entry -/

/-- A call of a function whose entry has been deleted, and has got a jump since. -/
def callsDetached : Session where
  program := { funcs := #[
    Edit.applyAll (.new "main" .i32 [])
      [.addBlock "entry",
        .append ⟨0⟩ (.call ⟨1⟩ [] none) .i32,
        .append ⟨0⟩ (.ret (some (.int 1))) .void],
    Edit.applyAll (.new "f" .i32 [])
      [.addBlock "entry", .addBlock "next",
        .append ⟨1⟩ (.ret (some (.int 1))) .void,
        .deleteBlock ⟨0⟩,
        .append ⟨0⟩ (.jump (some ⟨1⟩)) .void]] }

/-- Without the condition on entries, inlining may stop half-way and leave a function that returns no
more. -/
theorem exists_run_not_preserved : ∃ (s t : Session) (error : Error) (e : Image) (m m' : Machine)
    (v : Value), s.program.Scalar ∧ s.program.Accepts "main" [] ∧
      s.program.load {} "" = .ok (e, m) ∧ e.run "main" [] m = .ok v m' ∧
      run none s = .error error t ∧
      (∀ id, s.program.findFunc? "main" = some id → (t.program.func id).deleted = false) ∧
      ∀ limits input e' m₁ v' m₁', t.program.load limits input = .ok (e', m₁) →
        e'.run "main" [] m₁ ≠ .ok v' m₁' := by
  have hscalar : callsDetached.program.Scalar := by
    refine ⟨fun g hg => absurd hg (by simp [callsDetached]), fun f hf _ => ?_⟩
    rcases mem_pair.mp (Array.mem_toList_iff.mpr hf) with rfl | rfl
    all_goals
      exact ⟨Func.ssa_of_local (by cbv) (by decide +kernel), by decide +kernel, by decide +kernel,
        by decide +kernel⟩
  have hmain : callsDetached.program.findFunc? "main" = some ⟨0⟩ ∧
      (Image.run { program := callsDetached.program } "main" []).answer? DeadCode.start =
        some (.int 1) := by decide +kernel
  -- the caller is left without a terminator
  have hfails : (match run none callsDetached with
      | .ok _ _ => false
      | .error _ t => decide (t.program.findFunc? "main" = some ⟨0⟩ ∧
          (t.program.func ⟨0⟩).deleted = false ∧ (t.program.func ⟨0⟩).external = false ∧
          ∀ i ∈ (t.program.func ⟨0⟩).instsOf ⟨0⟩,
            ((t.program.func ⟨0⟩).instr i).isTerminator = false)) = true := by decide +kernel
  obtain ⟨m', hm'⟩ := Exec.answer?_eq_some.mp hmain.2
  cases hrun : run none callsDetached with
  | ok changed t => grind
  | error error t =>
    rw [hrun] at hfails
    obtain ⟨hfind, hlive, hexternal, hopen⟩ := of_decide_eq_true hfails
    refine ⟨callsDetached, t, error, _, DeadCode.start, m', .int 1, hscalar, fun id hid _ => ?_,
      rfl, hm',
      hrun, fun id hid => Option.some.inj (hmain.1.symm.trans hid) ▸ hlive, ?_⟩
    · obtain rfl := Option.some.inj (hmain.1.symm.trans hid)
      exact .nil
    · intro limits input e' m₁ v' m₁' hload hafter
      have hprogram := (Program.of_load hload).1
      rw [Image.run, hprogram, hfind] at hafter
      exact Image.call_never (hprogram ▸ hexternal) (hprogram ▸ hopen) _ _ _ hafter

end MiddleEnd.Inlining
