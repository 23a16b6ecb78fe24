import MiddleEnd.Proofs.History
import MiddleEnd.Proofs.Machine.Safe
import MiddleEnd.Proofs.Scalar

/-!
# Runs of functions in SSA form

Control reaches a place of a function on some path from the entry, and the instructions on that path
have left their results in registers, which are never taken away.  A value whose definition is on all
paths is therefore there when it is read.  So dominance, which speaks of all paths, rules out faults of
a single run, however long it is and whatever its calls do.

Stores and terminators leave no result, though verification allows operands that name them.
-/

namespace MiddleEnd

open List Image Exec Option Func Instr Std

variable {f : Func} {i : InstId}

/-- Operations that leave a value in the register of their instruction. -/
def Instr.hasResult : Instr → Bool
  | .store .. | .branch .. | .jump _ | .ret _ => false
  | _ => true

/-- Operands in reachable blocks that name an instruction name one with a result. -/
def Func.ReadsResults (f : Func) : Prop :=
  ∀ b, f.Reachable b → ∀ i ∈ f.instsOf b, ∀ j, .inst j ∈ (f.instr i).operands →
    (f.instr j).hasResult

lemma Instr.hasResult_of_isTerminator {k : Instr} (hk : k.isTerminator) :
    k.hasResult = false := by
  cases k <;> first | rfl | cases hk

/-! ## Operands -/

def Registers.Supplies (regs : Registers) (args : List Value) : Operand → Prop
  | .inst i => i ∈ regs
  | .arg n => n < args.length
  | _ => True

namespace Image

open Exec

variable {e : Image} {call : FuncId → List Value → Exec Value} {f : Func} {args : List Value}
  {regs : Registers}

lemma safe_eval {v : Operand} (hv : regs.Supplies args v) :
    Safe (e.eval args regs v) fun _ => True := by
  cases v with
  | inst i =>
    have hget := HashMap.getElem?_eq_some_getElem hv
    simp only [eval, hget]
    exact .pure True.intro
  | arg n =>
    have hget := List.getElem?_eq_getElem hv
    simp only [eval, hget]
    exact .pure True.intro
  | const c => exact .pure True.intro
  | global g =>
    simp only [eval]
    split
    · exact .pure True.intro
    · exact Quiet.stuck.safe

/-! ## Instructions -/

/-- What an instruction does to registers and control: no register is lost, a result is there
afterwards, and only a terminator leaves the block. -/
def Follows (f : Func) (i : InstId) (regs : Registers) : Flow → Prop
  | .next regs' => (f.instr i).isTerminator = false ∧ (∀ j, j ∈ regs → j ∈ regs') ∧
    ((f.instr i).hasResult → i ∈ regs')
  | .jump c => c ∈ (f.instr i).targets
  | .ret _ => True

lemma follows_insert (hi : (f.instr i).isTerminator = false) (v : Value) :
    Follows f i regs (.next (regs.insert i v)) :=
  ⟨hi, fun _ hj => HashMap.mem_insert.mpr (Or.inr hj), fun _ => HashMap.mem_insert_self⟩

lemma safe_step (hcall : ∀ id vs, Safe (call id vs) fun _ => True)
    (hreads : ∀ v ∈ (f.instr i).operands, regs.Supplies args v)
    (hphi : (f.instr i).isPhi = false) (hpend : (f.instr i).isPendingJump = false) :
    Safe (e.step call f args regs i) (Follows f i regs) := by
  refine @rel_step _ Safe.congruence e e args regs regs (fun x _ => Safe x (Follows f i regs)) call
    call f f i (fun hx hk => hx.bind fun a _ => hk a) rfl rfl rfl (fun _ => rfl) rfl
    (fun _ _ => (Quiet.allocate _ _).safe)
    (fun v hv => safe_eval (hreads v hv)) hcall (fun hterm v => .pure (follows_insert hterm v))
    (fun v p hk => ?_) (fun t ht => .pure ht) (fun hk => ?_) (fun _ => .pure True.intro) fun es hk => ?_
  · exact .pure ⟨by rw [hk]; rfl, fun _ hj => hj, fun h => by rw [hk] at h; cases h⟩
  · rw [hk] at hpend
    cases hpend
  · rw [hk] at hphi
    cases hphi

end Image

/-! ## Available values -/

/-- The registers hold what is available in `b` after the instructions `before`. -/
def Registers.Hold (regs : Registers) (f : Func) (b : BlockId) (before : List InstId) : Prop :=
  ∀ i, (f.inst i).live → (f.instr i).hasResult → f.Available b before (.inst i) →
    i ∈ regs

namespace Registers.Hold

variable {regs regs' : Registers} {f : Func} {b c : BlockId} {before after : List InstId}

lemma supplies (h : regs.Hold f b before) {args : List Value}
    (hargs : args.length = f.params.size) {v : Operand} (hdefs : f.defines v)
    (hres : ∀ j, v = .inst j → (f.instr j).hasResult) (hv : f.Available b before v) :
    regs.Supplies args v := by
  cases v with
  | inst i => exact h i hdefs (hres i rfl) hv
  | arg n => simpa [Supplies, hargs, defines] using hdefs
  | _ => exact True.intro

lemma mono (h : regs.Hold f b before) (hregs : ∀ j, j ∈ regs → j ∈ regs')
    (hafter : ∀ i ∈ after, (f.instr i).hasResult → i ∈ before ∨ i ∈ regs') :
    regs'.Hold f b after := by
  intro i hlive hres hi
  rcases hi i rfl with hmem | hdom
  · rcases hafter i hmem hres with hbefore | hreg
    · exact hregs i (h i hlive hres (.of_mem hbefore))
    · exact hreg
  · exact hregs i (h i hlive hres (.of_dom_block hdom))

lemma entry (f : Func) (regs : Registers) : regs.Hold f ⟨0⟩ [] := by
  intro i _ _ hi
  rcases hi i rfl with hmem | ⟨hne, hdom⟩
  · cases hmem
  · exact absurd (mem_singleton.mp (hdom [] .root)) hne

lemma edge (hf : f.Consistent) (h : regs.Hold f b (f.instsOf b)) (hedge : f.Edge b c) :
    regs.Hold f c [] :=
  fun i hlive hres hi => h i hlive hres (hi.of_edge hf hedge hlive)

end Registers.Hold

/-! ## Blocks -/

lemma Func.Formed.eq_nil_of_isTerminator (hf : f.Formed) {b : BlockId}
    (hb : b ∈ f.liveBlocks) {pre is : List InstId} (hsplit : f.instsOf b = pre ++ i :: is)
    (hi : (f.instr i).isTerminator) : is = [] := by
  obtain ⟨l, t, hlast, -, hl⟩ := hf.terminated b hb
  rcases eq_nil_or_concat is with rfl | ⟨is', x, rfl⟩
  · rfl
  · have heq : l ++ [t] = (pre ++ i :: is') ++ [x] := by
      rw [← hlast, hsplit]
      simp
    obtain ⟨rfl, -⟩ := append_inj' heq rfl
    rw [hl i (by simp)] at hi
    cases hi

namespace Image

open Exec

variable {pred : Option BlockId}

variable {e : Image} {call : FuncId → List Value → Exec Value} {f : Func} {args : List Value}
  {regs : Registers} {b : BlockId}

/-- Control leaves a block along an edge, with the values that are available at its end. -/
def Continues (f : Func) (b : BlockId) : Leave → Prop
  | .jump c regs => f.Edge b c ∧ regs.Hold f b (f.instsOf b)
  | .ret _ => True

lemma safe_runInsts (hf : f.Ssa) (hresults : f.ReadsResults)
    (hcall : ∀ id vs, Safe (call id vs) fun _ => True) (hargs : args.length = f.params.size)
    (hb : b ∈ f.liveBlocks) (hreach : f.Reachable b) {pre is : List InstId}
    (hsplit : f.instsOf b = pre ++ is) (hpre : ∀ i ∈ pre, (f.instr i).isTerminator = false)
    (hregs : regs.Hold f b (f.phis b ++ pre)) :
    Safe (e.runInsts call f args b regs is) (Continues f b) := by
  obtain ⟨hformed, hcomp, hform⟩ := ssa_iff.mp hf
  obtain ⟨l, t, hlast, hterm, hl⟩ := hformed.terminated b hb
  induction is generalizing pre regs with
  | nil => grind
  | cons i is ih =>
    have hi : i ∈ f.instsOf b := by simp [hsplit]
    have hsplit' : f.instsOf b = (pre ++ [i]) ++ is := by rw [hsplit, append_assoc]; rfl
    cases hphi : (f.instr i).isPhi with
    | true =>
      rw [runInsts_phi e call args b regs is hphi]
      have hmem : i ∈ f.phis b := by
        rw [hformed.phis_eq hb]
        exact mem_filter.mpr ⟨hi, hphi⟩
      refine ih hsplit' (fun j hj => ?_) (hregs.mono (fun _ hj => hj) fun j hj _ => Or.inl ?_)
      · rcases mem_append.mp hj with hj | hj
        · exact hpre j hj
        · rw [mem_singleton.mp hj]
          cases hk : f.instr i with
          | phi es => rfl
          | _ =>
            rw [hk] at hphi
            cases hphi
      · grind
    | false =>
      rw [runInsts_step e call args b regs is hphi]
      have hreads (v : Operand) (hv : v ∈ (f.instr i).operands) : regs.Supplies args v := by
        refine hregs.supplies hargs (hcomp b hb i hi v hv) (fun j hj => ?_) ?_
        · exact hresults b hreach i hi j (hj ▸ hv)
        · exact (hform.dominated b hb hreach pre i is hsplit hphi v hv).mono
            (subset_append_right _ _)
      refine (Safe.tick _).bind fun _ _ => ?_
      refine (safe_step hcall hreads hphi (hform.resolved b hb i hi)).bind fun flow hflow => ?_
      cases flow with
      | next regs' =>
        obtain ⟨hnot, hkeep, hnew⟩ := hflow
        refine ih hsplit' (fun j hj => ?_) (hregs.mono hkeep fun j hj hres => ?_)
        · rcases mem_append.mp hj with hj | hj
          · exact hpre j hj
          · rwa [mem_singleton.mp hj]
        · rw [← append_assoc, mem_append, mem_singleton] at hj
          rcases hj with hj | rfl
          · exact Or.inl hj
          · exact Or.inr (hnew hres)
      | jump c =>
        refine .pure ⟨(hf.edge_of_target hb hi hflow).1,
          hregs.mono (fun _ hj => hj) fun j hj hres => ?_⟩
        -- control leaves from the last instruction, which has no result
        have hterm := isTerminator_of_mem_targets hflow
        obtain rfl := hformed.eq_nil_of_isTerminator hb hsplit hterm
        rw [hsplit, mem_append, mem_singleton] at hj
        rcases hj with hj | rfl
        · exact Or.inl (mem_append_right _ hj)
        · rw [hasResult_of_isTerminator hterm] at hres
          cases hres
      | ret v => exact .pure True.intro

/-- Control comes to `b` from `pred`: at the start, or along an edge with the values that are
available at its source. -/
def Arrives (f : Func) (regs : Registers) (b : BlockId) : Option BlockId → Prop
  | none => b = ⟨0⟩
  | some p => f.Reachable p ∧ f.Edge p b ∧ regs.Hold f p (f.instsOf p)

lemma Arrives.reachable (h : Arrives f regs b pred) : f.Reachable b := by
  cases pred with
  | none =>
    obtain rfl : b = ⟨0⟩ := h
    exact .refl
  | some p => exact h.1.tail h.2.1

lemma Arrives.hold (hf : f.Consistent) (h : Arrives f regs b pred) : regs.Hold f b [] := by
  cases pred with
  | none =>
    obtain rfl : b = ⟨0⟩ := h
    exact .entry f regs
  | some p => exact h.2.2.edge hf h.2.1

/-- A phi has an entry for the edge on which control comes, and its value is there. -/
lemma safe_evalPhis (hf : f.Ssa) (hresults : f.ReadsResults) (hargs : args.length = f.params.size)
    (hb : b ∈ f.liveBlocks) (hpred : Arrives f regs b pred) {is : List InstId} (his : is ⊆ f.phis b) :
    Safe (e.evalPhis f args regs b pred is) fun values => values.map Prod.fst = is := by
  obtain ⟨hformed, hcomp, hform⟩ := ssa_iff.mp hf
  induction is with
  | nil => exact .pure rfl
  | cons i is ih =>
    have hphis := his (.head _)
    have hphi := f.isPhi_of_mem_phis hphis
    have hi : i ∈ f.instsOf b := (takeWhile_sublist _).subset hphis
    have htail := ih fun j hj => his (.tail i hj)
    cases pred with
    | none =>
      obtain rfl : b = ⟨0⟩ := hpred
      rw [hform.entry i hi] at hphi
      cases hphi
    | some p =>
      obtain ⟨hreach, hedge, hregs⟩ := hpred
      obtain ⟨entry, hent, hblk⟩ := mem_map.mp (((hform.covers b hb i hi hphi).2 p).mpr hedge)
      have hfind : ((f.instr i).entries.find? fun entry => some p = some entry.block).isSome := by grind
      obtain ⟨found, hfound⟩ := isSome_iff_exists.mp hfind
      have hmem := mem_of_find?_eq_some hfound
      have hp : found.block = p := by simpa [eq_comm] using List.find?_some hfound
      obtain ⟨v, hv⟩ := ne_none_iff_exists'.mp (hform.filled b hb i hi not_false found hmem)
      have hoperand := mem_operands_of_entry hmem hv
      have hflows := hform.flows b hb (hreach.tail hedge) i hi found hmem v hv
      rw [hp] at hflows
      rw [evalPhis_cons, operandFrom?, hfound, bind_some, hv]
      refine (safe_eval (hregs.supplies hargs (hcomp b hb i hi v hoperand) (fun j hj => ?_)
        hflows)).bind fun x _ => htail.bind fun values hvals => .pure ?_
      · exact hresults b (hreach.tail hedge) i hi j (hj ▸ hoperand)
      · rw [map_cons, hvals]

lemma safe_runBlock (hf : f.Ssa) (hresults : f.ReadsResults)
    (hcall : ∀ id vs, Safe (call id vs) fun _ => True) (hargs : args.length = f.params.size)
    (hb : b ∈ f.liveBlocks) (hpred : Arrives f regs b pred) :
    Safe (e.runBlock call f args pred b regs) (Continues f b) := by
  have hhas : f.hasBlock b := (hf.consistent.mem_liveBlocks.mp hb).1
  rw [runBlock, hhas]
  refine (safe_evalPhis hf hresults hargs hb hpred (List.Subset.refl _)).bind fun values hvals => ?_
  have hmem (j : InstId) : j ∈ regs.insertMany values ↔ j ∈ regs ∨ j ∈ f.phis b := by
    rw [HashMap.mem_insertMany_list, hvals, contains_iff_mem]
  refine safe_runInsts hf hresults hcall hargs hb hpred.reachable (nil_append _).symm
    (fun _ h => absurd h not_mem_nil) ?_
  refine (hpred.hold hf.consistent).mono (fun j hj => (hmem j).mpr (Or.inl hj)) fun i hi _ => ?_
  rw [append_nil] at hi
  exact Or.inr ((hmem i).mpr (Or.inr hi))

lemma safe_runBlocks (hf : f.Ssa) (hresults : f.ReadsResults) (hent : ⟨0⟩ ∈ f.liveBlocks)
    (hcall : ∀ id vs, Safe (call id vs) fun _ => True) (hargs : args.length = f.params.size)
    (fuel : Nat) (hpred : Arrives f regs b pred) :
    Safe (e.runBlocks call f args fuel pred b regs) fun _ => True := by
  induction fuel generalizing pred b regs with
  | zero => exact .throw rfl
  | succ fuel ih =>
    have hb := hf.form.mem_liveBlocks hent hpred.reachable
    refine (safe_runBlock hf hresults hcall hargs hb hpred).bind fun leave hleave => ?_
    cases leave with
    | jump c regs' =>
      have harrives : Arrives f regs' c (some b) := ⟨hpred.reachable, hleave⟩
      exact ih harrives
    | ret v => exact .pure True.intro

/-! ## Calls -/

variable (hfuncs : ∀ f ∈ e.program.funcs, f.isDefined →
  f.Ssa ∧ f.EntryLive ∧ f.ReadsResults)

include hfuncs

lemma safe_call (depth : Nat) (callee : FuncId) (args : List Value) :
    Safe (e.call depth callee args) fun _ => True := by
  induction depth using Nat.strongRecOn generalizing callee args with
  | ind depth ih =>
    refine @rel_call _ Safe.congruence e e args depth depth callee rfl rfl rfl rfl rfl
      fun hhas hdef hargs => ?_
    obtain ⟨hf, hlive, hresults⟩ := hfuncs _ (Program.mem_funcs hhas) hdef
    cases depth with
    | zero => exact (Quiet.fail rfl).safe
    | succ depth =>
      rw [enter, entry_eq]
      cases hblk : (e.program.func callee).hasBlock ⟨0⟩ with
      | false => exact (Quiet.fail rfl).safe
      | true =>
        refine .withFrame ?_
        exact safe_runBlocks hf hresults (hlive hblk) (ih depth (Nat.lt_succ_self depth)) hargs _
          (show Arrives _ ∅ ⟨0⟩ none from rfl)

/-- No run of a program whose functions are in SSA form has a structural fault, whatever the
arguments, the state of the machine and the limits are. -/
theorem isStructural_eq_false_of_run {name : String} {args : List Value} {s t : Machine}
    {fault : Fault} (hrun : e.run name args s = .error (.fault fault) t) :
    fault.isStructural = false := by
  have hsafe : Safe (e.run name args) fun _ => True := by
    unfold run
    split
    · exact .throw rfl
    · exact safe_call hfuncs _ _ args
  have hs := hsafe s
  rw [hrun] at hs
  exact hs

end Image


def Image.ofFunc (f : Func) : Image :=
  { program := { funcs := #[f] } }

def Machine.fresh : Machine :=
  { memory := { limit := 16 }, input := .ofText "" }

lemma Image.forall_ofFunc {P : Func → Prop} (h : P f) :
    ∀ g ∈ (ofFunc f).program.funcs, g.isDefined → P g := by
  intro g hg _
  obtain rfl : g = f := by simpa [ofFunc] using hg
  exact h

lemma Func.readsResults_of_forall (hf : f.Ssa) (hent : ⟨0⟩ ∈ f.liveBlocks)
    (h : ∀ b ∈ f.liveBlocks, ∀ i ∈ f.instsOf b, ∀ v ∈ (f.instr i).operands, ∀ j ∈ v.inst?,
      (f.instr j).hasResult) : f.ReadsResults :=
  fun b hb i hi j hj => h b (hf.form.mem_liveBlocks hent hb) i hi _ hj j rfl

namespace Exec

variable {α β : Type} {s t : Machine} {x : Exec α} {k : α → Exec β}

def fault? (x : Exec α) (s : Machine) : Option Fault :=
  match x s with
  | .error (.fault f) _ => some f
  | _ => none

lemma fault?_eq_some {f : Fault} (h : x.fault? s = some f) : ∃ t, x s = .error (.fault f) t := by
  unfold fault? at h
  split at h
  · next g t hx => exact ⟨t, some.inj h ▸ hx⟩
  · cases h

lemma bind_of_ok {a : α} {r : EStateM.Result Halt Machine β}
    (hx : x s = .ok a t) (hk : k a t = r) : (x >>= k) s = r := by
  simp only [bind, EStateM.bind, hx, hk]

lemma bind_of_error {h : Halt} (hx : x s = .error h t) : (x >>= k) s = .error h t := by
  simp only [bind, EStateM.bind, hx]

lemma withFrame_of_error {h : Halt} (hx : x s = .error h t) :
    ∃ u, withFrame x s = .error h u := by
  simp only [withFrame, hx]
  exact ⟨_, rfl⟩

end Exec

/-- A loop with a phi that calls its own function. -/
def descent : Func :=
  Edit.applyAll (.new "f" .i32 [])
    [.addBlock "entry", .addBlock "loop",
      .append ⟨0⟩ (.jump (some ⟨1⟩)) .void,
      .append ⟨1⟩ (.phi [⟨⟨0⟩, some (.int 2)⟩, ⟨⟨1⟩, none⟩]) .i32,
      .append ⟨1⟩ (.call ⟨0⟩ [] none) .i32,
      .append ⟨1⟩ (.binary .add (.inst ⟨1⟩) (.inst ⟨2⟩)) .i32,
      .append ⟨1⟩ (.jump (some ⟨1⟩)) .void,
      .fillPhi ⟨1⟩ ⟨1⟩ (.inst ⟨3⟩)]

theorem isStructural_eq_false_of_run_descent : ∃ fault t,
    (Image.ofFunc descent).run "f" [] .fresh = .error (.fault fault) t ∧
      fault.isStructural = false := by
  have hssa : descent.Ssa := Func.ssa_of_near (by cbv) (by decide +kernel)
  have hentry : ⟨0⟩ ∈ descent.liveBlocks := by decide +kernel
  have hresults := Func.readsResults_of_forall hssa hentry (by decide +kernel)
  have hfault : ((Image.ofFunc descent).run "f" []).fault? .fresh = some (.depthLimit 512) := by
    decide +kernel
  obtain ⟨t, hrun⟩ := Exec.fault?_eq_some hfault
  refine ⟨_, t, hrun, Image.isStructural_eq_false_of_run ?_ hrun⟩
  exact Image.forall_ofFunc ⟨hssa, fun _ => hentry, hresults⟩

/-- Returns what a jump leaves, though it leaves nothing. -/
def returnsJump : Func :=
  Edit.applyAll (.new "f" .i32 [])
    [.addBlock "entry", .addBlock "exit",
      .append ⟨0⟩ (.jump (some ⟨1⟩)) .void,
      .append ⟨1⟩ (.ret (some (.inst ⟨0⟩))) .void]

lemma run_returnsJump : ∃ t,
    (Image.ofFunc returnsJump).run "f" [] .fresh = .error (.fault (.uncomputed ⟨0⟩)) t := by
  let e := ofFunc returnsJump
  let call := e.call 511
  have heval (s : Machine) : e.eval [] ∅ (.inst ⟨0⟩) s = .error (.fault (.uncomputed ⟨0⟩)) s := by
    simp only [eval, HashMap.getElem?_empty]
    rfl
  -- The registers stay empty, so only the last look-up has to be rewritten.
  have hstep : e.step call returnsJump [] ∅ ⟨1⟩ { Machine.fresh with steps := 2 } = _ :=
    bind_of_error (heval _)
  have hexit :
      e.runBlock call returnsJump [] (some ⟨0⟩) ⟨1⟩ ∅ { Machine.fresh with steps := 1 } = _ :=
    bind_of_ok rfl (bind_of_ok rfl (bind_of_error hstep))
  have hblks : e.runBlocks call returnsJump [] e.fuel none ⟨0⟩ ∅ .fresh = _ :=
    bind_of_ok rfl (bind_of_error hexit)
  have hfind : (ofFunc returnsJump).program.findFunc? "f" = some ⟨0⟩ := by decide +kernel
  obtain ⟨t, ht⟩ := withFrame_of_error hblks
  rw [Image.run, hfind]
  exact ⟨t, ht⟩

/-- The entry has been deleted, but is still where runs begin. -/
def withoutEntry : Func :=
  Edit.applyAll (.new "f" .i32 [])
    [.addBlock "entry", .append ⟨0⟩ (.ret (some (.int 1))) .void, .deleteBlock ⟨0⟩]

/-- SSA form alone leaves two structural faults: an operand can name an instruction without a result,
and the entry can be a deleted block. -/
theorem exists_run_isStructural :
    (∃ f s fault t, f.Ssa ∧ f.EntryLive ∧ f.entry?.isSome = true ∧
      (Image.ofFunc f).run "f" [] s = .error (.fault fault) t ∧ fault.isStructural = true) ∧
    ∃ f s fault t, f.Ssa ∧ f.ReadsResults ∧ f.entry?.isSome = true ∧
      (Image.ofFunc f).run "f" [] s = .error (.fault fault) t ∧ fault.isStructural = true := by
  constructor
  · have hssa : returnsJump.Ssa := Func.ssa_of_local (by cbv) (by decide +kernel)
    obtain ⟨t, hrun⟩ := run_returnsJump
    exact ⟨_, _, _, t, hssa, fun _ => by decide +kernel, by decide +kernel, hrun, rfl⟩
  · have hssa : withoutEntry.Ssa := Func.ssa_of_local (by cbv) (by decide +kernel)
    have hresults : withoutEntry.ReadsResults := by
      intro b hb i hi
      rcases hb.cases_head with rfl | ⟨c, hedge, -⟩
      · have hempty : withoutEntry.instsOf ⟨0⟩ = [] := by decide +kernel
        exact absurd (hempty ▸ hi) not_mem_nil
      · exact absurd hedge.1 (by decide +kernel)
    have hfault : ((Image.ofFunc withoutEntry).run "f" []).fault? .fresh =
        some (.noTerminator "entry" "f") := by decide +kernel
    obtain ⟨t, hrun⟩ := Exec.fault?_eq_some hfault
    exact ⟨_, _, _, t, hssa, hresults, by decide +kernel, hrun, rfl⟩

end MiddleEnd
