import MiddleEnd.Proofs.Machine.Sound
import MiddleEnd.Proofs.Machine.Typing

/-!
# Runs of scalar programs without addresses

Whatever a scalar program does on the machine it also does without addresses.  An instruction that
succeeds on the machine has a successor there, since all that it reads has been computed, and since
the slot or the global that it reads or changes is in place.  What the machine does next is then known
from the other direction.
-/

namespace MiddleEnd

open List Bool Exec Image Program Instr Func

/-! ## Flow of control -/

/-- Every result of the action has the property. -/
def Exec.Always {α : Type} (x : Exec α) (holds : α → Prop) : Prop :=
  ∀ m a m', x m = .ok a m' → holds a

namespace Exec.Always

variable {α β : Type} {holds : α → Prop}

lemma pure {a : α} (h : holds a) : Always (Pure.pure a : Exec α) holds :=
  fun _ _ _ hx => (pure_eq_ok_iff.mp hx).1 ▸ h

lemma bind (x : Exec β) {k : β → Exec α} (h : ∀ b, Always (k b) holds) :
    Always (x >>= k) holds := by
  intro m a m' hx
  obtain ⟨b, t, -, hb⟩ := bind_ok hx
  exact h b t a m' hb

end Exec.Always

/-- Can control go this way after the instruction? -/
def Instr.leads : Instr → Flow → Bool
  | .branch .., .jump _ | .jump _, .jump _ | .ret _, .ret _ => true
  | k, .next _ => !k.isTerminator
  | _, _ => false

lemma Image.step_always_leads (e : Image) (call : FuncId → List Value → Exec Value) (f : Func)
    (args : List Value) (regs : Registers) (i : InstId) :
    (e.step call f args regs i).Always fun flow => (f.instr i).leads flow := by
  unfold step
  cases hk : f.instr i with
  | alloc => exact .bind _ fun _ => .pure rfl
  | load | binary | icmp | fcmp => exact .bind _ fun _ => .bind _ fun _ => .bind _ fun _ => .pure rfl
  | store | element =>
    exact .bind _ fun _ => .bind _ fun _ => .bind _ fun _ => .bind _ fun _ => .pure rfl
  | cast | branch => exact .bind _ fun _ => .bind _ fun _ => .pure rfl
  | call callee operands format =>
    refine .bind _ fun values => ?_
    cases format with
    | none => exact .bind _ fun _ => .pure rfl
    | some s =>
      dsimp only
      split
      · exact .bind _ fun _ => .bind _ fun _ => .pure rfl
      · exact .bind _ fun _ => .pure rfl
  | jump target =>
    cases target with
    | none => exact fun _ _ _ hfail => absurd hfail fail_ne_ok
    | some target => exact .pure rfl
  | ret value =>
    cases value with
    | none => exact .pure rfl
    | some value => exact .bind _ fun _ => .pure rfl
  | phi => exact .pure rfl

lemma Image.runInsts_never {e : Image} {call : FuncId → List Value → Exec Value} {f : Func}
    {args : List Value} {b : BlockId} {is : List InstId}
    (h : ∀ i ∈ is, (f.instr i).isTerminator = false) (regs : Registers) :
    (e.runInsts call f args b regs is).Always fun _ => False := by
  induction is generalizing regs with
  | nil => exact fun _ _ _ hfail => fail_ne_ok hfail
  | cons i is ih =>
    rw [forall_mem_cons] at h
    unfold runInsts
    split
    · exact ih h.2 regs
    · intro m leave m' hm'
      obtain ⟨_, _, -, hrest⟩ := bind_ok hm'
      obtain ⟨flow, t, hstep, hrest⟩ := bind_ok hrest
      have hleads := step_always_leads e call f args regs i _ _ _ hstep
      cases flow with
      | next regs' => exact ih h.2 regs' t leave m' hrest
      | _ =>
        cases hk : f.instr i <;> simp_all [leads, isTerminator]

lemma Image.call_never {e : Image} {args : List Value} {depth : Nat} {callee : FuncId}
    (hexternal : (e.program.func callee).external = false)
    (h : ∀ i ∈ (e.program.func callee).instsOf ⟨0⟩,
      ((e.program.func callee).instr i).isTerminator = false) :
    (e.call depth callee args).Always fun _ => False := by
  intro m v m' hm'
  obtain ⟨d, -, hblk, hrun⟩ := (call_eq_ok_iff.mp hm').2.2.2.2 hexternal
  obtain ⟨t, hrun, -⟩ := withFrame_eq_ok_iff.mp hrun
  cases hfuel : e.fuel with
  | zero =>
    rw [hfuel] at hrun
    exact throw_ne_ok hrun
  | succ fuel =>
    rw [hfuel] at hrun
    obtain ⟨leave, t', hleave, -⟩ := bind_ok hrun
    simp only [runBlock, hblk, Bool.not_true, Bool.false_eq_true, if_false] at hleave
    obtain ⟨_, _, -, hleave⟩ := bind_ok hleave
    exact runInsts_never h _ _ _ _ hleave

namespace Local

variable {v : Operand} {e : Image} {call : FuncId → List Value → Exec Value} {calls : CallSem}
  {n : Nat} {f : Func} {args : List Value} {m₀ m m' : Machine} {regs regs' : Registers} {s : State}
  {c : BlockId} {ops : List Operand} {fuel : Nat} {t : Ty} {x : Value} {p : Program} {b : BlockId}
  {pre is : List InstId} {i : InstId}

/-! ## Instructions -/

/-- What the instruction `i` reads can be read: operands that are scalars are no slots, and places
have a content. -/
structure Readable (p : Program) (f : Func) (s : State) (i : InstId) : Prop where
  scalar : ∀ j t, .inst j ∈ (f.instr i).operands → f.hasType (.inst j) t →
    (f.instr j).isAlloc = false
  place : ∀ ptr t, ptr ∈ (f.instr i).operands → p.placeTy? f ptr = some t →
    (s.read ptr).isSome
  free : ∀ t, f.instr i = .alloc t → s.slots i = none

lemma Holds.eval_of_ok (h : Holds n f m₀ regs m s)
    (hv : ∀ j, v = .inst j → (f.instr j).isAlloc = false) (hglobal : v.isGlobal = false)
    (hx : e.eval args regs v m = .ok x m') : s.eval args v = some x ∧ m' = m := by
  cases v with
  | inst j =>
    rw [Image.eval, h.registers j (hv j rfl)] at hx
    rw [State.eval]
    cases hj : s.regs j with
    | none =>
      rw [hj] at hx
      exact absurd hx Exec.fail_ne_ok
    | some y =>
      rw [hj] at hx
      obtain ⟨rfl, rfl⟩ := Exec.pure_eq_ok_iff.mp hx
      exact ⟨rfl, rfl⟩
  | arg k =>
    rw [Image.eval] at hx
    rw [State.eval]
    cases hk : args[k]? with
    | none =>
      rw [hk] at hx
      exact absurd hx Exec.fail_ne_ok
    | some y =>
      rw [hk] at hx
      obtain ⟨rfl, rfl⟩ := Exec.pure_eq_ok_iff.mp hx
      exact ⟨rfl, rfl⟩
  | const c =>
    obtain ⟨rfl, rfl⟩ := Exec.pure_eq_ok_iff.mp hx
    exact ⟨rfl, rfl⟩
  | global g => cases hglobal

lemma isGlobal_of_hasType (h : f.hasType v t) : v.isGlobal = false := by
  cases v with
  | global g => simp [hasType, typeOf?] at h
  | _ => rfl

lemma Readable.eval {i : InstId} (hi : Readable e.program f s i) (h : Holds n f m₀ regs m s)
    (hv : v ∈ (f.instr i).operands) (ht : f.hasType v t)
    (hx : e.eval args regs v m = .ok x m') : s.eval args v = some x ∧ m' = m :=
  h.eval_of_ok (fun j hj => hi.scalar j t (hj ▸ hv) (hj ▸ ht)) (isGlobal_of_hasType ht) hx

lemma evalAll_of_ok
    (hops : ∀ v ∈ ops, ∀ x m', e.eval args regs v m = .ok x m' → s.eval args v = some x ∧ m' = m)
    {vs : List Value} (hvs : e.evalAll args regs ops m = .ok vs m') :
    ops.mapM (s.eval args) = some vs ∧ m' = m := by
  induction ops generalizing vs m' with
  | nil =>
    obtain ⟨rfl, rfl⟩ := pure_eq_ok_iff.mp hvs
    exact ⟨rfl, rfl⟩
  | cons v ops ih =>
    obtain ⟨x, m₁, hx, hrest⟩ := bind_ok hvs
    obtain ⟨hx', rfl⟩ := hops v (.head _) x m₁ hx
    obtain ⟨xs, m₂, hxs, hcons⟩ := bind_ok hrest
    obtain ⟨hxs', rfl⟩ := ih (fun u hu => hops u (.tail v hu)) hxs
    obtain ⟨rfl, rfl⟩ := pure_eq_ok_iff.mp hcons
    rw [mapM_cons, hx', hxs']
    exact ⟨rfl, rfl⟩

/-- Calls that succeed on the machine have an outcome. -/
def CallComplete (e : Image) (n : Nat) (call : FuncId → List Value → Exec Value) (calls : CallSem) :
    Prop :=
  ∀ callee args room m v m', n ≤ m.memory.size → m.memory.size + room = m.memory.limit →
    (world n m).Typed e.program → e.program.isCallable callee →
    TypedArgs (e.program.func callee) args → Allows e m 0 → call callee args m = .ok v m' →
    ∃ o, calls callee args (world n m) room o ∧ Allows e m o.steps

lemma yield_of_lift {i : InstId} {x : Except Fault Value} {v : Value} (h : lift x m = .ok v m')
    (hcompute : (f.instr i).compute? (f.inst i).ty (s.eval args) = x.toOption) :
    Advances e.program calls args i (f.inst i).ty s (f.instr i) 0 (s.yield i v s.world) := by
  refine .yield (.compute ?_)
  rw [hcompute, (lift_eq_ok_iff.mp h).1]
  rfl

lemma Readable.yield_of_pair {i : InstId} (hi : Readable e.program f s i)
    (h : Holds n f m₀ regs m s) {l r : Operand} (hoperands : (f.instr i).operands = [l, r]) {tl tr : Ty}
    (htl : f.hasType l tl) (htr : f.hasType r tr) {op : Value → Value → Except Fault Value} {α : Type}
    {k : Value → Exec α} {a : α}
    (hok : (do k (← lift (op (← e.eval args regs l) (← e.eval args regs r)))) m = .ok a m')
    (hcompute : ∀ x y, s.eval args l = some x → s.eval args r = some y →
      (f.instr i).compute? (f.inst i).ty (s.eval args) = (op x y).toOption) :
    ∃ t, Advances e.program calls args i (f.inst i).ty s (f.instr i) 0 t := by
  obtain ⟨x, m₁, hx, hrest⟩ := bind_ok hok
  obtain ⟨hx', rfl⟩ := hi.eval h (by simp [hoperands]) htl hx
  obtain ⟨y, m₂, hy, hop⟩ := bind_ok hrest
  obtain ⟨hy', rfl⟩ := hi.eval h (by simp [hoperands]) htr hy
  obtain ⟨v, m₃, hv, -⟩ := bind_ok hop
  exact ⟨_, yield_of_lift hv (hcompute x y hx' hy')⟩

lemma toOption_apply_name (op : BinaryOp) (name name' : String) (a b : Value) :
    (op.apply name a b).toOption = (op.apply name' a b).toOption := by
  refine Option.ext fun v => ?_
  simp only [toOption_eq_some]
  exact ⟨fun h => BinaryOp.apply_name h name', fun h => BinaryOp.apply_name h name⟩

lemma exists_hasType_of_zip {xs : List Param}
    (hlen : ops.length = xs.length) (h : ((ops.zip xs).all fun (v, x) => f.hasType v x.ty))
    (hv : v ∈ ops) : ∃ t, f.hasType v t := by
  obtain ⟨k, hk, rfl⟩ := getElem_of_mem hv
  have hmem : (ops[k], xs[k]) ∈ ops.zip xs := by
    rw [mem_iff_getElem]
    exact ⟨k, by simp [hk, hlen ▸ hk], by simp⟩
  exact ⟨xs[k].ty, all_eq_true.mp h _ hmem⟩

lemma Readable.advances_of_ok {i : InstId} (hi : Readable e.program f s i)
    (h : Holds n f m₀ regs m s) (htyped : e.program.isWellTyped f i) {b : BlockId}
    {pre : List InstId} (hs : s.Valid e.program f args b pre) (hcall : CallComplete e n call calls)
    (hlim : Allows e m 0) (hstep : e.step call f args regs i m = .ok (.next regs') m')
    (hphi : (f.instr i).isPhi = false) :
    ∃ k s', Advances e.program calls args i (f.inst i).ty s (f.instr i) k s' ∧ Allows e m k := by
  cases hk : f.instr i with
  | alloc t =>
    simp only [isWellTyped, hk, Bool.and_eq_true] at htyped
    simp only [step, hk] at hstep
    obtain ⟨a, m₁, ha, -⟩ := bind_ok hstep
    obtain ⟨hroom, -, -⟩ := allocate_eq_ok_iff.mp ha
    have hcells := Ty.cells_of_isScalar htyped.1.1
    refine ⟨0, _, .alloc hcells (hi.free t hk) ?_, hlim⟩
    have := h.room
    omega
  | load ptr =>
    simp only [isWellTyped, hk, decide_eq_true_eq] at htyped
    obtain ⟨x, hx⟩ := Option.isSome_iff_exists.mp (hi.place ptr _ (by simp [hk, operands]) htyped)
    exact ⟨0, _, .yield (.load hx (Value.readAs_of_hasType (hs.read htyped hx))), hlim⟩
  | store value ptr =>
    simp only [isWellTyped, hk, Bool.and_eq_true] at htyped
    cases ht : e.program.placeTy? f ptr with
    | none =>
      rw [ht] at htyped
      cases htyped.1
    | some t =>
      rw [ht, Option.any_some] at htyped
      simp only [step, hk] at hstep
      obtain ⟨x, m₁, hx, -⟩ := bind_ok hstep
      obtain ⟨hx', -⟩ := hi.eval h (by simp [hk, operands]) htyped.1 hx
      exact ⟨0, _, .store hx' (hi.place ptr t (by simp [hk, operands]) ht), hlim⟩
  | element base offsets =>
    simp [isWellTyped, hk] at htyped
  | binary op l r =>
    simp only [isWellTyped, hk, Bool.and_eq_true] at htyped
    simp only [step, hk] at hstep
    obtain ⟨t, ht⟩ := hi.yield_of_pair h (by rw [hk]; rfl) htyped.1.1 htyped.1.2 hstep
      fun x y hx hy => by
        rw [hk, compute?, hx, hy]
        exact toOption_apply_name op _ _ x y
    exact ⟨0, t, hk ▸ ht, hlim⟩
  | icmp c l r =>
    simp only [isWellTyped, hk, Bool.and_eq_true, Bool.or_eq_true] at htyped
    obtain ⟨t, hl, hr⟩ : ∃ t, f.hasType l t ∧ f.hasType r t := by
      rcases htyped.1 with ht | ht
      · exact ⟨_, ht⟩
      · exact ⟨_, ht⟩
    simp only [step, hk] at hstep
    obtain ⟨t, ht⟩ := hi.yield_of_pair h (by rw [hk]; rfl) hl hr hstep
      fun x y hx hy => by rw [hk, compute?, hx, hy]; rfl
    exact ⟨0, t, hk ▸ ht, hlim⟩
  | fcmp c l r =>
    simp only [isWellTyped, hk, Bool.and_eq_true] at htyped
    simp only [step, hk] at hstep
    obtain ⟨t, ht⟩ := hi.yield_of_pair h (by rw [hk]; rfl) htyped.1.1 htyped.1.2 hstep
      fun x y hx hy => by rw [hk, compute?, hx, hy]; rfl
    exact ⟨0, t, hk ▸ ht, hlim⟩
  | cast op u =>
    simp only [isWellTyped, hk] at htyped
    cases ht : f.typeOf? u with
    | none =>
      rw [ht] at htyped
      cases htyped
    | some t =>
      rw [ht, Option.any_some, Bool.and_eq_true] at htyped
      simp only [step, hk] at hstep
      obtain ⟨x, m₁, hx, hrest⟩ := bind_ok hstep
      obtain ⟨hx', rfl⟩ := hi.eval h (by simp [hk, operands]) htyped.1 hx
      obtain ⟨v, m₂, hv, -⟩ := bind_ok hrest
      rw [← hk]
      refine ⟨0, _, yield_of_lift hv ?_, hlim⟩
      rw [hk, compute?, hx']
      rfl
  | call callee ops format =>
    simp only [step, hk] at hstep
    obtain ⟨vs, m₁, hvs, hrest⟩ := bind_ok hstep
    cases format with
    | none =>
      simp only [isWellTyped, hk, Bool.and_eq_true, decide_eq_true_eq] at htyped
      obtain ⟨⟨⟨hcallable, -⟩, hlen⟩, htypes⟩ := htyped
      obtain ⟨hvs', rfl⟩ := evalAll_of_ok (fun v hv x m' hx => by
        obtain ⟨t, ht⟩ := exists_hasType_of_zip hlen htypes hv
        exact hi.eval h (by rw [hk]; exact hv) ht hx) hvs
      obtain ⟨v, m₂, hv, -⟩ := bind_ok hrest
      obtain ⟨o, ho, hsteps⟩ := hcall callee vs s.room m₁ v m₂ (Nat.le_trans h.globals h.size) h.room
        (h.world ▸ hs.world) hcallable (hs.typedArgs hlen htypes hvs') hlim hv
      exact ⟨o.steps, _, .yield (.call hvs' (h.world ▸ ho)), hsteps⟩
    | some str =>
      simp only [isWellTyped, hk, Bool.and_eq_true, all_eq_true, Bool.or_eq_true] at htyped
      obtain ⟨hvs', rfl⟩ := evalAll_of_ok (fun v hv x m' hx => by
        rcases htyped.2 v hv with ht | ht
        · exact hi.eval h (by rw [hk]; exact hv) ht hx
        · exact hi.eval h (by rw [hk]; exact hv) ht hx) hvs
      cases hstr : e.program.hasString str with
      | false =>
        simp only [hstr, Bool.not_false, if_true] at hrest
        obtain ⟨u, m₂, hu, -⟩ := bind_ok hrest
        exact absurd hu throw_ne_ok
      | true =>
        simp only [hstr, Bool.not_true, Bool.false_eq_true, if_false] at hrest
        obtain ⟨u, m₂, hu, -⟩ := bind_ok hrest
        have hprint : s.world.run (.printFormatted (e.program.string str) vs) =
            some ((), world n m₂) := by
          rw [h.world]
          exact (run_world_iff (.printFormatted _ _)).mpr ⟨m₂, hu, rfl⟩
        exact ⟨0, _, .yield (.print hvs' hstr hprint), hlim⟩
  | branch | jump | ret =>
    have hleads := step_always_leads e call f args regs i _ _ _ hstep
    rw [hk] at hleads
    cases hleads
  | phi es =>
    rw [hk] at hphi
    cases hphi

lemma Readable.target_of_ok {i : InstId} (hi : Readable e.program f s i)
    (h : Holds n f m₀ regs m s) (htyped : e.program.isWellTyped f i)
    (hstep : e.step call f args regs i m = .ok (.jump c) m') :
    (f.instr i).target? (s.eval args) = some c := by
  cases hk : f.instr i with
  | branch cond onTrue onFalse =>
    simp only [isWellTyped, hk, and_eq_true] at htyped
    simp only [step, hk] at hstep
    obtain ⟨x, m₁, hx, hrest⟩ := bind_ok hstep
    obtain ⟨hx', rfl⟩ := hi.eval h (by simp [hk, operands]) htyped.1 hx
    obtain ⟨taken, m₂, htaken, hflow⟩ := bind_ok hrest
    cases hflow
    simp [target?, hx', (lift_eq_ok_iff.mp htaken).1, Except.toOption]
  | jump target =>
    simp only [step, hk] at hstep
    cases target with
    | none => exact absurd hstep fail_ne_ok
    | some target =>
      cases hstep
      rfl
  | _ =>
    have hleads := step_always_leads e call f args regs i _ _ _ hstep
    rw [hk] at hleads
    cases hleads

lemma Readable.result_of_ok {i : InstId} (hi : Readable e.program f s i)
    (h : Holds n f m₀ regs m s) (htyped : e.program.isWellTyped f i) {v : Value}
    (hstep : e.step call f args regs i m = .ok (.ret v) m') :
    (f.instr i).result? (s.eval args) = some v := by
  cases hk : f.instr i with
  | ret value =>
    simp only [step, hk] at hstep
    cases value with
    | none =>
      cases hstep
      rfl
    | some value =>
      simp only [isWellTyped, hk, and_eq_true] at htyped
      obtain ⟨x, m₁, hx, hflow⟩ := bind_ok hstep
      obtain ⟨hx', rfl⟩ := hi.eval h (by simp [hk, operands]) htyped.1 hx
      cases hflow
      exact hx'
  | _ =>
    have hleads := step_always_leads e call f args regs i _ _ _ hstep
    rw [hk] at hleads
    cases hleads

/-! ## Runs -/

lemma State.Valid.readable (hs : s.Valid p f args b pre) (hf : f.Scalar p)
    (hent : ⟨0⟩ ∈ f.liveBlocks) (hb : f.Reachable b) (hsplit : f.body b = pre ++ i :: is) :
    Readable p f s i := by
  obtain ⟨hformed, hcomp, hform⟩ := ssa_iff.mp hf.ssa
  have hlive := hform.mem_liveBlocks hent hb
  have hinsts : f.instsOf b = (f.phis b ++ pre) ++ i :: is := by
    rw [hformed.instsOf_eq hlive, hsplit, append_assoc]
  have hmem : i ∈ f.body b := by simp [hsplit]
  have hi : i ∈ f.instsOf b := (mem_filter.mp hmem).1
  have hphi : (f.instr i).isPhi = false := by simpa using (mem_filter.mp hmem).2
  have havail {v : Operand} (hv : v ∈ (f.instr i).operands) :
      f.Available b (f.phis b ++ pre) v :=
    hform.dominated b hlive hb _ i is hinsts hphi v hv
  have hpl {j : InstId} (hj : .inst j ∈ (f.instr i).operands) : f.placed j := by
    refine hf.ssa.placed_of_available hent hb (hcomp b hlive i hi _ hj)
      ((havail hj).mono ?_)
    rw [hinsts]
    exact subset_append_left _ _
  refine ⟨fun j t hj ht => ?_, fun ptr t hptr ht => ?_, fun t hk => ?_⟩
  · cases hk : f.instr j with
    | alloc t' => exact absurd hk (hf.not_alloc_of_hasType (hpl hj) ht t')
    | _ => rfl
  · cases ptr with
    | inst a =>
      obtain ⟨t', hk⟩ : ∃ t', f.instr a = .alloc t' := by
        rw [placeTy?] at ht
        split at ht
        · next t' hk => exact ⟨t', hk⟩
        · cases ht
      have htyped := hf.isWellTyped (hpl hptr)
      simp only [isWellTyped, hk, and_eq_true, decide_eq_true_eq] at htyped
      have hnot : (f.instr a).isPhi = false := by rw [hk]; rfl
      have ha : a ∈ f.body ⟨0⟩ := by
        refine mem_filter.mpr ⟨?_, by simp [hnot]⟩
        exact (hformed.mem_instsOf _ _).mpr
          ⟨Formed.live_of_placed (hpl hptr), htyped.2⟩
      refine hs.allocated a t' ha hk fun hzero => ?_
      rcases havail hptr a rfl with hin | ⟨hne, -⟩
      · refine (mem_append.mp hin).resolve_left fun hphis => ?_
        rw [f.isPhi_of_mem_phis hphis] at hnot
        cases hnot
      · exact absurd (htyped.2.trans hzero.symm) hne
    | global g =>
      rw [placeTy?] at ht
      split at ht
      · next hg =>
        obtain ⟨x, hx, -⟩ := hs.world g hg
        exact Option.isSome_of_eq_some hx
      · cases ht
    | _ => cases ht
  · have htyped := hf.isWellTyped (hformed.placed_of_mem hlive hi)
    simp only [isWellTyped, hk, and_eq_true, decide_eq_true_eq] at htyped
    refine hs.fresh ((hformed.block_of_mem hi).symm.trans htyped.2) i fun hin => ?_
    have hnd := hformed.threaded.nodup b
    rw [hinsts] at hnd
    exact (nodup_append.mp hnd).2.2 i (mem_append_right _ hin) i (.head _) rfl

lemma incoming_of_ok (hf : f.Scalar p) (hent : ⟨0⟩ ∈ f.liveBlocks) (hb : f.Reachable b)
    (hc : f.Reachable c) (h : Holds n f m₀ regs m s) {js : List InstId}
    (hjs : js ⊆ f.phis c) {values : List (InstId × Value)}
    (hok : e.evalPhis f args regs c (some b) js m = .ok values m') :
    ∀ j ∈ js, (s.incoming f args b j).isSome := by
  obtain ⟨hformed, hcomp, hform⟩ := ssa_iff.mp hf.ssa
  have hlive := hform.mem_liveBlocks hent hc
  induction js generalizing values m' with
  | nil => exact nofun
  | cons j js ih =>
    have hj : j ∈ f.instsOf c := (takeWhile_sublist _).subset (hjs (.head _))
    rw [evalPhis_cons] at hok
    cases hfrom : (f.instr j).operandFrom? (some b) with
    | none =>
      rw [hfrom] at hok
      exact absurd hok fail_ne_ok
    | some v =>
      rw [hfrom] at hok
      obtain ⟨x, m₁, hx, hrest⟩ := bind_ok hok
      obtain ⟨entry, hfind, hval⟩ := Option.bind_eq_some_iff.mp hfrom
      have hmem := mem_of_find?_eq_some hfind
      obtain rfl : b = entry.block := by simpa using List.find?_some hfind
      -- the value of the entry is a scalar, so it is no slot
      obtain ⟨t, ht⟩ : ∃ t, f.hasType v t := by
        have htyped := hf.isWellTyped (hformed.placed_of_mem hlive hj)
        cases hk : f.instr j with
        | phi es =>
          simp only [isWellTyped, hk, and_eq_true, all_eq_true] at htyped
          have hent := htyped.2 entry (by rwa [hk] at hmem)
          rw [hval] at hent
          exact ⟨_, hent⟩
        | _ =>
          rw [hk] at hmem
          cases hmem
      have hnot (k : InstId) (hvk : v = .inst k) : (f.instr k).isAlloc = false := by
        subst hvk
        have hpl := hf.ssa.placed_of_available hent hb
          (hcomp c hlive j hj (.inst k) (mem_operands_of_entry hmem hval))
          (hform.flows c hlive hc j hj entry hmem _ hval)
        cases hk : f.instr k with
        | alloc t' => exact absurd hk (hf.not_alloc_of_hasType hpl ht t')
        | _ => rfl
      obtain ⟨hx', rfl⟩ := h.eval_of_ok hnot (isGlobal_of_hasType ht) hx
      obtain ⟨rest, m₂, hrest', -⟩ := bind_ok hrest
      intro k hk
      rcases mem_cons.mp hk with rfl | hk
      · simp [State.incoming, hfrom, hx']
      · exact ih (fun k hk => hjs (.tail j hk)) hrest' k hk

lemma runs_of_ok (hf : f.Scalar e.program) (hent : ⟨0⟩ ∈ f.liveBlocks)
    (he : ∀ k < n, e.globals[k]? = some k) (hcomp : CallComplete e n call calls)
    (hsound : CallSound e n call calls) (hcalls : calls.Typed e.program) {v : Value}
    (hs : Holds n f m₀ regs m s) (hvalid : s.Valid e.program f args b pre) (hb : f.Reachable b)
    (hsplit : f.body b = pre ++ is) (hlim : Allows e m 0)
    (hok : e.runFrom call f args fuel b regs is m = .ok v m') :
    ∃ o, Runs e.program calls f args b is s fuel o ∧ Allows e m o.steps := by
  have hconsistent := hf.ssa.consistent
  induction fuel using Nat.strongRecOn generalizing b pre is regs m s with
  | ind fuel ihfuel =>
    induction is generalizing pre regs m s with
    | nil =>
      obtain ⟨l, m₁, hl, -⟩ := bind_ok hok
      exact absurd hl fail_ne_ok
    | cons i is ih =>
      have hlive := hf.ssa.form.mem_liveBlocks hent hb
      have hmem : i ∈ f.body b := by simp [hsplit]
      have hi : i ∈ f.instsOf b := (mem_filter.mp hmem).1
      have hphi : (f.instr i).isPhi = false := by simpa using (mem_filter.mp hmem).2
      have htyped := hf.isWellTyped (hconsistent.placed_of_mem hlive hi)
      have hread := hvalid.readable hf hent hb hsplit
      rw [runFrom_step _ _ _ _ _ _ _ hphi] at hok
      obtain ⟨⟨⟩, m₁, htick, hrest⟩ := bind_ok hok
      obtain ⟨hcnt, rfl⟩ := tick_eq_ok_iff.mp htick
      obtain ⟨flow, m₂, hstep, hnext⟩ := bind_ok hrest
      cases flow with
      | next regs' =>
        obtain ⟨k, s', hadvances, hk⟩ := hread.advances_of_ok hs.tick htyped hvalid hcomp hcnt
          hstep hphi
        obtain ⟨regs₂, m₂', hstep', hs', hsteps⟩ := hs.tick.step_of_advances he hsound hadvances hk
        obtain ⟨heq, rfl⟩ := EStateM.Result.ok.inj (hstep.symm.trans hstep')
        obtain rfl := Flow.next.inj heq
        obtain ⟨o, ho, hlimit'⟩ := ih hs' (hvalid.advance hcalls htyped hadvances)
          (by rw [hsplit, append_assoc]; rfl)
          (fun h0 => by have := hk h0; omega) hnext
        refine ⟨_, .next hadvances ho, fun h0 => ?_⟩
        have := hlimit' h0
        simp only [Outcome.after] at hsteps ⊢
        omega
      | jump c =>
        have htgt := hread.target_of_ok hs.tick htyped hstep
        obtain ⟨-, rfl⟩ := EStateM.Result.ok.inj
          (hstep.symm.trans (hs.tick.step_of_target e call htgt))
        obtain ⟨hedge, hlive'⟩ := hf.ssa.edge_of_target hlive hi (target?_mem_targets htgt)
        have hreach : f.Reachable c := hb.tail hedge
        have hblk : f.hasBlock c := (hconsistent.mem_layout c).mp (mem_filter.mp hlive').1
        cases fuel with
        | zero => exact absurd hnext throw_ne_ok
        | succ fuel =>
          dsimp only at hnext
          rw [runBlocks_succ _ _ _ _ _ _ hblk] at hnext
          obtain ⟨values, m₃, hphis, hrun⟩ := bind_ok hnext
          have hincoming := incoming_of_ok hf hent hb hreach hs.tick (List.Subset.refl _) hphis
          obtain ⟨values', hvals, hkeys, hval⟩ := hs.tick.evalPhis e c hincoming
          rw [hvals] at hphis
          obtain ⟨rfl, rfl⟩ := pure_eq_ok_iff.mp hphis
          rw [runFrom_filter] at hrun
          obtain ⟨o, ho, hlimit'⟩ := ihfuel fuel (Nat.lt_succ_self fuel)
            (hs.tick.enter hkeys hval) (hvalid.enter (mem_of_terminator
              hf.ssa.formed hlive hsplit (isTerminator_of_target? htgt))
              fun j hj => hf.isWellTyped (hconsistent.placed_of_mem hlive'
                ((takeWhile_sublist _).subset hj)))
            hreach (nil_append _).symm hcnt hrun
          refine ⟨_, .jump htgt hblk hincoming ho, fun h0 => ?_⟩
          have := hlimit' h0
          simp only [Outcome.after] at this ⊢
          omega
      | ret w =>
        have hres := hread.result_of_ok hs.tick htyped hstep
        exact ⟨_, .ret hres, hcnt⟩

/-! ## Calls -/

lemma callComplete (hp : e.program.Entered) (he : ∀ k < n, e.globals[k]? = some k)
    (hfuel : e.fuel = fuel + 1) (depth : Nat) :
    CallComplete e n (e.call depth) (Calls e.program fuel depth) := by
  induction depth using Nat.strongRecOn with
  | ind depth ih =>
    intro callee args room m v m' hglob hroom hworld hcallable hargs hlim hok
    obtain ⟨hfunc, hlive, hlen, hbuiltin, hdef⟩ := call_eq_ok_iff.mp hok
    cases hext : (e.program.func callee).external with
    | true =>
      obtain ⟨b, hb, hrun⟩ := hbuiltin hext
      simp only [isCallable, hext, hb, Bool.not_true, Bool.false_or, Option.any_some,
        Bool.and_eq_true] at hcallable
      refine ⟨⟨v, world n m', 0⟩, calls_iff.mpr ⟨hfunc, hlive, hlen, fun _ => ?_,
        fun h => by simp [hext] at h⟩, hlim⟩
      exact ⟨b, hb, hcallable.2.1.1, rfl,
        (run_world_iff (.builtin hcallable.2.1.1 args)).mpr ⟨m', hrun, rfl⟩⟩
    | false =>
      obtain ⟨d, rfl, hblk, hfr⟩ := hdef hext
      obtain ⟨t, ht, -⟩ := withFrame_eq_ok_iff.mp hfr
      have hisDefined : (e.program.func callee).isDefined := by
        simp [isDefined, hext, hlive]
      have hf := hp.func hfunc hisDefined
      have hent := hp.mem_liveBlocks hfunc hisDefined hblk
      have hphis : (e.program.func callee).phis ⟨0⟩ = [] := by
        rw [eq_nil_iff_forall_not_mem]
        intro j hj
        have hnot := hf.ssa.form.entry j ((takeWhile_sublist _).subset hj)
        rw [isPhi_of_mem_phis _ hj] at hnot
        cases hnot
      rw [hfuel, runBlocks_entry _ _ _ _ _ hblk hphis] at ht
      obtain ⟨o, ho, hlimit'⟩ := runs_of_ok hf hent he (ih d (Nat.lt_succ_self d))
        (callSound he hfuel d) (calls_typed hp fuel d) (.init hglob hroom) (.init hargs hworld room)
        .refl (nil_append _).symm hlim ht
      exact ⟨o, calls_iff.mpr ⟨hfunc, hlive, hlen, fun h => by simp [hext] at h,
        fun _ => ⟨d, rfl, hblk, hphis, ho⟩⟩, hlimit'⟩

end Local

end MiddleEnd
