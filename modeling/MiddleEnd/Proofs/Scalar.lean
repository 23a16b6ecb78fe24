import MiddleEnd.Proofs.Machine.Simplify
import MiddleEnd.Proofs.Ssa

/-!
# Scalar programs

In a scalar program every function is in SSA form and well typed, and all data are truth values,
integers and floats.  Slots are allocated in the entry.  Memory is reached only by loads and stores
whose pointer is the allocation of a slot or a global, and pointers are used for nothing else.

Operations on values of the right types yield values of the right types, whenever they yield any.
-/

namespace MiddleEnd

open List Instr

variable {a v : Value} {op : CastOp} {b : Value} {c : Cond} {i : InstId} {t : Ty} {w : Value}

/-! ## Types -/

def Ty.isScalar : Ty → Bool
  | .i1 | .i32 | .float => true
  | _ => false

def Value.hasType : Value → Ty → Bool
  | .bool _, .i1 | .int _, .i32 | .float _, .float | .void, .void => true
  | _, _ => false

def BinaryOp.ty (op : BinaryOp) : Ty :=
  if op.isFloat then .float else .i32

/-- Can the conversion be made between the types? -/
def CastOp.converts : CastOp → Ty → Ty → Bool
  | .sitofp, .i32, .float | .sitofp, .i1, .float | .fptosi, .float, .i32 | .zext, .i1, .i32
  | .trunc, .i32, .i1 => true
  | _, _, _ => false

def Func.hasType (f : Func) (v : Operand) (t : Ty) : Bool :=
  t.isScalar && match v with
    | .const c => (Value.ofConstant c).hasType t
    | v => f.typeOf? v = some t

namespace Program

/-- The type of the slot or the global that a pointer names. -/
def placeTy? (p : Program) (f : Func) : Operand → Option Ty
  | .inst a => match f.instr a with
    | .alloc t => some t
    | _ => none
  | .global g => if p.hasGlobal g then some (p.global g).ty else none
  | _ => none

/-- Functions with a body, and built-in functions on scalars, can be called. -/
def isCallable (p : Program) (id : FuncId) : Bool :=
  let f := p.func id
  p.hasFunc id && (!f.external || (Builtin.ofName? f.name).any fun b =>
    b.isScalar && b.params = f.params.toList.map Param.ty && b.ret = f.ret)

/-- Is the operation defined on the types of its operands, with a result of the right type?  No
operation but a load or a store has a pointer as an operand. -/
def isWellTyped (p : Program) (f : Func) (i : InstId) : Bool :=
  let ty := (f.inst i).ty
  match f.instr i with
  | .alloc t => t.isScalar && ty = .pointer t && (f.inst i).block = ⟨0⟩
  | .load ptr => p.placeTy? f ptr = some ty
  | .store v ptr => (p.placeTy? f ptr).any (f.hasType v) && ty = .void
  | .element .. => false
  | .binary op l r => f.hasType l op.ty && f.hasType r op.ty && ty = op.ty
  | .icmp _ l r =>
    (f.hasType l .i32 && f.hasType r .i32 || f.hasType l .i1 && f.hasType r .i1) && ty = .i1
  | .fcmp _ l r => f.hasType l .float && f.hasType r .float && ty = .i1
  | .cast op v => (f.typeOf? v).any fun t => f.hasType v t && op.converts t ty
  | .call callee args none => p.isCallable callee && ty = (p.func callee).ret &&
    args.length = (p.func callee).params.size &&
    (args.zip (p.func callee).params.toList).all fun (v, x) => f.hasType v x.ty
  | .call callee args (some _) => (p.func callee).external && ty = .void &&
    args.all fun v => f.hasType v .i32 || f.hasType v .i1
  | .branch c _ _ => f.hasType c .i1 && ty = .void
  | .jump _ => ty = .void
  | .ret none => f.ret = .void && ty = .void
  | .ret (some v) => f.hasType v f.ret && ty = .void
  | .phi es => ty.isScalar && es.all fun e => e.value.all fun v => f.hasType v ty

end Program

/-- A global of a scalar type, with an initial value of it. -/
def Global.isScalar (g : Global) : Bool :=
  g.ty.isScalar && match g.init with
    | .scalar c => (Value.ofConstant c).hasType g.ty
    | .array _ => false
    | .zero => true

/-! ## Functions and programs -/

structure Func.Scalar (p : Program) (f : Func) : Prop where
  ssa : f.Ssa
  params : ∀ x ∈ f.params, x.ty.isScalar
  ret : f.ret = .void ∨ f.ret.isScalar
  typed : ∀ i ∈ f.liveInsts, p.isWellTyped f i

/-- The entry, if there is one, has not been deleted. -/
def Func.EntryLive (f : Func) : Prop :=
  f.hasBlock ⟨0⟩ = true → ⟨0⟩ ∈ f.liveBlocks

namespace Program

structure Scalar (p : Program) : Prop where
  globals : ∀ g ∈ p.globals, g.isScalar
  funcs : ∀ f ∈ p.funcs, f.isDefined → f.Scalar p

/-- The arguments are those that the function of a name takes, if it has a body. -/
def Accepts (p : Program) (name : String) (args : List Value) : Prop :=
  ∀ id, p.findFunc? name = some id → (p.func id).isDefined →
    List.Forall₂ (fun v x => v.hasType x.ty) args (p.func id).params.toList

end Program

/-! ## Values of operations -/

namespace Value

lemma readAs_of_hasType (h : v.hasType t) : v.readAs t = v := by
  cases v <;> cases t <;> first | rfl | cases h

lemma hasType_initial (h : t.isScalar) : (initial t).hasType t := by
  cases t <;> first | rfl | cases h

lemma compute_eq_ok {operation : String} {fold? : Constant → Constant → Option Constant}
    (h : compute operation fold? a b = .ok v) :
    ∃ x y c, fold? x y = some c ∧ v = .ofConstant c := by
  simp only [compute, asConstant, bind, Except.bind] at h
  cases ha : a.constant? with
  | none => simp [ha] at h
  | some x =>
    cases hb : b.constant? with
    | none => simp [ha, hb] at h
    | some y =>
      cases hc : fold? x y with
      | none => simp [ha, hb, hc] at h
      | some c =>
        refine ⟨x, y, c, hc, ?_⟩
        simpa [ha, hb, hc] using h.symm

end Value

lemma Ty.cells_of_isScalar (h : t.isScalar) : t.cells = 1 := by
  cases t <;> first | rfl | cases h

lemma BinaryOp.hasType_fold? {op : BinaryOp} {a b c : Constant} (h : op.fold? a b = some c) :
    (Value.ofConstant c).hasType op.ty := by
  unfold fold? at h
  unfold BinaryOp.ty
  split at h
  · next hop =>
    obtain ⟨x, -, h⟩ := Option.bind_eq_some_iff.mp h
    obtain ⟨y, -, h⟩ := Option.bind_eq_some_iff.mp h
    obtain ⟨z, -, h⟩ := Option.bind_eq_some_iff.mp h
    obtain rfl := Option.some.inj h
    rw [if_pos hop]
    rfl
  · next hop =>
    obtain ⟨x, -, h⟩ := Option.bind_eq_some_iff.mp h
    obtain ⟨y, -, h⟩ := Option.bind_eq_some_iff.mp h
    obtain ⟨z, -, h⟩ := Option.bind_eq_some_iff.mp h
    obtain rfl := Option.some.inj h
    rw [if_neg hop]
    rfl

lemma BinaryOp.hasType_apply {op : BinaryOp} {name : String}
    (h : op.apply name a b = .ok v) : v.hasType op.ty := by
  obtain ⟨x, y, c, hc, rfl⟩ := Value.compute_eq_ok (BinaryOp.apply_eq_ok h)
  exact hasType_fold? hc

lemma Cond.hasType_applyInt (h : c.applyInt a b = .ok v) : v.hasType .i1 := by
  obtain ⟨x, y, d, hd, rfl⟩ := Value.compute_eq_ok h
  obtain ⟨m, -, hd⟩ := Option.bind_eq_some_iff.mp hd
  obtain ⟨n, -, hd⟩ := Option.bind_eq_some_iff.mp hd
  obtain rfl := Option.some.inj hd
  rfl

lemma Cond.hasType_applyFloat (h : c.applyFloat a b = .ok v) : v.hasType .i1 := by
  obtain ⟨x, y, d, hd, rfl⟩ := Value.compute_eq_ok h
  obtain ⟨m, -, hd⟩ := Option.bind_eq_some_iff.mp hd
  obtain ⟨n, -, hd⟩ := Option.bind_eq_some_iff.mp hd
  obtain rfl := Option.some.inj hd
  rfl

lemma CastOp.apply_eq_ok (hop : op ≠ .bitcast) {ty : Ty}
    (h : op.apply v ty = .ok w) : ∃ c d, op.fold? c ty = some d ∧ w = .ofConstant d := by
  unfold apply at h
  split at h
  · exact absurd rfl hop
  · exact absurd rfl hop
  · simp only [Value.asConstant, bind, Except.bind] at h
    cases hv : v.constant? with
    | none => simp [hv] at h
    | some c => grind

lemma CastOp.hasType_apply {source ty : Ty} (hop : op.converts source ty)
    (h : op.apply v ty = .ok w) : w.hasType ty := by
  have hne : op ≠ .bitcast := by
    rintro rfl
    simp [converts] at hop
  obtain ⟨c, d, hd, rfl⟩ := apply_eq_ok hne h
  unfold converts at hop
  split at hop
  · cases c <;> cases hd <;> rfl
  · cases c <;> cases hd <;> rfl
  · cases c <;> cases hd
    rfl
  · cases c <;> cases hd <;> rfl
  · cases c <;> cases hd
    rfl
  · cases hop

lemma Program.hasType_compute {p : Program} {f : Func} (h : p.isWellTyped f i)
    {eval : Operand → Option Value} (hv : (f.instr i).compute? (f.inst i).ty eval = some v) :
    v.hasType (f.inst i).ty := by
  unfold isWellTyped at h
  cases hk : f.instr i with
  | binary op l r =>
    rw [hk] at h hv
    obtain ⟨x, -, hv⟩ := Option.bind_eq_some_iff.mp hv
    obtain ⟨y, -, hv⟩ := Option.bind_eq_some_iff.mp hv
    simp only [Bool.and_eq_true, decide_eq_true_eq] at h
    rw [h.2]
    exact BinaryOp.hasType_apply (toOption_eq_some.mp hv)
  | icmp c l r =>
    rw [hk] at h hv
    obtain ⟨x, -, hv⟩ := Option.bind_eq_some_iff.mp hv
    obtain ⟨y, -, hv⟩ := Option.bind_eq_some_iff.mp hv
    rw [Bool.and_eq_true, decide_eq_true_eq] at h
    rw [h.2]
    exact Cond.hasType_applyInt (toOption_eq_some.mp hv)
  | fcmp c l r =>
    rw [hk] at h hv
    obtain ⟨x, -, hv⟩ := Option.bind_eq_some_iff.mp hv
    obtain ⟨y, -, hv⟩ := Option.bind_eq_some_iff.mp hv
    rw [Bool.and_eq_true, decide_eq_true_eq] at h
    rw [h.2]
    exact Cond.hasType_applyFloat (toOption_eq_some.mp hv)
  | cast op u =>
    rw [hk] at h hv
    obtain ⟨x, -, hv⟩ := Option.bind_eq_some_iff.mp hv
    dsimp only at h
    cases ht : f.typeOf? u with
    | none =>
      rw [ht] at h
      cases h
    | some t =>
      rw [ht, Option.any_some, Bool.and_eq_true] at h
      exact CastOp.hasType_apply h.2 (toOption_eq_some.mp hv)
  | _ =>
    rw [hk] at hv
    cases hv

/-! ## Code that control gets to -/

lemma filter_append_filter_not {α : Type} {p : α → Bool} {l : List α}
    (h : l.Pairwise fun a b => p b → p a) :
    l = l.filter p ++ l.filter fun a => !p a := by
  induction l with
  | nil => rfl
  | cons a l ih =>
    rw [pairwise_cons] at h
    cases ha : p a with
    | true =>
      rw [filter_cons_of_pos ha, filter_cons_of_neg (by simp [ha]), cons_append, ← ih h.2]
    | false =>
      have hnone : l.filter p = [] := by
        rw [filter_eq_nil_iff]
        intro b hb hpb
        rw [h.1 b hb hpb] at ha
        cases ha
      have hall : (l.filter fun a => !p a) = l := by
        conv_rhs => rw [ih h.2, hnone, nil_append]
      rw [filter_cons_of_neg (by simp [ha]), filter_cons_of_pos (by simp [ha]), hnone, hall,
        nil_append]

namespace Func

variable {p : Program} {f : Func} {b : BlockId}

lemma Formed.instsOf_eq (hf : f.Formed) (hb : b ∈ f.liveBlocks) :
    f.instsOf b = f.phis b ++ f.body b := by
  rw [hf.phis_eq hb]
  exact filter_append_filter_not (hf.phis_first b hb)

lemma Scalar.isWellTyped (hf : f.Scalar p) (hi : f.placed i) : p.isWellTyped f i :=
  hf.typed i (hf.ssa.consistent.mem_liveInsts.mpr hi)

lemma place_or_hasType_of_operand (h : p.isWellTyped f i) {v : Operand}
    (hv : v ∈ (f.instr i).operands) :
    (p.placeTy? f v).isSome ∨ ∃ t, f.hasType v t := by
  unfold Program.isWellTyped at h
  cases hk : f.instr i with
  | alloc t =>
    rw [hk] at hv
    cases hv
  | jump t =>
    rw [hk] at hv
    cases hv
  | element base offsets =>
    rw [hk] at h
    cases h
  | load ptr =>
    simp only [hk, operands, mem_singleton, decide_eq_true_eq] at h hv
    exact .inl (by rw [hv, h]; rfl)
  | store u ptr =>
    simp only [hk, operands, mem_cons, not_mem_nil, or_false, Bool.and_eq_true,
      Option.any_eq_true] at h hv
    obtain ⟨⟨t, ht, hu⟩, -⟩ := h
    rcases hv with rfl | rfl
    · exact .inr ⟨t, hu⟩
    · exact .inl (by rw [ht]; rfl)
  | binary op l r =>
    simp only [hk, operands, mem_cons, not_mem_nil, or_false, Bool.and_eq_true] at h hv
    rcases hv with rfl | rfl
    · exact .inr ⟨_, h.1.1⟩
    · exact .inr ⟨_, h.1.2⟩
  | icmp c l r =>
    simp only [hk, operands, mem_cons, not_mem_nil, or_false, Bool.and_eq_true,
      Bool.or_eq_true] at h hv
    rcases h.1 with h | h <;> rcases hv with rfl | rfl
    · exact .inr ⟨_, h.1⟩
    · exact .inr ⟨_, h.2⟩
    · exact .inr ⟨_, h.1⟩
    · exact .inr ⟨_, h.2⟩
  | fcmp c l r =>
    simp only [hk, operands, mem_cons, not_mem_nil, or_false, Bool.and_eq_true] at h hv
    rcases hv with rfl | rfl
    · exact .inr ⟨_, h.1.1⟩
    · exact .inr ⟨_, h.1.2⟩
  | cast op u =>
    simp only [hk, operands, mem_singleton, Option.any_eq_true, Bool.and_eq_true] at h hv
    obtain ⟨t, -, ht, -⟩ := h
    exact .inr ⟨t, hv ▸ ht⟩
  | call callee args str =>
    rw [hk] at hv
    cases str with
    | none =>
      simp only [hk, Bool.and_eq_true, all_eq_true, decide_eq_true_eq] at h
      obtain ⟨n, hn, rfl⟩ := mem_iff_getElem.mp hv
      have hlen : n < (p.func callee).params.toList.length := by
        rw [Array.length_toList, ← h.1.2]
        exact hn
      have hmem := getElem_mem
        (by rw [length_zip]; exact Nat.lt_min.mpr ⟨hn, hlen⟩)
      rw [getElem_zip] at hmem
      exact .inr ⟨_, h.2 _ hmem⟩
    | some str =>
      simp only [hk, Bool.and_eq_true, all_eq_true, Bool.or_eq_true] at h
      rcases h.2 v hv with h | h
      · exact .inr ⟨_, h⟩
      · exact .inr ⟨_, h⟩
  | branch c t e =>
    simp only [hk, operands, mem_singleton, Bool.and_eq_true] at h hv
    exact .inr ⟨_, hv ▸ h.1⟩
  | ret u =>
    rw [hk] at hv
    cases u with
    | none => cases hv
    | some u =>
      simp only [hk, Bool.and_eq_true] at h
      obtain rfl := mem_singleton.mp hv
      exact .inr ⟨_, h.1⟩
  | phi es =>
    simp only [hk, operands, mem_filterMap, Bool.and_eq_true, all_eq_true,
      Option.all_eq_true] at h hv
    obtain ⟨e, he, hev⟩ := hv
    exact .inr ⟨_, h.2 e he v hev⟩

lemma Scalar.not_alloc_of_hasType (hf : f.Scalar p) {j : InstId} (hj : f.placed j)
    (ht : f.hasType (.inst j) t) (s : Ty) : f.instr j ≠ .alloc s := by
  intro hk
  have htyped := hf.isWellTyped hj
  simp only [Program.isWellTyped, hk, Bool.and_eq_true, decide_eq_true_eq] at htyped
  simp only [hasType, typeOf?, htyped.1.2, Bool.and_eq_true, decide_eq_true_eq,
    Option.some.injEq] at ht
  rw [← ht.2] at ht
  cases ht.1

end Func

end MiddleEnd
