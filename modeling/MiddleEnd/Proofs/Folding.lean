import Mathlib.Data.Int.ModEq
import MiddleEnd.Builder
import MiddleEnd.Machine.Run

/-!
# Folding and execution

An operation on literals folds exactly if executing it succeeds, and then both yield the same value.
The machine looks at a divisor before it looks at the kinds of its operands, so a division by zero
is a fault whatever is divided.  Integers are those of 32 bits in two's complement.
-/

namespace MiddleEnd

open Option Value

variable {a b : Constant} {op : BinaryOp}

/-- An arithmetic operation, comparison or conversion whose operands are literals. -/
inductive Instr.OnLiterals : Instr → Prop
  | binary (op : BinaryOp) (a b : Constant) : OnLiterals (.binary op (.const a) (.const b))
  | icmp (cond : Cond) (a b : Constant) : OnLiterals (.icmp cond (.const a) (.const b))
  | fcmp (cond : Cond) (a b : Constant) : OnLiterals (.fcmp cond (.const a) (.const b))
  | cast (op : CastOp) (a : Constant) : OnLiterals (.cast op (.const a))

/-! ## Operations -/

/-- The result is the value of the literal, and a fault if there is none. -/
def Yields (x : Except Fault Value) (c? : Option Constant) : Prop :=
  x.toOption = c?.map ofConstant

lemma Yields.eq_ofConstant {x : Except Fault Value} {c? : Option Constant} {c : Constant} {v : Value}
    (hx : Yields x c?) (hc : c? = some c) (h : x.toOption = some v) : v = .ofConstant c := by
  rw [Yields, h, hc] at hx
  exact some.inj hx

lemma Value.asConstant_ofConstant (a : Constant) (operation : String) :
    (∃ t, a = .null t) ∨ asConstant (ofConstant a) operation = .ok a := by
  cases a with
  | null t => exact .inl ⟨t, rfl⟩
  | _ => exact .inr rfl

lemma Value.asInt_ofConstant {x : Int32} (operation : String) (h : a.asInt? = some x) :
    asInt (ofConstant a) operation = .ok x := by
  cases a with
  | int v | bool v => exact congrArg Except.ok (some.inj h)
  | _ => cases h

lemma Value.isZero_of_asBool {operation : String} {taken : Bool}
    (h : asBool (ofConstant a) operation = .ok taken) : a.isZero = !taken := by
  cases a with
  | int v | bool v =>
    obtain rfl := Except.ok.inj h
    simp [Constant.isZero]
  | _ => cases h

lemma Value.yields_compute (operation : String) (fold? : Constant → Constant → Option Constant)
    (hfold : ∀ t, fold? (.null t) b = none ∧ fold? a (.null t) = none) :
    Yields (compute operation fold? (.ofConstant a) (.ofConstant b)) (fold? a b) := by
  obtain ⟨t, rfl⟩ | ha := asConstant_ofConstant a operation
  · rw [(hfold t).1]
    rfl
  obtain ⟨t, rfl⟩ | hb := asConstant_ofConstant b operation
  · rw [(hfold t).2, compute, ha]
    rfl
  · rw [compute, ha, hb]
    simp only [bind, Except.bind]
    cases fold? a b <;> rfl

lemma Cond.yields_applyInt (cond : Cond) (a b : Constant) :
    Yields (cond.applyInt (.ofConstant a) (.ofConstant b)) (cond.foldInt? a b) :=
  yields_compute _ _ fun t => ⟨rfl, by cases a <;> rfl⟩

lemma Cond.yields_applyFloat (cond : Cond) (a b : Constant) :
    Yields (cond.applyFloat (.ofConstant a) (.ofConstant b)) (cond.foldFloat? a b) :=
  yields_compute _ _ fun t => ⟨rfl, by cases a <;> rfl⟩

lemma BinaryOp.fold?_of_asInt? (hop : op.isFloat = false) {x y : Int32} (hx : a.asInt? = some x)
    (hy : b.asInt? = some y) : op.fold? a b = (op.foldInt? x y).map .int := by
  rw [fold?, hop, hx, hy]
  cases hz : op.foldInt? x y <;> simp [hz]

lemma BinaryOp.fold?_of_zero (hop : op = sdiv ∨ op = srem) (a : Constant) (hb : b.asInt? = some 0) :
    op.fold? a b = none := by
  obtain rfl | rfl := hop <;> rw [fold?, hb] <;> cases a <;> rfl

lemma BinaryOp.apply_of_zero (hop : op = sdiv ∨ op = srem) (func : String) (v : Value)
    (hb : b.asInt? = some 0) :
    op.apply func v (.ofConstant b) = .error (.divisionByZero func) := by
  rw [apply, if_pos hop, asInt_ofConstant op.name hb]
  rfl

lemma BinaryOp.yields_apply (op : BinaryOp) (func : String) (a b : Constant) :
    Yields (op.apply func (.ofConstant a) (.ofConstant b)) (op.fold? a b) := by
  have hcompute :
      Yields (compute op.name op.fold? (.ofConstant a) (.ofConstant b)) (op.fold? a b) := by
    refine yields_compute _ _ fun t => ?_
    unfold fold?
    cases op.isFloat <;> cases a <;> exact ⟨rfl, rfl⟩
  by_cases hop : op = sdiv ∨ op = srem
  · cases hb : b.asInt? with
    | none =>
      have hnone : op.fold? a b = none := by
        obtain rfl | rfl := hop <;> rw [fold?, hb] <;> cases a <;> rfl
      rw [hnone, apply, if_pos hop]
      cases b <;> first | rfl | cases hb
    | some y =>
      by_cases hzero : y = 0
      · subst hzero
        rw [fold?_of_zero hop a hb, apply_of_zero hop func _ hb]
        rfl
      · rw [apply, asInt_ofConstant op.name hb]
        simpa [bind, Except.bind, hzero] using hcompute
  · rw [apply, if_neg hop]
    exact hcompute

lemma CastOp.yields_apply (op : CastOp) (a : Constant) (ty : Ty) :
    Yields (op.apply (.ofConstant a) ty) (op.fold? a ty) := by
  cases a <;> cases op <;> rfl

/-! ## Integers -/

/-- The exact result of an integer operation, which has none on a zero divisor. -/
def BinaryOp.unbounded? (op : BinaryOp) (x y : Int) : Option Int :=
  match op with
  | add => some (x + y)
  | sub => some (x - y)
  | mul => some (x * y)
  | sdiv => if y = 0 then none else some (x.tdiv y)
  | srem => if y = 0 then none else some (x.tmod y)
  | _ => none

lemma BinaryOp.toInt_foldInt? (op : BinaryOp) (x y : Int32) :
    (op.foldInt? x y).map Int32.toInt =
      (op.unbounded? x.toInt y.toInt).map fun n => n.bmod (2 ^ 32) := by
  have hzero : y.toInt = 0 ↔ y = 0 := by
    rw [← Int32.toInt_inj]
    rfl
  cases op with
  | add => exact congrArg some (Int32.toInt_add x y)
  | sub => exact congrArg some (Int32.toInt_sub x y)
  | mul => exact congrArg some (Int32.toInt_mul x y)
  | sdiv =>
    simp only [foldInt?, unbounded?, hzero]
    split
    · rfl
    · exact congrArg some (Int32.toInt_div x y)
  | srem =>
    simp only [foldInt?, unbounded?, hzero]
    split
    · rfl
    · rw [← Int32.toInt_mod]
      exact congrArg some (Int32.toInt_bmod _).symm
  | _ => rfl

/-- Quotient and remainder: the minimum divided by minus one is the minimum again. -/
lemma toInt_modEq_div_mul_add_mod (x y : Int32) :
    x.toInt ≡ (x / y).toInt * y.toInt + (x % y).toInt [ZMOD 2 ^ 32] := by
  have hquot : (x / y).toInt ≡ x.toInt.tdiv y.toInt [ZMOD 2 ^ 32] := by
    rw [Int32.toInt_div]
    exact Int.bmod_emod
  calc x.toInt = x.toInt.tdiv y.toInt * y.toInt + x.toInt.tmod y.toInt :=
        (Int.tdiv_mul_add_tmod _ _).symm
    _ ≡ (x / y).toInt * y.toInt + (x % y).toInt [ZMOD 2 ^ 32] := by
        rw [Int32.toInt_mod]
        exact ((hquot.mul_right _).add_right _).symm

lemma natAbs_toInt_mod_lt (x : Int32) {y : Int32} (hy : y ≠ 0) :
    (x % y).toInt.natAbs < y.toInt.natAbs := by
  have hne : y.toInt ≠ 0 := fun h => hy (Int32.toInt_inj.mp h)
  rw [Int32.toInt_mod, Int.natAbs_tmod]
  exact Nat.mod_lt _ (Int.natAbs_pos.mpr hne)

lemma sign_toInt_mod (x y : Int32) :
    (x % y).toInt = 0 ∨ (x % y).toInt.sign = x.toInt.sign := by
  rw [Int32.toInt_mod, Int.sign_tmod]
  split
  · next hdvd => exact .inl (Int.tmod_eq_zero_of_dvd hdvd)
  · exact .inr rfl

/-! ## Steps -/

section

variable (e : Image) (call : FuncId → List Value → Exec Value) (f : Func) (args : List Value)
  (regs : Registers) (i : InstId)

lemma step_binary (hk : f.instr i = .binary op (.const a) (.const b)) :
    e.step call f args regs i = do
      return .next (regs.insert i (← .lift (op.apply f.name (.ofConstant a) (.ofConstant b)))) := by
  rw [Image.step, hk]
  rfl

lemma step_onLiterals (hk : (f.instr i).OnLiterals) :
    ∃ x, Yields x ((f.instr i).fold? (f.inst i).ty) ∧
      e.step call f args regs i = do return .next (regs.insert i (← .lift x)) := by
  generalize hinstr : f.instr i = k at hk
  cases hk with
  | binary op a b => exact ⟨_, op.yields_apply f.name a b, step_binary e call f args regs i hinstr⟩
  | icmp cond a b => exact ⟨_, cond.yields_applyInt a b, by rw [Image.step, hinstr]; rfl⟩
  | fcmp cond a b => exact ⟨_, cond.yields_applyFloat a b, by rw [Image.step, hinstr]; rfl⟩
  | cast op a => exact ⟨_, op.yields_apply a _, by rw [Image.step, hinstr]; rfl⟩

lemma branch_eq_jump {t u target : BlockId} {s s' : Machine}
    (hk : f.instr i = .branch (.const a) t u)
    (h : e.step call f args regs i s = .ok (.jump target) s') :
    Build.branch (.const a) t u = Build.jump target := by
  have hstep : e.step call f args regs i = do
      return .jump (if ← .lift ((ofConstant a).asBool "br") then t else u) := by
    rw [Image.step, hk]
    rfl
  rw [hstep] at h
  cases htaken : (ofConstant a).asBool "br" with
  | error fault =>
    rw [htaken] at h
    cases h
  | ok taken =>
    rw [htaken] at h
    cases h
    change Build.jump (if a.isZero then u else t) = _
    rw [isZero_of_asBool htaken]
    cases taken <;> rfl

end

/-- An operation on literals folds exactly if executing it succeeds.  The result is then the value of
the folded literal, and otherwise there is a fault; a zero divisor is never folded and always at
fault.  Integers are the exact ones wrapped to 32 bits, and quotients and remainders obey the law of
division.  A branch on a literal that the machine accepts is built as a jump to where it goes. -/
theorem Image.step_agrees_with_fold (e : Image) (call : FuncId → List Value → Exec Value)
    (f : Func) (args : List Value) (regs : Registers) (i : InstId) (s : Machine) :
    ((f.instr i).OnLiterals →
      (∀ c, (f.instr i).fold? (f.inst i).ty = some c →
        e.step call f args regs i s = .ok (.next (regs.insert i (.ofConstant c))) s) ∧
      ((f.instr i).fold? (f.inst i).ty = none →
        ∃ fault, e.step call f args regs i s = .error (.fault fault) s)) ∧
    (∀ (op : BinaryOp) a b, op = .sdiv ∨ op = .srem → b.asInt? = some 0 → op.fold? a b = none ∧
      (f.instr i = .binary op (.const a) (.const b) →
        e.step call f args regs i s = .error (.fault (.divisionByZero f.name)) s)) ∧
    (∀ (op : BinaryOp) (a b : Constant) x y, op.isFloat = false → a.asInt? = some x → b.asInt? = some y →
      ∃ z? : Option Int32, op.fold? a b = z?.map .int ∧
        z?.map Int32.toInt = (op.unbounded? x.toInt y.toInt).map fun n => n.bmod (2 ^ 32)) ∧
    (∀ (a b : Constant) x y, a.asInt? = some x → b.asInt? = some y → y ≠ 0 →
      ∃ q r, BinaryOp.sdiv.fold? a b = some (.int q) ∧ BinaryOp.srem.fold? a b = some (.int r) ∧
        x.toInt ≡ q.toInt * y.toInt + r.toInt [ZMOD 2 ^ 32] ∧ r.toInt.natAbs < y.toInt.natAbs ∧
        (r.toInt = 0 ∨ r.toInt.sign = x.toInt.sign)) ∧
    ∀ cond t u target s', f.instr i = .branch (.const cond) t u →
      e.step call f args regs i s = .ok (.jump target) s' →
      Build.branch (.const cond) t u = Build.jump target := by
  refine ⟨fun hk => ?_, fun op a b hop hb => ?_, fun op a b x y hop hx hy => ?_,
    fun a b x y hx hy hne => ?_, fun cond t u target s' => branch_eq_jump e call f args regs i⟩
  · obtain ⟨x, hx, hstep⟩ := step_onLiterals e call f args regs i hk
    rw [hstep]
    cases x with
    | ok v =>
      obtain ⟨c, hc, rfl⟩ := map_eq_some_iff.mp hx.symm
      rw [hc]
      exact ⟨fun d hd => some.inj hd ▸ rfl, nofun⟩
    | error fault =>
      rw [map_eq_none_iff.mp hx.symm]
      exact ⟨nofun, fun _ => ⟨fault, rfl⟩⟩
  · refine ⟨BinaryOp.fold?_of_zero hop a hb, fun hk => ?_⟩
    rw [step_binary e call f args regs i hk, BinaryOp.apply_of_zero hop f.name _ hb]
    rfl
  · exact ⟨op.foldInt? x y, BinaryOp.fold?_of_asInt? hop hx hy, op.toInt_foldInt? x y⟩
  · refine ⟨x / y, x % y, ?_, ?_, toInt_modEq_div_mul_add_mod x y, natAbs_toInt_mod_lt x hne,
      sign_toInt_mod x y⟩
    · rw [BinaryOp.fold?_of_asInt? rfl hx hy, BinaryOp.foldInt?, if_neg hne, map_some]
    · rw [BinaryOp.fold?_of_asInt? rfl hx hy, BinaryOp.foldInt?, if_neg hne, map_some]

end MiddleEnd
