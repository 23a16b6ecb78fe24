import MiddleEnd.Proofs.History
import MiddleEnd.Proofs.Inlining.Expand
import MiddleEnd.Proofs.Machine.Frame

/-!
# Cleared slots

A copy of a function body clears the slots that it shares with earlier executions: a scalar by a store
of its zero, anything else by filling its cells with the integer zero.  A load then gives what it
gives after an allocation, except in arrays of truth values or addresses: their cells start as a
truth value or the null address, and a load does not turn an integer into one of these.
-/

namespace MiddleEnd

open Memory Value List Constant Image Exec Std

variable {t : Ty} {c : Constant}

/-! ## Cells -/

/-- What clearing leaves in each cell of an object of type `t`. -/
def Value.cleared (t : Ty) : Value :=
  ((zero? t).map ofConstant).getD (int 0)

/-- Is the integer zero, loaded from a cleared object, the zero of the type of its cells? -/
def Ty.clearsToZero (t : Ty) : Bool :=
  !t.isArray || t.cells = 0 || !(t.scalar = .i1 || t.scalar.isPointer)

lemma Ty.scalar_of_not_isArray (ht : t.isArray = false) : t.scalar = t ∧ t.cells = 1 := by
  cases t with
  | array n t => cases ht
  | _ => exact ⟨rfl, rfl⟩

lemma Ty.isArray_scalar (t : Ty) : t.scalar.isArray = false := by
  induction t using Ty.scalar.induct with
  | case1 n t ih => exact ih
  | case2 t ht =>
    cases t with
    | array n t => exact absurd rfl (ht n t)
    | _ => rfl

lemma Constant.isArray_of_zero? (h : zero? t = some c) : t.isArray = false := by
  cases t with
  | array n t => cases h
  | _ => rfl

lemma Value.readAs_cleared_iff (t : Ty) :
    (cleared t).readAs t.scalar = (initial t).readAs t.scalar ↔
      t.isArray = false ∨ ¬(t.scalar = .i1 ∨ t.scalar.isPointer) := by
  cases harray : t.isArray with
  | false =>
    obtain ⟨hscalar, -⟩ := Ty.scalar_of_not_isArray harray
    rw [initial, hscalar]
    exact iff_of_true rfl (.inl rfl)
  | true =>
    have hzero : cleared t = int 0 := by
      cases t with
      | array n t => rfl
      | _ => cases harray
    have hplain := t.isArray_scalar
    rw [hzero, initial]
    generalize t.scalar = u at hplain
    cases u with
    | array n u => cases hplain
    | float => exact iff_of_true rfl (.inr (by simp [Ty.isPointer]))
    | _ => simp [zero?, ofConstant, readAs, Ty.isPointer]

lemma Ty.clearsToZero_iff : t.clearsToZero ↔ t.cells = 0 ∨
    (cleared t).readAs t.scalar = (initial t).readAs t.scalar := by
  rw [readAs_cleared_iff, clearsToZero]
  cases t.isArray <;> simp

namespace Memory

def read (m : Memory) (a : Nat) (t : Ty) : Except Fault Value :=
  (m.load a).map (·.readAs t)

lemma read_of_getElem? {m : Memory} {a : Nat} {v : Value} (h : m.cells[a]? = some v) (t : Ty) :
    m.read a t = .ok (v.readAs t) := by
  rw [read, load, h]
  rfl

lemma getElem?_setRange (m : Memory) (a count : Nat) (v : Value) (k : Nat) :
    (m.setRange a count v).cells[k]? =
      if a ≤ k ∧ k < a + count ∧ k < m.size then some v else m.cells[k]? := by
  rw [setRange, Array.getElem?_mapIdx, size]
  by_cases hk : k < m.cells.size
  · grind
  · rw [Array.getElem?_eq_none (Nat.le_of_not_lt hk), Option.map_none, if_neg fun h => hk h.2.2]

@[simp] lemma size_setRange (m : Memory) (a count : Nat) (v : Value) :
    (m.setRange a count v).size = m.size := by
  simp [setRange, size]

lemma set_eq_setRange (m : Memory) (a : Nat) (v : Value) : m.set a v = m.setRange a 1 v := by
  rw [set]
  congr 1
  refine Array.ext (by simp) fun k hk _ => ?_
  rw [Array.getElem_setIfInBounds (by simpa using hk), Array.getElem_mapIdx]
  by_cases h : a = k
  · rw [if_pos h, if_pos (by omega)]
  · rw [if_neg h, if_neg (by omega)]

lemma getElem?_grow (m : Memory) (count : Nat) (v : Value) {k : Nat} (hk : k < count) :
    (m.grow count v).cells[m.size + k]? = some v := by
  simp [grow, size, hk]

end Memory

/-! ## Executed instructions -/

/-- The function is declared as the built-in one that fills memory. -/
structure Program.Fills (p : Program) (fill : FuncId) : Prop where
  hasFunc : p.hasFunc fill
  deleted : (p.func fill).deleted = false
  external : (p.func fill).external
  name : (p.func fill).name = Builtin.memset.name
  params : (p.func fill).params.size = 3

namespace Image

variable {a : Nat} {i : InstId} {e : Image} {call : FuncId → List Value → Exec Value} {f : Func}
  {args : List Value} {b : BlockId} {regs regs' : Registers} {s s' : Machine} {fill : FuncId}
  {slot : InstId} {size : Int32} {s₁ : Machine} {depth : Nat} {regs₁ : Registers}

/-- Executing `is` in the block `b` leads to the given registers and machine, whatever follows. -/
def Executes (e : Image) (call : FuncId → List Value → Exec Value) (f : Func) (args : List Value)
    (b : BlockId) (is : List InstId) (regs : Registers) (s : Machine) (regs' : Registers)
    (s' : Machine) : Prop :=
  ∀ rest, e.runInsts call f args b regs (is ++ rest) s = e.runInsts call f args b regs' rest s'

lemma Executes.nil : e.Executes call f args b [] regs s regs s :=
  fun _ => rfl

lemma Executes.cons {is : List InstId}
    (hphi : (f.instr i).isPhi = false)
    (hlim : e.limits.instructions.toNat ≠ 0 → s.steps + 1 ≤ e.limits.instructions.toNat)
    (hstep : e.step call f args regs i { s with steps := s.steps + 1 } = .ok (.next regs₁) s₁)
    (h : e.Executes call f args b is regs₁ s₁ regs' s') :
    e.Executes call f args b (i :: is) regs s regs' s' := by
  intro rest
  rw [cons_append, runInsts_step _ _ _ _ _ _ hphi,
    bind_of_ok (tick_eq_ok_iff.mpr ⟨hlim, rfl⟩), bind_of_ok hstep]
  exact h rest

lemma Executes.append {is js : List InstId}
    (h : e.Executes call f args b is regs s regs₁ s₁)
    (h' : e.Executes call f args b js regs₁ s₁ regs' s') :
    e.Executes call f args b (is ++ js) regs s regs' s' := by
  intro rest
  rw [List.append_assoc, h, h']

lemma step_store_const
    (hinstr : f.instr i = .store (.const c) (.inst slot)) (hslot : regs[slot]? = some (.ptr a))
    (ha : a < s.memory.size) : e.step call f args regs i s =
      .ok (.next regs) { s with memory := s.memory.set a (.ofConstant c) } := by
  have hval : e.eval args regs (.const c) s = .ok (.ofConstant c) s := rfl
  have hptr : e.eval args regs (.inst slot) s = .ok (.ptr a) s := by
    simp only [eval, hslot]
    rfl
  have haddr : lift ((ptr a).asPtr "store") s = .ok a s := rfl
  rw [step, hinstr]
  dsimp only
  rw [bind_of_ok hval, bind_of_ok hptr, bind_of_ok haddr,
    bind_of_ok (store_eq_ok_iff.mpr ⟨ha, rfl⟩)]
  rfl

lemma step_bitcast (hinstr : f.instr i = .cast .bitcast (.inst slot))
    (hslot : regs[slot]? = some (.ptr a)) :
    e.step call f args regs i s = .ok (.next (regs.insert i (.ptr a))) s := by
  have hptr : e.eval args regs (.inst slot) s = .ok (.ptr a) s := by
    simp only [eval, hslot]
    rfl
  rw [step, hinstr]
  dsimp only
  rw [bind_of_ok hptr]
  rfl

lemma call_fill (hfill : e.program.Fills fill)
    (hcovers : s.memory.covers a (size.toInt.toNat / 4)) :
    e.call depth fill [.ptr a, .int 0, .int size] s =
      .ok .void { s with memory := s.memory.setRange a (size.toInt.toNat / 4) (.int 0) } := by
  have hbuiltin : Builtin.ofName? (e.program.func fill).name = some .memset := by
    rw [hfill.name]
    rfl
  have hfilled : Exec.fill a (size.toInt.toNat / 4) (.int 0) s =
      .ok () { s with memory := s.memory.setRange a (size.toInt.toNat / 4) (.int 0) } := by
    have hget : (get : Exec Machine) s = .ok s s := rfl
    simp only [Exec.fill, bind, EStateM.bind, hget, hcovers]
    rfl
  rw [call]
  simp only [hfill.hasFunc, hfill.deleted, hfill.external, hfill.params, hbuiltin]
  exact bind_of_ok hfilled

lemma step_fill {raw : InstId} (hfill : e.program.Fills fill)
    (hinstr : f.instr i = .call fill [.inst raw, .int 0, .int size] none)
    (hraw : regs[raw]? = some (.ptr a)) (hcovers : s.memory.covers a (size.toInt.toNat / 4)) :
    e.step (e.call depth) f args regs i s = .ok (.next (regs.insert i .void))
      { s with memory := s.memory.setRange a (size.toInt.toNat / 4) (.int 0) } := by
  have hvals : e.evalAll args regs [.inst raw, .int 0, .int size] s =
      .ok [.ptr a, .int 0, .int size] s := by
    simp only [evalAll, eval, hraw]
    rfl
  rw [step, hinstr]
  dsimp only
  rw [bind_of_ok hvals, bind_of_ok (call_fill hfill hcovers)]
  rfl

end Image

/-! ## Clearing -/

namespace Inlining

variable {t : Ty} {i : InstId} {k : Nat} {kind : InstId → Instr} {addr : InstId → Nat}
  {memset : Option FuncId} {n : Nat} {slots : List InstId} {code : List (Instr × Ty)} {f : Func}
  {size : Int32} {a : Nat}

lemma toNat_div_four_of_byteSize? (h : byteSize? t = some size) :
    size.toInt.toNat / 4 = t.cells := by
  unfold byteSize? at h
  split at h
  · next hlt =>
    obtain rfl := Option.some.inj h
    rw [Int32.toInt_ofNat_of_lt (by omega)]
    omega
  · cases h

/-- Memory after the slots at the given addresses have been cleared. -/
def clearAll (kind : InstId → Instr) (addr : InstId → Nat) (m : Memory) : List InstId → Memory
  | [] => m
  | i :: is =>
    match kind i with
    | .alloc t => clearAll kind addr (m.setRange (addr i) t.cells (.cleared t)) is
    | _ => clearAll kind addr m is

lemma clearAll_cons (halloc : kind i = .alloc t) (m : Memory) (is : List InstId) :
    clearAll kind addr m (i :: is) =
      clearAll kind addr (m.setRange (addr i) t.cells (.cleared t)) is := by
  rw [clearAll, halloc]

/-- The slots have their addresses in registers, and each has cells of its own in memory. -/
structure Held (kind : InstId → Instr) (addr : InstId → Nat) (slots : List InstId)
    (regs : Registers) (m : Memory) : Prop where
  register : ∀ i ∈ slots, regs[i]? = some (.ptr (addr i))
  covered : ∀ i ∈ slots, ∀ t, kind i = .alloc t → m.covers (addr i) t.cells
  apart : slots.Pairwise fun i j => ∀ t u, kind i = .alloc t → kind j = .alloc u →
    addr i + t.cells ≤ addr j ∨ addr j + u.cells ≤ addr i

lemma Held.tail {regs regs' : Registers} {m m' : Memory} (h : Held kind addr (i :: slots) regs m)
    (hregs : ∀ j ∈ slots, regs'[j]? = regs[j]?) (hsize : m'.size = m.size) :
    Held kind addr slots regs' m' where
  register j hj := (hregs j hj).trans (h.register j (.tail i hj))
  covered j hj t halloc := by
    rw [covers, hsize]
    exact h.covered j (.tail i hj) t halloc
  apart := h.apart.of_cons

section Executes

variable {e : Image} {g : Func} {depth : Nat} {args : List Value} {b : BlockId} {regs : Registers}
  {s : Machine} {slot : InstId}

/-- The machine after `count` more instructions, which have cleared an object of type `t`. -/
def clearedAt (s : Machine) (count a : Nat) (t : Ty) : Machine :=
  { s with memory := s.memory.setRange a t.cells (.cleared t), steps := s.steps + count }

lemma steps_clearedAt (s : Machine) (count a : Nat) (t : Ty) :
    (clearedAt s count a t).steps = s.steps + count :=
  rfl

lemma executes_store {zero : Constant} (hzero : zero? t = some zero)
    (hinstr : g.instr ⟨n⟩ = .store (.const zero) (.inst slot))
    (hslot : regs[slot]? = some (.ptr a)) (hcovers : s.memory.covers a t.cells)
    (hlim : e.limits.instructions.toNat ≠ 0 → s.steps + 1 ≤ e.limits.instructions.toNat) :
    e.Executes (e.call depth) g args b [⟨n⟩] regs s regs (clearedAt s 1 a t) := by
  have hcells := (Ty.scalar_of_not_isArray (isArray_of_zero? hzero)).2
  have hcleared : cleared t = .ofConstant zero := by
    rw [cleared, hzero]
    rfl
  rw [covers, hcells, decide_eq_true_eq] at hcovers
  rw [clearedAt, hcells, hcleared, ← set_eq_setRange]
  refine .cons (by rw [hinstr]; rfl) hlim ?_ .nil
  exact step_store_const hinstr hslot (Nat.lt_of_succ_le hcovers)

lemma executes_fill (hzero : zero? t = none) {fill : FuncId} (hfill : e.program.Fills fill)
    (hsize : byteSize? t = some size)
    (hcast : g.instr ⟨n⟩ = .cast .bitcast (.inst slot))
    (hcall : g.instr ⟨n + 1⟩ = .call fill [.inst ⟨n⟩, .int 0, .int size] none)
    (hslot : regs[slot]? = some (.ptr a)) (hcovers : s.memory.covers a t.cells)
    (hlim : e.limits.instructions.toNat ≠ 0 → s.steps + 2 ≤ e.limits.instructions.toNat) :
    e.Executes (e.call depth) g args b [⟨n⟩, ⟨n + 1⟩] regs s
      ((regs.insert ⟨n⟩ (.ptr a)).insert ⟨n + 1⟩ .void) (clearedAt s 2 a t) := by
  have hcleared : cleared t = .int 0 := by
    rw [cleared, hzero]
    rfl
  rw [← toNat_div_four_of_byteSize? hsize] at hcovers
  rw [clearedAt, hcleared, ← toNat_div_four_of_byteSize? hsize]
  refine .cons (by rw [hcast]; rfl) (fun h => ?_) (step_bitcast hcast hslot) ?_
  · exact Nat.le_of_succ_le (hlim h)
  · refine .cons (by rw [hcall]; rfl) hlim ?_ .nil
    exact step_fill hfill hcall HashMap.getElem?_insert_self hcovers

lemma Clears.executes (h : Clears kind memset n slots code)
    (hcode : ∀ k p, code[k]? = some p → g.instr ⟨n + k⟩ = p.1)
    (hold : ∀ i ∈ slots, i.idx < n) (hfill : ∀ fill ∈ memset, e.program.Fills fill)
    (hheld : Held kind addr slots regs s.memory)
    (hlim : e.limits.instructions.toNat ≠ 0 →
      s.steps + code.length ≤ e.limits.instructions.toNat) :
    ∃ regs' s', e.Executes (e.call depth) g args b (idsFrom n code.length)
      regs s regs' s' ∧ s'.memory = clearAll kind addr s.memory slots := by
  induction h generalizing regs s with
  | nil n => exact ⟨regs, s, .nil, rfl⟩
  | @scalar n slot slots code t zero halloc hzero hrest ih =>
    rw [forall_mem_cons] at hold
    rw [length_cons] at hlim
    have hfirst : e.Executes (e.call depth) g args b [⟨n⟩] regs s regs
        (clearedAt s 1 (addr slot) t) :=
      executes_store hzero (hcode 0 _ rfl) (hheld.register slot (.head _))
        (hheld.covered slot (.head _) t halloc) fun h => by omega
    obtain ⟨regs', s', hothers, hmemory⟩ := ih (s := clearedAt s 1 (addr slot) t)
      (fun k p hk => by rw [Nat.add_assoc, Nat.add_comm 1]; exact hcode (k + 1) p hk)
      (fun i hi => Nat.lt_succ_of_lt (hold.2 i hi))
      (hheld.tail (fun _ _ => rfl) (size_setRange ..))
      (fun h => by have := hlim h; rw [steps_clearedAt]; omega)
    refine ⟨regs', s', ?_, by rw [hmemory, clearAll_cons halloc, clearedAt]⟩
    exact hfirst.append hothers
  | @array n slot slots code t fill size halloc hzero hset hsize hrest ih =>
    rw [forall_mem_cons] at hold
    rw [length_cons, length_cons] at hlim
    have hfirst : e.Executes (e.call depth) g args b [⟨n⟩, ⟨n + 1⟩] regs s
        ((regs.insert ⟨n⟩ (.ptr (addr slot))).insert ⟨n + 1⟩ .void)
        (clearedAt s 2 (addr slot) t) :=
      executes_fill hzero (hfill fill hset) hsize (hcode 0 _ rfl) (hcode 1 _ rfl)
        (hheld.register slot (.head _)) (hheld.covered slot (.head _) t halloc)
        fun h => by omega
    have hkept (i : InstId) (hi : i ∈ slots) :
        ((regs.insert ⟨n⟩ (.ptr (addr slot))).insert ⟨n + 1⟩ .void)[i]? = regs[i]? := by
      have hne : (⟨n⟩ : InstId) ≠ i ∧ (⟨n + 1⟩ : InstId) ≠ i := by grind
      rw [HashMap.getElem?_insert, HashMap.getElem?_insert, if_neg (by simpa using hne.2),
        if_neg (by simpa using hne.1)]
    obtain ⟨regs', s', hothers, hmemory⟩ := ih (s := clearedAt s 2 (addr slot) t)
      (fun k p hk => by rw [Nat.add_assoc, Nat.add_comm 2]; exact hcode (k + 2) p hk)
      (fun i hi => Nat.lt_add_right 2 (hold.2 i hi))
      (hheld.tail hkept (size_setRange ..))
      (fun h => by have := hlim h; rw [steps_clearedAt]; omega)
    refine ⟨regs', s', ?_, by rw [hmemory, clearAll_cons halloc, clearedAt]⟩
    exact hfirst.append hothers

end Executes

/-! ## Fresh slots -/

lemma getElem?_clearAll_of_forall (m : Memory)
    (h : ∀ i ∈ slots, ∀ t, kind i = .alloc t → k < addr i ∨ addr i + t.cells ≤ k) :
    (clearAll kind addr m slots).cells[k]? = m.cells[k]? := by
  induction slots generalizing m with
  | nil => rfl
  | cons i slots ih =>
    rw [forall_mem_cons] at h
    rw [clearAll]
    split
    · next t halloc =>
      rw [ih _ h.2, getElem?_setRange, if_neg]
      have := h.1 t halloc
      omega
    · exact ih m h.2

lemma Held.getElem?_clearAll {regs : Registers} {m : Memory} (h : Held kind addr slots regs m)
    (hi : i ∈ slots) (halloc : kind i = .alloc t) (hk : k < t.cells) :
    (clearAll kind addr m slots).cells[addr i + k]? = some (.cleared t) := by
  induction slots generalizing m with
  | nil => cases hi
  | cons j slots ih =>
    rcases mem_cons.mp hi with rfl | hi
    · have hcovered := h.covered i (.head _) t halloc
      rw [covers, decide_eq_true_eq] at hcovered
      rw [clearAll_cons halloc, getElem?_clearAll_of_forall, getElem?_setRange, if_pos]
      · omega
      · intro j hj u hu
        have := rel_of_pairwise_cons h.apart hj t u halloc hu
        omega
    · rw [clearAll]
      split
      · exact ih (h.tail (fun _ _ => rfl) (size_setRange ..)) hi
      · exact ih (h.tail (fun _ _ => rfl) rfl) hi

lemma read_of_step_alloc {e : Image} {call : FuncId → List Value → Exec Value}
    {args : List Value} {r r' : Registers} {u v : Machine} (halloc : f.instr i = .alloc t)
    (hstep : e.step call f args r i u = .ok (.next r') v) (ha : r'[i]? = some (.ptr a))
    (hk : k < t.cells) (t' : Ty) :
    v.memory.read (a + k) t' = .ok ((initial t).readAs t') := by
  rw [step, halloc] at hstep
  obtain ⟨a', v', hallocate, hres⟩ := bind_eq_ok hstep
  obtain ⟨-, rfl, rfl⟩ := allocate_eq_ok_iff.mp hallocate
  obtain ⟨hnext, rfl⟩ := EStateM.Result.ok.inj hres
  obtain rfl := Flow.next.inj hnext
  rw [HashMap.getElem?_insert_self] at ha
  obtain rfl := ptr.inj (Option.some.inj ha)
  exact read_of_getElem? (getElem?_grow _ _ _ hk) t'

lemma hasInst_of_alloc (h : f.instr i = .alloc t) : f.hasInst i := by
  by_contra hi
  rw [Func.instr, Func.inst_of_not_hasInst f (Bool.eq_false_iff.mpr hi)] at h
  cases h

/-- Clearing slots at the start of a block puts code there that clears them in memory. -/
lemma exists_executes_of_clearSlots {w w' : Work} {b : BlockId} (hf : w.func.Consistent)
    (hslots : ∀ i ∈ slots, ∃ t, w.func.instr i = .alloc t)
    (hclear : clearSlots memset slots b w = .ok () w') :
    ∃ is, w'.func.instsOf b = is ++ w.func.instsOf b ∧
      ∀ (e : Image) (depth : Nat) (args : List Value) (regs : Registers) (addr : InstId → Nat)
        (s : Machine), (∀ fill ∈ memset, e.program.Fills fill) →
        Held w.func.instr addr slots regs s.memory →
        (e.limits.instructions.toNat ≠ 0 →
          s.steps + is.length ≤ e.limits.instructions.toNat) →
        ∃ regs' s', e.Executes (e.call depth) w'.func args b is regs s regs' s' ∧
          s'.memory = clearAll w.func.instr addr s.memory slots := by
  have hhas (i : InstId) (hi : i ∈ slots) : w.func.hasInst i := by
    obtain ⟨t, halloc⟩ := hslots i hi
    exact hasInst_of_alloc halloc
  obtain ⟨first, rest, code, hlist, hclears, hcode⟩ :=
    clearSlots_eq_ok hf (fun i hi => ⟨hhas i hi, hslots i hi⟩) hclear
  obtain ⟨hadds, hlists⟩ := foldl_insertBefore hf (l := []) hlist code
  rw [← hcode] at hadds hlists
  refine ⟨idsFrom w.func.insts.size code.length, ?_, ?_⟩
  · grind
  · intro e depth args regs addr s hfill hheld hlim
    rw [length_map, length_range'] at hlim
    exact hclears.executes (fun k p hk => (hadds.new k p hk).1)
      (fun i hi => (w.func.hasInst_iff).mp (hhas i hi)) hfill hheld hlim

/-- Clearing slots at the start of a block puts code there.  After its execution, which always
succeeds, loads from a slot give what they give after its allocation, exactly if it is not an array
of truth values or addresses. -/
theorem clearSlots_fresh_iff {w w' : Work} {b : BlockId} (hf : w.func.Consistent)
    (hslots : ∀ i ∈ slots, ∃ t, w.func.instr i = .alloc t)
    (hclear : clearSlots memset slots b w = .ok () w') :
    ∃ is, w'.func.instsOf b = is ++ w.func.instsOf b ∧
      ∀ (e : Image) (depth : Nat) (args : List Value) (regs : Registers) (addr : InstId → Nat)
        (s : Machine), (∀ fill ∈ memset, e.program.Fills fill) →
        Held w.func.instr addr slots regs s.memory →
        (e.limits.instructions.toNat ≠ 0 →
          s.steps + is.length ≤ e.limits.instructions.toNat) →
        ∃ regs' s', e.Executes (e.call depth) w'.func args b is regs s regs' s' ∧
          ∀ i ∈ slots, ∀ t, w.func.instr i = .alloc t →
            ∀ (r r' : Registers) (u v : Machine) (a : Nat),
              e.step (e.call depth) w.func args r i u = .ok (.next r') v →
              r'[i]? = some (.ptr a) →
              ((∀ k < t.cells, s'.memory.read (addr i + k) t.scalar =
                v.memory.read (a + k) t.scalar) ↔ t.clearsToZero = true) := by
  obtain ⟨is, hlist, hexec⟩ := exists_executes_of_clearSlots hf hslots hclear
  refine ⟨is, hlist, fun e depth args regs addr s hfill hheld hlimit => ?_⟩
  obtain ⟨regs', s', hexec, hmemory⟩ := hexec e depth args regs addr s hfill hheld hlimit
  refine ⟨regs', s', hexec, fun i hi t halloc r r' u v a hstep ha => ?_⟩
  have hread (k : Nat) (hk : k < t.cells) : s'.memory.read (addr i + k) t.scalar =
      v.memory.read (a + k) t.scalar ↔
        (Value.cleared t).readAs t.scalar = (Value.initial t).readAs t.scalar := by
    rw [hmemory, Memory.read_of_getElem? (hheld.getElem?_clearAll hi halloc hk),
      read_of_step_alloc halloc hstep ha hk, Except.ok.injEq]
  rw [Ty.clearsToZero_iff, forall₂_congr hread]
  constructor
  · intro h
    exact (Nat.eq_zero_or_pos t.cells).imp_right fun hpos => h 0 hpos
  · grind

/-- A function with a slot of type `t` and a scalar slot, which are both shared by its second
block. -/
def sharing (t : Ty) : Func :=
  Edit.applyAll (.new "f" .void [])
    [.addBlock "entry", .addBlock "body",
      .append ⟨0⟩ (.alloc t) (.pointer t),
      .append ⟨0⟩ (.alloc .i1) (.pointer .i1),
      .append ⟨0⟩ (.jump (some ⟨1⟩)) .void,
      .append ⟨1⟩ (.ret none) .void]

/-- Clears both slots at the start of the second block. -/
def clearShared (t : Ty) : EStateM.Result Error Work Unit :=
  clearSlots (some ⟨1⟩) [⟨0⟩, ⟨1⟩] ⟨1⟩ { func := sharing t }

lemma exists_clearShared
    (h : (match clearShared t with | .ok _ _ => true | .error _ _ => false) = true) :
    ∃ w, clearShared t = .ok () w := by
  split at h
  · next w hw => exact ⟨w, hw⟩
  · cases h

/-- A program with the function and the declaration of `memset`, without a limit on instructions. -/
def sharingImage (t : Ty) : Image where
  program := { funcs := #[sharing t,
    { Func.new Builtin.memset.name .void Builtin.memset.params with external := true }] }
  limits := { instructions := 0 }

lemma fills_sharingImage (t : Ty) : (sharingImage t).program.Fills ⟨1⟩ :=
  ⟨rfl, rfl, rfl, rfl, rfl⟩

/-- The registers after the slots have been allocated. -/
def sharingRegisters : Registers :=
  ((∅ : Registers).insert ⟨0⟩ (.ptr 0)).insert ⟨1⟩ (.ptr 2)

/-- Memory with old values in all cells of the slots. -/
def usedMemory : Memory where
  cells := #[.float ⟨5⟩, .ptr 1, .bool true]
  limit := 8

lemma held_sharing (ht : t.cells = 2) (hfirst : (sharing t).instr ⟨0⟩ = .alloc t)
    (hsecond : (sharing t).instr ⟨1⟩ = .alloc .i1) :
    Held (sharing t).instr (fun i => 2 * i.idx) [⟨0⟩, ⟨1⟩] sharingRegisters usedMemory := by
  constructor
  · simp [sharingRegisters, HashMap.getElem?_insert]
  · simp [hfirst, hsecond, ht, Memory.covers, Memory.size, usedMemory, Ty.cells]
  · simp [hfirst, hsecond, ht]

lemma step_sharing (ht : t.cells = 2) (hfirst : (sharing t).instr ⟨0⟩ = .alloc t) :
    (sharingImage t).step ((sharingImage t).call 1) (sharing t) [] ∅ ⟨0⟩
        { memory := { limit := 8 } } =
      .ok (.next ((∅ : Registers).insert ⟨0⟩ (.ptr 0)))
        { memory := { cells := #[.initial t, .initial t], limit := 8 } } := by
  rw [step, hfirst]
  dsimp only
  rw [ht]
  rfl

theorem clearSlots_fresh_sharing :
    ∃ w is regs s, clearShared (.array 2 .float) = .ok () w ∧ w.func.instsOf ⟨1⟩ = is ++ [⟨3⟩] ∧
      (sharingImage (.array 2 .float)).Executes ((sharingImage (.array 2 .float)).call 1) w.func []
        ⟨1⟩ is sharingRegisters { memory := usedMemory } regs s ∧
      ∀ k < 2, s.memory.read k .float = .ok (.float .zero) := by
  have hfirst : (sharing (.array 2 .float)).instr ⟨0⟩ = .alloc (.array 2 .float) := by
    decide +kernel
  have hsecond : (sharing (.array 2 .float)).instr ⟨1⟩ = .alloc .i1 := by decide +kernel
  obtain ⟨w, hclear⟩ := exists_clearShared (t := .array 2 .float) (by decide +kernel)
  obtain ⟨is, hlist, hexec⟩ := clearSlots_fresh_iff (by decide) (by simp [hfirst, hsecond]) hclear
  obtain ⟨regs, s, hexec, hfresh⟩ := hexec (sharingImage (.array 2 .float)) 1 [] sharingRegisters
    (fun i => 2 * i.idx) { memory := usedMemory } (by simp [fills_sharingImage])
    (held_sharing rfl hfirst hsecond) (fun h => absurd rfl h)
  have hsame := (hfresh ⟨0⟩ (by simp) _ hfirst _ _ _ _ 0 (step_sharing rfl hfirst)
    Std.HashMap.getElem?_insert_self).mpr (by decide +kernel)
  refine ⟨w, is, regs, s, hclear, hlist, hexec, fun k hk => ?_⟩
  have hread := hsame k hk
  rw [Nat.mul_zero, Nat.zero_add] at hread
  refine hread.trans ?_
  match k, hk with
  | 0, _ => rfl
  | 1, _ => rfl

/-- An array of truth values does not come to hold truth values again. -/
theorem exists_clearSlots_not_fresh :
    ∃ (e : Image) (w w' : Work) (fill : FuncId) (is : List InstId) (regs regs' r : Registers)
      (s s' u v : Machine), w.func.Consistent ∧ e.program.Fills fill ∧
      w.func.instr ⟨0⟩ = .alloc (.array 2 .i1) ∧
      clearSlots (some fill) [⟨0⟩, ⟨1⟩] ⟨1⟩ w = .ok () w' ∧
      w'.func.instsOf ⟨1⟩ = is ++ w.func.instsOf ⟨1⟩ ∧ regs[(⟨0⟩ : InstId)]? = some (.ptr 0) ∧
      e.Executes (e.call 1) w'.func [] ⟨1⟩ is regs s regs' s' ∧
      e.step (e.call 1) w.func [] ∅ ⟨0⟩ u = .ok (.next r) v ∧ r[(⟨0⟩ : InstId)]? = some (.ptr 0) ∧
      s'.memory.read 0 .i1 = .ok (.int 0) ∧ v.memory.read 0 .i1 = .ok (.bool false) := by
  have hfirst : (sharing (.array 2 .i1)).instr ⟨0⟩ = .alloc (.array 2 .i1) := by decide +kernel
  have hsecond : (sharing (.array 2 .i1)).instr ⟨1⟩ = .alloc .i1 := by decide +kernel
  have hconsistent : (sharing (.array 2 .i1)).Consistent := by decide
  have hheld := held_sharing (t := .array 2 .i1) rfl hfirst hsecond
  obtain ⟨w, hclear⟩ := exists_clearShared (t := .array 2 .i1) (by decide +kernel)
  obtain ⟨is, hlist, hexec⟩ :=
    exists_executes_of_clearSlots hconsistent (by simp [hfirst, hsecond]) hclear
  obtain ⟨regs, s, hexec, hmemory⟩ := hexec (sharingImage (.array 2 .i1)) 1 [] sharingRegisters
    (fun i => 2 * i.idx) { memory := usedMemory } (by simp [fills_sharingImage]) hheld
    (fun h => absurd rfl h)
  refine ⟨_, _, w, ⟨1⟩, is, _, regs, _, _, s, _, _, hconsistent, fills_sharingImage _, hfirst,
    hclear, hlist, hheld.register ⟨0⟩ (by simp), hexec, step_sharing rfl hfirst,
    Std.HashMap.getElem?_insert_self, ?_, rfl⟩
  have hcell := hheld.getElem?_clearAll (i := ⟨0⟩) (by simp) hfirst (k := 0) (by decide)
  rw [hmemory]
  exact Memory.read_of_getElem? hcell .i1

end Inlining

end MiddleEnd
