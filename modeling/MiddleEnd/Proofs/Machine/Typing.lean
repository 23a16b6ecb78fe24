import MiddleEnd.Proofs.Machine.Frame
import MiddleEnd.Proofs.Scalar
import MiddleEnd.Proofs.SsaEdits

/-!
# Types of values at run time

In a run of a scalar program every register, slot and global holds a value of its type, and a slot is
there from its allocation on.  This is shown for runs without addresses: one lemma for what an
instruction does, one for entering a block, and from these for whole runs and for calls.
-/

namespace MiddleEnd

open List Bool Program Exec Func Function

variable {α : Type} {v : Value}

lemma Instr.operandFrom?_mapOperands (ρ : Operand → Operand) (k : Instr) (pred : Option BlockId) :
    (k.mapOperands ρ).operandFrom? pred = (k.operandFrom? pred).map ρ := by
  rw [operandFrom?, entries_mapOperands, List.find?_map, operandFrom?]
  simp only [comp_def, Option.map_bind, Option.bind_map]

lemma Func.SsaForm.available_of_operandFrom? {f : Func} {opens : InstId → Prop}
    (hf : f.SsaForm opens) {b c : BlockId} (hc : c ∈ f.liveBlocks) (hreach : f.Reachable c)
    {i : InstId} (hi : i ∈ f.instsOf c) {u : Operand}
    (hu : (f.instr i).operandFrom? (some b) = some u) : f.Available b (f.instsOf b) u := by
  obtain ⟨e, he, hval⟩ := Option.bind_eq_some_iff.mp hu
  obtain rfl : b = e.block := by simpa using List.find?_some he
  exact hf.flows c hc hreach i hi e (mem_of_find?_eq_some he) u hval

/-! ## Built-in functions -/

lemma Exec.map_ok {β : Type} {x : Exec α} {g : α → β} {m m' : Machine} {v : β}
    (h : (g <$> x) m = .ok v m') : ∃ a, v = g a := by
  obtain ⟨a, t, -, hv⟩ := bind_ok h
  exact ⟨a, (pure_eq_ok_iff.mp hv).1⟩

lemma Exec.builtin_hasType {b : Builtin} (hb : b.isScalar) {args : List Value}
    {m m' : Machine} (h : builtin b args m = .ok v m') :
    v.hasType b.ret := by
  cases b with
  | getint | getch | getfloat =>
    obtain ⟨x, rfl⟩ := map_ok h
    rfl
  | putint | putch =>
    obtain ⟨u, t, -, hv⟩ := bind_ok h
    cases hv
    rfl
  | putfloat =>
    obtain ⟨n, t, -, h⟩ := bind_ok h
    obtain ⟨u, t, -, hv⟩ := bind_ok h
    cases hv
    rfl
  | starttime | stoptime =>
    cases h
    rfl
  | _ => cases hb

namespace Local

variable {p : Program} {calls : CallSem} {f : Func} {args : List Value} {b : BlockId}
  {pre : List InstId} {s : State} {w : World}

lemma World.globals_of_run {w' : World} {x : Exec α} {a : α}
    (h : w.run x = some (a, w')) : w'.globals = w.globals := by
  unfold World.run at h
  split at h
  · grind
  · cases h

def World.Typed (p : Program) (w : World) : Prop :=
  ∀ g, p.hasGlobal g → ∃ x, w.globals g = some x ∧ x.hasType (p.global g).ty

lemma World.Typed.of_run {w' : World} (hw : w.Typed p) {x : Exec α} {a : α}
    (h : w.run x = some (a, w')) : w'.Typed p := by
  intro g hg
  rw [World.globals_of_run h]
  exact hw g hg

def TypedArgs (f : Func) (args : List Value) : Prop :=
  List.Forall₂ (fun v x => v.hasType x.ty) args f.params.toList

/-- Calls of functions that can be called yield values of the right type. -/
def CallSem.Typed (p : Program) (calls : CallSem) : Prop :=
  ∀ callee args w room o, calls callee args w room o → p.isCallable callee →
    TypedArgs (p.func callee) args → w.Typed p →
    o.value.hasType (p.func callee).ret ∧ o.world.Typed p

/-- The state of a call in the block `b` after the instructions `pre` of its body. -/
structure State.Valid (p : Program) (f : Func) (args : List Value) (b : BlockId) (pre : List InstId)
    (s : State) : Prop where
  args : TypedArgs f args
  regs : ∀ i x, s.regs i = some x → x.hasType (f.inst i).ty
  slots : ∀ a x, s.slots a = some x → ∃ t, f.instr a = .alloc t ∧ x.hasType t
  /-- In the entry, slots are allocated one after the other. -/
  fresh : b = ⟨0⟩ → ∀ a, a ∉ pre → s.slots a = none
  allocated : ∀ a t, a ∈ f.body ⟨0⟩ → f.instr a = .alloc t → (b = ⟨0⟩ → a ∈ pre) →
    (s.slots a).isSome
  world : s.world.Typed p

namespace State.Valid

variable {t : Ty} {x : Value} {i : InstId} {n : Nat}

lemma init (hargs : TypedArgs f args) (hw : w.Typed p) (room : Nat) :
    State.Valid p f args ⟨0⟩ [] (.init w room) where
  args := hargs
  regs _ _ h := by cases h
  slots _ _ h := by cases h
  fresh _ _ _ := rfl
  allocated _ _ _ _ h := absurd (h rfl) not_mem_nil
  world := hw

variable (h : s.Valid p f args b pre)
include h

lemma eval {v : Operand} (hv : f.hasType v t) (hx : s.eval args v = some x) : x.hasType t := by
  cases v with
  | inst i =>
    obtain rfl : (f.inst i).ty = t := by simpa [typeOf?] using (and_eq_true_iff.mp hv).2
    exact h.regs i x hx
  | arg n =>
    have hx' : args[n]? = some x := hx
    have htype : f.params[n]?.map Param.ty = some t := by
      simpa [typeOf?] using (and_eq_true_iff.mp hv).2
    obtain ⟨y, hy, rfl⟩ := Option.map_eq_some_iff.mp htype
    have hy' : f.params.toList[n]? = some y := by simpa using hy
    obtain ⟨hn, rfl⟩ := List.getElem?_eq_some_iff.mp hx'
    obtain ⟨hn', rfl⟩ := List.getElem?_eq_some_iff.mp hy'
    exact h.args.get hn hn'
  | const c =>
    obtain rfl := Option.some.inj hx
    exact (and_eq_true_iff.mp hv).2
  | global g => cases hx

lemma read {ptr : Operand} (ht : p.placeTy? f ptr = some t) (hx : s.read ptr = some x) :
    x.hasType t := by
  cases ptr with
  | inst a =>
    obtain ⟨t', ha, hx'⟩ := h.slots a x hx
    rw [placeTy?, ha] at ht
    exact Option.some.inj ht ▸ hx'
  | global g =>
    rw [placeTy?] at ht
    split at ht
    · next hg =>
      obtain ⟨y, hy, hty⟩ := h.world g hg
      obtain rfl : y = x := Option.some.inj (hy.symm.trans hx)
      exact Option.some.inj ht ▸ hty
    · cases ht
  | _ => cases hx

lemma typedArgs {ops : List Operand} {xs : List Param} (hlen : ops.length = xs.length)
    (htypes : ((ops.zip xs).all fun (v, x) => f.hasType v x.ty)) {vs : List Value}
    (hvs : ops.mapM (s.eval args) = some vs) :
    List.Forall₂ (fun v x => v.hasType x.ty) vs xs := by
  induction ops generalizing xs vs with
  | nil =>
    obtain rfl : [] = vs := by simpa using hvs
    obtain rfl := length_eq_zero_iff.mp hlen.symm
    exact .nil
  | cons v ops ih =>
    cases xs with
    | nil => cases hlen
    | cons y xs =>
      rw [mapM_cons] at hvs
      obtain ⟨x, hx, hvs⟩ := Option.bind_eq_some_iff.mp hvs
      obtain ⟨ws, hws, hvs⟩ := Option.bind_eq_some_iff.mp hvs
      obtain rfl := Option.some.inj hvs
      rw [zip_cons_cons, all_cons, and_eq_true] at htypes
      exact .cons (h.eval htypes.1 hx) (ih (Nat.succ.inj hlen) htypes.2 hws)

lemma hasType_yields (hcalls : calls.Typed p) (hi : p.isWellTyped f i)
    (hy : Yields p calls args (f.inst i).ty s (f.instr i) n v w) :
    v.hasType (f.inst i).ty ∧ w.Typed p := by
  generalize hk : f.instr i = k at hy
  cases hy with
  | compute hv =>
    rw [← hk] at hv
    exact ⟨hasType_compute hi hv, h.world⟩
  | load hv hty =>
    simp only [isWellTyped, hk, decide_eq_true_eq] at hi
    exact ⟨h.read hi hv, h.world⟩
  | @call callee ops vs o hvs ho =>
    simp only [isWellTyped, hk, and_eq_true, decide_eq_true_eq] at hi
    obtain ⟨⟨⟨hcallable, hret⟩, hlen⟩, htypes⟩ := hi
    rw [hret]
    refine hcalls callee vs s.world s.room o ho hcallable (h.typedArgs ?_ htypes hvs) h.world
    rw [hlen, Array.length_toList]
  | print hvs hstr hw =>
    simp only [isWellTyped, hk, and_eq_true, decide_eq_true_eq] at hi
    rw [hi.1.2]
    exact ⟨rfl, h.world.of_run hw⟩

lemma setSlot {a : InstId} (ha : f.instr a = .alloc t) (hx : x.hasType t)
    {pre' : List InstId} (hpre : pre ⊆ pre') (hmem : b = ⟨0⟩ → a ∈ pre')
    (hnew : ∀ c ∈ pre', c ∈ pre ∨ c = a ∨ (f.instr c).isAlloc = false) :
    (s.setSlot a x).Valid p f args b pre' where
  args := h.args
  regs := h.regs
  slots c y hc := by
    by_cases heq : c = a
    · subst heq
      obtain rfl : x = y := by simpa [State.setSlot] using hc
      exact ⟨t, ha, hx⟩
    · exact h.slots c y (by simpa [State.setSlot, heq] using hc)
  fresh hb c hc := by
    have hne : c ≠ a := fun heq => hc (heq ▸ hmem hb)
    simp only [State.setSlot, update_of_ne hne]
    exact h.fresh hb c fun hin => hc (hpre hin)
  allocated c t' hc hk hin := by
    by_cases heq : c = a
    · simp [State.setSlot, heq]
    · simp only [State.setSlot, update_of_ne heq]
      refine h.allocated c t' hc hk fun hb => ?_
      rcases hnew c (hin hb) with hold | hself | halloc
      · exact hold
      · exact absurd hself heq
      · rw [hk] at halloc
        cases halloc
  world := h.world

lemma advance (hcalls : calls.Typed p) (hi : p.isWellTyped f i)
    {s' : State} (hs : Advances p calls args i (f.inst i).ty s (f.instr i) n s') :
    s'.Valid p f args b (pre ++ [i]) := by
  have hsub : pre ⊆ pre ++ [i] := subset_append_left _ _
  generalize hk : f.instr i = k at hs
  cases hs with
  | @yield _ _ v w hy =>
    obtain ⟨hv, hw⟩ := h.hasType_yields hcalls hi (hk ▸ hy)
    have hnot (t : Ty) : f.instr i ≠ .alloc t := by
      rw [hk]
      rintro rfl
      cases hy with
      | compute hv => cases hv
    refine ⟨h.args, fun j x hj => ?_, h.slots, fun hb a ha => h.fresh hb a fun hin => ha (hsub hin),
      fun a t ha hka hin => h.allocated a t ha hka fun hb => ?_, hw⟩
    · by_cases heq : j = i
      · subst heq
        obtain rfl : v = x := by simpa [State.yield] using hj
        exact hv
      · exact h.regs j x (by simpa [State.yield, heq] using hj)
    · grind
  | @alloc t hcells hfree hroom =>
    simp only [isWellTyped, hk, and_eq_true] at hi
    have hset := h.setSlot hk (Value.hasType_initial hi.1.1) hsub (by simp)
      fun c hc => (mem_append.mp hc).imp_right fun hc => Or.inl (mem_singleton.mp hc)
    exact ⟨hset.args, hset.regs, hset.slots, hset.fresh, hset.allocated, hset.world⟩
  | @store value ptr v hv hptr =>
    simp only [isWellTyped, hk, and_eq_true] at hi
    obtain ⟨t, ht, hval⟩ : ∃ t, p.placeTy? f ptr = some t ∧ f.hasType value t := by
      cases ht : p.placeTy? f ptr with
      | none => grind
      | some t => grind
    have hx := h.eval hval hv
    obtain ⟨y, hy⟩ := Option.isSome_iff_exists.mp hptr
    have hnew : ∀ c ∈ pre ++ [i], c ∈ pre ∨ (f.instr c).isAlloc = false := fun c hc => by
      refine (mem_append.mp hc).imp_right fun hc => ?_
      rw [mem_singleton.mp hc, hk]
      rfl
    cases ptr with
    | inst a =>
      obtain ⟨t', ha, -⟩ := h.slots a y hy
      obtain rfl : t' = t := by
        rw [placeTy?, ha] at ht
        exact Option.some.inj ht
      refine h.setSlot ha hx hsub (fun hb => hsub ?_) fun c hc => (hnew c hc).imp_right Or.inr
      by_contra hnot
      rw [State.read, h.fresh hb a hnot] at hy
      cases hy
    | global g =>
      refine ⟨h.args, h.regs, h.slots, fun hb a ha => h.fresh hb a fun hin => ha (hsub hin),
        fun a t' ha hka hin => h.allocated a t' ha hka fun hb => ?_, fun g' hg' => ?_⟩
      · grind
      · by_cases heq : g' = g
        · subst heq
          refine ⟨v, by simp [State.write, State.setGlobal], ?_⟩
          rw [placeTy?, if_pos hg'] at ht
          exact Option.some.inj ht ▸ hx
        · obtain ⟨z, hz, hty⟩ := h.world g' hg'
          exact ⟨z, by simpa [State.write, State.setGlobal, heq] using hz, hty⟩
    | _ => cases hy

lemma enter (hpre : ∀ a ∈ f.body b, (f.instr a).isAlloc → a ∈ pre) {c : BlockId}
    (hphis : ∀ j ∈ f.phis c, p.isWellTyped f j) :
    (s.enter f args b c).Valid p f args c [] where
  args := h.args
  regs i x hx := by
    simp only [State.enter] at hx
    split at hx
    · next hi =>
      obtain ⟨v, hv, hvx⟩ := Option.bind_eq_some_iff.mp hx
      have htyped := hphis i hi
      cases hk : f.instr i with
      | phi es =>
        obtain ⟨entry, hfind, hval⟩ := Option.bind_eq_some_iff.mp hv
        rw [hk] at hfind
        simp only [isWellTyped, hk, and_eq_true, all_eq_true] at htyped
        have hent := htyped.2 entry (mem_of_find?_eq_some hfind)
        rw [hval] at hent
        exact h.eval hent hvx
      | _ =>
        have hphi := f.isPhi_of_mem_phis hi
        rw [hk] at hphi
        cases hphi
    · exact h.regs i x hx
  slots a x hx := by
    simp only [State.enter] at hx
    split at hx
    · cases hx
    · exact h.slots a x hx
  fresh hc a _ := by simp only [State.enter, if_pos hc]
  allocated a t ha hk hin := by
    have hc : c ≠ ⟨0⟩ := fun hc => absurd (hin hc) not_mem_nil
    simp only [State.enter, if_neg hc]
    refine h.allocated a t ha hk fun hb => hpre a (hb ▸ ha) ?_
    rw [hk]
    rfl
  world := h.world

end State.Valid

/-! ## Runs -/

lemma rest_eq_nil (hf : f.Formed) (hb : b ∈ f.liveBlocks) {i : InstId} {is : List InstId}
    (hsplit : f.body b = pre ++ i :: is) (hi : (f.instr i).isTerminator) : is = [] := by
  obtain ⟨l, t, hl, ht, hnot⟩ := hf.terminated b hb
  have hphi : (f.instr t).isPhi = false := by
    cases hk : f.instr t <;> rw [hk] at ht <;> first | rfl | cases ht
  have hbody : f.body b = (l.filter fun i => !(f.instr i).isPhi) ++ [t] := by
    rw [body, hl, filter_append, filter_cons_of_pos (by simp [hphi]), filter_nil]
  rcases eq_nil_or_concat is with rfl | ⟨is', x, rfl⟩
  · rfl
  · -- otherwise it is one of the instructions before the last
    rw [hbody, concat_eq_append, ← cons_append, ← append_assoc] at hsplit
    have hmem : i ∈ l := by
      have hi' : i ∈ pre ++ i :: is' := by simp
      rw [← append_inj_left' hsplit rfl] at hi'
      exact (mem_filter.mp hi').1
    rw [hnot i hmem] at hi
    cases hi

lemma mem_of_terminator (hf : f.Formed) (hb : b ∈ f.liveBlocks) {i : InstId} {is : List InstId}
    (hsplit : f.body b = pre ++ i :: is) (hi : (f.instr i).isTerminator) :
    ∀ a ∈ f.body b, (f.instr a).isAlloc → a ∈ pre := by
  intro a ha halloc
  rw [hsplit, rest_eq_nil hf hb hsplit hi] at ha
  rcases mem_append.mp ha with ha | ha
  · exact ha
  · rw [← mem_singleton.mp ha, Instr.isTerminator_eq_false_of_isAlloc halloc] at hi
    cases hi

structure At (f : Func) (b : BlockId) (pre is : List InstId) : Prop where
  live : b ∈ f.liveBlocks
  split : f.instsOf b = pre ++ is
  body : ∀ i ∈ is, (f.instr i).isPhi = false

namespace At

variable {i : InstId} {is : List InstId}

lemma start (hf : f.Formed) (hb : b ∈ f.liveBlocks) : At f b (f.phis b) (f.body b) where
  live := hb
  split := hf.instsOf_eq hb
  body i hi := by simpa using (mem_filter.mp hi).2

lemma mem (hat : At f b pre (i :: is)) : i ∈ f.instsOf b := by
  simp [hat.split]

lemma next (hat : At f b pre (i :: is)) : At f b (pre ++ [i]) is where
  live := hat.live
  split := by simp [hat.split]
  body j hj := hat.body j (.tail i hj)

lemma eq_nil (hat : At f b pre (i :: is)) (hf : f.Formed) (hi : (f.instr i).isTerminator) :
    is = [] := by
  have hrest : (i :: is).filter (fun j => !(f.instr j).isPhi) = i :: is := by
    rw [filter_eq_self]
    intro j hj
    simp [hat.body j hj]
  have hbody : f.body b = pre.filter (fun j => !(f.instr j).isPhi) ++ i :: is := by
    rw [Func.body, hat.split, filter_append, hrest]
  exact rest_eq_nil hf hat.live hbody hi

end At

lemma State.Valid.hasType_result (h : s.Valid p f args b pre) {i : InstId}
    (hi : p.isWellTyped f i) (hv : (f.instr i).result? (s.eval args) = some v) :
    v.hasType f.ret := by
  cases hk : f.instr i with
  | ret u =>
    rw [hk] at hv
    cases u with
    | none =>
      simp only [isWellTyped, hk, and_eq_true, decide_eq_true_eq] at hi
      obtain rfl := Option.some.inj hv
      rw [hi.1]
      rfl
    | some u =>
      simp only [isWellTyped, hk, and_eq_true] at hi
      exact h.eval hi.1 hv
  | _ =>
    rw [hk] at hv
    cases hv

lemma Runs.hasType (hf : f.Scalar p) (hcalls : calls.Typed p) {is : List InstId} {fuel : Nat}
    {o : Outcome} (h : Runs p calls f args b is s fuel o) (hb : b ∈ f.liveBlocks)
    (hsplit : f.body b = pre ++ is) (hs : s.Valid p f args b pre) :
    o.value.hasType f.ret ∧ o.world.Typed p := by
  have hcons := hf.ssa.consistent
  have htyped {c : BlockId} (hc : c ∈ f.liveBlocks) {i : InstId} (hi : i ∈ f.instsOf c) :
      p.isWellTyped f i := hf.isWellTyped (hcons.placed_of_mem hc hi)
  have hmem {c : BlockId} {pre is : List InstId} {i : InstId} (h : f.body c = pre ++ i :: is) :
      i ∈ f.instsOf c := (mem_filter.mp (h ▸ by simp : i ∈ f.body c)).1
  induction h generalizing pre with
  | @next b i is s t n fuel o hstep _ ih =>
    exact ih hb (by rw [hsplit, append_assoc]; rfl)
      (hs.advance hcalls (htyped hb (hmem hsplit)) hstep)
  | @jump b c i is s fuel o htgt hc hphis _ ih =>
    have hlive := (hf.ssa.edge_of_target hb (hmem hsplit) (Instr.target?_mem_targets htgt)).2
    exact ih hlive (nil_append _).symm (hs.enter
      (mem_of_terminator hf.ssa.formed hb hsplit (Instr.isTerminator_of_target? htgt))
      fun j hj => htyped hlive ((takeWhile_sublist _).subset hj))
  | @ret b i is s fuel v hv => exact ⟨hs.hasType_result (htyped hb (hmem hsplit)) hv, hs.world⟩

end Local

/-! ## Calls -/

/-- Scalar programs whose functions can be entered. -/
structure Program.Entered (p : Program) : Prop where
  scalar : p.Scalar
  entry : ∀ f ∈ p.funcs, f.isDefined → f.EntryLive

namespace Program.Entered

variable {p : Program} {id : FuncId}

lemma func (h : p.Entered) (hid : p.hasFunc id) (hdef : (p.func id).isDefined) :
    (p.func id).Scalar p :=
  h.scalar.funcs _ (mem_funcs hid) hdef

lemma mem_liveBlocks (h : p.Entered) (hid : p.hasFunc id)
    (hdef : (p.func id).isDefined) (hblk : (p.func id).hasBlock ⟨0⟩) :
    ⟨0⟩ ∈ (p.func id).liveBlocks :=
  h.entry _ (mem_funcs hid) hdef hblk

end Program.Entered

namespace Local

lemma calls_typed {p : Program} (hp : p.Entered) (fuel depth : Nat) :
    (Calls p fuel depth).Typed p := by
  induction depth using Nat.strongRecOn with
  | ind depth ih =>
    intro callee args w room o ho hcallable hargs hw
    obtain ⟨hfunc, hlive, -, hbuiltin, hdef⟩ := calls_iff.mp ho
    cases hext : (p.func callee).external with
    | true =>
      obtain ⟨b, hb, hscalar, -, hrun⟩ := hbuiltin hext
      refine ⟨?_, hw.of_run hrun⟩
      simp only [isCallable, hext, hb, Bool.not_true, Bool.false_or, Option.any_some,
        Bool.and_eq_true, decide_eq_true_eq] at hcallable
      rw [← hcallable.2.2]
      unfold World.run at hrun
      split at hrun
      · next v t ht =>
        obtain ⟨rfl, -⟩ := Prod.mk.inj (Option.some.inj hrun)
        exact builtin_hasType hscalar ht
      · cases hrun
    | false =>
      obtain ⟨d, rfl, hblk, -, hrun⟩ := hdef hext
      have hisDefined : (p.func callee).isDefined := by simp [isDefined, hext, hlive]
      exact hrun.hasType (hp.func hfunc hisDefined) (ih d (Nat.lt_succ_self d))
        (hp.mem_liveBlocks hfunc hisDefined hblk) (nil_append _).symm (.init hargs hw room)

end Local

end MiddleEnd
