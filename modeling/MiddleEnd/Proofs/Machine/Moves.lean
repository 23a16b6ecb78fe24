import MiddleEnd.Proofs.Machine.Simplify

/-!
# Runs counted in moves

A move takes control from one block to another: a jump, a call of a function with a body or a return.
This module defines runs that count moves and know no limit on them.  When a call is replaced by the
body of its callee, the call and the return become jumps, so the number of moves stays the same; the
number of instructions does not.

A run of a call makes no more moves than it executes instructions, the call itself included, and each
call in progress makes no more jumps than there are moves.

The order on call semantics, `CallSem.Within`, compares the same outcomes with more room: each move may
take a number of additional cells.
-/

namespace MiddleEnd.Local

open Nat List Instr Bool

variable {o : Outcome} {depth fuel k n room : Nat} {s t : State} {w : World} {callee : FuncId}
  {ty : Ty} {p q : Program} {calls calls' : CallSem} {f g : Func} {args : List Value} {b : BlockId}
  {i : InstId} {instr : Instr} {is : List InstId}

/-- The function `f` returns, from the instructions of the block `b` that are left.  The steps of the
outcome are moves. -/
inductive Moves (p : Program) (calls : CallSem) (f : Func) (args : List Value) :
    BlockId → List InstId → State → Outcome → Prop
  | next {b : BlockId} {i : InstId} {is : List InstId} {s t : State} {n : Nat} {o : Outcome} :
    Advances p calls args i (f.inst i).ty s (f.instr i) n t → Moves p calls f args b is t o →
    Moves p calls f args b (i :: is) s (o.after n)
  | jump {b c : BlockId} {i : InstId} {is : List InstId} {s : State} {o : Outcome} :
    (f.instr i).target? (s.eval args) = some c → f.hasBlock c →
    (∀ j ∈ f.phis c, (s.incoming f args b j).isSome) →
    Moves p calls f args c (f.body c) (s.enter f args b c) o →
    Moves p calls f args b (i :: is) s (o.after 1)
  | ret {b : BlockId} {i : InstId} {is : List InstId} {s : State} {v : Value} :
    (f.instr i).result? (s.eval args) = some v →
    Moves p calls f args b (i :: is) s ⟨v, s.world, 1⟩

def Completes (p : Program) (calls : CallSem) (f : Func) (args : List Value) (w : World) (room : Nat)
    (o : Outcome) : Prop :=
  f.hasBlock ⟨0⟩ = true ∧ f.phis ⟨0⟩ = [] ∧
    Moves p calls f args ⟨0⟩ (f.body ⟨0⟩) (.init w room) o

/-- The outcomes of calls while at most `depth` of them are nested.  Calling a function with a body is
one more move. -/
def CallMoves (p : Program) : Nat → CallSem
  | depth, callee, args, w, room, o =>
    p.hasFunc callee ∧ (p.func callee).deleted = false ∧
      args.length = (p.func callee).params.size ∧
      if (p.func callee).external then Answers (p.func callee) args w o
      else match depth with
        | 0 => False
        | depth + 1 => ∃ n, o.steps = n + 1 ∧
          Completes p (CallMoves p depth) (p.func callee) args w room { o with steps := n }

lemma callMoves_iff :
    CallMoves p depth callee args w room o ↔ p.hasFunc callee ∧
      (p.func callee).deleted = false ∧ args.length = (p.func callee).params.size ∧
      ((p.func callee).external → Answers (p.func callee) args w o) ∧
      ((p.func callee).external = false → ∃ d n, depth = d + 1 ∧ o.steps = n + 1 ∧
        Completes p (CallMoves p d) (p.func callee) args w room { o with steps := n }) := by
  cases depth with
  | zero | succ d => cases hext : (p.func callee).external <;> simp [CallMoves, hext]

/-! ## Order -/

/-- With `k` more cells for each move there is the same outcome. -/
def CallSem.Within (k : Nat) (calls calls' : CallSem) : Prop :=
  ∀ callee args w room o, calls callee args w room o → ∀ room', room + k * o.steps ≤ room' →
    calls' callee args w room' o

lemma CallSem.Within.trans {calls'' : CallSem} {k' : Nat} (h : calls.Within k calls')
    (h' : calls'.Within k' calls'') : calls.Within (k + k') calls'' := by
  intro callee args w room o ho room' hroom
  have hmiddle := h callee args w room o ho (room + k * o.steps) (Nat.le_refl _)
  refine h' callee args w _ o hmiddle room' ?_
  rwa [Nat.add_assoc, ← Nat.add_mul]

section

variable (hcalls : calls.Within k calls') (hstrs : q.strings = p.strings) {runs : BlockId → Prop}
include hcalls hstrs

/-- An operation with other names for its operands yields the same, with enough room for nested
calls. -/
lemma Yields.within {args' : List Value} (hworld : t.world = s.world) {ρ : Operand → Operand}
    {i : Instr}
    (heval : ∀ u ∈ i.operands, ∀ x, s.eval args u = some x → t.eval args' (ρ u) = some x)
    (hread : ∀ u ∈ i.operands, ∀ x, s.read u = some x → t.read (ρ u) = some x) {n : Nat} {v : Value}
    (hroom : s.room + k * n ≤ t.room) (h : Yields p calls args ty s i n v w) :
    Yields q calls' args' ty t (i.mapOperands ρ) n v w := by
  obtain ⟨m, rfl, hy⟩ := Yields.rename rfl hstrs hworld heval hread h
    fun callee vs o ho hcall => ⟨n, rfl, by
      subst ho
      exact hcalls callee vs s.world s.room o hcall t.room hroom⟩
  exact hy

lemma Advances.within (h : Advances p calls args i ty s instr n t)
    (hroom : s.room + k * n ≤ room) :
    ∃ room', Advances q calls' args i ty { s with room } instr n { t with room := room' } ∧
      room' + s.room = room + t.room := by
  cases h with
  | yield hy =>
    have hy' := hy.within (s := s) (t := { s with room }) (ρ := id) hcalls hstrs rfl
      (fun _ _ _ hx => hx)
      (fun _ _ _ hx => hx) hroom
    rw [show instr.mapOperands id = instr from mapOperands_id instr] at hy'
    exact ⟨room, .yield hy', rfl⟩
  | @alloc t hcells hfree hspace =>
    refine ⟨room - 1, .alloc hcells hfree (lt_of_lt_of_le hspace (le_of_add_right_le hroom)), ?_⟩
    change room - 1 + s.room = room + (s.room - 1)
    omega
  | @store value ptr v hv hptr =>
    cases ptr with
    | inst a | global g => exact ⟨room, .store hv hptr, rfl⟩
    | _ => cases hptr

/-- A function with the same code where control gets to does the same, with enough room. -/
lemma Moves.of_simplifies (hfg : f.Simplifies g runs (fun _ => true) fun _ => none)
    (h : Moves p calls f args b is s o) (hb : runs b) (his : is ⊆ f.body b)
    (hroom : s.room + k * o.steps ≤ room) : Moves q calls' g args b is { s with room } o := by
  have hfill : Operand.fill (fun _ => none) = id := funext Operand.fill_none
  have hinstr {b : BlockId} (hb : runs b) {i : InstId} (hi : i ∈ f.body b) : g.instr i = f.instr i := by
    rw [hfg.instr b hb i hi rfl, hfill]
    exact mapOperands_id _
  have hphis {b : BlockId} (hb : runs b) : g.phis b = f.phis b := by
    rw [hfg.phis b hb, filter_true]
  have hincoming {b c : BlockId} (hb : runs b) (hc : runs c) (s : State) (room : Nat) {j : InstId}
      (hj : j ∈ f.phis c) :
      ({ s with room } : State).incoming g args b j = s.incoming f args b j := by
    rw [State.incoming, hfg.phi c hc j hj rfl b hb, hfill, Option.map_id]
    rfl
  induction h generalizing room with
  | @next b i is s t n o hstep _ ih =>
    have hi := his (.head _)
    have his' := Subset.trans (subset_cons_self i is) his
    have htotal : s.room + (k * o.steps + k * n) ≤ room := by
      rw [← Nat.mul_add]
      exact hroom
    rw [← hfg.ty b hb i hi rfl, ← hinstr hb hi] at hstep
    have hstart : s.room + k * n ≤ room := by omega
    obtain ⟨room', hstep', hroom'⟩ := hstep.within hcalls hstrs hstart
    exact .next hstep' (ih hb his' (by omega))
  | @jump b c i is s o htgt hc hincomes _ ih =>
    have hi := his (.head _)
    have hruns := hfg.closed b hb i hi c (target?_mem_targets htgt) hc
    have hleft :=
      Nat.le_trans (Nat.add_le_add_left (Nat.mul_le_mul_left k (Nat.le_add_right _ 1)) _) hroom
    have hrest := ih hruns (Subset.refl _) hleft
    have henter : ({ s with room } : State).enter g args b c =
        { s.enter f args b c with room := room } := by
      simp only [State.enter, hphis hruns]
      congr 1
      funext j
      split
      · next hj => exact hincoming hb hruns s room hj
      · rfl
    rw [← henter] at hrest
    refine .jump ?_ (hfg.hasBlock c hruns hc) (fun j hj => ?_) ?_
    · rw [hinstr hb hi]
      exact htgt
    · grind
    · rw [hfg.body c hruns, filter_true]
      exact hrest
  | @ret b i is s v hv =>
    refine .ret ?_
    rw [hinstr hb (his (.head _))]
    exact hv

lemma Completes.of_simplifies (hfg : f.Simplifies g runs (fun _ => true) fun _ => none)
    {room' : Nat} (h : Completes p calls f args w room o) (hroom : room + k * o.steps ≤ room') :
    Completes q calls' g args w room' o := by
  obtain ⟨hblk, hphis, hmoves⟩ := h
  have hmoves' := hmoves.of_simplifies hcalls hstrs hfg hfg.entry (Subset.refl _) hroom
  refine ⟨hfg.hasBlock _ hfg.entry hblk, ?_, ?_⟩
  · rw [hfg.phis _ hfg.entry, hphis]
    rfl
  · rw [hfg.body _ hfg.entry, filter_true]
    exact hmoves'

end

lemma callMoves_within (hsize : q.funcs.size = p.funcs.size)
    (hhead : ∀ id, (p.func id).SameHead (q.func id))
    (hbody : ∀ depth, (∀ d ≤ depth, (CallMoves p d).Within k (CallMoves q d)) →
      ∀ id args w room o, (p.func id).external = false →
        Completes p (CallMoves p depth) (p.func id) args w room o →
        ∀ room', room + k * (o.steps + 1) ≤ room' →
          Completes q (CallMoves q depth) (q.func id) args w room' o) (depth : Nat) :
    (CallMoves p depth).Within k (CallMoves q depth) := by
  induction depth using Nat.strongRecOn with
  | ind depth ih =>
    intro callee args w room o h room' hroom
    have head := hhead callee
    obtain ⟨hfunc, hlive, hargs, hbuiltin, hdef⟩ := callMoves_iff.mp h
    refine callMoves_iff.mpr ⟨?_, head.deleted.trans hlive, ?_, fun hext => ?_, fun hext => ?_⟩
    · rwa [Program.hasFunc, hsize]
    · rw [head.params_size, hargs]
    · rw [Answers, head.name]
      exact hbuiltin (head.external.symm.trans hext)
    · rw [head.external] at hext
      obtain ⟨d, n, rfl, hn, hcompletes⟩ := hdef hext
      rw [hn] at hroom
      exact ⟨d, n, rfl, hn, hbody d (fun d' hd' => ih d' (lt_succ_of_le hd')) callee args w room _ hext
        hcompletes room' hroom⟩

lemma callMoves_mono {d d' : Nat} (hd : d ≤ d') : (CallMoves p d).Within 0 (CallMoves p d') := by
  induction d generalizing d' with
  | zero =>
    intro callee args w room o h room' _
    obtain ⟨hfunc, hlive, hargs, hbuiltin, hdef⟩ := callMoves_iff.mp h
    refine callMoves_iff.mpr ⟨hfunc, hlive, hargs, hbuiltin, fun hext => ?_⟩
    obtain ⟨d, n, hzero, -⟩ := hdef hext
    cases hzero
  | succ d ih =>
    intro callee args w room o h room' hroom
    obtain ⟨hfunc, hlive, hargs, hbuiltin, hdef⟩ := callMoves_iff.mp h
    refine callMoves_iff.mpr ⟨hfunc, hlive, hargs, hbuiltin, fun hext => ?_⟩
    obtain ⟨e, n, he, hn, hcompletes⟩ := hdef hext
    obtain rfl : d = e := succ.inj he
    obtain ⟨d', rfl⟩ := Nat.exists_eq_add_of_le' (Nat.le_trans (Nat.le_add_left 1 d) hd)
    refine ⟨d', n, rfl, hn, hcompletes.of_simplifies (ih (le_of_succ_le_succ hd)) rfl
      (Func.Simplifies.refl _) ?_⟩
    rwa [Nat.zero_mul] at hroom ⊢

/-! ## Moves and instructions -/

lemma Advances.recount {R : Nat → Nat → Prop} (hzero : R 0 0)
    (h : Advances p calls args i ty s instr n t)
    (hcalls : ∀ callee vs o, o.steps = n → calls callee vs s.world s.room o →
      ∃ m, R n m ∧ calls' callee vs s.world s.room { o with steps := m }) :
    ∃ m, R n m ∧ Advances p calls' args i ty s instr m t := by
  cases h with
  | yield hy =>
    obtain ⟨m, hm, hy'⟩ := hy.rename (ρ := id) hzero rfl rfl (fun _ _ _ hx => hx)
      (fun _ _ _ hx => hx) hcalls
    rw [show instr.mapOperands id = instr from mapOperands_id instr] at hy'
    exact ⟨m, hm, .yield hy'⟩
  | alloc hcells hfree hspace => exact ⟨0, hzero, .alloc hcells hfree hspace⟩
  | store hv hptr => exact ⟨0, hzero, .store hv hptr⟩

lemma Runs.moves (hcalls : ∀ callee args w room o, calls callee args w room o →
      ∃ n ≤ o.steps + 1, calls' callee args w room { o with steps := n })
    (h : Runs p calls f args b is s fuel o) :
    ∃ n ≤ o.steps, Moves p calls' f args b is s { o with steps := n } := by
  induction h with
  | @next b i is s t n fuel o hstep _ ih =>
    obtain ⟨m, hm, hmoves⟩ := ih
    obtain ⟨n', hn', hstep'⟩ := hstep.recount (R := fun n m => m ≤ n + 1) (zero_le _)
      fun callee vs o ho hcall => ho ▸ hcalls callee vs s.world s.room o hcall
    exact ⟨m + n', Nat.add_le_add hm hn', .next hstep' hmoves⟩
  | jump htgt hc hphis _ ih =>
    obtain ⟨m, hm, hmoves⟩ := ih
    exact ⟨m + 1, succ_le_succ hm, .jump htgt hc hphis hmoves⟩
  | ret hv => exact ⟨1, le_refl _, .ret hv⟩

lemma callMoves_of_calls (h : Calls p fuel depth callee args w room o) :
    ∃ n ≤ o.steps + 1, CallMoves p depth callee args w room { o with steps := n } := by
  induction depth using Nat.strongRecOn generalizing callee args w room o with
  | ind depth ih =>
    obtain ⟨hfunc, hlive, hargs, hbuiltin, hdef⟩ := calls_iff.mp h
    cases hext : (p.func callee).external with
    | true =>
      exact ⟨o.steps, le_succ _, callMoves_iff.mpr ⟨hfunc, hlive, hargs, hbuiltin,
        fun h => absurd (h.symm.trans hext) false_ne_true⟩⟩
    | false =>
      obtain ⟨d, rfl, hblk, hphis, hruns⟩ := hdef hext
      obtain ⟨n, hn, hmoves⟩ := hruns.moves fun _ _ _ _ _ h => ih d (lt_succ_self d) h
      exact ⟨n + 1, succ_le_succ hn, callMoves_iff.mpr ⟨hfunc, hlive, hargs,
        fun h => absurd (hext.symm.trans h) false_ne_true,
        fun _ => ⟨d, n, rfl, rfl, hblk, hphis, hmoves⟩⟩⟩

lemma Moves.runs {limit : Nat} (hcalls : ∀ callee args w room o, calls callee args w room o →
      o.steps ≤ limit → ∃ n, calls' callee args w room { o with steps := n })
    (h : Moves p calls f args b is s o) (hfuel : o.steps ≤ fuel)
    (hlim : fuel ≤ limit) : ∃ n, Runs p calls' f args b is s fuel { o with steps := n } := by
  induction h generalizing fuel with
  | @next b i is s t n o hstep _ ih =>
    have hle : o.steps + n ≤ fuel := hfuel
    obtain ⟨m, hruns⟩ := ih (le_of_add_right_le hle) hlim
    obtain ⟨n', -, hstep'⟩ := hstep.recount (R := fun _ _ => True) trivial
      fun callee vs o ho hcall => by
      obtain ⟨n', hn'⟩ := hcalls callee vs s.world s.room o hcall (by omega)
      exact ⟨n', trivial, hn'⟩
    exact ⟨m + (n' + 1), .next hstep' hruns⟩
  | @jump b c i is s o htgt hc hphis _ ih =>
    have hle := hfuel
    obtain ⟨fuel, rfl⟩ := Nat.exists_eq_add_of_le' (Nat.le_trans (Nat.le_add_left 1 _) hle)
    obtain ⟨m, hruns⟩ := ih (le_of_succ_le_succ hle) (le_of_succ_le hlim)
    exact ⟨m + 1, .jump htgt hc hphis hruns⟩
  | ret hv => exact ⟨1, .ret hv⟩

lemma calls_of_callMoves (h : CallMoves p depth callee args w room o) (hfuel : o.steps ≤ fuel + 1) :
    ∃ n, Calls p fuel depth callee args w room { o with steps := n } := by
  induction depth using Nat.strongRecOn generalizing callee args w room o with
  | ind depth ih =>
    obtain ⟨hfunc, hlive, hargs, hbuiltin, hdef⟩ := callMoves_iff.mp h
    cases hext : (p.func callee).external with
    | true =>
      exact ⟨o.steps, calls_iff.mpr ⟨hfunc, hlive, hargs, hbuiltin,
        fun h => absurd (h.symm.trans hext) false_ne_true⟩⟩
    | false =>
      obtain ⟨d, n, rfl, hn, hblk, hphis, hmoves⟩ := hdef hext
      have hcalls : ∀ callee vs w room o, CallMoves p d callee vs w room o → o.steps ≤ fuel →
          ∃ n, Calls p fuel d callee vs w room { o with steps := n } :=
        fun _ _ _ _ _ h hle => ih d (lt_succ_self d) h (le_succ_of_le hle)
      obtain ⟨m, hruns⟩ := hmoves.runs hcalls (by omega : n ≤ fuel) (le_refl _)
      exact ⟨m, calls_iff.mpr ⟨hfunc, hlive, hargs,
        fun h => absurd (hext.symm.trans h) false_ne_true,
        fun _ => ⟨d, rfl, hblk, hphis, hruns⟩⟩⟩

end MiddleEnd.Local
