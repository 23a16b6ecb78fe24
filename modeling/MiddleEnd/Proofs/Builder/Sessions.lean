import MiddleEnd.Proofs.Builder.Calls

/-!
# Sessions of a builder

A session is a list of calls, each made on what the one before has left; a call that fails leaves
everything as it was.  What moves and resolved jumps keep is kept by a session, from its start to
its end.
-/

namespace MiddleEnd

open List Func Builder Bool

inductive BuildStep
  | intern (ty : Ty)
  | createBlock
  | switchTo (block : BlockId)
  | alloc (ty : Ty)
  | load (ptr : Operand)
  | store (value ptr : Operand)
  | spillArguments
  | element (base : Operand) (offsets : List Operand)
  | binary (op : BinaryOp) (lhs rhs : Operand)
  | icmp (cond : Cond) (lhs rhs : Operand)
  | fcmp (cond : Cond) (lhs rhs : Operand)
  | cast (op : CastOp) (value : Operand) (ty : Ty)
  | call (callee : FuncId) (args : List Operand)
  | callBuiltin (f : Builtin) (args : List Operand)
  | print (format : String) (args : List Operand)
  | zeroFill (ptr : Operand)
  | jump (target : BlockId)
  | branch (cond : Operand) (onTrue onFalse : BlockId)
  | pendingJump
  | resolve (jump : InstId) (target : BlockId)
  | ret (value : Option Operand)

namespace BuildStep

def perform : BuildStep → Build Unit
  | intern t => modify (·.intern t)
  | createBlock => discard Build.createBlock
  | switchTo c => Build.switchTo c
  | alloc t => discard (Build.alloc t)
  | load ptr => discard (Build.load ptr)
  | store v ptr => Build.store v ptr
  | spillArguments => discard Build.spillArguments
  | element base offsets => discard (Build.element base offsets)
  | binary op x y => discard (Build.binary op x y)
  | icmp c x y => discard (Build.icmp c x y)
  | fcmp c x y => discard (Build.fcmp c x y)
  | cast op v t => discard (Build.cast op v t)
  | call callee args => discard (Build.call callee args)
  | callBuiltin f args => discard (Build.callBuiltin f args)
  | print format args => discard (Build.print format args)
  | zeroFill ptr => Build.zeroFill ptr
  | jump c => Build.jump c
  | branch v x y => Build.branch v x y
  | pendingJump => discard Build.pendingJump
  | resolve i c => Build.resolve i c
  | ret v => Build.ret v

def operands : BuildStep → List Operand
  | load ptr | zeroFill ptr => [ptr]
  | store v ptr => [v, ptr]
  | element base offsets => base :: offsets
  | binary _ x y | icmp _ x y | fcmp _ x y => [x, y]
  | cast _ v _ | branch v _ _ => [v]
  | call _ args | callBuiltin _ args | print _ args => args
  | ret v => v.toList
  | _ => []

def blocks : BuildStep → List BlockId
  | switchTo c | jump c | resolve _ c => [c]
  | branch _ x y => [x, y]
  | _ => []

/-- The call names only what exists: literals, globals, arguments of the function, and values and
blocks that it has so far. -/
def inScope (f : Func) (s : BuildStep) : Bool :=
  s.operands.all f.defines && s.blocks.all f.hasBlock

end BuildStep

namespace Builder

def take (b : Builder) (s : BuildStep) : Builder :=
  match s.perform b with
  | .ok (_, b') => b'
  | .error _ => b

def takeAll (b : Builder) (ss : List BuildStep) : Builder :=
  ss.foldl take b

/-- Every call names only what exists when it is made. -/
def allInScope (b : Builder) : List BuildStep → Bool
  | [] => true
  | s :: ss => s.inScope b.body && (b.take s).allInScope ss

end Builder

/-! ## One call -/

namespace BuildStep

variable {s : BuildStep} {f : Func}

lemma defines_of_inScope (h : s.inScope f) : ∀ v ∈ s.operands, f.defines v :=
  all_eq_true.mp (and_eq_true_iff.mp h).1

lemma hasBlock_of_inScope (h : s.inScope f) : ∀ c ∈ s.blocks, f.hasBlock c :=
  all_eq_true.mp (and_eq_true_iff.mp h).2

lemma closed_of_inScope (h : s.inScope f) {k : Instr} (hops : k.operands = s.operands)
    (htgts : k.targets = s.blocks) : k.Closed f where
  operands := hops ▸ defines_of_inScope h
  targets := htgts ▸ hasBlock_of_inScope h

lemma makes_perform {strict : Prop} {b : Builder} (hb : b.Ready)
    (hs : strict → s.inScope b.body) (hresolve : ∀ i c, s ≠ .resolve i c) :
    Build.Makes strict s.perform b fun _ _ => True := by
  have hclosed {k : Instr} (hops : k.operands = s.operands)
      (htgts : k.targets = s.blocks) (h : strict) : k.Closed b.body :=
    closed_of_inScope (hs h) hops htgts
  cases s with
  | intern t =>
    rintro _ b' h
    cases h
    exact ⟨reaches_intern hb t, trivial⟩
  | createBlock => exact .discard hb (Build.makes_createBlock hb)
  | switchTo c =>
    refine (Build.makes_switchTo hb fun h => ?_).mono fun _ _ _ => trivial
    exact hasBlock_of_inScope (hs h) c (.head _)
  | alloc t => exact .discard hb (Build.makes_alloc hb t)
  | load ptr => exact .discard hb (Build.makes_load hb (hclosed rfl rfl))
  | store v ptr => exact Build.makes_store hb (hclosed rfl rfl)
  | spillArguments => exact .discard hb (Build.makes_spillArguments hb)
  | element base offsets => exact .discard hb (Build.makes_element hb (hclosed rfl rfl))
  | binary op x y | icmp c x y | fcmp c x y | cast op v t =>
    exact .discard hb (Build.makes_emitFolded hb rfl (hclosed rfl rfl))
  | call callee args => exact .discard hb (Build.makes_call hb (hclosed rfl rfl))
  | callBuiltin f args =>
    exact .discard hb (Build.makes_callBuiltin hb fun h => defines_of_inScope (hs h))
  | print format args =>
    exact .discard hb (Build.makes_print hb fun h => defines_of_inScope (hs h))
  | zeroFill ptr =>
    exact Build.makes_zeroFill hb fun h => defines_of_inScope (hs h) ptr (.head _)
  | jump c => exact Build.makes_jump hb fun h => hasBlock_of_inScope (hs h) c (.head _)
  | branch v x y => exact Build.makes_branch hb (hclosed rfl rfl)
  | pendingJump => exact .discard hb (Build.makes_pendingJump hb)
  | resolve i c => exact absurd rfl (hresolve i c)
  | ret v => exact Build.makes_ret hb (hclosed rfl rfl)

end BuildStep

namespace Builder

variable {strict : Prop} {b : Builder} {i : InstId}

lemma start_eq_ok (strict : Prop) {s : Session} {f : FuncId} (h : start s f = .ok b) :
    b.func = f ∧ b.Ready ∧ Draft.Moves strict ⟨s.program.func f, b.current, []⟩ b.draft := by
  rw [start] at h
  split at h
  · cases h
  next hhas =>
  have hhas : s.program.hasFunc f := by simpa using hhas
  split at h
  · cases h
  split at h
  · next entry hent =>
    cases h
    refine ⟨rfl, ⟨hhas, ?_⟩, .refl⟩
    have hfirst := (s.program.func f).entry_eq
    rw [hent] at hfirst
    split at hfirst
    · assumption
    · cases hfirst
  · cases h
    have hbody := (Program.func_setFunc s.program f
      ((s.program.func f).addBlock (s.freshLabel f).1) f).trans (if_pos ⟨rfl, hhas⟩)
    refine ⟨rfl, ⟨(Program.hasFunc_setFunc _ _ _ _).trans hhas, ?_⟩, .single ?_⟩
    · refine (congrArg (hasBlock · ⟨0⟩) hbody).trans ?_
      exact (hasBlock_iff _).mpr (by simp [addBlock])
    · have hmove : Draft.Move strict ⟨s.program.func f, (s.program.func f).nextBlock, []⟩ _ :=
        .addBlock _ (s.freshLabel f).1
      convert hmove using 1
      exact congrArg (Draft.mk · _ _) hbody

lemma reaches_take (hb : b.Ready) {s : BuildStep} (hs : strict → s.inScope b.body)
    (hresolve : ∀ i c, s ≠ .resolve i c) : b.Reaches strict (b.take s) := by
  rw [take]
  split
  · next b' h => exact (BuildStep.makes_perform hb hs hresolve () b' h).1
  · exact .refl hb

lemma resolve_eq (b : Builder) (i : InstId) (c : BlockId) :
    Build.resolve i c b =
      if b.body.hasInst i then
        if (b.body.instr i).isPendingJump then
          .ok ((), { b.setBody (b.body.replaceInstr i (.jump (some c))) with
            pending := b.pending.filter (· ≠ i) })
        else .error (.builder (.notPending i))
      else .error .outOfRange := by
  change (Build.require (b.body.hasInst i) >>= fun _ =>
    (if (b.body.instr i).isPendingJump then
      set { b.setBody (b.body.replaceInstr i (.jump (some c))) with
        pending := b.pending.filter (· ≠ i) }
    else throw (.builder (.notPending i)) : Build Unit)) b = _
  rw [Build.require]
  split
  · split <;> rfl
  · rfl

lemma take_resolve_of_pending (hb : b.Ready) (hi : b.body.hasInst i)
    (hpend : (b.body.instr i).isPendingJump) (c : BlockId) :
    (b.take (.resolve i c)).func = b.func ∧ (b.take (.resolve i c)).Ready ∧
      (b.take (.resolve i c)).draft = b.draft.resolved i c := by
  have hbody := body_setBody hb (b.body.replaceInstr i (.jump (some c)))
  rw [take, BuildStep.perform, resolve_eq, if_pos hi, if_pos hpend]
  refine ⟨rfl, ⟨hasFunc_setBody hb _, ?_⟩, congrArg (Draft.mk · b.current _) hbody⟩
  refine (congrArg (hasBlock · ⟨0⟩) hbody).trans ?_
  exact ((samePlaces_replaceInstr _ i _).hasBlock ⟨0⟩).trans hb.entry

lemma take_resolve_of_not
    (hi : ¬ (b.body.hasInst i ∧ (b.body.instr i).isPendingJump)) (c : BlockId) :
    b.take (.resolve i c) = b := by
  rw [take, BuildStep.perform, resolve_eq]
  split
  · grind
  · rfl

/-- What holds of a draft and the calls so far holds after a session, if moves and resolved jumps
keep it. -/
lemma takeAll_induction (strict : Prop) {I : List BuildStep → Draft → Prop}
    (hmoves : ∀ done s d d', (∀ i c, s ≠ .resolve i c) → Draft.Moves strict d d' → I done d →
      I (done ++ [s]) d')
    (hresolve : ∀ done i c d, d.body.hasInst i → (d.body.instr i).isPendingJump →
      (strict → d.body.hasBlock c) → I done d → I (done ++ [.resolve i c]) (d.resolved i c))
    (hskip : ∀ done i c d, ¬ (d.body.hasInst i ∧ (d.body.instr i).isPendingJump) →
      I done d → I (done ++ [.resolve i c]) d)
    (hb : b.Ready) (ss : List BuildStep) (hscope : strict → b.allInScope ss)
    (done : List BuildStep) (hI : I done b.draft) :
    (b.takeAll ss).func = b.func ∧ (b.takeAll ss).Ready ∧
      I (done ++ ss) (b.takeAll ss).draft := by
  induction ss generalizing b done with
  | nil => exact ⟨rfl, hb, by rwa [append_nil]⟩
  | cons s ss ih =>
    have hs (h : strict) : s.inScope b.body := (and_eq_true_iff.mp (hscope h)).1
    have hstep : (b.take s).func = b.func ∧ (b.take s).Ready ∧
        I (done ++ [s]) (b.take s).draft := by
      by_cases hkind : ∀ i c, s ≠ .resolve i c
      · have hreach := reaches_take hb hs hkind
        exact ⟨hreach.func, hreach.ready hb, hmoves done s _ _ hkind hreach.moves hI⟩
      · push Not at hkind
        obtain ⟨i, c, rfl⟩ := hkind
        by_cases hi : b.body.hasInst i ∧ (b.body.instr i).isPendingJump
        · obtain ⟨hfunc, hready, hdraft⟩ := take_resolve_of_pending hb hi.1 hi.2 c
          refine ⟨hfunc, hready, ?_⟩
          rw [hdraft]
          refine hresolve done i c _ hi.1 hi.2 (fun h => ?_) hI
          exact BuildStep.hasBlock_of_inScope (hs h) c (.head _)
        · rw [take_resolve_of_not hi]
          exact ⟨rfl, hb, hskip done i c _ hi hI⟩
    obtain ⟨hfunc, hready, hI'⟩ := hstep
    have hrest := ih hready (fun h => (and_eq_true_iff.mp (hscope h)).2) _ hI'
    rw [append_assoc] at hrest
    exact ⟨hrest.1.trans hfunc, hrest.2⟩

end Builder

/-! ## The end of a session -/

/-- Ends each of the blocks with a return of the default value. -/
def Func.endBlocks (f : Func) (cs : List BlockId) : Func :=
  cs.foldl (fun f c => f.append c (.ret (defaultReturn f.ret)) .void) f

lemma Draft.exists_moves_endBlocks (strict : Prop) {d : Draft} (hd : d.body.Consistent)
    {cs : List BlockId} (hnd : cs.Nodup)
    (hopen : ∀ c ∈ cs, d.body.hasBlock c ∧ d.body.terminator? c = none) :
    ∃ d', Moves strict d d' ∧ d'.body = d.body.endBlocks cs ∧ d'.pending = d.pending ∧
      ∀ c, c ∈ cs ∨ d.body.terminator? c ≠ none → d'.body.terminator? c ≠ none := by
  induction cs generalizing d with
  | nil => exact ⟨d, .refl, rfl, rfl, fun c hc => hc.resolve_left not_mem_nil⟩
  | cons c cs ih =>
    obtain ⟨hc, hcs⟩ := nodup_cons.mp hnd
    obtain ⟨hhas, hterm⟩ := hopen c (.head _)
    have hops : ∀ v ∈ (Instr.ret (defaultReturn d.body.ret)).operands, ∃ k, v = .const k := by
      intro v hv
      rw [Instr.operands, Option.mem_toList, defaultReturn, Option.map_eq_some_iff] at hv
      obtain ⟨k, -, rfl⟩ := hv
      exact ⟨k, rfl⟩
    have hswitch : Move strict d { d with current := c } := .switchTo d c fun _ => hhas
    have happend : Move strict { d with current := c }
        { d with
          current := c
          body := d.body.append c (.ret (defaultReturn d.body.ret)) .void } := by
      refine .append { d with current := c } (.ret (defaultReturn d.body.ret)) .void hhas
        hterm (.ret _) rfl (all_eq_true.mpr fun v hv => ?_)
        fun _ => ⟨fun v hv => ?_, fun _ h => absurd h not_mem_nil⟩
      all_goals
        obtain ⟨k, rfl⟩ := hops v hv
        rfl
    have hends := hd.terminator?_append hhas (.ret (defaultReturn d.body.ret)) .void
    obtain ⟨d', hmoves, hbody, hpend, hends'⟩ := ih (happend.consistent hd) hcs fun x hx => by
      have hne : x ≠ c := fun h => hc (h ▸ hx)
      obtain ⟨hx, hxopen⟩ := hopen x (.tail c hx)
      exact ⟨happend.grows.hasBlock x hx, by rw [hends, if_neg hne, hxopen]⟩
    refine ⟨d', .head hswitch (.head happend hmoves), hbody, hpend, fun x hx => hends' x ?_⟩
    by_cases hxc : x = c
    · refine .inr ?_
      rw [hends, if_pos hxc]
      exact Option.some_ne_none _
    · grind

lemma Func.sameFrame_endBlocks (f : Func) (cs : List BlockId) : f.SameFrame (f.endBlocks cs) :=
  sameFrame_foldl (fun f c => sameFrame_insertAt f c _ _ _) cs f

def Func.openBlocks (f : Func) : List BlockId :=
  f.liveBlocks.filter fun c => (f.terminator? c).isNone

lemma Build.finish_eq (b : Builder) :
    finish b = match b.pending with
      | i :: _ => .error (.pendingJump b.body.name (b.body.labelOf i))
      | [] => .ok ((), b.setBody (b.body.endBlocks b.body.openBlocks)) := by
  change (match b.pending with
    | i :: _ => throw (.pendingJump b.body.name (b.body.labelOf i))
    | [] => set (b.setBody (b.body.endBlocks b.body.openBlocks)) : Build Unit) b = _
  cases b.pending <;> rfl

/-- A session that ends well has resolved its own jumps, and every live block is terminated. -/
lemma Build.finish_eq_ok (strict : Prop) {b b' : Builder} (hb : b.Ready)
    (hcons : b.body.Consistent) (h : finish b = .ok ((), b')) :
    b'.func = b.func ∧ ∃ d, Draft.Moves strict b.draft d ∧ d.body = b'.body ∧ d.pending = [] ∧
      ∀ c ∈ b'.body.liveBlocks, b'.body.terminator? c ≠ none := by
  rw [finish_eq] at h
  split at h
  · cases h
  next hpend =>
    cases h
    have hopen : ∀ c ∈ b.body.openBlocks, b.body.hasBlock c ∧ b.body.terminator? c = none := by
      intro c hc
      obtain ⟨hlive, hopen⟩ := mem_filter.mp hc
      exact ⟨(hcons.mem_liveBlocks.mp hlive).1, Option.isNone_iff_eq_none.mp hopen⟩
    have hnd : b.body.openBlocks.Nodup := (hcons.layout_nodup.filter _).filter _
    obtain ⟨d, hmoves, hbody, hdpending, hends⟩ :=
      Draft.exists_moves_endBlocks strict (d := b.draft) hcons hnd hopen
    have hbody' : d.body = (b.setBody (b.body.endBlocks b.body.openBlocks)).body :=
      hbody.trans (body_setBody hb _).symm
    refine ⟨rfl, d, hmoves, hbody', hdpending.trans hpend, fun c hc => ?_⟩
    rw [body_setBody hb, (sameFrame_endBlocks _ _).liveBlocks] at hc
    rw [← hbody']
    refine hends c ?_
    by_cases hterm : b.body.terminator? c = none
    · exact .inl (mem_filter.mpr ⟨hc, Option.isNone_iff_eq_none.mpr hterm⟩)
    · exact .inr hterm

end MiddleEnd
