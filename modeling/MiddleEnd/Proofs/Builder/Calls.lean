import MiddleEnd.Proofs.Builder.Moves
import MiddleEnd.Proofs.Labelled

/-!
# The calls of a builder

Every call of a builder that succeeds is a row of moves, apart from the one that resolves a pending
jump.  What a call makes can be named by later calls.
-/

namespace MiddleEnd

open List Builder Func Program

namespace Builder

/-- The builder works on a function of the program, which has an entry. -/
structure Ready (b : Builder) : Prop where
  hasFunc : b.session.program.hasFunc b.func
  entry : b.body.hasBlock ⟨0⟩ = true

structure Reaches (strict : Prop) (b b' : Builder) : Prop where
  func : b'.func = b.func
  hasFunc : b'.session.program.hasFunc b'.func
  moves : Draft.Moves strict b.draft b'.draft
  labelled : b.session.Labelled → b'.session.Labelled

variable {strict : Prop} {b b' b'' : Builder}

namespace Reaches

lemma refl (hb : b.Ready) : b.Reaches strict b :=
  ⟨rfl, hb.hasFunc, .refl, id⟩

lemma trans (h : b.Reaches strict b') (h' : b'.Reaches strict b'') : b.Reaches strict b'' :=
  ⟨h'.func.trans h.func, h'.hasFunc, h.moves.trans h'.moves, h'.labelled ∘ h.labelled⟩

lemma grows (h : b.Reaches strict b') : b.body.Grows b'.body :=
  h.moves.grows

lemma ready (h : b.Reaches strict b') (hb : b.Ready) : b'.Ready :=
  ⟨h.hasFunc, h.grows.hasBlock _ hb.entry⟩

lemma of_body_eq {s : Session} (hfunc : s.program.hasFunc b.func)
    (hbody : s.program.func b.func = b.body) (hlabelled : b.session.Labelled → s.Labelled) :
    b.Reaches strict { b with session := s } := by
  refine ⟨rfl, hfunc, ?_, hlabelled⟩
  have hdraft : ({ b with session := s } : Builder).draft = b.draft := by
    simp only [draft, body, hbody]
  rw [hdraft]

end Reaches

lemma body_setBody (hb : b.Ready) (f : Func) : (b.setBody f).body = f :=
  (func_setFunc _ _ _ _).trans (if_pos ⟨rfl, hb.hasFunc⟩)

lemma hasFunc_setBody (hb : b.Ready) (f : Func) :
    (b.setBody f).session.program.hasFunc (b.setBody f).func :=
  (hasFunc_setFunc _ _ _ _).trans hb.hasFunc

lemma reaches_setBody (hb : b.Ready) {f : Func}
    (hmove : Draft.Move strict b.draft { b.draft with body := f })
    (hlabels : f.labels = b.body.labels) : b.Reaches strict (b.setBody f) := by
  refine ⟨rfl, hasFunc_setBody hb f, .single ?_, (·.congr (Session.sameLabels_setFunc _ hlabels))⟩
  have hdraft : (b.setBody f).draft = { b.draft with body := f } := by
    rw [draft, body_setBody hb]
    rfl
  rw [hdraft]
  exact hmove

lemma reaches_intern (hb : b.Ready) (t : Ty) : b.Reaches strict (b.intern t) :=
  .of_body_eq hb.hasFunc rfl id

end Builder

lemma Session.func_builtin (s : Session) (f : Builtin) {g : FuncId}
    (hg : s.program.hasFunc g) : (s.builtin f).2.program.hasFunc g ∧
      (s.builtin f).2.program.func g = s.program.func g := by
  rw [builtin]
  split
  · exact ⟨hg, rfl⟩
  · dsimp only
    rw [declareBuiltin, declare]
    have hlt := of_decide_eq_true hg
    split
    · exact ⟨hg, rfl⟩
    · refine ⟨decide_eq_true ?_, ?_⟩
      · change g.idx < (s.program.funcs.push _).size
        rw [Array.size_push]
        exact hlt.trans (Nat.lt_succ_self _)
      · exact (func_addFunc _ _ g).trans (if_neg hlt.ne)

namespace Build

variable {k : Instr} {t : Ty} {args : List Operand} {ptr : Operand} {α β : Type} {strict : Prop}
  {b b' : Builder} {c : BlockId} {Q : α → Builder → Prop} {v : Operand} {i : InstId}

/-- If the call succeeds, it is a row of moves, with what is said of its result. -/
def Makes (strict : Prop) (x : Build α) (b : Builder) (Q : α → Builder → Prop) : Prop :=
  ∀ a b', x b = .ok (a, b') → b.Reaches strict b' ∧ Q a b'

def Named (strict : Prop) (v : Operand) (b : Builder) : Prop :=
  strict → b.body.defines v

lemma bind_eq_ok {x : Build α} {k : α → Build β} {c : β} (h : (x >>= k) b = .ok (c, b')) :
    ∃ a b₁, x b = .ok (a, b₁) ∧ k a b₁ = .ok (c, b') := by
  cases hx : x b with
  | error e => simp [bind, StateT.bind, Except.bind, hx] at h
  | ok r => exact ⟨r.1, r.2, rfl, by simpa [bind, StateT.bind, Except.bind, hx] using h⟩

namespace Makes

variable {Q R : α → Builder → Prop} {S : β → Builder → Prop} {x : Build α}

lemma pure (hb : b.Ready) {a : α} (ha : Q a b) : Makes strict (pure a) b Q := by
  rintro a' b' h
  cases h
  exact ⟨.refl hb, ha⟩

lemma throw (e : Error) : Makes strict (throw e : Build α) b Q := by
  rintro a' b' h
  cases h

lemma mono (hx : Makes strict x b Q) (hQR : ∀ a b', Q a b' → R a b') :
    Makes strict x b R := fun a b' h =>
  ⟨(hx a b' h).1, hQR a b' (hx a b' h).2⟩

lemma bind {k : α → Build β} (hx : Makes strict x b Q)
    (hk : ∀ a b', b.Reaches strict b' → Q a b' → Makes strict (k a) b' S) :
    Makes strict (x >>= k) b S := by
  intro c b'' h
  obtain ⟨a, b', hxb, hrest⟩ := bind_eq_ok h
  obtain ⟨hreach, hQ⟩ := hx a b' hxb
  obtain ⟨hreach', hS⟩ := hk a b' hreach hQ c b'' hrest
  exact ⟨hreach.trans hreach', hS⟩

lemma discard (hb : b.Ready) (hx : Makes strict x b Q) :
    Makes strict (discard x) b fun _ _ => True := by
  exact hx.bind fun _ _ hreach _ => .pure (hreach.ready hb) trivial

lemma require (hb : b.Ready) (c : Bool) : Makes strict (require c) b fun _ b' => b' = b ∧ c := by
  rw [Build.require]
  split
  · next hc => exact .pure hb ⟨rfl, hc⟩
  · exact .throw _

lemma mapM (hb : b.Ready) {k : α → Build β} {as : List α}
    (hk : ∀ a ∈ as, ∀ b', b.Reaches strict b' → Makes strict (k a) b' fun _ _ => True) :
    Makes strict (as.mapM k) b fun _ _ => True := by
  induction as generalizing b with
  | nil => exact .pure hb trivial
  | cons a as ih =>
    rw [mapM_cons]
    refine (hk a (.head _) b (.refl hb)).bind fun c b' hreach _ => ?_
    refine (ih (hreach.ready hb) fun a' ha' b'' hreach' => ?_).bind fun cs b'' hreach' _ => ?_
    · exact hk a' (.tail a ha') b'' (hreach.trans hreach')
    · exact .pure (hreach'.ready (hreach.ready hb)) trivial

end Makes

lemma makes_get_bind {k : Builder → Build α}
    (hk : Makes strict (k b) b Q) : Makes strict (get >>= k) b Q :=
  hk

lemma makes_set_bind {k : Unit → Build α}
    (hb' : b.Reaches strict b') (hk : Makes strict (k ()) b' Q) :
    Makes strict (set b' >>= k) b Q := by
  intro a c h
  obtain ⟨hreach, hQ⟩ := hk a c h
  exact ⟨hb'.trans hreach, hQ⟩

lemma makes_modify_bind {g : Builder → Builder} {k : Unit → Build α}
    (hb' : b.Reaches strict (g b)) (hk : Makes strict (k ()) (g b) Q) :
    Makes strict (modify g >>= k) b Q :=
  makes_set_bind hb' hk

/-! ## Blocks -/

lemma makes_createBlock (hb : b.Ready) : Makes strict createBlock b fun c b' =>
    c = b.body.nextBlock ∧ ∃ label, b'.draft = { b.draft with body := b.body.addBlock label } := by
  rintro c b' h
  cases h
  have hready : Ready { b with session := (b.session.freshLabel b.func).2 } :=
    ⟨hb.hasFunc, hb.entry⟩
  have hdraft := congrArg (Draft.mk · b.current b.pending)
    (body_setBody hready (b.body.addBlock (b.session.freshLabel b.func).1))
  refine ⟨⟨rfl, hasFunc_setBody hready _, ?_, (·.addBlock b.func)⟩, rfl, _, hdraft⟩
  exact .single ((congrArg (Draft.Move strict b.draft) hdraft).mpr (.addBlock b.draft _))

lemma makes_switchTo (hb : b.Ready) (hc : strict → b.body.hasBlock c) :
    Makes strict (switchTo c) b fun _ b' => b'.draft = { b.draft with current := c } := by
  rintro u b' h
  cases h
  exact ⟨⟨rfl, hb.hasFunc, .single (.switchTo _ c hc), id⟩, rfl⟩

lemma makes_isTerminated (hb : b.Ready) : Makes strict isTerminated b fun terminated b' =>
    b' = b ∧ b.body.hasBlock b.current ∧
      terminated = (b.body.terminator? b.current).isSome := by
  refine makes_get_bind ((Makes.require hb _).bind fun _ b' hreach h => ?_)
  exact .pure (hreach.ready hb) ⟨h.1, h.2, rfl⟩

/-- Goes on in a fresh block after a terminator. -/
def openBlock : Build Unit := do
  if ← isTerminated then
    switchTo (← createBlock)

lemma makes_openBlock (hb : b.Ready) : Makes strict openBlock b fun _ b' =>
    b'.body.hasBlock b'.current ∧ b'.body.terminator? b'.current = none := by
  refine (makes_isTerminated hb).bind fun terminated b₁ hreach h => ?_
  obtain ⟨rfl, hcur, rfl⟩ := h
  split
  · refine (makes_createBlock hb).bind fun c b₂ hreach₂ h => ?_
    obtain ⟨rfl, label, hdraft⟩ := h
    have hbody : b₂.body = b₁.body.addBlock label := congrArg Draft.body hdraft
    have hhas : b₂.body.hasBlock b₁.body.nextBlock := by
      rw [hbody]
      exact (hasBlock_addBlock _ _ _).mpr (.inr rfl)
    refine (makes_switchTo (hreach₂.ready hb) fun _ => hhas).mono fun _ b₃ hdraft₃ => ?_
    have hbody₃ : b₃.body = b₂.body := congrArg Draft.body hdraft₃
    have hcurrent₃ : b₃.current = b₁.body.nextBlock := congrArg Draft.current hdraft₃
    rw [hbody₃, hcurrent₃]
    refine ⟨hhas, ?_⟩
    rw [hbody, terminator?, block_addBlock, if_pos rfl]
    rfl
  · next hopen =>
    exact .pure hb ⟨hcur, by simpa using hopen⟩

/-! ## Instructions -/

/-- Puts an instruction at the end of the current block. -/
def place (k : Instr) (t : Ty) : Build InstId := do
  let b ← get
  require (k.operands.all b.body.admitsNew)
  set (b.setBody (b.body.append b.current k t))
  return b.body.nextInst

lemma emitInst_eq (k : Instr) (t : Ty) : emitInst k t = openBlock >>= fun _ => place k t := by
  rw [emitInst, openBlock, bind_assoc]
  congr 1
  funext terminated
  cases terminated <;> rfl

lemma place_eq_ok (h : place k t b = .ok (i, b')) :
    k.operands.all b.body.admitsNew ∧ i = b.body.nextInst ∧
      b' = b.setBody (b.body.append b.current k t) := by
  change (require (k.operands.all b.body.admitsNew) >>= fun _ =>
    (set (b.setBody (b.body.append b.current k t)) >>= fun _ =>
      pure b.body.nextInst : Build InstId)) b = _ at h
  rw [require] at h
  split at h
  · next hk =>
    cases h
    exact ⟨hk, rfl, rfl⟩
  · cases h

lemma emitInst_eq_ok (strict : Prop) (hb : b.Ready)
    (h : emitInst k t b = .ok (i, b')) : ∃ c : Builder, b.Reaches strict c ∧
      c.body.hasBlock c.current ∧ c.body.terminator? c.current = none ∧
      k.operands.all c.body.admitsNew ∧ i = c.body.nextInst ∧
      b' = c.setBody (c.body.append c.current k t) := by
  rw [emitInst_eq] at h
  obtain ⟨_, c, hopen, hplace⟩ := bind_eq_ok h
  obtain ⟨hreach, hcur, hterm⟩ := makes_openBlock hb _ c hopen
  exact ⟨c, hreach, hcur, hterm, place_eq_ok hplace⟩

variable (hb : b.Ready)
include hb

lemma makes_emit (hplain : k.Plain t) (halloc : k.isAlloc = false)
    (hpend : k.isPendingJump = false) (hclosed : strict → k.Closed b.body) :
    Makes strict (emit k t) b (Named strict) := by
  intro v b' h
  obtain ⟨i, b₁, hemit, hv⟩ := bind_eq_ok h
  cases hv
  obtain ⟨c, hreach, hcur, hopen, hadmits, rfl, rfl⟩ := emitInst_eq_ok strict hb hemit
  have hc := hreach.ready hb
  have hmove : Draft.Move strict c.draft _ :=
    .append c.draft k t hcur hopen hplain halloc hadmits
      fun hs => hreach.grows.closed (hclosed hs)
  rw [if_neg (by simp [hpend])] at hmove
  have hlabels := c.body.labels_append c.current k t
  refine ⟨hreach.trans (reaches_setBody hc hmove hlabels), fun _ => ?_⟩
  rw [body_setBody hc]
  exact defines_nextInst_insertAt _ _ _ _ _

lemma makes_pendingJump : Makes strict pendingJump b fun _ _ => True := by
  intro i b' h
  obtain ⟨j, b₁, hemit, hrest⟩ := bind_eq_ok h
  cases hrest
  obtain ⟨c, hreach, hcur, hopen, hadmits, rfl, rfl⟩ := emitInst_eq_ok strict hb hemit
  have hc := hreach.ready hb
  refine ⟨hreach.trans ⟨rfl, hasFunc_setBody hc _, .single ?_,
    (·.congr (Session.sameLabels_setFunc _ (labels_append _ _ _ _)))⟩, trivial⟩
  have hmove : Draft.Move strict c.draft _ :=
    .append c.draft (.jump none) .void hcur hopen ⟨rfl, nofun, rfl⟩ rfl hadmits
      fun _ => ⟨nofun, nofun⟩
  convert hmove using 1
  simp only [draft, Draft.mk.injEq]
  exact ⟨body_setBody hc _, rfl, rfl⟩

lemma makes_emitFolded (hk : k.isFolded) (hclosed : strict → k.Closed b.body) :
    Makes strict (emitFolded k t) b (Named strict) := by
  rw [emitFolded]
  split
  · exact .pure hb fun _ => rfl
  · next hfold =>
    obtain ⟨halloc, hpend⟩ := Instr.added_of_isFolded hk
    exact makes_emit hb (.of_fold hk hfold) halloc hpend hclosed

lemma makes_typeOf (v : Operand) : Makes strict (typeOf v) b fun _ b' => b' = b := by
  refine makes_get_bind ((Makes.require hb _).bind fun _ b' hreach h => ?_)
  exact .pure (hreach.ready hb) h.1

lemma makes_pointeeOf (ptr : Operand) : Makes strict (pointeeOf ptr) b fun _ b' => b' = b := by
  refine (makes_typeOf hb ptr).bind fun t b' hreach h => ?_
  split
  · exact .pure (hreach.ready hb) h
  · exact .throw _

lemma makes_alloc (t : Ty) : Makes strict (alloc t) b (Named strict) := by
  intro v b' h
  cases h
  have hreach : b.Reaches strict (b.intern (.pointer t)) := reaches_intern hb _
  have hready := hreach.ready hb
  have hent := entry_of_pos ((hasBlock_iff _).mp hready.entry)
  rw [hent]
  refine ⟨hreach.trans (reaches_setBody hready (.reserve _ t hready.entry)
    (sameFrame_prepend _ _ _ _).labels), fun _ => ?_⟩
  rw [body_setBody hready]
  exact defines_nextInst_insertAt _ _ _ _ _

lemma makes_load (hclosed : strict → (Instr.load ptr).Closed b.body) :
    Makes strict (load ptr) b (Named strict) := by
  refine (makes_pointeeOf hb ptr).bind fun t b' _ h => ?_
  subst h
  exact makes_emit hb ⟨rfl, nofun, rfl⟩ rfl rfl hclosed

lemma makes_store (hclosed : strict → (Instr.store v ptr).Closed b.body) :
    Makes strict (store v ptr) b fun _ _ => True := by
  refine (makes_pointeeOf hb ptr).bind fun t b' _ h => ?_
  subst h
  refine (makes_emit (k := .store v ptr) hb ⟨rfl, nofun, rfl⟩ rfl rfl hclosed).bind
    fun _ b₁ hreach _ => ?_
  exact .pure (hreach.ready hb) trivial

lemma makes_element {base : Operand} {offsets : List Operand}
    (hclosed : strict → (Instr.element base offsets).Closed b.body) :
    Makes strict (element base offsets) b (Named strict) := by
  refine (makes_pointeeOf hb base).bind fun t b' _ h => ?_
  subst h
  split
  · exact .throw _
  · next elem _ =>
    have hreach : b'.Reaches strict (b'.intern (.pointer elem)) := reaches_intern hb _
    refine makes_modify_bind hreach (makes_emit (hreach.ready hb) ⟨rfl, nofun, rfl⟩ rfl rfl ?_)
    exact hclosed

lemma makes_spillArguments : Makes strict spillArguments b fun _ _ => True := by
  refine makes_get_bind (.mapM hb ?_)
  rintro ⟨p, n⟩ hp b' hreach
  have hready := hreach.ready hb
  refine (makes_alloc hready p.ty).bind fun slot b₁ hreach₁ hslot => ?_
  have hready₁ := hreach₁.ready hready
  refine (makes_store hready₁ fun hs => ⟨fun v hv => ?_, nofun⟩).bind fun _ b₂ hreach₂ _ =>
    .pure (hreach₂.ready hready₁) trivial
  have hn : b.body.defines (.arg n) := by
    have hlt := snd_lt_of_mem_zipIdx hp
    rw [Func.defines]
    simpa using hlt
  rcases mem_cons.mp hv with rfl | hv
  · exact (hreach.trans hreach₁).grows.defines hn
  · rw [mem_singleton.mp hv]
    exact hslot hs

/-! ## Calls -/

lemma makes_call {callee : FuncId}
    (hclosed : strict → (Instr.call callee args none).Closed b.body) :
    Makes strict (call callee args) b (Named strict) := by
  refine makes_get_bind ((Makes.require hb _).bind fun _ b' hreach h => ?_)
  obtain ⟨rfl, -⟩ := h
  exact makes_emit hb ⟨rfl, nofun, rfl⟩ rfl rfl hclosed

lemma makes_builtin (f : Builtin) : Makes strict (builtin f) b fun _ b' => b'.body = b.body := by
  intro id b' h
  cases h
  obtain ⟨hhas, hbody⟩ := b.session.func_builtin f hb.hasFunc
  exact ⟨.of_body_eq hhas hbody (·.congr (b.session.sameLabels_builtin f)), hbody⟩

lemma makes_callBuiltin {f : Builtin} (hclosed : strict → ∀ v ∈ args, b.body.defines v) :
    Makes strict (callBuiltin f args) b (Named strict) := by
  refine (makes_builtin hb f).bind fun id b' hreach hbody => ?_
  exact makes_call (hreach.ready hb) fun hs => ⟨hbody ▸ hclosed hs, nofun⟩

lemma makes_print {format : String} (hclosed : strict → ∀ v ∈ args, b.body.defines v) :
    Makes strict (print format args) b (Named strict) := by
  refine (makes_builtin hb .printf).bind fun _ b' hreach hbody => ?_
  have hready := hreach.ready hb
  refine makes_get_bind ?_
  have hreach₁ : b'.Reaches strict
      { b' with
        session := { b'.session with program := (b'.session.program.addString format).2 } } :=
    .of_body_eq hready.hasFunc rfl id
  refine makes_set_bind hreach₁ (makes_emit (hreach₁.ready hready) ⟨rfl, nofun, rfl⟩ rfl rfl ?_)
  exact fun hs => ⟨hbody ▸ hclosed hs, nofun⟩

lemma makes_zeroFill (hptr : strict → b.body.defines ptr) :
    Makes strict (zeroFill ptr) b fun _ _ => True := by
  refine (makes_pointeeOf hb ptr).bind fun t b' _ h => ?_
  subst h
  dsimp only
  split
  · rintro a b'' h
    cases h
  have hreach : b'.Reaches strict (b'.intern (.pointer .i32)) := reaches_intern hb _
  have hready := hreach.ready hb
  have hcast : Makes strict (cast .bitcast ptr (.pointer .i32)) (b'.intern (.pointer .i32))
      (Named strict) := by
    refine makes_emitFolded hready rfl fun hs => ⟨fun v hv => ?_, nofun⟩
    rw [mem_singleton.mp hv]
    exact hptr hs
  refine makes_modify_bind hreach (hcast.bind fun raw b₁ hreach₁ hraw => ?_)
  refine (makes_callBuiltin (hreach₁.ready hready) fun hs v hv => ?_).bind fun _ b₂ hreach₂ _ =>
    .pure (hreach₂.ready (hreach₁.ready hready)) trivial
  simp only [mem_cons, not_mem_nil, or_false] at hv
  rcases hv with rfl | rfl | rfl
  · exact hraw hs
  · rfl
  · rfl

/-! ## Terminators -/

lemma makes_jump (hc : strict → b.body.hasBlock c) : Makes strict (jump c) b fun _ _ => True := by
  refine (makes_emit (k := .jump (some c)) hb ⟨rfl, nofun, rfl⟩ rfl rfl
    fun hs => ⟨nofun, fun x hx => ?_⟩).bind fun _ b' hreach _ => .pure (hreach.ready hb) trivial
  rw [mem_singleton.mp hx]
  exact hc hs

lemma makes_branch {x y : BlockId} (hclosed : strict → (Instr.branch v x y).Closed b.body) :
    Makes strict (branch v x y) b fun _ _ => True := by
  rw [branch]
  split
  · next c _ =>
    refine makes_jump hb fun hs => (hclosed hs).targets _ ?_
    split
    · exact .tail x (.head _)
    · exact .head _
  · next hconst =>
    refine (makes_emit hb ⟨rfl, ?_, rfl⟩ rfl rfl hclosed).bind
      fun _ b' hreach _ => .pure (hreach.ready hb) trivial
    rintro c x' y' h
    cases h
    exact hconst

lemma makes_ret {v : Option Operand} (hclosed : strict → (Instr.ret v).Closed b.body) :
    Makes strict (ret v) b fun _ _ => True :=
  (makes_emit hb (.ret v) rfl rfl hclosed).bind
    fun _ _ hreach _ => .pure (hreach.ready hb) trivial

end Build

end MiddleEnd
