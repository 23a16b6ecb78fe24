import MiddleEnd.Proofs.Inlining.Calls
import MiddleEnd.Proofs.Program

/-!
# Replaced calls in a program

When calls are replaced, only their caller changes.  Declarations of functions may be added.
-/

namespace MiddleEnd

open List Program Func Nat EStateM

lemma Func.SameHead.isDefined {f g : Func} (h : f.SameHead g) : g.isDefined = f.isDefined := by
  rw [Func.isDefined, Func.isDefined, h.external, h.deleted]

lemma Func.consistent_new (name : String) (ret : Ty) (params : List Ty) (external : Bool) :
    ({ new name ret params with external } : Func).Consistent := by
  rw [consistent_iff]
  refine ⟨fun n hn => ?_, fun n hn => ?_, .nil, fun b hb => ?_, fun n hn => ?_, rfl⟩
  · exact absurd hn (not_lt_zero n)
  · exact absurd hn (not_lt_zero n)
  · cases hb
  · exact absurd hn (not_lt_zero n)

lemma Func.consistent_default : (default : Func).Consistent := by
  decide

namespace Inlining

variable {call : InstId} {body : Func} {memset : Option FuncId} {s t : Session}

/-- No function that is in use is the one that fills memory. -/
structure FillDeclared (s : Session) : Prop where
  named : ∀ f, (s.program.func f).name = Builtin.memset.name →
    (s.program.func f).isDefined = false
  known : ∀ f, s.context.builtin? .memset = some f → (s.program.func f).isDefined = false

/-- What a declaration does to a program: at most it adds a function without blocks. -/
structure Declared (p q : Program) : Prop where
  size : p.funcs.size ≤ q.funcs.size
  other : ∀ f, f.idx < p.funcs.size → q.func f = p.func f
  added : ∀ f, p.funcs.size ≤ f.idx → f.idx < q.funcs.size →
    (q.func f).external ∧ (q.func f).deleted = false ∧ (q.func f).Consistent

/-- Only the caller changes, and declarations are added. -/
structure Changed (caller : FuncId) (p q : Program) : Prop where
  caller_lt : caller.idx < p.funcs.size
  size : p.funcs.size ≤ q.funcs.size
  other : ∀ g, g ≠ caller → g.idx < p.funcs.size → q.func g = p.func g
  added : ∀ g, p.funcs.size ≤ g.idx → g.idx < q.funcs.size →
    (q.func g).external ∧ (q.func g).deleted = false ∧ (q.func g).Consistent
  head : (p.func caller).SameHead (q.func caller)

/-- The program in which the callers in `done` may have changed. -/
structure Touched (p₀ : Program) (done : List FuncId) (p : Program) : Prop where
  size : p₀.funcs.size ≤ p.funcs.size
  kept : ∀ f, f ∉ done → f.idx < p₀.funcs.size → p.func f = p₀.func f
  head : ∀ f, f.idx < p₀.funcs.size → (p₀.func f).SameHead (p.func f)

namespace Changed

variable {caller : FuncId} {p q r : Program} {f : FuncId}

lemma refl (hcaller : caller.idx < p.funcs.size) : Changed caller p p :=
  ⟨hcaller, Nat.le_refl _, fun _ _ _ => rfl, fun _ hle hlt => absurd hlt (Nat.not_lt_of_le hle),
    .refl _⟩

lemma of_declared {g : Func} (hcaller : caller.idx < p.funcs.size) (hpq : Declared p q)
    (hhead : (p.func caller).SameHead g) : Changed caller p (q.setFunc caller g) := by
  have hlt := lt_of_lt_of_le hcaller hpq.size
  have hsize : (q.setFunc caller g).funcs.size = q.funcs.size := Array.size_setIfInBounds
  refine ⟨hcaller, hsize ▸ hpq.size, fun f hne hlt' => ?_, fun f hle hlt' => ?_, ?_⟩
  · rw [func_setFunc_of_lt hlt, if_neg hne, hpq.other f hlt']
  · have hne : f ≠ caller := by
      rintro rfl
      exact absurd hcaller (Nat.not_lt_of_le hle)
    rw [func_setFunc_of_lt hlt, if_neg hne]
    exact hpq.added f hle (hsize ▸ hlt')
  · rwa [func_setFunc_of_lt hlt, if_pos rfl]

variable (hpq : Changed caller p q)
include hpq

lemma isDefined (hf : f.idx < p.funcs.size) :
    (q.func f).isDefined = (p.func f).isDefined := by
  by_cases hfc : f = caller
  · rw [hfc, hpq.head.isDefined]
  · rw [hpq.other f hfc hf]

lemma trans (hqr : Changed caller q r) : Changed caller p r where
  caller_lt := hpq.caller_lt
  size := hpq.size.trans hqr.size
  other g hg hlt := by
    rw [hqr.other g hg (lt_of_lt_of_le hlt hpq.size), hpq.other g hg hlt]
  added g hle hlt := by
    rcases lt_or_ge g.idx q.funcs.size with hq | hq
    · have hne : g ≠ caller := by
        rintro rfl
        exact absurd hpq.caller_lt (Nat.not_lt_of_le hle)
      rw [hqr.other g hne hq]
      exact hpq.added g hle hq
    · exact hqr.added g hq hlt
  head := hpq.head.trans hqr.head

lemma touched {p₀ : Program} {done : List FuncId} (hp : Touched p₀ done p) :
    Touched p₀ (done ++ [caller]) q where
  size := hp.size.trans hpq.size
  kept f hf hlt := by
    rw [mem_append, mem_singleton, not_or] at hf
    rw [hpq.other f hf.2 (lt_of_lt_of_le hlt hp.size), hp.kept f hf.1 hlt]
  head f hlt := by
    by_cases hf : f = caller
    · subst hf
      exact (hp.head f hlt).trans hpq.head
    · rw [hpq.other f hf (lt_of_lt_of_le hlt hp.size)]
      exact hp.head f hlt

end Changed

/-- What some replaced calls do to a program. -/
structure Inlined (caller : FuncId) (calls : List (InstId × FuncId)) (p q : Program) : Prop
    extends changed : Changed caller p q where
  consistent : (q.func caller).Consistent
  entry : entry? (q.func caller) = entry? (p.func caller)
  placed : ∀ u, (p.func caller).placed u → (q.func caller).placed u
  calls : ∀ u h, (q.func caller).placed u → ((q.func caller).instr u).callee? = some h →
    (u ∉ calls.map Prod.fst ∧ (p.func caller).placed u ∧
      ((p.func caller).instr u).callee? = some h) ∨
    (∃ c ∈ calls, h ∈ (p.func c.2).calls) ∨ (q.func h).isDefined = false

namespace Inlined

variable {caller : FuncId} {p q r : Program} {as bs : List (InstId × FuncId)} {f : FuncId}

lemma refl (hcaller : caller.idx < p.funcs.size) (hp : (p.func caller).Consistent) :
    Inlined caller [] p p :=
  ⟨.refl hcaller, hp, rfl, fun _ hu => hu, fun _ _ hu hh => Or.inl ⟨not_mem_nil, hu, hh⟩⟩

variable (hpq : Inlined caller as p q)
include hpq

lemma entry_eq (hf : f.idx < p.funcs.size) :
    entry? (q.func f) = entry? (p.func f) := by
  by_cases hfc : f = caller
  · rw [hfc, hpq.entry]
  · rw [hpq.other f hfc hf]

lemma forall_consistent (hp : ∀ f, (p.func f).Consistent) (f : FuncId) :
    (q.func f).Consistent := by
  by_cases hfc : f = caller
  · rw [hfc]
    exact hpq.consistent
  · rcases lt_or_ge f.idx p.funcs.size with hlt | hge
    · rw [hpq.other f hfc hlt]
      exact hp f
    · rcases lt_or_ge f.idx q.funcs.size with hlt | hge'
      · exact (hpq.added f hge hlt).2.2
      · rw [func_of_size_le hge']
        exact consistent_default

lemma trans (hqr : Inlined caller bs q r) (hbs : ∀ c ∈ bs, c.2 ≠ caller ∧ c.2.idx < p.funcs.size) :
    Inlined caller (as ++ bs) p r where
  changed := hpq.changed.trans hqr.changed
  consistent := hqr.consistent
  entry := hqr.entry.trans hpq.entry
  placed u hu := hqr.placed u (hpq.placed u hu)
  calls u h hu hh := by
    rw [map_append, mem_append, not_or]
    rcases hqr.calls u h hu hh with ⟨hnot, hu, hh⟩ | ⟨c, hc, hh⟩ | hh
    · rcases hpq.calls u h hu hh with ⟨hnot', hu, hh⟩ | ⟨c, hc, hh⟩ | hh
      · exact Or.inl ⟨⟨hnot', hnot⟩, hu, hh⟩
      · exact Or.inr (Or.inl ⟨c, mem_append_left bs hc, hh⟩)
      · rw [← hqr.isDefined (lt_size_of_not_isDefined hh)] at hh
        exact Or.inr (Or.inr hh)
    · rw [hpq.other _ (hbs c hc).1 (hbs c hc).2] at hh
      exact Or.inr (Or.inl ⟨c, mem_append_right as hc, hh⟩)
    · exact Or.inr (Or.inr hh)

end Inlined

/-! ## One call -/

lemma Declared.of_funcs_eq {p q : Program} (h : q.funcs = p.funcs) : Declared p q := by
  have hfunc (f : FuncId) : q.func f = p.func f := by rw [func, h]; rfl
  refine ⟨(congrArg Array.size h).ge, fun f _ => hfunc f, fun f hle hlt => ?_⟩
  rw [h] at hlt
  exact absurd hlt (Nat.not_lt_of_le hle)

lemma declared_addFunc (p : Program) (name : String) (ret : Ty) (params : List Ty) :
    Declared p (p.addFunc { new name ret params with external := true }).2 := by
  refine ⟨?_, fun f hf => ?_, fun f hle hlt => ?_⟩
  · change _ ≤ (p.funcs.push _).size
    rw [Array.size_push]
    omega
  · rw [Program.func_addFunc, if_neg (Nat.ne_of_lt hf)]
  · change f.idx < (p.funcs.push _).size at hlt
    rw [Array.size_push] at hlt
    rw [func_addFunc, if_pos (by omega)]
    exact ⟨rfl, rfl, consistent_new name ret params true⟩

lemma declared_declareBuiltin (p : Program) : Declared p (p.declareBuiltin .memset).2 := by
  rw [declareBuiltin, declare]
  split
  · exact .of_funcs_eq rfl
  · have hdecl := declared_addFunc { p with types := Builtin.internParts p.types }
      Builtin.memset.name Builtin.memset.ret Builtin.memset.params
    exact ⟨hdecl.size, hdecl.other, hdecl.added⟩

lemma isDefined_declareBuiltin {p : Program}
    (hnamed : ∀ f, (p.func f).name = Builtin.memset.name → (p.func f).isDefined = false) :
    ((p.declareBuiltin .memset).2.func (p.declareBuiltin .memset).1).isDefined = false ∧
      ∀ f, ((p.declareBuiltin .memset).2.func f).name = Builtin.memset.name →
        ((p.declareBuiltin .memset).2.func f).isDefined = false := by
  rw [declareBuiltin, declare]
  split
  · next f hf => exact ⟨hnamed f (name_of_findFunc?_eq_some hf), hnamed⟩
  · refine ⟨?_, fun f hf => ?_⟩
    · rw [func_addFunc]
      exact congrArg isDefined (if_pos rfl)
    · rw [func_addFunc] at hf ⊢
      split at hf
      · next hidx =>
        rw [if_pos hidx]
        rfl
      · next hidx =>
        rw [if_neg hidx]
        exact hnamed f hf

lemma declareFill_eq (s : Session) : declareFill s = .ok (s.builtin .memset).1
    { (s.builtin .memset).2 with
      program := (s.builtin .memset).2.program.intern (.pointer .i32) } :=
  rfl

lemma declared_builtin (s : Session) : Declared s.program (s.builtin .memset).2.program := by
  rw [Session.builtin]
  split
  · exact .of_funcs_eq rfl
  · exact declared_declareBuiltin s.program

lemma exists_fillFor (body : Func) (s : Session) : ∃ memset t, fillFor body s = .ok memset t ∧
    Declared s.program t.program ∧ (needsFill body → memset ≠ none) := by
  rw [fillFor]
  split
  · have hdecl := declared_builtin s
    exact ⟨some (s.builtin .memset).1, _, rfl,
      ⟨hdecl.size, hdecl.other, hdecl.added⟩, fun _ => Option.some_ne_none _⟩
  · next hneeds => exact ⟨none, s, rfl, .of_funcs_eq rfl, fun h => absurd h hneeds⟩

lemma declareFill_eq_ok {m : FuncId} (hs : FillDeclared s) (h : declareFill s = .ok m t) :
    FillDeclared t ∧ (t.program.func m).isDefined = false := by
  rw [declareFill_eq] at h
  obtain ⟨rfl, rfl⟩ := Result.ok.inj h
  rw [Session.builtin]
  split
  · next f hf => exact ⟨⟨hs.named, hs.known⟩, hs.known f hf⟩
  · next hnone =>
    obtain ⟨hdef, hnamed⟩ := isDefined_declareBuiltin hs.named
    refine ⟨⟨hnamed, fun g hg => ?_⟩, hdef⟩
    have heq : (s.program.declareBuiltin .memset).1 = g := by
      have hlook : s.context.builtins.lookup .memset = none := hnone
      rw [Context.builtin?, lookup_append, hlook] at hg
      exact Option.some.inj hg
    rw [← heq]
    exact hdef

lemma fillFor_eq_ok (hs : FillDeclared s) (h : fillFor body s = .ok memset t) :
    FillDeclared t ∧ ∀ m, memset = some m → (t.program.func m).isDefined = false := by
  rw [fillFor] at h
  split at h
  · obtain ⟨m, hm, rfl⟩ := map_eq_ok h
    obtain ⟨ht, hdef⟩ := declareFill_eq_ok hs hm
    exact ⟨ht, fun m' hm' => Option.some.inj hm' ▸ hdef⟩
  · obtain ⟨rfl, rfl⟩ := Result.ok.inj h
    exact ⟨hs, fun m hm => by (cases hm)⟩

lemma declared_of_fillFor (h : fillFor body s = .ok memset t) : Declared s.program t.program := by
  obtain ⟨memset', t', h', hdecl, -⟩ := exists_fillFor body s
  rw [h'] at h
  obtain ⟨-, rfl⟩ := Result.ok.inj h
  exact hdecl

lemma eq_ok_of_mapError {ε ε' α : Type} {x : Except ε α} {k : ε → ε'} {a : α}
    (h : x.mapError k = .ok a) : x = .ok a := by
  cases x with
  | ok b => exact congrArg Except.ok (Except.ok.inj h)
  | error e => cases h

lemma builtins_markInlined (c : Context) (f : FuncId) :
    (c.markInlined f).builtins = c.builtins := by
  rw [Context.markInlined]
  split <;> rfl

lemma inlineCall_eq_ok {caller callee : FuncId} (h : inlineCall caller call callee s = .ok () t) :
    ∃ body memset s₁ st n w, reachablePart (s.program.func callee) = .ok body ∧
      fillFor body s = .ok memset s₁ ∧
      site (s₁.program.func caller) call body = .ok st ∧
      expand st n memset { func := s₁.program.func caller } = .ok () w ∧
      t.program = s₁.program.setFunc caller w.func ∧
      t.context.builtins = s₁.context.builtins := by
  rw [inlineCall, Compile.program_bind] at h
  obtain ⟨body, s', hlift, h₁⟩ := bind_eq_ok h
  obtain ⟨hbody, rfl⟩ := Compile.lift_eq_ok hlift
  obtain ⟨memset, s₁, hset, h₂⟩ := bind_eq_ok h₁
  rw [Compile.program_bind] at h₂
  obtain ⟨st, s', hlift, h₃⟩ := bind_eq_ok h₂
  obtain ⟨hsite, rfl⟩ := Compile.lift_eq_ok hlift
  obtain ⟨n, s₂, hn, h₄⟩ := bind_eq_ok h₃
  obtain ⟨rfl, rfl⟩ := Result.ok.inj hn
  obtain ⟨⟨⟩, s₃, htransform, h₅⟩ := bind_eq_ok h₄
  obtain ⟨w, hexpand, rfl⟩ := Compile.transform_eq_ok htransform
  obtain rfl := (Result.ok.inj h₅).2
  refine ⟨body, memset, _, st, _, w, hbody, hset, eq_ok_of_mapError hsite, hexpand, rfl, ?_⟩
  exact builtins_markInlined _ callee

lemma site_eq_ok {f callee : Func} {st : Site} (h : site f call callee = .ok st) :
    st.call = call ∧ st.callee = callee ∧ callee.entry? = some st.calleeEntry ∧
      f.entry? = some st.callerEntry ∧ ∃ g format, f.instr call = .call g st.args format := by
  rw [site] at h
  split at h
  · grind
  all_goals cases h

lemma inlined_inlineCall {caller callee : FuncId} (hs : FillDeclared s)
    (hcons : ∀ f, (s.program.func f).Consistent) (hcaller : caller.idx < s.program.funcs.size)
    (hpl : (s.program.func caller).placed call)
    (h : inlineCall caller call callee s = .ok () t) :
    FillDeclared t ∧ Inlined caller [(call, callee)] s.program t.program := by
  obtain ⟨body, memset, s₁, st, n, w, hbody, hset, hsite, hexpand, hprog, hbuiltins⟩ :=
    inlineCall_eq_ok h
  obtain ⟨hs₁, hfill⟩ := fillFor_eq_ok hs hset
  have hdecl := declared_of_fillFor hset
  obtain ⟨rfl, rfl, hcalleeEntry, hcallerEntry, -⟩ := site_eq_ok hsite
  have hrestricts := restricts_reachablePart (hcons callee) hbody
  have hfunc := hdecl.other caller hcaller
  rw [hfunc] at hexpand hcallerEntry
  have hf := hcons caller
  have hlive := Formed.live_of_placed hpl
  obtain ⟨pre, post, hsplit⟩ := append_of_mem (hf.mem_of_live hlive)
  obtain ⟨clears, merge, value, m, hexp⟩ := expand_eq_ok (w := { func := s.program.func caller })
    hf hrestricts.consistent hlive (hasBlock_entry hcallerEntry)
    ((hrestricts.consistent.mem_layout _).mpr (hasBlock_entry hcalleeEntry)) hsplit hexpand
  have hhead := hexp.spliced.ext.head.trans hexp.places.head
  have hfunc' (g : FuncId) :
      t.program.func g = if g = caller then w.func else s₁.program.func g := by
    rw [hprog, func_setFunc_of_lt (lt_of_lt_of_le hcaller hdecl.size)]
  have hself : t.program.func caller = w.func := by rw [hfunc', if_pos rfl]
  have hdef (g : FuncId) : (t.program.func g).isDefined = (s₁.program.func g).isDefined := by
    rw [hfunc']
    split
    · next hg => rw [hhead.isDefined, hg, hfunc]
    · rfl
  refine ⟨⟨fun g hg => ?_, fun g hg => ?_⟩, hprog ▸ .of_declared hcaller hdecl hhead, ?_, ?_,
    fun u hu => ?_, fun u c hu hc => ?_⟩
  · rw [hdef]
    refine hs₁.named g ?_
    rw [hfunc'] at hg
    split at hg
    · next heq => rw [← hg, hhead.name, heq, hfunc]
    · exact hg
  · rw [hdef]
    refine hs₁.known g ?_
    rwa [Context.builtin?, hbuiltins] at hg
  · rw [hself]
    exact hexp.places.consistent hexp.spliced.ext.consistent
  · have hpos := hasBlock_iff _ |>.mp (hasBlock_entry hcallerEntry)
    rw [hself, entry_of_pos (zero_lt_of_lt hpos), entry_of_pos]
    rw [hexp.places.blocks, hexp.spliced.ext.blocks]
    omega
  · rw [hself]
    exact hexp.placed hf hsplit hu
  · rw [hself] at hu hc
    rcases hexp.callee?_eq_some hf hrestricts.consistent hpl hsplit hu hc with
      ⟨hne, hu', hc'⟩ | ⟨-, hcalls | hcalls⟩
    · grind
    · exact Or.inr (Or.inl ⟨_, mem_singleton_self _,
        hrestricts.calls_subset (hcons callee) hcalls⟩)
    · grind

lemma inlined_forM {caller : FuncId} {calls : List (InstId × FuncId)} (hs : FillDeclared s)
    (hcons : ∀ f, (s.program.func f).Consistent) (hcaller : caller.idx < s.program.funcs.size)
    (hcalls : ∀ c ∈ calls, (s.program.func caller).placed c.1 ∧ c.2 ≠ caller ∧
      c.2.idx < s.program.funcs.size)
    (h : (calls.forM fun c => inlineCall caller c.1 c.2 : Compile Unit) s = .ok () t) :
    FillDeclared t ∧ Inlined caller calls s.program t.program := by
  induction calls generalizing s with
  | nil =>
    obtain rfl := (Result.ok.inj h).2
    exact ⟨hs, .refl hcaller (hcons caller)⟩
  | cons c calls ih =>
    rw [forall_mem_cons] at hcalls
    obtain ⟨⟨⟩, s₁, hfirst, hrest⟩ := bind_eq_ok h
    obtain ⟨hs₁, hinl⟩ := inlined_inlineCall hs hcons hcaller hcalls.1.1 hfirst
    have hcalls' : ∀ d ∈ calls, (s₁.program.func caller).placed d.1 ∧ d.2 ≠ caller ∧
        d.2.idx < s₁.program.funcs.size := by
      intro d hd
      obtain ⟨hpl, hne, hlt⟩ := hcalls.2 d hd
      exact ⟨hinl.placed _ hpl, hne, lt_of_lt_of_le hlt hinl.size⟩
    obtain ⟨ht, hinlined'⟩ := ih hs₁ (hinl.forall_consistent hcons)
      (lt_of_lt_of_le hcaller hinl.size) hcalls' hrest
    exact ⟨ht, hinl.trans hinlined' fun d hd => (hcalls.2 d hd).2⟩

end Inlining

end MiddleEnd
