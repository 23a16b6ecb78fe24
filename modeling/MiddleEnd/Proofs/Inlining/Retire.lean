import MiddleEnd.Proofs.History
import MiddleEnd.Proofs.Inlining.Step

/-!
# Retired functions

Callers are treated after their callees, so when a call is replaced by a copy, the copy has no call
that could be replaced in turn.  At the end no function has a call that could still be replaced:
what has been inlined is not called any more.
-/

namespace MiddleEnd

open List Nat Program EStateM

namespace Inlining

variable {f : FuncId} {s t : Session} {p p₀ q : Program} {graph : CallGraph}
  {threshold : Option Nat} {caller : FuncId} {done : List FuncId} {callee : FuncId}
  {out rest : List FuncId}

/-! ## All calls -/

lemma mem_candidates {c : InstId × FuncId} : c ∈ candidates p graph threshold caller ↔
    (p.func caller).isDefined ∧ c.1 ∈ (p.func caller).liveInsts ∧
      ((p.func caller).instr c.1).callee? = some c.2 ∧
      isInlinable p graph threshold caller c.2 := by
  rw [candidates]
  split
  · next hdef =>
    rw [mem_filterMap]
    constructor
    · rintro ⟨i, hi, h⟩
      split at h
      · next callee args format hinstr =>
        split at h
        · next hinlinable =>
          obtain rfl := Option.some.inj h
          exact ⟨hdef, hi, by rw [hinstr]; rfl, hinlinable⟩
        · cases h
      · cases h
    · rintro ⟨-, hi, hcallee, hinlinable⟩
      refine ⟨c.1, hi, ?_⟩
      cases hinstr : (p.func caller).instr c.1 with
      | call callee args format =>
        rw [hinstr] at hcallee
        obtain rfl : callee = c.2 := Option.some.inj hcallee
        exact if_pos hinlinable
      | _ =>
        rw [hinstr] at hcallee
        cases hcallee
  · next hdef => simp [hdef]

lemma isInlinable_iff : isInlinable p graph threshold caller callee ↔
    callee ≠ caller ∧ graph.isRecursive callee = false ∧ (p.func callee).isDefined ∧
      Func.entry? (p.func callee) ≠ none ∧ ∀ n ∈ threshold, (p.func callee).instCount ≤ n := by
  simp only [isInlinable, Bool.and_eq_true, decide_eq_true_eq, Bool.not_eq_true',
    Option.isSome_iff_ne_none, Option.all_eq_true, Option.mem_def, and_assoc]

/-- Calls of the function cannot be replaced, now or later, if `done` are the callers treated. -/
def Blocked (graph : CallGraph) (threshold : Option Nat) (done : List FuncId) (p : Program)
    (f : FuncId) : Prop :=
  graph.isRecursive f ∨ (p.func f).isDefined = false ∨ Func.entry? (p.func f) = none ∨
    f ∈ done ∧ ∃ n ∈ threshold, n < (p.func f).instCount

lemma blocked_of_not_isInlinable
    (hself : callee = caller → graph.isRecursive callee)
    (hdone : graph.isRecursive callee = false → callee ∈ done)
    (h : ¬isInlinable p graph threshold caller callee) :
    Blocked graph threshold done p callee := by
  cases hrecursive : graph.isRecursive callee with
  | true => exact Or.inl hrecursive
  | false =>
    refine Or.inr (Classical.byContradiction fun hblocked => h (isInlinable_iff.mpr ?_))
    rw [not_or, not_or, Bool.not_eq_false] at hblocked
    refine ⟨fun heq => ?_, hrecursive, hblocked.1, hblocked.2.1, fun n hn => ?_⟩
    · simp_all
    · exact Nat.le_of_not_lt fun hlt => hblocked.2.2 ⟨hdone hrecursive, n, hn, hlt⟩

lemma Inlined.blocked {calls : List (InstId × FuncId)} (hpq : Inlined caller calls p q)
    (hcaller : caller ∉ done) (hf : Blocked graph threshold done p f) :
    Blocked graph threshold (done ++ [caller]) q f := by
  rcases lt_or_ge f.idx p.funcs.size with hlt | hge
  · rcases hf with hrecursive | hdef | hent | ⟨hdone, n, hn, hcnt⟩
    · exact Or.inl hrecursive
    · exact Or.inr (Or.inl ((hpq.isDefined hlt).trans hdef))
    · exact Or.inr (Or.inr (Or.inl ((hpq.entry_eq hlt).trans hent)))
    · refine Or.inr (Or.inr (Or.inr ⟨mem_append_left _ hdone, n, hn, ?_⟩))
      rwa [hpq.other f (fun heq => hcaller (heq ▸ hdone)) hlt]
  · -- what is not there yet is declared later, if at all
    rcases lt_or_ge f.idx q.funcs.size with hlt' | hge'
    · have hexternal := (hpq.added f hge hlt').1
      exact Or.inr (Or.inl (by rw [Func.isDefined, hexternal]; rfl))
    · refine Or.inr (Or.inr (Or.inl ?_))
      rw [func_of_size_le hge']
      rfl

/-- The program when the callers in `done` have been treated. -/
structure Progress (p₀ : Program) (graph : CallGraph) (threshold : Option Nat)
    (done : List FuncId) (p : Program) : Prop extends touched : Touched p₀ done p where
  consistent : ∀ f, (p.func f).Consistent
  added : ∀ f, p₀.funcs.size ≤ f.idx → f.idx < p.funcs.size →
    (p.func f).external ∧ (p.func f).deleted = false
  blocked : ∀ f ∈ done, (p.func f).isDefined →
    ∀ g ∈ (p.func f).calls, Blocked graph threshold done p g

lemma Progress.init (hp : ∀ f, (p.func f).Consistent) : Progress p graph threshold [] p :=
  ⟨⟨le_refl _, fun _ _ _ => rfl, fun _ _ => .refl _⟩, hp,
    fun _ hle hlt => absurd hlt (Nat.not_lt_of_le hle), nofun⟩

lemma inlineInto_eq_ok (h : inlineInto graph threshold caller s = .ok out t) :
    out = (candidates s.program graph threshold caller).map Prod.snd ∧
      ((candidates s.program graph threshold caller).forM
        fun c => inlineCall caller c.1 c.2 : Compile Unit) s = .ok () t := by
  rw [inlineInto, Compile.program_bind] at h
  obtain ⟨⟨⟩, t', hcalls, hout⟩ := bind_eq_ok h
  obtain ⟨rfl, rfl⟩ := Result.ok.inj hout
  exact ⟨rfl, hcalls⟩

/-- One more caller is treated.  What it calls and can be inlined has been treated before. -/
lemma Progress.inlineInto (hgraph : CallGraph.Of p₀ graph)
    (horder : graph.bottomUp = done ++ caller :: rest)
    (hp : Progress p₀ graph threshold done s.program) (hs : FillDeclared s)
    (h : Inlining.inlineInto graph threshold caller s = .ok out t) :
    Progress p₀ graph threshold (done ++ [caller]) t.program ∧ FillDeclared t ∧
      (∀ f ∈ done, t.program.func f = s.program.func f) ∧
      ∀ f ∈ out, f ∈ done ∧ ¬Blocked graph threshold done s.program f := by
  obtain ⟨rfl, hcalls⟩ := inlineInto_eq_ok h
  have hlt (f : FuncId) (hf : f ∈ graph.bottomUp) : f.idx < p₀.funcs.size := hgraph.mem_bottomUp.mp hf
  have hcaller := hlt caller (by simp [horder])
  have hnot : caller ∉ done := by
    have hnd := hgraph.nodup_bottomUp
    rw [horder, nodup_append] at hnd
    exact fun hmem => hnd.2.2 caller hmem caller (.head _) rfl
  have hsame := hp.kept caller hnot hcaller
  -- a callee of the caller that is not recursive has been treated
  have hbefore {u : InstId} {f : FuncId} (hdef : (s.program.func caller).isDefined)
      (hu : (s.program.func caller).placed u)
      (hf : ((s.program.func caller).instr u).callee? = some f)
      (hrecursive : graph.isRecursive f = false) : f ∈ done := by
    refine hgraph.mem_before horder ⟨hsame ▸ hdef, ?_⟩ hrecursive
    rw [← hsame]
    exact Func.mem_calls.mpr ⟨u, (hp.consistent caller).mem_liveInsts.mpr hu, hf⟩
  have hcand {c : InstId × FuncId} (hc : c ∈ candidates s.program graph threshold caller) :
      (s.program.func caller).placed c.1 ∧ c.2 ∈ done ∧ c.2 ≠ caller ∧
        ¬Blocked graph threshold done s.program c.2 := by
    obtain ⟨hdef, hlive, hcallee, hinlinable⟩ := mem_candidates.mp hc
    obtain ⟨hne, hrecursive, hdef', hent, hcnt⟩ := isInlinable_iff.mp hinlinable
    have hpl := (hp.consistent caller).mem_liveInsts.mp hlive
    refine ⟨hpl, hbefore hdef hpl hcallee hrecursive, hne, ?_⟩
    rintro (h | h | h | ⟨-, n, hn, h⟩)
    · rw [hrecursive] at h
      cases h
    · rw [hdef'] at h
      cases h
    · exact hent h
    · exact absurd h (Nat.not_lt_of_le (hcnt n hn))
  have hlt' (f : FuncId) (hf : f ∈ done) : f.idx < s.program.funcs.size :=
    Nat.lt_of_lt_of_le (hlt f (by simp [horder, hf])) hp.size
  obtain ⟨ht, hinl⟩ := inlined_forM hs hp.consistent (Nat.lt_of_lt_of_le hcaller hp.size)
    (fun c hc => ⟨(hcand hc).1, (hcand hc).2.2.1, hlt' _ (hcand hc).2.1⟩) hcalls
  have hkept (f : FuncId) (hf : f ∈ done) : t.program.func f = s.program.func f :=
    hinl.other f (fun heq => hnot (heq ▸ hf)) (hlt' f hf)
  refine ⟨⟨hinl.touched hp.touched, hinl.forall_consistent hp.consistent, fun f hle hlt => ?_,
    fun f hf hdef g hg => ?_⟩, ht, hkept, fun f hf => ?_⟩
  · rcases Nat.lt_or_ge f.idx s.program.funcs.size with hlt' | hge
    · have hne : f ≠ caller := by
        rintro rfl
        exact absurd hcaller (Nat.not_lt_of_le hle)
      rw [hinl.other f hne hlt']
      exact hp.added f hle hlt'
    · obtain ⟨hexternal, hdel, -⟩ := hinl.added f hge hlt
      exact ⟨hexternal, hdel⟩
  · rw [mem_append, mem_singleton] at hf
    rcases hf with hf | rfl
    · rw [hkept f hf] at hdef hg
      exact hinl.blocked hnot (hp.blocked f hf hdef g hg)
    · have hdef' : (s.program.func f).isDefined := hinl.head.isDefined ▸ hdef
      obtain ⟨u, hu, hcallee⟩ := Func.mem_calls.mp hg
      rcases hinl.calls u g (hinl.consistent.mem_liveInsts.mp hu) hcallee with
        ⟨hkeeps, hpl, hcallee'⟩ | ⟨c, hc, hcallee'⟩ | hundefined
      · have hdone := hbefore hdef' hpl hcallee'
        have hself : g = f → graph.isRecursive g := by
          rintro rfl
          by_contra hrecursive
          exact hnot (hdone (Bool.eq_false_iff.mpr hrecursive))
        have hinlinable : ¬isInlinable s.program graph threshold f g := fun hinlinable =>
          hkeeps (mem_map_of_mem (mem_candidates (c := (u, g)).mpr
            ⟨hdef', (hp.consistent f).mem_liveInsts.mpr hpl, hcallee', hinlinable⟩))
        exact hinl.blocked hnot (blocked_of_not_isInlinable hself hdone hinlinable)
      · obtain ⟨-, hc', -, -⟩ := hcand hc
        have hdefinedCallee := (isInlinable_iff.mp (mem_candidates.mp hc).2.2.2).2.2.1
        exact hinl.blocked hnot (hp.blocked c.2 hc' hdefinedCallee g hcallee')
      · exact Or.inr (Or.inl hundefined)
  · grind

lemma Blocked.of_func_eq {done' : List FuncId} (hf : f ∈ done) (heq : q.func f = p.func f)
    (h : Blocked graph threshold done' q f) : Blocked graph threshold done p f := by
  rw [Blocked, heq] at h
  exact h.imp_right fun h => h.imp_right fun h => h.imp_right fun h => ⟨hf, h.2⟩

lemma Progress.flatMapM (hgraph : CallGraph.Of p₀ graph)
    (horder : graph.bottomUp = done ++ rest)
    (hp : Progress p₀ graph threshold done s.program) (hs : FillDeclared s)
    (h : rest.flatMapM (Inlining.inlineInto graph threshold) s = .ok out t) :
    Progress p₀ graph threshold graph.bottomUp t.program ∧
      (∀ f ∈ done, t.program.func f = s.program.func f) ∧
      ∀ f ∈ out, f ∈ graph.bottomUp ∧ ¬Blocked graph threshold graph.bottomUp t.program f := by
  induction rest generalizing done s out with
  | nil =>
    obtain ⟨rfl, rfl⟩ := Result.ok.inj h
    rw [append_nil] at horder
    rw [horder]
    exact ⟨hp, fun f _ => rfl, nofun⟩
  | cons caller rest ih =>
    rw [flatMapM_cons] at h
    obtain ⟨first, s₁, hfirst, h₁⟩ := bind_eq_ok h
    obtain ⟨others, t', hothers, h₂⟩ := bind_eq_ok h₁
    obtain ⟨rfl, rfl⟩ := Result.ok.inj h₂
    obtain ⟨hp₁, hs₁, hkept₁, hfirst'⟩ := hp.inlineInto hgraph horder hs hfirst
    obtain ⟨ht, hkept, hothers'⟩ := ih (by rw [horder, append_cons]) hp₁ hs₁ hothers
    have hkept' (f : FuncId) (hf : f ∈ done) : t'.program.func f = s.program.func f :=
      (hkept f (mem_append_left _ hf)).trans (hkept₁ f hf)
    refine ⟨ht, hkept', fun f hf => ?_⟩
    rcases mem_append.mp hf with hf | hf
    · obtain ⟨hdone, hblocked⟩ := hfirst' f hf
      refine ⟨by rw [horder]; exact mem_append_left _ hdone, fun h => hblocked ?_⟩
      exact h.of_func_eq hdone (hkept' f hdone)
    · exact hothers' f hf

/-! ## Retired functions -/

lemma forM_retire {fs : List FuncId} (hfs : ∀ f ∈ fs, f.idx < s.program.funcs.size)
    (h : fs.forM retire s = .ok () t) :
    t.program.funcs.size = s.program.funcs.size ∧ ∀ f, t.program.func f =
      if f ∈ fs then { s.program.func f with deleted := true } else s.program.func f := by
  induction fs generalizing s with
  | nil =>
    obtain rfl := (Result.ok.inj h).2
    exact ⟨rfl, fun f => (if_neg not_mem_nil).symm⟩
  | cons f fs ih =>
    rw [forall_mem_cons] at hfs
    obtain ⟨⟨⟩, s₁, hfirst, hrest⟩ := bind_eq_ok h
    have hprog : s₁.program = s.program.setFunc f { s.program.func f with deleted := true } := by
      obtain rfl := (Result.ok.inj hfirst).2
      rfl
    have hsize : s₁.program.funcs.size = s.program.funcs.size := by
      rw [hprog]
      exact Array.size_setIfInBounds
    obtain ⟨hsize', hfunc⟩ := ih (by rw [hsize]; exact hfs.2) hrest
    refine ⟨hsize'.trans hsize, fun g => ?_⟩
    rw [hfunc, hprog, func_setFunc_of_lt hfs.1]
    by_cases hg : g = f
    · subst hg
      simp
    · simp [hg]

lemma inlineAll_eq_ok (hcons : ∀ f, (s.program.func f).Consistent) (hs : FillDeclared s)
    {inlined : List FuncId} (h : inlineAll threshold s = .ok inlined t) :
    ∃ graph, CallGraph.Of s.program graph ∧
      Progress s.program graph threshold graph.bottomUp t.program ∧
      ∀ f ∈ inlined, f.idx < s.program.funcs.size ∧
        ¬Blocked graph threshold graph.bottomUp t.program f := by
  rw [inlineAll, Compile.program_bind] at h
  obtain ⟨graph, s', hlift, hcalls⟩ := bind_eq_ok h
  obtain ⟨hok, rfl⟩ := Compile.lift_eq_ok hlift
  have hgraph := CallGraph.of_eq_ok hok
  obtain ⟨ht, -, hinl⟩ :=
    (Progress.init hcons).flatMapM hgraph (nil_append _).symm hs hcalls
  refine ⟨graph, hgraph, ht, fun f hf => ⟨?_, (hinl f hf).2⟩⟩
  exact hgraph.mem_bottomUp.mp (hinl f hf).1

lemma Progress.blocked_of_calls (hgraph : CallGraph.Of p₀ graph)
    (hp : Progress p₀ graph threshold graph.bottomUp p) {g : FuncId} (h : p.Calls g f) :
    Blocked graph threshold graph.bottomUp p f := by
  obtain ⟨hdef, hcall⟩ := h
  rcases lt_or_ge g.idx p₀.funcs.size with hlt | hge
  · exact hp.blocked g (hgraph.mem_bottomUp.mpr hlt) hdef f hcall
  · rcases lt_or_ge g.idx p.funcs.size with hlt | hge'
    · rw [Func.isDefined, (hp.added g hge hlt).1] at hdef
      cases hdef
    · rw [func_of_size_le hge'] at hcall
      cases hcall

lemma run_eq_ok {changed : Bool} (h : run threshold s = .ok changed t) :
    ∃ inlined u, inlineAll threshold s = .ok inlined u ∧ changed = !inlined.isEmpty ∧
      (u.program.funcIds.filter fun f =>
        inlined.contains f && !isCalled u.program f && (u.program.func f).name ≠ "main").forM
          retire u = .ok () t := by
  obtain ⟨inlined, u, hinl, h₁⟩ := bind_eq_ok h
  rw [Compile.program_bind] at h₁
  obtain ⟨⟨⟩, t', hretire, h₂⟩ := bind_eq_ok h₁
  obtain ⟨rfl, rfl⟩ := Result.ok.inj h₂
  exact ⟨inlined, u, hinl, rfl, hretire⟩

lemma exists_calls_of_isCalled (h : isCalled p f) : ∃ g, p.Calls g f := by
  obtain ⟨n, hn, hcalls⟩ := Array.any_eq_true.mp h
  rw [Bool.and_eq_true, contains_iff_mem] at hcalls
  have hfunc : p.func ⟨n⟩ = p.funcs[n] := by
    rw [Program.func, Array.getD_eq_getD_getElem?, Array.getElem?_eq_getElem hn]
    rfl
  exact ⟨⟨n⟩, by rw [hfunc]; exact hcalls.1, by rw [hfunc]; exact hcalls.2⟩

lemma Progress.deleted_eq (hp : Progress p₀ graph threshold done p) (f : FuncId) :
    (p.func f).deleted = (p₀.func f).deleted := by
  rcases lt_or_ge f.idx p₀.funcs.size with hlt | hge
  · exact (hp.head f hlt).deleted
  · rw [func_of_size_le hge]
    rcases lt_or_ge f.idx p.funcs.size with hlt | hge'
    · exact (hp.added f hge hlt).2
    · rw [func_of_size_le hge']

/-- What has been inlined is not called any more and is retired, unless it is the main function.  A
call that remains is one of a function that is declared only, has been retired before, has no body,
reaches itself through calls, or is too large. -/
theorem run_eq_ok_retired {changed : Bool} (hconsistent : ∀ f ∈ s.program.funcs, f.Consistent)
    (hnamed : ∀ f ∈ s.program.funcs, f.name = Builtin.memset.name → f.isDefined = false)
    (hknown : ∀ f, s.context.builtin? .memset = some f → (s.program.func f).isDefined = false)
    (h : run threshold s = .ok changed t) :
    ∃ inlined u, inlineAll threshold s = .ok inlined u ∧
      (∀ f ∈ inlined, (∀ g, ¬t.program.Calls g f) ∧
        ((s.program.func f).name ≠ "main" → (t.program.func f).deleted = true)) ∧
      (∀ f, f ∉ inlined ∨ (s.program.func f).name = "main" →
        (t.program.func f).deleted = (s.program.func f).deleted) ∧
      ∀ g f, t.program.Calls g f → (t.program.func f).external = true ∨
        (s.program.func f).deleted = true ∨ Func.entry? (t.program.func f) = none ∨
        Relation.TransGen s.program.Calls f f ∨
        ∃ n ∈ threshold, n < (t.program.func f).instCount := by
  obtain ⟨inlined, u, hinlined, -, hretire⟩ := run_eq_ok h
  have hs : FillDeclared s := ⟨Program.forall_func (by decide) hnamed, hknown⟩
  obtain ⟨graph, hgraph, hp, hgone⟩ :=
    inlineAll_eq_ok (Program.forall_func Func.consistent_default hconsistent) hs hinlined
  have hcalled (f : FuncId) (hf : f ∈ inlined) (g : FuncId) : ¬u.program.Calls g f :=
    fun hcall => (hgone f hf).2 (hp.blocked_of_calls hgraph hcall)
  -- the functions that are retired
  generalize hunused : (u.program.funcIds.filter fun f => inlined.contains f &&
    !isCalled u.program f && (u.program.func f).name ≠ "main") = unused at hretire
  have hmem (f : FuncId) : f ∈ unused ↔ f ∈ inlined ∧ (s.program.func f).name ≠ "main" := by
    rw [← hunused, mem_filter, Bool.and_eq_true, Bool.and_eq_true, contains_iff_mem,
      decide_eq_true_eq, Bool.not_eq_true']
    constructor
    · rintro ⟨-, ⟨hf, -⟩, hmain⟩
      exact ⟨hf, (hp.head f (hgone f hf).1).name ▸ hmain⟩
    · rintro ⟨hf, hmain⟩
      have hlt := (hgone f hf).1
      refine ⟨mem_map.mpr ⟨f.idx, mem_range.mpr (Nat.lt_of_lt_of_le hlt hp.size), rfl⟩,
        ⟨hf, Bool.eq_false_iff.mpr fun hcall => ?_⟩, ?_⟩
      · obtain ⟨g, hg⟩ := exists_calls_of_isCalled hcall
        exact hcalled f hf g hg
      · rw [(hp.head f hlt).name]
        exact hmain
  obtain ⟨-, hfunc⟩ := forM_retire (fun f hf =>
    Nat.lt_of_lt_of_le (hgone f ((hmem f).mp hf).1).1 hp.size) hretire
  have hcalls {f g : FuncId} (hcall : t.program.Calls g f) : u.program.Calls g f := by
    obtain ⟨hdefined, hcall⟩ := hcall
    rw [hfunc] at hdefined hcall
    split at hdefined
    · rw [Func.isDefined, Bool.not_true, Bool.and_false] at hdefined
      cases hdefined
    · next hg =>
      rw [if_neg hg] at hcall
      exact ⟨hdefined, hcall⟩
  refine ⟨inlined, u, hinlined, fun f hf => ⟨fun g hcall => hcalled f hf g (hcalls hcall),
    fun hmain => ?_⟩,
    fun f hf => ?_, fun g f hcall => ?_⟩
  · rw [hfunc, if_pos ((hmem f).mpr ⟨hf, hmain⟩)]
  · have hnot : f ∉ unused := by
      rw [hmem]
      rintro ⟨hf', hmain⟩
      exact hf.elim (fun h => h hf') hmain
    rw [hfunc, if_neg hnot, hp.deleted_eq]
  · have hnot : f ∉ unused := fun hf => hcalled f ((hmem f).mp hf).1 g (hcalls hcall)
    rw [hfunc, if_neg hnot]
    rcases hp.blocked_of_calls hgraph (hcalls hcall) with hrecursive | hdefined | hentry | hcount
    · exact Or.inr (Or.inr (Or.inr (Or.inl (hgraph.transGen_of_isRecursive hrecursive))))
    · rw [Func.isDefined, Bool.and_eq_false_iff, Bool.not_eq_false', Bool.not_eq_false',
        hp.deleted_eq] at hdefined
      exact hdefined.imp_right Or.inl
    · exact Or.inr (Or.inr (Or.inl hentry))
    · exact Or.inr (Or.inr (Or.inr (Or.inr hcount.2)))

/-- A program with nested calls, a slot that is filled, and a function that calls itself. -/
def nested : Session where
  program := { funcs := #[
    Edit.applyAll (.new "main" .i32 [])
      [.addBlock "entry",
        .append ⟨0⟩ (.call ⟨1⟩ [.int 3] none) .i32,
        .append ⟨0⟩ (.call ⟨3⟩ [.inst ⟨0⟩] none) .i32,
        .append ⟨0⟩ (.ret (some (.inst ⟨1⟩))) .void],
    Edit.applyAll (.new "twice" .i32 [.i32])
      [.addBlock "entry",
        .append ⟨0⟩ (.call ⟨2⟩ [.arg 0] none) .i32,
        .append ⟨0⟩ (.call ⟨2⟩ [.inst ⟨0⟩] none) .i32,
        .append ⟨0⟩ (.ret (some (.inst ⟨1⟩))) .void],
    Edit.applyAll (.new "next" .i32 [.i32])
      [.addBlock "entry",
        .append ⟨0⟩ (.alloc (.array 2 .i32)) (.pointer (.array 2 .i32)),
        .append ⟨0⟩ (.binary .add (.arg 0) (.int 1)) .i32,
        .append ⟨0⟩ (.ret (some (.inst ⟨1⟩))) .void],
    Edit.applyAll (.new "down" .i32 [.i32])
      [.addBlock "entry",
        .append ⟨0⟩ (.call ⟨3⟩ [.arg 0] none) .i32,
        .append ⟨0⟩ (.ret (some (.inst ⟨0⟩))) .void]] }

theorem run_nested_eq_ok_retired : ∃ changed t, run none nested = .ok changed t ∧
    (∀ g, ¬t.program.Calls g ⟨1⟩ ∧ ¬t.program.Calls g ⟨2⟩) ∧
    (t.program.func ⟨1⟩).deleted = true ∧ (t.program.func ⟨2⟩).deleted = true ∧
    (t.program.func ⟨3⟩).deleted = false := by
  have hok : (match run none nested with | .ok _ _ => true | .error _ _ => false) = true := by
    decide +kernel
  have hlist : (match inlineAll none nested with | .ok l _ => l | .error _ _ => []) =
      [⟨2⟩, ⟨2⟩, ⟨1⟩] := by decide +kernel
  cases hrun : run none nested with
  | error e t =>
    rw [hrun] at hok
    cases hok
  | ok changed t =>
    obtain ⟨inlined, u, hinlined, hgone, hkept, -⟩ := run_eq_ok_retired
      (by decide +kernel) (by decide +kernel) (fun f hf => by cases hf) hrun
    rw [hinlined] at hlist
    obtain rfl : inlined = [⟨2⟩, ⟨2⟩, ⟨1⟩] := hlist
    obtain ⟨hone, hdeleted⟩ := hgone ⟨1⟩ (by decide)
    obtain ⟨htwo, hdeleted'⟩ := hgone ⟨2⟩ (by decide)
    exact ⟨changed, t, rfl, fun g => ⟨hone g, htwo g⟩, hdeleted (by decide +kernel),
      hdeleted' (by decide +kernel), hkept ⟨3⟩ (Or.inl (by decide))⟩

end Inlining

end MiddleEnd
