import MiddleEnd.Proofs.Machine.Complete
import MiddleEnd.Proofs.Machine.Moves

/-!
# Whole runs of scalar programs

Loading a scalar program puts its globals in the first cells, one each.  A run is then a call whose
outcome is known without addresses, and the machine is back to the globals when it ends.  If the calls
of a program have their outcomes in another one as well, runs carry over, under the same limits or in a
larger memory.
-/

namespace MiddleEnd

open Local Nat Image Program List Bool

variable {e : Image} {limits : Limits} {p : Program} {s : Machine} {callee : FuncId} {n : Nat}
  {v : Value}

/-! ## Loading -/

namespace Global

lemma exists_contents {g : Global} (hg : g.isScalar) :
    ∃ x, g.contents = [x] ∧ x.hasType g.ty := by
  rw [isScalar, and_eq_true] at hg
  obtain ⟨hty, hinit⟩ := hg
  rw [contents, Ty.cells_of_isScalar hty, stored]
  cases hk : g.init with
  | scalar c => exact ⟨_, rfl, by rwa [hk] at hinit⟩
  | array values => grind
  | zero => exact ⟨_, rfl, Value.hasType_initial hty⟩

lemma contents_of_isScalar {gs : List Global} (hgs : ∀ g ∈ gs, g.isScalar) (start : Nat) :
    addresses start gs = range' start gs.length ∧
      Forall₂ (fun x g => x.hasType g.ty) (gs.flatMap contents) gs := by
  induction gs generalizing start with
  | nil => exact ⟨rfl, .nil⟩
  | cons g gs ih =>
    obtain ⟨hg, hgs⟩ := forall_mem_cons.mp hgs
    obtain ⟨haddresses, htypes⟩ := ih hgs (start + g.ty.cells)
    obtain ⟨x, hx, htype⟩ := exists_contents hg
    rw [addresses, haddresses, flatMap_cons, hx, Ty.cells_of_isScalar (and_eq_true_iff.mp hg).1]
    exact ⟨rfl, .cons htype htypes⟩

end Global

/-- A program in memory, with one cell for each global. -/
structure Program.Loaded (p : Program) (limits : Limits) (e : Image) (s : Machine) : Prop where
  program : e.program = p
  bounds : e.limits = limits
  globals : ∀ k < p.globals.size, e.globals[k]? = some k
  size : s.memory.size = p.globals.size
  room : s.memory.size ≤ s.memory.limit
  limit : s.memory.limit = limits.cells
  world : (world p.globals.size s).Typed p
  steps : s.steps = 0

lemma Program.Scalar.loaded (hp : p.Scalar) {input : String}
    (h : p.load limits input = .ok (e, s)) : p.Loaded limits e s := by
  have hsize := size_load h
  obtain ⟨⟨hroom, -⟩, rfl, rfl⟩ := load_eq_ok_iff.mp h
  have hgs : ∀ g ∈ p.globals.toList, g.isScalar := fun g hg =>
    hp.globals g (Array.mem_toList_iff.mp hg)
  obtain ⟨haddresses, htypes⟩ := Global.contents_of_isScalar hgs 0
  have hlen := htypes.length_eq.trans Array.length_toList
  refine ⟨rfl, rfl, fun k hk => ?_, by simpa [Memory.size] using hlen, ?_, rfl, fun g hg => ?_, rfl⟩
  · simp [haddresses, hk]
  · rcases hroom with hnil | hroom
    · simp [Memory.size, hnil]
    · rw [hsize]
      exact hroom
  · have hlt : g.idx < p.globals.size := by simpa [hasGlobal] using hg
    have hlt' : g.idx < (p.globals.toList.flatMap Global.contents).length := by rwa [hlen]
    refine ⟨(p.globals.toList.flatMap Global.contents)[g.idx], ?_, ?_⟩
    · simp [world, hlt]
    · have htype := htypes.get hlt' (by simpa using hlt)
      simpa [global, hlt] using htype

lemma Program.Loaded.size_add (h : p.Loaded limits e s) :
    s.memory.size + (limits.cells - p.globals.size) = limits.cells := by
  have hroom := h.room
  rw [h.limit, h.size] at hroom
  rw [h.size]
  omega

/-! ## Runs -/

lemma Limits.lt_of_le
    (hle : limits.instructions.toNat ≠ 0 → n ≤ limits.instructions.toNat)
    (hlt : limits.instructions = 0 → n < 2 ^ 64) : n < 2 ^ 64 := by
  by_cases hzero : limits.instructions = 0
  · exact hlt hzero
  · have hne : limits.instructions.toNat ≠ 0 := fun h => hzero (UInt64.toNat_inj.mp h)
    exact lt_of_le_of_lt (hle hne) (UInt64.toNat_lt _)

lemma Image.call_of_external {e' : Image} {depth depth' : Nat}
    {args : List Value} {t : Machine} (hext : (e.program.func callee).external)
    (hsize : e'.program.funcs.size = e.program.funcs.size)
    (hname : (e'.program.func callee).name = (e.program.func callee).name)
    (hexternal : (e'.program.func callee).external = (e.program.func callee).external)
    (hpar : (e'.program.func callee).params.size = (e.program.func callee).params.size)
    (hlive : (e'.program.func callee).deleted = false) (h : e.call depth callee args s = .ok v t) :
    e'.call depth' callee args s = .ok v t := by
  obtain ⟨hfunc, -, hlen, hbuiltin, -⟩ := call_eq_ok_iff.mp h
  refine call_eq_ok_iff.mpr ⟨?_, hlive, hpar ▸ hlen, fun _ => ?_, fun h => ?_⟩
  · rwa [hasFunc, hsize]
  · rw [hname]
    exact hbuiltin hext
  · grind

namespace Local

/-- Machines that started with the same cells and hold the same globals and nothing else. -/
lemma cells_eq_of_kept {m₁ m₂ t₁ t₂ : Machine} (h₁ : Kept n m₁ t₁) (h₂ : Kept n m₂ t₂)
    (hcells : m₁.memory.cells = m₂.memory.cells) (hworld : world n t₁ = world n t₂) :
    t₁.memory.cells = t₂.memory.cells := by
  refine Array.ext_getElem? fun k => ?_
  by_cases hk : k < n
  · have hglobal := congrFun (congrArg World.globals hworld) ⟨k⟩
    simpa [world, hk] using hglobal
  · rw [h₁.cells k (Nat.le_of_not_lt hk), h₂.cells k (Nat.le_of_not_lt hk), hcells]

lemma memory_eq_of_kept {m m₁ m₂ : Machine} (h₁ : Kept n m m₁) (h₂ : Kept n m m₂)
    (hworld : world n m₁ = world n m₂) :
    m₁.memory = m₂.memory := by
  have hcells := cells_eq_of_kept h₁ h₂ rfl hworld
  have hlim := h₁.limit.trans h₂.limit.symm
  cases hm₁ : m₁.memory
  simp_all

lemma fuel_pos (e : Image) : e.fuel = e.fuel - 1 + 1 := by
  unfold fuel
  split <;> omega

lemma outcome_of_call (hp : p.Entered) {t : Machine}
    (hload : p.Loaded limits e s) {depth : Nat} {args : List Value}
    (hdef : (p.func callee).isDefined) (hargs : TypedArgs (p.func callee) args)
    (hcall : e.call depth callee args s = .ok v t) :
    ∃ o, Local.Calls p (e.fuel - 1) depth callee args (world p.globals.size s)
        (limits.cells - p.globals.size) o ∧ Allows e s o.steps ∧ v = o.value ∧
      Kept p.globals.size s t ∧ world p.globals.size t = o.world ∧ t.steps = o.steps := by
  obtain rfl := hload.program
  have hsize := hload.size
  have hroom : s.memory.size + (limits.cells - e.program.globals.size) = s.memory.limit := by
    have := hload.room
    rw [hload.limit] at this ⊢
    omega
  have hfunc := (call_eq_ok_iff.mp hcall).1
  have hcallable : e.program.isCallable callee := by
    have hext : (e.program.func callee).external = false := by
      simp only [Func.isDefined, and_eq_true, not_eq_true'] at hdef
      exact hdef.1
    simp [isCallable, hfunc, hext]
  have hstart : Allows e s 0 := fun _ => by rw [hload.steps]; exact zero_le _
  obtain ⟨o, ho, hlim⟩ := callComplete hp hload.globals (fuel_pos e) depth callee args _ s v t
    (le_of_eq hsize.symm) hroom hload.world hcallable hargs hstart hcall
  obtain ⟨t', ht', hkept, hworld, hsteps⟩ := callSound hload.globals (fuel_pos e) depth callee args _
    o s (le_of_eq hsize.symm) hroom hlim ho
  obtain ⟨rfl, rfl⟩ := EStateM.Result.ok.inj (hcall.symm.trans ht')
  exact ⟨o, ho, hlim, rfl, hkept, hworld, by rw [hsteps, hload.steps, zero_add]⟩

end Local

namespace Program

variable {p q : Program}
variable {input : String} {s : Machine} {name : String} {args : List Value} {t : Machine}

/-- Runs carry over to a program whose calls have the same outcomes in no more steps. -/
lemma Entered.run_of_refinedBy (hp : p.Entered) (hglob : q.globals = p.globals)
    (hsize : q.funcs.size = p.funcs.size) (hhead : ∀ id, (p.func id).SameHead (q.func id))
    (hcalls : ∀ fuel depth, (Local.Calls p fuel depth).RefinedBy
      (Local.Calls q fuel depth)) (hload : p.load limits input = .ok (e, s))
    (hargs : p.Accepts name args) (hrun : e.run name args s = .ok v t) :
    ∃ t', ({ e with program := q } : Image).run name args s = .ok v t' ∧ t.Ahead t' := by
  have hloaded := hp.scalar.loaded hload
  obtain rfl := hloaded.program
  unfold run at hrun ⊢
  rw [findFunc?_congr hsize (fun id => (hhead id).name) name]
  cases hfind : e.program.findFunc? name with
  | none =>
    rw [hfind] at hrun
    exact absurd hrun Exec.throw_ne_ok
  | some callee =>
    rw [hfind] at hrun
    have head := hhead callee
    have hlive := (call_eq_ok_iff.mp hrun).2.1
    cases hext : (e.program.func callee).external with
    | true =>
      exact ⟨t, call_of_external hext hsize head.name head.external head.params_size
        (head.deleted.trans hlive) hrun, .refl t⟩
    | false =>
      have hdef : (e.program.func callee).isDefined := by simp [Func.isDefined, hext, hlive]
      obtain ⟨o, ho, hlim, rfl, hkept, hworld, hsteps⟩ := outcome_of_call hp hloaded hdef
        (hargs callee hfind hdef) hrun
      obtain ⟨n, hn, ho'⟩ := hcalls _ _ callee args _ _ o ho _ (le_refl _)
      obtain ⟨t', ht', hkept', hworld', hsteps'⟩ := callSound (e := { e with program := q })
        hloaded.globals (fuel_pos _) _ callee args _ { o with steps := n } s
        (le_of_eq hloaded.size.symm) (hloaded.size_add.trans hloaded.limit.symm)
        (fun h0 => Nat.le_trans (Nat.add_le_add_left hn _) (hlim h0)) ho'
      have hsame := hworld.trans hworld'.symm
      refine ⟨t', ht', ⟨memory_eq_of_kept hkept' hkept hsame.symm,
        (congrArg World.input hsame).symm, (congrArg World.output hsame).symm, ?_⟩⟩
      rw [hsteps, hsteps', hloaded.steps, zero_add]
      exact hn

/-- Runs carry over to a program whose calls have the same outcomes with more room for each move.  In
the other program functions may have been deleted. -/
lemma Entered.run_of_within (hp : p.Entered) (hglob : q.globals = p.globals)
    (hsize : q.funcs.size = p.funcs.size)
    (hhead : ∀ id, (q.func id).name = (p.func id).name ∧ (q.func id).external = (p.func id).external ∧
      (q.func id).params.size = (p.func id).params.size) {k : Nat}
    (hcalls : ∀ depth callee args w room o, (q.func callee).deleted = false →
      CallMoves p depth callee args w room o → ∀ room', room + k * o.steps ≤ room' →
        CallMoves q depth callee args w room' o)
    (hload : p.load limits input = .ok (e, s))
    (hargs : p.Accepts name args) (hrun : e.run name args s = .ok v t)
    (hlive : ∀ id, p.findFunc? name = some id → (q.func id).deleted = false)
    (hsteps : limits.instructions = 0 → t.steps < 2 ^ 64) :
    ∃ cells e' s' t', q.load { limits with instructions := 0, cells } input = .ok (e', s') ∧
      e'.run name args s' = .ok v t' ∧ t'.output = t.output ∧ t'.input = t.input ∧
      e'.globals = e.globals ∧ t'.memory.cells = t.memory.cells := by
  have hloaded := hp.scalar.loaded hload
  obtain rfl := hloaded.program
  have hdepth := congrArg Limits.depth hloaded.bounds
  unfold run at hrun ⊢
  cases hfind : e.program.findFunc? name with
  | none =>
    rw [hfind] at hrun
    exact absurd hrun Exec.throw_ne_ok
  | some callee =>
    rw [hfind] at hrun
    have hlive := hlive callee hfind
    obtain ⟨hname, hexternal, hpar⟩ := hhead callee
    have hfind' : q.findFunc? name = some callee := by
      rw [findFunc?_congr hsize (fun id => (hhead id).1) name, hfind]
    have hlive' := (call_eq_ok_iff.mp hrun).2.1
    cases hext : (e.program.func callee).external with
    | true =>
      have hsame : ({ s with memory := { s.memory with limit := limits.cells } } : Machine) = s := by
        rw [← hloaded.limit]
      refine ⟨limits.cells, _, _, t, load_of_le hload hglob (le_refl _), ?_, rfl, rfl, rfl, rfl⟩
      rw [hsame]
      rw [hfind']
      exact call_of_external hext hsize hname hexternal hpar hlive hrun
    | false =>
      have hdef : (e.program.func callee).isDefined := by simp [Func.isDefined, hext, hlive']
      obtain ⟨o, ho, hlim, rfl, hkept, hworld, hcnt⟩ := outcome_of_call hp hloaded hdef
        (hargs callee hfind hdef) hrun
      obtain ⟨n, hn, hmoves⟩ := callMoves_of_calls ho
      have hmoves' := hcalls _ callee args _ _ _ hlive hmoves _ (le_refl _)
      have hword : n ≤ 0xffffffffffffffff + 1 := by
        rw [Allows, hloaded.bounds, hloaded.steps, zero_add, ← hcnt] at hlim
        have hlt := Limits.lt_of_le hlim hsteps
        omega
      obtain ⟨steps, ho'⟩ := calls_of_callMoves hmoves' hword
      obtain ⟨cells, hcells⟩ : ∃ cells, cells = limits.cells + k * n := ⟨_, rfl⟩
      have hroom : s.memory.size + (limits.cells - e.program.globals.size + k * n) = cells := by
        rw [← add_assoc, hloaded.size_add, hcells]
      obtain ⟨t', ht', hkept', hworld', -⟩ := callSound
        (e := { e with program := q, limits := { limits with instructions := 0, cells } })
        (n := e.program.globals.size) hloaded.globals rfl limits.depth callee args _ _
        { s with memory := { s.memory with limit := cells } } (le_of_eq hloaded.size.symm) hroom
        (fun h => absurd rfl h) (hdepth ▸ ho')
      have hsame := hworld.trans hworld'.symm
      refine ⟨cells, _, _, t', load_of_le hload hglob (by dsimp only; omega), ?_,
        (congrArg World.output hsame).symm, (congrArg World.input hsame).symm, rfl,
        cells_eq_of_kept hkept' hkept rfl hsame.symm⟩
      rw [hfind']
      exact ht'

end Program

end MiddleEnd
