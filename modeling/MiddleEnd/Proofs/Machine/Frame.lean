import MiddleEnd.Proofs.Machine.Worldly

/-!
# Slots and globals in memory

How the state of a call without addresses stands for registers and memory of the machine.  Globals are
the first cells.  The slots of the call are cells above those that were in use when the call began,
each with an address of its own in the register of its allocation.

Each lemma of the second part says that a step of the machine goes with the step of the state.
-/

namespace MiddleEnd

open Option Array Std

/-! ## Primitive actions -/

variable {k : Instr}

namespace Exec

variable {α : Type} {m m' : Machine} {a : α} {v : Value}

lemma pure_eq_ok_iff {b : α} : (pure a : Exec α) m = .ok b m' ↔ b = a ∧ m' = m := by
  simp only [pure, EStateM.pure, EStateM.Result.ok.injEq]
  exact ⟨fun h => ⟨h.1.symm, h.2.symm⟩, fun h => ⟨h.1.symm, h.2.symm⟩⟩

lemma throw_ne_ok {e : Halt} : (throw e : Exec α) m ≠ .ok a m' := by
  intro h
  cases h

lemma fail_ne_ok {f : Fault} : (fail f : Exec α) m ≠ .ok a m' :=
  throw_ne_ok

lemma lift_eq_ok_iff {x : Except Fault α} : lift x m = .ok a m' ↔ x = .ok a ∧ m' = m := by
  cases x with
  | ok b =>
    refine pure_eq_ok_iff.trans ?_
    rw [Except.ok.injEq, eq_comm]
  | error e => exact ⟨fun h => absurd h throw_ne_ok, fun h => by cases h.1⟩

lemma tick_eq_ok_iff {limit : Nat} : tick limit m = .ok () m' ↔
    (limit ≠ 0 → m.steps + 1 ≤ limit) ∧ m' = { m with steps := m.steps + 1 } := by
  rw [tick_eq]
  split
  · next h => exact ⟨(nomatch ·), fun h' => absurd (h'.1 h.1) (Nat.not_le_of_lt h.2)⟩
  · next h =>
    have hle (hne : limit ≠ 0) : m.steps + 1 ≤ limit := Nat.le_of_not_lt fun hlt => h ⟨hne, hlt⟩
    exact ⟨fun he => ⟨hle, (EStateM.Result.ok.inj he).2.symm⟩, fun he => he.2 ▸ rfl⟩

lemma allocate_eq_ok_iff {count : Nat} {init : Value} {a : Nat} : allocate count init m = .ok a m' ↔
    m.memory.size + count ≤ m.memory.limit ∧ a = m.memory.size ∧
      m' = { m with memory := m.memory.grow count init } := by
  rw [allocate_eq]
  split
  · next hroom => simp [hroom, eq_comm]
  · next hroom => simp [hroom]

lemma load_eq_ok_iff {a : Nat} :
    load a m = .ok v m' ↔ m.memory.cells[a]? = some v ∧ m' = m := by
  have hload : load a m = lift (m.memory.load a) m := rfl
  rw [hload, lift_eq_ok_iff, Memory.load]
  cases m.memory.cells[a]? with
  | none => simp
  | some x => simp

lemma store_eq_ok_iff {a : Nat} : store a v m = .ok () m' ↔
    a < m.memory.size ∧ m' = { m with memory := m.memory.set a v } := by
  have hstore : store a v m = (if m.memory.size ≤ a then
      (Exec.fail (.invalidAddress a) >>= fun _ : Unit =>
        modify fun s => { s with memory := s.memory.set a v })
      else modify fun s => { s with memory := s.memory.set a v }) m := rfl
  rw [hstore]
  by_cases ha : m.memory.size ≤ a
  · rw [if_pos ha]
    refine ⟨fun h => ?_, fun h => absurd h.1 (by omega)⟩
    obtain ⟨b, t, hb, -⟩ := bind_ok h
    exact absurd hb throw_ne_ok
  · rw [if_neg ha]
    have hok : (modify fun s => { s with memory := s.memory.set a v } : Exec Unit) m =
      .ok () { m with memory := m.memory.set a v } := rfl
    rw [hok, EStateM.Result.ok.injEq]
    exact ⟨fun h => ⟨by omega, h.2.symm⟩, fun h => ⟨rfl, h.2.symm⟩⟩

end Exec

/-! ## States in memory -/

def Instr.isAlloc : Instr → Bool
  | .alloc _ => true
  | _ => false

lemma Instr.isPhi_eq_false_of_isAlloc (h : k.isAlloc) : k.isPhi = false := by
  cases k <;> first | rfl | cases h

lemma Instr.isTerminator_eq_false_of_isAlloc (h : k.isAlloc) :
    k.isTerminator = false := by
  cases k <;> first | rfl | cases h

lemma Memory.getElem?_release (m : Memory) (n k : Nat) :
    (m.release n).cells[k]? = if k < n then m.cells[k]? else none := by
  rw [release, getElem?_extract]
  split <;> split <;> simp <;> omega

namespace Local

variable {n : Nat} {f : Func} {m₀ m m' : Machine} {regs : Registers} {s : State}
  {values : List (InstId × Value)} {args : List Value}

structure Kept (n : Nat) (m m' : Machine) : Prop where
  limit : m'.memory.limit = m.memory.limit
  size : m'.memory.size = m.memory.size
  cells : ∀ k, n ≤ k → m'.memory.cells[k]? = m.memory.cells[k]?

lemma Kept.of_memory_eq (h : m'.memory = m.memory) : Kept n m m' := by
  constructor <;> simp [h]

/-- The state `s` of a call of `f` stands for the registers and the machine `m`.  The call began with
the machine `m₀`, and there are `n` globals. -/
structure Holds (n : Nat) (f : Func) (m₀ : Machine) (regs : Registers) (m : Machine) (s : State) :
    Prop where
  world : s.world = world n m
  room : m.memory.size + s.room = m.memory.limit
  globals : n ≤ m₀.memory.size
  size : m₀.memory.size ≤ m.memory.size
  limit : m.memory.limit = m₀.memory.limit
  below : ∀ k, n ≤ k → k < m₀.memory.size → m.memory.cells[k]? = m₀.memory.cells[k]?
  registers : ∀ i, (f.instr i).isAlloc = false → regs[i]? = s.regs i
  unread : ∀ i, (f.instr i).isAlloc → s.regs i = none
  alloc : ∀ a, (s.slots a).isSome → (f.instr a).isAlloc
  slots : ∀ a x, s.slots a = some x → ∃ k, regs[a]? = some (.ptr k) ∧ m₀.memory.size ≤ k ∧
    m.memory.cells[k]? = some x
  distinct : ∀ a b k, (s.slots a).isSome → (s.slots b).isSome →
    regs[a]? = some (.ptr k) → regs[b]? = some (.ptr k) → a = b

namespace Holds

variable {i : InstId} {x : Value}

lemma init (hglob : n ≤ m.memory.size) {room : Nat}
    (hroom : m.memory.size + room = m.memory.limit) :
    Holds n f m ∅ m (.init (Local.world n m) room) where
  world := rfl
  room := hroom
  globals := hglob
  size := Nat.le_refl _
  limit := rfl
  below _ _ _ := rfl
  registers i _ := by simp [State.init]
  unread _ _ := rfl
  alloc a h := by simp [State.init] at h
  slots a x h := by simp [State.init] at h
  distinct a b k h := by simp [State.init] at h

variable (h : Holds n f m₀ regs m s)
include h

lemma kept (hm : Kept n m m') : Holds n f m₀ regs m' { s with world := Local.world n m' } where
  world := rfl
  room := by rw [hm.size, hm.limit, h.room]
  globals := h.globals
  size := by rw [hm.size]; exact h.size
  limit := hm.limit.trans h.limit
  below k hn hk := (hm.cells k hn).trans (h.below k hn hk)
  registers := h.registers
  unread := h.unread
  alloc := h.alloc
  slots a x ha := by
    obtain ⟨k, hk, hbase, hx⟩ := h.slots a x ha
    exact ⟨k, hk, hbase, by rw [hm.cells k (Nat.le_trans h.globals hbase), hx]⟩
  distinct := h.distinct

lemma tick : Holds n f m₀ regs { m with steps := m.steps + 1 } s := by
  have hkept : Kept n m { m with steps := m.steps + 1 } := .of_memory_eq rfl
  have hworld : { s with world := Local.world n { m with steps := m.steps + 1 } } = s := by
    rw [State.mk.injEq]
    exact ⟨rfl, rfl, h.world.symm, rfl⟩
  exact hworld ▸ h.kept hkept

lemma yield (hm : Kept n m m') (hi : (f.instr i).isAlloc = false) (v : Value) :
    Holds n f m₀ (regs.insert i v) m' (s.yield i v (Local.world n m')) := by
  have h' := h.kept hm
  have hne {a : InstId} (ha : (f.instr a).isAlloc) : a ≠ i := fun heq => by
    rw [heq, hi] at ha
    cases ha
  have hget {a : InstId} (ha : (f.instr a).isAlloc) : (regs.insert i v)[a]? = regs[a]? := by
    rw [HashMap.getElem?_insert, if_neg (by simpa using (hne ha).symm)]
  refine ⟨h'.world, h'.room, h'.globals, h'.size, h'.limit, h'.below, fun j hj => ?_, fun j hj => ?_,
    h'.alloc, fun a x ha => ?_, fun a b k ha hb hka hkb => ?_⟩
  · rw [HashMap.getElem?_insert]
    by_cases hij : j = i
    · simp [hij, State.yield]
    · rw [if_neg (by simpa using fun h : i = j => hij h.symm), h.registers j hj]
      simp [State.yield, hij]
  · simp only [State.yield, Function.update_of_ne (hne hj), h.unread j hj]
  · rw [hget (h'.alloc a (isSome_of_eq_some ha))]
    exact h'.slots a x ha
  · rw [hget (h'.alloc a ha)] at hka
    rw [hget (h'.alloc b hb)] at hkb
    exact h'.distinct a b k ha hb hka hkb

lemma reserve {t : Ty} (hi : f.instr i = .alloc t) (hroom : 0 < s.room) :
    Holds n f m₀ (regs.insert i (.ptr m.memory.size))
      { m with memory := m.memory.grow 1 (.initial t) } (s.reserve i t) := by
  have hsize : (m.memory.grow 1 (.initial t)).size = m.memory.size + 1 := by
    simp [Memory.grow, Memory.size]
  have hold {k : Nat} (hk : k < m.memory.size) :
      (m.memory.grow 1 (.initial t)).cells[k]? = m.memory.cells[k]? := by
    rw [Memory.grow, getElem?_append_left hk]
  have hnew : (m.memory.grow 1 (.initial t)).cells[m.memory.size]? = some (.initial t) := by
    simp [Memory.grow, Memory.size]
  have hlt {k : Nat} {x : Value} (hx : m.memory.cells[k]? = some x) : k < m.memory.size :=
    (Array.getElem?_eq_some_iff.mp hx).1
  have hget {a : InstId} (ha : a ≠ i) (v : Value) : (regs.insert i v)[a]? = regs[a]? := by
    rw [HashMap.getElem?_insert, if_neg (by simpa using ha.symm)]
  have hself (v : Value) : (regs.insert i v)[i]? = some v := by simp
  have hreserve {a : InstId} (ha : a ≠ i) : (s.reserve i t).slots a = s.slots a := by
    simp [State.reserve, State.setSlot, ha]
  have hold_ne {a : InstId} {k : Nat} (ha : (s.slots a).isSome) (hk : regs[a]? = some (.ptr k)) :
      k ≠ m.memory.size := by
    obtain ⟨x, hx⟩ := isSome_iff_exists.mp ha
    obtain ⟨k', hk', -, hcell⟩ := h.slots a x hx
    obtain rfl : k = k' := by simpa [hk] using hk'
    exact Nat.ne_of_lt (hlt hcell)
  constructor
  · refine h.world.trans (world_memory m fun k hk => ?_).symm
    exact hold (Nat.lt_of_lt_of_le hk (Nat.le_trans h.globals h.size))
  · change (m.memory.grow 1 (.initial t)).size + (s.room - 1) = m.memory.limit
    rw [← h.room]
    omega
  · exact h.globals
  · exact Nat.le_trans h.size (by rw [hsize]; exact Nat.le_succ _)
  · exact h.limit
  · intro k hn hk
    exact (hold (Nat.lt_of_lt_of_le hk h.size)).trans (h.below k hn hk)
  · intro j hj
    have hne : j ≠ i := fun heq => by simp [heq, hi, Instr.isAlloc] at hj
    rw [hget hne]
    exact h.registers j hj
  · exact h.unread
  · intro a ha
    by_cases heq : a = i
    · simp [heq, hi, Instr.isAlloc]
    · rw [hreserve heq] at ha
      exact h.alloc a ha
  · intro a x ha
    by_cases heq : a = i
    · subst heq
      have hx : x = .initial t := by simpa [State.reserve, State.setSlot] using ha.symm
      exact ⟨_, hself _, h.size, hx ▸ hnew⟩
    · rw [hreserve heq] at ha
      obtain ⟨k, hk, hbase, hcell⟩ := h.slots a x ha
      exact ⟨k, by rw [hget heq, hk], hbase, (hold (hlt hcell)).trans hcell⟩
  · intro a b k ha hb hka hkb
    by_cases hai : a = i
    · by_cases hbi : b = i
      · rw [hai, hbi]
      · rw [hreserve hbi] at hb
        rw [hget hbi] at hkb
        rw [hai, hself, Option.some.injEq, Value.ptr.injEq] at hka
        exact absurd hka.symm (hold_ne hb hkb)
    · rw [hreserve hai] at ha
      rw [hget hai] at hka
      by_cases hbi : b = i
      · rw [hbi, hself, Option.some.injEq, Value.ptr.injEq] at hkb
        exact absurd hkb.symm (hold_ne ha hka)
      · rw [hreserve hbi] at hb
        rw [hget hbi] at hkb
        exact h.distinct a b k ha hb hka hkb

lemma address {e : Image} (he : ∀ k < n, e.globals[k]? = some k) (args : List Value)
    {ptr : Operand} (hx : s.read ptr = some x) :
    ∃ k, e.eval args regs ptr = pure (.ptr k) ∧ m.memory.cells[k]? = some x ∧
      ∀ v, Holds n f m₀ regs { m with memory := m.memory.set k v } (s.write ptr v) := by
  have hset {k j : Nat} (v : Value) (hne : j ≠ k) :
      (m.memory.set k v).cells[j]? = m.memory.cells[j]? := by
    rw [Memory.set, Array.getElem?_setIfInBounds, if_neg hne.symm]
  have hself {k : Nat} (v : Value) (hk : k < m.memory.size) :
      (m.memory.set k v).cells[k]? = some v := by
    rw [Memory.set, Array.getElem?_setIfInBounds, if_pos rfl]
    exact if_pos hk
  have hsize (k : Nat) (v : Value) : (m.memory.set k v).size = m.memory.size := by
    simp [Memory.set, Memory.size]
  cases ptr with
  | inst a =>
    obtain ⟨k, hk, hbase, hcell⟩ := h.slots a x hx
    have hlt : k < m.memory.size := (Array.getElem?_eq_some_iff.mp hcell).1
    refine ⟨k, by simp only [Image.eval, hk], hcell, fun v => ?_⟩
    have hslot (b : InstId) : ((s.setSlot a v).slots b).isSome ↔ (s.slots b).isSome := by
      by_cases hb : b = a
      · subst hb
        simp [State.setSlot, show s.slots b = some x from hx]
      · simp [State.setSlot, hb]
    refine ⟨h.world.trans (world_memory m fun j hj => hset v ?_).symm, ?_, h.globals, ?_, h.limit,
      fun j hn hj => ?_, h.registers, h.unread, fun b hb => h.alloc b ((hslot b).mp hb),
        fun b y hb => ?_,
      fun b c j hb hc hjb hjc => h.distinct b c j ((hslot b).mp hb) ((hslot c).mp hc) hjb hjc⟩
    · have := h.globals
      omega
    · exact (congrArg (· + s.room) (hsize k v)).trans h.room
    · exact (hsize k v).symm ▸ h.size
    · exact (hset v (by omega)).trans (h.below j hn hj)
    · by_cases heq : b = a
      · subst heq
        obtain rfl : y = v := by simpa [State.write, State.setSlot] using hb.symm
        exact ⟨k, hk, hbase, hself y hlt⟩
      · have hb' : s.slots b = some y := by simpa [State.write, State.setSlot, heq] using hb
        obtain ⟨j, hj, hbase', hcell'⟩ := h.slots b y hb'
        refine ⟨j, hj, hbase', (hset v fun hjk => heq ?_).trans hcell'⟩
        exact h.distinct b a k (isSome_of_eq_some hb') (isSome_of_eq_some hx) (hjk ▸ hj) hk
  | global g =>
    rw [State.read, h.world] at hx
    have hg : g.idx < n := by
      by_contra hg
      simp [Local.world, hg] at hx
    have hcell : m.memory.cells[g.idx]? = some x := by simpa [Local.world, hg] using hx
    have hlt := (Array.getElem?_eq_some_iff.mp hcell).1
    refine ⟨g.idx, by simp only [Image.eval, he g.idx hg], hcell, fun v => ?_⟩
    refine ⟨?_, ?_, h.globals, ?_, h.limit, fun j hn hj => ?_, h.registers, h.unread, h.alloc,
      fun b y hb => ?_, h.distinct⟩
    · have hworld : (s.write (.global g) v).world =
          { s.world with globals := Function.update s.world.globals g (some v) } := rfl
      rw [hworld, h.world]
      simp only [Local.world, World.mk.injEq, and_true]
      funext g'
      by_cases heq : g' = g
      · simp [heq, hg, hself v hlt]
      · have hne : g'.idx ≠ g.idx := fun h => heq (by cases g'; cases h; rfl)
        simp [heq, hset v hne]
    · exact (congrArg (· + s.room) (hsize g.idx v)).trans h.room
    · exact (hsize g.idx v).symm ▸ h.size
    · exact (hset v (by omega)).trans (h.below j hn hj)
    · obtain ⟨j, hj, hbase, hcell'⟩ := h.slots b y hb
      have := h.globals
      exact ⟨j, hj, hbase, (hset v (by omega)).trans hcell'⟩
  | arg => cases hx
  | const => cases hx

lemma eval (e : Image) {v : Operand} (hx : s.eval args v = some x) :
    e.eval args regs v = pure x := by
  cases v with
  | inst i =>
    have hi : (f.instr i).isAlloc = false := by
      rw [Bool.eq_false_iff]
      intro halloc
      rw [State.eval, h.unread i halloc] at hx
      cases hx
    simp only [Image.eval, h.registers i hi, show s.regs i = some x from hx]
  | arg k => simp only [Image.eval, show args[k]? = some x from hx]
  | const c =>
    obtain rfl := Option.some.inj hx
    rfl
  | global g => cases hx

end Holds

lemma getElem?_insertMany {value? : InstId → Option Value}
    (h : ∀ p ∈ values, value? p.1 = some p.2) (i : InstId) :
    (regs.insertMany values)[i]? = if i ∈ values.map Prod.fst then value? i else regs[i]? := by
  induction values generalizing regs with
  | nil => simp
  | cons p values ih =>
    rw [HashMap.insertMany_cons, ih fun p hp => h p (.tail _ hp), HashMap.getElem?_insert]
    by_cases hi : i ∈ values.map Prod.fst
    · rw [if_pos hi, if_pos (.tail _ hi)]
    · grind

lemma Holds.enter (h : Holds n f m₀ regs m s) {b c : BlockId}
    (hkeys : values.map Prod.fst = f.phis c)
    (hvals : ∀ p ∈ values, s.incoming f args b p.1 = some p.2) :
    Holds n f m₀ (regs.insertMany values) m (s.enter f args b c) := by
  have hget (i : InstId) : (regs.insertMany values)[i]? =
      if i ∈ f.phis c then s.incoming f args b i else regs[i]? :=
    hkeys ▸ getElem?_insertMany hvals i
  have hphi {i : InstId} (hi : (f.instr i).isAlloc) : i ∉ f.phis c := fun hmem => by
    have hkind := f.isPhi_of_mem_phis hmem
    rw [Instr.isPhi_eq_false_of_isAlloc hi] at hkind
    cases hkind
  have hslot {a : InstId} {x : Value} (ha : (s.enter f args b c).slots a = some x) :
      s.slots a = some x := by
    simp only [State.enter] at ha
    split at ha
    · cases ha
    · exact ha
  have hsome {a : InstId} (ha : ((s.enter f args b c).slots a).isSome) : (s.slots a).isSome := by
    obtain ⟨x, hx⟩ := isSome_iff_exists.mp ha
    exact isSome_of_eq_some (hslot hx)
  refine ⟨h.world, h.room, h.globals, h.size, h.limit, h.below, fun i hi => ?_, fun i hi => ?_,
    fun a ha => h.alloc a (hsome ha), fun a x ha => ?_, fun a d k ha hd hka hkd => ?_⟩
  · simp only [hget, State.enter, h.registers i hi]
  · simp only [State.enter, if_neg (hphi hi), h.unread i hi]
  · obtain ⟨k, hk, hbase, hcell⟩ := h.slots a x (hslot ha)
    exact ⟨k, by rw [hget, if_neg (hphi (h.alloc a (hsome (isSome_of_eq_some ha)))), hk], hbase,
      hcell⟩
  · rw [hget, if_neg (hphi (h.alloc a (hsome ha)))] at hka
    rw [hget, if_neg (hphi (h.alloc d (hsome hd)))] at hkd
    exact h.distinct a d k (hsome ha) (hsome hd) hka hkd

lemma Holds.release (h : Holds n f m₀ regs m s) :
    Kept n m₀ { m with memory := m.memory.release m₀.memory.size } ∧
      Local.world n { m with memory := m.memory.release m₀.memory.size } = s.world := by
  have hcells {k : Nat} (hk : k < m₀.memory.size) :
      (m.memory.release m₀.memory.size).cells[k]? = m.memory.cells[k]? := by
    rw [Memory.getElem?_release, if_pos hk]
  have hsize := h.size
  have hglob := h.globals
  refine ⟨⟨h.limit, ?_, fun k hk => ?_⟩, ?_⟩
  · simp only [Memory.release, Memory.size, take_eq_extract, size_extract] at hsize ⊢
    omega
  · by_cases hlt : k < m₀.memory.size
    · exact (hcells hlt).trans (h.below k hk hlt)
    · rw [Memory.getElem?_release, if_neg hlt, eq_comm, Array.getElem?_eq_none_iff]
      exact Nat.le_of_not_lt hlt
  · rw [h.world]
    exact world_memory m fun k hk => hcells (Nat.lt_of_lt_of_le hk hglob)

end Local

end MiddleEnd
