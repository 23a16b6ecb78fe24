import Mathlib.Data.List.Basic
import MiddleEnd.Machine.Run

/-!
# Loaded globals

Each global takes the cells after those of the globals before it.  Its literals are in the first of
them, and the others hold the initial value of their type.  Loading fails only if there are more
cells than the limit allows, or a literal has no cell.
-/

namespace MiddleEnd

open List Memory

variable {g : Global}

def Global.contents (g : Global) : List Value :=
  g.stored ++ .replicate (g.ty.cells - g.stored.length) (.initial g.ty)

lemma Global.length_contents (h : g.stored.length ≤ g.ty.cells) :
    g.contents.length = g.ty.cells := by
  rw [contents, length_append, length_replicate]
  omega

/-- The first cells of globals that are loaded one after the other. -/
def Global.addresses (start : Nat) : List Global → List Nat
  | [] => []
  | g :: gs => start :: addresses (start + g.ty.cells) gs

def Global.cellsOf (gs : List Global) : Nat :=
  gs.foldr (fun g n => g.ty.cells + n) 0

namespace Memory

variable {m m' : Memory} {gs : List Global} {vs : List Value} {a : Nat}

lemma storeAll_append (before old : List Value)
    (hcells : m.cells = (before ++ old).toArray) (hlen : vs.length ≤ old.length) :
    m.storeAll before.length vs =
      .ok { m with cells := (before ++ (vs ++ old.drop vs.length)).toArray } := by
  induction vs generalizing m before old with
  | nil =>
    rw [storeAll, length_nil, drop_zero, nil_append, ← hcells]
  | cons v vs ih =>
    cases old with
    | nil => cases hlen
    | cons w old =>
      have hlt : before.length < m.size := by simp [size, hcells]
      have hset : (m.set before.length v).cells = (before ++ [v] ++ old).toArray := by
        simp [set, hcells]
      have hrest := ih _ _ hset (Nat.le_of_succ_le_succ hlen)
      rw [length_append, length_singleton] at hrest
      rw [storeAll, store, if_pos hlt]
      simp only [bind, Except.bind, hrest, append_assoc]
      rfl

lemma le_size_of_storeAll (ha : a ≤ m.size)
    (h : m.storeAll a vs = .ok m') : a + vs.length ≤ m.size := by
  induction vs generalizing m a with
  | nil => exact ha
  | cons v vs ih =>
    rw [storeAll, store] at h
    by_cases hlt : a < m.size
    · rw [if_pos hlt] at h
      have hsize : (m.set a v).size = m.size := by simp [size, set]
      have hle := ih (hsize ▸ hlt) h
      rw [length_cons]
      omega
    · rw [if_neg hlt] at h
      cases h

lemma loadGlobal_eq_ok_iff :
    m.loadGlobal g = .ok (a, m') ↔
      (m.size + g.ty.cells ≤ m.limit ∧ g.stored.length ≤ g.ty.cells) ∧ a = m.size ∧
        m' = { m with cells := m.cells ++ g.contents.toArray } := by
  have hsize : (m.grow g.ty.cells (.initial g.ty)).size = m.size + g.ty.cells := by
    simp [size, grow]
  rw [loadGlobal, allocate]
  by_cases hroom : m.size + g.ty.cells ≤ m.limit
  · have hif : m.hasRoom g.ty.cells := decide_eq_true hroom
    rw [if_pos hif]
    by_cases hlen : g.stored.length ≤ g.ty.cells
    · have hstore := storeAll_append (m := m.grow g.ty.cells (.initial g.ty)) m.cells.toList
        (.replicate g.ty.cells (.initial g.ty)) (by simp [grow])
        (by simpa using hlen : g.stored.length ≤ _)
      have hcontents : (m.grow g.ty.cells (.initial g.ty)).storeAll m.size g.stored =
          .ok { m with cells := m.cells ++ g.contents.toArray } := by
        exact hstore.trans (by simp [grow, Global.contents])
      simp only [bind, Except.bind, hcontents]
      constructor
      · rintro ⟨⟩
        exact ⟨⟨hroom, hlen⟩, rfl, rfl⟩
      · rintro ⟨-, rfl, rfl⟩
        rfl
    · refine iff_of_false (fun h => ?_) fun h => hlen h.1.2
      cases hstore : (m.grow g.ty.cells (.initial g.ty)).storeAll m.size g.stored with
      | error fault => simp [bind, Except.bind, hstore] at h
      | ok m₁ =>
        have hle := le_size_of_storeAll (by omega) hstore
        omega
  · rw [if_neg (by simpa [hasRoom] using hroom)]
    exact iff_of_false nofun fun h => hroom h.1.1

lemma loadGlobals_eq_ok_iff {as : List Nat} :
    m.loadGlobals gs = .ok (as, m') ↔
      ((gs = [] ∨ m.size + Global.cellsOf gs ≤ m.limit) ∧ ∀ g ∈ gs, g.stored.length ≤ g.ty.cells) ∧
        as = Global.addresses m.size gs ∧
        m' = { m with cells := m.cells ++ (gs.flatMap Global.contents).toArray } := by
  induction gs generalizing m as with
  | nil => simp [loadGlobals, Global.addresses, eq_comm]
  | cons g gs ih =>
    have hcells : Global.cellsOf (g :: gs) = g.ty.cells + Global.cellsOf gs := rfl
    have hsize (h : g.stored.length ≤ g.ty.cells) :
        ({ m with cells := m.cells ++ g.contents.toArray } : Memory).size = m.size + g.ty.cells := by
      simp [size, Global.length_contents h]
    rw [loadGlobals]
    constructor
    · intro h
      cases hfirst : m.loadGlobal g with
      | error fault =>
        rw [hfirst] at h
        cases h
      | ok loaded =>
        obtain ⟨a, m₁⟩ := loaded
        obtain ⟨⟨hroom, hlen⟩, rfl, rfl⟩ := loadGlobal_eq_ok_iff.mp hfirst
        rw [hfirst] at h
        simp only [bind, Except.bind] at h
        cases hrest : ({ m with cells := m.cells ++ g.contents.toArray } : Memory).loadGlobals gs with
        | error fault => grind
        | ok loaded =>
          obtain ⟨as', m₂⟩ := loaded
          rw [hrest] at h
          cases h
          obtain ⟨⟨hrooms, hall⟩, rfl, rfl⟩ := ih.mp hrest
          rw [hsize hlen] at hrooms ⊢
          refine ⟨⟨.inr ?_, forall_mem_cons.mpr ⟨hlen, hall⟩⟩, rfl, by simp⟩
          rcases hrooms with rfl | hrooms
          · exact hroom
          · grind
    · rintro ⟨⟨hroom, hall⟩, rfl, rfl⟩
      obtain ⟨hlen, hall⟩ := forall_mem_cons.mp hall
      have hroom' :=
        hroom.resolve_left (cons_ne_nil g gs)
      rw [loadGlobal_eq_ok_iff.mpr ⟨⟨by omega, hlen⟩, rfl, rfl⟩]
      simp only [bind, Except.bind]
      have hrest : ({ m with cells := m.cells ++ g.contents.toArray } : Memory).size +
          Global.cellsOf gs ≤ m.limit := by
        omega
      rw [ih.mpr ⟨⟨.inr hrest, hall⟩, rfl, by simp⟩, hsize hlen]
      rfl

end Memory

namespace Program

def globalCells (p : Program) : Nat :=
  p.globals.toList.foldr (fun g n => g.ty.cells + n) 0

/-- There is room for the globals, and the literals of each have a cell. -/
def Loadable (p : Program) (limits : Limits) : Prop :=
  (p.globals.toList = [] ∨ p.globalCells ≤ limits.cells) ∧
    ∀ g ∈ p.globals.toList, g.stored.length ≤ g.ty.cells

lemma load_eq_ok_iff {p : Program} {limits : Limits} {input : String} {e : Image} {s : Machine} :
    p.load limits input = .ok (e, s) ↔ p.Loadable limits ∧
      e = { program := p, limits, globals := (Global.addresses 0 p.globals.toList).toArray } ∧
      s = { memory := ⟨(p.globals.toList.flatMap Global.contents).toArray, limits.cells⟩,
            input := .ofText input } := by
  have hloads {as : List Nat} {m : Memory} :
      loadGlobals { limit := limits.cells } p.globals.toList = .ok (as, m) ↔
        p.Loadable limits ∧ as = Global.addresses 0 p.globals.toList ∧
          m = ⟨(p.globals.toList.flatMap Global.contents).toArray, limits.cells⟩ := by
    simp [loadGlobals_eq_ok_iff, Loadable, globalCells, Global.cellsOf, size]
  rw [load]
  constructor
  · intro h
    cases hload : loadGlobals { limit := limits.cells } p.globals.toList with
    | error fault =>
      rw [hload] at h
      cases h
    | ok loaded =>
      obtain ⟨hroom, has, hm⟩ := hloads.mp hload
      rw [hload] at h
      cases h
      exact ⟨hroom, by rw [has], by rw [hm]⟩
  · rintro ⟨hroom, rfl, rfl⟩
    rw [hloads.mpr ⟨hroom, rfl, rfl⟩]
    rfl

variable {p q : Program} {limits limits' : Limits} {input : String} {e : Image} {s : Machine}

variable (h : p.load limits input = .ok (e, s))
include h

lemma load_of_le (hglob : q.globals = p.globals) (hle : limits.cells ≤ limits'.cells) :
    q.load limits' input = .ok ({ e with program := q, limits := limits' },
      { s with memory := { s.memory with limit := limits'.cells } }) := by
  obtain ⟨⟨hroom, hall⟩, rfl, rfl⟩ := load_eq_ok_iff.mp h
  rw [load_eq_ok_iff, Loadable, globalCells, hglob]
  exact ⟨⟨hroom.imp_right fun h => Nat.le_trans h hle, hall⟩, rfl, rfl⟩

lemma of_load : e.program = p ∧ e.limits = limits ∧ s.memory.limit = limits.cells := by
  obtain ⟨-, rfl, rfl⟩ := load_eq_ok_iff.mp h
  exact ⟨rfl, rfl, rfl⟩

lemma load_congr (hglob : q.globals = p.globals) :
    q.load limits input = .ok ({ e with program := q }, s) := by
  obtain ⟨hload, rfl, rfl⟩ := load_eq_ok_iff.mp h
  rw [load_eq_ok_iff, Loadable, globalCells, hglob]
  exact ⟨hload, rfl, rfl⟩

lemma size_load : s.memory.size = p.globalCells := by
  obtain ⟨⟨-, hall⟩, -, rfl⟩ := load_eq_ok_iff.mp h
  rw [globalCells]
  change (p.globals.toList.flatMap Global.contents).toArray.size = _
  generalize p.globals.toList = gs at hall
  induction gs with
  | nil => rfl
  | cons g gs ih =>
    obtain ⟨hlen, hall⟩ := forall_mem_cons.mp hall
    have hrest := ih hall
    simp only [size_toArray, flatMap_cons, length_append, foldr_cons,
      Global.length_contents hlen] at hrest ⊢
    rw [hrest]

end Program

end MiddleEnd
