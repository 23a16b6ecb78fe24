import Mathlib.Order.Basic
import MiddleEnd.Program

/-!
# Functions of a program

What a handle names after a function has been replaced or added.  A handle that names nothing reads
as the default function.
-/

namespace MiddleEnd.Program

open Array

variable {f : FuncId}

variable (p : Program) (id : FuncId) (g : Func)

lemma func_setFunc (id' : FuncId) :
    (p.setFunc id g).func id' = if id' = id ∧ p.hasFunc id then g else p.func id' := by
  obtain ⟨m⟩ := id
  obtain ⟨n⟩ := id'
  simp only [setFunc, func, hasFunc, getD_eq_getD_getElem?, getElem?_setIfInBounds]
  by_cases hmn : m = n
  · grind
  · grind

lemma setFunc_setFunc (h : Func) : (p.setFunc id g).setFunc id h = p.setFunc id h := by
  simp [setFunc]

lemma hasFunc_setFunc (id' : FuncId) : (p.setFunc id g).hasFunc id' = p.hasFunc id' := by
  simp [setFunc, hasFunc]

variable {p id g} in
lemma setFunc_of_not_hasFunc (h : p.hasFunc id = false) : p.setFunc id g = p := by
  have hsize : p.funcs.size ≤ id.idx := by simpa [hasFunc] using h
  rw [setFunc, setIfInBounds_eq_of_size_le hsize]

variable {p id g} in
lemma func_setFunc_of_lt (h : id.idx < p.funcs.size) (f : FuncId) :
    (p.setFunc id g).func f = if f = id then g else p.func f := by
  rw [func_setFunc]
  simp [hasFunc, h]

lemma func_addFunc (p : Program) (k : Func) (g : FuncId) :
    (p.addFunc k).2.func g = if g.idx = p.funcs.size then k else p.func g := by
  change (p.funcs.push k).getD g.idx default = _
  rw [func, getD_eq_getD_getElem?, getElem?_push, getD_eq_getD_getElem?]
  split
  · rfl
  · rfl

lemma func_of_size_le {p : Program} (hf : p.funcs.size ≤ f.idx) : p.func f = default := by
  rw [func, getD_eq_getD_getElem?, getElem?_eq_none hf]
  rfl

lemma mem_funcs {p : Program} (hf : p.hasFunc f) : p.func f ∈ p.funcs := by
  have hlt : f.idx < p.funcs.size := by simpa [hasFunc] using hf
  rw [func, getD_eq_getD_getElem?, getElem?_eq_getElem hlt]
  exact getElem_mem hlt

lemma exists_func {p : Program} {f : Func} (hf : f ∈ p.funcs) : ∃ id, p.func id = f := by
  obtain ⟨n, hn, rfl⟩ := mem_iff_getElem.mp hf
  refine ⟨⟨n⟩, ?_⟩
  rw [func, getD_eq_getD_getElem?, getElem?_eq_getElem hn]
  rfl

lemma forall_func {p : Program} {P : Func → Prop} (hdefault : P default)
    (h : ∀ f ∈ p.funcs, P f) (f : FuncId) : P (p.func f) := by
  rw [func, getD_eq_getD_getElem?]
  rcases Nat.lt_or_ge f.idx p.funcs.size with hlt | hge
  · grind
  · grind

lemma lt_size_of_not_isDefined {p : Program} (hf : (p.func f).isDefined = false) :
    f.idx < p.funcs.size := by
  by_contra hle
  rw [func_of_size_le (Nat.le_of_not_lt hle)] at hf
  cases hf

lemma name_of_findFunc?_eq_some {p : Program} {name : String} (h : p.findFunc? name = some f) :
    (p.func f).name = name := by
  obtain ⟨n, hn, rfl⟩ := Option.map_eq_some_iff.mp h
  obtain ⟨hlt, hname, -⟩ := findIdx?_eq_some_iff_getElem.mp hn
  rw [func, getD_eq_getD_getElem?, getElem?_eq_getElem hlt]
  exact of_decide_eq_true hname

lemma findFunc?_congr {p q : Program} (hsize : q.funcs.size = p.funcs.size)
    (hname : ∀ id, (q.func id).name = (p.func id).name) (name : String) :
    q.findFunc? name = p.findFunc? name := by
  have hnames : q.funcs.map Func.name = p.funcs.map Func.name := by
    refine ext (by simp [hsize]) fun n hn hn' => ?_
    have hlt : n < p.funcs.size := by simpa using hn'
    have hlt' : n < q.funcs.size := by simpa using hn
    simpa [Program.func, hlt, hlt'] using hname ⟨n⟩
  have hfind (p : Program) :
      p.findFunc? name = ((p.funcs.map Func.name).findIdx? fun n => n = name).map .mk := by
    rw [findIdx?_map]
    rfl
  rw [hfind, hfind, hnames]

end MiddleEnd.Program
