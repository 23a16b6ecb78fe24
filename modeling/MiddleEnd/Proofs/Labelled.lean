import MiddleEnd.Builder
import MiddleEnd.Proofs.Machine.Frame

/-!
# Numbered labels

A label ends in a number, and what comes before it does not end in a digit.  So the number can be
read off whatever names the label is made of.  Every function has a counter from which the numbers of
its new labels are taken, each once.
-/

namespace MiddleEnd

open List Program Nat

/-! ## Numbers at the end of labels -/

def trailingNumber (label : String) : Nat :=
  ofDigitChars 10 (label.toList.reverse.takeWhile Char.isDigit).reverse 0

lemma trailingNumber_append (stem mark : String) {c : Char}
    (hlast : mark.toList.getLast? = some c) (hc : c.isDigit = false) (n : Nat) :
    trailingNumber (stem ++ mark ++ toString n) = n := by
  obtain ⟨cs, hcs⟩ := List.getLast?_eq_some_iff.mp hlast
  have hdigits : ∀ d ∈ (toDigits 10 n).reverse, d.isDigit := fun d hd =>
    isDigit_of_mem_toDigits (by decide) (by decide) (mem_reverse.mp hd)
  have hreverse : (stem ++ mark ++ toString n).toList.reverse =
      (toDigits 10 n).reverse ++ c :: (stem.toList ++ cs).reverse := by
    simp [hcs]
  rw [trailingNumber, hreverse, takeWhile_append_of_pos hdigits,
    takeWhile_cons_of_neg (by simp [hc]), append_nil, reverse_reverse,
    ofDigitChars_ten_toDigits]

lemma trailingNumber_blockLabel (func : String) (n : Nat) :
    trailingNumber (blockLabel func n) = n :=
  trailingNumber_append func "_BB" (c := 'B') (by simp) (by decide) n

/-! ## Labels of a function -/

namespace Func

variable {f g : Func}

def labels (f : Func) : List String :=
  f.blocks.toList.map Block.label

lemma labels_eq (hsize : g.blocks.size = f.blocks.size)
    (hlabel : ∀ b, (g.block b).label = (f.block b).label) : g.labels = f.labels := by
  refine ext_getElem (by simp [labels, hsize]) fun n hg hf => ?_
  have hf' : n < f.blocks.size := by simpa [labels] using hf
  simpa [labels, block, hf', hsize] using hlabel ⟨n⟩

lemma SameFrame.labels (hfg : f.SameFrame g) : g.labels = f.labels :=
  labels_eq hfg.blocks hfg.label

lemma labels_addBlock (f : Func) (label : String) :
    (f.addBlock label).labels = f.labels ++ [label] := by
  simp [labels, addBlock]

lemma labels_append (f : Func) (b : BlockId) (k : Instr) (t : Ty) :
    (f.append b k t).labels = f.labels :=
  ((sameFrame_create f b k t).trans (sameFrame_link _ b _ _)).labels

lemma labels_insertBefore (f : Func) (i : InstId) (k : Instr) (t : Ty) :
    (f.insertBefore i k t).labels = f.labels :=
  ((sameFrame_create f _ k t).trans (sameFrame_link _ _ _ _)).labels

lemma labels_deleteBlock (f : Func) (b : BlockId) : (f.deleteBlock b).labels = f.labels := by
  rw [← (sameFrame_foldl sameFrame_remove (f.instsOf b) f).labels]
  refine labels_eq (Array.size_modify ..) fun c => ?_
  rw [deleteBlock, block_modifyBlock]
  split <;> rfl

/-- The labels of the function have numbers below `n`, each another one. -/
structure Numbered (f : Func) (n : Nat) : Prop where
  nodup : (f.labels.map trailingNumber).Nodup
  lt : ∀ l ∈ f.labels, trailingNumber l < n

namespace Numbered

variable {n : Nat}

lemma nodup_labels (hf : f.Numbered n) : f.labels.Nodup :=
  hf.nodup.of_map

lemma mono {m : Nat} (hf : f.Numbered n) (hnm : n ≤ m) : f.Numbered m :=
  ⟨hf.nodup, fun l hl => (hf.lt l hl).trans_le hnm⟩

lemma congr (hf : f.Numbered n) (hlabels : g.labels = f.labels) : g.Numbered n :=
  ⟨hlabels ▸ hf.nodup, hlabels ▸ hf.lt⟩

lemma append {new : List String} (hf : f.Numbered n) (hlabels : g.labels = f.labels ++ new)
    (hnew : new.map trailingNumber = List.range' n new.length) : g.Numbered (n + new.length) := by
  refine ⟨?_, fun l hl => ?_⟩
  · rw [hlabels, map_append, nodup_append, hnew]
    refine ⟨hf.nodup, nodup_range', fun k hk m hm hkm => ?_⟩
    obtain ⟨l, hl, rfl⟩ := mem_map.mp hk
    exact absurd (hf.lt l hl) (hkm ▸ (mem_range'_1.mp hm).1).not_gt
  · rw [hlabels, mem_append] at hl
    rcases hl with hl | hl
    · exact (hf.lt l hl).trans_le (le_add_right n _)
    · have hnumber := mem_map_of_mem (f := trailingNumber) hl
      rw [hnew, mem_range'_1] at hnumber
      exact hnumber.2

end Numbered

end Func

/-! ## Labels of a program -/

namespace Context

lemma labelNumber_setLabelNumber (c : Context) (f g : FuncId) (n : Nat) :
    (c.setLabelNumber f n).labelNumber g = if f = g then n else c.labelNumber g := by
  simp [setLabelNumber, labelNumber, Std.HashMap.getD_insert]

lemma labelNumber_markInlined (c : Context) (f g : FuncId) :
    (c.markInlined f).labelNumber g = c.labelNumber g := by
  rw [markInlined]
  split <;> rfl

lemma labelNumber_markRetired (c : Context) (f g : FuncId) :
    (c.markRetired f).labelNumber g = c.labelNumber g := by
  rw [markRetired]
  split <;> rfl

end Context

namespace Session

variable {g : Func} {f : FuncId} {s t : Session}

/-- The labels of every function have numbers below its counter, each another one. -/
def Labelled (s : Session) : Prop :=
  ∀ f, (s.program.func f).Numbered (s.context.labelNumber f)

/-- The blocks keep their labels, and no counter goes back. -/
structure SameLabels (s t : Session) : Prop where
  labels : ∀ f, (t.program.func f).labels = (s.program.func f).labels
  counter : ∀ f, s.context.labelNumber f ≤ t.context.labelNumber f

lemma Labelled.congr (hs : s.Labelled) (hst : s.SameLabels t) : t.Labelled := fun f =>
  ((hs f).congr (hst.labels f)).mono (hst.counter f)

lemma sameLabels_setFunc (s : Session)
    (hlabels : g.labels = (s.program.func f).labels) : s.SameLabels (s.setFunc f g) where
  labels h := by
    rw [setFunc, func_setFunc]
    split
    · next heq => rw [hlabels, heq.1]
    · rfl
  counter _ := le_rfl

lemma Labelled.setFunc (hs : s.Labelled) {n : Nat}
    (hg : g.Numbered n) (hn : s.context.labelNumber f ≤ n) :
    Labelled { program := s.program.setFunc f g, context := s.context.setLabelNumber f n } := by
  intro h
  rw [Context.labelNumber_setLabelNumber, func_setFunc]
  by_cases hfh : f = h
  · subst hfh
    rw [if_pos rfl]
    split
    · exact hg
    · exact (hs f).mono hn
  · rw [if_neg hfh, if_neg fun heq => hfh heq.1.symm]
    exact hs h

lemma Labelled.addBlock (hs : s.Labelled) (f : FuncId) :
    ((s.freshLabel f).2.setFunc f ((s.program.func f).addBlock (s.freshLabel f).1)).Labelled := by
  refine hs.setFunc ((hs f).append (Func.labels_addBlock _ _) ?_)
    (le_add_right _ 1)
  exact congrArg (fun k => [k]) (trailingNumber_blockLabel _ _)

lemma sameLabels_builtin (s : Session) (f : Builtin) : s.SameLabels (s.builtin f).2 where
  labels h := by
    rw [builtin]
    split
    · rfl
    · dsimp only
      rw [declareBuiltin, declare]
      split
      · rfl
      · refine (congrArg Func.labels (func_addFunc _ _ h)).trans ?_
        split
        · next hnew =>
          rw [func_of_size_le (p := s.program) hnew.ge]
          rfl
        · rfl
  counter h := by
    rw [builtin]
    split <;> exact le_rfl

end Session

end MiddleEnd
