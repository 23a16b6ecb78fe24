import MiddleEnd.Inlining
import MiddleEnd.Proofs.Placement
import MiddleEnd.Proofs.Prune
import MiddleEnd.Proofs.Transform

/-!
# The code after inlining a call

A call is replaced in steps, each of which adds blocks or instructions, moves instructions or changes
operations.  On consistent functions the lists of all blocks and all operations are known after each
step.
-/

namespace MiddleEnd.Inlining

open List Func EStateM Transform Constant

variable {w w' : Work} {memset : Option FuncId} {first : InstId} {slots : List InstId} {f g : Func}
  {call : InstId} {b : BlockId} {pre post is : List InstId} {value : Option Operand} {callee : Func}

/-! ## Splitting -/

lemma deleted_nextBlock (f : Func) : (f.block f.nextBlock).deleted = false := by
  rw [f.block_of_not_hasBlock f.not_hasBlock_nextBlock]
  rfl

lemma extends_splitAtCall (hf : f.Consistent) (hsplit : f.instsOf b = pre ++ call :: post)
    (label : String) :
    f.Extends (splitAtCall f call label) 0 1 ∧
      (∀ c, (splitAtCall f call label).instsOf c =
        if c = f.nextBlock then post else if c = b then pre ++ [call] else f.instsOf c) ∧
      (∀ c, ((splitAtCall f call label).block c).deleted = (f.block c).deleted) ∧
      ∀ j, (splitAtCall f call label).instr j =
          (if ∃ t ∈ targetsAfter f call, j ∈ (splitAtCall f call label).phis t then
            renamePred b f.nextBlock (f.instr j) else f.instr j) ∧
        ((splitAtCall f call label).inst j).ty = (f.inst j).ty := by
  have hcall : call ∈ f.instsOf b := by simp [hsplit]
  have hne : f.nextBlock ≠ b := (ne_nextBlock (hf.hasBlock_of_mem hcall)).symm
  obtain ⟨hlists, hthr⟩ := hf.instsOf_addBlock label
  have hadded := hf.addBlock label
  have hinto := (f.hasBlock_addBlock label _).mpr (Or.inr rfl)
  have hafter := hthr.instsAfter_eq hsplit
  have hl : (f.addBlock label).instsOf b = (pre ++ [call]) ++ post := by rw [hlists, hsplit]; simp
  obtain ⟨hmoved, hlists', hfr, hsize, hrec⟩ := hadded.foldl_moveToBack hne hinto hl
  have heq : splitAtCall f call label = (targetsAfter f call).foldl
      (fun g t => g.replacePred t b f.nextBlock)
      (post.foldl (fun g j => g.moveToBack j f.nextBlock) (f.addBlock label)) := by
    rw [splitAtCall, hf.block_of_mem hcall, splitAfter, hafter]
  generalize post.foldl (fun g j => g.moveToBack j f.nextBlock) (f.addBlock label) = m at *
  obtain ⟨hplaces, hrec'⟩ := hmoved.foldl_replacePred b f.nextBlock (targetsAfter f call)
  rw [← heq] at hplaces hrec'
  have hnext := instsOf_of_not_hasBlock f.not_hasBlock_nextBlock
  have hphis (t : BlockId) : (splitAtCall f call label).phis t = m.phis t := by
    have hkind (j : InstId) : ((splitAtCall f call label).instr j).isPhi = (m.instr j).isPhi := by
      rw [(hrec' j).1]
      split
      · cases m.instr j <;> rfl
      · rfl
    simp only [phis, hplaces.instsOf, hkind]
  refine ⟨⟨hplaces.consistent hmoved, (f.head_addBlock label).trans
    (hfr.trans hplaces.frame).head, ?_, ?_⟩, fun c => ?_, fun c => ?_, fun j => ⟨?_, ?_⟩⟩
  · exact hplaces.insts.trans hsize
  · exact (hplaces.blocks.trans hfr.blocks).trans (Array.size_push _)
  · rw [hplaces.instsOf, hlists', hlists, hnext, nil_append]
  · rw [hplaces.blockDeleted, hfr.blockDeleted, block_addBlock]
    split
    · next hc => rw [hc, deleted_nextBlock]
    · rfl
  · simp only [(hrec' j).1, (hrec j).1, hphis]
    rfl
  · exact (hrec' j).2.trans (hrec j).2

/-! ## Copied blocks -/

def addCopy (callee f : Func) (n : Nat) (prev b : BlockId) : Func :=
  let g := (f.addBlock (copyLabel f callee b n)).placeAfter f.nextBlock prev
  if (callee.block b).deleted then g.deleteBlock f.nextBlock else g

lemma addCopies_cons (callee f : Func) (n : Nat) (prev b : BlockId) (bs : List BlockId) :
    addCopies callee f n prev (b :: bs) =
      addCopies callee (addCopy callee f n prev b) (n + 1) f.nextBlock bs :=
  rfl

lemma extends_addCopy (callee : Func) (hf : f.Consistent) (hpos : 0 < f.blocks.size) (n : Nat)
    (prev b : BlockId) :
    f.Extends (addCopy callee f n prev b) 0 1 ∧
      (addCopy callee f n prev b).instsOf = f.instsOf ∧
      (addCopy callee f n prev b).insts = f.insts ∧
      ∀ c, ((addCopy callee f n prev b).block c).deleted =
        if c = f.nextBlock then (callee.block b).deleted else (f.block c).deleted := by
  have hadded := hf.addBlock (copyLabel f callee b n)
  have hhas : (f.addBlock (copyLabel f callee b n)).hasBlock f.nextBlock :=
    (f.hasBlock_addBlock _ _).mpr (Or.inr rfl)
  have hent : entry? (f.addBlock (copyLabel f callee b n)) ≠ some f.nextBlock := by
    rw [ entry?, if_neg (by simp [addBlock])]
    intro h
    have hzero : 0 = f.blocks.size := congrArg BlockId.idx (Option.some.inj h)
    omega
  have hpl := hadded.placeAfter hhas hent prev
  have hlists : ((f.addBlock (copyLabel f callee b n)).placeAfter f.nextBlock prev).instsOf =
      f.instsOf := by
    rw [(hadded.instsOf_placeAfter _ _).1, (hf.instsOf_addBlock _).1]
  have hdel (c : BlockId) :
      (((f.addBlock (copyLabel f callee b n)).placeAfter f.nextBlock prev).block c).deleted =
        if c = f.nextBlock then false else (f.block c).deleted := by
    change ((f.addBlock (copyLabel f callee b n)).block c).deleted = _
    rw [block_addBlock]
    split <;> rfl
  have hsize : ((f.addBlock (copyLabel f callee b n)).placeAfter f.nextBlock prev).blocks.size =
      f.blocks.size + 1 := Array.size_push _
  have hinsts : ((f.addBlock (copyLabel f callee b n)).placeAfter f.nextBlock prev).insts =
      f.insts := rfl
  have hhead : f.SameHead ((f.addBlock (copyLabel f callee b n)).placeAfter f.nextBlock prev) :=
    ⟨rfl, rfl, rfl, rfl, rfl⟩
  have hnil := instsOf_of_not_hasBlock f.not_hasBlock_nextBlock
  rw [addCopy]
  generalize (f.addBlock (copyLabel f callee b n)).placeAfter f.nextBlock prev = g at *
  split
  · next hdead =>
    have hg : (g.instsOf f.nextBlock).foldl remove g = g := by rw [hlists, hnil]; rfl
    refine ⟨⟨hpl.deleteBlock _, ?_, ?_, ?_⟩, ?_, ?_, fun c => ?_⟩
    · rw [deleteBlock, hg]
      exact hhead.trans ⟨rfl, rfl, rfl, rfl, rfl⟩
    · rw [deleteBlock, hg]
      exact congrArg Array.size hinsts
    · rw [deleteBlock, hg]
      exact Array.size_modify.trans hsize
    · funext c
      rw [hpl.instsOf_deleteBlock, hlists]
      split
      · next hc => rw [hc, hnil]
      · rfl
    · rw [deleteBlock, hg]
      exact hinsts
    · have hhas' : g.hasBlock f.nextBlock :=
        g.hasBlock_iff.mpr (by rw [hsize]; exact Nat.lt_succ_self _)
      rw [blockDeleted_deleteBlock, hdel, hdead, hhas']
      by_cases hc : c = f.nextBlock <;> simp [hc]
  · next hlive =>
    refine ⟨⟨hpl, hhead, congrArg Array.size hinsts, hsize⟩, hlists, hinsts, fun c => ?_⟩
    rw [hdel, Bool.eq_false_iff.mpr hlive]

lemma extends_addCopies (hf : f.Consistent) (hpos : 0 < f.blocks.size) (n : Nat) (prev : BlockId)
    (bs : List BlockId) :
    f.Extends (addCopies callee f n prev bs).2 0 bs.length ∧
      (addCopies callee f n prev bs).2.instsOf = f.instsOf ∧
      (addCopies callee f n prev bs).2.insts = f.insts ∧
      (∀ c, f.hasBlock c →
        ((addCopies callee f n prev bs).2.block c).deleted = (f.block c).deleted) ∧
      ∀ k c, bs[k]? = some c →
        ((addCopies callee f n prev bs).2.block ⟨f.blocks.size + k⟩).deleted =
          (callee.block c).deleted := by
  induction bs generalizing f n prev with
  | nil =>
    exact ⟨.refl hf, rfl, rfl, fun _ _ => rfl, fun k c hk => by simp at hk⟩
  | cons b bs ih =>
    obtain ⟨hext, hlists, hinsts, hdel⟩ := extends_addCopy callee hf hpos n prev b
    obtain ⟨hext', hlists', hinsts', hold, hnew⟩ := ih hext.consistent (by rw [hext.blocks]; omega)
      (n + 1) f.nextBlock
    rw [addCopies_cons]
    refine ⟨?_, hlists'.trans hlists, hinsts'.trans hinsts, fun c hc => ?_, fun k c hk => ?_⟩
    · have htrans := hext.trans hext'
      rwa [Nat.add_comm 1] at htrans
    · rw [hold c (hext.hasBlock hc), hdel, if_neg (ne_nextBlock hc)]
    · cases k with
      | zero =>
        obtain rfl : b = c := by simpa using hk
        have hhas := hext.hasBlock_iff.mpr (Nat.lt_succ_self _)
        have heq := hold f.nextBlock hhas
        rwa [hdel, if_pos rfl] at heq
      | succ k =>
        have heq := hnew k c (by simpa using hk)
        rwa [hext.blocks, Nat.add_right_comm] at heq

/-! ## Names of copies -/

namespace Copy

variable {c : Copy}

/-- The copy of an instruction that is listed in a live block. -/
def copied (c : Copy) (i : InstId) : InstId :=
  ⟨c.firstInst + c.callee.liveInsts.idxOf i⟩

lemma inst?_eq (c : Copy) (i : InstId) :
    c.inst? i = if i ∈ c.callee.liveInsts then some (c.copied i) else none := by
  rw [inst?]
  split
  · next hi =>
    have hidx : c.callee.liveInsts.idxOf? i = some (c.callee.liveInsts.idxOf i) :=
      List.findIdx?_eq_some_iff_findIdx_eq.mpr ⟨idxOf_lt_length_iff.mpr hi, rfl⟩
    rw [hidx]
    rfl
  · next hi => rw [List.idxOf?_eq_none_iff.mpr hi, Option.map_none]

lemma copied_inj (c : Copy) {i j : InstId} (hi : i ∈ c.callee.liveInsts)
    (heq : c.copied i = c.copied j) : i = j := by
  have hidx : c.callee.liveInsts.idxOf i = c.callee.liveInsts.idxOf j := by
    have h := congrArg InstId.idx heq
    simp only [copied] at h
    omega
  exact (idxOf_inj hi).mp hidx

lemma insts_eq (hc : c.callee.Consistent) :
    c.insts = c.callee.liveInsts.map fun i => (i, c.copied i) := by
  refine ext_getElem (by simp [insts]) fun n hn hn' => ?_
  simp [insts, copied, hc.nodup_liveInsts.idxOf_getElem]

lemma block_inj (c : Copy) {d : BlockId} (hb : b ∈ c.callee.layout) (heq : c.block b = c.block d) :
    b = d := by
  have hidx : c.callee.layout.idxOf b = c.callee.layout.idxOf d := by
    have h := congrArg BlockId.idx heq
    simp only [block] at h
    omega
  exact (idxOf_inj hb).mp hidx

lemma copied_inst (hc : c.callee.Consistent) {k : Nat} {i : InstId}
    (hk : c.callee.liveInsts[k]? = some i) : c.copied i = ⟨c.firstInst + k⟩ := by
  obtain ⟨hlt, rfl⟩ := List.getElem?_eq_some_iff.mp hk
  rw [copied, hc.nodup_liveInsts.idxOf_getElem]

end Copy

/-! ## Added code -/

/-- What `g` has more than `f`: instructions with the operations and types given. -/
structure Adds (f g : Func) (code : List (Instr × Ty)) : Prop where
  ext : f.Extends g code.length 0
  frame : f.SameFrame g
  old : ∀ j, f.hasInst j → g.instr j = f.instr j ∧ (g.inst j).ty = (f.inst j).ty
  new : ∀ k p, code[k]? = some p →
    g.instr ⟨f.insts.size + k⟩ = p.1 ∧ (g.inst ⟨f.insts.size + k⟩).ty = p.2

namespace Adds

variable {m : Func} {p : Instr × Ty} {code : List (Instr × Ty)}

lemma nil (hf : f.Consistent) : Adds f f [] :=
  ⟨.refl hf, .refl f, fun _ _ => ⟨rfl, rfl⟩, fun k p hk => by simp at hk⟩

lemma insertAt (hf : f.Consistent) (hb : f.hasBlock b) {l r : List InstId}
    (hl : f.instsOf b = l ++ r) (p : Instr × Ty) :
    Adds f (f.insertAt b l.getLast? p.1 p.2) [p] where
  ext := (f.sameFrame_insertAt b _ p.1 p.2).extends (hf.insertAt hb hl p.1 p.2)
    (f.size_insertAt b _ p.1 p.2)
  frame := f.sameFrame_insertAt b _ p.1 p.2
  old j hj := by
    obtain ⟨hinstr, hty, -⟩ := f.record_insertAt b l.getLast? p.1 p.2 j
    rw [if_neg (ne_nextInst hj)] at hinstr hty
    exact ⟨hinstr, hty⟩
  new k q hk := by
    obtain ⟨hlt, rfl⟩ := List.getElem?_eq_some_iff.mp hk
    obtain rfl := Nat.lt_one_iff.mp hlt
    obtain ⟨hinstr, hty, -⟩ := f.record_insertAt b l.getLast? p.1 p.2 f.nextInst
    rw [if_pos rfl] at hinstr hty
    exact ⟨hinstr, hty⟩

lemma cons (h : Adds f m [p]) (h' : Adds m g code) : Adds f g (p :: code) where
  ext := by
    have htrans := h.ext.trans h'.ext
    rwa [Nat.add_comm] at htrans
  frame := h.frame.trans h'.frame
  old j hj := by
    obtain ⟨hinstr, hty⟩ := h'.old j (h.ext.hasInst hj)
    exact ⟨hinstr.trans (h.old j hj).1, hty.trans (h.old j hj).2⟩
  new k q hk := by
    cases k with
    | zero =>
      obtain rfl : p = q := by simpa using hk
      obtain ⟨hinstr, hty⟩ := h'.old f.nextInst (h.ext.hasInst_iff.mpr (Nat.lt_succ_self _))
      exact ⟨hinstr.trans (h.new 0 p rfl).1, hty.trans (h.new 0 p rfl).2⟩
    | succ k =>
      have hnew := h'.new k q (by simpa using hk)
      rwa [h.ext.insts, Nat.add_right_comm] at hnew

end Adds

/-! ## Copied instructions -/

/-- What `g` has more than `f`: an empty phi for each of some instructions, at the end of the block
and with the type given for it. -/
structure Reserves (home : InstId → BlockId) (ty : InstId → Ty) (f g : Func) (is : List InstId) :
    Prop where
  ext : f.Extends g is.length 0
  frame : f.SameFrame g
  lists : ∀ c, g.instsOf c =
    f.instsOf c ++ ((is.zipIdx f.insts.size).filter fun p => home p.1 = c).map fun p => ⟨p.2⟩
  old : ∀ j, f.hasInst j → g.instr j = f.instr j ∧ (g.inst j).ty = (f.inst j).ty
  new : ∀ k i, is[k]? = some i →
    g.instr ⟨f.insts.size + k⟩ = .phi [] ∧ (g.inst ⟨f.insts.size + k⟩).ty = ty i

lemma reserves_foldl_append {home : InstId → BlockId} {ty : InstId → Ty} (hf : f.Consistent)
    (his : ∀ i ∈ is, f.hasBlock (home i)) :
    Reserves home ty f (is.foldl (fun g i => g.append (home i) (.phi []) (ty i)) f) is := by
  suffices h : Adds f (is.foldl (fun g i => g.append (home i) (.phi []) (ty i)) f)
      (is.map fun i => (.phi [], ty i)) ∧
      ∀ c, (is.foldl (fun g i => g.append (home i) (.phi []) (ty i)) f).instsOf c =
        f.instsOf c ++ ((is.zipIdx f.insts.size).filter fun p => home p.1 = c).map fun p => ⟨p.2⟩ by
    obtain ⟨⟨hext, hfr, hold, hnew⟩, hlists⟩ := h
    rw [length_map] at hext
    exact ⟨hext, hfr, hlists, hold, fun k i hk => hnew k _ (by rw [List.getElem?_map, hk]; rfl)⟩
  induction is generalizing f with
  | nil => exact ⟨.nil hf, fun c => by simp⟩
  | cons i is ih =>
    have hi := his i (.head _)
    have hadds := Adds.insertAt hf hi (append_nil _).symm (.phi [], ty i)
    rw [← hf.append_eq_insertAt] at hadds
    obtain ⟨hadds', hlists⟩ := ih hadds.ext.consistent fun j hj => by
      rw [hadds.frame.hasBlock, his j (.tail i hj)]
    refine ⟨hadds.cons hadds', fun c => ?_⟩
    rw [foldl_cons, hlists, hadds.ext.insts, hf.instsOf_append hi]
    by_cases hc : c = home i
    · subst hc
      simp [nextInst]
    · simp [hc, Ne.symm hc]

lemma foldl_replaceInstr (f : Func) (kind : InstId → Instr) {ps : List (InstId × InstId)}
    (hnd : (ps.map Prod.snd).Nodup) (hps : ∀ p ∈ ps, f.hasInst p.2) :
    f.SamePlaces (ps.foldl (fun g p => g.replaceInstr p.2 (kind p.1)) f) ∧
      (∀ j, ((ps.foldl (fun g p => g.replaceInstr p.2 (kind p.1)) f).inst j).ty = (f.inst j).ty) ∧
      (∀ j ∉ ps.map Prod.snd,
        (ps.foldl (fun g p => g.replaceInstr p.2 (kind p.1)) f).instr j = f.instr j) ∧
      ∀ p ∈ ps, (ps.foldl (fun g p => g.replaceInstr p.2 (kind p.1)) f).instr p.2 = kind p.1 := by
  induction ps generalizing f with
  | nil => exact ⟨.refl f, fun _ => rfl, fun _ _ => rfl, nofun⟩
  | cons p ps ih =>
    rw [map_cons, nodup_cons] at hnd
    have hplaces := samePlaces_replaceInstr f p.2 (kind p.1)
    obtain ⟨hplaces', hty, hold, hnew⟩ := ih (f.replaceInstr p.2 (kind p.1)) hnd.2
      fun q hq => by rw [hplaces.hasInst, hps q (.tail p hq)]
    refine ⟨hplaces.trans hplaces', fun j => ?_, fun j hj => ?_, fun q hq => ?_⟩
    · rw [foldl_cons, hty, ty_replaceInstr]
    · rw [map_cons, mem_cons, not_or] at hj
      rw [foldl_cons, hold j hj.2, instr_replaceInstr_of_ne hj.1]
    · rcases mem_cons.mp hq with rfl | hq
      · rw [foldl_cons, hold _ hnd.1, instr_replaceInstr_self (hps q (.head _))]
      · exact hnew q hq

/-! ## Slots -/

lemma foldl_moveToFront (hf : f.Consistent) (hb : f.hasBlock b)
    (hnd : is.Nodup) (his : ∀ i ∈ is, (f.inst i).live) :
    (is.foldl (fun g i => g.moveToFront i b) f).Consistent ∧
      f.SameFrame (is.foldl (fun g i => g.moveToFront i b) f) ∧
      (is.foldl (fun g i => g.moveToFront i b) f).insts.size = f.insts.size ∧
      (∀ c, (is.foldl (fun g i => g.moveToFront i b) f).instsOf c =
        (if c = b then is.reverse else []) ++ (f.instsOf c).filter fun i => i ∉ is) ∧
      ∀ j, (is.foldl (fun g i => g.moveToFront i b) f).instr j = f.instr j ∧
        ((is.foldl (fun g i => g.moveToFront i b) f).inst j).ty = (f.inst j).ty := by
  induction is generalizing f with
  | nil => exact ⟨hf, .refl f, rfl, fun c => by simp, fun j => ⟨rfl, rfl⟩⟩
  | cons i is ih =>
    rw [nodup_cons] at hnd
    have hi := his i (.head _)
    obtain ⟨hcons, hlists⟩ := hf.moveToFront hi hb
    have hfr := sameFrame_moveToFront f i b
    have hrec (j : InstId) := record_move f i b none j
    have hb' : (f.moveToFront i b).hasBlock b := by rw [hfr.hasBlock, hb]
    obtain ⟨hconsistent', hframe', hsize, hlists', hrec'⟩ := ih hcons hb' hnd.2
      fun j hj => (hrec j).2.2.1.trans (his j (.tail i hj))
    rw [foldl_cons]
    refine ⟨hconsistent', hfr.trans hframe', hsize.trans ?_, fun c => ?_, fun j => ?_⟩
    · rw [moveToFront, size_link, size_unlink]
    · have hfilter : ((f.instsOf c).erase i).filter (fun j => j ∉ is) =
          (f.instsOf c).filter fun j => j ∉ i :: is := by
        rw [(hf.nodup c).erase_eq_filter, filter_filter]
        refine filter_congr fun j _ => ?_
        by_cases hj : j = i <;> simp [hj]
      rw [hlists', hlists]
      by_cases hc : c = b
      · subst hc
        rw [if_pos rfl, if_pos rfl, if_pos rfl, filter_cons_of_pos (by simp [hnd.1]), hfilter,
          reverse_cons, append_assoc, singleton_append]
      · rw [if_neg hc, if_neg hc, if_neg hc, hfilter]
    · exact ⟨(hrec' j).1.trans (hrec j).1, (hrec' j).2.trans (hrec j).2.1⟩

/-- So many instructions, numbered from `start` on. -/
abbrev idsFrom (start len : Nat) : List InstId :=
  (List.range' start len).map InstId.mk

lemma foldl_insertBefore (hf : f.Consistent) {l r : List InstId}
    (hl : f.instsOf b = l ++ first :: r) (code : List (Instr × Ty)) :
    Adds f (code.foldl (fun g p => g.insertBefore first p.1 p.2) f) code ∧
      ∀ c, (code.foldl (fun g p => g.insertBefore first p.1 p.2) f).instsOf c =
        if c = b then l ++ idsFrom f.insts.size code.length ++ first :: r
        else f.instsOf c := by
  induction code generalizing f l with
  | nil =>
    refine ⟨.nil hf, fun c => ?_⟩
    split
    · next hc => simp [hc, hl]
    · rfl
  | cons p code ih =>
    have hadds := Adds.insertAt hf (hf.hasBlock_of_mem (i := first) (by simp [hl])) hl p
    rw [← hf.insertBefore_eq_insertAt hl] at hadds
    have hlists := hf.instsOf_insertBefore hl p.1 p.2
    obtain ⟨hadds', hlists'⟩ := ih (l := l ++ [f.nextInst]) hadds.ext.consistent (by
      rw [hlists]
      simp)
    refine ⟨hadds.cons hadds', fun c => ?_⟩
    rw [foldl_cons, hlists', hlists, hadds.ext.insts]
    split
    · simp [idsFrom, List.range'_succ, nextInst]
    · rfl

/-- The code that clears slots, if the next instruction has the number given. -/
inductive Clears (kind : InstId → Instr) (memset : Option FuncId) :
    Nat → List InstId → List (Instr × Ty) → Prop
  | nil (n : Nat) : Clears kind memset n [] []
  | scalar {n : Nat} {slot : InstId} {slots : List InstId} {code : List (Instr × Ty)} {t : Ty}
    {zero : Constant} : kind slot = .alloc t → zero? t = some zero →
    Clears kind memset (n + 1) slots code →
    Clears kind memset n (slot :: slots) ((.store (.const zero) (.inst slot), .void) :: code)
  | array {n : Nat} {slot : InstId} {slots : List InstId} {code : List (Instr × Ty)} {t : Ty}
    {fill : FuncId} {size : Int32} : kind slot = .alloc t → zero? t = none →
    memset = some fill → byteSize? t = some size → Clears kind memset (n + 2) slots code →
    Clears kind memset n (slot :: slots) ((.cast .bitcast (.inst slot), .pointer .i32) ::
      (.call fill [.inst ⟨n⟩, .int 0, .int size] none, .void) :: code)

lemma Clears.congr {kind kind' : InstId → Instr} {n : Nat} {code : List (Instr × Ty)}
    (h : Clears kind memset n slots code) (hkind : ∀ slot ∈ slots, kind' slot = kind slot) :
    Clears kind' memset n slots code := by
  induction h with
  | nil n => exact .nil n
  | scalar halloc hzero _ ih =>
    rw [forall_mem_cons] at hkind
    exact .scalar (hkind.1.trans halloc) hzero (ih hkind.2)
  | array halloc hzero hset hsize _ ih =>
    rw [forall_mem_cons] at hkind
    exact .array (hkind.1.trans halloc) hzero hset hsize (ih hkind.2)

lemma clearSlot_eq_ok {slot : InstId} {t : Ty} (halloc : w.func.instr slot = .alloc t)
    (h : clearSlot memset first slot w = .ok () w') :
    ∃ code, w'.func = code.foldl (fun g p => g.insertBefore first p.1 p.2) w.func ∧
      ∀ slots code', Clears w.func.instr memset (w.func.insts.size + code.length) slots code' →
        Clears w.func.instr memset w.func.insts.size (slot :: slots) (code ++ code') := by
  rw [clearSlot, func_bind, halloc] at h
  dsimp only at h
  cases hzero : zero? t with
  | some zero =>
    rw [hzero] at h
    obtain rfl := (Result.ok.inj h).2
    exact ⟨[(.store (.const zero) (.inst slot), .void)], rfl,
      fun slots code' hcode => .scalar halloc hzero hcode⟩
  | none =>
    rw [hzero] at h
    cases hset : memset with
    | none =>
      rw [hset] at h
      cases h
    | some fill =>
      cases hsize : byteSize? t with
      | none =>
        rw [hset, hsize] at h
        cases h
      | some size =>
        rw [hset, hsize] at h
        obtain rfl := (Result.ok.inj h).2
        exact ⟨[(.cast .bitcast (.inst slot), .pointer .i32),
          (.call fill [.inst w.func.nextInst, .int 0, .int size] none, .void)], rfl,
          fun slots code' hcode => .array halloc hzero rfl hsize hcode⟩

lemma forM_clearSlot {l r : List InstId} (hf : w.func.Consistent)
    (hl : w.func.instsOf b = l ++ first :: r)
    (hslots : ∀ s ∈ slots, w.func.hasInst s ∧ ∃ t, w.func.instr s = .alloc t)
    (h : slots.forM (clearSlot memset first) w = .ok () w') :
    ∃ code, Clears w.func.instr memset w.func.insts.size slots code ∧
      w'.func = code.foldl (fun g p => g.insertBefore first p.1 p.2) w.func := by
  induction slots generalizing w l with
  | nil =>
    obtain rfl := (Result.ok.inj h).2
    exact ⟨[], .nil _, rfl⟩
  | cons slot slots ih =>
    obtain ⟨⟨⟩, v, hv, h⟩ := bind_ok h
    obtain ⟨t, halloc⟩ := (hslots slot (.head _)).2
    obtain ⟨code, hcode, hclears⟩ := clearSlot_eq_ok halloc hv
    obtain ⟨hadds, hlists⟩ := foldl_insertBefore hf hl code
    rw [← hcode] at hadds hlists
    have hl' : v.func.instsOf b =
        (l ++ idsFrom w.func.insts.size code.length) ++ first :: r := by
      rw [hlists, if_pos rfl]
    have hrest (s : InstId) (hs : s ∈ slots) := hslots s (.tail slot hs)
    obtain ⟨code', hclears', hcode'⟩ := ih hadds.ext.consistent hl' (fun s hs => by
      obtain ⟨hhas, t, halloc⟩ := hrest s hs
      exact ⟨hadds.ext.hasInst hhas, t, (hadds.old s hhas).1.trans halloc⟩) h
    refine ⟨code ++ code', hclears slots code' ?_, ?_⟩
    · rw [← hadds.ext.insts]
      exact hclears'.congr fun s hs => (hadds.old s (hrest s hs).1).1.symm
    · rw [hcode', hcode, foldl_append]

lemma clearSlots_eq_ok (hf : w.func.Consistent)
    (hslots : ∀ s ∈ slots, w.func.hasInst s ∧ ∃ t, w.func.instr s = .alloc t)
    (h : clearSlots memset slots b w = .ok () w') :
    ∃ first rest code, w.func.instsOf b = first :: rest ∧
      Clears w.func.instr memset w.func.insts.size slots code ∧
      w'.func = code.foldl (fun g p => g.insertBefore first p.1 p.2) w.func := by
  rw [clearSlots, func_bind, hf.threaded.first] at h
  cases hlist : w.func.instsOf b with
  | nil =>
    rw [hlist] at h
    cases h
  | cons first rest =>
    rw [hlist] at h
    obtain ⟨code, hclears, hcode⟩ := forM_clearSlot hf (l := []) hlist hslots h
    exact ⟨first, rest, code, rfl, hclears, hcode⟩

/-! ## Results -/

/-- What is put at the start of the block after a copy, if the next instruction has the number given,
and the value of the call. -/
inductive Merges (c : Copy) (n : Nat) : List (Instr × Ty) → Option Operand → Prop
  | void : c.callee.ret = .void → Merges c n [] none
  | never : c.callee.ret ≠ .void → c.returned = [] →
    Merges c n [] ((zero? c.callee.ret).map .const)
  | once {entry : PhiEntry} : c.callee.ret ≠ .void → c.returned = [entry] →
    Merges c n [] entry.value
  | phi : c.callee.ret ≠ .void → 1 < c.returned.length →
    Merges c n [(.phi c.returned, c.callee.ret)] (some (.inst ⟨n⟩))

lemma mergeReturns_eq_ok {c : Copy} (h : mergeReturns c w = .ok value w') :
    ∃ merge, Merges c w.func.insts.size merge value ∧
      w'.func = merge.foldl (fun g p => g.prepend c.after p.1 p.2) w.func := by
  rw [mergeReturns] at h
  split at h
  · next hvoid =>
    obtain ⟨rfl, rfl⟩ := Result.ok.inj h
    exact ⟨[], .void hvoid, rfl⟩
  · next hvoid =>
    cases hret : c.returned with
    | nil =>
      rw [hret] at h
      obtain ⟨rfl, rfl⟩ := Result.ok.inj h
      exact ⟨[], .never hvoid hret, rfl⟩
    | cons entry entries =>
      rw [hret] at h
      cases entries with
      | nil =>
        obtain ⟨rfl, rfl⟩ := Result.ok.inj h
        exact ⟨[], .once hvoid hret, rfl⟩
      | cons entry' entries =>
        dsimp only at h
        rw [func_bind] at h
        split at h
        · cases h
        · obtain ⟨rfl, rfl⟩ := Result.ok.inj h
          refine ⟨_, .phi hvoid (by rw [hret]; simp), ?_⟩
          rw [hret]
          rfl

def withResult (f : Func) (call : InstId) : Option Operand → Func
  | some v => (f.replaceUses (.inst call) v).2
  | none => f

lemma replaceResult_eq_ok {c : Copy} (h : replaceResult c call value w = .ok () w') :
    w'.func = withResult w.func call value ∧ (∀ v, value = some v → w.func.admits v) ∧
      (value = none → (w.func.inst call).users = []) := by
  rw [replaceResult, func_bind] at h
  cases value with
  | some v =>
    dsimp only at h
    split at h
    · next hadmits =>
      obtain rfl := (Result.ok.inj h).2
      refine ⟨rfl, fun u hu => ?_, fun hnone => by cases hnone⟩
      rw [← Option.some.inj hu, hadmits]
    · cases h
  | none =>
    dsimp only at h
    split at h
    · cases h
    · next husers =>
      obtain rfl := (Result.ok.inj h).2
      exact ⟨rfl, fun v hv => by (cases hv), fun _ => by simpa using husers⟩

end MiddleEnd.Inlining
