import MiddleEnd.Proofs.Builder.Sessions
import MiddleEnd.Proofs.Inlining.Splice

/-!
# Labels

Builders and inlining take the numbers of new labels from the counter of the function: no two blocks
of a function have the same label.
-/

namespace MiddleEnd

open List Func Builder Transform

/-! ## Builders -/

namespace Builder

lemma labelled_start {s : Session} {f : FuncId} {b : Builder} (h : start s f = .ok b)
    (hs : s.Labelled) : b.session.Labelled := by
  rw [start] at h
  split at h
  · cases h
  split at h
  · cases h
  split at h
  · cases h
    exact hs
  · cases h
    exact hs.addBlock f

variable {b : Builder}

lemma labelled_take (hb : b.Ready) (s : BuildStep) :
    (b.take s).Ready ∧ (b.session.Labelled → (b.take s).session.Labelled) := by
  by_cases hkind : ∀ i c, s ≠ .resolve i c
  · have hreach : b.Reaches False (b.take s) := reaches_take hb nofun hkind
    exact ⟨hreach.ready hb, hreach.labelled⟩
  push Not at hkind
  obtain ⟨i, c, rfl⟩ := hkind
  by_cases hi : b.body.hasInst i ∧ (b.body.instr i).isPendingJump
  · refine ⟨(take_resolve_of_pending hb hi.1 hi.2 c).2.1, fun hlabelled => ?_⟩
    rw [take, BuildStep.perform, resolve_eq, if_pos hi.1, if_pos hi.2]
    exact hlabelled.congr (Session.sameLabels_setFunc _
      (samePlaces_replaceInstr b.body i _).frame.labels)
  · rw [take_resolve_of_not hi]
    exact ⟨hb, id⟩

lemma labelled_takeAll (hb : b.Ready) (hlabelled : b.session.Labelled) (ss : List BuildStep) :
    (b.takeAll ss).session.Labelled := by
  induction ss generalizing b with
  | nil => exact hlabelled
  | cons s ss ih =>
    obtain ⟨hready, hstep⟩ := labelled_take hb s
    exact ih hready (hstep hlabelled)

lemma labelled_finish {b' : Builder} (h : Build.finish b = .ok ((), b'))
    (hb : b.session.Labelled) : b'.session.Labelled := by
  rw [Build.finish_eq] at h
  split at h
  · cases h
  · cases h
    exact hb.congr (Session.sameLabels_setFunc _ (sameFrame_endBlocks _ _).labels)

end Builder

/-! ## Inlining -/

section Outcomes

variable {ε σ α β : Type} {I J : σ → Prop} {x : EStateM ε σ α} {k : α → EStateM ε σ β} {s : σ}

/-- The state that `x` leaves, with a result or an error. -/
def Leaves (I : σ → Prop) (x : EStateM ε σ α) (s : σ) : Prop :=
  (∀ a t, x s = .ok a t → I t) ∧ ∀ e t, x s = .error e t → I t

/-- What holds before holds afterwards, also if there is an error. -/
def Keeps (I : σ → Prop) (x : EStateM ε σ α) : Prop :=
  ∀ s, I s → Leaves I x s

lemma Leaves.of_ok {t : σ} {a : α} (h : x s = .ok a t) (ht : I t) : Leaves I x s := by
  refine ⟨fun a' t' h' => ?_, fun e t' h' => ?_⟩ <;> cases h.symm.trans h'
  exact ht

lemma Leaves.of_error {t : σ} {e : ε} (h : x s = .error e t) (ht : I t) : Leaves I x s := by
  refine ⟨fun a' t' h' => ?_, fun e t' h' => ?_⟩ <;> cases h.symm.trans h'
  exact ht

lemma Leaves.mono (h : Leaves I x s) (hIJ : ∀ t, I t → J t) : Leaves J x s :=
  ⟨fun a t h' => hIJ t (h.1 a t h'), fun e t h' => hIJ t (h.2 e t h')⟩

lemma Leaves.bind (hx : Leaves I x s)
    (hk : ∀ a, Keeps I (k a)) : Leaves I (x >>= k) s := by
  cases hxs : x s with
  | ok a t =>
    have hrest : Leaves I (k a) t := hk a t (hx.1 a t hxs)
    rw [Leaves, bind_of_ok hxs]
    exact hrest
  | error e t =>
    refine .of_error (e := e) ?_ (hx.2 e t hxs)
    simp [Bind.bind, EStateM.bind, hxs]

namespace Keeps

lemma pure (a : α) : Keeps I (pure a : EStateM ε σ α) := fun _ hs =>
  .of_ok rfl hs

lemma throw (e : ε) : Keeps I (throw e : EStateM ε σ α) := fun _ hs =>
  .of_error rfl hs

lemma get : Keeps I (get : EStateM ε σ σ) := fun _ hs =>
  .of_ok rfl hs

lemma modify {g : σ → σ} (hg : ∀ s, I s → I (g s)) :
    Keeps I (modify g : EStateM ε σ PUnit) := fun s hs =>
  .of_ok rfl (hg s hs)

lemma bind (hx : Keeps I x)
    (hk : ∀ a, Keeps I (k a)) : Keeps I (x >>= k) := fun s hs =>
  (hx s hs).bind hk

lemma forM {k : α → EStateM ε σ PUnit} (hk : ∀ a, Keeps I (k a)) (as : List α) :
    Keeps I (as.forM k) := by
  induction as with
  | nil => exact .pure _
  | cons a as ih => exact (hk a).bind fun _ => ih

lemma flatMapM {k : α → EStateM ε σ (List β)} (hk : ∀ a, Keeps I (k a)) (as : List α) :
    Keeps I (as.flatMapM k) := by
  induction as with
  | nil => exact .pure []
  | cons a as ih =>
    rw [flatMapM_cons]
    exact (hk a).bind fun _ => ih.bind fun _ => .pure _

end Keeps

end Outcomes

lemma Compile.keeps_lift {α : Type} {I : Session → Prop} (x : Except Error α) :
    Keeps I (lift x) := by
  cases x with
  | ok a => exact .pure a
  | error e => exact .throw e

lemma Compile.leaves_transform {α : Type} {I : Session → Prop} {J : Work → Prop} {id : FuncId}
    {x : Transform α} {s : Session} (hx : Leaves J x { func := s.program.func id })
    (hI : ∀ w, J w →
      I { program := s.program.setFunc id w.func, context := s.context.recordAll w.events }) :
    Leaves I (transform id x) s := by
  cases hxs : x { func := s.program.func id } with
  | ok a w => exact .of_ok (transform_of_ok hxs) (hI w (hx.1 a w hxs))
  | error e w =>
    refine .of_error (e := e) ?_ (hI w (hx.2 e w hxs))
    simp only [transform, hxs]

namespace Inlining

variable {f : Func}

lemma trailingNumber_copyLabel (caller callee : Func) (b : BlockId) (n : Nat) :
    trailingNumber (copyLabel caller callee b n) = n :=
  trailingNumber_append _ "_" (c := '_') (by simp) (by decide) n

lemma labels_splitAtCall (f : Func) (call : InstId) (label : String) :
    (splitAtCall f call label).labels = f.labels ++ [label] := by
  have hrename (g : Func) (bs : List BlockId) :
      (bs.foldl (fun g b => g.replacePred b (f.inst call).block f.nextBlock) g).labels = g.labels :=
    (samePlaces_foldl (fun g b => samePlaces_replacePred g b _ _) bs g).frame.labels
  rw [splitAtCall, hrename, splitAfter,
    (sameFrame_foldl (fun g i => sameFrame_moveToBack g i _) _ _).labels,
    labels_addBlock]

lemma labels_addCopies (callee : Func) (bs : List BlockId) (f : Func) (n : Nat) (prev : BlockId) :
    ∃ new, (addCopies callee f n prev bs).2.labels = f.labels ++ new ∧
      new.map trailingNumber = List.range' n bs.length := by
  induction bs generalizing f n prev with
  | nil => exact ⟨[], by simp [addCopies], rfl⟩
  | cons b bs ih =>
    have hcopy : (addCopy callee f n prev b).labels = f.labels ++ [copyLabel f callee b n] := by
      rw [addCopy]
      split
      · rw [labels_deleteBlock]
        exact labels_addBlock f _
      · exact labels_addBlock f _
    obtain ⟨new, hlabels, hnew⟩ := ih (addCopy callee f n prev b) (n + 1) f.nextBlock
    refine ⟨copyLabel f callee b n :: new, ?_, ?_⟩
    · rw [addCopies_cons, hlabels, hcopy, append_assoc, singleton_append]
    · rw [map_cons, trailingNumber_copyLabel, hnew, length_cons, List.range'_succ]

lemma labels_withCopy (f : Func) (s : Site) (n : Nat) :
    ∃ new, (withCopy f s n).labels = f.labels ++ new ∧
      new.map trailingNumber = List.range' n (labelCount s.callee) := by
  obtain ⟨new, hlabels, hnew⟩ := labels_addCopies s.callee s.callee.layout
    (splitAtCall f s.call (blockLabel f.name n)) (n + 1) (f.inst s.call).block
  have hhoist (g : Func) : (hoistSlots (s.copy f) s.callerEntry g).labels = g.labels :=
    (sameFrame_foldl (fun g i => sameFrame_moveToFront g i _) _ g).labels
  have hfill (g : Func) : (fillPlaceholders (s.copy f) g).labels = g.labels :=
    (samePlaces_foldl (fun g _ => samePlaces_replaceInstr g _ _) _ g).frame.labels
  have hadd (g : Func) : (addPlaceholders (s.copy f) g).labels = g.labels :=
    (sameFrame_foldl (fun g _ => sameFrame_insertAt g _ _ _ _) _ g).labels
  refine ⟨blockLabel f.name n :: new, ?_, ?_⟩
  · rw [withCopy, hhoist, withInsts, hfill, hadd]
    refine hlabels.trans ?_
    rw [labels_splitAtCall, append_assoc, singleton_append]
  · rw [map_cons, trailingNumber_blockLabel, hnew, labelCount, List.range'_succ]

section Labels

variable {labels : List String} {α : Type}

lemma keeps_func_bind {k : Func → Transform α}
    (hk : ∀ f, f.labels = labels → Keeps (fun w : Work => w.func.labels = labels) (k f)) :
    Keeps (fun w : Work => w.func.labels = labels) (func >>= k) := fun w hw =>
  hk w.func hw w hw

lemma keeps_edit {g : Func → Func} (hg : ∀ f, (g f).labels = f.labels) :
    Keeps (fun w : Work => w.func.labels = labels) (edit g) :=
  .modify fun w hw => (hg w.func).trans hw

lemma keeps_setFunc {g : Func} (hg : g.labels = labels) :
    Keeps (fun w : Work => w.func.labels = labels) (setFunc g) :=
  .modify fun _ _ => hg

lemma keeps_clearSlot (memset : Option FuncId) (first slot : InstId) :
    Keeps (fun w : Work => w.func.labels = labels) (clearSlot memset first slot) := by
  have hinsert (k : Instr) (t : Ty) : Keeps (fun w : Work => w.func.labels = labels)
      (edit (·.insertBefore first k t)) :=
    keeps_edit fun f => f.labels_insertBefore first k t
  refine keeps_func_bind fun f _ => ?_
  split
  · split
    · exact hinsert _ _
    · exact .throw _
    · exact .throw _
    · exact (hinsert _ _).bind fun _ => hinsert _ _
  · exact .pure ()

lemma keeps_clearSlots (memset : Option FuncId) (slots : List InstId) (b : BlockId) :
    Keeps (fun w : Work => w.func.labels = labels) (clearSlots memset slots b) := by
  refine keeps_func_bind fun f _ => ?_
  split
  · exact .throw _
  · exact .forM (keeps_clearSlot memset _) slots

lemma keeps_mergeReturns (c : Copy) :
    Keeps (fun w : Work => w.func.labels = labels) (mergeReturns c) := by
  rw [mergeReturns]
  split
  · exact .pure none
  · split
    · exact .pure _
    · exact .pure _
    · refine keeps_func_bind fun f hf => ?_
      split
      · exact .throw _
      · have hfr := sameFrame_prepend f c.after (.phi c.returned) c.callee.ret
        exact (keeps_setFunc (hfr.labels.trans hf)).bind fun _ => .pure _

lemma keeps_replaceResult (c : Copy) (call : InstId) (value : Option Operand) :
    Keeps (fun w : Work => w.func.labels = labels) (replaceResult c call value) := by
  refine keeps_func_bind fun f hf => ?_
  split
  · split
    · exact keeps_setFunc ((samePlaces_replaceUses f _ _).frame.labels.trans hf)
    · exact .throw _
  · split
    · exact .throw _
    · exact .pure ()

end Labels

lemma leaves_expand (s : Site) (n : Nat) (memset : Option FuncId) (w : Work) :
    ∃ new, new.map trailingNumber = List.range' n (labelCount s.callee) ∧
      Leaves (fun t : Work => t.func.labels = w.func.labels ∨ t.func.labels = w.func.labels ++ new)
        (expand s n memset) w := by
  obtain ⟨new, hlabels, hnew⟩ := labels_withCopy w.func s n
  refine ⟨new, hnew, ?_⟩
  rw [Leaves, expand, func_bind]
  dsimp only
  split
  · exact Leaves.of_error rfl (.inl rfl)
  split
  · exact Leaves.of_error rfl (.inl rfl)
  have hcopy : Leaves (fun t : Work => t.func.labels = w.func.labels ++ new)
      (setFunc (withCopy w.func s n)) w := .of_ok rfl hlabels
  refine Leaves.mono (hcopy.bind fun _ => ?_) fun t => .inr
  refine (keeps_clearSlots _ _ _).bind fun _ => (keeps_mergeReturns _).bind fun value => ?_
  refine (keeps_replaceResult _ _ _).bind fun _ => keeps_edit fun f => ?_
  rw [(samePlaces_setType _ _ _).frame.labels, (samePlaces_replaceInstr _ _ _).frame.labels]

/-! ### The pass -/

lemma keeps_expand (caller : FuncId) (s : Site) (memset : Option FuncId) {α : Type}
    {k : Unit → Compile α} (hk : Keeps Session.Labelled (k ())) :
    Keeps Session.Labelled (reserveLabels caller (labelCount s.callee) >>= fun n =>
      Compile.transform caller (expand s n memset) >>= k) := by
  intro t ht
  set n := t.context.labelNumber caller with hn
  have hreserve : reserveLabels caller (labelCount s.callee) t = .ok n
      { t with context := t.context.setLabelNumber caller (n + labelCount s.callee) } := rfl
  rw [Leaves, bind_of_ok hreserve]
  refine Leaves.bind ?_ fun _ => hk
  obtain ⟨new, hnew, hleaves⟩ := leaves_expand s n memset { func := t.program.func caller }
  have hlen : new.length = labelCount s.callee := by simpa using congrArg List.length hnew
  refine Compile.leaves_transform hleaves fun w hw => ?_
  refine ht.setFunc ?_ (Nat.le_add_right n _)
  rcases hw with hw | hw
  · exact ((ht caller).congr hw).mono (Nat.le_add_right n _)
  · rw [← hlen] at hnew ⊢
    exact (ht caller).append hw hnew

lemma keeps_record (e : Event) : Keeps Session.Labelled (Compile.record e) :=
  .modify fun _ hs => hs

lemma keeps_program : Keeps Session.Labelled Compile.program :=
  .bind .get fun _ => .pure _

lemma keeps_fillFor (body : Func) : Keeps Session.Labelled (fillFor body) := by
  rw [fillFor]
  split
  · rw [map_eq_pure_bind]
    refine Keeps.bind (fun s hs => ?_) fun f => .pure (some f)
    exact .of_ok rfl (hs.congr ⟨(s.sameLabels_builtin .memset).labels,
      (s.sameLabels_builtin .memset).counter⟩)
  · exact .pure none

lemma callee_of_site {callee : Func} {call : InstId} {s : Site} (h : site f call callee = .ok s) :
    s.callee = callee := by
  rw [site] at h
  split at h <;> cases h
  rfl

lemma keeps_inlineCall (caller : FuncId) (call : InstId) (callee : FuncId) :
    Keeps Session.Labelled (inlineCall caller call callee) := by
  refine keeps_program.bind fun p => (Compile.keeps_lift _).bind fun body =>
    (keeps_fillFor body).bind fun memset => keeps_program.bind fun q => ?_
  dsimp only
  cases hsite : site (q.func caller) call body with
  | error e => exact fun s hs => .of_error rfl hs
  | ok s =>
    have hlift : Compile.lift (Except.mapError Error.internal (.ok s)) = pure s := rfl
    rw [hlift, pure_bind, ← callee_of_site hsite]
    refine keeps_expand caller s memset ((keeps_record _).bind fun _ => .modify fun t ht => ?_)
    exact ht.congr ⟨fun _ => rfl, fun g => (Context.labelNumber_markInlined _ _ g).ge⟩

lemma keeps_inlineInto (graph : CallGraph) (threshold : Option Nat) (caller : FuncId) :
    Keeps Session.Labelled (inlineInto graph threshold caller) := by
  refine keeps_program.bind fun p => Keeps.bind (.forM (fun c => ?_) _) fun _ => .pure _
  obtain ⟨call, callee⟩ := c
  exact keeps_inlineCall caller call callee

lemma keeps_retire (f : FuncId) : Keeps Session.Labelled (retire f) := by
  intro s hs
  rw [Leaves, retire, Compile.program_bind]
  refine Leaves.bind (.of_ok rfl ?_) fun _ => keeps_record _
  have hsame := s.sameLabels_setFunc (g := { s.program.func f with deleted := true }) rfl
  exact hs.congr ⟨hsame.labels, fun g => (Context.labelNumber_markRetired _ _ g).ge⟩

lemma keeps_run (threshold : Option Nat) : Keeps Session.Labelled (run threshold) := by
  refine Keeps.bind ?_ fun inlined => keeps_program.bind fun p =>
    (Keeps.forM keeps_retire _).bind fun _ => .pure _
  exact keeps_program.bind fun p => (Compile.keeps_lift _).bind fun graph =>
    .flatMapM (keeps_inlineInto graph threshold) _

end Inlining

/-! ## Histories -/

namespace Session

variable {s t : Session}

/-- The sessions whose blocks come from builders and from inlining, in any order.  A builder can be
left before it is finished, and inlining can fail.  What else happens in between gives no function a
block, keeps the labels and puts no counter back. -/
inductive Grown : Session → Prop
  | empty {s : Session} (hblks : ∀ f ∈ s.program.funcs, f.blocks = #[]) : Grown s
  | build {s : Session} {f : FuncId} {b : Builder} (hs : Grown s)
    (hstart : start s f = .ok b) (calls : List BuildStep) :
    Grown (b.takeAll calls).session
  | finish {s : Session} {f : FuncId} {b b' : Builder} {calls : List BuildStep} (hs : Grown s)
    (hstart : start s f = .ok b)
    (hfinish : Build.finish (b.takeAll calls) = .ok ((), b')) : Grown b'.session
  | inline {s t : Session} {threshold : Option Nat} {changed : Bool} (hs : Grown s)
    (hrun : Inlining.run threshold s = .ok changed t) : Grown t
  | fail {s t : Session} {threshold : Option Nat} {e : Error} (hs : Grown s)
    (hrun : Inlining.run threshold s = .error e t) : Grown t
  | other {s t : Session} (hs : Grown s) (hst : s.SameLabels t) : Grown t

lemma Labelled.of_empty (hblks : ∀ f ∈ s.program.funcs, f.blocks = #[]) : s.Labelled := by
  intro f
  have hnone : (s.program.func f).labels = [] := by
    refine Program.forall_func (P := fun f => f.labels = []) rfl (fun g hg => ?_) f
    rw [labels, hblks g hg]
    rfl
  exact ⟨by simp [hnone], by simp [hnone]⟩

lemma Grown.labelled (hs : s.Grown) : s.Labelled := by
  induction hs with
  | empty hblks => exact .of_empty hblks
  | build _ hstart calls ih =>
    exact labelled_takeAll (start_eq_ok True hstart).2.1 (labelled_start hstart ih) calls
  | finish _ hstart hfinish ih =>
    exact labelled_finish hfinish (labelled_takeAll
      (start_eq_ok True hstart).2.1 (labelled_start hstart ih) _)
  | inline _ hrun ih => exact (Inlining.keeps_run _ _ ih).1 _ _ hrun
  | fail _ hrun ih => exact (Inlining.keeps_run _ _ ih).2 _ _ hrun
  | other _ hst ih => exact ih.congr hst

/-- No two blocks of a function have the same label. -/
theorem Grown.blockLabels_nodup (hs : s.Grown) :
    ∀ f ∈ s.program.funcs, (f.blocks.toList.map Block.label).Nodup := by
  intro f hf
  obtain ⟨id, rfl⟩ := Program.exists_func hf
  exact (hs.labelled id).nodup_labels

def empty (funcs : List Func) : Session where
  program := { funcs := funcs.toArray }

/-- The main function calls another one twice, and both calls are replaced by copies. -/
theorem blockLabels_nodup_twoCalls :
    ∃ s t, s.Grown ∧ Inlining.run none s = .ok true t ∧ (t.program.func ⟨1⟩).blocks.size = 5 ∧
      ((t.program.func ⟨1⟩).blocks.toList.map Block.label).Nodup := by
  have hhistory : ∃ b₁ b₂ b₃ b₄,
      Builder.start (empty [.new "f" .i32 [], .new "main" .i32 []]) ⟨0⟩ = .ok b₁ ∧
      Build.finish (b₁.takeAll [.ret (some (.int 1))]) = .ok ((), b₂) ∧
      Builder.start b₂.session ⟨1⟩ = .ok b₃ ∧
      Build.finish (b₃.takeAll [.call ⟨0⟩ [], .call ⟨0⟩ []]) = .ok ((), b₄) ∧
      report? (Inlining.run none) b₄.session = some true ∧
      ((left (Inlining.run none) b₄.session).program.func ⟨1⟩).blocks.size = 5 :=
    ⟨_, _, _, _, rfl, rfl, rfl, rfl, by decide +kernel, by decide +kernel⟩
  obtain ⟨b₁, b₂, b₃, b₄, hcallee, hfinish, hcaller, hfinish', hresult, hsize⟩ := hhistory
  have hgrown : b₄.session.Grown :=
    .finish (.finish (.empty (by simp [empty, Func.new])) hcallee hfinish) hcaller hfinish'
  obtain ⟨t, hrun⟩ := report?_eq_some hresult
  rw [left, hrun] at hsize
  refine ⟨_, t, hgrown, hrun, hsize, (hgrown.inline hrun).blockLabels_nodup _ ?_⟩
  refine Program.mem_funcs (decide_eq_true ?_)
  by_contra hnot
  rw [Program.func_of_size_le (Nat.le_of_not_lt hnot)] at hsize
  cases hsize

end Session

end MiddleEnd
