import MiddleEnd.Proofs.Graph.Traversal

/-!
# The pre-order and the recursive search

The recursive search goes on with the first node that waits: the first target, not entered yet, of
the edges that leave the nodes entered, the edges of the last node first.  The loop of the
pre-order marks nodes when it pushes them.  A node that waits stays where it has been pushed first,
and the loop goes on with the node whose last edge comes first.

Both orders are generated by their rule, so they agree exactly if the two rules choose the same
node whenever the recursive search enters one.
-/

namespace MiddleEnd.Graph

open List

/-- The targets of the edges that leave the given nodes, the edges of the last node first. -/
def targets (g : Graph) (nodes : List Nat) : List Nat :=
  nodes.reverse.flatMap g.successors

/-- The targets that are not among the given nodes. -/
def waiting (g : Graph) (nodes : List Nat) : List Nat :=
  (g.targets nodes).filter fun n => n ∉ nodes

def firstWaiting (g : Graph) (nodes : List Nat) : Option Nat :=
  (g.waiting nodes).head?

/-- The rule of the pre-order: of each node that waits only the last edge counts. -/
def firstPushed (g : Graph) (nodes : List Nat) : Option Nat :=
  (g.waiting nodes).dedup.head?

/-- The nodes given last are those that a rule chooses after the nodes given first, each one by
the nodes before it, until it chooses none. -/
inductive Generates (next : List Nat → Option Nat) : List Nat → List Nat → Prop
  | stop {nodes : List Nat} : next nodes = none → Generates next nodes []
  | step {nodes rest : List Nat} {n : Nat} : next nodes = some n →
    Generates next (nodes ++ [n]) rest → Generates next nodes (n :: rest)

variable {g : Graph} {s t : Tour} {ns nodes : List Nat} {start n : Nat}

namespace Generates

variable {next next' : List Nat → Option Nat} {rest rest' : List Nat}

lemma unique (h : Generates next nodes rest) (h' : Generates next nodes rest') :
    rest = rest' := by
  induction h generalizing rest' with
  | stop hnone =>
    cases h' with
    | stop _ => rfl
    | step hsome _ => exact absurd (hnone.symm.trans hsome) (by simp)
  | step hsome _ ih =>
    cases h' with
    | stop hnone => exact absurd (hsome.symm.trans hnone) (by simp)
    | step hsome' h' =>
      obtain rfl := Option.some.inj (hsome.symm.trans hsome')
      exact congrArg (cons _) (ih h')

/-- A second rule that ends where the first one does generates the same nodes if it chooses each of
them. -/
lemma iff_of_next (h : Generates next nodes rest)
    (hnone : ∀ nodes, next nodes = none → next' nodes = none) :
    Generates next' nodes rest ↔ ∀ before n after, rest = before ++ n :: after →
      next' (nodes ++ before) = some n := by
  induction h with
  | stop hstop => exact iff_of_true (.stop (hnone _ hstop)) fun _ _ _ h => absurd h (by simp)
  | @step nodes rest n _ _ ih =>
    constructor
    · rintro (_ | ⟨hsome, hrest⟩) before m after heq
      cases before with
      | nil =>
        obtain rfl : n = m := (cons_eq_cons.mp heq).1
        simpa using hsome
      | cons k before =>
        obtain rfl : n = k := (cons_eq_cons.mp heq).1
        rw [append_cons]
        exact ih.mp hrest before m after (cons_eq_cons.mp heq).2
    · intro hchosen
      refine .step (by simpa using hchosen [] n rest rfl) (ih.mpr fun before m after heq => ?_)
      rw [← append_cons]
      exact hchosen (n :: before) m after (congrArg (cons n) heq)

end Generates

lemma waiting_snoc (g : Graph) (nodes : List Nat) (n : Nat) :
    g.waiting (nodes ++ [n]) = (g.successors n).filter (fun m => m ∉ nodes ++ [n]) ++
      (g.waiting nodes).filter fun m => m ≠ n := by
  have htgts : g.targets (nodes ++ [n]) = g.successors n ++ g.targets nodes := by
    simp [targets]
  rw [waiting, htgts, waiting]
  simp [and_comm]

/-! ## The recursive search -/

/-- What the search has still to visit, itself and for the nodes that are active outside, is what
waits. -/
lemma Explores.generates (h : g.Explores s ns t) (outside : List Nat)
    (hwaiting : (ns ++ outside).filter (fun m => m ∉ s.entered) = g.waiting s.entered) :
    outside.filter (fun m => m ∉ t.entered) = g.waiting t.entered ∧
      ∃ new, t.entered = s.entered ++ new ∧ ∀ later,
        Generates g.firstWaiting t.entered later →
          Generates g.firstWaiting s.entered (new ++ later) := by
  induction h generalizing outside with
  | done => exact ⟨hwaiting, [], by simp, fun _ h => h⟩
  | pass hn _ ih =>
    refine ih outside ?_
    rw [← hwaiting, cons_append, filter_cons_of_neg (by simpa using hn)]
  | @visit s t u m ms hnew _ _ ihbelow ihrest =>
    rw [cons_append, filter_cons_of_pos (by simpa using hnew)] at hwaiting
    have hfirst : g.firstWaiting s.entered = some m := by
      rw [firstWaiting, ← hwaiting]
      rfl
    obtain ⟨hbelow, new₁, hnew₁, hgen₁⟩ := ihbelow (ms ++ outside) (by
      rw [Tour.enter, waiting_snoc, ← hwaiting, filter_cons_of_neg (by simp)]
      simp [and_comm])
    obtain ⟨hrest, new₂, hnew₂, hgen₂⟩ := ihrest outside hbelow
    refine ⟨hrest, m :: new₁ ++ new₂, ?_, fun later hlater => ?_⟩
    · rw [hnew₂, Tour.finish, hnew₁]
      simp [Tour.enter]
    · rw [append_assoc]
      exact .step hfirst (hgen₁ _ (hgen₂ later hlater))

lemma Explores.generates_of_start (h : g.Explores {} [start] t) :
    ∃ rest, t.entered = start :: rest ∧ Generates g.firstWaiting [start] rest := by
  obtain ⟨t, hbelow, rfl⟩ := explores_singleton_iff.mp h
  obtain ⟨hend, new, hnew, hgen⟩ := hbelow.generates [] (by simp [waiting, targets])
  refine ⟨new, hnew, ?_⟩
  have hstop : Generates g.firstWaiting t.entered [] := .stop (by rw [firstWaiting, ← hend]; rfl)
  simpa using hgen [] hstop

/-! ## The loop of the pre-order -/

/-- The unseen nodes are pushed in front of the stack, each one where it comes last. -/
lemma foldr_push_eq_union (ns stack : List Nat) (seen : BitSet)
    (hns : ∀ n ∈ ns, n < seen.capacity) (hseen : ∀ n, seen.contains n ↔ n ∈ nodes ∨ n ∈ stack) :
    (ns.foldr push (stack, seen)).1 = ns.filter (fun n => n ∉ nodes) ∪ stack ∧
      (ns.foldr push (stack, seen)).2.capacity = seen.capacity ∧
      ∀ n, (ns.foldr push (stack, seen)).2.contains n ↔
        n ∈ nodes ∨ n ∈ (ns.foldr push (stack, seen)).1 := by
  induction ns with
  | nil => exact ⟨rfl, rfl, hseen⟩
  | cons m ns ih =>
    obtain ⟨hm, hns⟩ := forall_mem_cons.mp hns
    obtain ⟨hstack, hcap, hseen'⟩ := ih hns
    rw [foldr_cons, push]
    split
    · next hold =>
      refine ⟨?_, hcap, hseen'⟩
      rcases (hseen' m).mp hold with hnodes | hpushed
      · rw [hstack, filter_cons_of_neg (by simpa using hnodes)]
      · by_cases hnodes : m ∈ nodes
        · rw [hstack, filter_cons_of_neg (by simpa using hnodes)]
        · rw [hstack] at hpushed ⊢
          rw [filter_cons_of_pos (by simpa using hnodes), cons_union, insert_of_mem hpushed]
    · next hfresh =>
      rw [hseen', not_or] at hfresh
      refine ⟨?_, hcap, fun k => ?_⟩
      · have hpushed := hfresh.2
        rw [hstack] at hpushed
        rw [filter_cons_of_pos (by simpa using hfresh.1), cons_union,
          insert_of_not_mem hpushed, hstack]
      · rw [BitSet.contains_insert, Bool.or_eq_true, hseen', decide_eq_true_eq, hcap, mem_cons]
        constructor
        · rintro ((h | h) | ⟨rfl, -⟩)
          · exact .inl h
          · exact .inr (.inr h)
          · exact .inr (.inl rfl)
        · rintro (h | rfl | h)
          · exact .inl (.inl h)
          · exact .inr ⟨rfl, hm⟩
          · exact .inl (.inr h)

lemma dedup_filter {α : Type} [DecidableEq α] (p : α → Bool) (l : List α) :
    (l.filter p).dedup = l.dedup.filter p := by
  induction l with
  | nil => rfl
  | cons a l ih =>
    by_cases hp : p a
    · rw [filter_cons_of_pos hp]
      by_cases ha : a ∈ l
      · rw [dedup_cons_of_mem (mem_filter.mpr ⟨ha, hp⟩), dedup_cons_of_mem ha, ih]
      · rw [dedup_cons_of_notMem fun h => ha (mem_filter.mp h).1, dedup_cons_of_notMem ha,
          filter_cons_of_pos hp, ih]
    · rw [filter_cons_of_neg hp, ih, dedup_cons]
      split
      · rfl
      · rw [filter_cons_of_neg hp]

/-- The stack, once a node has been taken from it and the successors of the node pushed. -/
lemma Closed.foldr_push_waiting (hg : g.Closed) (seen : BitSet) (hcap : seen.capacity = g.size)
    (hseen : ∀ m, seen.contains m ↔
      m ∈ nodes ++ [n] ∨ m ∈ ((g.waiting nodes).filter fun m => m ≠ n).dedup) :
    ∃ seen' : BitSet, (g.successors n).foldr push
        (((g.waiting nodes).filter fun m => m ≠ n).dedup, seen) =
          ((g.waiting (nodes ++ [n])).dedup, seen') ∧ seen'.capacity = g.size ∧
      ∀ m, seen'.contains m ↔ m ∈ nodes ++ [n] ∨ m ∈ (g.waiting (nodes ++ [n])).dedup := by
  obtain ⟨hstack, hcap', hseen'⟩ := foldr_push_eq_union (g.successors n) _ seen
    (fun m hm => hcap ▸ hg n m hm) hseen
  have hdedup : ((g.successors n).foldr push
      (((g.waiting nodes).filter fun m => m ≠ n).dedup, seen)).1 =
        (g.waiting (nodes ++ [n])).dedup := by
    rw [hstack, waiting_snoc, dedup_append]
  exact ⟨_, Prod.ext hdedup rfl, hcap'.trans hcap, fun m => hdedup ▸ hseen' m⟩

lemma Closed.waiting_lt (hg : g.Closed) {m : Nat} (hm : m ∈ g.waiting nodes) :
    m < g.size ∧ m ∉ nodes := by
  obtain ⟨hm, hnodes⟩ := mem_filter.mp hm
  obtain ⟨k, -, hedge⟩ := mem_flatMap.mp hm
  exact ⟨hg k m hedge, by simpa using hnodes⟩

lemma Closed.dfsLoop_generates (hg : g.Closed) (fuel : Nat) (seen : BitSet)
    (hcap : seen.capacity = g.size)
    (hseen : ∀ m, seen.contains m ↔ m ∈ nodes ∨ m ∈ (g.waiting nodes).dedup) (hnd : nodes.Nodup)
    (hnodes : ∀ m ∈ nodes, m < g.size) (hfuel : g.size ≤ fuel + nodes.length) :
    Generates g.firstPushed nodes (g.dfsLoop fuel (g.waiting nodes).dedup seen) := by
  induction fuel generalizing nodes seen with
  | zero =>
    -- all nodes have been listed, so none waits
    have hnil : g.waiting nodes = [] := by
      refine eq_nil_iff_forall_not_mem.mpr fun m hm => ?_
      obtain ⟨hlt, hnew⟩ := hg.waiting_lt hm
      have hsub : m :: nodes ⊆ List.range g.size := fun k hk => by
        rcases mem_cons.mp hk with rfl | hk
        · exact mem_range.mpr hlt
        · exact mem_range.mpr (hnodes k hk)
      have hle := ((nodup_cons.mpr ⟨hnew, hnd⟩).subperm hsub).length_le
      rw [length_range, length_cons] at hle
      omega
    exact .stop (by rw [firstPushed, hnil]; rfl)
  | succ fuel ih =>
    cases hstack : (g.waiting nodes).dedup with
    | nil => exact .stop (by rw [firstPushed, hstack]; rfl)
    | cons n stack =>
      have hn : n ∈ g.waiting nodes := mem_dedup.mp (hstack ▸ .head _)
      obtain ⟨hlt, hnew⟩ := hg.waiting_lt hn
      have hrest : ((g.waiting nodes).filter fun m => m ≠ n).dedup = stack := by
        have hnot : n ∉ stack := (nodup_cons.mp (hstack ▸ nodup_dedup (g.waiting nodes))).1
        rw [dedup_filter, hstack, filter_cons_of_neg (by simp), filter_eq_self]
        exact fun m hm => decide_eq_true fun h => hnot (h ▸ hm)
      have hseen' (m : Nat) : seen.contains m ↔
          m ∈ nodes ++ [n] ∨ m ∈ ((g.waiting nodes).filter fun m => m ≠ n).dedup := by
        rw [hseen, hstack, hrest, mem_cons, mem_append, mem_singleton, or_assoc]
      obtain ⟨seen', hpush, hcap', hseen''⟩ := hg.foldr_push_waiting seen hcap hseen'
      rw [hrest] at hpush
      rw [dfsLoop, hpush]
      refine .step (by rw [firstPushed, hstack]; rfl)
        (ih seen' hcap' hseen'' ?_ ?_ (by rw [length_append, length_singleton]; omega))
      · exact nodup_append.mpr ⟨hnd, nodup_singleton n, fun m hm k hk heq =>
          hnew (mem_singleton.mp hk ▸ heq ▸ hm)⟩
      · intro m hm
        rcases mem_append.mp hm with hm | hm
        · exact hnodes m hm
        · exact mem_singleton.mp hm ▸ hlt

lemma Closed.dfs_generates (hg : g.Closed) (hstart : start < g.size) :
    ∃ rest, g.dfs start = start :: rest ∧ Generates g.firstPushed [start] rest := by
  obtain ⟨fuel, hfuel⟩ := Nat.exists_eq_succ_of_ne_zero (Nat.ne_of_gt (Nat.zero_lt_of_lt hstart))
  have hseen (m : Nat) : ((BitSet.empty g.size).insert start).contains m ↔
      m ∈ [] ++ [start] ∨ m ∈ ((g.waiting []).filter fun m => m ≠ start).dedup := by
    rw [BitSet.contains_insert, BitSet.contains_empty, Bool.false_or, decide_eq_true_eq]
    simp only [nil_append, mem_singleton, waiting, targets, reverse_nil, flatMap_nil, filter_nil,
      dedup_nil, not_mem_nil, or_false]
    exact and_iff_left_of_imp fun hm => hm ▸ hstart
  obtain ⟨seen, hpush, hcap, hseen'⟩ :=
    hg.foldr_push_waiting ((BitSet.empty g.size).insert start) rfl hseen
  refine ⟨g.dfsLoop fuel (g.waiting [start]).dedup seen, ?_, ?_⟩
  · have hstep : (g.successors start).foldr push ([], (BitSet.empty g.size).insert start) =
        ((g.waiting [start]).dedup, seen) := hpush
    rw [dfs, if_pos hstart]
    nth_rewrite 1 [hfuel]
    rw [dfsLoop, hstep]
  · refine hg.dfsLoop_generates fuel seen hcap hseen' (nodup_singleton start) ?_ ?_
    · exact forall_mem_singleton.mpr hstart
    · rw [length_singleton, hfuel]

lemma Generates.reaches {rest : List Nat} (h : Generates g.firstPushed nodes rest) :
    g.waiting (nodes ++ rest) = [] ∧ ∀ n ∈ rest, ∃ m ∈ nodes, g.Reaches m n := by
  induction h with
  | stop hnone =>
    rw [firstPushed, head?_eq_none_iff, dedup_eq_nil] at hnone
    exact ⟨by rwa [append_nil], fun n hn => absurd hn not_mem_nil⟩
  | @step nodes rest n hsome _ ih =>
    obtain ⟨hend, hreach⟩ := ih
    have hn := mem_dedup.mp (mem_of_mem_head? hsome)
    obtain ⟨m, hm, hedge⟩ := mem_flatMap.mp (mem_filter.mp hn).1
    have hm : m ∈ nodes := mem_reverse.mp hm
    refine ⟨by rwa [append_cons], forall_mem_cons.mpr ⟨⟨m, hm, .single hedge⟩, fun k hk => ?_⟩⟩
    obtain ⟨l, hl, hreach⟩ := hreach k hk
    rcases mem_append.mp hl with hl | hl
    · exact ⟨l, hl, hreach⟩
    · exact ⟨m, hm, .head hedge (mem_singleton.mp hl ▸ hreach)⟩

lemma Closed.mem_dfs_iff (hg : g.Closed) (hstart : start < g.size) :
    n ∈ g.dfs start ↔ g.Reaches start n := by
  obtain ⟨rest, hdfs, hgenerates⟩ := hg.dfs_generates hstart
  obtain ⟨hend, hreach⟩ := hgenerates.reaches
  rw [hdfs]
  constructor
  · intro hn
    rcases mem_cons.mp hn with rfl | hn
    · exact .refl
    · obtain ⟨m, hm, hreach⟩ := hreach n hn
      exact mem_singleton.mp hm ▸ hreach
  · refine fun h => h.mem_of_closed (.head _) fun m hm k hk => ?_
    by_contra hnot
    have hwaits : k ∈ g.waiting ([start] ++ rest) := mem_filter.mpr
      ⟨mem_flatMap.mpr ⟨m, mem_reverse.mpr hm, hk⟩, decide_eq_true hnot⟩
    exact not_mem_nil (hend ▸ hwaits)

lemma Closed.contains_reachable (hg : g.Closed) (hstart : start < g.size) :
    (g.reachable start).contains n ↔ g.Reaches start n := by
  rw [reachable, BitSet.contains_foldl_insert, BitSet.contains_empty, Bool.false_or,
    decide_eq_true_eq, hg.mem_dfs_iff hstart]
  exact and_iff_left_of_imp fun h => hg.lt_of_reaches hstart h

/-! ## Agreement -/

/-- The pre-order is that of the recursive search exactly if each node that the recursive search enters
after its start is the first one among those that wait, when of each of them only the last edge
counts.  The edges leave the nodes entered before, those of the last node first. -/
theorem Closed.dfs_eq_entered_iff (hg : g.Closed) (hstart : start < g.size)
    (h : g.Explores {} [start] t) :
    g.dfs start = t.entered ↔ ∀ before n after, t.entered = start :: before ++ n :: after →
      ((g.targets (start :: before)).filter fun m => m ∉ start :: before).dedup.head? = some n := by
  obtain ⟨rest, hentered, hfirst⟩ := h.generates_of_start
  obtain ⟨rest', hdfs, hpushed⟩ := hg.dfs_generates hstart
  have hnone (nodes : List Nat) (hend : g.firstWaiting nodes = none) :
      g.firstPushed nodes = none := by
    rw [firstPushed, head?_eq_none_iff.mp hend]
    rfl
  have hrest : rest' = rest ↔ Generates g.firstPushed [start] rest :=
    ⟨fun h => h ▸ hpushed, hpushed.unique⟩
  rw [hdfs, hentered, cons_inj_right, hrest, hfirst.iff_of_next hnone]
  simp only [cons_append, cons_inj_right]
  rfl

/-- A node with an edge to a node that its predecessor lists after another one. -/
def fan : Graph where
  succs := #[[1, 2, 3], [3], [], []]
  preds := #[[], [0], [0], [0, 1]]
  entry := 0

lemma explores_fan : fan.Explores {} [0] ⟨[0, 1, 3, 2], [3, 1, 2, 0]⟩ := by
  have hthree : fan.Explores ⟨[0, 1], []⟩ [3] ⟨[0, 1, 3], [3]⟩ := .visit (by decide) .done .done
  have htwo : fan.Explores ⟨[0, 1, 3], [3, 1]⟩ [2, 3] ⟨[0, 1, 3, 2], [3, 1, 2]⟩ :=
    .visit (by decide) .done (.pass (by decide) .done)
  exact .visit (by decide) (.visit (by decide) hthree htwo) .done

theorem dfs_eq_entered_iff_fan :
    ¬ ∀ before n after, [0, 1, 3, 2] = 0 :: before ++ n :: after →
      ((fan.targets (0 :: before)).filter fun m => m ∉ 0 :: before).dedup.head? = some n := by
  have hclosed : fan.Closed := .of_lt (by decide)
  exact fun h => absurd
    ((hclosed.dfs_eq_entered_iff (show 0 < fan.size by decide) explores_fan).mpr h) (by decide)

/-- The node that has been pushed first is listed last, though the recursive search comes to it
before. -/
theorem exists_dfs_ne_entered :
    ∃ (g : Graph) (t : Tour), g.Closed ∧ 0 < g.size ∧ g.Explores {} [0] t ∧
      t.entered = [0, 1, 3, 2] ∧ g.dfs 0 = [0, 1, 2, 3] :=
  ⟨fan, _, .of_lt (by decide), by decide, explores_fan, rfl, by decide⟩

end MiddleEnd.Graph
