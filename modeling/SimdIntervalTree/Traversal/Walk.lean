import SimdIntervalTree.Traversal.Visit

/-!
# The callback traversal

Over a represented subtree `walk` feeds its hits to the callback, whatever admissible strategy it
runs with. `count` adds up the lengths of the runs, so it needs an exact one.
-/

namespace SimdIntervalTree

open Exec CenterTree ControlFlow IntervalTreeBuilder

variable {T V : Type} [LinearOrder T] {tree : IntervalTree T V} {query : Interval T}
  {t : BinaryTree (Run T (Interval T × V))} {base d : Nat}

/-- The hits of a query, none if it is empty. -/
def queryHits (query : Interval T) (t : BinaryTree (Run T (Interval T × V))) :
    List (Interval T × V) :=
  if query.start < query.stop then hits startOf stopOf query.start query.stop t else []

theorem hits_of_pruned {c : Run T (Interval T × V)} {l r : BinaryTree (Run T (Interval T × V))}
    (hc : Centered startOf stopOf (centers (.node c l r)))
    (hs : All (Run.Sorted stopOf) (.node c l r))
    (hle : maxHi stopOf c.toCenter (centers l) (centers r) ≤ query.start) :
    hits startOf stopOf query.start query.stop (.node c l r) = [] :=
  hits_eq_nil hc hs fun x hx => ((largest_maxHi hc.1.1).2 x hx).trans hle

section

variable {σ B : Type} (callback : σ → Interval T × V → σ × ControlFlow B)

theorem length_le_of_yields {scan last : Scan} {es : List (Interval T × V)}
    (h : Yields (tree.nextHit · query) scan es last) : es.length ≤ scan.run.len := by
  induction h with
  | done => exact Nat.zero_le _
  | item e _ ih => exact ih.trans_lt ((nextHit_cases e).resolve_left nofun).2

theorem drain_eq {scan last : Scan} {es : List (Interval T × V)}
    (h : Yields (tree.nextHit · query) scan es last) {fuel : Nat} (hf : es.length < fuel) (s : σ) :
    tree.drain callback query fuel scan s = .ok (feed callback s es) := by
  induction h generalizing fuel s with
  | done e =>
    obtain ⟨fuel, rfl⟩ : ∃ f, fuel = f + 1 := ⟨fuel - 1, by simp at hf; omega⟩
    rw [IntervalTree.drain, e, ok_bind]
    rfl
  | @item scan x scan' es last e _ ih =>
    obtain ⟨fuel, rfl⟩ : ∃ f, fuel = f + 1 := ⟨fuel - 1, by simp at hf; omega⟩
    rw [IntervalTree.drain, e, ok_bind, feed]
    rcases hcb : callback s x with ⟨s', _ | b⟩
    · simp only [hcb]
      exact ih (by simpa using hf) s'
    · simp only [hcb]
      rfl

/-- A child is walked unless the callback broke. The child handed out is the subtree or none. -/
theorem walkChild_eq (query : Interval T) {walk : UInt32 → σ → Exec (σ × ControlFlow B)}
    {child : BinaryTree (Run T (Interval T × V))} (hchild : child = .nil ∨ child = t)
    (hwalk : rootIdx base t ≠ NULL → ∀ s, walk (rootIdx base t) s =
      .ok (feed callback s (hits startOf stopOf query.start query.stop t)))
    (h : Represents tree base d t) (r : σ × ControlFlow B) :
    IntervalTree.walkChild walk (rootIdx base child) r = .ok (andThen r fun s =>
      feed callback s (hits startOf stopOf query.start query.stop child)) := by
  obtain ⟨s, _ | b⟩ := r
  · rw [IntervalTree.walkChild]
    rcases hchild with rfl | rfl
    · rfl
    · split
      · exact hwalk ‹_› s
      · rw [h.rootIdx_eq_null_iff.mp (not_not.mp ‹_›)]
        rfl
  · rfl

theorem leftFor_cases (qs : T) (c : Run T (Interval T × V))
    (t : BinaryTree (Run T (Interval T × V))) :
    leftFor qs c t = .nil ∨ leftFor qs c t = t := by
  rw [leftFor]
  split
  · exact .inl rfl
  · exact .inr rfl

theorem rightFor_cases (qs qe : T) (c : Run T (Interval T × V))
    (t : BinaryTree (Run T (Interval T × V))) :
    rightFor qs qe c t = .nil ∨ rightFor qs qe c t = t := by
  rw [rightFor]
  split
  · exact .inr rfl
  · exact .inl rfl

variable {callback} in
/-- The walk nests as deep as the tree is high. -/
theorem Represents.walk_eq_of_height {C : Cutoffs T} (h : Represents tree base d t)
    (hC : C.Admissible) (hc : Centered startOf stopOf (centers t)) (hs : All (Run.Sorted stopOf) t)
    (hne : rootIdx base t ≠ NULL) {fuel : Nat}
    (hf : t.height ≤ fuel) (s : σ) :
    tree.walk callback C query fuel (rootIdx base t) s =
      .ok (feed callback s (hits startOf stopOf query.start query.stop t)) := by
  induction t generalizing base d fuel s with
  | nil => exact absurd rfl hne
  | node c l r ihl ihr =>
    rw [BinaryTree.height] at hf
    obtain ⟨fuel, rfl⟩ : ∃ f, fuel = f + 1 := ⟨fuel - 1, by omega⟩
    rw [IntervalTree.walk, IntervalTree.walkBy, ← IntervalTree.walk]
    by_cases hle : maxHi stopOf c.toCenter (centers l) (centers r) ≤ query.start
    · rw [h.visit_pruned hle, ok_bind, hits_of_pruned hc hs hle]
      rfl
    · have hlf : l.height ≤ fuel := by omega
      have hrf : r.height ≤ fuel := by omega
      obtain ⟨scan, hvisit, ⟨last, hscan⟩, -⟩ := h.visit_eq hC hc.1.2.2.1 hs.1 (not_le.mp hle)
      have hdrain := drain_eq callback hscan
        (Nat.lt_succ_of_le (length_le_of_yields hscan)) s
      have hleft := walkChild_eq callback query
        (leftFor_cases query.start c l)
        (fun hne s => ihl h.left hc.2.1 hs.2.1 hne hlf s) h.left
      have hright := walkChild_eq callback query
        (rightFor_cases query.start query.stop c r)
        (fun hne s => ihr h.right hc.2.2 hs.2.2 hne hrf s) h.right
      rw [hvisit, ok_bind]
      dsimp only
      rw [hdrain, liftM_eq, ok_bind, hleft, ok_bind, hright, hits_node, feed_append, andThen_assoc]
      simp only [feed_append]

variable {callback} in
theorem Represents.walk_eq {C : Cutoffs T} (h : Represents tree base d t) (hC : C.Admissible)
    (hc : Centered startOf stopOf (centers t)) (hs : All (Run.Sorted stopOf) t)
    (hne : rootIdx base t ≠ NULL) {fuel : Nat}
    (hf : t.numNodes ≤ fuel) (s : σ) :
    tree.walk callback C query fuel (rootIdx base t) s =
      .ok (feed callback s (hits startOf stopOf query.start query.stop t)) :=
  h.walk_eq_of_height hC hc hs hne (t.height_le_numNodes.trans hf) s

end

/-! ## The entry points -/

theorem queryHits_nil : queryHits query (.nil : BinaryTree (Run T (Interval T × V))) = [] :=
  ite_self []

theorem Built.nodes_isEmpty {input : List (Interval T × V)} (h : Built input tree t) :
    tree.nodes.isEmpty = true ↔ t = .nil := by
  rw [List.isEmpty_iff_length_eq_zero, h.stores.nodes, length_flatNodes, numNodes_centers]
  cases t with
  | nil => exact iff_of_true rfl rfl
  | node c l r => exact iff_of_false (Nat.succ_ne_zero _) nofun

/-- Without nodes, or with an empty query, nothing is walked. -/
theorem Built.queryHits_eq_nil {input : List (Interval T × V)} (h : Built input tree t)
    (hcase : query.start ≥ query.stop ∨ tree.nodes.isEmpty = true) : queryHits query t = [] := by
  rcases hcase with hq | hempty
  · exact if_neg (not_lt.mpr hq)
  · rw [h.nodes_isEmpty.mp hempty, queryHits_nil]

theorem Built.rootIdx_eq_zero {input : List (Interval T × V)} (h : Built input tree t)
    (hne : ¬tree.nodes.isEmpty = true) : rootIdx 0 t = 0 := by
  cases t with
  | nil => exact absurd (h.nodes_isEmpty.mpr rfl) hne
  | node => rfl

/-- **A walk of the whole tree** feeds the hits of the query to the callback. -/
theorem Built.walk_eq {input : List (Interval T × V)} (h : Built input tree t) {σ B : Type}
    (callback : σ → Interval T × V → σ × ControlFlow B) {C : Cutoffs T} (hC : C.Admissible)
    (query : Interval T) (s : σ) :
    tree.unlessEmpty query (s, .Continue)
        (tree.walk callback C query tree.nodes.length 0 s) =
      .ok (feed callback s (queryHits query t)) := by
  rw [IntervalTree.unlessEmpty]
  split
  · rw [h.queryHits_eq_nil ‹_›]
    rfl
  · rename_i hcase
    obtain ⟨hq, hne⟩ := not_or.mp hcase
    have hrep := h.stores.represents h.centered
    have hroot := h.rootIdx_eq_zero hne
    rw [queryHits, if_pos (not_le.mp hq), h.stores.nodes, length_flatNodes, numNodes_centers,
      ← hroot]
    exact hrep.walk_eq hC h.centered h.sorted (by rw [hroot]; decide) le_rfl s

theorem Built.queryWith_eq {input : List (Interval T × V)} (h : Built input tree t) {σ B : Type}
    (callback : σ → Interval T × V → σ × ControlFlow B) (query : Interval T) (s : σ) :
    tree.queryWith callback query s = .ok (feed callback s (queryHits query t)) :=
  h.walk_eq callback scalar_admissible query s

/-- The hits are the retained entries that share a point with the query. -/
theorem Built.queryHits_perm {input : List (Interval T × V)} (h : Built input tree t)
    (query : Interval T) :
    (queryHits query t).Perm (input.filter fun e => decide (e.1.Shares query)) := by
  rw [queryHits]
  split
  · rename_i hq
    refine (hits_perm h.centered h.sorted hq).trans ((h.perm.filter _).trans (.of_eq ?_))
    rw [retained, List.filter_filter]
    apply List.filter_congr
    intro e _
    rw [Bool.eq_iff_iff, Bool.and_eq_true, decide_eq_true_eq, decide_eq_true_eq, Overlaps,
      Bool.and_eq_true, decide_eq_true_eq, decide_eq_true_eq]
    constructor
    · rintro ⟨hov, hne⟩
      exact (Interval.shares_iff hne hq).mpr hov
    · intro hsh
      exact ⟨(Interval.shares_iff hsh.nonempty_left hq).mp hsh, hsh.nonempty_left⟩
  · rename_i hq
    rw [List.filter_eq_nil_iff.mpr fun e _ hsh => hq (of_decide_eq_true hsh).nonempty_right]

theorem Built.length_queryHits_le {input : List (Interval T × V)} (h : Built input tree t)
    (query : Interval T) : (queryHits query t).length ≤ (items (centers t)).length := by
  rw [queryHits]
  split
  · rw [(hits_perm h.centered h.sorted ‹_›).length_eq]
    exact List.length_filter_le ..
  · exact Nat.zero_le _

end SimdIntervalTree
