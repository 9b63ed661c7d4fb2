import SimdIntervalTree.Lib.CenterCost
import SimdIntervalTree.Traversal.Depth

/-!
# The nodes an iteration pops

Popping a node either leaves a hit to yield at once, or the node is one of the few whose pivot lies
outside of the query. The latter pay for themselves out of `stackOutside`, which no step increases.
-/

namespace SimdIntervalTree

open Exec CenterTree IntervalTreeBuilder

variable {T V : Type} [LinearOrder T] {tree : IntervalTree T V} {query : Interval T}
  {t : BinaryTree (Run T (Interval T × V))}

/-- A query meets at most two nodes a level whose pivot it does not contain. -/
theorem Built.outside_le {input : List (Interval T × V)} (h : Built input tree t)
    (query : Interval T) : outside query.start query.stop t ≤
      2 * (Nat.log 2 (items (centers t)).length + 1) := by
  have hheight := height_le_log h.halving h.centered
  have houtside := CenterTree.outside_le query.start query.stop h.centered.ordered
  rw [← height_centers] at houtside
  omega

namespace QueryIter

/-- The rounds of the loop of `next`, over any number of calls: `pops` nodes have been popped and
`es` has been yielded. -/
inductive Iterates (tree : IntervalTree T V) (query : Interval T) :
    Nat → List (Interval T × V) → QueryIter T V → Prop
  | new : tree.query query = .ok it → Iterates tree query 0 [] it
  | yielded : Iterates tree query pops es it →
    it.tree.nextHit it.scan it.query = .ok (some e, scan') →
    Iterates tree query pops (es ++ [e]) { it with scan := scan' }
  | expanded : Iterates tree query pops es it →
    it.tree.nextHit it.scan it.query = .ok (none, scan') → it.stackLen ≠ 0 →
    { it with scan := scan' }.expand = .ok it' → Iterates tree query (pops + 1) es it'
  | exhausted : Iterates tree query pops es it →
    it.tree.nextHit it.scan it.query = .ok (none, scan') → it.stackLen = 0 →
    Iterates tree query pops es { it with scan := scan' }

variable {n pops : Nat} {it it' self self' : QueryIter T V} {es rest : List (Interval T × V)}
  {ts : List (BinaryTree (Run T (Interval T × V)))}

/-- A call of `next` is a number of rounds. -/
theorem Iterates.nextLoop {fuel : Nat} {hit : Option (Interval T × V)}
    (h : Iterates tree query pops es it) (hn : nextLoop fuel it = .ok (hit, it')) :
    ∃ pops', Iterates tree query pops' (es ++ hit.toList) it' := by
  induction fuel generalizing it pops with
  | zero => cases hn
  | succ fuel ih =>
    rw [QueryIter.nextLoop] at hn
    obtain ⟨⟨hit', scan⟩, hnext, hn⟩ := bind_eq_ok.mp hn
    cases hit' with
    | some e =>
      cases hn
      exact ⟨pops, h.yielded hnext⟩
    | none =>
      dsimp only at hn
      split at hn
      · cases hn
        rw [Option.toList_none, List.append_nil]
        exact ⟨pops, h.exhausted hnext ‹_›⟩
      · obtain ⟨it₁, hexpand, hn⟩ := bind_eq_ok.mp hn
        exact ih (h.expanded hnext ‹_› hexpand) hn

theorem Iterates.atLoop (h : Iterates tree query pops es it) : AtLoop tree query it := by
  induction h with
  | new hit => exact .new hit
  | @yielded _ _ it e scan' _ hnext ih =>
    have hret : it.next = .ok (some e, { it with scan := scan' }) := by
      rw [QueryIter.next, QueryIter.nextLoop, hnext, ok_bind]
      rfl
    exact .returned ih hret
  | expanded _ hnext hlen hexpand ih => exact .expanded ih hnext hlen hexpand
  | @exhausted _ _ it scan' _ hnext hlen ih =>
    have hret : it.next = .ok (none, { it with scan := scan' }) := by
      rw [QueryIter.next, QueryIter.nextLoop, hnext, ok_bind]
      exact if_pos hlen
    exact .returned ih hret

/-- A loop that ends does not need the fuel that is left. -/
theorem nextLoop_mono {fuel fuel' : Nat} {r : Option (Interval T × V) × QueryIter T V}
    (h : QueryIter.nextLoop fuel it = .ok r) (hle : fuel ≤ fuel') :
    QueryIter.nextLoop fuel' it = .ok r := by
  induction fuel generalizing it fuel' with
  | zero => cases h
  | succ fuel ih =>
    obtain ⟨fuel', rfl⟩ : ∃ f, fuel' = f + 1 := ⟨fuel' - 1, by omega⟩
    rw [QueryIter.nextLoop] at h ⊢
    obtain ⟨⟨hit, scan⟩, hnext, h⟩ := bind_eq_ok.mp h
    rw [hnext, ok_bind]
    cases hit with
    | some e => exact h
    | none =>
      dsimp only at h ⊢
      split at h
      · rw [if_pos ‹_›]
        exact h
      · rw [if_neg ‹_›]
        obtain ⟨it₁, hexpand, h⟩ := bind_eq_ok.mp h
        rw [hexpand, ok_bind]
        exact ih h (by omega)

/-! ## What a pop costs -/

/-- A pruned node lies before the query. -/
theorem pivot_lt_of_pruned {c : Run T (Interval T × V)}
    {l r : BinaryTree (Run T (Interval T × V))}
    (hc : Centered startOf stopOf (centers (.node c l r)))
    (hle : maxHi stopOf c.toCenter (centers l) (centers r) ≤ query.start) :
    c.pivot < query.start := by
  obtain ⟨⟨hne, hspan, -⟩, -, -⟩ := hc
  obtain ⟨x, hx⟩ := List.exists_mem_of_ne_nil _ hne
  have hlargest : Largest stopOf (items (centers (.node c l r))) _ := largest_maxHi hne
  exact (hspan x hx).2.trans_le ((hlargest.2 x (List.mem_append_left _ hx)).trans hle)

/-- After a pop there is a hit to yield, or the node was one off the query. -/
theorem Ready.expand_outside (h : Ready tree query n self [] (ts ++ [t])) :
    ∃ self' rest' ts', self.expand = .ok self' ∧ Ready tree query n self' rest' ts' ∧
      rest' ++ pending query ts' = pending query (ts ++ [t]) ∧
      stackOutside query.start query.stop ts' + (if rest' = [] then 1 else 0) ≤
        stackOutside query.start query.stop (ts ++ [t]) := by
  obtain ⟨base, hsub, hidx⟩ := h.top
  cases t with
  | nil => exact absurd rfl hsub.ne_nil
  | node c l r =>
    rw [pending, stackHits_concat, stackOutside_concat]
    by_cases hle : maxHi stopOf c.toCenter (centers l) (centers r) ≤ query.start
    · obtain ⟨d, hrep⟩ := hsub.represents
      have hexpand := expand_of_pruned hidx (by
        rw [h.tree_eq, h.query_eq]
        exact hrep.visit_pruned hle)
      refine ⟨self.popped, [], ts, hexpand, h.popped, ?_, ?_⟩
      · rw [hits_of_pruned hsub.centered hsub.sorted hle]
      · rw [if_pos rfl, outside_of_lt (pivot_lt_of_pruned hsub.centered hle)]
        omega
    · obtain ⟨visit, self₁, self₂, hvisit, e₁, -, e₂, h₂⟩ := h.descend hsub (not_le.mp hle)
      have hexpand := expand_of_visited hidx (by
        rw [h.tree_eq, h.query_eq]
        exact hvisit)
      rw [e₁, ok_bind, e₂] at hexpand
      refine ⟨self₂, _, _, hexpand, h₂, ?_, ?_⟩
      · rw [pending, stackHits_single, stackHits_single, hits_node, List.append_assoc,
          List.append_assoc]
      · rw [stackOutside_single, stackOutside_single, outside_node]
        by_cases hin : c.Inside query.start query.stop
        · have hhits : nodeHits startOf stopOf query.start query.stop c = c.own := by
            rw [nodeHits, if_neg (not_lt.mpr hin.1), if_pos hin.2]
          rw [hhits, if_neg hsub.centered.1.1, if_pos hin]
          omega
        · rw [if_neg hin]
          split <;> omega

theorem Ready.rest_eq_nil {scan' : Scan} (h : Ready tree query n it rest ts)
    (hn : it.tree.nextHit it.scan it.query = .ok (none, scan')) : rest = [] := by
  obtain ⟨scan, hn', -⟩ := h.nextHit
  rw [hn] at hn'
  cases rest with
  | nil => rfl
  | cons => cases hn'

/-- A call of `next` goes through few rounds. -/
theorem Ready.exists_nextLoop {fuel : Nat} (h : Ready tree query n self rest ts)
    (hf : stackOutside query.start query.stop ts + 1 < fuel) :
    ∃ r, QueryIter.nextLoop fuel self = .ok r := by
  induction fuel generalizing self rest ts with
  | zero => cases hf
  | succ fuel ih =>
    obtain ⟨scan, hnext, h'⟩ := h.nextHit
    rw [QueryIter.nextLoop, hnext, ok_bind]
    cases rest with
    | cons x rest => exact ⟨_, rfl⟩
    | nil =>
      rcases List.eq_nil_or_concat ts with rfl | ⟨ts, t, rfl⟩
      · exact ⟨_, if_pos h'.stackLen⟩
      · rw [List.concat_eq_append] at h' hf
        have hne : ¬{ self with scan }.stackLen = 0 := by
          rw [h'.stackLen, List.length_append]
          exact Nat.succ_ne_zero _
        obtain ⟨self₁, rest₁, ts₁, hexpand, h₁, -, hcost⟩ := h'.expand_outside
        dsimp only [List.head?_nil]
        rw [if_neg hne, hexpand, ok_bind]
        cases rest₁ with
        | nil => exact ih h₁ (by rw [if_pos rfl] at hcost; omega)
        | cons x rest₁ =>
          -- the node has hits, so the next round returns one
          obtain ⟨fuel, rfl⟩ : ∃ f, fuel = f + 1 := ⟨fuel - 1, by omega⟩
          obtain ⟨scan₁, hnext₁, -⟩ := h₁.nextHit
          rw [QueryIter.nextLoop, hnext₁, ok_bind]
          exact ⟨_, rfl⟩

/-! ## Whole iterations -/

/-- At the start there are at most two nodes a level to pop off the query. -/
theorem stackOutside_roots {input : List (Interval T × V)} (h : Built input tree t)
    (query : Interval T) : stackOutside query.start query.stop (roots tree query t) ≤
      2 * (Nat.log 2 (items (centers t)).length + 1) := by
  rw [roots]
  split
  · rw [stackOutside, List.map_singleton, List.sum_singleton]
    exact h.outside_le query
  · exact Nat.zero_le _

/-- The hits yielded so far and those to come are those of the query, and the nodes popped so far
and those that can still be popped off the query are paid for. -/
theorem Iterates.ready {input : List (Interval T × V)} (hb : Built input tree t)
    (h : Iterates tree query pops es it) : ∃ rest ts,
      Ready tree query (items (centers t)).length it rest ts ∧
      es ++ (rest ++ pending query ts) = queryHits query t ∧
      pops + stackOutside query.start query.stop ts ≤
        2 * (Nat.log 2 (items (centers t)).length + 1) + es.length +
          (if rest = [] then 0 else 1) ∧
      stackOutside query.start query.stop ts ≤
        2 * (Nat.log 2 (items (centers t)).length + 1) := by
  induction h with
  | new hit =>
    obtain ⟨it', hit', hready⟩ := ready_roots hb query
    cases hit.symm.trans hit'
    have hstack := stackOutside_roots hb query
    refine ⟨[], _, hready, pending_roots hb query, ?_, hstack⟩
    rw [if_pos rfl, List.length_nil]
    omega
  | yielded _ hnext ih =>
    obtain ⟨rest, ts, hready, hhits, hle, hstack⟩ := ih
    obtain ⟨scan, hnext', hready'⟩ := hready.nextHit
    rw [hnext] at hnext'
    cases rest with
    | nil => cases hnext'
    | cons x rest =>
      cases hnext'
      refine ⟨rest, ts, hready', ?_, ?_, hstack⟩
      · rw [List.append_assoc]
        exact hhits
      · rw [if_neg (List.cons_ne_nil _ _)] at hle
        rw [List.length_append, List.length_singleton]
        omega
  | expanded _ hnext hlen hexpand ih =>
    obtain ⟨rest, ts, hready, hhits, hle, hstack⟩ := ih
    obtain ⟨ts, t, rfl⟩ := hready.eq_concat hlen
    obtain ⟨it', rest', ts', hexpand', hready', hpending, hcost⟩ :=
      (hready.exhausted hnext).expand_outside
    cases hexpand.symm.trans hexpand'
    have hrest : rest = [] := hready.rest_eq_nil hnext
    rw [hrest, List.nil_append] at hhits
    rw [if_pos hrest] at hle
    refine ⟨rest', ts', hready', by rw [hpending, hhits], ?_, by omega⟩
    split at hcost
    · rw [if_pos ‹_›]
      omega
    · rw [if_neg ‹_›]
      omega
  | exhausted _ hnext _ ih =>
    obtain ⟨rest, ts, hready, hhits, hle, hstack⟩ := ih
    have hrest : rest = [] := hready.rest_eq_nil hnext
    rw [hrest] at hhits
    rw [if_pos hrest] at hle
    exact ⟨[], ts, hready.exhausted hnext, hhits, by rwa [if_pos rfl], hstack⟩

/-- An iteration pops at most two nodes a level beyond one for each hit. -/
theorem Iterates.pops_le {input : List (Interval T × V)} (hb : Built input tree t)
    (h : Iterates tree query pops es it) : es <+: queryHits query t ∧
      pops ≤ 2 * (Nat.log 2 tree.len + 1) + es.length + 1 := by
  obtain ⟨rest, ts, -, hhits, hpops, -⟩ := h.ready hb
  rw [hb.len_eq]
  refine ⟨⟨_, hhits⟩, ?_⟩
  split at hpops <;> omega

end QueryIter

namespace IntervalTreeBuilder

/-- **An iteration pops few nodes.** At every point of it, beyond one for each interval that was
yielded they are at most two a level, and calls of `next` go on with it. -/
theorem build_pops_le (self : IntervalTreeBuilder T V) (sorts : Sorts T V)
    (h : self.intervals.length < SIZE_LIMIT) :
    ∃ tree, self.build sorts = .ok tree ∧ ∀ query pops es it,
      QueryIter.Iterates tree query pops es it →
        pops ≤ 2 * (Nat.log 2 tree.len + 1) + es.length + 1 ∧
        ∃ hit it' pops', it.next = .ok (hit, it') ∧
          QueryIter.Iterates tree query pops' (es ++ hit.toList) it' := by
  obtain ⟨tree, t, hbuild, hb⟩ := build_ok sorts h
  refine ⟨tree, hbuild, fun query pops es it hiter => ?_⟩
  obtain ⟨rest', ts', hready', hsize⟩ := hiter.atLoop.ready hb
  obtain ⟨it', -, -, hnext, -⟩ := QueryIter.next_spec hready' hsize
  obtain ⟨pops', hiter'⟩ := hiter.nextLoop hnext
  exact ⟨(hiter.pops_le hb).2, _, it', pops', hnext, hiter'⟩

theorem build_pops_le_nested :
    let input : List (Interval Nat × Nat) := [(⟨0, 9⟩, 0), (⟨1, 2⟩, 1), (⟨3, 8⟩, 2), (⟨4, 5⟩, 3)]
    ∃ tree, (mk input).build (.stable Nat Nat) = .ok tree ∧ ∀ query pops es it,
      QueryIter.Iterates tree query pops es it →
        pops ≤ 2 * (Nat.log 2 tree.len + 1) + es.length + 1 ∧
        ∃ hit it' pops', it.next = .ok (hit, it') ∧
          QueryIter.Iterates tree query pops' (es ++ hit.toList) it' :=
  build_pops_le ⟨_⟩ _ (by decide)

/-- **Every call of `next` returns soon**, however many intervals and nodes there are: its loop
goes through at most two rounds a level and two more. -/
theorem build_next_rounds (self : IntervalTreeBuilder T V) (sorts : Sorts T V)
    (h : self.intervals.length < SIZE_LIMIT) :
    ∃ tree, self.build sorts = .ok tree ∧ ∀ query pops es it,
      QueryIter.Iterates tree query pops es it → ∃ r, it.next = .ok r ∧
        QueryIter.nextLoop (2 * (Nat.log 2 tree.len + 1) + 2) it = .ok r := by
  obtain ⟨tree, t, hbuild, hb⟩ := build_ok sorts h
  refine ⟨tree, hbuild, fun query pops es it hiter => ?_⟩
  obtain ⟨rest, ts, hready, -, -, hstack⟩ := hiter.ready hb
  obtain ⟨rest', ts', hready', hsize⟩ := hiter.atLoop.ready hb
  obtain ⟨it', -, -, hnext, -⟩ := QueryIter.next_spec hready' hsize
  obtain ⟨r, hr⟩ := hready.exists_nextLoop
    (show _ < 2 * (Nat.log 2 tree.len + 1) + 2 by rw [hb.len_eq]; omega)
  refine ⟨r, ?_, hr⟩
  -- with the larger of the two bounds both loops return the same
  rw [hnext, ← QueryIter.nextLoop_mono hr (le_max_left _ (it.tree.nodes.length + 1)),
    QueryIter.nextLoop_mono hnext (le_max_right _ _)]

theorem build_next_rounds_nested :
    let input : List (Interval Nat × Nat) := [(⟨0, 9⟩, 0), (⟨1, 2⟩, 1), (⟨3, 8⟩, 2), (⟨4, 5⟩, 3)]
    ∃ tree, (mk input).build (.stable Nat Nat) = .ok tree ∧ ∀ query pops es it,
      QueryIter.Iterates tree query pops es it → ∃ r, it.next = .ok r ∧
        QueryIter.nextLoop (2 * (Nat.log 2 tree.len + 1) + 2) it = .ok r :=
  build_next_rounds ⟨_⟩ _ (by decide)

end IntervalTreeBuilder

end SimdIntervalTree
