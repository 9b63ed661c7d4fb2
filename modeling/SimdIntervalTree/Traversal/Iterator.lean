import SimdIntervalTree.Model.Query
import SimdIntervalTree.Traversal.Walk

/-!
# The iterator

Between two steps of its loop an iterator is `Ready`: its scan has some hits left and its stack
holds the roots of subtrees that are still to be visited, of which the one at height `i` has at most
`n / 2 ^ i` items. The hits it has yet to yield are those of the scan, then those of the stack from
the top down.
-/

namespace SimdIntervalTree

open Exec CenterTree IntervalTreeBuilder

namespace QueryIter

variable {T V : Type} [LinearOrder T] {tree : IntervalTree T V} {query : Interval T} {n : Nat}
  {self : QueryIter T V} {rest : List (Interval T × V)}
  {ts : List (BinaryTree (Run T (Interval T × V)))} {t : BinaryTree (Run T (Interval T × V))}
  {base d : Nat}

/-- A non-empty subtree of a built tree, numbered from `base` on. -/
structure Subtree (tree : IntervalTree T V) (base : Nat)
    (t : BinaryTree (Run T (Interval T × V))) : Prop where
  represents : ∃ d, Represents tree base d t
  centered : Centered startOf stopOf (centers t)
  sorted : All (Run.Sorted stopOf) t
  halving : Halving (centers t)
  ne_nil : t ≠ .nil

/-- The state of an iterator between two steps: `rest` is left of its scan, `ts` is its stack. -/
structure Ready (tree : IntervalTree T V) (query : Interval T) (n : Nat) (it : QueryIter T V)
    (rest : List (Interval T × V)) (ts : List (BinaryTree (Run T (Interval T × V)))) : Prop where
  tree_eq : it.tree = tree
  query_eq : it.query = query
  scan : ScanYields tree query it.scan rest
  capacity : it.stack.length = 64
  stackLen : it.stackLen = ts.length
  stack : ∀ (i : Nat) t, ts[i]? = some t → ∃ base, it.stack[i]? = some (rootIdx base t) ∧
    Subtree tree base t
  bound : StackBound n ts
  small : Nat.log 2 n + 1 ≤ 32

/-- The hits of a stack, from the top down. -/
abbrev pending (query : Interval T) (ts : List (BinaryTree (Run T (Interval T × V)))) :
    List (Interval T × V) :=
  stackHits startOf stopOf query.start query.stop ts

theorem Subtree.items_pos (h : Subtree tree base t) : 0 < (items (centers t)).length := by
  cases t with
  | nil => exact absurd rfl h.ne_nil
  | node c l r =>
    have := List.length_pos_of_ne_nil h.centered.1.1
    rw [centers_node, items_node, List.length_append]
    omega

/-! ## Pushing -/

theorem Ready.push (h : Ready tree query n self rest ts) (ht : Subtree tree base t)
    (hle : 2 ^ ts.length * (items (centers t)).length ≤ n) :
    ∃ self', self.push (rootIdx base t) = .ok self' ∧
      Ready tree query n self' rest (ts ++ [t]) := by
  have hbound := h.bound.append_singleton ht.items_pos hle
  have hlen := hbound.length_le
  have hsmall := h.small
  rw [List.length_append, List.length_singleton] at hlen
  have hstore : store self.stack self.stackLen (rootIdx base t) =
      .ok (self.stack.set self.stackLen (rootIdx base t)) := by
    apply if_pos
    rw [h.capacity, h.stackLen]
    omega
  refine ⟨_, by rw [QueryIter.push, hstore]; rfl, ?_⟩
  refine { h with
    capacity := (List.length_set).trans h.capacity
    stackLen := by rw [List.length_append, ← h.stackLen]; rfl
    stack := fun i s hs => ?_
    bound := hbound }
  dsimp only
  rcases Nat.lt_or_ge i ts.length with hi | hi
  · rw [List.getElem?_append_left hi] at hs
    obtain ⟨base', hget, hsub⟩ := h.stack i s hs
    refine ⟨base', ?_, hsub⟩
    rw [List.getElem?_set_ne (by rw [h.stackLen]; omega), hget]
  · rw [List.getElem?_append_right hi, List.getElem?_singleton] at hs
    split at hs
    · cases hs
      refine ⟨base, ?_, ht⟩
      rw [show i = self.stackLen by rw [h.stackLen]; omega,
        List.getElem?_set_self (by rw [h.capacity, h.stackLen]; omega)]
    · cases hs

/-- Pushing a child, which may be missing. -/
theorem Ready.pushChild (h : Ready tree query n self rest ts)
    (ht : t ≠ .nil → Subtree tree base t)
    (hle : 2 ^ ts.length * (items (centers t)).length ≤ n) :
    ∃ self', QueryIter.pushChild (rootIdx base t) self = .ok self' ∧
      Ready tree query n self' rest (ts ++ single t) := by
  by_cases hnil : t = .nil
  · subst hnil
    exact ⟨self, rfl, by rwa [single, List.append_nil]⟩
  · obtain ⟨d, hrep⟩ := (ht hnil).represents
    rw [QueryIter.pushChild, if_pos (mt hrep.rootIdx_eq_null_iff.mp hnil), single_of_ne hnil]
    exact h.push (ht hnil) hle

/-! ## One step -/

theorem pow_succ_mul_half_le (k m : Nat) : 2 ^ (k + 1) * (m / 2) ≤ 2 ^ k * m := by
  rw [Nat.pow_succ, Nat.mul_assoc]
  exact Nat.mul_le_mul_left _ (Nat.mul_div_le m 2)

theorem Subtree.left {c : Run T (Interval T × V)} {l r : BinaryTree (Run T (Interval T × V))}
    (h : Subtree tree base (.node c l r)) (hne : l ≠ .nil) : Subtree tree (base + 1) l := by
  obtain ⟨⟨d, hrep⟩, hc, hs, hh, -⟩ := h
  exact ⟨⟨_, hrep.left⟩, hc.2.1, hs.2.1, hh.2.1, hne⟩

theorem Subtree.right {c : Run T (Interval T × V)} {l r : BinaryTree (Run T (Interval T × V))}
    (h : Subtree tree base (.node c l r)) (hne : r ≠ .nil) :
    Subtree tree (base + 1 + l.numNodes) r := by
  obtain ⟨⟨d, hrep⟩, hc, hs, hh, -⟩ := h
  exact ⟨⟨_, hrep.right⟩, hc.2.2, hs.2.2, hh.2.2, hne⟩

/-- The iterator without the top of its stack. -/
def popped (self : QueryIter T V) : QueryIter T V := { self with stackLen := self.stackLen - 1 }

theorem Ready.popped (h : Ready tree query n self rest (ts ++ [t])) :
    Ready tree query n self.popped rest ts := by
  refine { h with
    stackLen := by rw [QueryIter.popped, h.stackLen, List.length_append]; rfl
    stack := fun i s hs => ?_
    bound := h.bound.dropLast }
  apply h.stack i s
  rw [List.getElem?_append_left (List.getElem?_eq_some_iff.mp hs).1, hs]

/-- The subtree on top of the stack is the one that is expanded. -/
theorem Ready.top (h : Ready tree query n self rest (ts ++ [t])) :
    ∃ base, Subtree tree base t ∧ index self.stack (self.stackLen - 1) = .ok (rootIdx base t) := by
  obtain ⟨base, hget, hsub⟩ := h.stack ts.length t (by simp)
  refine ⟨base, hsub, index_eq_ok.mpr ?_⟩
  rw [h.stackLen, List.length_append]
  exact hget

theorem expand_of_pruned {idx : UInt32} (hidx : index self.stack (self.stackLen - 1) = .ok idx)
    (hvisit : self.tree.visit Scalar idx self.query = .ok none) :
    self.expand = .ok self.popped := by
  rw [QueryIter.expand]
  simp only [hidx, hvisit, ok_bind]
  exact pure_eq_ok _

theorem expand_of_visited {idx : UInt32} {visit : Visit}
    (hidx : index self.stack (self.stackLen - 1) = .ok idx)
    (hvisit : self.tree.visit Scalar idx self.query = .ok (some visit)) :
    self.expand = (do
      let self ← QueryIter.pushChild visit.right { self.popped with scan := visit.scan }
      QueryIter.pushChild visit.left self) := by
  rw [QueryIter.expand]
  simp only [hidx, hvisit, ok_bind, QueryIter.popped]

/-- A node that is not pruned: its hits become the scan and the children that can have more are
pushed, the right one first. -/
theorem Ready.descend {c : Run T (Interval T × V)} {l r : BinaryTree (Run T (Interval T × V))}
    (h : Ready tree query n self rest (ts ++ [.node c l r]))
    (hsub : Subtree tree base (.node c l r))
    (hgt : query.start < maxHi stopOf c.toCenter (centers l) (centers r)) :
    ∃ visit self₁ self₂,
      tree.visit Scalar (rootIdx base (.node c l r)) query = .ok (some visit) ∧
      QueryIter.pushChild visit.right { self.popped with scan := visit.scan } = .ok self₁ ∧
      Ready tree query n self₁ (nodeHits startOf stopOf query.start query.stop c)
        (ts ++ single (rightFor query.start query.stop c r)) ∧
      QueryIter.pushChild visit.left self₁ = .ok self₂ ∧
      Ready tree query n self₂ (nodeHits startOf stopOf query.start query.stop c)
        (ts ++ single (rightFor query.start query.stop c r) ++
          single (leftFor query.start c l)) := by
  obtain ⟨d, hrep⟩ := hsub.represents
  obtain ⟨scan, hvisit, hscan, -⟩ :=
    hrep.visit_eq scalar_admissible hsub.centered.1.2.2.1 hsub.sorted.1 hgt
  have hready : Ready tree query n { self.popped with scan := scan }
      (nodeHits startOf stopOf query.start query.stop c) ts := { h.popped with scan := hscan }
  obtain ⟨-, hle⟩ := h.bound ts.length (.node c l r) (by simp)
  obtain ⟨hl, hr⟩ : (items (centers l)).length ≤ (items (centers (.node c l r))).length / 2 ∧
    (items (centers r)).length ≤ (items (centers (.node c l r))).length / 2 := hsub.halving.1
  have hright :
      2 ^ ts.length * (items (centers (rightFor query.start query.stop c r))).length ≤ n := by
    refine (Nat.mul_le_mul_left _ ?_).trans hle
    rcases rightFor_cases query.start query.stop c r with e | e <;> rw [e]
    · exact Nat.zero_le _
    · omega
  have hsubr (hne : rightFor query.start query.stop c r ≠ .nil) :
      Subtree tree (base + 1 + l.numNodes) (rightFor query.start query.stop c r) := by
    have e := (rightFor_cases query.start query.stop c r).resolve_left hne
    rw [e] at hne ⊢
    exact hsub.right hne
  have hsubl (hne : leftFor query.start c l ≠ .nil) :
      Subtree tree (base + 1) (leftFor query.start c l) := by
    have e := (leftFor_cases query.start c l).resolve_left hne
    rw [e] at hne ⊢
    exact hsub.left hne
  obtain ⟨self₁, e₁, h₁⟩ := hready.pushChild hsubr hright
  have hlen : (ts ++ single (rightFor query.start query.stop c r)).length ≤ ts.length + 1 := by
    rw [List.length_append]
    rcases rightFor query.start query.stop c r with _ | _ <;> simp [single]
  have hleft : 2 ^ (ts ++ single (rightFor query.start query.stop c r)).length *
      (items (centers (leftFor query.start c l))).length ≤ n := by
    refine (Nat.mul_le_mul (Nat.pow_le_pow_right (by omega) hlen) ?_).trans
      ((pow_succ_mul_half_le ..).trans hle)
    rcases leftFor_cases query.start c l with e | e <;> rw [e]
    · exact Nat.zero_le _
    · exact hl
  obtain ⟨self₂, e₂, h₂⟩ := h₁.pushChild hsubl hleft
  exact ⟨_, self₁, self₂, hvisit, e₁, h₁, e₂, h₂⟩

/-- Expanding the top of the stack keeps the hits that are pending and leaves fewer nodes. -/
theorem Ready.expand (h : Ready tree query n self [] (ts ++ [t])) :
    ∃ self' rest' ts', self.expand = .ok self' ∧ Ready tree query n self' rest' ts' ∧
      rest' ++ pending query ts' = pending query (ts ++ [t]) ∧
      stackSize ts' < stackSize (ts ++ [t]) := by
  obtain ⟨base, hsub, hidx⟩ := h.top
  cases t with
  | nil => exact absurd rfl hsub.ne_nil
  | node c l r =>
    rw [pending, stackHits_concat, stackSize_concat]
    by_cases hle : maxHi stopOf c.toCenter (centers l) (centers r) ≤ query.start
    · obtain ⟨d, hrep⟩ := hsub.represents
      have hexpand := expand_of_pruned hidx (by
        rw [h.tree_eq, h.query_eq]
        exact hrep.visit_pruned hle)
      refine ⟨self.popped, [], ts, hexpand, h.popped, ?_, Nat.lt_add_of_pos_right (Nat.succ_pos _)⟩
      rw [hits_of_pruned hsub.centered hsub.sorted hle]
    · obtain ⟨visit, self₁, self₂, hvisit, e₁, -, e₂, h₂⟩ := h.descend hsub (not_le.mp hle)
      have hexpand := expand_of_visited hidx (by
        rw [h.tree_eq, h.query_eq]
        exact hvisit)
      rw [e₁, ok_bind, e₂] at hexpand
      refine ⟨self₂, _, _, hexpand, h₂, ?_, ?_⟩
      · rw [pending, stackHits_single, stackHits_single, hits_node, List.append_assoc,
          List.append_assoc]
      · have hl : (leftFor query.start c l).numNodes ≤ l.numNodes := by
          rcases leftFor_cases query.start c l with e | e <;> rw [e]
          exact Nat.zero_le _
        have hr : (rightFor query.start query.stop c r).numNodes ≤ r.numNodes := by
          rcases rightFor_cases query.start query.stop c r with e | e <;> rw [e]
          exact Nat.zero_le _
        rw [stackSize_single, stackSize_single, BinaryTree.numNodes]
        omega

/-! ## Calls of `next` -/

/-- The scan has handed out a hit, or has nothing left. -/
theorem Ready.nextHit (h : Ready tree query n self rest ts) :
    ∃ scan, self.tree.nextHit self.scan self.query = .ok (rest.head?, scan) ∧
      Ready tree query n { self with scan } rest.tail ts := by
  have hself : self.tree.nextHit self.scan self.query = tree.nextHit self.scan query := by
    rw [h.tree_eq, h.query_eq]
  obtain ⟨last, hscan⟩ := h.scan
  cases hscan with
  | done e => exact ⟨last, hself.trans e, { h with scan := ⟨last, .done (stable_nextHit _ _ e)⟩ }⟩
  | item e hrest => exact ⟨_, hself.trans e, { h with scan := ⟨last, hrest⟩ }⟩

/-- A call of `next` returns the first pending hit. -/
theorem nextLoop_spec {fuel : Nat} (h : Ready tree query n self rest ts)
    (hf : stackSize ts < fuel) :
    ∃ self' rest' ts', nextLoop fuel self = .ok ((rest ++ pending query ts).head?, self') ∧
      Ready tree query n self' rest' ts' ∧
      rest' ++ pending query ts' = (rest ++ pending query ts).tail ∧
      stackSize ts' ≤ stackSize ts := by
  induction fuel generalizing self rest ts with
  | zero => cases hf
  | succ fuel ih =>
    obtain ⟨scan, hnext, h'⟩ := h.nextHit
    rw [nextLoop, hnext, ok_bind]
    cases rest with
    | cons x rest => exact ⟨_, rest, ts, rfl, h', rfl, le_rfl⟩
    | nil =>
      rcases List.eq_nil_or_concat ts with rfl | ⟨ts, t, rfl⟩
      · exact ⟨_, [], [], if_pos h'.stackLen, h', rfl, le_rfl⟩
      · rw [List.concat_eq_append] at h' hf ⊢
        obtain ⟨self₁, rest₁, ts₁, hexpand, h₁, hhits, hsize⟩ := h'.expand
        obtain ⟨self₂, rest₂, ts₂, hloop, h₂, htail, hsize₂⟩ := ih h₁ (by omega)
        rw [hhits] at hloop htail
        refine ⟨self₂, rest₂, ts₂, ?_, h₂, htail, by omega⟩
        have hne : ¬{ self with scan }.stackLen = 0 := by
          rw [h'.stackLen, List.length_append]
          exact Nat.succ_ne_zero _
        apply (if_neg hne).trans
        rw [hexpand, ok_bind]
        exact hloop

theorem next_spec (h : Ready tree query n self rest ts) (hs : stackSize ts ≤ tree.nodes.length) :
    ∃ self' rest' ts', self.next = .ok ((rest ++ pending query ts).head?, self') ∧
      Ready tree query n self' rest' ts' ∧
      rest' ++ pending query ts' = (rest ++ pending query ts).tail ∧
      stackSize ts' ≤ stackSize ts := by
  rw [QueryIter.next, h.tree_eq]
  exact nextLoop_spec h (Nat.lt_succ_of_le hs)

theorem nextLoop_none {fuel : Nat} {it last : QueryIter T V}
    (h : nextLoop fuel it = .ok (none, last)) :
    last.stackLen = 0 ∧ last.tree.nextHit last.scan last.query = .ok (none, last.scan) := by
  induction fuel generalizing it with
  | zero => cases h
  | succ fuel ih =>
    rw [nextLoop] at h
    obtain ⟨⟨hit, scan⟩, hnext, h⟩ := bind_eq_ok.mp h
    cases hit with
    | some e => cases h
    | none =>
      dsimp only at h
      split at h
      · cases h
        exact ⟨‹_›, stable_nextHit _ _ hnext⟩
      · obtain ⟨it', -, h⟩ := bind_eq_ok.mp h
        exact ih h

/-- Once `next` has returned `None` it returns `None` again and leaves the iterator alone. -/
theorem stable_next : Stable (QueryIter.next : QueryIter T V → _) := by
  intro it last h
  obtain ⟨hlen, hscan⟩ := nextLoop_none h
  rw [QueryIter.next, nextLoop, hscan, ok_bind]
  exact if_pos hlen

theorem Ready.yields (h : Ready tree query n self rest ts)
    (hs : stackSize ts ≤ tree.nodes.length) :
    ∃ last, Yields QueryIter.next self (rest ++ pending query ts) last := by
  generalize hes : rest ++ pending query ts = es
  induction es generalizing self rest ts with
  | nil =>
    obtain ⟨self', -, -, hnext, -⟩ := next_spec h hs
    rw [hes] at hnext
    exact ⟨self', .done hnext⟩
  | cons e es ih =>
    obtain ⟨self', rest', ts', hnext, h', htail, hsize⟩ := next_spec h hs
    rw [hes] at hnext htail
    obtain ⟨last, hlast⟩ := ih h' (hsize.trans hs) htail
    exact ⟨last, .item hnext hlast⟩

theorem collectLoop_eq {last : QueryIter T V} {es : List (Interval T × V)} {fuel : Nat}
    (h : Yields QueryIter.next self es last) (hf : es.length < fuel) :
    collectLoop fuel self = .ok es := by
  induction h generalizing fuel with
  | done e =>
    obtain ⟨fuel, rfl⟩ : ∃ f, fuel = f + 1 := ⟨fuel - 1, by simp at hf; omega⟩
    rw [collectLoop, e, ok_bind]
    rfl
  | item e _ ih =>
    obtain ⟨fuel, rfl⟩ : ∃ f, fuel = f + 1 := ⟨fuel - 1, by simp at hf; omega⟩
    rw [collectLoop, e, ok_bind]
    simp only [ih (show _ < fuel by simpa using hf)]
    rfl

/-! ## A whole iteration -/

theorem log_add_one_le {n : Nat} (h : n < UInt32.size) : Nat.log 2 n + 1 ≤ 32 := by
  rcases Nat.eq_zero_or_pos n with rfl | hpos
  · rw [Nat.log_zero_right]
    omega
  · exact Nat.log_lt_of_lt_pow hpos.ne' h

/-- An iterator before its first push has nothing to yield. -/
theorem ready_start (tree : IntervalTree T V) (query : Interval T) (h : n < UInt32.size) :
    Ready tree query n (start tree query) [] [] where
  tree_eq := rfl
  query_eq := rfl
  scan := ⟨_, .done (nextHit_exhausted (Nat.le_refl _))⟩
  capacity := List.length_replicate
  stackLen := rfl
  stack i t ht := by cases ht
  bound i t ht := by cases ht
  small := log_add_one_le h

/-- The first stack: the root, unless there is nothing to visit. -/
def roots (tree : IntervalTree T V) (query : Interval T)
    (t : BinaryTree (Run T (Interval T × V))) : List (BinaryTree (Run T (Interval T × V))) :=
  if (!tree.nodes.isEmpty) = true ∧ query.start < query.stop then [t] else []

theorem ready_roots {input : List (Interval T × V)} (h : Built input tree t)
    (query : Interval T) : ∃ it, tree.query query = .ok it ∧
      Ready tree query (items (centers t)).length it [] (roots tree query t) := by
  have hrep := h.stores.represents h.centered
  have hn : (items (centers t)).length < UInt32.size := by
    have := hrep.size
    omega
  have hstart := ready_start tree query hn
  rw [IntervalTree.query, QueryIter.new, roots]
  by_cases hcase : (!tree.nodes.isEmpty) = true ∧ query.start < query.stop
  · have hne : t ≠ .nil := by
      intro hnil
      rw [h.nodes_isEmpty.mpr hnil] at hcase
      exact absurd hcase.1 (by decide)
    have hsub : Subtree tree 0 t := ⟨⟨0, hrep⟩, h.centered, h.sorted, h.halving, hne⟩
    obtain ⟨it, hpush, hready⟩ := hstart.push hsub (by simp)
    have hroot : rootIdx 0 t = 0 := by
      cases t with
      | nil => exact absurd rfl hne
      | node => rfl
    rw [hroot] at hpush
    rw [if_pos hcase, if_pos hcase]
    exact ⟨it, hpush, hready⟩
  · rw [if_neg hcase, if_neg hcase]
    exact ⟨_, rfl, hstart⟩

theorem pending_roots {input : List (Interval T × V)} (h : Built input tree t)
    (query : Interval T) : pending query (roots tree query t) = queryHits query t := by
  by_cases hcase : (!tree.nodes.isEmpty) = true ∧ query.start < query.stop
  · rw [roots, if_pos hcase, queryHits, if_pos hcase.2]
    exact List.append_nil _
  · rw [roots, if_neg hcase, h.queryHits_eq_nil]
    · rfl
    · rw [not_and_or, not_lt, Bool.not_eq_true, Bool.not_eq_false'] at hcase
      exact hcase.symm

/-- A new iterator is ready to yield the hits of the query. -/
theorem ready_new {input : List (Interval T × V)} (h : Built input tree t) (query : Interval T) :
    ∃ it ts, tree.query query = .ok it ∧
      Ready tree query (items (centers t)).length it [] ts ∧
      stackSize ts ≤ tree.nodes.length ∧ pending query ts = queryHits query t := by
  obtain ⟨it, hit, hready⟩ := ready_roots h query
  refine ⟨it, _, hit, hready, ?_, pending_roots h query⟩
  rw [roots]
  split
  · rw [h.stores.nodes, length_flatNodes, numNodes_centers]
    exact le_of_eq (by simp [stackSize])
  · exact Nat.zero_le _

/-- The iteration of a query yields its hits, and `collect` gathers them. -/
theorem query_yields {input : List (Interval T × V)} (h : Built input tree t)
    (query : Interval T) : ∃ it last, tree.query query = .ok it ∧
      Yields QueryIter.next it (queryHits query t) last ∧ it.collect = .ok (queryHits query t) := by
  obtain ⟨it, ts, hit, hready, hsize, hpending⟩ := ready_new h query
  obtain ⟨last, hyields⟩ := hready.yields hsize
  rw [List.nil_append, hpending] at hyields
  refine ⟨it, last, hit, hyields, collectLoop_eq hyields ?_⟩
  rw [hready.tree_eq, IntervalTree.len, h.stores.values, List.length_map]
  exact Nat.lt_succ_of_le (h.length_queryHits_le query)

end QueryIter

end SimdIntervalTree
