import SimdIntervalTree.Lib.CenterTree
import SimdIntervalTree.Lib.SortedPrefix

/-!
# Overlap queries on centred trees

Each node of a stored tree also lists its items by descending `hi`, together with the positions
they are stored at (`Run`). A query `[qs, qe)` reads at each node a prefix of one of the two lists
and descends into the subtrees that can still hold overlaps. `hits` is the resulting sequence, and
`hits_perm` says that it is the multiset of the items that overlap the query.

A traversal with an explicit stack of subtrees yields the concatenation of the hits of the stack.
`StackBound` is the invariant that keeps such a stack short on a halving tree.
-/

namespace CenterTree

open SortedPrefix

variable {α T : Type}

/-- A stored node: its items by start, and by descending end with their positions. -/
structure Run (T α : Type) extends Center T α where
  byEnd : List (α × Nat)

def centers (t : BinaryTree (Run T α)) : BinaryTree (Center T α) := t.map Run.toCenter

@[simp] theorem centers_nil : centers (.nil : BinaryTree (Run T α)) = .nil := rfl

@[simp] theorem centers_node {c : Run T α} {l r} :
    centers (.node c l r) = .node c.toCenter (centers l) (centers r) := rfl

theorem numNodes_centers (t : BinaryTree (Run T α)) : (centers t).numNodes = t.numNodes := by
  induction t with
  | nil => rfl
  | node c l r ihl ihr => rw [centers_node, BinaryTree.numNodes, ihl, ihr, BinaryTree.numNodes]

theorem height_centers (t : BinaryTree (Run T α)) :
    (centers t).height = t.height := by
  induction t with
  | nil => rfl
  | node c l r ihl ihr => rw [centers_node, BinaryTree.height, ihl, ihr, BinaryTree.height]

/-! ## Explicit stacks -/

/-- The subtree at height `i` of the stack holds at most `n / 2 ^ i` items. -/
def StackBound (n : Nat) (stack : List (BinaryTree (Run T α))) : Prop :=
  ∀ i t, stack[i]? = some t → 0 < (items (centers t)).length ∧
    2 ^ i * (items (centers t)).length ≤ n

theorem StackBound.length_le {n : Nat} {stack : List (BinaryTree (Run T α))}
    (h : StackBound n stack) : stack.length ≤ Nat.log 2 n + 1 := by
  rcases Nat.eq_zero_or_pos stack.length with h0 | h0
  · omega
  have hlt : stack.length - 1 < stack.length := by omega
  obtain ⟨hpos, hle⟩ := h _ _ (List.getElem?_eq_getElem hlt)
  have hpow : 2 ^ (stack.length - 1) ≤ n := (Nat.le_mul_of_pos_right _ hpos).trans hle
  have hn : n ≠ 0 := (Nat.pos_of_ne_zero (by positivity)).trans_le hpow |>.ne'
  have := (Nat.le_log_iff_pow_le (by omega) hn).mpr hpow
  omega

theorem StackBound.append_singleton {n : Nat} {stack : List (BinaryTree (Run T α))} {t}
    (h : StackBound n stack) (hpos : 0 < (items (centers t)).length)
    (hle : 2 ^ stack.length * (items (centers t)).length ≤ n) : StackBound n (stack ++ [t]) := by
  intro i s hs
  rcases Nat.lt_or_ge i stack.length with hi | hi
  · exact h i s (by rwa [List.getElem?_append_left hi] at hs)
  · rw [List.getElem?_append_right hi, List.getElem?_singleton] at hs
    split at hs
    · cases hs
      rw [show i = stack.length by omega]
      exact ⟨hpos, hle⟩
    · cases hs

theorem StackBound.dropLast {n : Nat} {stack : List (BinaryTree (Run T α))} {t}
    (h : StackBound n (stack ++ [t])) : StackBound n stack := by
  intro i s hs
  apply h i s
  rw [List.getElem?_append_left (List.getElem?_eq_some_iff.mp hs).1]
  exact hs

/-- A subtree as a piece of a stack: an empty one is not pushed. -/
def single : BinaryTree (Run T α) → List (BinaryTree (Run T α))
  | .nil => []
  | t => [t]

theorem single_of_ne {t : BinaryTree (Run T α)} (h : t ≠ .nil) : single t = [t] := by
  cases t with
  | nil => exact absurd rfl h
  | node => rfl

/-- The number of nodes below a stack. -/
def stackSize (stack : List (BinaryTree (Run T α))) : Nat := (stack.map BinaryTree.numNodes).sum

theorem stackSize_concat (stack : List (BinaryTree (Run T α))) (t : BinaryTree (Run T α)) :
    stackSize (stack ++ [t]) = stackSize stack + t.numNodes := by
  simp [stackSize]

theorem stackSize_single (stack : List (BinaryTree (Run T α))) (t : BinaryTree (Run T α)) :
    stackSize (stack ++ single t) = stackSize stack + t.numNodes := by
  cases t with
  | nil => rw [single, List.append_nil]; rfl
  | node => exact stackSize_concat ..

/-! ## Hits -/

variable [LinearOrder T] (lo hi : α → T)

/-- The by-end list holds the items of the node, the largest end first. -/
def Run.Sorted (c : Run T α) : Prop :=
  (c.byEnd.map (·.1)).Perm c.own ∧ c.byEnd.Pairwise fun a b => hi b.1 ≤ hi a.1

variable (qs qe : T)

/-- The hits of one node: the ends above `qs` if its pivot lies before the query, the starts below
`qe` if it lies after it, and otherwise everything. -/
def nodeHits (c : Run T α) : List α :=
  if c.pivot < qs then (c.byEnd.map (·.1)).takeWhile fun x => decide (qs < hi x)
  else if c.pivot < qe then c.own
  else c.own.takeWhile fun x => decide (lo x < qe)

/-- The left subtree, unless the pivot rules it out. -/
def leftFor (c : Run T α) (l : BinaryTree (Run T α)) : BinaryTree (Run T α) :=
  if c.pivot < qs then .nil else l

/-- The right subtree, unless the pivot rules it out. -/
def rightFor (c : Run T α) (r : BinaryTree (Run T α)) : BinaryTree (Run T α) :=
  if c.pivot < qs ∨ c.pivot < qe then r else .nil

def hits : BinaryTree (Run T α) → List α
  | .nil => []
  | .node c l r => nodeHits lo hi qs qe c ++
      ((if c.pivot < qs then [] else hits l) ++ if c.pivot < qs ∨ c.pivot < qe then hits r else [])

@[simp] theorem hits_nil : hits lo hi qs qe (.nil : BinaryTree (Run T α)) = [] := rfl

theorem hits_node (c : Run T α) (l r : BinaryTree (Run T α)) :
    hits lo hi qs qe (.node c l r) = nodeHits lo hi qs qe c ++
      (hits lo hi qs qe (leftFor qs c l) ++ hits lo hi qs qe (rightFor qs qe c r)) := by
  rw [hits, leftFor, rightFor]
  congr 2 <;> split <;> rfl

/-- The hits of a stack, from the top down. -/
def stackHits (stack : List (BinaryTree (Run T α))) : List α :=
  stack.reverse.flatMap (hits lo hi qs qe)

theorem stackHits_concat (stack : List (BinaryTree (Run T α))) (t : BinaryTree (Run T α)) :
    stackHits lo hi qs qe (stack ++ [t]) = hits lo hi qs qe t ++ stackHits lo hi qs qe stack := by
  rw [stackHits, List.reverse_append, List.flatMap_append]
  exact congrArg (· ++ _) (List.append_nil _)

theorem stackHits_single (stack : List (BinaryTree (Run T α))) (t : BinaryTree (Run T α)) :
    stackHits lo hi qs qe (stack ++ single t) =
      hits lo hi qs qe t ++ stackHits lo hi qs qe stack := by
  cases t with
  | nil => rw [single, List.append_nil]; rfl
  | node => exact stackHits_concat ..

/-- An item overlaps the query. -/
def Overlaps (x : α) : Bool := decide (lo x < qe) && decide (qs < hi x)

variable {lo hi qs qe}

theorem filter_eq_nil_of_le {xs : List α} (h : ∀ x ∈ xs, hi x ≤ qs) :
    xs.filter (Overlaps lo hi qs qe) = [] := by
  rw [List.filter_eq_nil_iff]
  intro x hx hov
  rw [Overlaps, Bool.and_eq_true, decide_eq_true_eq, decide_eq_true_eq] at hov
  exact (h x hx).not_gt hov.2

theorem filter_eq_nil_of_ge {xs : List α} (h : ∀ x ∈ xs, qe ≤ lo x) :
    xs.filter (Overlaps lo hi qs qe) = [] := by
  rw [List.filter_eq_nil_iff]
  intro x hx hov
  rw [Overlaps, Bool.and_eq_true, decide_eq_true_eq, decide_eq_true_eq] at hov
  exact (h x hx).not_gt hov.1

/-- The three cases of a node partition its overlaps. -/
theorem nodeHits_perm {c : Run T α} (hc : ∀ x ∈ c.own, lo x ≤ c.pivot ∧ c.pivot < hi x)
    (hs : c.own.Pairwise fun a b => lo a ≤ lo b) (he : c.Sorted hi) (hq : qs < qe) :
    (nodeHits lo hi qs qe c).Perm (c.own.filter (Overlaps lo hi qs qe)) := by
  unfold nodeHits
  split
  · rename_i h
    have hdesc : (c.byEnd.map (·.1)).Pairwise fun a b => hi b ≤ hi a := List.pairwise_map.mpr he.2
    rw [← (partitioned_gt hdesc qs).filter_eq]
    refine (he.1.filter _).trans (.of_eq (List.filter_congr fun x hx => ?_))
    rw [Overlaps, decide_eq_true ((hc x hx).1.trans_lt (h.trans hq)), Bool.true_and]
  · rename_i h
    have hspan (x) (hx : x ∈ c.own) : qs < hi x := (not_lt.mp h).trans_lt (hc x hx).2
    split
    · rename_i h'
      refine .of_eq (List.filter_eq_self.mpr fun x hx => ?_).symm
      rw [Overlaps, decide_eq_true ((hc x hx).1.trans_lt h'), decide_eq_true (hspan x hx)]
      rfl
    · rw [← (partitioned_lt hs qe).filter_eq]
      refine .of_eq (List.filter_congr fun x hx => ?_)
      rw [Overlaps, decide_eq_true (hspan x hx), Bool.and_true]

/-- **The hits of a query are the items that overlap it.** -/
theorem hits_perm {t : BinaryTree (Run T α)} (hc : Centered lo hi (centers t))
    (he : All (Run.Sorted hi) t) (hq : qs < qe) :
    (hits lo hi qs qe t).Perm ((items (centers t)).filter (Overlaps lo hi qs qe)) := by
  induction t with
  | nil => exact .nil
  | node c l r ihl ihr =>
    rw [centers_node] at hc
    obtain ⟨⟨_, hspan, hsort, hleft, hright⟩, hcl, hcr⟩ := hc
    have hown := nodeHits_perm hspan hsort he.1 hq
    have hl : (if c.pivot < qs then [] else hits lo hi qs qe l).Perm
        ((items (centers l)).filter (Overlaps lo hi qs qe)) := by
      split
      · rw [filter_eq_nil_of_le fun x hx => (hleft x hx).trans (le_of_lt ‹_›)]
      · exact ihl hcl he.2.1
    have hr : (if c.pivot < qs ∨ c.pivot < qe then hits lo hi qs qe r else []).Perm
        ((items (centers r)).filter (Overlaps lo hi qs qe)) := by
      split
      · exact ihr hcr he.2.2
      · rename_i h
        have hqe := not_lt.mp (not_or.mp h).2
        rw [filter_eq_nil_of_ge fun x hx => hqe.trans (le_of_lt (hright x hx))]
    rw [hits, centers_node, items_node, List.filter_append, List.filter_append]
    exact hown.append (hl.append hr)

/-- A subtree that ends before the query has no hits. -/
theorem hits_eq_nil {t : BinaryTree (Run T α)} (hc : Centered lo hi (centers t))
    (he : All (Run.Sorted hi) t) (h : ∀ x ∈ items (centers t), hi x ≤ qs) :
    hits lo hi qs qe t = [] := by
  induction t with
  | nil => rfl
  | node c l r _ ihr =>
    rw [centers_node] at hc h
    obtain ⟨⟨hne, hspan, -⟩, -, hcr⟩ := hc
    have hown (x) (hx : x ∈ c.own) : hi x ≤ qs := h x (List.mem_append_left _ hx)
    -- every item of the node spans the pivot, so the pivot lies before the query
    obtain ⟨x, hx⟩ := List.exists_mem_of_ne_nil _ hne
    have hpivot : c.pivot < qs := (hspan x hx).2.trans_le (hown x hx)
    have hnode : nodeHits lo hi qs qe c = [] := by
      rw [nodeHits, if_pos hpivot, List.takeWhile_eq_nil_iff]
      intro hlen
      have hle := hown _ (he.1.1.mem_iff.mp (List.getElem_mem hlen))
      rw [decide_eq_true_eq]
      exact not_lt.mpr hle
    rw [hits, hnode, if_pos hpivot, if_pos (.inl hpivot), ihr hcr he.2.2 fun x hx => h x ?_]
    · rfl
    · rw [items_node, List.mem_append, List.mem_append]
      exact .inr (.inr hx)

end CenterTree
