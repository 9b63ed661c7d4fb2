import SimdIntervalTree.Lib.CenterQuery

/-!
# Costs on centred trees

Splitting items into a tree touches each item once a level (`work_le`).

A query that reaches a node whose pivot it contains has at least one hit there. The other nodes it
reaches lie on two paths: once a pivot in the query has been passed, a left subtree has no pivot
behind the query and a right subtree none before it. So they are at most twice as many as the tree
has levels (`outside_le`).
-/

namespace CenterTree

variable {α T : Type} [LinearOrder T]

/-! ## The work of splitting -/

/-- The number of items, summed over all subtrees. -/
def work : BinaryTree (Center T α) → Nat
  | .nil => 0
  | .node c l r => (items (.node c l r)).length + (work l + work r)

omit [LinearOrder T] in
/-- Each level splits every item at most once. -/
theorem work_le (t : BinaryTree (Center T α)) : work t ≤ (items t).length * t.height := by
  induction t with
  | nil => exact Nat.zero_le _
  | node c l r ihl ihr =>
    have hlen : (items l).length + (items r).length ≤ (items (.node c l r)).length := by
      rw [items_node, List.length_append, List.length_append]
      omega
    have hl := Nat.mul_le_mul_left (items l).length (le_max_left l.height r.height)
    have hr := Nat.mul_le_mul_left (items r).length (le_max_right l.height r.height)
    have hsum := Nat.mul_le_mul_right (max l.height r.height) hlen
    rw [Nat.add_mul] at hsum
    rw [work, BinaryTree.height, Nat.mul_add, Nat.mul_one]
    omega

omit [LinearOrder T] in
theorem work_map {β : Type} (f : α → β) (t : BinaryTree (Center T α)) :
    work (t.map (Center.map f)) = work t := by
  induction t with
  | nil => rfl
  | node c l r ihl ihr =>
    have hitems := congrArg List.length (items_map f (.node c l r))
    rw [List.length_map, BinaryTree.map] at hitems
    rw [BinaryTree.map, work, work, hitems, ihl, ihr]

/-! ## Pivots are ordered -/

/-- The pivots of a tree lie before a bound on the ends of its items. -/
theorem Centered.pivot_lt {lo hi : α → T} {p : T} {t : BinaryTree (Center T α)}
    (h : Centered lo hi t) (hp : ∀ x ∈ items t, hi x ≤ p) : All (fun c => c.pivot < p) t := by
  induction t with
  | nil => trivial
  | node c l r ihl ihr =>
    obtain ⟨⟨hne, hspan, -⟩, hl, hr⟩ := h
    obtain ⟨x, hx⟩ := List.exists_mem_of_ne_nil _ hne
    have hown : x ∈ items (.node c l r) := List.mem_append_left _ hx
    refine ⟨(hspan x hx).2.trans_le (hp x hown), ihl hl fun y hy => hp y ?_,
      ihr hr fun y hy => hp y ?_⟩
    · exact List.mem_append_right _ (List.mem_append_left _ hy)
    · exact List.mem_append_right _ (List.mem_append_right _ hy)

/-- The pivots of a tree lie behind a bound on the starts of its items. -/
theorem Centered.lt_pivot {lo hi : α → T} {p : T} {t : BinaryTree (Center T α)}
    (h : Centered lo hi t) (hp : ∀ x ∈ items t, p < lo x) : All (fun c => p < c.pivot) t := by
  induction t with
  | nil => trivial
  | node c l r ihl ihr =>
    obtain ⟨⟨hne, hspan, -⟩, hl, hr⟩ := h
    obtain ⟨x, hx⟩ := List.exists_mem_of_ne_nil _ hne
    have hown : x ∈ items (.node c l r) := List.mem_append_left _ hx
    refine ⟨(hp x hown).trans_le (hspan x hx).1, ihl hl fun y hy => hp y ?_,
      ihr hr fun y hy => hp y ?_⟩
    · exact List.mem_append_right _ (List.mem_append_left _ hy)
    · exact List.mem_append_right _ (List.mem_append_right _ hy)

/-- The pivots of the subtrees lie on either side of the pivot of a node. -/
def Ordered : BinaryTree (Run T α) → Prop := AllSub fun c l r =>
  All (fun c' => c'.pivot < c.pivot) l ∧ All (fun c' => c.pivot < c'.pivot) r

omit [LinearOrder T] in
theorem all_centers {P : Center T α → Prop} {t : BinaryTree (Run T α)} :
    All P (centers t) ↔ All (fun c => P c.toCenter) t := by
  induction t with
  | nil => exact Iff.rfl
  | node c l r ihl ihr => exact and_congr Iff.rfl (and_congr ihl ihr)

theorem Centered.ordered {lo hi : α → T} {t : BinaryTree (Run T α)}
    (h : Centered lo hi (centers t)) : Ordered t := by
  induction t with
  | nil => trivial
  | node c l r ihl ihr =>
    obtain ⟨⟨-, -, -, hleft, hright⟩, hl, hr⟩ := h
    exact ⟨⟨all_centers.mp (Centered.pivot_lt hl hleft),
      all_centers.mp (Centered.lt_pivot hr hright)⟩,
      ihl hl, ihr hr⟩

/-! ## Nodes off the query -/

variable (qs qe : T)

/-- The query contains the pivot. -/
def Run.Inside (c : Run T α) : Prop := qs ≤ c.pivot ∧ c.pivot < qe

instance (c : Run T α) : Decidable (c.Inside qs qe) := inferInstanceAs (Decidable (_ ∧ _))

/-- The number of nodes within reach of a query whose pivot it does not contain. -/
def outside : BinaryTree (Run T α) → Nat
  | .nil => 0
  | .node c l r => (if c.Inside qs qe then 0 else 1) +
      ((if c.pivot < qs then 0 else outside l) +
        if c.pivot < qs ∨ c.pivot < qe then outside r else 0)

variable {qs qe}

theorem outside_node (c : Run T α) (l r : BinaryTree (Run T α)) :
    outside qs qe (.node c l r) = (if c.Inside qs qe then 0 else 1) +
      (outside qs qe (leftFor qs c l) + outside qs qe (rightFor qs qe c r)) := by
  rw [outside, leftFor, rightFor]
  congr 2 <;> split <;> rfl

theorem outside_of_inside {c : Run T α} (h : c.Inside qs qe) (l r : BinaryTree (Run T α)) :
    outside qs qe (.node c l r) = outside qs qe l + outside qs qe r := by
  rw [outside, if_pos h, if_neg (not_lt.mpr h.1), if_pos (.inr h.2), Nat.zero_add]

theorem outside_of_lt {c : Run T α} (h : c.pivot < qs) (l r : BinaryTree (Run T α)) :
    outside qs qe (.node c l r) = outside qs qe r + 1 := by
  rw [outside, if_neg fun hin => not_lt.mpr hin.1 h, if_pos h, if_pos (.inl h)]
  omega

theorem outside_of_ge {c : Run T α} (h : ¬c.pivot < qs) (h' : ¬c.pivot < qe)
    (l r : BinaryTree (Run T α)) : outside qs qe (.node c l r) = outside qs qe l + 1 := by
  rw [outside, if_neg fun hin => h' hin.2, if_neg h, if_neg (not_or.mpr ⟨h, h'⟩)]
  omega

theorem outside_eq_zero {t : BinaryTree (Run T α)} (h : All (Run.Inside qs qe) t) :
    outside qs qe t = 0 := by
  induction t with
  | nil => rfl
  | node c l r ihl ihr => rw [outside_of_inside h.1, ihl h.2.1, ihr h.2.2]

/-- Where no pivot lies behind the query, a query goes down one path beside it. -/
theorem outside_le_of_lt {t : BinaryTree (Run T α)} (ho : Ordered t)
    (h : All (fun c => c.pivot < qe) t) : outside qs qe t ≤ t.height := by
  induction t with
  | nil => exact le_rfl
  | node c l r ihl ihr =>
    rw [BinaryTree.height]
    by_cases hlt : c.pivot < qs
    · rw [outside_of_lt hlt]
      have := ihr ho.2.2 h.2.2
      omega
    · have hin : c.Inside qs qe := ⟨not_lt.mp hlt, h.1⟩
      -- behind this pivot every pivot is in the query
      have hr : All (Run.Inside qs qe) r :=
        (ho.1.2.and h.2.2).imp fun c' hc' => ⟨hin.1.trans hc'.1.le, hc'.2⟩
      rw [outside_of_inside hin, outside_eq_zero hr]
      have := ihl ho.2.1 h.2.1
      omega

/-- Where no pivot lies before the query, a query goes down one path beside it. -/
theorem outside_le_of_ge {t : BinaryTree (Run T α)} (ho : Ordered t)
    (h : All (fun c => qs ≤ c.pivot) t) : outside qs qe t ≤ t.height := by
  induction t with
  | nil => exact le_rfl
  | node c l r ihl ihr =>
    rw [BinaryTree.height]
    have hlt : ¬c.pivot < qs := not_lt.mpr h.1
    by_cases hlt' : c.pivot < qe
    · have hin : c.Inside qs qe := ⟨h.1, hlt'⟩
      -- before this pivot every pivot is in the query
      have hl : All (Run.Inside qs qe) l :=
        (ho.1.1.and h.2.1).imp fun c' hc' => ⟨hc'.2, hc'.1.trans hin.2⟩
      rw [outside_of_inside hin, outside_eq_zero hl]
      have := ihr ho.2.2 h.2.2
      omega
    · rw [outside_of_ge hlt hlt']
      have := ihl ho.2.1 h.2.1
      omega

/-- **A query reaches at most two nodes a level** whose pivot it does not contain. -/
theorem outside_le (qs qe : T) {t : BinaryTree (Run T α)} (ho : Ordered t) :
    outside qs qe t ≤ 2 * t.height := by
  induction t with
  | nil => exact le_rfl
  | node c l r ihl ihr =>
    rw [BinaryTree.height]
    by_cases hlt : c.pivot < qs
    · rw [outside_of_lt hlt]
      have := ihr ho.2.2
      omega
    · by_cases hlt' : c.pivot < qe
      · have hin : c.Inside qs qe := ⟨not_lt.mp hlt, hlt'⟩
        have hl : outside qs qe l ≤ l.height :=
          outside_le_of_lt ho.2.1 (ho.1.1.imp fun c' hc' => hc'.trans hlt')
        have hr : outside qs qe r ≤ r.height :=
          outside_le_of_ge ho.2.2 (ho.1.2.imp fun c' hc' => hin.1.trans hc'.le)
        rw [outside_of_inside hin]
        omega
      · rw [outside_of_ge hlt hlt']
        have := ihl ho.2.1
        omega

/-! ## Explicit stacks -/

/-- The nodes off the query below a stack. -/
def stackOutside (qs qe : T) (stack : List (BinaryTree (Run T α))) : Nat :=
  (stack.map (outside qs qe)).sum

theorem stackOutside_concat (stack : List (BinaryTree (Run T α))) (t : BinaryTree (Run T α)) :
    stackOutside qs qe (stack ++ [t]) = stackOutside qs qe stack + outside qs qe t := by
  simp [stackOutside]

theorem stackOutside_single (stack : List (BinaryTree (Run T α))) (t : BinaryTree (Run T α)) :
    stackOutside qs qe (stack ++ single t) = stackOutside qs qe stack + outside qs qe t := by
  cases t with
  | nil => rw [single, List.append_nil]; rfl
  | node => exact stackOutside_concat ..

end CenterTree
