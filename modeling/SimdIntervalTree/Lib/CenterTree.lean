import Mathlib

/-!
# Centred interval trees

A centred interval tree over items with bounds `lo` and `hi` in a linear order: a node holds the
items that span its pivot, its left subtree those that end at or before the pivot, its right
subtree those that start after it. `IsBuild` is the recursion that splits a list at the median
start; on a list sorted by `lo` it produces a tree that is `Centered` and `Halving`, hence of
logarithmic height.

The items are compared by their bounds only, and nothing depends on how the tree is stored.
-/

namespace CenterTree

variable {α β T : Type}

/-! ## Trees of item lists -/

/-- A node: its pivot and the items that span it. -/
structure Center (T α : Type) where
  pivot : T
  own : List α

/-- The items in the order in which nodes are numbered. -/
def items : BinaryTree (Center T α) → List α
  | .nil => []
  | .node c l r => c.own ++ (items l ++ items r)

/-- The items in the order of the partitioned sub-ranges. -/
def inorder : BinaryTree (Center T α) → List α
  | .nil => []
  | .node c l r => inorder l ++ (c.own ++ inorder r)

@[simp] theorem items_nil : items (.nil : BinaryTree (Center T α)) = [] := rfl

@[simp] theorem items_node {c : Center T α} {l r} :
    items (.node c l r) = c.own ++ (items l ++ items r) := rfl

@[simp] theorem inorder_nil : inorder (.nil : BinaryTree (Center T α)) = [] := rfl

@[simp] theorem inorder_node {c : Center T α} {l r} :
    inorder (.node c l r) = inorder l ++ (c.own ++ inorder r) := rfl

theorem items_perm_inorder (t : BinaryTree (Center T α)) : (items t).Perm (inorder t) := by
  induction t with
  | nil => exact .nil
  | node c l r ihl ihr =>
    apply ((ihl.append ihr).append_left c.own).trans
    rw [inorder_node, ← List.append_assoc, ← List.append_assoc]
    exact List.perm_append_comm.append_right _

def Center.map (f : α → β) (c : Center T α) : Center T β := ⟨c.pivot, c.own.map f⟩

theorem items_map (f : α → β) (t : BinaryTree (Center T α)) :
    items (t.map (Center.map f)) = (items t).map f := by
  induction t with
  | nil => rfl
  | node c l r ihl ihr => simp [BinaryTree.map, Center.map, ihl, ihr]

/-- `P` holds at every node. -/
def All (P : β → Prop) : BinaryTree β → Prop
  | .nil => True
  | .node x l r => P x ∧ All P l ∧ All P r

/-- `P` holds at every node together with its subtrees. -/
def AllSub (P : β → BinaryTree β → BinaryTree β → Prop) : BinaryTree β → Prop
  | .nil => True
  | .node x l r => P x l r ∧ AllSub P l ∧ AllSub P r

theorem All.imp {P Q : β → Prop} {t : BinaryTree β} (H : ∀ x, P x → Q x)
    (h : All P t) : All Q t := by
  induction t with
  | nil => trivial
  | node x l r ihl ihr => exact ⟨H _ h.1, ihl h.2.1, ihr h.2.2⟩

theorem All.and {P Q : β → Prop} {t : BinaryTree β} (h : All P t) (h' : All Q t) :
    All (fun x => P x ∧ Q x) t := by
  induction t with
  | nil => trivial
  | node x l r ihl ihr => exact ⟨⟨h.1, h'.1⟩, ihl h.2.1 h'.2.1, ihr h.2.2 h'.2.2⟩

/-! ## The splitting recursion -/

variable [LinearOrder T] (lo hi : α → T)

section

variable (p : T) (xs : List α)

def leftPart : List α := xs.filter fun x => decide (hi x ≤ p)

def rightPart : List α := xs.filter fun x => decide (¬hi x ≤ p ∧ p < lo x)

def ownPart : List α := xs.filter fun x => decide (¬hi x ≤ p ∧ ¬p < lo x)

end

/-- `t` is the tree of `xs`: the pivot is the start of the item at the median position. -/
inductive IsBuild : List α → BinaryTree (Center T α) → Prop
  | nil : IsBuild [] .nil
  | node : xs[xs.length / 2]? = some m →
    IsBuild (leftPart hi (lo m) xs) l → IsBuild (rightPart lo hi (lo m) xs) r →
    IsBuild xs (.node ⟨lo m, ownPart lo hi (lo m) xs⟩ l r)

variable {lo hi}

theorem parts_perm (lo hi : α → T) (p : T) (xs : List α) :
    (leftPart hi p xs ++ (ownPart lo hi p xs ++ rightPart lo hi p xs)).Perm xs := by
  let rest := xs.filter fun x => !decide (hi x ≤ p)
  have own : ownPart lo hi p xs = rest.filter fun x => !decide (p < lo x) := by
    rw [List.filter_filter]
    exact List.filter_congr fun x _ => by simp only [Bool.decide_and, decide_not, Bool.and_comm]
  have right : rightPart lo hi p xs = rest.filter fun x => decide (p < lo x) := by
    rw [List.filter_filter]
    exact List.filter_congr fun x _ => by simp only [Bool.decide_and, decide_not, Bool.and_comm]
  have h : (ownPart lo hi p xs ++ rightPart lo hi p xs).Perm rest := by
    rw [own, right]
    exact List.perm_append_comm.trans (List.filter_append_perm _ rest)
  exact (h.append_left _).trans (List.filter_append_perm _ xs)

theorem IsBuild.inorder_perm {xs : List α} {t} (h : IsBuild lo hi xs t) : (inorder t).Perm xs := by
  induction h with
  | nil => exact .nil
  | node _ _ _ ihl ihr => exact (ihl.append (ihr.append_left _)).trans (parts_perm ..)

theorem IsBuild.items_perm {xs : List α} {t} (h : IsBuild lo hi xs t) : (items t).Perm xs :=
  (items_perm_inorder t).trans h.inorder_perm

/-- Splitting commutes with renaming the items. -/
theorem IsBuild.map {lo hi : β → T} {f : α → β} {xs : List α} {t}
    (h : IsBuild (lo ∘ f) (hi ∘ f) xs t) : IsBuild lo hi (xs.map f) (t.map (Center.map f)) := by
  induction h with
  | nil => exact .nil
  | @node xs m l r hm _ _ ihl ihr =>
    have hmap : IsBuild lo hi (xs.map f) (.node ⟨lo (f m), ownPart lo hi (lo (f m)) (xs.map f)⟩
        (l.map (Center.map f)) (r.map (Center.map f))) := by
      refine .node (by simp [hm]) ?_ ?_
      · rw [leftPart, List.filter_map]; exact ihl
      · rw [rightPart, List.filter_map]; exact ihr
    rwa [ownPart, List.filter_map] at hmap

/-! ### Items that span a point

An item with `lo < hi` at the pivot lands in the node itself. This is what makes the recursion
progress. -/

theorem mem_ownPart_self {xs : List α} {m : α} (hm : m ∈ xs) (h : lo m < hi m) :
    m ∈ ownPart lo hi (lo m) xs := by
  simp [ownPart, hm, h]

theorem length_parts (lo hi : α → T) (p : T) (xs : List α) :
    (leftPart hi p xs).length + (ownPart lo hi p xs).length + (rightPart lo hi p xs).length =
      xs.length := by
  rw [← (parts_perm lo hi p xs).length_eq]
  simp only [List.length_append]
  omega

/-- Both parts handed to the children are shorter than the list. -/
theorem length_parts_lt {xs : List α} {m : α} (hm : m ∈ xs) (h : lo m < hi m) :
    (leftPart hi (lo m) xs).length < xs.length ∧
      (rightPart lo hi (lo m) xs).length < xs.length := by
  have hlen := length_parts lo hi (lo m) xs
  have hpos := List.length_pos_of_mem (mem_ownPart_self hm h)
  omega

theorem exists_isBuild (lo hi : α → T) (xs : List α) (H : ∀ x ∈ xs, lo x < hi x) :
    ∃ t, IsBuild lo hi xs t := by
  induction hn : xs.length using Nat.strong_induction_on generalizing xs with
  | _ n ih =>
    subst hn
    rcases Nat.eq_zero_or_pos xs.length with h0 | h0
    · exact ⟨.nil, List.eq_nil_of_length_eq_zero h0 ▸ .nil⟩
    have hlt : xs.length / 2 < xs.length := by omega
    have hm := List.getElem_mem hlt
    obtain ⟨h1, h2⟩ := length_parts_lt hm (H _ hm)
    obtain ⟨l, hl⟩ := ih _ h1 _ (fun x hx => H x (List.mem_of_mem_filter hx)) rfl
    obtain ⟨r, hr⟩ := ih _ h2 _ (fun x hx => H x (List.mem_of_mem_filter hx)) rfl
    exact ⟨_, .node (List.getElem?_eq_getElem hlt) hl hr⟩

/-! ## What the recursion establishes -/

/-- The items of a node span its pivot and are sorted by start; those of the subtrees lie on
either side of it. -/
def Centered (lo hi : α → T) : BinaryTree (Center T α) → Prop := AllSub fun c l r =>
  c.own ≠ [] ∧ (∀ x ∈ c.own, lo x ≤ c.pivot ∧ c.pivot < hi x) ∧
    c.own.Pairwise (fun a b => lo a ≤ lo b) ∧
    (∀ x ∈ items l, hi x ≤ c.pivot) ∧ ∀ x ∈ items r, c.pivot < lo x

theorem IsBuild.centered {xs : List α} {t} (h : IsBuild lo hi xs t) (H : ∀ x ∈ xs, lo x < hi x)
    (hs : xs.Pairwise fun a b => lo a ≤ lo b) : Centered lo hi t := by
  induction h with
  | nil => trivial
  | @node xs m _ _ hm hl hr ihl ihr =>
    have hmem := List.mem_of_getElem? hm
    refine ⟨⟨?_, ?_, hs.filter _, ?_, ?_⟩,
      ihl (fun x hx => H x (List.mem_of_mem_filter hx)) (hs.filter _),
      ihr (fun x hx => H x (List.mem_of_mem_filter hx)) (hs.filter _)⟩
    · exact List.ne_nil_of_mem (mem_ownPart_self hmem (H _ hmem))
    · intro x hx
      simpa [and_comm] using (List.mem_filter.mp hx).2
    · intro x hx
      simpa using (List.mem_filter.mp (hl.items_perm.mem_iff.mp hx)).2
    · intro x hx
      simpa using (of_decide_eq_true (List.mem_filter.mp (hr.items_perm.mem_iff.mp hx)).2).2

/-- Each child holds at most half of the items of its parent. -/
def Halving : BinaryTree (Center T α) → Prop := AllSub fun c l r =>
  (items l).length ≤ (items (.node c l r)).length / 2 ∧
    (items r).length ≤ (items (.node c l r)).length / 2

/-- In a list sorted by start, the items from the median on end after its start. -/
theorem length_leftPart_le {xs : List α} {k : Nat} {m : α} (hm : xs[k]? = some m)
    (H : ∀ x ∈ xs, lo x < hi x) (hs : xs.Pairwise fun a b => lo a ≤ lo b) :
    (leftPart hi (lo m) xs).length ≤ k := by
  obtain ⟨hk, rfl⟩ := List.getElem?_eq_some_iff.mp hm
  have hdrop : (xs.drop k).filter (fun x => decide (hi x ≤ lo xs[k])) = [] := by
    rw [List.filter_eq_nil_iff]
    intro y hy
    have hle : lo xs[k] ≤ lo y := by
      rw [List.drop_eq_getElem_cons hk, List.mem_cons] at hy
      rcases hy with rfl | hy
      · exact le_rfl
      · have := hs.sublist (List.drop_sublist k xs)
        rw [List.drop_eq_getElem_cons hk] at this
        exact List.rel_of_pairwise_cons this hy
    simpa using hle.trans_lt (H y (List.mem_of_mem_drop hy))
  calc (leftPart hi (lo xs[k]) xs).length
      = ((xs.take k ++ xs.drop k).filter fun x => decide (hi x ≤ lo xs[k])).length := by
        rw [List.take_append_drop]; rfl
    _ = ((xs.take k).filter fun x => decide (hi x ≤ lo xs[k])).length := by
        rw [List.filter_append, hdrop, List.append_nil]
    _ ≤ k := (List.length_filter_le _ _).trans (List.length_take_le _ _)

/-- The items up to the median one start no later than it. -/
theorem length_rightPart_le (hi : α → T) {xs : List α} {k : Nat} {m : α} (hm : xs[k]? = some m)
    (hs : xs.Pairwise fun a b => lo a ≤ lo b) :
    (rightPart lo hi (lo m) xs).length ≤ xs.length - (k + 1) := by
  obtain ⟨hk, rfl⟩ := List.getElem?_eq_some_iff.mp hm
  have htake : (xs.take (k + 1)).filter
      (fun x => decide (¬hi x ≤ lo xs[k] ∧ lo xs[k] < lo x)) = [] := by
    rw [List.filter_eq_nil_iff]
    intro y hy
    have hle : lo y ≤ lo xs[k] := by
      rw [List.take_succ_eq_append_getElem hk, List.mem_append, List.mem_singleton] at hy
      rcases hy with hy | rfl
      · rw [← List.take_append_drop k xs, List.pairwise_append] at hs
        apply hs.2.2 y hy _
        rw [List.drop_eq_getElem_cons hk]
        exact List.mem_cons_self
      · exact le_rfl
    simpa using fun _ => hle
  calc (rightPart lo hi (lo xs[k]) xs).length
      = ((xs.take (k + 1) ++ xs.drop (k + 1)).filter
          fun x => decide (¬hi x ≤ lo xs[k] ∧ lo xs[k] < lo x)).length := by
        rw [List.take_append_drop]; rfl
    _ = ((xs.drop (k + 1)).filter
          fun x => decide (¬hi x ≤ lo xs[k] ∧ lo xs[k] < lo x)).length := by
        rw [List.filter_append, htake, List.nil_append]
    _ ≤ xs.length - (k + 1) := by
        rw [← List.length_drop]; exact List.length_filter_le _ _

theorem IsBuild.halving {xs : List α} {t} (h : IsBuild lo hi xs t) (H : ∀ x ∈ xs, lo x < hi x)
    (hs : xs.Pairwise fun a b => lo a ≤ lo b) : Halving t := by
  induction h with
  | nil => trivial
  | @node xs m l r hm hl hr ihl ihr =>
    refine ⟨?_, ihl (fun x hx => H x (List.mem_of_mem_filter hx)) (hs.filter _),
      ihr (fun x hx => H x (List.mem_of_mem_filter hx)) (hs.filter _)⟩
    dsimp only
    rw [(IsBuild.node hm hl hr).items_perm.length_eq, hl.items_perm.length_eq,
      hr.items_perm.length_eq]
    have h1 := length_leftPart_le hm H hs
    have h2 := length_rightPart_le hi hm hs
    omega

/-! ## Size and height -/

theorem numNodes_le_length_items {t : BinaryTree (Center T α)} (h : Centered lo hi t) :
    t.numNodes ≤ (items t).length := by
  induction t with
  | nil => exact Nat.le_refl _
  | node c l r ihl ihr =>
    have h1 := ihl h.2.1
    have h2 := ihr h.2.2
    have h3 := List.length_pos_of_ne_nil h.1.1
    rw [BinaryTree.numNodes, items_node, List.length_append, List.length_append]
    omega

/-- A halving tree of `n` items has at most `log₂ n + 1` levels. -/
theorem two_pow_height_le {t : BinaryTree (Center T α)} (h : Halving t) (hc : Centered lo hi t) :
    2 ^ t.height ≤ 2 * (items t).length ∨ t = .nil := by
  induction t with
  | nil => exact .inr rfl
  | node c l r ihl ihr =>
    left
    have hpos : 0 < (items (.node c l r)).length := by
      have := List.length_pos_of_ne_nil hc.1.1
      rw [items_node, List.length_append]
      omega
    obtain ⟨hl, hr⟩ := h.1
    have key (s : BinaryTree (Center T α))
        (hs : (items s).length ≤ (items (.node c l r)).length / 2)
        (ih : 2 ^ s.height ≤ 2 * (items s).length ∨ s = .nil) :
        2 ^ s.height ≤ (items (.node c l r)).length := by
      rcases ih with ih | rfl
      · omega
      · rw [BinaryTree.height, pow_zero]
        exact hpos
    have h1 := key l hl (ihl h.2.1 hc.2.1)
    have h2 := key r hr (ihr h.2.2 hc.2.2)
    rw [BinaryTree.height, pow_succ]
    rcases max_cases l.height r.height with ⟨e, _⟩ | ⟨e, _⟩ <;> rw [e] <;> omega

end CenterTree
