import SimdIntervalTree.Lib.CenterTree

/-!
# Splitting up to ties

Two runs of the splitting recursion on lists with the same keys, each sorted by start in an order
of its own among ties. The items at the median positions may differ, their starts do not, so both
runs choose the same pivots and hand the same keys on: the trees are `Alike`.
-/

namespace CenterTree

variable {α β γ T : Type} {f : α → γ} {g : β → γ}

/-- Trees of one shape with the same pivots. Their nodes hold the same keys, in orders that agree
on the starts. -/
inductive Alike (lo : γ → T) (f : α → γ) (g : β → γ) :
    BinaryTree (Center T α) → BinaryTree (Center T β) → Prop
  | nil : Alike lo f g .nil .nil
  | node {c : Center T α} {c' : Center T β} {l r : BinaryTree (Center T α)}
    {l' r' : BinaryTree (Center T β)} : c.pivot = c'.pivot →
    (c.own.map f).Perm (c'.own.map g) → c.own.map (lo ∘ f) = c'.own.map (lo ∘ g) →
    Alike lo f g l l' → Alike lo f g r r' → Alike lo f g (.node c l r) (.node c' l' r')

namespace Alike

variable {lo : γ → T} {t : BinaryTree (Center T α)} {t' : BinaryTree (Center T β)}

theorem numNodes_eq (h : Alike lo f g t t') : t.numNodes = t'.numNodes := by
  induction h with
  | nil => rfl
  | node _ _ _ _ _ ihl ihr => rw [BinaryTree.numNodes, ihl, ihr, BinaryTree.numNodes]

theorem items_perm (h : Alike lo f g t t') : ((items t).map f).Perm ((items t').map g) := by
  induction h with
  | nil => exact .nil
  | node _ hown _ _ _ ihl ihr =>
    simp only [items_node, List.map_append]
    exact hown.append (ihl.append ihr)

theorem length_items_eq (h : Alike lo f g t t') : (items t).length = (items t').length := by
  simpa using h.items_perm.length_eq

theorem items_map_lo (h : Alike lo f g t t') :
    (items t).map (lo ∘ f) = (items t').map (lo ∘ g) := by
  induction h with
  | nil => rfl
  | node _ _ hlo _ _ ihl ihr => simp only [items_node, List.map_append, hlo, ihl, ihr]

end Alike

/-! ## Sorted lists with the same keys -/

theorem filter_map_perm {xs : List α} {ys : List β} (p : γ → Bool)
    (h : (xs.map f).Perm (ys.map g)) :
    ((xs.filter (p ∘ f)).map f).Perm ((ys.filter (p ∘ g)).map g) := by
  rw [← List.filter_map, ← List.filter_map]
  exact h.filter p

variable [LinearOrder T] {lo hi : γ → T}

/-- Ties are invisible to the sort key. -/
theorem map_eq_of_perm {xs : List α} {ys : List β} (h : (xs.map f).Perm (ys.map g))
    (hs : xs.Pairwise fun a b => lo (f a) ≤ lo (f b))
    (hs' : ys.Pairwise fun a b => lo (g a) ≤ lo (g b)) :
    xs.map (lo ∘ f) = ys.map (lo ∘ g) := by
  have hlo : (xs.map (lo ∘ f)).Perm (ys.map (lo ∘ g)) := by simpa using h.map lo
  apply hlo.eq_of_pairwise' (r := (· ≤ ·))
  · exact List.pairwise_map.mpr hs
  · exact List.pairwise_map.mpr hs'

/-- **Both runs split alike.** -/
theorem IsBuild.alike {xs : List α} {ys : List β} {t : BinaryTree (Center T α)}
    {t' : BinaryTree (Center T β)} (h : IsBuild (lo ∘ f) (hi ∘ f) xs t)
    (h' : IsBuild (lo ∘ g) (hi ∘ g) ys t') (hperm : (xs.map f).Perm (ys.map g))
    (hs : xs.Pairwise fun a b => lo (f a) ≤ lo (f b))
    (hs' : ys.Pairwise fun a b => lo (g a) ≤ lo (g b)) : Alike lo f g t t' := by
  have hlen {xs : List α} {ys : List β} (hperm : (xs.map f).Perm (ys.map g)) :
      xs.length = ys.length := by simpa using hperm.length_eq
  induction h generalizing ys t' with
  | nil =>
    cases h' with
    | nil => exact .nil
    | node hm => rw [List.eq_nil_of_length_eq_zero (hlen hperm).symm] at hm; cases hm
  | @node xs m l r hm hl hr ihl ihr =>
    cases h' with
    | nil => rw [List.eq_nil_of_length_eq_zero (hlen hperm)] at hm; cases hm
    | @node _ m' l' r' hm' hl' hr' =>
      -- the items in the middle may be two, their starts are one
      have hpivot : lo (f m) = lo (g m') := by
        have hmid := congrArg (·[xs.length / 2]?) (map_eq_of_perm hperm hs hs')
        rw [← hlen hperm] at hm'
        simpa [hm, hm'] using hmid
      have hown := filter_map_perm
        (fun k => decide (¬hi k ≤ lo (f m) ∧ ¬lo (f m) < lo k)) hperm
      have hleft := filter_map_perm (fun k => decide (hi k ≤ lo (f m))) hperm
      have hright := filter_map_perm
        (fun k => decide (¬hi k ≤ lo (f m) ∧ lo (f m) < lo k)) hperm
      simp only [Function.comp_apply, ← hpivot] at hl' hr' ⊢
      refine .node rfl hown (map_eq_of_perm hown (hs.filter _) (hs'.filter _)) ?_ ?_
      · exact ihl hl' hleft (hs.filter _) (hs'.filter _)
      · exact ihr hr' hright (hs.filter _) (hs'.filter _)

end CenterTree
