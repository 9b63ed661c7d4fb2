import Mathlib

/-!
# Registries

A finite map that hands out its keys. It remembers the keys it has issued, so a key that was erased
is never issued again.
-/

structure Registry (K E : Type) where
  live : Finmap fun _ : K => E
  issued : Set K
  issued_of_mem : ∀ k ∈ live, k ∈ issued

namespace Registry

variable {K E : Type} [DecidableEq K] {m : Registry K E} {k k' : K} {e : E}

def empty : Registry K E := ⟨∅, ∅, fun _ h => absurd h Finmap.notMem_empty⟩

def register (m : Registry K E) (k : K) (e : E) : Registry K E where
  live := m.live.insert k e
  issued := insert k m.issued
  issued_of_mem _ h := (Finmap.mem_insert.mp h).imp id (m.issued_of_mem _)

def erase (m : Registry K E) (k : K) : Registry K E where
  live := m.live.erase k
  issued := m.issued
  issued_of_mem _ h := m.issued_of_mem _ (Finmap.mem_erase.mp h).2

def clear (m : Registry K E) : Registry K E where
  live := ∅
  issued := m.issued
  issued_of_mem _ h := absurd h Finmap.notMem_empty

def len (m : Registry K E) : Nat := m.live.keys.card

/-- `es` enumerates the live entries that satisfy `p`, each once. -/
def Lists (m : Registry K E) (p : E → Prop) (es : List (K × E)) : Prop :=
  (es.map Prod.fst).Nodup ∧ ∀ x, x ∈ es ↔ m.live.lookup x.1 = some x.2 ∧ p x.2

/-- The key was issued and is dead. -/
def Retired (m : Registry K E) (k : K) : Prop := k ∈ m.issued ∧ k ∉ m.live

theorem lookup_register :
    (m.register k e).live.lookup k' = if k' = k then some e else m.live.lookup k' := by
  split
  · subst k'
    exact Finmap.lookup_insert _
  · exact Finmap.lookup_insert_of_ne _ ‹_›

theorem lookup_erase :
    (m.erase k).live.lookup k' = if k' = k then none else m.live.lookup k' := by
  split
  · subst k'
    exact Finmap.lookup_erase _ _
  · exact Finmap.lookup_erase_ne ‹_›

theorem notMem_erase : k ∉ (m.erase k).live := fun h => (Finmap.mem_erase.mp h).1 rfl

theorem mem_live : k ∈ m.live ↔ ∃ e, m.live.lookup k = some e := by
  rw [← Finmap.lookup_isSome, Option.isSome_iff_exists]

/-- The size is the length of an enumeration. -/
theorem Lists.len_eq {es : List (K × E)} (h : m.Lists (fun _ => True) es) : m.len = es.length := by
  have hkeys : m.live.keys = (es.map Prod.fst).toFinset := by
    ext k
    rw [Finmap.mem_keys, mem_live, List.mem_toFinset, List.mem_map]
    constructor
    · rintro ⟨e, he⟩
      exact ⟨(k, e), (h.2 _).mpr ⟨he, trivial⟩, rfl⟩
    · rintro ⟨x, hx, rfl⟩
      exact ⟨x.2, ((h.2 x).mp hx).1⟩
  rw [len, hkeys, List.toFinset_card_of_nodup h.1, List.length_map]

theorem Lists.perm {p : E → Prop} {es es' : List (K × E)} (h : m.Lists p es)
    (h' : m.Lists p es') : es.Perm es' :=
  (List.perm_ext_iff_of_nodup (.of_map _ h.1) (.of_map _ h'.1)).mpr fun x =>
    (h.2 x).trans (h'.2 x).symm

theorem Lists.filter {p : E → Prop} [DecidablePred p] {es : List (K × E)}
    (h : m.Lists (fun _ => True) es) : m.Lists p (es.filter fun x => decide (p x.2)) := by
  refine ⟨(List.filter_sublist.map _).nodup h.1, fun x => ?_⟩
  rw [List.mem_filter, decide_eq_true_eq, h.2, and_true]

/-! ## Retired keys stay retired -/

theorem Retired.lookup (h : m.Retired k) : m.live.lookup k = none :=
  Finmap.lookup_eq_none.mpr h.2

theorem Retired.register (h : m.Retired k) (hk : k' ∉ m.issued) : (m.register k' e).Retired k := by
  refine ⟨.inr h.1, fun hmem => ?_⟩
  rcases Finmap.mem_insert.mp hmem with rfl | hmem
  · exact hk h.1
  · exact h.2 hmem

theorem Retired.erase (h : m.Retired k) : (m.erase k').Retired k :=
  ⟨h.1, fun hmem => h.2 (Finmap.mem_erase.mp hmem).2⟩

omit [DecidableEq K] in
theorem Retired.clear (h : m.Retired k) : m.clear.Retired k := ⟨h.1, Finmap.notMem_empty⟩

end Registry
