import SimdIntervalTree.Lib.Iterator

/-!
# Iterator adapters

An adapter makes an iterator out of others and is as lazy as they are: a call draws on its parts
until it has an element to return. What an adapter yields is the list operation of its name applied
to what its parts yield.

The loop of `filter_map` is bounded by fuel. It never discards more elements in a row than there
are to discard at all.
-/

namespace Exec

variable {ι κ α β : Type}

/-! ## More steps -/

/-- Whatever returns more often yields the same. -/
theorem Yields.mono {next next' : ι → Exec (Option α × ι)} {it last : ι} {as : List α}
    (H : ∀ it r, next it = .ok r → next' it = .ok r) (h : Yields next it as last) :
    Yields next' it as last := by
  induction h with
  | done e => exact .done (H _ _ e)
  | item e _ ih => exact .item (H _ _ e) ih

/-! ## Slices -/

def sliceNext : List α → Exec (Option α × List α)
  | [] => return (none, [])
  | a :: as => return (some a, as)

theorem yields_slice (as : List α) : Yields sliceNext as as [] := by
  induction as with
  | nil => exact .done rfl
  | cons a as ih => exact .item rfl ih

theorem stable_slice : Stable (sliceNext : List α → _) := by
  intro as last h
  cases as with
  | nil =>
    cases h
    rfl
  | cons => cases h

variable {next : ι → Exec (Option α × ι)} {it last : ι} {as : List α}

/-! ## `map` -/

def mapNext (f : α → β) (next : ι → Exec (Option α × ι)) (it : ι) : Exec (Option β × ι) := do
  let (a, it) ← next it
  return (a.map f, it)

theorem Yields.map (f : α → β) (h : Yields next it as last) :
    Yields (mapNext f next) it (as.map f) last := by
  induction h with
  | done e => exact .done (by rw [mapNext, e]; rfl)
  | item e _ ih => exact .item (by rw [mapNext, e]; rfl) ih

theorem Stable.map (f : α → β) (h : Stable next) : Stable (mapNext f next) := by
  intro it last hnone
  obtain ⟨⟨a, it'⟩, hnext, hmap⟩ := bind_eq_ok.mp hnone
  cases a with
  | none =>
    cases hmap
    rw [mapNext, h _ _ hnext]
    rfl
  | some => cases hmap

/-! ## `filter_map` and `filter` -/

def filterMapNext (f : α → Option β) (next : ι → Exec (Option α × ι)) :
    Nat → ι → Exec (Option β × ι)
  | 0, _ => .error .fuel
  | fuel + 1, it => do
    match ← next it with
    | (none, it) => return (none, it)
    | (some a, it) =>
      match f a with
      | some b => return (some b, it)
      | none => filterMapNext f next fuel it

def filterNext (p : α → Bool) (next : ι → Exec (Option α × ι)) :
    Nat → ι → Exec (Option α × ι) :=
  filterMapNext (Option.guard (p ·)) next

theorem filterMapNext_succ {f : α → Option β} {fuel : Nat} {r : Option β × ι}
    (h : filterMapNext f next fuel it = .ok r) : filterMapNext f next (fuel + 1) it = .ok r := by
  induction fuel generalizing it with
  | zero => cases h
  | succ fuel ih =>
    obtain ⟨⟨a, it'⟩, hnext, h⟩ := bind_eq_ok.mp h
    rw [filterMapNext, hnext, ok_bind]
    cases a with
    | none => exact h
    | some a =>
      dsimp only at h ⊢
      cases hf : f a with
      | none =>
        rw [hf] at h
        exact ih h
      | some b =>
        rw [hf] at h
        exact h

theorem Yields.filterMap (f : α → Option β) (h : Yields next it as last) {fuel : Nat}
    (hf : as.countP (fun a => (f a).isNone) < fuel) :
    Yields (filterMapNext f next fuel) it (as.filterMap f) last := by
  induction h generalizing fuel with
  | done e =>
    obtain ⟨fuel, rfl⟩ : ∃ k, fuel = k + 1 := ⟨fuel - 1, by omega⟩
    exact .done (by rw [filterMapNext, e]; rfl)
  | @item it a it' as last e _ ih =>
    obtain ⟨fuel, rfl⟩ : ∃ k, fuel = k + 1 := ⟨fuel - 1, by omega⟩
    cases hfa : f a with
    | some b =>
      rw [List.filterMap_cons_some hfa]
      rw [List.countP_cons_of_neg (by rw [hfa]; nofun)] at hf
      exact .item (by rw [filterMapNext, e, ok_bind]; simp only [hfa]; rfl) (ih hf)
    | none =>
      rw [List.filterMap_cons_none hfa]
      rw [List.countP_cons_of_pos (by rw [hfa]; rfl)] at hf
      have hstep : filterMapNext f next (fuel + 1) it = filterMapNext f next fuel it' := by
        rw [filterMapNext, e, ok_bind]
        simp only [hfa]
      -- the rest of the call has one round less, the calls that follow all rounds again
      generalize as.filterMap f = bs at ih
      cases ih (show _ < fuel by omega) with
      | done hnone => exact .done (hstep.trans hnone)
      | item hsome htail =>
        exact .item (hstep.trans hsome) (htail.mono fun _ _ => filterMapNext_succ)

theorem Stable.filterMap (f : α → Option β) (h : Stable next) (fuel : Nat) :
    Stable (filterMapNext f next fuel) := by
  intro it last hnone
  induction fuel generalizing it with
  | zero => cases hnone
  | succ fuel ih =>
    obtain ⟨⟨a, it'⟩, hnext, hmatch⟩ := bind_eq_ok.mp hnone
    cases a with
    | none =>
      cases hmatch
      rw [filterMapNext, h _ _ hnext]
      rfl
    | some a =>
      dsimp only at hmatch
      cases hfa : f a with
      | none =>
        rw [hfa] at hmatch
        exact filterMapNext_succ (ih _ hmatch)
      | some b =>
        rw [hfa] at hmatch
        cases hmatch

theorem Yields.filter (p : α → Bool) (h : Yields next it as last) {fuel : Nat}
    (hf : as.length < fuel) : Yields (filterNext p next fuel) it (as.filter p) last := by
  rw [← List.filterMap_eq_filter]
  exact h.filterMap _ (List.countP_le_length.trans_lt hf)

/-! ## `chain` -/

/-- The first part is dropped once it has returned `None`. -/
structure Chain (ι κ : Type) where
  a : Option ι
  b : κ

def chainNextB (nextB : κ → Exec (Option α × κ)) (b : κ) : Exec (Option α × Chain ι κ) := do
  let (x, b) ← nextB b
  return (x, ⟨none, b⟩)

def chainNext (nextA : ι → Exec (Option α × ι)) (nextB : κ → Exec (Option α × κ))
    (self : Chain ι κ) : Exec (Option α × Chain ι κ) :=
  match self.a with
  | none => chainNextB nextB self.b
  | some a => do
    match ← nextA a with
    | (some x, a) => return (some x, { self with a := some a })
    | (none, _) => chainNextB nextB self.b

variable {nextB : κ → Exec (Option α × κ)} {b lastB : κ} {bs : List α}

theorem chainNext_second : chainNext next nextB ⟨none, b⟩ = chainNextB nextB b := rfl

theorem chainNext_of_none (h : next it = .ok (none, last)) :
    chainNext next nextB ⟨some it, b⟩ = chainNextB nextB b := by
  simp only [chainNext, h, ok_bind]

theorem Yields.chain_second (h : Yields nextB b bs lastB) :
    Yields (chainNext next nextB) ⟨none, b⟩ bs ⟨none, lastB⟩ := by
  induction h with
  | done e => exact .done (by rw [chainNext_second, chainNextB, e]; rfl)
  | item e _ ih => exact .item (by rw [chainNext_second, chainNextB, e]; rfl) ih

theorem Yields.chain (h : Yields next it as last) (hb : Yields nextB b bs lastB) :
    Yields (chainNext next nextB) ⟨some it, b⟩ (as ++ bs) ⟨none, lastB⟩ := by
  induction h with
  | done e =>
    rw [List.nil_append]
    have hsecond : Yields (chainNext next nextB) ⟨none, b⟩ bs ⟨none, lastB⟩ := hb.chain_second
    cases hsecond with
    | done eb => exact .done ((chainNext_of_none e).trans eb)
    | item eb hb => exact .item ((chainNext_of_none e).trans eb) hb
  | item e _ ih => exact .item (by simp only [chainNext, e, ok_bind]; rfl) ih

theorem Stable.chain (hb : Stable nextB) : Stable (chainNext next nextB) := by
  have hsecond {b : κ} {last : Chain ι κ} (h : chainNextB nextB b = .ok (none, last)) :
      chainNext next nextB last = .ok (none, last) := by
    obtain ⟨⟨x, b'⟩, hnext, hlast⟩ := bind_eq_ok.mp h
    cases hlast
    rw [chainNext_second, chainNextB, hb _ _ hnext]
    rfl
  intro self last h
  rw [chainNext] at h
  split at h
  · exact hsecond h
  · obtain ⟨⟨x, a⟩, hnext, h⟩ := bind_eq_ok.mp h
    cases x with
    | none => exact hsecond h
    | some => cases h

end Exec
