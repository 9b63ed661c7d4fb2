import SimdIntervalTree.Model.Mutable

/-!
# IDs

Below `2 ^ 32` slots an ID is a pair of a slot and a generation. A slot beyond that spills into the
generation.
-/

namespace SimdIntervalTree

/-- The number of slots that fit into an ID. -/
def SLOT_LIMIT : Nat := 2 ^ 32

namespace IntervalId

variable {slot : Nat} {g : UInt32} {id id' : IntervalId}

theorem slot_eq (id : IntervalId) : id.slot = id.raw.toNat % 2 ^ 32 := by
  rw [IntervalId.slot, UInt64.toNat_and]
  exact Nat.and_two_pow_sub_one_eq_mod id.raw.toNat 32

theorem toNat_generation (id : IntervalId) : id.generation.toNat = id.raw.toNat / 2 ^ 32 := by
  have h : id.raw.toNat < 2 ^ 64 := id.raw.toNat_lt
  rw [generation, UInt64.toNat_toUInt32, UInt64.toNat_shiftRight, Nat.shiftRight_eq_div_pow]
  exact Nat.mod_eq_of_lt (Nat.div_lt_of_lt_mul h)

theorem slot_lt (id : IntervalId) : id.slot < SLOT_LIMIT := by
  rw [slot_eq]
  exact Nat.mod_lt _ (by decide)

theorem toNat_raw_new (h : slot < SLOT_LIMIT) :
    (new slot g).raw.toNat = g.toNat * 2 ^ 32 + slot := by
  have hslot : slot < 2 ^ 32 := h
  have hg : g.toNat < 2 ^ 32 := g.toNat_lt
  have hshift : (g.toUInt64 <<< 32).toNat = g.toNat <<< 32 := by
    have h32 : (32 : UInt64).toNat % 64 = 32 := rfl
    rw [UInt64.toNat_shiftLeft, UInt32.toNat_toUInt64, h32, Nat.shiftLeft_eq]
    apply Nat.mod_eq_of_lt
    omega
  rw [new, UInt64.toNat_or, hshift, UInt64.toNat_ofNat_of_lt' (hslot.trans (by decide)),
    ← Nat.shiftLeft_add_eq_or_of_lt hslot, Nat.shiftLeft_eq]

@[simp] theorem slot_new (h : slot < SLOT_LIMIT) : (new slot g).slot = slot := by
  rw [slot_eq, toNat_raw_new h, Nat.mul_comm, Nat.mul_add_mod]
  exact Nat.mod_eq_of_lt h

@[simp] theorem generation_new (h : slot < SLOT_LIMIT) : (new slot g).generation = g := by
  apply UInt32.toNat_inj.mp
  rw [toNat_generation, toNat_raw_new h]
  rw [SLOT_LIMIT] at h
  omega

theorem ext' (hslot : id.slot = id'.slot) (hgen : id.generation = id'.generation) : id = id' := by
  have h := congrArg UInt32.toNat hgen
  rw [toNat_generation, toNat_generation] at h
  rw [slot_eq, slot_eq] at hslot
  have hraw : id.raw = id'.raw := by
    apply UInt64.toNat_inj.mp
    rw [← Nat.div_add_mod id.raw.toNat (2 ^ 32), h, hslot, Nat.div_add_mod]
  cases id
  exact congrArg mk hraw

theorem new_slot_generation (id : IntervalId) : new id.slot id.generation = id :=
  ext' (slot_new id.slot_lt) (generation_new id.slot_lt)

theorem new_inj {slot' : Nat} {g' : UInt32} (h : slot < SLOT_LIMIT) (h' : slot' < SLOT_LIMIT) :
    new slot g = new slot' g' ↔ slot = slot' ∧ g = g' := by
  constructor
  · intro e
    have hslot := congrArg IntervalId.slot e
    have hgen := congrArg generation e
    rw [slot_new h, slot_new h'] at hslot
    rw [generation_new h, generation_new h'] at hgen
    exact ⟨hslot, hgen⟩
  · rintro ⟨rfl, rfl⟩
    rfl

end IntervalId

end SimdIntervalTree
