import Calvera.Lib.Ring
import Mathlib.Tactic.NormNum

/-!
# Masks and shifts of two's complement words

A ring of `2 ^ e` slots finds the slot of a sequence by masking the low `e`
bits, whatever the sign of the sequence, and its round by an arithmetic shift:

* `mask_toNat` and `and_mask_toNat` — the mask is `slotOf`, on the natural
  number a word stands for and on the word;
* `shift_parity` — the lowest bit of the shifted sequence is `oddRound`;
* `word_bit_inj` — a slot is found again from its word and its bit.
-/

namespace Calvera.Lib

variable {w e : Nat}

/-- Truncating to `w` bits does not change what the low `e` bits say. -/
theorem emod_two_pow_emod (he : e ≤ w) (s : Int) :
    s % 2 ^ w % ((2 ^ e : Nat) : Int) = s % (2 ^ e : Nat) := by
  apply Int.emod_emod_of_dvd
  have hDvd : (2 : Nat) ^ e ∣ 2 ^ w := Nat.pow_dvd_pow 2 he
  exact_mod_cast hDvd

/-- Masking the low `e` bits of a truncated sequence. -/
theorem mask_toNat (he : e ≤ w) (s : Int) :
    (s % 2 ^ w).toNat &&& (2 ^ e - 1) = slotOf (2 ^ e) s := by
  have hNonneg : 0 ≤ s % 2 ^ w := Int.emod_nonneg _ (by positivity)
  have hCast : ((s % 2 ^ w).toNat : Int) = s % 2 ^ w := Int.toNat_of_nonneg hNonneg
  have hMod : (((s % 2 ^ w).toNat % 2 ^ e : Nat) : Int) = s % (2 ^ e : Nat) := by
    rw [Int.natCast_emod, hCast, emod_two_pow_emod he]
  rw [Nat.and_two_pow_sub_one_eq_mod, slotOf]
  omega

/-- The same on words. -/
theorem and_mask_toNat (he : e ≤ w) (s : Int) {mask : BitVec w}
    (hMask : mask.toNat = 2 ^ e - 1) :
    (BitVec.ofInt w s &&& mask).toNat = slotOf (2 ^ e) s := by
  rw [BitVec.toNat_and, hMask, BitVec.toNat_ofInt, ← mask_toNat he]
  norm_cast

/-- The lowest bit of the shifted sequence is the parity of the round. -/
theorem shift_parity (hw : 0 < w) (s : Int) :
    BitVec.ofInt w (s >>> e) &&& 1#w = if oddRound (2 ^ e) s then 1#w else 0#w := by
  have hShift : s >>> e = s / ((2 ^ e : Nat) : Int) := Int.shiftRight_eq_div_pow s e
  have hOne : (1#w).toNat = 1 := by
    rw [BitVec.toNat_ofNat]
    exact Nat.mod_eq_of_lt (Nat.one_lt_two_pow (by omega))
  rw [hShift, oddRound]
  generalize s / ((2 ^ e : Nat) : Int) = round
  have hTwo : (2 : Int) ∣ 2 ^ w := dvd_pow_self 2 (by omega)
  have hParity : round % 2 ^ w % 2 = round % 2 := Int.emod_emod_of_dvd round hTwo
  have hNonneg : 0 ≤ round % 2 ^ w := Int.emod_nonneg _ (by positivity)
  have hBit : (BitVec.ofInt w round &&& 1#w).toNat = (round % 2 ^ w).toNat % 2 := by
    rw [BitVec.toNat_and, BitVec.toNat_ofInt, hOne, Nat.and_one_is_mod]
    norm_cast
  apply BitVec.eq_of_toNat_eq
  rw [hBit]
  split <;> rename_i hOdd <;> simp only [decide_eq_true_eq] at hOdd
  · rw [hOne]
    omega
  · rw [BitVec.toNat_zero]
    omega

/-- Words of `w` bits: word and bit tell slots apart. -/
theorem word_bit_inj {i j : Nat} : (i / w, i % w) = (j / w, j % w) ↔ i = j := by
  rw [Prod.mk.injEq]
  constructor
  · rintro ⟨hWord, hBit⟩
    rw [← Nat.div_add_mod i w, ← Nat.div_add_mod j w, hWord, hBit]
  · rintro rfl
    exact ⟨rfl, rfl⟩

end Calvera.Lib
