/-
# The blob gas price is exact

`calc_blob_gas_price` runs the loop of `fake_exponential` on words of 256 bits, with a divisor of
64. `naturalRounds` is the same loop on natural numbers, as EIP-4844 states it.  With the excess at
most a hundred times the update fraction `d`, the term of round `i` is at most `d · 100 ^ i / i!`
(`term_step`): it stays below `2 ^ 177`, and it is zero after 300 rounds.  So nothing wraps in any
round (`RoundsFit`), and the two loops go in step (`rounds_eq`).
-/
import Zilkworm.Protocol.Validation
import Mathlib.Data.Nat.Factorial.Basic

namespace Zilkworm.Protocol

open Lib Rlp Zilkworm.Types State Chain

/-- The loop of EIP-4844's `fake_exponential`, from round `i` on, if it ends within `rounds` rounds.
-/
def naturalRounds (numerator denominator : ℕ) : (rounds i output accum : ℕ) → Option ℕ
  | 0, _, _, _ => none
  | rounds + 1, i, output, accum =>
    if accum = 0 then some output
    else naturalRounds numerator denominator rounds (i + 1) (output + accum)
      (accum * numerator / (denominator * i))

/-- EIP-4844's `fake_exponential`, if its loop ends within `rounds` rounds. -/
def naturalExponential (rounds factor numerator denominator : ℕ) : Option ℕ :=
  (naturalRounds numerator denominator rounds 1 0 (factor * denominator)).map (· / denominator)

/-- In no round from `i` on do the sum and the product exceed 256 bits, or the divisor 64. -/
def RoundsFit (numerator denominator : ℕ) : (rounds i output accum : ℕ) → Prop
  | 0, _, _, _ => True
  | rounds + 1, i, output, accum =>
    accum = 0 ∨ (output + accum < 2 ^ 256 ∧ accum * numerator < 2 ^ 256 ∧ denominator * i < 2 ^ 64 ∧
      RoundsFit numerator denominator rounds (i + 1) (output + accum)
        (accum * numerator / (denominator * i)))

section Terms

variable {e d i accum : ℕ}

/-- **The bound on the terms**: `100 ^ i / i!` times the first one. -/
theorem term_step (hd : 0 < d) (he : e ≤ 100 * d) (h : accum * i.factorial ≤ d * 100 ^ i) :
    accum * e / (d * (i + 1)) * (i + 1).factorial ≤ d * 100 ^ (i + 1) := by
  have hquot : accum * e / (d * (i + 1)) * (i + 1) ≤ accum * 100 := by
    have hdiv : accum * e / (d * (i + 1)) * (d * (i + 1)) ≤ accum * e := Nat.div_mul_le_self _ _
    have hmul : accum * e ≤ accum * 100 * d := by
      rw [Nat.mul_assoc]
      exact Nat.mul_le_mul_left _ he
    refine Nat.le_of_mul_le_mul_right ?_ hd
    calc accum * e / (d * (i + 1)) * (i + 1) * d = accum * e / (d * (i + 1)) * (d * (i + 1)) := by ring
      _ ≤ accum * 100 * d := hdiv.trans hmul
  calc accum * e / (d * (i + 1)) * (i + 1).factorial
      = accum * e / (d * (i + 1)) * (i + 1) * i.factorial := by rw [Nat.factorial_succ, Nat.mul_assoc]
    _ ≤ accum * 100 * i.factorial := Nat.mul_le_mul_right _ hquot
    _ = accum * i.factorial * 100 := by ring
    _ ≤ d * 100 ^ i * 100 := Nat.mul_le_mul_right _ h
    _ = d * 100 ^ (i + 1) := by rw [Nat.pow_succ, Nat.mul_assoc]

theorem pow_le_factorial : ∀ i ≤ 300, 100 ^ i ≤ 2 ^ 145 * i.factorial := by
  decide +kernel

theorem term_lt (hd : d < 2 ^ 32) (hi : i ≤ 300) (h : accum * i.factorial ≤ d * 100 ^ i) :
    accum < 2 ^ 177 := by
  have hpow := pow_le_factorial i hi
  have hlt : d * (2 ^ 145 * i.factorial) < 2 ^ 177 * i.factorial := by
    calc d * (2 ^ 145 * i.factorial) < 2 ^ 32 * (2 ^ 145 * i.factorial) :=
          Nat.mul_lt_mul_of_pos_right hd (Nat.mul_pos (by decide) i.factorial_pos)
      _ = 2 ^ 177 * i.factorial := by ring
  exact Nat.lt_of_mul_lt_mul_right ((h.trans (Nat.mul_le_mul_left _ hpow)).trans_lt hlt)

theorem term_zero (hd : d < 2 ^ 32) (h : accum * Nat.factorial 300 ≤ d * 100 ^ 300) : accum = 0 := by
  have hfact : 2 ^ 32 * 100 ^ 300 ≤ Nat.factorial 300 := by decide +kernel
  have hlt : accum * Nat.factorial 300 < 1 * Nat.factorial 300 := by
    rw [Nat.one_mul]
    exact (h.trans_lt (Nat.mul_lt_mul_of_pos_right hd (by positivity))).trans_le hfact
  exact Nat.lt_one_iff.mp (Nat.lt_of_mul_lt_mul_right hlt)

/-- **Within the bound the natural loop ends and nothing wraps.** -/
theorem naturalRounds_ends (hd : 0 < d) (hd' : d < 2 ^ 32) (he : e ≤ 100 * d) {k output : ℕ}
    (hk : k + i = 300) (hout : output ≤ i * 2 ^ 177) (h : accum * i.factorial ≤ d * 100 ^ i) :
    ∃ r, naturalRounds e d (k + 1) (i + 1) output accum = some r ∧
      RoundsFit e d (k + 1) (i + 1) output accum := by
  induction k generalizing i output accum with
  | zero =>
    obtain rfl : i = 300 := by omega
    exact ⟨output, by rw [naturalRounds, if_pos (term_zero hd' h)], .inl (term_zero hd' h)⟩
  | succ k ih =>
    have hlt := term_lt hd' (by omega) h
    have hprod : accum * e < 2 ^ 177 * 2 ^ 39 :=
      Nat.mul_lt_mul'' hlt (by omega)
    have hdiv : d * (i + 1) < 2 ^ 32 * 2 ^ 32 := Nat.mul_lt_mul'' hd' (by omega)
    rw [naturalRounds, RoundsFit]
    split_ifs with hzero
    · exact ⟨output, rfl, .inl hzero⟩
    · obtain ⟨r, hrun, hfit⟩ := @ih (i + 1) _ (output + accum) (by omega) (by omega) (term_step hd he h)
      exact ⟨r, hrun, .inr ⟨by omega, by omega, by omega, hfit⟩⟩

/-- **The loop on words goes in step** with the one on numbers as long as nothing wraps. -/
theorem rounds_eq {rounds fuel output r : ℕ} (hd : d < 2 ^ 32) (hi : 0 < i) (hd0 : 0 < d)
    (hfuel : rounds ≤ fuel) (hout : output < 2 ^ 256) (hacc : accum < 2 ^ 256) (he : e < 2 ^ 256)
    (hrun : naturalRounds e d rounds i output accum = some r)
    (hfit : RoundsFit e d rounds i output accum) :
    r < 2 ^ 256 ∧
      fakeExponentialRounds (BitVec.ofNat 256 e) (fakeExponentialDivisor (BitVec.ofNat 256 d)) fuel i
      (BitVec.ofNat 256 output) (BitVec.ofNat 256 accum) = BitVec.ofNat 256 r := by
  induction rounds generalizing i output accum fuel with
  | zero => cases hrun
  | succ rounds ih =>
    obtain ⟨fuel, rfl⟩ := Nat.exists_eq_add_of_le' (show 1 ≤ fuel by omega)
    have hzero : BitVec.ofNat 256 accum = 0 ↔ accum = 0 := by
      rw [← BitVec.toNat_inj, BitVec.toNat_ofNat, Nat.mod_eq_of_lt hacc]
      rfl
    rw [naturalRounds] at hrun
    rw [fakeExponentialRounds]
    split_ifs at hrun with ha
    · rw [if_pos (hzero.mpr ha), ← Option.some.inj hrun]
      exact ⟨hout, rfl⟩
    · obtain ⟨hsum, hprod, hdiv, hrest⟩ := hfit.resolve_left ha
      have hword : BitVec.ofNat 256 d ≤ 0xffffffff := by
        rw [BitVec.le_def, BitVec.toNat_ofNat, Nat.mod_eq_of_lt (by omega)]
        show d ≤ 0xffffffff
        omega
      have hdivisor : (fakeExponentialDivisor (BitVec.ofNat 256 d) i).toNat = d * i := by
        have hi64 : i < 2 ^ 64 := lt_of_le_of_lt (Nat.le_mul_of_pos_left i hd0) hdiv
        rw [fakeExponentialDivisor, if_pos hword, BitVec.toNat_setWidth, BitVec.toNat_mul,
          BitVec.toNat_setWidth,
          BitVec.toNat_ofNat, BitVec.toNat_ofNat, Nat.mod_eq_of_lt (show d < 2 ^ 256 by omega),
          Nat.mod_eq_of_lt (show d < 2 ^ 64 by omega), Nat.mod_eq_of_lt hi64, Nat.mod_eq_of_lt hdiv,
          Nat.mod_eq_of_lt (by omega)]
      have hterm : BitVec.ofNat 256 accum * BitVec.ofNat 256 e / fakeExponentialDivisor
          (BitVec.ofNat 256 d) i =
          BitVec.ofNat 256 (accum * e / (d * i)) := by
        have hquot : accum * e / (d * i) < 2 ^ 256 := (Nat.div_le_self _ _).trans_lt hprod
        rw [← BitVec.toNat_inj, BitVec.toNat_udiv, hdivisor, BitVec.toNat_mul, BitVec.toNat_ofNat,
          BitVec.toNat_ofNat,
          BitVec.toNat_ofNat, Nat.mod_eq_of_lt hacc, Nat.mod_eq_of_lt he, Nat.mod_eq_of_lt hprod,
          Nat.mod_eq_of_lt hquot]
      rw [if_neg (mt hzero.mp ha), hterm, ← BitVec.ofNat_add]
      exact ih (by omega) (by omega) hsum ((Nat.div_le_self _ _).trans_lt hprod) hrun hrest

end Terms

/-- **The blob gas price is exact.**  For every update fraction of 32 bits and every excess up to a
hundred times it, EIP-4844's loop on natural numbers ends within 301 rounds, no sum or product of
any round exceeds 256 bits and no divisor 64, and `calc_blob_gas_price` is the value of that loop.
-/
theorem calcBlobGasPrice_exact (p : BlobParams) (excessBlobGas : U64) (hd : 1 ≤ p.baseFeeUpdateFraction)
    (hd' : p.baseFeeUpdateFraction < 2 ^ 32) (he : excessBlobGas.toNat ≤ 100 * p.baseFeeUpdateFraction) :
    RoundsFit excessBlobGas.toNat p.baseFeeUpdateFraction 301 1 0 (1 * p.baseFeeUpdateFraction) ∧
    naturalExponential 301 1 excessBlobGas.toNat p.baseFeeUpdateFraction =
      some (calcBlobGasPrice excessBlobGas p).toNat := by
  rw [Nat.one_mul]
  obtain ⟨r, hrun, hfit⟩ :=
    @naturalRounds_ends excessBlobGas.toNat p.baseFeeUpdateFraction 0 p.baseFeeUpdateFraction hd hd'
    he 300 0 rfl (Nat.zero_le _) (by rw [Nat.factorial_zero, Nat.pow_zero])
  have he' : excessBlobGas.toNat < 2 ^ 256 := excessBlobGas.isLt.trans (by decide)
  obtain ⟨hr, hloop⟩ := rounds_eq hd' Nat.one_pos hd (show 300 + 1 ≤ 2 ^ 32 - 1 by decide)
    (by decide) (by omega) he' hrun hfit
  change fakeExponentialRounds _ _ _ 1 0 _ = _ at hloop
  have hnumerator : excessBlobGas.setWidth 256 = BitVec.ofNat 256 excessBlobGas.toNat :=
    BitVec.eq_of_toNat_eq (by rw [BitVec.toNat_setWidth, BitVec.toNat_ofNat])
  have hfirst : 1 * BitVec.ofNat 256 p.baseFeeUpdateFraction =
      BitVec.ofNat 256 p.baseFeeUpdateFraction := BitVec.one_mul _
  refine ⟨hfit, ?_⟩
  rw [naturalExponential, Nat.one_mul, hrun, Option.map_some, calcBlobGasPrice, fakeExponential,
    hnumerator, hfirst, hloop,
    BitVec.toNat_udiv, BitVec.toNat_ofNat, BitVec.toNat_ofNat, Nat.mod_eq_of_lt hr,
      Nat.mod_eq_of_lt (by omega)]

/-- The theorem at an update fraction of the protocol and an excess of three times it. -/
theorem calcBlobGasPrice_exact_three :
    RoundsFit 10016430 3338810 301 1 0 (1 * 3338810) ∧
    naturalExponential 301 1 10016430 3338810 = some 20 ∧
    naturalExponential 301 1 10016430 3338810 =
      some (calcBlobGasPrice 10016430 { baseFeeUpdateFraction := 3338810 }).toNat := by
  have h := calcBlobGasPrice_exact { baseFeeUpdateFraction := 3338810 } 10016430 (by decide)
    (by decide) (by decide)
  exact ⟨h.1, by decide +kernel, h.2⟩

end Zilkworm.Protocol
