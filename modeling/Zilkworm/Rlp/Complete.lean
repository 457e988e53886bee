/-
# RLP headers are read back

The other direction of `Zilkworm.Rlp.Primitives`: what `encode_header` and `encode` of a byte
string write, `decode_header` accepts, whatever follows.  A header that was accepted is accepted
again when bytes are added behind the item.
-/
import Zilkworm.Rlp.Lists

namespace Zilkworm.Rlp

open List Lib

variable {n : ℕ} {rest : Bytes} {h : Header}

/-- The digits of a number do not end in zero. -/
theorem leDigits_getLast_ne_zero {fuel : ℕ} (hf : n ≤ fuel) {x : UInt8}
    (h : (leDigits fuel n).getLast? = some x) : x ≠ 0 := by
  induction fuel generalizing n with
  | zero => cases h
  | succ fuel ih =>
    unfold leDigits at h
    split at h
    · cases h
    · rename_i hn
      rw [getLast?_cons] at h
      rcases hd : (leDigits fuel (n / 256)).getLast? with _ | y
      · -- the digit is the last one, so it is the whole number
        rw [hd, Option.getD_none, Option.some.injEq] at h
        rw [getLast?_eq_none_iff] at hd
        have hval := leNat_leDigits (show n / 256 ≤ fuel by omega)
        rw [hd] at hval
        rintro rfl
        have hx := congrArg UInt8.toNat h
        rw [UInt8.toNat_ofNat'] at hx
        simp only [leNat, UInt8.toNat_zero] at hval hx
        omega
      · rw [hd, Option.getD_some, Option.some.injEq] at h
        exact ih (by omega) (h ▸ hd)

theorem toBigCompact_head_ne_zero {x : UInt8} (h : (toBigCompact n).head? = some x) : x ≠ 0 := by
  rw [toBigCompact, head?_reverse] at h
  exact leDigits_getLast_ne_zero le_rfl h

/-- A number that fits is read back from its compact form. -/
theorem fromBigCompact_ok {k : ℕ} (h : n < 256 ^ k) :
    fromBigCompact (8 * k) (toBigCompact n) = .ok (BitVec.ofNat (8 * k) n) := by
  have hlen := toBigCompact_length h
  unfold fromBigCompact
  rw [if_neg (by omega)]
  rcases hb : toBigCompact n with _ | ⟨b, bs⟩
  · have hn := beNat_toBigCompact n
    rw [hb] at hn
    rw [← hn]
    rfl
  · have hhead : b ≠ 0 := toBigCompact_head_ne_zero (n := n) (by rw [hb]; rfl)
    dsimp only
    rw [if_neg hhead, ← hb, beNat_toBigCompact]

theorem decodeLength_ok (h56 : 56 ≤ n) (hn : n < 2 ^ 64) (hlen : n ≤ rest.length) :
    decodeLength (toBigCompact n).length (toBigCompact n ++ rest) = .ok (n, rest) := by
  have hval : (BitVec.ofNat 64 n).toNat = n := by
    rw [BitVec.toNat_ofNat]
    exact Nat.mod_eq_of_lt hn
  have hfrom : fromBigCompact 64 (toBigCompact n) = .ok (BitVec.ofNat 64 n) :=
    fromBigCompact_ok (k := 8) (by omega)
  simp only [decodeLength, bind_eq_ok, rejectIf_eq_ok, pure_eq_ok, Prod.mk.injEq, take_left,
    drop_left]
  refine ⟨(), ?_, _, hfrom, (), ?_, (), ?_, hval, trivial⟩
  · rw [length_append]
    omega
  · rw [hval]
    omega
  · rw [hval]
    omega

/-- **`decode_header` reads what `encode_header` wrote.**  A string of one byte has a header only
when the byte needs one. -/
theorem decodeHeader_encodeHeader (hn : h.payloadLength < 2 ^ 64)
    (hlen : h.payloadLength ≤ rest.length)
    (h1 : h.list = false → h.payloadLength = 1 → ∃ c cs, rest = c :: cs ∧ ¬ c < kEmptyStringCode) :
    decodeHeader (encodeHeader h ++ rest) = .ok (h, rest) := by
  obtain ⟨list, n⟩ := h
  dsimp only at hn hlen h1
  unfold encodeHeader
  dsimp only
  by_cases h56 : n < 56
  · rw [if_pos h56]
    simp only [decodeHeader, cons_append, nil_append, bind_eq_ok, rejectIf_eq_ok, pure_eq_ok]
    refine ⟨(⟨list, n⟩, rest), ?_, (), by dsimp only; omega, rfl⟩
    unfold decodeHeaderByte
    cases list with
    | false =>
      have hb := @toNat_ofNat_byte (0x80 + n) (by omega)
      simp only [Bool.false_eq_true, if_false, UInt8.lt_iff_toNat_lt, hb]
      rw [if_neg (by show ¬ 0x80 + n < 0x80; omega), if_pos (by show 0x80 + n < 0xB8; omega),
        bind_eq_ok]
      refine ⟨(), ?_, by rw [Nat.add_sub_cancel_left]; rfl⟩
      rw [Nat.add_sub_cancel_left]
      unfold checkSingleByte
      split
      · rename_i hone
        obtain ⟨c, cs, rfl, hc⟩ := h1 rfl hone
        dsimp only
        rw [rejectIf_eq_ok]
        exact hc
      · rfl
    | true =>
      have hb := @toNat_ofNat_byte (0xC0 + n) (by omega)
      simp only [if_true, UInt8.lt_iff_toNat_lt, hb]
      rw [if_neg (by show ¬ 0xC0 + n < 0x80; omega), if_neg (by show ¬ 0xC0 + n < 0xB8; omega),
        if_neg (by show ¬ 0xC0 + n < 0xC0; omega), if_pos (by show 0xC0 + n < 0xF8; omega),
        Nat.add_sub_cancel_left]
  · rw [if_neg h56]
    have hk := toBigCompact_length (show n < 256 ^ 8 by omega)
    have hpos := @toBigCompact_pos n (by omega)
    have hdec := @decodeLength_ok n rest (Nat.not_lt.mp h56) hn hlen
    simp only [decodeHeader, cons_append, bind_eq_ok, rejectIf_eq_ok, pure_eq_ok]
    refine ⟨(⟨list, n⟩, rest), ?_, (), by dsimp only; omega, rfl⟩
    unfold decodeHeaderByte
    set k := (toBigCompact n).length
    cases list with
    | false =>
      have hb := @toNat_ofNat_byte (0xB7 + k) (by omega)
      simp only [Bool.false_eq_true, if_false, UInt8.lt_iff_toNat_lt, hb]
      rw [if_neg (by show ¬ 0xB7 + k < 0x80; omega), if_neg (by show ¬ 0xB7 + k < 0xB8; omega),
        if_pos (by show 0xB7 + k < 0xC0; omega), Nat.add_sub_cancel_left, hdec]
      rfl
    | true =>
      have hb := @toNat_ofNat_byte (0xF7 + k) (by omega)
      simp only [if_true, UInt8.lt_iff_toNat_lt, hb]
      rw [if_neg (by show ¬ 0xF7 + k < 0x80; omega), if_neg (by show ¬ 0xF7 + k < 0xB8; omega),
        if_neg (by show ¬ 0xF7 + k < 0xC0; omega), if_neg (by show ¬ 0xF7 + k < 0xF8; omega),
        Nat.add_sub_cancel_left, hdec]
      rfl

/-- The header of a list is read back. -/
theorem decodeHeader_encodeList {payload : Bytes} (rest : Bytes) (hn : payload.length < 2 ^ 64) :
    decodeHeader (encodeList payload ++ rest) = .ok (⟨true, payload.length⟩, payload ++ rest) := by
  rw [encodeList, append_assoc]
  refine decodeHeader_encodeHeader hn ?_ fun h => by cases h
  rw [length_append]
  exact Nat.le_add_right _ _

/-- A byte string is read back, with or without a header. -/
theorem decodeHeader_encodeBytes {s : Bytes} (rest : Bytes) (hn : s.length < 2 ^ 64) :
    decodeHeader (encodeBytes s ++ rest) = .ok (⟨false, s.length⟩, s ++ rest) := by
  have hlen : s.length ≤ (s ++ rest).length := by
    rw [length_append]
    exact Nat.le_add_right _ _
  unfold encodeBytes
  split
  · rename_i b
    split
    · rename_i hb
      show decodeHeader (b :: rest) = .ok (⟨false, 1⟩, b :: rest)
      simp only [decodeHeader, bind_eq_ok, rejectIf_eq_ok, pure_eq_ok]
      refine ⟨(⟨false, 1⟩, b :: rest), ?_, (), by simp, rfl⟩
      exact if_pos hb
    · rename_i hb
      rw [append_assoc]
      exact decodeHeader_encodeHeader (by decide) hlen fun _ _ => ⟨b, rest, rfl, hb⟩
  · rename_i hone
    rw [append_assoc]
    refine decodeHeader_encodeHeader hn hlen fun _ h => ?_
    obtain ⟨b, rfl⟩ := length_eq_one_iff.mp h
    exact absurd rfl (hone b)

/-- A length that was read has 64 bits. -/
theorem decodeHeader_lt {src : Bytes} (hd : decodeHeader src = .ok (h, rest)) :
    h.payloadLength < 2 ^ 64 := by
  have hlength : ∀ {k len : ℕ} {s r : Bytes}, decodeLength k s = .ok (len, r) → len < 2 ^ 64 := by
    intro k len s r hl
    simp only [decodeLength, bind_eq_ok, rejectIf_eq_ok, pure_eq_ok, Prod.mk.injEq] at hl
    obtain ⟨-, -, n, -, -, -, -, -, rfl, -⟩ := hl
    exact n.isLt
  cases src with
  | nil => cases hd
  | cons b bs =>
    simp only [decodeHeader, bind_eq_ok, rejectIf_eq_ok, pure_eq_ok, Prod.mk.injEq] at hd
    obtain ⟨⟨h', rest'⟩, hb, -, -, rfl, rfl⟩ := hd
    have hbyte := b.toNat_lt
    unfold decodeHeaderByte at hb
    split_ifs at hb
    · cases hb
      exact Nat.one_lt_two_pow (by decide)
    · simp only [bind_eq_ok, pure_eq_ok, Prod.mk.injEq] at hb
      obtain ⟨_, -, rfl, -⟩ := hb
      dsimp only
      omega
    · simp only [bind_eq_ok, pure_eq_ok, Prod.mk.injEq] at hb
      obtain ⟨⟨len, r⟩, hl, rfl, -⟩ := hb
      exact hlength hl
    · cases hb
      dsimp only
      omega
    · simp only [bind_eq_ok, pure_eq_ok, Prod.mk.injEq] at hb
      obtain ⟨⟨len, r⟩, hl, rfl, -⟩ := hb
      exact hlength hl

/-- **A header is read alike when more bytes follow.** -/
theorem decodeHeader_append {src : Bytes} (hd : decodeHeader src = .ok (h, rest)) (more : Bytes) :
    decodeHeader (src ++ more) = .ok (h, rest ++ more) := by
  have hlt := decodeHeader_lt hd
  obtain ⟨hlen, ⟨rfl, rfl, b, bs, rfl, hb⟩ | ⟨rfl, hone⟩⟩ := decodeHeader_spec hd
  · have hbyte := decodeHeader_encodeBytes (s := [b]) (bs ++ more) (by simp)
    rw [encodeBytes, if_pos hb] at hbyte
    exact hbyte
  · rw [append_assoc]
    refine decodeHeader_encodeHeader hlt ?_ fun hlist h1 => ?_
    · rw [length_append]
      omega
    · obtain ⟨c, cs, rfl, hc⟩ := hone hlist h1
      exact ⟨c, cs ++ more, rfl, hc⟩

end Zilkworm.Rlp
