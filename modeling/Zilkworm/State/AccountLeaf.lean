/-
# Account leaves

`core/types_zz/account.cpp` has two encoders of an account's leaf.  The generic one goes through
`to_big_compact` and `memcpy`; the one of the 32-bit guest writes the leaf from the words of the
record: integers from their highest word that is not zero on, and hashes at any alignment of the
destination, each word stored made of two words of the source.  Both write the canonical RLP of
`[nonce, balance, storage root, code hash]`, which `decode_trie_account` reads back.

A record keeps its last encoding with the place of the storage root in it, and `rlp_into` copies it
and patches the root in (`Account.CacheOk`).
-/
import Zilkworm.Lib.Words
import Zilkworm.Rlp.Strict
import Zilkworm.State.Evolution
import Zilkworm.State.HashState
import Zilkworm.Witness.SanitizeSpec

namespace Zilkworm.State

open List Lib Rlp Zilkworm.Types Witness

variable {n : ℕ} {b : Bytes}

/-- A word of the 32-bit guest. -/
abbrev Word32 := BitVec (8 * 4)

/-! ## The encoder of the 32-bit guest -/

/-- The `n` words of a word-aligned field. -/
def words : (n : ℕ) → Bytes → List Word32
  | 0, _ => []
  | n + 1, b => wordOf 4 (b.take 4) :: words n (b.drop 4)

/-- The bytes `v >> 24`, `v >> 16`, `v >> 8` and `v`. -/
def bigEndian (v : Word32) : Bytes := (wordBytes v).reverse

/-- How many bytes the highest word of an integer has. -/
def topBytes (top : Word32) : ℕ :=
  if 0x10000 ≤ top.toNat then if 0x1000000 ≤ top.toNat then 4 else 3
  else if 0x100 ≤ top.toNat then 2 else 1

/-- `put_uint_words`: the bytes it writes.  The search for the highest word that is not zero starts
below the words from the third on if these are zero together. -/
def putUintWords (w : List Word32) : Bytes :=
  let low := if 2 < w.length ∧ (w.drop 2).foldl (· ||| ·) 0 = 0 then w.take 2 else w
  match low.reverse.dropWhile (· = 0) with
  | [] => [0x80]
  | top :: rest =>
    if rest = [] ∧ top.toNat < 0x80 then [UInt8.ofNat top.toNat]
    else UInt8.ofNat (0x80 + 4 * rest.length + topBytes top) ::
      (bigEndian top).drop (4 - topBytes top) ++ rest.flatMap bigEndian

/-- The loop of `put_hash_words` and the bytes behind it: `v` holds what is left of the word
before. -/
def putLanes (lead : ℕ) (v : Word32) : List Word32 → Bytes
  | [] => (wordBytes v).take (4 - lead)
  | next :: rest => wordBytes (v ||| next <<< (32 - 8 * lead)) ++
    putLanes lead (next >>> (8 * lead)) rest

/-- `put_hash_words` at address `d`: the bytes it writes. -/
def putHashWords (d : ℕ) (s : List Word32) : Bytes :=
  let off := (d + 1) % 4
  let lead := 4 - off
  0xA0 :: if off = 0 then s.flatMap wordBytes
    else match s with
      | [] => []
      | v :: rest => (wordBytes v).take lead ++ putLanes lead (v >>> (8 * lead)) rest

/-- `encode_account_into` of the 32-bit guest, to address `dst`, with the storage root read at
address `root`. -/
def encodeAccountWords (dst root : ℕ) (nonce : U64) (balance : U256) (codeHash storageRoot : Bytes) :
    Bytes × ℕ :=
  let ints :=
    putUintWords (words 2 (toLe 8 nonce.toNat)) ++ putUintWords (words 8 (toLe 32 balance.toNat))
  let srootOff := 2 + ints.length
  let sroot := if root % 4 = 0 then putHashWords (dst + srootOff) (words 8 storageRoot)
    else 0xA0 :: storageRoot
  let body := ints ++ sroot ++ putHashWords (dst + srootOff + sroot.length) (words 8 codeHash)
  (0xF8 :: UInt8.ofNat body.length :: body, srootOff)

/-! ## Both encoders write the same leaf -/

/-- The words of a field hold its bytes. -/
theorem words_bytes (h : b.length = 4 * n) : (words n b).flatMap wordBytes = b := by
  induction n generalizing b with
  | zero => exact (eq_nil_of_length_eq_zero (by omega : b.length = 0)).symm
  | succ n ih =>
    have htake : (b.take 4).length = 4 := by rw [length_take]; omega
    rw [words, flatMap_cons, wordBytes_wordOf htake, ih (by rw [length_drop]; omega),
      take_append_drop]

/-- From the highest word down they hold the bytes from the last on. -/
theorem words_bigEndian (h : b.length = 4 * n) :
    (words n b).reverse.flatMap bigEndian = b.reverse := by
  conv_rhs => rw [← words_bytes h]
  generalize words n b = w
  induction w with
  | nil => rfl
  | cons v w ih =>
    rw [reverse_cons, flatMap_append, ih]
    simp [bigEndian]

/-- **The lanes** hold the rest of the first word and the words behind it. -/
theorem putLanes_eq {lead : ℕ} (hlead : lead ≤ 4) (a : Word32) (rest : List Word32) :
    putLanes lead (a >>> (8 * lead)) rest = (wordBytes a).drop lead ++ rest.flatMap wordBytes := by
  induction rest generalizing a with
  | nil =>
    have h := wordBytes_relane a (0#(8 * 4)) hlead
    rw [BitVec.zero_shiftLeft, BitVec.or_zero] at h
    rw [putLanes, h, take_left' (by rw [length_drop, wordBytes_length]), flatMap_nil,
      append_nil]
  | cons next rest ih =>
    rw [putLanes, ih, show 32 - 8 * lead = 8 * (4 - lead) by omega, wordBytes_relane a next hlead,
      flatMap_cons, append_assoc, ← append_assoc (List.take _ _), take_append_drop]

/-- **A hash is written at every alignment.** -/
theorem putHashWords_eq (d : ℕ) (h : b.length = 32) : putHashWords d (words 8 b) = 0xA0 :: b := by
  unfold putHashWords
  dsimp only
  split_ifs with hoff
  · rw [words_bytes (n := 8) h]
  · conv_rhs => rw [← words_bytes (n := 8) h]
    rw [words, flatMap_cons]
    dsimp only
    rw [putLanes_eq (by omega), ← append_assoc, take_append_drop]

/-- The bytes above the highest one of a word are zero. -/
theorem bigEndian_top {top : Word32} (h : top ≠ 0) :
    topBytes top ≤ 4 ∧
      bigEndian top = replicate (4 - topBytes top) 0 ++ (bigEndian top).drop (4 - topBytes top) ∧
      ∀ x, ((bigEndian top).drop (4 - topBytes top)).head? = some x → x ≠ 0 := by
  have hpos : 0 < top.toNat := Nat.pos_of_ne_zero fun h0 => h (BitVec.eq_of_toNat_eq h0)
  have hlt : top.toNat < 2 ^ 32 := top.isLt
  have hbytes : bigEndian top =
      [UInt8.ofNat (top.toNat / 256 / 256 / 256), UInt8.ofNat (top.toNat / 256 / 256),
      UInt8.ofNat (top.toNat / 256), UInt8.ofNat top.toNat] := rfl
  have hbyte (n : ℕ) : UInt8.ofNat n = 0 ↔ n % 256 = 0 := by
    rw [← UInt8.toNat_inj, UInt8.toNat_ofNat']
    rfl
  unfold topBytes
  rw [hbytes]
  split_ifs
  · refine ⟨by decide, rfl, fun x hx => ?_⟩
    obtain rfl : UInt8.ofNat (top.toNat / 256 / 256 / 256) = x := by simpa using hx
    rw [Ne, hbyte]
    omega
  · refine ⟨by decide, ?_, fun x hx => ?_⟩
    · rw [(hbyte (top.toNat / 256 / 256 / 256)).mpr (by omega)]
      rfl
    · obtain rfl : UInt8.ofNat (top.toNat / 256 / 256) = x := by simpa using hx
      rw [Ne, hbyte]
      omega
  · refine ⟨by decide, ?_, fun x hx => ?_⟩
    · rw [(hbyte (top.toNat / 256 / 256 / 256)).mpr (by omega),
        (hbyte (top.toNat / 256 / 256)).mpr (by omega)]
      rfl
    · obtain rfl : UInt8.ofNat (top.toNat / 256) = x := by simpa using hx
      rw [Ne, hbyte]
      omega
  · refine ⟨by decide, ?_, fun x hx => ?_⟩
    · rw [(hbyte (top.toNat / 256 / 256 / 256)).mpr (by omega),
        (hbyte (top.toNat / 256 / 256)).mpr (by omega), (hbyte (top.toNat / 256)).mpr (by omega)]
      rfl
    · obtain rfl : UInt8.ofNat top.toNat = x := by simpa using hx
      rw [Ne, hbyte]
      omega

/-- The search finds the highest word that is not zero, wherever it starts. -/
theorem dropWhile_low (w : List Word32) :
    (if 2 < w.length ∧ (w.drop 2).foldl (· ||| ·) 0 = 0 then w.take 2 else w).reverse.dropWhile (· = 0) =
      w.reverse.dropWhile (· = 0) := by
  have hor (l : List Word32) (a : Word32) : l.foldl (· ||| ·) a = 0 → a = 0 ∧ ∀ v ∈ l, v = 0 := by
    induction l generalizing a with
    | nil => exact fun h => ⟨h, by simp⟩
    | cons v l ih =>
      intro h
      obtain ⟨hav, hl⟩ := ih (a ||| v) h
      obtain ⟨ha, hv⟩ := BitVec.or_eq_zero_iff.mp hav
      exact ⟨ha, forall_mem_cons.mpr ⟨hv, hl⟩⟩
  split_ifs with h
  · obtain ⟨-, hzero⟩ := hor _ _ h.2
    conv_rhs => rw [← take_append_drop 2 w, reverse_append]
    rw [dropWhile_append_of_pos (by simpa using hzero)]
  · rfl

theorem beNat_zeros_append (k : ℕ) (x : Bytes) : beNat (replicate k 0 ++ x) = beNat x := by
  have hzero : beNat (replicate k 0) = 0 := by
    rw [beNat, reverse_replicate]
    induction k with
    | zero => rfl
    | succ k ih => rw [replicate_succ, leNat, ih]; rfl
  rw [beNat_append, hzero, Nat.mul_zero, Nat.add_zero]

theorem beNat_zero_words {z : List Word32} (h : ∀ v ∈ z, v = 0) (x : Bytes) :
    beNat (z.flatMap bigEndian ++ x) = beNat x := by
  induction z with
  | nil => rfl
  | cons v z ih =>
    obtain ⟨rfl, hz⟩ := forall_mem_cons.mp h
    rw [flatMap_cons, append_assoc]
    exact (beNat_zeros_append 4 _).trans (ih hz)

theorem beNat_bigEndian (v : Word32) : beNat (bigEndian v) = v.toNat := by
  rw [beNat, bigEndian, reverse_reverse, leNat_wordBytes]

/-- **An integer is written from its words as from its value.** -/
theorem putUintWords_eq {w : ℕ} {v : BitVec w} (hn : 4 * n < 56) (hv : v.toNat < 256 ^ (4 * n)) :
    putUintWords (words n (toLe (4 * n) v.toNat)) = encodeUint v := by
  have hvalue : beNat ((words n (toLe (4 * n) v.toNat)).reverse.flatMap bigEndian) = v.toNat := by
    rw [words_bigEndian (toLe_length _ _), beNat, reverse_reverse, leNat_toLe, Nat.mod_eq_of_lt hv]
  unfold putUintWords
  dsimp only
  rw [dropWhile_low]
  generalize (words n (toLe (4 * n) v.toNat)).reverse = u at hvalue ⊢
  have hzero : ∀ x ∈ u.takeWhile (· = 0), x = 0 := fun x hx => by
    simpa using all_eq_true.mp all_takeWhile x hx
  rw [← u.takeWhile_append_dropWhile, flatMap_append, beNat_zero_words hzero] at hvalue
  cases hd : u.dropWhile (· = 0) with
  | nil =>
    rw [hd] at hvalue
    have hv0 : v.toNat = 0 := hvalue.symm
    rw [encodeUint, if_pos hv0]
    rfl
  | cons top rest =>
    have htop : top ≠ 0 := by
      have := head?_dropWhile_not (fun x : Word32 => decide (x = 0)) u
      rw [hd] at this
      simpa using this
    obtain ⟨hle, hzeros, hhead⟩ := bigEndian_top htop
    set high := (bigEndian top).drop (4 - topBytes top) with hhigh
    have hlen : high.length = topBytes top := by
      rw [hhigh, length_drop, bigEndian, length_reverse, wordBytes_length]
      omega
    have hvalue' : beNat (high ++ rest.flatMap bigEndian) = v.toNat := by
      rw [← hvalue, hd, flatMap_cons, hzeros, append_assoc, beNat_zeros_append]
    -- the bytes written are the integer's shortest string
    have hbytes : toBigCompact v.toNat = high ++ rest.flatMap bigEndian := by
      rw [← hvalue', toBigCompact_beNat]
      intro x hx
      have hne : high ≠ [] := by
        rw [← length_pos_iff, hlen]
        unfold topBytes
        split_ifs <;> decide
      rw [head?_append_of_ne_nil _ hne] at hx
      exact hhead x hx
    have hrest : (rest.flatMap bigEndian).length = 4 * rest.length := by
      rw [length_flatMap]
      simp [bigEndian, Nat.mul_comm]
    have hsize : (high ++ rest.flatMap bigEndian).length = 4 * rest.length + topBytes top := by
      rw [length_append, hlen, hrest, Nat.add_comm]
    have hmax := toBigCompact_length hv
    have hsplit : v.toNat = beNat (rest.flatMap bigEndian) + 256 ^ (4 * rest.length) * top.toNat := by
      rw [← hvalue, hd, flatMap_cons, beNat_append, hrest, beNat_bigEndian]
    have hpos : 0 < top.toNat := Nat.pos_of_ne_zero fun h0 => htop (BitVec.eq_of_toNat_eq h0)
    have hge : 256 ^ (4 * rest.length) ≤ v.toNat := by
      rw [hsplit]
      exact (Nat.le_mul_of_pos_right _ hpos).trans (Nat.le_add_left _ _)
    have hv0 : v.toNat ≠ 0 := (Nat.lt_of_lt_of_le (by positivity) hge).ne'
    dsimp only
    split_ifs with hsmall
    · obtain ⟨rfl, hlt⟩ := hsmall
      have hv1 : v.toNat = top.toNat := by rw [hsplit]; simp [beNat, leNat]
      rw [encodeUint, if_neg hv0, if_pos (by omega), hv1]
    · have hbig : 0x80 ≤ v.toNat := by
        by_cases hr : rest = []
        · subst hr
          have hv1 : v.toNat = top.toNat := by rw [hsplit]; simp [beNat, leNat]
          have : ¬ top.toNat < 0x80 := fun h => hsmall ⟨rfl, h⟩
          omega
        · have hpow : 256 ^ 4 ≤ 256 ^ (4 * rest.length) :=
            Nat.pow_le_pow_right (by decide) (by have := length_pos_iff.mpr hr; omega)
          omega
      rw [encodeUint, if_neg hv0, if_neg (by omega), hbytes]
      dsimp only
      rw [hbytes] at hmax
      rw [encodeHeader, if_pos (show (high ++ rest.flatMap bigEndian).length < 56 by omega), hsize,
        Nat.add_assoc]
      rfl

/-- **Both encoders write the same leaf**, wherever the leaf goes and the root lies. -/
theorem encodeAccountWords_eq (dst root : ℕ) (nonce : U64) (balance : U256)
    {codeHash storageRoot : Bytes} (hc : codeHash.length = 32) (hr : storageRoot.length = 32) :
    encodeAccountWords dst root nonce balance codeHash storageRoot =
      encodeAccountInto nonce balance codeHash storageRoot := by
  have hnonce : putUintWords (words 2 (toLe 8 nonce.toNat)) = encodeUint nonce :=
    putUintWords_eq (n := 2) (by decide) (by have := nonce.isLt; omega)
  have hbalance : putUintWords (words 8 (toLe 32 balance.toNat)) = encodeUint balance :=
    putUintWords_eq (n := 8) (by decide) (by have := balance.isLt; omega)
  obtain ⟨hlow, hhigh⟩ := leaf_payload nonce balance
  unfold encodeAccountWords encodeAccountInto
  dsimp only
  rw [hnonce, hbalance, putHashWords_eq _ hr, putHashWords_eq _ hc, ite_self,
    toBigCompact_byte (by omega) (by omega)]
  have hbody :
      (encodeUint nonce ++ encodeUint balance ++ 0xA0 :: storageRoot ++ 0xA0 :: codeHash).length =
      lengthUint nonce + lengthUint balance + (32 + 1) + (32 + 1) := by
    simp only [length_append, length_cons, encodeUint_length, hc, hr]
  rw [hbody]
  simp only [length_append, length_cons, length_nil, cons_append, nil_append,
    append_assoc]
  exact Prod.ext rfl (by dsimp only; omega)

/-- **The leaf is the canonical RLP of `[nonce, balance, storage root, code hash]`.** -/
theorem encodeAccountInto_canonical (nonce : U64) (balance : U256) (codeHash storageRoot : Bytes32) :
    (encodeAccountInto nonce balance codeHash.val storageRoot.val).1 =
      encodeList (encodeUint nonce ++ encodeUint balance ++ encodeBytes storageRoot.val ++
        encodeBytes codeHash.val) := by
  have hhash (h : Bytes32) : encodeBytes h.val = 0xA0 :: h.val := by
    rw [encodeBytes_eq_header (by rw [h.2]; decide), h.2]
    rfl
  obtain ⟨hlow, hhigh⟩ := leaf_payload nonce balance
  rw [hhash, hhash, encodeList, encodeHeader]
  have hpayload : (encodeUint nonce ++ encodeUint balance ++ 0xA0 :: storageRoot.val ++
      0xA0 :: codeHash.val).length =
      lengthUint nonce + lengthUint balance + (32 + 1) + (32 + 1) := by
    simp only [length_append, length_cons, encodeUint_length, codeHash.2, storageRoot.2]
  rw [hpayload, if_neg (by dsimp only; omega), encodeAccountInto]
  simp only [if_true, cons_append, append_assoc]

/-- **`decode_trie_account` reads the leaf back.** -/
theorem decodeTrieAccount_encodeAccountInto (nonce : U64) (balance : U256)
    (codeHash storageRoot : Bytes32) :
    decodeTrieAccount (encodeAccountInto nonce balance codeHash.val storageRoot.val).1 =
      .ok { addr := FixedBytes.zero 20, nonce, balance, storageRoot, codeHash } := by
  rw [encodeAccountInto_canonical]
  set payload := encodeUint nonce ++ encodeUint balance ++ encodeBytes storageRoot.val ++
    encodeBytes codeHash.val
    with hpayload
  have hsmall : payload.length < 2 ^ 64 := by
    obtain ⟨-, hhigh⟩ := leaf_payload nonce balance
    have hhash (h : Bytes32) : (encodeBytes h.val).length = 33 := by
      rw [encodeBytes_eq_header (by rw [h.2]; decide), h.2, length_append, h.2]
      rfl
    rw [hpayload]
    simp only [length_append, hhash, encodeUint_length]
    omega
  have hlist : decodeHeader (encodeList payload) = .ok (⟨true, payload.length⟩, payload) := by
    simpa using decodeHeader_encodeList [] hsmall
  have hnonce (rest : Bytes) : decodeUint 64 .allow (encodeUint nonce ++ rest) = .ok (nonce, rest) :=
    decodeUint_ok (k := 8) (by decide) (.inl rfl)
  have hbalance (rest : Bytes) : decodeUint 256 .allow (encodeUint balance ++ rest) =
      .ok (balance, rest) :=
    decodeUint_ok (k := 32) (by decide) (.inl rfl)
  have hhash (h : Bytes32) (rest : Bytes) : decodeArray 32 .allow (encodeBytes h.val ++ rest) =
      .ok (h, rest) :=
    decodeArray_ok (by decide) (.inl rfl)
  have hlast : decodeArray 32 .allow (encodeBytes codeHash.val) = .ok (codeHash, []) := by
    simpa using hhash codeHash []
  have hbody : payload.take payload.length =
      encodeUint nonce ++
        (encodeUint balance ++ (encodeBytes storageRoot.val ++ encodeBytes codeHash.val)) := by
    rw [List.take_length, hpayload, append_assoc, append_assoc]
  unfold decodeTrieAccount
  rw [hlist]
  simp only [bind, Except.bind, rejectIf, Bool.true_eq_false, if_false, hbody, hnonce, hbalance,
    hhash, hlast, pure, Except.pure]

/-! ## The cached leaf -/

/-- The leaf kept in a record encodes its own fields, with some storage root, or is marked as not
its own. -/
def Account.CacheOk (a : Account) : Prop :=
  a.accRlpSrootOff = 0 ∨ ∃ root, (a.accRlp, a.accRlpSrootOff) = a.encodeInto root

/-- **`rlp_into` gives a fresh encoding** of a record whose cache is its own. -/
theorem Account.CacheOk.rlp {a : Account} (h : a.CacheOk) (root : Bytes32) :
    a.rlp root = (a.encodeInto root).1 := by
  unfold Account.rlp
  split_ifs with hcached
  · obtain hzero | ⟨root', hcache⟩ := h
    · exact absurd hzero hcached.1
    · obtain ⟨hleaf, hoff⟩ := Prod.mk.inj hcache
      rw [hleaf, hoff]
      unfold Account.encodeInto encodeAccountInto
      dsimp only
      generalize (_ :: _ ++ _ ++ _ : Bytes) = head
      have hpatch := @writeAt_append (head ++ [0xA0]) root'.val root.val (0xA0 :: a.codeHash.val)
        (by rw [root.2, root'.2])
      simpa using hpatch
  · rfl

/-- Every change of a record keeps that. -/
theorem Account.CacheOk.change {w : WitnessView} {diffs : Set (Bytes32 × Bytes)} {a a' : Account}
    (h : a.CacheOk) (hch : Account.Change w diffs a a') : a'.CacheOk := by
  cases hch with
  | noteRead | clearReads | destruct | markModified | setSlot | wipeStorage => exact h
  | revive | setFields | setCode => exact .inl rfl
  | recache root => exact .inr ⟨root, rfl⟩

theorem Account.cacheOk_absent (addr : Address) : (Account.absent addr).CacheOk := .inl rfl

end Zilkworm.State
