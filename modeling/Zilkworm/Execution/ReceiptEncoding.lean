/-
# Receipts written in place

`core/types/receipt.cpp`: `rlp::encode` sums the lengths of a receipt's three levels of lists first,
grows the buffer once, and then writes every header and field at a pointer.  A header's size is
found by comparing, the gas is written in two 32-bit halves, and the bloom, addresses and topics are
copied by words: from a 4-aligned source to a place of any alignment, with the bytes before the
first and after the last whole word of the place written one by one.

The model writes at a cursor and has no result where a byte would fall outside the buffer or a word
not at a word's address.  Sizes are those of objects in memory, so their sums do not wrap.
-/
import Zilkworm.Lib.InPlace
import Zilkworm.Execution.Receipts
import Zilkworm.Types.TransactionCodec

namespace Zilkworm.Execution

open List

namespace ReceiptEncoding

open Lib Rlp Zilkworm.Types Cursor

variable (mem : Layout) (r : Receipt)

/-! ## The model -/

/-- Where things lie: the buffer, and the field that is copied to place `p` of it. -/
structure Layout where
  bufAddr : ℕ
  srcAddr : ℕ → ℕ
  littleEndian : Bool

/-- `header_length`. -/
def headerLength (n : ℕ) : ℕ :=
  if n < 56 then 1 else if n < 0x100 then 2 else if n < 0x10000 then 3 else if n < 0x1000000 then 4
    else lengthOfLength n

/-- `write_header`. -/
def writeHeader (shortCode : UInt8) (n : ℕ) : Cursor Unit :=
  if n < 56 then put [UInt8.ofNat (shortCode.toNat + n)]
  else do
    let lengthBytes := headerLength n - 1
    put [UInt8.ofNat (shortCode.toNat + 55 + lengthBytes)]
    putBig n lengthBytes

/-- `log_payload`. -/
def logPayload (l : Log) : ℕ :=
  let topics := (1 + 32) * l.topics.length
  let n := l.data.length
  let data := if n = 1 ∧ l.data.headD 0 < kEmptyStringCode then 1 else headerLength n + n
  1 + 20 + headerLength topics + topics + data

/-- A store of a word, which the strict-align guest allows only at a word's address. -/
def putWord (w : BitVec (8 * 4)) : Cursor Unit := do
  let p ← place
  if (mem.bufAddr + p) % 4 = 0 then put (wordBytes w) else fault

/-- The words from `i` on, as they are. -/
def putWords (src : Bytes) : (left i : ℕ) → Cursor Unit
  | 0, _ => pure ()
  | left + 1, i => do
    putWord mem (word32 src i)
    putWords src left (i + 1)

/-- The low bytes of `w`, the lowest first. -/
def putLow : (n : ℕ) → BitVec (8 * 4) → Cursor Unit
  | 0, _ => pure ()
  | n + 1, w => do
    put [UInt8.ofNat w.toNat]
    putLow n (w >>> 8)

/-- The words joined from two words of the source each, and the bytes left of the last. -/
def putJoined (src : Bytes) (lead : ℕ) : (left i : ℕ) → (w : BitVec (8 * 4)) → Cursor Unit
  | 0, _, w => putLow (4 - lead) (w >>> (8 * lead))
  | left + 1, i, w => do
    let next := word32 src i
    putWord mem ((w >>> (8 * lead)) ||| (next <<< (32 - 8 * lead)))
    putJoined src lead left (i + 1) next

/-- `copy_words`. -/
def copyWords (src : Bytes) : Cursor Unit := do
  let p ← place
  if !mem.littleEndian || mem.srcAddr p % 4 ≠ 0 then put src
  else
    let words := src.length / 4
    let off := (mem.bufAddr + p) % 4
    if off = 0 then putWords mem src words 0
    else do
      let lead := 4 - off
      let w := word32 src 0
      (range lead).forM fun k => put [byteOf w k]
      putJoined mem src lead (words - 1) 1 w

/-- The number of bytes of a nonzero 32-bit number. -/
def topBytes (top : ℕ) : ℕ :=
  if top < 0x100 then 1 else if top < 0x10000 then 2 else if top < 0x1000000 then 3 else 4

/-- The bytes after the header of the gas. -/
def gasBytes (gas : U64) : ℕ :=
  let hi := gas.toNat / 2 ^ 32
  let lo := gas.toNat % 2 ^ 32
  if gas.toNat < 0x80 then 0 else (if hi ≠ 0 then 4 else 0) + topBytes (if hi ≠ 0 then hi else lo)

/-- The gas. -/
def writeGas (gas : U64) : Cursor Unit :=
  let hi := gas.toNat / 2 ^ 32
  let lo := gas.toNat % 2 ^ 32
  let top := if hi ≠ 0 then hi else lo
  if gasBytes gas = 0 then put [if gas.toNat = 0 then kEmptyStringCode else UInt8.ofNat gas.toNat]
  else do
    put [UInt8.ofNat (0x80 + gasBytes gas)]
    putBig top (topBytes top)
    if hi ≠ 0 then putBig lo 4 else pure ()

/-- A topic. -/
def writeTopic (t : Bytes32) : Cursor Unit := do
  put [UInt8.ofNat (0x80 + 32)]
  copyWords mem t.val

/-- The data of a log: its header unless it is its own encoding, and its bytes if there are any. -/
def writeData (data : Bytes) : Cursor Unit := do
  onlyIf (data.length ≠ 1 ∨ ¬ data.headD 0 < kEmptyStringCode) (writeHeader kEmptyStringCode data.length)
  onlyIf (data.length ≠ 0) (put data)

/-- A log. -/
def writeLog (l : Log) : Cursor Unit := do
  writeHeader kEmptyListCode (logPayload l)
  put [UInt8.ofNat (0x80 + 20)]
  copyWords mem l.address.val
  writeHeader kEmptyListCode ((1 + 32) * l.topics.length)
  l.topics.forM (writeTopic mem)
  writeData l.data

/-- `logs_payload`. -/
def logsPayload (logs : List Log) : ℕ :=
  (logs.map fun l => headerLength (logPayload l) + logPayload l).sum

/-- `payload`. -/
def payload : ℕ :=
  1 + 1 + gasBytes r.cumulativeGasUsed + 3 + 256 + headerLength (logsPayload r.logs) + logsPayload r.logs

/-- `total`. -/
def total : ℕ := (if r.type ≠ .legacy then 1 else 0) + headerLength (payload r) + payload r

/-- What the lambda of `encode` writes. -/
def writeReceipt : Cursor Unit := do
  onlyIf (r.type ≠ .legacy) (put [r.type.toByte])
  writeHeader kEmptyListCode (payload r)
  put [if r.success then 1 else kEmptyStringCode]
  writeGas r.cumulativeGasUsed
  writeHeader kEmptyStringCode 256
  copyWords mem r.bloom.val
  writeHeader kEmptyListCode (logsPayload r.logs)
  r.logs.forM (writeLog mem)

/-- `encode(Bytes&, const Receipt&)`: the buffer grows by `total` bytes, which hold anything at
first, and ends where the last byte was written. -/
def encode (buf : Bytes) (grown : ℕ → UInt8) (r : Receipt) : Option Bytes :=
  match writeReceipt mem r (buf ++ (range (total r)).map grown, buf.length) with
  | some (_, out, p) => if p = out.length then some out else none
  | none => none

/-! ## Headers and numbers -/

/-- **The size found by comparing is the size of the header.** -/
theorem headerLength_eq (n : ℕ) : headerLength n = lengthOfLength n := by
  rw [headerLength]
  split_ifs with h1 h2 h3 h4
  · rw [lengthOfLength, if_pos h1]
  · rw [lengthOfLength, if_neg h1, @length_toBigCompact 0 n (by omega) (by omega)]
  · rw [lengthOfLength, if_neg h1, @length_toBigCompact 1 n (by omega) (by omega)]
  · rw [lengthOfLength, if_neg h1, @length_toBigCompact 2 n (by omega) (by omega)]
  · rfl

theorem writes_header (p : ℕ) (list : Bool) (n : ℕ) :
    Writes p (writeHeader (if list then kEmptyListCode else kEmptyStringCode) n)
      (encodeHeader ⟨list, n⟩) := by
  have hcode : (if list then kEmptyListCode else kEmptyStringCode).toNat =
      if list then 0xC0 else 0x80 := by
    cases list <;> rfl
  rw [writeHeader, encodeHeader, headerLength_eq, lengthOfLength]
  dsimp only
  by_cases h : n < 56
  · rw [if_pos h, if_pos h, hcode]
    exact .put p _
  · rw [if_neg h, if_neg h, if_neg h, Nat.add_sub_cancel_left, hcode]
    have hbig := Writes.putBig n (toBigCompact n).length (p + 1)
    rw [reverse_toLe_length] at hbig
    have hfirst : (if list then 0xC0 else 0x80) + 55 + (toBigCompact n).length =
        (if list then 0xF7 else 0xB7) + (toBigCompact n).length := by
      cases list <;> rfl
    rw [hfirst]
    exact (Writes.put p [_]).append hbig

theorem writes_list (p n : ℕ) : Writes p (writeHeader kEmptyListCode n) (encodeHeader ⟨true, n⟩) :=
  writes_header p true n

theorem writes_string (p n : ℕ) :
    Writes p (writeHeader kEmptyStringCode n) (encodeHeader ⟨false, n⟩) := writes_header p false n

theorem topBytes_spec {top : ℕ} (hpos : 0 < top) (hlt : top < 2 ^ 32) :
    256 ^ (topBytes top - 1) ≤ top ∧ top < 256 ^ (topBytes top) ∧ 0 < topBytes top ∧
      topBytes top ≤ 4 := by
  rw [topBytes]
  split_ifs <;> omega

/-- The bytes of the gas are as many as `gas_bytes` says. -/
theorem gasBytes_eq {gas : U64} (hgas : 0x80 ≤ gas.toNat) :
    (toBigCompact gas.toNat).length = gasBytes gas ∧ gasBytes gas ≤ 8 := by
  have hlt := gas.isLt
  rw [gasBytes, if_neg (by omega)]
  by_cases hhi : gas.toNat / 2 ^ 32 = 0
  · rw [if_neg (not_not.mpr hhi), if_neg (not_not.mpr hhi)]
    obtain ⟨hlo, hup, hpos, hle⟩ := @topBytes_spec (gas.toNat % 2 ^ 32) (by omega) (by omega)
    rw [Nat.mod_eq_of_lt (by omega)] at *
    rw [@length_toBigCompact (topBytes gas.toNat - 1) _ hlo (by rwa [Nat.sub_add_cancel hpos])]
    omega
  · rw [if_pos hhi, if_pos hhi]
    obtain ⟨hlo, hup, hpos, hle⟩ := @topBytes_spec (gas.toNat / 2 ^ 32) (by omega) (by omega)
    have hlow : 256 ^ (topBytes (gas.toNat / 2 ^ 32) - 1 + 4) ≤ gas.toNat := by
      rw [Nat.pow_add]
      exact (Nat.mul_le_mul_right _ hlo).trans (Nat.div_mul_le_self _ _)
    have hhigh : gas.toNat < 256 ^ (topBytes (gas.toNat / 2 ^ 32) - 1 + 4 + 1) := by
      rw [show topBytes (gas.toNat / 2 ^ 32) - 1 + 4 + 1 =
        topBytes (gas.toNat / 2 ^ 32) + 4 by omega, Nat.pow_add]
      exact (Nat.div_lt_iff_lt_mul (by decide)).mp hup
    rw [length_toBigCompact hlow hhigh]
    omega

/-- The bytes of the gas, written as those of its high half and of its low one. -/
theorem writes_halves (p : ℕ) {gas : U64} (hgas : 0x80 ≤ gas.toNat) :
    Writes p (do
      putBig (if gas.toNat / 2 ^ 32 ≠ 0 then gas.toNat / 2 ^ 32 else gas.toNat % 2 ^ 32)
        (topBytes (if gas.toNat / 2 ^ 32 ≠ 0 then gas.toNat / 2 ^ 32 else gas.toNat % 2 ^ 32))
      if gas.toNat / 2 ^ 32 ≠ 0 then putBig (gas.toNat % 2 ^ 32) 4
        else pure ()) (toBigCompact gas.toNat) := by
  have hlen := (gasBytes_eq hgas).1
  have hsmall : ¬ gas.toNat < 0x80 := by omega
  rw [← reverse_toLe_length, hlen, gasBytes, if_neg hsmall]
  by_cases hhi : gas.toNat / 2 ^ 32 = 0
  · simp only [hhi, ne_eq, not_true_eq_false, if_false]
    rw [Nat.mod_eq_of_lt (by omega), Nat.zero_add]
    have h := (Writes.putBig gas.toNat (topBytes gas.toNat) p).append (Writes.nil _)
    rwa [append_nil] at h
  · simp only [ne_eq, hhi, not_false_eq_true, if_true]
    have hsplit := toLe_add 4 (topBytes (gas.toNat / 2 ^ 32)) gas.toNat
    rw [← toLe_mod 4] at hsplit
    rw [hsplit, reverse_append]
    exact (Writes.putBig _ _ p).append (Writes.putBig _ _ _)

/-- **The gas in two halves is the gas.** -/
theorem writes_gas (p : ℕ) (gas : U64) : Writes p (writeGas gas) (encodeUint gas) := by
  by_cases hsmall : gas.toNat < 0x80
  · have hnone : gasBytes gas = 0 := by rw [gasBytes, if_pos hsmall]
    rw [writeGas, if_pos hnone, encodeUint, if_pos hsmall, ← apply_ite (fun x => [x])]
    exact .put p _
  · obtain ⟨hlen, hle⟩ := gasBytes_eq (by omega : 0x80 ≤ gas.toNat)
    have hpos : gasBytes gas ≠ 0 := by
      rw [← hlen]
      intro h
      have hzero := beNat_toBigCompact gas.toNat
      rw [eq_nil_of_length_eq_zero h] at hzero
      rw [← hzero] at hsmall
      exact hsmall (by decide)
    have hout : encodeUint gas = [UInt8.ofNat (0x80 + gasBytes gas)] ++ toBigCompact gas.toNat := by
      rw [encodeUint, if_neg (by omega), if_neg hsmall]
      dsimp only
      rw [hlen, encodeHeader, if_pos (show gasBytes gas < 56 by omega)]
      rfl
    rw [writeGas, if_neg hpos, hout]
    exact (Writes.put p [_]).append (writes_halves _ (by omega))

theorem length_encodeUint_gas (gas : U64) : (encodeUint gas).length = 1 + gasBytes gas := by
  rw [encodeUint_length, lengthUint]
  dsimp only
  split_ifs with hsmall
  · rw [gasBytes, if_pos hsmall]
  · obtain ⟨hlen, hle⟩ := gasBytes_eq (by omega : 0x80 ≤ gas.toNat)
    rw [hlen, lengthOfLength, if_pos (by omega)]
    omega

/-! ## Words -/

theorem writes_low (p n : ℕ) (w : BitVec (8 * 4)) : Writes p (putLow n w) (toLe n w.toNat) := by
  induction n generalizing p w with
  | zero => exact .nil p
  | succ n ih =>
    have hshift : (w >>> 8).toNat = w.toNat / 256 := by
      rw [BitVec.toNat_ushiftRight, Nat.shiftRight_eq_div_pow]
    have := ih (p + 1) (w >>> 8)
    rw [hshift] at this
    exact (Writes.put p [_]).append this

theorem writes_lead (p n : ℕ) (w : BitVec (8 * 4)) :
    Writes p ((range n).forM fun k => put [byteOf w k]) (toLe n w.toNat) := by
  have hout : (range n).flatMap (fun k => [byteOf w k]) = toLe n w.toNat := by
    induction n with
    | zero => rfl
    | succ n ih =>
      rw [range_succ, flatMap_append, ih, toLe_add n 1, flatMap_singleton, byteOf,
        Nat.shiftRight_eq_div_pow, Nat.pow_mul]
      rfl
  rw [← hout]
  exact .forM _ p fun k _ p => .put p _

theorem writes_word {mem : Layout} {p : ℕ} (hp : (mem.bufAddr + p) % 4 = 0) (w : BitVec (8 * 4)) :
    Writes p (putWord mem w) (wordBytes w) := by
  refine Writes.place (f := fun p => if (mem.bufAddr + p) % 4 = 0 then put (wordBytes w) else fault) ?_
  rw [if_pos hp]
  exact .put p _

theorem writes_words {mem : Layout} {src : Bytes} {p left i : ℕ} (hp : (mem.bufAddr + p) % 4 = 0)
    (hleft : 4 * (i + left) = src.length) : Writes p (putWords mem src left i) (src.drop (4 * i)) := by
  induction left generalizing p i with
  | zero =>
    rw [drop_eq_nil_of_le (by omega)]
    exact .nil p
  | succ left ih =>
    have hword := writes_word hp (word32 src i)
    rw [wordBytes_word32 (by omega)] at hword
    rw [drop_word32]
    refine hword.append (ih ?_ (by omega))
    rw [slice_length_of_le (by omega)]
    omega

/-- **Words joined from two source words** hold the bytes of the source from the one not yet written
on. -/
theorem writes_joined {mem : Layout} {src : Bytes} {lead : ℕ} (hlead : lead ≤ 4) {p left i : ℕ}
    (hp : (mem.bufAddr + p) % 4 = 0) (hleft : 4 * (i + left) = src.length) (w : BitVec (8 * 4)) :
    Writes p (putJoined mem src lead left i w) ((wordBytes w).drop lead ++ src.drop (4 * i)) := by
  induction left generalizing p i w with
  | zero =>
    have hlow := writes_low p (4 - lead) (w >>> (8 * lead))
    have hdrop : toLe (4 - lead) (w >>> (8 * lead)).toNat = (wordBytes w).drop lead := by
      have hall := toLe_add lead (4 - lead) w.toNat
      rw [Nat.add_sub_cancel' hlead] at hall
      rw [wordBytes, hall, drop_left' (toLe_length _ _), BitVec.toNat_ushiftRight,
        Nat.shiftRight_eq_div_pow, Nat.pow_mul]
    rw [hdrop] at hlow
    rw [drop_eq_nil_of_le (by omega : src.length ≤ 4 * i), append_nil]
    exact hlow
  | succ left ih =>
    have hword := writes_word hp ((w >>> (8 * lead)) ||| (word32 src i <<< (8 * (4 - lead))))
    rw [wordBytes_relane _ _ hlead] at hword
    have hlen : ((wordBytes w).drop lead ++ (wordBytes (word32 src i)).take lead).length = 4 := by
      rw [length_append, length_drop, length_take, wordBytes_length, wordBytes_length]
      omega
    have hout : (wordBytes w).drop lead ++ src.drop (4 * i) =
        (wordBytes w).drop lead ++ (wordBytes (word32 src i)).take lead ++
        ((wordBytes (word32 src i)).drop lead ++ src.drop (4 * (i + 1))) := by
      rw [append_assoc, ← append_assoc (List.take _ _), take_append_drop, wordBytes_word32 (by omega),
        ← drop_word32]
    rw [hout]
    have hshift : 32 - 8 * lead = 8 * (4 - lead) := by omega
    rw [putJoined, hshift]
    exact hword.append (ih (by rw [hlen]; omega) (by omega) _)

/-- **`copy_words` copies**, whatever the alignment of the source and of the place. -/
theorem writes_copyWords {src : Bytes} (hsrc : src.length % 4 = 0) (hpos : 0 < src.length) (p : ℕ) :
    Writes p (copyWords mem src) src := by
  rw [copyWords]
  refine Writes.place (f := fun p => _) ?_
  dsimp only
  split_ifs with hblock hoff
  · exact .put p _
  · have h := @writes_words mem src p (src.length / 4) 0 hoff (by omega)
    rwa [Nat.mul_zero, drop_zero] at h
  · have hlt : (mem.bufAddr + p) % 4 < 4 := Nat.mod_lt _ (by decide)
    have hfirst := writes_lead p (4 - (mem.bufAddr + p) % 4) (word32 src 0)
    have hrest :=
      @writes_joined mem src (4 - (mem.bufAddr + p) % 4) (by omega) (p + (4 - (mem.bufAddr + p) % 4))
      (src.length / 4 - 1) 1 (by omega) (by omega) (word32 src 0)
    -- the first bytes are those of word 0 that the joined words leave out
    have hout : toLe (4 - (mem.bufAddr + p) % 4) (word32 src 0).toNat ++
        ((wordBytes (word32 src 0)).drop (4 - (mem.bufAddr + p) % 4) ++ src.drop (4 * 1)) = src := by
      have hall := toLe_add (4 - (mem.bufAddr + p) % 4) ((mem.bufAddr + p) % 4) (word32 src 0).toNat
      rw [Nat.sub_add_cancel hlt.le] at hall
      have htake : toLe (4 - (mem.bufAddr + p) % 4) (word32 src 0).toNat =
          (wordBytes (word32 src 0)).take (4 - (mem.bufAddr + p) % 4) := by
        rw [wordBytes, hall, take_left' (toLe_length _ _)]
      have hword := wordBytes_word32 (by omega : 4 * 0 + 4 ≤ src.length)
      have hdrop := drop_word32 src 0
      rw [Nat.mul_zero, drop_zero] at hdrop
      rw [htake, ← append_assoc, take_append_drop, hword]
      exact hdrop.symm
    have hwrite := hfirst.append (by rwa [toLe_length])
    rwa [hout] at hwrite

/-! ## Fields -/

theorem writes_topic (t : Bytes32) (p : ℕ) : Writes p (writeTopic mem t) (encodeFixed t) := by
  rw [encodeFixed_eq t (by decide)]
  exact (Writes.put p [_]).append (writes_copyWords mem (by rw [t.2]) (by rw [t.2]; decide) _)

theorem length_topics (topics : List Bytes32) :
    (topics.flatMap fun t => encodeFixed t).length = (1 + 32) * topics.length := by
  induction topics with
  | nil => rfl
  | cons t topics ih =>
    rw [flatMap_cons, length_append, ih, encodeFixed_length, lengthFixed_eq t (by decide), length_cons]
    have hone : lengthOfLength 32 = 1 := rfl
    omega

theorem length_encodeBytes (data : Bytes) : (encodeBytes data).length =
    if data.length = 1 ∧ data.headD 0 < kEmptyStringCode then 1
      else headerLength data.length + data.length := by
  rw [encodeBytes_length, headerLength_eq]
  match data with
  | [] => rfl
  | [b] =>
    by_cases hb : b < kEmptyStringCode
    · rw [lengthBytes, if_pos hb, if_pos ⟨rfl, hb⟩]
    · rw [lengthBytes, if_neg hb, if_neg fun h => hb h.2, Nat.add_comm]
      rfl
  | b :: c :: rest =>
    rw [lengthBytes, if_neg fun h => by simp at h, Nat.add_comm]
    simp

theorem writes_data (data : Bytes) (p : ℕ) : Writes p (writeData data) (encodeBytes data) := by
  have hhead := @Writes.onlyIf p _ _ (data.length ≠ 1 ∨ ¬ data.headD 0 < kEmptyStringCode) _
    fun _ => writes_string p data.length
  have hput := fun p => @Writes.onlyIf p _ _ (data.length ≠ 0) _ fun _ => Writes.put p data
  have hout : encodeBytes data =
      (if data.length ≠ 1 ∨
        ¬ data.headD 0 < kEmptyStringCode then encodeHeader ⟨false, data.length⟩ else []) ++
        if data.length ≠ 0 then data else [] := by
    match data with
    | [] => rfl
    | [b] =>
      by_cases hb : b < kEmptyStringCode
      · rw [if_neg (by simpa using hb), encodeBytes, if_pos hb]
        rfl
      · rw [if_pos (.inr hb), encodeBytes, if_neg hb]
        rfl
    | b :: c :: rest => rw [if_pos (.inl (by simp)), if_pos (by simp), encodeBytes_eq_header (by simp)]
  rw [hout]
  exact hhead.append (hput _)

/-! ## Logs -/

theorem logPayload_eq (l : Log) :
    logPayload l = (encodeFixed l.address ++ encodeList (l.topics.flatMap fun t => encodeFixed t) ++
      encodeBytes l.data).length := by
  rw [length_append, length_append, encodeList_length, length_topics, length_encodeBytes,
    encodeFixed_length, lengthFixed_address, ← headerLength_eq, logPayload]
  omega

theorem writes_log (l : Log) (p : ℕ) : Writes p (writeLog mem l) l.encode := by
  have hout : l.encode =
      encodeHeader ⟨true, logPayload l⟩ ++ ([UInt8.ofNat (0x80 + 20)] ++ (l.address.val ++
      (encodeHeader ⟨true, (1 + 32) * l.topics.length⟩ ++
        ((l.topics.flatMap fun t => encodeFixed t) ++ encodeBytes l.data)))) := by
    rw [Log.encode, encodeList, ← logPayload_eq, encodeFixed_eq l.address (by decide), encodeList,
      length_topics]
    simp only [append_assoc]
    rfl
  rw [hout]
  refine (writes_list p _).append ((Writes.put _ [_]).append ?_)
  refine (writes_copyWords mem (by rw [l.address.2]) (by rw [l.address.2]; decide) _).append
    ((writes_list _ _).append ?_)
  exact (Writes.forM _ _ fun t _ p => writes_topic mem t p).append (writes_data l.data _)

theorem logsPayload_eq (logs : List Log) : logsPayload logs = (logs.flatMap Log.encode).length := by
  rw [logsPayload, length_flatMap]
  refine congrArg List.sum (map_congr_left fun l _ => ?_)
  rw [Log.encode, encodeList_length, ← logPayload_eq, headerLength_eq]

/-! ## Receipts -/

theorem payload_eq :
    payload r = (encodeBool r.success ++ encodeUint r.cumulativeGasUsed ++ encodeFixed r.bloom ++
    encodeList (r.logs.flatMap Log.encode)).length := by
  rw [length_append, length_append, length_append, encodeBool_length, length_encodeUint_gas,
    encodeFixed_length, lengthFixed_eq r.bloom (by decide), encodeList_length, ← logsPayload_eq,
    ← headerLength_eq, ← headerLength_eq, payload]
  have hbloom : headerLength 256 = 3 := rfl
  omega

theorem total_eq : total r = r.encode.length := by
  rw [Receipt.encode, length_append, encodeList_length, ← payload_eq, ← headerLength_eq, total,
    apply_ite List.length]
  simp only [length_singleton, length_nil]
  omega

theorem writes_receipt (p : ℕ) : Writes p (writeReceipt mem r) r.encode := by
  have hout : r.encode = (if r.type ≠ .legacy then [r.type.toByte] else []) ++
      (encodeHeader ⟨true, payload r⟩ ++
      (encodeBool r.success ++
        (encodeUint r.cumulativeGasUsed ++ (encodeHeader ⟨false, 256⟩ ++ (r.bloom.val ++
        (encodeHeader ⟨true, logsPayload r.logs⟩ ++ r.logs.flatMap Log.encode)))))) := by
    rw [Receipt.encode, encodeList, ← payload_eq, encodeFixed_eq r.bloom (by decide), encodeList,
      ← logsPayload_eq]
    simp only [append_assoc]
  rw [hout]
  refine (Writes.onlyIf fun _ => Writes.put p _).append
    ((writes_list _ _).append ((Writes.put _ [_]).append ((writes_gas _ _).append ?_)))
  refine (writes_string _ 256).append
    ((writes_copyWords mem (by rw [r.bloom.2]) (by rw [r.bloom.2]; decide) _).append ?_)
  exact (writes_list _ _).append (Writes.forM _ _ fun l _ p => writes_log mem l p)

/-- **`rlp::encode` appends the receipt's encoding and changes nothing before it**: the type byte
unless the type is legacy, and the list of the status, the gas, the bloom and the logs; wherever the
buffer and the fields lie, and whatever the grown part of the buffer held. -/
theorem encode_appends (buf : Bytes) (grown : ℕ → UInt8) (r : Receipt) :
    encode mem buf grown r = some (buf ++ ((if r.type ≠ .legacy then [r.type.toByte] else []) ++
      encodeList (encodeBool r.success ++ encodeUint r.cumulativeGasUsed ++ encodeFixed r.bloom ++
        encodeList (r.logs.flatMap fun l => encodeList (encodeFixed l.address ++
          encodeList (l.topics.flatMap fun t => encodeFixed t) ++ encodeBytes l.data))))) := by
  have hfill := @Writes.fill _ _ buf ((range (total r)).map grown) (writes_receipt mem r buf.length)
    (by rw [length_map, length_range, total_eq])
  rw [encode, hfill]
  exact if_pos rfl

end ReceiptEncoding
end Zilkworm.Execution
