/-
# Hashing the code store while the input is read

`core/state_zz/code_store_stream.hpp`: the Airbender guest takes its input word by word.
`read_input_words` stores the words in order, parses the headers down to the code store's
from what it has stored, and hashes the payloads over 32 bytes as they come in; an entry
whose payload hashes to its key is marked in the handshake it leaves for `sanitize`.  Any
doubt about a header means plain reading from there on.

The memory ends up as the input (`Following`), and a mark means what `sanitize` takes it
for (`Handshake.holds`), so that `sanitize` does the same with the handshake and without it.
-/
import Zilkworm.Run.StateTransition
import Zilkworm.Witness.CodeBinding

namespace Zilkworm.Run

open List Lib Rlp Zilkworm.Types Witness State

section

variable (r : InputReader) (keccak256 : Bytes → Bytes32)

/-- The words still to come and the memory they are stored to. -/
structure Reader where
  input : Bytes
  dst : Bytes

namespace Reader

/-- `io.read`, and `io.word` for one word: the next `n` words, stored at `place`. -/
def read (place n : ℕ) (r : Reader) : Reader where
  input := r.input.drop (4 * n)
  dst := writeAt r.dst place (r.input.take (4 * n))

/-- `io.verify`: stores the words of the next `size` bytes at `place`; whether those bytes hash to
the 32 bytes at `key`. -/
def verify (place size key : ℕ) (r : Reader) : Bool × Reader :=
  let r := r.read place ((size + 3) / 4)
  ((keccak256 (slice r.dst place size)).val = slice r.dst key 32, r)

end Reader

/-- The loop of `read_code_store` over the data section at `data`, from the entry at `off` on:
the bytes read, the set bits and the reader. -/
def readEntries (data dataSize nBits : ℕ) :
    (fuel off : ℕ) → (bits : List ℕ) → Reader → ℕ × List ℕ × Reader
  | 0, off, bits, r => (off, bits, r)
  | fuel + 1, off, bits, r =>
    if dataSize - off < 40 then (off, bits, r)
    else
      let e := data + off
      let r := r.read e 10
      let lo := u32At r.dst e
      let len := lo - 32
      let padded := align8 len
      if u32At r.dst (e + 4) ≠ 0 ∨ lo < 32 ∨ dataSize - off - 40 < padded then (off + 40, bits, r)
      -- a short payload is left to `sanitize`
      else if 32 < len ∧ off / 8 < nBits then
        let (same, r) := r.verify keccak256 (e + 40) len (e + 8)
        let words := (len + 3) / 4
        readEntries data dataSize nBits fuel (off + 40 + padded)
          (if same then off / 8 :: bits else bits) (r.read (e + 40 + 4 * words) (padded / 4 - words))
      else
        readEntries data dataSize nBits fuel (off + 40 + padded) bits (r.read (e + 40) (padded / 4))

/-- `read_code_store`. -/
def readCodeStore (data dataSize nBits : ℕ) (r : Reader) :
    ℕ × List ℕ × Reader :=
  if dataSize < 8 then (0, [], r)
  else readEntries keccak256 data dataSize nBits dataSize 8 [] (r.read data 2)

/-- The reader and the words it has read. -/
structure InputReader extends Reader where
  pos : ℕ := 0

/-- `read_to`: plain reading up to a byte of the input. -/
def InputReader.readTo (endBytes : ℕ) (r : InputReader) : InputReader where
  toReader := if r.pos < endBytes / 4 then r.read (4 * r.pos) (endBytes / 4 - r.pos) else r.toReader
  pos := endBytes / 4

/-- `word_at`. -/
def InputReader.wordAt (off : ℕ) : ℕ := u32At r.dst (off / 4 * 4)

/-- `kInputMagicMFBD`, "MFBD". -/
def kInputMagicMFBD : ℕ := 0x4442464D

/-- `kBundleHeaderEnd`. -/
def kBundleHeaderEnd : ℕ := kInputHeaderSizeMFBD + flatBundleHeaderSize

/-- The envelope and the bundle's header are ones the reader knows: one bundle, right behind. -/
def InputReader.bundleKnown : Bool :=
  let directStateOff := r.wordAt (kInputHeaderSizeMFBD + 32)
  r.wordAt 0 = kInputMagicMFBD ∧ r.wordAt 4 = kInputVersionMFBD ∧ r.wordAt 8 = 1 ∧ r.wordAt 12 = 0 ∧
    r.wordAt kInputHeaderSizeMFBD = kFlatBundleMagic ∧
    r.wordAt (kInputHeaderSizeMFBD + 4) = kFlatBundleVersion ∧
    directStateOff % 8 = 0 ∧ flatBundleHeaderSize ≤ directStateOff

/-- The pre-state header at `start` is one the loader accepts, as far as the code store goes. -/
def InputReader.metaKnown (start : ℕ) : Bool :=
  let codeStoreOff := r.wordAt (start + 28)
  r.wordAt start = kMagic ∧ r.wordAt (start + 4) = kVersion ∧ codeStoreOff % 8 = 0 ∧
    preStateMetaSize ≤ codeStoreOff ∧ mphfHeaderSize ≤ r.wordAt (start + 32)

/-- The code store's header at `store`: its data section lies behind it, inside the code store and
the input. -/
def InputReader.storeKnown (store codeStoreSize limit : ℕ) : Bool :=
  let dataOff := r.wordAt (store + 48)
  let dataSize := r.wordAt (store + 52)
  r.wordAt store = kMphfCodeStoreMagic ∧ r.wordAt (store + 4) = kMphfMapVersion ∧
    r.wordAt (store + 8) ≠ 0 ∧ dataOff % 8 = 0 ∧ mphfHeaderSize ≤ dataOff ∧
    dataOff + dataSize ≤ codeStoreSize ∧ store + dataOff + dataSize ≤ limit

/-- `read_input_words` to the memory at address `addr`, with room for `nBits` marks: the memory and
the handshake, which is left as it was unless the code store was walked. -/
def readInputWords (addr fullWords nBits : ℕ)
    (handshake : CodeStoreVerified) (r : Reader) : Reader × CodeStoreVerified :=
  let limit := fullWords * 4
  let rest (r : InputReader) := (r.readTo limit).toReader
  let r : InputReader := { toReader := r }
  if limit < kBundleHeaderEnd then (rest r, handshake)
  else
    let r := r.readTo kBundleHeaderEnd
    let start := kInputHeaderSizeMFBD + r.wordAt (kInputHeaderSizeMFBD + 32)
    if r.bundleKnown = false ∨ limit < start + preStateMetaSize then (rest r, handshake)
    else
      let r := r.readTo (start + preStateMetaSize)
      let store := start + r.wordAt (start + 28)
      let codeStoreSize := r.wordAt (start + 32)
      if r.metaKnown start = false ∨ limit < store + mphfHeaderSize then (rest r, handshake)
      else
        let r := r.readTo (store + mphfHeaderSize)
        if r.storeKnown store codeStoreSize limit = false then (rest r, handshake)
        else
          let data := store + r.wordAt (store + 48)
          let dataSize := r.wordAt (store + 52)
          let r := r.readTo data
          let (read, bits, r') := readCodeStore keccak256 data dataSize nBits r.toReader
          (rest { toReader := r', pos := r.pos + read / 4 },
            if 8 ≤ dataSize then ⟨addr + data, dataSize, bits, nBits⟩ else handshake)

/-! ## The memory is the input -/

/-- The reader has stored the first `pos` words of `input` over the memory `mem`, and the rest is to
come. -/
structure Following (input mem : Bytes) (pos : ℕ) (r : Reader) : Prop where
  rest : r.input = input.drop (4 * pos)
  dst : r.dst = input.take (4 * pos) ++ mem.drop (4 * pos)
  room : 4 * pos ≤ mem.length
  words : 4 * pos ≤ input.length

namespace Following

variable {input mem : Bytes} {pos n : ℕ} {r : Reader}

theorem stored (h : Following input mem pos r) : r.dst.take (4 * pos) = input.take (4 * pos) := by
  have hlen : (input.take (4 * pos)).length = 4 * pos := length_take_of_le h.words
  rw [h.dst, take_append_of_le_length hlen.ge, take_of_length_le hlen.le]

theorem read (h : Following input mem pos r) (hs : 4 * (pos + n) ≤ mem.length)
    (hi : 4 * (pos + n) ≤ input.length) : Following input mem (pos + n) (r.read (4 * pos) n) := by
  have hbytes : (r.input.take (4 * n)).length = 4 * n := by
    rw [h.rest, length_take, length_drop]; omega
  have hdone : (input.take (4 * pos)).length = 4 * pos := length_take_of_le h.words
  have hw : 4 * pos + (r.input.take (4 * n)).length ≤ r.dst.length := by
    rw [hbytes, h.dst, length_append, hdone, length_drop]; omega
  refine ⟨?_, ?_, hs, hi⟩
  · rw [Reader.read, h.rest, drop_drop, Nat.mul_add]
  · have hbehind : r.dst.drop (4 * pos + 4 * n) = mem.drop (4 * pos + 4 * n) := by
      rw [h.dst, drop_append, hdone, drop_eq_nil_of_le (by omega), nil_append,
        drop_drop]
      congr 1
      omega
    rw [Reader.read, writeAt_eq hw, hbytes, h.stored, hbehind, h.rest, Nat.mul_add, take_add]

theorem slice_eq (h : Following input mem pos r) {q k : ℕ} (hq : q + k ≤ 4 * pos) :
    slice r.dst q k = slice input q k := by
  have hcut : ∀ b : Bytes, slice b q k = slice (b.take (4 * pos)) q k := fun b => by
    simp only [slice, drop_take, take_take]
    rw [Nat.min_eq_left (by omega)]
  rw [hcut, h.stored, ← hcut]

theorem u32At_eq (h : Following input mem pos r) {q : ℕ} (hq : q + 4 ≤ 4 * pos) :
    u32At r.dst q = u32At input q := congrArg leNat (h.slice_eq hq)

end Following

/-- **An entry `[len][key][payload]` starts at `off`** of the data section at `data`, and its
payload hashes to its key. -/
structure EntryHashes (keccak256 : Bytes → Bytes32) (input : Bytes) (data dataSize off : ℕ) : Prop where
  start : 8 ≤ off
  high : u32At input (data + off + 4) = 0
  key : 32 ≤ u32At input (data + off)
  inside : off + 8 + u32At input (data + off) ≤ dataSize
  hash : (keccak256 (slice input (data + off + 40) (u32At input (data + off) - 32))).val =
    slice input (data + off + 8) 32

/-- **The walk over the data section** stores the words it reads and marks entries that hash to
their keys. -/
theorem readEntries_spec {keccak256 : Bytes → Bytes32} {input mem : Bytes} {data dataSize nBits : ℕ}
    (hdata : data % 8 = 0) (hs : data + dataSize ≤ mem.length) (hi : data + dataSize ≤ input.length)
    {fuel off : ℕ} {bits : List ℕ} {r : Reader} (hoff : off % 8 = 0) (hstart : 8 ≤ off)
    (hle : off ≤ dataSize) (h : Following input mem ((data + off) / 4) r)
    (hbits : ∀ k ∈ bits, k < nBits ∧ EntryHashes keccak256 input data dataSize (8 * k)) :
    let out := readEntries keccak256 data dataSize nBits fuel off bits r
    out.1 % 4 = 0 ∧ out.1 ≤ dataSize ∧ Following input mem ((data + out.1) / 4) out.2.2 ∧
      ∀ k ∈ out.2.1, k < nBits ∧ EntryHashes keccak256 input data dataSize (8 * k) := by
  induction fuel generalizing off bits r with
  | zero => exact ⟨by simp only [readEntries]; omega, hle, h, hbits⟩
  | succ fuel ih =>
    unfold readEntries
    split
    · exact ⟨by simp only; omega, hle, h, hbits⟩
    rename_i hroom
    have hhead : Following input mem ((data + off) / 4 + 10) (r.read (data + off) 10) := by
      have := h.read (n := 10) (by omega) (by omega)
      rwa [show 4 * ((data + off) / 4) = data + off by omega] at this
    have hlo := hhead.u32At_eq (q := data + off) (by omega)
    have hhigh := hhead.u32At_eq (q := data + off + 4) (by omega)
    dsimp only
    rw [hlo, hhigh]
    split
    · refine ⟨by simp only; omega, by simp only; omega, ?_, hbits⟩
      simp only
      rwa [show (data + (off + 40)) / 4 = (data + off) / 4 + 10 by omega]
    rename_i hgood
    push Not at hgood
    obtain ⟨hhi, hkey, hfit⟩ := hgood
    have halign : align8 (u32At input (data + off) - 32) % 8 = 0 := by unfold align8; omega
    have hpad := le_align8 (u32At input (data + off) - 32)
    generalize hlen : u32At input (data + off) - 32 = len at *
    generalize align8 len = padded at *
    have hnext : ∀ w, w = (data + off) / 4 + 10 + padded / 4 → w = (data + (off + 40 + padded)) / 4 := by
      intro w hw; omega
    split
    · next hmark =>
      -- the payload is hashed on the way
      have hpay : Following input mem ((data + off) / 4 + 10 + (len + 3) / 4)
          ((r.read (data + off) 10).read (data + off + 40) ((len + 3) / 4)) := by
        have := hhead.read (n := (len + 3) / 4) (by omega) (by omega)
        rwa [show 4 * ((data + off) / 4 + 10) = data + off + 40 by omega] at this
      have hrest := hpay.read (n := padded / 4 - (len + 3) / 4) (by omega) (by omega)
      rw [show 4 * ((data + off) / 4 + 10 + (len + 3) / 4) =
        data + off + 40 + 4 * ((len + 3) / 4) by omega,
        hnext (_ + _ + _ + _) (by omega)] at hrest
      refine ih (by omega) (by omega) (by omega) hrest fun k hk => ?_
      split at hk
      · rename_i hsame
        rcases mem_cons.mp hk with rfl | hk
        · simp only [Reader.verify, decide_eq_true_eq] at hsame
          rw [hpay.slice_eq (by omega), hpay.slice_eq (by omega)] at hsame
          rw [show 8 * (off / 8) = off by omega]
          exact ⟨hmark.2, hstart, hhi, hkey, by omega, by rw [hlen]; exact hsame⟩
        · exact hbits k hk
      · exact hbits k hk
    · have hrest := hhead.read (n := padded / 4) (by omega) (by omega)
      rw [show 4 * ((data + off) / 4 + 10) = data + off + 40 by omega, hnext (_ + _) (by omega)] at hrest
      exact ih (by omega) (by omega) (by omega) hrest hbits

theorem InputReader.readTo_following {input mem : Bytes} {endBytes : ℕ} {r : InputReader}
    (h : Following input mem r.pos r.toReader) (hpos : r.pos ≤ endBytes / 4) (hs : endBytes ≤ mem.length)
    (hi : endBytes ≤ input.length) :
    Following input mem (r.readTo endBytes).pos (r.readTo endBytes).toReader := by
  unfold readTo
  dsimp only
  split
  · have := h.read (n := endBytes / 4 - r.pos) (by omega) (by omega)
    rwa [Nat.add_sub_cancel' hpos] at this
  · rwa [show endBytes / 4 = r.pos by omega]

/-- What a handshake of the reader says: a data section of the input, and marked entries that hash
to their keys. -/
structure Marked (keccak256 : Bytes → Bytes32) (input : Bytes) (addr limit nBits : ℕ)
    (v : CodeStoreVerified) (data : ℕ) : Prop where
  addr : v.data = addr + data
  inside : data + v.dataSize ≤ limit
  hashes : ∀ k ∈ v.bits, k < nBits ∧ EntryHashes keccak256 input data v.dataSize (8 * k)

/-- **The reader leaves the input in memory**, and a handshake whose marks hold. -/
theorem readInputWords_spec {input dst : Bytes} {fullWords : ℕ}
    (addr nBits : ℕ) (v : CodeStoreVerified) (hi : fullWords * 4 ≤ input.length)
    (hs : fullWords * 4 ≤ dst.length) :
    let out := readInputWords keccak256 addr fullWords nBits v ⟨input, dst⟩
    Following input dst fullWords out.1 ∧
      (out.2 = v ∨ ∃ data, Marked keccak256 input addr (fullWords * 4) nBits out.2 data) := by
  have hrest : ∀ r : InputReader, Following input dst r.pos r.toReader → r.pos ≤ fullWords →
      Following input dst fullWords (r.readTo (fullWords * 4)).toReader := by
    intro r hr hpos
    have := @InputReader.readTo_following input dst (fullWords * 4) r hr (by omega) hs hi
    rwa [show (r.readTo (fullWords * 4)).pos = fullWords from Nat.mul_div_cancel _ (by decide)] at this
  have h₀ : Following input dst 0 ⟨input, dst⟩ := ⟨by simp, by simp, by omega, by omega⟩
  unfold readInputWords
  dsimp only
  split
  · exact ⟨hrest _ h₀ (by simp), .inl rfl⟩
  rename_i hhead
  have h₁ := @InputReader.readTo_following input dst kBundleHeaderEnd { toReader := ⟨input, dst⟩ }
    h₀ (by simp) (by omega) (by omega)
  have hp₁ : (InputReader.readTo kBundleHeaderEnd { toReader := ⟨input, dst⟩ }).pos = 18 := rfl
  simp only [kBundleHeaderEnd, kInputHeaderSizeMFBD, flatBundleHeaderSize] at hhead
  generalize InputReader.readTo kBundleHeaderEnd { toReader := ⟨input, dst⟩ } = r₁ at h₁ hp₁ ⊢
  split
  · exact ⟨hrest _ h₁ (by omega), .inl rfl⟩
  rename_i hbundle
  obtain ⟨hknown, hmeta⟩ := not_or.mp hbundle
  replace hknown := of_decide_eq_true ((Bool.not_eq_false _).mp hknown)
  simp only [flatBundleHeaderSize] at hknown
  generalize hstart : kInputHeaderSizeMFBD + r₁.wordAt (kInputHeaderSizeMFBD + 32) = start at hmeta ⊢
  have hstart : start % 8 = 0 ∧ 72 ≤ start := by
    simp only [kInputHeaderSizeMFBD] at hstart hknown; omega
  have h₂ := @InputReader.readTo_following input dst (start + preStateMetaSize) r₁ h₁
    (by simp only [preStateMetaSize]; omega) (by omega) (by omega)
  have hp₂ : (r₁.readTo (start + preStateMetaSize)).pos = (start + 68) / 4 := rfl
  simp only [preStateMetaSize] at hmeta
  generalize r₁.readTo (start + preStateMetaSize) = r₂ at h₂ hp₂ ⊢
  split
  · exact ⟨hrest _ h₂ (by omega), .inl rfl⟩
  rename_i hpre
  obtain ⟨hknown, hstore⟩ := not_or.mp hpre
  replace hknown := of_decide_eq_true ((Bool.not_eq_false _).mp hknown)
  simp only [preStateMetaSize] at hknown
  generalize hplace : start + r₂.wordAt (start + 28) = store at hstore ⊢
  have hplace : store % 8 = 0 ∧ start + 68 ≤ store := by omega
  have h₃ := @InputReader.readTo_following input dst (store + mphfHeaderSize) r₂ h₂
    (by simp only [mphfHeaderSize]; omega) (by omega) (by omega)
  have hp₃ : (r₂.readTo (store + mphfHeaderSize)).pos = (store + 56) / 4 := rfl
  simp only [mphfHeaderSize] at hstore
  generalize r₂.readTo (store + mphfHeaderSize) = r₃ at h₃ hp₃ ⊢
  split
  · exact ⟨hrest _ h₃ (by omega), .inl rfl⟩
  rename_i hknown
  replace hknown := of_decide_eq_true ((Bool.not_eq_false _).mp hknown)
  simp only [mphfHeaderSize] at hknown
  obtain ⟨-, -, -, hoff, hbehind, -, hend⟩ := hknown
  generalize r₃.wordAt (store + 52) = dataSize at hend ⊢
  generalize hdata : store + r₃.wordAt (store + 48) = data at hend ⊢
  have hdata : data % 8 = 0 ∧ store + 56 ≤ data := by omega
  have h₄ := @InputReader.readTo_following input dst data r₃ h₃ (by omega) (by omega) (by omega)
  have hp₄ : (r₃.readTo data).pos = data / 4 := rfl
  generalize r₃.readTo data = r₄ at h₄ hp₄ ⊢
  rw [hp₄] at h₄ ⊢
  -- the walk over the data section
  unfold readCodeStore
  split
  · rename_i hsmall
    simp only [if_neg (show ¬ 8 ≤ dataSize by omega)]
    exact ⟨hrest { toReader := r₄.toReader, pos := data / 4 + 0 / 4 } (by simpa using h₄)
      (by simp only; omega), .inl trivial⟩
  · rename_i hbig
    have hsent := h₄.read (n := 2) (by omega) (by omega)
    rw [show 4 * (data / 4) = data by omega, show data / 4 + 2 = (data + 8) / 4 by omega] at hsent
    obtain ⟨hmod, hle, hf, hmarks⟩ := @readEntries_spec keccak256 input dst data dataSize nBits hdata.1
      (by omega) (by omega) dataSize 8 [] _ (by decide) le_rfl (by omega) hsent (by simp)
    simp only [if_pos (show 8 ≤ dataSize by omega)]
    generalize readEntries keccak256 data dataSize nBits dataSize 8 []
      (r₄.toReader.read data 2) = out at *
    refine ⟨hrest { toReader := out.2.2, pos := data / 4 + out.1 / 4 } ?_ (by simp only; omega),
      .inr ⟨data, rfl, hend, hmarks⟩⟩
    simp only
    rwa [show data / 4 + out.1 / 4 = (data + out.1) / 4 by omega]

/-- **The handshakes a witness can meet**: none, or one that `read_input_words` left over memory
that still holds, where the blob lies, the bytes it read. -/
inductive Handshake (keccak256 : Bytes → Bytes32) (s : PreState) : CodeStoreVerified → Prop
  | none : Handshake keccak256 s {}
  | read {input dst mem : Bytes} {addr fullWords nBits start : ℕ} (hi : fullWords * 4 ≤ input.length)
      (hs : fullWords * 4 ≤ dst.length)
      (hmem : mem.take (fullWords * 4) =
        (readInputWords keccak256 addr fullWords nBits {} ⟨input, dst⟩).1.dst.take (fullWords * 4))
      (haddr : s.addr = addr + start) (hbytes : s.bytes = slice mem start s.bytes.length) :
      Handshake keccak256 s (readInputWords keccak256 addr fullWords nBits {} ⟨input, dst⟩).2

/-- **A mark means what `sanitize` takes it for.** -/
theorem Handshake.holds {keccak256 : Bytes → Bytes32} {s : PreState} {v : CodeStoreVerified}
    (h : Handshake keccak256 s v) : v.Holds keccak256 s := by
  cases h with
  | none => exact CodeStoreVerified.holds_empty keccak256 s
  | @read input dst mem addr fullWords nBits start hi hs hmem haddr hbytes =>
    obtain ⟨hf, hv⟩ := readInputWords_spec keccak256 addr nBits {} hi hs
    generalize readInputWords keccak256 addr fullWords nBits {} ⟨input, dst⟩ = out at *
    rcases hv with hv | ⟨data, hmark⟩
    · rw [hv]
      exact CodeStoreVerified.holds_empty keccak256 s
    intro m hm off hoff hcov
    rw [Option.mem_def] at hm
    simp only [CodeStoreVerified.covers, hm, decide_eq_true_eq] at hcov
    obtain ⟨-, hdata, hsize, halign, -, hbit⟩ := hcov
    have hentry := (hmark.hashes _ hbit).2
    rw [show 8 * (off / 8) = off by omega] at hentry
    have hl := (PreState.codeStoreLayout hm (MphfMap.forEachOffset_keys hoff)).layout
    have hplace : data = start + m.data := by
      have := hmark.addr
      omega
    have hsection := hmark.inside
    have hend := (hl.entries off hoff).1
    have hblob : m.data + m.hdr.dataSize ≤ s.bytes.length := by
      have h1 := hl.dataEnd
      have h2 := hl.region
      simp only [MphfMap.data]
      omega
    -- a range of the data section reads in the blob as it does in the input
    have hsame : ∀ q k, q + k ≤ m.data + m.hdr.dataSize →
        slice s.bytes q k = slice input (start + q) k := by
      intro q k hq
      have hcut : ∀ b : Bytes, slice b (start + q) k =
          slice (b.take (fullWords * 4)) (start + q) k := fun b => by
        simp only [slice, drop_take, take_take]
        rw [Nat.min_eq_left (by omega)]
      have hblob : slice s.bytes q k = slice mem (start + q) k := by
        rw [hbytes]
        simp only [slice, drop_take, take_take, drop_drop]
        rw [Nat.min_eq_left (by omega)]
      rw [hblob, hcut mem, hmem, show fullWords * 4 = 4 * fullWords from Nat.mul_comm _ _, hf.stored,
        show 4 * fullWords = fullWords * 4 from Nat.mul_comm _ _, ← hcut input]
    have hlow : u32At s.bytes (m.data + off) = u32At input (data + off) := by
      rw [u32At, hsame _ _ (by omega), u32At, hplace, Nat.add_assoc]
    have hhigh : u32At s.bytes (m.data + off + 4) = 0 := by
      rw [u32At, hsame _ _ (by omega), ← hentry.high, u32At, hplace, Nat.add_assoc, Nat.add_assoc,
        Nat.add_assoc]
    have hlen : m.entryLen s.bytes off = u32At input (data + off) := by
      rw [MphfMap.entryLen, u64At_eq_u32At hhigh, hlow]
    have hkey := hentry.key
    rw [MphfMap.payload, MphfMap.key, hsame _ _ (by simp only [kPayloadOffset]; omega),
      hsame _ _ (by omega), hlen,
      show start + (m.data + off + 8 + kPayloadOffset) =
          data + off + 40 by simp only [kPayloadOffset]; omega,
      show start + (m.data + off + 8) = data + off + 8 by omega]
    exact hentry.hash

/-- **The handshake does not change what `sanitize` does**: an entry it vouches for passes either
way. -/
theorem sanitize_eq_of_holds {keccak256 : Bytes → Bytes32} {s : PreState} {v : CodeStoreVerified}
    (h : v.Holds keccak256 s) :
    sanitize keccak256 (v.covers s) s = sanitize keccak256 (CodeStoreVerified.covers {} s) s := by
  have hnone (off : ℕ) : CodeStoreVerified.covers {} s off = false := by
    unfold CodeStoreVerified.covers
    split
    · rfl
    · simp
  have hentry (m : MphfMap) (hm : m ∈ s.codeStoreMap) (off : ℕ) (hoff : off ∈ m.forEachOffset s.bytes) :
      codeEntryOk keccak256 (v.covers s) s.bytes m off =
        codeEntryOk keccak256 (CodeStoreVerified.covers {} s) s.bytes m off := by
    unfold codeEntryOk
    rw [hnone, Bool.false_or]
    cases hcov : v.covers s off with
    | false => rfl
    | true => exact (decide_eq_true (h m hm off hoff hcov)).symm
  have hall : (∃ m ∈ s.codeStoreMap, (m.forEachOffset s.bytes).all
        (codeEntryOk keccak256 (v.covers s) s.bytes m) = false) ↔
      ∃ m ∈ s.codeStoreMap, (m.forEachOffset s.bytes).all
        (codeEntryOk keccak256 (CodeStoreVerified.covers {} s) s.bytes m) = false := by
    refine exists_congr fun m => and_congr_right fun hm => ?_
    rw [all_eq_false, all_eq_false]
    exact exists_congr fun off => and_congr_right fun hoff => by rw [hentry m hm off hoff]
  unfold sanitize
  simp only [hall]

/-- **The streaming reader changes nothing but time.**  For every input and every number of full
words, the reader takes exactly these words and stores exactly them; a bit it sets is of an entry of
the data section whose payload hashes to its key; and for every blob in the memory it leaves, also
behind the full words, `sanitize` gives the same verdict and the same state with its handshake as
with none. -/
theorem readInputWords_transparent (input dst : Bytes)
    (addr fullWords nBits : ℕ) (hi : fullWords * 4 ≤ input.length) (hs : fullWords * 4 ≤ dst.length) :
    let out := readInputWords keccak256 addr fullWords nBits {} ⟨input, dst⟩
    (out.1.input = input.drop (fullWords * 4) ∧
      out.1.dst = input.take (fullWords * 4) ++ dst.drop (fullWords * 4)) ∧
    (∀ k ∈ out.2.bits, k < nBits ∧ ∃ data, out.2.data = addr + data ∧
      data + out.2.dataSize ≤ fullWords * 4 ∧ EntryHashes keccak256 input data out.2.dataSize (8 * k)) ∧
    ∀ (mem : Bytes) (s : PreState) (start : ℕ) (sealing : Bool),
      mem.take (fullWords * 4) = out.1.dst.take (fullWords * 4) → s.addr = addr + start →
      s.bytes = slice mem start s.bytes.length →
      sanitizeStore keccak256 sealing out.2 s = sanitizeStore keccak256 sealing {} s := by
  intro out
  obtain ⟨hf, hv⟩ := readInputWords_spec keccak256 addr nBits {} hi hs
  refine ⟨⟨?_, ?_⟩, ?_, ?_⟩
  · rw [hf.rest, Nat.mul_comm]
  · rw [hf.dst, Nat.mul_comm]
  · intro k hk
    rcases hv with hv | ⟨data, hmark⟩
    · rw [hv] at hk
      cases hk
    · obtain ⟨hroom, hentry⟩ := hmark.hashes k hk
      exact ⟨hroom, data, hmark.addr, hmark.inside, hentry⟩
  · intro mem s start sealing hmem haddr hbytes
    have hholds := (Handshake.read hi hs hmem haddr hbytes).holds
    rw [sanitizeStore, sanitize_eq_of_holds hholds, ← sanitizeStore]

end

namespace Streamed

/-- A code of 33 bytes. -/
def payload : Bytes := replicate 33 0x5B

/-- Keccak-256 on the one string hashed here. -/
def keccak256 (b : Bytes) : Bytes32 :=
  if b = payload then
    Bytes32.ofNat 0xb13f926e7f5f9c6f55a34163e3a3d93d5fe516397c36c1198f145c184556a7b0
  else zeroBytes32

/-- The sentinel and one entry. -/
def dataSection : Bytes :=
  replicate 8 0 ++ toLe 8 65 ++ (keccak256 payload).val ++ payload ++ replicate 7 0

/-- An envelope with one bundle whose pre-state has nothing but this code store. -/
def input : Bytes :=
  toLe 4 kInputMagicMFBD ++ toLe 4 kInputVersionMFBD ++ toLe 8 1 ++
    (toLe 4 kFlatBundleMagic ++ toLe 4 kFlatBundleVersion ++ replicate 24 0 ++ toLe 4 56 ++
      replicate 20 0) ++
    (toLe 4 kMagic ++ toLe 4 kVersion ++ replicate 20 0 ++ toLe 4 72 ++ toLe 4 144 ++
      replicate 36 0) ++
    (toLe 4 kMphfCodeStoreMagic ++ toLe 4 kMphfMapVersion ++ toLe 4 1 ++ replicate 36 0 ++
      toLe 4 56 ++ toLe 4 88) ++ dataSection

end Streamed

/-- The entry at offset 8 is marked, and hashes to its key. -/
theorem readInputWords_transparent_sample :
    let out := readInputWords Streamed.keccak256 4096 72 64 {} ⟨Streamed.input, replicate 288 0⟩
    out.2.bits = [1] ∧ out.1.dst = Streamed.input ∧
      ∃ data, out.2.data = 4096 + data ∧
        EntryHashes Streamed.keccak256 Streamed.input data out.2.dataSize 8 := by
  obtain ⟨⟨-, hdst⟩, hbits, -⟩ := readInputWords_transparent Streamed.keccak256 Streamed.input
    (replicate 288 0) 4096 72 64 (by decide +kernel) (by decide +kernel)
  have hone : (readInputWords Streamed.keccak256 4096 72 64 {}
      ⟨Streamed.input, replicate 288 0⟩).2.bits = [1] := by decide +kernel
  obtain ⟨-, data, hdata, -, hentry⟩ := hbits 1 (by rw [hone]; exact mem_singleton_self 1)
  refine ⟨hone, ?_, data, hdata, hentry⟩
  rw [hdst]
  decide +kernel

end Zilkworm.Run
