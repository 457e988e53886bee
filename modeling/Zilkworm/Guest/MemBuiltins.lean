/-
# `memcpy` and `memmove` of the guests

`prover/guest_common/src/mem_builtins.cpp`: the copies of both zkVM guests, in aligned machine
words. A `Build` is what a guest sets by macros: the size of `ZILK_MEM_WORD`, whether there are
32-byte block copies, and the width of `uintptr_t`.

Pointers are addresses.  The code computes them by pointer arithmetic, which stays inside the ranges
or one past their ends, or, where it says so, by integer arithmetic, which may wrap below the start
of a range: that is modelled modulo `2 ^ addrBits`.  A loop whose end is a multiple of its step away
is a recursion on the number of its rounds; a jump into a run of cases that fall through is a
recursion on the case.  `copy_words` changes its two arguments in place, so it returns them.
-/
import Zilkworm.Lib.WordMachine

namespace Zilkworm.Guest

open Lib

/-- What a guest chooses by its macros. -/
structure Build where
  /-- `WORD_SIZE`. -/
  wordSize : ℕ
  /-- `ZILK_MEM_BLOCK32`. -/
  block32 : Bool
  /-- The bits of `uintptr_t`. -/
  addrBits : ℕ
  wordSize_eq : wordSize = 4 ∨ wordSize = 8
  addrBits_eq : addrBits = 32 ∨ addrBits = 64

namespace Build

/-- `word_alias`. -/
abbrev Word (b : Build) : Type := BitVec (8 * b.wordSize)

/-- `N32`, the words in 32 bytes. -/
def n32 (b : Build) : ℕ := 32 / b.wordSize

/-- `COPY_RUN_WORDS`. -/
def copyRunWords : ℕ := 32

/-- The base `p + count * size - max * size` of a run, in integer arithmetic. -/
def runBase (b : Build) (p count max size : ℕ) : ℕ :=
  (p + count * size + (2 ^ b.addrBits - max * size)) % 2 ^ b.addrBits

/-- The address `offset` bytes from a base that may have wrapped. -/
def offBase (b : Build) (base offset : ℕ) : ℕ := (base + offset) % 2 ^ b.addrBits

variable (b : Build)

/-- The words `i`, `i + 1`, … of `s` copied to `d`, `count` of them. -/
def copyFrom (d s i : ℕ) : ℕ → Exec Unit
  | 0 => pure ()
  | count + 1 => do
    load b.wordSize (s + i * b.wordSize) >>= store (d + i * b.wordSize)
    copyFrom d s (i + 1) count

/-- `copy_n`. -/
def copyN (d s n : ℕ) : Exec Unit := copyFrom b d s 0 n

/-- The cases `k`, `k - 1`, …, 1 of `blocks_upto`. -/
def blocksRun (max step de se : ℕ) : ℕ → Exec Unit
  | 0 => pure ()
  | k + 1 => do
    copyBlock 32 (b.offBase de ((max - (k + 1)) * b.n32 * b.wordSize))
      (b.offBase se ((max - (k + 1)) * step * b.wordSize))
    blocksRun max step de se k

/-- `blocks_upto`. -/
def blocksUpto (max step d s blocks : ℕ) : Exec Unit :=
  if blocks ≤ max then
    b.blocksRun max step (b.runBase d blocks max 32)
      (if step ≠ 0 then b.runBase s blocks max 32 else s) blocks
  else unreachable

/-- `scatter_aligned`: the low `len` bytes of `v` to the word at `d`. -/
def scatterAligned (d : ℕ) (v : b.Word) (len : ℕ) : Exec Unit :=
  if 1 ≤ len ∧ len < b.wordSize then do
    let mask := (1#(8 * b.wordSize) <<< (8 * len)) - 1#(8 * b.wordSize)
    let w ← load b.wordSize d
    store d ((w &&& ~~~mask) ||| (v &&& mask))
  else unreachable

/-- The cases `k`, `k - 1`, …, 1 of `copy_bytes`, on the ends of the ranges. -/
def copyBytesRun (d s : ℕ) : ℕ → Exec Unit
  | 0 => pure ()
  | k + 1 => do
    load 1 (s - (k + 1)) >>= store (d - (k + 1))
    copyBytesRun d s k

/-- `copy_bytes`. -/
def copyBytes (max d s n : ℕ) : Exec Unit :=
  if n ≤ max then copyBytesRun (d + n) (s + n) n else unreachable

/-- The cases `k`, `k - 1`, …, 1 of `copy_words_upto`. -/
def copyWordsRun (max de se : ℕ) : ℕ → Exec Unit
  | 0 => pure ()
  | k + 1 => do
    load b.wordSize (b.offBase se ((max - (k + 1)) * b.wordSize)) >>=
      store (b.offBase de ((max - (k + 1)) * b.wordSize))
    copyWordsRun max de se k

/-- `copy_words_upto`. -/
def copyWordsUpto (max d s words : ℕ) : Exec Unit :=
  if words ≤ max then
    b.copyWordsRun max (b.runBase d words max b.wordSize) (b.runBase s words max b.wordSize) words
  else unreachable

/-- The loop of `copy_words`: 16 words a round. -/
def copyWordsLoop : ℕ → ℕ → ℕ → Exec (ℕ × ℕ)
  | 0, d, s => pure (d, s)
  | rounds + 1, d, s => do
    b.copyN d s 16
    copyWordsLoop rounds (d + 16 * b.wordSize) (s + 16 * b.wordSize)

/-- `copy_words`, with the pointers it leaves. -/
def copyWords (d s words : ℕ) : Exec (ℕ × ℕ) := do
  let (d, s) ← b.copyWordsLoop (words / 16) d s
  b.copyWordsUpto 15 d s (words % 16)
  return (d + words % 16 * b.wordSize, s + words % 16 * b.wordSize)

/-- `if (rest != 0) scatter_aligned(dw, sw[0], rest)`, the end of every copy between word-aligned
places. -/
def copyRest (dw sw rest : ℕ) : Exec Unit :=
  if rest ≠ 0 then do
    let v ← load b.wordSize sw
    b.scatterAligned dw v rest
  else pure ()

/-- The words `sw[i]`, `sw[i + 1]`, …, `count` of them. -/
def loadWords (sw i : ℕ) : ℕ → Exec (List b.Word)
  | 0 => pure []
  | count + 1 => do
    let w ← load b.wordSize (sw + i * b.wordSize)
    let ws ← loadWords sw (i + 1) count
    return w :: ws

/-- Stores the words to `dw[i]`, `dw[i + 1]`, …. -/
def storeWords (dw i : ℕ) : List b.Word → Exec Unit
  | [] => pure ()
  | v :: vs => do
    store (dw + i * b.wordSize) v
    storeWords dw (i + 1) vs

/-- Each word re-laned with the next: its bytes from `lo` bits on and the low bytes of the next. -/
def relane (lo hi : ℕ) (w : List b.Word) : List b.Word :=
  List.zipWith (fun (x y : b.Word) => (x >>> lo) ||| (y <<< hi)) w w.tail

/-- `store_relaned`: each word from `dw[1]` on is the high bytes of a word and the low bytes of the
next. -/
def storeRelaned (dw : ℕ) (v : List b.Word) (lo hi : ℕ) : Exec Unit :=
  b.storeWords dw 1 (b.relane hi lo v)

/-- The words of the 32 source bytes, `copy32_any`'s reads. -/
def load32 (s : ℕ) : Exec (List b.Word) :=
  let soff := s % b.wordSize
  let sw := s - soff
  if soff = 0 then b.loadWords sw 0 b.n32
  else do
    -- one word more: the last holds the final source bytes
    let w ← b.loadWords sw 0 (b.n32 + 1)
    return b.relane (8 * soff) (8 * (b.wordSize - soff)) w

/-- `copy32_any`'s stores of the words. -/
def store32 (d : ℕ) (v : List b.Word) : Exec Unit :=
  let doff := d % b.wordSize
  let dw := d - doff
  if doff = 0 then b.storeWords dw 0 v
  else do
    let lo := 8 * doff
    let hi := 8 * (b.wordSize - doff)
    let mask := ~~~(0#(8 * b.wordSize)) <<< lo
    let first ← load b.wordSize dw
    store dw ((first &&& ~~~mask) ||| (v.headD 0 <<< lo))
    b.storeRelaned dw v lo hi
    let last ← load b.wordSize (dw + b.n32 * b.wordSize)
    store (dw + b.n32 * b.wordSize) ((last &&& mask) ||| (v.getLastD 0 >>> hi))

/-- `copy32_any`. -/
def copy32Any (d s : ℕ) : Exec Unit := b.load32 s >>= b.store32 d

/-- The five copies of `copy_unaligned` for an address, in 4-byte words. -/
def copyHalves (d s i : ℕ) : ℕ → Exec Unit
  | 0 => pure ()
  | count + 1 => do
    load 4 (s + 4 * i) >>= store (d + 4 * i)
    copyHalves d s (i + 1) count

/-- The loop of `copy_unaligned` over re-laned words; `w0` is the word at `sw`. -/
def relanedLoop (phase : ℕ) : ℕ → ℕ → ℕ → b.Word → Exec (ℕ × ℕ × b.Word)
  | 0, dw, sw, w0 => pure (dw, sw, w0)
  | words + 1, dw, sw, w0 => do
    let w1 ← load b.wordSize (sw + b.wordSize)
    store dw ((w0 >>> (8 * phase)) ||| (w1 <<< (8 * (b.wordSize - phase))))
    relanedLoop phase words (dw + b.wordSize) (sw + b.wordSize) w1

/-- The last bytes of `copy_unaligned`, out of phase. -/
def relanedRest (phase dw sw : ℕ) (w0 : b.Word) (rest : ℕ) : Exec Unit :=
  if rest ≠ 0 then do
    if phase + rest > b.wordSize then
      -- the tail continues into the next source word
      let w1 ← load b.wordSize (sw + b.wordSize)
      b.scatterAligned dw ((w0 >>> (8 * phase)) ||| (w1 <<< (8 * (b.wordSize - phase)))) rest
    else b.scatterAligned dw (w0 >>> (8 * phase)) rest
  else pure ()

/-- `copy_unaligned` from the first destination word boundary on. -/
def copyWordAligned (d s n : ℕ) : Exec Unit :=
  let words := n / b.wordSize
  let rest := n % b.wordSize
  let phase := s % b.wordSize
  if phase = 0 then do
    let (dw, sw) ← b.copyWords d s words
    b.copyRest dw sw rest
  else do
    let w0 ← load b.wordSize (s - phase)
    let (dw, sw, w0) ← b.relanedLoop phase words d (s - phase) w0
    b.relanedRest phase dw sw w0 rest

/-- `copy_unaligned`. -/
def copyUnaligned (dest src n : ℕ) : Exec ℕ :=
  if b.wordSize > 4 ∧ n = 20 ∧ (dest ||| src) % 4 = 0 then do
    copyHalves dest src 0 5
    return dest
  else
    let phase := dest % b.wordSize
    if phase ≠ 0 then do
      let head := b.wordSize - phase
      copyBytes (b.wordSize - 1) dest src head
      b.copyWordAligned (dest + head) (src + head) (n - head)
      return dest
    else do
      b.copyWordAligned dest src n
      return dest

/-- The block loop of `memcpy_rest`: 16 blocks a round. -/
def blocksLoop : ℕ → ℕ → ℕ → Exec (ℕ × ℕ)
  | 0, dw, sw => pure (dw, sw)
  | rounds + 1, dw, sw => do
    b.blocksUpto 16 b.n32 dw sw 16
    blocksLoop rounds (dw + 16 * 32) (sw + 16 * 32)

/-- `memcpy_rest`. -/
def memcpyRest (dest src n : ℕ) : Exec ℕ :=
  if (dest ||| src) % b.wordSize ≠ 0 then b.copyUnaligned dest src n
  else if dest ≠ src ∧ (dest ^^^ src) % 32 = 0 then do
    let lead := ((2 ^ b.addrBits - dest) % 32) / b.wordSize
    b.copyWordsUpto (b.n32 - 1) dest src lead
    let n := n - lead * b.wordSize
    let blocks := n / 32
    let (dw, sw) ← b.blocksLoop (blocks / 16) (dest + lead * b.wordSize) (src + lead * b.wordSize)
    b.blocksUpto 15 b.n32 dw sw (blocks % 16)
    let (dw, sw) := (dw + blocks % 16 * 32, sw + blocks % 16 * 32)
    let words := n % 32 / b.wordSize
    b.copyWordsUpto (b.n32 - 1) dw sw words
    b.copyRest (dw + words * b.wordSize) (sw + words * b.wordSize) (n % b.wordSize)
    return dest
  else do
    let (dw, sw) ← b.copyWords dest src (n / b.wordSize)
    b.copyRest dw sw (n % b.wordSize)
    return dest

/-- `memcpy`. -/
def memcpy (dest src n : ℕ) : Exec ℕ :=
  if (dest ||| src) % b.wordSize = 0 then
    if n = 32 then do
      b.copyN dest src b.n32
      return dest
    else
      let words := n / b.wordSize
      if words ≤ copyRunWords then do
        b.copyWordsUpto copyRunWords dest src words
        b.copyRest (dest + words * b.wordSize) (src + words * b.wordSize) (n % b.wordSize)
        return dest
      else if b.block32 then b.memcpyRest dest src n
      else do
        let (dw, sw) ← b.copyWords dest src words
        b.copyRest dw sw (n % b.wordSize)
        return dest
  else if n = 32 then do
    b.copy32Any dest src
    return dest
  else if n < 16 then do
    copyBytes 15 dest src n
    return dest
  else if b.block32 then b.memcpyRest dest src n
  else b.copyUnaligned dest src n

/-- The bytes `memmove` copies until the end of the destination is word-aligned, with the ends and
the count it leaves. -/
def moveTail (d s : ℕ) : ℕ → Exec (ℕ × ℕ × ℕ)
  | 0 => pure (d, s, 0)
  | n + 1 =>
    if d % b.wordSize ≠ 0 then do
      load 1 (s - 1) >>= store (d - 1)
      moveTail (d - 1) (s - 1) n
    else pure (d, s, n + 1)

/-- A round of `memmove`'s loop over four words: all are read before the first is stored. -/
def moveFour (dw sw : ℕ) : Exec Unit := do
  let w3 ← load b.wordSize (sw - b.wordSize)
  let w2 ← load b.wordSize (sw - 2 * b.wordSize)
  let w1 ← load b.wordSize (sw - 3 * b.wordSize)
  let w0 ← load b.wordSize (sw - 4 * b.wordSize)
  store (dw - b.wordSize) w3
  store (dw - 2 * b.wordSize) w2
  store (dw - 3 * b.wordSize) w1
  store (dw - 4 * b.wordSize) w0

/-- `memmove`'s loop over four words a round. -/
def moveFours : ℕ → ℕ → ℕ → Exec (ℕ × ℕ)
  | 0, dw, sw => pure (dw, sw)
  | rounds + 1, dw, sw => do
    b.moveFour dw sw
    moveFours rounds (dw - 4 * b.wordSize) (sw - 4 * b.wordSize)

/-- `memmove`'s loop over single words of `k` bytes. -/
def moveSingles (k : ℕ) : ℕ → ℕ → ℕ → Exec Unit
  | 0, _, _ => pure ()
  | i + 1, dw, sw => do
    load k (sw - k) >>= store (dw - k)
    moveSingles k i (dw - k) (sw - k)

/-- `memmove`'s loop over re-laned words; `w1` is the word at `sw`. -/
def moveRelaned (phase : ℕ) : ℕ → ℕ → ℕ → b.Word → Exec Unit
  | 0, _, _, _ => pure ()
  | i + 1, dw, sw, w1 => do
    let w0 ← load b.wordSize (sw - b.wordSize)
    store (dw - b.wordSize) ((w0 >>> (8 * phase)) ||| (w1 <<< (8 * (b.wordSize - phase))))
    moveRelaned phase i (dw - b.wordSize) (sw - b.wordSize) w0

/-- `memmove`'s whole words, below the ends `d` and `s`. -/
def moveWords (d s words : ℕ) : Exec Unit :=
  let phase := s % b.wordSize
  if phase = 0 then do
    let (dw, sw) ← b.moveFours (words / 4) d s
    moveSingles b.wordSize (words % 4) dw sw
  else do
    let w1 ← load b.wordSize (s - phase)
    b.moveRelaned phase words d (s - phase) w1

/-- `memmove`. -/
def memmove (dest src n : ℕ) : Exec ℕ :=
  if dest ≤ src ∨ dest ≥ src + n then b.memcpy dest src n
  else do
    let (d, s, n) ← b.moveTail (dest + n) (src + n) n
    let words := n / b.wordSize
    if words ≠ 0 then do
      b.moveWords d s words
      moveSingles 1 (n % b.wordSize) (d - words * b.wordSize) (s - words * b.wordSize)
      return dest
    else do
      moveSingles 1 n d s
      return dest

end Build
end Zilkworm.Guest
