/-
# Sealing the code store

`core/state_zz/code_store_seal.hpp` and the parts of `DirectState::sanitize` that the build
with `ZILK_SEAL_CODE_STORE` adds.  The EVM runs witness code where it lies, if at least 33
zero bytes follow it.  Behind a payload lie its padding and the next entry's length and
key, which nothing reads once every payload is hashed and every record bound to its entry:
`zero_tails` zeroes them.  The lengths and keys are kept in an index for later lookups.

That no zeroed byte lies in a payload rests on the layout: `DenseLayout` walks the data
section from its sentinel to its end, each entry at the aligned end of the one before, and
the store is sealed only if every entry the map refers to is one of the walk
(`zeroTails_payload`, `zeroTails_zeros`).
-/
import Zilkworm.Witness.Sanitize
import Zilkworm.Witness.MphfLayout

namespace Zilkworm.Witness

open List Lib Rlp Zilkworm.Types

variable {off : ℕ} {starts : List ℕ}

/-- `CodeStoreVerified`: the handshake of the input reader.  `data` is an address, zero for none;
`bits` are the numbers of the set bits. -/
structure CodeStoreVerified where
  data : ℕ := 0
  dataSize : ℕ := 0
  bits : List ℕ := []
  nBits : ℕ := 0
  deriving DecidableEq

/-- The entries whose hashing `sanitize` skips: the handshake is for this very data section, and
the entry's bit is set. -/
def CodeStoreVerified.covers (v : CodeStoreVerified) (s : PreState) (off : ℕ) : Bool :=
  match s.codeStoreMap with
  | none => false
  | some m => v.data ≠ 0 ∧ v.data = s.addr + m.data ∧ v.dataSize = m.hdr.dataSize ∧
      off % 8 = 0 ∧ off / 8 < v.nBits ∧ off / 8 ∈ v.bits

/-! ## The layout -/

/-- The walk of `DenseLayout` from the entry at `off` on: the entries' starts, if they tile the
section up to its end. -/
def denseFrom (b : Bytes) (data dataSize : ℕ) : (fuel off : ℕ) → Option (List ℕ)
  | 0, _ => none
  | fuel + 1, off =>
    if off < dataSize then
      let len := u32At b (data + off)
      if dataSize - off < 40 ∨ u32At b (data + off + 4) ≠ 0 ∨ len < 32 ∨
        dataSize - off - 8 < len then none
      else (denseFrom b data dataSize fuel (align8 (off + 8 + len))).map (off :: ·)
    else if off = dataSize then some []
    else none

/-- `DenseLayout`: the starts `is_entry` knows.  The bound on the size keeps the rounding of an
entry's end from wrapping. -/
def denseLayout (b : Bytes) (data dataSize : ℕ) : Option (List ℕ) :=
  if dataSize ≤ 8 ∨ 2 ^ 32 - 1 - 8 < dataSize then none
  else denseFrom b data dataSize dataSize 8

/-- **Entries that tile a section**: each entry's header and body lie in the section, and the next
one starts at its aligned end. -/
inductive Dense (b : Bytes) (data dataSize : ℕ) : (off : ℕ) → List ℕ → Prop
  | done : Dense b data dataSize dataSize []
  | entry {off : ℕ} {starts : List ℕ} (room : off + 40 ≤ dataSize) (hi : u32At b (data + off + 4) = 0)
      (key : 32 ≤ u32At b (data + off)) (body : off + 8 + u32At b (data + off) ≤ dataSize)
      (rest : Dense b data dataSize (align8 (off + 8 + u32At b (data + off))) starts) :
      Dense b data dataSize off (off :: starts)

/-- The body of an entry that says where the section's next entry starts. -/
def entryEnd (b : Bytes) (data off : ℕ) : ℕ := off + 8 + u32At b (data + off)

section Dense

variable {b : Bytes} {data dataSize : ℕ}

theorem denseFrom_dense {fuel : ℕ} (h : denseFrom b data dataSize fuel off = some starts) :
    Dense b data dataSize off starts := by
  induction fuel generalizing off starts with
  | zero => cases h
  | succ fuel ih =>
    simp only [denseFrom] at h
    split_ifs at h with hlt hbad heq
    · obtain ⟨rest, hrest, rfl⟩ := Option.map_eq_some_iff.mp h
      exact .entry (by omega) (by omega) (by omega) (by omega) (ih hrest)
    · cases h
      exact heq ▸ .done

/-- Every entry of a tiled section lies at or behind the walk's place, has its header and body in
the section, and either ends it or leaves room for the next entry's header. -/
theorem Dense.bounds (h : Dense b data dataSize off starts) :
    off ≤ dataSize ∧ ∀ s ∈ starts, off ≤ s ∧ s + 40 ≤ entryEnd b data s ∧
      u32At b (data + s + 4) = 0 ∧
      (align8 (entryEnd b data s) = dataSize ∨ align8 (entryEnd b data s) + 40 ≤ dataSize) := by
  induction h with
  | done => simp
  | @entry off starts room hi key body rest ih =>
    obtain ⟨-, ih⟩ := ih
    have hnext := le_align8 (off + 8 + u32At b (data + off))
    refine ⟨by omega, fun s hs => ?_⟩
    rcases mem_cons.mp hs with rfl | hs
    · refine ⟨le_rfl, by unfold entryEnd; omega, hi, ?_⟩
      cases rest with
      | done => exact .inl rfl
      | entry room _ _ _ _ => exact .inr room
    · obtain ⟨h1, h2⟩ := ih s hs
      exact ⟨by omega, h2⟩

/-- Of two entries of a tiled section, one starts at or behind the other's aligned end. -/
theorem Dense.pairwise (h : Dense b data dataSize off starts) :
    starts.Pairwise fun s t => align8 (entryEnd b data s) ≤ t := by
  induction h with
  | done => exact .nil
  | entry _ _ _ _ rest ih => exact .cons (fun t ht => (rest.bounds.2 t ht).1) ih

end Dense

/-! ## Zeroing the tails -/

/-- The bytes `zero_tails` zeroes behind an end at place `p`: up to the next word of memory, then
nine words. -/
def tailSize (addr p : ℕ) : ℕ := (4 - (addr + p) % 4) % 4 + 36

/-- The loop of `zero_tails`, from the entry at `off` on; the next entry's length is read before it
is zeroed. -/
def zeroTailsFrom (addr data last : ℕ) : (fuel off len : ℕ) → Bytes → Bytes
  | 0, _, _, b => b
  | fuel + 1, off, len, b =>
    if off < last then
      let p := data + off + 8 + len
      let next := align8 (off + 8 + len)
      let nextLen := u32At b (data + next)
      zeroTailsFrom addr data last fuel next nextLen (writeAt b p (replicate (tailSize addr p) 0))
    else b

/-- `zero_tails` of the data section at `data`, in a buffer at address `addr`. -/
def zeroTails (addr : ℕ) (b : Bytes) (data last : ℕ) : Bytes :=
  zeroTailsFrom addr data last last 8 (u32At b (data + 8)) b

/-- The ranges zeroed behind some entries of a section. -/
def tails (addr : ℕ) (b : Bytes) (data : ℕ) (starts : List ℕ) : List (ℕ × ℕ) :=
  starts.map fun s => (data + entryEnd b data s, tailSize addr (data + entryEnd b data s))

section Tails

variable {b : Bytes} {addr data dataSize : ℕ}

/-- A zeroed range ends four bytes before the next payload. -/
theorem tailSize_le (ha : (addr + data) % 8 = 0) (e : ℕ) :
    data + e + tailSize addr (data + e) ≤ data + align8 e + 36 := by
  unfold tailSize align8
  omega

theorem le_tailSize (p : ℕ) : 36 ≤ tailSize addr p := by unfold tailSize; omega

/-- **The loop zeroes the tail of every entry but the last** and writes nothing else.  `b` is the
buffer as the loop finds it, with the entries from `off` on still as they were in `b₀`, up to the
header of the first. -/
theorem zeroTailsFrom_spec {b₀ : Bytes} {last : ℕ} (ha : (addr + data) % 8 = 0)
    (hd : Dense b₀ data dataSize off starts) (hb₀ : data + dataSize ≤ b₀.length)
    (hlast : starts.getLast? = some last) {b : Bytes} (hlen : b.length = b₀.length)
    (hsame : ∀ q k, data + off + 40 ≤ q → slice b q k = slice b₀ q k) {fuel : ℕ}
    (hfuel : last - off ≤ fuel) :
    Frame (tails addr b₀ data starts.dropLast) b
        (zeroTailsFrom addr data last fuel off (u32At b₀ (data + off)) b) ∧
      ∀ r ∈ tails addr b₀ data starts.dropLast,
        slice (zeroTailsFrom addr data last fuel off (u32At b₀ (data + off)) b) r.1 r.2 =
          replicate r.2 0 := by
  induction hd generalizing b fuel with
  | done => cases hlast
  | @entry off starts room hi key body rest ih =>
    rcases starts with _ | ⟨next, more⟩
    · obtain rfl : off = last := by simpa using hlast
      have hstop : zeroTailsFrom addr data off fuel off (u32At b₀ (data + off)) b = b := by
        cases fuel <;> simp [zeroTailsFrom]
      rw [hstop]
      exact ⟨Frame.refl b, by simp [tails]⟩
    · have hnext : align8 (off + 8 + u32At b₀ (data + off)) = next := by cases rest; rfl
      have hge := le_align8 (off + 8 + u32At b₀ (data + off))
      rw [hnext] at hge rest ih
      have hroom : next + 40 ≤ dataSize := by cases rest; omega
      have hin : ∀ s ∈ next :: more, next ≤ s ∧ s + 40 ≤ entryEnd b₀ data s := fun s hs =>
        ⟨(rest.bounds.2 s hs).1, (rest.bounds.2 s hs).2.1⟩
      rw [getLast?_cons_cons] at hlast
      have hle : next ≤ last := (hin last (mem_of_getLast? hlast)).1
      obtain ⟨fuel, rfl⟩ : ∃ f, fuel = f + 1 := ⟨fuel - 1, by omega⟩
      -- the write, and what it leaves of the entries to come
      have hend : data + off + 8 + u32At b₀ (data + off) = data + entryEnd b₀ data off := by
        unfold entryEnd; omega
      have htail := tailSize_le ha (entryEnd b₀ data off)
      rw [show align8 (entryEnd b₀ data off) = next from hnext] at htail
      have hread : u32At b (data + next) = u32At b₀ (data + next) := by
        rw [u32At, hsame _ _ (by omega), u32At]
      have hstep : zeroTailsFrom addr data last (fuel + 1) off (u32At b₀ (data + off)) b =
          zeroTailsFrom addr data last fuel next (u32At b₀ (data + next))
            (writeAt b (data + entryEnd b₀ data off)
              (replicate (tailSize addr (data + entryEnd b₀ data off)) 0)) := by
        rw [zeroTailsFrom, if_pos (by omega)]
        simp only [hend, hnext, hread]
      rw [hstep]
      set n := tailSize addr (data + entryEnd b₀ data off) with hn
      have hw : data + entryEnd b₀ data off + (replicate n (0 : UInt8)).length ≤ b.length := by
        simp only [length_replicate]; omega
      have f₁ := Frame.writeAt hw
      have hwrote := slice_writeAt_inside hw (n := n) le_rfl (by simp)
      simp only [length_replicate] at f₁
      obtain ⟨f₂, hz⟩ := ih hlast (f₁.1.trans hlen) (fun q k hq => by
        rw [f₁.slice_eq, hsame q k (by omega)]
        intro r hr
        obtain rfl := mem_singleton.mp hr
        right; simp only; omega) (show last - next ≤ fuel by omega)
      refine ⟨f₁.trans f₂, fun r hr => ?_⟩
      rcases mem_cons.mp hr with rfl | hr
      · rw [f₂.slice_eq, hwrote]
        · simp [slice, hn]
        · intro r hr
          obtain ⟨s, hs, rfl⟩ := mem_map.mp hr
          obtain ⟨h1, h2⟩ := hin s (dropLast_subset _ hs)
          left; simp only; omega
      · exact hz r hr

end Tails

/-! ## The seal -/

/-- `SealedCodeEntry`. -/
structure SealedCodeEntry where
  key : Bytes
  bodyOff : ℕ
  bodyLen : ℕ
  deriving DecidableEq

/-- What `sanitize` leaves: the blob, `code_store_sealed_` and `sealed_code_index_`. -/
structure SanitizedBlob where
  bytes : Bytes
  codeStoreSealed : Bool := false
  sealedCodeIndex : List SealedCodeEntry := []
  deriving DecidableEq

/-- The index of the code store's entries. -/
def sealedCodeIndex (b : Bytes) (m : MphfMap) : List SealedCodeEntry :=
  (m.forEachOffset b).map fun off =>
    ⟨slice b (m.data + off + 8) 32, (off + 8) % 2 ^ 32, m.entryLen b off % 2 ^ 32⟩

/-- The layout to seal: the entries tile the section, and every entry the map refers to is one of
them. -/
def sealLayout (b : Bytes) (m : MphfMap) : Option (List ℕ) :=
  if m.hdr.nKeys = 0 then none
  else (denseLayout b m.data m.hdr.dataSize).filter fun starts => (m.forEachOffset b).all (· ∈ starts)

/-- `DirectState::sanitize` of the build that seals the code store (`sealing`) and of the one that
leaves it as it is, with the handshake of the reader.  The layout and the index are taken from the
blob before the passes write to it. -/
def sanitizeStore (keccak256 : Bytes → Bytes32) (sealing : Bool) (v : CodeStoreVerified) (s : PreState) :
    Except String SanitizedBlob := do
  let b ← sanitize keccak256 (v.covers s) s
  match if sealing then s.codeStoreMap else none with
  | none => return { bytes := b }
  | some m =>
    let index := sealedCodeIndex s.bytes m
    match (sealLayout s.bytes m).bind List.getLast? with
    | none => return { bytes := b, sealedCodeIndex := index }
    | some last =>
      return { bytes := zeroTails s.addr b m.data last, codeStoreSealed := true, sealedCodeIndex := index }

end Zilkworm.Witness
