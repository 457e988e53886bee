/-
# A bundle loaded back

`core/types_zz/flat_bundle.cpp`: `load_flat_bundle` after `build_flat_bundle`.  The writer puts the
six sections one behind the other, each padded to eight bytes, and the loader finds them by the
pairs in the header.  Inside the blocks section nothing says whether flags or engine records are
there: the loader takes the bytes behind the last block for flags when there is room for one per
block, and there is room exactly when they were written, since the last block is padded to its end.
-/
import Mathlib.Algebra.BigOperators.Group.List.Basic
import Mathlib.Algebra.Order.BigOperators.Group.List
import Zilkworm.Lib.Layout
import Zilkworm.Rlp.Complete
import Zilkworm.Run.Envelope

namespace Zilkworm.Run

open List Lib Rlp Zilkworm.Types Witness State Chain

variable {b blob : Bytes} {off : ℕ}

/-! ## Sections one behind the other -/

theorem liesAt_padded {x : Bytes} (h : LiesAt b off (padded8 x)) : LiesAt b off x :=
  (liesAt_append.mp h).1

/-- Rounding up commutes with adding a multiple of eight. -/
theorem align8_add {a : ℕ} (h : a % 8 = 0) (b : ℕ) : align8 (a + b) = a + align8 b := by
  unfold align8
  omega

/-- The pairs of offset and size of sections that follow one another, the first at `off`. -/
def layOut : ℕ → List Bytes → List Section
  | _, [] => []
  | off, b :: bs => ⟨off, b.length⟩ :: layOut (align8 (off + b.length)) bs

/-- The pair of a section as the header holds it. -/
def Section.encode (s : Section) : Bytes := toLe 4 s.off ++ toLe 4 s.size

theorem Section.encode_length (s : Section) : s.encode.length = 8 := by
  rw [encode, length_append, toLe_length, toLe_length]

/-- The offset behind sections that follow one another. -/
def layOutEnd : ℕ → List Bytes → ℕ
  | off, [] => off
  | off, b :: bs => layOutEnd (align8 (off + b.length)) bs

/-- The loop of the writer writes the pairs. -/
theorem foldl_pairs (bs : List Bytes) (acc : Bytes) (off : ℕ) :
    bs.foldl (fun (acc : Bytes × ℕ) b =>
      (acc.1 ++ toLe 4 acc.2 ++ toLe 4 b.length, align8 (acc.2 + b.length))) (acc, off) =
      (acc ++ (layOut off bs).flatMap Section.encode, layOutEnd off bs) := by
  induction bs generalizing acc off with
  | nil => rw [foldl_nil, layOut, layOutEnd, flatMap_nil, append_nil]
  | cons b bs ih =>
    rw [foldl_cons, ih, layOut, layOutEnd, flatMap_cons, Section.encode]
    simp only [append_assoc]

/-- The sections take up the room between their first offset and the last. -/
theorem layOutEnd_eq (hoff : off % 8 = 0) (bs : List Bytes) :
    layOutEnd off bs = off + (bs.flatMap padded8).length := by
  induction bs generalizing off with
  | nil => rfl
  | cons b bs ih =>
    rw [layOutEnd, ih (align8_mod _), flatMap_cons, length_append, padded8_length,
      align8_add hoff]
    omega

/-- Every section lies where its pair says. -/
theorem layOut_bytes (hoff : off % 8 = 0) {bs : List Bytes}
    (h : LiesAt blob off (bs.flatMap padded8)) :
    Forall₂ (fun s b => s.size = b.length ∧ s.off % 8 = 0 ∧ LiesAt blob s.off b)
      (layOut off bs) bs := by
  induction bs generalizing off with
  | nil => exact .nil
  | cons b bs ih =>
    rw [flatMap_cons] at h
    obtain ⟨hb, hbs⟩ := liesAt_append.mp h
    rw [padded8_length, ← align8_add hoff] at hbs
    exact .cons ⟨rfl, hoff, liesAt_padded hb⟩ (ih (align8_mod _) hbs)

/-- No section starts before the first offset or ends behind the last. -/
theorem layOut_within (off : ℕ) (bs : List Bytes) :
    off ≤ layOutEnd off bs ∧ ∀ s ∈ layOut off bs, off ≤ s.off ∧ s.endOff ≤ layOutEnd off bs := by
  induction bs generalizing off with
  | nil => exact ⟨le_rfl, fun s hs => absurd hs not_mem_nil⟩
  | cons b bs ih =>
    obtain ⟨hend, hin⟩ := ih (align8 (off + b.length))
    have hle := le_align8 (off + b.length)
    rw [layOutEnd]
    refine ⟨by omega, fun s hs => ?_⟩
    rcases mem_cons.mp hs with rfl | hs
    · refine ⟨le_rfl, ?_⟩
      show off + b.length ≤ _
      omega
    · have := hin s hs
      omega

/-- Sections that follow one another share no byte. -/
theorem layOut_apart (off : ℕ) (bs : List Bytes) :
    (layOut off bs).Pairwise fun a b => a.overlaps b = false := by
  induction bs generalizing off with
  | nil => exact .nil
  | cons b bs ih =>
    refine Pairwise.cons (fun s hs => ?_) (ih _)
    have hin := (layOut_within (align8 (off + b.length)) bs).2 s hs
    have hle := le_align8 (off + b.length)
    unfold Section.overlaps Section.endOff at *
    rw [decide_eq_false_iff_not]
    dsimp only
    omega

/-! ## The blocks section -/

/-- A block RLP: one list, from its first byte to its last. -/
def IsRlpList (b : Bytes) : Prop := ∃ rest, decodeHeader b = .ok (⟨true, rest.length⟩, rest)

/-- The bytes that start where a section lies. -/
theorem liesAt_slice_append {n : ℕ} (h : LiesAt blob off b) (hn : b.length ≤ n) :
    ∃ more, slice blob off n = b ++ more := by
  obtain ⟨t, ht⟩ := h
  refine ⟨t.take (n - b.length), ?_⟩
  rw [slice, ← ht, take_append, take_of_length_le hn]

/-- **The blocks are split where they were joined.** -/
theorem splitBlocks_padded {sectionEnd : ℕ} {blocks : List Bytes}
    (hblocks : ∀ b ∈ blocks, IsRlpList b) {cursor : ℕ} (hcursor : cursor % 8 = 0)
    (h : LiesAt blob cursor (blocks.flatMap padded8))
    (hend : cursor + (blocks.flatMap padded8).length ≤ sectionEnd) :
    splitBlocks blob sectionEnd blocks.length cursor =
      .ok (blocks, cursor + (blocks.flatMap padded8).length) := by
  induction blocks generalizing cursor with
  | nil => rfl
  | cons b blocks ih =>
    rw [flatMap_cons] at h hend ⊢
    obtain ⟨hb, hrest⟩ := liesAt_append.mp h
    rw [length_append, padded8_length] at hend ⊢
    rw [padded8_length, ← align8_add hcursor] at hrest
    have hle := le_align8 b.length
    obtain ⟨rest, hdec⟩ := hblocks b mem_cons_self
    obtain ⟨hlen, hsrc⟩ := decodeHeader_list hdec rfl
    have hpos : rest.length < b.length := by
      rw [hsrc, length_append, encodeHeader_length, lengthOfLength]
      split <;> omega
    obtain ⟨more, hmore⟩ := liesAt_slice_append (liesAt_padded hb) (n := sectionEnd - cursor) (by omega)
    have ih := ih (fun c hc => hblocks c (mem_cons_of_mem b hc)) (align8_mod _) hrest
      (by rw [align8_add hcursor]; omega)
    have htotal : rest.length + ((b ++ more).length - (rest ++ more).length) = b.length := by
      simp only [length_append]
      omega
    simp only [length_cons, splitBlocks, hmore, decodeHeader_append hdec more, bind_eq_ok,
      rejectIf_eq_ok, htotal, pure_eq_ok]
    refine ⟨(), by omega, (), by decide, (), by omega, _, ih, ?_⟩
    rw [(liesAt_padded hb).slice_eq, align8_add hcursor]
    simp only [Prod.mk.injEq, true_and]
    omega

/-- The record of each block, if it has one. -/
def recordOf (records : List (Option BlockEngineRecord)) (i : ℕ) : Option BlockEngineRecord :=
  records[i]?.join

/-- Whether a flag announces an engine record. -/
def announces (flag : UInt8) : Bool := flag &&& kBlockFlagEngineRecord ≠ 0

/-- The records a blocks section may have: one for each flag that announces it and no other, with
whole hashes. -/
structure RecordsMatch (flags : Bytes) (records : List (Option BlockEngineRecord)) : Prop where
  announced : ∀ i, (recordOf records i).isSome = (flags[i]?).any announces
  whole : ∀ i r, recordOf records i = some r → r.versionedHashes.length % 32 = 0

theorem RecordsMatch.tail {flag : UInt8} {flags : Bytes} {records : List (Option BlockEngineRecord)}
    (h : RecordsMatch (flag :: flags) records) : RecordsMatch flags records.tail := by
  have hshift : ∀ i, recordOf records.tail i = recordOf records (i + 1) := fun i => by
    rw [recordOf, recordOf, getElem?_tail]
  exact ⟨fun i => by rw [hshift, h.announced, getElem?_cons_succ],
    fun i r hr => h.whole (i + 1) r (by rw [← hshift, hr])⟩

/-- The records as they are written, in block order. -/
def recordBytes (records : List (Option BlockEngineRecord)) : Bytes :=
  (records.filterMap id).flatMap BlockEngineRecord.encode

theorem BlockEngineRecord.encode_length (r : BlockEngineRecord) :
    r.encode.length = 40 + r.versionedHashes.length := by
  simp only [encode, length_append, toLe_length, r.blockHash.2]

/-- The bytes of the first record stand before the others. -/
theorem recordBytes_eq (records : List (Option BlockEngineRecord)) :
    recordBytes records = ((recordOf records 0).map BlockEngineRecord.encode).getD [] ++
      recordBytes records.tail := by
  cases records with
  | nil => rfl
  | cons r records =>
    cases r with
    | none => rfl
    | some r => rfl

/-- The records of the blocks behind the first. -/
theorem range_map_recordOf (n : ℕ) (records : List (Option BlockEngineRecord)) :
    (range (n + 1)).map (recordOf records) =
      recordOf records 0 :: (range n).map (recordOf records.tail) := by
  rw [range_succ_eq_map, map_cons, map_map]
  refine congrArg _ (map_congr_left fun i _ => ?_)
  rw [Function.comp_apply, recordOf, recordOf, getElem?_tail]

/-- **The engine records are read where they were written**, one place for each flag. -/
theorem readEngineRecords_bytes {sectionEnd : ℕ} (hsmall : sectionEnd < 2 ^ 64) {flags : Bytes}
    {records : List (Option BlockEngineRecord)} (h : RecordsMatch flags records) {pos : ℕ}
    (hl : LiesAt blob pos (recordBytes records))
    (hend : pos + (recordBytes records).length ≤ sectionEnd) :
    readEngineRecords blob sectionEnd flags pos = .ok ((range flags.length).map (recordOf records)) := by
  induction flags generalizing records pos with
  | nil => rfl
  | cons flag flags ih =>
    have hflag : (recordOf records 0).isSome = announces flag := h.announced 0
    rw [recordBytes_eq] at hl hend
    rw [length_cons, range_map_recordOf, readEngineRecords]
    by_cases hf : flag &&& kBlockFlagEngineRecord = 0
    · have hnone : recordOf records 0 = none := by
        rw [← Option.not_isSome_iff_eq_none, hflag, announces, hf]
        simp
      rw [hnone, Option.map_none, Option.getD_none, nil_append] at hl hend
      simp only [if_pos hf, bind_eq_ok, pure_eq_ok]
      exact ⟨_, ih h.tail hl hend, by rw [hnone]⟩
    · obtain ⟨r, hr⟩ : ∃ r, recordOf records 0 = some r := by
        rw [← Option.isSome_iff_exists, hflag, announces]
        simpa using hf
      have hwhole := h.whole 0 r hr
      rw [hr, Option.map_some, Option.getD_some] at hl hend
      obtain ⟨hrec, hrest⟩ := liesAt_append.mp hl
      rw [length_append, r.encode_length] at hend
      rw [r.encode_length] at hrest
      rw [BlockEngineRecord.encode] at hrec
      obtain ⟨hhead, hhashes⟩ := liesAt_append.mp hrec
      obtain ⟨hhash, hcount⟩ := liesAt_append.mp hhead
      rw [length_append, toLe_length, r.blockHash.2] at hhashes
      rw [r.blockHash.2] at hcount
      have hn : u64At blob (pos + 32) = r.versionedHashes.length / 32 :=
        hcount.u64At_eq (by omega)
      have hmul : r.versionedHashes.length / 32 * 32 = r.versionedHashes.length := by omega
      have hload : FixedBytes.load 32 (slice blob pos 32) = r.blockHash := by
        rw [hhash.slice_of_length r.blockHash.2, FixedBytes.load_self]
      simp only [if_neg hf, bind_eq_ok, pure_eq_ok, rejectIf_eq_ok, hn, hmul]
      refine ⟨(), by omega, (), by omega, _, @ih _ h.tail (pos + 40 + r.versionedHashes.length)
        (by rwa [Nat.add_assoc]) (by omega), ?_⟩
      rw [hr, hload, hhashes.slice_eq]

/-- What the blocks section was built from: one flag for each block or none, and the records the
flags announce. -/
structure BlocksInput where
  blocks : List Bytes
  flags : Bytes
  records : List (Option BlockEngineRecord)
  lists : ∀ b ∈ blocks, IsRlpList b
  flagged : flags = [] ∨ flags.length = blocks.length
  announced : RecordsMatch flags records

namespace BlocksInput

/-- The section. -/
def bytes (i : BlocksInput) : Bytes := buildBlocks i.blocks i.flags i.records

/-- What is read of it: the records have one place for each block, or none at all when no flag
announces one. -/
def engineRecords (i : BlocksInput) : List (Option BlockEngineRecord) :=
  if i.flags.any announces then (range i.blocks.length).map (recordOf i.records) else []

variable (i : BlocksInput)

/-- The part before the engine records. -/
def front : Bytes := toLe 8 i.blocks.length ++ i.blocks.flatMap padded8 ++ i.flags

theorem front_length : i.front.length = 8 + (i.blocks.flatMap padded8).length + i.flags.length := by
  rw [front, length_append, length_append, toLe_length]

theorem padded_blocks_mod (blocks : List Bytes) : (blocks.flatMap padded8).length % 8 = 0 := by
  induction blocks with
  | nil => rfl
  | cons b blocks ih =>
    have := align8_mod b.length
    rw [flatMap_cons, length_append, padded8_length]
    omega

/-- Records are written exactly when a flag announces one. -/
theorem recordBytes_ne_nil_iff : recordBytes i.records ≠ [] ↔ i.flags.any announces = true := by
  rw [any_eq_true]
  constructor
  · intro hne
    obtain ⟨r, hr⟩ : ∃ r, some r ∈ i.records := by
      by_contra hno
      refine hne ?_
      rw [recordBytes, filterMap_eq_nil_iff.mpr, flatMap_nil]
      intro r hr
      cases r with
      | none => rfl
      | some r => exact absurd ⟨r, hr⟩ hno
    obtain ⟨k, hk⟩ := mem_iff_getElem?.mp hr
    have hflag := i.announced.announced k
    rw [recordOf, hk] at hflag
    rcases hf : i.flags[k]? with _ | f
    · rw [hf] at hflag
      cases hflag
    · rw [hf] at hflag
      exact ⟨f, mem_of_getElem? hf, hflag.symm⟩
  · rintro ⟨f, hf, ha⟩ hnil
    obtain ⟨k, hk⟩ := mem_iff_getElem?.mp hf
    have hflag := i.announced.announced k
    rw [hk, Option.any_some, ha, Option.isSome_iff_exists] at hflag
    obtain ⟨r, hr⟩ := hflag
    have hmem : r ∈ i.records.filterMap id := by
      refine mem_filterMap.mpr ⟨some r, ?_, rfl⟩
      rw [recordOf, Option.join_eq_some_iff] at hr
      exact mem_of_getElem? hr
    have hlen := length_eq_zero_iff.mpr (flatMap_eq_nil_iff.mp hnil r hmem)
    rw [r.encode_length] at hlen
    omega

theorem bytes_eq : i.bytes =
    if i.flags.any announces then padded8 i.front ++ recordBytes i.records else i.front := by
  show (if recordBytes i.records = [] then i.front else padded8 i.front ++ recordBytes i.records) = _
  by_cases h : i.flags.any announces
  · rw [if_pos h, if_neg (i.recordBytes_ne_nil_iff.mpr h)]
  · rw [if_neg h, if_pos (not_not.mp fun hne => h (i.recordBytes_ne_nil_iff.mp hne))]

/-- **The blocks section is read back.**  The padding of the last block is part of the section, so
the bytes behind it are flags if there are any, and no record is looked for that was not written. -/
theorem readBlocks_bytes (hoff : off % 8 = 0) (h : LiesAt blob off i.bytes)
    (hsmall : off + i.bytes.length < 2 ^ 64) :
    readBlocks blob ⟨off, i.bytes.length⟩ = .ok (i.blocks, i.flags, i.engineRecords) := by
  have hfront : LiesAt blob off i.front ∧ i.front.length ≤ i.bytes.length := by
    rw [i.bytes_eq] at h ⊢
    split at h
    · rename_i hany
      rw [if_pos hany, length_append, padded8_length]
      have := le_align8 i.front.length
      exact ⟨liesAt_padded (liesAt_append.mp h).1, by omega⟩
    · rename_i hany
      rw [if_neg hany]
      exact ⟨h, le_rfl⟩
  obtain ⟨hfront, hle⟩ := hfront
  have hlen := i.front_length
  rw [front] at hfront
  obtain ⟨hhead, hflags⟩ := liesAt_append.mp hfront
  obtain ⟨hcount, hblocks⟩ := liesAt_append.mp hhead
  rw [toLe_length] at hblocks
  rw [length_append, toLe_length] at hflags
  set P := (i.blocks.flatMap padded8).length with hP
  have hPmod : P % 8 = 0 := padded_blocks_mod i.blocks
  have hblockCount : i.blocks.length ≤ P := by
    rw [hP, length_flatMap]
    refine length_le_sum_of_one_le _ (fun n hn => ?_) |>.trans' ?_
    · obtain ⟨b, hb, rfl⟩ := mem_map.mp hn
      obtain ⟨rest, hdec⟩ := i.lists b hb
      have hpos : b ≠ [] := by
        rintro rfl
        cases hdec
      have := le_align8 b.length
      have := length_pos_iff.mpr hpos
      rw [padded8_length]
      omega
    · rw [length_map]
  have hn : u64At blob off = i.blocks.length := hcount.u64At_eq (by omega)
  have hsplit :=
    @splitBlocks_padded _ (off + i.bytes.length) _ i.lists (off + 8) (by omega) hblocks (by omega)
  rw [← hP] at hsplit
  -- the flags, or no room for them
  have hflagsRead : ∀ [Decidable (i.blocks ≠ [] ∧ off + 8 + P + i.blocks.length ≤ off + i.bytes.length)],
      (if i.blocks ≠ [] ∧ off + 8 + P + i.blocks.length ≤ off + i.bytes.length then
        slice blob (off + 8 + P) i.blocks.length else []) = i.flags := by
    intro _
    rcases i.flagged with hnil | hfull
    · rw [if_neg]
      · exact hnil.symm
      · rintro ⟨hne, hroom⟩
        have := length_pos_iff.mpr hne
        rw [i.bytes_eq, hnil, any_nil, if_neg (by decide), hlen, hnil, length_nil] at hroom
        omega
    · split
      · rw [← Nat.add_assoc] at hflags
        exact hflags.slice_of_length hfull
      · rename_i hno
        by_cases hne : i.blocks = []
        · rw [hne, length_nil, length_eq_zero_iff] at hfull
          exact hfull.symm
        · exact absurd ⟨hne, by omega⟩ hno
  -- the records, behind the flags
  have hrecords : (if i.flags.any announces then
      readEngineRecords blob (off + i.bytes.length) i.flags (align8 (off + 8 + P + i.flags.length))
    else .ok []) = .ok i.engineRecords := by
    unfold engineRecords
    split
    · rename_i hany
      have hfull : i.flags.length = i.blocks.length := by
        rcases i.flagged with hnil | hfull
        · rw [hnil] at hany
          cases hany
        · exact hfull
      rw [i.bytes_eq, if_pos hany] at h
      have hpos : align8 (off + 8 + P + i.flags.length) = off + (padded8 i.front).length := by
        rw [padded8_length, hlen, ← align8_add hoff]
        congr 1
        omega
      have hrec := (liesAt_append.mp h).2
      rw [← hpos] at hrec
      rw [← hfull]
      refine readEngineRecords_bytes (by omega) i.announced hrec ?_
      rw [hpos, i.bytes_eq, if_pos hany, length_append]
      omega
    · rfl
  unfold readBlocks
  rw [show Section.endOff ⟨off, i.bytes.length⟩ = off + i.bytes.length from rfl, bind_eq_ok]
  refine ⟨(), rejectIf_eq_ok.mpr (by dsimp only; omega), ?_⟩
  rw [bind_eq_ok]
  refine ⟨(i.blocks, off + 8 + P), by rw [hn]; exact hsplit, ?_⟩
  dsimp only
  rw [hflagsRead]
  by_cases hany : i.flags.any announces = true
  · rw [if_pos hany] at hrecords
    exact (if_pos hany).trans (by rw [hrecords]; rfl)
  · rw [if_neg hany] at hrecords
    exact (if_neg hany).trans (by rw [hrecords]; rfl)

end BlocksInput

/-! ## The ancestors section -/

/-- An ancestor's header with its RLP, which the list holds as it is or wrapped in a byte string. -/
structure AncestorEntry where
  header : BlockHeader
  rlp : Bytes
  wrapped : Bool
  decodes : decodeBlockHeader .prohibit rlp = .ok (header, [])

namespace AncestorEntry

/-- The entry of the list. -/
def bytes (e : AncestorEntry) : Bytes := if e.wrapped then encodeBytes e.rlp else e.rlp

/-- A header's RLP is one list. -/
theorem isRlpList (e : AncestorEntry) : IsRlpList e.rlp := by
  have h := e.decodes
  unfold decodeBlockHeader at h
  simp only [bind_eq_ok, rejectIf_eq_ok] at h
  obtain ⟨⟨⟨list, n⟩, rest⟩, hdec, -, hlist, -, hleft, -⟩ := h
  have hlen := (decodeHeader_spec hdec).1
  have hn : n = rest.length := by
    have : rest.length - n = 0 := by simpa using hleft
    dsimp only at hlen
    omega
  have hl : list = true := by simpa using hlist
  exact ⟨rest, by rw [hdec, hn, hl]⟩

theorem bytes_ne_nil (e : AncestorEntry) : e.bytes ≠ [] := by
  obtain ⟨rest, hdec⟩ := e.isRlpList
  have hpos : 0 < e.rlp.length := by
    refine length_pos_iff.mpr fun h => ?_
    rw [h] at hdec
    cases hdec
  refine length_pos_iff.mp ?_
  unfold bytes
  split
  · have := length_le_encodeBytes e.rlp
    omega
  · exact hpos

/-- The header in front of an entry, and the RLP the loader takes from it. -/
theorem decode_bytes (e : AncestorEntry) (hsmall : e.rlp.length < 2 ^ 64) (more : Bytes) :
    ∃ eh rest, decodeHeader (e.bytes ++ more) = .ok (eh, rest) ∧ eh.payloadLength ≤ rest.length ∧
      rest.drop eh.payloadLength = more ∧
      (if eh.list then (e.bytes ++ more).take ((e.bytes ++ more).length - rest.length + eh.payloadLength)
        else rest.take eh.payloadLength) = e.rlp := by
  unfold bytes
  split
  · refine ⟨_, _, decodeHeader_encodeBytes more hsmall, ?_, drop_left, ?_⟩
    · rw [length_append]
      exact Nat.le_add_right _ _
    · exact take_left
  · obtain ⟨rest, hdec⟩ := e.isRlpList
    obtain ⟨-, hsrc⟩ := decodeHeader_list hdec rfl
    refine ⟨_, _, decodeHeader_append hdec more, ?_, drop_left, ?_⟩
    · rw [length_append]
      exact Nat.le_add_right _ _
    · have hle : rest.length ≤ e.rlp.length := by
        rw [hsrc, length_append]
        exact Nat.le_add_left _ _
      have hlen : (e.rlp ++ more).length - (rest ++ more).length + rest.length = e.rlp.length := by
        simp only [length_append]
        omega
      dsimp only
      rw [if_pos rfl, hlen, take_left]

end AncestorEntry

/-- **The ancestors are read back**, each entry as one header. -/
theorem readAncestorEntries_bytes (entries : List AncestorEntry) {fuel : ℕ}
    (hfuel : entries.length ≤ fuel)
    (hsmall : ∀ e ∈ entries, e.rlp.length < 2 ^ 64) (a : Ancestors) :
    readAncestorEntries fuel (entries.flatMap AncestorEntry.bytes) a =
      .ok { headers := a.headers ++ entries.map (·.header)
            rlps := a.rlps ++ entries.map (·.rlp)
            wellFormed := a.wellFormed } := by
  induction entries generalizing fuel a with
  | nil =>
    rw [flatMap_nil, map_nil, map_nil, append_nil, append_nil]
    cases fuel <;> rfl
  | cons e entries ih =>
    rw [length_cons] at hfuel
    obtain ⟨fuel, rfl⟩ : ∃ f, fuel = f + 1 := ⟨fuel - 1, by omega⟩
    rw [flatMap_cons]
    obtain ⟨eh, rest, hdec, hlen, hdrop, hrlp⟩ :=
      e.decode_bytes (hsmall e mem_cons_self) (entries.flatMap AncestorEntry.bytes)
    obtain ⟨c, cs, hcons⟩ : ∃ c cs, e.bytes ++ entries.flatMap AncestorEntry.bytes = c :: cs :=
      exists_cons_of_ne_nil fun h => e.bytes_ne_nil (append_eq_nil_iff.mp h).1
    have hadd : a.add e.rlp =
        { a with headers := a.headers ++ [e.header], rlps := a.rlps ++ [e.rlp] } := by
      rw [Ancestors.add, e.decodes]
    rw [hcons] at hdec hrlp ⊢
    rw [readAncestorEntries, hdec]
    · dsimp only
      rw [bind_eq_ok]
      refine ⟨(), rejectIf_eq_ok.mpr (by omega), ?_⟩
      rw [hrlp, hdrop, hadd, ih (by omega) fun x hx => hsmall x (mem_cons_of_mem e hx)]
      simp only [map_cons, append_assoc, cons_append, nil_append]
    · exact cons_ne_nil c cs

/-- The ancestors section of a list of entries; no ancestors may also be no bytes. -/
def IsAncestorsRlp (rlp : Bytes) (entries : List AncestorEntry) : Prop :=
  rlp = encodeList (entries.flatMap AncestorEntry.bytes) ∨ rlp = [] ∧ entries = []

/-- **The ancestors section is read back.** -/
theorem readAncestors_bytes {rlp : Bytes} {entries : List AncestorEntry} (h : IsAncestorsRlp rlp entries)
    (hsmall : rlp.length < 2 ^ 64) :
    readAncestors rlp =
      .ok { headers := entries.map (·.header), rlps := entries.map (·.rlp), wellFormed := true } := by
  rcases h with rfl | ⟨rfl, rfl⟩
  · set payload := entries.flatMap AncestorEntry.bytes with hpayload
    have hle : payload.length ≤ (encodeList payload).length := by
      rw [encodeList, length_append]
      exact Nat.le_add_left _ _
    have hdec := @decodeHeader_encodeList payload [] (by omega)
    rw [append_nil, append_nil] at hdec
    have hne : encodeList payload ≠ [] := by
      intro h
      rw [h] at hdec
      cases hdec
    have hentries : ∀ e ∈ entries, e.rlp.length ≤ payload.length := by
      intro e he
      have hb : e.bytes.length ≤ payload.length := by
        rw [hpayload, length_flatMap]
        exact single_le_sum (fun _ _ => Nat.zero_le _) _ (mem_map.mpr ⟨e, he, rfl⟩)
      have hr : e.rlp.length ≤ e.bytes.length := by
        unfold AncestorEntry.bytes
        split
        · exact length_le_encodeBytes _
        · exact le_rfl
      omega
    have hfuel : entries.length ≤ payload.length := by
      rw [hpayload, length_flatMap]
      refine (length_le_sum_of_one_le _ fun n hn => ?_).trans' (by rw [length_map])
      obtain ⟨e, -, rfl⟩ := mem_map.mp hn
      exact length_pos_iff.mpr e.bytes_ne_nil
    rw [readAncestors, if_neg hne, hdec]
    dsimp only
    rw [List.take_length, readAncestorEntries_bytes entries hfuel (fun e he => by
      have := hentries e he
      omega)]
    rfl
  · rfl

/-! ## The bundle -/

/-- **What a bundle is built from.**  The genesis decodes, each block is one RLP list, the flags and
the engine records go with the blocks, and each ancestor decodes as one header. -/
structure BundleInput where
  genesis : Block
  genesisRlp : Bytes
  blocks : BlocksInput
  ancestors : List AncestorEntry
  ancestorsRlp : Bytes
  directState : Bytes
  nodeStore : Bytes
  network : Bytes
  genesisDecodes : decodeBlock .prohibit genesisRlp = .ok (genesis, [])
  ancestorsDecode : IsAncestorsRlp ancestorsRlp ancestors

namespace BundleInput

variable (i : BundleInput)

/-- The bundle `build_flat_bundle` returns. -/
def build : Bytes :=
  buildFlatBundle i.genesisRlp i.blocks.blocks i.ancestorsRlp i.directState i.nodeStore i.network
    i.blocks.flags i.blocks.records

/-- The sections, in header order. -/
def sections : List Bytes :=
  [i.genesisRlp, i.blocks.bytes, i.ancestorsRlp, i.directState, i.nodeStore, i.network]

theorem build_eq : i.build = toLe 4 kFlatBundleMagic ++ toLe 4 kFlatBundleVersion ++
    (layOut flatBundleHeaderSize i.sections).flatMap Section.encode ++ i.sections.flatMap padded8 := by
  unfold build buildFlatBundle
  dsimp only
  rw [← BlocksInput.bytes, ← sections, foldl_pairs, nil_append]

/-- The bundle ends where its last section does, padded. -/
theorem build_length : i.build.length = layOutEnd flatBundleHeaderSize i.sections := by
  have hpairs := flatMap_length Section.encode_length (layOut flatBundleHeaderSize i.sections)
  rw [layOutEnd_eq (by decide), build_eq]
  simp only [length_append, toLe_length, hpairs]
  rfl

/-- The pairs of the header. -/
theorem pairs_at : LiesAt i.build 8
    ((layOut flatBundleHeaderSize i.sections).flatMap Section.encode) := by
  have h := LiesAt.self i.build
  conv at h => arg 3; rw [build_eq]
  have h := (liesAt_append.mp (liesAt_append.mp h).1).2
  simpa using h

/-- The sections behind the header. -/
theorem sections_at : LiesAt i.build flatBundleHeaderSize (i.sections.flatMap padded8) := by
  have h := LiesAt.self i.build
  conv at h => arg 3; rw [build_eq]
  have h := (liesAt_append.mp h).2
  have hpairs := flatMap_length Section.encode_length (layOut flatBundleHeaderSize i.sections)
  simp only [length_append, toLe_length, hpairs] at h
  exact h

variable {i} (hsmall : i.build.length < 2 ^ 32)
include hsmall

/-- **Each pair of the header is read as it was written.** -/
theorem read_section {k : ℕ} {s : Section} (hk : (layOut flatBundleHeaderSize i.sections)[k]? = some s) :
    Section.read i.build (8 + 8 * k) = s := by
  have hrow := i.pairs_at.row Section.encode_length hk
  obtain ⟨hoff, hsize⟩ := liesAt_append.mp hrow
  rw [toLe_length] at hsize
  have hin := (layOut_within flatBundleHeaderSize i.sections).2 s (mem_of_getElem? hk)
  rw [← i.build_length, Section.endOff] at hin
  rw [Section.read, hoff.u32At_eq (by omega), hsize.u32At_eq (by omega)]

theorem read_header : FlatBundleHeader.read i.build =
    { magic := kFlatBundleMagic, version := kFlatBundleVersion
      genesis := (layOut flatBundleHeaderSize i.sections).getD 0 ⟨0, 0⟩
      blocks := (layOut flatBundleHeaderSize i.sections).getD 1 ⟨0, 0⟩
      ancestors := (layOut flatBundleHeaderSize i.sections).getD 2 ⟨0, 0⟩
      directState := (layOut flatBundleHeaderSize i.sections).getD 3 ⟨0, 0⟩
      nodeStore := (layOut flatBundleHeaderSize i.sections).getD 4 ⟨0, 0⟩
      network := (layOut flatBundleHeaderSize i.sections).getD 5 ⟨0, 0⟩ } := by
  have h := LiesAt.self i.build
  conv at h => arg 3; rw [build_eq]
  obtain ⟨hmagic, hversion⟩ := liesAt_append.mp (liesAt_append.mp (liesAt_append.mp h).1).1
  rw [toLe_length] at hversion
  have hread : ∀ k < 6, Section.read i.build (8 + 8 * k) =
      (layOut flatBundleHeaderSize i.sections).getD k ⟨0, 0⟩ := fun k hk => by
    refine read_section hsmall ?_
    rw [getD_eq_getElem?_getD, getElem?_eq_getElem (show k < 6 from hk), Option.getD_some]
  rw [FlatBundleHeader.read, hmagic.u32At_eq (by decide), hversion.u32At_eq (by decide),
    hread 0 (by decide), hread 1 (by decide), hread 2 (by decide), hread 3 (by decide),
    hread 4 (by decide), hread 5 (by decide)]

theorem sections_eq : (FlatBundleHeader.read i.build).sections.map (·.1) =
    layOut flatBundleHeaderSize i.sections := by
  rw [read_header hsmall]
  rfl

/-- **The header passes its checks.** -/
theorem checkSections_build : checkSections i.build = .ok (FlatBundleHeader.read i.build) := by
  have hsections := sections_eq hsmall
  have hwithin := layOut_within flatBundleHeaderSize i.sections
  have hbytes := layOut_bytes (by decide) i.sections_at
  rw [← i.build_length] at hwithin
  unfold checkSections
  simp only [bind_eq_ok, rejectIf_eq_ok, pure_eq_ok, not_not]
  refine ⟨(), Nat.not_lt.mpr hwithin.1, (), by rw [read_header hsmall], (), by rw [read_header hsmall],
    (), forM_eq_ok.mpr fun s hs => rejectIf_eq_ok.mpr (Nat.not_lt.mpr ?_), (), ?_, (), ?_, trivial⟩
  · have hmem : s.1 ∈ layOut flatBundleHeaderSize i.sections := by
      rw [← hsections]
      exact mem_map.mpr ⟨s, hs, rfl⟩
    exact (hwithin.2 s.1 hmem).2
  · have hd := hbytes
    rw [read_header hsmall]
    simp only [sections, layOut, List.forall₂_cons] at hd
    exact hd.2.2.2.1.2.1
  · have hapart := layOut_apart flatBundleHeaderSize i.sections
    rw [← hsections, pairwise_map] at hapart
    exact hapart

/-- Every section of the bundle has the bytes it was given. -/
theorem section_bytes : Forall₂ (fun s b => s.size = b.length ∧ s.off % 8 = 0 ∧ s.bytes i.build = b)
    ((FlatBundleHeader.read i.build).sections.map (·.1)) i.sections := by
  rw [sections_eq hsmall]
  refine (layOut_bytes (by decide) i.sections_at).imp ?_
  rintro s b ⟨hsize, hmod, hb⟩
  refine ⟨hsize, hmod, ?_⟩
  rw [Section.bytes, hsize]
  exact hb.slice_eq

/-- The bundle's own size, rounded up, is the size that was built. -/
theorem align8_bundleSize : align8 (FlatBundleHeader.read i.build).bundleSize = i.build.length := by
  have hwithin := layOut_within flatBundleHeaderSize i.sections
  have hlast : align8 (FlatBundleHeader.read i.build).network.endOff = i.build.length := by
    rw [i.build_length, read_header hsmall]
    rfl
  have hmod : i.build.length % 8 = 0 := by
    rw [← hlast]
    exact align8_mod _
  obtain ⟨-, hsize, hsections⟩ := checkSections_spec (checkSections_build hsmall)
  have hle := FlatBundleHeader.bundleSize_le hsize hsections
  have hge : (FlatBundleHeader.read i.build).network.endOff ≤
      (FlatBundleHeader.read i.build).bundleSize :=
    le_max_right _ _
  refine le_antisymm (align8_le hle hmod) ?_
  rw [← hlast]
  unfold align8
  omega

end BundleInput

/-- The layout check depends on the address by its alignment only. -/
theorem validatePrestateLayout_add {addr : ℕ} (hoff : off % 8 = 0)
    (h : validatePrestateLayout addr b = .ok ()) :
    validatePrestateLayout (addr + off) b = .ok () := by
  have hmod : (addr + off) % 8 = addr % 8 := by omega
  unfold validatePrestateLayout at h ⊢
  rw [hmod]
  exact h

theorem validateNodestoreLayout_add {addr : ℕ} (hoff : off % 8 = 0)
    (h : validateNodestoreLayout addr b = .ok ()) :
    validateNodestoreLayout (addr + off) b = .ok () := by
  have hmod : (addr + off) % 8 = addr % 8 := by omega
  unfold validateNodestoreLayout at h ⊢
  rw [hmod]
  exact h

/-- The records a loaded bundle has are those it was given, block by block. -/
theorem BlocksInput.recordOf_engineRecords (i : BlocksInput) (k : ℕ) :
    recordOf i.engineRecords k = recordOf i.records k := by
  have hmatch := i.announced.announced k
  unfold engineRecords
  split
  · rename_i hany
    have hfull : i.flags.length = i.blocks.length := by
      rcases i.flagged with hnil | hfull
      · rw [hnil] at hany
        cases hany
      · exact hfull
    by_cases hk : k < i.blocks.length
    · rw [recordOf, getElem?_map, getElem?_range hk]
      rfl
    · rw [getElem?_eq_none (by omega), Option.any_none] at hmatch
      rw [Option.isSome_eq_false_iff, Option.isNone_iff_eq_none] at hmatch
      rw [hmatch, recordOf,
        getElem?_eq_none (by rw [length_map, length_range]; omega)]
      rfl
  · rename_i hany
    have hnone : (i.flags[k]?).any announces = false := by
      rcases hf : i.flags[k]? with _ | f
      · rfl
      · refine Bool.eq_false_iff.mpr fun ha => hany ?_
        exact any_eq_true.mpr ⟨f, mem_of_getElem? hf, ha⟩
    rw [hnone, Option.isSome_eq_false_iff, Option.isNone_iff_eq_none] at hmatch
    rw [hmatch]
    rfl

/-- **What was built is loaded.**  The bundle of any input below `2^32` bytes whose state blobs the
constructor of `DirectState` accepts loads, with the genesis, the blocks, the flags, the engine
records, the ancestors, the state bytes and the network's name it was built from, and its size
rounded up to eight is the size that was built. -/
theorem loadFlatBundle_buildFlatBundle (i : BundleInput) (addr : ℕ) (hsmall : i.build.length < 2 ^ 32)
    (hdirect : validatePrestateLayout addr i.directState = .ok ())
    (hnodes : validateNodestoreLayout addr i.nodeStore = .ok ()) :
    ∃ fb, loadFlatBundle addr i.build = .ok fb ∧ fb.genesis = i.genesis ∧
      fb.blockRlps = i.blocks.blocks ∧ fb.blockFlags = i.blocks.flags ∧
      fb.engineRecords = i.blocks.engineRecords ∧
      (∀ k, recordOf fb.engineRecords k = recordOf i.blocks.records k) ∧
      fb.ancestors = i.ancestors.map (·.header) ∧ fb.ancestorRlps = i.ancestors.map (·.rlp) ∧
      fb.ancestorsWellFormed = true ∧ fb.direct.bytes = i.directState ∧ fb.nodeStore = i.nodeStore ∧
      fb.network = i.network ∧ align8 fb.blobSize = i.build.length := by
  have hsections := BundleInput.section_bytes hsmall
  have hplaced := layOut_bytes (by decide) i.sections_at
  have hwithin := layOut_within flatBundleHeaderSize i.sections
  rw [← i.build_length] at hwithin
  have hcheck := BundleInput.checkSections_build hsmall
  have hsize := BundleInput.align8_bundleSize hsmall
  rw [← BundleInput.sections_eq hsmall] at hplaced hwithin
  generalize FlatBundleHeader.read i.build = hdr at *
  simp only [FlatBundleHeader.sections, BundleInput.sections, map_cons, map_nil,
    List.forall₂_cons] at hsections hplaced
  obtain ⟨hgen, hblk, hanc, ⟨-, hdirMod, hdirBytes⟩, hnode, hnet, -⟩ := hsections
  obtain ⟨-, ⟨-, hblkmod, hblkat⟩, -⟩ := hplaced
  have hblkEnd := (hwithin.2 hdr.blocks (by simp [FlatBundleHeader.sections])).2
  have hancEnd := (hwithin.2 hdr.ancestors (by simp [FlatBundleHeader.sections])).2
  have hblocks : readBlocks i.build hdr.blocks = .ok
      (i.blocks.blocks, i.blocks.flags, i.blocks.engineRecords) := by
    have hbytes := i.blocks.readBlocks_bytes hblkmod hblkat
      (by rw [Section.endOff, hblk.1] at hblkEnd; omega)
    rwa [← hblk.1] at hbytes
  have hancestors : readAncestors (hdr.ancestors.bytes i.build) =
      .ok { headers := i.ancestors.map (·.header), rlps := i.ancestors.map (·.rlp), wellFormed :=
        true } := by
    rw [hanc.2.2]
    refine readAncestors_bytes i.ancestorsDecode ?_
    rw [Section.endOff, hanc.1] at hancEnd
    omega
  have hread : readSections i.build hdr = .ok (i.genesis,
      (i.blocks.blocks, i.blocks.flags, i.blocks.engineRecords),
      { headers := i.ancestors.map (·.header), rlps := i.ancestors.map (·.rlp),
        wellFormed := true }) := by
    unfold readSections
    rw [hgen.2.2, i.genesisDecodes, hblocks, hancestors]
    rfl
  have hvalid : validatePrestateLayout (addr + hdr.directState.off) i.directState = .ok () :=
    validatePrestateLayout_add hdirMod hdirect
  refine ⟨{ blobSize := hdr.bundleSize, genesis := i.genesis, blockRlps := i.blocks.blocks
            blockFlags := i.blocks.flags, engineRecords := i.blocks.engineRecords
            ancestors := i.ancestors.map (·.header), ancestorRlps := i.ancestors.map (·.rlp)
            ancestorsWellFormed := true
            direct := ⟨addr + hdr.directState.off, i.directState, hvalid⟩
            nodeStore := i.nodeStore, network := i.network }, ?_, rfl, rfl, rfl, rfl,
    i.blocks.recordOf_engineRecords, rfl, rfl, rfl, rfl, rfl, rfl, hsize⟩
  unfold loadFlatBundle
  rw [hcheck, bind_eq_ok]
  refine ⟨hdr, rfl, ?_⟩
  rw [hread, bind_eq_ok]
  refine ⟨_, rfl, ?_⟩
  rw [hdirBytes]
  dsimp only
  rw [loadPreState_of_valid hvalid, bind_eq_ok]
  refine ⟨_, rfl, ?_⟩
  rw [hnode.2.2, hnet.2.2, validateNodestoreLayout_add hnode.2.1 hnodes, bind_eq_ok]
  exact ⟨(), rfl, rfl⟩

namespace SampleBundle

/-- The engine record of the second block. -/
def record : BlockEngineRecord := ⟨zeroBytes32, replicate 32 1⟩

/-- A block RLP is one list. -/
theorem isRlpList (h : BlockHeader)
    (hsmall : (h.encode ++ [kEmptyListCode, kEmptyListCode]).length < 2 ^ 64) :
    IsRlpList (Sample.blockRlp h) := by
  have hdec := @decodeHeader_encodeList (h.encode ++ [kEmptyListCode, kEmptyListCode]) [] hsmall
  rw [append_nil, append_nil] at hdec
  exact ⟨_, hdec⟩

/-- The second flag announces the record. -/
theorem announced : RecordsMatch [0, kBlockFlagEngineRecord] [none, some record] := by
  constructor
  · rintro (_ | _ | i) <;> rfl
  · rintro (_ | _ | i) r hr
    · cases hr
    · obtain rfl := Option.some.inj hr
      show (replicate 32 _).length % 32 = 0
      rw [length_replicate]
    · cases hr

/-- An ancestor wrapped in a byte string. -/
def ancestor : AncestorEntry := ⟨Sample.parent, Sample.parent.encode, true, by decide +kernel⟩

/-- Two blocks, the second with an engine record, over one ancestor. -/
def input : BundleInput where
  genesis := { header := Sample.parent }
  genesisRlp := Sample.blockRlp Sample.parent
  blocks :=
    { blocks := [Sample.blockRlp (Sample.child 1), Sample.blockRlp (Sample.child 7)]
      flags := [0, kBlockFlagEngineRecord]
      records := [none, some record]
      lists := by
        intro b hb
        rw [mem_pair] at hb
        rcases hb with hb | hb
        · rw [hb]
          exact isRlpList _ (by decide +kernel)
        · rw [hb]
          exact isRlpList _ (by decide +kernel)
      flagged := .inr (by simp only [length_cons, length_nil])
      announced := announced }
  ancestors := [ancestor]
  ancestorsRlp := encodeList ([ancestor].flatMap AncestorEntry.bytes)
  directState := Sample.emptyPreState
  nodeStore := []
  network := asciiBytes "Paris"
  genesisDecodes := by decide +kernel
  ancestorsDecode := .inl rfl

end SampleBundle

/-- The bundle of two blocks loads, the engine record at the second block. -/
theorem loadFlatBundle_sample :
    ∃ fb, loadFlatBundle 0 SampleBundle.input.build = .ok fb ∧
      fb.blockRlps = [Sample.blockRlp (Sample.child 1), Sample.blockRlp (Sample.child 7)] ∧
      recordOf fb.engineRecords 1 = some SampleBundle.record ∧ fb.ancestors = [Sample.parent] ∧
      fb.network = asciiBytes "Paris" := by
  obtain ⟨fb, hload, -, hblocks, -, -, hrecords, hancestors, -, -, -, -, hnetwork, -⟩ :=
    loadFlatBundle_buildFlatBundle SampleBundle.input 0 (by decide +kernel) (by decide +kernel)
      (by decide +kernel)
  exact ⟨fb, hload, hblocks, hrecords 1, hancestors, hnetwork⟩

end Zilkworm.Run
