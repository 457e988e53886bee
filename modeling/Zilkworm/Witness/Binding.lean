/-
# What `sanitize` binds

`StateTransition::check_root` reads the records through the address-hash table, at the
offsets its entries name, while execution reads them through the account map.  `sanitize`
is to make the two views one.  It clears the mark of every record through the table, so
each record is named; but it never compares the number of entries with the number of
records, and a surplus entry may name an offset inside a record's slack bytes, where no
pass has looked.  The two views are one exactly when the two counts agree.
-/
import Zilkworm.Witness.SanitizeSpec
import Zilkworm.Witness.MphfLayout
import Mathlib.Data.Finset.Card
import Mathlib.Data.List.Perm.Basic

namespace Zilkworm.Witness

open List Lib Rlp Zilkworm.Types

variable {offs : List ℕ}

/-! ## Tiling -/

theorem le_mphfAlign8 {v : ℕ} (h : v + 7 < 2 ^ 32) : v ≤ mphfAlign8 v := by
  unfold mphfAlign8
  omega

/-- Entries that tile a section follow one another. -/
theorem tilesFrom_pairwise {len : ℕ → ℕ} {expect stop : ℕ}
    (h : tilesFrom len expect offs = some stop) (hlen : ∀ o ∈ offs, 8 + len o + 7 < 2 ^ 32) :
    (∀ o ∈ offs, expect ≤ o) ∧ offs.Pairwise (fun o o' => o + 8 + len o ≤ o') := by
  induction offs generalizing expect with
  | nil => simp
  | cons o os ih =>
    simp only [tilesFrom] at h
    split at h
    · cases h
    · rename_i ho
      obtain rfl : o = expect := by simpa using ho
      have hl := hlen o mem_cons_self
      rw [Nat.mod_eq_of_lt (by omega)] at h
      have halign := le_mphfAlign8 hl
      obtain ⟨hge, hpw⟩ := ih h fun x hx => hlen x (mem_cons_of_mem o hx)
      refine ⟨fun x hx => ?_, pairwise_cons.mpr ⟨fun x hx => ?_, hpw⟩⟩
      · rcases mem_cons.mp hx with rfl | hx
        · exact le_rfl
        · have := hge x hx; omega
      · have := hge x hx; omega

/-- The records of a tiled map are distinct and keep off one another. -/
theorem mphfEntriesTile_apart {b : Bytes} {m : MphfMap} (h : mphfEntriesTile b (some m) = true)
    (hk : m.hdr.nKeys ≠ 0) (hd : m.hdr.dataSize + 15 < 2 ^ 32)
    (he : ∀ o ∈ m.forEachOffset b, o + 8 + m.entryLen b o ≤ m.hdr.dataSize) :
    (m.forEachOffset b).Nodup ∧ (m.forEachOffset b).Pairwise fun o o' =>
      Apart (m.data + o + 8) (m.entryLen b o) (m.data + o' + 8) (m.entryLen b o') := by
  simp only [mphfEntriesTile, hk, if_false, decide_eq_true_eq] at h
  have hmod : (m.forEachOffset b).map (· % 2 ^ 32) = m.forEachOffset b := by
    rw [map_congr_left (g := id) fun o ho => ?_, map_id]
    have := he o ho
    exact Nat.mod_eq_of_lt (by omega)
  rw [hmod] at h
  have hperm := perm_insertionSort (· ≤ ·) (m.forEachOffset b)
  obtain ⟨-, hpw⟩ := tilesFrom_pairwise h fun o ho => by
    have := he o (hperm.mem_iff.mp ho); omega
  constructor
  · exact (hperm.nodup_iff).mp (hpw.imp fun hle => by omega)
  · refine (hperm.pairwise_iff ?_).mp (hpw.imp fun hle => ?_)
    · intro o o' ha
      exact ha.symm
    · left; omega

/-! ## The two walks -/

/-- The records at `offs` lie inside the blob and off one another, in rooms of the lengths `L`, and
writes to the rooms leave the code store alone. -/
structure RecordRooms (code : Option MphfMap) (b₀ : Bytes) (m : MphfMap) (L : ℕ → ℕ) (offs : List ℕ)
    (b : Bytes) : Prop where
  inside : ∀ o ∈ offs, recordSize b (m.data + o + 8) ≤ L o ∧ m.data + o + 8 + L o ≤ b.length
  apart : offs.Pairwise fun o o' => Apart (m.data + o + 8) (L o) (m.data + o' + 8) (L o')
  code : ∀ c, Frame (offs.map fun o => (m.data + o + 8, L o)) b c → SameCode code b₀ c

section Walk

variable {code : Option MphfMap} {b₀ b b' : Bytes} {m : MphfMap} {L : ℕ → ℕ} {o : ℕ} {os : List ℕ}

/-- A write to the first record keeps off the others and leaves them their rooms. -/
theorem RecordRooms.next (h : RecordRooms code b₀ m L (o :: os) b)
    (f : Frame [(m.data + o + 8, recordSize b (m.data + o + 8))] b b') :
    Frame [(m.data + o + 8, L o)] b b' ∧ RecordRooms code b₀ m L os b' ∧
      ∀ x ∈ os, ∀ r ∈ [(m.data + o + 8, L o)],
        Apart (m.data + x + 8) (recordSize b (m.data + x + 8)) r.1 r.2 := by
  obtain ⟨hhead, htail⟩ := pairwise_cons.mp h.apart
  have hsize := (h.inside o mem_cons_self).1
  have f' : Frame [(m.data + o + 8, L o)] b b' := f.mono fun r hr => by
    obtain rfl := mem_singleton.mp hr
    exact ⟨_, mem_singleton_self _, le_rfl, by simp only; omega⟩
  have hoff : ∀ x ∈ os, ∀ r ∈ [(m.data + o + 8, L o)],
      Apart (m.data + x + 8) (recordSize b (m.data + x + 8)) r.1 r.2 := fun x hx r hr => by
    obtain rfl := mem_singleton.mp hr
    have := hhead x hx
    have := (h.inside x (mem_cons_of_mem o hx)).1
    unfold Apart at *
    omega
  refine ⟨f', ⟨fun x hx => ?_, htail, fun c hc => h.code c (f'.trans hc)⟩, hoff⟩
  have hkept := sameRecord_of_frame f' fun r hr => .inl (hoff x hx r hr)
  rw [f.1, recordSize, hkept.slotCount]
  exact h.inside x (mem_cons_of_mem o hx)

/-- **The walk over the records** leaves each ready and marked, and writes inside them only. -/
theorem accountWalk_spec (h : accountWalk code m offs b = .ok b')
    (hin : RecordRooms code b₀ m L offs b) :
    Frame (offs.map fun o => (m.data + o + 8, L o)) b b' ∧
      ∀ o ∈ offs, SameRecord b b' (m.data + o + 8) ∧
        RecordReady code b₀ b' (m.data + o + 8) true ∧
        (accCodeStoreLen b (m.data + o + 8) = 0 → accCodeStoreLen b' (m.data + o + 8) = 0) := by
  induction offs generalizing b with
  | nil =>
    cases h
    exact ⟨Frame.refl _, by simp⟩
  | cons o os ih =>
    simp only [accountWalk, bind_eq_ok] at h
    obtain ⟨b₁, h₁, h₂⟩ := h
    obtain ⟨hsize, hend⟩ := hin.inside o mem_cons_self
    obtain ⟨f₁, hsame, hready, hno⟩ := handleAccountBody_spec h₁ (by omega)
      (hin.code b ((Frame.refl b).mono (by simp)))
    obtain ⟨f₁', hrest, hothers⟩ := hin.next f₁
    obtain ⟨f₂, hall⟩ := ih h₂ hrest
    refine ⟨f₁'.trans f₂, fun x hx => ?_⟩
    rcases mem_cons.mp hx with rfl | hx
    · have hin' : ∀ q k, m.data + x + 8 ≤ q → q + k ≤ m.data + x + 8 + L x →
          ∀ r ∈ os.map (fun o => (m.data + o + 8, L o)), Apart q k r.1 r.2 := by
        intro q k h1 h2 r hr
        obtain ⟨y, hy, rfl⟩ := mem_map.mp hr
        have := (pairwise_cons.mp hin.apart).1 y hy
        unfold Apart at this ⊢
        omega
      have hoff : ∀ r ∈ os.map (fun o => (m.data + o + 8, L o)),
          Apart (m.data + x + 8) (recordSize b₁ (m.data + x + 8)) r.1 r.2 :=
        hin' _ _ le_rfl (by rw [recordSize, hsame.slotCount]; exact Nat.add_le_add_left hsize _)
      have hsize₁ : accountSize ≤ L x := (Nat.le_add_right _ _).trans hsize
      simp only [accountSize] at hsize₁
      refine ⟨hsame.trans (sameRecord_of_frame f₂ fun r hr => .inl (hoff r hr)), ?_, fun h0 => ?_⟩
      · refine hready.frame f₂ (fun r hr => .inl (hoff r hr)) ?_
        rw [accModified, f₂.byteAt_eq (hin' _ _ (by omega) (by omega))]
        exact hready.modified
      · rw [accCodeStoreLen, f₂.u32At_eq (hin' _ _ (by omega) (by omega))]
        exact hno h0
    · obtain ⟨h1, h2, h3⟩ := hall x hx
      have hkept := sameRecord_of_frame f₁' fun r hr => .inl (hothers x hx r hr)
      refine ⟨hkept.trans h1, h2, fun h0 => h3 ?_⟩
      rw [accCodeStoreLen, f₁'.u32At_eq, ← accCodeStoreLen, h0]
      intro r hr
      have := hothers x hx r hr
      simp only [recordSize, accountSize] at this
      unfold Apart at this ⊢
      omega

end Walk

section Table

variable {keccak256 : Bytes → Bytes32} {pm : PreStateMeta} {data dataSize n i : ℕ} {prev : Option Bytes}
  {b b' : Bytes}

/-- Writes before the address-hash table leave its entries. -/
theorem addrHashEntry_congr {rs : List (ℕ × ℕ)} (hf : Frame rs b b')
    (hr : ∀ r ∈ rs, r.1 + r.2 ≤ pm.addrHashesOffset) (i : ℕ) :
    addrHashEntry b' pm i = addrHashEntry b pm i := by
  have hq : ∀ q k, pm.addrHashesOffset ≤ q → ∀ r ∈ rs, Apart q k r.1 r.2 :=
    fun q k hq r hmem => .inr ((hr r hmem).trans hq)
  simp only [addrHashEntry]
  rw [hf.slice_eq (hq _ _ (by omega)), hf.slice_eq (hq _ _ (by omega)), hf.u32At_eq (hq _ _ (by omega))]

/-- The mark an accepted entry clears lies in the data section, before the table. -/
theorem mark_spec (hD : data + dataSize ≤ pm.addrHashesOffset) (hb : data + dataSize ≤ b.length)
    (hbound : (addrHashEntry b pm i).entryOffset + 8 + accountSize ≤ dataSize) :
    Frame [(data + (addrHashEntry b pm i).entryOffset + 8 + 23, 1)] b
        (writeAt b (data + (addrHashEntry b pm i).entryOffset + 8 + 23) [0]) ∧
      ∀ j, addrHashEntry (writeAt b (data + (addrHashEntry b pm i).entryOffset + 8 + 23) [0]) pm j =
        addrHashEntry b pm j := by
  simp only [accountSize] at hbound
  have hf := @Frame.writeAt b [0] (data + (addrHashEntry b pm i).entryOffset + 8 + 23)
    (by rw [length_singleton]; omega)
  refine ⟨hf, addrHashEntry_congr hf fun r hr => ?_⟩
  obtain rfl := mem_singleton.mp hr
  rw [length_singleton]
  omega

/-- The mark bytes the table walk clears, for `n` entries from entry `i` on. -/
def clearedMarks (b : Bytes) (pm : PreStateMeta) (data n i : ℕ) : List (ℕ × ℕ) :=
  (List.range' i n).map fun j => (data + (addrHashEntry b pm j).entryOffset + 8 + 23, 1)

/-- An entry of the table as the walk accepts it; `c` is the blob at that moment. -/
structure EntryAccepted (keccak256 : Bytes → Bytes32) (data dataSize : ℕ) (e : AddrHashEntry)
    (c : Bytes) : Prop where
  hash : (keccak256 e.addr).val = e.addrHash
  bound : e.entryOffset + 8 + accountSize ≤ dataSize
  addr : accAddr c (data + e.entryOffset + 8) = e.addr

/-- **The walk over the address-hash table** accepts strictly ascending entries, each with the
address of the bytes it names, and clears one byte for each. -/
theorem addrHashWalk_spec (h : addrHashWalk keccak256 pm data dataSize n i prev b = .ok b')
    (hD : data + dataSize ≤ pm.addrHashesOffset) (hb : data + dataSize ≤ b.length) :
    Frame (clearedMarks b pm data n i) b b' ∧
    (∀ j, i ≤ j → j < i + n → ∃ c, Frame (clearedMarks b pm data n i) b c ∧
      EntryAccepted keccak256 data dataSize (addrHashEntry b pm j) c) ∧
    (∀ j, i ≤ j → j + 1 < i + n →
      (addrHashEntry b pm j).addrHash < (addrHashEntry b pm (j + 1)).addrHash) ∧
    (0 < n → ∀ h ∈ prev, h < (addrHashEntry b pm i).addrHash) := by
  induction n generalizing i prev b with
  | zero =>
    cases h
    exact ⟨Frame.refl _, fun j h1 h2 => by omega, fun j h1 h2 => by omega, fun h => by omega⟩
  | succ n ih =>
    simp only [addrHashWalk, bind_eq_ok, rejectIf_eq_ok, exists_const] at h
    obtain ⟨hprev, hhash, hbound, haddr, h⟩ := h
    obtain ⟨f₁, hentry⟩ := mark_spec hD hb (Nat.not_lt.mp hbound)
    set b₁ := writeAt b (data + (addrHashEntry b pm i).entryOffset + 8 + 23) [0] with hb₁
    obtain ⟨f₂, hacc, hasc, hfirst⟩ := ih h (by rw [f₁.1]; exact hb)
    have hmarks : clearedMarks b pm data (n + 1) i =
        (data + (addrHashEntry b pm i).entryOffset + 8 + 23, 1) :: clearedMarks b₁ pm data n
          (i + 1) := by
      simp [clearedMarks, List.range'_succ, hentry]
    rw [hmarks]
    refine ⟨f₁.trans f₂, fun j h1 h2 => ?_, fun j h1 h2 => ?_, fun _ p hp => ?_⟩
    · rcases Nat.lt_or_ge i j with hj | hj
      · obtain ⟨c, hc, hacc⟩ := hacc j hj (by omega)
        rw [hentry] at hacc
        exact ⟨c, f₁.trans hc, hacc⟩
      · obtain rfl : j = i := by omega
        exact ⟨b, (Frame.refl b).mono (by simp), by simpa using hhash, by omega, by simpa using haddr⟩
    · rcases Nat.lt_or_ge i j with hj | hj
      · have := hasc j hj (by omega)
        rwa [hentry, hentry] at this
      · obtain rfl : j = i := by omega
        have := hfirst (by omega) _ rfl
        rwa [hentry] at this
    · by_contra hn
      exact hprev ⟨p, hp, hn⟩

/-- The walk over the table changes bytes to zero only. -/
theorem addrHashWalk_byteAt (h : addrHashWalk keccak256 pm data dataSize n i prev b = .ok b')
    (hb : data + dataSize ≤ b.length) (q : ℕ) : byteAt b' q = byteAt b q ∨ byteAt b' q = 0 := by
  induction n generalizing i prev b with
  | zero => cases h; exact .inl rfl
  | succ n ih =>
    simp only [addrHashWalk, bind_eq_ok, rejectIf_eq_ok, exists_const] at h
    obtain ⟨-, -, hbound, -, h⟩ := h
    simp only [accountSize] at hbound
    have hw : data + (addrHashEntry b pm i).entryOffset + 8 + 23 + [(0 : UInt8)].length ≤ b.length := by
      simp only [length_singleton]; omega
    rcases ih h (by rw [writeAt_length _ _ _ hw]; exact hb) with hq | hq
    · rw [hq]
      by_cases heq : q = data + (addrHashEntry b pm i).entryOffset + 8 + 23
      · subst heq
        exact .inr (byteAt_writeAt_self (by simp only [length_singleton] at hw; omega))
      · refine .inl (byteAt_writeAt_disjoint hw ?_)
        simp only [length_singleton]
        omega
    · exact .inr hq

end Table

/-! ## Layout facts of an accepted blob -/

/-- What the constructor's checks say about a non-null account map. -/
structure AddrMapLayout (s : PreState) (m : MphfMap) : Prop where
  layout : MphfLayout 20 0 s.bytes m (s.stateMeta.addrHashesOffset - s.stateMeta.prestateOffset)
  base : m.base = s.stateMeta.prestateOffset
  nonempty : s.stateMeta.prestateOffset < s.stateMeta.addrHashesOffset
  keys : m.hdr.nKeys ≠ 0
  records : ∀ off ∈ m.forEachOffset s.bytes,
    recordSize s.bytes (m.data + off + 8) ≤ m.entryLen s.bytes off

theorem PreState.addrMapLayout {s : PreState} {m : MphfMap} (hm : m ∈ s.preStateMap) :
    AddrMapLayout s m := by
  have hv := s.valid
  simp only [preStateMap, Option.mem_def, Option.ite_none_right_eq_some, Option.some.injEq] at hm
  obtain ⟨hn, rfl⟩ := hm
  simp only [stateMeta] at hn ⊢
  simp only [validatePrestateLayout, validateAddrMap, hn, if_true, bind_eq_ok, rejectIf_eq_ok,
    forM_eq_ok, exists_and_left, exists_const, not_not] at hv
  obtain ⟨-, -, -, -, -, -, ⟨hlt, _, hmphf, hk⟩, -, -, -, hent⟩ := hv
  refine ⟨validateMphf_layout hmphf (by simp only [stateMeta]; omega) hk, rfl,
    by simp only [stateMeta]; omega, hk, fun off hoff => ?_⟩
  have he := hent off hoff
  simp only [checkEntry, bind_eq_ok, rejectIf_eq_ok, exists_and_left, exists_const] at he
  simp only [recordSize]
  rw [Nat.mul_comm slotSize]
  omega

theorem PreState.mem_codeStoreMap {s : PreState} {m : MphfMap} (hm : m ∈ s.codeStoreMap) :
    0 < (PreStateMeta.read s.bytes).codeStoreSize ∧
      MphfMap.reset s.bytes (PreStateMeta.read s.bytes).codeStoreOffset = m := by
  simp only [codeStoreMap, Option.mem_def, Option.ite_none_right_eq_some, Option.some.injEq] at hm
  exact hm

/-- A lookup in the code store answers alike after writes that stay before it. -/
theorem PreState.sameCode {s : PreState} {rs : List (ℕ × ℕ)} {c : Bytes}
    (hf : Frame rs s.bytes c) (hr : ∀ r ∈ rs, r.1 + r.2 ≤ s.stateMeta.codeStoreOffset) :
    SameCode s.codeStoreMap s.bytes c := by
  intro m hm key hkey
  have hv := s.valid
  obtain ⟨hn, rfl⟩ := mem_codeStoreMap hm
  simp only [stateMeta] at hr
  by_cases hk : (MphfMap.reset s.bytes (PreStateMeta.read s.bytes).codeStoreOffset).hdr.nKeys = 0
  · simp only [MphfMap.find, hk, if_true]
  · simp only [validatePrestateLayout, bind_eq_ok, rejectIf_eq_ok, exists_and_left,
      exists_const] at hv
    obtain ⟨-, -, -, -, -, -, _, -, _, hcode, -⟩ := hv
    refine (validateMphf_layout hcode (by omega) hk).find_congr hf (fun r hmem => ?_) hkey _
    exact .inr (hr r hmem)

/-- The records of a tiled account map have their rooms before the address-hash table. -/
theorem AddrMapLayout.rooms {s : PreState} {m : MphfMap} (hl : AddrMapLayout s m)
    (hsec : sectionsInOrder s.stateMeta s.bytes.length)
    (htile : mphfEntriesTile s.bytes (some m) = true) :
    (m.forEachOffset s.bytes).Nodup ∧ m.data + m.hdr.dataSize ≤ s.stateMeta.addrHashesOffset ∧
      s.stateMeta.addrHashesOffset ≤ s.bytes.length ∧
      (∀ o ∈ m.forEachOffset s.bytes,
        m.data + o + 8 + m.entryLen s.bytes o ≤ s.stateMeta.addrHashesOffset) ∧
      RecordRooms s.codeStoreMap s.bytes m (m.entryLen s.bytes) (m.forEachOffset s.bytes) s.bytes := by
  obtain ⟨hs₁, hs₂, hs₃, hs₄, hs₅⟩ := hsec
  have hbase := hl.base
  have hdata : m.data = m.base + m.hdr.dataOffset := rfl
  have hD : m.data + m.hdr.dataSize ≤ s.stateMeta.addrHashesOffset := by
    have := hl.layout.dataEnd
    have := hl.nonempty
    omega
  have hhash : s.stateMeta.addrHashesOffset < 2 ^ 32 := u32At_lt _ _
  have hhead := hl.layout.header
  simp only [mphfHeaderSize, preStateMetaSize] at hhead hs₁
  obtain ⟨hnd, hap⟩ := mphfEntriesTile_apart htile hl.keys (by omega)
    fun o ho => (hl.layout.entries o ho).1
  have hend : ∀ o ∈ m.forEachOffset s.bytes,
      m.data + o + 8 + m.entryLen s.bytes o ≤ s.stateMeta.addrHashesOffset := fun o ho => by
    have := (hl.layout.entries o ho).1
    omega
  refine ⟨hnd, hD, by omega, hend, fun o ho => ?_, hap, fun c hc => PreState.sameCode hc fun r hr => ?_⟩
  · have := hend o ho
    exact ⟨hl.records o ho, by omega⟩
  · obtain ⟨o, ho, rfl⟩ := mem_map.mp hr
    have := hend o ho
    dsimp only
    omega

/-- Both walks write in the data section, and so the map visits what it visited. -/
theorem AddrMapLayout.offsets {s : PreState} {m : MphfMap} (hl : AddrMapLayout s m) {L : ℕ → ℕ}
    {n i : ℕ} {b₁ b : Bytes} (f₁ : Frame (offs.map fun o => (m.data + o + 8, L o)) s.bytes b₁)
    (f₂ : Frame (clearedMarks b₁ s.stateMeta m.data n i) b₁ b) :
    m.forEachOffset b = m.forEachOffset s.bytes := by
  refine hl.layout.forEachOffset_congr (f₁.trans f₂) fun r hr => .inl ?_
  rcases mem_append.mp hr with hr | hr
  all_goals
    obtain ⟨o, -, rfl⟩ := mem_map.mp hr
    simp only [MphfMap.data]
    omega

/-! ## Records and entries -/

/-- The number of records the account map visits. -/
def PreState.recordCount (s : PreState) : ℕ :=
  (s.preStateMap.map fun m => (m.forEachOffset s.bytes).length).getD 0

/-- **The commit view is bound to the read view** in the blob `b` that `sanitize` left: every
entry of the address-hash table names a record of the account map and carries that record's own
address and its hash, no two entries name one record, every record is named once, and the record
read through an entry is one `sanitize` has prepared. -/
structure CommitViewBound (keccak256 : Bytes → Bytes32) (s : PreState) (b : Bytes) : Prop where
  named : ∀ i < s.stateMeta.nAccounts, ∃ m ∈ s.preStateMap,
    (addrHashEntry b s.stateMeta i).entryOffset ∈ m.forEachOffset b ∧
    accAddr b (m.data + (addrHashEntry b s.stateMeta i).entryOffset + 8) =
      (addrHashEntry b s.stateMeta i).addr ∧
    (keccak256 (addrHashEntry b s.stateMeta i).addr).val = (addrHashEntry b s.stateMeta i).addrHash ∧
    RecordReady s.codeStoreMap s.bytes b
      (m.data + (addrHashEntry b s.stateMeta i).entryOffset + 8) false
  distinct : ∀ i < s.stateMeta.nAccounts, ∀ j < s.stateMeta.nAccounts,
    (addrHashEntry b s.stateMeta i).entryOffset = (addrHashEntry b s.stateMeta j).entryOffset → i = j
  covered : ∀ m ∈ s.preStateMap, ∀ off ∈ m.forEachOffset b,
    ∃! i, i < s.stateMeta.nAccounts ∧ (addrHashEntry b s.stateMeta i).entryOffset = off

/-- A list without repetition that `f` covers from `n` indices has at most `n` elements; with `n`
of them, `f` is injective on the indices and stays in the list. -/
theorem covering_injective {n : ℕ} {f : ℕ → ℕ} {l : List ℕ} (hnd : l.Nodup)
    (hcov : ∀ o ∈ l, ∃ i < n, f i = o) (hlen : l.length = n) :
    (∀ i < n, f i ∈ l) ∧ ∀ i < n, ∀ j < n, f i = f j → i = j := by
  have hsub : l.toFinset ⊆ (Finset.range n).image f := fun o ho => by
    obtain ⟨i, hi, rfl⟩ := hcov o (mem_toFinset.mp ho)
    exact Finset.mem_image_of_mem f (Finset.mem_range.mpr hi)
  have hcard : l.toFinset.card = n := (toFinset_card_of_nodup hnd).trans hlen
  have himage : ((Finset.range n).image f).card ≤ n := by
    simpa using Finset.card_image_le (s := Finset.range n) (f := f)
  have heq : l.toFinset = (Finset.range n).image f :=
    Finset.eq_of_subset_of_card_le hsub (by omega)
  constructor
  · intro i hi
    rw [← mem_toFinset, heq]
    exact Finset.mem_image_of_mem f (Finset.mem_range.mpr hi)
  · have hinj : Set.InjOn f (Finset.range n) :=
      Finset.card_image_iff.mp (by rw [← heq, hcard, Finset.card_range])
    intro i hi j hj
    exact fun h => hinj (by simpa using hi) (by simpa using hj) h

/-- What the passes leave behind for a non-null account map: `b₁` is the blob between the two
walks, `b` the result. -/
structure Sanitized (keccak256 : Bytes → Bytes32) (s : PreState) (m : MphfMap) (b₁ b : Bytes) :
    Prop where
  nodup : (m.forEachOffset s.bytes).Nodup
  apart : (m.forEachOffset s.bytes).Pairwise fun o o' =>
    Apart (m.data + o + 8) (m.entryLen s.bytes o) (m.data + o' + 8) (m.entryLen s.bytes o')
  kept : ∀ o ∈ m.forEachOffset s.bytes, SameRecord s.bytes b₁ (m.data + o + 8)
  ready : ∀ o ∈ m.forEachOffset s.bytes,
    recordSize b₁ (m.data + o + 8) ≤ m.entryLen s.bytes o ∧
      RecordReady s.codeStoreMap s.bytes b₁ (m.data + o + 8) true
  noCode : ∀ o ∈ m.forEachOffset s.bytes, accCodeStoreLen s.bytes (m.data + o + 8) = 0 →
    accCodeStoreLen b₁ (m.data + o + 8) = 0
  walked : Frame ((m.forEachOffset s.bytes).map fun o => (m.data + o + 8, m.entryLen s.bytes o))
    s.bytes b₁
  bodies : ∀ o ∈ m.forEachOffset s.bytes,
    m.data + o + 8 + m.entryLen s.bytes o ≤ s.stateMeta.addrHashesOffset
  marksInside : ∀ r ∈ clearedMarks b₁ s.stateMeta m.data s.stateMeta.nAccounts 0,
    m.data ≤ r.1 ∧ r.1 + r.2 ≤ s.stateMeta.addrHashesOffset
  marks : Frame (clearedMarks b₁ s.stateMeta m.data s.stateMeta.nAccounts 0) b₁ b
  zeroed : ∀ q, byteAt b q = byteAt b₁ q ∨ byteAt b q = 0
  accepted : ∀ i < s.stateMeta.nAccounts, ∃ c,
    Frame (clearedMarks b₁ s.stateMeta m.data s.stateMeta.nAccounts 0) b₁ c ∧
      EntryAccepted keccak256 m.data m.hdr.dataSize (addrHashEntry b₁ s.stateMeta i) c
  entries : ∀ i, addrHashEntry b s.stateMeta i = addrHashEntry b₁ s.stateMeta i
  offsets : m.forEachOffset b = m.forEachOffset s.bytes
  cleared : ∀ o ∈ m.forEachOffset s.bytes, accModified b (m.data + o + 8) = false

theorem sanitize_accounts {keccak256 : Bytes → Bytes32} {verified : ℕ → Bool} {s : PreState}
    {m : MphfMap} {b : Bytes} (h : sanitize keccak256 verified s = .ok b) (hm : m ∈ s.preStateMap) :
    ∃ b₁, Sanitized keccak256 s m b₁ b := by
  have hl := PreState.addrMapLayout hm
  rw [Option.mem_def] at hm
  simp only [sanitize, hm, sanitizeAccounts, bind_eq_ok, rejectIf_eq_ok, pure_eq_ok, exists_const,
    not_not] at h
  obtain ⟨hsec, ⟨htile, -⟩, -, b₁, hwalk, b, htable, hclear, rfl⟩ := h
  obtain ⟨hnd, hD, hlen, hend, hrooms⟩ := hl.rooms hsec htile
  obtain ⟨f₁, hready⟩ := accountWalk_spec hwalk hrooms
  obtain ⟨f₂, hacc, -, -⟩ := addrHashWalk_spec htable hD (by rw [f₁.1]; omega)
  have hmarks : ∀ r ∈ clearedMarks b₁ s.stateMeta m.data s.stateMeta.nAccounts 0,
      m.data ≤ r.1 ∧ r.1 + r.2 ≤ s.stateMeta.addrHashesOffset := by
    intro r hr
    obtain ⟨i, hi, rfl⟩ := mem_map.mp hr
    obtain ⟨-, hi⟩ := mem_range'_1.mp hi
    obtain ⟨c, -, hc⟩ := hacc i (by omega) hi
    have := hc.bound
    simp only [accountSize] at this
    constructor <;> simp only <;> omega
  have hoffsets := hl.offsets f₁ f₂
  refine ⟨b₁, hnd, hrooms.apart, fun o ho => (hready o ho).1,
    fun o ho =>
    ⟨by rw [recordSize, (hready o ho).1.slotCount]; exact hl.records o ho, (hready o ho).2.1⟩,
    fun o ho => (hready o ho).2.2, f₁, hend, hmarks, f₂,
      addrHashWalk_byteAt htable (by rw [f₁.1]; omega),
    fun i hi => hacc i (by omega) (by omega),
    addrHashEntry_congr f₂ fun r hr => (hmarks r hr).2, hoffsets, fun o ho => ?_⟩
  rw [Bool.not_eq_false, marksCleared, all_eq_true, hoffsets] at hclear
  simpa using hclear o ho

section Counting

variable {keccak256 : Bytes → Bytes32} {s : PreState} {m : MphfMap} {b₁ b : Bytes}

/-- **Every record is named**: only an entry that names it can have cleared its mark. -/
theorem Sanitized.covered (h : Sanitized keccak256 s m b₁ b) {o : ℕ}
    (ho : o ∈ m.forEachOffset s.bytes) :
    ∃ i < s.stateMeta.nAccounts, (addrHashEntry b s.stateMeta i).entryOffset = o := by
  by_contra hnone
  push Not at hnone
  have hkeep : byteAt b (m.data + o + 8 + 23) = byteAt b₁ (m.data + o + 8 + 23) := by
    refine h.marks.byteAt_eq fun r hr => ?_
    obtain ⟨i, hi, rfl⟩ := mem_map.mp hr
    obtain ⟨-, hi⟩ := mem_range'_1.mp hi
    have := hnone i (by omega)
    rw [h.entries] at this
    unfold Apart
    omega
  have hset := (h.ready o ho).2.modified
  have hclear := h.cleared o ho
  rw [accModified, hkeep] at hclear
  rw [accModified, hclear] at hset
  cases hset

/-- With as many entries as records, an entry's mark lies in its own record, and every other
entry's mark off it. -/
theorem Sanitized.marks_apart (h : Sanitized keccak256 s m b₁ b)
    (hmem : ∀ i < s.stateMeta.nAccounts,
      (addrHashEntry b s.stateMeta i).entryOffset ∈ m.forEachOffset s.bytes)
    {o : ℕ} (ho : o ∈ m.forEachOffset s.bytes) {r : ℕ × ℕ}
    (hr : r ∈ clearedMarks b₁ s.stateMeta m.data s.stateMeta.nAccounts 0) :
    Apart (m.data + o + 8) (recordSize b₁ (m.data + o + 8)) r.1 r.2 ∨ r = (m.data + o + 8 + 23, 1) := by
  obtain ⟨i, hi, rfl⟩ := mem_map.mp hr
  obtain ⟨-, hi⟩ := mem_range'_1.mp hi
  have hmem := hmem i (by omega)
  rw [h.entries] at hmem
  by_cases heq : (addrHashEntry b₁ s.stateMeta i).entryOffset = o
  · exact .inr (by rw [heq])
  · left
    have hap := apart_of_pairwise h.apart ho hmem (Ne.symm heq)
    have h1 := (h.ready _ ho).1
    have h2 := (h.ready _ hmem).1
    simp only [recordSize, accountSize] at h1 h2 ⊢
    unfold Apart at hap ⊢
    omega

/-- With as many entries as records, the record an entry names is ready and has its address. -/
theorem Sanitized.named (h : Sanitized keccak256 s m b₁ b)
    (hmem : ∀ i < s.stateMeta.nAccounts,
      (addrHashEntry b s.stateMeta i).entryOffset ∈ m.forEachOffset s.bytes)
    {i : ℕ} (hi : i < s.stateMeta.nAccounts) :
    accAddr b (m.data + (addrHashEntry b s.stateMeta i).entryOffset + 8) =
      (addrHashEntry b s.stateMeta i).addr ∧
    (keccak256 (addrHashEntry b s.stateMeta i).addr).val = (addrHashEntry b s.stateMeta i).addrHash ∧
    RecordReady s.codeStoreMap s.bytes b
      (m.data + (addrHashEntry b s.stateMeta i).entryOffset + 8) false := by
  have ho := hmem i hi
  obtain ⟨c, hc, hacc⟩ := h.accepted i hi
  rw [← h.entries] at hacc
  set o := (addrHashEntry b s.stateMeta i).entryOffset with hodef
  have haddr : ∀ r ∈ clearedMarks b₁ s.stateMeta m.data s.stateMeta.nAccounts 0,
      Apart (m.data + o + 8) 20 r.1 r.2 := by
    intro r hr
    rcases h.marks_apart hmem ho hr with ha | rfl
    · simp only [recordSize, accountSize] at ha
      unfold Apart at ha ⊢
      omega
    · left; simp only; omega
  refine ⟨?_, hacc.hash, (h.ready o ho).2.frame h.marks (fun r hr => h.marks_apart hmem ho hr)
    (h.cleared o ho)⟩
  calc accAddr b (m.data + o + 8)
      = accAddr b₁ (m.data + o + 8) := h.marks.slice_eq haddr
    _ = accAddr c (m.data + o + 8) := (hc.slice_eq haddr).symm
    _ = (addrHashEntry b s.stateMeta i).addr := hacc.addr

/-- With as many entries as records, the entries name the records, each its own, and every record is
ready. -/
theorem Sanitized.of_count (h : Sanitized keccak256 s m b₁ b)
    (hn : s.stateMeta.nAccounts = (m.forEachOffset s.bytes).length) :
    (∀ i < s.stateMeta.nAccounts,
      (addrHashEntry b s.stateMeta i).entryOffset ∈ m.forEachOffset s.bytes) ∧
      (∀ i < s.stateMeta.nAccounts, ∀ j < s.stateMeta.nAccounts,
        (addrHashEntry b s.stateMeta i).entryOffset = (addrHashEntry b s.stateMeta j).entryOffset →
          i = j) ∧
      ∀ o ∈ m.forEachOffset s.bytes, RecordReady s.codeStoreMap s.bytes b (m.data + o + 8) false := by
  obtain ⟨hmem, hinj⟩ := covering_injective
    (f := fun i => (addrHashEntry b s.stateMeta i).entryOffset) h.nodup
    (fun o ho => h.covered ho) hn.symm
  refine ⟨hmem, hinj, fun o ho => ?_⟩
  obtain ⟨i, hi, rfl⟩ := h.covered ho
  exact (h.named hmem hi).2.2

end Counting

/-- **What `sanitize` binds.**  On a blob it accepts, the commit view is bound to the read view
exactly when the address-hash table has as many entries as the account map has records. -/
theorem sanitize_commitViewBound_iff {keccak256 : Bytes → Bytes32} {verified : ℕ → Bool}
    {s : PreState} {b : Bytes} (h : sanitize keccak256 verified s = .ok b) :
    CommitViewBound keccak256 s b ↔ s.stateMeta.nAccounts = s.recordCount := by
  cases hm : s.preStateMap with
  | none =>
    have hn : s.stateMeta.nAccounts = 0 := by
      by_contra hn
      simp [PreState.preStateMap, Nat.pos_of_ne_zero hn] at hm
    have hcount : s.recordCount = 0 := by simp [PreState.recordCount, hm]
    rw [hn, hcount]
    exact ⟨fun _ => rfl, fun _ => ⟨by simp [hn], by simp [hn], by simp [hm]⟩⟩
  | some m =>
    have hcount : s.recordCount = (m.forEachOffset s.bytes).length := by
      simp [PreState.recordCount, hm]
    obtain ⟨b₁, hs⟩ := sanitize_accounts h hm
    rw [hcount]
    constructor
    · -- a bijection between the entries and the records
      intro hb
      have himage : (Finset.range s.stateMeta.nAccounts).image
          (fun i => (addrHashEntry b s.stateMeta i).entryOffset) =
          (m.forEachOffset s.bytes).toFinset := by
        ext o
        simp only [Finset.mem_image, Finset.mem_range, mem_toFinset]
        constructor
        · rintro ⟨i, hi, rfl⟩
          obtain ⟨m', hm', hmem, -⟩ := hb.named i hi
          obtain rfl : m = m' := by simpa [hm] using hm'
          rwa [hs.offsets] at hmem
        · exact hs.covered
      rw [← toFinset_card_of_nodup hs.nodup, ← himage, Finset.card_image_of_injOn,
        Finset.card_range]
      intro i hi j hj heq
      exact hb.distinct i (by simpa using hi) j (by simpa using hj) heq
    · intro hn
      obtain ⟨hmem, hinj, -⟩ := hs.of_count hn
      refine ⟨fun i hi => ⟨m, hm, by rw [hs.offsets]; exact hmem i hi, hs.named hmem hi⟩, hinj, ?_⟩
      intro m' hm' o ho
      obtain rfl : m = m' := by simpa [hm] using hm'
      rw [hs.offsets] at ho
      obtain ⟨i, hi, rfl⟩ := hs.covered ho
      exact ⟨i, ⟨hi, rfl⟩, fun j hj => hinj j hj.1 i hi hj.2⟩

/-! ## A surplus entry

One record, that of `0x11…`, whose body has 264 slack bytes: a length word and the image of a
second record, that of `0x22…`.  The account map visits the first only. -/

namespace Surplus

/-- `keccak256` on the two addresses. -/
def keccak256 (a : Bytes) : Bytes32 :=
  if a = replicate 20 0x11 then
    Bytes32.ofNat 0xe2c07404b8c1df4c46226425cac68c28d27a766bbddce62309f36724839b22c0
  else if a = replicate 20 0x22 then
    Bytes32.ofNat 0x2ab0a4443bbea3fbe4d0e1503d11ff1367842fb0c8b28a5c8550f27599a40751
  else zeroBytes32

/-- An account record without code or storage. -/
def record (addr : UInt8) (nonce : ℕ) : Bytes :=
  replicate 20 addr ++ replicate 4 0 ++ toLe 8 nonce ++ replicate 32 0 ++
    (Bytes32.ofNat 0xc5d2460186f7233c927e7db2dcc703c0e500b653ca82273b7bfad8045d85a470).val ++
    (Bytes32.ofNat 0x56e81f171bcc55a6ff8345e692c0f86e5b48e01b996cadc001622fb5e363b421).val ++
    replicate 128 0

/-- An entry of the address-hash table. -/
def entry (addr : UInt8) (off : ℕ) : Bytes :=
  (keccak256 (replicate 20 addr)).val ++ replicate 20 addr ++ toLe 4 off

/-- The account map: one key, and the data section with the record and its slack. -/
def region : Bytes :=
  [kMphfAddrMapMagic, kMphfMapVersion, 1, 1, 0, 0, 0, 0, 0, 0, 56, 64, 72, 536].flatMap (toLe 4) ++
    replicate 8 0 ++ toLe 4 8 ++ replicate 4 0 ++
    replicate 8 0 ++ toLe 8 520 ++ record 0x11 1 ++ replicate 8 0 ++ record 0x22 7

/-- The blob with `n` entries in its address-hash table. -/
def blob (n : ℕ) (entries : Bytes) : Bytes :=
  [kMagic, kVersion, n, 0, 72, 680, 680 + 56 * n, 680 + 56 * n, 0].flatMap (toLe 4) ++
    replicate 36 0 ++ region ++ entries

/-- The blob whose table names the record and the bytes in its slack. -/
def surplus : PreState where
  addr := 0
  bytes := blob 2 (entry 0x22 272 ++ entry 0x11 8)
  valid := by decide +kernel

/-- The blob whose table names the record. -/
def single : PreState where
  addr := 0
  bytes := blob 1 (entry 0x11 8)
  valid := by decide +kernel

/-- The blob `sanitize` leaves, empty on a rejection. -/
def sanitized (s : PreState) : Bytes := (sanitize keccak256 (fun _ => false) s).toOption.getD []

end Surplus

/-- **A table with a surplus entry is accepted, and its views are not one**: entry 0 names offset
272, where the account map has no record. -/
theorem sanitize_surplus_not_commitViewBound :
    sanitize Surplus.keccak256 (fun _ => false) Surplus.surplus =
      .ok (Surplus.sanitized Surplus.surplus) ∧
      ¬ CommitViewBound Surplus.keccak256 Surplus.surplus (Surplus.sanitized Surplus.surplus) := by
  refine ⟨by decide +kernel, fun h => ?_⟩
  obtain ⟨m, hm, hmem, -⟩ := h.named 0 (by decide +kernel)
  have hnot : ∀ m ∈ Surplus.surplus.preStateMap,
      (addrHashEntry (Surplus.sanitized Surplus.surplus) Surplus.surplus.stateMeta 0).entryOffset ∉
        m.forEachOffset (Surplus.sanitized Surplus.surplus) := by decide +kernel
  exact hnot m hm hmem

theorem sanitize_single_commitViewBound :
    sanitize Surplus.keccak256 (fun _ => false) Surplus.single = .ok (Surplus.sanitized Surplus.single) ∧
      CommitViewBound Surplus.keccak256 Surplus.single (Surplus.sanitized Surplus.single) := by
  have h : sanitize Surplus.keccak256 (fun _ => false) Surplus.single =
      .ok (Surplus.sanitized Surplus.single) := by decide +kernel
  exact ⟨h, (sanitize_commitViewBound_iff h).mpr (by decide +kernel)⟩

end Zilkworm.Witness
