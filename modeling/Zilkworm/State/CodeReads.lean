/-
# Code reads are bound to code hashes

A record's code is reached by an offset `sanitize` wrote, by the witness's own lookup, or
by the two tables of code created in the block.  `CodesBound` says of each of the three
that what it yields hashes to the hash it is asked for.  What an operation can do to a
record (`State/Evolution`) keeps it, and under it `read_code` returns the code of the
record's hash, or nothing and says so.
-/
import Zilkworm.State.Evolution

namespace Zilkworm.State

open List Lib Rlp Zilkworm.Types Witness

/-! ## Created code -/

/-- Every created code is kept under its own hash. -/
structure CreatedCode.Bound (keccak256 : Bytes → Bytes32) (c : CreatedCode) : Prop where
  byKey8 : ∀ k fullHash code, c.byKey8.lookup k = some (fullHash, code) → keccak256 code = fullHash
  collisions : ∀ h code, c.collisions.lookup h = some code → keccak256 code = h

theorem CreatedCode.Bound.find {keccak256 : Bytes → Bytes32} {c : CreatedCode} (hc : c.Bound keccak256)
    {h : Bytes32} {code : Bytes} (hf : c.find h = some code) : keccak256 code = h := by
  unfold CreatedCode.find at hf
  split at hf
  · rename_i fullHash code' hk
    split_ifs at hf with heq
    · cases hf
      exact (hc.byKey8 _ _ _ hk).trans heq
    · exact hc.collisions _ _ hf
  · exact hc.collisions _ _ hf

theorem CreatedCode.Bound.add {keccak256 : Bytes → Bytes32} {c : CreatedCode} (hc : c.Bound keccak256)
    (code : Bytes) : (c.add (keccak256 code) code).Bound keccak256 := by
  unfold CreatedCode.add
  split
  · refine ⟨fun k fullHash code' hk => ?_, hc.collisions⟩
    by_cases heq : k = hashKey8 (keccak256 code).val
    · subst heq
      rw [AList.lookup_insert] at hk
      cases hk
      rfl
    · rw [AList.lookup_insert_ne heq] at hk
      exact hc.byKey8 _ _ _ hk
  · split_ifs
    · exact hc
    · refine ⟨hc.byKey8, fun h code' hk => ?_⟩
      by_cases heq : h = keccak256 code
      · subst heq
        rw [AList.lookup_insert] at hk
        cases hk
        rfl
      · rw [AList.lookup_insert_ne heq] at hk
        exact hc.collisions _ _ hk

/-! ## The invariant -/

/-- The code a record names by its place hashes to the record's code hash. -/
def RecordBound (keccak256 : Bytes → Bytes32) (w : WitnessView) (pa : Account) : Prop :=
  pa.codeStoreLen ≠ 0 → pa.codeStoreOffset ≠ kCreatedCodeOffset →
    keccak256 (w.codeAt pa.codeStoreOffset pa.codeStoreLen) = pa.codeHash

/-- The witness's codes, which are among `codes`: each has the hash it is found under, and lies, in
a store that is not sealed, at the place it is found at. -/
structure WitnessBound (keccak256 : Bytes → Bytes32) (codes : Set Bytes) (w : WitnessView) : Prop where
  hash : ∀ h off code, w.findCode h = some (off, code) → keccak256 code = h
  mem : ∀ h off code, w.findCode h = some (off, code) → code ∈ codes
  place : ∀ h off code, w.findCode h = some (off, code) → w.codeStoreSealed = false →
    w.codeAt off code.length = code ∧ code.length < 2 ^ 32

/-- **Every way to a code leads to the code of the hash.** -/
structure CodesBound (keccak256 : Bytes → Bytes32) (codes : Set Bytes) (s : DirectState) : Prop where
  witness : WitnessBound keccak256 codes s.witness
  created : s.createdCode.Bound keccak256
  records : ∀ a pa, s.lookupAccount a = some pa → RecordBound keccak256 s.witness pa

/-- What `read_code` answers for the record `pa`: the code of its hash, or nothing, with the witness
marked incomplete; nothing and no mark only for a deleted record or the empty code's hash. -/
structure CodeAnswer (keccak256 : Bytes → Bytes32) (pa : Account) (code : Bytes) (incomplete : Bool) :
    Prop where
  bound : pa.deleted = false → keccak256 code = pa.codeHash ∨ code = [] ∧ incomplete = true
  deleted : pa.deleted = true → code = []
  empty : code = [] → incomplete = true ∨ pa.codeHash = kEmptyHash ∨ pa.deleted = true

namespace DirectState

variable {keccak256 : Bytes → Bytes32} {codes : Set Bytes} {pa : Account} {s : DirectState}

/-- **`read_code` of a bound record.** -/
theorem readCodeOf_answer (hempty : keccak256 [] = kEmptyHash) (h : CodesBound keccak256 codes s)
    (hpa : RecordBound keccak256 s.witness pa) :
    CodeAnswer keccak256 pa (s.readCodeOf pa).1 (s.readCodeOf pa).2.witnessIncomplete := by
  unfold readCodeOf
  split_ifs with hdel hplace hcode
  · exact ⟨fun hlive => (Bool.false_ne_true (hlive.symm.trans hdel)).elim, fun _ => rfl,
      fun _ => .inr (.inr hdel)⟩
  · have hhash := hpa hplace.1 hplace.2
    refine ⟨fun _ => .inl hhash, fun hd => absurd hd hdel, fun hnil => .inr (.inl ?_)⟩
    rw [← hhash, ← hempty]
    exact congrArg keccak256 hnil
  · exact ⟨fun _ => .inl (hempty.trans hcode.symm), fun _ => rfl, fun _ => .inr (.inl hcode)⟩
  · split
    · rename_i code hfound
      have hhash : keccak256 code = pa.codeHash := by
        cases hw : s.witness.findCode pa.codeHash with
        | some r =>
          obtain rfl : r.2 = code := by simpa [hw] using hfound
          exact h.witness.hash _ _ _ hw
        | none => exact h.created.find (by simpa [hw] using hfound)
      refine ⟨fun _ => .inl hhash, fun hd => absurd hd hdel, fun hnil => .inr (.inl ?_)⟩
      rw [← hhash, ← hempty]
      exact congrArg keccak256 hnil
    · exact ⟨fun _ => .inr ⟨rfl, rfl⟩, fun _ => rfl, fun _ => .inl rfl⟩

end DirectState

/-! ## Every operation keeps it -/

section Kept

open DirectState

variable {keccak256 : Bytes → Bytes32} {codes : Set Bytes} {pa : Account} {s : DirectState}

/-- The codes of a run under their own hashes. -/
def ownDiffs (keccak256 : Bytes → Bytes32) (codes : Set Bytes) : Set (Bytes32 × Bytes) :=
  {c | c.2 ∈ codes ∧ c.1 = keccak256 c.2}

/-- **A change leaves a record bound**: a code the witness carries is the diff's own, since no two
of `codes` have one hash. -/
theorem RecordBound.change {w : WitnessView} {pa' : Account} (hw : WitnessBound keccak256 codes w)
    (hinj : Set.InjOn keccak256 codes) (h : RecordBound keccak256 w pa)
    (hch : Account.Change w (ownDiffs keccak256 codes) pa pa') : RecordBound keccak256 w pa' := by
  cases hch with
  | revive => exact fun hlen => absurd rfl hlen
  | setCode hplace =>
    cases hplace with
    | empty => exact fun hlen => absurd rfl hlen
    | created => exact fun _ hoff => absurd rfl hoff
    | @stored c hc offset code hs hf =>
      intro _ _
      have hsame : code = c.2 := hinj (hw.mem _ _ _ hf) hc.1 ((hw.hash _ _ _ hf).trans hc.2)
      obtain ⟨hat, hlt⟩ := hw.place _ _ _ hf hs
      rw [hsame] at hat hlt
      dsimp only
      rw [Nat.mod_eq_of_lt hlt, hat, hc.2]
  | noteRead | clearReads | destruct | setFields | markModified | setSlot | wipeStorage | recache =>
    exact h

/-- **Every way to a code stays bound** as a state evolves. -/
theorem CodesBound.evolves {t : DirectState} (h : CodesBound keccak256 codes s)
    (hinj : Set.InjOn keccak256 codes)
    (hev : Evolves (ownDiffs keccak256 codes) s t) : CodesBound keccak256 codes t := by
  refine ⟨hev.witness ▸ h.witness, ?_, fun a pa hpa => ?_⟩
  · have hcode := hev.code
    generalize t.createdCode = c at hcode ⊢
    induction hcode with
    | refl => exact h.created
    | tail _ hstep ih =>
      obtain ⟨c, hc, rfl⟩ := hstep
      rw [hc.2]
      exact ih.add c.2
  · have hkeeps := hev.keeps (R := RecordBound keccak256 s.witness)
      (fun _ _ hpa hch => hpa.change h.witness hinj hch) fun _ hlen => absurd rfl hlen
    have hlook := h.records a
    unfold lookupAccount at hpa hlook
    rw [hev.witness] at hpa ⊢
    cases hfind : s.witness.find a with
    | some off =>
      rw [hfind] at hpa hlook
      cases hpa
      exact hkeeps.1 off (hlook _ rfl)
    | none =>
      rw [hfind] at hpa hlook
      exact hkeeps.2 a hlook pa hpa

/-- **One step keeps every way to a code.** -/
theorem CodesBound.step (h : CodesBound keccak256 codes s) (hinj : Set.InjOn keccak256 codes) {op : Op}
    (hcodes : ∀ code ∈ op.codes, code ∈ codes) (hown : op.HashesOwn keccak256) :
    CodesBound keccak256 codes (s.step keccak256 op) := by
  refine h.evolves hinj (evolves_step s ?_)
  rintro diff rfl m hm code hcode
  refine ⟨hcodes code (mem_filterMap.mpr ⟨m, hm, hcode⟩), ?_⟩
  cases hh : m.codeHash with
  | none => rfl
  | some hash => exact hown m hm code hcode hash hh

/-- **After any run, `read_code` answers with the code of the record's hash.** -/
theorem CodesBound.readCode_run (h : CodesBound keccak256 codes s) (hempty : keccak256 [] = kEmptyHash)
    (hinj : Set.InjOn keccak256 codes) {ops : List Op}
    (hcodes : ∀ op ∈ ops, ∀ code ∈ op.codes, code ∈ codes)
    (hown : ∀ op ∈ ops, op.HashesOwn keccak256) (addr : Address) :
    CodeAnswer keccak256 ((s.run keccak256 ops).observeAccount addr).1
      ((s.run keccak256 ops).readCode addr).1
        ((s.run keccak256 ops).readCode addr).2.witnessIncomplete := by
  have hrun := run_induction (P := CodesBound keccak256 codes)
    (fun op hop s hs => hs.step hinj (hcodes op hop) (hown op hop)) h
  obtain ⟨hev, -⟩ := @evolves_observeAccount (ownDiffs keccak256 codes) (s.run keccak256 ops) addr
  have hbound := hrun.evolves hinj hev
  have hlook := lookupAccount_observeAccount (s.run keccak256 ops) addr addr
  rw [if_pos rfl] at hlook
  exact readCodeOf_answer hempty hbound (hbound.records addr _ hlook)

end Kept

end Zilkworm.State
