/-
# The spans of an envelope

`run_mfbd` hands the loader the span from its cursor to the envelope's end, and moves the
cursor behind the bundle, rounded up to eight.  The loader keeps each bundle inside its span,
so the cursor leaves the envelope in one way only: the envelope's size is no multiple of
eight, a bundle ends in the last bytes of it, and another bundle is announced.
-/
import Zilkworm.Run.StateTransition

namespace Zilkworm.Run

open List Lib Rlp Zilkworm.Types Witness State Chain Protocol Execution

/-- The span from a cursor reaches to the end exactly if the cursor is not past it. -/
theorem Span.tail_toEnd_iff (cursor n : ℕ) : (Span.tail cursor n).ToEnd n ↔ cursor ≤ n := by
  unfold Span.ToEnd Span.tail
  dsimp only
  constructor
  · rintro ⟨h, -⟩
    exact h
  · intro h
    rw [if_pos h]
    omega

/-- Rounding up to eight stays below a bound exactly up to the bound's last multiple of eight. -/
theorem align8_le_iff {v n : ℕ} : align8 v ≤ n ↔ v ≤ n - n % 8 := by
  unfold align8
  omega

/-- The run that a loop of bundles leaves, whether it went through or not. -/
def finalRun : Except (Outcome × MfbdRun) MfbdRun → MfbdRun
  | .error e => e.2
  | .ok run => run

/-- Where bundle `k` starts, by the headers of the bundles before it. -/
def bundleStart (envelope : Bytes) : (k : ℕ) → ℕ
  | 0 => kInputHeaderSizeMFBD
  | k + 1 => align8 (bundleStart envelope k +
      (FlatBundleHeader.read (envelope.drop (bundleStart envelope k))).bundleSize)

/-- Where bundle `k` ends, by its header. -/
def bundleEnd (envelope : Bytes) (k : ℕ) : ℕ :=
  bundleStart envelope k + (FlatBundleHeader.read (envelope.drop (bundleStart envelope k))).bundleSize

/-- What one round does to the spans and the bundles. -/
theorem runBundle_cases (host : Host) (m : Machine) (envelope : Bytes) (run : MfbdRun) :
    (∃ e, runBundle host m envelope run = .error e ∧ (∀ gas, e.1 ≠ .finished gas) ∧
      e.2.spans = run.spans ++ [Span.tail run.cursor envelope.length] ∧ e.2.bundles = run.bundles) ∨
    (∃ fb config r, runBundle host m envelope run = .ok
        { cursor := align8 (run.cursor + fb.blobSize)
          cumulativeGas := run.cumulativeGas + r.cumulativeGas
          transition := r.transition
          spans := run.spans ++ [Span.tail run.cursor envelope.length]
          bundles := run.bundles ++ [⟨run.cursor, fb, config, r.accepted⟩] } ∧
      runOneBundle host m fb run.transition = .ok (config, r) ∧
      fb.blobSize = (FlatBundleHeader.read (envelope.drop run.cursor)).bundleSize ∧
      run.cursor + fb.blobSize ≤ envelope.length) := by
  unfold runBundle
  dsimp only
  by_cases hcur : envelope.length < run.cursor
  · rw [if_pos hcur]
    exact .inl ⟨_, rfl, by simp, rfl, rfl⟩
  rw [if_neg hcur]
  rcases hl : loadFlatBundle (m.envelopeAddr + run.cursor) (envelope.drop run.cursor) with e | fb
  · cases e with
    | rejected text => exact .inl ⟨_, rfl, by simp, rfl, rfl⟩
    | aborted text => exact .inl ⟨_, rfl, by simp, rfl, rfl⟩
  dsimp only
  rcases hr : runOneBundle host m fb run.transition with f | ⟨config, r⟩
  · exact .inl ⟨_, rfl, by simp, rfl, rfl⟩
  · obtain ⟨hsize, hle⟩ := loadFlatBundle_blobSize hl
    refine .inr ⟨fb, config, r, rfl, hr, hsize, ?_⟩
    rw [length_drop] at hle
    omega

/-- The loop over `n` bundles from bundle `j` on: its bundles lie in the envelope, and its spans
reach to the end exactly if its first one does and no bundle that another follows ends in the
last bytes. -/
theorem runBundles_spans (host : Host) (m : Machine) (envelope : Bytes) (n j : ℕ) (run : MfbdRun)
    (hj : run.cursor = bundleStart envelope j) :
    ∃ spans bundles,
      (finalRun (runBundles host m envelope n run)).spans = run.spans ++ spans ∧
      (finalRun (runBundles host m envelope n run)).bundles = run.bundles ++ bundles ∧
      (∀ k b, bundles[k]? = some b → b.cursor = bundleStart envelope (j + k) ∧
        bundleEnd envelope (j + k) ≤ envelope.length) ∧
      ((∀ span ∈ spans, span.ToEnd envelope.length) ↔
        (n ≠ 0 → run.cursor ≤ envelope.length) ∧
        ∀ k, k < bundles.length → k + 1 < n →
          bundleEnd envelope (j + k) ≤ envelope.length - envelope.length % 8) := by
  induction n generalizing run j with
  | zero =>
    refine ⟨[], [], ?_, ?_, by simp, by simp⟩ <;> rw [append_nil] <;> rfl
  | succ n ih =>
    rcases runBundle_cases host m envelope run with
      ⟨e, he, -, hs, hb⟩ | ⟨fb, config, r, hok, -, hsize, hend⟩
    · -- the round ends the run: its span is the last one
      have hrun : runBundles host m envelope (n + 1) run = .error e := by
        rw [runBundles, he]
        rfl
      refine ⟨[Span.tail run.cursor envelope.length], [], ?_, ?_, by simp, ?_⟩
      · rw [hrun]
        exact hs
      · rw [hrun, append_nil]
        exact hb
      · simp [Span.tail_toEnd_iff]
    · set run' : MfbdRun :=
        { cursor := align8 (run.cursor + fb.blobSize)
          cumulativeGas := run.cumulativeGas + r.cumulativeGas
          transition := r.transition
          spans := run.spans ++ [Span.tail run.cursor envelope.length]
          bundles := run.bundles ++ [⟨run.cursor, fb, config, r.accepted⟩] } with hrun'
      have hrun : runBundles host m envelope (n + 1) run = runBundles host m envelope n run' := by
        rw [runBundles, hok]
        rfl
      have hbend : run.cursor + fb.blobSize = bundleEnd envelope j := by
        rw [hsize, hj]
        rfl
      have hj' : run'.cursor = bundleStart envelope (j + 1) := by
        show align8 (run.cursor + fb.blobSize) = align8 (bundleEnd envelope j)
        rw [hbend]
      obtain ⟨spans, bundles, hs, hb, hin, hiff⟩ := ih (j + 1) run' hj'
      refine ⟨Span.tail run.cursor envelope.length :: spans,
        ⟨run.cursor, fb, config, r.accepted⟩ :: bundles, ?_, ?_, ?_, ?_⟩
      · rw [hrun, hs, hrun', append_assoc, singleton_append]
      · rw [hrun, hb, hrun', append_assoc, singleton_append]
      · intro k b hk
        rcases k with _ | k
        · obtain rfl := Option.some.inj hk
          exact ⟨hj, hbend ▸ hend⟩
        · rw [show j + (k + 1) = j + 1 + k by omega]
          exact hin k b hk
      · rw [forall_mem_cons, Span.tail_toEnd_iff, hiff]
        -- the next cursor is inside exactly if this bundle ends before the last bytes
        have hnext : run'.cursor ≤ envelope.length ↔
            bundleEnd envelope j ≤ envelope.length - envelope.length % 8 := by
          rw [← hbend]
          exact align8_le_iff
        rw [hnext]
        constructor
        · rintro ⟨hcur, hfit, hrest⟩
          refine ⟨fun _ => hcur, fun k hk hlt => ?_⟩
          rcases k with _ | k
          · exact hfit (by omega)
          · rw [show j + (k + 1) = j + 1 + k by omega]
            exact hrest k (by simpa using hk) (by omega)
        · rintro ⟨hcur, hall⟩
          refine ⟨hcur (by omega), fun hn => hall 0 (by simp) (by omega), fun k hk hlt => ?_⟩
          have := hall (k + 1) (by simpa using hk) (by omega)
          rwa [show j + (k + 1) = j + 1 + k by omega] at this

/-- What `run_mfbd` leaves is what its loop leaves, or nothing if the header is rejected. -/
theorem runMfbd_run (host : Host) (m : Machine) (envelope : Bytes) :
    (runMfbd host m envelope).2 = {} ∨
    kInputHeaderSizeMFBD ≤ envelope.length ∧
      (runMfbd host m envelope).2 = finalRun (runBundles host m envelope (u64At envelope 8) {}) := by
  unfold runMfbd
  split_ifs with hsize
  · exact .inl rfl
  · exact .inl rfl
  · refine .inr ⟨by omega, ?_⟩
    dsimp only
    cases runBundles host m envelope (u64At envelope 8) {} <;> rfl

/-- **When `run_mfbd` stays inside its envelope.**  Every span it hands to the loader reaches from
inside the envelope to its end if and only if no bundle that goes through and that another
announced bundle follows ends, by its header, in the last `size % 8` bytes of the envelope. -/
theorem runMfbd_spans_toEnd_iff (host : Host) (m : Machine) (envelope : Bytes) :
    (∀ span ∈ (runMfbd host m envelope).2.spans, span.ToEnd envelope.length) ↔
      ∀ k, k < (runMfbd host m envelope).2.bundles.length → k + 1 < u64At envelope 8 →
        bundleEnd envelope k ≤ envelope.length - envelope.length % 8 := by
  rcases runMfbd_run host m envelope with hrun | ⟨hsize, hrun⟩
  · simp [hrun]
  obtain ⟨spans, bundles, hs, hb, -, hiff⟩ :=
    runBundles_spans host m envelope (u64At envelope 8) 0 {} rfl
  simp only [Nat.zero_add] at hiff
  rw [hrun, hs, hb]
  constructor
  · intro h
    exact (hiff.mp h).2
  · intro h
    exact hiff.mpr ⟨fun _ => hsize, h⟩

/-! ## An envelope that is left -/

namespace Sample

/-- A header of the Merge, at height zero over the empty state. -/
def parent : BlockHeader where
  ommersHash := kEmptyListHash
  stateRoot := kEmptyRoot
  transactionsRoot := kEmptyRoot
  receiptsRoot := kEmptyRoot
  gasLimit := 30000000
  baseFeePerGas := some 1000000000

/-- The keccak of the parent header. -/
def parentHash : Bytes32 :=
  Bytes32.ofNat 0x1a33392c3b77b01d6046d9bcb42638cf69cced478254e6b80107860b6f8fe1d9

/-- A header on top of the parent, with a number of its own. -/
def child (number : U64) : BlockHeader :=
  { parent with
    parentHash := parentHash
    number := number
    timestamp := 12
    baseFeePerGas := some 875000000 }

/-- The keccak of the child at height one. -/
def childHash : Bytes32 :=
  Bytes32.ofNat 0x126711a343cfbaaea9fcc3e13c2b524ae877bd66c7eae108833d9a3e26855b50

/-- A header on top of that child. -/
def grandchild : BlockHeader :=
  { child 2 with
    parentHash := childHash
    timestamp := 24
    baseFeePerGas := some 765625000 }

/-- Keccak-256 on the headers hashed here. -/
def keccak256 (b : Bytes) : Bytes32 :=
  if b = parent.encode then parentHash
  else if b = (child 1).encode then childHash
  else if b = grandchild.encode then
    Bytes32.ofNat 0xb89a55494acc80b0c1d4049bd028f55d18a268a768eea226011e0094aa131deb
  else if b = (child 7).encode then
    Bytes32.ofNat 0xf7ec2c62e24b49d91f03f09493982bab878509fcc407a89d9a33191822779b6e
  else zeroBytes32

/-- The EVM has nothing to run. -/
def host : Host := .idle keccak256

/-- The RLP of a block with no transactions and no ommers. -/
def blockRlp (header : BlockHeader) : Bytes :=
  encodeList (header.encode ++ [kEmptyListCode, kEmptyListCode])

/-- A pre-state blob without accounts: its meta header, and every section empty behind it. -/
def emptyPreState : Bytes :=
  toLe 4 kMagic ++ toLe 4 kVersion ++ toLe 4 0 ++ toLe 4 0 ++
    (replicate 4 (toLe 4 72)).flatten ++ toLe 4 0 ++ replicate 36 0

/-- A bundle over the empty state, of the given blocks. -/
def bundle (blocks : List BlockHeader) : Bytes :=
  buildFlatBundle (blockRlp parent) (blocks.map blockRlp) [] emptyPreState [] (asciiBytes "Paris")

/-- An envelope that announces `n` bundles. -/
def envelope (n : ℕ) (bundles : Bytes) : Bytes :=
  toLe 4 0x4442464D ++ toLe 4 kInputVersionMFBD ++ toLe 8 n ++ bundles

/-- Two bundles announced, and one without blocks there: the envelope ends where it ends, at the
name of its network. -/
def cutEnvelope : Bytes := envelope 2 ((bundle []).take 653)

end Sample

/-- **The envelope can be left**: behind a bundle that ends at byte 669 of 669 the second span
starts at byte 672 and wraps. -/
theorem runMfbd_span_past_end :
    Sample.cutEnvelope.length = 669 ∧
    (runMfbd Sample.host {} Sample.cutEnvelope).2.spans = [⟨16, 653⟩, ⟨672, 2 ^ 64 - 3⟩] ∧
    ¬ ∀ span ∈ (runMfbd Sample.host {} Sample.cutEnvelope).2.spans,
      span.ToEnd Sample.cutEnvelope.length := by
  have hlen : Sample.cutEnvelope.length = 669 := by decide +kernel
  have hspans : (runMfbd Sample.host {} Sample.cutEnvelope).2.spans =
      [⟨16, 653⟩, ⟨672, 2 ^ 64 - 3⟩] := by decide +kernel
  refine ⟨hlen, hspans, ?_⟩
  rw [hlen, hspans]
  decide

end Zilkworm.Run
