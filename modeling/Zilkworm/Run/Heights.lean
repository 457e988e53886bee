/-
# Block heights

Both backends find a header by its hash alone, and neither the rule sets nor the runs compare a
block's number with its parent's.  So a block may claim any height above a parent that is there:
the fork rules and the distances of `BLOCKHASH` are then those of the claimed height.  What a run
accepts is numbered right exactly when its input is.
-/
import Zilkworm.Run.PublicValues
import Zilkworm.Run.PayloadCommitment

namespace Zilkworm.Run

open List Lib Rlp Zilkworm.Types State Chain Protocol Execution Slib

/-- The first of some blocks is numbered one past one of the headers, whose hash it names as its
parent's. -/
def FirstFollows (keccak256 : Bytes → Bytes32) (headers : List BlockHeader) (blocks : List Block) :
    Prop :=
  ∀ first ∈ blocks.head?, ∃ p ∈ headers,
    p.hash keccak256 = first.header.parentHash ∧ first.header.number.toNat = p.number.toNat + 1

instance (keccak256 : Bytes → Bytes32) (headers : List BlockHeader) (blocks : List Block) :
    Decidable (FirstFollows keccak256 headers blocks) :=
  inferInstanceAs (Decidable (∀ first ∈ blocks.head?, _))

/-- The second block is numbered one past the first. -/
def NextHeight (a b : Block) : Prop := b.header.number.toNat = a.header.number.toNat + 1

instance (a b : Block) : Decidable (NextHeight a b) := inferInstanceAs (Decidable (_ = _))

/-- **The blocks of a bundle are numbered as a chain is**: each is one past the header its parent
hash names, which is a header of the bundle for the first and the block before for the others. -/
def BundleTrace.NumbersFollow (keccak256 : Bytes → Bytes32) (t : BundleTrace) : Prop :=
  FirstFollows keccak256 t.bundle.headers t.accepted ∧
  t.accepted.IsChain fun a b => Extends keccak256 a b ∧ NextHeight a b

/-- **A bundle of true heights**: the blocks it carries without the flag for invalid ones have
consecutive numbers, from one past a header that the first of them stands on.  Whether the others
stand on the block before them is not asked. -/
def FlatBundle.TrueHeights (keccak256 : Bytes → Bytes32) (bundle : FlatBundle) : Prop :=
  FirstFollows keccak256 bundle.headers bundle.expectedBlocks ∧ bundle.expectedBlocks.IsChain NextHeight

instance (keccak256 : Bytes → Bytes32) (bundle : FlatBundle) :
    Decidable (bundle.TrueHeights keccak256) :=
  inferInstanceAs (Decidable (_ ∧ _))

/-- The height of the payload of a stateless input and that of its last witness header. -/
def sibHeights (blob : Bytes) : Option (ℕ × ℕ) := do
  let dec ← decodeStatelessInput blob
  let payload ← decodeSlibPayload dec.newPayloadRequest
  let last ← dec.headers.getLast?
  let parent ← (decodeBlockHeader .prohibit last).toOption
  pure (payload.blockNumber.toNat, parent.1.number.toNat)

/-- **A stateless input of true height**: its payload is numbered one past the last witness header.
-/
def SibTrueHeight (blob : Bytes) : Prop := ∀ heights ∈ sibHeights blob, heights.1 = heights.2 + 1

instance (blob : Bytes) : Decidable (SibTrueHeight blob) :=
  inferInstanceAs (Decidable (∀ heights ∈ sibHeights blob, _))

/-- Every bundle that went through is a chain, however the run ended. -/
theorem runBundles_chains {host : Host} {m : Machine} {envelope : Bytes} (n : ℕ) {run : MfbdRun}
    (hinv : RunInv host run) :
    ∀ b ∈ (finalRun (runBundles host m envelope n run)).bundles, b.IsChainOf host := by
  induction n generalizing run with
  | zero => exact hinv.chains
  | succ n ih =>
    unfold runBundles
    rcases runBundle_cases host m envelope run with ⟨e, he, -, -, hb⟩ | ⟨fb, config, r, hok, -⟩
    · rw [he]
      show ∀ b ∈ e.2.bundles, b.IsChainOf host
      rw [hb]
      exact hinv.chains
    · have hstep := hinv.step hok
      rw [hok]
      exact ih hstep

theorem runMfbd_chains (host : Host) (m : Machine) (envelope : Bytes) :
    ∀ b ∈ (runMfbd host m envelope).2.bundles, b.IsChainOf host := by
  rcases runMfbd_run host m envelope with hrun | ⟨-, hrun⟩
  · simp [hrun]
  · rw [hrun]
    exact runBundles_chains _
      ⟨by simp, by simp, rfl, rfl, fun _ => rfl, fun hne => absurd rfl hne⟩

/-- A chain of blocks is numbered as one exactly when its heights are consecutive. -/
theorem isChain_extends_and {keccak256 : Bytes → Bytes32} {blocks : List Block}
    (h : blocks.IsChain (Extends keccak256)) :
    blocks.IsChain (fun a b => Extends keccak256 a b ∧ NextHeight a b) ↔ blocks.IsChain NextHeight := by
  simp only [isChain_iff_getElem] at h ⊢
  exact ⟨fun hb i hi => (hb i hi).2, fun hb i hi => ⟨h i hi, hb i hi⟩⟩

/-- **Accepted blocks are numbered as their input is.**  A bundle that goes through accepts the
blocks it carries without the flag for invalid ones, and they are numbered as a chain is exactly
when the bundle has true heights.  The block that a stateless input is accepted with is numbered one
past its parent exactly when the input has a true height. -/
theorem accepted_number_follows (host : Host) :
    (∀ (m : Machine) (envelope : Bytes), ∀ t ∈ (runMfbd host m envelope).2.bundles,
      t.accepted = t.bundle.expectedBlocks ∧
      (t.NumbersFollow host.keccak256 ↔ t.bundle.TrueHeights host.keccak256)) ∧
    (∀ (stale : UInt8) (blob : Bytes), (runSib host stale blob).successfulValidation = true →
      ∃ (block : Block) (parent : BlockHeader), (runSib host stale blob).block = some block ∧
        (runSib host stale blob).preStateRoot = parent.stateRoot ∧
        parent.hash host.keccak256 = block.header.parentHash ∧
        (block.header.number.toNat = parent.number.toNat + 1 ↔ SibTrueHeight blob)) := by
  constructor
  · intro m envelope t ht
    have hchain := runMfbd_chains host m envelope t ht
    refine ⟨hchain.carried, ?_⟩
    unfold BundleTrace.NumbersFollow FlatBundle.TrueHeights
    rw [isChain_extends_and hchain.chained, hchain.carried]
  · intro stale blob hok
    obtain ⟨dec, payload, block, parent, hacc⟩ := runSib_accepted hok
    obtain ⟨last, rest, hlast, hpar⟩ := hacc.anchored
    have hnumber : block.header.number = payload.blockNumber := by
      obtain ⟨ts, -, hbuilt⟩ := Option.bind_eq_some_iff.mp hacc.built
      obtain rfl := Option.some.inj hbuilt
      rfl
    have hheights : sibHeights blob = some (block.header.number.toNat, parent.number.toNat) := by
      simp [sibHeights, hacc.decoded, hacc.request, hlast, hpar, hnumber, Except.toOption]
    refine ⟨block, parent, by rw [hacc.run], by rw [hacc.run], hacc.parentHash, ?_⟩
    simp [SibTrueHeight, hheights]

/-- Two bundles of consecutive blocks, and a stateless input numbered one past its parent. -/
theorem accepted_number_follows_samples :
    ((runMfbd Sample.host {} Sample.chains).2.bundles.map (·.accepted.length) = [2, 1] ∧
      ∀ t ∈ (runMfbd Sample.host {} Sample.chains).2.bundles,
        t.NumbersFollow Sample.host.keccak256) ∧
    ∃ (block : Block) (parent : BlockHeader),
      (runSib StatelessSample.host 0 (StatelessSample.input [StatelessSample.raw])).block = some block ∧
      parent.hash StatelessSample.host.keccak256 = block.header.parentHash ∧
      block.header.number.toNat = parent.number.toNat + 1 := by
  obtain ⟨hmfbd, -⟩ := accepted_number_follows Sample.host
  obtain ⟨-, hsib⟩ := accepted_number_follows StatelessSample.host
  constructor
  · obtain ⟨hlen, hheights⟩ :
        (runMfbd Sample.host {} Sample.chains).2.bundles.map (·.accepted.length) = [2, 1] ∧
        ∀ t ∈ (runMfbd Sample.host {} Sample.chains).2.bundles,
          t.bundle.TrueHeights Sample.host.keccak256 := by
      decide +kernel
    exact ⟨hlen, fun t ht => (hmfbd {} Sample.chains t ht).2.mpr (hheights t ht)⟩
  · obtain ⟨hok, hheight⟩ : (runSib StatelessSample.host 0
          (StatelessSample.input [StatelessSample.raw])).successfulValidation = true ∧
        SibTrueHeight (StatelessSample.input [StatelessSample.raw]) := by
      decide +kernel
    obtain ⟨block, parent, hb, -, hhash, hiff⟩ := hsib 0 _ hok
    exact ⟨block, parent, hb, hhash, hiff.mpr hheight⟩

namespace Sample

/-- A bundle whose one block claims the height seven above the genesis header. -/
def jumpingBundle : Bytes := envelope 1 (bundle [child 7])

end Sample

/-- **A block may claim any height**: the run finishes and accepts a block numbered seven whose
parent is the genesis header. -/
theorem runMfbd_jumping_accepted :
    (runMfbd Sample.host {} Sample.jumpingBundle).1 = .finished 0 ∧
    ∃ t ∈ (runMfbd Sample.host {} Sample.jumpingBundle).2.bundles, ∃ block ∈ t.accepted,
      block.header.number.toNat = 7 ∧
      ∀ p ∈ t.bundle.headers ++ t.accepted.map Block.header,
        p.hash Sample.host.keccak256 = block.header.parentHash → p.number.toNat = 0 := by
  decide +kernel

end Zilkworm.Run
