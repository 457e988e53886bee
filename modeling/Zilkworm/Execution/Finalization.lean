/-
# What finalization does to balances

A block of difficulty zero is finalized by the Merge rule set: its withdrawals are credited
and the touched dead accounts swept.  Every other block goes to the Ethash rule set, which
mints a reward for the miner and each ommer and does not look at the withdrawals.  Which of
the two it is hangs on the header's difficulty alone, and no check ties that to the fork:
the Merge rule set's own check of it is commented out.
-/
import Zilkworm.Execution.Invariant
import Zilkworm.State.DirectBackend
import Zilkworm.State.HashBackend
import Mathlib.Data.BitVec

namespace Zilkworm.Execution

open List Lib Rlp Zilkworm.Types State Chain Protocol

/-- What the withdrawals of a block credit to an address, in Wei modulo `2 ^ 256`. -/
def withdrawnTo (withdrawals : List Withdrawal) (a : Address) : U256 :=
  (withdrawals.map fun w => if w.address = a then amountInWei w else 0).sum

section

variable (host : Host) {σ : Type} [ActiveState host.keccak256 σ] [LawfulBalances host.keccak256 σ]

/-- The balance the backend reports for an address. -/
def balanceOf (s : σ) (a : Address) : U256 := (ActiveState.getBalance host.keccak256 a s).1

variable {s : σ} (hs : LawfulBalances.WellFormed host.keccak256 s)

include hs

theorem balanceOf_sweepDead (rev : Revision) (b : Address) :
    balanceOf host (sweepDead host rev s) b = balanceOf host s b := by
  unfold sweepDead
  split
  · exact LawfulBalances.destructDeadAmong _ hs b
  · rfl

/-- One withdrawal credits its address. -/
theorem balanceOf_applyWithdrawal (w : Withdrawal) (b : Address) :
    balanceOf host (applyWithdrawal host.keccak256 w s) b =
      balanceOf host s b + if w.address = b then amountInWei w else 0 :=
  (LawfulBalances.destructDeadAmong _ (LawfulBalances.kept.addToBalance _ _ hs) b).trans
    (LawfulBalances.addToBalance _ _ hs b)

/-- The withdrawals of a block, one after the other. -/
theorem balanceOf_withdrawals (ws : List Withdrawal) (b : Address) :
    balanceOf host (ws.foldl (fun s w => applyWithdrawal host.keccak256 w s) s) b =
      balanceOf host s b + withdrawnTo ws b := by
  induction ws generalizing s with
  | nil => simp [withdrawnTo]
  | cons w ws ih =>
    have hw : LawfulBalances.WellFormed host.keccak256 (applyWithdrawal host.keccak256 w s) :=
      LawfulBalances.kept.destructDeadAmong _ (LawfulBalances.kept.addToBalance _ _ hs)
    rw [foldl_cons, ih hw, balanceOf_applyWithdrawal host hs, withdrawnTo, withdrawnTo, map_cons,
      sum_cons, add_assoc]

/-- **The finalization of a block before Amsterdam**: what it adds to a balance depends on the
difficulty alone. -/
theorem balanceOf_finalizeBlock_of_difficulty {config : ChainConfig} {block : Block}
    (hrev : config.revisionAt block.header < .amsterdam)
    (hdiff : block.header.difficulty = 0) (b : Address) :
    balanceOf host (finalizeBlock host config block s) b =
      balanceOf host s b + withdrawnTo (block.withdrawals.getD []) b := by
  have hfin : LawfulBalances.WellFormed host.keccak256
      (Protocol.finalize host.keccak256 config block s) :=
    LawfulBalances.kept.finalize config block hs
  unfold finalizeBlock
  dsimp only
  rw [if_pos hrev, balanceOf_sweepDead host hfin]
  unfold Protocol.finalize
  rw [if_neg (not_not.mpr hdiff), balanceOf_withdrawals host hs]

end

/-- The state an accepted block leaves is the finalization of the one its execution ended in. -/
theorem insertBlock_finalizes (host : Host) {σ : Type} [ActiveState host.keccak256 σ]
    {checkStateRoot : Bool} {config : ChainConfig} {block : Block} {s : σ}
    (hok : (insertBlock host checkStateRoot config block s).1 = .ok ()) :
    (insertBlock host checkStateRoot config block s).2 =
      finalizeBlock host config block (executeToEnd host config block s).2.state := by
  revert hok
  unfold insertBlock executeAndCheck executeBlock
  cases RuleSet.merge.validateBlockHeader host.keccak256 config block.header s with
  | error e => intro h; cases h
  | ok _ =>
    dsimp only
    cases preValidateBlockBody host.keccak256 host.sender config block s with
    | error e => intro h; cases h
    | ok _ =>
      dsimp only
      rcases executeToEnd host config block s with ⟨_ | _, p⟩
      · intro h; cases h
      · dsimp only
        cases checkHeader host config block
            { p with state := finalizeBlock host config block p.state } with
        | error e => intro h; cases h
        | ok _ => exact fun _ => rfl

/-- **No reward is minted and no withdrawal skipped** by a finalization that takes `before` to
`after`: the block has difficulty zero, and each balance changes by exactly what the block's
withdrawals credit. -/
def MintsNoReward (host : Host) {σ : Type} [ActiveState host.keccak256 σ] (block : Block)
    (before after : σ) : Prop :=
  block.header.difficulty = 0 ∧ ∀ b : Address,
    balanceOf host after b = balanceOf host before b + withdrawnTo (block.withdrawals.getD []) b

/-- **A block accepted before Amsterdam mints no reward exactly when its header says difficulty
zero.**  Nothing in `insert_block` makes it say so after the Merge. -/
theorem insertBlock_mintsNoReward_iff (host : Host) {σ : Type} [ActiveState host.keccak256 σ]
    [LawfulBalances host.keccak256 σ] (checkStateRoot : Bool) (config : ChainConfig) (block : Block)
    (s : σ) (hs : LawfulBalances.WellFormed host.keccak256 s)
    (hok : (insertBlock host checkStateRoot config block s).1 = .ok ())
    (hrev : config.revisionAt block.header < .amsterdam) :
    MintsNoReward host block (executeToEnd host config block s).2.state
        (insertBlock host checkStateRoot config block s).2 ↔
      block.header.difficulty = 0 := by
  constructor
  · rintro ⟨hdiff, -⟩
    exact hdiff
  · intro hdiff
    refine ⟨hdiff, fun b => ?_⟩
    rw [insertBlock_finalizes host hok]
    exact balanceOf_finalizeBlock_of_difficulty host (LawfulBalances.kept.executeToEnd config block hs)
      hrev hdiff b

/-! ## A Shanghai block with difficulty one -/

namespace Minted

/-- The header the block stands on. -/
def parent : BlockHeader where
  ommersHash := kEmptyListHash
  stateRoot := kEmptyRoot
  transactionsRoot := kEmptyRoot
  receiptsRoot := kEmptyRoot
  gasLimit := 30000000
  baseFeePerGas := some 1000000000
  withdrawalsRoot := some kEmptyRoot

/-- One Ether, to the address 2. -/
def withdrawal : Withdrawal := ⟨0, 0, addressOfNat 2, 1000000000⟩

/-- Keccak-256 on the strings hashed here: the parent header and the one leaf of the withdrawals
trie. -/
def keccak256 (b : Bytes) : Bytes32 :=
  if b = parent.encode then
    Bytes32.ofNat 0xc3efce81cd2529a782cf7071ad35e44c87b40aa73cedfea7343a0f19b6fbf03b
  else if b = Trie.leafNodeRlp [8, 0] withdrawal.encode then
    Bytes32.ofNat 0x1831344f77ce2597c7966653276fa9a8c119e5194d79f99f1514bac08bac5ee6
  else zeroBytes32

/-- The EVM has nothing to run. -/
def host : Host := .idle keccak256

/-- The empty state, with the parent header inserted. -/
def state : DirectState :=
  DirectState.insertHeader keccak256 parent
    { witness := .empty, records := fun _ => Account.absent zeroAddress }

/-- The same as a `HashState`. -/
def hashState : HashState := HashState.insertHeader keccak256 parent {}

/-- The child of `parent` with one withdrawal, of a given difficulty. -/
def block (difficulty : U256) : Block where
  header :=
    { parent with
      parentHash := parent.hash keccak256
      beneficiary := addressOfNat 1
      difficulty := difficulty
      number := 1
      timestamp := 12
      baseFeePerGas := some 875000000
      withdrawalsRoot := some
        (Bytes32.ofNat 0x1831344f77ce2597c7966653276fa9a8c119e5194d79f99f1514bac08bac5ee6) }
  withdrawals := some [withdrawal]

end Minted

/-- **A Shanghai block of difficulty one is accepted**, mints two Ether for its beneficiary and
credits its withdrawal to nobody. -/
theorem insertBlock_minted_reward :
    (insertBlock Minted.host false kShanghaiConfig (Minted.block 1) Minted.state).1 = .ok () ∧
    kShanghaiConfig.revisionAt (Minted.block 1).header =
      .shanghai ∧
    balanceOf Minted.host
      (insertBlock Minted.host false kShanghaiConfig (Minted.block 1) Minted.state).2 (addressOfNat 1) =
      BitVec.ofNat 256 (2 * kEther) ∧
    balanceOf Minted.host
      (insertBlock Minted.host false kShanghaiConfig (Minted.block 1) Minted.state).2 (addressOfNat 2) =
      0 ∧
    ¬ MintsNoReward Minted.host (Minted.block 1)
      (executeToEnd Minted.host kShanghaiConfig (Minted.block 1) Minted.state).2.state
      (insertBlock Minted.host false kShanghaiConfig (Minted.block 1) Minted.state).2 := by
  refine ⟨by decide +kernel, by decide +kernel, by decide +kernel, by decide +kernel, ?_⟩
  rintro ⟨hdiff, -⟩
  exact absurd hdiff (by decide)

/-- With difficulty zero the same block is accepted and credits its withdrawal, on either backend.
-/
theorem insertBlock_withdrawal_credited :
    ((insertBlock Minted.host false kShanghaiConfig (Minted.block 0) Minted.state).1 = .ok () ∧
      MintsNoReward Minted.host (Minted.block 0)
        (executeToEnd Minted.host kShanghaiConfig (Minted.block 0) Minted.state).2.state
        (insertBlock Minted.host false kShanghaiConfig (Minted.block 0) Minted.state).2) ∧
    (insertBlock Minted.host false kShanghaiConfig (Minted.block 0) Minted.hashState).1 = .ok () ∧
      MintsNoReward Minted.host (Minted.block 0)
        (executeToEnd Minted.host kShanghaiConfig (Minted.block 0) Minted.hashState).2.state
        (insertBlock Minted.host false kShanghaiConfig (Minted.block 0) Minted.hashState).2 := by
  have hok : (insertBlock Minted.host false kShanghaiConfig (Minted.block 0) Minted.state).1 =
      .ok () := by decide +kernel
  have hokHash : (insertBlock Minted.host false kShanghaiConfig (Minted.block 0) Minted.hashState).1 =
      .ok () := by decide +kernel
  have hrev : kShanghaiConfig.revisionAt (Minted.block 0).header < .amsterdam := by decide +kernel
  have hlive : Minted.hashState.CacheLive := fun _ _ h => by cases h
  exact ⟨⟨hok, (insertBlock_mintsNoReward_iff Minted.host false kShanghaiConfig (Minted.block 0)
      Minted.state trivial hok hrev).mpr rfl⟩,
    hokHash, (insertBlock_mintsNoReward_iff Minted.host false kShanghaiConfig (Minted.block 0)
      Minted.hashState hlive hokHash hrev).mpr rfl⟩

end Zilkworm.Execution
