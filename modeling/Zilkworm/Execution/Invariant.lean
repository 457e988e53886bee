/-
# What a block keeps

A block reaches the state through the operations of its backend only, so a property that
each operation keeps is kept by `insert_block`, whether the block is accepted or not.  The
first use is the header store: no block changes it, and a block that is accepted has its
parent there.
-/
import Zilkworm.Execution.Processor

namespace Zilkworm.Execution

/-- A fold keeps what each of its steps keeps. -/
theorem foldl_kept {α β : Type} {P : β → Prop} {f : β → α → β} (hf : ∀ b a, P b → P (f b a))
    (l : List α) {b : β} (h : P b) : P (l.foldl f b) :=
  List.foldlRecOn l f h fun b hb a _ => hf b a hb

end Zilkworm.Execution

namespace Zilkworm.State.Kept

open Lib Rlp Zilkworm.Types Chain Protocol Execution

section Protocol

variable {keccak256 : Bytes → Bytes32} {σ : Type} [ActiveState keccak256 σ] {P : σ → Prop}
  (hk : Kept keccak256 P) {s : σ} (config : ChainConfig) (block : Block)
include hk

/-- The invariant holds after any reads of the EVM. -/
theorem reads {α : Type} (header : BlockHeader) (r : Reads α) (h : P s) :
    P (r.run keccak256 header s).2 :=
  Reads.run_induction (fun a _ => hk.viewAccount a) (fun a _ => hk.readCode a)
    (fun a k _ => hk.readStorage a k) (fun n _ => hk.getBlockHash header n) r s h

theorem validateTransaction (t : Transaction) (sender : Option Address) (gas : U64) (h : P s) :
    P (Protocol.validateTransaction keccak256 t sender gas s).2 := by
  unfold Protocol.validateTransaction
  cases sender with
  | none => exact h
  | some sender =>
    dsimp only
    have hcode := hk.readCodeHash sender h
    set c := ActiveState.readCodeHash keccak256 sender s
    -- the state after the code was looked at, if it was
    have heoa : P (if c.1.any fun h => h ≠ kEmptyHash then
        (isCodeDelegated (ActiveState.readCode keccak256 sender c.2).1,
          (ActiveState.readCode keccak256 sender c.2).2) else (true, c.2)).2 := by
      split
      · exact hk.readCode sender hcode
      · exact hcode
    set e := if c.1.any fun h => h ≠ kEmptyHash then
        (isCodeDelegated (ActiveState.readCode keccak256 sender c.2).1,
          (ActiveState.readCode keccak256 sender c.2).2) else (true, c.2)
    have hnonce := hk.getNonce sender heoa
    have hbal := hk.getBalance sender hnonce
    split_ifs <;> assumption

theorem initializeBlock (h : P s) : P (Protocol.initializeBlock keccak256 config block s) := by
  unfold Protocol.initializeBlock transferDaoBalances
  split
  · refine foldl_kept (fun s a hs => ?_) _ h
    exact hk.setBalance a 0 (hk.addToBalance _ _ (hk.getBalance a hs))
  · exact h

theorem finalize (h : P s) : P (Protocol.finalize keccak256 config block s) := by
  unfold Protocol.finalize
  split
  · unfold ethashFinalize
    exact foldl_kept (fun s o hs => hk.addToBalance _ _ hs) _ (hk.addToBalance _ _ h)
  · exact foldl_kept (fun s w hs => hk.destructDeadAmong _ (hk.addToBalance _ _ hs)) _ h

end Protocol

section Processor

variable {host : Host} {σ : Type} [ActiveState host.keccak256 σ] {P : σ → Prop}
  (hk : Kept host.keccak256 P) {p : Progress host σ} {s : σ}
  (config : ChainConfig) (block : Block)
include hk

theorem noteAuthorizations (t : Transaction) (h : P s) : P (Execution.noteAuthorizations host t s) := by
  unfold Execution.noteAuthorizations
  refine foldl_kept (fun s a hs => ?_) _ h
  split
  · exact hs
  · exact hk.noteCreatedCode _ hs

theorem recordDiff (rev : Revision) (header : BlockHeader) (i : ℕ) (d : StateDiff) (h : P p.state) :
    P (Execution.recordDiff host rev header i d p).state := by
  unfold Execution.recordDiff
  split
  · exact hk.reads header _ h
  · exact h

/-- The invariant over one transaction: its reads and its diff. -/
theorem executeTransaction (t : Transaction) (sender : Address) (h : P p.state) :
    P (Execution.executeTransaction host config block t sender p).state := by
  unfold Execution.executeTransaction
  dsimp only
  refine hk.applyStateDiff _ (hk.recordDiff _ _ _ _ ?_)
  split <;> exact hk.reads block.header _ (hk.noteAuthorizations t h)

/-- The invariant over the loop of `execute_block`, by induction on the transactions. -/
theorem executeTransactions (ts : List Transaction) (h : P p.state) :
    P (Execution.executeTransactions host config block ts p).2.state := by
  induction ts generalizing p with
  | nil => exact h
  | cons t ts ih =>
    unfold Execution.executeTransactions
    dsimp only
    split
    · exact h
    · set gas := if Revision.amsterdam ≤ config.revisionAt block.header
        then block.header.gasLimit else availableGas host block.header p
      have hv := hk.validateTransaction t (host.sender t) gas h
      rcases hvt : Protocol.validateTransaction host.keccak256 t
        (host.sender t) gas p.state with ⟨e | u, s⟩
      · rw [hvt] at hv
        exact hv
      · rw [hvt] at hv
        exact ih (hk.executeTransaction config block t _ hv)

theorem blockStart (h : P p.state) : P (Execution.blockStart host config block p).state := by
  unfold Execution.blockStart
  exact hk.applyStateDiff _ (hk.recordDiff _ _ _ _ (hk.reads block.header _ h))

theorem sweepDead (rev : Revision) (h : P s) : P (Execution.sweepDead host rev s) := by
  unfold Execution.sweepDead
  split
  · exact hk.destructDeadAmong _ h
  · exact h

/-- The invariant over the block's rewards and withdrawals under Amsterdam, which are a diff of
their own. -/
theorem finalizeAmsterdam (h : P p.state) :
    P (Execution.finalizeAmsterdam host config block p).state := by
  unfold Execution.finalizeAmsterdam
  exact hk.applyStateDiff _ (hk.recordDiff _ _ _ _ (hk.reads block.header _ h))

theorem blockEnd (h : P p.state) : P (Execution.blockEnd host config block p).2.state := by
  unfold Execution.blockEnd
  dsimp only
  split
  · cases collectDeposits p.receipts with
    | none => exact h
    | some requests =>
      dsimp only
      have hr := hk.reads block.header
        (host.systemCallBlockEnd (blockInfo config block)
          (config.revisionAt block.header)) h
      rcases hcall : (host.systemCallBlockEnd (blockInfo config block)
        (config.revisionAt block.header)).run host.keccak256 block.header
          p.state with ⟨_ | ⟨diff, reqs⟩, s⟩
      · rw [hcall] at hr
        exact hr
      · rw [hcall] at hr
        dsimp only
        split <;> exact hk.applyStateDiff _ (hk.recordDiff _ _ _ _ hr)
  · exact h

/-- The invariant from the start of the block to its end, whatever stops it. -/
theorem executeToEnd (h : P s) : P (Execution.executeToEnd host config block s).2.state := by
  unfold Execution.executeToEnd
  dsimp only
  have hstart : P (startProgress host config block s).state :=
    hk.sweepDead _ (hk.blockStart config block (hk.initializeBlock config block h))
  have hts := hk.executeTransactions config block block.transactions hstart
  rcases hx : Execution.executeTransactions host config block block.transactions
    (startProgress host config block s) with ⟨e | u, q⟩
  · rw [hx] at hts
    exact hts
  · rw [hx] at hts
    dsimp only
    refine hk.blockEnd config block ?_
    split
    · exact hk.finalizeAmsterdam config block (hk.clearTouched hts)
    · exact hk.clearTouched hts

/-- **`execute_block` keeps the invariant**, if it accepts the block and if it does not. -/
theorem executeBlock (h : P s) : P (Execution.executeBlock host config block s).2 := by
  unfold Execution.executeBlock
  have hend := hk.executeToEnd config block h
  rcases hx : Execution.executeToEnd host config block s with ⟨e | u, p⟩
  · rw [hx] at hend
    exact hend
  · rw [hx] at hend
    show P (finalizeBlock host config block p.state)
    unfold finalizeBlock
    refine hk.sweepDead _ ?_
    split
    · exact hk.finalize config block hend
    · exact hend

/-- **`insert_block` keeps what every operation keeps.** -/
theorem insertBlock (checkStateRoot : Bool) (config : ChainConfig) (block : Block) (h : P s) :
    P (Execution.insertBlock host checkStateRoot config block s).2 := by
  unfold Execution.insertBlock
  cases RuleSet.merge.validateBlockHeader host.keccak256 config block.header s with
  | error e => exact h
  | ok u =>
    cases preValidateBlockBody host.keccak256 host.sender config block s with
    | error e => exact h
    | ok u =>
      show P (executeAndCheck host checkStateRoot config block s).2
      unfold executeAndCheck
      have hx := hk.executeBlock config block h
      rcases hb : Execution.executeBlock host config block s with ⟨e | u, s'⟩
      · rw [hb] at hx
        exact hx
      · rw [hb] at hx
        exact hx

end Processor

end Zilkworm.State.Kept

namespace Zilkworm.Execution

open Lib Rlp Zilkworm.Types State Chain Protocol

section Headers

variable (host : Host) {σ : Type} [ActiveState host.keccak256 σ] [LawfulHeaders host.keccak256 σ]

/-- No block changes the header store. -/
theorem insertBlock_readHeader (checkStateRoot : Bool) (config : ChainConfig) (block : Block) (s : σ) :
    ActiveState.readHeader host.keccak256 (insertBlock host checkStateRoot config block s).2 =
      ActiveState.readHeader host.keccak256 s :=
  (LawfulHeaders.kept _).insertBlock checkStateRoot config block rfl

end Headers

section Accepted

variable {host : Host} {σ : Type} [ActiveState host.keccak256 σ] {checkStateRoot : Bool}
  {config : ChainConfig} {block : Block} {s : σ}
  (h : (insertBlock host checkStateRoot config block s).1 = .ok ())

include h

/-- The header of an accepted block has been validated. -/
theorem insertBlock_header :
    RuleSet.merge.validateBlockHeader host.keccak256 config block.header s = .ok () := by
  unfold insertBlock at h
  rcases hv : RuleSet.merge.validateBlockHeader host.keccak256 config block.header s with e | u
  · rw [hv] at h
    cases h
  · rfl

/-- **An accepted block has its parent in the header store**, and is not numbered zero. -/
theorem insertBlock_parent : block.header.number ≠ 0 ∧
    ∃ parent, ActiveState.readHeader host.keccak256 s (block.header.number - 1)
      block.header.parentHash = some parent := by
  have hv := insertBlock_header h
  unfold RuleSet.validateBlockHeader at hv
  simp only [bind_eq_ok] at hv
  obtain ⟨-, -, -, -, -, -, -, -, hv⟩ := hv
  unfold getParentHeader at hv
  by_cases hn : block.header.number = 0
  · rw [if_pos hn] at hv
    cases hv
  · rw [if_neg hn] at hv
    refine ⟨hn, ?_⟩
    rcases hp : ActiveState.readHeader host.keccak256 s (block.header.number - 1)
      block.header.parentHash with _ | parent
    · rw [hp] at hv
      cases hv
    · exact ⟨parent, rfl⟩

end Accepted

end Zilkworm.Execution
