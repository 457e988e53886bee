/-
# The state a block runs on

The block-running code is compiled against one of two backends, `DirectState` or
`HashState` (`core/state_zz/active_state.hpp`); here it is generic in a state type with
the operations both have.  Reads are stateful: a backend notes what was asked of it.

The EVM lies outside the repository.  It sees the state only through the view it is
handed, so a call into it is a program of reads that ends in a result: the next question
may depend on every answer before it, and nothing else is assumed.
-/
import Zilkworm.Chain.Config

namespace Zilkworm.State

open Lib Rlp Zilkworm.Types

/-- `kEmptyHash`, the keccak of no bytes. -/
def kEmptyHash : Bytes32 :=
  Bytes32.ofNat 0xc5d2460186f7233c927e7db2dcc703c0e500b653ca82273b7bfad8045d85a470

/-- `kEmptyRoot`, the root of the empty trie. -/
def kEmptyRoot : Bytes32 :=
  Bytes32.ofNat 0x56e81f171bcc55a6ff8345e692c0f86e5b48e01b996cadc001622fb5e363b421

/-- `kEmptyListHash`, the keccak of the empty RLP list. -/
def kEmptyListHash : Bytes32 :=
  Bytes32.ofNat 0x1dcc4de8dec75d7aab85b567b6ccd41ad312451b948a7413f0a142fd40d49347

/-- `eip7702::is_code_delegated`. -/
def isCodeDelegated (code : Bytes) : Bool := [0xef, 0x01, 0x00].isPrefixOf code

/-- `evmone::state::StateView::Account`. -/
structure AccountInfo where
  nonce : U64
  balance : U256
  codeHash : Bytes32
  hasStorage : Bool
  deriving DecidableEq

/-- An entry of `StateDiff::modified_accounts`. -/
structure ModifiedAccount where
  addr : Address
  nonce : U64
  balance : U256
  code : Option Bytes := none
  codeHash : Option Bytes32 := none
  modifiedStorage : List (Bytes32 × Bytes32) := []
  deriving DecidableEq

/-- `evmone::state::StateDiff`. -/
structure StateDiff where
  modifiedAccounts : List ModifiedAccount := []
  deletedAccounts : List Address := []
  deriving DecidableEq

/-- A program of reads through the EVM's view of the state and of the block hashes. -/
inductive Reads (α : Type) where
  | done (result : α)
  | getAccount (addr : Address) (next : Option AccountInfo → Reads α)
  | getAccountCode (addr : Address) (next : Bytes → Reads α)
  | getStorage (addr : Address) (key : Bytes32) (next : Bytes32 → Reads α)
  | getBlockHash (number : U64) (next : Bytes32 → Reads α)

/-- **`ActiveState`**: what the block-running code asks of a state backend. -/
class ActiveState (keccak256 : Bytes → Bytes32) (σ : Type) where
  readHeader : σ → U64 → Bytes32 → Option BlockHeader
  insertHeader : BlockHeader → σ → σ
  getBlockHash : BlockHeader → U64 → σ → Bytes32 × σ
  /-- `get_account` of the backend's view. -/
  viewAccount : Address → σ → Option AccountInfo × σ
  readCode : Address → σ → Bytes × σ
  readStorage : Address → Bytes32 → σ → Bytes32 × σ
  /-- The code hash of the record `read_account` returns. -/
  readCodeHash : Address → σ → Option Bytes32 × σ
  getNonce : Address → σ → U64 × σ
  getBalance : Address → σ → U256 × σ
  setBalance : Address → U256 → σ → σ
  addToBalance : Address → U256 → σ → σ
  touched : σ → List Address
  clearTouched : σ → σ
  destructDeadAmong : List Address → σ → σ
  applyStateDiff : StateDiff → σ → σ
  noteCreatedCode : Bytes → σ → σ
  stateRootHash : σ → Option Bytes32

/-- Runs a program of reads for the block that `header` heads. -/
def Reads.run (keccak256 : Bytes → Bytes32) {σ α : Type} [ActiveState keccak256 σ]
    (header : BlockHeader) : Reads α → σ → α × σ
  | .done a, s => (a, s)
  | .getAccount addr next, s =>
    let (v, s) := ActiveState.viewAccount keccak256 addr s
    (next v).run keccak256 header s
  | .getAccountCode addr next, s =>
    let (v, s) := ActiveState.readCode keccak256 addr s
    (next v).run keccak256 header s
  | .getStorage addr key next, s =>
    let (v, s) := ActiveState.readStorage keccak256 addr key s
    (next v).run keccak256 header s
  | .getBlockHash number next, s =>
    let (v, s) := ActiveState.getBlockHash keccak256 header number s
    (next v).run keccak256 header s

/-- **Reads keep what every read keeps.** -/
theorem Reads.run_induction {keccak256 : Bytes → Bytes32} {σ α : Type} [ActiveState keccak256 σ]
    {header : BlockHeader} {P : σ → Prop}
    (hacc : ∀ a s, P s → P (ActiveState.viewAccount keccak256 a s).2)
    (hcode : ∀ a s, P s → P (ActiveState.readCode keccak256 a s).2)
    (hstorage : ∀ a k s, P s → P (ActiveState.readStorage keccak256 a k s).2)
    (hhash : ∀ n s, P s → P (ActiveState.getBlockHash keccak256 header n s).2)
    (r : Reads α) (s : σ) (h : P s) : P (r.run keccak256 header s).2 := by
  induction r generalizing s with
  | done a => exact h
  | getAccount addr next ih => exact ih _ _ (hacc _ _ h)
  | getAccountCode addr next ih => exact ih _ _ (hcode _ _ h)
  | getStorage addr key next ih => exact ih _ _ (hstorage _ _ _ h)
  | getBlockHash number next ih => exact ih _ _ (hhash _ _ h)

/-- **A property every operation of a backend keeps**, but for the insertion of a header, which no
block makes. -/
structure Kept (keccak256 : Bytes → Bytes32) {σ : Type} [ActiveState keccak256 σ] (P : σ → Prop) :
    Prop where
  getBlockHash (h : BlockHeader) (n : U64) {s : σ} : P s → P (ActiveState.getBlockHash keccak256 h n s).2
  viewAccount (a : Address) {s : σ} : P s → P (ActiveState.viewAccount keccak256 a s).2
  readCode (a : Address) {s : σ} : P s → P (ActiveState.readCode keccak256 a s).2
  readStorage (a : Address) (k : Bytes32) {s : σ} : P s → P (ActiveState.readStorage keccak256 a k s).2
  readCodeHash (a : Address) {s : σ} : P s → P (ActiveState.readCodeHash keccak256 a s).2
  getNonce (a : Address) {s : σ} : P s → P (ActiveState.getNonce keccak256 a s).2
  getBalance (a : Address) {s : σ} : P s → P (ActiveState.getBalance keccak256 a s).2
  setBalance (a : Address) (v : U256) {s : σ} : P s → P (ActiveState.setBalance keccak256 a v s)
  addToBalance (a : Address) (v : U256) {s : σ} : P s → P (ActiveState.addToBalance keccak256 a v s)
  clearTouched {s : σ} : P s → P (ActiveState.clearTouched keccak256 s)
  destructDeadAmong (as : List Address) {s : σ} :
    P s → P (ActiveState.destructDeadAmong keccak256 as s)
  applyStateDiff (d : StateDiff) {s : σ} : P s → P (ActiveState.applyStateDiff keccak256 d s)
  noteCreatedCode (b : Bytes) {s : σ} : P s → P (ActiveState.noteCreatedCode keccak256 b s)

/-- The header store of a backend: no operation but `insert_header` changes it, and that adds the
header under its hash. -/
class LawfulHeaders (keccak256 : Bytes → Bytes32) (σ : Type) [ActiveState keccak256 σ] : Prop where
  insertHeader (h : BlockHeader) (s : σ) (n : U64) (k : Bytes32) :
    ActiveState.readHeader keccak256 (ActiveState.insertHeader keccak256 h s) n k =
      if h.hash keccak256 = k then some h else ActiveState.readHeader keccak256 s n k
  kept (f : U64 → Bytes32 → Option BlockHeader) :
    Kept keccak256 fun s : σ => ActiveState.readHeader keccak256 s = f

/-- The balances of a backend, in the states that are well-formed and stay so: an addition credits
one account, and sweeping dead accounts, which have no balance, moves nothing. -/
class LawfulBalances (keccak256 : Bytes → Bytes32) (σ : Type) [ActiveState keccak256 σ] where
  WellFormed : σ → Prop
  kept : Kept keccak256 WellFormed
  addToBalance (a : Address) (v : U256) {s : σ} (h : WellFormed s) (b : Address) :
    (ActiveState.getBalance keccak256 b (ActiveState.addToBalance keccak256 a v s)).1 =
      (ActiveState.getBalance keccak256 b s).1 + if a = b then v else 0
  destructDeadAmong (as : List Address) {s : σ} (h : WellFormed s) (b : Address) :
    (ActiveState.getBalance keccak256 b (ActiveState.destructDeadAmong keccak256 as s)).1 =
      (ActiveState.getBalance keccak256 b s).1

end Zilkworm.State
