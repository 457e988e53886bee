/-
# Sequences of reads and mutations

What the block-running code does to a state between two checks: reads, which leave notes
of what was asked, and mutations.  A run is a list of them, and what every one of them
keeps, a run keeps (`DirectState.run_induction`).
-/
import Zilkworm.State.DirectBackend

namespace Zilkworm.State

open Lib Rlp Zilkworm.Types Witness

/-- A read of the state. -/
inductive Read where
  | readAccount (addr : Address)
  | getBalance (addr : Address)
  | getNonce (addr : Address)
  | readStorage (addr : Address) (key : Bytes32)
  | hasStorage (addr : Address)
  /-- `get_account` of the view the EVM is handed. -/
  | getAccount (addr : Address)
  | readCode (addr : Address)
  deriving DecidableEq

/-- A mutation of the state. -/
inductive Mutation where
  | applyStateDiff (diff : StateDiff)
  | setBalance (addr : Address) (value : U256)
  | addToBalance (addr : Address) (addend : U256)
  | subtractFromBalance (addr : Address) (subtrahend : U256)
  | setNonce (addr : Address) (nonce : U64)
  | destruct (addr : Address)
  | destructDeadAmong (addrs : List Address)
  deriving DecidableEq

/-- A step of a run. -/
inductive Op where
  | read (r : Read)
  | mutate (m : Mutation)
  deriving DecidableEq

/-- What a read returns. -/
inductive Answer where
  | record (pa : Option Account)
  | balance (value : U256)
  | nonce (value : U64)
  | slot (value : Bytes32)
  | flag (value : Bool)
  | info (value : Option AccountInfo)
  | code (value : Bytes)
  deriving DecidableEq

/-- The codes a mutation brings in. -/
def Mutation.codes : Mutation → List Bytes
  | .applyStateDiff diff => diff.modifiedAccounts.filterMap (·.code)
  | _ => []

/-- The codes a run brings in. -/
def Op.codes : Op → List Bytes
  | .read _ => []
  | .mutate m => m.codes

/-- The hash a diff carries for a code is the code's own. -/
def StateDiff.HashesOwn (keccak256 : Bytes → Bytes32) (diff : StateDiff) : Prop :=
  ∀ m ∈ diff.modifiedAccounts, ∀ code ∈ m.code, ∀ h ∈ m.codeHash, h = keccak256 code

/-- The diffs of a step carry the hashes of their codes. -/
def Op.HashesOwn (keccak256 : Bytes → Bytes32) : Op → Prop
  | .mutate (.applyStateDiff diff) => diff.HashesOwn keccak256
  | _ => True

namespace DirectState

/-- A read of a `DirectState`. -/
def read : Read → DirectState → Answer × DirectState
  | .readAccount addr, s => (.record (s.readAccount addr), s)
  | .getBalance addr, s => (.balance (s.getBalance addr), s)
  | .getNonce addr, s => (.nonce (s.getNonce addr), s)
  | .readStorage addr key, s => let (v, s) := s.readStorage addr key; (.slot v, s)
  | .hasStorage addr, s => let (v, s) := s.hasStorageAt addr; (.flag v, s)
  | .getAccount addr, s => let (v, s) := s.viewAccount addr; (.info v, s)
  | .readCode addr, s => let (v, s) := s.readCode addr; (.code v, s)

/-- A mutation of a `DirectState`. -/
def mutate (keccak256 : Bytes → Bytes32) : Mutation → DirectState → DirectState
  | .applyStateDiff diff, s => s.applyStateDiff keccak256 diff
  | .setBalance addr value, s => s.setBalance addr value
  | .addToBalance addr addend, s => s.addToBalance addr addend
  | .subtractFromBalance addr subtrahend, s => s.subtractFromBalance addr subtrahend
  | .setNonce addr nonce, s => s.setNonce addr nonce
  | .destruct addr, s => s.destruct addr
  | .destructDeadAmong addrs, s => s.destructDeadAmong addrs

/-- A step of a run on a `DirectState`. -/
def step (keccak256 : Bytes → Bytes32) (s : DirectState) : Op → DirectState
  | .read r => (s.read r).2
  | .mutate m => s.mutate keccak256 m

/-- A run on a `DirectState`. -/
def run (keccak256 : Bytes → Bytes32) (ops : List Op) (s : DirectState) : DirectState :=
  ops.foldl (step keccak256) s

/-- **A run keeps what each of its steps keeps.** -/
theorem run_induction {keccak256 : Bytes → Bytes32} {P : DirectState → Prop} {ops : List Op}
    (hstep : ∀ op ∈ ops, ∀ s, P s → P (s.step keccak256 op)) {s : DirectState} (h : P s) :
    P (s.run keccak256 ops) := by
  induction ops generalizing s with
  | nil => exact h
  | cons op ops ih =>
    exact ih (fun o ho => hstep o (List.mem_cons_of_mem op ho)) (hstep op List.mem_cons_self s h)

end DirectState

end Zilkworm.State
