/-
# The stateless input

`core/state_zz/slib_input.{hpp,cpp}`: a `statelessInputBytes` blob cut into its parts, and fed to a
`HashState`.  The size hints to the stores are left out.
-/
import Zilkworm.Ssz.Read
import Zilkworm.State.HashState

namespace Zilkworm.Slib

open Lib Rlp Zilkworm.Types State

/-- `kSlibSchemaId`. -/
def kSlibSchemaId : ℕ := 0x1501

/-- `kStatelessInputFixed`. -/
def kStatelessInputFixed : ℕ := 16

/-- `kWitnessFixed`. -/
def kWitnessFixed : ℕ := 12

/-- `kMaxBytesPerWitnessNode`. -/
def kMaxBytesPerWitnessNode : ℕ := 2 ^ 10

/-- `kMaxBytesPerCode`. -/
def kMaxBytesPerCode : ℕ := 2 ^ 16

/-- `kMaxBytesPerHeader`. -/
def kMaxBytesPerHeader : ℕ := 2 ^ 10

/-- `kMaxWitnessHeaders`. -/
def kMaxWitnessHeaders : ℕ := 256

/-- `kMaxWitnessStateNodes`. -/
def kMaxWitnessStateNodes : ℕ := 2 ^ 20

/-- `kMaxWitnessCodes`. -/
def kMaxWitnessCodes : ℕ := 2 ^ 20

/-- `Sections`: the framing is validated, the lists are raw. -/
structure Sections where
  chainId : U64
  newPayloadRequest : Bytes
  state : Bytes
  codes : Bytes
  headers : Bytes

/-- `split_stateless_input`. -/
def splitStatelessInput (blob : Bytes) : Option Sections := do
  if blob.take 2 ≠ [UInt8.ofNat (kSlibSchemaId / 256), UInt8.ofNat kSlibSchemaId] then none
  let body := blob.drop 2
  let input ← Ssz.splitVariable body kStatelessInputFixed [0, 4]
  let witness ← Ssz.splitVariable (input.getD 1 []) kWitnessFixed [0, 4, 8]
  return {
    chainId := BitVec.ofNat 64 (u64At body 8)
    newPayloadRequest := input.getD 0 []
    state := witness.getD 0 []
    codes := witness.getD 1 []
    headers := witness.getD 2 [] }

/-- `DecodedStatelessInput`. -/
structure DecodedStatelessInput where
  chainId : U64
  newPayloadRequest : Bytes
  state : List Bytes
  codes : List Bytes
  headers : List Bytes
  deriving DecidableEq

/-- `decode_stateless_input`. -/
def decodeStatelessInput (blob : Bytes) : Option DecodedStatelessInput := do
  let sec ← splitStatelessInput blob
  let state ← Ssz.decodeByteLists sec.state kMaxBytesPerWitnessNode kMaxWitnessStateNodes
  let codes ← Ssz.decodeByteLists sec.codes kMaxBytesPerCode kMaxWitnessCodes
  let headers ← Ssz.decodeByteLists sec.headers kMaxBytesPerHeader kMaxWitnessHeaders
  return ⟨sec.chainId, sec.newPayloadRequest, state, codes, headers⟩

/-- `StatelessInputView`, without its counts. -/
structure StatelessInputView where
  chainId : U64
  newPayloadRequest : Bytes
  headers : List Bytes
  deriving DecidableEq

/-- `parse_stateless_input`: a bad element leaves the state partly fed. -/
def parseStatelessInput (keccak256 : Bytes → Bytes32) (blob : Bytes) (hs : HashState) :
    Option StatelessInputView × HashState :=
  match splitStatelessInput blob with
  | none => (none, hs)
  | some sec =>
    if Ssz.byteListCount sec.state kMaxWitnessStateNodes = none ∨
        Ssz.byteListCount sec.codes kMaxWitnessCodes = none then (none, hs)
    else
      let (nodes, nodesOk) :=
        Ssz.forEachByteList sec.state kMaxBytesPerWitnessNode kMaxWitnessStateNodes
      let hs := nodes.foldl (HashState.addNode keccak256) hs
      if nodesOk = false then (none, hs)
      else
        let (codes, codesOk) := Ssz.forEachByteList sec.codes kMaxBytesPerCode kMaxWitnessCodes
        let hs := codes.foldl (HashState.addCode keccak256) hs
        if codesOk = false then (none, hs)
        else
          match Ssz.decodeByteLists sec.headers kMaxBytesPerHeader kMaxWitnessHeaders with
          | none => (none, hs)
          | some headers => (some ⟨sec.chainId, sec.newPayloadRequest, headers⟩, hs)

/-- `run_slib`. -/
def runSlib (keccak256 : Bytes → Bytes32) (blob : Bytes) (hs : HashState) (prevRoot : Bytes32) :
    Option (StatelessInputView × BuildStatus) × HashState :=
  match parseStatelessInput keccak256 blob hs with
  | (none, hs) => (none, hs)
  | (some v, hs) =>
    let (status, hs) := hs.buildStateFromTrie prevRoot
    (some (v, status), hs)

end Zilkworm.Slib
