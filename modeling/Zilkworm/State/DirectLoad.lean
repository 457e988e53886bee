/-
# From the blobs to a `DirectState`

The constructor of `DirectState` (`core/state_zz/direct_state.cpp`) lays views over the
pre-state blob and the node store, and `sanitize` makes the blob's records ready.  This
module reads what the views read: lookups in the perfect-hash maps, the table of address
hashes, and the record behind each entry.

`find_node_rlp` keeps a bit for each node it has hashed, so that no node is hashed twice;
the model hashes each time.
-/
import Zilkworm.State.DirectState
import Zilkworm.Witness.CodeSeal

namespace Zilkworm

namespace Witness

open Lib Rlp

/-- A body that a lookup found carries the key it was asked for. -/
theorem MphfMap.find_key {b : Bytes} {m : MphfMap} {keyOffset k8 : ℕ} {key : Bytes} {r : ℕ × ℕ}
    (h : m.find b keyOffset k8 key = some r) :
    ∃ off, r.1 = m.data + off + 8 ∧ slice b (m.data + off + 8 + keyOffset) key.length = key := by
  have hbody : ∀ off, m.bodyIfKey b keyOffset key off = some r →
      ∃ off, r.1 = m.data + off + 8 ∧ slice b (m.data + off + 8 + keyOffset) key.length = key := by
    intro off hoff
    unfold MphfMap.bodyIfKey at hoff
    dsimp only at hoff
    split_ifs at hoff with hk
    obtain rfl := Option.some.inj hoff
    exact ⟨off, rfl, hk⟩
  unfold MphfMap.find at h
  dsimp only at h
  split_ifs at h
  · exact hbody _ h
  · obtain ⟨e, -, he⟩ := List.exists_of_findSome?_eq_some h
    exact hbody _ he

end Witness

namespace State

open Lib Rlp Zilkworm.Types Witness

/-- `FlatKv::payload` of a body of `len` bytes. -/
def flatKvPayload (b : Bytes) (body len : ℕ) : Bytes :=
  slice b (body + kPayloadOffset) (len - kPayloadOffset)

/-- The data offset of the entry a lookup in the address map finds. -/
def findEntry (b : Bytes) (map : Option MphfMap) (addr : Address) : Option ℕ :=
  map.bind fun m => (m.find b 0 (addrKey8 addr.val) addr.val).map fun r => r.1 - m.data - 8

theorem findEntry_injective {b : Bytes} {map : Option MphfMap} {addr addr' : Address} {off : ℕ}
    (h : findEntry b map addr = some off) (h' : findEntry b map addr' = some off) : addr = addr' := by
  have key : ∀ {a : Address}, findEntry b map a = some off →
      ∃ m ∈ map, slice b (m.data + off + 8) 20 = a.val := by
    intro a ha
    obtain ⟨m, hm, ha⟩ := Option.bind_eq_some_iff.mp ha
    obtain ⟨r, hr, rfl⟩ := Option.map_eq_some_iff.mp ha
    obtain ⟨o, ho, hk⟩ := MphfMap.find_key hr
    refine ⟨m, hm, ?_⟩
    rw [a.2] at hk
    rw [show m.data + (r.1 - m.data - 8) + 8 = m.data + o + 8 + 0 by omega]
    exact hk
  obtain ⟨m, hm, hs⟩ := key h
  obtain ⟨m', hm', hs'⟩ := key h'
  obtain rfl := Option.mem_unique hm hm'
  exact Subtype.ext (hs.symm.trans hs')

/-- The views over a pre-state blob, whose bytes are `b` by now, and over a node store. -/
def WitnessView.ofBlob (s : PreState) (b : Bytes) (ns : Bytes) : WitnessView where
  offsets := (s.preStateMap.map fun m => m.forEachOffset b).getD []
  find := findEntry b s.preStateMap
  find_injective := findEntry_injective
  addrHashes := (List.range s.stateMeta.nAccounts).map fun i =>
    let e := addrHashEntry b s.stateMeta i
    ⟨FixedBytes.load 32 e.addrHash, FixedBytes.load 20 e.addr, e.entryOffset⟩
  findCode h := s.codeStoreMap.bind fun m =>
    (m.find b 0 (hashKey8 h.val) h.val).map fun r => (r.1 - m.data, flatKvPayload b r.1 r.2)
  codeAt offset len := match s.codeStoreMap with
    | none => []
    | some m => slice b (m.data + offset + kPayloadOffset) len
  findNode h :=
    if ns = [] then none
    else ((MphfMap.reset ns 0).find ns 0 (hashKey8 h.val) h.val).map fun r => flatKvPayload ns r.1 r.2

/-- The records of the blob, by the offset of their entry. -/
def recordsOf (s : PreState) (b : Bytes) (off : ℕ) : Account :=
  Account.read b (((s.preStateMap.map MphfMap.data).getD 0) + off + 8)

/-- The `DirectState` over a blob that `sanitize` left as `b`. -/
def DirectState.ofBlob (s : PreState) (b ns : Bytes) : DirectState where
  witness := WitnessView.ofBlob s b ns
  records := recordsOf s b

/-- `code_entry_by_hash_` of a sealed store: the index is searched from its start. -/
def findSealedCode (s : PreState) (o : SanitizedBlob) (h : Bytes32) : Option (ℕ × Bytes) :=
  s.codeStoreMap.bind fun m =>
    (o.sealedCodeIndex.find? fun e => kPayloadOffset ≤ e.bodyLen ∧ e.key = h.val).map fun e =>
      (e.bodyOff, flatKvPayload o.bytes (m.data + e.bodyOff) e.bodyLen)

/-- The views over a blob as a build's `sanitize` left it, sealed or not. -/
def WitnessView.ofStore (s : PreState) (o : SanitizedBlob) (ns : Bytes) : WitnessView :=
  { WitnessView.ofBlob s o.bytes ns with
    findCode :=
      if o.codeStoreSealed then findSealedCode s o else (WitnessView.ofBlob s o.bytes ns).findCode
    codeStoreSealed := o.codeStoreSealed }

/-- The `DirectState` over a blob as a build's `sanitize` left it. -/
def DirectState.ofStore (s : PreState) (o : SanitizedBlob) (ns : Bytes) : DirectState where
  witness := WitnessView.ofStore s o ns
  records := recordsOf s o.bytes

/-- `find_node_rlp`: a stored node is used only if its keccak is the hash it was asked for. -/
def WitnessView.findNodeRlp (keccak256 : Bytes → Bytes32) (w : WitnessView) (hash : Bytes32) :
    Option Bytes :=
  (w.findNode hash).filter fun payload => keccak256 payload = hash

end State
end Zilkworm
