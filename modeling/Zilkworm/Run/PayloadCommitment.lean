/-
# The payload a stateless run commits to

`run_sib` outputs the hash tree root of the request's raw bytes and executes the transactions
it decoded from them.  The two say the same as long as each raw transaction is the encoding of
what was decoded.  A legacy transaction is: its decoder refuses bytes behind the list.  A typed
one is decoded without its string wrapping, and that branch of `decode_transaction` never looks
at what is left, so bytes behind its list are committed to and not executed.
-/
import Zilkworm.Protocol.ListRoots
import Zilkworm.Run.StatelessSpec

namespace Zilkworm.Run

open List Lib Rlp Zilkworm.Types State Chain Protocol Execution Slib

/-- A serialized transaction that starts with a type byte. -/
def isRawTyped (raw : Bytes) : Bool := raw.head?.any fun b => 0 < b ∧ b < kEmptyStringCode

/-- What a decoded transaction of the payload is to its raw bytes. -/
def DecodedFrom (raw : Bytes) (t : Transaction) : Prop :=
  raw = t.encode false ++ trailingBytes raw ∧ (t.rlpEncoded ≠ [] → t.rlpEncoded = t.encode false) ∧
    (isRawTyped raw = false → trailingBytes raw = [])

theorem decodedFrom_of_decode {raw rest : Bytes} {t : Transaction}
    (h : decodeTransaction {} .none .prohibit raw = .ok (t, rest)) : DecodedFrom raw t := by
  obtain ⟨hraw, htail, hkind⟩ := decodeTransaction_unwrapped h
  refine ⟨by rw [htail]; exact hraw, ?_, ?_⟩
  · intro hne
    rcases hkind with ⟨-, -, hrlp⟩ | ⟨-, hrlp⟩
    · exact hrlp
    · exact absurd hrlp hne
  · intro huntyped
    rcases hkind with ⟨-, hrest, -⟩ | ⟨htype, -⟩
    · rw [htail, hrest]
    · -- a transaction with a type starts with its type byte
      exfalso
      cases raw with
      | nil => cases h
      | cons b bs =>
        have hb : ¬ (0 < b ∧ b < kEmptyStringCode) := by simpa [isRawTyped] using huntyped
        simp only [decodeTransaction, if_neg hb, bind_eq_ok, Prod.exists] at h
        obtain ⟨hd, view, hhd, h⟩ := h
        split at h
        case isTrue hl => exact htype (decodeLegacy_spec hhd hl h).1
        case isFalse hl => simp at h

theorem payloadTransactions_decoded {p : SlibPayload} {ts : List Transaction}
    (h : payloadTransactions p = some ts) : Forall₂ DecodedFrom p.transactions ts := by
  refine (mapM_eq_some.mp h).imp fun raw t hdec => ?_
  rcases hx : decodeTransaction {} .none .prohibit raw with e | ⟨t', rest⟩
  · rw [hx] at hdec
    cases hdec
  · rw [hx] at hdec
    obtain rfl := Option.some.inj hdec
    exact decodedFrom_of_decode hx

theorem slibPayloadBlock_spec {keccak256 sha256 : Bytes → Bytes32} {p : SlibPayload} {block : Block}
    (h : slibPayloadBlock keccak256 sha256 p = some block) :
    Forall₂ DecodedFrom p.transactions block.transactions ∧
      block.header.transactionsRoot =
        Trie.vectorRoot keccak256 (block.transactions.map (·.encode false)) := by
  unfold slibPayloadBlock at h
  obtain ⟨ts, hts, h⟩ := Option.bind_eq_some_iff.mp h
  obtain rfl := Option.some.inj h
  have hdec := payloadTransactions_decoded hts
  refine ⟨hdec, @computeTransactionRoot_eq keccak256 { transactions := ts, withdrawals := _ }
    fun t ht => ?_⟩
  obtain ⟨i, hi, rfl⟩ := getElem_of_mem ht
  have hlen := hdec.length_eq
  exact (hdec.get (by rw [hlen]; exact hi) hi).2.1

/-- Raw transactions are the encodings of the decoded ones exactly when nothing is left behind
any of them. -/
theorem encodings_eq_iff {raws : List Bytes} {ts : List Transaction}
    (h : Forall₂ DecodedFrom raws ts) :
    ts.map (·.encode false) = raws ↔ ∀ raw ∈ raws, trailingBytes raw = [] := by
  induction h with
  | nil => simp
  | cons hd hrest ih =>
    rename_i raw t raws ts
    have hhead : t.encode false = raw ↔ trailingBytes raw = [] := by
      constructor
      · intro heq
        have := hd.1
        rw [heq] at this
        exact self_eq_append_right.mp this
      · intro hnil
        have := hd.1
        rwa [hnil, append_nil, eq_comm] at this
    rw [map_cons, List.cons.injEq, hhead, ih, forall_mem_cons]

/-- **What a successful run executes and what it commits to.**  The executed transactions re-encode
to the raw ones, the executed transactions root is the index-keyed root of the raw ones, and no
raw transaction has bytes behind its item, if and only if no raw typed one has. -/
theorem runSib_payload_executed_iff (host : Host) (stale : UInt8) (blob : Bytes)
    (h : (runSib host stale blob).successfulValidation = true) :
    ∃ payload block, (runSib host stale blob).payload = some payload ∧
      (runSib host stale blob).block = some block ∧
      (runSib host stale blob).newPayloadRequestRoot = slibPayloadRoot host.sha256 payload ∧
      ((block.transactions.map (·.encode false) = payload.transactions ∧
        block.header.transactionsRoot = Trie.vectorRoot host.keccak256 payload.transactions ∧
        ∀ raw ∈ payload.transactions, trailingBytes raw = []) ↔
        ∀ raw ∈ payload.transactions, isRawTyped raw = true → trailingBytes raw = []) := by
  obtain ⟨dec, payload, block, parent, hacc⟩ := runSib_accepted h
  obtain ⟨hdec, hroot⟩ := slibPayloadBlock_spec hacc.built
  refine ⟨payload, block, ?_, ?_, ?_, ?_⟩
  · rw [hacc.run]
  · rw [hacc.run]
  · rw [hacc.run]
  constructor
  · rintro ⟨-, -, hnone⟩ raw hraw -
    exact hnone raw hraw
  · intro htyped
    have hnone : ∀ raw ∈ payload.transactions, trailingBytes raw = [] := by
      intro raw hraw
      by_cases ht : isRawTyped raw = true
      · exact htyped raw hraw ht
      · obtain ⟨i, hi, rfl⟩ := getElem_of_mem hraw
        have hi' : i < block.transactions.length := by rw [← hdec.length_eq]; exact hi
        exact (hdec.get hi hi').2.2 (by simpa using ht)
    have henc := (encodings_eq_iff hdec).mpr hnone
    exact ⟨henc, by rw [hroot, henc], hnone⟩

/-! ## A stateless input -/

namespace StatelessSample

/-- The sender of the one transaction, who also receives it. -/
def sender : Address := addressOfNat 0x7e5f4552091a69125d5dfcb7b8c2659029395bdf

/-- The fee recipient, whom the state does not hold. -/
def coinbase : Address := addressOfNat 0x2b5ad5c4795c026514f8317c7a215e218dccd6cf

/-- The four contracts that are called at the end of a block, each with the code `STOP`. -/
def requestContracts : List Address :=
  [addressOfNat 0x00000961ef480eb55e80d19ad83579a64c007002,
   addressOfNat 0x000064d678505ad48f8ccb093bc65613800e8282,
   addressOfNat 0x0000bbddc7ce488642fb579f8b00f3a590007251,
   addressOfNat 0x0000bff46984e3725691fa540a8c7589300d8282]

/-- The two contracts that are called at the start of a block, which the state does not hold. -/
def startContracts : List Address :=
  [addressOfNat 0x0000f90827f1c53a10cb7a02335b175320002935,
   addressOfNat 0x000f3df6d732807ef1319fb7b8bb8522d0beac02]

/-- Keccak-256 of the addresses. -/
def addressHashes : List (Address × Bytes32) :=
  (requestContracts ++ startContracts ++ [sender, coinbase]).zip
    [Bytes32.ofNat 0xdf86c581c7d7b44eecbb92fd9e5867945ec1acdc0ea5bbabda21d17dddf06473,
     Bytes32.ofNat 0x0a01b9910c37f14bab449440f49a72bd392357c74be0c6873d1c1576285dc4eb,
     Bytes32.ofNat 0x0d6aea581b220579a2b99819299dd32c7c28a420018ecb0bde93af007ad89a31,
     Bytes32.ofNat 0xd7a5e2d38531646bec92066002c6f651e563299dc20f8fc84de89d14affb6996,
     Bytes32.ofNat 0x6c9d57be05dd69371c4dd2e871bce6e9f4124236825bb612ee18a45e5675be51,
     Bytes32.ofNat 0x37d65eaa92c6bc4c13a5ec45527f0c18ea8932588728769ec7aecfe6d9f32e42,
     Bytes32.ofNat 0x3322f33946a3c503c916c8fc29768a547f01fa665e1eb22f9f66cf7e5a262012,
     Bytes32.ofNat 0x94a6fc29a44456b36232638a7042431c9c91b910df1c52187179085fac1560e9]

/-- Keccak-256 of the code `STOP`. -/
def stopHash : Bytes32 :=
  Bytes32.ofNat 0xbc36789e7a1e281436464229828f817d6612f7b477d66591ff96a9e064bcc98a

/-- The hash of an address from the table. -/
def hashOf (a : Address) : Bytes32 := ((addressHashes.find? (·.1 = a)).map (·.2)).getD zeroBytes32

/-- An account leaf, `skip` nibbles below the root. -/
def accountLeaf (skip : ℕ) (a : Address) (nonce : U64) (balance : U256) (codeHash : Bytes32) : Bytes :=
  Trie.encodeLeaf ((Trie.nibblesOfKey (hashOf a)).drop skip)
    (Witness.encodeAccountInto nonce balance codeHash.val kEmptyRoot.val).1

/-- A branch of the given children. -/
def branch (children : List (Fin 16 × Bytes32)) : Bytes :=
  Trie.encodeBranch (fun _ => 0) { child := fun i =>
    ((children.find? (·.1 = i)).map fun c => Trie.ChildRef.ref c.2.val).getD .empty }

/-- The leaves of the request contracts, by the hash they are stored under. -/
def contractLeaves : List (Bytes × Bytes32) :=
  (requestContracts.map fun a => accountLeaf 2 a 1 0 stopHash).zip
    [Bytes32.ofNat 0x2eec82524e033a7b599897d5f858a912e08cc2cda00319d12de93cf11f383e87,
     Bytes32.ofNat 0xa2a0eee037f01da9bbba868a474fafd594a1cab56c2229da7058c07eee213b3a,
     Bytes32.ofNat 0xca3eeae255c932ae54a15bfb308297d46a3a9e2a15be2b05a1389b15458864af,
     Bytes32.ofNat 0x60df89f666499384e02907aa033d36289af4a2b30e88236bf53d9fede1d272c6]

/-- The sender's leaf before and after the block. -/
def senderLeaf : Bytes × Bytes32 :=
  (accountLeaf 1 sender 0 1000000000000000000 kEmptyHash,
   Bytes32.ofNat 0x5148da20fc6e9dc481ba950a6306c4460d9cbe239b3ba0351ffae42445b6a686)

@[inherit_doc senderLeaf]
def senderLeafAfter : Bytes × Bytes32 :=
  (accountLeaf 1 sender 1 999999999999916000 kEmptyHash,
   Bytes32.ofNat 0x720864d65dd879ed2ebe5e545ea164dee24112ba9155e184fd6ceae977501b59)

/-- The branch of the contracts whose hashes start with nibble 0. -/
def branch0 : Bytes × Bytes32 :=
  (branch [(10, (contractLeaves.getD 1 ([], zeroBytes32)).2),
    (13, (contractLeaves.getD 2 ([], zeroBytes32)).2)],
   Bytes32.ofNat 0x0f1211c0c76c37fc104b0903d46df17db45953124d36142744e1066163320143)

/-- The branch of the contracts whose hashes start with nibble 13. -/
def branch13 : Bytes × Bytes32 :=
  (branch [(7, (contractLeaves.getD 3 ([], zeroBytes32)).2),
    (15, (contractLeaves.getD 0 ([], zeroBytes32)).2)],
   Bytes32.ofNat 0x3dc7becd9b24c4a4dcb93bff71f9f2da2c8615455d25d4ac4a479fcda9ac142b)

/-- The root node over the sender's leaf. -/
def rootNode (leaf : Bytes32) : Bytes := branch [(0, branch0.2), (3, leaf), (13, branch13.2)]

/-- The state root before the block. -/
def preRoot : Bytes32 :=
  Bytes32.ofNat 0x72336b43872ac6f997cb67ce9ea77a28163acd2e3f916635e37f4ae512fb8427

/-- The state root after the block. -/
def postRoot : Bytes32 :=
  Bytes32.ofNat 0x0a23f5b09f05514adf3e60885456b28782641f5968400072d4c9bedb14a9e4fd

/-- SHA-256 of no bytes, the hash of no requests. -/
def noRequests : Bytes32 :=
  Bytes32.ofNat 0xe3b0c44298fc1c149afbf4c8996fb92427ae41e4649b934ca495991b7852b855

/-- The signed transaction: no value to the sender itself, for 12000 gas at 7 wei. -/
def transaction : Transaction where
  type := .dynamicFee
  chainId := some 1
  maxFeePerGas := 7
  gasLimit := 12000
  to_ := some sender
  oddYParity := true
  r := 0xf01d6b9018ab421dd410404cb869072065522bf85734008f105cf385a023a80f
  s := 0x4dab4142a72190c391dc03aa246d7637797cb349218c3b385ba07a61ac46c6ce

/-- The block access list: the contracts and the fee recipient untouched, the sender's balance and
nonce after the transaction. -/
def accessList : Bytes :=
  let entry (a : Address) (balances nonces : Bytes) : Bytes :=
    encodeList (encodeFixed a ++ [0xc0, 0xc0] ++ balances ++ nonces ++ [0xc0])
  encodeList ((requestContracts ++ [coinbase]).flatMap (fun a => entry a [0xc0] [0xc0]) ++
    entry sender
      (encodeList (encodeList (encodeUint (1 : U64) ++ encodeUint (999999999999916000 : U256))))
      (encodeList (encodeList (encodeUint (1 : U64) ++ encodeUint (1 : U64)))))

/-- Keccak-256 of the block access list. -/
def accessListHash : Bytes32 :=
  Bytes32.ofNat 0x561451ff95b97d708c3b68433b794b0b66f961a08776778a039338c38972c2af

/-- The parent header. -/
def parent : BlockHeader where
  ommersHash := kEmptyListHash
  stateRoot := preRoot
  transactionsRoot := kEmptyRoot
  receiptsRoot := kEmptyRoot
  gasLimit := 30000000
  baseFeePerGas := some 7
  withdrawalsRoot := some kEmptyRoot
  blobGasUsed := some 0
  excessBlobGas := some 0
  parentBeaconBlockRoot := some zeroBytes32
  requestsHash := some noRequests
  blockAccessListHash := some kEmptyListHash
  slotNumber := some 0

/-- Keccak-256 of the parent header. -/
def parentHash : Bytes32 :=
  Bytes32.ofNat 0xa3c31637fa4a46967c02f97991c68be847def5537c3b3f324686704b058e2cfa

/-- The header of the block. -/
def header : BlockHeader :=
  { parent with
    parentHash := parentHash
    beneficiary := coinbase
    stateRoot := postRoot
    transactionsRoot :=
      Bytes32.ofNat 0xeae09bb7fbf1e96c7b0d6fdd97a2312064a52ebd8c99603200508e232dbc48ee
    receiptsRoot :=
      Bytes32.ofNat 0x1c28b848d6ca8701ac373358e7e9451ec8931fc2f0234f9bdf6a5c6ad9470be9
    number := 1
    gasUsed := 12000
    timestamp := 12
    blockAccessListHash := some accessListHash
    slotNumber := some 1 }

/-- Keccak-256 of the header. -/
def blockHash : Bytes32 :=
  Bytes32.ofNat 0x807941e4ce5bd2d1194647370a986b0fcb62439d604cfff1a3354c831605f51a

/-- The receipt of the transaction. -/
def receipt : Receipt where
  type := .dynamicFee
  success := true
  cumulativeGasUsed := 12000
  bloom := FixedBytes.zero 256
  logs := []

/-- The strings that are hashed in the run, each with its keccak-256. -/
def hashes : List (Bytes × Bytes32) :=
  addressHashes.map (fun e => (e.1.val, e.2)) ++ contractLeaves ++
    [([0], stopHash), senderLeaf, senderLeafAfter, branch0, branch13, (rootNode senderLeaf.2, preRoot),
     (rootNode senderLeafAfter.2, postRoot), (accessList, accessListHash), (parent.encode, parentHash),
     (header.encode, blockHash),
     (Trie.leafNodeRlp [8, 0] (transaction.encode false), header.transactionsRoot),
     (Trie.leafNodeRlp [8, 0] receipt.encode, header.receiptsRoot)]

/-- Keccak-256 on the strings that are hashed in the run. -/
def keccak256 (b : Bytes) : Bytes32 := ((hashes.find? (·.1 = b)).map (·.2)).getD zeroBytes32

/-- Reads the code of some accounts. -/
def readCodes {α : Type} (result : α) : List Address → Reads α
  | [] => .done result
  | a :: as => .getAccountCode a fun _ => readCodes result as

/-- The EVM on this block: the contracts that are called have no code or stop, and the transaction
is a transfer to its sender that pays for its gas. -/
def host : Host where
  __ := Host.idle keccak256
  sha256 b := if b = [] then noRequests else zeroBytes32
  sender _ := some sender
  transition _ t sender _ _ := .getAccount sender fun acc => .getAccount coinbase fun _ =>
    .done {
      gasUsed := t.gasLimit
      success := true
      logs := []
      stateDiff := { modifiedAccounts := (acc.toList.map fun a =>
        { addr := sender, nonce := a.nonce + 1
          balance := a.balance - t.gasLimit.setWidth 256 * t.maxFeePerGas }) }
      blockGasUsed := t.gasLimit.toNat }
  systemCallBlockStart _ _ := readCodes {} startContracts
  systemCallBlockEnd _ _ := readCodes (some ({}, [])) requestContracts
  balHash _ := accessListHash

/-- A list of byte strings as SSZ has it. -/
def byteLists (items : List Bytes) : Bytes :=
  ((range items.length).flatMap fun i =>
    toLe 4 (4 * items.length + ((items.take i).map List.length).sum)) ++ items.flatten

/-- The execution payload over the given raw transactions. -/
def payload (transactions : List Bytes) : Bytes :=
  let h := header
  let txs := byteLists transactions
  h.parentHash.val ++ h.beneficiary.val ++ h.stateRoot.val ++ h.receiptsRoot.val ++ h.logsBloom.val ++
    h.prevRandao.val ++ toLe 8 h.number.toNat ++ toLe 8 h.gasLimit.toNat ++ toLe 8 h.gasUsed.toNat ++
    toLe 8 h.timestamp.toNat ++ toLe 4 540 ++ toLe 32 7 ++ blockHash.val ++ toLe 4 540 ++
    toLe 4 (540 + txs.length) ++ toLe 8 0 ++ toLe 8 0 ++ toLe 4 (540 + txs.length) ++ toLe 8 1 ++
    txs ++ accessList

/-- The request: the payload, no versioned hashes, the beacon root and no execution requests. -/
def request (transactions : List Bytes) : Bytes :=
  let p := payload transactions
  toLe 4 44 ++ toLe 4 (44 + p.length) ++ zeroBytes32.val ++ toLe 4 (44 + p.length) ++ p ++
    (replicate 5 (toLe 4 20)).flatten

/-- The witness: every node of the state, the code and the parent header. -/
def witness : Bytes :=
  let state := byteLists ((rootNode senderLeaf.2, preRoot) :: branch0 :: branch13 :: senderLeaf ::
    contractLeaves |>.map (·.1))
  let codes := byteLists [[0]]
  toLe 4 12 ++ toLe 4 (12 + state.length) ++ toLe 4 (12 + state.length + codes.length) ++ state ++
    codes ++ byteLists [parent.encode]

/-- The stateless input over the given raw transactions. -/
def input (transactions : List Bytes) : Bytes :=
  let r := request transactions
  [0x15, 0x01] ++ toLe 4 16 ++ toLe 4 (16 + r.length) ++ toLe 8 1 ++ r ++ witness

/-- The raw transaction. -/
def raw : Bytes := transaction.encode false

end StatelessSample

/-- The input with the raw transaction alone is accepted, and what runs is what is committed to. -/
theorem runSib_payload_executed :
    ∃ payload block,
      (runSib StatelessSample.host 0 (StatelessSample.input [StatelessSample.raw])).payload =
        some payload ∧
      (runSib StatelessSample.host 0 (StatelessSample.input [StatelessSample.raw])).block = some block ∧
      payload.transactions = [StatelessSample.raw] ∧
      block.transactions.map (·.encode false) = payload.transactions := by
  have hrun : (runSib StatelessSample.host 0
        (StatelessSample.input [StatelessSample.raw])).successfulValidation =
        true ∧
      (runSib StatelessSample.host 0 (StatelessSample.input [StatelessSample.raw])).payload.map
        (·.transactions) = some [StatelessSample.raw] := by decide +kernel
  obtain ⟨payload, block, hp, hb, -, hiff⟩ := runSib_payload_executed_iff StatelessSample.host 0
    (StatelessSample.input [StatelessSample.raw]) hrun.1
  have htx : payload.transactions = [StatelessSample.raw] := by
    have := hrun.2
    rw [hp] at this
    exact Option.some.inj this
  refine ⟨payload, block, hp, hb, htx, (hiff.mpr ?_).1⟩
  rw [htx]
  decide +kernel

/-- **A byte behind a typed transaction is committed to and not executed.** -/
theorem runSib_trailing_byte_accepted :
    (runSib StatelessSample.host 0
      (StatelessSample.input [StatelessSample.raw ++ [0xff]])).successfulValidation =
      true ∧
    (runSib StatelessSample.host 0 (StatelessSample.input [StatelessSample.raw ++ [0xff]])).payload.map
      (·.transactions) = some [StatelessSample.raw ++ [0xff]] ∧
    (runSib StatelessSample.host 0 (StatelessSample.input [StatelessSample.raw ++ [0xff]])).block.map
      (fun b => b.transactions.map (·.encode false)) = some [StatelessSample.raw] ∧
    trailingBytes (StatelessSample.raw ++ [0xff]) = [0xff] := by
  decide +kernel

end Zilkworm.Run
