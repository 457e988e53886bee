/-
# Gas accounting of a block

`execution/processor.cpp`: what `execute_block` subtracts and adds while it runs the transactions
of a block.  The bounds come from three places.  `validate_block_header` keeps the gas limit of
the block below the sign bit, `pre_validate_block_body` keeps the intrinsic and the floor cost of
every transaction below its gas limit, and before each transaction the block has to have room for
the gas limit: in one sum before Amsterdam, in each of the two dimensions from Amsterdam on.

The EVM is outside the repository; what is asked of it (`EvmGas`) is that a transaction whose
properties are in their bounds uses no more than its gas limit.
-/
import Zilkworm.Protocol.GasWidths
import Zilkworm.Execution.Invariant
import Zilkworm.State.DirectBackend

namespace Zilkworm.Execution

open List Lib Rlp Zilkworm.Types State Chain Protocol

/-- The properties handed to the EVM are in their bounds: no limit is negative, the two limits share
the gas limit and the floor is below it. -/
structure PropertiesBounds (t : Transaction) (props : TransactionProperties) : Prop where
  execution : 0 ≤ props.executionGasLimit
  state : 0 ≤ props.stateGasLimit
  together : props.executionGasLimit + props.stateGasLimit ≤ t.gasLimit.toNat
  floor : props.minGasCost ≤ t.gasLimit.toNat

/-- The gas a receipt of the EVM may show. -/
structure ReceiptBounds (rev : Revision) (t : Transaction) (r : TransactionReceipt) : Prop where
  gasUsed : r.gasUsed.toNat ≤ t.gasLimit.toNat
  state : .amsterdam ≤ rev → 0 ≤ r.stateGasUsed ∧ r.stateGasUsed ≤ t.gasLimit.toNat
  regular : .amsterdam ≤ rev → 0 ≤ r.blockGasUsed - r.stateGasUsed ∧
    r.blockGasUsed - r.stateGasUsed ≤ min (t.gasLimit.toNat : ℤ) (2 ^ 24)

/-- `TransactionProperties` with the widths of the source, three `int64_t`. -/
structure PropertyWords where
  executionGasLimit : U64
  stateGasLimit : U64
  minGasCost : U64

/-- The properties `execute_transaction` computes, in machine words. -/
def propertyWords (rev : Revision) (t : Transaction) (sender : Option Address) : PropertyWords :=
  let nonZeroBytes := BitVec.ofNat 64 (countNonzeroBytes t.data)
  if .amsterdam ≤ rev then
    let cost := Widths.amsterdamTxGasCost t sender nonZeroBytes
    let aboveCap := t.gasLimit - 0x1000000
    let stateGasLimit := if aboveCap.toInt < 0 then 0 else aboveCap
    { executionGasLimit := t.gasLimit - cost.regular - stateGasLimit
      stateGasLimit := stateGasLimit
      minGasCost := cost.floor }
  else
    { executionGasLimit := t.gasLimit - (Widths.intrinsicGas t rev nonZeroBytes).setWidth 64
      stateGasLimit := 0
      minGasCost := if .prague ≤ rev then Widths.floorCost t nonZeroBytes else 0 }

/-- The words hold the numbers. -/
structure PropertyWords.Hold (w : PropertyWords) (props : TransactionProperties) : Prop where
  execution : w.executionGasLimit.toInt = props.executionGasLimit
  state : w.stateGasLimit.toInt = props.stateGasLimit
  floor : w.minGasCost.toInt = props.minGasCost

theorem not_amsterdam_le_iff {rev : Revision} : ¬ Revision.amsterdam ≤ rev ↔ rev < .amsterdam :=
  Nat.not_le

/-- What `pre_validate_common_base` keeps below the gas limit. -/
theorem preValidateCommonBase_costs {t : Transaction} {rev : Revision} {chainId : U64}
    {sender : Option Address} {n : ℕ} (h : preValidateCommonBase t rev chainId sender n = .ok ()) :
    (.amsterdam ≤ rev → (amsterdamTxGasCost t sender n).regular ≤ 2 ^ 24 ∧
      (amsterdamTxGasCost t sender n).regular ≤ t.gasLimit.toNat) ∧
    (rev < .amsterdam → intrinsicGas t rev n ≤ t.gasLimit.toNat) := by
  unfold preValidateCommonBase baseGas at h
  simp only [bind_eq_ok, rejectIf_eq_ok] at h
  obtain ⟨-, -, -, -, -, -, g0, hbase, -, hg0, -⟩ := h
  constructor
  · intro hrev
    rw [if_pos hrev, bind_eq_ok] at hbase
    simp only [rejectIf_eq_ok, pure_eq_ok] at hbase
    obtain ⟨-, hmax, rfl⟩ := hbase
    have := le_max_left (amsterdamTxGasCost t sender n).regular (amsterdamTxGasCost t sender n).floor
    omega
  · intro hrev
    rw [if_neg (not_amsterdam_le_iff.mpr hrev)] at hbase
    cases hbase
    omega

/-- What `pre_validate_common_forks` keeps below the gas limit. -/
theorem preValidateCommonForks_floor {t : Transaction} {rev : Revision} {blobGasPrice : Option U256}
    {sender : Option Address} {n : ℕ}
    (h : preValidateCommonForks t rev blobGasPrice sender n = .ok ()) :
    .prague ≤ rev →
      (if .amsterdam ≤ rev then (amsterdamTxGasCost t sender n).floor else floorCost t n) ≤
        t.gasLimit.toNat := by
  intro hrev
  unfold preValidateCommonForks at h
  simp only [if_pos hrev, bind_eq_ok] at h
  obtain ⟨-, -, h⟩ := h
  have hprague : preValidatePrague t rev sender n = .ok () := by
    -- the rules for blobs come first, for a transaction that has them
    split at h
    · rw [bind_eq_ok] at h
      obtain ⟨-, -, h⟩ := h
      rw [bind_eq_ok] at h
      exact h.choose_spec.1
    · rw [bind_eq_ok] at h
      exact h.choose_spec.1
  unfold preValidatePrague at hprague
  simp only [bind_eq_ok, rejectIf_eq_ok] at hprague
  obtain ⟨-, -, -, -, hfloor⟩ := hprague
  exact Nat.not_lt.mp hfloor

/-- **The properties of a pre-validated transaction are in their bounds**, once the block has room
for its gas limit. -/
theorem transactionProperties_bounds {t : Transaction} {rev : Revision} {chainId : U64}
    {baseFeePerGas blobGasPrice : Option U256} {sender : Option Address}
    (h : preValidateTransaction t rev chainId baseFeePerGas blobGasPrice sender = .ok ())
    (hlimit : t.gasLimit.toNat < 2 ^ 63) :
    PropertiesBounds t (transactionProperties rev t sender) := by
  unfold preValidateTransaction at h
  simp only [bind_eq_ok] at h
  obtain ⟨_, hbase, -, -, -, -, -, -, hforks⟩ := h
  obtain ⟨hams, hpre⟩ := preValidateCommonBase_costs hbase
  have hfloor := preValidateCommonForks_floor hforks
  have hint : t.gasLimit.toInt = t.gasLimit.toNat := BitVec.toInt_eq_toNat_of_lt (by omega)
  unfold transactionProperties
  dsimp only
  by_cases hrev : Revision.amsterdam ≤ rev
  · obtain ⟨hcap, hregular⟩ := hams hrev
    have hprague : Revision.prague ≤ rev :=
      Nat.le_trans (show Revision.prague.ctorIdx ≤ Revision.amsterdam.ctorIdx by decide) hrev
    have hf := hfloor hprague
    rw [if_pos hrev] at hf ⊢
    constructor <;> dsimp only <;> omega
  · have hregular := hpre (not_amsterdam_le_iff.mp hrev)
    rw [if_neg hrev]
    set g0 := intrinsicGas t rev (countNonzeroBytes t.data)
    have hsub : (t.gasLimit - BitVec.ofNat 64 g0).toInt = t.gasLimit.toNat - g0 := by
      have hnat : (t.gasLimit - BitVec.ofNat 64 g0).toNat = t.gasLimit.toNat - g0 := by
        rw [BitVec.toNat_sub_of_le
          (by rw [BitVec.le_def, BitVec.toNat_ofNat, Nat.mod_eq_of_lt] <;> omega),
          BitVec.toNat_ofNat, Nat.mod_eq_of_lt (by omega)]
      rw [BitVec.toInt_eq_toNat_of_lt (by omega), hnat]
      omega
    constructor
    · show 0 ≤ (t.gasLimit - BitVec.ofNat 64 g0).toInt
      omega
    · exact le_rfl
    · show (t.gasLimit - BitVec.ofNat 64 g0).toInt + 0 ≤ _
      omega
    · show (if Revision.prague ≤ rev then (floorCost t (countNonzeroBytes t.data) : ℤ) else 0) ≤ _
      split
      · rename_i hprague
        have hf := hfloor hprague
        rw [if_neg hrev] at hf
        omega
      · omega

/-- A difference of words below the sign bit, read as a signed word. -/
theorem toInt_sub_of_bounds {a b : U64} (hlow : -(2 ^ 63) ≤ a.toInt - b.toInt)
    (hhigh : a.toInt - b.toInt < 2 ^ 63) : (a - b).toInt = a.toInt - b.toInt := by
  rw [BitVec.toInt_sub]
  exact Int.bmod_eq_of_le (by omega) (by omega)

/-- **The properties of a transaction that fits in memory are computed without wrapping.** -/
theorem propertyWords_hold {rev : Revision} {t : Transaction} {sender : Option Address}
    (hfits : FitsMemory t) (hlimit : t.gasLimit.toNat < 2 ^ 63)
    (hbounds : PropertiesBounds t (transactionProperties rev t sender)) :
    (propertyWords rev t sender).Hold (transactionProperties rev t sender) := by
  have hn : countNonzeroBytes t.data ≤ t.data.length := length_filter_le _ _
  have hint : t.gasLimit.toInt = t.gasLimit.toNat := BitVec.toInt_eq_toNat_of_lt (by omega)
  obtain ⟨hexec, hstate, htogether, hfloor⟩ := hbounds
  unfold propertyWords transactionProperties at *
  dsimp only at *
  by_cases hrev : Revision.amsterdam ≤ rev
  · simp only [if_pos hrev] at *
    obtain ⟨hregular, hcostFloor⟩ := Widths.amsterdam_toNat hfits hn sender
    set cost := Widths.amsterdamTxGasCost t sender (BitVec.ofNat 64 (countNonzeroBytes t.data))
    set natCost := amsterdamTxGasCost t sender (countNonzeroBytes t.data)
    have hcap : (t.gasLimit - 0x1000000).toInt = t.gasLimit.toInt - 0x1000000 :=
      toInt_sub_of_bounds (by rw [hint]; show _ ≤ _ - (0x1000000 : ℤ); omega)
        (by rw [hint]; show _ - (0x1000000 : ℤ) < _; omega)
    have hs : (if (t.gasLimit - 0x1000000).toInt < 0 then (0 : U64) else t.gasLimit - 0x1000000).toInt =
        max (t.gasLimit.toInt - 0x1000000) 0 := by
      split
      · rw [max_eq_right (by omega)]
        rfl
      · rw [hcap, max_eq_left (by omega)]
    set w := if (t.gasLimit - 0x1000000).toInt < 0 then (0 : U64) else t.gasLimit - 0x1000000
    have h1 : (t.gasLimit - cost.regular).toInt = t.gasLimit.toInt - natCost.regular := by
      rw [toInt_sub_of_bounds (by rw [hregular]; omega) (by rw [hregular]; omega), hregular]
    refine ⟨?_, hs, hcostFloor⟩
    rw [toInt_sub_of_bounds (by rw [h1, hs]; omega) (by rw [h1, hs]; omega), h1, hs]
  · simp only [if_neg hrev] at *
    have hgas := Widths.intrinsicGas_toNat hfits hn rev
    have hfloorNat := Widths.floorCost_toNat hfits hn
    set g := Widths.intrinsicGas t rev (BitVec.ofNat 64 (countNonzeroBytes t.data))
    have hg : g.setWidth 64 = BitVec.ofNat 64 (intrinsicGas t rev (countNonzeroBytes t.data)) := by
      rw [← BitVec.toNat_inj, BitVec.toNat_setWidth, hgas, BitVec.toNat_ofNat]
    refine ⟨?_, rfl, ?_⟩
    · show (t.gasLimit - g.setWidth 64).toInt = _
      rw [hg]
    · split
      · rename_i hprague
        rw [if_pos hprague] at hfloor
        show (Widths.floorCost t _).toInt = _
        rw [BitVec.toInt_eq_toNat_of_lt (by omega), hfloorNat]
      · rfl

/-- A validated header has a gas limit below the sign bit. -/
theorem gasLimit_lt_of_validated {keccak256 : Bytes → Bytes32} {σ : Type}
    [ActiveState keccak256 σ] {rs : RuleSet} {config : ChainConfig} {h : BlockHeader} {s : σ}
    (hv : rs.validateBlockHeader keccak256 config h s = .ok ()) : h.gasLimit.toNat < 2 ^ 63 := by
  unfold RuleSet.validateBlockHeader at hv
  simp only [bind_eq_ok, rejectIf_eq_ok] at hv
  obtain ⟨-, -, -, hlimit, -⟩ := hv
  have hle : h.gasLimit.toNat ≤ kMaxGasLimit.toNat := by
    rw [← BitVec.le_def]
    exact BitVec.not_lt.mp fun hlt => hlimit (Or.inr hlt)
  have hmax : kMaxGasLimit.toNat < 2 ^ 63 := by decide
  omega

/-! ## The counters -/

/-- The three counters of the processor. -/
structure BlockGas where
  cumulative : U64
  regular : ℤ
  state : ℤ
  deriving DecidableEq

/-- The counters are within the gas limit of the block: one before Amsterdam, where the others are
not used, and the other two from Amsterdam on. -/
structure GasWithin (rev : Revision) (header : BlockHeader) (g : BlockGas) : Prop where
  cumulative : rev < .amsterdam → g.cumulative.toNat ≤ header.gasLimit.toNat
  unused : rev < .amsterdam → g.regular = 0 ∧ g.state = 0
  regular : .amsterdam ≤ rev → 0 ≤ g.regular ∧ g.regular ≤ header.gasLimit.toNat
  state : .amsterdam ≤ rev → 0 ≤ g.state ∧ g.state ≤ header.gasLimit.toNat

/-- What `available_gas` takes off the gas limit. -/
def BlockGas.consumed (g : BlockGas) : ℤ :=
  if g.regular ≠ 0 ∨ g.state ≠ 0 then max g.regular g.state else g.cumulative.toNat

section

variable (host : Host) {σ : Type}

/-- The counters of a processor. -/
def Progress.gas (p : Progress host σ) : BlockGas :=
  ⟨p.cumulativeGasUsed, p.sumRegularBlockGas, p.sumStateBlockGas⟩

/-- Where the counters are within the gas limit, `available_gas` is the rest of it. -/
theorem availableGas_toNat {header : BlockHeader} {p : Progress host σ}
    (hgas : header.gasLimit.toNat < 2 ^ 63) (hnonneg : 0 ≤ p.gas.consumed)
    (hle : p.gas.consumed ≤ header.gasLimit.toNat) :
    ((availableGas host header p).toNat : ℤ) = header.gasLimit.toNat - p.gas.consumed := by
  unfold availableGas
  unfold BlockGas.consumed Progress.gas at hnonneg hle ⊢
  dsimp only at hnonneg hle ⊢
  split at hle
  · rename_i hused
    rw [if_pos hused] at hnonneg ⊢
    rw [if_pos hused]
    set m := max p.sumRegularBlockGas p.sumStateBlockGas
    obtain ⟨k, hk⟩ := Int.eq_ofNat_of_zero_le hnonneg
    have hword : (BitVec.ofInt 64 m).toNat = k := by
      rw [hk, BitVec.ofInt_natCast, BitVec.toNat_ofNat]
      exact Nat.mod_eq_of_lt (by omega)
    rw [BitVec.toNat_sub_of_le (by rw [BitVec.le_def, hword]; omega), hword]
    omega
  · rename_i hused
    rw [if_neg hused] at hnonneg ⊢
    rw [if_neg hused, BitVec.toNat_sub_of_le (by rw [BitVec.le_def]; omega)]
    omega

variable [ActiveState host.keccak256 σ] (config : ChainConfig) (block : Block)

/-- The receipt of a transaction that runs after `p`. -/
def receiptOf (t : Transaction) (sender : Address) (s : σ) : TransactionReceipt :=
  let rev := config.revisionAt block.header
  ((host.transition (blockInfo config block) t sender rev
    (transactionProperties rev t (some sender))).run host.keccak256 block.header
      (noteAuthorizations host t s)).1

/-- **What is asked of the EVM**: a transaction whose properties are in their bounds has a receipt
in its bounds. -/
def EvmGas (σ : Type) [ActiveState host.keccak256 σ] (config : ChainConfig) (block : Block) : Prop :=
  let rev := config.revisionAt block.header
  ∀ (t : Transaction) (sender : Address) (s : σ),
    PropertiesBounds t (transactionProperties rev t (some sender)) →
      ReceiptBounds rev t (receiptOf host config block t sender s)

/-- A transaction that uses gas uses some of a dimension of Amsterdam. -/
def ChargesBlockGas (σ : Type) [ActiveState host.keccak256 σ] (config : ChainConfig) (block : Block) :
    Prop :=
  ∀ (t : Transaction) (sender : Address) (s : σ),
    (receiptOf host config block t sender s).blockGasUsed = 0 →
      (receiptOf host config block t sender s).gasUsed = 0

@[simp] theorem gas_recordDiff (rev : Revision) (header : BlockHeader) (index : ℕ) (diff : StateDiff)
    (p : Progress host σ) : (recordDiff host rev header index diff p).gas = p.gas := by
  unfold recordDiff
  split <;> rfl

@[simp] theorem gas_applyDiff (diff : StateDiff) (p : Progress host σ) :
    (applyDiff host diff p).gas = p.gas := rfl

/-- `execute_transaction` adds what the receipt shows. -/
theorem gas_executeTransaction (t : Transaction) (sender : Address) (p : Progress host σ) :
    (executeTransaction host config block t sender p).gas =
      { cumulative := p.cumulativeGasUsed + (receiptOf host config block t sender p.state).gasUsed
        regular := if .amsterdam ≤ config.revisionAt block.header then
            p.sumRegularBlockGas + ((receiptOf host config block t sender p.state).blockGasUsed -
              (receiptOf host config block t sender p.state).stateGasUsed)
          else p.sumRegularBlockGas
        state := if .amsterdam ≤ config.revisionAt block.header then
            p.sumStateBlockGas + (receiptOf host config block t sender p.state).stateGasUsed
          else p.sumStateBlockGas } := by
  unfold executeTransaction
  dsimp only
  rw [gas_applyDiff]
  show (recordDiff host _ _ _ _ _).gas = _
  rw [gas_recordDiff]
  split <;> rfl

/-- The transactions `execute_block` runs, each with the processor as it is before it runs. -/
def ranTransactions : List Transaction → Progress host σ → List (Transaction × Progress host σ)
  | [], _ => []
  | t :: ts, p =>
    let rev := config.revisionAt block.header
    if .amsterdam ≤ rev ∧ exceedsBlockGas host block.header t p then []
    else
      let gasAvailable :=
        if .amsterdam ≤ rev then block.header.gasLimit else availableGas host block.header p
      match validateTransaction host.keccak256 t (host.sender t) gasAvailable p.state with
      | (.error _, _) => []
      | (.ok (), s) =>
        (t, { p with state := s }) :: ranTransactions ts
          (executeTransaction host config block t ((host.sender t).getD zeroAddress)
            { p with state := s })

/-- A valid transaction has a sender, and its gas limit is available. -/
theorem validateTransaction_ok {keccak256 : Bytes → Bytes32} {σ : Type} [ActiveState keccak256 σ]
    {t : Transaction} {sender : Option Address} {gas : U64} {s : σ}
    (h : (validateTransaction keccak256 t sender gas s).1 = .ok ()) :
    (∃ a, sender = some a) ∧ t.gasLimit.toNat ≤ gas.toNat := by
  cases sender with
  | none => cases h
  | some a =>
    refine ⟨⟨a, rfl⟩, ?_⟩
    unfold validateTransaction at h
    by_contra hlt
    have hgas : gas < t.gasLimit := Nat.not_le.mp hlt
    simp only [if_pos hgas] at h
    split_ifs at h

/-- The counters as a run of transactions keeps them. -/
structure GasInv (p : Progress host σ) : Prop where
  within : GasWithin (config.revisionAt block.header) block.header p.gas
  idle : ChargesBlockGas host σ config block →
    .amsterdam ≤ config.revisionAt block.header →
    p.gas.regular = 0 → p.gas.state = 0 → p.gas.cumulative = 0

/-- **The counters and properties at one transaction.** -/
structure GasSound (t : Transaction) (p : Progress host σ) : Prop where
  properties : PropertiesBounds t (transactionProperties
    (config.revisionAt block.header) t (host.sender t))
  within : GasWithin (config.revisionAt block.header) block.header p.gas
  /-- From Amsterdam on `execute_block` does not ask for the available gas; it is the rest of the
  gas limit there too once one of the two counters has moved, and all along if every transaction
  moves one. -/
  available : config.revisionAt block.header < .amsterdam ∨
      p.gas.regular ≠ 0 ∨ p.gas.state ≠ 0 ∨ ChargesBlockGas host σ config block →
    0 ≤ p.gas.consumed ∧ p.gas.consumed ≤ block.header.gasLimit.toNat ∧
      ((availableGas host block.header p).toNat : ℤ) = block.header.gasLimit.toNat - p.gas.consumed
  /-- The machine words of a transaction that fits in memory hold the properties. -/
  words : FitsMemory t → (propertyWords (config.revisionAt block.header) t
    (host.sender t)).Hold (transactionProperties
      (config.revisionAt block.header) t (host.sender t))

variable {config block} {p : Progress host σ}

/-- Counters in their bounds make the available gas the rest of the limit. -/
theorem GasInv.available (h : GasInv host config block p) (hgas : block.header.gasLimit.toNat < 2 ^ 63)
    (hcase : config.revisionAt block.header < .amsterdam ∨
      p.gas.regular ≠ 0 ∨ p.gas.state ≠ 0 ∨ ChargesBlockGas host σ config block) :
    0 ≤ p.gas.consumed ∧ p.gas.consumed ≤ block.header.gasLimit.toNat ∧
      ((availableGas host block.header p).toNat : ℤ) = block.header.gasLimit.toNat - p.gas.consumed := by
  obtain ⟨⟨hcum, hunused, hreg, hstate⟩, hidle⟩ := h
  have hbounds : 0 ≤ p.gas.consumed ∧ p.gas.consumed ≤ block.header.gasLimit.toNat := by
    unfold BlockGas.consumed
    by_cases hrev : Revision.amsterdam ≤ config.revisionAt block.header
    · have hreg := hreg hrev
      have hstate := hstate hrev
      split
      · omega
      · rename_i hzero
        rw [not_or, not_not, not_not] at hzero
        rcases hcase with h | h | h | h
        · exact absurd h (Nat.not_lt.mpr hrev)
        · exact absurd hzero.1 h
        · exact absurd hzero.2 h
        · rw [hidle h hrev hzero.1 hzero.2]
          exact ⟨Int.natCast_nonneg _, Int.natCast_nonneg _⟩
    · have hlt := not_amsterdam_le_iff.mp hrev
      have hcum := hcum hlt
      obtain ⟨hr, hs⟩ := hunused hlt
      rw [if_neg (by rw [hr, hs]; simp)]
      omega
  exact ⟨hbounds.1, hbounds.2, availableGas_toNat host hgas hbounds.1 hbounds.2⟩

/-- The counters do not see the reads of the validation. -/
theorem GasInv.of_state (s : σ) (h : GasInv host config block p) :
    GasInv host config block { p with state := s } :=
  ⟨h.within, h.idle⟩

/-- **One transaction keeps the counters in their bounds** when the block has room for it. -/
theorem GasInv.step {t : Transaction} {sender : Address} (h : GasInv host config block p)
    (hevm : EvmGas host σ config block)
    (hgas : block.header.gasLimit.toNat < 2 ^ 63)
    (hprops : PropertiesBounds t (transactionProperties
      (config.revisionAt block.header) t (some sender)))
    (hroom : .amsterdam ≤ config.revisionAt block.header →
      exceedsBlockGas host block.header t p = false)
    (hleft : config.revisionAt block.header < .amsterdam →
      t.gasLimit.toNat ≤ (availableGas host block.header p).toNat)
    (hlimit : t.gasLimit.toNat < 2 ^ 63) :
    GasInv host config block (executeTransaction host config block t sender p) := by
  have hreceipt := hevm t sender p.state hprops
  have havail := h.available host hgas
  obtain ⟨⟨hcum, hunused, hreg, hstate⟩, hidle⟩ := h
  obtain ⟨hused, hstateUsed, hregUsed⟩ := hreceipt
  have hadd := gas_executeTransaction host config block t sender p
  set rev := config.revisionAt block.header with hrevdef
  set r := receiptOf host config block t sender p.state with hr
  by_cases hrev : Revision.amsterdam ≤ rev
  · rw [if_pos hrev, if_pos hrev] at hadd
    have hex := hroom hrev
    unfold exceedsBlockGas at hex
    rw [decide_eq_false_iff_not, not_or, not_lt, not_lt,
      BitVec.toInt_eq_toNat_of_lt (show 2 * block.header.gasLimit.toNat < 2 ^ 64 by omega),
      BitVec.toInt_eq_toNat_of_lt (show 2 * t.gasLimit.toNat < 2 ^ 64 by omega)] at hex
    have hreg := hreg hrev
    have hstate := hstate hrev
    have hru := hregUsed hrev
    have hsu := hstateUsed hrev
    rw [Progress.gas] at hreg hstate hidle
    dsimp only at hreg hstate hidle
    refine ⟨⟨fun hlt => absurd hrev (Nat.not_le.mpr hlt), fun hlt => absurd hrev (Nat.not_le.mpr hlt),
      fun _ => ?_, fun _ => ?_⟩, fun hcharge _ hr0 hs0 => ?_⟩
    · rw [hadd]
      dsimp only
      omega
    · rw [hadd]
      dsimp only
      omega
    · rw [hadd] at hr0 hs0 ⊢
      dsimp only at hr0 hs0 ⊢
      rw [hidle hcharge hrev (by omega) (by omega), hr, hcharge t sender p.state (by rw [← hr]; omega)]
      rfl
  · have hlt := not_amsterdam_le_iff.mp hrev
    rw [if_neg hrev, if_neg hrev] at hadd
    obtain ⟨hr0, hs0⟩ := hunused hlt
    have hconsumed : p.gas.consumed = p.cumulativeGasUsed.toNat := by
      unfold BlockGas.consumed
      rw [if_neg (by rw [hr0, hs0]; simp)]
      rfl
    obtain ⟨-, hle, heq⟩ := havail (Or.inl hlt)
    rw [hconsumed] at hle heq
    have hleft := hleft hlt
    refine ⟨⟨fun _ => ?_, fun _ => ?_, fun h => absurd h hrev, fun h => absurd h hrev⟩,
      fun _ h => absurd h hrev⟩
    · rw [hadd]
      dsimp only
      rw [BitVec.toNat_add]
      have := Nat.mod_le (p.cumulativeGasUsed.toNat + r.gasUsed.toNat) (2 ^ 64)
      omega
    · rw [hadd]
      exact ⟨hr0, hs0⟩

/-- **The counters over a run of transactions.** -/
theorem GasInv.run (hevm : EvmGas host σ config block)
    (hgas : block.header.gasLimit.toNat < 2 ^ 63) (ts : List Transaction)
    (hpre : ∀ t ∈ ts, preValidateTransaction t
      (config.revisionAt block.header) config.chainId
      block.header.baseFeePerGas (blobGasPrice block.header config) (host.sender t) = .ok ())
    (p : Progress host σ) (h : GasInv host config block p) :
    (∀ q ∈ ranTransactions host config block ts p, GasSound host config block q.1 q.2) ∧
    GasInv host config block (executeTransactions host config block ts p).2 := by
  induction ts generalizing p with
  | nil => exact ⟨fun q hq => absurd hq not_mem_nil, h⟩
  | cons t ts ih =>
    have hts := fun t' ht' => hpre t' (mem_cons_of_mem t ht')
    unfold ranTransactions executeTransactions
    dsimp only
    set rev := config.revisionAt block.header with hrevdef
    split
    · exact ⟨fun q hq => absurd hq not_mem_nil, h⟩
    · rename_i hroom
      set gas := if Revision.amsterdam ≤ rev then block.header.gasLimit
        else availableGas host block.header p with hgasdef
      rcases hv : validateTransaction host.keccak256 t (host.sender t) gas p.state with ⟨e | u, s⟩
      · exact ⟨fun q hq => absurd hq not_mem_nil, h.of_state host s⟩
      · -- the transaction runs, and its gas limit is below that of the block
        obtain ⟨⟨a, ha⟩, hle⟩ := validateTransaction_ok (congrArg Prod.fst hv)
        have hleft : rev < .amsterdam → t.gasLimit.toNat ≤ (availableGas host block.header p).toNat := by
          intro hlt
          rwa [hgasdef, if_neg (not_amsterdam_le_iff.mpr hlt)] at hle
        have hlimit : t.gasLimit.toNat < 2 ^ 63 := by
          by_cases hrev : Revision.amsterdam ≤ rev
          · rw [hgasdef, if_pos hrev] at hle
            omega
          · have hlt := not_amsterdam_le_iff.mp hrev
            obtain ⟨hnonneg, -, heq⟩ := h.available host hgas (Or.inl hlt)
            have := hleft hlt
            omega
        have hprops := transactionProperties_bounds (hpre t mem_cons_self) hlimit
        have hinv := h.of_state host s
        have hnext : GasInv host config block (executeTransaction host config block t
            ((host.sender t).getD zeroAddress) { p with state := s }) := by
          rw [ha] at hprops ⊢
          refine hinv.step host hevm hgas hprops (fun hrev => ?_) hleft hlimit
          exact Bool.eq_false_iff.mpr fun hex => hroom ⟨hrev, hex⟩
        obtain ⟨hran, hend⟩ := ih hts _ hnext
        refine ⟨fun q hq => ?_, hend⟩
        rcases mem_cons.mp hq with rfl | hq
        · exact ⟨hprops, hinv.within, hinv.available host hgas,
            fun hfits => propertyWords_hold hfits hlimit hprops⟩
        · exact hran q hq

variable (config block)

/-- The counters start at zero. -/
theorem gas_startProgress (s : σ) : (startProgress host config block s).gas = ⟨0, 0, 0⟩ := by
  show (blockStart host config block _).gas = _
  unfold blockStart
  rw [gas_applyDiff, gas_recordDiff]
  rfl

/-- Only transactions move the counters. -/
theorem gas_blockEnd (p : Progress host σ) : (blockEnd host config block p).2.gas = p.gas := by
  unfold blockEnd
  dsimp only
  split
  · cases collectDeposits p.receipts with
    | none => rfl
    | some requests =>
      dsimp only
      rcases (host.systemCallBlockEnd (blockInfo config block)
        (config.revisionAt block.header)).run host.keccak256 block.header
          p.state with ⟨_ | ⟨diff, reqs⟩, s⟩
      · rfl
      · dsimp only
        split <;> rw [gas_applyDiff, gas_recordDiff] <;> rfl
  · rfl

/-- What `execute_block` counts is what its transactions count. -/
theorem gas_executeToEnd (s : σ) :
    (executeToEnd host config block s).2.gas =
      (executeTransactions host config block block.transactions
        (startProgress host config block s)).2.gas := by
  unfold executeToEnd
  dsimp only
  rcases executeTransactions host config block block.transactions
    (startProgress host config block s) with
    ⟨e | u, p⟩
  · rfl
  · dsimp only
    rw [gas_blockEnd]
    split
    · unfold finalizeAmsterdam
      rw [gas_applyDiff, gas_recordDiff]
      rfl
    · rfl

end

/-- A block body that passes has pre-validated transactions. -/
theorem preValidateBlockBody_transactions {keccak256 : Bytes → Bytes32} {σ : Type}
    [ActiveState keccak256 σ] {sender : Transaction → Option Address} {config : ChainConfig}
    {block : Block} {s : σ} (h : preValidateBlockBody keccak256 sender config block s = .ok ()) :
    ∀ t ∈ block.transactions, preValidateTransaction t
      (config.revisionAt block.header) config.chainId
      block.header.baseFeePerGas (blobGasPrice block.header config) (sender t) = .ok () := by
  have hbase : ∃ rs : RuleSet, rs.preValidateBlockBodyBase keccak256 sender config block s = .ok () := by
    unfold preValidateBlockBody at h
    split at h
    · exact ⟨_, h⟩
    · exact ⟨_, h⟩
  obtain ⟨rs, hbase⟩ := hbase
  unfold RuleSet.preValidateBlockBodyBase at hbase
  simp only [bind_eq_ok] at hbase
  obtain ⟨-, -, _, htxs, -⟩ := hbase
  exact forM_eq_ok.mp htxs

/-- **Block gas accounting never wraps.**  In a block that passes the validation of its header and
the pre-validation of its body, at every transaction `execute_block` runs the properties for the EVM
and the counters are in their bounds, and so are the counters at the end, whether the block runs to
its end or stops at a transaction that is not valid. -/
theorem executeBlock_gas_bounded (host : Host) {σ : Type} [ActiveState host.keccak256 σ]
    (config : ChainConfig) (block : Block) (s : σ)
    (hheader : RuleSet.merge.validateBlockHeader host.keccak256 config block.header s = .ok ())
    (hbody : preValidateBlockBody host.keccak256 host.sender config block s = .ok ())
    (hevm : EvmGas host σ config block) :
    (∀ q ∈ ranTransactions host config block block.transactions (startProgress host config block s),
      GasSound host config block q.1 q.2) ∧
    GasWithin (config.revisionAt block.header) block.header
      (executeToEnd host config block s).2.gas := by
  have hgas := gasLimit_lt_of_validated hheader
  have hstart : GasInv host config block (startProgress host config block s) := by
    constructor
    · rw [gas_startProgress]
      exact ⟨fun _ => Nat.zero_le _, fun _ => ⟨rfl, rfl⟩, fun _ => ⟨le_rfl, Int.natCast_nonneg _⟩,
        fun _ => ⟨le_rfl, Int.natCast_nonneg _⟩⟩
    · intro _ _ _ _
      rw [gas_startProgress]
  obtain ⟨hran, hend⟩ := GasInv.run host hevm hgas block.transactions
    (preValidateBlockBody_transactions hbody) _ hstart
  rw [gas_executeToEnd]
  exact ⟨hran, hend.within⟩

namespace Spent

/-- The parent header. -/
def parent : BlockHeader where
  ommersHash := kEmptyListHash
  stateRoot := kEmptyRoot
  transactionsRoot := kEmptyRoot
  receiptsRoot := kEmptyRoot
  gasLimit := 30000000
  baseFeePerGas := some 1000000000

/-- A transfer of nothing, at one Gwei. -/
def transaction (nonce : U64) : Transaction where
  nonce := nonce
  maxPriorityFeePerGas := 1000000000
  maxFeePerGas := 1000000000
  gasLimit := 21000
  to_ := some (addressOfNat 2)
  r := 1
  s := 1

/-- The sender of the transactions. -/
def sender : Address := addressOfNat 0x612fb76ee7d53616253afa65a53d1d8a4225c45a

/-- The transactions tries of the two blocks: of one leaf, and of two under a branch. -/
def oneRoot : Bytes32 :=
  Bytes32.ofNat 0x718c1c1a62043cf5f507c430cd7818f7823a7a48af4fa27861e1e1903f6807c7

@[inherit_doc oneRoot]
def twoRoot : Bytes32 :=
  Bytes32.ofNat 0x70b1c71e6b55962764b78accac85703d666d8f99061d82c9fd9175f96b506165

/-- The leaves under the branch. -/
def leafHash (nonce : U64) : Bytes32 :=
  Bytes32.ofNat (if nonce = 0 then 0xd5be6cf5f53e0d6317f0d83da528e665c9991c5bd14cd42f123fa485e6dfd210
    else 0xefbc8dfbbedaf0addc4656550ce1898982d1cd13e4ee27b9131d3a37fd4e54af)

/-- Keccak-256 on the strings hashed here: the parent header and the nodes of the two tries. -/
def keccak256 (b : Bytes) : Bytes32 :=
  if b = parent.encode then
    Bytes32.ofNat 0x1a33392c3b77b01d6046d9bcb42638cf69cced478254e6b80107860b6f8fe1d9
  else if b = Trie.leafNodeRlp [8, 0] ((transaction 0).encode false) then oneRoot
  else if b = Trie.leafNodeRlp [0] ((transaction 0).encode false) then leafHash 0
  else if b = Trie.leafNodeRlp [1] ((transaction 1).encode false) then leafHash 1
  else if b = encodeList (encodeFixed (leafHash 1) ++ replicate 7 kEmptyStringCode ++
    encodeFixed (leafHash 0) ++ replicate 8 kEmptyStringCode) then twoRoot
  else zeroBytes32

/-- The gas a transfer is charged, a quarter of it for the state it adds. -/
def charged (t : Transaction) : U64 := if 21000 ≤ t.gasLimit then 21000 else t.gasLimit

/-- The EVM on plain transfers of nothing: the sender pays for 21000 gas, the beneficiary receives
the tip. -/
def host : Host where
  __ := Host.idle keccak256
  sender _ := some sender
  transition info t sender _ _ :=
    .getAccount sender fun acc => .getAccount info.coinbase fun tipped => .done {
      gasUsed := charged t
      success := true
      logs := []
      stateDiff := { modifiedAccounts :=
        (acc.toList.map fun a => { addr := sender, nonce := a.nonce + 1
                                   balance := a.balance - 21000 * t.maxFeePerGas }) ++
        [{ addr := info.coinbase, nonce := (tipped.map (·.nonce)).getD 0
           balance := (tipped.map (·.balance)).getD 0 +
             21000 * (t.maxFeePerGas - info.baseFee.setWidth 256) }] }
      blockGasUsed := (charged t).toNat
      stateGasUsed := ((charged t).toNat / 4 : ℕ) }
  systemCallBlockEnd _ _ := .done (some ({}, []))

/-- The sender has one Ether, and the parent header is known. -/
def state : DirectState :=
  DirectState.setBalance sender 1000000000000000000
    (DirectState.insertHeader keccak256 parent
      { witness := .empty, records := fun _ => Account.absent zeroAddress })

/-- The child of `parent` with one transaction. -/
def london : Block where
  header :=
    { parent with
      parentHash := parent.hash keccak256
      beneficiary := addressOfNat 3
      transactionsRoot := oneRoot
      number := 1
      gasUsed := 21000
      timestamp := 12
      baseFeePerGas := some 875000000 }
  transactions := [transaction 0]

/-- The rules of Amsterdam from the start. -/
def amsterdamConfig : ChainConfig := { osakaConfig with amsterdamTime := some 0 }

/-- The child of `parent` under these rules, with two transactions. -/
def amsterdam : Block where
  header :=
    { london.header with
      transactionsRoot := twoRoot
      gasUsed := 31500
      withdrawalsRoot := some kEmptyRoot
      blobGasUsed := some 0
      excessBlobGas := some 0
      parentBeaconBlockRoot := some zeroBytes32
      requestsHash := some zeroBytes32
      blockAccessListHash := some zeroBytes32
      slotNumber := some 1 }
  transactions := [transaction 0, transaction 1]
  withdrawals := some []

/-- No transfer uses more than its gas limit. -/
theorem evmGas (config : ChainConfig) (block : Block) : EvmGas host DirectState config block := by
  intro t a s _
  have hle : (charged t).toNat ≤ t.gasLimit.toNat ∧ (charged t).toNat ≤ 21000 := by
    unfold charged
    split <;> rename_i h
    · exact ⟨h, le_rfl⟩
    · exact ⟨le_rfl, (BitVec.not_le.mp h).le⟩
  have hgas : (receiptOf host config block t a s).gasUsed = charged t := rfl
  have hblock : (receiptOf host config block t a s).blockGasUsed = ((charged t).toNat : ℤ) := rfl
  have hstate : (receiptOf host config block t a s).stateGasUsed = ((charged t).toNat / 4 : ℕ) := rfl
  refine ⟨?_, fun _ => ?_, fun _ => ?_⟩
  · rw [hgas]
    exact hle.1
  · rw [hstate]
    omega
  · rw [hblock, hstate]
    omega

/-- A London block with one transfer, and one of Amsterdam with two, run them within the bounds. -/
theorem gas_bounded :
    ((ranTransactions host kLondonConfig london london.transactions
        (startProgress host kLondonConfig london state)).map (·.1.nonce) = [0] ∧
      (executeToEnd host kLondonConfig london state).2.gas = ⟨21000, 0, 0⟩ ∧
      (∀ q ∈ ranTransactions host kLondonConfig london london.transactions
          (startProgress host kLondonConfig london state),
        GasSound host kLondonConfig london q.1 q.2) ∧
      GasWithin (kLondonConfig.revisionAt london.header)
        london.header (executeToEnd host kLondonConfig london state).2.gas) ∧
    ((ranTransactions host amsterdamConfig amsterdam amsterdam.transactions
        (startProgress host amsterdamConfig amsterdam state)).map (·.1.nonce) =
          [0, 1] ∧
      (executeToEnd host amsterdamConfig amsterdam state).2.gas =
        ⟨42000, 31500, 10500⟩ ∧
      (∀ q ∈ ranTransactions host amsterdamConfig amsterdam amsterdam.transactions
          (startProgress host amsterdamConfig amsterdam state),
        GasSound host amsterdamConfig amsterdam q.1 q.2) ∧
      GasWithin
        (amsterdamConfig.revisionAt amsterdam.header)
        amsterdam.header
        (executeToEnd host amsterdamConfig amsterdam state).2.gas) :=
  ⟨⟨by decide +kernel, by decide +kernel,
    executeBlock_gas_bounded host kLondonConfig london state (by decide +kernel)
      (by decide +kernel) (evmGas _ _)⟩,
    by decide +kernel, by decide +kernel,
    executeBlock_gas_bounded host amsterdamConfig amsterdam state
      (by decide +kernel) (by decide +kernel) (evmGas _ _)⟩

end Spent

end Zilkworm.Execution
