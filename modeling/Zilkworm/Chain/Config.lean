/-
# Chain configuration

`core/chain/config.{hpp,cpp}` and the table of networks in `core/common/test_util.hpp`:
the forks of a chain by block number and, from Shanghai on, by time, and the revision a
block runs under.  The fields no validation reads (the genesis hash, the total difficulty
of the Merge, the difficulty-bomb forks, the fee-burning contracts, the seal check) are
left out.
-/
import Zilkworm.Types.Block

namespace Zilkworm.Chain

open Zilkworm.Types

/-- `evmc_revision`. -/
inductive Revision where
  | frontier | homestead | tangerineWhistle | spuriousDragon | byzantium | petersburg | istanbul
  | berlin | london | paris | shanghai | cancun | prague | osaka | amsterdam
  deriving DecidableEq, Repr

instance : LE Revision := ⟨fun a b => a.ctorIdx ≤ b.ctorIdx⟩

instance : LT Revision := ⟨fun a b => a.ctorIdx < b.ctorIdx⟩

instance (a b : Revision) : Decidable (a ≤ b) := inferInstanceAs (Decidable (_ ≤ _))

instance (a b : Revision) : Decidable (a < b) := inferInstanceAs (Decidable (_ < _))

/-- `BlobParams`. -/
structure BlobParams where
  target : ℕ := 0
  max : ℕ := 0
  baseFeeUpdateFraction : ℕ := 0
  deriving DecidableEq, Repr

/-- `ChainConfig`. -/
structure ChainConfig where
  chainId : U64 := 0
  homesteadBlock : Option U64 := none
  daoBlock : Option U64 := none
  tangerineWhistleBlock : Option U64 := none
  spuriousDragonBlock : Option U64 := none
  byzantiumBlock : Option U64 := none
  constantinopleBlock : Option U64 := none
  petersburgBlock : Option U64 := none
  istanbulBlock : Option U64 := none
  berlinBlock : Option U64 := none
  londonBlock : Option U64 := none
  shanghaiTime : Option U64 := none
  cancunTime : Option U64 := none
  pragueTime : Option U64 := none
  osakaTime : Option U64 := none
  bpo1Time : Option U64 := none
  bpo2Time : Option U64 := none
  bpo3Time : Option U64 := none
  bpo4Time : Option U64 := none
  amsterdamTime : Option U64 := none
  deriving DecidableEq, Repr

/-- A fork that is scheduled and reached. -/
def reached (fork : Option U64) (v : U64) : Bool := fork.any (· ≤ v)

namespace ChainConfig

variable (c : ChainConfig)

/-- `ChainConfig::withdrawals_activated`. -/
def withdrawalsActivated (blockTime : U64) : Bool := reached c.shanghaiTime blockTime

/-- `ChainConfig::revision`. -/
def revision (blockNum blockTime : U64) : Revision :=
  if reached c.amsterdamTime blockTime then .amsterdam
  else if reached c.osakaTime blockTime then .osaka
  else if reached c.pragueTime blockTime then .prague
  else if reached c.cancunTime blockTime then .cancun
  else if reached c.shanghaiTime blockTime then .shanghai
  else if reached c.londonBlock blockNum then .london
  else if reached c.berlinBlock blockNum then .berlin
  else if reached c.istanbulBlock blockNum then .istanbul
  else if reached c.petersburgBlock blockNum then .petersburg
  else if reached c.constantinopleBlock blockNum then .petersburg
  else if reached c.byzantiumBlock blockNum then .byzantium
  else if reached c.spuriousDragonBlock blockNum then .spuriousDragon
  else if reached c.tangerineWhistleBlock blockNum then .tangerineWhistle
  else if reached c.homesteadBlock blockNum then .homestead
  else .frontier

/-- The revision of the block a header heads. -/
abbrev revisionAt (h : BlockHeader) : Revision := c.revision h.number h.timestamp

/-- `ChainConfig::blob_params`. -/
def blobParams (blockTime : U64) : BlobParams :=
  if reached c.amsterdamTime blockTime then ⟨14, 21, 11684671⟩
  else if reached c.bpo4Time blockTime then ⟨14, 21, 13739630⟩
  else if reached c.bpo3Time blockTime then ⟨21, 32, 20609697⟩
  else if reached c.bpo2Time blockTime then ⟨14, 21, 11684671⟩
  else if reached c.bpo1Time blockTime then ⟨10, 15, 8346193⟩
  else if reached c.osakaTime blockTime then ⟨6, 9, 5007716⟩
  else if reached c.pragueTime blockTime then ⟨6, 9, 5007716⟩
  else if reached c.cancunTime blockTime then ⟨3, 6, 3338477⟩
  else {}

end ChainConfig

/-! ## Networks -/

/-- `kMainnetConfig`. -/
def kMainnetConfig : ChainConfig where
  chainId := 1
  homesteadBlock := some 1150000
  daoBlock := some 1920000
  tangerineWhistleBlock := some 2463000
  spuriousDragonBlock := some 2675000
  byzantiumBlock := some 4370000
  constantinopleBlock := some 7280000
  petersburgBlock := some 7280000
  istanbulBlock := some 9069000
  berlinBlock := some 12244000
  londonBlock := some 12965000
  shanghaiTime := some 1681338455
  cancunTime := some 1710338135
  pragueTime := some 1746612311
  osakaTime := some 1764798551
  bpo1Time := some 1765290071
  bpo2Time := some 1767747671

/-- `kFrontierConfig`. -/
def kFrontierConfig : ChainConfig where
  chainId := 1

/-- The forks of the test networks up to Homestead, and so on up to London. -/
def homesteadConfig : ChainConfig := { kFrontierConfig with homesteadBlock := some 0 }

@[inherit_doc homesteadConfig]
def tangerineWhistleConfig : ChainConfig := { homesteadConfig with tangerineWhistleBlock := some 0 }

@[inherit_doc homesteadConfig]
def spuriousDragonConfig : ChainConfig := { tangerineWhistleConfig with spuriousDragonBlock := some 0 }

@[inherit_doc homesteadConfig]
def byzantiumConfig : ChainConfig := { spuriousDragonConfig with byzantiumBlock := some 0 }

@[inherit_doc homesteadConfig]
def constantinopleConfig : ChainConfig := { byzantiumConfig with constantinopleBlock := some 0 }

@[inherit_doc homesteadConfig]
def petersburgConfig : ChainConfig := { constantinopleConfig with petersburgBlock := some 0 }

@[inherit_doc homesteadConfig]
def istanbulConfig : ChainConfig := { petersburgConfig with istanbulBlock := some 0 }

@[inherit_doc homesteadConfig]
def berlinConfig : ChainConfig := { istanbulConfig with berlinBlock := some 0 }

/-- `kLondonConfig`, with or without a total difficulty for the Merge. -/
def kLondonConfig : ChainConfig := { berlinConfig with londonBlock := some 0 }

/-- `kShanghaiConfig`. -/
def kShanghaiConfig : ChainConfig := { kLondonConfig with shanghaiTime := some 0 }

/-- The networks from Cancun on. -/
def cancunConfig : ChainConfig := { kShanghaiConfig with cancunTime := some 0 }

@[inherit_doc cancunConfig]
def pragueConfig : ChainConfig := { cancunConfig with pragueTime := some 0 }

@[inherit_doc cancunConfig]
def osakaConfig : ChainConfig := { pragueConfig with osakaTime := some 0 }

@[inherit_doc cancunConfig]
def bpo1Config : ChainConfig := { osakaConfig with bpo1Time := some 0 }

@[inherit_doc cancunConfig]
def bpo2Config : ChainConfig := { bpo1Config with bpo2Time := some 0 }

@[inherit_doc cancunConfig]
def bpo3Config : ChainConfig := { bpo2Config with bpo3Time := some 0 }

/-- `kNetworkConfig`. -/
def kNetworkConfig : List (String × ChainConfig) :=
  [("Mainnet", kMainnetConfig),
   ("Frontier", kFrontierConfig),
   ("Homestead", homesteadConfig),
   ("FrontierToHomesteadAt5", { kFrontierConfig with homesteadBlock := some 5 }),
   ("HomesteadToDaoAt5", { homesteadConfig with daoBlock := some 5 }),
   ("EIP150", tangerineWhistleConfig),
   ("TangerineWhistle", tangerineWhistleConfig),
   ("HomesteadToEIP150At5", { homesteadConfig with tangerineWhistleBlock := some 5 }),
   ("EIP158", spuriousDragonConfig),
   ("SpuriousDragon", spuriousDragonConfig),
   ("Byzantium", byzantiumConfig),
   ("EIP158ToByzantiumAt5", { spuriousDragonConfig with byzantiumBlock := some 5 }),
   ("Constantinople", constantinopleConfig),
   ("ConstantinopleFix", petersburgConfig),
   ("ByzantiumToConstantinopleFixAt5",
     { byzantiumConfig with constantinopleBlock := some 5, petersburgBlock := some 5 }),
   ("Istanbul", istanbulConfig),
   ("EIP2384", istanbulConfig),
   ("Berlin", berlinConfig),
   ("London", kLondonConfig),
   ("BerlinToLondonAt5", { berlinConfig with londonBlock := some 5 }),
   ("ArrowGlacier", kLondonConfig),
   ("GrayGlacier", kLondonConfig),
   ("Merge", kLondonConfig),
   ("Paris", kLondonConfig),
   ("ArrowGlacierToMergeAtDiffC0000", kLondonConfig),
   ("ArrowGlacierToParisAtDiffC0000", kLondonConfig),
   ("Shanghai", kShanghaiConfig),
   ("MergeToShanghaiAtTime15k", { kLondonConfig with shanghaiTime := some 15000 }),
   ("ParisToShanghaiAtTime15k", { kLondonConfig with shanghaiTime := some 15000 }),
   ("Cancun", cancunConfig),
   ("ShanghaiToCancunAtTime15k", { kShanghaiConfig with cancunTime := some 15000 }),
   ("Prague", pragueConfig),
   ("CancunToPragueAtTime15k", { cancunConfig with pragueTime := some 15000 }),
   ("Osaka", osakaConfig),
   ("Amsterdam", { osakaConfig with amsterdamTime := some 0 }),
   ("PragueToOsakaAtTime15k", { pragueConfig with osakaTime := some 15000 }),
   ("OsakaToBPO1AtTime15k", { osakaConfig with bpo1Time := some 15000 }),
   ("BPO1ToBPO2AtTime15k", { bpo1Config with bpo2Time := some 15000 }),
   ("BPO2ToBPO3AtTime15k", { bpo2Config with bpo3Time := some 15000 }),
   ("BPO3ToBPO4AtTime15k", { bpo3Config with bpo4Time := some 15000 }),
   ("BPO2ToAmsterdamAtTime15k", { bpo2Config with amsterdamTime := some 15000 }),
   ("glamsterdam-devnet-7", { bpo2Config with chainId := 0x1a62c8cb6, amsterdamTime := some 0 }),
   ("glamsterdam-devnet-8", { bpo2Config with chainId := 0x1a6a8cc6e, amsterdamTime := some 0 }),
   ("sepolia",
     { kLondonConfig with
       chainId := 11155111
       shanghaiTime := some 1677557088
       cancunTime := some 1706655072
       pragueTime := some 1741159776
       osakaTime := some 1760427360
       bpo1Time := some 1761017184
       bpo2Time := some 1761607008
       amsterdamTime := some 1791294816 })]

/-- The bytes of a text of ASCII characters. -/
def asciiBytes (s : String) : Lib.Bytes := s.toList.map fun c => UInt8.ofNat c.toNat

/-- `kNetworkConfig.find`. -/
def findNetwork (name : Lib.Bytes) : Option ChainConfig :=
  (kNetworkConfig.find? fun e => asciiBytes e.1 = name).map (·.2)

end Zilkworm.Chain
