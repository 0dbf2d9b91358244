import BitMinti.Model.ArithUint256

/-!
# Consensus parameters

The fields of `Consensus::Params` that the modelled code reads, and the mainnet and regtest
values.  `fPowNoRetargeting` and `fPowAllowMinDifficultyBlocks` are not among them.

SOURCE: src/src/consensus/params.h:84-150, src/src/kernel/chainparams.cpp:100-175 and 630-718
-/

set_option autoImplicit false

namespace BitMinti.Model

/-- `Consensus::Params`. -/
structure ConsensusParams where
  hashGenesisBlock : Uint256
  nSubsidyHalvingInterval : ℕ
  BIP34Height : ℤ
  BIP34Hash : Uint256
  BIP65Height : ℤ
  BIP66Height : ℤ
  CSVHeight : ℤ
  SegwitHeight : ℤ
  powLimit : Uint256
  enforce_BIP94 : Bool
  nPowTargetSpacing : ℤ
  nPowTargetTimespan : ℤ

def ConsensusParams.difficultyAdjustmentInterval (params : ConsensusParams) : ℤ :=
  params.nPowTargetTimespan.tdiv params.nPowTargetSpacing

inductive BuriedDeployment where
  | heightInCB
  | cltv
  | dersig
  | csv
  | segwit
  deriving DecidableEq, Repr

def ConsensusParams.deploymentHeight (params : ConsensusParams) : BuriedDeployment → ℤ
  | .heightInCB => params.BIP34Height
  | .cltv => params.BIP65Height
  | .dersig => params.BIP66Height
  | .csv => params.CSVHeight
  | .segwit => params.SegwitHeight

/-- The consensus parameters of `CMainParams`. -/
def mainParams : ConsensusParams where
  hashGenesisBlock := 0x0d2c382326321b1004eb676d1a8ff1a93e92bb0da7be6043a058a6edb361b89e#256
  nSubsidyHalvingInterval := 210000
  BIP34Height := 1
  BIP34Hash := 0#256
  BIP65Height := 1
  BIP66Height := 1
  CSVHeight := 1
  SegwitHeight := 1
  powLimit := 0x000fffffffffffffffffffffffffffffffffffffffffffffffffffffffffffff#256
  enforce_BIP94 := false
  nPowTargetSpacing := 10 * 60
  nPowTargetTimespan := 14 * 24 * 60 * 60

/-- The consensus parameters of `CRegTestParams`, with no activation height overridden. -/
def regTestParams (hashGenesisBlock : Uint256) (enforce_bip94 : Bool) : ConsensusParams where
  hashGenesisBlock := hashGenesisBlock
  nSubsidyHalvingInterval := 150
  BIP34Height := 1
  BIP34Hash := 0#256
  BIP65Height := 1
  BIP66Height := 1
  CSVHeight := 1
  SegwitHeight := 0
  powLimit := 0x000fffffffffffffffffffffffffffffffffffffffffffffffffffffffffffff#256
  enforce_BIP94 := enforce_bip94
  nPowTargetSpacing := 10 * 60
  nPowTargetTimespan := 24 * 60 * 60

end BitMinti.Model
