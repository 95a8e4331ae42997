import Geth.Common.Basic

namespace Geth.Params.Config

open Lib.BigEndian Common.Basic

structure CongressConfig where
  period : UInt64
  epoch : UInt64
  enableDevVerification : Bool
  feeReceiver : Option Address
  deriving DecidableEq

/-- The chain parameters. Each fork block is nil when the fork is not
scheduled. Engine settings that Congress does not read are left out. -/
structure ChainConfig where
  chainID : BigPtr
  homesteadBlock : BigPtr
  daoForkBlock : BigPtr
  daoForkSupport : Bool
  eip150Block : BigPtr
  eip150Hash : Hash
  eip155Block : BigPtr
  eip158Block : BigPtr
  byzantiumBlock : BigPtr
  constantinopleBlock : BigPtr
  petersburgBlock : BigPtr
  istanbulBlock : BigPtr
  muirGlacierBlock : BigPtr
  berlinBlock : BigPtr
  londonBlock : BigPtr
  arrowGlacierBlock : BigPtr
  redCoastBlock : BigPtr
  sophonBlock : BigPtr
  rewardPoolBlock : BigPtr
  congress : Option CongressConfig
  deriving DecidableEq

def isForked : BigPtr → BigPtr → Bool
  | some s, some head => decide (s ≤ head)
  | _, _ => false

namespace ChainConfig

def forkBlocks (c : ChainConfig) : List BigPtr :=
  [c.homesteadBlock, c.daoForkBlock, c.eip150Block, c.eip155Block, c.eip158Block,
   c.byzantiumBlock, c.constantinopleBlock, c.petersburgBlock, c.istanbulBlock,
   c.muirGlacierBlock, c.berlinBlock, c.londonBlock, c.arrowGlacierBlock,
   c.redCoastBlock, c.sophonBlock, c.rewardPoolBlock]

def isHomestead (c : ChainConfig) (num : BigPtr) : Bool := isForked c.homesteadBlock num
def isDAOFork (c : ChainConfig) (num : BigPtr) : Bool := isForked c.daoForkBlock num
def isEIP150 (c : ChainConfig) (num : BigPtr) : Bool := isForked c.eip150Block num
def isEIP155 (c : ChainConfig) (num : BigPtr) : Bool := isForked c.eip155Block num
def isEIP158 (c : ChainConfig) (num : BigPtr) : Bool := isForked c.eip158Block num
def isByzantium (c : ChainConfig) (num : BigPtr) : Bool := isForked c.byzantiumBlock num
def isConstantinople (c : ChainConfig) (num : BigPtr) : Bool := isForked c.constantinopleBlock num
def isMuirGlacier (c : ChainConfig) (num : BigPtr) : Bool := isForked c.muirGlacierBlock num

/-- A nil Petersburg block means that Petersburg comes with Constantinople. -/
def isPetersburg (c : ChainConfig) (num : BigPtr) : Bool :=
  isForked c.petersburgBlock num || c.petersburgBlock.isNone && isForked c.constantinopleBlock num

def isIstanbul (c : ChainConfig) (num : BigPtr) : Bool := isForked c.istanbulBlock num
def isBerlin (c : ChainConfig) (num : BigPtr) : Bool := isForked c.berlinBlock num
def isLondon (c : ChainConfig) (num : BigPtr) : Bool := isForked c.londonBlock num
def isArrowGlacier (c : ChainConfig) (num : BigPtr) : Bool := isForked c.arrowGlacierBlock num
def isRedCoast (c : ChainConfig) (num : BigPtr) : Bool := isForked c.redCoastBlock num
def isSophon (c : ChainConfig) (num : BigPtr) : Bool := isForked c.sophonBlock num
def isRewardPool (c : ChainConfig) (num : BigPtr) : Bool := isForked c.rewardPoolBlock num

end ChainConfig

def istanbulConfig (congress : Option CongressConfig) : ChainConfig where
  chainID := some 1
  homesteadBlock := some 0
  daoForkBlock := none
  daoForkSupport := false
  eip150Block := some 0
  eip150Hash := zeros 32
  eip155Block := some 0
  eip158Block := some 0
  byzantiumBlock := some 0
  constantinopleBlock := some 0
  petersburgBlock := some 0
  istanbulBlock := some 0
  muirGlacierBlock := some 0
  berlinBlock := none
  londonBlock := none
  arrowGlacierBlock := none
  redCoastBlock := none
  sophonBlock := none
  rewardPoolBlock := none
  congress := congress

/-- The number of blocks after which a chain segment counts as immutable. -/
def fullImmutabilityThreshold : Nat := 90000

end Geth.Params.Config
