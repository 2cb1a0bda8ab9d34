import ZksyncOsServer.MerkleTree.Types

/-!
# Transactions

`types/src/transaction`. The hash of an L1, upgrade or L2 transaction stands for what is not
modelled of it; a system transaction is what its calldata and salt decode to.
-/
namespace Types

open MerkleTree (B256)

structure InteropRoot where
  chainId : Nat
  blockOrBatchNumber : Nat
  sides : List B256
  deriving DecidableEq

inductive SystemTxType where
  | importInteropRoots (rootsCount : Nat)
  | setSLChainId (chainId migrationNumber : Nat)
  | setInteropFee (interopFeeNumber : Nat)
  deriving DecidableEq

inductive SystemTxEnvelope where
  | importInteropRoots (roots : List InteropRoot) (latestLogId : Nat)
  | setSLChainId (chainId migrationNumber : Nat)
  | setInteropFee (interopFee interopFeeNumber : Nat)
  deriving DecidableEq

def SystemTxEnvelope.systemSubtype : SystemTxEnvelope → SystemTxType
  | .importInteropRoots roots _ => .importInteropRoots roots.length
  | .setSLChainId chainId migrationNumber => .setSLChainId chainId migrationNumber
  | .setInteropFee _ interopFeeNumber => .setInteropFee interopFeeNumber

structure L1PriorityEnvelope where
  hash : B256
  priorityId : Nat
  gasLimit : Nat
  deriving DecidableEq

structure L1UpgradeEnvelope where
  hash : B256
  gasLimit : Nat
  deriving DecidableEq

structure L2Envelope where
  hash : B256
  gasLimit : Nat
  deriving DecidableEq

inductive ZkEnvelope where
  | system (tx : SystemTxEnvelope)
  | upgrade (tx : L1UpgradeEnvelope)
  | l1 (tx : L1PriorityEnvelope)
  | l2 (tx : L2Envelope)
  deriving DecidableEq

inductive ZkTxType where
  | system
  | upgrade
  | l1
  | l2
  deriving DecidableEq

structure ZkTransaction where
  envelope : ZkEnvelope
  signer : Nat
  deriving DecidableEq

namespace ZkTransaction

variable (this : ZkTransaction)

def txType : ZkTxType :=
  match this.envelope with
  | .system _ => .system
  | .upgrade _ => .upgrade
  | .l1 _ => .l1
  | .l2 _ => .l2

def asSystemTxType : Option SystemTxType :=
  match this.envelope with
  | .system tx => some tx.systemSubtype
  | _ => none

def gasLimit (this : ZkTransaction) : Nat :=
  match this.envelope with
  | .system _ => 0
  | .upgrade tx => tx.gasLimit
  | .l1 tx => tx.gasLimit
  | .l2 tx => tx.gasLimit

def interopRootsCount : Nat :=
  match this.asSystemTxType with
  | some (.importInteropRoots rootsCount) => rootsCount
  | _ => 0

def isSetSLChainId : Bool :=
  match this.asSystemTxType with
  | some (.setSLChainId _ _) => true
  | _ => false

end ZkTransaction

end Types
