import ZksyncOsServer.Repository.Db
import ZksyncOsServer.Types.Transaction

/-!
# Block outputs and logs

`types/src/log.rs` and `types/src/block_output.rs`: what the execution of a block leaves for the
other components. Hash functions of other crates are fields of `Primitives`.
-/
namespace Types

open MerkleTree (B256)
open Repository (Address Log)

abbrev Bytes := List UInt8

def beBytes (width n : Nat) : Bytes :=
  (List.range width).map fun i => UInt8.ofNat (n / 256 ^ (width - 1 - i) % 256)

def bytesOf (hash : B256) : Bytes := beBytes 32 hash.val

def B256.ofBytes (bytes : Bytes) : B256 :=
  Fin.ofNat (2 ^ 256) (bytes.foldl (fun n byte => n * 256 + byte.toNat) 0)

structure Primitives where
  keccak256 : Bytes → B256
  blake2s256 : Bytes → B256
  systemTxHash : SystemTxEnvelope → B256

def ZkTransaction.hash (primitives : Primitives) (this : ZkTransaction) : B256 :=
  match this.envelope with
  | .system tx => primitives.systemTxHash tx
  | .upgrade tx => tx.hash
  | .l1 tx => tx.hash
  | .l2 tx => tx.hash

structure L2ToL1Log where
  l2ShardId : UInt8
  isService : Bool
  txNumberInBlock : UInt16
  sender : Address
  key : B256
  value : B256
  deriving DecidableEq

def l2ToL1LogSerializeSize : Nat := 88

def l2ToL1TreeSize : Nat := 16384

def L2ToL1Log.encode (this : L2ToL1Log) : Bytes :=
  [this.l2ShardId] ++ [if this.isService then 1 else 0] ++ beBytes 2 this.txNumberInBlock.toNat ++
    beBytes 20 this.sender.val ++ bytesOf this.key ++ bytesOf this.value

/-- `TxOutput`, what the repository and the batcher read. -/
structure TxOutput where
  success : Bool
  gasUsed : Nat
  contractAddress : Option Address
  logs : List Log
  l2ToL1Logs : List L2ToL1Log
  deriving DecidableEq

inductive BlockPubdata where
  | bytes (data : Bytes)
  | length (used : Nat)
  deriving DecidableEq

def BlockPubdata.expectBytes : BlockPubdata → Except String Bytes
  | bytes data => .ok data
  | length _ => .error "expected block pubdata bytes, found length-only pubdata"

/-- `Sealed<Header>`, the fields that are read. -/
structure Header where
  hash : B256
  number : Nat
  timestamp : Nat
  baseFeePerGas : Option Nat
  deriving DecidableEq

structure BlockOutput where
  header : Header
  txResults : List (Option TxOutput)
  pubdata : BlockPubdata
  deriving DecidableEq

/-- The results that are left when the rejected transactions are dropped. -/
def BlockOutput.okResults (this : BlockOutput) : List TxOutput := this.txResults.filterMap id

end Types
