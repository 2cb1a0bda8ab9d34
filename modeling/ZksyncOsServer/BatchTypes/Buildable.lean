import ZksyncOsServer.BatchTypes.BatchInfo
import ZksyncOsServer.MiniMerkleTree.Refinement

/-!
# When the data of a batch can be built

`PendingBatchInfo::build` panics on blocks without pubdata bytes, on a second upgrade transaction,
on logs that no tree can hold and where no sidecar can be built for the pubdata. Otherwise it
returns.
-/
namespace BatchTypes

open Fallible List MiniMerkleTree
open MerkleTree (B256 TreeBatchOutput)
open ProverApi (ProtocolSemanticVersion)
open Replay (BlockHashes)
open Types

def pubdataBytes (output : BlockOutput) : Bytes :=
  match output.pubdata with
  | .bytes data => data
  | .length _ => []

def isUpgrade (tx : ZkTransaction) : Bool := tx.txType = .upgrade

structure Buildable (buildSidecar : Bytes → Except String (List B256))
    (blocks : List (BlockOutput × List ZkTransaction × TreeBatchOutput B256)) (pubdataMode : PubdataMode) : Prop where
  nonempty : blocks ≠ []
  pubdata : ∀ block ∈ blocks, ∃ data, block.1.pubdata = .bytes data
  upgrades : (blocks.flatMap (·.2.1)).countP isUpgrade ≤ 1
  logs : (blocks.flatMap fun block => encodedLogs block.1).length ≤ 2 ^ MiniMerkleTree.maxTreeDepth
  sidecar : pubdataMode = .blobs → ∃ hashes, buildSidecar (blocks.flatMap fun block => pubdataBytes block.1) = .ok hashes

section

variable {primitives : Primitives}

/-! ### Transactions -/

theorem exists_add {totals : TxTotals} {tx : ZkTransaction} :
    (∃ next, totals.add primitives tx = .ok next) ↔ (isUpgrade tx = true → totals.upgradeTxHash = none) := by
  rw [TxTotals.add]
  cases h : tx.envelope with
  | system system => cases system <;> simp [isUpgrade, ZkTransaction.txType, h]
  | upgrade =>
    simp only [exists_bind_eq_ok, require_eq_ok, pure_eq_ok]
    simp [isUpgrade, ZkTransaction.txType, h]
  | l1 | l2 => simp [isUpgrade, ZkTransaction.txType, h]

theorem upgradeTxHash_add {totals next : TxTotals} {tx : ZkTransaction} (h : totals.add primitives tx = .ok next) :
    next.upgradeTxHash = if isUpgrade tx then some (tx.hash primitives) else totals.upgradeTxHash := by
  rw [TxTotals.add] at h
  cases henvelope : tx.envelope with
  | system system =>
    rw [henvelope] at h
    cases system <;> cases h <;> simp [isUpgrade, ZkTransaction.txType, henvelope]
  | upgrade =>
    simp only [henvelope, bind_eq_ok, pure_eq_ok] at h
    obtain ⟨-, -, rfl⟩ := h
    simp [isUpgrade, ZkTransaction.txType, henvelope]
  | l1 | l2 =>
    rw [henvelope] at h
    cases h
    simp [isUpgrade, ZkTransaction.txType, henvelope]

theorem exists_foldlM_add {txs : List ZkTransaction} {totals : TxTotals} :
    (∃ next, txs.foldlM (TxTotals.add primitives) totals = .ok next) ↔
      txs.countP isUpgrade + totals.upgradeTxHash.toList.length ≤ 1 := by
  induction txs generalizing totals with
  | nil =>
    cases totals.upgradeTxHash <;> simp [pure, Except.pure]
  | cons tx txs ih =>
    rw [foldlM_cons, exists_bind_eq_ok, countP_cons]
    constructor
    · rintro ⟨next, hnext, hrest⟩
      have hcount := ih.mp hrest
      have hok := exists_add.mp ⟨next, hnext⟩
      rw [upgradeTxHash_add hnext] at hcount
      cases hup : isUpgrade tx with
      | true =>
        rw [hup, if_pos rfl] at hcount
        rw [hok hup]
        simpa using hcount
      | false =>
        rw [hup] at hcount
        simpa using hcount
    · intro hcount
      have hok : isUpgrade tx = true → totals.upgradeTxHash = none := by
        intro hup
        rw [hup, if_pos rfl] at hcount
        cases hnone : totals.upgradeTxHash with
        | none => rfl
        | some hash =>
          rw [hnone, Option.toList_some, length_singleton] at hcount
          omega
      obtain ⟨next, hnext⟩ := exists_add.mpr hok
      refine ⟨next, hnext, ih.mpr ?_⟩
      rw [upgradeTxHash_add hnext]
      cases hup : isUpgrade tx with
      | true =>
        rw [hup, if_pos rfl, hok hup] at hcount
        simpa using hcount
      | false =>
        rw [hup] at hcount
        simpa using hcount

/-! ### Logs -/

theorem treeDepthBySize_two_pow_of_le {depth : Nat} (h : 64 ≤ depth) : treeDepthBySize (2 ^ depth) = 64 := by
  have hfind : (range 64).find? (fun i => (2 ^ depth).testBit i) = none := by
    rw [find?_eq_none]
    intro i hi
    rw [mem_range] at hi
    rw [Nat.testBit_two_pow_of_ne (by omega)]
    simp
  rw [treeDepthBySize, hfind, Option.getD_none]

theorem newTree_depth {leaves : List Bytes} {tree : MiniMerkleTree.Tree B256}
    (h : newTree primitives leaves (some l2ToL1TreeSize) = .ok tree) : leaves.length ≤ 2 ^ maxTreeDepth := by
  by_contra hmany
  simp only [newTree, MiniMerkleTree.Tree.fromHashes, bind_eq_ok, require_eq_ok, length_map] at h
  obtain ⟨-, -, -, hdepth, -⟩ := h
  have hclog : maxTreeDepth < Nat.clog 2 leaves.length := by
    rw [Nat.lt_clog_iff_pow_lt (by decide)]
    omega
  have hsize : max ((some l2ToL1TreeSize).getD 0) (nextPowerOfTwo leaves.length) = 2 ^ Nat.clog 2 leaves.length := by
    refine Nat.max_eq_right ?_
    exact (Nat.pow_le_pow_right (by decide) (show 14 ≤ Nat.clog 2 leaves.length by
      simp only [maxTreeDepth] at hclog; omega) : 2 ^ 14 ≤ _)
  rw [hsize] at hdepth
  by_cases hfits : Nat.clog 2 leaves.length < 64
  · rw [treeDepthBySize_two_pow hfits] at hdepth
    omega
  · rw [treeDepthBySize_two_pow_of_le (by omega)] at hdepth
    exact absurd hdepth (by decide)

theorem exists_logsRootHash {encoded : List Bytes} {multichainRoot : B256} {protocolVersion : ProtocolSemanticVersion} :
    (∃ root, logsRootHash primitives encoded multichainRoot protocolVersion = .ok root) ↔
      encoded.length ≤ 2 ^ maxTreeDepth := by
  rw [logsRootHash, exists_bind_eq_ok]
  simp only [exists_bind_eq_ok, pure_eq_ok, exists_eq', and_true]
  constructor
  · rintro ⟨tree, htree, -⟩
    exact newTree_depth htree
  · intro hlogs
    have hsize : ∀ size ∈ some l2ToL1TreeSize, ∃ k, k ≤ maxTreeDepth ∧ size = 2 ^ k := by
      rintro size ⟨⟩
      exact ⟨14, by decide, rfl⟩
    obtain ⟨tree, depth, htree, hrefines, -, hnone⟩ := refines_fromHashes (keccakHasher primitives)
      (encoded.map primitives.keccak256) hsize (by rwa [length_map])
    exact ⟨tree, htree, _, hrefines.merkleRoot fun _ => hnone⟩

end

/-! ### The batch -/

theorem mapM_expectBytes {blocks : List (BlockOutput × List ZkTransaction × TreeBatchOutput B256)} {pubdata : List Bytes}
    (h : blocks.mapM (·.1.pubdata.expectBytes) = .ok pubdata) :
    (∀ block ∈ blocks, ∃ data, block.1.pubdata = .bytes data) ∧
      pubdata.flatten = blocks.flatMap fun block => pubdataBytes block.1 := by
  induction blocks generalizing pubdata with
  | nil =>
    cases h
    simp
  | cons block blocks ih =>
    simp only [mapM_cons, bind_eq_ok, Except.ok.injEq] at h
    obtain ⟨data, hdata, rest, hrest, rfl⟩ := h
    obtain ⟨hall, hflatten⟩ := ih hrest
    have hbytes : block.1.pubdata = .bytes data := by
      cases hpubdata : block.1.pubdata with
      | bytes other =>
        rw [hpubdata] at hdata
        cases hdata
        rfl
      | length used =>
        rw [hpubdata] at hdata
        cases hdata
    refine ⟨forall_mem_cons.mpr ⟨⟨data, hbytes⟩, hall⟩, ?_⟩
    rw [flatten_cons, flatMap_cons, hflatten, pubdataBytes, hbytes]

theorem exists_calculateDaFields {primitives : Primitives} {buildSidecar : Bytes → Except String (List B256)} {pubdata : Bytes}
    {mode : PubdataMode} : (∃ fields, calculateDaFields primitives buildSidecar pubdata mode = .ok fields) ↔
      (mode = .blobs → ∃ hashes, buildSidecar pubdata = .ok hashes) := by
  cases mode with
  | blobs =>
    simp only [calculateDaFields, exists_bind_eq_ok, pure_eq_ok]
    simp
  | calldata | validium => simp [calculateDaFields]

theorem PendingBatchInfo.exists_build {primitives : Primitives} {buildSidecar : Bytes → Except String (List B256)}
    {blocks : List (BlockOutput × List ZkTransaction × TreeBatchOutput B256)} {chainId batchNumber slChainId : Nat}
    {pubdataMode : PubdataMode} {multichainRoot : B256} {protocolVersion : ProtocolSemanticVersion}
    {last256BlockHashes : BlockHashes} :
    (∃ built, build primitives buildSidecar blocks chainId batchNumber pubdataMode slChainId multichainRoot
      protocolVersion last256BlockHashes = .ok built) ↔ Buildable buildSidecar blocks pubdataMode := by
  rw [build, exists_bind_eq_ok]
  simp only [exists_bind_eq_ok, ofOption_eq_ok, pure_eq_ok]
  constructor
  · rintro ⟨first, hfirst, -, -, pubdata, hpubdata, totals, htotals, fields, hfields, root, hroot, -⟩
    obtain ⟨hbytes, hflatten⟩ := mapM_expectBytes hpubdata
    refine ⟨?_, hbytes, ?_, exists_logsRootHash.mp ⟨root, hroot⟩, ?_⟩
    · rintro rfl
      cases hfirst
    · exact exists_foldlM_add.mp ⟨totals, htotals⟩
    · rw [← hflatten]
      exact exists_calculateDaFields.mp ⟨fields, hfields⟩
  · intro h
    obtain ⟨first, rest, hblocks⟩ := exists_cons_of_ne_nil h.nonempty
    obtain ⟨pubdata, hpubdata⟩ : ∃ pubdata, blocks.mapM (·.1.pubdata.expectBytes) = .ok pubdata :=
      exists_mapM_eq_ok fun block hblock => by
        obtain ⟨data, hdata⟩ := h.pubdata block hblock
        exact ⟨data, by rw [hdata]; rfl⟩
    obtain ⟨totals, htotals⟩ : ∃ totals,
        (blocks.flatMap (·.2.1)).foldlM (TxTotals.add primitives) (.start primitives) = .ok totals :=
      exists_foldlM_add.mpr h.upgrades
    obtain ⟨fields, hfields⟩ : ∃ fields, calculateDaFields primitives buildSidecar
        (blocks.flatMap fun block => pubdataBytes block.1) pubdataMode = .ok fields :=
      exists_calculateDaFields.mpr h.sidecar
    obtain ⟨root, hroot⟩ : ∃ root, logsRootHash primitives (blocks.flatMap fun block => encodedLogs block.1) multichainRoot
        protocolVersion = .ok root :=
      exists_logsRootHash.mpr h.logs
    exact ⟨first, by rw [hblocks]; rfl, _, getLast?_eq_some_getLast h.nonempty, pubdata, hpubdata, totals, htotals,
      fields, by rw [(mapM_expectBytes hpubdata).2]; exact hfields, root, hroot, _, rfl⟩

end BatchTypes
