import RomeSdk.Proofs.FormedBlocks
import RomeSdk.Proofs.GasValues
import RomeSdk.Proofs.PendingChain
import RomeSdk.Proofs.PendingReadBack
import RomeSdk.Proofs.WrittenReceipts

/-!
# Gas and positions on the receipts of a block

The gas of a block is summed when the block is formed, once more up to each of its
transactions when the block is produced, and the gas of a transaction is added to that in
its receipt. Between these sums there are the tables, which know a transaction of a slot by
its hash: one result is kept of it, and the parameters of one receipt. So the sums agree
exactly if transactions of one hash cannot be told apart by them (`HashesTell`). Hashes
that are given stay distinct for everything but deposits, whose hashes `create_eth_blocks`
makes anew.
-/

namespace RomeSdk

namespace PgStorage

variable {block : Type} {X : StorageCrates}

/-! ## What is asked of the receipts -/

/-- What `new_receipt` makes of the row of a transaction, once it was produced. -/
def receiptIn (X : StorageCrates) (db : Db block) (key : Slot × TxHash) (tx : Transaction) :
    Option (Outcome TransactionReceipt) := do
  let row ← db.evmTxResult.lookup key
  let receiptParams ← row.receiptParams
  pure (TransactionStorage.newReceipt X tx row.txResult receiptParams)

/-- The receipt of the `i`-th transaction of a block: its position, its own gas, and the
gas up to it. -/
structure IsReceiptAt (group : List (Transaction × TxResult)) (i : Nat)
    (e : Transaction × TxResult) (receipt : TransactionReceipt) : Prop where
  transactionIndex : receipt.transactionIndex = i
  gasUsed : receipt.gasUsed = some e.2.gasReport.gasValue
  cumulativeGasUsed : receipt.cumulativeGasUsed.toNat = gasSum (group.take (i + 1))

/-- The receipts of a block agree with the block and its header. -/
structure ReceiptsAgree (X : StorageCrates) (id : EthBlockId) (ethBlock : EthBlock)
    (group : List (Transaction × TxResult)) (db : Db block) : Prop where
  transactions : ethBlock.transactions = hashesOf group
  receipts : ∀ i e tx, group[i]? = some e → ∃ receipt,
    receiptIn X db (id.1, e.1.hash) tx = some (.ok receipt) ∧ IsReceiptAt group i e receipt ∧
      (i + 1 = group.length → (db.ethBlock.lookup id).map EthBlockHeader.blockGasUsed
        = some receipt.cumulativeGasUsed)

/-- The stored results of the transactions of a block have the gas of the transactions. -/
def OwnGas (l group : List (Transaction × TxResult)) : Prop :=
  ∀ e ∈ group, ∀ txResult, resultOf l e.1.hash = some txResult →
    txResult.gasReport.gasValue = e.2.gasReport.gasValue

/-- In the blocks that are handed over, transactions of one hash have the same position and
the same gas before them, and each has the gas of the first one of its hash. -/
structure HashesTell (l : List (Transaction × TxResult))
    (groups : List (List (Transaction × TxResult))) (handed : Nat → Prop) : Prop where
  place : ∀ b b' group group' i j e e', handed b → handed b' → groups[b]? = some group →
    groups[b']? = some group' → group[i]? = some e → group'[j]? = some e' →
    e.1.hash = e'.1.hash → i = j ∧ gasSum (group.take i) = gasSum (group'.take j)
  gas : ∀ b group, handed b → groups[b]? = some group → OwnGas l group

theorem HashesTell.nodup {l : List (Transaction × TxResult)}
    {groups : List (List (Transaction × TxResult))} {handed : Nat → Prop}
    (h : HashesTell l groups handed) {b : Nat} {group : List (Transaction × TxResult)}
    (hb : handed b) (hgroup : groups[b]? = some group) : (hashesOf group).Nodup := by
  rw [hashesOf, List.nodup_iff_pairwise_ne, List.pairwise_iff_getElem]
  intro i j hi hj hlt heq
  rw [List.length_map] at hi hj
  rw [List.getElem_map, List.getElem_map] at heq
  have hsame := h.place b b group group i j _ _ hb hb hgroup hgroup
    (List.getElem?_eq_getElem hi) (List.getElem?_eq_getElem hj) heq
  omega

/-- Distinct hashes tell. -/
theorem hashesTell_of_nodup {mode : BlockParseMode} {l : List (Transaction × TxResult)}
    (hl : (hashesOf l).Nodup) (handed : Nat → Prop) :
    HashesTell l (blockGroups mode l) handed := by
  have hsame : ∀ {e e' : Transaction × TxResult}, e ∈ l → e' ∈ l → e.1.hash = e'.1.hash → e = e' :=
    fun he he' => List.inj_on_of_nodup_map hl he he'
  have hmem : ∀ {b : Nat} {group : List (Transaction × TxResult)} {e : Transaction × TxResult},
      (blockGroups mode l)[b]? = some group → e ∈ group → e ∈ l := fun hgroup he =>
    (sublist_of_mem_blockGroups (List.mem_of_getElem? hgroup)).subset he
  have hnodup : (blockGroups mode l).flatten.Nodup := by
    rw [flatten_blockGroups]
    exact hl.of_map
  obtain ⟨hgroups, hdisjoint⟩ := List.nodup_flatten.mp hnodup
  constructor
  · intro b b' group group' i j e e' _ _ hgroup hgroup' he he' hhash
    have hin := List.mem_of_getElem? he
    have hin' := List.mem_of_getElem? he'
    obtain rfl := hsame (hmem hgroup hin) (hmem hgroup' hin') hhash
    obtain ⟨hb, hget⟩ := List.getElem?_eq_some_iff.mp hgroup
    obtain ⟨hb', hget'⟩ := List.getElem?_eq_some_iff.mp hgroup'
    have hone : b = b' := by
      rw [List.pairwise_iff_getElem] at hdisjoint
      rcases Nat.lt_trichotomy b b' with hlt | heq | hlt
      · exact absurd (hget' ▸ hin') (hdisjoint b b' hb hb' hlt (hget ▸ hin))
      · exact heq
      · exact absurd (hget ▸ hin) (hdisjoint b' b hb' hb hlt (hget' ▸ hin'))
    subst hone
    rw [hgroup] at hgroup'
    cases hgroup'
    obtain ⟨hi, _⟩ := List.getElem?_eq_some_iff.mp he
    have hij : i = j := (List.getElem?_inj hi (hgroups group (List.mem_of_getElem? hgroup))).mp
      (he.trans he'.symm)
    rw [hij]
    exact ⟨rfl, rfl⟩
  · intro b group _ hgroup e he txResult hresult
    obtain ⟨e', he', hhash, rfl⟩ := mem_of_resultOf hresult
    rw [hsame he' (hmem hgroup he) hhash]

/-! ## The blocks that are handed over -/

/-- What is kept of a slot while other slots are worked on. -/
structure KeepsSlot (slot : Slot) (db db' : Db block) : Prop where
  gas : ∀ blockIdx, (db'.ethBlock.lookup (slot, blockIdx)).map EthBlockHeader.blockGasUsed
    = (db.ethBlock.lookup (slot, blockIdx)).map EthBlockHeader.blockGasUsed
  blockTxs : ∀ blockIdx hash, db'.ethBlockTxs.lookup ((slot, blockIdx), hash)
    = db.ethBlockTxs.lookup ((slot, blockIdx), hash)
  results : ∀ hash, storedResult db' (slot, hash) = storedResult db (slot, hash)
  txs : ∀ hash ∈ db.evmTx, hash ∈ db'.evmTx

theorem KeepsSlot.refl (slot : Slot) (db : Db block) : KeepsSlot slot db db :=
  ⟨fun _ => rfl, fun _ _ => rfl, fun _ => rfl, fun _ h => h⟩

/-- The first transaction of `blocks_produced` keeps it. -/
theorem keepsSlot_recordAllParams (slot : Slot) (pendingBlocks : PendingBlocks)
    (producedBlocks : ProducedBlocks) (db : Db block) :
    KeepsSlot slot db (recordAllParams pendingBlocks producedBlocks db) := by
  rw [recordAllParams]
  generalize producedBlocks.iter = l
  induction l generalizing db with
  | nil => exact KeepsSlot.refl slot db
  | cons e l ih =>
      have hround : KeepsSlot slot db (recordParams pendingBlocks db e) := by
        rw [recordParams]
        split
        · refine ⟨fun blockIdx => ?_, fun _ _ => rfl, fun _ => rfl, fun _ h => h⟩
          rw [setParams, HashMap.lookup_filterMap]
          cases db.ethBlock.lookup (slot, blockIdx) with
          | none => rfl
          | some header =>
              rw [Option.bind_some]
              split <;> rfl
        · exact KeepsSlot.refl slot db
      have hrest := ih (recordParams pendingBlocks db e)
      exact ⟨fun i => (hrest.gas i).trans (hround.gas i),
        fun i hash => (hrest.blockTxs i hash).trans (hround.blockTxs i hash),
        fun hash => (hrest.results hash).trans (hround.results hash),
        fun hash h => hrest.txs hash (hround.txs hash h)⟩

/-- A stored transaction is decoded to one of its hash. -/
def TxsByHash (X : StorageCrates) (db : Db block) : Prop :=
  ∀ hash rlp t, db.evmTx.lookup hash = some rlp → X.ethers.decode rlp = .ok t → t.hash = hash

theorem txsByHash_of_entries {db : Db block} (h : ∀ e ∈ db.evmTx.entries,
    (X.ethers.decode e.2).toOption.map Transaction.hash = some e.1) : TxsByHash X db := by
  intro hash rlp t hlookup hdecode
  have he := h ⟨hash, rlp⟩ ((HashMap.mem_entries _ _ _).mpr hlookup)
  simp only [hdecode, Except.toOption, Option.map_some, Option.some.injEq] at he
  exact he

/-- A slot from the transactions parsed of it to their receipts: its blocks are formed and
stored, some of them are handed over and recorded as produced. -/
structure SlotHistory (X : StorageCrates) (block : Type) where
  given : List (Transaction × TxResult)
  blockhash : H256
  timestamp : Option Int
  mode : BlockParseMode
  parseResults : BTreeMap Slot BlockParseResult
  result : BlockParseResult
  producerParams : ProducerParams
  producedBlocks : ProducedBlocks
  empty : Db block
  registered : Db block
  stored : Db block
  pending : Db block
  produced : Db block
  recorded : Db block
  fits : FitsVec given
  created : createEthBlocks X.toCrates blockhash timestamp given mode
    = .ok (result.ethBlocks, result.transactions)
  filed : FiledBySlot parseResults
  parsed : parseResults[result.slotNumber]? = some result
  noBlocks : ∀ blockIdx, blockRows (result.slotNumber, blockIdx) empty = (none, fun _ => none)
  oldResults : ∀ hash, storedResult empty (result.slotNumber, hash) = none ∨
    storedResult empty (result.slotNumber, hash) = resultOf result.transactions hash
  registers : TransactionStorage.registerParseResults X parseResults empty = .ok ((), registered)
  stores : storeEthBlocks parseResults registered = .ok ((), stored)
  waits : KeepsSlot result.slotNumber stored pending
  byHash : TxsByHash X pending
  handsOver : getPendingBlocks X pending = .ok (some producerParams)
  produces : KeepsSlot result.slotNumber pending produced
  records : TransactionStorage.blocksProduced producerParams.pendingBlocks producedBlocks produced
    = .ok ((), recorded)

namespace SlotHistory

variable (h : SlotHistory X block)

abbrev slot : Slot := h.result.slotNumber

/-- The transactions of the slot as they are in the blocks. -/
def transactions : List (Transaction × TxResult) :=
  rehashed X.toCrates h.blockhash h.mode h.given

def groups : List (List (Transaction × TxResult)) := blockGroups h.mode h.transactions

/-- The block is pending and recorded as produced. -/
def Handed (blockIdx : Nat) : Prop :=
  HandedOver h.producerParams.pendingBlocks h.producedBlocks (h.slot, blockIdx)

theorem transactions_eq : h.result.transactions = h.transactions := updated_eq h.fits h.created

theorem sums : List.Forall₂ EthBlock.Sums h.result.ethBlocks h.groups := by
  have hsums := createEthBlocks_sums h.fits h.created
  rwa [h.transactions_eq] at hsums

theorem fitsVec : FitsVec h.transactions := h.fits.congr (map_snd_rehashed h.given).symm

theorem mem_transactions {blockIdx : Nat} {group : List (Transaction × TxResult)}
    (hgroup : h.groups[blockIdx]? = some group) {e : Transaction × TxResult} (he : e ∈ group) :
    e ∈ h.transactions :=
  (sublist_of_mem_blockGroups (List.mem_of_getElem? hgroup)).subset he

/-- A block and its transactions. -/
theorem sums_at (blockIdx : Nat) :
    (∃ ethBlock group, h.result.ethBlocks[blockIdx]? = some ethBlock ∧
      h.groups[blockIdx]? = some group ∧ ethBlock.Sums group) ∨
    (h.result.ethBlocks[blockIdx]? = none ∧ h.groups[blockIdx]? = none) := by
  have hsums := h.sums
  rw [List.forall₂_iff_get] at hsums
  obtain ⟨hlength, hat⟩ := hsums
  by_cases hlt : blockIdx < h.result.ethBlocks.length
  · refine Or.inl ⟨_, _, List.getElem?_eq_getElem hlt, List.getElem?_eq_getElem (hlength ▸ hlt), ?_⟩
    exact hat blockIdx hlt (hlength ▸ hlt)
  · refine Or.inr ⟨List.getElem?_eq_none (by omega), List.getElem?_eq_none (by omega)⟩

/-! ### What the tables hold of the slot -/

theorem holdsResults (hash : TxHash) :
    storedResult h.pending (h.slot, hash) = resultOf h.transactions hash := by
  have hstored := registerParseResults_stores h.filed h.parsed h.oldResults h.registers
  have hrows := storeEthBlocks_txRows h.stores
  rw [txRows, txRows, Prod.mk.injEq] at hrows
  rw [h.waits.results, storedResult, hrows.2, ← h.transactions_eq]
  exact hstored.results hash

theorem holdsTxs {e : Transaction × TxResult} (he : e ∈ h.transactions) :
    ∃ rlp, h.pending.evmTx.lookup e.1.hash = some rlp := by
  have hstored := registerParseResults_stores h.filed h.parsed h.oldResults h.registers
  have hrows := storeEthBlocks_txRows h.stores
  rw [txRows, txRows, Prod.mk.injEq] at hrows
  refine HashMap.lookup_of_mem (h.waits.txs _ ?_)
  rw [hrows.1]
  exact hstored.txs e (h.transactions_eq ▸ he)

theorem holdsBlocks : HoldsBlocks h.slot h.result.ethBlocks h.stored := by
  have hrows : ∀ blockIdx, blockRows (h.slot, blockIdx) h.registered = (none, fun _ => none) := by
    intro blockIdx
    rw [registerParseResults_blockRows h.registers, h.noBlocks]
  exact storeEthBlocks_stores h.parsed hrows h.stores

/-- What is listed of a handed-over block is listed of its group. -/
theorem listed_iff {blockIdx : Nat} {group : List (Transaction × TxResult)}
    (hgroup : h.groups[blockIdx]? = some group) (hdistinct : (hashesOf group).Nodup) (hash : TxHash)
    (k : Nat) : h.pending.ethBlockTxs.lookup ((h.slot, blockIdx), hash) = some k ↔
      ∃ e, group[k]? = some e ∧ e.1.hash = hash := by
  rcases h.sums_at blockIdx with ⟨ethBlock, group', hblock, hgroup', hsums⟩ | ⟨_, hnone⟩
  · rw [hgroup] at hgroup'
    cases hgroup'
    rw [h.waits.blockTxs, h.holdsBlocks.txs blockIdx ethBlock hblock
      (hsums.transactions ▸ hdistinct), hsums.transactions, hashesOf, List.getElem?_map,
      Option.map_eq_some_iff]
  · rw [hgroup] at hnone
    cases hnone

theorem group_of_listed {blockIdx : Nat} {hash : TxHash} {k : Nat}
    (hlisted : h.pending.ethBlockTxs.lookup ((h.slot, blockIdx), hash) = some k) :
    ∃ group, h.groups[blockIdx]? = some group := by
  rcases h.sums_at blockIdx with ⟨_, group, _, hgroup, _⟩ | ⟨hnone, _⟩
  · exact ⟨group, hgroup⟩
  · rw [h.waits.blockTxs, h.holdsBlocks.none blockIdx hnone] at hlisted
    cases hlisted

/-! ### What is pending of it -/

variable {h}

/-- A transaction of a pending block is one of its group, at the same place. -/
theorem group_of_get {blockIdx : Nat} {b : PendingL2Block}
    (hb : h.producerParams.pendingBlocks.get h.slot blockIdx = some b)
    (hdistinct : ∀ group, h.groups[blockIdx]? = some group → (hashesOf group).Nodup) {k : Nat}
    {v : Transaction × TxResult} (hv : b.transactions[k]? = some v) :
    ∃ group e, h.groups[blockIdx]? = some group ∧ group[k]? = some e ∧ v.1.hash = e.1.hash ∧
      resultOf h.transactions e.1.hash = some v.2 := by
  obtain ⟨hread, _⟩ := getPendingBlocks_reads h.handsOver (h.slot, blockIdx) hb
  obtain ⟨hash, rlp, hlisted, hrlp, hdecode, hstored⟩ := hread k v hv
  obtain ⟨group, hgroup⟩ := h.group_of_listed hlisted
  obtain ⟨e, he, rfl⟩ := (h.listed_iff hgroup (hdistinct group hgroup) hash k).mp hlisted
  exact ⟨group, e, hgroup, he, h.byHash _ rlp v.1 hrlp hdecode,
    (h.holdsResults _).symm.trans hstored⟩

theorem exists_get {blockIdx : Nat} {b : PendingL2Block}
    (hb : h.producerParams.pendingBlocks.get h.slot blockIdx = some b)
    {group : List (Transaction × TxResult)} (hgroup : h.groups[blockIdx]? = some group)
    (hdistinct : (hashesOf group).Nodup) {k : Nat} {e : Transaction × TxResult}
    (he : group[k]? = some e) : ∃ v, b.transactions[k]? = some v := by
  obtain ⟨_, hread⟩ := getPendingBlocks_reads h.handsOver (h.slot, blockIdx) hb
  have hmem := h.mem_transactions hgroup (List.mem_of_getElem? he)
  obtain ⟨rlp, hrlp⟩ := h.holdsTxs hmem
  obtain ⟨txResult, hresult⟩ := resultOf_of_mem hmem
  obtain ⟨t, _, hat⟩ := hread e.1.hash k rlp txResult
    ((h.listed_iff hgroup hdistinct e.1.hash k).mpr ⟨e, he, rfl⟩) hrlp
    ((h.holdsResults e.1.hash).trans hresult)
  exact ⟨_, hat⟩

/-- The transactions of a pending block, in the order `blocks_produced` goes through them. -/
theorem toList_of_get {blockIdx : Nat} {b : PendingL2Block}
    (hb : h.producerParams.pendingBlocks.get h.slot blockIdx = some b)
    {group : List (Transaction × TxResult)} (hgroup : h.groups[blockIdx]? = some group)
    (hdistinct : (hashesOf group).Nodup) : ∃ f : Nat → Transaction × TxResult,
      b.transactions.toList = (List.range group.length).map (fun k => (k, f k)) ∧
      ∀ k e, group[k]? = some e → (f k).1.hash = e.1.hash ∧
        resultOf h.transactions e.1.hash = some (f k).2 := by
  have hgroups : ∀ group', h.groups[blockIdx]? = some group' → (hashesOf group').Nodup := by
    intro group' hgroup'
    rw [hgroup] at hgroup'
    cases hgroup'
    exact hdistinct
  have hat : ∀ k, ∃ v, k < group.length → b.transactions[k]? = some v := by
    intro k
    by_cases hk : k < group.length
    · obtain ⟨v, hv⟩ := exists_get hb hgroup hdistinct (List.getElem?_eq_getElem hk)
      exact ⟨v, fun _ => hv⟩
    · exact ⟨(bareTx 0, .default), fun hk' => absurd hk' hk⟩
  choose f hf using hat
  refine ⟨f, BTreeMap.toList_eq_of_ascending ?_ ?_, ?_⟩
  · rw [List.pairwise_map]
    exact List.pairwise_lt_range
  · intro k v
    simp only [List.mem_map, List.mem_range, Prod.mk.injEq]
    constructor
    · rintro ⟨k, hk, rfl, rfl⟩
      exact hf k hk
    · intro hv
      obtain ⟨group', e, hgroup', he, _⟩ := group_of_get hb hgroups hv
      rw [hgroup] at hgroup'
      cases hgroup'
      obtain ⟨hk, _⟩ := List.getElem?_eq_some_iff.mp he
      rw [hf k hk] at hv
      cases hv
      exact ⟨k, hk, rfl, rfl⟩
  · intro k e he
    obtain ⟨hk, _⟩ := List.getElem?_eq_some_iff.mp he
    obtain ⟨group', e', hgroup', he', hhash, hresult⟩ := group_of_get hb hgroups (hf k hk)
    rw [hgroup] at hgroup'
    cases hgroup'
    rw [he] at he'
    cases he'
    exact ⟨hhash, hresult⟩

/-! ### What is written of it -/

/-- The parameters of a receipt count the transactions before it. -/
structure Counts (group : List (Transaction × TxResult)) (i : Nat) (receiptParams : ReceiptParams) :
    Prop where
  txIndex : receiptParams.txIndex = i
  gas : receiptParams.blockGasUsed.toNat = gasSum (group.take i)
  logs : receiptParams.firstLogIndex.toNat ≤ isizeMax * isizeMax

theorem written_at {blockIdx : Nat} {b : PendingL2Block}
    (hb : h.producerParams.pendingBlocks.get h.slot blockIdx = some b)
    {group : List (Transaction × TxResult)} (hgroup : h.groups[blockIdx]? = some group)
    (hdistinct : (hashesOf group).Nodup) (hgas : OwnGas h.transactions group)
    {blockParams : BlockParams} {written : List (Transaction × TxResult × ReceiptParams)}
    (hwritten : TransactionStorage.blockReceipts blockParams b.transactions.toList 0 0
      = .ok written) : written.length = group.length ∧
      ∀ i e w, group[i]? = some e → written[i]? = some w →
        w.1.hash = e.1.hash ∧ Counts group i w.2.2 := by
  obtain ⟨f, htoList, hf⟩ := toList_of_get hb hgroup hdistinct
  rw [htoList] at hwritten
  have hresult : ∀ k < group.length, ∃ e ∈ h.transactions, e.2 = (f k).2 := by
    intro k hk
    obtain ⟨e, he, _, hsame⟩ := mem_of_resultOf (hf k _ (List.getElem?_eq_getElem hk)).2
    exact ⟨e, he, hsame⟩
  have hlogs : ∀ k < group.length, (f k).2.logs.length ≤ isizeMax := by
    intro k hk
    obtain ⟨e, he, hsame⟩ := hresult k hk
    rw [← hsame]
    exact h.fitsVec.logs e he
  have hread : ((List.range group.length).map fun k => (k, f k)).map Prod.snd
      = (List.range group.length).map f := by
    rw [List.map_map]
    rfl
  have hsum : ∀ i, gasSum (((List.range group.length).map f).take i) = gasSum (group.take i) := by
    refine gasSum_congr_gas (List.ext_getElem (by simp) fun k hk hk' => ?_)
    rw [List.getElem_map, List.getElem_map, List.getElem_map, List.getElem_range]
    have hk' : k < group.length := by simpa using hk'
    exact hgas _ (List.getElem_mem hk') _ (hf k _ (List.getElem?_eq_getElem hk')).2
  have hfits : FitsVec ((List.range group.length).map f) := by
    refine ⟨?_, fun e he => ?_⟩
    · rw [List.length_map, List.length_range]
      exact (sublist_of_mem_blockGroups (List.mem_of_getElem? hgroup)).length_le.trans
        h.fitsVec.length
    · obtain ⟨k, hk, rfl⟩ := List.mem_map.mp he
      exact hlogs k (List.mem_range.mp hk)
  have hlisted : ∀ e ∈ (List.range group.length).map fun k => (k, f k),
      e.2.2.logs.length ≤ isizeMax := by
    intro e he
    obtain ⟨k, hk, rfl⟩ := List.mem_map.mp he
    exact hlogs k (List.mem_range.mp hk)
  obtain ⟨hlength, hat⟩ := TransactionStorage.blockReceipts_at _ hlisted hwritten
  rw [List.length_map, List.length_range] at hlength
  refine ⟨hlength, fun i e w he hw => ?_⟩
  obtain ⟨hi, _⟩ := List.getElem?_eq_some_iff.mp he
  have hrow : ((List.range group.length).map fun k => (k, f k))[i]? = some (i, f i) := by
    rw [List.getElem?_map, List.getElem?_range hi]
    rfl
  obtain ⟨htx, hindex, hgasUsed, hlogIndex⟩ := hat i _ w hrow hw
  rw [List.map_take, hread] at hgasUsed hlogIndex
  rw [show (0 : U256).toNat = 0 from rfl, Nat.zero_add] at hgasUsed hlogIndex
  refine ⟨?_, hindex, hgasUsed.trans (hsum i), ?_⟩
  · rw [htx]
    exact (hf i e he).1
  · rw [hlogIndex]
    exact (hfits.take i).logSum_le

/-- Every eth block of the slot that is handed over has receipts that agree with it. -/
def Agrees (h : SlotHistory X block) : Prop :=
  ∀ blockIdx ethBlock, h.result.ethBlocks[blockIdx]? = some ethBlock → h.Handed blockIdx →
    ∃ group, h.groups[blockIdx]? = some group ∧
      ReceiptsAgree X (h.slot, blockIdx) ethBlock group h.recorded

/-- The hashes the transactions have in the blocks tell. -/
def Tells (h : SlotHistory X block) : Prop := HashesTell h.transactions h.groups h.Handed

theorem get_of_handed {blockIdx : Nat} (hhanded : h.Handed blockIdx) :
    ∃ b, h.producerParams.pendingBlocks.get h.slot blockIdx = some b := by
  obtain ⟨hcontains, _⟩ := hhanded
  rw [contains_eq] at hcontains
  exact Option.isSome_iff_exists.mp hcontains

/-- What is written to a row of the slot counts a transaction of the row's hash. -/
theorem counts_of_writes (htells : h.Tells) {e : Slot × Nat × BlockParams} {hash : TxHash}
    {receiptParams : ReceiptParams} (he : e ∈ h.producedBlocks.iter)
    (hwrites : Writes h.producerParams.pendingBlocks e (h.slot, hash) receiptParams) :
    ∃ blockIdx group i a, h.Handed blockIdx ∧ h.groups[blockIdx]? = some group ∧
      group[i]? = some a ∧ a.1.hash = hash ∧ Counts group i receiptParams := by
  obtain ⟨slot, blockIdx, blockParams⟩ := e
  obtain ⟨b, written, w, hb, hwritten, hw, hkey, rfl⟩ := hwrites
  simp only [Prod.mk.injEq] at hkey
  obtain ⟨rfl, rfl⟩ := hkey
  have hhanded : h.Handed blockIdx := by
    refine ⟨?_, blockParams, he⟩
    rw [contains_eq]
    exact Option.isSome_of_eq_some hb
  cases hgroup : h.groups[blockIdx]? with
  | some group =>
      obtain ⟨hlength, hat⟩ := written_at hb hgroup (htells.nodup hhanded hgroup)
        (htells.gas blockIdx group hhanded hgroup) hwritten
      obtain ⟨i, hi, hget⟩ := List.getElem_of_mem hw
      obtain ⟨hhash, hcounts⟩ := hat i _ w (List.getElem?_eq_getElem (hlength ▸ hi))
        (List.getElem?_eq_some_iff.mpr ⟨hi, hget⟩)
      exact ⟨blockIdx, group, i, _, hhanded, hgroup, List.getElem?_eq_getElem (hlength ▸ hi),
        hhash.symm, hcounts⟩
  | none =>
      -- an index without a block has no transactions
      have hnil : b.transactions.toList = [] := by
        rw [List.eq_nil_iff_forall_not_mem]
        intro ⟨k, v⟩ hmem
        obtain ⟨group, _, hgroup', _⟩ := group_of_get hb
          (fun group hgroup' => by rw [hgroup] at hgroup'; cases hgroup')
          ((BTreeMap.mem_toList _ _ _).mp hmem)
        rw [hgroup] at hgroup'
        cases hgroup'
      rw [hnil] at hwritten
      cases hwritten
      cases hw

/-- The row of a transaction of a block that was handed over. -/
theorem row_counts (htells : h.Tells) {blockIdx : Nat} {group : List (Transaction × TxResult)}
    (hhanded : h.Handed blockIdx) (hgroup : h.groups[blockIdx]? = some group) {i : Nat}
    {e : Transaction × TxResult} (he : group[i]? = some e) :
    ∃ row receiptParams, h.recorded.evmTxResult.lookup (h.slot, e.1.hash) = some row ∧
      row.receiptParams = some receiptParams ∧ Counts group i receiptParams ∧
      resultOf h.transactions e.1.hash = some row.txResult := by
  have hloop := TransactionStorage.blocksProduced_loop h.records
  have hmem := h.mem_transactions hgroup (List.mem_of_getElem? he)
  obtain ⟨txResult, hresult⟩ := resultOf_of_mem hmem
  have hstored : storedResult h.produced (h.slot, e.1.hash) = some txResult := by
    rw [h.produces.results, h.holdsResults, hresult]
  obtain ⟨row, hrow, hsame⟩ := Option.map_eq_some_iff.mp hstored
  obtain ⟨row', hrow', hsame', hor⟩ := blockProduced_rows _ hloop hrow
  have hkept : resultOf h.transactions e.1.hash = some row'.txResult := by
    rw [hresult, hsame', hsame]
  -- its own round writes to the row
  obtain ⟨b, hb⟩ := get_of_handed hhanded
  obtain ⟨blockParams, hiter⟩ := hhanded.2
  have hwrites : ∃ p, ∃ a ∈ h.producedBlocks.iter,
      Writes h.producerParams.pendingBlocks a (h.slot, e.1.hash) p := by
    obtain ⟨db₁, db₂, hround⟩ := forTry_body_ok hloop _ hiter
    rw [TransactionStorage.blockProduced, hb] at hround
    simp only at hround
    split at hround
    · cases hround
    · next written hwritten =>
      obtain ⟨hlength, hat⟩ := written_at hb hgroup (htells.nodup hhanded hgroup)
        (htells.gas blockIdx group hhanded hgroup) hwritten
      obtain ⟨hi, _⟩ := List.getElem?_eq_some_iff.mp he
      have hw := List.getElem?_eq_getElem (hlength.symm ▸ hi : i < written.length)
      refine ⟨_, _, hiter, b, written, _, hb, hwritten, List.mem_of_getElem? hw, ?_, rfl⟩
      rw [(hat i e _ he hw).1]
  rcases hor with ⟨_, hnot⟩ | ⟨p, ⟨a, ha, hwritten⟩, hset⟩
  · obtain ⟨p, a, ha, hwritten⟩ := hwrites
    exact absurd ⟨a, ha, hwritten⟩ (hnot p)
  · -- the last round to write to it counted the same
    obtain ⟨blockIdx', group', i', e', hhanded', hgroup', he', hhash, hcounts⟩ :=
      counts_of_writes htells ha hwritten
    obtain ⟨rfl, hgas⟩ := htells.place _ _ _ _ _ _ _ _ hhanded' hhanded hgroup' hgroup he' he hhash
    refine ⟨row', p, hrow', hset, ⟨hcounts.txIndex, hcounts.gas.trans hgas, hcounts.logs⟩, hkept⟩

theorem agrees_of_tells (htells : h.Tells) : h.Agrees := by
  intro blockIdx ethBlock hblock hhanded
  rcases h.sums_at blockIdx with ⟨ethBlock', group, hblock', hgroup, hsums⟩ | ⟨hnone, _⟩
  · rw [hblock] at hblock'
    cases hblock'
    refine ⟨group, hgroup, hsums.transactions, fun i e tx he => ?_⟩
    obtain ⟨row, p, hrow, hset, hcounts, hresult⟩ := row_counts htells hhanded hgroup he
    have hgas := htells.gas blockIdx group hhanded hgroup e (List.mem_of_getElem? he) _ hresult
    have hsum := gasSum_take_succ he
    have hle := gasSum_take_le group (i + 1)
    have hfits := ethBlock.blockGasUsed.isLt
    have htotal := hsums.gas
    have hcount := hcounts.gas
    have hlogs : row.txResult.logs.length ≤ isizeMax := by
      obtain ⟨e', he', _, hsame⟩ := mem_of_resultOf hresult
      rw [← hsame]
      exact h.fitsVec.logs e' he'
    have hmax : isizeMax * isizeMax + 2 * isizeMax < 2 ^ 256 := by decide
    have hlog := hcounts.logs
    have hreturns : ∃ receipt, TransactionStorage.newReceipt X tx row.txResult p = .ok receipt :=
      TransactionStorage.newReceipt_returns (by rw [hgas]; omega) (by omega)
    obtain ⟨receipt, hreceipt⟩ := hreturns
    obtain ⟨hindex, hused, hcumulative⟩ := TransactionStorage.newReceipt_gas hreceipt
    rw [hgas, hcount, ← hsum] at hcumulative
    refine ⟨receipt, ?_, ⟨hindex.trans hcounts.txIndex, by rw [hused, hgas], hcumulative⟩, ?_⟩
    · simp only [receiptIn, hrow, hset, hreceipt, bind, Option.bind_some, pure]
    · intro hlast
      rw [hlast, List.take_length, ← htotal] at hcumulative
      rw [blocksProduced_ethBlock h.records, h.produces.gas, h.waits.gas,
        h.holdsBlocks.gas blockIdx ethBlock hblock, BitVec.eq_of_toNat_eq hcumulative]
  · rw [hblock] at hnone
    cases hnone

/-- Conversely, a hash has one receipt. -/
theorem tells_of_agrees (hagrees : h.Agrees) : h.Tells := by
  have hat : ∀ {b : Nat} {group : List (Transaction × TxResult)} {i : Nat}
      {e : Transaction × TxResult}, h.Handed b → h.groups[b]? = some group → group[i]? = some e →
      ∃ row receipt, h.recorded.evmTxResult.lookup (h.slot, e.1.hash) = some row ∧
        receiptIn X h.recorded (h.slot, e.1.hash) (bareTx 0) = some (.ok receipt) ∧
        receipt.gasUsed = some row.txResult.gasReport.gasValue ∧ IsReceiptAt group i e receipt := by
    intro b group i e hhanded hgroup he
    rcases h.sums_at b with ⟨ethBlock, _, hblock, _, _⟩ | ⟨_, hnone⟩
    · obtain ⟨group', hgroup', hagree⟩ := hagrees b ethBlock hblock hhanded
      rw [hgroup] at hgroup'
      cases hgroup'
      obtain ⟨receipt, hreceipt, hreceiptAt, _⟩ := hagree.receipts i e (bareTx 0) he
      obtain ⟨row, hrow, hnew⟩ := Option.bind_eq_some_iff.mp hreceipt
      obtain ⟨p, _, hnew⟩ := Option.bind_eq_some_iff.mp hnew
      have hnew := Option.some.inj hnew
      exact ⟨row, receipt, hrow, hreceipt, (TransactionStorage.newReceipt_gas hnew).2.1, hreceiptAt⟩
    · rw [hgroup] at hnone
      cases hnone
  constructor
  · intro b b' group group' i j e e' hb hb' hgroup hgroup' he he' hhash
    obtain ⟨_, receipt, _, hreceipt, _, hreceiptAt⟩ := hat hb hgroup he
    obtain ⟨_, receipt', _, hreceipt', _, hreceiptAt'⟩ := hat hb' hgroup' he'
    rw [hhash, hreceipt'] at hreceipt
    cases hreceipt
    have hgas : e.2.gasReport.gasValue = e'.2.gasReport.gasValue :=
      Option.some.inj (hreceiptAt.gasUsed.symm.trans hreceiptAt'.gasUsed)
    have hsum := hreceiptAt.cumulativeGasUsed.symm.trans hreceiptAt'.cumulativeGasUsed
    rw [gasSum_take_succ he, gasSum_take_succ he', hgas] at hsum
    exact ⟨hreceiptAt.transactionIndex.symm.trans hreceiptAt'.transactionIndex, by omega⟩
  · intro b group hb hgroup e he txResult hresult
    obtain ⟨i, hi, rfl⟩ := List.getElem_of_mem he
    obtain ⟨row', receipt, hrow', _, hused, hreceiptAt⟩ :=
      hat hb hgroup (List.getElem?_eq_getElem hi)
    -- the result in the row is the one that was stored
    have hstored : storedResult h.produced (h.slot, group[i].1.hash) = some txResult := by
      rw [h.produces.results, h.holdsResults, hresult]
    obtain ⟨row, hrow, hsame⟩ := Option.map_eq_some_iff.mp hstored
    obtain ⟨row₁, hrow₁, hkept, _⟩ := blockProduced_rows _
      (TransactionStorage.blocksProduced_loop h.records) hrow
    rw [hrow'] at hrow₁
    cases hrow₁
    rw [← hsame, ← hkept]
    exact Option.some.inj (hused.symm.trans hreceiptAt.gasUsed)

end SlotHistory

/-- The receipts of a slot agree with its eth blocks on gas and positions exactly if the
hashes tell. -/
theorem receipts_agree_iff (h : SlotHistory X block) : h.Agrees ↔ h.Tells :=
  ⟨SlotHistory.tells_of_agrees, SlotHistory.agrees_of_tells⟩

/-! ## Two slots -/

def freshDb : Db Unit :=
  { (Db.empty : Db Unit) with
    solSlot := (∅ : HashMap Slot SolSlot).insert 7
      ⟨6, .confirmed, some "11111111111111111111111111111111", some 1⟩ }

/-- Slot 7 with these transactions. -/
def slotSeven (X : Crates) (given : List (Transaction × TxResult)) : BlockParseResult :=
  match createEthBlocks X 0 (some 1) given .engineApi with
  | .ok (blocks, updated) => ⟨7, 0, 0, some 1, updated, blocks⟩
  | .error _ => ⟨7, 0, 0, some 1, [], []⟩

theorem slotNumber_slotSeven (X : Crates) (given : List (Transaction × TxResult)) :
    (slotSeven X given).slotNumber = 7 := by
  rw [slotSeven]
  split <;> rfl

/-- The first blocks of slot 7, as they are recorded. -/
def producedAll (n : Nat) : ProducedBlocks :=
  (List.range n).foldl (fun produced i => ProducedBlocks.insert produced 7 i ⟨i, none, i, 1⟩) ∅

/-- The state a call leaves behind. -/
def afterCall (call : Db block → Outcome (Unit × Db block)) (db : Db block) : Db block :=
  match call db with
  | .ok (_, db') => db'
  | .error _ => db

def sevenParsed (X : StorageCrates) (given : List (Transaction × TxResult)) :
    BTreeMap Slot BlockParseResult :=
  (∅ : BTreeMap Slot BlockParseResult).insert 7 (slotSeven X.toCrates given)

def sevenRegistered (X : StorageCrates) (given : List (Transaction × TxResult)) : Db Unit :=
  afterCall (TransactionStorage.registerParseResults X (sevenParsed X given)) freshDb

def sevenStored (X : StorageCrates) (given : List (Transaction × TxResult)) : Db Unit :=
  afterCall (storeEthBlocks (sevenParsed X given)) (sevenRegistered X given)

def sevenParams (X : StorageCrates) (given : List (Transaction × TxResult)) : ProducerParams :=
  match getPendingBlocks X (sevenStored X given) with
  | .ok (some params) => params
  | _ => ⟨none, none, ∅⟩

def sevenProduced (X : StorageCrates) (given : List (Transaction × TxResult)) (n : Nat) : Db Unit :=
  recordAllParams (sevenParams X given).pendingBlocks (producedAll n) (sevenStored X given)

def sevenRecorded (X : StorageCrates) (given : List (Transaction × TxResult)) (n : Nat) : Db Unit :=
  afterCall (TransactionStorage.blocksProduced (sevenParams X given).pendingBlocks (producedAll n))
    (sevenProduced X given n)

theorem filedBySlot_sevenParsed (X : StorageCrates) (given : List (Transaction × TxResult)) :
    FiledBySlot (sevenParsed X given) := by
  intro slot result hresult
  rw [sevenParsed, BTreeMap.get?_insert] at hresult
  split at hresult
  · next hslot =>
    cases hresult
    rw [slotNumber_slotSeven, hslot]
  · rw [Std.ExtTreeMap.getElem?_empty] at hresult
    cases hresult

/-- The history of slot 7, when all calls return. -/
def sevenHistory (X : StorageCrates) (given : List (Transaction × TxResult)) (n : Nat)
    (fits : FitsVec given)
    (created : createEthBlocks X.toCrates 0 (some 1) given .engineApi
      = .ok ((slotSeven X.toCrates given).ethBlocks, (slotSeven X.toCrates given).transactions))
    (registers : TransactionStorage.registerParseResults X (sevenParsed X given) freshDb
      = .ok ((), sevenRegistered X given))
    (stores : storeEthBlocks (sevenParsed X given) (sevenRegistered X given)
      = .ok ((), sevenStored X given))
    (byHash : TxsByHash X (sevenStored X given))
    (handsOver : getPendingBlocks X (sevenStored X given) = .ok (some (sevenParams X given)))
    (records : TransactionStorage.blocksProduced (sevenParams X given).pendingBlocks
      (producedAll n) (sevenProduced X given n) = .ok ((), sevenRecorded X given n)) :
    SlotHistory X Unit where
  given := given
  blockhash := 0
  timestamp := some 1
  mode := .engineApi
  parseResults := sevenParsed X given
  result := slotSeven X.toCrates given
  producerParams := sevenParams X given
  producedBlocks := producedAll n
  empty := freshDb
  registered := sevenRegistered X given
  stored := sevenStored X given
  pending := sevenStored X given
  produced := sevenProduced X given n
  recorded := sevenRecorded X given n
  fits := fits
  created := created
  filed := filedBySlot_sevenParsed X given
  parsed := by rw [slotNumber_slotSeven, sevenParsed, BTreeMap.get?_insert, if_pos rfl]
  noBlocks _ := rfl
  oldResults _ := Or.inl rfl
  registers := registers
  stores := stores
  waits := .refl _ _
  byHash := byHash
  handsOver := handsOver
  produces := keepsSlot_recordAllParams _ _ _ _
  records := records

def alternatingHistory : SlotHistory chainStandIns Unit :=
  sevenHistory chainStandIns alternating 3 ⟨by decide, by decide⟩ rfl rfl rfl
    (txsByHash_of_entries (by decide)) rfl rfl

/-- Three blocks without deposits. -/
theorem alternating_receipts_agree :
    (∀ blockIdx < 3, alternatingHistory.Handed blockIdx) ∧ alternatingHistory.Agrees := by
  refine ⟨?_, (receipts_agree_iff alternatingHistory).mpr ?_⟩
  · have hall : ∀ i < 3,
        PendingBlocks.contains alternatingHistory.producerParams.pendingBlocks 7 i = true ∧
          ((7 : Slot), i, (⟨BitVec.ofNat 256 i, none, i, 1⟩ : BlockParams)) ∈ (producedAll 3).iter := by
      decide
    exact fun blockIdx hlt => ⟨(hall blockIdx hlt).1, _, (hall blockIdx hlt).2⟩
  · refine hashesTell_of_nodup ?_ _
    rw [SlotHistory.transactions, rehashed_of_no_deposits (by decide)]
    decide

/-- Crates to which a deposit's hash is its source hash, and a digest is the last byte. -/
def depositCrates : StorageCrates :=
  { chainStandIns with ethers := { chainStandIns.ethers with
      keccak256 := fun b => digest (b.drop (b.length - 1))
      hash := fun tx => tx.sourceHash } }

def depositTx (hash : TxHash) : Transaction × TxResult :=
  ({ bareTx hash with transactionType := some depositTxType, sourceHash := hash }, .default)

/-- Two deposits that differ in the source hash they are given. -/
def twoDeposits : List (Transaction × TxResult) := [depositTx 1, depositTx 2]

def depositHistory : SlotHistory depositCrates Unit :=
  sevenHistory depositCrates twoDeposits 1 ⟨by decide, by decide⟩ rfl rfl rfl
    (txsByHash_of_entries (by decide)) rfl rfl

/-- They get one hash, and with it one receipt. -/
theorem deposits_share_receipt :
    depositHistory.given = twoDeposits ∧ (hashesOf twoDeposits).Nodup ∧
      gasSum twoDeposits < 2 ^ 256 ∧ depositHistory.Handed 0 ∧
      depositHistory.result.ethBlocks.map EthBlock.transactions = [[0, 0]] ∧
      ¬ depositHistory.Agrees := by
  have hhanded : depositHistory.Handed 0 := by
    have hmem : ((7 : Slot), 0, (⟨0, none, 0, 1⟩ : BlockParams)) ∈ (producedAll 1).iter := by decide
    exact ⟨by decide, _, hmem⟩
  refine ⟨rfl, by decide, by decide, hhanded, rfl, fun hagrees => ?_⟩
  have hplace := (SlotHistory.tells_of_agrees hagrees).place 0 0 _ _ 0 1 _ _ hhanded hhanded
    rfl rfl rfl rfl rfl
  exact absurd hplace.1 Nat.zero_ne_one

end PgStorage

end RomeSdk
