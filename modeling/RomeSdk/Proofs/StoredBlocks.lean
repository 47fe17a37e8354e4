import RomeSdk.Lib.NestedMaps
import RomeSdk.PgStorage.EthereumBlockStorage

/-!
# What is stored of a slot

`register_parse_results` goes through all parse results, block by block and transaction by
transaction, and inserts what is not there yet. A row is keyed by the block or the
transaction it is about, so of the rounds of a loop one alone touches it (`forTry_at`). For
a slot without rows the tables then hold the parse result of the slot: each eth block with
the sum of its gas, its transactions by their position, and the result of each.
-/

namespace RomeSdk

open ItemId (Before)

namespace PgStorage

variable {block : Type} {X : StorageCrates}

/-! ## The transactions of a block -/

theorem storeTx_other {id : EthBlockId} {e : TxHash × Nat} {key : EthBlockId × TxHash}
    (h : (id, e.1) ≠ key) (db : Db block) :
    (storeTx id db e).1.ethBlockTxs.lookup key = db.ethBlockTxs.lookup key := by
  rw [storeTx]
  split
  · rfl
  · split
    · show (db.ethBlockTxs.insertIfNew (id, e.1) e.2).lookup key = _
      rw [HashMap.lookup_insertIfNew, if_neg h]
    · rfl

theorem storeTx_new {id : EthBlockId} {e : TxHash × Nat} {db db' : Db block}
    (hnew : db.ethBlockTxs.lookup (id, e.1) = none) (h : storeTx id db e = (db', .ok ())) :
    db'.ethBlockTxs.lookup (id, e.1) = some e.2 := by
  rw [storeTx, if_neg (AList.lookup_eq_none.mp hnew)] at h
  split at h
  · cases h
    rw [HashMap.lookup_insertIfNew, if_pos rfl, hnew]
    rfl
  · cases h

/-- The transactions and their results. -/
def txRows (db : Db block) : HashMap TxHash Bytes × HashMap (Slot × TxHash) EvmTxResult :=
  (db.evmTx, db.evmTxResult)

/-- The loop leaves everything but `eth_block_txs` alone, and there the other blocks. -/
theorem storeTxs_frame (id : EthBlockId) (l : List (TxHash × Nat)) (db : Db block) :
    (forTry (storeTx id) l db).1.ethBlock = db.ethBlock ∧
      txRows (forTry (storeTx id) l db).1 = txRows db ∧
      ∀ key : EthBlockId × TxHash, key.1 ≠ id →
        (forTry (storeTx id) l db).1.ethBlockTxs.lookup key = db.ethBlockTxs.lookup key := by
  refine forTry_invariant (P := fun db' : Db block => db'.ethBlock = db.ethBlock ∧
    txRows db' = txRows db ∧ ∀ key : EthBlockId × TxHash, key.1 ≠ id →
      db'.ethBlockTxs.lookup key = db.ethBlockTxs.lookup key) ?_ ⟨rfl, rfl, fun _ _ => rfl⟩
  intro db' e _ h
  obtain ⟨hblock, hresult, htxs⟩ := h
  refine ⟨?_, ?_, fun key hkey => ?_⟩
  · rw [← hblock, storeTx]
    split
    · rfl
    · split <;> rfl
  · rw [← hresult, storeTx]
    split
    · rfl
    · split <;> rfl
  · rw [storeTx_other (fun heq => hkey (congrArg Prod.fst heq).symm), htxs key hkey]

/-- A block without rows gets one for each of its transactions, with its position. -/
theorem storeTxs_stores {id : EthBlockId} {hashes : List TxHash} (hnodup : hashes.Nodup)
    {db db' : Db block} (hnew : ∀ hash, db.ethBlockTxs.lookup (id, hash) = none)
    (h : forTry (storeTx id) hashes.zipIdx db = (db', .ok ())) (hash : TxHash) (k : Nat) :
    db'.ethBlockTxs.lookup (id, hash) = some k ↔ hashes[k]? = some hash := by
  have hstored : ∀ j, hashes[j]? = some hash → db'.ethBlockTxs.lookup (id, hash) = some j := by
    intro j hj
    have hmem : (hash, j) ∈ hashes.zipIdx := by
      rw [List.mem_zipIdx_iff_getElem?]
      exact hj
    have hkeys : (hashes.zipIdx.map Prod.fst).Nodup := by
      rw [List.zipIdx_map_fst]
      exact hnodup
    obtain ⟨before, after, hsplit, hother⟩ := exists_split_of_nodup_map hkeys hmem
    rw [hsplit] at h
    obtain ⟨db₁, db₂, hbefore, hstore, hafter⟩ :=
      forTry_at (f := fun db : Db block => db.ethBlockTxs.lookup (id, hash))
        (fun b hb db => storeTx_other (fun heq => hother b hb (congrArg Prod.snd heq)) db) h
    have hrow := storeTx_new (hbefore.trans (hnew hash)) hstore
    exact hafter.trans hrow
  constructor
  · intro hrow
    by_cases hmem : hash ∈ hashes
    · obtain ⟨j, hj, hget⟩ := List.getElem_of_mem hmem
      have hj : hashes[j]? = some hash := by rw [List.getElem?_eq_getElem hj, hget]
      rw [hstored j hj] at hrow
      cases hrow
      exact hj
    · -- no round touches a hash that is not listed
      have hkept :
          (forTry (storeTx id) hashes.zipIdx db).1.ethBlockTxs.lookup (id, hash) = none := by
        refine forTry_invariant (P := fun db₁ : Db block =>
          db₁.ethBlockTxs.lookup (id, hash) = none) ?_ (hnew hash)
        intro db₁ e he hnone
        rw [storeTx_other ?_, hnone]
        intro heq
        have hhash : e.1 = hash := congrArg Prod.snd heq
        have hfst : e.1 ∈ hashes.zipIdx.map Prod.fst := List.mem_map_of_mem he
        rw [List.zipIdx_map_fst, hhash] at hfst
        exact hmem hfst
      rw [h] at hkept
      rw [hkept] at hrow
      cases hrow
  · exact hstored k

/-! ## The blocks -/

/-- The rows of a block. -/
def blockRows (id : EthBlockId) (db : Db block) : Option EthBlockHeader × (TxHash → Option Nat) :=
  (db.ethBlock.lookup id, fun hash => db.ethBlockTxs.lookup (id, hash))

theorem storeRollupHeader_frame (slotNumber : Slot) (blockIdx : Nat) (ethBlock : EthBlock)
    (db : Db block) :
    (storeRollupHeader slotNumber blockIdx ethBlock db).1.ethBlockTxs = db.ethBlockTxs ∧
      txRows (storeRollupHeader slotNumber blockIdx ethBlock db).1 = txRows db ∧
      ∀ id, (slotNumber, blockIdx) ≠ id →
        (storeRollupHeader slotNumber blockIdx ethBlock db).1.ethBlock.lookup id
          = db.ethBlock.lookup id := by
  rw [storeRollupHeader]
  split
  · exact ⟨rfl, rfl, fun _ _ => rfl⟩
  · split
    · refine ⟨rfl, rfl, fun id hid => ?_⟩
      show (db.ethBlock.insertIfNew (slotNumber, blockIdx) _).lookup id = _
      rw [HashMap.lookup_insertIfNew, if_neg hid]
    · exact ⟨rfl, rfl, fun _ _ => rfl⟩

theorem storeEthBlock_other {e : EthBlockId × EthBlock} {id : EthBlockId} (hid : e.1 ≠ id)
    (db : Db block) : blockRows id (storeEthBlock db e).1 = blockRows id db := by
  obtain ⟨htxs, _, hheader⟩ := storeRollupHeader_frame e.1.1 e.1.2 e.2 db
  have hrows : blockRows id (storeRollupHeader e.1.1 e.1.2 e.2 db).1 = blockRows id db := by
    rw [blockRows, blockRows, htxs, hheader id hid]
  rw [storeEthBlock]
  split
  · next db₁ hstored =>
    rw [hstored] at hrows
    obtain ⟨hblock, _, hkept⟩ := storeTxs_frame e.1 e.2.transactions.zipIdx db₁
    rw [← hrows, blockRows, blockRows, hblock, Prod.mk.injEq]
    exact ⟨rfl, funext fun hash => hkept (id, hash) (Ne.symm hid)⟩
  · next db₁ err hstored =>
    rw [hstored] at hrows
    exact hrows

/-- The header of a stored block, before the block is produced. -/
def headerOf (ethBlock : EthBlock) : EthBlockHeader :=
  ⟨ethBlock.blockGasUsed, ethBlock.gasRecipient, ethBlock.slotTimestamp, none⟩

theorem storeEthBlock_stores {id : EthBlockId} {ethBlock : EthBlock} {db db' : Db block}
    (hnew : blockRows id db = (none, fun _ => none))
    (h : storeEthBlock db (id, ethBlock) = (db', .ok ())) :
    db'.ethBlock.lookup id = some (headerOf ethBlock) ∧ (ethBlock.transactions.Nodup → ∀ hash k,
      db'.ethBlockTxs.lookup (id, hash) = some k ↔ ethBlock.transactions[k]? = some hash) := by
  rw [blockRows, Prod.mk.injEq] at hnew
  obtain ⟨hnone, htxs⟩ := hnew
  have hnoTx : ∀ hash, db.ethBlockTxs.lookup (id, hash) = none := fun hash => congrFun htxs hash
  obtain ⟨hsame, _, _⟩ := storeRollupHeader_frame id.1 id.2 ethBlock db
  rw [storeEthBlock] at h
  split at h
  · next db₁ hstored =>
    have hheader : db₁.ethBlock.lookup id = some (headerOf ethBlock) := by
      rw [storeRollupHeader, if_neg (AList.lookup_eq_none.mp hnone)] at hstored
      split at hstored
      · cases hstored
        rw [HashMap.lookup_insertIfNew, if_pos rfl, hnone]
        rfl
      · cases hstored
    rw [hstored] at hsame
    have hframe := (storeTxs_frame id ethBlock.transactions.zipIdx db₁).1
    rw [h] at hframe
    refine ⟨hframe ▸ hheader, fun hnodup => ?_⟩
    exact storeTxs_stores hnodup (fun hash => by rw [hsame, hnoTx]) h
  · cases h

theorem ethBlocksOf_ascending (parseResults : BTreeMap Slot BlockParseResult) :
    (ethBlocksOf parseResults).Pairwise fun a b => Before a.1 b.1 := by
  rw [ethBlocksOf, List.pairwise_flatMap]
  constructor
  · intro e _
    rw [List.pairwise_map, List.pairwise_iff_getElem]
    intro i j hi hj hlt
    rw [List.getElem_zipIdx, List.getElem_zipIdx]
    refine Or.inr ⟨rfl, ?_⟩
    show 0 + i < 0 + j
    omega
  · refine (BTreeMap.toList_ascending parseResults).imp ?_
    intro e e' hlt a ha b hb
    obtain ⟨_, _, rfl⟩ := List.mem_map.mp ha
    obtain ⟨_, _, rfl⟩ := List.mem_map.mp hb
    exact Or.inl hlt

theorem mem_ethBlocksOf {parseResults : BTreeMap Slot BlockParseResult} {slot : Slot}
    {result : BlockParseResult} (hresult : parseResults[slot]? = some result) {blockIdx : Nat}
    {ethBlock : EthBlock} :
    ((slot, blockIdx), ethBlock) ∈ ethBlocksOf parseResults ↔
      result.ethBlocks[blockIdx]? = some ethBlock := by
  rw [ethBlocksOf, List.mem_flatMap]
  constructor
  · intro h
    obtain ⟨e, he, hmem⟩ := h
    obtain ⟨b, hb, heq⟩ := List.mem_map.mp hmem
    simp only [Prod.mk.injEq] at heq
    obtain ⟨⟨rfl, rfl⟩, rfl⟩ := heq
    rw [BTreeMap.mem_toList parseResults e.1 e.2, hresult] at he
    cases he
    exact List.mem_zipIdx_iff_getElem?.mp hb
  · intro h
    refine ⟨(slot, result), (BTreeMap.mem_toList parseResults slot result).mpr hresult, ?_⟩
    exact List.mem_map.mpr ⟨(ethBlock, blockIdx), List.mem_zipIdx_iff_getElem?.mpr h, rfl⟩

/-- What the tables hold of the blocks of a slot. A transaction that is listed twice in a
block is not there twice, so of such a block nothing is said. -/
structure HoldsBlocks (slot : Slot) (ethBlocks : List EthBlock) (db : Db block) : Prop where
  gas : ∀ blockIdx ethBlock, ethBlocks[blockIdx]? = some ethBlock →
    (db.ethBlock.lookup (slot, blockIdx)).map EthBlockHeader.blockGasUsed
      = some ethBlock.blockGasUsed
  txs : ∀ blockIdx ethBlock, ethBlocks[blockIdx]? = some ethBlock →
    ethBlock.transactions.Nodup → ∀ hash k,
      db.ethBlockTxs.lookup ((slot, blockIdx), hash) = some k ↔
        ethBlock.transactions[k]? = some hash
  none : ∀ blockIdx, ethBlocks[blockIdx]? = none → ∀ hash,
    db.ethBlockTxs.lookup ((slot, blockIdx), hash) = none

theorem storeEthBlocks_stores {parseResults : BTreeMap Slot BlockParseResult} {slot : Slot}
    {result : BlockParseResult} (hresult : parseResults[slot]? = some result) {db db' : Db block}
    (hnew : ∀ blockIdx, blockRows (slot, blockIdx) db = (none, fun _ => none))
    (h : storeEthBlocks parseResults db = .ok ((), db')) :
    HoldsBlocks slot result.ethBlocks db' := by
  have hloop := storeEthBlocks_loop h
  have hkeys : ((ethBlocksOf parseResults).map Prod.fst).Nodup := by
    refine List.pairwise_map.mpr ((ethBlocksOf_ascending parseResults).imp ?_)
    intro a b hlt heq
    rw [heq] at hlt
    exact ItemId.Before.irrefl _ hlt
  have hstored : ∀ blockIdx ethBlock, result.ethBlocks[blockIdx]? = some ethBlock →
      db'.ethBlock.lookup (slot, blockIdx) = some (headerOf ethBlock) ∧
        (ethBlock.transactions.Nodup → ∀ hash k,
          db'.ethBlockTxs.lookup ((slot, blockIdx), hash) = some k ↔
            ethBlock.transactions[k]? = some hash) := by
    intro blockIdx ethBlock hblock
    obtain ⟨before, after, hsplit, hother⟩ :=
      exists_split_of_nodup_map hkeys ((mem_ethBlocksOf hresult).mpr hblock)
    rw [hsplit] at hloop
    obtain ⟨db₁, db₂, hbefore, hstore, hafter⟩ :=
      forTry_at (f := fun db : Db block => blockRows (slot, blockIdx) db)
        (fun b hb db => storeEthBlock_other (hother b hb) db) hloop
    obtain ⟨hheader, htxs⟩ := storeEthBlock_stores (hbefore.trans (hnew blockIdx)) hstore
    rw [blockRows, blockRows, Prod.mk.injEq] at hafter
    refine ⟨hafter.1.trans hheader, fun hnodup hash k => ?_⟩
    rw [← htxs hnodup hash k, congrFun hafter.2 hash]
  constructor
  · intro blockIdx ethBlock hblock
    rw [(hstored blockIdx ethBlock hblock).1]
    rfl
  · intro blockIdx ethBlock hblock
    exact (hstored blockIdx ethBlock hblock).2
  · -- an index without a block is not touched
    intro blockIdx hnone hash
    have hkept : blockRows (slot, blockIdx) db' = (none, fun _ => none) := by
      refine forTry_kept (P := fun db₁ : Db block =>
        blockRows (slot, blockIdx) db₁ = (none, fun _ => none)) hloop ?_ (hnew blockIdx)
      intro db₁ e he hrows
      rw [storeEthBlock_other ?_, hrows]
      intro heq
      obtain ⟨id, ethBlock⟩ := e
      cases heq
      rw [(mem_ethBlocksOf hresult).mp he] at hnone
      cases hnone
    rw [blockRows, Prod.mk.injEq] at hkept
    exact congrFun hkept.2 hash

theorem storeEthBlock_txRows (e : EthBlockId × EthBlock) (db : Db block) :
    txRows (storeEthBlock db e).1 = txRows db := by
  have hheader := (storeRollupHeader_frame e.1.1 e.1.2 e.2 db).2.1
  rw [storeEthBlock]
  split
  · next db₁ hstored =>
    rw [hstored] at hheader
    rw [← hheader]
    exact (storeTxs_frame _ _ db₁).2.1
  · next db₁ err hstored =>
    rw [hstored] at hheader
    exact hheader

theorem storeEthBlocks_txRows {parseResults : BTreeMap Slot BlockParseResult} {db db' : Db block}
    (h : storeEthBlocks parseResults db = .ok ((), db')) : txRows db' = txRows db := by
  refine forTry_kept (P := fun db₁ : Db block => txRows db₁ = txRows db) (storeEthBlocks_loop h)
    ?_ rfl
  intro db₁ e _ hsame
  exact (storeEthBlock_txRows e db₁).trans hsame

/-! ## The results -/

/-- A parse result is filed under its slot. -/
def FiledBySlot (parseResults : BTreeMap Slot BlockParseResult) : Prop :=
  ∀ (slot : Slot) (result : BlockParseResult), parseResults[slot]? = some result →
    result.slotNumber = slot

/-- The result of a hash in a list: that of the first transaction with it. -/
def resultOf (transactions : List (Transaction × TxResult)) (hash : TxHash) : Option TxResult :=
  (transactions.find? fun e => e.1.hash = hash).map Prod.snd

theorem resultOf_cons (e : Transaction × TxResult) (transactions : List (Transaction × TxResult))
    (hash : TxHash) : resultOf (e :: transactions) hash =
      if e.1.hash = hash then some e.2 else resultOf transactions hash := by
  rw [resultOf, List.find?_cons]
  by_cases h : e.1.hash = hash
  · simp [h]
  · simp [h, resultOf]

theorem mem_of_resultOf {transactions : List (Transaction × TxResult)} {hash : TxHash}
    {txResult : TxResult} (h : resultOf transactions hash = some txResult) :
    ∃ e ∈ transactions, e.1.hash = hash ∧ e.2 = txResult := by
  obtain ⟨e, hfind, rfl⟩ := Option.map_eq_some_iff.mp h
  have hhash := List.find?_some hfind
  exact ⟨e, List.mem_of_find?_eq_some hfind, by simpa using hhash, rfl⟩

theorem resultOf_of_mem {transactions : List (Transaction × TxResult)}
    {e : Transaction × TxResult} (h : e ∈ transactions) :
    ∃ txResult, resultOf transactions e.1.hash = some txResult := by
  rw [← Option.isSome_iff_exists, resultOf, Option.isSome_map, List.find?_isSome]
  exact ⟨e, h, decide_eq_true rfl⟩

/-- The result that is stored of a transaction in a slot. -/
def storedResult (db : Db block) (key : Slot × TxHash) : Option TxResult :=
  (db.evmTxResult.lookup key).map EvmTxResult.txResult

/-- The results that are stored of a slot are those of the list, and the transactions of
the list are stored. -/
structure HoldsResults (slot : Slot) (transactions : List (Transaction × TxResult))
    (db : Db block) : Prop where
  results : ∀ hash, storedResult db (slot, hash) = resultOf transactions hash
  txs : ∀ e ∈ transactions, e.1.hash ∈ db.evmTx

theorem registerTransaction_other {slotNumber : Slot} {e : Transaction × TxResult}
    {key : Slot × TxHash} (h : (slotNumber, e.1.hash) ≠ key) (db : Db block) :
    storedResult (TransactionStorage.registerTransaction X slotNumber db e).1 key
      = storedResult db key := by
  simp only [TransactionStorage.registerTransaction, storedResult]
  split
  · rfl
  · split
    · rw [HashMap.lookup_insertIfNew, if_neg h]
    · rfl

theorem registerTransaction_own {slotNumber : Slot} {e : Transaction × TxResult} {db db' : Db block}
    (h : TransactionStorage.registerTransaction X slotNumber db e = (db', .ok ())) :
    storedResult db' (slotNumber, e.1.hash)
      = some ((storedResult db (slotNumber, e.1.hash)).getD e.2) := by
  simp only [TransactionStorage.registerTransaction] at h
  split at h
  · next hold =>
    cases h
    obtain ⟨row, hrow⟩ := HashMap.lookup_of_mem hold
    have hrow : db.evmTxResult.lookup (slotNumber, e.1.hash) = some row := hrow
    simp only [storedResult, hrow, Option.map_some, Option.getD_some]
  · next hnew =>
    have hnone : db.evmTxResult.lookup (slotNumber, e.1.hash) = none :=
      AList.lookup_eq_none.mpr hnew
    split at h
    · cases h
      simp only [storedResult, HashMap.lookup_insertIfNew, if_true, hnone, Option.map_none,
        Option.getD_none, Option.map_some]
    · cases h

theorem mem_evmTx_registerTransaction (slotNumber : Slot) (e : Transaction × TxResult)
    (hash : TxHash) (db : Db block) :
    hash ∈ (TransactionStorage.registerTransaction X slotNumber db e).1.evmTx ↔
      hash = e.1.hash ∨ hash ∈ db.evmTx := by
  have hinsert : hash ∈ db.evmTx.insertIfNew e.1.hash (X.rlp e.1) ↔
      hash = e.1.hash ∨ hash ∈ db.evmTx := by
    rw [← AList.lookup_isSome, ← AList.lookup_isSome, HashMap.lookup_insertIfNew]
    by_cases hhash : e.1.hash = hash
    · rw [if_pos hhash]
      exact iff_of_true rfl (Or.inl hhash.symm)
    · rw [if_neg hhash]
      exact (or_iff_right (Ne.symm hhash)).symm
  simp only [TransactionStorage.registerTransaction]
  split
  · exact hinsert
  · split <;> exact hinsert

/-- The loop over the transactions of one parse result. -/
theorem registerTransactions_stores {slot : Slot} (transactions : List (Transaction × TxResult)) :
    ∀ {db db' : Db block},
    forTry (TransactionStorage.registerTransaction X slot) transactions db = (db', .ok ()) →
    ∀ hash, storedResult db' (slot, hash)
      = (storedResult db (slot, hash)).or (resultOf transactions hash) := by
  induction transactions with
  | nil =>
      intro db db' h hash
      cases h
      rw [resultOf, List.find?_nil, Option.map_none, Option.or_none]
  | cons e transactions ih =>
      intro db db' h hash
      obtain ⟨db₁, hfirst, hrest⟩ := forTry_cons_inv h
      rw [ih hrest, resultOf_cons]
      by_cases hhash : e.1.hash = hash
      · subst hhash
        rw [registerTransaction_own hfirst, if_pos rfl]
        cases storedResult db (slot, e.1.hash) <;> rfl
      · have hother : (slot, e.1.hash) ≠ (slot, hash) := fun heq => hhash (congrArg Prod.snd heq)
        have hkept := registerTransaction_other (X := X) hother db
        rw [hfirst] at hkept
        rw [if_neg hhash]
        exact congrArg (Option.or · _) hkept

/-- The transactions of another slot. -/
theorem registerTransactions_other {slotNumber slot : Slot} (hne : slotNumber ≠ slot)
    (transactions : List (Transaction × TxResult)) (db : Db block) :
    (fun hash => storedResult
      (forTry (TransactionStorage.registerTransaction X slotNumber) transactions db).1 (slot, hash))
      = fun hash => storedResult db (slot, hash) := by
  funext hash
  refine forTry_invariant (P := fun db₁ : Db block =>
    storedResult db₁ (slot, hash) = storedResult db (slot, hash)) ?_ rfl
  intro db₁ t _ hsame
  rw [registerTransaction_other (fun heq => hne (congrArg Prod.fst heq)), hsame]

/-- Results of the slot that are there already are those of an earlier try. -/
theorem registerParseResults_stores {parseResults : BTreeMap Slot BlockParseResult}
    (hfiled : FiledBySlot parseResults) {slot : Slot} {result : BlockParseResult}
    (hresult : parseResults[slot]? = some result) {db db' : Db block}
    (hold : ∀ hash, storedResult db (slot, hash) = none ∨
      storedResult db (slot, hash) = resultOf result.transactions hash)
    (h : TransactionStorage.registerParseResults X parseResults db = .ok ((), db')) :
    HoldsResults slot result.transactions db' := by
  have hall := TransactionStorage.registerParseResults_loop h
  -- the loop over all transactions is one over the parse results
  have hloop : forTry (fun db (e : Slot × BlockParseResult) =>
      forTry (TransactionStorage.registerTransaction X e.2.slotNumber) e.2.transactions db)
      parseResults.toList db = (db', .ok ()) := by
    rw [← hall, ← forTry_flatMap]
    refine congrArg (fun body => forTry body parseResults.toList db) ?_
    funext db₁ e
    rw [forTry_map]
  have hkeys := BTreeMap.keys_nodup parseResults
  obtain ⟨before, after, hsplit, hother⟩ := exists_split_of_nodup_map hkeys
    ((BTreeMap.mem_toList parseResults slot result).mpr hresult)
  have hslots : ∀ b, b ∈ before ∨ b ∈ after → b.2.slotNumber ≠ slot := by
    intro b hb
    have hmem : b ∈ parseResults.toList := by
      rw [hsplit]
      rcases hb with hb | hb
      · exact List.mem_append_left _ hb
      · exact List.mem_append_right _ (List.mem_cons_of_mem _ hb)
    rw [hfiled b.1 b.2 ((BTreeMap.mem_toList parseResults b.1 b.2).mp hmem)]
    exact hother b hb
  have hkept : ∀ b, b ∈ before ∨ b ∈ after → ∀ db₀ : Db block,
      (fun hash => storedResult (forTry (TransactionStorage.registerTransaction X b.2.slotNumber)
        b.2.transactions db₀).1 (slot, hash)) = fun hash => storedResult db₀ (slot, hash) := by
    intro b hb db₀
    exact registerTransactions_other (hslots b hb) b.2.transactions db₀
  rw [hsplit] at hloop
  obtain ⟨db₁, db₂, hbefore, hstore, hafter⟩ :=
    forTry_at (f := fun (db : Db block) hash => storedResult db (slot, hash)) hkept hloop
  rw [hfiled slot result hresult] at hstore
  constructor
  · intro hash
    have hbefore : storedResult db₁ (slot, hash) = storedResult db (slot, hash) :=
      congrFun hbefore hash
    have hafter : storedResult db' (slot, hash) = storedResult db₂ (slot, hash) :=
      congrFun hafter hash
    rw [hafter, registerTransactions_stores _ hstore hash, hbefore]
    rcases hold hash with hnone | hsame
    · rw [hnone, Option.none_or]
    · rw [hsame, Option.or_self]
  · intro e he
    refine forTry_establishes (P := fun db : Db block => e.1.hash ∈ db.evmTx)
      (a := (slot, e)) ?_ ?_ ?_ hall
    · refine List.mem_flatMap.mpr ⟨(slot, result), ?_, ?_⟩
      · exact (BTreeMap.mem_toList parseResults slot result).mpr hresult
      · rw [hfiled slot result hresult]
        exact List.mem_map.mpr ⟨e, he, rfl⟩
    · intro db₀ db₀' hround
      have hmem := mem_evmTx_registerTransaction (X := X) slot e e.1.hash db₀
      rw [hround] at hmem
      exact hmem.mpr (Or.inl rfl)
    · intro db₀ b _ hmem
      exact (mem_evmTx_registerTransaction b.1 b.2 e.1.hash db₀).mpr (Or.inr hmem)

/-- The blocks are left alone. -/
theorem registerParseResults_blockRows {parseResults : BTreeMap Slot BlockParseResult}
    {db db' : Db block}
    (h : TransactionStorage.registerParseResults X parseResults db = .ok ((), db'))
    (id : EthBlockId) : blockRows id db' = blockRows id db := by
  refine forTry_kept (P := fun db₁ : Db block => blockRows id db₁ = blockRows id db)
    (TransactionStorage.registerParseResults_loop h) ?_ rfl
  intro db₁ e _ hsame
  rw [← hsame]
  simp only [TransactionStorage.registerTransaction]
  split
  · rfl
  · split <;> rfl

end PgStorage

end RomeSdk
