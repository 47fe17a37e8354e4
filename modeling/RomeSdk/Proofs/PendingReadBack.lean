import RomeSdk.Proofs.PendingRows
import RomeSdk.Proofs.RecordedParams
import RomeSdk.Proofs.StoredBlocks

/-!
# What a pending block holds

`get_pending_blocks` files each row of the second view under its block and its index. When
it returns, no two rows fell on one place, so a block that is pending holds exactly the
transactions the tables list for it, each with the result stored in its slot
(`getPendingBlocks_reads`). Nothing else is asked of the tables.
-/

namespace RomeSdk

namespace PgStorage

variable {block : Type} {X : StorageCrates} {db : Db block}

/-! ## Filing -/

/-- The transaction filed under a block and an index. -/
def txAt (pending : PendingBlocks) (id : EthBlockId) (k : Nat) : Option (Transaction × TxResult) :=
  (pending.get id.1 id.2).bind fun b => b.transactions[k]?

theorem fileTx_inv {gasRecipient : Option Address} {occupied : String} {slot : Slot} {i k : Nat}
    {rlp : Bytes} {txResult : TxResult} {pending pending' : PendingBlocks} {l1Block : PendingL1Block}
    (h : fileTx X gasRecipient occupied slot i k rlp txResult pending l1Block = .ok pending') :
    ∃ t, X.ethers.decode rlp = .ok t ∧
      (l1Block.l2Blocks[i]?.bind fun b => b.transactions[k]?) = none ∧
      ∀ (id : EthBlockId) k', txAt pending' id k' =
        if (id, k') = ((slot, i), k) then some (t, txResult)
        else if id.1 = slot then l1Block.l2Blocks[id.2]?.bind fun b => b.transactions[k']?
        else txAt pending id k' := by
  rw [fileTx] at h
  split at h
  · cases h
  · next hfree =>
    split at h
    · cases h
    · next t hdecode =>
      cases h
      refine ⟨t, hdecode, ?_, fun id k' => ?_⟩
      · cases hblock : l1Block.l2Blocks[i]? with
        | none => rfl
        | some b =>
            rw [hblock] at hfree
            exact hfree
      · obtain ⟨slot', i'⟩ := id
        simp only [txAt, PendingBlocks.get, BTreeMap.get?_insert, Prod.mk.injEq]
        by_cases hslot : slot = slot'
        · subst hslot
          simp only [if_true, Option.bind_some, BTreeMap.get?_insert, true_and]
          by_cases hi : i = i'
          · subst hi
            simp only [if_true, Option.bind_some, BTreeMap.get?_insert, true_and]
            by_cases hk : k = k'
            · rw [if_pos hk, if_pos hk.symm]
            · rw [if_neg hk, if_neg (Ne.symm hk)]
              cases l1Block.l2Blocks[i]? with
              | none => exact Std.ExtTreeMap.getElem?_empty
              | some b => rfl
          · rw [if_neg hi, if_neg fun heq => hi heq.1.symm]
        · rw [if_neg hslot, if_neg (fun heq => hslot heq.1.1.symm), if_neg (Ne.symm hslot)]

theorem appendPendingTx_inv {pending pending' : PendingBlocks} {tx : PendingTx}
    (h : appendPendingTx X pending tx = .ok pending') :
    ∃ t, X.ethers.decode tx.rlp = .ok t ∧ txAt pending tx.id tx.txIdx = none ∧
      ∀ id k, txAt pending' id k =
        if (id, k) = (tx.id, tx.txIdx) then some (t, tx.txResult) else txAt pending id k := by
  rw [appendPendingTx, appendTx] at h
  cases hslot : pending[tx.slotNumber]? with
  | some l1Block =>
      simp only [hslot] at h
      obtain ⟨t, hdecode, hfree, hat⟩ := fileTx_inv h
      have hthere : ∀ (id : EthBlockId) k, id.1 = tx.slotNumber → txAt pending id k
          = l1Block.l2Blocks[id.2]?.bind fun b => b.transactions[k]? := by
        intro id k hid
        rw [txAt, PendingBlocks.get, hid, hslot, Option.bind_some]
      refine ⟨t, hdecode, (hthere tx.id tx.txIdx rfl).trans hfree, fun id k => ?_⟩
      rw [hat id k, PendingTx.id]
      split
      · rfl
      · split
        · next hid => rw [hthere id k hid]
        · rfl
  | none =>
      simp only [hslot] at h
      obtain ⟨l1Block, hnew, h⟩ := Except.ok_of_bind h
      obtain ⟨t, hdecode, hfree, hat⟩ := fileTx_inv h
      have hnone : ∀ (id : EthBlockId) k, id.1 = tx.slotNumber → txAt pending id k = none := by
        intro id k hid
        rw [txAt, PendingBlocks.get, hid, hslot]
        rfl
      refine ⟨t, hdecode, hnone tx.id tx.txIdx rfl, fun id k => ?_⟩
      rw [hat id k, PendingTx.id]
      split
      · rfl
      · split
        · next hid =>
          rw [hnone id k hid, newFromPendingTx_empty hnew, Std.ExtTreeMap.getElem?_empty]
          rfl
        · rfl

theorem add_inv {st st' : PendingState} {tx : PendingTx} (h : st.add X tx = .ok st') :
    (tx.ethBlockhash ≠ none ∧ st'.pendingBlocks = st.pendingBlocks) ∨
      (tx.ethBlockhash = none ∧ appendPendingTx X st.pendingBlocks tx = .ok st'.pendingBlocks) := by
  cases hhash : tx.ethBlockhash with
  | some hash =>
      refine Or.inl ⟨nofun, ?_⟩
      rcases add_pendingBlocks h with hsame | ⟨hnone, _⟩
      · exact hsame
      · rw [hhash] at hnone
        cases hnone
  | none =>
      refine Or.inr ⟨rfl, ?_⟩
      rw [PendingState.add] at h
      simp only [hhash] at h
      obtain ⟨pending, happend, h⟩ := Except.ok_of_bind h
      cases h
      split at happend <;> exact happend

/-- The row of a block that is not produced. -/
def PendingTx.At (X : StorageCrates) (tx : PendingTx) (id : EthBlockId) (k : Nat)
    (v : Transaction × TxResult) : Prop :=
  tx.id = id ∧ tx.ethBlockhash = none ∧ tx.txIdx = k ∧ X.ethers.decode tx.rlp = .ok v.1 ∧
    tx.txResult = v.2

/-- When the loop returns, the rows of blocks that are not produced are where they belong. -/
theorem txAt_pendingState {txs : List PendingTx} {st : PendingState}
    (h : txs.foldlM (PendingState.add X) ⟨∅, ∅, ∅⟩ = .ok st) :
    (∀ id k v, txAt st.pendingBlocks id k = some v ↔ ∃ tx ∈ txs, tx.At X id k v) ∧
      ∀ tx ∈ txs, tx.ethBlockhash = none → ∃ t, X.ethers.decode tx.rlp = .ok t := by
  refine foldlM_invariant (P := fun done st =>
    (∀ id k v, txAt st.pendingBlocks id k = some v ↔ ∃ tx ∈ done, PendingTx.At X tx id k v) ∧
      ∀ tx ∈ done, tx.ethBlockhash = none → ∃ t, X.ethers.decode tx.rlp = .ok t) ?_ ?_ h
  · intro done tx st st' hst hadd
    obtain ⟨hat, hdecoded⟩ := hst
    simp only [List.mem_append, List.mem_singleton, or_and_right, exists_or, exists_eq_left,
      or_imp, forall_and, forall_eq]
    rcases add_inv hadd with ⟨hsome, hsame⟩ | ⟨hnone, happend⟩
    · -- the row of a produced block is not filed
      refine ⟨fun id k v => ?_, hdecoded, fun hnone => absurd hnone hsome⟩
      rw [hsame, hat]
      exact (or_iff_left fun hrow => hsome hrow.2.1).symm
    · obtain ⟨t, hdecode, hfree, hfiled⟩ := appendPendingTx_inv happend
      refine ⟨fun id k v => ?_, hdecoded, fun _ => ⟨t, hdecode⟩⟩
      rw [hfiled id k]
      split
      · next hkey =>
        cases hkey
        constructor
        · intro hv
          cases hv
          exact Or.inr ⟨rfl, hnone, rfl, hdecode, rfl⟩
        · intro hor
          rcases hor with hbefore | ⟨_, _, _, hdecode', hresult⟩
          · rw [← hat, hfree] at hbefore
            cases hbefore
          · rw [hdecode] at hdecode'
            cases hdecode'
            rw [hresult]
      · next hkey =>
        rw [hat]
        refine (or_iff_left fun hrow => hkey ?_).symm
        obtain ⟨rfl, _, rfl, _, _⟩ := hrow
        rfl
  · refine ⟨fun id k v => ?_, nofun⟩
    simp [txAt, PendingBlocks.get]

/-! ## The rows -/

/-- The row of a transaction that is joined to a row of a block. -/
def pendingTxOf (row : PendingBlockRow) (blockIdx : Nat) (slotBlockhash : String) (txIdx : Nat)
    (rlp : Bytes) (txResult : TxResult) : PendingTx where
  slotNumber := row.slotNumber
  slotStatus := row.slotStatus
  slotBlockhash := slotBlockhash
  slotTimestamp := row.slotTimestamp
  slotBlockIdx := blockIdx
  gasRecipient := row.gasRecipient
  ethBlockhash := row.params.map BlockParams.hash
  txIdx := txIdx
  rlp := rlp
  txResult := txResult

theorem mem_pendingTxsOf {row : PendingBlockRow} {i : Nat} {tx : PendingTx} :
    .ok tx ∈ pendingTxsOf db row i ↔ ∃ text k hash rlp txResult, row.slotBlockhash = some text ∧
      db.ethBlockTxs.lookup ((row.slotNumber, i), hash) = some k ∧
      db.evmTx.lookup hash = some rlp ∧ storedResult db (row.slotNumber, hash) = some txResult ∧
      tx = pendingTxOf row i text k rlp txResult := by
  rw [pendingTxsOf, List.mem_filterMap]
  constructor
  · intro h
    obtain ⟨⟨k, hash⟩, hmem, hsome⟩ := h
    obtain ⟨rlp, hrlp, hsome⟩ := Option.bind_eq_some_iff.mp hsome
    obtain ⟨result, hresult, hsome⟩ := Option.bind_eq_some_iff.mp hsome
    split at hsome
    · cases hsome
    · next text htext =>
      cases hsome
      exact ⟨text, k, hash, rlp, result.txResult, htext, mem_blockTxs.mp hmem, hrlp,
        by rw [storedResult, hresult]; rfl, rfl⟩
  · intro h
    obtain ⟨text, k, hash, rlp, txResult, htext, hidx, hrlp, hstored, rfl⟩ := h
    obtain ⟨result, hresult, rfl⟩ := Option.map_eq_some_iff.mp hstored
    refine ⟨(k, hash), mem_blockTxs.mpr hidx, ?_⟩
    simp only [bind, hrlp, hresult, Option.bind_some, htext, pendingTxOf]

theorem mem_pendingTransactions {txs : List PendingTx}
    (h : pendingTransactionsWithSlotStatuses2 db = .ok txs) {tx : PendingTx} :
    tx ∈ txs ↔ ∃ row i, ViewRow db row ∧ row.slotBlockIdx = some i ∧
      .ok tx ∈ pendingTxsOf db row i := by
  rw [Except.mem_of_mapM h]
  constructor
  · intro hmem
    obtain ⟨_, hmem, rfl⟩ := hmem
    obtain ⟨row, hrow, hmem⟩ := List.mem_flatMap.mp hmem
    cases hidx : row.slotBlockIdx with
    | none =>
        simp only [hidx] at hmem
        cases hmem
    | some i =>
        simp only [hidx] at hmem
        exact ⟨row, i, mem_view.mp hrow, hidx, hmem⟩
  · intro hmem
    obtain ⟨row, i, hrow, hidx, hmem⟩ := hmem
    refine ⟨.ok tx, List.mem_flatMap.mpr ⟨row, mem_view.mpr hrow, ?_⟩, rfl⟩
    simp only [hidx]
    exact hmem

/-- A pending block holds the transactions the tables list for it, each with the result
that is stored in its slot. -/
theorem getPendingBlocks_reads {producerParams : ProducerParams}
    (h : getPendingBlocks X db = .ok (some producerParams)) (id : EthBlockId) {b : PendingL2Block}
    (hb : producerParams.pendingBlocks.get id.1 id.2 = some b) :
    (∀ k v, b.transactions[k]? = some v → ∃ hash rlp,
      db.ethBlockTxs.lookup (id, hash) = some k ∧ db.evmTx.lookup hash = some rlp ∧
        X.ethers.decode rlp = .ok v.1 ∧ storedResult db (id.1, hash) = some v.2) ∧
    ∀ hash k rlp txResult, db.ethBlockTxs.lookup (id, hash) = some k →
      db.evmTx.lookup hash = some rlp → storedResult db (id.1, hash) = some txResult →
      ∃ t, X.ethers.decode rlp = .ok t ∧ b.transactions[k]? = some (t, txResult) := by
  obtain ⟨txs, htxs, h⟩ := Except.ok_of_bind h
  obtain ⟨st, hst, h⟩ := Except.ok_of_bind h
  split at h
  · cases h
  cases h
  have hcontains : st.pendingBlocks.contains id.1 id.2 = true := by
    obtain ⟨l1Block, hslot, hblock⟩ := Option.bind_eq_some_iff.mp hb
    rw [PendingBlocks.contains, hslot]
    exact Std.ExtTreeMap.mem_iff_isSome_getElem?.mpr (Option.isSome_of_eq_some hblock)
  have hat : ∀ k, b.transactions[k]? = txAt st.pendingBlocks id k := by
    intro k
    rw [txAt, hb, Option.bind_some]
  obtain ⟨hfiled, hdecoded⟩ := txAt_pendingState hst
  constructor
  · intro k v hv
    rw [hat] at hv
    obtain ⟨tx, htx, hid, _, hidx, hdecode, hresult⟩ := (hfiled id k v).mp hv
    obtain ⟨row, i, hrow, hblock, hmem⟩ := (mem_pendingTransactions htxs).mp htx
    obtain ⟨text, k', hash, rlp, txResult, _, hlisted, hrlp, hstored, rfl⟩ := mem_pendingTxsOf.mp hmem
    cases hid
    cases hidx
    cases hresult
    exact ⟨hash, rlp, hlisted, hrlp, hdecode, hstored⟩
  · intro hash k rlp txResult hlisted hrlp hstored
    -- one row of the block is there, and with it all of them
    obtain ⟨tx, htx, rfl, hnone⟩ : ∃ tx ∈ txs, tx.id = id ∧ tx.ethBlockhash = none := by
      refine (contains_pendingState txs hst hcontains).resolve_right fun hempty => ?_
      rw [PendingBlocks.contains, Std.ExtTreeMap.getElem?_empty] at hempty
      cases hempty
    obtain ⟨row, i, hrow, hblock, hmem⟩ := (mem_pendingTransactions htxs).mp htx
    obtain ⟨text, _, _, _, _, htext, _, _, _, rfl⟩ := mem_pendingTxsOf.mp hmem
    have htx' : pendingTxOf row i text k rlp txResult ∈ txs := by
      refine (mem_pendingTransactions htxs).mpr ⟨row, i, hrow, hblock, ?_⟩
      exact mem_pendingTxsOf.mpr ⟨text, k, hash, rlp, txResult, htext, hlisted, hrlp, hstored, rfl⟩
    obtain ⟨t, hdecode⟩ := hdecoded _ htx' hnone
    refine ⟨t, hdecode, ?_⟩
    rw [hat]
    exact (hfiled _ k (t, txResult)).mpr ⟨_, htx', rfl, hnone, rfl, hdecode, rfl⟩

end PgStorage

end RomeSdk
