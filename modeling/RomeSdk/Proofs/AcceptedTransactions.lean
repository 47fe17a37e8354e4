import RomeSdk.PgStorage.StorageRun
import RomeSdk.Proofs.DistinctDeposits
import RomeSdk.Proofs.HashIdentity

/-!
# The transactions that are accepted, and their rlp in the storage

A transaction that leaves the block parser was decoded from some bytes and has its
sender: the step that carried it, the bytes of a holder, or the attributes of the slot.
The deposit of a user has been given a source hash since, and with it a hash. The
storage writes nothing but the rlp of such transactions, whatever else happens to it.
-/

namespace RomeSdk

/-! ## Accepted transactions -/

/-- A transaction as the block parser hands it over: decoded, with its sender, and with
a hash of its own if it is the deposit of a user. -/
def Accepted (X : StorageCrates) (tx : Transaction) : Prop :=
  ∃ rlp decoded, decodeTransactionFromRlp X.toCrates rlp = .ok decoded ∧
    (tx = decoded ∨ ∃ blockhash logIndex,
      tx = updateIfUserDepositedTx X.toCrates decoded blockhash logIndex)

/-- What is relied on of `ethers`, for the rlp of the transactions that are accepted. -/
structure ReadsBack (X : StorageCrates) : Prop where
  /-- Decoding inverts the encoding, which leaves out the sender if there is a signature. -/
  decode_rlp : ∀ tx, Accepted X tx → ∃ decoded, X.ethers.decode (X.rlp tx) = .ok decoded ∧
    { decoded with from_ := tx.from_ } = tx
  /-- Decoding recovers no sender. -/
  unrecovered : ∀ rlp tx, X.ethers.decode rlp = .ok tx → tx.transactionType ≠ some 0x7E →
    tx.from_ = 0
  /-- A deposit has no signature. -/
  unsigned : ∀ tx, tx.transactionType = some 0x7E → ∃ e, X.ethers.recoverFrom tx = .error e
  /-- What is signed is neither the sender nor the place in a block. -/
  signed_part : ∀ tx sender blockHash blockNumber transactionIndex,
    X.ethers.recoverFrom { tx with
      from_ := sender
      blockHash := blockHash
      blockNumber := blockNumber
      transactionIndex := transactionIndex } = X.ethers.recoverFrom tx

variable {X : StorageCrates} {tx : Transaction}

/-- The sender of an accepted transaction with a signature is the one that is recovered. -/
theorem Accepted.recovered (hX : ReadsBack X) (h : Accepted X tx)
    (hsigned : tx.transactionType ≠ some 0x7E) : X.ethers.recoverFrom tx = .ok tx.from_ := by
  obtain ⟨rlp, decoded, hdecode, hupdate⟩ := h
  have hsame : tx = decoded := by
    rcases hupdate with h | ⟨blockhash, logIndex, h⟩
    · exact h
    · rw [updateIfUserDepositedTx] at h
      split at h
      · exact h
      · next hdeposit =>
          rw [not_or, not_not] at hdeposit
          rw [h] at hsigned
          exact absurd hdeposit.1 hsigned
  subst hsame
  rw [decodeTransactionFromRlp] at hdecode
  split at hdecode
  · cases hdecode
  · next raw hraw =>
      split at hdecode
      · split at hdecode
        · cases hdecode
        · next sender hsender =>
            cases hdecode
            rw [← hsender]
            exact hX.signed_part raw sender raw.blockHash raw.blockNumber raw.transactionIndex
      · next hdeposit =>
          rw [not_not] at hdeposit
          cases hdecode
          exact absurd hdeposit hsigned

/-! ## Where they come from -/

/-- The transactions of `SmallTx` steps were decoded. -/
def SmallDecoded (X : Crates) (_ : DefaultTxParser) : ParserOp → Prop
  | .register _ slotTxs => ∀ h i tx r, slotTxs.stepAt h i = some (.smallTx tx r) →
      ∃ rlp, decodeTransactionFromRlp X rlp = .ok tx
  | _ => True

theorem readSmallTx_decoded {X : Crates} {rlp : Bytes} {chainId : Nat} {cargo : Cargo}
    (h : readSmallTx X rlp = .ok (some (chainId, cargo))) :
    ∃ tx, cargo = .small tx ∧ decodeTransactionFromRlp X rlp = .ok tx := by
  rw [readSmallTx] at h
  split at h
  · cases h
  · next tx hdecode =>
      split at h
      · cases h
      · split at h
        · cases h
        · cases h
          exact ⟨tx, rfl, hdecode⟩

/-- What an instruction carries, if it is a transaction, was decoded. -/
theorem readInstruction_decoded {X : Crates} {data : Bytes} {chainId : Nat} {cargo : Cargo}
    (h : readInstruction X data = .ok (some (chainId, cargo))) {tx : Transaction}
    (htx : cargo = .small tx ∨ cargo = .deposit tx) :
    ∃ rlp, decodeTransactionFromRlp X rlp = .ok tx := by
  have hsmall : ∀ {answer : Except String Bytes},
      (programAnswer answer).bind (readSmallTx X) = .ok (some (chainId, cargo)) →
        ∃ rlp, decodeTransactionFromRlp X rlp = .ok tx := by
    intro answer h
    obtain ⟨rlp, _, h⟩ := Except.ok_of_bind h
    obtain ⟨tx', rfl, hdecode⟩ := readSmallTx_decoded h
    rcases htx with htx | htx
    · cases htx
      exact ⟨rlp, hdecode⟩
    · cases htx
  have hother : ∀ c cargo', some (c, cargo') = some (chainId, cargo) →
      (∀ tx, cargo' ≠ .small tx ∧ cargo' ≠ .deposit tx) → False := by
    intro c cargo' heq hne
    cases heq
    exact htx.elim (hne tx).1 (hne tx).2
  cases data with
  | nil => cases h
  | cons tag instrData =>
      simp only [readInstruction] at h
      split at h
      · exact hsmall h
      split at h
      · obtain ⟨answer, _, h⟩ := Except.ok_of_bind h
        exact (hother _ _ (Except.ok.inj h) (by simp)).elim
      split at h
      · obtain ⟨answer, _, h⟩ := Except.ok_of_bind h
        exact (hother _ _ (Except.ok.inj h) (by simp)).elim
      split at h
      · exact hsmall h
      split at h
      · obtain ⟨answer, _, h⟩ := Except.ok_of_bind h
        exact (hother _ _ (Except.ok.inj h) (by simp)).elim
      split at h
      · obtain ⟨⟨c, rlp⟩, _, h⟩ := Except.ok_of_bind h
        obtain ⟨tx', hdecode, h⟩ := Except.ok_of_bind h
        cases h
        rcases htx with htx | htx
        · cases htx
        · cases htx
          refine ⟨rlp, ?_⟩
          cases hresult : decodeTransactionFromRlp X rlp with
          | error e =>
              rw [hresult] at hdecode
              cases hdecode
          | ok tx' =>
              rw [hresult] at hdecode
              cases hdecode
              rfl
      · cases h

/-- A block is parsed to such steps. -/
theorem parseSolanaBlock_smallDecoded {X : Crates} {block : UiConfirmedBlock} {programId : Pubkey}
    {chainId : Nat} (h : (parseSolanaBlock X block programId chainId).2 = .ok ()) (slot : Slot)
    (p : DefaultTxParser) :
    SmallDecoded X p (.register slot (parseSolanaBlock X block programId chainId).1) := by
  intro hash i tx r hstep
  rw [parseSolanaBlock_steps chainId (parseSolanaBlock_returns_iff.mp h), stepAt_block] at hstep
  obtain ⟨v, _, hfiled⟩ := List.exists_of_findSome?_eq_some hstep
  have heffect := (Visit.filedAt_eq_some.mp hfiled).1
  rw [Visit.effect] at heffect
  rcases hread : v.reading X programId with (e | message) | (_ | ⟨c, cargo⟩)
  · rw [hread] at heffect
    cases heffect
  · rw [hread] at heffect
    cases heffect
  · rw [hread] at heffect
    cases heffect
  · have hdata : readInstruction X v.instr.data = .ok (some (c, cargo)) := by
      rw [Visit.reading] at hread
      split at hread
      · cases hread
      · split at hread
        · split at hread
          · cases hread
          · exact hread
        · cases hread
    rw [hread] at heffect
    simp only [effectOf] at heffect
    split at heffect
    · refine readInstruction_decoded hdata ?_
      cases cargo with
      | small tx' =>
          rw [Cargo.effect, executedEffect] at heffect
          split at heffect
          · cases heffect
          · cases heffect
            exact Or.inl rfl
      | big hash' =>
          rw [Cargo.effect, executedEffect] at heffect
          split at heffect <;> cases heffect
      | deposit tx' =>
          cases heffect
          exact Or.inr rfl
      | chunk hash' offset chunk => cases heffect
    · cases heffect

/-- A slot is finalized to transactions that were decoded. -/
theorem finalizeSlot_decoded {X : Crates} {tr : List (DefaultTxParser × ParserOp)}
    {p : DefaultTxParser} (hrun : Machine.Run freshParser tr p)
    (hmeets : Machine.Meets (SmallDecoded X) tr) {slot : Slot}
    {out : List (Transaction × TxResult)} (h : p.finalizeSlot X slot = .ok out) :
    ∀ e ∈ out, ∃ rlp, decodeTransactionFromRlp X rlp = .ok e.1 := by
  intro e he
  obtain ⟨hash, hreturned⟩ := DefaultTxParser.finalizeSlot_returnedFor h e.1 e.2 he
  obtain ⟨record, hrecord, _, hbuild⟩ := hreturned.built
  cases record with
  | smallEvmTx tx =>
      cases hbuild
      exact DefaultTxParser.small_record (fun _ _ _ hG i tx r => hG hash i tx r) hrun hmeets _ hrecord
  | bigEvmTx holderData pieces => exact ⟨holderData, hbuild⟩

/-- The L1 attributes are a deposit and need no signature. -/
theorem createL1AttributesTx_decoded {X : Crates}
    (hdeposit : ∀ d tx, X.ethers.decode (X.ethers.depositRlp d) = .ok tx →
      tx.transactionType = some 0x7E)
    {slot : Slot} {blockhash : H256} {time : U256} {e : Transaction × TxResult}
    (h : createL1AttributesTx X slot blockhash time = .ok e) :
    ∃ rlp, decodeTransactionFromRlp X rlp = .ok e.1 := by
  rw [createL1AttributesTx] at h
  split at h
  · next tx hdecode =>
      cases h
      have htype := hdeposit _ _ hdecode
      generalize X.ethers.depositRlp _ = rlp at hdecode
      refine ⟨rlp, ?_⟩
      rw [decodeTransactionFromRlp, hdecode]
      exact if_neg (not_not.mpr htype)
  · cases h

/-- The result of a block holds accepted transactions. -/
theorem blockParseResult_accepted {X : StorageCrates}
    (hdeposit : ∀ d tx, X.ethers.decode (X.ethers.depositRlp d) = .ok tx →
      tx.transactionType = some 0x7E)
    {tr : List (DefaultTxParser × ParserOp)} {p : DefaultTxParser}
    (hrun : Machine.Run freshParser tr p) (hmeets : Machine.Meets (SmallDecoded X.toCrates) tr)
    {slot : Slot} {block : UiConfirmedBlock} {mode : BlockParseMode} {enable : Option Slot}
    {result : BlockParseResult}
    (h : BlockParseResult.new X.toCrates slot block p mode enable = .ok result) :
    ∀ e ∈ result.transactions, Accepted X e.1 := by
  obtain ⟨time, l, blocks, _, hl, hcreate⟩ := blockParseResult_new h
  obtain ⟨out, hout, hfront⟩ := parseTransactions_eq hl
  have hdecoded : ∀ e ∈ l, ∃ rlp, decodeTransactionFromRlp X.toCrates rlp = .ok e.1 := by
    have hfinal := finalizeSlot_decoded hrun hmeets hout
    rcases hfront with rfl | ⟨e, rfl, hattributes⟩
    · exact hfinal
    · rw [List.forall_mem_cons]
      exact ⟨createL1AttributesTx_decoded hdeposit hattributes, hfinal⟩
  obtain ⟨st, hst, hcreate⟩ := Except.ok_of_bind hcreate
  have hresult : st.transactions = result.transactions := congrArg Prod.snd (Except.ok.inj hcreate)
  rw [← hresult]
  have hall := foldlM_invariant (P := fun done st => (∀ e ∈ done, e ∈ l) →
    ∀ e ∈ st.transactions, Accepted X e.1) ?_ (by simp [EthBlocksState.start]) hst
  · exact hall fun e he => he
  · intro done e st₁ st₂ hdone hadd hsub
    rw [List.forall_mem_append, List.forall_mem_singleton] at hsub
    obtain ⟨index, _, hadds⟩ := EthBlocksState.add_ok hadd
    obtain ⟨rlp, hdecode⟩ := hdecoded e hsub.2
    rw [hadds.transactions, List.forall_mem_append, List.forall_mem_singleton]
    exact ⟨hdone hsub.1, rlp, e.1, hdecode, Or.inr ⟨_, _, rfl⟩⟩

namespace PgStorage

variable {block : Type} {db : Db block}

/-! ## What a run stores -/

/-- Every stored rlp is that of an accepted transaction, under its hash. -/
def RlpStored (X : StorageCrates) (db : Db block) : Prop :=
  ∀ hash rlp, db.evmTx.lookup hash = some rlp →
    ∃ tx, Accepted X tx ∧ tx.hash = hash ∧ rlp = X.rlp tx

/-- The registered transactions are accepted ones. -/
def RegistersAccepted (X : StorageCrates) (_ : Db block) : StorageAction → Prop
  | .registerTransactions parseResults =>
      ∀ e ∈ parseResults.toList, ∀ t ∈ e.2.transactions, Accepted X t.1
  | _ => True

theorem registerTransaction_rlpStored (h : RlpStored X db) (slotNumber : Slot)
    {e : Transaction × TxResult} (he : Accepted X e.1) :
    RlpStored X (TransactionStorage.registerTransaction X slotNumber db e).1 := by
  have hnew : RlpStored X { db with evmTx := db.evmTx.insertIfNew e.1.hash (X.rlp e.1) } := by
    intro hash rlp hlookup
    rw [HashMap.lookup_insertIfNew] at hlookup
    split at hlookup
    · next hhash =>
        cases hold : db.evmTx.lookup e.1.hash with
        | none =>
            rw [hold] at hlookup
            cases hlookup
            exact ⟨e.1, he, hhash, rfl⟩
        | some old =>
            rw [hold] at hlookup
            cases hlookup
            exact hhash ▸ h _ _ hold
    · exact h hash rlp hlookup
  simp only [TransactionStorage.registerTransaction]
  split
  · exact hnew
  · split <;> exact hnew

theorem storeEthBlock_evmTx (db : Db block) (e : EthBlockId × EthBlock) :
    (storeEthBlock db e).1.evmTx = db.evmTx := by
  have hheader : (storeRollupHeader e.1.1 e.1.2 e.2 db).1.evmTx = db.evmTx := by
    rw [storeRollupHeader]
    split
    · rfl
    · split <;> rfl
  rw [storeEthBlock]
  split
  · next db₁ hstored =>
      rw [hstored] at hheader
      refine forTry_invariant (P := fun db₂ : Db block => db₂.evmTx = db.evmTx) ?_ hheader
      intro db₂ tx _ h
      rw [← h, storeTx]
      split
      · rfl
      · split <;> rfl
  · next db₁ err hstored =>
      rw [hstored] at hheader
      exact hheader

theorem recordAllParams_evmTx (pendingBlocks : PendingBlocks) (producedBlocks : ProducedBlocks)
    (db : Db block) : (recordAllParams pendingBlocks producedBlocks db).evmTx = db.evmTx := by
  rw [recordAllParams]
  induction producedBlocks.iter generalizing db with
  | nil => rfl
  | cons e l ih =>
      rw [List.foldl_cons, ih, recordParams]
      split <;> rfl

theorem blockProduced_evmTx (pendingBlocks : PendingBlocks) (db : Db block)
    (e : Slot × Nat × BlockParams) :
    (TransactionStorage.blockProduced pendingBlocks db e).1.evmTx = db.evmTx := by
  have hreceipts : ∀ (receipts : List (Transaction × TxResult × ReceiptParams)) (db : Db block),
      (receipts.foldl (fun db r => TransactionStorage.setReceiptParams e.1 r.1.hash r.2.2 db)
        db).evmTx = db.evmTx := by
    intro receipts
    induction receipts with
    | nil => exact fun _ => rfl
    | cons r receipts ih => exact fun db => ih _
  rw [TransactionStorage.blockProduced]
  split
  · rfl
  · split
    · rfl
    · exact hreceipts _ db

theorem storageStep_rlpStored {db' : Db block} {a : StorageAction} (h : RlpStored X db)
    (ha : RegistersAccepted X db a) (hstep : storageStep X db a db') : RlpStored X db' := by
  have hsame : db'.evmTx = db.evmTx → RlpStored X db' := by
    intro heq hash rlp hlookup
    exact h hash rlp (heq ▸ hlookup)
  cases a with
  | registerTransactions parseResults =>
      refine forTry_kept (P := RlpStored X)
        (TransactionStorage.registerParseResults_loop hstep) ?_ h
      intro db₁ e he h₁
      obtain ⟨r, hr, he⟩ := List.mem_flatMap.mp he
      obtain ⟨t, ht, rfl⟩ := List.mem_map.mp he
      exact registerTransaction_rlpStored h₁ _ (ha r hr t ht)
  | storeEthBlocks parseResults =>
      refine hsame (forTry_kept (P := fun db₁ : Db block => db₁.evmTx = db.evmTx)
        (storeEthBlocks_loop hstep) ?_ rfl)
      intro db₁ e _ h₁
      rw [storeEthBlock_evmTx, h₁]
  | recordParams pendingBlocks producedBlocks =>
      cases hstep
      exact hsame (recordAllParams_evmTx _ _ db)
  | recordReceipts pendingBlocks producedBlocks =>
      refine hsame (forTry_kept (P := fun db₁ : Db block => db₁.evmTx = db.evmTx)
        (TransactionStorage.blocksProduced_loop hstep) ?_ rfl)
      intro db₁ e _ h₁
      rw [blockProduced_evmTx, h₁]
  | cleanFromSlot fromSlot =>
      cases hstep
      exact hsame rfl
  | solana =>
      obtain ⟨solSlot, solBlock, rfl⟩ := hstep
      exact hsame rfl

theorem run_rlpStored {tr : List (Db block × StorageAction)}
    (hrun : Machine.Run (storageMachine X) tr db)
    (hmeets : Machine.Meets (RegistersAccepted X) tr) : RlpStored X db := by
  refine hrun.invariant (I := RlpStored X) ?_
    (fun s a t h ha hstep => storageStep_rlpStored h ha hstep) hmeets
  intro s hs hash rlp hlookup
  cases hs
  simp [Db.empty] at hlookup

end PgStorage

end RomeSdk
