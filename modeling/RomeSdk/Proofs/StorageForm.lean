import RomeSdk.Proofs.AcceptedTransactions
import RomeSdk.Proofs.PendingChain
import RomeSdk.Proofs.RecordedParams
import RomeSdk.Proofs.ServedTransactions
import RomeSdk.Proofs.StoredBlocks

/-!
# What every run of the storage keeps

The tables are bound together by foreign keys, by the order in which the rows are written and by
what the callers of the storage see to: that a block which is registered has transactions and was
not there before, that a slot whose block was parsed has a readable blockhash and time, that
parents come before their children, and that produced blocks have hashes of their own. Whatever
the order of the database transactions, the view of pending blocks can then be answered.
-/

namespace RomeSdk

namespace PgStorage

variable {block : Type} {X : StorageCrates} {db db' : Db block}

/-! ## The foreign keys -/

structure Keyed (db : Db block) : Prop where
  slotStored : ∀ id ∈ db.ethBlock, id.1 ∈ db.solSlot
  txStored : ∀ slot hash, (slot, hash) ∈ db.evmTxResult → hash ∈ db.evmTx
  blockStored : ∀ id hash, (id, hash) ∈ db.ethBlockTxs → id ∈ db.ethBlock
  resultStored : ∀ id hash, (id, hash) ∈ db.ethBlockTxs → (id.1, hash) ∈ db.evmTxResult

/-- No two transactions of a block have one place. -/
def Placed (db : Db block) : Prop :=
  ∀ id hash hash' i, db.ethBlockTxs.lookup (id, hash) = some i →
    db.ethBlockTxs.lookup (id, hash') = some i → hash = hash'

/-- Blocks have transactions. -/
def Filled (db : Db block) : Prop := ∀ id ∈ db.ethBlock, ∃ hash, (id, hash) ∈ db.ethBlockTxs

theorem mem_insertIfNew {K V : Type} [DecidableEq K] (m : HashMap K V) (k a : K) (v : V) :
    a ∈ m.insertIfNew k v ↔ a = k ∨ a ∈ m := by
  rw [← AList.lookup_isSome, ← AList.lookup_isSome, HashMap.lookup_insertIfNew]
  by_cases hka : k = a
  · simp [hka]
  · simp [hka, Ne.symm hka]

theorem Keyed.registerTransaction (h : Keyed db) (slotNumber : Slot) (e : Transaction × TxResult) :
    Keyed (TransactionStorage.registerTransaction X slotNumber db e).1 := by
  have htx : ∀ hash, hash ∈ db.evmTx.insertIfNew e.1.hash (X.rlp e.1) ↔
      hash = e.1.hash ∨ hash ∈ db.evmTx := fun hash => mem_insertIfNew _ _ _ _
  have hfirst : Keyed { db with evmTx := db.evmTx.insertIfNew e.1.hash (X.rlp e.1) } :=
    ⟨h.slotStored, fun slot hash hrow => (htx hash).mpr (.inr (h.txStored slot hash hrow)),
      h.blockStored, h.resultStored⟩
  simp only [TransactionStorage.registerTransaction]
  split
  · exact hfirst
  · split
    · refine ⟨h.slotStored, fun slot hash hrow => ?_, h.blockStored, fun id hash hrow =>
        (mem_insertIfNew _ _ _ _).mpr (.inr (h.resultStored id hash hrow))⟩
      rcases (mem_insertIfNew _ _ _ _).mp hrow with hnew | hold
      · exact (htx hash).mpr (.inl (congrArg Prod.snd hnew))
      · exact hfirst.txStored slot hash hold
    · exact hfirst

/-- The slot of a block that is written is there. -/
theorem mem_storeRollupHeader (slotNumber : Slot) (blockIdx : Nat) (ethBlock : EthBlock)
    (db : Db block) (id : EthBlockId) :
    id ∈ (storeRollupHeader slotNumber blockIdx ethBlock db).1.ethBlock →
      id ∈ db.ethBlock ∨ id = (slotNumber, blockIdx) ∧ slotNumber ∈ db.solSlot := by
  rw [storeRollupHeader]
  split
  · exact Or.inl
  · split
    · next hslot =>
        intro hid
        rcases (mem_insertIfNew _ _ _ _).mp hid with hnew | hold
        · exact .inr ⟨hnew, hslot⟩
        · exact .inl hold
    · exact Or.inl

theorem storeRollupHeader_stores {slotNumber : Slot} {blockIdx : Nat} {ethBlock : EthBlock}
    (h : storeRollupHeader slotNumber blockIdx ethBlock db = (db', .ok ())) :
    (slotNumber, blockIdx) ∈ db'.ethBlock ∧ ∀ id ∈ db.ethBlock, id ∈ db'.ethBlock := by
  rw [storeRollupHeader] at h
  split at h
  · next hold =>
      cases h
      exact ⟨hold, fun _ hid => hid⟩
  · split at h
    · cases h
      exact ⟨(mem_insertIfNew _ _ _ _).mpr (.inl rfl), fun id hid =>
        (mem_insertIfNew _ _ _ _).mpr (.inr hid)⟩
    · cases h

theorem storeRollupHeader_rest (slotNumber : Slot) (blockIdx : Nat) (ethBlock : EthBlock)
    (db : Db block) :
    let db' := (storeRollupHeader slotNumber blockIdx ethBlock db).1
    db'.solSlot = db.solSlot ∧ db'.evmTx = db.evmTx ∧ db'.evmTxResult = db.evmTxResult ∧
      db'.ethBlockTxs = db.ethBlockTxs := by
  rw [storeRollupHeader]
  split
  · exact ⟨rfl, rfl, rfl, rfl⟩
  · split <;> exact ⟨rfl, rfl, rfl, rfl⟩

theorem Keyed.storeRollupHeader {slotNumber : Slot} {blockIdx : Nat} {ethBlock : EthBlock}
    (h : Keyed db) (hok : storeRollupHeader slotNumber blockIdx ethBlock db = (db', .ok ())) :
    Keyed db' := by
  obtain ⟨hslot, htx, hresult, htxs⟩ := storeRollupHeader_rest slotNumber blockIdx ethBlock db
  have hmem := mem_storeRollupHeader slotNumber blockIdx ethBlock db
  rw [hok] at hslot htx hresult htxs hmem
  refine ⟨fun id hid => ?_, fun slot hash hrow => ?_, fun id hash hrow => ?_,
    fun id hash hrow => ?_⟩
  · rw [hslot]
    rcases hmem id hid with hold | ⟨rfl, hnew⟩
    · exact h.slotStored id hold
    · exact hnew
  · rw [htx]
    exact h.txStored slot hash (hresult ▸ hrow)
  · exact (storeRollupHeader_stores hok).2 id (h.blockStored id hash (htxs ▸ hrow))
  · rw [hresult]
    exact h.resultStored id hash (htxs ▸ hrow)

theorem mem_storeTx (id : EthBlockId) (db : Db block) (e : TxHash × Nat)
    (key : EthBlockId × TxHash) : key ∈ (storeTx id db e).1.ethBlockTxs ↔
      key ∈ db.ethBlockTxs ∨ key = (id, e.1) ∧ (id.1, e.1) ∈ db.evmTxResult ∧
        (id, e.1) ∉ db.ethBlockTxs := by
  rw [storeTx]
  split
  · next hold => simp [hold]
  · next hnew =>
      split
      · next hresult =>
          rw [mem_insertIfNew]
          simp [hresult, hnew, or_comm]
      · next hresult => simp [hresult]

theorem storeTx_rest (id : EthBlockId) (db : Db block) (e : TxHash × Nat) :
    (storeTx id db e).1.solSlot = db.solSlot ∧ txRows (storeTx id db e).1 = txRows db ∧
      (storeTx id db e).1.ethBlock = db.ethBlock := by
  rw [storeTx]
  split
  · exact ⟨rfl, rfl, rfl⟩
  · split <;> exact ⟨rfl, rfl, rfl⟩

theorem Keyed.storeTx {id : EthBlockId} (h : Keyed db) (hid : id ∈ db.ethBlock)
    (e : TxHash × Nat) : Keyed (storeTx id db e).1 := by
  obtain ⟨hslot, hrows, hblock⟩ := storeTx_rest id db e
  have htx : (PgStorage.storeTx id db e).1.evmTx = db.evmTx := congrArg Prod.fst hrows
  have hresult : (PgStorage.storeTx id db e).1.evmTxResult = db.evmTxResult :=
    congrArg Prod.snd hrows
  refine ⟨fun a ha => ?_, fun slot hash hrow => ?_, fun a hash hrow => ?_, fun a hash hrow => ?_⟩
  · rw [hslot]
    exact h.slotStored a (hblock ▸ ha)
  · rw [htx]
    exact h.txStored slot hash (hresult ▸ hrow)
  · rw [hblock]
    rcases (mem_storeTx id db e (a, hash)).mp hrow with hold | ⟨hnew, _⟩
    · exact h.blockStored a hash hold
    · cases hnew
      exact hid
  · rw [hresult]
    rcases (mem_storeTx id db e (a, hash)).mp hrow with hold | ⟨hnew, hstored, _⟩
    · exact h.resultStored a hash hold
    · cases hnew
      exact hstored

/-! ## The places of a block -/

/-- The transactions of a new block are written at one place after the other. -/
theorem placed_storeTxs (id : EthBlockId) (hashes : List TxHash) : ∀ (n : Nat) (db : Db block),
    Placed db → (∀ hash i, db.ethBlockTxs.lookup (id, hash) = some i → i < n) →
      Placed (forTry (storeTx id) (hashes.zipIdx n) db).1 := by
  induction hashes with
  | nil => exact fun _ _ h _ => h
  | cons first hashes ih =>
      intro n db h hbelow
      rw [List.zipIdx_cons, forTry]
      have hround : Placed (storeTx id db (first, n)).1 ∧ ∀ hash i,
          (storeTx id db (first, n)).1.ethBlockTxs.lookup (id, hash) = some i → i < n + 1 := by
        have hold : ∀ hash i, db.ethBlockTxs.lookup (id, hash) = some i → i < n + 1 :=
          fun hash i hrow => Nat.lt_succ_of_lt (hbelow hash i hrow)
        rw [storeTx]
        split
        · exact ⟨h, hold⟩
        · next hnew =>
            split
            · have hlookup : ∀ key, (db.ethBlockTxs.insertIfNew (id, first) n).lookup key =
                  if (id, first) = key then some n else db.ethBlockTxs.lookup key := by
                intro key
                rw [HashMap.lookup_insertIfNew, AList.lookup_eq_none.mpr hnew, Option.getD_none]
              refine ⟨fun a hash hash' i hrow hrow' => ?_, fun hash i hrow => ?_⟩
              · rw [hlookup] at hrow hrow'
                split at hrow
                · next heq =>
                    cases heq
                    cases hrow
                    split at hrow'
                    · next heq' =>
                        cases heq'
                        rfl
                    · exact absurd (hbelow hash' n hrow') (Nat.lt_irrefl n)
                · split at hrow'
                  · next heq' =>
                      cases heq'
                      cases hrow'
                      exact absurd (hbelow hash n hrow) (Nat.lt_irrefl n)
                  · exact h a hash hash' i hrow hrow'
              · rw [hlookup] at hrow
                split at hrow
                · cases hrow
                  exact Nat.lt_succ_self n
                · exact hold hash i hrow
            · exact ⟨h, hold⟩
      split
      · next s' heq =>
          rw [heq] at hround
          exact ih (n + 1) s' hround.1 hround.2
      · next s' e heq =>
          rw [heq] at hround
          exact hround.1

/-- What is there already is not written again. -/
theorem storeTxs_stored {id : EthBlockId} (l : List (TxHash × Nat))
    (h : ∀ e ∈ l, (id, e.1) ∈ db.ethBlockTxs) : forTry (storeTx id) l db = (db, .ok ()) := by
  induction l with
  | nil => rfl
  | cons e l ih =>
      rw [List.forall_mem_cons] at h
      have hfirst : storeTx id db e = (db, .ok ()) := if_pos h.1
      rw [forTry_cons_ok hfirst]
      exact ih h.2

/-! ## Storing blocks -/

/-- A block that may be registered: it has transactions, and it is new or all there. -/
def Storable (db : Db block) (e : EthBlockId × EthBlock) : Prop :=
  e.2.transactions ≠ [] ∧
    (e.1 ∉ db.ethBlock ∨ ∀ hash ∈ e.2.transactions, (e.1, hash) ∈ db.ethBlockTxs)

/-- The tables of blocks are in order. -/
structure Tidy (db : Db block) : Prop extends Keyed db where
  placed : Placed db
  filled : Filled db

theorem Tidy.joined (h : Tidy db) : Joined db where
  slotStored := h.slotStored
  nonempty := h.filled
  txStored id hash hrow :=
    ⟨h.txStored _ _ (h.resultStored id hash hrow), h.resultStored id hash hrow⟩
  txIdx := h.placed

theorem Storable.congr {e : EthBlockId × EthBlock} (h : Storable db e)
    (hsame : blockRows e.1 db' = blockRows e.1 db) : Storable db' e := by
  rw [blockRows, blockRows, Prod.mk.injEq] at hsame
  refine ⟨h.1, ?_⟩
  rcases h.2 with hnew | hstored
  · refine .inl ?_
    rw [← AList.lookup_eq_none, hsame.1]
    exact AList.lookup_eq_none.mpr hnew
  · refine .inr fun hash hhash => ?_
    rw [← AList.lookup_isSome, congrFun hsame.2 hash, AList.lookup_isSome]
    exact hstored hash hhash

theorem Keyed.storeTxs {id : EthBlockId} (h : Keyed db) (hid : id ∈ db.ethBlock)
    (l : List (TxHash × Nat)) : Keyed (forTry (PgStorage.storeTx id) l db).1 := by
  refine (forTry_invariant (P := fun db₁ : Db block => Keyed db₁ ∧ id ∈ db₁.ethBlock)
    (fun db₁ tx _ hdb₁ => ⟨hdb₁.1.storeTx hdb₁.2 tx, ?_⟩) ⟨h, hid⟩).1
  rw [storeTx_ethBlock]
  exact hdb₁.2

theorem Placed.storeTxs {id : EthBlockId} {hashes : List TxHash} (h : Placed db)
    (hstored : (∀ hash, (id, hash) ∉ db.ethBlockTxs) ∨
      ∀ hash ∈ hashes, (id, hash) ∈ db.ethBlockTxs) :
    Placed (forTry (storeTx id) hashes.zipIdx db).1 := by
  rcases hstored with hnew | hstored
  · exact placed_storeTxs id hashes 0 db h fun hash i hrow =>
      absurd (HashMap.mem_of_lookup hrow) (hnew hash)
  · rw [storeTxs_stored]
    · exact h
    · intro e he
      have hfst := List.mem_map_of_mem (f := Prod.fst) he
      rw [List.zipIdx_map_fst] at hfst
      exact hstored e.1 hfst

theorem mem_storeTxs_of_mem {id : EthBlockId} {key : EthBlockId × TxHash}
    (h : key ∈ db.ethBlockTxs) (l : List (TxHash × Nat)) :
    key ∈ (forTry (storeTx id) l db).1.ethBlockTxs :=
  forTry_invariant (P := fun db₁ : Db block => key ∈ db₁.ethBlockTxs)
    (fun _ _ _ hkey => (mem_storeTx _ _ _ _).mpr (.inl hkey)) h

theorem mem_storeTx_own {id : EthBlockId} {e : TxHash × Nat}
    (h : storeTx id db e = (db', .ok ())) : (id, e.1) ∈ db'.ethBlockTxs := by
  have hmem := mem_storeTx id db e (id, e.1)
  rw [h] at hmem
  rw [storeTx] at h
  split at h
  · next hold => exact hmem.mpr (.inl hold)
  · next hnew =>
      split at h
      · next hresult => exact hmem.mpr (.inr ⟨rfl, hresult, hnew⟩)
      · cases h

theorem exists_mem_storeTxs {id : EthBlockId} {hashes : List TxHash} (hne : hashes ≠ [])
    (h : forTry (storeTx id) hashes.zipIdx db = (db', .ok ())) :
    ∃ hash, (id, hash) ∈ db'.ethBlockTxs := by
  obtain ⟨hash, rest, rfl⟩ := List.exists_cons_of_ne_nil hne
  refine ⟨hash, forTry_establishes (P := fun db₁ : Db block => (id, hash) ∈ db₁.ethBlockTxs)
    (List.mem_cons_self ..) (fun _ _ hround => mem_storeTx_own hround)
    (fun _ _ _ hkey => (mem_storeTx _ _ _ _).mpr (.inl hkey)) h⟩

theorem Tidy.storeEthBlock {e : EthBlockId × EthBlock} (h : Tidy db) (he : Storable db e)
    (hok : storeEthBlock db e = (db', .ok ())) : Tidy db' := by
  obtain ⟨id, ethBlock⟩ := e
  rw [PgStorage.storeEthBlock] at hok
  obtain ⟨_, _, _, htxs⟩ := storeRollupHeader_rest id.1 id.2 ethBlock db
  have hmem := mem_storeRollupHeader id.1 id.2 ethBlock db
  cases hheader : storeRollupHeader id.1 id.2 ethBlock db with
  | mk db₁ r =>
      rw [hheader] at hok htxs hmem
      cases r with
      | error err => cases hok
      | ok _ =>
          have hloop : forTry (storeTx id) ethBlock.transactions.zipIdx db₁ = (db', .ok ()) := hok
          have hend : (forTry (storeTx id) ethBlock.transactions.zipIdx db₁).1 = db' :=
            congrArg Prod.fst hloop
          have hplaced : Placed db₁ := by
            rw [Placed, htxs]
            exact h.placed
          have hstored : (∀ hash, (id, hash) ∉ db₁.ethBlockTxs) ∨
              ∀ hash ∈ ethBlock.transactions, (id, hash) ∈ db₁.ethBlockTxs := by
            rw [htxs]
            exact he.2.imp (fun hnew hash hrow => hnew (h.blockStored id hash hrow)) fun hall => hall
          have hkeyed' : Keyed db' := hend ▸ (h.toKeyed.storeRollupHeader hheader).storeTxs
            (storeRollupHeader_stores hheader).1 _
          have hplaced' : Placed db' := hend ▸ hplaced.storeTxs hstored
          refine ⟨hkeyed', hplaced', fun a ha => ?_⟩
          have hframe := (storeTxs_frame id ethBlock.transactions.zipIdx db₁).1
          rw [hloop] at hframe
          rcases hmem a (hframe ▸ ha) with hold | ⟨rfl, _⟩
          · obtain ⟨hash, hrow⟩ := h.filled a hold
            exact ⟨hash, hend ▸ mem_storeTxs_of_mem (htxs ▸ hrow) _⟩
          · exact exists_mem_storeTxs he.1 hloop

theorem Tidy.storeEthBlocks (l : List (EthBlockId × EthBlock)) : ∀ {db db' : Db block}, Tidy db →
    (l.map Prod.fst).Nodup → (∀ e ∈ l, Storable db e) →
      forTry PgStorage.storeEthBlock l db = (db', .ok ()) → Tidy db' := by
  induction l with
  | nil =>
      intro db db' h _ _ hok
      cases hok
      exact h
  | cons e l ih =>
      intro db db' h hnodup hstorable hok
      rw [List.map_cons, List.nodup_cons] at hnodup
      rw [List.forall_mem_cons] at hstorable
      obtain ⟨db₁, hfirst, hrest⟩ := forTry_cons_inv hok
      refine ih (h.storeEthBlock hstorable.1 hfirst) hnodup.2 (fun a ha => ?_) hrest
      have hne : e.1 ≠ a.1 := fun heq => hnodup.1 (heq ▸ List.mem_map_of_mem ha)
      have hsame := storeEthBlock_other hne db
      rw [hfirst] at hsame
      exact (hstorable.2 a ha).congr hsame

/-! ## The other transactions -/

/-- The tables of the loader. -/
def solTables (db : Db block) : HashMap Slot SolSlot × HashMap Slot block :=
  (db.solSlot, db.solBlock)

theorem blockProduced_solTables (pendingBlocks : PendingBlocks) (db : Db block)
    (e : Slot × Nat × BlockParams) :
    solTables (TransactionStorage.blockProduced pendingBlocks db e).1 = solTables db := by
  have hreceipts : ∀ (receipts : List (Transaction × TxResult × ReceiptParams)) (db : Db block),
      solTables (receipts.foldl (fun db r =>
        TransactionStorage.setReceiptParams e.1 r.1.hash r.2.2 db) db) = solTables db := by
    intro receipts
    induction receipts with
    | nil => exact fun _ => rfl
    | cons r receipts ih => exact fun db => ih _
  rw [TransactionStorage.blockProduced]
  split
  · rfl
  · split
    · rfl
    · exact hreceipts _ db

theorem storeEthBlock_solTables (db : Db block) (e : EthBlockId × EthBlock) :
    solTables (storeEthBlock db e).1 = solTables db := by
  have hheader : solTables (storeRollupHeader e.1.1 e.1.2 e.2 db).1 = solTables db := by
    rw [storeRollupHeader]
    split
    · rfl
    · split <;> rfl
  rw [storeEthBlock]
  split
  · next db₁ hstored =>
      rw [hstored] at hheader
      refine forTry_invariant (P := fun db₂ : Db block => solTables db₂ = solTables db)
        (fun db₂ t _ hsame => ?_) hheader
      rw [storeTx]
      split
      · exact hsame
      · split <;> exact hsame
  · next db₁ err hfailed =>
      rw [hfailed] at hheader
      exact hheader

/-- Only the loader writes its tables. -/
theorem storageStep_solTables {a : StorageAction} (hstep : (storageMachine X).step db a db')
    (ha : a ≠ .solana) : solTables db' = solTables db := by
  cases a with
  | registerTransactions parseResults =>
      refine forTry_kept (P := fun db₁ : Db block => solTables db₁ = solTables db)
        (TransactionStorage.registerParseResults_loop hstep) (fun db₁ e _ hsame => ?_) rfl
      simp only [TransactionStorage.registerTransaction]
      split
      · exact hsame
      · split <;> exact hsame
  | storeEthBlocks parseResults =>
      exact forTry_kept (P := fun db₁ : Db block => solTables db₁ = solTables db)
        (storeEthBlocks_loop hstep)
        (fun db₁ e _ hsame => (storeEthBlock_solTables db₁ e).trans hsame) rfl
  | recordParams pendingBlocks producedBlocks =>
      cases hstep
      rw [recordAllParams]
      induction producedBlocks.iter generalizing db with
      | nil => rfl
      | cons e l ih =>
          rw [List.foldl_cons, ih, recordParams]
          split <;> rfl
  | recordReceipts pendingBlocks producedBlocks =>
      exact forTry_kept (P := fun db₁ : Db block => solTables db₁ = solTables db)
        (TransactionStorage.blocksProduced_loop hstep)
        (fun db₁ e _ hsame => (blockProduced_solTables pendingBlocks db₁ e).trans hsame) rfl
  | cleanFromSlot fromSlot =>
      cases hstep
      rfl
  | solana => exact absurd rfl ha

theorem Tidy.registerTransaction (h : Tidy db) (slotNumber : Slot) (e : Transaction × TxResult) :
    Tidy (TransactionStorage.registerTransaction X slotNumber db e).1 := by
  have hsame : (TransactionStorage.registerTransaction X slotNumber db e).1.ethBlockTxs =
      db.ethBlockTxs := by
    simp only [TransactionStorage.registerTransaction]
    split
    · rfl
    · split <;> rfl
  refine ⟨h.toKeyed.registerTransaction slotNumber e, ?_, ?_⟩
  · rw [Placed, hsame]
    exact h.placed
  · rw [Filled, hsame, registerTransaction_ethBlock]
    exact h.filled

/-- The blocks and the keys of the results are as they were. -/
theorem Tidy.of_same (h : Tidy db) (hslot : ∀ slot ∈ db.solSlot, slot ∈ db'.solSlot)
    (htx : db'.evmTx = db.evmTx) (hblock : ∀ id, id ∈ db'.ethBlock ↔ id ∈ db.ethBlock)
    (htxs : db'.ethBlockTxs = db.ethBlockTxs)
    (hresults : ∀ key, key ∈ db'.evmTxResult ↔ key ∈ db.evmTxResult) : Tidy db' where
  slotStored id hid := hslot _ (h.slotStored id ((hblock id).mp hid))
  txStored slot hash hrow := by
    rw [htx]
    exact h.txStored slot hash ((hresults _).mp hrow)
  blockStored id hash hrow := (hblock id).mpr (h.blockStored id hash (htxs ▸ hrow))
  resultStored id hash hrow := (hresults _).mpr (h.resultStored id hash (htxs ▸ hrow))
  placed := by
    rw [Placed, htxs]
    exact h.placed
  filled id hid := by
    rw [htxs]
    exact h.filled id ((hblock id).mp hid)

theorem lookup_unless {K V : Type} [DecidableEq K] (m : HashMap K V) (c : K → Prop)
    [DecidablePred c] (k : K) :
    (HashMap.filterMap m fun k v => if c k then none else some v).lookup k =
      if c k then none else m.lookup k := by
  rw [HashMap.lookup_filterMap]
  by_cases hc : c k
  · simp [hc]
  · simp [hc]

theorem mem_unless {K V : Type} [DecidableEq K] (m : HashMap K V) (c : K → Prop)
    [DecidablePred c] (k : K) :
    k ∈ HashMap.filterMap m (fun k v => if c k then none else some v) ↔ k ∈ m ∧ ¬ c k := by
  rw [← AList.lookup_isSome, lookup_unless, ← AList.lookup_isSome]
  by_cases hc : c k
  · simp [hc]
  · simp [hc]

theorem Tidy.cleanFromSlot (h : Tidy db) (fromSlot : Slot) : Tidy (cleanFromSlot fromSlot db) := by
  have hblock := mem_unless db.ethBlock fun id => fromSlot ≤ id.1
  have hresult := mem_unless db.evmTxResult fun key => fromSlot ≤ key.1
  have htxs := mem_unless db.ethBlockTxs fun key => fromSlot ≤ key.1.1
  have hplace := lookup_unless db.ethBlockTxs fun key => fromSlot ≤ key.1.1
  refine ⟨⟨fun id hid => ?_, fun slot hash hrow => ?_, fun id hash hrow => ?_,
    fun id hash hrow => ?_⟩, fun id hash hash' i hrow hrow' => ?_, fun id hid => ?_⟩
  · exact h.slotStored id ((hblock id).mp hid).1
  · exact h.txStored slot hash ((hresult _).mp hrow).1
  · obtain ⟨hold, hbelow⟩ := (htxs _).mp hrow
    exact (hblock id).mpr ⟨h.blockStored id hash hold, hbelow⟩
  · obtain ⟨hold, hbelow⟩ := (htxs _).mp hrow
    exact (hresult _).mpr ⟨h.resultStored id hash hold, hbelow⟩
  · have hrow : (if fromSlot ≤ id.1 then none else db.ethBlockTxs.lookup (id, hash)) = some i :=
      (hplace _).symm.trans hrow
    have hrow' : (if fromSlot ≤ id.1 then none else db.ethBlockTxs.lookup (id, hash')) = some i :=
      (hplace _).symm.trans hrow'
    split at hrow
    · cases hrow
    · next hbelow =>
        rw [if_neg hbelow] at hrow'
        exact h.placed id hash hash' i hrow hrow'
  · obtain ⟨hold, hbelow⟩ := (hblock id).mp hid
    obtain ⟨hash, hrow⟩ := h.filled id hold
    exact ⟨hash, (htxs _).mpr ⟨hrow, hbelow⟩⟩

/-! ## What the callers see to -/

/-- The slot has a block that could be parsed. -/
def SlotReadable (X : StorageCrates) (s : SolSlot) : Prop :=
  ∃ text bytes time timestamp, s.blockhash = some text ∧ X.bs58Decode text = some bytes ∧
    bytes.length = 32 ∧ s.timestamp = some time ∧ U256.fromTimestamp time = .ok timestamp

/-- The loader takes no slot away and changes nothing of it but its status. -/
structure KeepsSlots (db db' : Db block) : Prop where
  kept : ∀ slot s, db.solSlot.lookup slot = some s →
    ∃ status, db'.solSlot.lookup slot = some { s with status := status }
  parents : ∀ slot s, db'.solSlot.lookup slot = some s → s.parentSlot < slot ∨ s.parentSlot = 0

/-- No other block has the hash of one that was produced. -/
def OwnHashes (db : Db block) (producedBlocks : ProducedBlocks) : Prop :=
  ∀ id params, NestedMap.get producedBlocks id = some params → ∀ id' params',
    NestedMap.get producedBlocks id' = some params' ∨ paramsOf db id' = some params' →
      params'.hash = params.hash → id' = id

def SeenTo (X : StorageCrates) (db db' : Db block) : StorageAction → Prop
  | .registerTransactions parseResults =>
      ∀ e ∈ parseResults.toList, ∀ t ∈ e.2.transactions, Accepted X t.1
  | .storeEthBlocks parseResults => ∀ e ∈ ethBlocksOf parseResults, Storable db e ∧
      ∀ s, db.solSlot.lookup e.1.1 = some s → SlotReadable X s
  | .recordParams _ producedBlocks => OwnHashes db producedBlocks
  | .recordReceipts _ _ => True
  | .cleanFromSlot _ => True
  | .solana => KeepsSlots db db'

/-- The storage with its callers. -/
def calledMachine (X : StorageCrates) : Machine (Db block) StorageAction where
  init := (storageMachine X).init
  step db a db' := (storageMachine X).step db a db' ∧ SeenTo X db db' a

/-- What they keep. -/
structure InForm (X : StorageCrates) (db : Db block) : Prop extends Tidy db where
  parents : ParentsBefore db
  slots : ∀ id ∈ db.ethBlock, ∀ s, db.solSlot.lookup id.1 = some s → SlotReadable X s
  rlps : RlpStored X db
  hashes : ∀ id id' params params', paramsOf db id = some params → paramsOf db id' = some params' →
    params.hash = params'.hash → id = id'

theorem InForm.wellFormed (h : InForm X db) (hX : ReadsBack X) : WellFormed X db where
  toJoined := h.toTidy.joined
  parents := h.parents
  slots := h.slots
  rlps hash rlp hrow := by
    obtain ⟨tx, htx, _, rfl⟩ := h.rlps hash rlp hrow
    obtain ⟨decoded, hdecoded, _⟩ := hX.decode_rlp tx htx
    exact ⟨decoded, hdecoded⟩
  hashes id id' params params' hproduced hproduced' heq :=
    h.hashes id id' params params' (paramsOf_eq_some.mpr hproduced.2)
      (paramsOf_eq_some.mpr hproduced'.2) heq

/-- The blocks of a registration, and those that were there. -/
theorem mem_storeEthBlocks {parseResults : BTreeMap Slot BlockParseResult}
    (h : storeEthBlocks parseResults db = .ok ((), db')) {id : EthBlockId}
    (hid : id ∈ db'.ethBlock) : id ∈ db.ethBlock ∨ ∃ e ∈ ethBlocksOf parseResults, e.1 = id := by
  by_cases hlisted : ∃ e ∈ ethBlocksOf parseResults, e.1 = id
  · exact .inr hlisted
  · have hsame : blockRows id db' = blockRows id db := by
      refine forTry_kept (P := fun db₁ : Db block => blockRows id db₁ = blockRows id db)
        (storeEthBlocks_loop h) (fun db₁ e he hkept => ?_) rfl
      rw [storeEthBlock_other fun heq => hlisted ⟨e, he, heq⟩, hkept]
    rw [blockRows, blockRows, Prod.mk.injEq] at hsame
    refine .inl ?_
    rw [← AList.lookup_isSome, ← hsame.1]
    exact AList.lookup_isSome.mpr hid

theorem ethBlocksOf_nodup (parseResults : BTreeMap Slot BlockParseResult) :
    ((ethBlocksOf parseResults).map Prod.fst).Nodup := by
  refine List.pairwise_map.mpr ((ethBlocksOf_ascending parseResults).imp ?_)
  intro a b hbefore heq
  rw [heq] at hbefore
  exact ItemId.Before.irrefl _ hbefore

theorem Tidy.step {a : StorageAction} (h : Tidy db) (hstep : (calledMachine X).step db a db') :
    Tidy db' := by
  obtain ⟨hstep, hseen⟩ := hstep
  have hslots : a ≠ .solana → ∀ slot ∈ db.solSlot, slot ∈ db'.solSlot := by
    intro ha slot hslot
    have hsame : db'.solSlot = db.solSlot := congrArg Prod.fst (storageStep_solTables hstep ha)
    rwa [hsame]
  cases a with
  | registerTransactions parseResults =>
      exact forTry_kept (P := fun db₁ : Db block => Tidy db₁)
        (TransactionStorage.registerParseResults_loop hstep)
        (fun db₁ e _ hdb₁ => hdb₁.registerTransaction _ _) h
  | storeEthBlocks parseResults =>
      exact h.storeEthBlocks _ (ethBlocksOf_nodup parseResults) (fun e he => (hseen e he).1)
        (storeEthBlocks_loop hstep)
  | recordParams pendingBlocks producedBlocks =>
      have hsame := recordAllParams_rest pendingBlocks producedBlocks db
      have hmem := (recordAllParams_spec pendingBlocks producedBlocks db).1
      have htx := recordAllParams_evmTx pendingBlocks producedBlocks db
      have hslots := hslots (by simp)
      cases hstep
      exact h.of_same hslots htx hmem hsame.2 fun key => by rw [hsame.1]
  | recordReceipts pendingBlocks producedBlocks =>
      have hsame := (blockProduced_loop _ (TransactionStorage.blocksProduced_loop hstep)).1
      have htx : db'.evmTx = db.evmTx :=
        forTry_kept (P := fun db₁ : Db block => db₁.evmTx = db.evmTx)
          (TransactionStorage.blocksProduced_loop hstep)
          (fun db₁ e _ hkept => (blockProduced_evmTx _ db₁ e).trans hkept) rfl
      exact h.of_same (hslots (by simp)) htx (fun id => by rw [hsame.ethBlock]) hsame.ethBlockTxs
        hsame.results
  | cleanFromSlot fromSlot =>
      cases hstep
      exact h.cleanFromSlot fromSlot
  | solana =>
      obtain ⟨solSlot, solBlock, rfl⟩ := hstep
      refine h.of_same (fun slot hslot => ?_) rfl (fun _ => Iff.rfl) rfl fun _ => Iff.rfl
      obtain ⟨s, hs⟩ := HashMap.lookup_of_mem hslot
      obtain ⟨status, hstatus⟩ := KeepsSlots.kept hseen slot s hs
      exact HashMap.mem_of_lookup hstatus

theorem InForm.step {a : StorageAction} (h : InForm X db)
    (hstep : (calledMachine X).step db a db') : InForm X db' := by
  have htidy := h.toTidy.step hstep
  obtain ⟨hstep, hseen⟩ := hstep
  have hrlps : RlpStored X db' := by
    refine storageStep_rlpStored h.rlps ?_ hstep
    cases a with
    | registerTransactions parseResults => exact hseen
    | _ => trivial
  -- what all but the loader leave alone
  have hslots : a ≠ .solana → db'.solSlot = db.solSlot := fun ha =>
    congrArg Prod.fst (storageStep_solTables hstep ha)
  have hparents : a ≠ .solana → ParentsBefore db' := by
    intro ha
    rw [ParentsBefore, hslots ha]
    exact h.parents
  have hreadable : a ≠ .solana → (∀ id ∈ db'.ethBlock, id ∈ db.ethBlock) →
      ∀ id ∈ db'.ethBlock, ∀ s, db'.solSlot.lookup id.1 = some s → SlotReadable X s := by
    intro ha hold id hid s hs
    rw [hslots ha] at hs
    exact h.slots id (hold id hid) s hs
  have hhashes : (∀ id params, paramsOf db' id = some params → paramsOf db id = some params) →
      ∀ id id' params params', paramsOf db' id = some params → paramsOf db' id' = some params' →
        params.hash = params'.hash → id = id' := fun hold id id' params params' hid hid' heq =>
    h.hashes id id' params params' (hold _ _ hid) (hold _ _ hid') heq
  cases a with
  | registerTransactions parseResults =>
      have hblock : db'.ethBlock = db.ethBlock :=
        forTry_kept (P := fun db₁ : Db block => db₁.ethBlock = db.ethBlock)
          (TransactionStorage.registerParseResults_loop hstep)
          (fun db₁ e _ hkept => (registerTransaction_ethBlock _ db₁ _).trans hkept) rfl
      refine ⟨htidy, hparents (by simp), hreadable (by simp) (fun id hid => hblock ▸ hid), hrlps,
        hhashes fun id params hid => ?_⟩
      rw [← registerParseResults_paramsOf (.inl hstep)]
      exact hid
  | storeEthBlocks parseResults =>
      refine ⟨htidy, hparents (by simp), fun id hid s hs => ?_, hrlps,
        hhashes fun id params hid => ?_⟩
      · rw [hslots (by simp)] at hs
        rcases mem_storeEthBlocks hstep hid with hold | ⟨e, he, rfl⟩
        · exact h.slots id hold s hs
        · exact (hseen e he).2 s hs
      · rw [← registerParseResults_paramsOf (X := X) (.inr hstep)]
        exact hid
  | recordParams pendingBlocks producedBlocks =>
      refine ⟨htidy, hparents (by simp), hreadable (by simp) fun id hid => ?_, hrlps,
        fun id id' params params' hid hid' heq => ?_⟩
      · cases hstep
        exact ((recordAllParams_spec pendingBlocks producedBlocks db).1 id).mp hid
      · cases hstep
        rcases paramsOf_recordAllParams_new hid with hold | hnew
        · rcases paramsOf_recordAllParams_new hid' with hold' | hnew'
          · exact h.hashes id id' params params' hold hold' heq
          · exact hseen id' params' hnew' id params (.inr hold) heq
        · have hother := paramsOf_recordAllParams_new hid'
          exact (hseen id params hnew id' params' hother.symm heq.symm).symm
  | recordReceipts pendingBlocks producedBlocks =>
      have hblock := blocksProduced_ethBlock hstep
      refine ⟨htidy, hparents (by simp), hreadable (by simp) (fun id hid => hblock ▸ hid), hrlps,
        hhashes fun id params hid => ?_⟩
      rw [paramsOf, hblock] at hid
      exact hid
  | cleanFromSlot fromSlot =>
      have hblock := mem_unless db.ethBlock fun id => fromSlot ≤ id.1
      refine ⟨htidy, hparents (by simp), hreadable (by simp) (fun id hid => ?_), hrlps,
        hhashes fun id params hid => ?_⟩
      · cases hstep
        exact ((hblock id).mp hid).1
      · cases hstep
        obtain ⟨header, hheader, hparams⟩ := paramsOf_eq_some.mp hid
        have hlookup : (if fromSlot ≤ id.1 then none else db.ethBlock.lookup id) = some header :=
          (lookup_unless db.ethBlock (fun id => fromSlot ≤ id.1) id).symm.trans hheader
        split at hlookup
        · cases hlookup
        · exact paramsOf_eq_some.mpr ⟨header, hlookup, hparams⟩
  | solana =>
      obtain ⟨solSlot, solBlock, rfl⟩ := hstep
      refine ⟨htidy, fun slot s hs => KeepsSlots.parents hseen slot s hs, fun id hid s hs => ?_,
        hrlps, hhashes fun id params hid => hid⟩
      obtain ⟨s₀, hs₀⟩ := HashMap.lookup_of_mem (h.slotStored id hid)
      obtain ⟨status, hkept⟩ := KeepsSlots.kept hseen id.1 s₀ hs₀
      obtain ⟨text, bytes, time, timestamp, hreadable⟩ := h.slots id hid s₀ hs₀
      have hsame : s = { s₀ with status := status } := Option.some.inj (hs.symm.trans hkept)
      rw [hsame]
      exact ⟨text, bytes, time, timestamp, hreadable⟩

theorem inForm_of_run {tr : List (Db block × StorageAction)}
    (hrun : Machine.Run (calledMachine X) tr db) : InForm X db := by
  induction hrun with
  | start hinit =>
      cases hinit
      exact {
        slotStored := fun id hid => (AList.notMem_empty id hid).elim
        txStored := fun _ _ hrow => (AList.notMem_empty _ hrow).elim
        blockStored := fun _ _ hrow => (AList.notMem_empty _ hrow).elim
        resultStored := fun _ _ hrow => (AList.notMem_empty _ hrow).elim
        placed := fun _ _ _ _ hrow => by cases hrow
        filled := fun id hid => (AList.notMem_empty id hid).elim
        parents := fun _ _ hrow => by cases hrow
        slots := fun id hid => (AList.notMem_empty id hid).elim
        rlps := fun _ _ hrow => by cases hrow
        hashes := fun _ _ _ _ hid => by cases hid }
  | next _ hstep ih => exact ih.step hstep

/-- Whatever the order of the transactions: the tables are well formed at any time, and the view of
pending blocks is answered. -/
theorem pending_blocks_answered (hX : ReadsBack X) {tr : List (Db block × StorageAction)}
    (hrun : Machine.Run (calledMachine X) tr db) :
    WellFormed X db ∧ ∃ answer, getPendingBlocks X db = .ok answer := by
  have hdb := (inForm_of_run hrun).wellFormed hX
  obtain ⟨st, _, hanswer⟩ := getPendingBlocks_answer hdb
  refine ⟨hdb, ?_⟩
  rw [hanswer]
  split
  · exact ⟨_, rfl⟩
  · exact ⟨_, rfl⟩

/-! A slot with a block of one transaction, which is recorded. -/

/-- What a transaction commits. -/
def committed (r : Outcome (Unit × Db Unit)) : Db Unit :=
  match r with
  | .ok (_, db) => db
  | .error _ => Db.empty

theorem committed_eq {r : Outcome (Unit × Db Unit)} (h : r.isOk = true) :
    r = .ok ((), committed r) := by
  cases r with
  | ok r => rfl
  | error e => cases h

def formedResults : BTreeMap Slot BlockParseResult :=
  (∅ : BTreeMap Slot BlockParseResult).insert 7 {
    slotNumber := 7
    solanaBlockhash := 7
    parentSolanaBlockhash := 6
    timestamp := some 0
    transactions := [((someClient 43 false).transaction, .default)]
    ethBlocks := [.new (some 0) [43] 0 none] }

def formedParams : ProducedBlocks := ProducedBlocks.insert ∅ 7 0 ⟨1, none, 1, 0⟩

def formedPending : PendingBlocks :=
  (∅ : PendingBlocks).insert 7 ⟨7, 0, (∅ : BTreeMap Nat PendingL2Block).insert 0 ⟨∅, none⟩⟩

def formedSlot : Db Unit :=
  { (Db.empty : Db Unit) with
    solSlot := (∅ : HashMap Slot SolSlot).insert 7
      ⟨6, .confirmed, some "the slot's blockhash, 32 letters", some 0⟩ }

def formedTxs : Db Unit :=
  committed (TransactionStorage.registerParseResults servingStandIns formedResults formedSlot)

def formedBlocks : Db Unit := committed (storeEthBlocks formedResults formedTxs)

/-- The block is pending once it is stored, and no longer when it is recorded. -/
theorem pending_blocks_answered_direct :
    (WellFormed servingStandIns formedBlocks ∧ ∃ answer,
      getPendingBlocks servingStandIns formedBlocks = .ok answer) ∧
    WellFormed servingStandIns (recordAllParams formedPending formedParams formedBlocks) ∧
    ∃ answer, getPendingBlocks servingStandIns
      (recordAllParams formedPending formedParams formedBlocks) = .ok answer := by
  have hload : (calledMachine servingStandIns).step (Db.empty : Db Unit) .solana formedSlot := by
    refine ⟨⟨formedSlot.solSlot, ∅, rfl⟩, fun slot s hs => (by cases hs), fun slot s hs => ?_⟩
    have hlookup := (HashMap.lookup_insert' (∅ : HashMap Slot SolSlot) 7 slot
      ⟨6, .confirmed, some "the slot's blockhash, 32 letters", some 0⟩).symm.trans hs
    split at hlookup
    · next hslot =>
        cases hlookup
        cases hslot
        exact .inl (by decide : (6 : Nat) < 7)
    · cases hlookup
  have hall : formedResults.toList.map Prod.snd =
      [{ slotNumber := 7, solanaBlockhash := 7, parentSolanaBlockhash := 6, timestamp := some 0
         transactions := [((someClient 43 false).transaction, .default)]
         ethBlocks := [.new (some 0) [43] 0 none] }] := by decide +kernel
  have hregister : (calledMachine servingStandIns).step formedSlot
      (.registerTransactions formedResults) formedTxs := by
    refine ⟨committed_eq (by decide +kernel), fun e he t ht => ?_⟩
    have hmem := List.mem_map_of_mem (f := Prod.snd) he
    rw [hall, List.mem_singleton] at hmem
    rw [hmem, List.mem_singleton] at ht
    rw [ht]
    exact ⟨_, _, (someClient_honest (by decide) false).decodes, .inl rfl⟩
  have hlisted : ethBlocksOf formedResults = [((7, 0), .new (some 0) [43] 0 none)] := by
    decide +kernel
  have hstore : (calledMachine servingStandIns).step formedTxs (.storeEthBlocks formedResults)
      formedBlocks := by
    refine ⟨committed_eq (by decide +kernel), fun e he => ?_⟩
    rw [hlisted, List.mem_singleton] at he
    subst he
    refine ⟨⟨by decide, .inl (by decide +kernel)⟩, fun s hs => ?_⟩
    have hslot : formedTxs.solSlot.lookup 7 =
        some ⟨6, .confirmed, some "the slot's blockhash, 32 letters", some 0⟩ := by
      decide +kernel
    cases hslot.symm.trans hs
    exact ⟨_, _, _, _, rfl, rfl, by decide +kernel, rfl, rfl⟩
  have hrecord : (calledMachine servingStandIns).step formedBlocks
      (.recordParams formedPending formedParams)
      (recordAllParams formedPending formedParams formedBlocks) := by
    have hone : ∀ id params, NestedMap.get formedParams id = some params → id = (7, 0) := by
      intro id params hid
      have hiter : formedParams.iter.map (fun e => (e.1, e.2.1)) = [(7, 0)] := by decide +kernel
      have hmem := List.mem_map_of_mem (f := fun e : Slot × Nat × BlockParams => (e.1, e.2.1))
        (mem_iter.mpr hid)
      rw [hiter, List.mem_singleton] at hmem
      exact hmem
    refine ⟨rfl, fun id params hid id' params' hid' _ => ?_⟩
    rw [hone id params hid]
    rcases hid' with hnew | hold
    · exact hone id' params' hnew
    · obtain ⟨header, hheader, hparams⟩ := paramsOf_eq_some.mp hold
      have hnone : ∀ e ∈ formedBlocks.ethBlock.entries, e.2.params = none := by decide +kernel
      rw [hnone _ ((HashMap.mem_entries _ _ _).mpr hheader)] at hparams
      cases hparams
  have hstored := (((Machine.Run.start rfl).next hload).next hregister).next hstore
  exact ⟨pending_blocks_answered servingStandIns_readsBack hstored,
    pending_blocks_answered servingStandIns_readsBack (hstored.next hrecord)⟩

end PgStorage

end RomeSdk
