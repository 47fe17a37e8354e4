import RomeSdk.Proofs.PendingRows
import RomeSdk.Proofs.LogIndices

/-!
# The pending blocks and their parent

`get_pending_blocks` files the rows of the second view into three maps and takes
the last produced block it has seen as the parent of the pending ones. On a chain
whose produced blocks come first, the view reaches every pending block, and it
reaches the last produced block as well, unless that block is in the head slot,
where the view leaves produced blocks out, or in slot 0. So the parent is right
exactly if the head slot is not partly produced, and nothing is left in slot 0.
-/

namespace RomeSdk

open ItemId (Before)

namespace PgStorage

variable {block : Type} {X : StorageCrates}

/-! ## Filing a transaction -/

/-- The slots of the map have blocks. -/
def NoEmptySlot (pending : PendingBlocks) : Prop :=
  ∀ (slot : Slot) l1Block, pending[slot]? = some l1Block →
    ∃ (i : Nat) (b : PendingL2Block), l1Block.l2Blocks[i]? = some b

theorem appendTx_ok {newL1Block : Outcome PendingL1Block} {gasRecipient : Option Address}
    {occupied : String} {slot : Slot} {i k : Nat} {rlp : Bytes} {tx : Transaction}
    {txResult : TxResult} {pending : PendingBlocks}
    (hl1 : ∃ l1Block, newL1Block = .ok l1Block ∧ l1Block.l2Blocks = ∅)
    (hfree : ∀ b, pending.get slot i = some b → b.transactions[k]? = none)
    (hdecode : X.ethers.decode rlp = .ok tx) :
    ∃ pending', appendTx X newL1Block gasRecipient occupied slot i k rlp txResult pending
        = .ok pending' ∧
      (∀ id : EthBlockId, pending'.get id.1 id.2 =
        if id = (slot, i) then
          let b := (pending.get slot i).getD ⟨∅, gasRecipient⟩
          some { b with transactions := b.transactions.insert k (tx, txResult) }
        else pending.get id.1 id.2) ∧
      (NoEmptySlot pending → NoEmptySlot pending') := by
  obtain ⟨fresh, hfresh, hempty⟩ := hl1
  let l1Block := pending[slot]?.getD fresh
  let l2Block := l1Block.l2Blocks[i]?.getD ⟨∅, gasRecipient⟩
  have hl2 : l2Block = (pending.get slot i).getD ⟨∅, gasRecipient⟩ := by
    simp only [l2Block, l1Block, PendingBlocks.get]
    cases pending[slot]? with
    | none => simp [hempty]
    | some l1 => simp
  have hvacant : l2Block.transactions[k]? = none := by
    rw [hl2]
    cases hget : pending.get slot i with
    | none => exact Std.ExtTreeMap.getElem?_empty
    | some b => exact hfree b hget
  let added := { l1Block with
    l2Blocks := l1Block.l2Blocks.insert i { l2Block with
      transactions := l2Block.transactions.insert k (tx, txResult) } }
  refine ⟨pending.insert slot added, ?_, ?_, ?_⟩
  · have hfile : fileTx X gasRecipient occupied slot i k rlp txResult pending l1Block
        = .ok (pending.insert slot added) := by
      rw [fileTx]
      rw [show l1Block.l2Blocks[i]?.getD ⟨∅, gasRecipient⟩ = l2Block from rfl, hvacant, hdecode]
    rw [appendTx, ← hfile]
    simp only [l1Block]
    cases pending[slot]? with
    | none => rw [hfresh]; rfl
    | some l1 => rfl
  · intro id
    obtain ⟨slot', i'⟩ := id
    simp only [PendingBlocks.get, BTreeMap.get?_insert, Prod.mk.injEq]
    by_cases hslot : slot = slot'
    · subst hslot
      simp only [if_true, Option.bind_some, added, BTreeMap.get?_insert, true_and]
      by_cases hi : i = i'
      · subst hi
        simp only [if_true]
        rw [← PendingBlocks.get, ← hl2]
      · rw [if_neg hi, if_neg (Ne.symm hi)]
        simp only [l1Block]
        cases pending[slot]? with
        | none => simp [hempty]
        | some l1 => simp
    · rw [if_neg hslot, if_neg (fun h => hslot h.1.symm)]
  · intro hne slot' l1' h
    rw [BTreeMap.get?_insert] at h
    split at h
    · cases h
      refine ⟨i, { l2Block with transactions := l2Block.transactions.insert k (tx, txResult) }, ?_⟩
      rw [BTreeMap.get?_insert, if_pos rfl]
    · exact hne slot' l1' h

/-! ## The loop over the rows -/

theorem get_insertIfNew {V : Type} (m : ByBlockId V) (id a : EthBlockId) (v : V) :
    NestedMap.get (m.insertIfNew id v) a
      = if id = a then some ((NestedMap.get m id).getD v) else NestedMap.get m a := by
  obtain ⟨slot, i⟩ := id
  obtain ⟨slot', i'⟩ := a
  simp only [NestedMap.get, ByBlockId.insertIfNew, BTreeMap.get?_upsert, Prod.mk.injEq]
  by_cases hslot : slot = slot'
  · subst hslot
    rw [if_pos rfl, Option.bind_some, BTreeMap.get?_insertIfNew]
    by_cases hi : i = i'
    · subst hi
      cases m[slot]? with
      | none => simp
      | some group => simp
    · cases m[slot]? with
      | none => simp [hi]
      | some group => simp [hi]
  · simp [hslot]

theorem full_insertIfNew {V : Type} {m : ByBlockId V} (h : NestedMap.Full m) (id : EthBlockId)
    (v : V) : NestedMap.Full (m.insertIfNew id v) := by
  intro slot group hgroup
  rw [ByBlockId.insertIfNew, BTreeMap.get?_upsert] at hgroup
  split at hgroup
  · cases hgroup
    refine List.ne_nil_of_mem (a := (id.2, ((m[id.1]?.getD ∅)[id.2]?.getD v))) ?_
    rw [BTreeMap.mem_toList, BTreeMap.get?_insertIfNew, if_pos rfl]
  · exact h slot group hgroup

/-- What can be said of a list of rows that belong to one database: the rows of a
block agree, no transaction is there twice, and all can be read. -/
structure Readable (X : StorageCrates) (txs : List PendingTx) : Prop where
  once : txs.Pairwise fun a b => (a.id, a.txIdx) ≠ (b.id, b.txIdx)
  agree : ∀ a ∈ txs, ∀ b ∈ txs, a.id = b.id →
    a.ethBlockhash = b.ethBlockhash ∧ a.gasRecipient = b.gasRecipient
  slot : ∀ a ∈ txs, ∃ l1Block, newFromPendingTx X a = .ok l1Block ∧ l1Block.l2Blocks = ∅
  decoded : ∀ a ∈ txs, ∃ tx, X.ethers.decode a.rlp = .ok tx

/-- The maps hold what the rows so far say. -/
structure Filed (X : StorageCrates) (txs : List PendingTx) (st : PendingState) : Prop where
  produced : ∀ id hash, NestedMap.get st.producedBlocks id = some hash ↔
    ∃ tx ∈ txs, tx.id = id ∧ tx.ethBlockhash = some hash
  full : NestedMap.Full st.producedBlocks
  noEmpty : NoEmptySlot st.pendingBlocks
  pending : ∀ id : EthBlockId, (st.pendingBlocks.get id.1 id.2).isSome = true ↔
    ∃ tx ∈ txs, tx.id = id ∧ tx.ethBlockhash = none
  gasRecipient : ∀ (id : EthBlockId) b, st.pendingBlocks.get id.1 id.2 = some b →
    ∀ tx ∈ txs, tx.id = id → b.gasRecipient = tx.gasRecipient
  transactions : ∀ (id : EthBlockId) b, st.pendingBlocks.get id.1 id.2 = some b →
    ∀ (k : Nat) v, b.transactions[k]? = some v ↔ ∃ tx ∈ txs, tx.id = id ∧ tx.txIdx = k ∧
      X.ethers.decode tx.rlp = .ok v.1 ∧ tx.txResult = v.2

theorem filed_nil : Filed X [] ⟨∅, ∅, ∅⟩ where
  produced id hash := by simp [NestedMap.get_empty]
  full := NestedMap.full_empty
  noEmpty slot l1Block h := by
    rw [Std.ExtTreeMap.getElem?_empty] at h
    cases h
  pending id := by simp [PendingBlocks.get]
  gasRecipient id b h := by simp [PendingBlocks.get] at h
  transactions id b h := by simp [PendingBlocks.get] at h

theorem add_produced {st : PendingState} {tx : PendingTx} {hash : H256}
    (h : tx.ethBlockhash = some hash) : ∃ st', st.add X tx = .ok st' ∧
      st'.producedBlocks = st.producedBlocks.insertIfNew tx.id hash ∧
      st'.pendingBlocks = st.pendingBlocks := by
  rw [PendingState.add, h]
  by_cases hfinalized : tx.slotStatus = .finalized
  · rw [if_pos hfinalized]
    exact ⟨_, rfl, rfl, rfl⟩
  · rw [if_neg hfinalized]
    exact ⟨_, rfl, rfl, rfl⟩

theorem add_pending {st : PendingState} {tx : PendingTx} {pending : PendingBlocks}
    (h : tx.ethBlockhash = none) (happend : appendPendingTx X st.pendingBlocks tx = .ok pending) :
    ∃ st', st.add X tx = .ok st' ∧ st'.producedBlocks = st.producedBlocks ∧
      st'.pendingBlocks = pending := by
  rw [PendingState.add, h]
  by_cases hfinalized : tx.slotStatus = .finalized
  · rw [if_pos hfinalized]
    simp only [happend]
    exact ⟨_, rfl, rfl, rfl⟩
  · rw [if_neg hfinalized]
    simp only [happend]
    exact ⟨_, rfl, rfl, rfl⟩

/-- A produced row. -/
theorem Filed.add_produced {txs : List PendingTx} {st st' : PendingState} {tx : PendingTx}
    {hash : H256} (hf : Filed X txs st) (hr : Readable X (txs ++ [tx]))
    (hhash : tx.ethBlockhash = some hash)
    (hproduced : st'.producedBlocks = st.producedBlocks.insertIfNew tx.id hash)
    (hpending : st'.pendingBlocks = st.pendingBlocks) : Filed X (txs ++ [tx]) st' := by
  have hlast : tx ∈ txs ++ [tx] := List.mem_append_right _ (List.mem_singleton_self _)
  have hkeep : ∀ id b, st.pendingBlocks.get id.1 id.2 = some b → tx.id ≠ id := by
    intro id b hb heq
    obtain ⟨a, ha, haid, hnone⟩ := (hf.pending id).mp (by rw [hb]; rfl)
    have hagree := (hr.agree a (List.mem_append_left _ ha) tx hlast (haid.trans heq.symm)).1
    rw [hnone, hhash] at hagree
    cases hagree
  refine ⟨?_, ?_, ?_, ?_, ?_, ?_⟩
  · intro id hash'
    rw [hproduced, get_insertIfNew]
    by_cases hid : tx.id = id
    · subst hid
      rw [if_pos rfl]
      constructor
      · intro hget
        refine ⟨tx, hlast, rfl, ?_⟩
        cases hold : NestedMap.get st.producedBlocks tx.id with
        | none =>
            rw [hold] at hget
            rw [hhash, ← hget]
            rfl
        | some old =>
            rw [hold] at hget
            obtain ⟨a, ha, haid, hahash⟩ := (hf.produced _ _).mp hold
            rw [← (hr.agree a (List.mem_append_left _ ha) tx hlast haid).1, hahash]
            exact hget
      · rintro ⟨a, ha, haid, hahash⟩
        have hhash' : hash = hash' := by
          have hagree := (hr.agree a ha tx hlast haid).1
          rw [hahash, hhash] at hagree
          exact (Option.some.inj hagree).symm
        subst hhash'
        cases hold : NestedMap.get st.producedBlocks tx.id with
        | none => rfl
        | some old =>
            obtain ⟨b, hb, hbid, hbhash⟩ := (hf.produced _ _).mp hold
            have hagree := (hr.agree b (List.mem_append_left _ hb) tx hlast hbid).1
            rw [hbhash, hhash] at hagree
            rw [← hagree]
            rfl
    · rw [if_neg hid, hf.produced]
      simp [hid]
  · rw [hproduced]
    exact full_insertIfNew hf.full _ _
  · rw [hpending]
    exact hf.noEmpty
  · intro id
    rw [hpending, hf.pending]
    simp [hhash]
  · intro id b hb a ha haid
    rw [hpending] at hb
    rcases List.mem_append.mp ha with ha | ha
    · exact hf.gasRecipient id b hb a ha haid
    · rw [List.mem_singleton.mp ha] at haid
      exact absurd haid (hkeep id b hb)
  · intro id b hb k v
    rw [hpending] at hb
    rw [hf.transactions id b hb]
    simp [hkeep id b hb]

theorem appendPendingTx_ok {pending : PendingBlocks} {tx : PendingTx} {t : Transaction}
    (hslot : ∃ l1Block, newFromPendingTx X tx = .ok l1Block ∧ l1Block.l2Blocks = ∅)
    (hfree : ∀ b, pending.get tx.slotNumber tx.slotBlockIdx = some b →
      b.transactions[tx.txIdx]? = none)
    (hdecode : X.ethers.decode tx.rlp = .ok t) :
    ∃ pending', appendPendingTx X pending tx = .ok pending' ∧
      (∀ id : EthBlockId, pending'.get id.1 id.2 =
        if id = tx.id then
          let b := (pending.get tx.slotNumber tx.slotBlockIdx).getD ⟨∅, tx.gasRecipient⟩
          some { b with transactions := b.transactions.insert tx.txIdx (t, tx.txResult) }
        else pending.get id.1 id.2) ∧
      (NoEmptySlot pending → NoEmptySlot pending') :=
  appendTx_ok hslot hfree hdecode

/-- Rows of one block agree with the last one. -/
theorem Readable.agree_last {txs : List PendingTx} {tx : PendingTx} (hr : Readable X (txs ++ [tx]))
    (hhash : tx.ethBlockhash = none) {a : PendingTx} (ha : a ∈ txs ++ [tx]) (haid : a.id = tx.id) :
    a.ethBlockhash = none ∧ a.gasRecipient = tx.gasRecipient := by
  rw [← hhash]
  exact hr.agree a ha tx (List.mem_append_right _ (List.mem_singleton_self _)) haid

/-- No row before the last one has its place in the block. -/
theorem Readable.fresh {txs : List PendingTx} {tx : PendingTx} (hr : Readable X (txs ++ [tx]))
    {a : PendingTx} (ha : a ∈ txs) (haid : a.id = tx.id) : a.txIdx ≠ tx.txIdx := by
  intro hidx
  have hpairwise := (List.pairwise_append.mp hr.once).2.2 a ha tx (List.mem_singleton_self _)
  exact hpairwise (by rw [haid, hidx])

/-- What is pending at the block of a row when the row comes. -/
def blockBefore (st : PendingState) (tx : PendingTx) : PendingL2Block :=
  (st.pendingBlocks.get tx.slotNumber tx.slotBlockIdx).getD ⟨∅, tx.gasRecipient⟩

theorem Filed.blockBefore_transactions {txs : List PendingTx} {st : PendingState} {tx : PendingTx}
    (hf : Filed X txs st) (hr : Readable X (txs ++ [tx])) (hhash : tx.ethBlockhash = none)
    (k : Nat) (v : Transaction × TxResult) :
    (blockBefore st tx).transactions[k]? = some v ↔ ∃ a ∈ txs, a.id = tx.id ∧
      a.txIdx = k ∧ X.ethers.decode a.rlp = .ok v.1 ∧ a.txResult = v.2 := by
  rw [blockBefore]
  cases hget : st.pendingBlocks.get tx.slotNumber tx.slotBlockIdx with
  | none =>
      simp only [Option.getD_none, Std.ExtTreeMap.getElem?_empty, reduceCtorEq, false_iff,
        not_exists, not_and]
      intro a ha haid
      have hsome := (hf.pending tx.id).mpr
        ⟨a, ha, haid, (hr.agree_last hhash (List.mem_append_left _ ha) haid).1⟩
      rw [PendingTx.id, hget] at hsome
      cases hsome
  | some b =>
      rw [Option.getD_some]
      exact hf.transactions tx.id b hget k v

theorem Filed.blockBefore_gasRecipient {txs : List PendingTx} {st : PendingState} {tx : PendingTx}
    (hf : Filed X txs st) (hr : Readable X (txs ++ [tx])) (hhash : tx.ethBlockhash = none) :
    (blockBefore st tx).gasRecipient = tx.gasRecipient := by
  rw [blockBefore]
  cases hget : st.pendingBlocks.get tx.slotNumber tx.slotBlockIdx with
  | none => rw [Option.getD_none]
  | some b =>
      obtain ⟨a, ha, haid, _⟩ := (hf.pending tx.id).mp (by rw [PendingTx.id, hget]; rfl)
      rw [Option.getD_some, hf.gasRecipient tx.id b hget a ha haid]
      exact (hr.agree_last hhash (List.mem_append_left _ ha) haid).2

/-- With the row its block holds the transactions of the rows before and its own. -/
theorem Filed.blockAfter_transactions {txs : List PendingTx} {st : PendingState} {tx : PendingTx}
    (hf : Filed X txs st) (hr : Readable X (txs ++ [tx])) (hhash : tx.ethBlockhash = none)
    {t : Transaction} (hdecode : X.ethers.decode tx.rlp = .ok t) (k : Nat)
    (v : Transaction × TxResult) :
    ((blockBefore st tx).transactions.insert tx.txIdx (t, tx.txResult))[k]? = some v ↔
      ∃ a ∈ txs ++ [tx], a.id = tx.id ∧ a.txIdx = k ∧ X.ethers.decode a.rlp = .ok v.1 ∧
        a.txResult = v.2 := by
  rw [BTreeMap.get?_insert]
  by_cases hk : tx.txIdx = k
  · subst hk
    rw [if_pos rfl]
    constructor
    · intro hv
      cases hv
      exact ⟨tx, List.mem_append_right _ (List.mem_singleton_self _), rfl, rfl, hdecode, rfl⟩
    · intro ⟨a, ha, haid, hidx, hadecode, hresult⟩
      rcases List.mem_append.mp ha with ha | ha
      · exact absurd hidx (hr.fresh ha haid)
      · rw [List.mem_singleton.mp ha] at hadecode hresult
        rw [hdecode] at hadecode
        cases hadecode
        rw [hresult]
  · rw [if_neg hk, hf.blockBefore_transactions hr hhash]
    simp [hk]

/-- A pending row. -/
theorem Filed.add_pending {txs : List PendingTx} {st : PendingState} {tx : PendingTx}
    (hf : Filed X txs st) (hr : Readable X (txs ++ [tx])) (hhash : tx.ethBlockhash = none) :
    ∃ st', st.add X tx = .ok st' ∧ Filed X (txs ++ [tx]) st' := by
  have hlast : tx ∈ txs ++ [tx] := List.mem_append_right _ (List.mem_singleton_self _)
  obtain ⟨t, hdecode⟩ := hr.decoded tx hlast
  have hvacant : ∀ b, st.pendingBlocks.get tx.slotNumber tx.slotBlockIdx = some b →
      b.transactions[tx.txIdx]? = none := by
    intro b hb
    cases hk : b.transactions[tx.txIdx]? with
    | none => rfl
    | some v =>
        obtain ⟨a, ha, haid, hidx, _⟩ := (hf.transactions tx.id b hb _ v).mp hk
        exact absurd hidx (hr.fresh ha haid)
  obtain ⟨pending, happend, hget, hne⟩ := appendPendingTx_ok (hr.slot tx hlast) hvacant hdecode
  obtain ⟨st', hadd, hproduced, hpending⟩ := PgStorage.add_pending hhash happend
  refine ⟨st', hadd, ?_, ?_, ?_, ?_, ?_, ?_⟩
  · intro id hash
    rw [hproduced, hf.produced]
    simp [hhash]
  · rw [hproduced]
    exact hf.full
  · rw [hpending]
    exact hne hf.noEmpty
  · intro id
    rw [hpending, hget]
    by_cases hid : id = tx.id
    · subst hid
      simp [hhash]
    · rw [if_neg hid, hf.pending]
      simp [Ne.symm hid]
  · intro id b hb a ha haid
    rw [hpending, hget] at hb
    by_cases hid : id = tx.id
    · rw [if_pos hid] at hb
      cases hb
      rw [hid] at haid
      rw [(hr.agree_last hhash ha haid).2]
      exact hf.blockBefore_gasRecipient hr hhash
    · rw [if_neg hid] at hb
      rcases List.mem_append.mp ha with ha | ha
      · exact hf.gasRecipient id b hb a ha haid
      · rw [List.mem_singleton.mp ha] at haid
        exact absurd haid.symm hid
  · intro id b hb k v
    rw [hpending, hget] at hb
    by_cases hid : id = tx.id
    · rw [if_pos hid] at hb
      cases hb
      subst hid
      exact hf.blockAfter_transactions hr hhash hdecode k v
    · rw [if_neg hid] at hb
      rw [hf.transactions id b hb]
      simp [Ne.symm hid]

theorem Readable.take {txs rest : List PendingTx} (h : Readable X (txs ++ rest)) :
    Readable X txs where
  once := (List.pairwise_append.mp h.once).1
  agree a ha b hb := h.agree a (List.mem_append_left _ ha) b (List.mem_append_left _ hb)
  slot a ha := h.slot a (List.mem_append_left _ ha)
  decoded a ha := h.decoded a (List.mem_append_left _ ha)

theorem filed_loop (rest : List PendingTx) : ∀ {txs : List PendingTx} {st : PendingState},
    Filed X txs st → Readable X (txs ++ rest) →
    ∃ st', rest.foldlM (PendingState.add X) st = .ok st' ∧ Filed X (txs ++ rest) st' := by
  induction rest with
  | nil =>
      intro txs st hf _
      rw [List.append_nil]
      exact ⟨st, rfl, hf⟩
  | cons tx rest ih =>
      intro txs st hf hr
      rw [List.append_cons] at hr ⊢
      obtain ⟨st₁, hadd, hf₁⟩ : ∃ st₁, st.add X tx = .ok st₁ ∧ Filed X (txs ++ [tx]) st₁ := by
        cases hhash : tx.ethBlockhash with
        | none => exact hf.add_pending hr.take hhash
        | some hash =>
            obtain ⟨st₁, hadd, hproduced, hpending⟩ : ∃ st₁, st.add X tx = .ok st₁ ∧
                st₁.producedBlocks = st.producedBlocks.insertIfNew tx.id hash ∧
                st₁.pendingBlocks = st.pendingBlocks := PgStorage.add_produced hhash
            exact ⟨st₁, hadd, hf.add_produced hr.take hhash hproduced hpending⟩
      obtain ⟨st', hloop, hf'⟩ := ih hf₁ hr
      refine ⟨st', ?_, hf'⟩
      rw [List.foldlM_cons, hadd]
      exact hloop

theorem filed_rows {txs : List PendingTx} (hr : Readable X txs) :
    ∃ st, txs.foldlM (PendingState.add X) ⟨∅, ∅, ∅⟩ = .ok st ∧ Filed X txs st := by
  have h := filed_loop txs filed_nil (by rw [List.nil_append]; exact hr)
  rwa [List.nil_append] at h

/-! ## What is to be returned -/

variable {db : Db block}

def Produced (db : Db block) (id : EthBlockId) (blockParams : BlockParams) : Prop :=
  OnChain db id.1 ∧ ∃ header, db.ethBlock.lookup id = some header ∧ header.params = some blockParams

def Pending (db : Db block) (id : EthBlockId) : Prop :=
  OnChain db id.1 ∧ ∃ header, db.ethBlock.lookup id = some header ∧ header.params = none

/-- The produced blocks of the chain come before the others. -/
def ProducedFirst (db : Db block) : Prop :=
  ∀ id blockParams id', Produced db id blockParams → Pending db id' → Before id id'

def LastProduced (db : Db block) (id : EthBlockId) (blockParams : BlockParams) : Prop :=
  Produced db id blockParams ∧ ∀ id' blockParams', Produced db id' blockParams' →
    id' = id ∨ Before id' id

/-- The pending blocks of the chain as they are stored, on the last produced one. -/
structure Offers (X : StorageCrates) (db : Db block) (producerParams : ProducerParams) : Prop where
  blocks : ∀ id : EthBlockId,
    (producerParams.pendingBlocks.get id.1 id.2).isSome = true ↔ Pending db id
  gasRecipient : ∀ (id : EthBlockId) b header,
    producerParams.pendingBlocks.get id.1 id.2 = some b → db.ethBlock.lookup id = some header →
    b.gasRecipient = header.gasRecipient
  transactions : ∀ (id : EthBlockId) b, producerParams.pendingBlocks.get id.1 id.2 = some b →
    ∀ (k : Nat) v, b.transactions[k]? = some v ↔ ∃ hash rlp row,
      db.ethBlockTxs.lookup (id, hash) = some k ∧ db.evmTx.lookup hash = some rlp ∧
      X.ethers.decode rlp = .ok v.1 ∧ db.evmTxResult.lookup (id.1, hash) = some row ∧
      row.txResult = v.2
  parent : ∀ hash, producerParams.parentHash = some hash ↔
    ∃ id blockParams, LastProduced db id blockParams ∧ blockParams.hash = hash

def OffersPending (X : StorageCrates) (db : Db block) : Prop :=
  match getPendingBlocks X db with
  | .ok (some producerParams) => (∃ id, Pending db id) ∧ Offers X db producerParams
  | .ok none => ∀ id, ¬ Pending db id
  | .error _ => False

/-- If blocks are pending, the last produced block is in a slot below the head slot,
and neither it nor a pending block is left behind in slot 0. -/
def ParentShown (db : Db block) : Prop :=
  (∃ id, Pending db id) →
    (∀ id blockParams, LastProduced db id blockParams → 0 < id.1 ∧ headSlot db ≠ some id.1) ∧
    ∀ id, Pending db id → 0 < id.1 ∨ headSlot db = some id.1

/-- What the writers of the tables keep. -/
structure WellFormed (X : StorageCrates) (db : Db block) : Prop extends Joined db where
  parents : ParentsBefore db
  /-- `store_blocks` stores a slot with its blockhash and time. -/
  slots : ∀ id ∈ db.ethBlock, ∀ s, db.solSlot.lookup id.1 = some s →
    ∃ text bytes time timestamp, s.blockhash = some text ∧ X.bs58Decode text = some bytes ∧
      bytes.length = 32 ∧ s.timestamp = some time ∧ U256.fromTimestamp time = .ok timestamp
  rlps : ∀ hash rlp, db.evmTx.lookup hash = some rlp → ∃ tx, X.ethers.decode rlp = .ok tx
  /-- Blocks have different hashes. -/
  hashes : ∀ id id' blockParams blockParams', Produced db id blockParams →
    Produced db id' blockParams' → blockParams.hash = blockParams'.hash → id = id'

theorem WellFormed.dated (hdb : WellFormed X db) : Dated db := by
  intro id hid s hs
  obtain ⟨text, _, _, _, htext, _⟩ := hdb.slots id hid s hs
  rw [htext]
  exact Option.some_ne_none text

/-! ## What is shown of the chain -/

theorem Shown.onChain {id : EthBlockId} (h : Shown db id) : OnChain db id.1 := h.visited.onChain

theorem WellFormed.headStored (hdb : WellFormed X db) {slot : Slot}
    (h : headSlot db = some slot) : slot ∈ db.solSlot := by
  obtain ⟨⟨i, header, hheader⟩, _⟩ := headSlot_eq_some.mp h
  refine hdb.slotStored (slot, i) ?_
  exact HashMap.mem_of_lookup hheader

theorem hasProduced_eq_true {slot : Slot} (h : hasProduced db slot = true) :
    ∃ i header blockParams, db.ethBlock.lookup (slot, i) = some header ∧
      header.params = some blockParams := by
  obtain ⟨b, hb, hsome⟩ := List.any_eq_true.mp h
  obtain ⟨blockParams, hparams⟩ := Option.isSome_iff_exists.mp hsome
  exact ⟨b.1, b.2, blockParams, mem_slotBlocks.mp hb, hparams⟩

/-- A block with nothing produced in higher slots is shown, if the walk can come to it. -/
theorem WellFormed.visited (hdb : WellFormed X db) {id : EthBlockId} (hchain : OnChain db id.1)
    (hpos : 0 < id.1 ∨ headSlot db = some id.1)
    (hlast : ∀ id' blockParams, Produced db id' blockParams → id'.1 ≤ id.1) :
    Visited db id.1 := by
  refine visited_of_onChain hdb.parents (fun slot h => hdb.headStored h) hchain hpos ?_
  intro p hp habove
  rw [Bool.eq_false_iff]
  intro hproduced
  obtain ⟨i, header, blockParams, hheader, hparams⟩ := hasProduced_eq_true hproduced
  have hle := hlast (p, i) blockParams ⟨hp, header, hheader, hparams⟩
  exact absurd habove (Nat.not_lt.mpr hle)

theorem shown_pending (hdb : WellFormed X db) (hfirst : ProducedFirst db) {id : EthBlockId}
    (h : Pending db id) : Shown db id ↔ 0 < id.1 ∨ headSlot db = some id.1 := by
  obtain ⟨hchain, header, hheader, hnone⟩ := h
  constructor
  · intro hshown
    by_cases hhead : headSlot db = some id.1
    · exact Or.inr hhead
    · exact Or.inl (hshown.visited.pos hhead)
  · intro hpos
    by_cases hhead : headSlot db = some id.1
    · obtain ⟨s, hs⟩ := HashMap.lookup_of_mem (hdb.headStored hhead)
      exact shown_head hhead hs hheader hnone
    · refine shown_below (hdb.visited hchain hpos ?_) hhead hheader
      intro id' blockParams hproduced
      exact (hfirst id' blockParams id hproduced ⟨hchain, header, hheader, hnone⟩).group_le

theorem shown_lastProduced (hdb : WellFormed X db) {id : EthBlockId} {blockParams : BlockParams}
    (h : LastProduced db id blockParams) :
    Shown db id ↔ 0 < id.1 ∧ headSlot db ≠ some id.1 := by
  obtain ⟨⟨hchain, header, hheader, hparams⟩, hlast⟩ := h
  constructor
  · intro hshown
    have hhead : headSlot db ≠ some id.1 := by
      intro hhead
      have hnone := hshown.head_pending hdb.parents hhead hheader
      rw [hparams] at hnone
      cases hnone
    exact ⟨hshown.visited.pos hhead, hhead⟩
  · intro hbelow
    refine shown_below (hdb.visited hchain (Or.inl hbelow.1) ?_) hbelow.2 hheader
    intro id' blockParams' hproduced
    rcases hlast id' blockParams' hproduced with heq | hbefore
    · rw [heq]
    · exact hbefore.group_le

theorem exists_lastProduced {id : EthBlockId} {blockParams : BlockParams}
    (h : Produced db id blockParams) : ∃ id' blockParams', LastProduced db id' blockParams' := by
  have hkeys : ∀ {id : EthBlockId} {blockParams : BlockParams}, Produced db id blockParams →
      id ∈ db.ethBlock.keys := by
    intro id blockParams hproduced
    obtain ⟨_, header, hheader, _⟩ := hproduced
    show id ∈ db.ethBlock
    exact HashMap.mem_of_lookup hheader
  obtain ⟨last, _, hlast, hmax⟩ := ItemId.exists_last
    (P := fun id => ∃ blockParams, Produced db id blockParams) db.ethBlock.keys
    ⟨id, hkeys h, blockParams, h⟩
  obtain ⟨lastParams, hlast⟩ := hlast
  refine ⟨last, lastParams, hlast, ?_⟩
  intro id' blockParams' h'
  exact hmax id' (hkeys h') ⟨blockParams', h'⟩

/-! ## What is returned -/

theorem newFromPendingTx_ok (hdb : WellFormed X db) {tx : PendingTx} {s : SolSlot}
    {header : EthBlockHeader} {hash : TxHash} (h : tx.Of db s header hash) :
    ∃ l1Block, newFromPendingTx X tx = .ok l1Block ∧ l1Block.l2Blocks = ∅ := by
  have hmem : tx.id ∈ db.ethBlock := by
    rw [← AList.lookup_isSome, h.ethBlock]
    rfl
  obtain ⟨text, bytes, time, timestamp, htext, hbytes, hlength, htime, htimestamp⟩ :=
    hdb.slots tx.id hmem s h.slot
  have hblockhash : tx.slotBlockhash = text := by
    have hslot := h.slotBlockhash
    rw [htext] at hslot
    exact (Option.some.inj hslot).symm
  refine ⟨⟨H256.fromSlice bytes, timestamp, ∅⟩, ?_, rfl⟩
  rw [newFromPendingTx, expectBlockhash, hblockhash, hbytes, h.slotTimestamp, htime]
  simp only [if_pos hlength, expectTimestamp, htimestamp, bind, Except.bind]
  rfl

theorem readable_rows (hdb : WellFormed X db) {txs : List PendingTx}
    (hof : ∀ tx ∈ txs, ∃ s header hash, tx.Of db s header hash)
    (honce : txs.Pairwise fun a b => (a.id, a.txIdx) ≠ (b.id, b.txIdx)) : Readable X txs where
  once := honce
  agree a ha b hb heq := by
    obtain ⟨s, header, hash, ha⟩ := hof a ha
    obtain ⟨s', header', hash', hb⟩ := hof b hb
    have hheader := ha.ethBlock
    rw [heq, hb.ethBlock] at hheader
    cases hheader
    rw [ha.ethBlockhash, hb.ethBlockhash, ha.gasRecipient, hb.gasRecipient]
    exact ⟨rfl, rfl⟩
  slot a ha := by
    obtain ⟨s, header, hash, ha⟩ := hof a ha
    exact newFromPendingTx_ok hdb ha
  decoded a ha := by
    obtain ⟨s, header, hash, ha⟩ := hof a ha
    exact hdb.rlps hash a.rlp ha.rlp

/-- What the loop has filed, said of the tables. -/
structure Answer (X : StorageCrates) (db : Db block) (st : PendingState) : Prop where
  noEmpty : NoEmptySlot st.pendingBlocks
  full : NestedMap.Full st.producedBlocks
  produced : ∀ id hash, NestedMap.get st.producedBlocks id = some hash ↔
    Shown db id ∧ ∃ blockParams, Produced db id blockParams ∧ blockParams.hash = hash
  pending : ∀ id : EthBlockId, (st.pendingBlocks.get id.1 id.2).isSome = true ↔
    Shown db id ∧ Pending db id
  gasRecipient : ∀ (id : EthBlockId) b header, st.pendingBlocks.get id.1 id.2 = some b →
    db.ethBlock.lookup id = some header → b.gasRecipient = header.gasRecipient
  transactions : ∀ (id : EthBlockId) b, st.pendingBlocks.get id.1 id.2 = some b →
    ∀ (k : Nat) v, b.transactions[k]? = some v ↔ ∃ hash rlp row,
      db.ethBlockTxs.lookup (id, hash) = some k ∧ db.evmTx.lookup hash = some rlp ∧
      X.ethers.decode rlp = .ok v.1 ∧ db.evmTxResult.lookup (id.1, hash) = some row ∧
      row.txResult = v.2

/-- The rows of the second view, as they are found: all transactions of the shown blocks. -/
structure ShownRows (db : Db block) (txs : List PendingTx) : Prop where
  of : ∀ tx ∈ txs, Shown db tx.id ∧ ∃ s header hash, tx.Of db s header hash
  all : ∀ id s header hash, Shown db id → db.solSlot.lookup id.1 = some s →
    db.ethBlock.lookup id = some header → (id, hash) ∈ db.ethBlockTxs →
    ∃ tx ∈ txs, tx.Of db s header hash ∧ tx.id = id

namespace ShownRows

variable {txs : List PendingTx} {st : PendingState}

/-- A shown block has a row, as it has a transaction. -/
theorem exists_row (h : ShownRows db txs) (hdb : WellFormed X db) {id : EthBlockId}
    {header : EthBlockHeader} (hshown : Shown db id)
    (hheader : db.ethBlock.lookup id = some header) :
    ∃ tx ∈ txs, tx.id = id ∧ tx.ethBlockhash = header.params.map BlockParams.hash := by
  have hmem : id ∈ db.ethBlock := HashMap.mem_of_lookup hheader
  obtain ⟨s, hs⟩ := HashMap.lookup_of_mem (hdb.slotStored id hmem)
  obtain ⟨hash, hhash⟩ := hdb.nonempty id hmem
  obtain ⟨tx, htx, htxOf, hid⟩ := h.all id s header hash hshown hs hheader hhash
  exact ⟨tx, htx, hid, htxOf.ethBlockhash⟩

theorem produced_iff (h : ShownRows db txs) (hdb : WellFormed X db) (id : EthBlockId)
    (hash : H256) : (∃ tx ∈ txs, tx.id = id ∧ tx.ethBlockhash = some hash) ↔
      Shown db id ∧ ∃ blockParams, Produced db id blockParams ∧ blockParams.hash = hash := by
  refine ⟨fun ⟨tx, htx, hid, hhash⟩ => ?_, fun ⟨hshown, blockParams, hproduced, hhash⟩ => ?_⟩
  · subst hid
    obtain ⟨hshown, s, header, _, htxOf⟩ := h.of tx htx
    rw [htxOf.ethBlockhash] at hhash
    obtain ⟨blockParams, hparams, hhash⟩ := Option.map_eq_some_iff.mp hhash
    exact ⟨hshown, blockParams, ⟨hshown.onChain, header, htxOf.ethBlock, hparams⟩, hhash⟩
  · obtain ⟨_, header, hheader, hparams⟩ := hproduced
    obtain ⟨tx, htx, hid, hrow⟩ := h.exists_row hdb hshown hheader
    refine ⟨tx, htx, hid, ?_⟩
    rw [hrow, hparams, ← hhash]
    rfl

theorem pending_iff (h : ShownRows db txs) (hdb : WellFormed X db) (id : EthBlockId) :
    (∃ tx ∈ txs, tx.id = id ∧ tx.ethBlockhash = none) ↔ Shown db id ∧ Pending db id := by
  refine ⟨fun ⟨tx, htx, hid, hnone⟩ => ?_, fun ⟨hshown, _, header, hheader, hnone⟩ => ?_⟩
  · subst hid
    obtain ⟨hshown, s, header, _, htxOf⟩ := h.of tx htx
    rw [htxOf.ethBlockhash, Option.map_eq_none_iff] at hnone
    exact ⟨hshown, hshown.onChain, header, htxOf.ethBlock, hnone⟩
  · obtain ⟨tx, htx, hid, hrow⟩ := h.exists_row hdb hshown hheader
    refine ⟨tx, htx, hid, ?_⟩
    rw [hrow, hnone]
    rfl

/-- The transactions of a block with a row are its rows, each under its index. -/
theorem transactions_iff (h : ShownRows db txs) {tx₀ : PendingTx} (htx₀ : tx₀ ∈ txs) (k : Nat)
    (v : Transaction × TxResult) :
    (∃ tx ∈ txs, tx.id = tx₀.id ∧ tx.txIdx = k ∧ X.ethers.decode tx.rlp = .ok v.1 ∧
      tx.txResult = v.2) ↔
    ∃ hash rlp row, db.ethBlockTxs.lookup (tx₀.id, hash) = some k ∧
      db.evmTx.lookup hash = some rlp ∧ X.ethers.decode rlp = .ok v.1 ∧
      db.evmTxResult.lookup (tx₀.id.1, hash) = some row ∧ row.txResult = v.2 := by
  refine ⟨fun ⟨tx, htx, hid, hk, hdecode, hresult⟩ => ?_,
    fun ⟨hash, rlp, row, hidx, hrlp, hdecode, hrow, hresult⟩ => ?_⟩
  · obtain ⟨_, s, header, hash, htxOf⟩ := h.of tx htx
    obtain ⟨row, hrow, hrowResult⟩ := Option.map_eq_some_iff.mp htxOf.txResult
    rw [← hid, ← hk]
    exact ⟨hash, tx.rlp, row, htxOf.txIdx, htxOf.rlp, hdecode, hrow, hrowResult.trans hresult⟩
  · obtain ⟨hshown, s, header, _, htxOf₀⟩ := h.of tx₀ htx₀
    obtain ⟨tx, htx, htxOf, hid⟩ := h.all tx₀.id s header hash hshown htxOf₀.slot htxOf₀.ethBlock
      (HashMap.mem_of_lookup hidx)
    refine ⟨tx, htx, hid, ?_, ?_, ?_⟩
    · have hidx' := htxOf.txIdx
      rw [hid, hidx] at hidx'
      exact (Option.some.inj hidx').symm
    · have hrlp' := htxOf.rlp
      rw [hrlp] at hrlp'
      rw [← Option.some.inj hrlp']
      exact hdecode
    · have hresult' := htxOf.txResult
      rw [show tx.slotNumber = tx₀.id.1 from congrArg Prod.fst hid, hrow] at hresult'
      exact (Option.some.inj hresult').symm.trans hresult

theorem answer (h : ShownRows db txs) (hdb : WellFormed X db) (hf : Filed X txs st) :
    Answer X db st := by
  refine ⟨hf.noEmpty, hf.full, ?_, ?_, ?_, ?_⟩
  · intro id hash
    exact (hf.produced id hash).trans (h.produced_iff hdb id hash)
  · intro id
    exact (hf.pending id).trans (h.pending_iff hdb id)
  · intro id b header hb hheader
    obtain ⟨tx, htx, hid, _⟩ := (hf.pending id).mp (by rw [hb]; rfl)
    obtain ⟨_, s, header', _, htxOf⟩ := h.of tx htx
    rw [hf.gasRecipient id b hb tx htx hid, htxOf.gasRecipient]
    have hheader' := htxOf.ethBlock
    rw [hid, hheader] at hheader'
    cases hheader'
    rfl
  · intro id b hb k v
    obtain ⟨tx₀, htx₀, hid₀, _⟩ := (hf.pending id).mp (by rw [hb]; rfl)
    subst hid₀
    exact (hf.transactions tx₀.id b hb k v).trans (h.transactions_iff htx₀ k v)

end ShownRows

theorem getPendingBlocks_answer (hdb : WellFormed X db) : ∃ st, Answer X db st ∧
    getPendingBlocks X db = if st.pendingBlocks.isEmpty then .ok none else .ok (some {
      parentHash := st.producedBlocks.lastEntry.map Prod.snd
      finalizedBlock := st.finalizedBlocks.lastEntry.map finalizedBlock
      pendingBlocks := st.pendingBlocks }) := by
  obtain ⟨txs, hview, hof, hall, honce⟩ := pendingTransactions_ok hdb.toJoined hdb.dated
  obtain ⟨st, hloop, hf⟩ := filed_rows (readable_rows hdb (fun tx htx => (hof tx htx).2) honce)
  have hrows : ShownRows db txs := ⟨hof, hall⟩
  refine ⟨st, hrows.answer hdb hf, ?_⟩
  rw [getPendingBlocks, hview]
  simp only [bind, Except.bind, hloop]
  rfl

theorem isEmpty_iff {pending : PendingBlocks} (h : NoEmptySlot pending) :
    pending.isEmpty = true ↔ ∀ id : EthBlockId, pending.get id.1 id.2 = none := by
  rw [Std.ExtTreeMap.isEmpty_iff]
  constructor
  · rintro rfl id
    rw [PendingBlocks.get, Std.ExtTreeMap.getElem?_empty]
    rfl
  · intro hnone
    refine Std.ExtTreeMap.ext_getElem? fun slot => ?_
    rw [Std.ExtTreeMap.getElem?_empty]
    cases hslot : pending[slot]? with
    | none => rfl
    | some l1Block =>
        obtain ⟨i, b, hb⟩ := h slot l1Block hslot
        have hget := hnone (slot, i)
        rw [PendingBlocks.get, hslot] at hget
        rw [Option.bind_some, hb] at hget
        cases hget

/-- The last produced block that is shown is the last of the chain. -/
theorem Answer.parent_iff {st : PendingState} (h : Answer X db st)
    (hshown : ∀ id blockParams, LastProduced db id blockParams → Shown db id) (hash : H256) :
    st.producedBlocks.lastEntry.map Prod.snd = some hash ↔
      ∃ id blockParams, LastProduced db id blockParams ∧ blockParams.hash = hash := by
  have hlast : ∀ id blockParams, LastProduced db id blockParams →
      st.producedBlocks.lastEntry = some (id, blockParams.hash) := by
    intro id blockParams hid
    refine (NestedMap.lastEntry_eq_some h.full).mpr ⟨?_, ?_⟩
    · exact (h.produced _ _).mpr ⟨hshown id blockParams hid, blockParams, hid.1, rfl⟩
    · intro id' hash' hget
      obtain ⟨_, blockParams', hproduced, _⟩ := (h.produced _ _).mp hget
      exact hid.2 id' blockParams' hproduced
  constructor
  · intro hmap
    obtain ⟨e, he, rfl⟩ := Option.map_eq_some_iff.mp hmap
    obtain ⟨hget, _⟩ := (NestedMap.lastEntry_eq_some h.full).mp he
    obtain ⟨_, _, hproduced, _⟩ := (h.produced _ _).mp hget
    obtain ⟨id, blockParams, hid⟩ := exists_lastProduced hproduced
    refine ⟨id, blockParams, hid, ?_⟩
    have heq := hlast id blockParams hid
    rw [show st.producedBlocks.lastEntry = some e from he] at heq
    rw [Option.some.inj heq]
  · rintro ⟨id, blockParams, hid, rfl⟩
    rw [hlast id blockParams hid]
    rfl

/-- On a chain whose produced blocks come first, the pending blocks are offered on
the block they follow exactly if the view shows that block. -/
theorem get_pending_blocks_iff (hdb : WellFormed X db) (hfirst : ProducedFirst db) :
    OffersPending X db ↔ ParentShown db := by
  obtain ⟨st, hst, hrun⟩ := getPendingBlocks_answer hdb
  rw [OffersPending, hrun]
  by_cases hempty : st.pendingBlocks.isEmpty = true
  · have hnone := (isEmpty_iff hst.noEmpty).mp hempty
    rw [if_pos hempty]
    constructor
    · intro hnot hpending
      obtain ⟨id, hid⟩ := hpending
      exact absurd hid (hnot id)
    · intro hcond id hid
      have hshown := (shown_pending hdb hfirst hid).mpr ((hcond ⟨id, hid⟩).2 id hid)
      have hsome := (hst.pending id).mpr ⟨hshown, hid⟩
      rw [hnone id] at hsome
      cases hsome
  · rw [if_neg hempty]
    constructor
    · rintro ⟨_, hoffers⟩ _
      constructor
      · intro id blockParams hlast
        rw [← shown_lastProduced hdb hlast]
        obtain ⟨e, he, hhash⟩ := Option.map_eq_some_iff.mp
          ((hoffers.parent blockParams.hash).mpr ⟨id, blockParams, hlast, rfl⟩)
        obtain ⟨hget, _⟩ := (NestedMap.lastEntry_eq_some hst.full).mp he
        obtain ⟨hshown, blockParams', hproduced, hhash'⟩ := (hst.produced _ _).mp hget
        rw [hdb.hashes id e.1 blockParams blockParams' hlast.1 hproduced
          (by rw [hhash', hhash])]
        exact hshown
      · intro id hid
        rw [← shown_pending hdb hfirst hid]
        exact ((hst.pending id).mp ((hoffers.blocks id).mpr hid)).1
    · intro hcond
      have hsome : ∃ id, Pending db id := by
        by_contra hno
        refine hempty ((isEmpty_iff hst.noEmpty).mpr fun id => ?_)
        rw [Option.eq_none_iff_forall_ne_some]
        intro b hb
        exact hno ⟨id, ((hst.pending id).mp (by rw [hb]; rfl)).2⟩
      obtain ⟨hlast, hpending⟩ := hcond hsome
      refine ⟨hsome, ?_, hst.gasRecipient, hst.transactions, ?_⟩
      · intro id
        rw [hst.pending]
        exact ⟨And.right, fun hid => ⟨(shown_pending hdb hfirst hid).mpr (hpending id hid), hid⟩⟩
      · exact hst.parent_iff fun id blockParams hid =>
          (shown_lastProduced hdb hid).mpr (hlast id blockParams hid)

/-! ## A head slot with one of two blocks produced -/

def chainStandIns : StorageCrates :=
  { TransactionStorage.storageStandIns with bs58Decode := fun _ => some (List.replicate 32 0) }

def firstParams : BlockParams := ⟨3, some 2, 1, 1⟩

def halfProduced : Db Unit :=
  { (Db.empty : Db Unit) with
    solSlot := (∅ : HashMap Slot SolSlot).insert 7
      ⟨6, .confirmed, some "11111111111111111111111111111111", some 1⟩
    evmTx := ((∅ : HashMap TxHash Bytes).insert 1 ([1] : Bytes)).insert 2 ([2] : Bytes)
    evmTxResult := ((∅ : HashMap (Slot × TxHash) EvmTxResult).insert (7, 1)
      ⟨.default, none⟩).insert (7, 2) ⟨.default, none⟩
    ethBlock := ((∅ : HashMap EthBlockId EthBlockHeader).insert (7, 0)
      ⟨0, none, some 1, some firstParams⟩).insert (7, 1) ⟨0, none, some 1, none⟩
    ethBlockTxs := ((∅ : HashMap (EthBlockId × TxHash) Nat).insert ((7, 0), 1) 0).insert
      ((7, 1), 2) 0 }

theorem halfProduced_produced {id : EthBlockId} {blockParams : BlockParams}
    (h : Produced halfProduced id blockParams) : id = (7, 0) ∧ blockParams = firstParams := by
  obtain ⟨_, header, hheader, hparams⟩ := h
  have hall : ∀ e ∈ halfProduced.ethBlock.entries, ∀ p ∈ e.2.params, e.1 = (7, 0) ∧ p = firstParams := by
    decide
  exact hall _ ((HashMap.mem_entries _ _ _).mpr hheader) _ hparams

theorem halfProduced_pending {id : EthBlockId} (h : Pending halfProduced id) : id = (7, 1) := by
  obtain ⟨_, header, hheader, hnone⟩ := h
  have hall : ∀ e ∈ halfProduced.ethBlock.entries, e.2.params = none → e.1 = (7, 1) := by
    decide
  exact hall _ ((HashMap.mem_entries _ _ _).mpr hheader) hnone

theorem halfProduced_first : ProducedFirst halfProduced := by
  intro id blockParams id' h h'
  rw [(halfProduced_produced h).1, halfProduced_pending h']
  exact Or.inr ⟨rfl, Nat.zero_lt_one⟩

theorem halfProduced_wellFormed : WellFormed chainStandIns halfProduced where
  slotStored := by
    have hall : ∀ id ∈ halfProduced.ethBlock.keys, id.1 ∈ halfProduced.solSlot := by decide
    exact hall
  nonempty := by
    have hall : ∀ id ∈ halfProduced.ethBlock.keys, ∃ key ∈ halfProduced.ethBlockTxs.keys,
        key.1 = id := by decide
    intro id hid
    obtain ⟨key, hkey, rfl⟩ := hall id hid
    exact ⟨key.2, hkey⟩
  txStored := by
    have hall : ∀ key ∈ halfProduced.ethBlockTxs.keys, key.2 ∈ halfProduced.evmTx ∧
        (key.1.1, key.2) ∈ halfProduced.evmTxResult := by decide
    intro id hash h
    exact hall (id, hash) h
  txIdx := by
    have hall : ∀ e ∈ halfProduced.ethBlockTxs.entries, ∀ e' ∈ halfProduced.ethBlockTxs.entries,
        e.1.1 = e'.1.1 → e.1.2 = e'.1.2 := by decide
    intro id hash hash' i h h'
    exact hall _ ((HashMap.mem_entries _ _ _).mpr h) _ ((HashMap.mem_entries _ _ _).mpr h') rfl
  parents := by
    have hall : ∀ e ∈ halfProduced.solSlot.entries, e.2.parentSlot < e.1 ∨ e.2.parentSlot = 0 := by
      decide
    intro slot s hs
    exact hall _ ((HashMap.mem_entries _ _ _).mpr hs)
  slots := by
    have hall : ∀ e ∈ halfProduced.solSlot.entries,
        e.2.blockhash = some "11111111111111111111111111111111" ∧ e.2.timestamp = some 1 := by
      decide
    intro id _ s hs
    obtain ⟨htext, htime⟩ := hall _ ((HashMap.mem_entries _ _ _).mpr hs)
    exact ⟨_, _, 1, 1, htext, rfl, rfl, htime, rfl⟩
  rlps := by
    have hall : ∀ e ∈ halfProduced.evmTx.entries, e.2 ≠ [] := by decide
    intro hash rlp h
    have hne := hall _ ((HashMap.mem_entries _ _ _).mpr h)
    cases rlp with
    | nil => exact absurd rfl hne
    | cons b rlp => exact ⟨_, rfl⟩
  hashes := by
    intro id id' _ _ h h' _
    rw [(halfProduced_produced h).1, (halfProduced_produced h').1]

/-- The second block of the slot is offered with no parent. -/
theorem pending_without_parent :
    WellFormed chainStandIns halfProduced ∧ ProducedFirst halfProduced ∧
      ¬ OffersPending chainStandIns halfProduced := by
  refine ⟨halfProduced_wellFormed, halfProduced_first, ?_⟩
  intro hoffers
  have hparent : ∀ p, getPendingBlocks chainStandIns halfProduced = .ok (some p) →
      p.parentHash = none := by
    intro p hp
    have hrun : (getPendingBlocks chainStandIns halfProduced).map
        (Option.map ProducerParams.parentHash) = .ok (some none) := by decide
    rw [hp] at hrun
    exact Option.some.inj (Except.ok.inj hrun)
  have hlast : LastProduced halfProduced (7, 0) firstParams := by
    refine ⟨⟨.head (by decide), ⟨0, none, some 1, some firstParams⟩, by decide, rfl⟩, ?_⟩
    intro id' blockParams' h
    exact Or.inl (halfProduced_produced h).1
  have hpending : Pending halfProduced (7, 1) :=
    ⟨.head (by decide), ⟨0, none, some 1, none⟩, by decide, rfl⟩
  rw [OffersPending] at hoffers
  cases hrun : getPendingBlocks chainStandIns halfProduced with
  | error e =>
      rw [hrun] at hoffers
      exact hoffers
  | ok answer =>
      rw [hrun] at hoffers
      cases answer with
      | none => exact hoffers (7, 1) hpending
      | some p =>
          have hsome := (hoffers.2.parent firstParams.hash).mpr ⟨(7, 0), firstParams, hlast, rfl⟩
          rw [hparent p hrun] at hsome
          cases hsome

theorem get_pending_blocks_half_produced :
    OffersPending chainStandIns halfProduced ↔ ParentShown halfProduced :=
  get_pending_blocks_iff halfProduced_wellFormed halfProduced_first

end PgStorage

end RomeSdk
