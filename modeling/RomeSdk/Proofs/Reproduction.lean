import RomeSdk.Indexer.RollupIndexer
import RomeSdk.Proofs.PendingChain

/-!
# Reproducing blocks that are stored

`reproduce_blocks` has the stored blocks of a range of slots produced again and
compares the answer with what is stored. The answer is keyed by slot and index of
the block within the slot; what is expected was filed under slot and block number.
A producer that returns for every block what is stored for it is therefore
accepted only if the number of each block is its index, and the timestamp stored
with the block, which is compared too, is that of its slot.
-/

namespace RomeSdk

namespace PgStorage

variable {block : Type} {X : StorageCrates} {db : Db block} {fromSlot toSlot : Slot}

/-! ## The rows -/

def ReproducedBlockRow.id (row : ReproducedBlockRow) : EthBlockId :=
  (row.slotNumber, row.slotBlockIdx)

/-- A produced block of the range. -/
def ProducedIn (db : Db block) (fromSlot toSlot : Slot) (id : EthBlockId)
    (blockParams : BlockParams) : Prop :=
  fromSlot ≤ id.1 ∧ id.1 < toSlot ∧
    ∃ header, db.ethBlock.lookup id = some header ∧ header.params = some blockParams

/-- The row of a transaction of a produced block. -/
structure ReproducedBlockRow.Of (db : Db block) (row : ReproducedBlockRow) (s : SolSlot)
    (blockParams : BlockParams) (hash : TxHash) : Prop where
  slot : db.solSlot.lookup row.slotNumber = some s
  slotTimestamp : row.slotTimestamp = s.timestamp
  txIdx : db.ethBlockTxs.lookup (row.id, hash) = some row.txIdx
  rlp : db.evmTx.lookup hash = some row.rlp
  blockhash : row.blockhash = blockParams.hash
  parentHash : row.parentHash = blockParams.parentHash
  blockNumber : row.blockNumber = blockParams.number

/-- The rows of one block, as the query joins them. -/
def reproducedTxs (db : Db block) (id : EthBlockId) (header : EthBlockHeader) (s : SolSlot)
    (params : BlockParams) : List ReproducedBlockRow :=
  (db.blockTxs id).filterMap fun e => do
    let evmTxResult ← db.evmTxResult.lookup (id.1, e.2)
    let rlp ← db.evmTx.lookup e.2
    some {
      slotNumber := id.1
      slotTimestamp := s.timestamp
      slotBlockIdx := id.2
      gasRecipient := header.gasRecipient
      blockhash := params.hash
      parentHash := params.parentHash
      blockNumber := params.number
      txIdx := e.1
      rlp := rlp
      txResult := evmTxResult.txResult }

/-- The rows of one block of the table. -/
def reproducedRows (fromSlot toSlot : Slot) (db : Db block)
    (e : Sigma fun _ : EthBlockId => EthBlockHeader) : List ReproducedBlockRow :=
  match e.2.params, db.solSlot.lookup e.1.1 with
  | some params, some s =>
      if fromSlot ≤ e.1.1 ∧ e.1.1 < toSlot then reproducedTxs db e.1 e.2 s params else []
  | _, _ => []

theorem reproduceBlocks2_eq :
    reproduceBlocks2 fromSlot toSlot db = db.ethBlock.entries.flatMap (reproducedRows fromSlot toSlot db) :=
  rfl

theorem mem_reproducedTxs {id : EthBlockId} {header : EthBlockHeader} {s : SolSlot}
    {params : BlockParams} (hs : db.solSlot.lookup id.1 = some s) {row : ReproducedBlockRow}
    (h : row ∈ reproducedTxs db id header s params) :
    row.id = id ∧ ∃ hash, row.Of db s params hash := by
  obtain ⟨e, he, hsome⟩ := List.mem_filterMap.mp h
  obtain ⟨result, hresult, hsome⟩ := Option.bind_eq_some_iff.mp hsome
  obtain ⟨rlp, hrlp, hsome⟩ := Option.bind_eq_some_iff.mp hsome
  cases hsome
  exact ⟨rfl, e.2, hs, rfl, mem_blockTxs.mp he, hrlp, rfl, rfl, rfl⟩

theorem exists_reproducedTx (hj : Joined db) {id : EthBlockId} {header : EthBlockHeader}
    (s : SolSlot) (params : BlockParams) (hheader : db.ethBlock.lookup id = some header) :
    ∃ row, row ∈ reproducedTxs db id header s params := by
  have hmem : id ∈ db.ethBlock := HashMap.mem_of_lookup hheader
  obtain ⟨hash, hhash⟩ := hj.nonempty id hmem
  obtain ⟨i, hi⟩ := HashMap.lookup_of_mem hhash
  obtain ⟨hevm, hres⟩ := hj.txStored id hash hhash
  obtain ⟨rlp, hrlp⟩ := HashMap.lookup_of_mem hevm
  obtain ⟨result, hresult⟩ := HashMap.lookup_of_mem hres
  refine ⟨⟨id.1, s.timestamp, id.2, header.gasRecipient, params.hash, params.parentHash,
    params.number, i, rlp, result.txResult⟩, List.mem_filterMap.mpr ⟨(i, hash), mem_blockTxs.mpr hi, ?_⟩⟩
  simp only [hrlp, hresult, bind, Option.bind_some]

theorem reproducedTxs_once (hj : Joined db) (id : EthBlockId) (header : EthBlockHeader)
    (s : SolSlot) (params : BlockParams) :
    (reproducedTxs db id header s params).Pairwise fun a b => a.txIdx ≠ b.txIdx := by
  rw [reproducedTxs, List.pairwise_filterMap]
  refine List.Pairwise.imp_of_mem ?_ (blockTxs_nodup id)
  intro e e' he he' hne row hrow row' hrow' hidx
  obtain ⟨result, _, hrow⟩ := Option.bind_eq_some_iff.mp hrow
  obtain ⟨rlp, _, hrow⟩ := Option.bind_eq_some_iff.mp hrow
  obtain ⟨result', _, hrow'⟩ := Option.bind_eq_some_iff.mp hrow'
  obtain ⟨rlp', _, hrow'⟩ := Option.bind_eq_some_iff.mp hrow'
  cases hrow
  cases hrow'
  have heq : e.1 = e'.1 := hidx
  refine hne (Prod.ext heq ?_)
  refine hj.txIdx id e.2 e'.2 e.1 (mem_blockTxs.mp he) ?_
  rw [heq]
  exact mem_blockTxs.mp he'

/-- Each transaction of each produced block of the range is there once. -/
theorem reproduceBlocks2_spec (hj : Joined db) (fromSlot toSlot : Slot) :
    (∀ row ∈ reproduceBlocks2 fromSlot toSlot db, ∃ s params hash,
      ProducedIn db fromSlot toSlot row.id params ∧ row.Of db s params hash) ∧
    (∀ id params, ProducedIn db fromSlot toSlot id params →
      ∃ row ∈ reproduceBlocks2 fromSlot toSlot db, row.id = id) ∧
    (reproduceBlocks2 fromSlot toSlot db).Pairwise fun a b => (a.id, a.txIdx) ≠ (b.id, b.txIdx) := by
  have hrow : ∀ e ∈ db.ethBlock.entries, ∀ row ∈ reproducedRows fromSlot toSlot db e,
      row.id = e.1 ∧ ∃ s params hash, ProducedIn db fromSlot toSlot e.1 params ∧
        row.Of db s params hash := by
    intro e he row hmem
    rw [reproducedRows] at hmem
    split at hmem
    · next params s hparams hs =>
        split at hmem
        · next hrange =>
            obtain ⟨hid, hash, hof⟩ := mem_reproducedTxs hs hmem
            have hheader := (HashMap.mem_entries _ _ _).mp he
            exact ⟨hid, s, params, hash, ⟨hrange.1, hrange.2, e.2, hheader, hparams⟩, hof⟩
        · cases hmem
    · cases hmem
  rw [reproduceBlocks2_eq]
  refine ⟨?_, ?_, ?_⟩
  · intro row hmem
    obtain ⟨e, he, hmem⟩ := List.mem_flatMap.mp hmem
    obtain ⟨hid, s, params, hash, hproduced, hof⟩ := hrow e he row hmem
    rw [← hid] at hproduced
    exact ⟨s, params, hash, hproduced, hof⟩
  · intro id params hproduced
    obtain ⟨hfrom, hto, header, hheader, hparams⟩ := hproduced
    have hmem : id ∈ db.ethBlock := HashMap.mem_of_lookup hheader
    obtain ⟨s, hs⟩ := HashMap.lookup_of_mem (hj.slotStored id hmem)
    obtain ⟨row, hrow'⟩ := exists_reproducedTx hj s params hheader
    refine ⟨row, List.mem_flatMap.mpr ⟨⟨id, header⟩, (HashMap.mem_entries _ _ _).mpr hheader, ?_⟩,
      (mem_reproducedTxs hs hrow').1⟩
    simp only [reproducedRows, hparams, hs, if_pos (And.intro hfrom hto)]
    exact hrow'
  · rw [List.pairwise_flatMap]
    constructor
    · intro e he
      rw [reproducedRows]
      split
      · split
        · exact (reproducedTxs_once hj _ _ _ _).imp fun hne heq => hne (congrArg Prod.snd heq)
        · exact List.Pairwise.nil
      · exact List.Pairwise.nil
    · refine List.Pairwise.imp_of_mem ?_ (List.nodupKeys_iff_pairwise.mp db.ethBlock.nodupKeys)
      intro e e' he he' hne a ha b hb heq
      refine hne ?_
      rw [← (hrow e he a ha).1, ← (hrow e' he' b hb).1]
      exact congrArg Prod.fst heq

/-! ## The loop over the rows -/

/-- What can be said of the rows of one database: no transaction is there twice, a
block number of a slot has one value, and all can be read. -/
structure Comparable (X : StorageCrates) (rows : List ReproducedBlockRow) : Prop where
  once : rows.Pairwise fun a b => (a.id, a.txIdx) ≠ (b.id, b.txIdx)
  agree : ∀ a ∈ rows, ∀ b ∈ rows, a.slotNumber = b.slotNumber → a.blockNumber = b.blockNumber →
    blockParamsOfRow a = blockParamsOfRow b
  slot : ∀ a ∈ rows, ∃ timestamp, a.slotTimestamp = some timestamp ∧
    ∃ t, U256.fromTimestamp timestamp = .ok t
  decoded : ∀ a ∈ rows, ∃ tx, X.ethers.decode a.rlp = .ok tx

/-- The two maps hold what the rows so far say. -/
structure Compared (rows : List ReproducedBlockRow) (st : PendingBlocks × ProducedBlocks) :
    Prop where
  noEmpty : NoEmptySlot st.1
  pending : ∀ id : EthBlockId, (st.1.get id.1 id.2).isSome = true ↔ ∃ row ∈ rows, row.id = id
  occupied : ∀ (id : EthBlockId) b, st.1.get id.1 id.2 = some b → ∀ (k : Nat),
    b.transactions[k]? ≠ none → ∃ row ∈ rows, row.id = id ∧ row.txIdx = k
  expected : ∀ (key : ItemId) params, NestedMap.get st.2 key = some params ↔
    ∃ row ∈ rows, row.slotNumber = key.1 ∧ row.blockNumber = key.2 ∧
      blockParamsOfRow row = .ok params

theorem compared_nil : Compared [] (∅, ∅) where
  noEmpty slot l1Block h := by
    rw [Std.ExtTreeMap.getElem?_empty] at h
    cases h
  pending id := by simp [PendingBlocks.get]
  occupied id b h := by simp [PendingBlocks.get] at h
  expected key params := by simp [NestedMap.get_empty]

theorem blockParamsOfRow_ok {row : ReproducedBlockRow} {timestamp : Int} {t : U256}
    (htime : row.slotTimestamp = some timestamp) (ht : U256.fromTimestamp timestamp = .ok t) :
    blockParamsOfRow row = .ok ⟨row.blockhash, row.parentHash, row.blockNumber, t⟩ := by
  rw [blockParamsOfRow, htime]
  simp only [expectTimestamp, ht]
  rfl

/-- A row is filed under its number unless that is taken. -/
theorem appendFromReproducedBlockRow_ok (expected : ProducedBlocks) {row : ReproducedBlockRow}
    {params : BlockParams} (hparams : blockParamsOfRow row = .ok params) :
    ∃ expected', appendFromReproducedBlockRow expected row = .ok expected' ∧
      ∀ key, NestedMap.get expected' key =
        if (row.slotNumber, row.blockNumber) = key then
          some ((NestedMap.get expected (row.slotNumber, row.blockNumber)).getD params)
        else NestedMap.get expected key := by
  rw [appendFromReproducedBlockRow]
  have hget : (expected[row.slotNumber]?.getD ∅)[row.blockNumber]?
      = NestedMap.get expected (row.slotNumber, row.blockNumber) := by
    rw [NestedMap.get]
    cases expected[row.slotNumber]? with
    | none => exact Std.ExtTreeMap.getElem?_empty
    | some slotBlocks => rfl
  rw [hget]
  cases hold : NestedMap.get expected (row.slotNumber, row.blockNumber) with
  | some old =>
      refine ⟨expected, rfl, fun key => ?_⟩
      by_cases hkey : (row.slotNumber, row.blockNumber) = key
      · rw [if_pos hkey, ← hkey, hold]
        rfl
      · rw [if_neg hkey]
  | none =>
      rw [hparams]
      exact ⟨expected.insert row.slotNumber row.blockNumber params, rfl,
        fun key => NestedMap.get_set expected (row.slotNumber, row.blockNumber) key params⟩

theorem appendReproducedBlockRow_ok {pending : PendingBlocks} {row : ReproducedBlockRow}
    {tx : Transaction} {timestamp : Int} {t : U256} (htime : row.slotTimestamp = some timestamp)
    (ht : U256.fromTimestamp timestamp = .ok t)
    (hfree : ∀ b, pending.get row.slotNumber row.slotBlockIdx = some b →
      b.transactions[row.txIdx]? = none)
    (hdecode : X.ethers.decode row.rlp = .ok tx) :
    ∃ pending', appendReproducedBlockRow X pending row = .ok pending' ∧
      (∀ id : EthBlockId, pending'.get id.1 id.2 =
        if id = row.id then
          let b := (pending.get row.slotNumber row.slotBlockIdx).getD ⟨∅, row.gasRecipient⟩
          some { b with transactions := b.transactions.insert row.txIdx (tx, row.txResult) }
        else pending.get id.1 id.2) ∧
      (NoEmptySlot pending → NoEmptySlot pending') := by
  refine appendTx_ok ⟨⟨row.blockhash, t, ∅⟩, ?_, rfl⟩ hfree hdecode
  rw [newFromReproducedBlockRow, htime]
  simp only [expectTimestamp, ht]
  rfl

/-- What is expected is what the rows say, with one row more. -/
theorem Compared.expected_add {rows : List ReproducedBlockRow} {st : PendingBlocks × ProducedBlocks}
    {row : ReproducedBlockRow} (hc : Compared rows st) (hr : Comparable X (rows ++ [row]))
    {rowParams : BlockParams} (hparams : blockParamsOfRow row = .ok rowParams)
    {expected : ProducedBlocks} (hget : ∀ key, NestedMap.get expected key =
      if (row.slotNumber, row.blockNumber) = key then
        some ((NestedMap.get st.2 (row.slotNumber, row.blockNumber)).getD rowParams)
      else NestedMap.get st.2 key) (key : ItemId) (params : BlockParams) :
    NestedMap.get expected key = some params ↔ ∃ a ∈ rows ++ [row], a.slotNumber = key.1 ∧
      a.blockNumber = key.2 ∧ blockParamsOfRow a = .ok params := by
  have hlast : row ∈ rows ++ [row] := List.mem_append_right _ (List.mem_singleton_self _)
  rw [hget]
  by_cases hkey : (row.slotNumber, row.blockNumber) = key
  · subst hkey
    rw [if_pos rfl]
    -- whatever row of this number came first, it says the same
    have hsame : ∀ a ∈ rows ++ [row], a.slotNumber = row.slotNumber →
        a.blockNumber = row.blockNumber → blockParamsOfRow a = .ok rowParams := by
      intro a ha hslot hnumber
      rw [hr.agree a ha row hlast hslot hnumber, hparams]
    have hvalue : (NestedMap.get st.2 (row.slotNumber, row.blockNumber)).getD rowParams
        = rowParams := by
      cases hold : NestedMap.get st.2 (row.slotNumber, row.blockNumber) with
      | none => rfl
      | some old =>
          obtain ⟨a, ha, hslot, hnumber, haparams⟩ := (hc.expected _ _).mp hold
          rw [hsame a (List.mem_append_left _ ha) hslot hnumber] at haparams
          exact (Except.ok.inj haparams).symm
    rw [hvalue]
    constructor
    · intro hv
      cases hv
      exact ⟨row, hlast, rfl, rfl, hparams⟩
    · rintro ⟨a, ha, hslot, hnumber, haparams⟩
      rw [hsame a ha hslot hnumber] at haparams
      rw [Except.ok.inj haparams]
  · rw [if_neg hkey, hc.expected]
    have hnot : ¬ (row.slotNumber = key.1 ∧ row.blockNumber = key.2) :=
      fun h => hkey (Prod.ext h.1 h.2)
    simp only [List.mem_append, List.mem_singleton]
    constructor
    · rintro ⟨a, ha, hrest⟩
      exact ⟨a, Or.inl ha, hrest⟩
    · rintro ⟨a, ha | rfl, hslot, hnumber, hrest⟩
      · exact ⟨a, ha, hslot, hnumber, hrest⟩
      · exact absurd ⟨hslot, hnumber⟩ hnot

theorem Compared.add {rows : List ReproducedBlockRow} {st : PendingBlocks × ProducedBlocks}
    {row : ReproducedBlockRow} (hc : Compared rows st) (hr : Comparable X (rows ++ [row])) :
    ∃ st', addReproduced X st row = .ok st' ∧ Compared (rows ++ [row]) st' := by
  have hlast : row ∈ rows ++ [row] := List.mem_append_right _ (List.mem_singleton_self _)
  obtain ⟨tx, hdecode⟩ := hr.decoded row hlast
  obtain ⟨timestamp, htime, t, ht⟩ := hr.slot row hlast
  have hparams := blockParamsOfRow_ok htime ht
  have hvacant : ∀ b, st.1.get row.slotNumber row.slotBlockIdx = some b →
      b.transactions[row.txIdx]? = none := by
    intro b hb
    by_contra hk
    obtain ⟨a, ha, haid, hidx⟩ := hc.occupied row.id b hb _ hk
    have hpairwise := (List.pairwise_append.mp hr.once).2.2 a ha row (List.mem_singleton_self _)
    exact hpairwise (by rw [haid, hidx])
  obtain ⟨pending, happend, hget, hne⟩ := appendReproducedBlockRow_ok htime ht hvacant hdecode
  obtain ⟨expected, hexpect, hgetExpected⟩ :=
    appendFromReproducedBlockRow_ok st.2 hparams
  refine ⟨(pending, expected), ?_, ?_, ?_, ?_, ?_⟩
  · rw [addReproduced, happend]
    simp only [bind, Except.bind, hexpect]
    rfl
  · exact hne hc.noEmpty
  · intro id
    rw [hget]
    by_cases hid : id = row.id
    · subst hid
      simp
    · rw [if_neg hid, hc.pending]
      simp [Ne.symm hid]
  · intro id b hb k hk
    rw [hget] at hb
    by_cases hid : id = row.id
    · rw [if_pos hid] at hb
      cases hb
      subst hid
      by_cases hidx : row.txIdx = k
      · exact ⟨row, hlast, rfl, hidx⟩
      · have hold : ((st.1.get row.slotNumber row.slotBlockIdx).getD
            ⟨∅, row.gasRecipient⟩).transactions[k]? ≠ none := by
          rw [BTreeMap.get?_insert, if_neg hidx] at hk
          exact hk
        cases hb' : st.1.get row.slotNumber row.slotBlockIdx with
        | none =>
            rw [hb'] at hold
            exact absurd Std.ExtTreeMap.getElem?_empty hold
        | some b =>
            rw [hb'] at hold
            obtain ⟨a, ha, haid, haidx⟩ := hc.occupied row.id b hb' k hold
            exact ⟨a, List.mem_append_left _ ha, haid, haidx⟩
    · rw [if_neg hid] at hb
      obtain ⟨a, ha, haid, haidx⟩ := hc.occupied id b hb k hk
      exact ⟨a, List.mem_append_left _ ha, haid, haidx⟩
  · exact fun key params => hc.expected_add hr hparams hgetExpected key params

theorem Comparable.take {rows rest : List ReproducedBlockRow} (h : Comparable X (rows ++ rest)) :
    Comparable X rows where
  once := (List.pairwise_append.mp h.once).1
  agree a ha b hb := h.agree a (List.mem_append_left _ ha) b (List.mem_append_left _ hb)
  slot a ha := h.slot a (List.mem_append_left _ ha)
  decoded a ha := h.decoded a (List.mem_append_left _ ha)

theorem compared_loop (rest : List ReproducedBlockRow) : ∀ {rows : List ReproducedBlockRow}
    {st : PendingBlocks × ProducedBlocks}, Compared rows st → Comparable X (rows ++ rest) →
    ∃ st', rest.foldlM (addReproduced X) st = .ok st' ∧ Compared (rows ++ rest) st' := by
  induction rest with
  | nil =>
      intro rows st hc _
      rw [List.append_nil]
      exact ⟨st, rfl, hc⟩
  | cons row rest ih =>
      intro rows st hc hr
      rw [List.append_cons] at hr ⊢
      obtain ⟨st₁, hadd, hc₁⟩ := hc.add hr.take
      obtain ⟨st', hloop, hc'⟩ := ih hc₁ hr
      refine ⟨st', ?_, hc'⟩
      rw [List.foldlM_cons, hadd]
      exact hloop

/-! ## The comparison -/

/-- The timestamp of a slot, as a block on it gets it. -/
def SlotTime (db : Db block) (slotNumber : Slot) (t : U256) : Prop :=
  ∃ s time, db.solSlot.lookup slotNumber = some s ∧ s.timestamp = some time ∧
    U256.fromTimestamp time = .ok t

/-- The stored blocks of the range can be read: their slots are dated, their
transactions decode, and a number is that of one block. -/
structure Reproducible (X : StorageCrates) (db : Db block) (fromSlot toSlot : Slot) : Prop
    extends Joined db where
  times : ∀ id params, ProducedIn db fromSlot toSlot id params → ∃ t, SlotTime db id.1 t
  rlps : ∀ hash rlp, db.evmTx.lookup hash = some rlp → ∃ tx, X.ethers.decode rlp = .ok tx
  numbers : ∀ id id' params params', ProducedIn db fromSlot toSlot id params →
    ProducedIn db fromSlot toSlot id' params' → params.number = params'.number → id = id'

theorem SlotTime.unique {slot : Slot} {t t' : U256} (h : SlotTime db slot t)
    (h' : SlotTime db slot t') : t = t' := by
  obtain ⟨s, time, hs, htime, ht⟩ := h
  obtain ⟨s', time', hs', htime', ht'⟩ := h'
  rw [hs] at hs'
  cases hs'
  rw [htime] at htime'
  cases htime'
  rw [ht] at ht'
  exact Except.ok.inj ht'

theorem ProducedIn.unique {id : EthBlockId} {params params' : BlockParams}
    (h : ProducedIn db fromSlot toSlot id params) (h' : ProducedIn db fromSlot toSlot id params') :
    params = params' := by
  obtain ⟨_, _, header, hheader, hparams⟩ := h
  obtain ⟨_, _, header', hheader', hparams'⟩ := h'
  rw [hheader] at hheader'
  cases hheader'
  rw [hparams] at hparams'
  exact Option.some.inj hparams'

/-- What a row is expected to give. -/
theorem blockParamsOfRow_of {row : ReproducedBlockRow} {s : SolSlot} {params : BlockParams}
    {hash : TxHash} (hof : row.Of db s params hash) {t : U256} (ht : SlotTime db row.slotNumber t) :
    blockParamsOfRow row = .ok { params with timestamp := t } := by
  obtain ⟨s', time, hs, htime, ht⟩ := ht
  rw [hof.slot] at hs
  cases hs
  rw [blockParamsOfRow_ok (hof.slotTimestamp.trans htime) ht, hof.blockhash, hof.parentHash,
    hof.blockNumber]

theorem comparable_rows (hdb : Reproducible X db fromSlot toSlot) :
    Comparable X (reproduceBlocks2 fromSlot toSlot db) := by
  obtain ⟨hof, _, honce⟩ := reproduceBlocks2_spec hdb.toJoined fromSlot toSlot
  refine ⟨honce, ?_, ?_, ?_⟩
  · intro a ha b hb hslot hnumber
    obtain ⟨s, params, hash, hproduced, haOf⟩ := hof a ha
    obtain ⟨s', params', hash', hproduced', hbOf⟩ := hof b hb
    have hid := hdb.numbers _ _ _ _ hproduced hproduced'
      (by rw [← haOf.blockNumber, ← hbOf.blockNumber, hnumber])
    rw [← hid] at hproduced'
    obtain ⟨t, ht⟩ := hdb.times _ _ hproduced
    have ht' : SlotTime db b.slotNumber t := by
      rw [← hslot]
      exact ht
    rw [blockParamsOfRow_of haOf ht, blockParamsOfRow_of hbOf ht', hproduced.unique hproduced']
  · intro a ha
    obtain ⟨s, params, hash, hproduced, haOf⟩ := hof a ha
    obtain ⟨t, s', time, hs', htime, ht⟩ := hdb.times _ _ hproduced
    have hs := haOf.slot
    rw [show a.slotNumber = a.id.1 from rfl, hs'] at hs
    cases hs
    exact ⟨time, haOf.slotTimestamp.trans htime, t, ht⟩
  · intro a ha
    obtain ⟨s, params, hash, _, haOf⟩ := hof a ha
    exact hdb.rlps hash _ haOf.rlp

theorem checkResults_ok {producedBlocks : ProducedBlocks}
    {expected : List (Slot × Nat × BlockParams)} :
    RollupIndexer.checkResults producedBlocks expected = .ok () ↔
      ∀ e ∈ expected, producedBlocks.get e.1 e.2.1 = some e.2.2 := by
  induction expected with
  | nil => simp [RollupIndexer.checkResults]
  | cons e expected ih =>
      obtain ⟨slotNumber, blockIdx, params⟩ := e
      rw [RollupIndexer.checkResults]
      cases hget : producedBlocks.get slotNumber blockIdx with
      | none => simp [hget]
      | some params' =>
          by_cases heq : params = params'
          · simp [heq, ih, hget]
          · simp [heq, hget, Ne.symm heq]

theorem mem_iter {blocks : ProducedBlocks} {slot : Slot} {i : Nat} {params : BlockParams} :
    (slot, i, params) ∈ blocks.iter ↔ NestedMap.get blocks (slot, i) = some params := by
  rw [← NestedMap.mem_entries, ProducedBlocks.iter, NestedMap.entries, List.mem_flatMap,
    List.mem_flatMap]
  simp only [List.mem_map, Prod.mk.injEq, and_assoc]

theorem contains_eq (pending : PendingBlocks) (id : EthBlockId) :
    pending.contains id.1 id.2 = (pending.get id.1 id.2).isSome := by
  rw [PendingBlocks.contains, PendingBlocks.get]
  cases pending[id.1]? with
  | none => rfl
  | some slotBlocks =>
      show slotBlocks.l2Blocks.contains id.2 = (slotBlocks.l2Blocks[id.2]?).isSome
      rw [Std.ExtTreeMap.contains_eq_isSome_getElem?]

/-- A producer that returns for each pending block what is stored for it. -/
def Faithful {σ : Type} (db : Db block) (P : BlockProducer σ) : Prop :=
  ∀ producerParams limit s, ∃ r s', P.produceBlocks producerParams limit s = .ok r s' ∧
    ∀ id : EthBlockId, r.producedBlocks.get id.1 id.2 =
      if producerParams.pendingBlocks.contains id.1 id.2 then
        (db.ethBlock.lookup id).bind EthBlockHeader.params
      else none

/-- The blocks of the range are numbered by their place in the slot, and carry the
time of the slot. -/
def NumberedByIndex (db : Db block) (fromSlot toSlot : Slot) : Prop :=
  ∀ id params, ProducedIn db fromSlot toSlot id params →
    params.number = id.2 ∧ SlotTime db id.1 params.timestamp

/-- What comes back agrees with what is expected. -/
theorem agrees_iff (hdb : Reproducible X db fromSlot toSlot)
    {st : PendingBlocks × ProducedBlocks}
    (hc : Compared (reproduceBlocks2 fromSlot toSlot db) st) {producedBlocks : ProducedBlocks}
    (hproduced : ∀ id : EthBlockId, producedBlocks.get id.1 id.2 =
      if st.1.contains id.1 id.2 then (db.ethBlock.lookup id).bind EthBlockHeader.params
      else none) :
    RollupIndexer.checkResults producedBlocks st.2.iter = .ok () ↔
      NumberedByIndex db fromSlot toSlot := by
  obtain ⟨hof, hall, _⟩ := reproduceBlocks2_spec hdb.toJoined fromSlot toSlot
  have hpending : ∀ id : EthBlockId, st.1.contains id.1 id.2 = true ↔
      ∃ params, ProducedIn db fromSlot toSlot id params := by
    intro id
    rw [contains_eq, hc.pending]
    constructor
    · rintro ⟨row, hrow, rfl⟩
      obtain ⟨_, params, _, hin, _⟩ := hof row hrow
      exact ⟨params, hin⟩
    · rintro ⟨params, hin⟩
      exact hall id params hin
  rw [checkResults_ok]
  constructor
  · intro hagree id params hin
    obtain ⟨row, hrow, hid⟩ := hall id params hin
    obtain ⟨s, params', hash, hin', hrowOf⟩ := hof row hrow
    rw [hid] at hin'
    cases hin.unique hin'
    obtain ⟨t, ht⟩ := hdb.times id params hin
    have hslot : row.slotNumber = id.1 := congrArg Prod.fst hid
    have hget : NestedMap.get st.2 (id.1, params.number) = some { params with timestamp := t } :=
      (hc.expected _ _).mpr ⟨row, hrow, hslot, hrowOf.blockNumber,
        blockParamsOfRow_of hrowOf (hslot ▸ ht)⟩
    have hanswer := hagree _ (mem_iter.mpr hget)
    rw [hproduced (id.1, params.number)] at hanswer
    split at hanswer
    · next hcontains =>
        obtain ⟨params', hin'⟩ := (hpending _).mp hcontains
        obtain ⟨header, hheader, hparams⟩ := Option.bind_eq_some_iff.mp hanswer
        have hin'' : ProducedIn db fromSlot toSlot (id.1, params.number)
            { params with timestamp := t } := ⟨hin.1, hin.2.1, header, hheader, hparams⟩
        have heq := hdb.numbers _ _ _ _ hin hin'' rfl
        rw [← heq] at hin''
        refine ⟨congrArg Prod.snd heq.symm, ?_⟩
        rw [hin.unique hin'']
        exact ht
    · cases hanswer
  · intro hnumbered e he
    obtain ⟨slot, number, params⟩ := e
    obtain ⟨row, hrow, rfl, rfl, hparams⟩ := (hc.expected _ _).mp (mem_iter.mp he)
    obtain ⟨s, params', hash, hin, hrowOf⟩ := hof row hrow
    obtain ⟨hnumber, ht⟩ := hnumbered _ _ hin
    rw [blockParamsOfRow_of hrowOf ht] at hparams
    cases hparams
    have hidx : row.slotBlockIdx = row.blockNumber := by
      rw [hrowOf.blockNumber, hnumber]
      rfl
    show producedBlocks.get row.slotNumber row.blockNumber = some params'
    have hanswer := hproduced row.id
    rw [if_pos ((hpending row.id).mpr ⟨params', hin⟩)] at hanswer
    rw [← hidx]
    refine hanswer.trans ?_
    obtain ⟨_, _, header, hheader, hstored⟩ := hin
    rw [hheader]
    exact hstored

theorem reproduceBlocks_run (hdb : Reproducible X db fromSlot toSlot) :
    ∃ st, Compared (reproduceBlocks2 fromSlot toSlot db) st ∧
      reproduceBlocks X fromSlot toSlot db = if st.1.isEmpty then .ok none else .ok (some {
        producerParams := {
          parentHash := st.2.first.bind BlockParams.parentHash
          finalizedBlock := none
          pendingBlocks := st.1 }
        expectedResults := st.2 }) := by
  obtain ⟨st, hloop, hc⟩ := compared_loop (X := X) (reproduceBlocks2 fromSlot toSlot db)
    compared_nil (by rw [List.nil_append]; exact comparable_rows hdb)
  rw [List.nil_append] at hc
  refine ⟨st, hc, ?_⟩
  rw [reproduceBlocks]
  simp only [bind, Except.bind, hloop]
  rfl

section

variable {σ : Type} {pool : Pool σ block} {I : RollupIndexer σ} {P : BlockProducer σ}

end

/-! ## One block with number 1 -/

/-- What is stored of the pending blocks. -/
def storedAnswer (db : Db block) (pendingBlocks : PendingBlocks) : ProducedBlocks :=
  Std.ExtTreeMap.filterMap (fun slotNumber (l1Block : PendingL1Block) =>
    some (Std.ExtTreeMap.filterMap (fun blockIdx _ =>
      (db.ethBlock.lookup (slotNumber, blockIdx)).bind EthBlockHeader.params) l1Block.l2Blocks))
    pendingBlocks

def storedProducer {σ : Type} (db : Db block) : BlockProducer σ where
  lastProducedBlock := pure 0
  getBlockParams _ := throw (.err (.custom "Block was not found"))
  produceBlocks producerParams _ := pure ⟨storedAnswer db producerParams.pendingBlocks, 0⟩

theorem get_storedAnswer (db : Db block) (pendingBlocks : PendingBlocks) (id : EthBlockId) :
    (storedAnswer db pendingBlocks).get id.1 id.2
      = (pendingBlocks.get id.1 id.2).bind fun _ =>
          (db.ethBlock.lookup id).bind EthBlockHeader.params := by
  rw [ProducedBlocks.get, PendingBlocks.get, storedAnswer, BTreeMap.get?_filterMap]
  cases pendingBlocks[id.1]? with
  | none => rfl
  | some l1Block =>
      rw [Option.bind_some, Option.bind_some, Option.bind_some, BTreeMap.get?_filterMap]

theorem storedProducer_faithful {σ : Type} (db : Db block) :
    Faithful db (storedProducer db : BlockProducer σ) := by
  intro producerParams limit s
  refine ⟨⟨storedAnswer db producerParams.pendingBlocks, 0⟩, s, rfl, fun id => ?_⟩
  rw [contains_eq, get_storedAnswer]
  cases producerParams.pendingBlocks.get id.1 id.2 with
  | none => rfl
  | some b => rfl

/-- An indexer whose producer answers from the tables. -/
def reproducingIndexer (db : Db Unit) : RollupIndexer (Server Unit) where
  parse _ _ := pure none
  retainParsed _ := pure ()
  solanaBlockStorage := {
    getLastSlot := pure none
    retainFromSlot := fun _ => pure ()
    stored := fun _ _ => False }
  ethereumBlockStorage := ethereumBlockStorage chainStandIns Server.pool
  blockProducer := some (storedProducer db)
  maxSlotHistory := none

theorem halfProduced_reproducible : Reproducible chainStandIns halfProduced 7 8 where
  toJoined := halfProduced_wellFormed.toJoined
  times id params hin := by
    obtain ⟨_, _, header, hheader, _⟩ := hin
    have hmem : id ∈ halfProduced.ethBlock := HashMap.mem_of_lookup hheader
    obtain ⟨s, hs⟩ := HashMap.lookup_of_mem (halfProduced_wellFormed.slotStored id hmem)
    obtain ⟨_, _, time, t, _, _, _, htime, ht⟩ := halfProduced_wellFormed.slots id hmem s hs
    exact ⟨t, s, time, hs, htime, ht⟩
  rlps := halfProduced_wellFormed.rlps
  numbers := by
    have hall : ∀ e ∈ halfProduced.ethBlock.entries, e.2.params ≠ none → e.1 = (7, 0) := by decide
    have hfirst : ∀ id params, ProducedIn halfProduced 7 8 id params → id = (7, 0) := by
      intro id params hin
      obtain ⟨_, _, header, hheader, hparams⟩ := hin
      exact hall _ ((HashMap.mem_entries _ _ _).mpr hheader) (by rw [hparams]; exact Option.some_ne_none _)
    intro id id' params params' hin hin' _
    rw [hfirst id params hin, hfirst id' params' hin']

/-- The call returned an error. -/
def errs {α : Type} : EStateM.Result Failure (Server Unit) α → Bool
  | .error (.err _) _ => true
  | _ => false

end PgStorage

end RomeSdk
