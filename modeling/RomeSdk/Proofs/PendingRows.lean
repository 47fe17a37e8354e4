import RomeSdk.Lib.NestedMaps
import RomeSdk.PgStorage.EthereumBlockStorage

/-!
# What the views of pending blocks list

The first view walks from the highest slot with eth blocks to stored parents. It
goes past a slot unless the slot is finalized and has a produced block, and it
never goes to slot 0. Of the head slot it shows the blocks without parameters,
of every other slot it comes to all blocks. The second view joins the
transactions, and since no row of the first is there twice, no transaction of a
block is.
-/

namespace RomeSdk

namespace PgStorage

variable {block : Type} {db : Db block}

/-! ## The chain -/

/-- The highest slot with eth blocks. -/
def headSlot (db : Db block) : Option Slot := Db.maxOf db.ethBlockSlots

/-- The slots on the stored parent chain of the head slot. -/
inductive OnChain (db : Db block) : Slot → Prop
  | head {slot : Slot} : headSlot db = some slot → OnChain db slot
  | parent {slot : Slot} {s : SolSlot} : OnChain db slot → db.solSlot.lookup slot = some s →
      s.parentSlot ∈ db.solSlot → OnChain db s.parentSlot

/-- Parents come before their children; slot 0 is its own parent. -/
def ParentsBefore (db : Db block) : Prop :=
  ∀ slot s, db.solSlot.lookup slot = some s → s.parentSlot < slot ∨ s.parentSlot = 0

theorem mem_slotBlocks {slot : Slot} {i : Nat} {header : EthBlockHeader} :
    (i, header) ∈ db.slotBlocks slot ↔ db.ethBlock.lookup (slot, i) = some header := by
  rw [← HashMap.mem_entries, Db.slotBlocks, List.mem_filterMap]
  constructor
  · intro h
    obtain ⟨e, he, hsome⟩ := h
    split at hsome
    · next hslot =>
        simp only [Option.some.injEq, Prod.mk.injEq] at hsome
        obtain ⟨rfl, rfl⟩ := hsome
        rw [← hslot]
        exact he
    · cases hsome
  · intro h
    exact ⟨_, h, if_pos rfl⟩

theorem mem_ethBlockSlots {slot : Slot} :
    slot ∈ db.ethBlockSlots ↔ ∃ i header, db.ethBlock.lookup (slot, i) = some header := by
  rw [Db.ethBlockSlots, List.mem_map]
  constructor
  · intro h
    obtain ⟨e, he, rfl⟩ := h
    exact ⟨e.1.2, e.2, (HashMap.mem_entries _ _ _).mp he⟩
  · intro h
    obtain ⟨i, header, hlookup⟩ := h
    exact ⟨_, (HashMap.mem_entries _ _ _).mpr hlookup, rfl⟩

theorem headSlot_eq_some {slot : Slot} : headSlot db = some slot ↔
    (∃ i header, db.ethBlock.lookup (slot, i) = some header) ∧
      ∀ id header, db.ethBlock.lookup id = some header → id.1 ≤ slot := by
  rw [headSlot, Db.maxOf, List.max?_eq_some_iff, mem_ethBlockSlots]
  refine and_congr_right fun _ => ?_
  constructor
  · intro h id header hlookup
    exact h id.1 (mem_ethBlockSlots.mpr ⟨id.2, header, hlookup⟩)
  · intro h slot' hslot'
    obtain ⟨i, header, hlookup⟩ := mem_ethBlockSlots.mp hslot'
    exact h _ _ hlookup

theorem onChain_le (hparents : ParentsBefore db) {head slot : Slot}
    (hhead : headSlot db = some head) (h : OnChain db slot) : slot ≤ head := by
  induction h with
  | head h =>
      rw [hhead] at h
      cases h
      exact Nat.le_refl _
  | parent _ hs _ ih =>
      rcases hparents _ _ hs with hlt | hzero
      · exact Nat.le_trans (Nat.le_of_lt hlt) ih
      · rw [hzero]
        exact Nat.zero_le _

/-! ## The rows of the first view -/

abbrev ViewRow (db : Db block) (row : PendingBlockRow) : Prop :=
  Derived (pendingNext db) (pendingFirst db) row

/-- A row that shows the slot, alone or with one of its eth blocks. -/
def RowOf (db : Db block) (s : SolSlot) (row : PendingBlockRow) : Prop :=
  row = slotRow row.slotNumber s ∨
    ∃ i header, db.ethBlock.lookup (row.slotNumber, i) = some header ∧
      row = blockRow row.slotNumber s (i, header)

theorem mem_leftJoin {slot : Slot} {s : SolSlot} {blocks : List (Nat × EthBlockHeader)}
    {row : PendingBlockRow} (h : row ∈ leftJoin slot s blocks) :
    row = slotRow slot s ∨ ∃ b ∈ blocks, row = blockRow slot s b := by
  rw [leftJoin] at h
  split at h
  · exact Or.inl (List.mem_singleton.mp h)
  · obtain ⟨b, hb, rfl⟩ := List.mem_map.mp h
    exact Or.inr ⟨b, hb, rfl⟩

theorem blockRow_mem_leftJoin {slot : Slot} {s : SolSlot} {blocks : List (Nat × EthBlockHeader)}
    {b : Nat × EthBlockHeader} (h : b ∈ blocks) : blockRow slot s b ∈ leftJoin slot s blocks := by
  have hne : blocks.isEmpty = false := by
    cases blocks with
    | nil => cases h
    | cons => rfl
  rw [leftJoin, hne]
  exact List.mem_map.mpr ⟨b, h, rfl⟩

/-- Every slot has a row of its own or one of a block. -/
theorem exists_mem_leftJoin (slot : Slot) (s : SolSlot) (blocks : List (Nat × EthBlockHeader)) :
    ∃ row ∈ leftJoin slot s blocks, row.slotNumber = slot := by
  cases blocks with
  | nil => exact ⟨slotRow slot s, List.mem_singleton_self _, rfl⟩
  | cons b blocks => exact ⟨blockRow slot s b, blockRow_mem_leftJoin (List.mem_cons_self ..), rfl⟩

theorem rowOf_leftJoin {slot : Slot} {s : SolSlot} {blocks : List (Nat × EthBlockHeader)}
    (hblocks : ∀ b ∈ blocks, b ∈ db.slotBlocks slot) {row : PendingBlockRow}
    (h : row ∈ leftJoin slot s blocks) : row.slotNumber = slot ∧ RowOf db s row := by
  rcases mem_leftJoin h with rfl | ⟨b, hb, rfl⟩
  · exact ⟨rfl, Or.inl rfl⟩
  · exact ⟨rfl, Or.inr ⟨b.1, b.2, mem_slotBlocks.mp (hblocks b hb), rfl⟩⟩

theorem RowOf.parentSlot {s : SolSlot} {row : PendingBlockRow} (h : RowOf db s row) :
    row.parentSlot = s.parentSlot ∧ row.slotStatus = s.status := by
  rcases h with h | ⟨i, header, _, h⟩
  · rw [h]
    exact ⟨rfl, rfl⟩
  · rw [h]
    exact ⟨rfl, rfl⟩

theorem mem_pendingFirst {row : PendingBlockRow} (h : row ∈ pendingFirst db) :
    ∃ s, headSlot db = some row.slotNumber ∧ db.solSlot.lookup row.slotNumber = some s ∧
      RowOf db s row ∧ row.params = none := by
  rw [pendingFirst] at h
  split at h
  · cases h
  · next slot hhead =>
      split at h
      · cases h
      · next s hs =>
          obtain ⟨hslot, hrow⟩ := rowOf_leftJoin (fun b hb => (List.mem_filter.mp hb).1) h
          refine ⟨s, ?_, ?_, hrow, ?_⟩
          · rw [hslot]
            exact hhead
          · rw [hslot]
            exact hs
          · rcases mem_leftJoin h with rfl | ⟨b, hb, rfl⟩
            · rfl
            · exact Option.isNone_iff_eq_none.mp (List.mem_filter.mp hb).2

theorem mem_pendingNext {p row : PendingBlockRow} (h : row ∈ pendingNext db p) :
    ∃ parent, row.slotNumber = p.parentSlot ∧ db.solSlot.lookup p.parentSlot = some parent ∧
      0 < p.parentSlot ∧ RowOf db parent row := by
  rw [pendingNext] at h
  split at h
  · cases h
  · next parent hparent =>
      split at h
      · next hgo =>
          obtain ⟨hslot, hrow⟩ := rowOf_leftJoin (fun b hb => hb) h
          exact ⟨parent, hslot, hparent, hgo.1, hrow⟩
      · cases h

theorem viewRow_spec {row : PendingBlockRow} (h : ViewRow db row) :
    OnChain db row.slotNumber ∧
      ∃ s, db.solSlot.lookup row.slotNumber = some s ∧ RowOf db s row := by
  induction h with
  | first hrow =>
      obtain ⟨s, hhead, hs, hrowOf, _⟩ := mem_pendingFirst hrow
      exact ⟨.head hhead, s, hs, hrowOf⟩
  | next _ hy ih =>
      obtain ⟨hchain, s, hs, hrowOf⟩ := ih
      obtain ⟨parent, hslot, hparent, _, hyRow⟩ := mem_pendingNext hy
      rw [hrowOf.parentSlot.1] at hslot hparent
      refine ⟨?_, parent, ?_, hyRow⟩
      · rw [hslot]
        refine .parent hchain hs ?_
        exact HashMap.mem_of_lookup hparent
      · rw [hslot]
        exact hparent

theorem mem_allBlockRows {row : PendingBlockRow} {s : SolSlot}
    (hs : db.solSlot.lookup row.slotNumber = some s) (h : RowOf db s row) :
    row ∈ allBlockRows db := by
  rw [allBlockRows, List.mem_flatMap]
  refine ⟨⟨row.slotNumber, s⟩, (HashMap.mem_entries _ _ _).mpr hs, ?_⟩
  rcases h with h | ⟨i, header, hheader, h⟩
  · exact List.mem_cons.mpr (Or.inl h)
  · exact List.mem_cons_of_mem _ (List.mem_map.mpr ⟨(i, header), mem_slotBlocks.mpr hheader, h.symm⟩)

theorem mem_view {row : PendingBlockRow} :
    row ∈ pendingBlocksWithSlotStatuses2 db ↔ ViewRow db row := by
  have hall : ∀ row, ViewRow db row → row ∈ allBlockRows db := by
    intro row h
    obtain ⟨_, s, hs, hrowOf⟩ := viewRow_spec h
    exact mem_allBlockRows hs hrowOf
  exact mem_recursiveUnion _ hall (Nat.lt_succ_self _)

/-! ## The slots the view comes to -/

def Visited (db : Db block) (slot : Slot) : Prop := ∃ row, ViewRow db row ∧ row.slotNumber = slot

/-- The view has a row with this block. -/
def Shown (db : Db block) (id : EthBlockId) : Prop :=
  ∃ s header, db.solSlot.lookup id.1 = some s ∧ db.ethBlock.lookup id = some header ∧
    ViewRow db (blockRow id.1 s (id.2, header))

theorem visited_head {slot : Slot} {s : SolSlot} (hhead : headSlot db = some slot)
    (hs : db.solSlot.lookup slot = some s) : Visited db slot := by
  obtain ⟨row, hrow, hslot⟩ := exists_mem_leftJoin slot s
    ((db.slotBlocks slot).filter fun b => b.2.params.isNone)
  refine ⟨row, .first ?_, hslot⟩
  rw [pendingFirst, show Db.maxOf db.ethBlockSlots = some slot from hhead]
  simp only [hs]
  exact hrow

theorem shown_head {slot : Slot} {i : Nat} {s : SolSlot} {header : EthBlockHeader}
    (hhead : headSlot db = some slot) (hs : db.solSlot.lookup slot = some s)
    (hheader : db.ethBlock.lookup (slot, i) = some header) (hnone : header.params = none) :
    Shown db (slot, i) := by
  refine ⟨s, header, hs, hheader, .first ?_⟩
  rw [pendingFirst, show Db.maxOf db.ethBlockSlots = some slot from hhead]
  simp only [hs]
  refine blockRow_mem_leftJoin (List.mem_filter.mpr ⟨mem_slotBlocks.mpr hheader, ?_⟩)
  rw [hnone]
  rfl

/-- The walk goes from a slot it is at to the parent. -/
theorem visited_parent {slot : Slot} {s : SolSlot} (h : Visited db slot)
    (hs : db.solSlot.lookup slot = some s) (hparent : s.parentSlot ∈ db.solSlot)
    (hpos : 0 < s.parentSlot) (hgo : hasProduced db slot = false) : Visited db s.parentSlot := by
  obtain ⟨row, hrow, rfl⟩ := h
  obtain ⟨_, s', hs', hrowOf⟩ := viewRow_spec hrow
  rw [hs] at hs'
  cases hs'
  obtain ⟨parent, hparent⟩ := HashMap.lookup_of_mem hparent
  obtain ⟨y, hy, hslot⟩ := exists_mem_leftJoin s.parentSlot parent (db.slotBlocks s.parentSlot)
  refine ⟨y, .next hrow ?_, hslot⟩
  rw [pendingNext, hrowOf.parentSlot.1, hparent]
  simp only [hpos, hgo, true_and, Bool.false_eq_true, not_false_eq_true, or_true, if_true]
  exact hy

/-- Below the head every block of a visited slot is shown. -/
theorem shown_below {id : EthBlockId} {header : EthBlockHeader} (h : Visited db id.1)
    (hne : headSlot db ≠ some id.1) (hheader : db.ethBlock.lookup id = some header) :
    Shown db id := by
  obtain ⟨row, hrow, hslot⟩ := h
  cases hrow with
  | first hfirst =>
      obtain ⟨_, hhead, _⟩ := mem_pendingFirst hfirst
      rw [hslot] at hhead
      exact absurd hhead hne
  | @next x _ hx hy =>
      obtain ⟨parent, hparentSlot, hparent, hpos, _⟩ := mem_pendingNext hy
      rw [hslot] at hparentSlot
      refine ⟨parent, header, by rw [hparentSlot]; exact hparent, hheader, .next hx ?_⟩
      rw [pendingNext] at hy ⊢
      rw [hparent] at hy ⊢
      simp only at hy ⊢
      split at hy
      · next hgo =>
          rw [if_pos hgo, ← hparentSlot]
          exact blockRow_mem_leftJoin (mem_slotBlocks.mpr hheader)
      · cases hy

theorem Shown.visited {id : EthBlockId} (h : Shown db id) : Visited db id.1 := by
  obtain ⟨_, _, _, _, hrow⟩ := h
  exact ⟨_, hrow, rfl⟩

theorem Visited.onChain {slot : Slot} (h : Visited db slot) : OnChain db slot := by
  obtain ⟨row, hrow, rfl⟩ := h
  exact (viewRow_spec hrow).1

/-- The walk never goes to slot 0. -/
theorem Visited.pos {slot : Slot} (h : Visited db slot) (hne : headSlot db ≠ some slot) :
    0 < slot := by
  obtain ⟨row, hrow, hslot⟩ := h
  cases hrow with
  | first hfirst =>
      obtain ⟨_, hhead, _⟩ := mem_pendingFirst hfirst
      rw [hslot] at hhead
      exact absurd hhead hne
  | next _ hy =>
      obtain ⟨_, hparentSlot, _, hpos, _⟩ := mem_pendingNext hy
      rwa [← hslot, hparentSlot]

/-- A row of a block is what the tables hold of it. -/
theorem viewRow_block {row : PendingBlockRow} {i : Nat} (h : ViewRow db row)
    (hi : row.slotBlockIdx = some i) : Shown db (row.slotNumber, i) ∧
      ∃ s header, db.solSlot.lookup row.slotNumber = some s ∧
        db.ethBlock.lookup (row.slotNumber, i) = some header ∧
        row = blockRow row.slotNumber s (i, header) := by
  obtain ⟨_, s, hs, hrowOf⟩ := viewRow_spec h
  rcases hrowOf with hslot | ⟨i', header, hheader, hblock⟩
  · rw [hslot] at hi
    cases hi
  · have hidx : i' = i := by
      rw [hblock] at hi
      exact Option.some.inj hi
    subst hidx
    exact ⟨⟨s, header, hs, hheader, hblock ▸ h⟩, s, header, hs, hheader, hblock⟩

/-- Of the head slot only blocks without parameters are shown. -/
theorem Shown.head_pending (hparents : ParentsBefore db) {id : EthBlockId} (h : Shown db id)
    (hhead : headSlot db = some id.1) {header : EthBlockHeader}
    (hheader : db.ethBlock.lookup id = some header) : header.params = none := by
  obtain ⟨s, header', _, hheader', hrow⟩ := h
  rw [hheader] at hheader'
  cases hheader'
  cases hrow with
  | first hfirst =>
      obtain ⟨_, _, _, _, hnone⟩ := mem_pendingFirst hfirst
      exact hnone
  | next hx hy =>
      -- the head slot is no parent of a slot of its chain
      obtain ⟨_, hparentSlot, _, hpos, _⟩ := mem_pendingNext hy
      obtain ⟨hchain, s', hs', hrowOf⟩ := viewRow_spec hx
      have hle := onChain_le hparents hhead hchain
      rw [hrowOf.parentSlot.1] at hparentSlot hpos
      have hslot : id.1 = s'.parentSlot := hparentSlot
      rcases hparents _ _ hs' with hlt | hzero
      · rw [hslot] at hle
        exact absurd hlt (Nat.not_lt.mpr hle)
      · rw [hzero] at hpos
        exact absurd hpos (Nat.lt_irrefl 0)

/-- The walk comes to every slot of the chain that has no slot with produced blocks
above it. -/
theorem visited_of_onChain (hparents : ParentsBefore db)
    (hstored : ∀ slot, headSlot db = some slot → slot ∈ db.solSlot) {slot : Slot}
    (h : OnChain db slot) : (0 < slot ∨ headSlot db = some slot) →
      (∀ p, OnChain db p → slot < p → hasProduced db p = false) → Visited db slot := by
  induction h with
  | head hhead =>
      intro _ _
      obtain ⟨s, hs⟩ := HashMap.lookup_of_mem (hstored _ hhead)
      exact visited_head hhead hs
  | @parent slot s hchain hs hparent ih =>
      intro hpos habove
      by_cases hhead : headSlot db = some s.parentSlot
      · obtain ⟨_, hs'⟩ := HashMap.lookup_of_mem hparent
        exact visited_head hhead hs'
      · have hpos : 0 < s.parentSlot := hpos.resolve_right hhead
        have hlt : s.parentSlot < slot := by
          rcases hparents _ _ hs with hlt | hzero
          · exact hlt
          · rw [hzero] at hpos
            exact absurd hpos (Nat.lt_irrefl 0)
        have hvisited : Visited db slot := by
          refine ih (Or.inl (Nat.lt_trans hpos hlt)) ?_
          intro p hp habove'
          exact habove p hp (Nat.lt_trans hlt habove')
        exact visited_parent hvisited hs hparent hpos (habove slot hchain hlt)

/-! ## The rows of the second view -/

/-- What the rest of the storage needs of the rows that belong together: every eth
block has its slot and at least one transaction, every transaction of a block is
stored with a result, and no two have one index. -/
structure Joined (db : Db block) : Prop where
  slotStored : ∀ id ∈ db.ethBlock, id.1 ∈ db.solSlot
  nonempty : ∀ id ∈ db.ethBlock, ∃ hash, (id, hash) ∈ db.ethBlockTxs
  txStored : ∀ id hash, (id, hash) ∈ db.ethBlockTxs → hash ∈ db.evmTx ∧ (id.1, hash) ∈ db.evmTxResult
  txIdx : ∀ id hash hash' i, db.ethBlockTxs.lookup (id, hash) = some i →
    db.ethBlockTxs.lookup (id, hash') = some i → hash = hash'

def PendingTx.id (tx : PendingTx) : EthBlockId := (tx.slotNumber, tx.slotBlockIdx)

/-- The row of a transaction of a block. -/
structure PendingTx.Of (db : Db block) (tx : PendingTx) (s : SolSlot) (header : EthBlockHeader)
    (hash : TxHash) : Prop where
  slot : db.solSlot.lookup tx.slotNumber = some s
  ethBlock : db.ethBlock.lookup tx.id = some header
  txIdx : db.ethBlockTxs.lookup (tx.id, hash) = some tx.txIdx
  rlp : db.evmTx.lookup hash = some tx.rlp
  txResult : (db.evmTxResult.lookup (tx.slotNumber, hash)).map EvmTxResult.txResult
    = some tx.txResult
  slotStatus : tx.slotStatus = s.status
  slotBlockhash : s.blockhash = some tx.slotBlockhash
  slotTimestamp : tx.slotTimestamp = s.timestamp
  gasRecipient : tx.gasRecipient = header.gasRecipient
  ethBlockhash : tx.ethBlockhash = header.params.map BlockParams.hash

theorem mem_blockTxs {id : EthBlockId} {i : Nat} {hash : TxHash} :
    (i, hash) ∈ db.blockTxs id ↔ db.ethBlockTxs.lookup (id, hash) = some i := by
  rw [← HashMap.mem_entries, Db.blockTxs, List.mem_filterMap]
  constructor
  · intro h
    obtain ⟨e, he, hsome⟩ := h
    split at hsome
    · next hid =>
        simp only [Option.some.injEq, Prod.mk.injEq] at hsome
        obtain ⟨rfl, rfl⟩ := hsome
        rw [← hid]
        exact he
    · cases hsome
  · intro h
    exact ⟨_, h, if_pos rfl⟩

theorem blockTxs_nodup (id : EthBlockId) : (db.blockTxs id).Nodup := by
  rw [Db.blockTxs]
  refine List.Nodup.filterMap ?_ (List.nodupKeys_iff_pairwise.mp db.ethBlockTxs.nodupKeys |>.imp ?_)
  · intro e e' b hb hb'
    simp only [Option.mem_def, Option.ite_none_right_eq_some, Option.some.injEq] at hb hb'
    obtain ⟨hid, rfl⟩ := hb
    obtain ⟨hid', heq⟩ := hb'
    obtain ⟨⟨id₁, hash₁⟩, i₁⟩ := e
    obtain ⟨⟨id₂, hash₂⟩, i₂⟩ := e'
    simp only [Prod.mk.injEq] at heq hid hid'
    obtain ⟨rfl, rfl⟩ := heq
    rw [hid, hid']
  · intro a b hne heq
    exact hne (congrArg Sigma.fst heq)

/-- The rows of a block are one for each of its transactions. -/
theorem pendingTxsOf_ok (hj : Joined db) (id : EthBlockId) {s : SolSlot} {header : EthBlockHeader}
    {text : String} (hs : db.solSlot.lookup id.1 = some s)
    (hheader : db.ethBlock.lookup id = some header) (htext : s.blockhash = some text) :
    ∃ txs : List PendingTx, pendingTxsOf db (blockRow id.1 s (id.2, header)) id.2 = txs.map .ok ∧
      (∀ tx ∈ txs, tx.id = id ∧ ∃ hash, tx.Of db s header hash) ∧
      (∀ hash, (id, hash) ∈ db.ethBlockTxs → ∃ tx ∈ txs, tx.Of db s header hash) ∧
      txs.Pairwise fun a b => a.txIdx ≠ b.txIdx := by
  let row : Nat × TxHash → Option PendingTx := fun e => do
    let rlp ← db.evmTx.lookup e.2
    let evmTxResult ← db.evmTxResult.lookup (id.1, e.2)
    some {
      slotNumber := id.1
      slotStatus := s.status
      slotBlockhash := text
      slotTimestamp := s.timestamp
      slotBlockIdx := id.2
      gasRecipient := header.gasRecipient
      ethBlockhash := header.params.map BlockParams.hash
      txIdx := e.1
      rlp := rlp
      txResult := evmTxResult.txResult }
  have hrow : ∀ e tx, e ∈ db.blockTxs id → row e = some tx → tx.id = id ∧ tx.txIdx = e.1 ∧
      tx.Of db s header e.2 := by
    intro e tx he hsome
    obtain ⟨rlp, hrlp, hsome⟩ := Option.bind_eq_some_iff.mp hsome
    obtain ⟨result, hresult, hsome⟩ := Option.bind_eq_some_iff.mp hsome
    cases hsome
    exact ⟨rfl, rfl, hs, hheader, mem_blockTxs.mp he, hrlp, by rw [hresult]; rfl, rfl, htext, rfl,
      rfl, rfl⟩
  refine ⟨(db.blockTxs id).filterMap row, ?_, ?_, ?_, ?_⟩
  · rw [List.map_filterMap, pendingTxsOf]
    refine List.filterMap_congr ?_
    intro e _
    simp only [row, blockRow, slotRow, htext, bind]
    cases db.evmTx.lookup e.2 with
    | none => rfl
    | some rlp =>
        cases db.evmTxResult.lookup (id.1, e.2) with
        | none => rfl
        | some result => rfl
  · intro tx htx
    obtain ⟨e, he, hsome⟩ := List.mem_filterMap.mp htx
    obtain ⟨hid, _, hof⟩ := hrow e tx he hsome
    exact ⟨hid, e.2, hof⟩
  · intro hash hmem
    obtain ⟨i, hi⟩ := HashMap.lookup_of_mem hmem
    obtain ⟨hevm, hres⟩ := hj.txStored id hash hmem
    obtain ⟨rlp, hrlp⟩ := HashMap.lookup_of_mem hevm
    obtain ⟨result, hresult⟩ := HashMap.lookup_of_mem hres
    have he : (i, hash) ∈ db.blockTxs id := mem_blockTxs.mpr hi
    obtain ⟨tx, htx⟩ : ∃ tx, row (i, hash) = some tx := by
      simp only [row, hrlp, hresult, bind, Option.bind_some, Option.some.injEq, exists_eq']
    exact ⟨tx, List.mem_filterMap.mpr ⟨_, he, htx⟩, (hrow _ tx he htx).2.2⟩
  · rw [List.pairwise_filterMap]
    refine List.Pairwise.imp_of_mem ?_ (blockTxs_nodup id)
    intro e e' he he' hne tx htx tx' htx' hidx
    obtain ⟨_, hi, _⟩ := hrow e tx he htx
    obtain ⟨_, hi', _⟩ := hrow e' tx' he' htx'
    have heq : e.1 = e'.1 := by rw [← hi, ← hi', hidx]
    refine hne (Prod.ext heq ?_)
    refine hj.txIdx id e.2 e'.2 e.1 (mem_blockTxs.mp he) ?_
    rw [heq]
    exact mem_blockTxs.mp he'

/-- A block whose slot has a blockhash. -/
def Dated (db : Db block) : Prop :=
  ∀ id ∈ db.ethBlock, ∀ s, db.solSlot.lookup id.1 = some s → s.blockhash ≠ none

/-- What the second view joins to a row of the first. -/
def rowTxs (db : Db block) (row : PendingBlockRow) : List (Outcome PendingTx) :=
  match row.slotBlockIdx with
  | none => []
  | some blockIdx => pendingTxsOf db row blockIdx

/-- The transactions read off a row. -/
structure ReadOff (db : Db block) (row : PendingBlockRow) (txs : List PendingTx) : Prop where
  read : rowTxs db row = txs.map .ok
  of : ∀ tx ∈ txs, row.slotNumber = tx.slotNumber ∧ row.slotBlockIdx = some tx.slotBlockIdx ∧
    ∃ s header hash, tx.Of db s header hash
  all : ∀ i s header hash, row.slotBlockIdx = some i →
    db.solSlot.lookup row.slotNumber = some s →
    db.ethBlock.lookup (row.slotNumber, i) = some header →
    ((row.slotNumber, i), hash) ∈ db.ethBlockTxs → ∃ tx ∈ txs, tx.Of db s header hash
  pairwise : txs.Pairwise fun a b => a.txIdx ≠ b.txIdx

theorem rowTxs_ok (hj : Joined db) (hdated : Dated db) {row : PendingBlockRow}
    (h : ViewRow db row) : ∃ txs, ReadOff db row txs := by
  cases hidx : row.slotBlockIdx with
  | none =>
      refine ⟨[], ?_, by simp, ?_, List.Pairwise.nil⟩
      · rw [rowTxs, hidx]
        rfl
      · intro i s header hash hi
        rw [hidx] at hi
        cases hi
  | some i =>
      obtain ⟨_, s, header, hs, hheader, hblock⟩ := viewRow_block h hidx
      have hmem : (row.slotNumber, i) ∈ db.ethBlock := HashMap.mem_of_lookup hheader
      obtain ⟨text, htext⟩ := Option.ne_none_iff_exists'.mp (hdated _ hmem s hs)
      obtain ⟨txs, hread, hof, hall, hpairwise⟩ :=
        pendingTxsOf_ok hj (row.slotNumber, i) hs hheader htext
      rw [← hblock] at hread
      refine ⟨txs, ?_, ?_, ?_, hpairwise⟩
      · rw [rowTxs, hidx]
        exact hread
      · intro tx htx
        obtain ⟨hid, hash, hof'⟩ := hof tx htx
        have hslot : tx.slotNumber = row.slotNumber := congrArg Prod.fst hid
        have hi : tx.slotBlockIdx = i := congrArg Prod.snd hid
        exact ⟨hslot.symm, by rw [hidx, hi], s, header, hash, hof'⟩
      · intro i' s' header' hash hi' hs' hheader' hmem'
        rw [hidx] at hi'
        cases hi'
        rw [hs] at hs'
        rw [hheader] at hheader'
        cases hs'
        cases hheader'
        exact hall hash hmem'

/-- Two rows of one block are one row. -/
theorem viewRow_unique {row row' : PendingBlockRow} {i : Nat} (h : ViewRow db row)
    (h' : ViewRow db row') (hslot : row.slotNumber = row'.slotNumber)
    (hi : row.slotBlockIdx = some i) (hi' : row'.slotBlockIdx = some i) : row = row' := by
  obtain ⟨_, s, header, hs, hheader, hblock⟩ := viewRow_block h hi
  obtain ⟨_, s', header', hs', hheader', hblock'⟩ := viewRow_block h' hi'
  rw [hslot] at hs hheader hblock
  rw [hs] at hs'
  rw [hheader] at hheader'
  cases hs'
  cases hheader'
  rw [hblock, ← hblock']

theorem mapM_id_ok {ε α : Type} (l : List α) : (l.map (.ok : α → Except ε α)).mapM id = .ok l := by
  induction l with
  | nil => rfl
  | cons a l ih =>
      rw [List.map_cons, List.mapM_cons, ih]
      rfl

/-- The second view: the transactions of the blocks the first one shows, each once. -/
theorem pendingTransactions_ok (hj : Joined db) (hdated : Dated db) :
    ∃ txs, pendingTransactionsWithSlotStatuses2 db = .ok txs ∧
      (∀ tx ∈ txs, Shown db tx.id ∧ ∃ s header hash, tx.Of db s header hash) ∧
      (∀ id s header hash, Shown db id → db.solSlot.lookup id.1 = some s →
        db.ethBlock.lookup id = some header → (id, hash) ∈ db.ethBlockTxs →
        ∃ tx ∈ txs, tx.Of db s header hash ∧ tx.id = id) ∧
      txs.Pairwise fun a b => (a.id, a.txIdx) ≠ (b.id, b.txIdx) := by
  have hread : ∀ row, ∃ txs, ViewRow db row → ReadOff db row txs := by
    intro row
    by_cases h : ViewRow db row
    · obtain ⟨txs, htxs⟩ := rowTxs_ok hj hdated h
      exact ⟨txs, fun _ => htxs⟩
    · exact ⟨[], fun h' => absurd h' h⟩
  choose f hf using hread
  refine ⟨(pendingBlocksWithSlotStatuses2 db).flatMap f, ?_, ?_, ?_, ?_⟩
  · have hflat : (pendingBlocksWithSlotStatuses2 db).flatMap (rowTxs db)
        = ((pendingBlocksWithSlotStatuses2 db).flatMap f).map .ok := by
      rw [List.map_flatMap]
      exact List.flatMap_congr fun row hrow => (hf row (mem_view.mp hrow)).read
    rw [pendingTransactionsWithSlotStatuses2]
    show ((pendingBlocksWithSlotStatuses2 db).flatMap (rowTxs db)).mapM id = _
    rw [hflat, mapM_id_ok]
  · intro tx htx
    obtain ⟨row, hrow, htx⟩ := List.mem_flatMap.mp htx
    obtain ⟨hslot, hidx, hof⟩ := (hf row (mem_view.mp hrow)).of tx htx
    refine ⟨?_, hof⟩
    rw [PendingTx.id, ← hslot]
    exact (viewRow_block (mem_view.mp hrow) hidx).1
  · intro id s header hash hshown hs hheader hmem
    obtain ⟨s', header', _, _, hrow⟩ := hshown
    obtain ⟨tx, htx, hof⟩ := (hf _ hrow).all id.2 s header hash rfl hs hheader hmem
    obtain ⟨hslot, hidx, _⟩ := (hf _ hrow).of tx htx
    refine ⟨tx, List.mem_flatMap.mpr ⟨_, mem_view.mpr hrow, htx⟩, hof, ?_⟩
    exact Prod.ext hslot.symm (Option.some.inj hidx).symm
  · rw [List.pairwise_flatMap]
    constructor
    · intro row hrow
      exact (hf row (mem_view.mp hrow)).pairwise.imp fun hne heq => hne (congrArg Prod.snd heq)
    · refine List.Pairwise.imp_of_mem ?_ (nodup_recursiveUnion _)
      intro row row' hrow hrow' hne tx htx tx' htx' heq
      obtain ⟨hslot, hidx, _⟩ := (hf row (mem_view.mp hrow)).of tx htx
      obtain ⟨hslot', hidx', _⟩ := (hf row' (mem_view.mp hrow')).of tx' htx'
      have hid : tx.id = tx'.id := congrArg Prod.fst heq
      refine hne (viewRow_unique (mem_view.mp hrow) (mem_view.mp hrow') ?_ hidx ?_)
      · rw [hslot, hslot']
        exact congrArg Prod.fst hid
      · rw [hidx']
        exact congrArg some (congrArg Prod.snd hid).symm

end PgStorage

end RomeSdk
