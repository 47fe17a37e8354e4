import Mathlib.Data.List.Duplicate
import RomeSdk.Proofs.DepositHashes
import RomeSdk.Proofs.Finalization
import RomeSdk.Proofs.Instructions

/-!
# Deposits that stay distinguishable

Before a deposit gets its source hash it can be lost: two of one hash are one
transaction to the parser, and of two hashes executed in one Solana transaction the
parser keeps the one it comes to last. The deposits of a block are all there and distinct
exactly if neither happens and the log indices counted before them differ.
-/

namespace RomeSdk

namespace DefaultTxParser

/-! ## What is kept of a slot -/

/-- The hashes of a slot in the order in which `finalize_slot` comes to them. -/
def hashesAt (p : DefaultTxParser) (slot : Slot) : List TxHash :=
  ((p.resultsBySlot[slot]?).map fun txs => txs.entries.map Sigma.fst).getD []

/-- Executed, and no hash that comes later is executed at the same index. -/
def Kept (p : DefaultTxParser) (slot : Slot) (hash : TxHash) : Prop :=
  ∃ i r, Executed p slot hash i r ∧
    ∀ hash' r', Executed p slot hash' i r' →
      (p.hashesAt slot).idxOf hash' ≤ (p.hashesAt slot).idxOf hash

variable {X : Crates} {p : DefaultTxParser} {slot : Slot}

theorem finalizeTx_builds {hash : TxHash} {l : List (Nat × Option TxResult)}
    {results out : Finalized} (h : finalizeTx X p hash l results = .ok out) {i : Nat} {r : TxResult}
    (hfirst : firstResult l = some (i, r)) :
    (∃ tx, p.record hash = some tx ∧ tx.isDataComplete = true) ∧ ∃ t, Builds X p hash t := by
  induction l with
  | nil => cases hfirst
  | cons e l ih =>
      obtain ⟨k, _ | s⟩ := e
      · exact ih h hfirst
      · rw [finalizeTx] at h
        split at h
        · cases h
        · next tx hrec =>
            split at h
            · next hcomplete =>
                split at h
                · cases h
                · next t hbuild => exact ⟨⟨tx, hrec, hcomplete⟩, t, tx, hrec, hbuild⟩
            · cases h

theorem finalizeTxs_builds (l : List (Sigma fun _ : TxHash => TxResults)) :
    ∀ {results out : Finalized}, finalizeTxs X p l results = .ok out →
      ∀ e ∈ l, ∀ i r, firstResult e.2.toList = some (i, r) →
        (∃ tx, p.record e.1 = some tx ∧ tx.isDataComplete = true) ∧ ∃ t, Builds X p e.1 t := by
  induction l with
  | nil =>
      intro results out _ e he
      cases he
  | cons a l ih =>
      intro results out h e he i r hfirst
      obtain ⟨hash, txResults⟩ := a
      rw [finalizeTxs] at h
      split at h
      · cases h
      · next results' hrun =>
          rcases List.mem_cons.mp he with rfl | he
          · exact finalizeTx_builds hrun hfirst
          · exact ih h e he i r hfirst

/-- A slot that is finalized is complete, and everything executed in it is decoded. -/
theorem finalizeSlot_builds {out : List (Transaction × TxResult)}
    (h : p.finalizeSlot X slot = .ok out) :
    p.isSlotComplete slot = .ok true ∧
      ∀ hash i r, p.resultAt slot hash i = some (some r) → ∃ t, Builds X p hash t := by
  have hboth : ∀ hash i r, p.resultAt slot hash i = some (some r) →
      (∃ tx, p.record hash = some tx ∧ tx.isDataComplete = true) ∧ ∃ t, Builds X p hash t := by
    intro hash i r hr
    rw [resultAt] at hr
    rw [finalizeSlot] at h
    cases hslot : p.resultsBySlot[slot]? with
    | none =>
        rw [hslot] at hr
        cases hr
    | some slotTxs =>
        rw [hslot, Option.bind_some] at hr
        rw [hslot] at h
        cases hlookup : slotTxs.lookup hash with
        | none =>
            rw [hlookup] at hr
            cases hr
        | some results =>
            rw [hlookup, Option.bind_some] at hr
            simp only at h
            split at h
            · cases h
            · next results' hrun =>
                have hin := (HashMap.mem_entries slotTxs hash results).mpr hlookup
                cases hfirst : firstResult results.toList with
                | none =>
                    have hin := (BTreeMap.mem_toList results i _).mpr hr
                    exact absurd hin (firstResult_eq_none.mp hfirst i r)
                | some ir => exact finalizeTxs_builds _ hrun _ hin ir.1 ir.2 hfirst
  exact ⟨isSlotComplete_iff.mpr fun hash i r hr => (hboth hash i r hr).1,
    fun hash i r hr => (hboth hash i r hr).2⟩

/-- The entries of a slot in the order in which they are filed. -/
theorem finalizeSlot_inOrder {out : List (Transaction × TxResult)}
    (h : p.finalizeSlot X slot = .ok out) :
    ∃ entries : List FinalEntry, (entries.map FinalEntry.hash).Sublist (p.hashesAt slot) ∧
      (p.hashesAt slot).Nodup ∧
      (∀ e : FinalEntry, e ∈ entries ↔
        Executed p slot e.hash e.txIdx e.txResult ∧ Builds X p e.hash e.transaction) ∧
      out = (BTreeMap.insertAll ∅ (entries.map FinalEntry.filed)).toList.map Prod.snd := by
  obtain ⟨hcomplete, hdecode⟩ := finalizeSlot_builds h
  rw [finalizeSlot] at h
  rw [hashesAt]
  cases hslot : p.resultsBySlot[slot]? with
  | none =>
      rw [hslot] at h
      cases h
      refine ⟨[], List.nil_sublist _, List.nodup_nil, fun e => ?_, rfl⟩
      refine ⟨fun h => absurd h List.not_mem_nil, fun h => ?_⟩
      have hr := h.1.result
      rw [resultAt, hslot] at hr
      cases hr
  | some slotTxs =>
      obtain ⟨entries, hrun, hkeys, hmem⟩ :=
        finalizeTxs_eq hslot hcomplete hdecode slotTxs.entries (List.Sublist.refl _) ∅
      simp only [hslot, hrun] at h
      cases h
      refine ⟨entries, hkeys, ?_, fun e => ?_, rfl⟩
      · exact List.pairwise_map.mpr (List.nodupKeys_iff_pairwise.mp slotTxs.nodupKeys)
      · rw [hmem]
        exact ⟨And.right, fun h => ⟨executed_mem hslot h.1, h⟩⟩

theorem pairwise_idxOf {α : Type} [DecidableEq α] {l : List α} (h : l.Nodup) :
    l.Pairwise fun a b => l.idxOf a < l.idxOf b := by
  rw [List.pairwise_iff_getElem]
  intro i j hi hj hij
  rwa [h.idxOf_getElem i hi, h.idxOf_getElem j hj]

/-- An entry is the last of its index exactly if its hash is kept. -/
theorem last_entry_iff {entries : List FinalEntry}
    (hkeys : (entries.map FinalEntry.hash).Sublist (p.hashesAt slot))
    (hnodup : (p.hashesAt slot).Nodup)
    (hmem : ∀ e : FinalEntry, e ∈ entries ↔
      Executed p slot e.hash e.txIdx e.txResult ∧ Builds X p e.hash e.transaction)
    (hdecode : ∀ hash i r, p.resultAt slot hash i = some (some r) → ∃ t, Builds X p hash t)
    {e : FinalEntry} (he : e ∈ entries) :
    (∃ before after, entries = before ++ e :: after ∧ ∀ e' ∈ after, e'.txIdx ≠ e.txIdx) ↔
      Kept p slot e.hash := by
  have horder : entries.Pairwise fun e e' =>
      (p.hashesAt slot).idxOf e.hash < (p.hashesAt slot).idxOf e'.hash := by
    have hpairwise := (pairwise_idxOf hnodup).sublist hkeys
    rwa [List.pairwise_map] at hpairwise
  have hexec := ((hmem e).mp he).1
  constructor
  · rintro ⟨before, after, hsplit, hlast⟩
    refine ⟨e.txIdx, e.txResult, hexec, fun hash' r' hexec' => ?_⟩
    obtain ⟨t', hbuilds'⟩ := hdecode hash' _ r' hexec'.result
    have hin : (⟨hash', e.txIdx, t', r'⟩ : FinalEntry) ∈ entries := (hmem _).mpr ⟨hexec', hbuilds'⟩
    rw [hsplit] at hin horder
    rcases List.mem_append.mp hin with hin | hin
    · exact Nat.le_of_lt ((List.pairwise_append.mp horder).2.2 _ hin e (List.mem_cons_self ..))
    · rcases List.mem_cons.mp hin with heq | hin
      · exact Nat.le_of_eq (by rw [← heq])
      · exact absurd rfl (hlast ⟨hash', e.txIdx, t', r'⟩ hin)
  · rintro ⟨i, r, hexec', hlater⟩
    obtain ⟨rfl, rfl⟩ := hexec.unique hexec'
    obtain ⟨before, after, hsplit⟩ := List.append_of_mem he
    refine ⟨before, after, hsplit, fun e' he' hidx => ?_⟩
    have hin' : e' ∈ entries := hsplit ▸ List.mem_append_right _ (List.mem_cons_of_mem _ he')
    have hle := hlater e'.hash e'.txResult (hidx ▸ ((hmem e').mp hin').1)
    rw [hsplit] at horder
    have hlt := (List.pairwise_cons.mp (List.pairwise_append.mp horder).2.1).1 e' he'
    omega

/-- What is returned of a slot, up to its order: one entry for each hash that is kept. -/
theorem finalizeSlot_kept {out : List (Transaction × TxResult)} (h : p.finalizeSlot X slot = .ok out) :
    ∃ kept : List FinalEntry, (kept.map FinalEntry.hash).Nodup ∧
      (∀ e : FinalEntry, e ∈ kept ↔ Kept p slot e.hash ∧
        Executed p slot e.hash e.txIdx e.txResult ∧ Builds X p e.hash e.transaction) ∧
      out.Perm (kept.map fun e => (e.transaction, e.txResult)) := by
  classical
  obtain ⟨entries, hkeys, hnodup, hmem, rfl⟩ := finalizeSlot_inOrder h
  have hdecode := (finalizeSlot_builds h).2
  have hhashes : (entries.map FinalEntry.hash).Nodup := hnodup.sublist hkeys
  let kept := entries.filter fun e => decide (Kept p slot e.hash)
  have hkept : ∀ e, e ∈ kept ↔ e ∈ entries ∧ Kept p slot e.hash := by
    intro e
    rw [List.mem_filter, decide_eq_true_eq]
  have hsub : kept.Sublist entries := List.filter_sublist
  refine ⟨kept, hhashes.sublist (hsub.map _), fun e => ?_, ?_⟩
  · rw [hkept, hmem, and_comm]
  have hindices : (kept.map FinalEntry.filed).Nodup := by
    -- two kept hashes of one index would each come after the other
    refine (List.nodup_map_iff_inj_on ((List.Nodup.of_map _ hhashes).sublist hsub)).mpr ?_
    intro e he e' he' hsame
    obtain ⟨hin, i, r, hexec, hlater⟩ := (hkept e).mp he
    obtain ⟨hin', i', r', hexec', hlater'⟩ := (hkept e').mp he'
    obtain ⟨hi, _⟩ := ((hmem e).mp hin).1.unique hexec
    obtain ⟨hi', _⟩ := ((hmem e').mp hin').1.unique hexec'
    have hidx : i = i' := by rw [← hi, ← hi']; exact congrArg Prod.fst hsame
    subst hidx
    have hle := hlater e'.hash r' hexec'
    have hle' := hlater' e.hash r hexec
    have hat : e.hash ∈ p.hashesAt slot := hkeys.subset (List.mem_map_of_mem hin)
    have hhash : e.hash = e'.hash := (List.idxOf_inj hat).mp (Nat.le_antisymm hle' hle)
    exact List.inj_on_of_nodup_map hhashes hin hin' hhash
  have hperm : (BTreeMap.insertAll ∅ (entries.map FinalEntry.filed)).toList.Perm
      (kept.map FinalEntry.filed) := by
    rw [List.perm_ext_iff_of_nodup (List.Nodup.of_map _ (BTreeMap.keys_nodup _)) hindices]
    rintro ⟨k, t, r⟩
    rw [BTreeMap.mem_toList, BTreeMap.get?_insertAll_last]
    constructor
    · rintro (⟨before, after, hsplit, hafter⟩ | ⟨_, hnone⟩)
      · obtain ⟨before', rest, hentries, _, hrest⟩ := List.map_eq_append_iff.mp hsplit
        obtain ⟨e, after', rfl, he, rfl⟩ := List.map_eq_cons_iff.mp hrest
        have hin : e ∈ entries := hentries ▸ List.mem_append_right _ (List.mem_cons_self ..)
        refine List.mem_map.mpr ⟨e, (hkept e).mpr ⟨hin, ?_⟩, he⟩
        refine (last_entry_iff hkeys hnodup hmem hdecode hin).mp
          ⟨before', after', hentries, fun e' he' hidx => hafter ?_⟩
        have hk : e.txIdx = k := congrArg Prod.fst he
        rw [← hk, ← hidx]
        exact List.mem_map_of_mem (f := Prod.fst) (List.mem_map_of_mem (f := FinalEntry.filed) he')
      · rw [Std.ExtTreeMap.getElem?_empty] at hnone
        cases hnone
    · intro hfiled
      obtain ⟨e, he, hfile⟩ := List.mem_map.mp hfiled
      obtain ⟨hin, hlast⟩ := (hkept e).mp he
      obtain ⟨before, after, hsplit, hafter⟩ :=
        (last_entry_iff hkeys hnodup hmem hdecode hin).mpr hlast
      refine Or.inl ⟨before.map FinalEntry.filed, after.map FinalEntry.filed, ?_, ?_⟩
      · rw [hsplit, List.map_append, List.map_cons, hfile]
      · intro hk
        obtain ⟨x, hx, hkx⟩ := List.mem_map.mp hk
        obtain ⟨e', he', rfl⟩ := List.mem_map.mp hx
        exact hafter e' he' (hkx.trans (congrArg Prod.fst hfile).symm)
  have houter := hperm.map Prod.snd
  rwa [List.map_map] at houter

/-- Transactions have places of their own among the finalized ones exactly if they are
built under hashes of their own that are kept. -/
theorem subperm_finalized_iff {out : List (Transaction × TxResult)}
    (h : p.finalizeSlot X slot = .ok out) (l : List Transaction) :
    l.Subperm (out.map Prod.fst) ↔ ∃ hashes : List TxHash, hashes.Nodup ∧
      List.Forall₂ (fun t hash => Builds X p hash t ∧ Kept p slot hash) l hashes := by
  obtain ⟨kept, hnodup, hmem, hperm⟩ := finalizeSlot_kept h
  have houter : (out.map Prod.fst).Perm (kept.map FinalEntry.transaction) := by
    have hmap := hperm.map Prod.fst
    rwa [List.map_map] at hmap
  rw [houter.subperm_left]
  constructor
  · rintro ⟨l', hl', hsub⟩
    obtain ⟨kept', hkept', rfl⟩ := List.sublist_map_iff.mp hsub
    have hof : List.Forall₂ (fun t e => FinalEntry.transaction e = t)
        (kept'.map FinalEntry.transaction) kept' := by
      rw [List.forall₂_map_left_iff]
      exact List.forall₂_same.mpr fun e _ => rfl
    obtain ⟨kept'', hpairs, hkept''⟩ := List.perm_comp_forall₂ hl'.symm hof
    refine ⟨kept''.map FinalEntry.hash, ?_, ?_⟩
    · exact (hkept''.map FinalEntry.hash).nodup_iff.mpr (hnodup.sublist (hkept'.map _))
    · have hl : List.Forall₂ (fun t t' => t = t') l (kept''.map FinalEntry.transaction) :=
        List.forall₂_map_right_iff.mpr (hpairs.imp fun _ _ heq => heq.symm)
      rw [List.forall₂_eq_eq_eq] at hl
      subst hl
      rw [List.forall₂_map_left_iff, List.forall₂_map_right_iff, List.forall₂_same]
      intro e he
      obtain ⟨hkept, _, hbuilds⟩ := (hmem e).mp (hkept'.subset (hkept''.subset he))
      exact ⟨hbuilds, hkept⟩
  · rintro ⟨hashes, hhashes, hpairs⟩
    have hentries : ∃ kept' : List FinalEntry, kept'.map FinalEntry.hash = hashes ∧
        kept'.map FinalEntry.transaction = l ∧ kept' ⊆ kept := by
      clear hhashes
      induction hpairs with
      | nil => exact ⟨[], rfl, rfl, List.nil_subset _⟩
      | @cons t hash l hashes hhead _ ih =>
          obtain ⟨kept', rfl, rfl, hsub⟩ := ih
          obtain ⟨hbuilds, hkept⟩ := hhead
          obtain ⟨i, r, hexec, _⟩ := id hkept
          refine ⟨⟨hash, i, t, r⟩ :: kept', rfl, rfl, List.cons_subset.mpr ⟨?_, hsub⟩⟩
          exact (hmem ⟨hash, i, t, r⟩).mpr ⟨hkept, hexec, hbuilds⟩
    obtain ⟨kept', rfl, rfl, hsub⟩ := hentries
    obtain ⟨kept'', hperm', hsub'⟩ := List.subperm_of_subset (List.Nodup.of_map _ hhashes) hsub
    exact ⟨_, hperm'.map _, hsub'.map _⟩

end DefaultTxParser

open DefaultTxParser EthBlocksState

/-! ## The deposits of a block -/

/-- The transactions of the successful Deposit instructions for a chain. -/
def depositsOf (X : Crates) (programId : Pubkey) (chainId : Nat) (block : UiConfirmedBlock) :
    List Transaction :=
  block.visits.filterMap fun v =>
    match v.reading X programId with
    | .ok (some (c, .deposit tx)) => if c = chainId then some tx else none
    | _ => none

/-- Every deposit has a place of its own among the finalized transactions, and after the
update the user deposits have distinct source hashes and distinct hashes. -/
structure DepositsDistinct (deposits : List Transaction)
    (finalized updated : List (Transaction × TxResult)) : Prop where
  user : ∀ d ∈ deposits, IsUserDeposit d
  placed : deposits.Subperm (finalized.map Prod.fst)
  sources : DepositsDiffer updated Transaction.sourceHash
  hashes : DepositsDiffer updated Transaction.hash

/-- Every deposit is a user deposit, and the parser holds the deposits under distinct
hashes that are kept. -/
structure DepositsHeld (X : Crates) (p : DefaultTxParser) (slot : Slot)
    (deposits : List Transaction) : Prop where
  user : ∀ d ∈ deposits, IsUserDeposit d
  held : ∃ hashes : List TxHash, hashes.Nodup ∧
    List.Forall₂ (fun d hash => Builds X p hash d ∧ Kept p slot hash) deposits hashes

variable {X : Crates}

/-- The L1 attributes transaction is a system transaction, as written. -/
def Ethers.KeepsSystem (E : Ethers) : Prop :=
  ∀ d t, E.decode (E.depositRlp d) = .ok t → t.isSystemTx = d.isSystemTx

theorem createL1AttributesTx_system (hX : X.ethers.KeepsSystem) {slot : Slot} {blockhash : H256}
    {time : U256} {e : Transaction × TxResult}
    (h : createL1AttributesTx X slot blockhash time = .ok e) : ¬ IsUserDeposit e.1 := by
  rw [createL1AttributesTx] at h
  split at h
  · next t hdecode =>
      cases h
      intro hdeposit
      have hsystem := hX _ _ hdecode
      rw [hdeposit.2] at hsystem
      cases hsystem
  · cases h

/-- The transactions of a slot are the finalized ones, perhaps after the L1 attributes. -/
theorem parseTransactions_eq {slot : Slot} {blockhash : H256} {time : U256}
    {enableDepositsSlot : Option Slot} {p : DefaultTxParser} {l : List (Transaction × TxResult)}
    (h : BlockParseResult.parseTransactions X slot blockhash time enableDepositsSlot p = .ok l) :
    ∃ out, p.finalizeSlot X slot = .ok out ∧
      (l = out ∨ ∃ e, l = e :: out ∧ createL1AttributesTx X slot blockhash time = .ok e) := by
  obtain ⟨out, hout, h⟩ := Except.ok_of_bind h
  refine ⟨out, ?_, ?_⟩
  · cases hfinal : p.finalizeSlot X slot with
    | ok out' =>
        rw [hfinal] at hout
        cases hout
        rfl
    | error e =>
        rw [hfinal] at hout
        cases hout
  · cases enableDepositsSlot with
    | none =>
        cases h
        exact Or.inl rfl
    | some s =>
        simp only at h
        split at h
        · obtain ⟨e, he, h⟩ := Except.ok_of_bind h
          cases h
          exact Or.inr ⟨e, rfl, he⟩
        · cases h
          exact Or.inl rfl

/-- What a parse result is made of. -/
theorem blockParseResult_new {block : UiConfirmedBlock} {slot : Slot} {p : DefaultTxParser}
    {mode : BlockParseMode} {enableDepositsSlot : Option Slot} {result : BlockParseResult}
    (h : BlockParseResult.new X slot block p mode enableDepositsSlot = .ok result) :
    ∃ time l blocks, block.blockTime.map U256.fromTimestamp = some (.ok time) ∧
      BlockParseResult.parseTransactions X slot result.solanaBlockhash time enableDepositsSlot p
        = .ok l ∧
      createEthBlocks X result.solanaBlockhash block.blockTime l mode
        = .ok (blocks, result.transactions) := by
  obtain ⟨blockhash, _, h⟩ := Except.ok_of_bind h
  obtain ⟨parentBlockhash, _, h⟩ := Except.ok_of_bind h
  cases hblock : block.blockTime with
  | none =>
      rw [hblock] at h
      cases h
  | some t =>
      rw [hblock] at h
      obtain ⟨time, htime, h⟩ := Except.ok_of_bind h
      obtain ⟨l, hl, h⟩ := Except.ok_of_bind h
      obtain ⟨⟨blocks, transactions⟩, hcreate, h⟩ := Except.ok_of_bind h
      cases h
      exact ⟨time, l, blocks, congrArg some htime, hl, hcreate⟩

/-- A transaction in front that is not among these leaves their places alone. -/
theorem subperm_cons_iff {l l' : List Transaction} {t : Transaction} (h : t ∉ l) :
    l.Subperm (t :: l') ↔ l.Subperm l' := by
  rw [List.subperm_ext_iff, List.subperm_ext_iff]
  refine forall_congr' fun x => forall_congr' fun hx => ?_
  have hne : t ≠ x := fun heq => h (heq ▸ hx)
  rw [List.count_cons_of_ne hne]

def decodedDeposit (b : Bytes) : Transaction :=
  { bareTx (digest b) with
    transactionType := some depositTxType
    isSystemTx := decide (b = [0]) }

/-- Crates whose Deposit instructions are for chain 0, and to which a deposit's hash is its
source hash. -/
def depositStandIns : Crates := { standIns with
  ethers := { standIns.ethers with
    decode := fun b => .ok (decodedDeposit b)
    depositRlp := fun d => [if d.isSystemTx then 0 else 1]
    hash := fun tx => tx.sourceHash }
  romeEvm := { standIns.romeEvm with depositArgs := fun rlp => .ok (0, rlp) } }

theorem depositStandIns_keepsSystem : depositStandIns.ethers.KeepsSystem := by
  intro d t h
  cases h
  cases hsystem : d.isSystemTx <;> simp [depositStandIns, decodedDeposit, hsystem]

theorem depositStandIns_sourcesTold (blockhash : H256) : SourcesTold depositStandIns blockhash where
  part i j h := by
    have hsame : digest _ = digest _ := h
    rwa [digest_append, digest_append] at hsame
  whole a b h := by
    have hsame : digest _ = digest _ := h
    rwa [digest_append, digest_append] at hsame
  hash _ _ _ _ h := h

def depositBlock (rlps : List Bytes) : UiConfirmedBlock where
  previousBlockhash := "00000000000000000000000000000000"
  blockhash := "00000000000000000000000000000001"
  parentSlot := 4
  transactions := some (rlps.map fun rlp => (some ⟨[[]], [7], [⟨0, 5 :: rlp⟩]⟩, some ⟨none, none⟩))
  blockTime := some 0

/-- The parser after the block, in slot 5. -/
def afterDeposits (rlps : List Bytes) : DefaultTxParser :=
  (DefaultTxParser.new.registerSlotTransactions 5
    (parseSolanaBlock depositStandIns (depositBlock rlps) 7 0).1).1

def parsedDeposits (rlps : List Bytes) : Outcome BlockParseResult :=
  BlockParseResult.new depositStandIns 5 (depositBlock rlps) (afterDeposits rlps) .engineApi none

end RomeSdk
