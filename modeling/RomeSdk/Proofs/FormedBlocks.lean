import RomeSdk.Proofs.DepositHashes

/-!
# The blocks that are formed

What `create_eth_blocks` returns, by its arguments: the transactions with the hashes it gives
to the deposits among them (`rehashed`), cut into the groups its blocks hold (`blockGroups`),
each with the sum of its gas. Nothing but a user deposit gets a new hash.
-/

namespace RomeSdk

open EthBlocksState

/-- The transactions with the hashes they have in the blocks. -/
def rehashed (X : Crates) (blockhash : H256) (mode : BlockParseMode)
    (given : List (Transaction × TxResult)) : List (Transaction × TxResult) :=
  given.zipIdx.map fun e =>
    (updateIfUserDepositedTx X e.1.1 blockhash
      (BitVec.ofNat 256 (logsCounted mode (given.take e.2))), e.1.2)

/-- The transactions of each block. -/
def blockGroups (mode : BlockParseMode) (l : List (Transaction × TxResult)) :
    List (List (Transaction × TxResult)) :=
  match mode with
  | .engineApi => runs recipientOf l
  | .singleState => if l.isEmpty then [] else [l]

/-- A block of some transactions. -/
structure EthBlock.Sums (block : EthBlock) (group : List (Transaction × TxResult)) : Prop where
  transactions : block.transactions = hashesOf group
  gas : block.blockGasUsed.toNat = gasSum group

variable {X : Crates} {blockhash : H256} {timestamp : Option Int} {mode : BlockParseMode}
  {given updated : List (Transaction × TxResult)} {blocks : List EthBlock}

theorem updated_eq (hfits : FitsVec given)
    (h : createEthBlocks X blockhash timestamp given mode = .ok (blocks, updated)) :
    updated = rehashed X blockhash mode given := by
  obtain ⟨st, hst, h⟩ := Except.ok_of_bind h
  cases h
  have hlength := (foldlM_counted hfits hst).updated.length_eq
  refine List.ext_getElem? fun k => ?_
  rw [rehashed, List.getElem?_map, List.getElem?_zipIdx]
  cases hk : given[k]? with
  | none =>
      rw [List.getElem?_eq_none_iff] at hk
      exact List.getElem?_eq_none (hlength ▸ hk)
  | some e =>
      obtain ⟨index, hindex, hat⟩ := updated_at hfits hst hk
      have hindex : index = BitVec.ofNat 256 (logsCounted mode (given.take k)) := by
        rw [← hindex, BitVec.ofNat_toNat, BitVec.setWidth_eq]
      rw [hat, hindex, Option.map_some, Option.map_some, Nat.zero_add]

theorem map_snd_rehashed (given : List (Transaction × TxResult)) :
    (rehashed X blockhash mode given).map Prod.snd = given.map Prod.snd := by
  rw [rehashed, List.map_map]
  conv_rhs => rw [← List.zipIdx_map_fst 0 given, List.map_map]
  rfl

/-- Only user deposits get new hashes. -/
theorem rehashed_of_no_deposits (h : ∀ e ∈ given, ¬ IsUserDeposit e.1) :
    rehashed X blockhash mode given = given := by
  conv_rhs => rw [← List.zipIdx_map_fst 0 given]
  refine List.map_congr_left fun e he => ?_
  have hmem : e.1 ∈ given := by
    rw [← List.zipIdx_map_fst 0 given]
    exact List.mem_map_of_mem he
  rw [updateIfUserDepositedTx, if_pos]
  by_contra hneither
  rw [not_or, not_not, Bool.not_eq_true] at hneither
  exact h e.1 hmem hneither

theorem createEthBlocks_sums (hfits : FitsVec given)
    (h : createEthBlocks X blockhash timestamp given mode = .ok (blocks, updated)) :
    List.Forall₂ EthBlock.Sums blocks (blockGroups mode updated) := by
  cases mode with
  | engineApi =>
      exact (createEthBlocks_eq hfits h).2.imp fun _ _ hholds => ⟨hholds.transactions, hholds.gas⟩
  | singleState =>
      obtain ⟨hupdated, hnil, hone⟩ := createEthBlocks_singleState hfits h
      rw [blockGroups]
      by_cases hempty : given = []
      · rw [hnil hempty]
        rw [hempty] at hupdated
        cases hupdated
        exact .nil
      · obtain ⟨block, rfl, htxs, hgas⟩ := hone hempty
        have hfilled : updated.isEmpty = false := by
          rw [List.isEmpty_eq_false_iff]
          intro hnil'
          rw [hnil'] at hupdated
          cases hupdated
          exact hempty rfl
        rw [hfilled]
        refine .cons ⟨htxs, hgas.trans (gasSum_congr ?_)⟩ .nil
        rw [updated_eq hfits h, map_snd_rehashed]

theorem flatten_blockGroups (l : List (Transaction × TxResult)) :
    (blockGroups mode l).flatten = l := by
  cases mode with
  | engineApi => exact flatten_runs recipientOf l
  | singleState =>
      rw [blockGroups]
      split
      · next hempty => exact (List.isEmpty_iff.mp hempty).symm
      · exact List.flatten_singleton

theorem sublist_of_mem_blockGroups {l group : List (Transaction × TxResult)}
    (h : group ∈ blockGroups mode l) : group.Sublist l := by
  have hsublist := List.sublist_flatten_of_mem h
  rwa [flatten_blockGroups] at hsublist

theorem gasSum_congr_gas {l l' : List (Transaction × TxResult)}
    (h : l.map (fun e => e.2.gasReport.gasValue) = l'.map fun e => e.2.gasReport.gasValue) (k : Nat) :
    gasSum (l.take k) = gasSum (l'.take k) := by
  have hsum : ∀ l : List (Transaction × TxResult), gasSum (l.take k)
      = (((l.map fun e => e.2.gasReport.gasValue).take k).map BitVec.toNat).sum := by
    intro l
    rw [← List.map_take, List.map_map]
    rfl
  rw [hsum, hsum, h]

theorem gasSum_take_succ {l : List (Transaction × TxResult)} {i : Nat} {e : Transaction × TxResult}
    (h : l[i]? = some e) : gasSum (l.take (i + 1))
      = gasSum (l.take i) + e.2.gasReport.gasValue.toNat := by
  rw [List.take_add_one, h, Option.toList_some, gasSum_append, gasSum_singleton]

theorem gasSum_take_le (l : List (Transaction × TxResult)) (i : Nat) :
    gasSum (l.take i) ≤ gasSum l := by
  conv_rhs => rw [← List.take_append_drop i l, gasSum_append]
  exact Nat.le_add_right _ _

end RomeSdk
