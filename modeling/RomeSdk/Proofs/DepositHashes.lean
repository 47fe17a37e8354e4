import RomeSdk.Proofs.DepositIndex

/-!
# The source hashes of deposits

A user deposit gets its source hash from the log index counted before it, and with it
its hash. What is counted is a sum over the transactions before (`logsCounted`), to
which deposits add nothing, as they have no logs: two of them one after the other get the
same source hash.
-/

namespace RomeSdk

open EthBlocksState

/-- A deposit transaction that is not the L1 attributes one. -/
def IsUserDeposit (tx : Transaction) : Prop :=
  tx.transactionType = some depositTxType ∧ tx.isSystemTx = false

instance (tx : Transaction) : Decidable (IsUserDeposit tx) := inferInstanceAs (Decidable (_ ∧ _))

/-- What is assumed of the hashes: the digest keeps apart what a source hash is made
of, and a deposit's hash says its source hash. -/
structure SourcesTold (X : Crates) (blockhash : H256) : Prop where
  part : ∀ i j : U256, X.ethers.keccak256 (beBytes 32 blockhash.toNat ++ beBytes 32 i.toNat)
    = X.ethers.keccak256 (beBytes 32 blockhash.toNat ++ beBytes 32 j.toNat) → i = j
  whole : ∀ a b : H256, X.ethers.keccak256 (beBytes 32 0 ++ beBytes 32 a.toNat)
    = X.ethers.keccak256 (beBytes 32 0 ++ beBytes 32 b.toNat) → a = b
  hash : ∀ t t', IsUserDeposit t → IsUserDeposit t' → X.ethers.hash t = X.ethers.hash t' →
    t.sourceHash = t'.sourceHash

/-! ## The source hashes -/

/-- The logs counted before a transaction, by the transactions before it. -/
def logsCounted (mode : BlockParseMode) (l : List (Transaction × TxResult)) : Nat :=
  match mode with
  | .singleState => logSum l
  | .engineApi =>
      logSum (loggedOf (runs recipientOf l).dropLast ((runs recipientOf l).getLast?.getD []))

/-- No two user deposits agree in this. -/
def DepositsDiffer {α : Type} (l : List (Transaction × TxResult)) (f : Transaction → α) : Prop :=
  l.Pairwise fun e e' => IsUserDeposit e.1 → IsUserDeposit e'.1 → f e.1 ≠ f e'.1

instance {α : Type} [DecidableEq α] (l : List (Transaction × TxResult)) (f : Transaction → α) :
    Decidable (DepositsDiffer l f) := inferInstanceAs (Decidable (List.Pairwise _ _))

/-- The logs counted before any two user deposits differ. -/
def CountsDiffer (mode : BlockParseMode) (l : List (Transaction × TxResult)) : Prop :=
  ∀ (j k : Nat) e e', j < k → l[j]? = some e → l[k]? = some e' →
    IsUserDeposit e.1 → IsUserDeposit e'.1 →
    logsCounted mode (l.take j) ≠ logsCounted mode (l.take k)

variable {X : Crates} {blockhash : H256} {timestamp : Option Int} {mode : BlockParseMode}

theorem createUserDepositSourceHash_inj (hX : SourcesTold X blockhash) {i j : U256}
    (h : createUserDepositSourceHash X blockhash i = createUserDepositSourceHash X blockhash j) :
    i = j := hX.part i j (hX.whole _ _ h)

theorem isUserDeposit_updateIfUserDepositedTx (tx : Transaction) (index : U256) :
    IsUserDeposit (updateIfUserDepositedTx X tx blockhash index) ↔ IsUserDeposit tx := by
  rw [updateIfUserDepositedTx]
  split <;> exact Iff.rfl

theorem updateIfUserDepositedTx_deposit {tx : Transaction} (h : IsUserDeposit tx) (index : U256) :
    (updateIfUserDepositedTx X tx blockhash index).sourceHash
        = createUserDepositSourceHash X blockhash index ∧
      (updateIfUserDepositedTx X tx blockhash index).hash
        = X.ethers.hash { tx with sourceHash := createUserDepositSourceHash X blockhash index } := by
  have hnot : ¬ (tx.transactionType ≠ some depositTxType ∨ tx.isSystemTx = true) := by
    rintro (htype | hsystem)
    · exact htype h.1
    · rw [h.2] at hsystem
      cases hsystem
  rw [updateIfUserDepositedTx, if_neg hnot]
  exact ⟨rfl, rfl⟩

theorem logsCounted_congr {l l' : List (Transaction × TxResult)}
    (h : l.map Prod.snd = l'.map Prod.snd) : logsCounted mode l = logsCounted mode l' := by
  cases mode with
  | singleState => exact logSum_congr h
  | engineApi =>
      have hruns := runs_results h.symm
      refine logSum_loggedOf_congr ?_ ?_
      · rw [List.map_dropLast, List.map_dropLast, hruns]
      · have hlast := congrArg List.getLast? hruns
        rw [List.getLast?_map, List.getLast?_map] at hlast
        cases hl : (runs recipientOf l).getLast? with
        | none =>
            rw [hl, Option.map_none, eq_comm, Option.map_eq_none_iff] at hlast
            rw [hlast]
        | some opened =>
            rw [hl, Option.map_some, eq_comm, Option.map_eq_some_iff] at hlast
            obtain ⟨opened', hl', heq⟩ := hlast
            rw [hl']
            exact heq.symm

theorem foldlM_singleState_logIndex {l : List (Transaction × TxResult)} {st : EthBlocksState}
    (hfits : FitsVec l)
    (hst : l.foldlM (EthBlocksState.add X blockhash timestamp .singleState) start = .ok st) :
    st.blockLogIndex.toNat = logSum l := by
  have hrun := foldlM_invariant (f := EthBlocksState.add X blockhash timestamp .singleState)
    (P := fun done st => (∀ e ∈ done, e.2.logs.length ≤ isizeMax) →
      st.blockLogIndex.toNat = logSum done)
    (fun done e s s' hs hadd hlogs => ?_) (fun _ => rfl) hst
  · exact hrun hfits.logs
  · obtain ⟨index, hindex, hadds⟩ := add_ok hadd
    have hindex' := (U256.checkedAdd_ok hindex).2
    rw [logs_toNat (hlogs e (by simp)), hs fun e' he' => hlogs e' (List.mem_append_left _ he')]
      at hindex'
    rw [logSum_append, logSum_singleton]
    cases hadds with
    | joined => exact hindex'
    | opened hmode | closed hmode => cases hmode

/-- The log index after a first part of the transactions. -/
theorem blockLogIndex_eq {l : List (Transaction × TxResult)} {st : EthBlocksState}
    (hfits : FitsVec l)
    (hst : l.foldlM (EthBlocksState.add X blockhash timestamp mode) start = .ok st) :
    st.blockLogIndex.toNat = logsCounted mode l := by
  cases mode with
  | singleState => exact foldlM_singleState_logIndex hfits hst
  | engineApi =>
      rw [← logsCounted_congr (foldlM_counted hfits hst).results]
      rcases foldlM_grouped hfits hst with ⟨_, rfl⟩ | ⟨closed, opened, hgrouped⟩
      · rfl
      · rw [logsCounted, hgrouped.runs, List.dropLast_concat, List.getLast?_concat]
        exact hgrouped.logIndex

/-- The transaction at a position, as the loop leaves it. -/
theorem updated_at {l : List (Transaction × TxResult)} {st : EthBlocksState} (hfits : FitsVec l)
    (hst : l.foldlM (EthBlocksState.add X blockhash timestamp mode) start = .ok st) {k : Nat}
    {e : Transaction × TxResult} (he : l[k]? = some e) :
    ∃ index : U256, index.toNat = logsCounted mode (l.take k) ∧
      st.transactions[k]? = some (updateIfUserDepositedTx X e.1 blockhash index, e.2) := by
  obtain ⟨hk, hget⟩ := List.getElem?_eq_some_iff.mp he
  obtain ⟨s, hs, htake⟩ := foldlM_take hfits hst (Nat.le_of_lt hk)
  obtain ⟨s', hs', htake'⟩ := foldlM_take hfits hst (show k + 1 ≤ l.length from hk)
  have hlength : s.transactions.length = k := by
    rw [← (foldlM_counted (hfits.take k) hs).updated.length_eq, List.length_take,
      min_eq_left (Nat.le_of_lt hk)]
  rw [List.take_succ_eq_append_getElem hk, hget, List.foldlM_append, hs] at hs'
  obtain ⟨_, hsame, hs'⟩ := Except.ok_of_bind hs'
  cases hsame
  rw [List.foldlM_cons] at hs'
  obtain ⟨s'', hadd, hnil⟩ := Except.ok_of_bind hs'
  cases hnil
  obtain ⟨index, _, hadds⟩ := add_ok hadd
  refine ⟨s.blockLogIndex, blockLogIndex_eq (hfits.take k) hs, ?_⟩
  have hstep := hadds.transactions
  rw [htake'] at hstep
  rw [← List.getElem?_take_of_lt (Nat.lt_succ_self k), hstep, List.getElem?_append_right (by omega),
    hlength, Nat.sub_self]
  rfl

/-- The source hashes differ exactly if the counts do. -/
theorem sources_differ_iff (hX : SourcesTold X blockhash) {l : List (Transaction × TxResult)}
    {st : EthBlocksState} (hfits : FitsVec l)
    (hst : l.foldlM (EthBlocksState.add X blockhash timestamp mode) start = .ok st) :
    DepositsDiffer st.transactions Transaction.sourceHash ↔ CountsDiffer mode l := by
  have hlength := (foldlM_counted hfits hst).updated.length_eq
  rw [DepositsDiffer, List.pairwise_iff_getElem]
  constructor
  · intro hdiffer j k e e' hjk he he' hdeposit hdeposit' hcount
    obtain ⟨index, hindex, hat⟩ := updated_at hfits hst he
    obtain ⟨index', hindex', hat'⟩ := updated_at hfits hst he'
    obtain ⟨hj, hget⟩ := List.getElem?_eq_some_iff.mp hat
    obtain ⟨hk, hget'⟩ := List.getElem?_eq_some_iff.mp hat'
    have hne := hdiffer j k hj hk hjk
    rw [hget, hget', isUserDeposit_updateIfUserDepositedTx,
      isUserDeposit_updateIfUserDepositedTx] at hne
    refine hne hdeposit hdeposit' ?_
    rw [(updateIfUserDepositedTx_deposit hdeposit index).1,
      (updateIfUserDepositedTx_deposit hdeposit' index').1,
      BitVec.eq_of_toNat_eq (hindex.trans (hcount.trans hindex'.symm))]
  · intro hcounts j k hj hk hjk hdeposit hdeposit' hsource
    have hj' : j < l.length := hlength ▸ hj
    have hk' : k < l.length := hlength ▸ hk
    obtain ⟨index, hindex, hat⟩ := updated_at hfits hst (List.getElem?_eq_getElem hj')
    obtain ⟨index', hindex', hat'⟩ := updated_at hfits hst (List.getElem?_eq_getElem hk')
    have hget := Option.some.inj ((List.getElem?_eq_getElem hj).symm.trans hat)
    have hget' := Option.some.inj ((List.getElem?_eq_getElem hk).symm.trans hat')
    rw [hget, isUserDeposit_updateIfUserDepositedTx] at hdeposit
    rw [hget', isUserDeposit_updateIfUserDepositedTx] at hdeposit'
    rw [hget, hget', (updateIfUserDepositedTx_deposit hdeposit index).1,
      (updateIfUserDepositedTx_deposit hdeposit' index').1] at hsource
    have hsame := createUserDepositSourceHash_inj hX hsource
    refine hcounts j k _ _ hjk (List.getElem?_eq_getElem hj') (List.getElem?_eq_getElem hk')
      hdeposit hdeposit' ?_
    rw [← hindex, ← hindex', hsame]

theorem deposit_hash {l : List (Transaction × TxResult)} {st : EthBlocksState} (hfits : FitsVec l)
    (hst : l.foldlM (EthBlocksState.add X blockhash timestamp mode) start = .ok st)
    {e : Transaction × TxResult} (he : e ∈ st.transactions) (hdeposit : IsUserDeposit e.1) :
    ∃ t, IsUserDeposit t ∧ e.1.sourceHash = t.sourceHash ∧ e.1.hash = X.ethers.hash t := by
  obtain ⟨k, hk, rfl⟩ := List.getElem_of_mem he
  have hk' : k < l.length := (foldlM_counted hfits hst).updated.length_eq ▸ hk
  obtain ⟨index, _, hat⟩ := updated_at hfits hst (List.getElem?_eq_getElem hk')
  rw [Option.some.inj ((List.getElem?_eq_getElem hk).symm.trans hat)] at hdeposit ⊢
  rw [isUserDeposit_updateIfUserDepositedTx] at hdeposit
  obtain ⟨hsource, hhash⟩ := updateIfUserDepositedTx_deposit hdeposit index
  exact ⟨{ l[k].1 with sourceHash := createUserDepositSourceHash X blockhash index }, hdeposit,
    hsource, hhash⟩

/-- Deposits of different source hashes have different hashes. -/
theorem hashes_differ (hX : SourcesTold X blockhash) {l : List (Transaction × TxResult)}
    {st : EthBlocksState} (hfits : FitsVec l)
    (hst : l.foldlM (EthBlocksState.add X blockhash timestamp mode) start = .ok st)
    (h : DepositsDiffer st.transactions Transaction.sourceHash) :
    DepositsDiffer st.transactions Transaction.hash := by
  refine h.imp_of_mem fun {e e'} he he' hsource hdeposit hdeposit' hsame => ?_
  obtain ⟨t, ht, hts, hth⟩ := deposit_hash hfits hst he hdeposit
  obtain ⟨t', ht', hts', hth'⟩ := deposit_hash hfits hst he' hdeposit'
  refine hsource hdeposit hdeposit' ?_
  rw [hts, hts']
  exact hX.hash t t' ht ht' (hth.symm.trans (hsame.trans hth'))

end RomeSdk
