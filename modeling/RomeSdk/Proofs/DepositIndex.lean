import RomeSdk.Proofs.EthBlocks

/-!
# The log index of a deposit and of its receipt

The source hash of a deposit is made of the log index `create_eth_blocks` has counted to
when it comes to the deposit; the receipt of the deposit starts at the log index
`blocks_produced` has counted to within its block. The first is set to zero one
transaction late: the first transaction of a block is still given the count of the block
before, and its own logs are lost to the count of its block. The two agree exactly if
these transactions have no logs.
-/

namespace RomeSdk

open EthBlocksState TransactionStorage

variable {X : Crates} {blockhash : H256} {timestamp : Option Int} {mode : BlockParseMode}

/-- What `create_eth_blocks` passes to `update_if_user_deposited_tx` for the transaction
at a position of its list. -/
def passedIndex (X : Crates) (blockhash : H256) (timestamp : Option Int)
    (transactions : List (Transaction × TxResult)) (position : Nat) : Outcome U256 := do
  let st ← (transactions.take position).foldlM
    (EthBlocksState.add X blockhash timestamp .engineApi) .start
  pure st.blockLogIndex

/-- How many transactions are placed in these blocks. -/
def placedIn (blocks : List EthBlock) : Nat := (blocks.flatMap EthBlock.transactions).length

/-- For every block, whatever its parameters and the indices its transactions are stored
under: `blocks_produced` stores with each transaction the log index that was passed
for it. -/
def PassedStored (X : Crates) (blockhash : H256) (timestamp : Option Int)
    (transactions updated : List (Transaction × TxResult)) (blocks : List EthBlock) : Prop :=
  ∀ before block after, blocks = before ++ block :: after →
    ∀ (blockParams : BlockParams) (pending : List (Nat × Transaction × TxResult)),
      pending.map Prod.snd = (updated.drop (placedIn before)).take block.transactions.length →
      ∃ written, blockReceipts blockParams pending 0 0 = .ok written ∧
        ∀ i < block.transactions.length, ∃ index,
          passedIndex X blockhash timestamp transactions (placedIn before + i) = .ok index ∧
          (written.map fun w => w.2.2.firstLogIndex)[i]? = some index

/-- The counted transactions of a block that another one follows have no logs, and the
first of a later block has none unless it is the only one. -/
def QuietBoundaries (transactions : List (Transaction × TxResult)) : Prop :=
  ∀ before group after, runs recipientOf transactions = before ++ group :: after →
    (after ≠ [] → logSum (loggedOf before group) = 0) ∧
    (before ≠ [] → 1 < group.length → logSum (group.take 1) = 0)

/-! ## What is stored -/

theorem blockReceipts_firstLogIndex (blockParams : BlockParams)
    {pending : List (Nat × Transaction × TxResult)} :
    ∀ gasUsed logIndex : U256, (∀ e ∈ pending, e.2.2.logs.length ≤ isizeMax) →
      gasUsed.toNat + gasSum (pending.map Prod.snd) < 2 ^ 256 →
      logIndex.toNat + logSum (pending.map Prod.snd) < 2 ^ 256 →
      ∃ written, blockReceipts blockParams pending gasUsed logIndex = .ok written ∧
        ∀ i < pending.length, ∃ index, (written.map fun w => w.2.2.firstLogIndex)[i]? = some index ∧
          index.toNat = logIndex.toNat + logSum ((pending.map Prod.snd).take i) := by
  induction pending with
  | nil =>
      intro gasUsed logIndex _ _ _
      exact ⟨[], rfl, fun i hi => absurd hi (Nat.not_lt_zero i)⟩
  | cons e pending ih =>
      intro gasUsed logIndex hlogs hgas hlog
      have hlength : e.2.2.logs.length ≤ isizeMax := hlogs e (List.mem_cons_self ..)
      have hcount := logs_toNat hlength
      rw [List.map_cons, gasSum_cons] at hgas
      rw [List.map_cons, logSum_cons] at hlog
      obtain ⟨gasUsed', hgasUsed, hgasUsed'⟩ := U256.checkedAdd_exists
        (show gasUsed.toNat + e.2.2.gasReport.gasValue.toNat < 2 ^ 256 by omega)
      obtain ⟨logIndex', hlogIndex, hlogIndex'⟩ := U256.checkedAdd_exists
        (show logIndex.toNat + (BitVec.ofNat 256 e.2.2.logs.length : U256).toNat < 2 ^ 256 by omega)
      obtain ⟨rest, hrest, hindices⟩ := ih gasUsed' logIndex'
        (fun e' he' => hlogs e' (List.mem_cons_of_mem _ he')) (by omega) (by omega)
      refine ⟨_, by
        simp only [blockReceipts, hgasUsed, hlogIndex, hrest, bind, Except.bind, pure, Except.pure]
        rfl, fun i hi => ?_⟩
      cases i with
      | zero => exact ⟨logIndex, rfl, rfl⟩
      | succ i =>
          obtain ⟨index, hindex, heq⟩ := hindices i (Nat.lt_of_succ_lt_succ hi)
          refine ⟨index, hindex, ?_⟩
          rw [List.map_cons, List.take_succ_cons, logSum_cons, heq, hlogIndex', hcount]
          omega

/-! ## What is passed -/

theorem foldlM_extends {l : List (Transaction × TxResult)}
    {st st' : EthBlocksState}
    (h : l.foldlM (EthBlocksState.add X blockhash timestamp mode) st = .ok st') :
    st.transactions <+: st'.transactions := by
  refine foldlM_invariant (P := fun _ s => st.transactions <+: s.transactions)
    (fun done e s s' hs hadd => ?_) (List.prefix_refl _) h
  obtain ⟨index, _, hadds⟩ := add_ok hadd
  rw [hadds.transactions]
  exact hs.trans (List.prefix_append _ _)

theorem FitsVec.take {l : List (Transaction × TxResult)} (h : FitsVec l) (n : Nat) :
    FitsVec (l.take n) :=
  ⟨(List.length_take_le' _ _).trans h.length, fun e he => h.logs e (List.mem_of_mem_take he)⟩

theorem FitsVec.congr {l l' : List (Transaction × TxResult)} (h : FitsVec l)
    (hsame : l.map Prod.snd = l'.map Prod.snd) : FitsVec l' := by
  refine ⟨?_, fun e he => ?_⟩
  · have hlength := congrArg List.length hsame
    rw [List.length_map, List.length_map] at hlength
    exact hlength ▸ h.length
  · have hmem : e.2 ∈ l.map Prod.snd := hsame ▸ List.mem_map_of_mem he
    obtain ⟨e', he', heq⟩ := List.mem_map.mp hmem
    rw [← heq]
    exact h.logs e' he'

theorem foldlM_take {transactions : List (Transaction × TxResult)} {st : EthBlocksState}
    (hfits : FitsVec transactions)
    (hst : transactions.foldlM (EthBlocksState.add X blockhash timestamp mode) start = .ok st)
    {k : Nat} (hk : k ≤ transactions.length) :
    ∃ s, (transactions.take k).foldlM (EthBlocksState.add X blockhash timestamp mode) start
        = .ok s ∧ s.transactions = st.transactions.take k := by
  rw [← List.take_append_drop k transactions, List.foldlM_append] at hst
  obtain ⟨s, hs, hrest⟩ := Except.ok_of_bind hst
  refine ⟨s, hs, ?_⟩
  have hlength : s.transactions.length = k := by
    rw [← (foldlM_counted (hfits.take k) hs).updated.length_eq, List.length_take, min_eq_left hk]
  rw [List.prefix_iff_eq_take.mp (foldlM_extends hrest), hlength]

/-- After a first part the log index counts the logs of the run that is open, less its
first transaction if another run came before. -/
theorem passedIndex_of_runs {transactions : List (Transaction × TxResult)} {st : EthBlocksState}
    (hfits : FitsVec transactions)
    (hst : transactions.foldlM (EthBlocksState.add X blockhash timestamp .engineApi) start
      = .ok st) {k : Nat} (hk : k ≤ transactions.length)
    {closed : List (List (Transaction × TxResult))} {opened : List (Transaction × TxResult)}
    (hruns : runs recipientOf (st.transactions.take k) = closed ++ [opened]) :
    ∃ index, passedIndex X blockhash timestamp transactions k = .ok index ∧
      index.toNat = logSum (loggedOf closed opened) := by
  obtain ⟨s, hs, htake⟩ := foldlM_take hfits hst hk
  refine ⟨s.blockLogIndex, by rw [passedIndex, hs]; rfl, ?_⟩
  rw [← htake] at hruns
  rcases foldlM_grouped (hfits.take k) hs with ⟨_, rfl⟩ | ⟨closed', opened', hgrouped⟩
  · rw [show start.transactions = [] from rfl, runs_nil] at hruns
    simp at hruns
  · obtain ⟨rfl, hopened⟩ := List.append_inj' (hgrouped.runs.symm.trans hruns) rfl
    cases hopened
    exact hgrouped.logIndex

theorem logSum_tail_take (group : List (Transaction × TxResult)) (i : Nat) :
    logSum (group.take (i + 1)).tail + logSum (group.take 1) = logSum (group.take (i + 1)) := by
  cases group with
  | nil => rfl
  | cons e group =>
      rw [List.take_succ_cons, List.take_succ_cons, List.tail_cons, List.take_zero,
        logSum_singleton, logSum_cons, Nat.add_comm]

/-- The log index passed within a run is the number of the logs before it in the run,
exactly if what the index has counted of the run before has no logs, or the first
transaction of the run has none. -/
theorem passedIndex_agrees_iff {transactions : List (Transaction × TxResult)} {st : EthBlocksState}
    (hfits : FitsVec transactions)
    (hst : transactions.foldlM (EthBlocksState.add X blockhash timestamp .engineApi) start
      = .ok st) {before after : List (List (Transaction × TxResult))}
    {group : List (Transaction × TxResult)}
    (hruns : runs recipientOf st.transactions = before ++ group :: after) {i : Nat}
    (hi : i < group.length) :
    ∃ index, passedIndex X blockhash timestamp transactions (before.flatten.length + i)
        = .ok index ∧
      (index.toNat = logSum (group.take i) ↔
        (i = 0 → ∀ before' last, before = before' ++ [last] →
          logSum (loggedOf before' last) = 0) ∧
        (0 < i → before ≠ [] → logSum (group.take 1) = 0)) := by
  have hflatten := (run_at hruns).1
  have hlength : before.flatten.length + i ≤ transactions.length := by
    rw [(foldlM_counted hfits hst).updated.length_eq, hflatten, List.length_append,
      List.length_append]
    omega
  have htake : st.transactions.take (before.flatten.length + i)
      = before.flatten ++ group.take i := by
    rw [hflatten, List.take_length_add_append, List.take_append_of_le_length (Nat.le_of_lt hi)]
  cases i with
  | succ i =>
      have hrunsTake : runs recipientOf (st.transactions.take (before.flatten.length + (i + 1)))
          = before ++ [group.take (i + 1)] := by
        rw [htake]
        exact runs_take hruns (Nat.succ_pos i)
      obtain ⟨index, hindex, heq⟩ := passedIndex_of_runs hfits hst hlength hrunsTake
      refine ⟨index, hindex, ?_⟩
      have htail := logSum_tail_take group i
      rw [heq, loggedOf]
      split
      · next hnil => simp [hnil]
      · next hne =>
          constructor
          · exact fun hsame => ⟨fun hzero => absurd hzero (Nat.succ_ne_zero i), fun _ _ => by omega⟩
          · intro hquiet
            have hfirst := hquiet.2 (Nat.succ_pos i) hne
            omega
  | zero =>
      rcases List.eq_nil_or_concat' before with rfl | ⟨before', last, rfl⟩
      · exact ⟨0, rfl, by simp [logSum]⟩
      · have hlast : 0 < last.length := by
          have hnonempty := (areRuns recipientOf st.transactions).nonempty
          rw [hruns] at hnonempty
          exact List.length_pos_iff.mpr (hnonempty last (by simp))
        have hrunsTake : runs recipientOf
            (st.transactions.take ((before' ++ [last]).flatten.length + 0)) = before' ++ [last] := by
          have hsplit : runs recipientOf st.transactions = before' ++ last :: group :: after := by
            simpa using hruns
          have htake' := runs_take hsplit hlast
          rw [List.take_length] at htake'
          rw [htake, List.take_zero, List.append_nil]
          simpa using htake'
        obtain ⟨index, hindex, heq⟩ := passedIndex_of_runs hfits hst hlength hrunsTake
        refine ⟨index, hindex, ?_⟩
        rw [heq]
        constructor
        · intro hzero
          refine ⟨fun _ before₁ last₁ hsame => ?_, fun hpos => absurd hpos (Nat.lt_irrefl 0)⟩
          obtain ⟨rfl, hlast₁⟩ := List.append_inj' hsame rfl
          cases hlast₁
          exact hzero
        · exact fun hquiet => hquiet.1 rfl before' last rfl

/-! ## Blocks and runs -/

theorem forall₂_split {α β : Type} {R : α → β → Prop} {l : List α} : ∀ {a : α} {l' : List α}
    {r : List β}, List.Forall₂ R (l ++ a :: l') r → ∃ r₁ b r₂, r = r₁ ++ b :: r₂ ∧
      List.Forall₂ R l r₁ ∧ R a b ∧ List.Forall₂ R l' r₂ := by
  induction l with
  | nil =>
      intro a l' r h
      cases h with
      | cons hab hrest => exact ⟨[], _, _, rfl, .nil, hab, hrest⟩
  | cons c l ih =>
      intro a l' r h
      cases h with
      | cons hc hrest =>
          obtain ⟨r₁, b, r₂, rfl, hl, hab, hl'⟩ := ih hrest
          exact ⟨_ :: r₁, b, r₂, rfl, .cons hc hl, hab, hl'⟩

theorem placedIn_holds {blocks : List EthBlock} {groups : List (List (Transaction × TxResult))}
    (h : List.Forall₂ EthBlock.Holds blocks groups) : placedIn blocks = groups.flatten.length := by
  rw [placedIn, flatMap_holds h, hashesOf, List.length_map]

theorem EthBlock.Holds.length_eq {block : EthBlock} {group : List (Transaction × TxResult)}
    (h : block.Holds group) : block.transactions.length = group.length := by
  rw [h.transactions, hashesOf, List.length_map]

/-- What is stored with the transactions of one run. -/
theorem written_of_run {l : List (Transaction × TxResult)} (hfits : FitsVec l)
    {before after : List (List (Transaction × TxResult))} {group : List (Transaction × TxResult)}
    (hruns : runs recipientOf l = before ++ group :: after) {block : EthBlock}
    (hblock : block.Holds group) (blockParams : BlockParams)
    {pending : List (Nat × Transaction × TxResult)}
    (hpending : pending.map Prod.snd
      = (l.drop before.flatten.length).take block.transactions.length) :
    ∃ written, blockReceipts blockParams pending 0 0 = .ok written ∧
      ∀ i < group.length, ∃ index,
        (written.map fun w => w.2.2.firstLogIndex)[i]? = some index ∧
          index.toNat = logSum (group.take i) := by
  obtain ⟨hl, htake⟩ := run_at hruns
  have hgroup : pending.map Prod.snd = group := by rw [hpending, hblock.length_eq, htake]
  have hlogs : logSum l < 2 ^ 256 := hfits.logSum_lt
  rw [hl, logSum_append, logSum_append] at hlogs
  have hgas : gasSum group < 2 ^ 256 := by
    rw [← hblock.gas]
    exact block.blockGasUsed.isLt
  have hlengths : ∀ e ∈ pending, e.2.2.logs.length ≤ isizeMax := by
    intro e he
    refine hfits.logs e.2 ?_
    have hmem : e.2 ∈ group := hgroup ▸ List.mem_map_of_mem he
    rw [hl]
    exact List.mem_append_right _ (List.mem_append_left _ hmem)
  obtain ⟨written, hwritten, hindices⟩ := blockReceipts_firstLogIndex blockParams 0 0 hlengths
    (by rw [hgroup]; exact (Nat.zero_add _).symm ▸ hgas)
    (by rw [hgroup]; show 0 + logSum group < _; omega)
  refine ⟨written, hwritten, fun i hi => ?_⟩
  have hlength : pending.length = group.length := by rw [← hgroup, List.length_map]
  obtain ⟨index, hindex, heq⟩ := hindices i (hlength ▸ hi)
  rw [hgroup] at heq
  exact ⟨index, hindex, heq.trans (Nat.zero_add _)⟩

/-- The indices agree block by block exactly if they agree run by run. -/
theorem passedStored_iff {transactions : List (Transaction × TxResult)} {st : EthBlocksState}
    {blocks : List EthBlock} (hfits : FitsVec transactions)
    (hst : transactions.foldlM (EthBlocksState.add X blockhash timestamp .engineApi) start
      = .ok st) (hblocks : List.Forall₂ EthBlock.Holds blocks (runs recipientOf st.transactions)) :
    PassedStored X blockhash timestamp transactions st.transactions blocks ↔
      ∀ before group after, runs recipientOf st.transactions = before ++ group :: after →
        ∀ i < group.length,
          (i = 0 → ∀ before' last, before = before' ++ [last] →
            logSum (loggedOf before' last) = 0) ∧
          (0 < i → before ≠ [] → logSum (group.take 1) = 0) := by
  have hcounted := foldlM_counted hfits hst
  have hfits' : FitsVec st.transactions := hfits.congr hcounted.results.symm
  constructor
  · intro hstored before group after hruns i hi
    rw [hruns] at hblocks
    obtain ⟨blocks₁, block, blocks₂, rfl, hbefore, hblock, _⟩ := forall₂_split hblocks.flip
    have hplaced := placedIn_holds hbefore.flip
    obtain ⟨index, hindex, hagrees⟩ := passedIndex_agrees_iff hfits hst hruns hi
    have hpending : (group.map fun e => (0, e)).map Prod.snd
        = (st.transactions.drop before.flatten.length).take block.transactions.length := by
      rw [hblock.length_eq, (run_at hruns).2, List.map_map]
      exact List.map_id _
    obtain ⟨written, hwritten, hindices⟩ := hstored blocks₁ block blocks₂ rfl ⟨0, none, 0, 0⟩
      (group.map fun e => (0, e)) (hplaced ▸ hpending)
    obtain ⟨written', hwritten', hindices'⟩ :=
      written_of_run hfits' hruns hblock ⟨0, none, 0, 0⟩ hpending
    cases hwritten.symm.trans hwritten'
    obtain ⟨index', hpassed, hstored'⟩ := hindices i (hblock.length_eq ▸ hi)
    obtain ⟨index'', hstored'', heq⟩ := hindices' i hi
    cases hstored'.symm.trans hstored''
    rw [hplaced] at hpassed
    cases hindex.symm.trans hpassed
    exact hagrees.mp heq
  · intro hquiet before block after hsplit blockParams pending hpending
    rw [hsplit] at hblocks
    obtain ⟨groups, group, groups', hruns, hbefore, hblock, _⟩ := forall₂_split hblocks
    have hplaced := placedIn_holds hbefore
    rw [hplaced] at hpending ⊢
    obtain ⟨written, hwritten, hindices⟩ :=
      written_of_run hfits' hruns hblock blockParams hpending
    refine ⟨written, hwritten, fun i hi => ?_⟩
    rw [hblock.length_eq] at hi
    obtain ⟨index, hindex, hagrees⟩ := passedIndex_agrees_iff hfits hst hruns hi
    obtain ⟨index', hstored, heq⟩ := hindices i hi
    have hsame := hagrees.mpr (hquiet groups group groups' hruns i hi)
    refine ⟨index, hindex, ?_⟩
    rw [hstored, BitVec.eq_of_toNat_eq (heq.trans hsame.symm)]

/-- The runs depend on the results alone. -/
theorem runs_results {l l' : List (Transaction × TxResult)}
    (h : l.map Prod.snd = l'.map Prod.snd) :
    (runs recipientOf l').map (List.map Prod.snd) = (runs recipientOf l).map (List.map Prod.snd) := by
  have hmap := runs_map (fun r : TxResult => r.gasReport.gasRecipient)
    (Prod.snd : Transaction × TxResult → TxResult)
  exact (hmap l').symm.trans ((congrArg _ h.symm).trans (hmap l))

theorem runs_same_results {l l' : List (Transaction × TxResult)}
    (h : l.map Prod.snd = l'.map Prod.snd) {before after : List (List (Transaction × TxResult))}
    {group : List (Transaction × TxResult)}
    (hruns : runs recipientOf l = before ++ group :: after) :
    ∃ before' group' after', runs recipientOf l' = before' ++ group' :: after' ∧
      before'.map (List.map Prod.snd) = before.map (List.map Prod.snd) ∧
      group'.map Prod.snd = group.map Prod.snd ∧
      after'.map (List.map Prod.snd) = after.map (List.map Prod.snd) := by
  have hsame := runs_results h
  rw [hruns, List.map_append, List.map_cons, List.map_eq_append_iff] at hsame
  obtain ⟨before', rest, hl', hbefore, hrest⟩ := hsame
  obtain ⟨group', after', rfl, hgroup, hafter⟩ := List.map_eq_cons_iff.mp hrest
  exact ⟨before', group', after', hl', hbefore, hgroup, hafter⟩

theorem logSum_loggedOf_congr {closed closed' : List (List (Transaction × TxResult))}
    {opened opened' : List (Transaction × TxResult)}
    (hclosed : closed'.map (List.map Prod.snd) = closed.map (List.map Prod.snd))
    (hopened : opened'.map Prod.snd = opened.map Prod.snd) :
    logSum (loggedOf closed' opened') = logSum (loggedOf closed opened) := by
  have hnil : closed' = [] ↔ closed = [] := by
    rw [← List.map_eq_nil_iff (f := List.map Prod.snd), hclosed, List.map_eq_nil_iff]
  unfold loggedOf
  by_cases hc : closed = []
  · rw [if_pos (hnil.mpr hc), if_pos hc]
    exact logSum_congr hopened
  · rw [if_neg (mt hnil.mp hc), if_neg hc]
    refine logSum_congr ?_
    rw [List.map_tail, List.map_tail, hopened]

theorem quietBoundaries_of_same {l l' : List (Transaction × TxResult)}
    (h : l.map Prod.snd = l'.map Prod.snd) (hquiet : QuietBoundaries l') : QuietBoundaries l := by
  intro before group after hruns
  obtain ⟨before', group', after', hruns', hbefore, hgroup, hafter⟩ := runs_same_results h hruns
  obtain ⟨hcounted, hfirst⟩ := hquiet before' group' after' hruns'
  constructor
  · intro hne
    rw [← logSum_loggedOf_congr hbefore hgroup]
    refine hcounted fun hnil => hne ?_
    rw [hnil, List.map_nil, eq_comm, List.map_eq_nil_iff] at hafter
    exact hafter
  · intro hne hlength
    have hlength' : group'.length = group.length := by
      rw [← List.length_map (f := Prod.snd), hgroup, List.length_map]
    have htake : (group'.take 1).map Prod.snd = (group.take 1).map Prod.snd := by
      rw [List.map_take, List.map_take, hgroup]
    rw [← logSum_congr htake]
    refine hfirst (fun hnil => hne ?_) (hlength' ▸ hlength)
    rw [hnil, List.map_nil, eq_comm, List.map_eq_nil_iff] at hbefore
    exact hbefore

/-- The log index passed for each transaction is the one stored with it exactly if the
boundaries of the blocks are quiet. -/
theorem passed_index_stored_iff (X : Crates) (blockhash : H256) (timestamp : Option Int)
    {transactions updated : List (Transaction × TxResult)} {blocks : List EthBlock}
    (hfits : FitsVec transactions)
    (hcreate : createEthBlocks X blockhash timestamp transactions .engineApi
      = .ok (blocks, updated)) :
    PassedStored X blockhash timestamp transactions updated blocks ↔
      QuietBoundaries transactions := by
  have hblocks := (createEthBlocks_eq hfits hcreate).2
  obtain ⟨st, hst, hcreate⟩ := Except.ok_of_bind hcreate
  cases hcreate
  have hresults := (foldlM_counted hfits hst).results
  rw [passedStored_iff hfits hst hblocks]
  constructor
  · intro hagrees
    refine quietBoundaries_of_same hresults.symm fun before group after hruns => ⟨?_, ?_⟩
    · intro hne
      obtain ⟨next, after', rfl⟩ := List.exists_cons_of_ne_nil hne
      have hruns' : runs recipientOf st.transactions = (before ++ [group]) ++ next :: after' := by
        rw [hruns, List.append_assoc]
        rfl
      have hnext : 0 < next.length := by
        have hnonempty := (areRuns recipientOf st.transactions).nonempty next
        rw [hruns'] at hnonempty
        exact List.length_pos_iff.mpr (hnonempty (by simp))
      exact (hagrees _ next after' hruns' 0 hnext).1 rfl before group rfl
    · intro hne hlength
      exact (hagrees before group after hruns 1 hlength).2 Nat.one_pos hne
  · intro hquiet before group after hruns i hi
    have hquiet' := quietBoundaries_of_same hresults hquiet
    constructor
    · rintro rfl before' last rfl
      rw [List.append_assoc] at hruns
      exact (hquiet' before' last (group :: after) hruns).1 (List.cons_ne_nil _ _)
    · intro hpos hne
      exact (hquiet' before group after hruns).2 hne (by omega)

/-- A user deposit, with the result it is parsed with. -/
def depositOf (hash : TxHash) : Transaction × TxResult :=
  ({ bareTx hash with transactionType := some depositTxType }, .default)

/-- A transaction with a log and a gas recipient, and a deposit. -/
def logThenDeposit : List (Transaction × TxResult) :=
  [executedTx 1 21000 (some 5) 1, depositOf 2]

/-- The deposit is the first transaction of its block and gets the source hash of log
index 1. -/
theorem deposit_index_of_other_block : ∃ block block' updated,
    createEthBlocks standIns 0 none logThenDeposit .engineApi = .ok ([block, block'], updated) ∧
      block'.transactions = [2] ∧ passedIndex standIns 0 none logThenDeposit 1 = .ok 1 ∧
      ¬ PassedStored standIns 0 none logThenDeposit updated [block, block'] := by
  refine ⟨_, _, _, rfl, rfl, rfl, fun hstored => ?_⟩
  obtain ⟨written, hwritten, hindices⟩ := hstored [_] _ [] rfl ⟨0, none, 0, 0⟩ [(0, _)] rfl
  obtain ⟨index, hpassed, hindex⟩ := hindices 0 (by decide)
  cases hwritten
  cases hpassed
  revert hindex
  decide

theorem alternating_index_stored : ∃ blocks updated,
    createEthBlocks standIns 0 none alternating .engineApi = .ok (blocks, updated) ∧
      (PassedStored standIns 0 none alternating updated blocks ↔ QuietBoundaries alternating) :=
  ⟨_, _, rfl, passed_index_stored_iff standIns 0 none ⟨by decide, by decide⟩ rfl⟩

end RomeSdk
