import Mathlib.Algebra.Order.BigOperators.Group.List
import Mathlib.Algebra.Order.Ring.Nat
import RomeSdk.Lib.Loop
import RomeSdk.Lib.Runs
import RomeSdk.Proofs.LogIndices

/-!
# The grouping of transactions into EVM blocks

`create_eth_blocks` goes through the transactions of a Solana block once and keeps the
block it is filling in its variables. What it has closed and what it is filling are the
runs of one gas recipient among the transactions gone through (`Grouped`), so its blocks
are these runs. The log index is no such sum: it is set to zero when a block is closed,
by then it has already counted the first transaction of the next one.
-/

namespace RomeSdk

def recipientOf (e : Transaction × TxResult) : Option Address := e.2.gasReport.gasRecipient

def hashesOf (l : List (Transaction × TxResult)) : List TxHash := l.map fun e => e.1.hash

def gasSum (l : List (Transaction × TxResult)) : Nat :=
  (l.map fun e => e.2.gasReport.gasValue.toNat).sum

def logSum (l : List (Transaction × TxResult)) : Nat := (l.map fun e => e.2.logs.length).sum

/-- The lists are held in memory. -/
structure FitsVec (transactions : List (Transaction × TxResult)) : Prop where
  length : transactions.length ≤ isizeMax
  logs : ∀ e ∈ transactions, e.2.logs.length ≤ isizeMax

theorem gasSum_append (l l' : List (Transaction × TxResult)) :
    gasSum (l ++ l') = gasSum l + gasSum l' := by
  rw [gasSum, List.map_append, List.sum_append]
  rfl

theorem logSum_append (l l' : List (Transaction × TxResult)) :
    logSum (l ++ l') = logSum l + logSum l' := by
  rw [logSum, List.map_append, List.sum_append]
  rfl

theorem hashesOf_append (l l' : List (Transaction × TxResult)) :
    hashesOf (l ++ l') = hashesOf l ++ hashesOf l' := List.map_append

theorem gasSum_cons (e : Transaction × TxResult) (l : List (Transaction × TxResult)) :
    gasSum (e :: l) = e.2.gasReport.gasValue.toNat + gasSum l := rfl

theorem logSum_cons (e : Transaction × TxResult) (l : List (Transaction × TxResult)) :
    logSum (e :: l) = e.2.logs.length + logSum l := rfl

@[simp] theorem gasSum_singleton (e : Transaction × TxResult) :
    gasSum [e] = e.2.gasReport.gasValue.toNat := by simp [gasSum]

@[simp] theorem logSum_singleton (e : Transaction × TxResult) :
    logSum [e] = e.2.logs.length := by simp [logSum]

theorem logSum_congr {l l' : List (Transaction × TxResult)}
    (h : l.map Prod.snd = l'.map Prod.snd) : logSum l = logSum l' := by
  have hsnd : ∀ l : List (Transaction × TxResult),
      (l.map fun e => e.2.logs.length) = (l.map Prod.snd).map fun r => r.logs.length :=
    fun l => by rw [List.map_map]; rfl
  rw [logSum, logSum, hsnd, hsnd, h]

theorem gasSum_congr {l l' : List (Transaction × TxResult)}
    (h : l.map Prod.snd = l'.map Prod.snd) : gasSum l = gasSum l' := by
  have hsnd : ∀ l : List (Transaction × TxResult),
      (l.map fun e => e.2.gasReport.gasValue.toNat)
        = (l.map Prod.snd).map fun r => r.gasReport.gasValue.toNat :=
    fun l => by rw [List.map_map]; rfl
  rw [gasSum, gasSum, hsnd, hsnd, h]

theorem logs_toNat {n : Nat} (h : n ≤ isizeMax) : (BitVec.ofNat 256 n : U256).toNat = n := by
  have hmax : isizeMax < 2 ^ 256 := by decide
  rw [BitVec.toNat_ofNat, Nat.mod_eq_of_lt (by omega)]

theorem FitsVec.logSum_le {l : List (Transaction × TxResult)} (h : FitsVec l) :
    logSum l ≤ isizeMax * isizeMax := by
  have hle : ∀ n ∈ l.map fun e => e.2.logs.length, n ≤ isizeMax := by
    intro n hn
    obtain ⟨e, he, rfl⟩ := List.mem_map.mp hn
    exact h.logs e he
  have hsum : logSum l ≤ l.length * isizeMax := by
    have hcard := List.sum_le_card_nsmul _ _ hle
    rwa [List.length_map, Nat.nsmul_eq_mul] at hcard
  exact hsum.trans (Nat.mul_le_mul_right _ h.length)

theorem FitsVec.logSum_lt {l : List (Transaction × TxResult)} (h : FitsVec l) :
    logSum l < 2 ^ 256 :=
  Nat.lt_of_le_of_lt h.logSum_le (by decide)

namespace EthBlocksState

variable {X : Crates} {blockhash : H256} {timestamp : Option Int} {mode : BlockParseMode}
  {st st' : EthBlocksState} {e : Transaction × TxResult}

/-! ## One transaction -/

/-- The transaction as the loop leaves it, with its source hash set if it is a deposit. -/
def updated (X : Crates) (blockhash : H256) (st : EthBlocksState)
    (e : Transaction × TxResult) : Transaction × TxResult :=
  (updateIfUserDepositedTx X e.1 blockhash st.blockLogIndex, e.2)

/-- What a round does with an updated transaction; `index` is the log index after it. -/
inductive Adds (timestamp : Option Int) (mode : BlockParseMode) (st : EthBlocksState)
    (e : Transaction × TxResult) (index : U256) : EthBlocksState → Prop
  | joined (gas : U256) (hmode : mode = .singleState ∨ recipientOf e = st.gasRecipient)
      (hgas : U256.checkedAdd st.blockGasUsed e.2.gasReport.gasValue = .ok gas) :
      Adds timestamp mode st e index { st with
        blockGasUsed := gas
        blockTxs := st.blockTxs ++ [e.1.hash]
        blockLogIndex := index
        transactions := st.transactions ++ [e] }
  | opened (hmode : mode = .engineApi) (hne : recipientOf e ≠ st.gasRecipient)
      (hempty : st.blockTxs = []) :
      Adds timestamp mode st e index { st with
        blockGasUsed := e.2.gasReport.gasValue
        blockTxs := [e.1.hash]
        gasRecipient := recipientOf e
        blockLogIndex := index
        transactions := st.transactions ++ [e] }
  | closed (hmode : mode = .engineApi) (hne : recipientOf e ≠ st.gasRecipient)
      (hfilled : st.blockTxs ≠ []) :
      Adds timestamp mode st e index {
        blockGasUsed := e.2.gasReport.gasValue
        ethBlocks := st.ethBlocks ++
          [EthBlock.new timestamp st.blockTxs st.blockGasUsed st.gasRecipient]
        blockTxs := [e.1.hash]
        gasRecipient := recipientOf e
        blockLogIndex := 0
        transactions := st.transactions ++ [e] }

theorem add_ok (h : st.add X blockhash timestamp mode e = .ok st') :
    ∃ index, U256.checkedAdd st.blockLogIndex (BitVec.ofNat 256 e.2.logs.length) = .ok index ∧
      Adds timestamp mode st (st.updated X blockhash e) index st' := by
  unfold add at h
  obtain ⟨index, hindex, h⟩ := Except.ok_of_bind h
  refine ⟨index, hindex, ?_⟩
  cases mode with
  | singleState =>
      obtain ⟨gas, hgas, h⟩ := Except.ok_of_bind h
      cases h
      exact .joined gas (Or.inl rfl) hgas
  | engineApi =>
      simp only at h
      split at h
      · next hsame =>
          obtain ⟨gas, hgas, h⟩ := Except.ok_of_bind h
          cases h
          exact .joined gas (Or.inr hsame) hgas
      · next hne =>
          split at h
          · next hempty =>
              cases h
              exact .opened rfl hne (List.isEmpty_iff.mp hempty)
          · next hfilled =>
              cases h
              exact .closed rfl hne fun hnil => hfilled (List.isEmpty_iff.mpr hnil)

theorem Adds.transactions {index : U256} (h : Adds timestamp mode st e index st') :
    st'.transactions = st.transactions ++ [e] := by
  cases h <;> rfl

/-- A round returns when neither sum overflows. -/
theorem add_returns
    (hlog : st.blockLogIndex.toNat + (BitVec.ofNat 256 e.2.logs.length : U256).toNat < 2 ^ 256)
    (hgas : st.blockGasUsed.toNat + e.2.gasReport.gasValue.toNat < 2 ^ 256) :
    ∃ st', st.add X blockhash timestamp mode e = .ok st' := by
  simp only [add, U256.checkedAdd_of_lt hlog, U256.checkedAdd_of_lt hgas, bind, Except.bind, pure,
    Except.pure]
  cases mode with
  | singleState => exact ⟨_, rfl⟩
  | engineApi =>
      simp only
      split
      · exact ⟨_, rfl⟩
      · split <;> exact ⟨_, rfl⟩

/-! ## All transactions -/

/-- The given transactions in their order, each with its result and updated. -/
def UpdatedFrom (X : Crates) (blockhash : H256) (given updated : List (Transaction × TxResult)) :
    Prop :=
  List.Forall₂ (fun e e' => e'.2 = e.2 ∧
    ∃ index, e'.1 = updateIfUserDepositedTx X e.1 blockhash index) given updated

/-- The variables count no more than the transactions gone through have. -/
structure Counted (X : Crates) (blockhash : H256) (done : List (Transaction × TxResult))
    (st : EthBlocksState) : Prop where
  updated : UpdatedFrom X blockhash done st.transactions
  gas : st.blockGasUsed.toNat ≤ gasSum done
  logs : st.blockLogIndex.toNat ≤ logSum done

theorem counted_start (X : Crates) (blockhash : H256) : Counted X blockhash [] start :=
  ⟨.nil, Nat.zero_le _, Nat.zero_le _⟩

theorem Counted.results {done : List (Transaction × TxResult)} (h : Counted X blockhash done st) :
    st.transactions.map Prod.snd = done.map Prod.snd := by
  have hsame : List.Forall₂ (fun r r' : TxResult => r = r') (done.map Prod.snd)
      (st.transactions.map Prod.snd) :=
    List.forall₂_map_left_iff.mpr (List.forall₂_map_right_iff.mpr
      (h.updated.imp fun _ _ hu => hu.1.symm))
  rw [List.forall₂_eq_eq_eq] at hsame
  exact hsame.symm

theorem Counted.add {done : List (Transaction × TxResult)} (h : Counted X blockhash done st)
    (hlength : e.2.logs.length ≤ isizeMax)
    (hadd : st.add X blockhash timestamp mode e = .ok st') :
    Counted X blockhash (done ++ [e]) st' := by
  obtain ⟨index, hindex, hadds⟩ := add_ok hadd
  have hindex' := (U256.checkedAdd_ok hindex).2
  rw [logs_toNat hlength] at hindex'
  have hlogs := h.logs
  have hgas := h.gas
  refine ⟨?_, ?_, ?_⟩
  · rw [hadds.transactions]
    exact List.rel_append h.updated (.cons ⟨rfl, st.blockLogIndex, rfl⟩ .nil)
  · rw [gasSum_append, gasSum_singleton]
    cases hadds with
    | joined gas hmode hsum =>
        have hsum' : gas.toNat = st.blockGasUsed.toNat + e.2.gasReport.gasValue.toNat :=
          (U256.checkedAdd_ok hsum).2
        show gas.toNat ≤ _
        omega
    | opened => exact Nat.le_add_left _ _
    | closed => exact Nat.le_add_left _ _
  · rw [logSum_append, logSum_singleton]
    cases hadds with
    | joined | opened =>
        show index.toNat ≤ _
        omega
    | closed => exact Nat.zero_le _

/-- The loop returns when the gas of all transactions does not overflow. -/
theorem foldlM_returns {rest : List (Transaction × TxResult)} :
    ∀ {done : List (Transaction × TxResult)} {st : EthBlocksState}, Counted X blockhash done st →
      FitsVec (done ++ rest) → gasSum (done ++ rest) < 2 ^ 256 →
      ∃ st', rest.foldlM (EthBlocksState.add X blockhash timestamp mode) st = .ok st' := by
  induction rest with
  | nil =>
      intro done st _ _ _
      exact ⟨st, rfl⟩
  | cons e rest ih =>
      intro done st hst hfits hgas
      have hlog := hfits.logSum_lt
      have hlength : e.2.logs.length ≤ isizeMax := hfits.logs e (by simp)
      have hsplit : done ++ e :: rest = done ++ [e] ++ rest := by simp
      rw [hsplit] at hfits hgas hlog
      have hlogs := hst.logs
      have hused := hst.gas
      simp only [logSum_append, gasSum_append, logSum_singleton, gasSum_singleton] at hlog hgas
      have hreturns : ∃ st₁, st.add X blockhash timestamp mode e = .ok st₁ := by
        refine add_returns ?_ (by omega)
        rw [logs_toNat hlength]
        omega
      obtain ⟨st₁, hadd⟩ := hreturns
      rw [List.foldlM_cons, hadd]
      refine ih (hst.add hlength hadd) hfits ?_
      simp only [gasSum_append, gasSum_singleton]
      omega

theorem foldlM_counted {l : List (Transaction × TxResult)} (hfits : FitsVec l)
    (h : l.foldlM (EthBlocksState.add X blockhash timestamp mode) start = .ok st) :
    Counted X blockhash l st := by
  have hrun := foldlM_invariant (f := EthBlocksState.add X blockhash timestamp mode)
    (P := fun done st => (∀ e ∈ done, e.2.logs.length ≤ isizeMax) → Counted X blockhash done st)
    (fun done e s s' hs hadd hlogs => (hs fun e' he' => hlogs e' (List.mem_append_left _ he')).add
      (hlogs e (by simp)) hadd)
    (fun _ => counted_start X blockhash) h
  exact hrun hfits.logs

/-! ## The runs -/

/-- The block the loop is filling. -/
def filling (timestamp : Option Int) (st : EthBlocksState) : EthBlock :=
  EthBlock.new timestamp st.blockTxs st.blockGasUsed st.gasRecipient

end EthBlocksState

/-- A block of some transactions, all of the block's gas recipient. -/
structure EthBlock.Holds (block : EthBlock) (group : List (Transaction × TxResult)) : Prop where
  nonempty : group ≠ []
  transactions : block.transactions = hashesOf group
  gas : block.blockGasUsed.toNat = gasSum group
  recipient : ∀ e ∈ group, recipientOf e = block.gasRecipient

namespace EthBlocksState

variable {timestamp : Option Int} {st st' : EthBlocksState} {e : Transaction × TxResult}

/-- The transactions of the open run whose logs are in the log index. -/
def loggedOf (closed : List (List (Transaction × TxResult)))
    (opened : List (Transaction × TxResult)) : List (Transaction × TxResult) :=
  if closed = [] then opened else opened.tail

theorem loggedOf_append {closed : List (List (Transaction × TxResult))}
    {opened : List (Transaction × TxResult)} (h : opened ≠ []) (l : List (Transaction × TxResult)) :
    loggedOf closed (opened ++ l) = loggedOf closed opened ++ l := by
  unfold loggedOf
  split
  · rfl
  · rw [List.tail_append_of_ne_nil h]

/-- After at least one transaction: the blocks that are closed, and the one the loop is
filling, hold the runs of the transactions gone through. -/
structure Grouped (timestamp : Option Int) (closed : List (List (Transaction × TxResult)))
    (opened : List (Transaction × TxResult)) (st : EthBlocksState) : Prop where
  runs : runs recipientOf st.transactions = closed ++ [opened]
  ethBlocks : List.Forall₂ EthBlock.Holds st.ethBlocks closed
  filling : (st.filling timestamp).Holds opened
  logIndex : st.blockLogIndex.toNat = logSum (loggedOf closed opened)

theorem holds_singleton {block : EthBlock} (htx : block.transactions = [e.1.hash])
    (hgas : block.blockGasUsed = e.2.gasReport.gasValue)
    (hrecipient : block.gasRecipient = recipientOf e) : block.Holds [e] :=
  ⟨List.cons_ne_nil _ _, htx, by rw [hgas, gasSum_singleton],
    fun e' he' => by rw [List.mem_singleton.mp he', hrecipient]⟩

/-- The first transaction opens a run, whatever its recipient. -/
theorem Adds.grouped_first {index : U256} (hindex : index.toNat = e.2.logs.length)
    (h : Adds timestamp .engineApi start e index st) : Grouped timestamp [] [e] st := by
  have htransactions : st.transactions = [e] := h.transactions
  refine ⟨by rw [htransactions]; rfl, ?_, ?_, ?_⟩
  · cases h with
    | joined | opened => exact .nil
    | closed hmode hne hfilled => exact absurd rfl hfilled
  · cases h with
    | joined gas hmode hsum =>
        have hgas : gas = e.2.gasReport.gasValue := by
          rw [(U256.checkedAdd_ok hsum).1]
          exact BitVec.zero_add _
        have hsame : recipientOf e = none := hmode.resolve_left (fun hno => by cases hno)
        exact holds_singleton rfl hgas hsame.symm
    | opened => exact holds_singleton rfl rfl rfl
    | closed hmode hne hfilled => exact absurd rfl hfilled
  · cases h with
    | joined | opened =>
        rw [loggedOf, if_pos rfl, logSum_singleton]
        exact hindex
    | closed hmode hne hfilled => exact absurd rfl hfilled

/-- Every further one joins the run that is open or closes it. -/
theorem Grouped.add {closed : List (List (Transaction × TxResult))}
    {opened : List (Transaction × TxResult)} (hst : Grouped timestamp closed opened st)
    {index : U256} (hindex : index.toNat = st.blockLogIndex.toNat + e.2.logs.length)
    (h : Adds timestamp .engineApi st e index st') :
    (recipientOf e = st.gasRecipient ∧ Grouped timestamp closed (opened ++ [e]) st') ∨
      (recipientOf e ≠ st.gasRecipient ∧ Grouped timestamp (closed ++ [opened]) [e] st') := by
  have hopened := hst.filling.nonempty
  have htransactions := h.transactions
  cases h with
  | joined gas hmode hsum =>
      have hsame : recipientOf e = st.gasRecipient := hmode.resolve_left (fun hno => by cases hno)
      refine Or.inl ⟨hsame, ?_, hst.ethBlocks, ⟨by simp, ?_, ?_, ?_⟩, ?_⟩
      · refine runs_append_same hst.runs fun a ha => ?_
        rw [hsame]
        exact hst.filling.recipient a ha
      · have htx := hst.filling.transactions
        show st.blockTxs ++ [e.1.hash] = _
        rw [hashesOf_append]
        exact congrArg (· ++ [e.1.hash]) htx
      · have hgas : st.blockGasUsed.toNat = gasSum opened := hst.filling.gas
        show gas.toNat = _
        rw [gasSum_append, gasSum_singleton, (U256.checkedAdd_ok hsum).2, hgas]
      · intro a ha
        rcases List.mem_append.mp ha with ha | ha
        · exact hst.filling.recipient a ha
        · rw [List.mem_singleton.mp ha]
          exact hsame
      · show index.toNat = _
        rw [hindex, hst.logIndex, loggedOf_append hopened, logSum_append, logSum_singleton]
  | opened hmode hne hempty =>
      have htx : st.blockTxs = hashesOf opened := hst.filling.transactions
      rw [hempty, hashesOf, eq_comm, List.map_eq_nil_iff] at htx
      exact absurd htx hopened
  | closed hmode hne hfilled =>
      refine Or.inr ⟨hne, ?_, List.rel_append hst.ethBlocks (.cons hst.filling .nil),
        holds_singleton rfl rfl rfl, ?_⟩
      · rw [← hst.runs]
        refine runs_append_new fun a ha hkey => hne ?_
        have hlast : a ∈ opened := by
          have hl : st.transactions = closed.flatten ++ opened := by
            rw [← flatten_runs recipientOf st.transactions, hst.runs, List.flatten_append]
            simp
          rw [hl, List.getLast?_append_of_ne_nil _ hopened] at ha
          exact List.mem_of_getLast? ha
        rw [← hkey]
        exact hst.filling.recipient a hlast
      · simp [logSum, loggedOf]

/-- What the loop has done when it returns. -/
theorem foldlM_grouped {X : Crates} {blockhash : H256} {l : List (Transaction × TxResult)}
    (hfits : FitsVec l)
    (h : l.foldlM (EthBlocksState.add X blockhash timestamp .engineApi) start = .ok st) :
    (l = [] ∧ st = start) ∨ ∃ closed opened, Grouped timestamp closed opened st := by
  have hrun := foldlM_invariant (f := EthBlocksState.add X blockhash timestamp .engineApi)
    (P := fun done st => (∀ e ∈ done, e.2.logs.length ≤ isizeMax) →
      (done = [] ∧ st = start) ∨ ∃ closed opened, Grouped timestamp closed opened st)
    (fun done e s s' hs hadd hlogs => ?_) (fun _ => Or.inl ⟨rfl, rfl⟩) h
  · exact hrun hfits.logs
  · obtain ⟨index, hindex, hadds⟩ := add_ok hadd
    have hindex' := (U256.checkedAdd_ok hindex).2
    rw [logs_toNat (hlogs e (by simp))] at hindex'
    rcases hs fun e' he' => hlogs e' (List.mem_append_left _ he') with
      ⟨_, rfl⟩ | ⟨closed, opened, hst⟩
    · rw [show (start.blockLogIndex : U256).toNat = 0 from rfl, Nat.zero_add] at hindex'
      exact Or.inr ⟨[], _, hadds.grouped_first (e := start.updated X blockhash e) hindex'⟩
    · rcases hst.add (e := s.updated X blockhash e) hindex' hadds with ⟨_, hjoined⟩ | ⟨_, hclosed⟩
      · exact Or.inr ⟨_, _, hjoined⟩
      · exact Or.inr ⟨_, _, hclosed⟩

end EthBlocksState

/-! ## The blocks -/

variable {X : Crates} {blockhash : H256} {timestamp : Option Int}

/-- A cut of the transactions into the blocks of one gas recipient each. -/
structure IsPartition (transactions : List (Transaction × TxResult)) (blocks : List EthBlock) :
    Prop where
  hashes : blocks.flatMap EthBlock.transactions = hashesOf transactions
  nonempty : ∀ block ∈ blocks, block.transactions ≠ []
  holds : ∃ groups, groups.flatten = transactions ∧ List.Forall₂ EthBlock.Holds blocks groups
  differ : blocks.IsChain fun block block' => block.gasRecipient ≠ block'.gasRecipient

theorem flatMap_holds {blocks : List EthBlock} {groups : List (List (Transaction × TxResult))}
    (h : List.Forall₂ EthBlock.Holds blocks groups) :
    blocks.flatMap EthBlock.transactions = hashesOf groups.flatten := by
  induction h with
  | nil => rfl
  | cons hholds _ ih =>
      rw [List.flatMap_cons, List.flatten_cons, hashesOf_append, ih, hholds.transactions]

theorem EthBlock.Holds.transactions_ne {block : EthBlock} {group : List (Transaction × TxResult)}
    (h : block.Holds group) : block.transactions ≠ [] := by
  rw [h.transactions, hashesOf, Ne, List.map_eq_nil_iff]
  exact h.nonempty

theorem EthBlock.Holds.recipient_ne {block block' : EthBlock}
    {group group' : List (Transaction × TxResult)} (h : block.Holds group) (h' : block'.Holds group')
    (hdiffer : ∀ a ∈ group, ∀ b ∈ group', recipientOf a ≠ recipientOf b) :
    block.gasRecipient ≠ block'.gasRecipient := by
  obtain ⟨a, ha⟩ := List.exists_mem_of_ne_nil group h.nonempty
  obtain ⟨b, hb⟩ := List.exists_mem_of_ne_nil group' h'.nonempty
  rw [← h.recipient a ha, ← h'.recipient b hb]
  exact hdiffer a ha b hb

theorem nonempty_holds {blocks : List EthBlock} {groups : List (List (Transaction × TxResult))}
    (h : List.Forall₂ EthBlock.Holds blocks groups) :
    ∀ block ∈ blocks, block.transactions ≠ [] := by
  induction h with
  | nil =>
      intro block hblock
      cases hblock
  | cons hholds _ ih => exact List.forall_mem_cons.mpr ⟨hholds.transactions_ne, ih⟩

theorem differ_holds {blocks : List EthBlock} {groups : List (List (Transaction × TxResult))}
    (h : List.Forall₂ EthBlock.Holds blocks groups)
    (hdiffer : groups.IsChain fun g g' => ∀ a ∈ g, ∀ b ∈ g', recipientOf a ≠ recipientOf b) :
    blocks.IsChain fun block block' => block.gasRecipient ≠ block'.gasRecipient := by
  induction h with
  | nil => exact .nil
  | cons hholds hrest ih =>
      cases hrest with
      | nil => exact .singleton _
      | cons hholds' hrest' =>
          rw [List.isChain_cons_cons] at hdiffer ⊢
          exact ⟨hholds.recipient_ne hholds' hdiffer.1, ih hdiffer.2⟩

/-- Blocks that hold the runs of the gas recipient are a partition. -/
theorem isPartition_of_runs {transactions : List (Transaction × TxResult)}
    {blocks : List EthBlock}
    (h : List.Forall₂ EthBlock.Holds blocks (runs recipientOf transactions)) :
    IsPartition transactions blocks := by
  refine ⟨?_, nonempty_holds h, ⟨_, flatten_runs _ _, h⟩,
    differ_holds h (areRuns recipientOf transactions).differ⟩
  rw [flatMap_holds h, flatten_runs]

theorem createEthBlocks_eq {transactions updated : List (Transaction × TxResult)}
    {blocks : List EthBlock} (hfits : FitsVec transactions)
    (h : createEthBlocks X blockhash timestamp transactions .engineApi = .ok (blocks, updated)) :
    EthBlocksState.UpdatedFrom X blockhash transactions updated ∧
      List.Forall₂ EthBlock.Holds blocks (runs recipientOf updated) := by
  obtain ⟨st, hst, h⟩ := Except.ok_of_bind h
  cases h
  refine ⟨(EthBlocksState.foldlM_counted hfits hst).updated, ?_⟩
  rcases EthBlocksState.foldlM_grouped hfits hst with ⟨_, rfl⟩ | ⟨closed, opened, hgrouped⟩
  · exact .nil
  · have htx : st.blockTxs = hashesOf opened := hgrouped.filling.transactions
    have hfilled : st.blockTxs.isEmpty = false := by
      rw [htx, hashesOf, List.isEmpty_map]
      exact List.isEmpty_eq_false_iff.mpr hgrouped.filling.nonempty
    rw [hfilled, hgrouped.runs]
    exact List.rel_append hgrouped.ethBlocks (.cons hgrouped.filling .nil)

/-! ## One block for all -/

namespace EthBlocksState

theorem foldlM_singleState {l : List (Transaction × TxResult)} {st : EthBlocksState}
    (h : l.foldlM (EthBlocksState.add X blockhash timestamp .singleState) start = .ok st) :
    st.ethBlocks = [] ∧ st.gasRecipient = none ∧ st.blockTxs = hashesOf st.transactions ∧
      st.blockGasUsed.toNat = gasSum st.transactions := by
  refine foldlM_invariant (f := EthBlocksState.add X blockhash timestamp .singleState)
    (P := fun _ st => st.ethBlocks = [] ∧ st.gasRecipient = none ∧
      st.blockTxs = hashesOf st.transactions ∧ st.blockGasUsed.toNat = gasSum st.transactions)
    (fun done e s s' hs hadd => ?_) ⟨rfl, rfl, rfl, rfl⟩ h
  obtain ⟨index, _, hadds⟩ := add_ok hadd
  obtain ⟨hblocks, hrecipient, htxs, hgas⟩ := hs
  cases hadds with
  | joined gas hmode hsum =>
      refine ⟨hblocks, hrecipient, ?_, ?_⟩
      · show s.blockTxs ++ _ = _
        rw [hashesOf_append, htxs]
        rfl
      · show gas.toNat = _
        rw [gasSum_append, gasSum_singleton, (U256.checkedAdd_ok hsum).2, hgas]
  | opened hmode | closed hmode => cases hmode

end EthBlocksState

theorem createEthBlocks_singleState {transactions updated : List (Transaction × TxResult)}
    {blocks : List EthBlock} (hfits : FitsVec transactions)
    (h : createEthBlocks X blockhash timestamp transactions .singleState = .ok (blocks, updated)) :
    EthBlocksState.UpdatedFrom X blockhash transactions updated ∧
      (transactions = [] → blocks = []) ∧
      (transactions ≠ [] → ∃ block, blocks = [block] ∧ block.transactions = hashesOf updated ∧
        block.blockGasUsed.toNat = gasSum transactions) := by
  obtain ⟨st, hst, h⟩ := Except.ok_of_bind h
  cases h
  have hcounted := EthBlocksState.foldlM_counted hfits hst
  obtain ⟨hblocks, _, htxs, hgas⟩ := EthBlocksState.foldlM_singleState hst
  have hlength : st.transactions.length = transactions.length := hcounted.updated.length_eq.symm
  refine ⟨hcounted.updated, ?_, ?_⟩
  · intro hnil
    rw [hnil, List.length_nil, List.length_eq_zero_iff] at hlength
    rw [hblocks, htxs, hlength]
    rfl
  · intro hne
    have hfilled : st.blockTxs.isEmpty = false := by
      rw [htxs, hashesOf, List.isEmpty_map, List.isEmpty_eq_false_iff]
      intro hnil
      rw [hnil, List.length_nil] at hlength
      exact hne (List.length_eq_zero_iff.mp hlength.symm)
    rw [hblocks, hfilled]
    exact ⟨_, rfl, htxs, hgas.trans (gasSum_congr hcounted.results)⟩

theorem createEthBlocks_returns (X : Crates) (blockhash : H256) (timestamp : Option Int)
    (mode : BlockParseMode) {transactions : List (Transaction × TxResult)}
    (hfits : FitsVec transactions) (hgas : gasSum transactions < 2 ^ 256) :
    ∃ blocks updated,
      createEthBlocks X blockhash timestamp transactions mode = .ok (blocks, updated) := by
  have hreturns : ∃ st, transactions.foldlM (EthBlocksState.add X blockhash timestamp mode) .start
      = .ok st :=
    EthBlocksState.foldlM_returns (EthBlocksState.counted_start X blockhash) hfits hgas
  obtain ⟨st, hst⟩ := hreturns
  exact ⟨_, _, by rw [createEthBlocks, hst]; rfl⟩

/-- The blocks of a Solana block whose gas can be summed: one for each run of a gas
recipient, or one for all transactions if there are any. -/
theorem createEthBlocks_partition (X : Crates) (blockhash : H256) (timestamp : Option Int)
    {transactions : List (Transaction × TxResult)} (hfits : FitsVec transactions)
    (hgas : gasSum transactions < 2 ^ 256) :
    (∃ blocks updated,
      createEthBlocks X blockhash timestamp transactions .engineApi = .ok (blocks, updated) ∧
        EthBlocksState.UpdatedFrom X blockhash transactions updated ∧
        IsPartition updated blocks) ∧
    (∃ blocks updated,
      createEthBlocks X blockhash timestamp transactions .singleState = .ok (blocks, updated) ∧
        EthBlocksState.UpdatedFrom X blockhash transactions updated ∧
        (transactions = [] → blocks = []) ∧
        (transactions ≠ [] → ∃ block, blocks = [block] ∧
          block.transactions = hashesOf updated ∧
          block.blockGasUsed.toNat = gasSum transactions)) := by
  constructor
  · obtain ⟨blocks, updated, hok⟩ := createEthBlocks_returns X blockhash timestamp .engineApi
      hfits hgas
    obtain ⟨hupdated, hruns⟩ := createEthBlocks_eq hfits hok
    exact ⟨blocks, updated, hok, hupdated, isPartition_of_runs hruns⟩
  · obtain ⟨blocks, updated, hok⟩ := createEthBlocks_returns X blockhash timestamp .singleState
      hfits hgas
    exact ⟨blocks, updated, hok, createEthBlocks_singleState hfits hok⟩

/-- A transaction with its result: its hash, gas and gas recipient, and how many logs. -/
def executedTx (hash : TxHash) (gas : U256) (recipient : Option Address) (logs : Nat) :
    Transaction × TxResult :=
  (bareTx hash, ⟨⟨0, "ok", []⟩, List.replicate logs ⟨0, [], []⟩, ⟨gas, 0, recipient⟩⟩)

/-- Recipients none, 5, none, none. -/
def alternating : List (Transaction × TxResult) :=
  [executedTx 1 21000 none 0, executedTx 2 30000 (some 5) 0, executedTx 3 40000 none 0,
    executedTx 4 50000 none 0]

theorem alternating_partition :
    (∃ blocks updated, createEthBlocks standIns 0 none alternating .engineApi
        = .ok (blocks, updated) ∧
      EthBlocksState.UpdatedFrom standIns 0 alternating updated ∧ IsPartition updated blocks) ∧
    (∃ blocks updated, createEthBlocks standIns 0 none alternating .singleState
        = .ok (blocks, updated) ∧
      EthBlocksState.UpdatedFrom standIns 0 alternating updated ∧
      (alternating = [] → blocks = []) ∧
      (alternating ≠ [] → ∃ block, blocks = [block] ∧ block.transactions = hashesOf updated ∧
        block.blockGasUsed.toNat = gasSum alternating)) :=
  createEthBlocks_partition standIns 0 none ⟨by decide, by decide⟩ (by decide)

end RomeSdk
