import RomeSdk.Proofs.LatestBlock
import RomeSdk.Proofs.RecordedParams

/-!
# Recorded batches and the latest block

No recorded block is above the latest block of op-geth (`AtMost`). A batch that was
produced on top of the latest block and is recorded leaves both at its last block,
with the rest of the pending blocks ready to go on top of it (`Ready.recorded`). What
is restored is what op-geth answered for the numbers that were asked for, and stays
at most the latest block as well.
-/

namespace RomeSdk

open ItemId (Before)

/-! ## What is recorded of it -/

namespace OnTop

variable {σ : Type} {P : EngineAPIBlockProducer σ} {E : EngineChain P} {parentHash : H256}
  {number : Nat} {blocks : List BlockParams}

/-- The last block has the highest number, and no other block has it. -/
theorem le_last (h : OnTop E parentHash number blocks) {params last : BlockParams}
    (hlast : blocks.getLast? = some last) (hparams : params ∈ blocks) :
    params.number ≤ last.number ∧ (params.number = last.number → params = last) := by
  obtain ⟨k, hk⟩ := List.mem_iff_getElem?.mp hparams
  rw [List.getLast?_eq_getElem?] at hlast
  have hlt : k < blocks.length := (List.getElem?_eq_some_iff.mp hk).1
  rw [h.number_at hk, h.number_at hlast]
  refine ⟨by omega, fun heq => ?_⟩
  have hsame : k = blocks.length - 1 := by omega
  rw [hsame, hlast] at hk
  exact (Option.some.inj hk).symm

end OnTop

theorem lastKeyValue_eq (blocks : ProducedBlocks) :
    blocks.lastKeyValue = (NestedMap.lastEntry blocks).map fun e => (e.1.1, e.1.2, e.2) := by
  rw [ProducedBlocks.lastKeyValue, NestedMap.lastEntry]
  cases blocks.toList.getLast? with
  | none => rfl
  | some group =>
      obtain ⟨slotNumber, slotBlocks⟩ := group
      simp only [bind, Option.bind_some]
      cases slotBlocks.toList.getLast? <;> rfl

theorem contains_retainAfter {pending : PendingBlocks} {last id : EthBlockId}
    (h : (pending.retainAfter last.1 last.2).contains id.1 id.2 = true) :
    pending.contains id.1 id.2 = true ∧ Before last id := by
  rw [PendingBlocks.contains, PendingBlocks.retainAfter, BTreeMap.get?_filterMap] at h
  rw [PendingBlocks.contains]
  cases hslot : pending[id.1]? with
  | none =>
      rw [hslot] at h
      cases h
  | some l1Block =>
      simp only [hslot, Option.bind_some] at h
      split at h
      · cases h
      · next kept hkept =>
        split at hkept
        · next habove =>
          cases hkept
          exact ⟨h, Or.inl habove⟩
        · split at hkept
          · next hsame =>
            split at hkept
            · cases hkept
            · cases hkept
              rw [Std.ExtTreeMap.contains_eq_isSome_getElem?, Std.ExtTreeMap.getElem?_filter',
                Option.isSome_iff_exists] at h
              obtain ⟨l2Block, h⟩ := h
              obtain ⟨hget, hbelow⟩ := Option.filter_eq_some_iff.mp h
              refine ⟨?_, Or.inr ⟨hsame.symm, of_decide_eq_true hbelow⟩⟩
              show l1Block.l2Blocks.contains id.2 = true
              rw [Std.ExtTreeMap.contains_eq_isSome_getElem?, hget]
              rfl
          · cases hkept

theorem contains_of_mem_keys {pending : PendingBlocks} {id : EthBlockId} (h : id ∈ pending.keys) :
    pending.contains id.1 id.2 = true := by
  rw [PendingBlocks.keys, List.mem_flatMap] at h
  obtain ⟨e, he, hid⟩ := h
  obtain ⟨b, hb, rfl⟩ := List.mem_map.mp hid
  rw [PendingBlocks.contains, (BTreeMap.mem_toList pending e.1 e.2).mp he]
  show e.2.l2Blocks.contains b.1 = true
  rw [Std.ExtTreeMap.contains_eq_isSome_getElem?, (BTreeMap.mem_toList e.2.l2Blocks b.1 b.2).mp hb]
  rfl

open PgStorage (paramsOf recordAllParams)

variable {block γ : Type} {P : EngineAPIBlockProducer γ} {C : CanonicalChain P}

/-- No recorded block is above the latest block of op-geth, and at its number there is
none but the latest one. -/
def AtMost (C : CanonicalChain P) (db : Db block) (g : γ) : Prop :=
  ∀ id params, paramsOf db id = some params → params.number ≤ C.height g ∧
    (params.number = C.height g → params.hash = C.head g)

namespace AtMost

variable {db db' : Db block} {g g' : γ}

theorem grown (h : AtMost C db g) (hg : C.Grown g g') : AtMost C db g' := by
  intro id params hparams
  obtain ⟨hle, hhash⟩ := h id params hparams
  rcases hg with hsame | hlt
  · rw [hsame, CanonicalChain.height, hsame]
    exact ⟨hle, hhash⟩
  · exact ⟨Nat.le_of_lt (Nat.lt_of_le_of_lt hle hlt),
      fun heq => absurd (heq ▸ hle) (Nat.not_le_of_lt hlt)⟩

theorem height_le (h : AtMost C db g) : PgStorage.height db ≤ C.height g :=
  PgStorage.height_le fun id params hparams => (h id params hparams).1

/-- What is recorded on top of it may be at most the latest block as well. -/
theorem recorded (h : AtMost C db g) {pendingBlocks : PendingBlocks}
    {producedBlocks : ProducedBlocks}
    (hproduced : ∀ id params, NestedMap.get producedBlocks id = some params →
      params.number ≤ C.height g ∧ (params.number = C.height g → params.hash = C.head g))
    (hdb' : db'.ethBlock = (recordAllParams pendingBlocks producedBlocks db).ethBlock) :
    AtMost C db' g := by
  intro id params hparams
  rw [paramsOf, hdb'] at hparams
  rcases PgStorage.paramsOf_recordAllParams_new hparams with hold | hnew
  · exact h id params hold
  · exact hproduced id params hnew

end AtMost

/-- The pending blocks are stored without parameters, and go on top of the latest block. -/
structure Ready (C : CanonicalChain P) (producerParams : ProducerParams) (db : Db block)
    (g : γ) : Prop where
  level : PgStorage.height db = C.height g
  parent : ∀ hash, producerParams.parentHash = some hash → hash = C.head g
  pending : ∀ id : EthBlockId, producerParams.pendingBlocks.contains id.1 id.2 = true →
    id ∈ db.ethBlock ∧ paramsOf db id = none

section

variable {db db' : Db block} {g g' : γ} {producerParams : ProducerParams} {limit : Option Nat}
  {result : ProductionResult}

/-- Once a batch is recorded, the rest of the pending blocks goes on top of it. -/
theorem Ready.recorded (hready : Ready C producerParams db g) (hmost : AtMost C db g)
    (h : P.produceBlocks producerParams limit g = .ok result g') {lastSlotNumber : Slot}
    {lastBlockIdx : Nat} {lastBlockParams : BlockParams}
    (hlast : result.producedBlocks.lastKeyValue
      = some (lastSlotNumber, lastBlockIdx, lastBlockParams))
    (hdb' : db'.ethBlock
      = (recordAllParams producerParams.pendingBlocks result.producedBlocks db).ethBlock) :
    AtMost C db' g' ∧ Ready C { producerParams with
      parentHash := some lastBlockParams.hash
      pendingBlocks := producerParams.pendingBlocks.retainAfter lastSlotNumber lastBlockIdx }
      db' g' := by
  obtain ⟨hfull, hkeys, htop, hhead⟩ := CanonicalChain.produceBlocks_head hready.parent h
  have hgrown : C.Grown g g' := by
    have hafter := CanonicalChain.produceBlocks_grown limit hready.parent
    rwa [EStateM.after, h] at hafter
  rw [lastKeyValue_eq, Option.map_eq_some_iff] at hlast
  obtain ⟨⟨id, params⟩, hlast, heq⟩ := hlast
  cases heq
  have hlastBlock : ((NestedMap.entries result.producedBlocks).map Prod.snd).getLast?
      = some params := by
    rw [List.getLast?_map, NestedMap.getLast?_entries hfull, hlast]
    rfl
  have hhead : C.head g' = params.hash := by
    rw [hhead, CanonicalChain.lastHash, hlastBlock]
    rfl
  have hheight : C.height g' = params.number := by
    obtain ⟨hash, _, hheader⟩ := htop.header_eq params (List.mem_of_getLast? hlastBlock)
    rw [← hhead] at hheader
    exact CanonicalChain.height_eq hheader
  have hproduced : ∀ id' params', NestedMap.get result.producedBlocks id' = some params' →
      params'.number ≤ C.height g' ∧ (params'.number = C.height g' → params'.hash = C.head g') := by
    intro id' params' hget
    have hmem := List.mem_map_of_mem (f := Prod.snd) ((NestedMap.mem_entries _ _ _).mpr hget)
    obtain ⟨hle, huniq⟩ := htop.le_last hlastBlock hmem
    rw [hheight, hhead]
    exact ⟨hle, fun hnumber => congrArg BlockParams.hash (huniq hnumber)⟩
  have hmost' : AtMost C db' g' := (hmost.grown hgrown).recorded hproduced hdb'
  obtain ⟨hget, hbelow⟩ := (NestedMap.lastEntry_eq_some hfull).mp hlast
  refine ⟨hmost', ?_, ?_, ?_⟩
  · -- the last block is recorded, and nothing above it
    have hkey : id ∈ producerParams.pendingBlocks.keys :=
      hkeys.subset (List.mem_map_of_mem (f := Prod.fst) ((NestedMap.mem_entries _ _ _).mpr hget))
    obtain ⟨hid, hnone⟩ := hready.pending id (contains_of_mem_keys hkey)
    have hrecorded := PgStorage.paramsOf_recordAllParams hid hnone (contains_of_mem_keys hkey) hget
    rw [hheight]
    rw [paramsOf, ← hdb'] at hrecorded
    refine PgStorage.height_eq hrecorded fun id' params' h' => ?_
    rw [← hheight]
    exact (hmost' id' params' h').1
  · intro hash hhash
    cases hhash
    exact hhead.symm
  · intro id' hid'
    obtain ⟨hpending, hafter⟩ := contains_retainAfter hid'
    obtain ⟨hmem, hnone⟩ := hready.pending id' hpending
    have hnot : NestedMap.get result.producedBlocks id' = none := by
      cases hget' : NestedMap.get result.producedBlocks id' with
      | none => rfl
      | some params' =>
          rcases hbelow id' params' hget' with rfl | hbefore
          · exact absurd hafter (ItemId.Before.irrefl _)
          · exact absurd hafter hbefore.asymm
    have hother :=
      PgStorage.paramsOf_recordAllParams_other producerParams.pendingBlocks db hnot
    rw [paramsOf, ← hdb'] at hother
    refine ⟨?_, hother.trans hnone⟩
    rw [hdb', (PgStorage.recordAllParams_spec _ _ db).1]
    exact hmem

end

/-! ## What is restored -/

namespace RollupIndexer

section

variable {σ δ : Type} {f : σ → δ} {c : δ} {Q : BlockParams → Prop}

theorem getBlockParamsLoop_answer {producer : BlockProducer σ} {blockNumber : Nat}
    (hkeeps : EStateM.Preserves f (producer.getBlockParams blockNumber))
    (hanswer : ∀ s params t, f s = c → producer.getBlockParams blockNumber s = .ok params t →
      Q params) : ∀ retries s params t, f s = c →
    getBlockParamsLoop producer blockNumber retries s = .ok params t → Q params := by
  intro retries
  induction retries with
  | zero =>
      intro s params t _ h
      cases h
  | succ retries ih =>
      intro s params t hs h
      obtain ⟨answer, u, hget, h⟩ := EStateM.bind_ok h
      have hu := preserves_attempt hkeeps s
      rw [EStateM.after, hget] at hu
      cases answer with
      | ok params' =>
          cases h
          exact hanswer s params t hs (EngineAPIBlockProducer.attempt_ok hget)
      | error e =>
          simp only at h
          split at h
          · exact ih u params t (hu.trans hs) h
          · cases h

theorem joinAll_answer {α : Type} {g : α → Eff σ BlockParams} (l : List α)
    (hkeeps : ∀ a, EStateM.Preserves f (g a))
    (hanswer : ∀ a ∈ l, ∀ s params t, f s = c → g a s = .ok params t → Q params) :
    ∀ s results t, f s = c → joinAll g l s = .ok results t →
      ∀ params, .ok params ∈ results → Q params := by
  induction l with
  | nil =>
      intro s results t _ h params hparams
      cases h
      cases hparams
  | cons a l ih =>
      intro s results t hs h params hparams
      obtain ⟨answer, u, hget, h⟩ := EStateM.bind_ok h
      obtain ⟨rest, v, hrest, h⟩ := EStateM.bind_ok h
      cases h
      have hu := preserves_attempt (hkeeps a) s
      rw [EStateM.after, hget] at hu
      rcases List.mem_cons.mp hparams with rfl | hparams
      · exact hanswer a (List.mem_cons_self ..) s params u hs
          (EngineAPIBlockProducer.attempt_ok hget)
      · exact ih (fun b hb => hanswer b (List.mem_cons_of_mem _ hb)) u rest _ (hu.trans hs) hrest
          params hparams

theorem collectParams_values (results : List (ProgramResult BlockParams)) :
    ∀ {given out : BTreeMap Nat BlockParams}, (∀ params, .ok params ∈ results → Q params) →
      (∀ (k : Nat) params, given[k]? = some params → Q params) →
      collectParams results given = .ok out →
      ∀ (k : Nat) params, out[k]? = some params → Q params := by
  induction results with
  | nil =>
      intro given out _ hgiven h
      cases h
      exact hgiven
  | cons result results ih =>
      intro given out hresults hgiven h
      cases result with
      | error e => cases h
      | ok params =>
          refine ih (fun params' hparams' => hresults params' (List.mem_cons_of_mem _ hparams')) ?_ h
          intro k params' hget
          rw [BTreeMap.get?_insert] at hget
          split at hget
          · cases hget
            exact hresults _ (List.mem_cons_self ..)
          · exact hgiven k params' hget

theorem alignBlocks_values (keys : List EthBlockId) :
    ∀ {blocksParams : List (Nat × BlockParams)} {parentHash : Option H256}
      {given producedBlocks : ProducedBlocks}, (∀ e ∈ blocksParams, Q e.2) →
      (∀ id params, NestedMap.get given id = some params → Q params) →
      alignBlocks keys blocksParams parentHash given = .ok producedBlocks →
      ∀ id params, NestedMap.get producedBlocks id = some params → Q params := by
  induction keys with
  | nil =>
      intro blocksParams parentHash given producedBlocks _ hgiven h
      cases h
      exact hgiven
  | cons key keys ih =>
      intro blocksParams parentHash given producedBlocks hparams hgiven h
      cases blocksParams with
      | nil =>
          cases h
          exact hgiven
      | cons e blocksParams =>
          rw [alignBlocks] at h
          split at h
          · cases h
          · refine ih (fun e' he' => hparams e' (List.mem_cons_of_mem _ he')) ?_ h
            intro id params hget
            rw [show NestedMap.get (given.insert key.1 key.2 e.2) id = _
              from NestedMap.get_set _ key id _] at hget
            split at hget
            · cases hget
              exact hparams e (List.mem_cons_self ..)
            · exact hgiven id params hget

/-- What is restored is what the producer answered for the numbers that were asked for. -/
theorem getBlocksParams_answer {I : RollupIndexer σ} {producer : BlockProducer σ}
    (hproducer : I.blockProducer = some producer)
    (hkeeps : ∀ blockNumber, EStateM.Preserves f (producer.getBlockParams blockNumber))
    {fromBlock toBlock retries : Nat}
    (hanswer : ∀ blockNumber ≤ toBlock, ∀ s params t, f s = c →
      producer.getBlockParams blockNumber s = .ok params t → Q params)
    {s t : σ} {out : BTreeMap Nat BlockParams} (hs : f s = c)
    (h : I.getBlocksParams fromBlock toBlock retries s = .ok out t) :
    ∀ (k : Nat) params, out[k]? = some params → Q params := by
  obtain ⟨results, u, hjoin, h⟩ := EStateM.bind_ok h
  have hget : ∀ blockNumber, I.getBlockParams blockNumber retries
      = getBlockParamsLoop producer blockNumber retries := by
    intro blockNumber
    rw [getBlockParams, hproducer]
  simp only [hget] at hjoin
  have hresults := joinAll_answer (Q := Q) _
    (fun blockNumber => preserves_getBlockParamsLoop (hkeeps blockNumber) retries)
    (fun blockNumber hmem s params t hs h => by
      obtain ⟨_, _, hlt⟩ := List.mem_range'.mp hmem
      exact getBlockParamsLoop_answer (hkeeps blockNumber) (hanswer blockNumber (by omega)) retries
        s params t hs h) s results u hs hjoin
  cases hcollect : collectParams results ∅ with
  | error e =>
      rw [hcollect] at h
      cases h
  | ok out' =>
      rw [hcollect] at h
      cases h
      refine collectParams_values results hresults ?_ hcollect
      intro k params hget
      rw [Std.ExtTreeMap.getElem?_empty] at hget
      cases hget

end

end RollupIndexer

end RomeSdk
