import RomeSdk.Proofs.RestoredBlocks

/-!
# The latest block of op-geth

Only a fork choice update moves the latest block. While a block is produced it goes
from the parent to the new block and nowhere else, so a production on top of the
latest block never goes back, wherever it stops (`Grown`), and one that ends leaves
its last block as the latest one (`produceBlocks_head`).
-/

namespace RomeSdk

open ItemId (Before)

/-- What op-geth says of its canonical chain. Only a fork choice update moves the
latest block, if anywhere then to the head it names. -/
structure CanonicalChain {γ : Type} (P : EngineAPIBlockProducer γ) extends EngineChain P where
  head : γ → H256
  getBlock : ∀ id, EStateM.Preserves head (P.gethApi.getBlock id)
  getBlockNumber : EStateM.Preserves head P.gethApi.getBlockNumber
  getPayloadV2 : ∀ payloadId, EStateM.Preserves head (P.gethEngine.getPayloadV2 payloadId)
  newPayloadV2 : ∀ payload, EStateM.Preserves head (P.gethEngine.newPayloadV2 payload)
  moves : ∀ state params g,
    head ((P.gethEngine.forkchoiceUpdatedV2 state params).after g) = head g ∨
      head ((P.gethEngine.forkchoiceUpdatedV2 state params).after g) = state.headBlockHash
  /-- A payload the engine has built is valid. -/
  valid : ∀ {payloadId g payload g' gasUsed u hash u'},
    P.gethEngine.getPayloadV2 payloadId g = .ok (some payload) g' →
    P.gethEngine.newPayloadV2 { payload with romeGasUsed := gasUsed } u = .ok hash u' →
    hash = payload.blockHash
  /-- What was just found valid can be made the latest block. -/
  becomesHead : ∀ {payload g hash g' finalized payloadId g''},
    P.gethEngine.newPayloadV2 payload g = .ok hash g' →
    P.gethEngine.forkchoiceUpdatedV2 ⟨hash, hash, finalized⟩ none g' = .ok payloadId g'' →
    head g'' = hash
  latest : ∀ {g block g'}, P.gethApi.getBlock .latest g = .ok (some block) g' →
    block.hash = some (head g)
  latestNumber : ∀ {g number g'}, P.gethApi.getBlockNumber g = .ok number g' →
    ∃ latest, header (head g) = some latest ∧ latest.number = number
  byNumber : ∀ {number g block g'}, P.gethApi.getBlock (.number number) g = .ok (some block) g' →
    block.number = some number ∧
      ∀ latest, header (head g) = some latest → latest.number = number →
        block.hash = some (head g)

namespace CanonicalChain

variable {γ : Type} {P : EngineAPIBlockProducer γ}

/-- The number of the latest block. -/
def height (C : CanonicalChain P) (g : γ) : Nat := ((C.header (C.head g)).map Header.number).getD 0

variable {C : CanonicalChain P}

theorem height_eq {g : γ} {latest : Header} (h : C.header (C.head g) = some latest) :
    C.height g = latest.number := by
  rw [height, h]
  rfl

/-- The latest block is the same, or has a higher number. -/
def Grown (C : CanonicalChain P) (g g' : γ) : Prop :=
  C.head g' = C.head g ∨ C.height g < C.height g'

theorem Grown.trans {g g' g'' : γ} (h : C.Grown g g') (h' : C.Grown g' g'') : C.Grown g g'' := by
  rcases h with h | h
  · rw [Grown, height, ← h]
    exact h'
  · rcases h' with h' | h'
    · have hsame : C.height g'' = C.height g' := by rw [height, h', height]
      exact Or.inr (hsame ▸ h)
    · exact Or.inr (Nat.lt_trans h h')

theorem grown_of_parent {g g' : γ} {parent : Header} {timestamp : U256}
    (hparent : C.header (C.head g) = some parent)
    (h : C.header (C.head g') = some ⟨C.head g, parent.number + 1, timestamp⟩) :
    C.Grown g g' := by
  rw [Grown, height_eq hparent, height_eq h]
  exact Or.inr (Nat.lt_succ_self _)

/-- A call that leaves the latest block alone, and what comes after it. -/
theorem grown_bind {α β : Type} {x : Eff γ α} {f : α → Eff γ β} {g u : γ}
    (hu : C.head u = C.head g) (hx : C.head (x.after u) = C.head u)
    (hf : ∀ a v, x u = .ok a v → C.head v = C.head g → C.Grown g ((f a).after v)) :
    C.Grown g ((x >>= f).after u) := by
  rw [EStateM.after_bind]
  rw [EStateM.after] at hx
  cases hrun : x u with
  | ok a v =>
      rw [hrun] at hx
      exact hf a v hrun (hx.trans hu)
  | error e v =>
      rw [hrun] at hx
      exact Or.inl (hx.trans hu)

/-! ### One block -/

section

variable {finalizedBlockhash parentHash : H256} {timestamp : U256} {txs : List StateAdvanceTx}
  {gasRecipient : Option Address} {finalizeNewBlock : Bool} {g : γ}

/-- The payload that was started is a valid block on top of the latest one, which it may
become. -/
theorem payload_grown {parent : Header} {state : ForkchoiceState}
    {params : ForkchoiceUpdateParams} {payloadId : PayloadId} {u v w : γ}
    {payload : ExecutionPayload} {gasUsed : Option (List Nat)} {hash : H256}
    (hparent : C.header (C.head g) = some parent) (hstate : state.headBlockHash = C.head g)
    (hstart : P.gethEngine.forkchoiceUpdatedV2 state (some params) g = .ok (some payloadId) u)
    (hget : P.gethEngine.getPayloadV2 payloadId u = .ok (some payload) v)
    (hnew : P.gethEngine.newPayloadV2 { payload with romeGasUsed := gasUsed } v = .ok hash w) :
    hash = payload.blockHash ∧ C.header hash = some ⟨C.head g, parent.number + 1, params.timestamp⟩ := by
  have hhash := C.valid hget hnew
  have hstarted := C.starts hstart
  rw [hstate] at hstarted
  rw [hhash]
  exact ⟨rfl, (C.builds hget hstarted hparent).2⟩

/-- Wherever it stops, the latest block is the parent or the new block. -/
theorem advance_grown {parent : Header} (hhead : C.head g = parentHash)
    (hparent : C.header parentHash = some parent) (finalizedBlockhash : H256) (timestamp : U256)
    (txs : List StateAdvanceTx) (gasRecipient : Option Address) (finalizeNewBlock : Bool) :
    C.Grown g ((P.gethEngine.advanceRollupState finalizedBlockhash parentHash timestamp txs
      gasRecipient finalizeNewBlock).after g) := by
  subst hhead
  refine grown_bind rfl (or_self_iff.mp (C.moves ..)) fun payloadId u hstart hu => ?_
  cases payloadId with
  | none => exact Or.inl hu
  | some payloadId =>
      refine grown_bind hu (C.getPayloadV2 payloadId u) fun payload v hget hv => ?_
      cases payload with
      | none => exact Or.inl hv
      | some payload =>
          refine grown_bind hv (C.newPayloadV2 _ v) fun hash w hnew hw => ?_
          obtain ⟨_, hheader⟩ := payload_grown hparent rfl hstart hget hnew
          rw [EStateM.after_bind]
          have hmoves := C.moves ⟨hash, hash, if finalizeNewBlock then hash
            else finalizedBlockhash⟩ none w
          rw [EStateM.after] at hmoves
          have hgrown : ∀ x, C.head x = C.head w ∨ C.head x = hash → C.Grown g x := by
            intro x hx
            rcases hx with hx | hx
            · exact Or.inl (hx.trans hw)
            · exact grown_of_parent hparent (hx ▸ hheader)
          split
          · next answer x hupdate =>
            rw [hupdate] at hmoves
            exact hgrown x hmoves
          · next e x hupdate =>
            rw [hupdate] at hmoves
            exact hgrown x hmoves

theorem advance_head {parent : Header} {blockNumber : Nat} {blockHash : H256} {g' : γ}
    (hhead : C.head g = parentHash) (hparent : C.header parentHash = some parent)
    (h : P.gethEngine.advanceRollupState finalizedBlockhash parentHash timestamp txs gasRecipient
      finalizeNewBlock g = .ok (blockNumber, blockHash) g') : C.head g' = blockHash := by
  subst hhead
  obtain ⟨payloadId, u, hstart, h⟩ := EStateM.bind_ok h
  cases payloadId with
  | none => cases h
  | some payloadId =>
      obtain ⟨payload, v, hget, h⟩ := EStateM.bind_ok h
      cases payload with
      | none => cases h
      | some payload =>
          obtain ⟨newBlockhash, w, hnew, h⟩ := EStateM.bind_ok h
          obtain ⟨_, x, hupdate, h⟩ := EStateM.bind_ok h
          cases h
          rw [C.becomesHead hnew hupdate]
          exact (payload_grown hparent rfl hstart hget hnew).1

end

/-! ### A run of `produce_blocks` -/

/-- The hash of the last of some blocks on top of the block `hash`. -/
def lastHash (hash : H256) (blocks : List BlockParams) : H256 :=
  (blocks.getLast?.map BlockParams.hash).getD hash

theorem after_attempt {α : Type} (x : Eff γ α) (g : γ) : x.attempt.after g = x.after g := by
  simp only [EStateM.after, Eff.attempt]
  cases x g with
  | ok a t => rfl
  | error e t => cases e <;> rfl

/-- A block that was tried, whether it came about or not. -/
theorem attempt_grown {parentHash : H256} {parent : Header} {g : γ} (hhead : C.head g = parentHash)
    (hparent : C.header parentHash = some parent) (finalizedBlockhash : H256) (timestamp : U256)
    (txs : List StateAdvanceTx) (gasRecipient : Option Address) (finalizeNewBlock : Bool) :
    match (P.gethEngine.advanceRollupState finalizedBlockhash parentHash timestamp txs gasRecipient
      finalizeNewBlock).attempt g with
    | .ok (.ok (_, blockHash)) u => C.Grown g u ∧ C.head u = blockHash ∧
        C.header blockHash = some ⟨parentHash, parent.number + 1, timestamp⟩
    | .ok (.error _) u | .error _ u => C.Grown g u := by
  have hgrown := advance_grown hhead hparent finalizedBlockhash timestamp txs gasRecipient
    finalizeNewBlock
  rw [← after_attempt, EStateM.after] at hgrown
  split
  · next blockNumber blockHash u hadvance =>
    rw [hadvance] at hgrown
    have hadvance := EngineAPIBlockProducer.attempt_ok hadvance
    exact ⟨hgrown, advance_head hhead hparent hadvance,
      (EngineAPIBlockProducer.advanceRollupState_ok C.toEngineChain hparent hadvance).2⟩
  · next e u hadvance =>
    rw [hadvance] at hgrown
    exact hgrown
  · next e u hadvance =>
    rw [hadvance] at hgrown
    exact hgrown

theorem produceLoop_grown {nextFinalized : Option EthBlockId} {limit : Option Nat}
    (items : List (Slot × PendingL1Block × Nat × PendingL2Block)) :
    ∀ {currentFinalized parentHash : H256} {producedBlocks : ProducedBlocks} {parent : Header}
      {g : γ}, C.head g = parentHash → C.header parentHash = some parent →
    C.Grown g ((P.produceLoop nextFinalized limit items currentFinalized parentHash
      producedBlocks).after g) := by
  induction items with
  | nil =>
      intro currentFinalized parentHash producedBlocks parent g hhead hparent
      exact Or.inl rfl
  | cons item rest ih =>
      intro currentFinalized parentHash producedBlocks parent g hhead hparent
      obtain ⟨slotNumber, pendingL1Block, blockIdx, pendingL2Block⟩ := item
      rw [EngineAPIBlockProducer.produceLoop]
      cases htxs : P.stateAdvanceTxs (pendingL2Block.transactions.toList.map Prod.snd) with
      | error e => exact Or.inl rfl
      | ok txs =>
          have hattempt := attempt_grown hhead hparent currentFinalized pendingL1Block.timestamp
            txs pendingL2Block.gasRecipient
            (EngineAPIBlockProducer.finalizes nextFinalized slotNumber blockIdx)
          simp only
          rw [EStateM.after_bind]
          split at hattempt
          · next blockNumber blockHash u hadvance =>
            obtain ⟨hgrown, hhead', hheader⟩ := hattempt
            rw [hadvance]
            simp only
            split
            · exact hgrown
            · exact hgrown.trans (ih hhead' hheader)
          · next e u hadvance =>
            rw [hadvance]
            exact hattempt
          · next e u hadvance =>
            rw [hadvance]
            exact hattempt

/-- Given the latest block or none, what is built goes on top of the latest block. -/
theorem getParentBlock_head {parentHash : Option H256} {block : GethBlock} {hash : H256} {g u : γ}
    (hparent : ∀ given, parentHash = some given → given = C.head g)
    (h : P.getParentBlock parentHash g = .ok block u) (hhash : block.hash = some hash) :
    hash = C.head g := by
  cases parentHash with
  | some given =>
      rw [← hparent given rfl]
      exact ((EngineAPIBlockProducer.getParentBlock_ok C.toEngineChain h hhash).1 given rfl).symm
  | none =>
      obtain ⟨answer, v, hget, h⟩ := EStateM.bind_ok h
      match answer with
      | .ok (some b) =>
          have hlatest := C.latest (EngineAPIBlockProducer.attempt_ok hget)
          cases hnumber : b.number with
          | none =>
              simp only [hnumber] at h
              cases h
          | some number =>
              simp only [hnumber] at h
              split at h
              · cases h
              · cases h
                rw [hhash] at hlatest
                exact Option.some.inj hlatest
      | .ok none => cases h
      | .error e => cases h

theorem Advanced_head {blocks : List BlockParams} : ∀ {s t : γ} {parentHash : H256}
    {parent : Header}, C.head s = parentHash → C.header parentHash = some parent →
    EngineAPIBlockProducer.Advanced P s parentHash blocks t →
    C.head t = lastHash parentHash blocks := by
  induction blocks with
  | nil =>
      intro s t parentHash parent hhead _ h
      rw [show t = s from h, hhead]
      rfl
  | cons params rest ih =>
      intro s t parentHash parent hhead hparent h
      obtain ⟨_, _, _, _, _, u, hadvance, hrest⟩ := h
      obtain ⟨_, hheader⟩ :=
        EngineAPIBlockProducer.advanceRollupState_ok C.toEngineChain hparent hadvance
      rw [ih (advance_head hhead hparent hadvance) hheader hrest, lastHash, lastHash,
        List.getLast?_cons]
      cases rest.getLast? <;> rfl

section

variable {producerParams : ProducerParams} {limit : Option Nat} {g : γ}

/-- Wherever `produce_blocks` stops, it has not gone back. -/
theorem produceBlocks_grown (limit : Option Nat)
    (hparent : ∀ hash, producerParams.parentHash = some hash → hash = C.head g) :
    C.Grown g ((P.produceBlocks producerParams limit).after g) := by
  rw [EngineAPIBlockProducer.produceBlocks]
  refine grown_bind rfl (EngineAPIBlockProducer.preserves_getParentBlock C.getBlock _ g)
    fun parentBlock u hget hu => ?_
  refine grown_bind hu (EngineAPIBlockProducer.preserves_firstFinalized C.getBlock _ _ u)
    fun finalizedBlockhash v _ hv => ?_
  cases hhash : parentBlock.hash with
  | none => exact Or.inl hv
  | some hash =>
      have hhead := getParentBlock_head hparent hget hhash
      obtain ⟨_, parent, hheader⟩ :=
        EngineAPIBlockProducer.getParentBlock_ok C.toEngineChain hget hhash
      exact Grown.trans (Or.inl hv) (produceLoop_grown _ (hv.trans hhead.symm) hheader)

/-- What `produce_blocks` returns goes on top of the latest block, and its last block is
the latest one then. -/
theorem produceBlocks_head
    (hparent : ∀ hash, producerParams.parentHash = some hash → hash = C.head g)
    {result : ProductionResult} {g' : γ}
    (h : P.produceBlocks producerParams limit g = .ok result g') :
    NestedMap.Full result.producedBlocks ∧
      (NestedMap.entries result.producedBlocks).map Prod.fst <+: producerParams.pendingBlocks.keys ∧
      OnTop C.toEngineChain (C.head g) (C.height g)
        ((NestedMap.entries result.producedBlocks).map Prod.snd) ∧
      C.head g' = lastHash (C.head g)
        ((NestedMap.entries result.producedBlocks).map Prod.snd) := by
  obtain ⟨hfull, hkeys, parentBlock, u, finalizedBlockhash, v, hash, hget, hfinalized, hhash,
    hadvanced⟩ := EngineAPIBlockProducer.produceBlocks_ok h
  obtain ⟨_, parent, hheader⟩ :=
    EngineAPIBlockProducer.getParentBlock_ok C.toEngineChain hget hhash
  have hhead := getParentBlock_head hparent hget hhash
  have hv : C.head v = C.head g := by
    have h₁ := EngineAPIBlockProducer.preserves_getParentBlock C.getBlock
      producerParams.parentHash g
    have h₂ := EngineAPIBlockProducer.preserves_firstFinalized C.getBlock parentBlock
      producerParams.parentHash u
    rw [EStateM.after, hget] at h₁
    rw [EStateM.after, hfinalized] at h₂
    exact h₂.trans h₁
  subst hhead
  refine ⟨hfull, hkeys, ?_, Advanced_head hv hheader hadvanced⟩
  rw [height_eq hheader]
  exact hadvanced.onTop C.toEngineChain hheader

end

end CanonicalChain

end RomeSdk
