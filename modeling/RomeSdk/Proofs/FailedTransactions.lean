import RomeSdk.Indexer.BlockResponse
import RomeSdk.Proofs.Containment

/-!
# Failed transactions of the relayer

An error field that cannot be read is dropped, and the transaction it is in counts
as one that succeeded. So its instructions are read as those of any other one.
-/

namespace RomeSdk

namespace RelayerSolanaBlockStorage

variable {X : Crates} {D : Decoders} {bp : BlockParser}

/-- The steps `register_block` hands to the transaction parser. -/
def registeredSteps (X : Crates) (bp : BlockParser) (solanaBlock : UiConfirmedBlock) : ParsedTxs :=
  match parseSolanaBlock X solanaBlock bp.programId bp.chainId with
  | (_, .error _) => ∅
  | (parsedTxs, .ok ()) => parsedTxs

/-- What is asked of a block: no step of a transaction that has an error field. -/
def FailedNotRegistered (X : Crates) (D : Decoders) (bp : BlockParser) (block : GetBlockResponse) :
    Prop :=
  ∀ (txIdx : Nat) (tx : EncodedTransaction), block.txs[txIdx]? = some tx → tx.error ≠ none →
    ∀ hash, (registeredSteps X bp (castBlockResponseToUiBlock D block).1).stepAt hash txIdx = none

/-- An instruction of the transaction would file a step if the transaction were one that
succeeded. -/
def HasStep (X : Crates) (bp : BlockParser) (transaction : SolTransaction)
    (logs : List String) : Prop :=
  ∃ instr ∈ transaction.instructions, ∃ hash step,
    (Visit.mk 0 transaction ⟨none, some logs⟩ instr).effect X bp.programId bp.chainId
      = .filed hash step

/-- The error field is there and cannot be read. -/
def Unreadable (D : Decoders) (tx : EncodedTransaction) : Prop :=
  ∃ bytes e, tx.error = some bytes ∧ D.deserialize bytes = .error e

/-! ## What is visited of a transaction -/

theorem castTransaction_readable {tx : EncodedTransaction} {bytes : Bytes} {error : String}
    (herror : tx.error = some bytes) (hread : D.deserialize bytes = .ok error) :
    castTransaction D tx = (D.decode tx.isLegacy tx.body, some ⟨some error, some tx.logs⟩) := by
  simp only [castTransaction, herror, Option.map_some, hread, transpose, unwrapOrDefault]

theorem castTransaction_unreadable {tx : EncodedTransaction} (h : Unreadable D tx) :
    castTransaction D tx = (D.decode tx.isLegacy tx.body, some ⟨none, some tx.logs⟩) := by
  obtain ⟨bytes, e, herror, hread⟩ := h
  simp only [castTransaction, herror, Option.map_some, hread, transpose, unwrapOrDefault]

/-- A transaction with an error field is visited only if the field cannot be read, and then
like one that succeeded. -/
theorem mem_visitsOf_failed {tx : EncodedTransaction} (herror : tx.error ≠ none) {txIdx : Nat}
    {v : Visit} : v ∈ visitsOf (castTransaction D tx, txIdx) ↔
      Unreadable D tx ∧ ∃ transaction, D.decode tx.isLegacy tx.body = some transaction ∧
        ∃ instr ∈ transaction.instructions,
          v = .mk txIdx transaction ⟨none, some tx.logs⟩ instr := by
  obtain ⟨bytes, hbytes⟩ := Option.ne_none_iff_exists'.mp herror
  cases hread : D.deserialize bytes with
  | ok error =>
      rw [castTransaction_readable hbytes hread]
      have hreadable : ¬ Unreadable D tx := by
        intro ⟨bytes', e, hbytes', hread'⟩
        rw [hbytes] at hbytes'
        cases hbytes'
        rw [hread] at hread'
        cases hread'
      have hnone : visitsOf ((D.decode tx.isLegacy tx.body, some ⟨some error, some tx.logs⟩), txIdx)
          = [] := by
        cases D.decode tx.isLegacy tx.body <;> rfl
      rw [hnone]
      exact iff_of_false List.not_mem_nil fun h => hreadable h.1
  | error e =>
      have hunreadable : Unreadable D tx := ⟨bytes, e, hbytes, hread⟩
      rw [castTransaction_unreadable hunreadable]
      cases hdecode : D.decode tx.isLegacy tx.body with
      | none => exact iff_of_false List.not_mem_nil fun ⟨_, _, h, _⟩ => by cases h
      | some transaction =>
          have hvisits : visitsOf ((some transaction, some ⟨none, some tx.logs⟩), txIdx) =
              transaction.instructions.map (.mk txIdx transaction ⟨none, some tx.logs⟩) := rfl
          rw [hvisits, List.mem_map]
          constructor
          · intro ⟨instr, hinstr, heq⟩
            exact ⟨hunreadable, transaction, rfl, instr, hinstr, heq.symm⟩
          · intro ⟨_, transaction', htransaction, instr, hinstr, heq⟩
            cases htransaction
            exact ⟨instr, hinstr, heq.symm⟩

theorem visitsOf_txIdx {e : (Option SolTransaction × Option UiTransactionStatusMeta) × Nat}
    {v : Visit} (h : v ∈ visitsOf e) : v.txIdx = e.2 := by
  obtain ⟨⟨_ | transaction, _ | txMeta⟩, txIdx⟩ := e
  · cases h
  · cases h
  · cases h
  · simp only [visitsOf] at h
    split at h
    · cases h
    · obtain ⟨instr, _, rfl⟩ := List.mem_map.mp h
      rfl

/-- The visits of a block, by transaction. -/
theorem mem_visits_cast {block : GetBlockResponse} {v : Visit} :
    v ∈ (castBlockResponseToUiBlock D block).1.visits ↔
      ∃ tx, block.txs[v.txIdx]? = some tx ∧ v ∈ visitsOf (castTransaction D tx, v.txIdx) := by
  have hvisits : (castBlockResponseToUiBlock D block).1.visits =
      (block.txs.map (castTransaction D)).zipIdx.flatMap visitsOf := rfl
  rw [hvisits, List.mem_flatMap]
  constructor
  · intro ⟨e, he, hv⟩
    have hidx := visitsOf_txIdx hv
    have hget := List.mem_zipIdx_iff_getElem?.mp he
    rw [List.getElem?_map, Option.map_eq_some_iff] at hget
    obtain ⟨tx, htx, hcast⟩ := hget
    refine ⟨tx, by rw [hidx]; exact htx, ?_⟩
    rw [hidx, hcast]
    exact hv
  · intro ⟨tx, htx, hv⟩
    refine ⟨(castTransaction D tx, v.txIdx), List.mem_zipIdx_iff_getElem?.mpr ?_, hv⟩
    rw [List.getElem?_map, htx]
    rfl

/-! ## What is registered -/

theorem stepAt_registered {block : GetBlockResponse}
    (h : ∀ v ∈ (castBlockResponseToUiBlock D block).1.visits, v.Returns X bp.programId)
    (hash : TxHash) (txIdx : Nat) :
    (registeredSteps X bp (castBlockResponseToUiBlock D block).1).stepAt hash txIdx = none ↔
      ∀ v ∈ (castBlockResponseToUiBlock D block).1.visits, v.txIdx = txIdx →
        ∀ step, v.effect X bp.programId bp.chainId ≠ .filed hash step := by
  rw [registeredSteps, parseSolanaBlock_steps bp.chainId h]
  show (appliedAll X bp.programId bp.chainId _ ∅).stepAt hash txIdx = none ↔ _
  rw [stepAt_block, List.findSome?_eq_none_iff]
  constructor
  · intro hnone v hv hidx step heffect
    have hfiled := Visit.filedAt_eq_some.mpr ⟨heffect, hidx⟩
    rw [hnone v hv] at hfiled
    cases hfiled
  · intro hall v hv
    cases hfiled : v.filedAt X bp.programId bp.chainId hash txIdx with
    | none => rfl
    | some step =>
        obtain ⟨heffect, hidx⟩ := Visit.filedAt_eq_some.mp hfiled
        exact absurd heffect (hall v hv hidx step)

/-- Where reading the block panics nothing is registered. -/
theorem registeredSteps_panics {solanaBlock : UiConfirmedBlock}
    (h : ¬ ∀ v ∈ solanaBlock.visits, v.Returns X bp.programId) :
    registeredSteps X bp solanaBlock = ∅ := by
  rw [registeredSteps]
  rcases hparse : parseSolanaBlock X solanaBlock bp.programId bp.chainId with ⟨txs, e | ⟨⟨⟩⟩⟩
  · rfl
  · exact absurd (parseSolanaBlock_returns_iff.mp (congrArg Prod.snd hparse)) h

/-- No step of a failed transaction is registered exactly when reading the block panics or
no transaction whose error field cannot be read has an instruction with a step. -/
theorem failed_not_registered_iff (X : Crates) (D : Decoders) (bp : BlockParser)
    (block : GetBlockResponse) : FailedNotRegistered X D bp block ↔
      (∃ v ∈ (castBlockResponseToUiBlock D block).1.visits, ¬ v.Returns X bp.programId) ∨
      ∀ tx ∈ block.txs, Unreadable D tx → ∀ transaction,
        D.decode tx.isLegacy tx.body = some transaction → ¬ HasStep X bp transaction tx.logs := by
  by_cases hreturns : ∀ v ∈ (castBlockResponseToUiBlock D block).1.visits,
      v.Returns X bp.programId
  · have hnot : ¬ ∃ v ∈ (castBlockResponseToUiBlock D block).1.visits,
        ¬ v.Returns X bp.programId := fun ⟨v, hv, hpanics⟩ => hpanics (hreturns v hv)
    rw [or_iff_right hnot]
    constructor
    · intro hall tx htx hunreadable transaction hdecode ⟨instr, hinstr, hash, step, heffect⟩
      obtain ⟨txIdx, hidx⟩ := List.getElem?_of_mem htx
      have herror : tx.error ≠ none := by
        obtain ⟨bytes, _, hbytes, _⟩ := hunreadable
        rw [hbytes]
        exact Option.some_ne_none _
      have hnone := (stepAt_registered hreturns hash txIdx).mp (hall txIdx tx hidx herror hash)
      have hmem : Visit.mk txIdx transaction ⟨none, some tx.logs⟩ instr ∈
          (castBlockResponseToUiBlock D block).1.visits :=
        mem_visits_cast.mpr ⟨tx, hidx, (mem_visitsOf_failed herror).mpr
          ⟨hunreadable, transaction, hdecode, instr, hinstr, rfl⟩⟩
      exact hnone _ hmem rfl step heffect
    · intro hall txIdx tx hidx herror hash
      refine (stepAt_registered hreturns hash txIdx).mpr ?_
      intro v hv hvidx step heffect
      obtain ⟨tx', htx', hvisit⟩ := mem_visits_cast.mp hv
      rw [hvidx, hidx] at htx'
      cases htx'
      obtain ⟨hunreadable, transaction, hdecode, instr, hinstr, hv⟩ :=
        (mem_visitsOf_failed herror).mp hvisit
      rw [hv] at heffect
      exact hall tx (List.mem_of_getElem? hidx) hunreadable transaction hdecode
        ⟨instr, hinstr, hash, step, heffect⟩
  · have hsome : ∃ v ∈ (castBlockResponseToUiBlock D block).1.visits,
        ¬ v.Returns X bp.programId := by
      by_contra hnone
      exact hreturns fun v hv => by_contra fun hpanics => hnone ⟨v, hv, hpanics⟩
    refine iff_of_true (fun txIdx tx _ _ hash => ?_) (Or.inl hsome)
    rw [registeredSteps_panics hreturns]
    rfl

/-- The parser gets nothing but these steps. -/
theorem registerBlock_eq {slotNumber : Slot} {solanaBlock : UiConfirmedBlock}
    {txParser txParser' : DefaultTxParser}
    (h : bp.registerBlock X slotNumber solanaBlock txParser = (txParser', .ok ())) :
    (txParser.registerSlotTransactions slotNumber (registeredSteps X bp solanaBlock)).1
      = txParser' := by
  rw [BlockParser.registerBlock] at h
  rw [registeredSteps]
  cases hparse : parseSolanaBlock X solanaBlock bp.programId bp.chainId with
  | mk parsedTxs result =>
      rw [hparse] at h
      rcases result with e | ⟨⟨⟩⟩
      · cases h
      · dsimp only at h ⊢
        cases hregister : txParser.registerSlotTransactions slotNumber parsedTxs with
        | mk p outcome =>
            rw [hregister] at h
            rcases outcome with (e | message) | ⟨⟨⟩⟩
            · exact congrArg Prod.fst h
            · cases h
            · exact congrArg Prod.fst h

/-! ## An error of a later release -/

/-- A transaction with one instruction of program 7, which transmits an empty chunk. -/
def transmitting : SolTransaction :=
  ⟨[List.replicate 64 0], [1, 7], [⟨1, 1 :: List.replicate 56 0⟩]⟩

/-- The transaction in base58. -/
def transmittingText : String :=
    "42oa8hcYzy4cAgfoQCvJwaiyV3ZngXeaNfbXzjaHGwDbypnumrcaJKuDfZ2QWPBQPTbMCPNyu8S" ++
    "6KJnwvQEaybjdS9JyKYtstGiTb9N2vYhQURP2Wc7HZAqZfTrd8aepdkAyzXnoSbpRZPAckiYRwp" ++
    "nCKgxhLkJaUZzJnbdmWTaBHCBXnWkN58uSNkZUmr9p2iMgWj56HTCTe7CCoeSrEtvq7F6GT9fsM" ++
    "fdFDeM8dJe4aCVq4yeK5E9kuvYBKV4UFGgfXmsF7JSEwKrFwecvvX125tgj3CMLDWXfw4E3fCjV" ++
    "j1oYN6wR"

/-- Of the errors only `AccountNotFound` is known here. -/
def oldDecoders : Decoders where
  decode _ body := if body = transmittingText then some transmitting else none
  deserialize bytes :=
    if bytes = [2, 0, 0, 0] then .ok "AccountNotFound"
    else .error "invalid value: integer, expected variant index"

/-- The transaction failed with an error that was added later. -/
def laterError : GetBlockResponse where
  blockHash := ""
  parentSlot := 4
  prevBlockHash := ""
  blockTime := 0
  txs := [⟨"", transmittingText, true, some [60, 0, 0, 0], []⟩]
  finalized := true

theorem laterError_block : (castBlockResponseToUiBlock oldDecoders laterError).1 =
    ⟨"", "", 4, some [(some transmitting, some ⟨none, some []⟩)], some 0⟩ := by
  have hdecode : oldDecoders.decode true transmittingText = some transmitting := by
    simp only [oldDecoders, if_true]
  have hunread : oldDecoders.deserialize [60, 0, 0, 0] =
      .error "invalid value: integer, expected variant index" := rfl
  simp only [castBlockResponseToUiBlock, laterError, castTransaction, List.map_cons, List.map_nil,
    Option.map_some, hdecode, hunread, transpose, unwrapOrDefault]

/-- Its step is registered. -/
theorem later_error_registered : ¬ FailedNotRegistered standIns oldDecoders rollup laterError := by
  intro h
  have hnone := h 0 ⟨"", transmittingText, true, some [60, 0, 0, 0], []⟩ rfl
    (Option.some_ne_none _) 0
  rw [laterError_block] at hnone
  have hstep : (registeredSteps standIns rollup ⟨"", "", 4,
      some [(some transmitting, some ⟨none, some []⟩)], some 0⟩).stepAt 0 0
        = some (.transmitTx 0 []) := rfl
  rw [hnone] at hstep
  cases hstep

end RelayerSolanaBlockStorage

end RomeSdk
