import RomeSdk.Proofs.Instructions
import RomeSdk.Proofs.StandIns

/-!
# Which steps of a block are lost

A step is filed under the hash of its transaction and the index of the Solana
transaction, and the entry keeps what was filed there first. So of the
instructions of one Solana transaction for one hash the first one leads, and
what the others carry is in the block only if some leading instruction carries
it too. The position of an instruction in its transaction is counted by the
parser but is no part of the key.
-/

namespace RomeSdk

/-- The step shows what the other one carries: its chunk, or its result. -/
structure ParsedTxStep.Shows (shown step : ParsedTxStep) : Prop where
  chunk : ∀ offset data, step = .transmitTx offset data → shown = .transmitTx offset data
  result : ∀ r, step.result = some r → shown.result = some r

/-- What each instruction for the chain carries is in the steps of the block. -/
def Represented (X : Crates) (programId : Pubkey) (chainId : Nat) (block : UiConfirmedBlock)
    (parsedTxs : ParsedTxs) : Prop :=
  ∀ v ∈ block.visits, ∀ hash step, v.effect X programId chainId = .filed hash step →
    ∃ i shown, parsedTxs.stepAt hash i = some shown ∧ shown.Shows step

/-- `v` is the first instruction of its Solana transaction that files a step under `hash`,
and files `step`. -/
def Leads (X : Crates) (programId : Pubkey) (chainId : Nat) (visits : List Visit) (hash : TxHash)
    (step : ParsedTxStep) (v : Visit) : Prop :=
  v.effect X programId chainId = .filed hash step ∧
    ∃ before after, visits = before ++ v :: after ∧
      ∀ w ∈ before, w.txIdx = v.txIdx → ∀ s, w.effect X programId chainId ≠ .filed hash s

/-- The steps of a block are those its leading instructions file. -/
theorem stepAt_eq_some_iff {X : Crates} {programId : Pubkey} {chainId : Nat}
    {visits : List Visit} {hash : TxHash} {i : Nat} {step : ParsedTxStep} :
    (appliedAll X programId chainId visits ∅).stepAt hash i = some step ↔
      ∃ v, v.txIdx = i ∧ Leads X programId chainId visits hash step v := by
  rw [stepAt_block, List.findSome?_eq_some_iff]
  constructor
  · rintro ⟨before, v, after, hsplit, hfiled, hnone⟩
    obtain ⟨heffect, hidx⟩ := Visit.filedAt_eq_some.mp hfiled
    refine ⟨v, hidx, heffect, before, after, hsplit, ?_⟩
    intro w hw hsame s hs
    have hat := Visit.filedAt_eq_some.mpr ⟨hs, hsame.trans hidx⟩
    rw [hnone w hw] at hat
    cases hat
  · rintro ⟨v, hidx, heffect, before, after, hsplit, hbefore⟩
    refine ⟨before, v, after, hsplit, Visit.filedAt_eq_some.mpr ⟨heffect, hidx⟩, ?_⟩
    intro w hw
    refine Option.eq_none_iff_forall_not_mem.mpr fun s hs => ?_
    obtain ⟨hw', hsame⟩ := Visit.filedAt_eq_some.mp hs
    exact hbefore w hw (hsame.trans hidx.symm) s hw'

/-- Every instruction of a block is represented in its steps if and only if none
panics and what each carries is carried by one that leads for the same hash. -/
theorem represented_iff (X : Crates) (block : UiConfirmedBlock) (programId : Pubkey)
    (chainId : Nat) :
    (∃ parsedTxs, parseSolanaBlock X block programId chainId = (parsedTxs, .ok ()) ∧
      Represented X programId chainId block parsedTxs) ↔
      (∀ v ∈ block.visits, v.Returns X programId) ∧
        ∀ v ∈ block.visits, ∀ hash step, v.effect X programId chainId = .filed hash step →
          ∃ leading shown, Leads X programId chainId block.visits hash shown leading ∧
            shown.Shows step := by
  constructor
  · rintro ⟨parsedTxs, hparse, hall⟩
    have hreturns := parseSolanaBlock_returns_iff.mp (congrArg Prod.snd hparse)
    refine ⟨hreturns, ?_⟩
    intro v hv hash step heffect
    obtain ⟨i, shown, hstep, hshows⟩ := hall v hv hash step heffect
    rw [parseSolanaBlock_steps chainId hreturns] at hparse
    cases hparse
    obtain ⟨leading, _, hleads⟩ := stepAt_eq_some_iff.mp hstep
    exact ⟨leading, shown, hleads, hshows⟩
  · rintro ⟨hreturns, hall⟩
    refine ⟨_, parseSolanaBlock_steps chainId hreturns, ?_⟩
    intro v hv hash step heffect
    obtain ⟨leading, shown, hleads, hshows⟩ := hall v hv hash step heffect
    exact ⟨leading.txIdx, shown, stepAt_eq_some_iff.mpr ⟨leading, rfl, hleads⟩, hshows⟩

/-! A Solana transaction that transmits two chunks of the transaction with hash 9. -/

def chunkInstr (offset : Nat) (chunk : Bytes) : CompiledInstruction :=
  ⟨0, 1 :: TransmitTx.layout (leBytes 8 3) offset 9 0 chunk⟩

def twoChunks : UiConfirmedBlock where
  previousBlockhash := ""
  blockhash := ""
  parentSlot := 0
  transactions := some
    [(some ⟨[[]], [7], [chunkInstr 0 [10], chunkInstr 1 [20]]⟩, some ⟨none, none⟩)]
  blockTime := none

theorem second_chunk_lost :
    (parseSolanaBlock standIns twoChunks 7 0).2 = .ok () ∧
    (twoChunks.visits.map fun v => v.effect standIns 7 0)
      = [.filed 9 (.transmitTx 0 [10]), .filed 9 (.transmitTx 1 [20])] ∧
    ∀ i, (parseSolanaBlock standIns twoChunks 7 0).1.stepAt 9 i ≠ some (.transmitTx 1 [20]) := by
  have hreturned : (parseSolanaBlock standIns twoChunks 7 0).2 = .ok () := by decide
  refine ⟨hreturned, by decide, ?_⟩
  intro i hstep
  rw [parseSolanaBlock_steps 0 (parseSolanaBlock_returns_iff.mp hreturned)] at hstep
  obtain ⟨v, _, heffect, before, after, hsplit, hbefore⟩ := stepAt_eq_some_iff.mp hstep
  have hfirst : ∀ w ∈ twoChunks.visits.head?, w.txIdx = 0 ∧
      w.effect standIns 7 0 = .filed 9 (.transmitTx 0 [10]) := by decide
  have hall : ∀ w ∈ twoChunks.visits, w.txIdx = 0 := by decide
  cases before with
  | nil =>
      obtain ⟨_, hother⟩ := hfirst v (by rw [hsplit]; rfl)
      rw [heffect] at hother
      cases hother
  | cons w before =>
      obtain ⟨hw, hother⟩ := hfirst w (by rw [hsplit]; rfl)
      have hv : v.txIdx = 0 := hall v (by rw [hsplit]; simp)
      exact hbefore w (List.mem_cons_self ..) (hw.trans hv.symm) _ hother

end RomeSdk
