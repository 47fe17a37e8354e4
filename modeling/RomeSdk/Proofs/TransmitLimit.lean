import RomeSdk.Proofs.AltSteps

/-!
# A holder grows no faster than it may

A holder account has to be as long as the chunks in it reach, and within one
transaction it may grow by `MAX_PERMITTED_DATA_INCREASE` only. The chunks of one
batch are sent together and executed in any order, so what counts is that the
whole batch lies within that distance of what is confirmed.

Both levels of chunking keep the order and lose nothing, and the batches are
popped from the end of a list that was turned around. So the first batches carry
the first chunks, these cover a prefix of the rlp, and the next batch adds its own
bytes and no more. Twelve chunks of 800 bytes stay within the limit.
-/

namespace RomeSdk

open EStateM

namespace TransmitTx

/-- How long a holder has to be for these chunks. -/
def holderLength : List (Nat × Bytes) → Nat
  | [] => 0
  | c :: C => max (c.1 + c.2.length) (holderLength C)

variable {X : Crates} {t : TransmitTx} {C : List (Nat × Bytes)} {rlp : Bytes}
  {emulation : List (Pubkey × Bool)}

theorem holderLength_le_iff {n : Nat} : holderLength C ≤ n ↔ ∀ c ∈ C, c.1 + c.2.length ≤ n := by
  induction C with
  | nil => simp [holderLength]
  | cons c C ih => simp [holderLength, ih]

/-- Chunks laid end to end take as much room as they have bytes. -/
theorem Cuts.holderLength_eq (h : Cuts rlp C) : holderLength C = rlp.length := by
  have hle : holderLength C ≤ rlp.length := by
    refine holderLength_le_iff.mpr ?_
    intro c hc
    exact (h.slices c hc).fits
  have hge : rlp.length ≤ holderLength C := by
    refine Nat.le_of_not_lt fun hlt => ?_
    obtain ⟨o, n, hmem, _, hbeyond⟩ := h.tiles.covers (Nat.zero_le (holderLength C)) hlt
    obtain ⟨c, hc, heq⟩ := List.mem_map.mp hmem
    cases heq
    have hreach := holderLength_le_iff.mp (Nat.le_refl (holderLength C)) c hc
    omega
  omega

theorem Cuts.length_eq (h : Cuts rlp C) : rlp.length = (C.map Prod.snd).flatten.length := by
  have hend := h.tiles.end_eq
  omega

/-- The instruction of a chunk. -/
def chunkIx (X : Crates) (t : TransmitTx) (emulation : List (Pubkey × Bool)) (c : Nat × Bytes) :
    AtomicIxBatch :=
  [t.txBuilder.buildIx emulation (t.txData X c.1 c.2)]

theorem ixs_ok (hC : t.chunks = .ok C)
    (h : t.txBuilder.emulate (t.txData X 0 t.rlp) t.resource.payerKey = .ok emulation) :
    t.ixs X = .ok (C.map (t.chunkIx X emulation)) := by
  rw [ixs, h, hC]
  rfl

/-- The chunks that are sent with one step. -/
def chunkBatches (C : List (Nat × Bytes)) : List (List (Nat × Bytes)) :=
  intoChunksLoop limit C.length C

theorem chunkBatches_flatten : (chunkBatches C).flatten = C :=
  intoChunksLoop_flatten (by decide) _ _ (Nat.le_refl _)

theorem batches_ok (hC : t.chunks = .ok C)
    (h : t.txBuilder.emulate (t.txData X 0 t.rlp) t.resource.payerKey = .ok emulation) :
    t.batches X = .ok ((chunkBatches C).map (List.map (t.chunkIx X emulation))) := by
  rw [batches, ixs_ok hC h]
  show intoChunks (C.map (t.chunkIx X emulation)) limit = _
  rw [intoChunks, if_neg (by decide), intoChunksLoop_map, List.length_map, chunkBatches]

theorem bytes_le {batch : List (Nat × Bytes)} (hC : t.chunks = .ok C)
    (hbatch : batch ∈ chunkBatches C) :
    (batch.map Prod.snd).flatten.length ≤ MAX_PERMITTED_DATA_INCREASE := by
  have hsmall : ∀ bin ∈ batch.map Prod.snd, bin.length ≤ TRANSMIT_TX_SIZE := by
    intro bin hbin
    obtain ⟨c, hc, rfl⟩ := List.mem_map.mp hbin
    refine chunk_length_le hC c ?_
    rw [← chunkBatches_flatten (C := C)]
    exact List.mem_flatten.mpr ⟨batch, hbatch, hc⟩
  have hsum := length_flatten_le hsmall
  rw [List.length_map] at hsum
  have hfew : batch.length ≤ limit := intoChunksLoop_length_le _ _ batch hbatch
  have hlimit : limit * TRANSMIT_TX_SIZE ≤ MAX_PERMITTED_DATA_INCREASE := by decide
  exact (hsum.trans (Nat.mul_le_mul_right _ hfew)).trans hlimit

/-- With the first batches a prefix of the rlp is there. -/
theorem cuts_take (hC : Cuts rlp C) (i : Nat) :
    ∃ sent, sent <+: rlp ∧ Cuts sent ((chunkBatches C).take i).flatten := by
  have hsplit : C = ((chunkBatches C).take i).flatten ++ ((chunkBatches C).drop i).flatten := by
    rw [← List.flatten_append, List.take_append_drop, chunkBatches_flatten]
  rw [hsplit] at hC
  exact hC.of_append

/-- The next batch, whatever of it is there already, reaches no further than its bytes. -/
theorem holderLength_batch {batch D : List (Nat × Bytes)} {i : Nat} (hC : Cuts rlp C)
    (hbatch : (chunkBatches C)[i]? = some batch) (hD : D ⊆ batch) :
    holderLength (((chunkBatches C).take i).flatten ++ D) ≤
      holderLength ((chunkBatches C).take i).flatten + (batch.map Prod.snd).flatten.length := by
  obtain ⟨before, _, hbefore⟩ := cuts_take hC i
  obtain ⟨sent, _, hsent⟩ := cuts_take hC (i + 1)
  have hnext : ((chunkBatches C).take (i + 1)).flatten
      = ((chunkBatches C).take i).flatten ++ batch := by
    rw [List.take_add_one, hbatch, List.flatten_append]
    simp
  have hreach : holderLength ((chunkBatches C).take (i + 1)).flatten
      = holderLength ((chunkBatches C).take i).flatten + (batch.map Prod.snd).flatten.length := by
    rw [hsent.holderLength_eq, hsent.length_eq, hbefore.holderLength_eq, hbefore.length_eq, hnext,
      List.map_append, List.flatten_append, List.length_append]
  rw [← hreach]
  refine holderLength_le_iff.mpr ?_
  intro c hc
  refine holderLength_le_iff.mp (Nat.le_refl _) c ?_
  rw [hnext]
  rcases List.mem_append.mp hc with hc | hc
  · exact List.mem_append_left _ hc
  · exact List.mem_append_right _ (hD hc)

end TransmitTx

namespace SteppedTransmitTx

variable {X : Crates} {t : SteppedTransmitTx} {rest : List (List AtomicIxBatch)}

/-- What is left is handed out batch by batch, and then `End` forever. -/
theorem Remaining.yields (h : Remaining X t rest) :
    Yields (advance X) t (rest.map fun batch => .parallel batch .legacy) .end_ := by
  induction rest generalizing t with
  | nil => exact yields_of_closed (P := fun t => Remaining X t []) (fun _ => advance_nil) h
  | cons batch rest ih =>
      obtain ⟨u, hu, hrest⟩ := advance_cons h
      have hone : Answers (advance X) [.parallel batch .legacy] t u := .cons hu rfl
      exact hone.yields (ih hrest)

end SteppedTransmitTx

/-- The steps of a transmission whose emulation succeeds: the instructions of `ixs`, in
the order of their offsets, in batches each of which the holder may grow by. -/
structure TransmitTx.SendsInLimit (X : Crates) (t : TransmitTx)
    (batches : List (List AtomicIxBatch)) (chunks : List (List (Nat × Bytes))) : Prop where
  /-- the batches are the instructions, and a batch those of its chunks -/
  ixs : t.ixs X = .ok batches.flatten
  ofChunks : ∃ emulation, batches = chunks.map (List.map (t.chunkIx X emulation))
  ascending : chunks.flatten.Pairwise fun c d => c.1 < d.1
  /-- after the last batch the chunks are the rlp, and after any other one a part of it -/
  whole : Cuts t.rlp chunks.flatten
  covers : ∀ i, ∃ sent, sent <+: t.rlp ∧ Cuts sent (chunks.take i).flatten
  small : ∀ batch ∈ chunks, (batch.map Prod.snd).flatten.length ≤ MAX_PERMITTED_DATA_INCREASE
  /-- before the batch is confirmed any chunks of it may be there, in any order -/
  grows : ∀ (i : Nat) (batch : List (Nat × Bytes)), chunks[i]? = some batch →
    ∀ executed, executed ⊆ batch →
      holderLength ((chunks.take i).flatten ++ executed)
        ≤ holderLength (chunks.take i).flatten + MAX_PERMITTED_DATA_INCREASE

/-- Where the emulation succeeds, the calls hand out the whole transmission within the
limit, and `End` from then on. -/
theorem TransmitTx.transmits_in_limit {X : Crates} {t : TransmitTx}
    {emulation : List (Pubkey × Bool)}
    (h : t.txBuilder.emulate (t.txData X 0 t.rlp) t.resource.payerKey = .ok emulation) :
    ∃ batches chunks, t.SendsInLimit X batches chunks ∧
      Yields (SteppedTransmitTx.advance X) ⟨t, .init⟩
        (batches.map fun batch => .parallel batch .legacy) .end_ := by
  obtain ⟨C, hC, hcuts⟩ := t.chunks_cuts
  have hremaining : SteppedTransmitTx.Remaining X ⟨t, .init⟩
      ((chunkBatches C).map (List.map (t.chunkIx X emulation))) := .init rfl (batches_ok hC h)
  refine ⟨_, chunkBatches C, ⟨?_, ⟨emulation, rfl⟩, ?_, ?_, cuts_take hcuts,
    fun _ => bytes_le hC, ?_⟩, hremaining.yields⟩
  · rw [← List.map_flatten, chunkBatches_flatten]
    exact ixs_ok hC h
  · have hascending := hcuts.tiles.ascending hcuts.positive
    rw [shape, List.pairwise_map] at hascending
    rw [chunkBatches_flatten]
    exact hascending
  · rw [chunkBatches_flatten]
    exact hcuts
  · intro i batch hbatch executed hexecuted
    have hgrows := holderLength_batch hcuts hbatch hexecuted
    have hsmall := bytes_le hC (List.mem_of_getElem? hbatch)
    omega

/-- The transmission of 9601 bytes, one more than go into one batch. -/
theorem TransmitTx.transmits_in_limit_two : ∃ batches chunks,
    (transmitOf (List.replicate 9601 0)).SendsInLimit standIns batches chunks ∧
      Yields (SteppedTransmitTx.advance standIns) ⟨transmitOf (List.replicate 9601 0), .init⟩
        (batches.map fun batch => .parallel batch .legacy) .end_ :=
  transmits_in_limit rfl

end RomeSdk
