import Mathlib.Data.List.Nodup
import RomeSdk.Crates
import RomeSdk.Lib.Tiling
import RomeSdk.Utils.Iter

/-!
# Transmitting a transaction to a holder account

`tx/transmit_tx.rs`: the RLP is cut into chunks, and every chunk becomes one
instruction that names its offset in the holder and the hash of the transaction
it belongs to. The emulation that answers for the account list is a call into
another crate and stands as a function of the builder.
-/

namespace RomeSdk

def TRANSMIT_TX_SIZE : Nat := 800

/-- What `TransmitTx` uses of `TxBuilder`. -/
structure TxBuilder where
  chainId : UInt64
  programId : Pubkey
  /-- `TxBuilder::emulate`, down to the accounts of the emulation: each with
  whether it is writable -/
  emulate : Bytes → Pubkey → ProgramResult (List (Pubkey × Bool))

def TxBuilder.buildIx (b : TxBuilder) (accounts : List (Pubkey × Bool)) (data : Bytes) :
    Instruction where
  programId := b.programId
  accounts := accounts.map fun a => ⟨a.1, false, a.2⟩
  data := data

structure Resource where
  holderIndex : UInt64
  payerKey : Pubkey

/-- `to_le_bytes` of the holder's index. -/
def Resource.holder (r : Resource) : Bytes := leBytes 8 r.holderIndex.toNat

structure TransmitTx where
  txBuilder : TxBuilder
  rlp : Bytes
  hash : TxHash
  resource : Resource

namespace TransmitTx

/-- The part of the data behind the instruction tag. -/
def layout (holder : Bytes) (offset : Nat) (hash : TxHash) (chainId : UInt64) (bin : Bytes) :
    Bytes :=
  holder ++ leBytes 8 offset ++ beBytes 32 hash.toNat ++ leBytes 8 chainId.toNat ++ bin

def txData (X : Crates) (t : TransmitTx) (offset : Nat) (bin : Bytes) : Bytes :=
  X.romeEvm.tag .transmitTx :: layout t.resource.holder offset t.hash t.txBuilder.chainId bin

/-- `into_chunks(self.rlp.to_vec(), TRANSMIT_TX_SIZE)` with the offset the first
closure of `ixs` carries along. -/
def chunks (t : TransmitTx) : Outcome (List (Nat × Bytes)) :=
  (intoChunks t.rlp TRANSMIT_TX_SIZE).map (cut 0)

def ixs (X : Crates) (t : TransmitTx) : Outcome (List (List Instruction)) := do
  let data := t.txData X 0 t.rlp
  let emulation ← (t.txBuilder.emulate data t.resource.payerKey).toOutcome
  let chunks ← t.chunks
  pure (chunks.map fun c => [t.txBuilder.buildIx emulation (t.txData X c.1 c.2)])

/-! ## What the chunks are -/

/-- The chunks `ixs` cuts: consecutive, none of them empty, and together the rlp. -/
structure Cuts (rlp : Bytes) (C : List (Nat × Bytes)) : Prop where
  tiles : Tiles (shape C) 0 rlp.length
  slices : ∀ c ∈ C, Slice rlp c.1 c.2
  nonempty : ∀ c ∈ C, c.2 ≠ []

theorem chunks_cuts (t : TransmitTx) : ∃ C, t.chunks = .ok C ∧ Cuts t.rlp C := by
  have hsize : 0 < TRANSMIT_TX_SIZE := by decide
  have hflat : (intoChunksLoop TRANSMIT_TX_SIZE t.rlp.length t.rlp).flatten = t.rlp :=
    intoChunksLoop_flatten hsize _ _ (Nat.le_refl _)
  refine ⟨cut 0 (intoChunksLoop TRANSMIT_TX_SIZE t.rlp.length t.rlp), ?_, ?_, ?_, ?_⟩
  · rw [chunks, intoChunks, if_neg (by decide)]
    rfl
  · have htiles := cut_tiles (intoChunksLoop TRANSMIT_TX_SIZE t.rlp.length t.rlp) 0
    rw [hflat, Nat.zero_add] at htiles
    exact htiles
  · intro c hc
    have hslice : Slice ([] ++ (intoChunksLoop TRANSMIT_TX_SIZE t.rlp.length t.rlp).flatten)
        c.1 c.2 := cut_slice hc
    rw [hflat] at hslice
    exact hslice
  · intro c hc
    exact intoChunksLoop_ne_nil hsize _ _ c.2 (mem_cut hc)

theorem Cuts.positive {rlp : Bytes} {C : List (Nat × Bytes)} (h : Cuts rlp C) :
    ∀ p ∈ shape C, 0 < p.2 := by
  intro p hp
  obtain ⟨c, hc, rfl⟩ := List.mem_map.mp hp
  exact List.length_pos_iff.mpr (h.nonempty c hc)

theorem Cuts.offsets_nodup {rlp : Bytes} {C : List (Nat × Bytes)} (h : Cuts rlp C) :
    (C.map Prod.fst).Nodup := by
  have hasc := h.tiles.ascending h.positive
  rw [shape, List.pairwise_map] at hasc
  exact List.pairwise_map.mpr (hasc.imp Nat.ne_of_lt)

/-- At one offset there is one chunk. -/
theorem Cuts.unique {rlp : Bytes} {C : List (Nat × Bytes)} (h : Cuts rlp C)
    {c c' : Nat × Bytes} (hc : c ∈ C) (hc' : c' ∈ C) (heq : c.1 = c'.1) : c = c' :=
  List.inj_on_of_nodup_map h.offsets_nodup hc hc' heq

theorem Cuts.ne_nil {rlp : Bytes} {C : List (Nat × Bytes)} (h : Cuts rlp C) (hne : rlp ≠ []) :
    C ≠ [] := by
  intro hnil
  have htiles := h.tiles
  rw [hnil] at htiles
  have hlen : rlp.length = 0 := htiles.end_unique (.nil 0)
  exact hne (List.length_eq_zero_iff.mp hlen)

/-- The first chunks cut a prefix. -/
theorem Cuts.of_append {rlp : Bytes} {C D : List (Nat × Bytes)} (h : Cuts rlp (C ++ D)) :
    ∃ sent, sent <+: rlp ∧ Cuts sent C := by
  have htiles := h.tiles
  rw [shape, List.map_append] at htiles
  obtain ⟨n, hfirst, hrest⟩ := htiles.of_append
  have hn : n ≤ rlp.length := hrest.le
  have hlength : (rlp.take n).length = n := by
    rw [List.length_take]
    omega
  refine ⟨rlp.take n, List.take_prefix n rlp, ?_, ?_, ?_⟩
  · rw [hlength]
    exact hfirst
  · intro c hc
    have hwithin := hfirst.within (List.mem_map_of_mem (f := fun c => (c.1, c.2.length)) hc)
    have hslice := h.slices c (List.mem_append_left D hc)
    refine ⟨by rw [hlength]; exact hwithin.2, ?_⟩
    intro i hi
    rw [List.getElem?_take_of_lt (by omega)]
    exact hslice.agrees i hi
  · intro c hc
    exact h.nonempty c (List.mem_append_left D hc)

theorem chunk_length_le {t : TransmitTx} {C : List (Nat × Bytes)} (h : t.chunks = .ok C) :
    ∀ c ∈ C, c.2.length ≤ TRANSMIT_TX_SIZE := by
  rw [chunks, intoChunks, if_neg (by decide)] at h
  cases h
  intro c hc
  exact intoChunksLoop_length_le _ _ c.2 (mem_cut hc)

/-- `ixs` succeeds if the emulation does, with one instruction for each chunk. -/
theorem ixs_eq {X : Crates} {t : TransmitTx} {batches : List (List Instruction)}
    (h : t.ixs X = .ok batches) : ∃ (C : List (Nat × Bytes)) (emulation : List (Pubkey × Bool)),
      t.chunks = .ok C ∧
        batches = C.map fun c => [t.txBuilder.buildIx emulation (t.txData X c.1 c.2)] := by
  obtain ⟨C, hC, _⟩ := t.chunks_cuts
  rw [ixs, hC] at h
  cases hemu : t.txBuilder.emulate (t.txData X 0 t.rlp) t.resource.payerKey with
  | error e =>
      rw [hemu] at h
      cases h
  | ok emulation =>
      rw [hemu] at h
      cases h
      exact ⟨C, emulation, hC, rfl⟩

end TransmitTx

/-- The law `transmit_tx::args` is relied on for: it reads back the layout that
`tx_data` writes. -/
def RomeEvm.InvertsLayout (R : RomeEvm) : Prop :=
  ∀ (holder : UInt64) (offset : Nat) (hash : TxHash) (chainId : UInt64) (bin : Bytes),
    offset ≤ usizeMax →
      R.transmitTxArgs (TransmitTx.layout (leBytes 8 holder.toNat) offset hash chainId bin)
        = .ok (offset, hash, chainId.toNat, bin)

end RomeSdk
