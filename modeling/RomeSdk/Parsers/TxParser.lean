import RomeSdk.Lib.Maps
import RomeSdk.Parsers.LogParser

/-!
# The steps of a slot

`tx_parser.rs`: what one Solana slot says about each EVM transaction. Solana
transactions are numbered within the slot, and a step is filed under the hash
of the EVM transaction and the index of the Solana transaction that carried it.
A `ParsedTxs` is a hash map, so its entry list is one of the orders in which
`register_slot_transactions` may run through it.
-/

namespace RomeSdk

inductive ParsedTxStep where
  | smallTx (tx : Transaction) (txResult : Option TxResult)
  | bigTx (txResult : Option TxResult)
  | transmitTx (offset : Nat) (data : Bytes)
  deriving DecidableEq, Repr

def ParsedTxStep.result : ParsedTxStep → Option TxResult
  | .smallTx _ txResult => txResult
  | .bigTx txResult => txResult
  | .transmitTx _ _ => none

abbrev TxSteps := BTreeMap Nat ParsedTxStep

abbrev ParsedTxs := HashMap TxHash TxSteps

/-- `parsed_txs.entry(hash).or_default()`: the hash is listed from here on, with
no step if it had none. -/
def ParsedTxs.touch (txs : ParsedTxs) (hash : TxHash) : ParsedTxs :=
  HashMap.upsert txs hash fun steps => steps.getD ∅

/-- `.entry(hash).or_default().entry(tx_idx).or_insert(step)` -/
def ParsedTxs.addStep (txs : ParsedTxs) (hash : TxHash) (txIdx : Nat) (step : ParsedTxStep) :
    ParsedTxs :=
  HashMap.upsert txs hash fun steps => (steps.getD ∅).insertIfNew txIdx step

/-- The step filed under a hash and an index. -/
def ParsedTxs.stepAt (txs : ParsedTxs) (hash : TxHash) (txIdx : Nat) : Option ParsedTxStep :=
  (txs.lookup hash).bind fun steps => steps[txIdx]?

/-- The steps in the order the registration loop reaches them: hash by hash in
the map's own order, and within a hash by ascending index. -/
def ParsedTxs.inOrder (txs : ParsedTxs) : List (TxHash × Nat × ParsedTxStep) :=
  txs.entries.flatMap fun e => e.2.toList.map fun s => (e.1, s.1, s.2)

theorem ParsedTxs.mem_inOrder {txs : ParsedTxs} {hash : TxHash} {txIdx : Nat}
    {step : ParsedTxStep} :
    (hash, txIdx, step) ∈ txs.inOrder ↔ txs.stepAt hash txIdx = some step := by
  simp only [inOrder, List.mem_flatMap, List.mem_map, stepAt, Option.bind_eq_some_iff]
  constructor
  · rintro ⟨⟨h, steps⟩, hmem, ⟨i, s⟩, hs, heq⟩
    cases heq
    exact ⟨steps, (HashMap.mem_entries txs h steps).mp hmem, (BTreeMap.mem_toList steps i s).mp hs⟩
  · rintro ⟨steps, hsteps, hs⟩
    exact ⟨⟨hash, steps⟩, (HashMap.mem_entries txs hash steps).mpr hsteps, (txIdx, step),
      (BTreeMap.mem_toList steps txIdx step).mpr hs, rfl⟩

/-- No step is reached twice. -/
theorem ParsedTxs.inOrder_nodup (txs : ParsedTxs) :
    (txs.inOrder.map fun e => (e.1, e.2.1)).Nodup := by
  rw [inOrder, List.map_flatMap, List.nodup_flatMap]
  refine ⟨?_, ?_⟩
  · intro e _
    rw [List.map_map]
    have hkeys : (e.2.toList.map Prod.fst).Nodup := BTreeMap.keys_nodup e.2
    have := hkeys.map (f := fun i => (e.1, i)) fun i j hij => congrArg Prod.snd hij
    rwa [List.map_map] at this
  · refine (List.nodupKeys_iff_pairwise.mp txs.nodupKeys).imp ?_
    intro e e' hne
    refine List.disjoint_left.mpr fun k hk hk' => ?_
    obtain ⟨_, hs, rfl⟩ := List.mem_map.mp hk
    obtain ⟨_, hs', heq⟩ := List.mem_map.mp hk'
    obtain ⟨_, _, rfl⟩ := List.mem_map.mp hs
    obtain ⟨_, _, rfl⟩ := List.mem_map.mp hs'
    exact hne (congrArg Prod.fst heq).symm

end RomeSdk
