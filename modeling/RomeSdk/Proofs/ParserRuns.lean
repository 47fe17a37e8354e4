import RomeSdk.Lib.Machine
import RomeSdk.Parsers.DefaultTxParser

/-!
# Runs of the transaction parser

The indexer calls the parser in any order: slots are registered, again and
again and out of order on forks, and old ones are forgotten. A hash map may
run through its entries in another order each time it is read, so a run may put
any parser in the place of one that differs from it in nothing but these orders.
A call that panics has no state after it and no run goes on from there.
-/

namespace RomeSdk

inductive ParserOp where
  | register (slot : Slot) (slotTxs : ParsedTxs)
  | retainFromSlot (fromSlot : Slot)
  | rehash

def ParserOp.step (p : DefaultTxParser) (op : ParserOp) (q : DefaultTxParser) : Prop :=
  match op with
  | .register slot slotTxs =>
      (p.registerSlotTransactions slot slotTxs).2.returned = true ∧
        q = (p.registerSlotTransactions slot slotTxs).1
  | .retainFromSlot fromSlot => q = p.retainFromSlot fromSlot
  | .rehash => p.Same q

/-- The parser's runs from a given state. -/
def parserFrom (p : DefaultTxParser) : Machine DefaultTxParser ParserOp where
  init q := q = p
  step := ParserOp.step

abbrev freshParser : Machine DefaultTxParser ParserOp := parserFrom .new

theorem parserFrom_register {p₀ p : DefaultTxParser} {tr : List (DefaultTxParser × ParserOp)}
    (hrun : Machine.Run (parserFrom p₀) tr p) (slot : Slot) (slotTxs : ParsedTxs)
    (hret : (p.registerSlotTransactions slot slotTxs).2.returned = true) :
    Machine.Run (parserFrom p₀) (tr ++ [(p, .register slot slotTxs)])
      (p.registerSlotTransactions slot slotTxs).1 :=
  .next hrun ⟨hret, rfl⟩

namespace DefaultTxParser

theorem Same.record {p q : DefaultTxParser} (h : p.Same q) (hash : TxHash) :
    p.record hash = q.record hash := HashMap.Same.lookup h.1 hash

theorem Same.resultAt {p q : DefaultTxParser} (h : p.Same q) (slot : Slot) (hash : TxHash)
    (txIdx : Nat) : p.resultAt slot hash txIdx = q.resultAt slot hash txIdx := by
  have hslot := h.2 slot
  simp only [DefaultTxParser.resultAt]
  cases hp : p.resultsBySlot[slot]? with
  | none =>
      rw [hp] at hslot
      cases hq : q.resultsBySlot[slot]? with
      | none => rfl
      | some txs =>
          rw [hq] at hslot
          cases hslot
  | some txs =>
      rw [hp] at hslot
      cases hq : q.resultsBySlot[slot]? with
      | none =>
          rw [hq] at hslot
          cases hslot
      | some txs' =>
          rw [hq] at hslot
          cases hslot with
          | some hsame => rw [Option.bind_some, Option.bind_some, hsame.lookup hash]

/-- Forgetting old slots takes records away and changes none. -/
theorem retainFromSlot_record (p : DefaultTxParser) (fromSlot : Slot) (hash : TxHash) :
    (p.retainFromSlot fromSlot).record hash = none ∨
      (p.retainFromSlot fromSlot).record hash = p.record hash := by
  have herase : ∀ (hashes : List TxHash) (txs : HashMap TxHash EvmTx),
      AList.lookup hash (hashes.foldl (fun txs h => txs.erase h) txs) = none ∨
        AList.lookup hash (hashes.foldl (fun txs h => txs.erase h) txs)
          = AList.lookup hash txs := by
    intro hashes
    induction hashes with
    | nil => intro txs; exact Or.inr rfl
    | cons h hashes ih =>
        intro txs
        rcases ih (txs.erase h) with hnone | hsame
        · exact Or.inl hnone
        · rw [List.foldl_cons, hsame, HashMap.lookup_erase']
          split
          · exact Or.inl rfl
          · exact Or.inr rfl
  exact herase _ _

end DefaultTxParser

end RomeSdk
