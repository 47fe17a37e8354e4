import RomeSdk.Indexer.Storage
import RomeSdk.Lib.Effect
import RomeSdk.Lib.RecursiveQuery

/-!
# The tables

The database of `pg_storage`: the tables its migrations leave, each a map from
its primary key to the other columns, and the statements that are used on more
than one of them. What a row stores as text, JSON or RLP is kept as the value it
was made from, but for the RLP of a transaction and the base58 of a Solana
blockhash, which are read back by the codecs. The entry list of a map is the
order in which a query without `ORDER BY` happens to return the rows.

A database transaction either commits or leaves everything as it was. `Pool` is
what stands between the caller and the database: getting a connection may fail.
-/

namespace RomeSdk

/-- What the storage calls of the crates beside `Crates`. -/
structure StorageCrates extends Crates where
  /-- `tx.rlp()` -/
  rlp : Transaction → Bytes
  /-- `solana_program::keccak::hash` of the rlp of a sender and a nonce -/
  hashSenderNonce : Address → U256 → H256

inductive SlotStatus where
  | processed
  | confirmed
  | finalized
  deriving DecidableEq, Repr

/-- `sol_slot`. Every writer sets the status; the last two columns were added later. -/
structure SolSlot where
  parentSlot : Slot
  status : SlotStatus
  blockhash : Option String
  timestamp : Option Int
  deriving DecidableEq, Repr

structure ReceiptParams where
  blockhash : H256
  blockNumber : Nat
  txIndex : Nat
  blockGasUsed : U256
  firstLogIndex : U256
  deriving DecidableEq, Repr

/-- `evm_tx_result` -/
structure EvmTxResult where
  txResult : TxResult
  receiptParams : Option ReceiptParams
  deriving DecidableEq, Repr

/-- `eth_block` -/
structure EthBlockHeader where
  blockGasUsed : U256
  gasRecipient : Option Address
  slotTimestamp : Option Int
  params : Option BlockParams
  deriving DecidableEq, Repr

/-- `block` is what `sol_block.block_data` is read as. -/
structure Db (block : Type) where
  solSlot : HashMap Slot SolSlot
  solBlock : HashMap Slot block
  evmTx : HashMap TxHash Bytes
  evmTxResult : HashMap (Slot × TxHash) EvmTxResult
  ethBlock : HashMap EthBlockId EthBlockHeader
  /-- `tx_idx`, by block and hash -/
  ethBlockTxs : HashMap (EthBlockId × TxHash) Nat

namespace Db

variable {block : Type}

def empty : Db block := ⟨∅, ∅, ∅, ∅, ∅, ∅⟩

/-- `SELECT MAX(..)` -/
def maxOf (values : List Nat) : Option Nat := values.max?

/-- The eth blocks of a slot, by index. -/
def slotBlocks (db : Db block) (slot : Slot) : List (Nat × EthBlockHeader) :=
  db.ethBlock.entries.filterMap fun e => if e.1.1 = slot then some (e.1.2, e.2) else none

/-- The slots with eth blocks. -/
def ethBlockSlots (db : Db block) : List Slot := db.ethBlock.entries.map fun e => e.1.1

/-- The transactions of an eth block, with their indices. -/
def blockTxs (db : Db block) (id : EthBlockId) : List (Nat × TxHash) :=
  db.ethBlockTxs.entries.filterMap fun e => if e.1.1 = id then some (e.2, e.1.2) else none

end Db

/-- The way to the database in a world `σ`. -/
structure Pool (σ block : Type) where
  get : Eff σ Unit
  read : σ → Db block
  write : Db block → σ → σ

namespace Pool

variable {σ block α : Type}

/-- `self.pool.get()?.transaction(..)`, and any single statement. -/
def transaction (pool : Pool σ block) (f : Db block → Outcome (α × Db block)) : Eff σ α := do
  pool.get
  let s ← EStateM.get
  match f (pool.read s) with
  | .ok (a, db) =>
      EStateM.set (pool.write db s)
      pure a
  | .error e => throw e

/-- A query, which changes nothing. -/
def query (pool : Pool σ block) (f : Db block → Outcome α) : Eff σ α :=
  pool.transaction fun db => (f db).map fun a => (a, db)

/-- The same database in a world that holds something beside it. -/
def beside {τ : Type} (pool : Pool σ block) : Pool (σ × τ) block where
  get s :=
    match pool.get s.1 with
    | .ok a u => .ok a (u, s.2)
    | .error e u => .error e (u, s.2)
  read s := pool.read s.1
  write db s := (pool.write db s.1, s.2)

/-- A transaction of it leaves what is beside the database alone. -/
theorem transaction_beside {τ : Type} (pool : Pool σ block)
    (f : Db block → Outcome (α × Db block)) (s : σ × τ) :
    pool.beside.transaction f s = match pool.transaction f s.1 with
      | .ok a u => .ok a (u, s.2)
      | .error e u => .error e (u, s.2) := by
  simp only [transaction, beside, bind, EStateM.bind]
  cases pool.get s.1 with
  | error e u => rfl
  | ok a u =>
      simp only [EStateM.get_apply]
      cases f (pool.read u) <;> rfl

end Pool

/-- A database and what is going to happen to its next transactions, in order: a
fault is an error or, as a panic, the end of the process. A transaction that is
rolled back half-way is one that did not begin. -/
structure Server (block : Type) where
  db : Db block
  faults : List (Option Failure)

namespace Server

variable {block α : Type}

/-- What happens to the `i`-th transaction to come. -/
def fault (w : Server block) (i : Nat) : Option Failure := w.faults[i]?.join

def get : Eff (Server block) Unit := fun w =>
  match w.fault 0 with
  | some e => .error e { w with faults := w.faults.tail }
  | none => .ok () { w with faults := w.faults.tail }

def pool : Pool (Server block) block where
  get := get
  read := Server.db
  write db w := { w with db := db }

theorem fault_tail (db : Db block) (w : Server block) (i : Nat) :
    ({ db := db, faults := w.faults.tail } : Server block).fault i = w.fault (i + 1) := by
  rw [fault, fault, List.getElem?_tail]

theorem transaction_fault {w : Server block} {e : Failure} (h : w.fault 0 = some e)
    (f : Db block → Outcome (α × Db block)) :
    pool.transaction f w = .error e { w with faults := w.faults.tail } := by
  simp only [Pool.transaction, pool, get, bind, EStateM.bind, h]

theorem transaction_go {w : Server block} (h : w.fault 0 = none)
    (f : Db block → Outcome (α × Db block)) :
    pool.transaction f w = match f w.db with
      | .ok (a, db) => .ok a ⟨db, w.faults.tail⟩
      | .error e => .error e ⟨w.db, w.faults.tail⟩ := by
  simp only [Pool.transaction, pool, get, bind, EStateM.bind, h, EStateM.get_apply]
  cases f w.db with
  | ok r => rfl
  | error e => rfl

/-- A transaction that does not commit leaves everything as it was. -/
theorem transaction_err {w t : Server block} {e : Failure} {f : Db block → Outcome (α × Db block)}
    (h : pool.transaction f w = .error e t) : t.db = w.db := by
  cases hfault : w.fault 0 with
  | some e' =>
      rw [transaction_fault hfault] at h
      cases h
      rfl
  | none =>
      rw [transaction_go hfault] at h
      split at h
      · cases h
      · cases h
        rfl

theorem transaction_ok {w t : Server block} {a : α} {f : Db block → Outcome (α × Db block)}
    (h : pool.transaction f w = .ok a t) : f w.db = .ok (a, t.db) := by
  cases hfault : w.fault 0 with
  | some e =>
      rw [transaction_fault hfault] at h
      cases h
  | none =>
      rw [transaction_go hfault] at h
      split at h
      · next hf =>
          cases h
          exact hf
      · cases h

end Server

end RomeSdk
