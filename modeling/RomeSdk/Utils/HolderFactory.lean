import Mathlib.Data.List.Find
import RomeSdk.Lib.Bitset
import RomeSdk.Lib.Machine

/-!
# Holder indices

`rome-utils/src/holder`. A holder is one of 64 indices. Which of them are taken is kept in
one atomic word, which all the tasks that make and drop holders share.

`try_new` loads the word once and goes through the indices with its copy. Where the copy has
an index free it tries to exchange the word, as long as this is still the copy, for the one
with that bit set; where the exchange fails, the copy is what the word is now, and the loop
goes on with the next index. `drop` clears its bit with an exchange that may fail without a
reason, and begins again when it did.

A step is one atomic access, and between two steps of a task the others may make any of theirs.
-/

namespace RomeSdk

namespace Holder

/-- `1 << index` -/
def mask (index : Nat) : BitVec 64 := 1#64 <<< index

/-- The loop of `try_new` from `index` on, up to an index that its copy of the bitset has
free. -/
def nextIndex (bitset : BitVec 64) (index : Nat) : Option Nat :=
  (List.range 64).find? fun i => decide (index ≤ i) && decide (bitset &&& mask i = 0#64)

/-- What a task is at with regard to holders. -/
inductive Activity where
  | idle
  /-- In `try_new`, before `index`, with a copy of the bitset. -/
  | tryNew (bitset : BitVec 64) (index : Nat)
  /-- In `drop`, before the bitset is loaded. -/
  | drop (index : Nat)
  /-- In `drop`, before the exchange. -/
  | clear (index : Nat) (current : BitVec 64)
  deriving DecidableEq, Repr

/-- The holder a task is dropping. -/
def Activity.dropping : Activity → Option Nat
  | .drop index => some index
  | .clear index _ => some index
  | _ => none

/-- What is at one word: the holders that are alive, whoever has them, and the tasks. -/
structure Tasks (ι : Type) where
  atomicBitset : BitVec 64
  live : List Nat
  tasks : ι → Activity

inductive Action (ι : Type) where
  | load (t : ι)
  | exchange (t : ι)
  /-- `try_new` returns `None`. -/
  | giveUp (t : ι)
  | drop (t : ι) (index : Nat)
  | dropLoad (t : ι)
  | dropExchange (t : ι)
  deriving DecidableEq, Repr

section

variable {ι : Type} [DecidableEq ι]

/-- A task goes on, and nothing else changes. -/
def Tasks.turn (s : Tasks ι) (t : ι) (activity : Activity) : Tasks ι :=
  { s with tasks := Function.update s.tasks t activity }

inductive Step : Tasks ι → Action ι → Tasks ι → Prop
  | load {s : Tasks ι} {t : ι} : s.tasks t = .idle →
      Step s (.load t) (s.turn t (.tryNew s.atomicBitset 0))
  | exchangeOk {s : Tasks ι} {t : ι} {bitset : BitVec 64} {index i : Nat} :
      s.tasks t = .tryNew bitset index → nextIndex bitset index = some i →
      s.atomicBitset = bitset →
      Step s (.exchange t)
        { s.turn t .idle with atomicBitset := bitset ||| mask i, live := i :: s.live }
  | exchangeErr {s : Tasks ι} {t : ι} {bitset : BitVec 64} {index i : Nat} :
      s.tasks t = .tryNew bitset index → nextIndex bitset index = some i →
      s.atomicBitset ≠ bitset →
      Step s (.exchange t) (s.turn t (.tryNew s.atomicBitset (i + 1)))
  | giveUp {s : Tasks ι} {t : ι} {bitset : BitVec 64} {index : Nat} :
      s.tasks t = .tryNew bitset index → nextIndex bitset index = none →
      Step s (.giveUp t) (s.turn t .idle)
  | drop {s : Tasks ι} {t : ι} {index : Nat} : s.tasks t = .idle → index ∈ s.live →
      Step s (.drop t index) { s.turn t (.drop index) with live := s.live.erase index }
  | dropLoadClear {s : Tasks ι} {t : ι} {index : Nat} : s.tasks t = .drop index →
      s.atomicBitset &&& mask index = 0#64 → Step s (.dropLoad t) (s.turn t .idle)
  | dropLoadSet {s : Tasks ι} {t : ι} {index : Nat} : s.tasks t = .drop index →
      s.atomicBitset &&& mask index ≠ 0#64 →
      Step s (.dropLoad t) (s.turn t (.clear index s.atomicBitset))
  | dropExchangeOk {s : Tasks ι} {t : ι} {index : Nat} {current : BitVec 64} :
      s.tasks t = .clear index current → s.atomicBitset = current →
      Step s (.dropExchange t)
        { s.turn t .idle with atomicBitset := current &&& ~~~(mask index) }
  /-- `compare_exchange_weak` may fail where the word is the expected one, too. -/
  | dropExchangeErr {s : Tasks ι} {t : ι} {index : Nat} {current : BitVec 64} :
      s.tasks t = .clear index current → Step s (.dropExchange t) (s.turn t (.drop index))

/-- A new word, at which nothing has happened yet. -/
def fresh (ι : Type) : Tasks ι := ⟨0#64, [], fun _ => .idle⟩

def holders (ι : Type) [DecidableEq ι] : Machine (Tasks ι) (Action ι) where
  init s := s = fresh ι
  step := Step

end

/-! ## One call at a time -/

/-- `try_new` where nobody else changes the word: the index, and what the word is then. -/
def tryNew (bitset : BitVec 64) : Option (Nat × BitVec 64) :=
  (nextIndex bitset 0).map fun index => (index, bitset ||| mask index)

/-- `new` where nobody else changes the word, with so many tries at most. -/
def new : Nat → BitVec 64 → Option (Nat × BitVec 64)
  | 0, _ => none
  | tries + 1, bitset =>
      match tryNew bitset with
      | some holder => some holder
      | none => new tries bitset

end Holder

namespace HolderFactory

def lockHolder (tries : Nat) (bitset : BitVec 64) : Option (Nat × BitVec 64) :=
  Holder.new tries bitset

def availableHolders (bitset : BitVec 64) : UInt8 :=
  (List.range 64).foldl (fun acc i => acc + UInt8.ofNat ((bitset >>> i) &&& 1#64).toNat) 0

end HolderFactory

/-! ## The bits of the word -/

namespace Holder

theorem mask_eq (index : Nat) : mask index = BitVec.twoPow 64 index := rfl

theorem nextIndex_eq (bitset : BitVec 64) (index : Nat) :
    nextIndex bitset index = Bitset.firstClear bitset index := by
  rw [nextIndex, Bitset.firstClear]
  refine List.find?_congr fun i hi => ?_
  rw [Bool.eq_iff_iff, Bool.and_eq_true, Bool.and_eq_true, decide_eq_true_eq, decide_eq_true_eq,
    mask_eq, Bitset.and_twoPow_eq_zero (List.mem_range.mp hi), Bool.not_eq_true']

theorem tryNew_some {bitset bitset' : BitVec 64} {index : Nat}
    (h : tryNew bitset = some (index, bitset')) :
    nextIndex bitset 0 = some index ∧ bitset' = bitset ||| mask index := by
  rw [tryNew, Option.map_eq_some_iff] at h
  obtain ⟨i, hi, heq⟩ := h
  cases heq
  exact ⟨hi, rfl⟩

theorem new_succ (tries : Nat) (bitset : BitVec 64) : new (tries + 1) bitset = tryNew bitset := by
  induction tries with
  | zero =>
      rw [new]
      cases tryNew bitset <;> rfl
  | succ tries ih =>
      rw [new]
      cases h : tryNew bitset with
      | some holder => rfl
      | none =>
          rw [h] at ih
          exact ih

end Holder

namespace HolderFactory

/-- `available_holders` counts the bits that are set. -/
theorem availableHolders_eq (bitset : BitVec 64) :
    (availableHolders bitset).toNat = (Bitset.members bitset).length := by
  have hbit : (fun (acc : UInt8) i => acc + UInt8.ofNat ((bitset >>> i) &&& 1#64).toNat)
      = fun acc i => acc + UInt8.ofNat (bitset.getLsbD i).toNat := by
    funext acc i
    rw [Bitset.shiftRight_and_one (by decide)]
  rw [availableHolders, hbit, Bitset.foldl_bits _ 0 (by decide)]
  exact Nat.zero_add _

end HolderFactory

end RomeSdk
