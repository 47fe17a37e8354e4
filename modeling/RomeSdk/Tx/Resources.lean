import Mathlib.Data.List.Perm.Subperm
import RomeSdk.Lib.Machine
import RomeSdk.Tx.TransmitTx

/-!
# Leasing holders and fee recipients

`resources.rs`: the payers of the configuration make a pool of items, `get`
takes the last item of the pool and `drop` of a `Resource` puts its item back.
Both hold the mutex of the pool for one `pop` or one `push`, so a run of any
number of clients is a sequence of these; nothing under the lock can panic, and
`lock()` answers every time. A client that finds the pool empty yields and tries
again, which changes nothing.

What no step changes is which items there are. They are distinct at the start,
one holder index for each item of a payer, so no two clients ever hold one.
-/

namespace RomeSdk

/-- A list of configured addresses, as long as a `Vec` can be. -/
structure FeeRecipients where
  addresses : List Address
  fits : addresses.length ≤ isizeMax

inductive ResourceType where
  | feeRecipients (fee : FeeRecipients)
  | holders (number : UInt64)

structure Payer (Keypair : Type) where
  payerKeypair : Keypair
  resourceType : ResourceType

structure ResourceItem (Keypair : Type) where
  payerKeypair : Keypair
  holder : UInt64
  feeRecipient : Option Address
  deriving DecidableEq, Repr

variable {Keypair Client : Type}

namespace ResourceItem

def fromPayer (payer : Payer Keypair) : List (ResourceItem Keypair) :=
  match payer.resourceType with
  | .feeRecipients fee =>
      fee.addresses.zipIdx.map fun e => ⟨payer.payerKeypair, UInt64.ofNat e.2, some e.1⟩
  | .holders number =>
      (List.range number.toNat).map fun holder => ⟨payer.payerKeypair, UInt64.ofNat holder, none⟩

/-- What tells an item's account on the chain from all others. -/
def account (item : ResourceItem Keypair) : Keypair × UInt64 := (item.payerKeypair, item.holder)

/-- What `TransmitTx` uses of a resource with this item. -/
def resource (pubkey : Keypair → Pubkey) (item : ResourceItem Keypair) : Resource :=
  ⟨item.holder, pubkey item.payerKeypair⟩

end ResourceItem

/-- The pool behind the mutex, its top last, and the `Resource`s alive, each with
the client that has it. -/
structure ResourceFactory (Keypair Client : Type) where
  pool : List (ResourceItem Keypair)
  live : List (Client × ResourceItem Keypair)

namespace ResourceFactory

def items (payers : List (Payer Keypair)) : List (ResourceItem Keypair) :=
  (payers.map ResourceItem.fromPayer).flatten.reverse

def fromPayers (payers : List (Payer Keypair)) : ResourceFactory Keypair Client :=
  ⟨items payers, []⟩

/-- One pass of the loop of `get`: `lock.pop()`, and the item goes out in a
`Resource`. -/
def get (client : Client) (s : ResourceFactory Keypair Client) : ResourceFactory Keypair Client :=
  match s.pool.getLast? with
  | some item => ⟨s.pool.dropLast, s.live ++ [(client, item)]⟩
  | none => s

/-- `drop` of the `i`-th `Resource` alive: `lock.push(self.item.clone())`. -/
def drop (i : Nat) (s : ResourceFactory Keypair Client) :
    Option (ResourceFactory Keypair Client) :=
  s.live[i]?.map fun r => ⟨s.pool ++ [r.2], s.live.eraseIdx i⟩

inductive Op (Client : Type) where
  | get (client : Client)
  | drop (i : Nat)

def step (s : ResourceFactory Keypair Client) : Op Client → Option (ResourceFactory Keypair Client)
  | .get client => some (s.get client)
  | .drop i => s.drop i

/-- All runs of the clients of one factory. -/
def machine (payers : List (Payer Keypair)) :
    Machine (ResourceFactory Keypair Client) (Op Client) where
  init s := s = fromPayers payers
  step s op t := s.step op = some t

/-- The items there are, pooled or live. -/
def all (s : ResourceFactory Keypair Client) : List (ResourceItem Keypair) :=
  s.pool ++ s.live.map Prod.snd

/-! ## The items at the start -/

theorem holders_nodup {n : Nat} (hn : n ≤ 2 ^ 64) : ((List.range n).map UInt64.ofNat).Nodup := by
  refine List.Nodup.map_on (fun i hi j hj hij => ?_) List.nodup_range
  have hi' : i < 2 ^ 64 := Nat.lt_of_lt_of_le (List.mem_range.mp hi) hn
  have hj' : j < 2 ^ 64 := Nat.lt_of_lt_of_le (List.mem_range.mp hj) hn
  have hnat := congrArg UInt64.toNat hij
  rwa [UInt64.toNat_ofNat_of_lt' hi', UInt64.toNat_ofNat_of_lt' hj'] at hnat

/-- The items of one payer are numbered from zero, whichever way they are built. -/
theorem map_holder_fromPayer (payer : Payer Keypair) :
    ∃ n, n ≤ 2 ^ 64 ∧ (ResourceItem.fromPayer payer).map ResourceItem.account
      = ((List.range n).map UInt64.ofNat).map (Prod.mk payer.payerKeypair) := by
  obtain ⟨key, fee | number⟩ := payer
  · refine ⟨fee.addresses.length, Nat.le_trans fee.fits (by decide), ?_⟩
    rw [List.range_eq_range', ← List.zipIdx_map_snd, ResourceItem.fromPayer, List.map_map,
      List.map_map, List.map_map]
    rfl
  · refine ⟨number.toNat, Nat.le_of_lt number.toNat_lt, ?_⟩
    rw [ResourceItem.fromPayer, List.map_map, List.map_map]
    rfl

theorem payer_of_mem {payer : Payer Keypair} {item : ResourceItem Keypair}
    (h : item ∈ ResourceItem.fromPayer payer) : item.payerKeypair = payer.payerKeypair := by
  obtain ⟨n, _, haccounts⟩ := map_holder_fromPayer payer
  have hmem := List.mem_map_of_mem (f := ResourceItem.account) h
  rw [haccounts] at hmem
  obtain ⟨holder, _, heq⟩ := List.mem_map.mp hmem
  exact (congrArg Prod.fst heq).symm

theorem accounts_nodup {payers : List (Payer Keypair)}
    (h : (payers.map Payer.payerKeypair).Nodup) :
    ((items payers).map ResourceItem.account).Nodup := by
  rw [items, List.map_reverse, List.nodup_reverse, List.map_flatten, List.nodup_flatten,
    List.map_map]
  constructor
  · intro accounts haccounts
    obtain ⟨payer, _, rfl⟩ := List.mem_map.mp haccounts
    obtain ⟨n, hn, heq⟩ := map_holder_fromPayer payer
    rw [Function.comp_apply, heq]
    exact (holders_nodup hn).map fun _ _ hpair => congrArg Prod.snd hpair
  · rw [List.pairwise_map]
    refine (List.pairwise_map.mp h).imp fun {p q} hne => ?_
    intro account hp hq
    obtain ⟨item, hitem, rfl⟩ := List.mem_map.mp hp
    obtain ⟨other, hother, heq⟩ := List.mem_map.mp hq
    have hkey : other.payerKeypair = item.payerKeypair := congrArg Prod.fst heq
    rw [payer_of_mem hitem, payer_of_mem hother] at hkey
    exact hne hkey.symm

/-! ## What a step keeps -/

theorem all_get (client : Client) (s : ResourceFactory Keypair Client) :
    (s.get client).all.Perm s.all := by
  rw [get]
  split
  · next item hlast =>
    have hpool : s.pool = s.pool.dropLast ++ [item] :=
      (List.dropLast_append_getLast? item hlast).symm
    have hmove : (s.live.map Prod.snd ++ [item]).Perm (item :: s.live.map Prod.snd) :=
      List.perm_append_singleton _ _
    rw [all, all, List.map_append]
    conv => rhs; rw [hpool, List.append_assoc]
    exact hmove.append_left _
  · exact List.Perm.refl _

theorem all_drop {i : Nat} {s t : ResourceFactory Keypair Client} (h : s.drop i = some t) :
    t.all.Perm s.all := by
  obtain ⟨r, hr, rfl⟩ := Option.map_eq_some_iff.mp h
  obtain ⟨hi, rfl⟩ := List.getElem?_eq_some_iff.mp hr
  have hmove : (s.live[i] :: s.live.eraseIdx i).Perm s.live := List.getElem_cons_eraseIdx_perm hi
  rw [all, all, List.append_assoc]
  exact (hmove.map Prod.snd).append_left _

theorem all_step {s t : ResourceFactory Keypair Client} {op : Op Client}
    (h : s.step op = some t) : t.all.Perm s.all := by
  cases op with
  | get client =>
      cases h
      exact all_get client s
  | drop i => exact all_drop h

/-- No item is made, lost or copied in a run. -/
theorem all_run {payers : List (Payer Keypair)}
    {tr : List (ResourceFactory Keypair Client × Op Client)} {s : ResourceFactory Keypair Client}
    (h : Machine.Run (machine payers) tr s) : s.all.Perm (items payers) := by
  refine Machine.Run.invariant (I := fun s => s.all.Perm (items payers)) (G := fun _ _ => True)
    ?_ ?_ h (fun _ _ => trivial)
  · rintro s rfl
    rw [all, fromPayers, List.map_nil, List.append_nil]
  · intro s op t ih _ hstep
    exact (all_step hstep).trans ih

/-- In every state of every run the items are those of the payers, no two live
resources are for the same account, and none is for an account whose item is
pooled. -/
theorem leased_exclusively {payers : List (Payer Keypair)}
    {tr : List (ResourceFactory Keypair Client × Op Client)} {s : ResourceFactory Keypair Client}
    (hdistinct : (payers.map Payer.payerKeypair).Nodup)
    (hrun : Machine.Run (machine payers) tr s) :
    (s.pool ++ s.live.map Prod.snd).Perm (items payers) ∧
    (s.live.map fun r => (r.2.payerKeypair, r.2.holder)).Nodup ∧
    ∀ item ∈ s.pool, item ∉ s.live.map Prod.snd := by
  have hall := all_run hrun
  have hnodup : (s.all.map ResourceItem.account).Nodup :=
    (hall.map _).nodup_iff.mpr (accounts_nodup hdistinct)
  rw [all, List.map_append, List.nodup_append, List.map_map] at hnodup
  obtain ⟨_, hlive, hdisjoint⟩ := hnodup
  refine ⟨hall, hlive, fun item hpool hheld => ?_⟩
  obtain ⟨r, hr, rfl⟩ := List.mem_map.mp hheld
  exact hdisjoint _ (List.mem_map_of_mem hpool) _ (List.mem_map_of_mem hr) rfl

/-! A payer with two holders and one with a fee recipient; two clients take an
item each, and the first gives its item back. -/

def twoPayers : List (Payer Nat) :=
  [⟨7, .holders 2⟩, ⟨8, .feeRecipients ⟨[0x30], by decide⟩⟩]

theorem twoPayers_run : Machine.Run (machine twoPayers)
    [(⟨[⟨8, 0, some 0x30⟩, ⟨7, 1, none⟩, ⟨7, 0, none⟩], []⟩, .get "first"),
      (⟨[⟨8, 0, some 0x30⟩, ⟨7, 1, none⟩], [("first", ⟨7, 0, none⟩)]⟩, .get "second"),
      (⟨[⟨8, 0, some 0x30⟩], [("first", ⟨7, 0, none⟩), ("second", ⟨7, 1, none⟩)]⟩, .drop 0)]
    ⟨[⟨8, 0, some 0x30⟩, ⟨7, 0, none⟩], [("second", ⟨7, 1, none⟩)]⟩ :=
  @Machine.Run.next _ _ _ [_, _] _ _ _
    (@Machine.Run.next _ _ _ [_] _ _ _ (@Machine.Run.next _ _ _ [] _ _ _ (.start rfl) rfl) rfl) rfl

theorem leased_exclusively_twoPayers :
    [(⟨8, 0, some 0x30⟩ : ResourceItem Nat), ⟨7, 0, none⟩, ⟨7, 1, none⟩].Perm (items twoPayers) ∧
    [((7 : Nat), (1 : UInt64))].Nodup ∧
    ∀ item ∈ [(⟨8, 0, some 0x30⟩ : ResourceItem Nat), ⟨7, 0, none⟩],
      item ∉ [(⟨7, 1, none⟩ : ResourceItem Nat)] :=
  leased_exclusively (by decide) twoPayers_run

end ResourceFactory

end RomeSdk
