import RomeSdk.Proofs.Recovery

/-!
# The recovery comes to an end

The loop over the batches ends below the start slot. A batch goes on at the parent of its
last slot, and the parent lies below the slot unless that is slot 0. So the slot a batch
begins with descends until the loop ends, and the batches hand over the slots of the parent
chain, each once (`Checking.walk`).

Nothing lies below slot 0. A recovery that starts there comes to slot 0, whose parent it is
itself, and rechecks it again and again.
-/

namespace RomeSdk

namespace SolanaBlockLoader

variable {σ : Type} {X : Crates} {L : SolanaBlockLoader σ} {read : σ → Db UiConfirmedBlock}
  {sent : σ → List Slot} {headers : Slot → Option RpcBlock}
  {chain : Slot → Option UiConfirmedBlock} {startSlot endSlot : Slot} {givenEnd : Option Slot}
  {reorgEventTx : ReorgSender σ}

/-- The recovery comes to its loop: it has an end slot, and the start slot is stored. -/
def Enters (L : SolanaBlockLoader σ) (startSlot : Slot) (givenEnd : Option Slot) (endSlot : Slot)
    (s v : σ) : Prop :=
  ∃ u, L.checkFrom givenEnd s = .ok (some endSlot) u ∧
    if endSlot < startSlot then v = u
    else ∃ block, L.solanaBlockStorage.getBlock startSlot u = .ok (some block) v

theorem checkLoop_done (h : endSlot < startSlot) (batches : Nat) (s : σ) :
    L.checkLoop X startSlot reorgEventTx batches endSlot s = .ok () s := by
  cases batches <;> rw [checkLoop, if_neg (Nat.not_le.mpr h)] <;> rfl

theorem Enters.startChecking {s v : σ} (h : Enters L startSlot givenEnd endSlot s v)
    (X : Crates) (batches : Nat) :
    L.startChecking X batches startSlot givenEnd reorgEventTx s =
      L.checkLoop X startSlot reorgEventTx batches endSlot v := by
  obtain ⟨u, hfrom, hthen⟩ := h
  rw [SolanaBlockLoader.startChecking, EStateM.bind_of_ok hfrom]
  dsimp only
  by_cases hlt : endSlot < startSlot
  · rw [if_pos hlt] at hthen ⊢
    rw [hthen, checkLoop_done hlt]
    rfl
  · rw [if_neg hlt] at hthen ⊢
    obtain ⟨block, hget⟩ := hthen
    rw [EStateM.bind_of_ok hget]

theorem Enters.kept (hS : Stores L.solanaBlockStorage read sent) {s v : σ}
    (h : Enters L startSlot givenEnd endSlot s v) : read v = read s := by
  obtain ⟨u, hfrom, hthen⟩ := h
  have hkept := (checkFrom_ok hS hfrom).1
  split at hthen
  · rw [hthen]
    exact hkept
  · obtain ⟨block, hget⟩ := hthen
    exact (hS.getBlock startSlot u _ v hget).2.1.trans hkept

/-- No batch that the loop comes to ends with an error. -/
def NoBatchFails (X : Crates) (L : SolanaBlockLoader σ) (startSlot : Slot)
    (reorgEventTx : ReorgSender σ) (endSlot : Slot) (v : σ) : Prop :=
  ∀ handedOver last t, Checking X L startSlot reorgEventTx endSlot v handedOver last t →
    startSlot ≤ last → ∃ next w, L.checkBatch X startSlot last reorgEventTx t = .ok next w

/-- As many batches as there are to hand over are enough. -/
theorem Checking.checkLoop {last : Slot} {handedOver : List (BTreeMap Slot UiConfirmedBlock)}
    {s t : σ} (h : Checking X L startSlot reorgEventTx endSlot s handedOver last t) :
    last < startSlot → ∀ batches, handedOver.length ≤ batches →
      L.checkLoop X startSlot reorgEventTx batches endSlot s = .ok () t := by
  induction h with
  | stay =>
      intro hlt batches _
      exact checkLoop_done hlt batches _
  | batch hle hloop hrecheck _ ih =>
      intro hlt batches hbatches
      obtain ⟨n, rfl⟩ : ∃ n, batches = n + 1 := Nat.exists_eq_succ_of_ne_zero (by
        rw [List.length_cons] at hbatches
        omega)
      rw [SolanaBlockLoader.checkLoop, if_pos hle, checkBatch, bind_assoc, EStateM.bind_of_ok hloop]
      dsimp only
      rw [bind_assoc, EStateM.bind_of_ok hrecheck, pure_bind]
      refine ih hlt n ?_
      rw [List.length_cons] at hbatches
      omega

/-- The loop ends: the slot a batch begins with descends. -/
theorem checking_ends (hS : Stores L.solanaBlockStorage read sent)
    (hC : ShowsChain X L headers chain) (htx : Sends reorgEventTx read sent)
    (hstart : 0 < startSlot) (hsize : 0 < L.batchSize) (slots : Nat) :
    ∀ {endSlot : Slot} {v : σ}, endSlot < slots → ParentsBelow (read v) chain →
      NoBatchFails X L startSlot reorgEventTx endSlot v →
        ∃ handedOver last t, Checking X L startSlot reorgEventTx endSlot v handedOver last t ∧
          last < startSlot := by
  induction slots with
  | zero => exact fun hlt => absurd hlt (Nat.not_lt_zero _)
  | succ slots ih =>
      intro endSlot v hlt hbelow hfine
      by_cases hle : startSlot ≤ endSlot
      · obtain ⟨next, w, hbatch⟩ := hfine [] endSlot v .stay hle
        have hdown := checkBatch_lt hS hC hstart hsize hle hbelow hbatch
        obtain ⟨⟨next', blocks⟩, u, hloop, hthen⟩ := EStateM.bind_ok hbatch
        obtain ⟨_, w', hrecheck, hlast⟩ := EStateM.bind_ok hthen
        cases hlast
        have hone : Checking X L startSlot reorgEventTx endSlot v [blocks] next w :=
          .batch hle hloop hrecheck .stay
        obtain ⟨steps, _, _, hwritten⟩ := hone.walk hS hC htx hstart hbelow
        obtain ⟨handedOver, last, t, hrest, hlast⟩ := ih (Nat.lt_of_lt_of_le hdown
          (Nat.le_of_lt_succ hlt)) (hwritten.parentsBelow hbelow) (fun handedOver last t hrest =>
            hfine (blocks :: handedOver) last t (.batch hle hloop hrecheck hrest))
        exact ⟨blocks :: handedOver, last, t, .batch hle hloop hrecheck hrest, hlast⟩
      · exact ⟨[], endSlot, v, .stay, Nat.lt_of_not_le hle⟩

/-- The recovery returns, and its batches hand over the slots to visit, each once. -/
def ChecksOnce (X : Crates) (L : SolanaBlockLoader σ) (startSlot : Slot)
    (givenEnd : Option Slot) (endSlot : Slot) (reorgEventTx : ReorgSender σ)
    (visited : Slot → Prop) (s v : σ) : Prop :=
  ∃ handedOver last t, Checking X L startSlot reorgEventTx endSlot v handedOver last t ∧
    last < startSlot ∧
    (∀ batches, handedOver.length ≤ batches →
      L.startChecking X batches startSlot givenEnd reorgEventTx s = .ok () t) ∧
    (slotsOf handedOver).Nodup ∧ ∀ slot, slot ∈ slotsOf handedOver ↔ visited slot

/-- A recovery without errors ends, having checked each slot once, exactly when it does not
start from slot 0. -/
theorem recovery_checks_once_iff (hS : Stores L.solanaBlockStorage read sent)
    (hC : ShowsChain X L headers chain) (htx : Sends reorgEventTx read sent)
    (hsize : 0 < L.batchSize) {s v : σ} (hbelow : ParentsBelow (read s) chain)
    (henters : Enters L startSlot givenEnd endSlot s v)
    (hfine : NoBatchFails X L startSlot reorgEventTx endSlot v) :
    ChecksOnce X L startSlot givenEnd endSlot reorgEventTx
      (Visited (read s) chain startSlot endSlot) s v ↔ 0 < startSlot := by
  have hkept := henters.kept hS
  constructor
  · intro ⟨handedOver, last, t, _, hlast, _⟩
    exact Nat.zero_lt_of_lt hlast
  · intro hstart
    obtain ⟨handedOver, last, t, hchecking, hlast⟩ := checking_ends hS hC htx hstart hsize
      (endSlot + 1) (Nat.lt_succ_self _) (hkept ▸ hbelow) hfine
    obtain ⟨steps, hwalk, hperm, _⟩ := hchecking.walk hS hC htx hstart (hkept ▸ hbelow)
    rw [hkept] at hwalk
    refine ⟨handedOver, last, t, hchecking, hlast, ?_, ?_, ?_⟩
    · intro batches hbatches
      rw [henters.startChecking]
      exact hchecking.checkLoop hlast batches hbatches
    · exact hperm.nodup_iff.mpr (hwalk.nodup hstart hbelow)
    · intro slot
      rw [hperm.mem_iff]
      exact (hwalk.visited_iff hlast slot).symm

/-! ## A recovery from slot 0 -/

/-- Slot 0 is stored; its parent is slot 0. -/
def genesisWorld : Channel :=
  (⟨PgStorage.setBlockWithStatus2 0 (linkedBlock 0) .finalized 0 Db.empty, []⟩, [])

def genesisLoader : SolanaBlockLoader Channel := { fullChainLoader with batchSize := 1 }

theorem checkBatch_genesis :
    genesisLoader.checkBatch standIns 0 0 queueEvent genesisWorld = .ok 0 genesisWorld := by
  rfl

theorem enters_genesis : Enters genesisLoader 0 (some 0) 0 genesisWorld genesisWorld :=
  ⟨genesisWorld, rfl, linkedBlock 0, rfl⟩

theorem checkLoop_genesis (batches : Nat) :
    genesisLoader.checkLoop standIns 0 queueEvent batches 0 genesisWorld =
      .error (.panic "out of batches") genesisWorld := by
  induction batches with
  | zero => rfl
  | succ batches ih =>
      rw [checkLoop, if_pos (Nat.le_refl 0), EStateM.bind_of_ok checkBatch_genesis]
      exact ih

/-- However many batches there are, the recovery is not done, though none of them fails. -/
theorem genesis_never_done :
    (∀ batches, genesisLoader.startChecking standIns batches 0 (some 0) queueEvent genesisWorld =
      .error (.panic "out of batches") genesisWorld) ∧
    ¬ ChecksOnce standIns genesisLoader 0 (some 0) 0 queueEvent
      (Visited genesisWorld.1.db fullChain 0 0) genesisWorld genesisWorld := by
  constructor
  · intro batches
    rw [enters_genesis.startChecking]
    exact checkLoop_genesis batches
  · intro ⟨handedOver, last, t, _, hlast, _⟩
    exact Nat.not_lt_zero _ hlast

theorem noBatchFails_gap : NoBatchFails standIns fullChainLoader 5 queueEvent 7 gapWorld := by
  have hbatch : fullChainLoader.checkBatch standIns 5 7 queueEvent gapWorld = .ok 4 gapWorld := rfl
  intro handedOver last t h hle
  cases h with
  | stay => exact ⟨4, gapWorld, hbatch⟩
  | batch hge hloop hrecheck hrest =>
      exfalso
      rw [checkBatch, EStateM.bind_of_ok hloop] at hbatch
      dsimp only at hbatch
      rw [EStateM.bind_of_ok hrecheck] at hbatch
      cases hbatch
      cases hrest with
      | stay => exact absurd hle (by decide)
      | batch hge => exact absurd hge (by decide)

theorem recovery_checks_once_gap :
    ChecksOnce standIns fullChainLoader 5 (some 7) 7 queueEvent
      (Visited gapWorld.1.db fullChain 5 7) gapWorld gapWorld ↔ 0 < 5 :=
  recovery_checks_once_iff stores_pg showsChain_fullChainLoader sends_queueEvent (by decide)
    parentsBelow_gapWorld ⟨gapWorld, rfl, linkedBlock 5, rfl⟩ noBatchFails_gap

end SolanaBlockLoader

end RomeSdk
