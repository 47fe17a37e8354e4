import RomeSdk.Indexer.MultiplexedSolanaClient
import RomeSdk.Proofs.FailedRecheck

/-!
# What is taken for a skipped slot

A request ends without a block when nobody has one and the error of the last
provider is read as the absence of one. That is so of the error for a skipped slot
and of the failure to read a null, but also of everything else that cannot be read
and of every error of the transport. And what the providers before the last one
have answered does not matter.

`Skips nullMessage` says of an answer that it reports the slot as skipped, where
`nullMessage` holds of the texts by which the failure to read a null is known.
-/

namespace RomeSdk

namespace MultiplexedSolanaClient

variable {α : Type}

/-- The error is read as the absence of a value. -/
def readAsNone : ClientErrorKind → Bool
  | .serdeJson _ => true
  | .rpcResponseError code _ => code = -32007
  | .rpcError _ => true
  | .other _ => false

/-- After the error the request is made again. -/
def retried : ClientErrorKind → Bool
  | .serdeJson _ => false
  | .rpcResponseError code _ => code ≠ -32007 && code ≠ -32011
  | .rpcError _ => false
  | .other _ => true

/-- The answer reports that there is no block at the slot. -/
def Skips (nullMessage : String → Prop) : Except ClientErrorKind α → Prop
  | .error (.serdeJson message) => nullMessage message
  | .error (.rpcResponseError code _) => code = -32007
  | _ => False

/-- Nobody has a value, and the last provider's error is read as the absence of one. -/
def endsInNone (answers : List (Except ClientErrorKind α)) : Bool :=
  (valuesOf answers).isEmpty && (errorsOf answers).getLast?.any readAsNone

/-- Nobody has a value, and the last provider's error is one to try again after. -/
def madeAgain (answers : List (Except ClientErrorKind α)) : Bool :=
  (valuesOf answers).isEmpty && (errorsOf answers).getLast?.all retried

/-- The attempt ends without a block, although some provider has not said that the slot
was skipped. -/
def Mistaken (nullMessage : String → Prop) (answers : List (Except ClientErrorKind α)) : Prop :=
  endsInNone answers = true ∧ ∃ answer ∈ answers, ¬ Skips nullMessage answer

/-! ## One attempt -/

theorem processPlexResult_none_iff (kind : ClientErrorKind) :
    processPlexResult (.error kind : Except ClientErrorKind α) = .ok none ↔
      readAsNone kind = true := by
  cases kind with
  | serdeJson message => exact iff_of_true rfl rfl
  | rpcError message => exact iff_of_true rfl rfl
  | other debug => exact iff_of_false (fun h => by cases h) (fun h => by cases h)
  | rpcResponseError code message =>
      by_cases hpanic : code = -32011
      · subst hpanic
        exact iff_of_false (fun h => by cases h) (by simp [readAsNone])
      · by_cases hskipped : code = -32007
        · subst hskipped
          exact iff_of_true rfl rfl
        · simp [processPlexResult, readAsNone, hpanic, hskipped]

theorem processPlexResult_err_iff (kind : ClientErrorKind) :
    (∃ e, processPlexResult (.error kind : Except ClientErrorKind α) = .error (.err e)) ↔
      retried kind = true := by
  cases kind with
  | serdeJson message => exact iff_of_false (fun ⟨e, h⟩ => by cases h) (fun h => by cases h)
  | rpcError message => exact iff_of_false (fun ⟨e, h⟩ => by cases h) (fun h => by cases h)
  | other debug => exact iff_of_true ⟨_, rfl⟩ rfl
  | rpcResponseError code message =>
      by_cases hpanic : code = -32011
      · subst hpanic
        exact iff_of_false (fun ⟨e, h⟩ => by cases h) (by simp [retried])
      · by_cases hskipped : code = -32007
        · subst hskipped
          exact iff_of_false (fun ⟨e, h⟩ => by cases h) (by simp [retried])
        · simp [processPlexResult, retried, hpanic, hskipped]

theorem process_settled_none_iff (answers : List (Except ClientErrorKind α)) (fastest : Nat) :
    processPlexResult (settleAnswers answers fastest) = .ok none ↔ endsInNone answers = true := by
  rw [settleAnswers, endsInNone]
  cases valuesOf answers with
  | cons value values => simp [processPlexResult]
  | nil =>
      cases (errorsOf answers).getLast? with
      | none => simp [processPlexResult]
      | some kind => simp [processPlexResult_none_iff]

theorem process_settled_err_iff (answers : List (Except ClientErrorKind α)) (fastest : Nat) :
    (∃ e, processPlexResult (settleAnswers answers fastest) = .error (.err e)) ↔
      madeAgain answers = true := by
  rw [settleAnswers, madeAgain]
  cases valuesOf answers with
  | cons value values => simp [processPlexResult]
  | nil =>
      cases (errorsOf answers).getLast? with
      | none => simp [processPlexResult]
      | some kind => simp [processPlexResult_err_iff]

/-- An attempt that is made again does not end in none. -/
theorem endsInNone_of_madeAgain {answers : List (Except ClientErrorKind α)}
    (h : madeAgain answers = true) : endsInNone answers = false := by
  obtain ⟨e, he⟩ := (process_settled_err_iff answers 0).mpr h
  rw [← Bool.not_eq_true, ← process_settled_none_iff answers 0, he]
  exact fun heq => by cases heq

/-! ## The attempts of a request -/

/-- The answers of the attempt the request ends with. -/
def decidingAnswers (usual : Nat → List (Except ClientErrorKind α))
    (emergency : Nat → Option (List (Except ClientErrorKind α))) :
    Nat → Nat → List (Except ClientErrorKind α)
  | 0, attempt => usual attempt
  | 1, attempt =>
      if madeAgain (usual attempt) then (emergency (attempt + 1)).getD (usual attempt)
      else usual attempt
  | retriesRemaining + 2, attempt =>
      if madeAgain (usual attempt) then
        decidingAnswers usual emergency (retriesRemaining + 1) (attempt + 1)
      else usual attempt

variable {C : MultiplexedSolanaClient} {op : RpcClient → Nat → Except ClientErrorKind α}

/-- The answers that decide a request to the providers. -/
def deciding (C : MultiplexedSolanaClient) (op : RpcClient → Nat → Except ClientErrorKind α)
    (numRetries attempt : Nat) : List (Except ClientErrorKind α) :=
  decidingAnswers (fun i => C.providers.map fun client => op client i)
    (fun i => C.emergencyProviders.map fun providers => providers.map fun client => op client i)
    numRetries attempt

theorem attemptOnce_none_iff (attempt : Nat) : C.attemptOnce op attempt = .ok none ↔
    endsInNone (C.providers.map fun client => op client attempt) = true :=
  process_settled_none_iff _ _

theorem attemptOnce_err_iff (attempt : Nat) : (∃ e, C.attemptOnce op attempt = .error (.err e)) ↔
    madeAgain (C.providers.map fun client => op client attempt) = true :=
  process_settled_err_iff _ _

theorem unlessErr_again (attempt : Nat) (next : Outcome (Option α))
    (h : madeAgain (C.providers.map fun client => op client attempt) = true) :
    unlessErr (C.attemptOnce op attempt) next = next :=
  unlessErr_of_err ((attemptOnce_err_iff attempt).mpr h) next

/-- An attempt that is not made again is the last one. -/
theorem unlessErr_settled (attempt : Nat) (next : Outcome (Option α))
    (h : madeAgain (C.providers.map fun client => op client attempt) = false) :
    unlessErr (C.attemptOnce op attempt) next = C.attemptOnce op attempt := by
  refine unlessErr_of_not_err (fun herr => ?_) next
  rw [attemptOnce_err_iff, h] at herr
  cases herr

/-- A request ends without a value and without an error exactly when its last attempt does. -/
theorem plexWithRetries_none_iff (opName : String) (numRetries : Nat) : ∀ attempt : Nat,
    C.plexWithRetries opName op numRetries attempt = .ok none ↔
      endsInNone (C.deciding op numRetries attempt) = true := by
  induction numRetries with
  | zero =>
      intro attempt
      rw [plexWithRetries, deciding, decidingAnswers]
      cases hagain : madeAgain (C.providers.map fun client => op client attempt) with
      | false => rw [unlessErr_settled attempt _ hagain, attemptOnce_none_iff]
      | true =>
          rw [unlessErr_again attempt _ hagain, endsInNone_of_madeAgain hagain]
          exact iff_of_false (fun h => by cases h) (fun h => by cases h)
  | succ numRetries ih =>
      intro attempt
      cases numRetries with
      | zero =>
          rw [plexWithRetries, deciding, decidingAnswers]
          cases hagain : madeAgain (C.providers.map fun client => op client attempt) with
          | false =>
              rw [unlessErr_settled attempt _ hagain, attemptOnce_none_iff,
                if_neg Bool.false_ne_true]
          | true =>
              rw [unlessErr_again attempt _ hagain, if_pos rfl, lastResort]
              cases C.emergencyProviders with
              | some providers => exact process_settled_none_iff _ _
              | none =>
                  refine iff_of_false (fun h => by cases h) ?_
                  show endsInNone (C.providers.map fun client => op client attempt) ≠ true
                  rw [endsInNone_of_madeAgain hagain]
                  exact Bool.false_ne_true
      | succ numRetries =>
          rw [plexWithRetries, deciding, decidingAnswers]
          cases hagain : madeAgain (C.providers.map fun client => op client attempt) with
          | false =>
              rw [unlessErr_settled attempt _ hagain, attemptOnce_none_iff,
                if_neg Bool.false_ne_true]
          | true =>
              rw [unlessErr_again attempt _ hagain, if_pos rfl]
              exact ih (attempt + 1)

theorem getBlockWithConfig_none_iff (slot : Slot) (config : RpcBlockConfig) (numRetries : Nat) :
    C.getBlockWithConfig slot config numRetries = .ok none ↔
      endsInNone (C.deciding (fun client => client.getBlockWithConfig slot config) numRetries 0)
        = true :=
  plexWithRetries_none_iff _ numRetries 0

end MultiplexedSolanaClient

/-! ## The loader behind several providers -/

namespace SolanaBlockLoader

variable {σ α β : Type}

/-- A call that only answers: it does not look at the world and does not change it. -/
def OnlyAnswers (x : Eff σ α) : Prop := ∃ r : Outcome α, ∀ s, x s = (liftOutcome r : Eff σ α) s

theorem onlyAnswers_lift (r : Outcome α) : OnlyAnswers (liftOutcome r : Eff σ α) := ⟨r, fun _ => rfl⟩

theorem OnlyAnswers.bind {x : Eff σ α} {f : α → Eff σ β} (hx : OnlyAnswers x)
    (hf : ∀ a, OnlyAnswers (f a)) : OnlyAnswers (x >>= f) := by
  obtain ⟨r, hr⟩ := hx
  cases r with
  | error e => exact ⟨.error e, fun s => by simp only [Bind.bind, EStateM.bind, hr]; rfl⟩
  | ok a =>
      obtain ⟨r', hr'⟩ := hf a
      exact ⟨r', fun s => by simp only [Bind.bind, EStateM.bind, hr]; exact hr' s⟩

theorem onlyAnswers_joinAll {f : α → Eff σ β} (hf : ∀ a, OnlyAnswers (f a)) (l : List α) :
    OnlyAnswers (RollupIndexer.joinAll f l) := by
  choose g hg using hf
  exact ⟨joinOutcomes g l, joinAll_eq hg l⟩

variable {X : Crates} {L : SolanaBlockLoader σ} {C : MultiplexedSolanaClient}
  {fromClientError : ClientErrorKind → RomeEvmError}

theorem onlyAnswers_loadTransactions (hL : L.client = C.solanaClient fromClientError)
    (commitment : CommitmentLevel) (signatures : List Signature) :
    OnlyAnswers (L.loadTransactions commitment signatures) := by
  refine .bind (onlyAnswers_joinAll (fun signature => ?_) signatures) fun results => ?_
  · refine .bind (by rw [hL]; exact onlyAnswers_lift _) fun tx => ?_
    cases tx with
    | none => exact ⟨.ok none, fun _ => rfl⟩
    | some tx => exact .bind (onlyAnswers_lift _) fun found => ⟨.ok _, fun _ => rfl⟩
  · refine .bind ?_ fun txs => ⟨.ok _, fun _ => rfl⟩
    cases collectResults results with
    | ok txs => exact ⟨.ok txs, fun _ => rfl⟩
    | error e => exact ⟨.error (.err e), fun _ => rfl⟩

theorem onlyAnswers_loadBlockTransactions (hL : L.client = C.solanaClient fromClientError)
    (block : RpcBlock) (commitment : CommitmentLevel) :
    OnlyAnswers (L.loadBlockTransactions X block commitment) := by
  rw [loadBlockTransactions]
  cases signatureBounds X block with
  | none => exact ⟨.ok _, fun _ => rfl⟩
  | some bounds =>
      refine .bind (by rw [hL]; exact onlyAnswers_lift _) fun statuses => ?_
      exact .bind (onlyAnswers_loadTransactions hL commitment _) fun txs => ⟨.ok _, fun _ => rfl⟩

/-- The answers that decide whether `load_block` finds a block. -/
def blockAnswers (C : MultiplexedSolanaClient) (L : SolanaBlockLoader σ) (slot : Slot) :
    List (Except ClientErrorKind RpcBlock) :=
  C.deciding (fun client => client.getBlockWithConfig slot ⟨some .signatures, L.commitment⟩)
    L.blockRetries 0

/-- A block is loaded unless the request for it ends in none. -/
theorem loadBlock_answers (hL : L.client = C.solanaClient fromClientError) (slot : Slot) :
    ∃ r : Outcome (Option UiConfirmedBlock),
      (∀ s, L.loadBlock X L.commitment slot s = (liftOutcome r : Eff σ _) s) ∧
      (r = .ok none ↔ MultiplexedSolanaClient.endsInNone (blockAnswers C L slot) = true) := by
  rw [blockAnswers, ← MultiplexedSolanaClient.getBlockWithConfig_none_iff]
  have hget : ∀ s, L.client.getBlockWithConfig slot ⟨some .signatures, L.commitment⟩ L.blockRetries s
      = (liftOutcome (C.getBlockWithConfig slot ⟨some .signatures, L.commitment⟩ L.blockRetries) :
        Eff σ _) s := by
    rw [hL]
    exact fun _ => rfl
  cases hblock : C.getBlockWithConfig slot ⟨some .signatures, L.commitment⟩ L.blockRetries with
  | error e =>
      refine ⟨.error e, fun s => ?_, iff_of_false (fun h => by cases h) (fun h => by cases h)⟩
      simp only [loadBlock, bind, EStateM.bind, hget, hblock]
      rfl
  | ok answer =>
      cases answer with
      | none =>
          refine ⟨.ok none, fun s => ?_, iff_of_true rfl rfl⟩
          simp only [loadBlock, bind, EStateM.bind, hget, hblock]
          rfl
      | some block =>
          obtain ⟨r, hr⟩ := onlyAnswers_loadBlockTransactions (X := X) hL block L.commitment
          refine ⟨r.map some, fun s => ?_, ?_⟩
          · simp only [loadBlock, bind, EStateM.bind, hget, hblock, liftOutcome, pure, EStateM.pure, hr]
            cases r <;> rfl
          · cases r with
            | error e => exact iff_of_false (fun h => by cases h) (fun h => by cases h)
            | ok b => exact iff_of_false (fun h => by cases h) (fun h => by cases h)

/-- What a call has found, if it has answered. -/
def found (r : Outcome (Option α)) : Option α :=
  match r with
  | .ok o => o
  | .error _ => none

/-- Without a failed slot every result is an answer. -/
theorem results_of_no_failure {g : Slot → Outcome (Option UiConfirmedBlock)} (slots : List Slot) :
    ∀ {results : List (ProgramResult (Option UiConfirmedBlock))},
      results.map ProgramResult.toOutcome = slots.map g →
        (failedSlots (slots.zip results)).isEmpty = true →
          results = slots.map (fun slot => .ok (found (g slot))) ∧
            ∀ slot ∈ slots, g slot = .ok (found (g slot)) := by
  induction slots with
  | nil =>
      intro results hresults _
      rw [List.map_nil, List.map_eq_nil_iff] at hresults
      subst hresults
      exact ⟨rfl, fun slot hslot => by cases hslot⟩
  | cons slot slots ih =>
      intro results hresults hfailed
      cases results with
      | nil => cases hresults
      | cons result results =>
          obtain ⟨hfirst, hrest⟩ := List.cons.inj hresults
          cases result with
          | error e => cases hfailed
          | ok o =>
              have hslot : g slot = .ok o := hfirst.symm
              have hfound : found (g slot) = o := by rw [hslot]; rfl
              obtain ⟨hresults', hall⟩ := ih hrest hfailed
              refine ⟨by rw [List.map_cons, hfound, ← hresults'], ?_⟩
              intro slot' hslot'
              rcases List.mem_cons.mp hslot' with rfl | hslot'
              · rw [hfound, hslot]
              · exact hall slot' hslot'

/-- A batch that is loaded lacks the slots whose requests end in none. -/
theorem loadBlocks_ok (hL : L.client = C.solanaClient fromClientError) {slots : List Slot}
    {blocks : BTreeMap Slot UiConfirmedBlock} {s t : σ}
    (h : L.loadBlocks X slots s = .ok blocks t) : ∀ slot ∈ slots,
      slot ∉ blocks ↔ MultiplexedSolanaClient.endsInNone (blockAnswers C L slot) = true := by
  choose g hg hnone using loadBlock_answers (X := X) (L := L) hL
  obtain ⟨results, u, hjoin, hrest⟩ := EStateM.bind_ok h
  rw [joinAll_eq hg slots s] at hjoin
  cases houtcomes : joinOutcomes g slots with
  | error e =>
      rw [houtcomes] at hjoin
      cases hjoin
  | ok rs =>
      rw [houtcomes] at hjoin
      cases hjoin
      dsimp only at hrest
      split at hrest
      · next hfailed =>
          cases hrest
          obtain ⟨hresults, hall⟩ :=
            results_of_no_failure slots (joinOutcomes_ok slots houtcomes) hfailed
          have hzip : slots.zip results = slots.map fun slot => (slot, .ok (found (g slot))) := by
            have hmap := List.zip_map' (f := fun slot : Slot => slot) (g := fun slot =>
              (.ok (found (g slot)) : ProgramResult (Option UiConfirmedBlock))) (l := slots)
            rw [hresults]
            simpa using hmap
          intro slot hslot
          have hget : (loadedBlocks (slots.map fun slot => (slot, .ok (found (g slot)))))[slot]? =
              if slot ∈ slots then found (g slot) else none := get?_loadedBlocks slots slot
          rw [← hzip, if_pos hslot] at hget
          rw [← hnone slot, hall slot hslot, Std.ExtTreeMap.mem_iff_isSome_getElem?, hget]
          cases found (g slot) <;> simp
      · cases hrest

/-- The providers report the slot as skipped in the attempt that decides. -/
def AllSkip (nullMessage : String → Prop) (answers : List (Except ClientErrorKind RpcBlock)) : Prop :=
  ∀ answer ∈ answers, MultiplexedSolanaClient.Skips nullMessage answer

theorem allSkip_of_none_iff {nullMessage : String → Prop}
    (answers : List (Except ClientErrorKind RpcBlock)) :
    (MultiplexedSolanaClient.endsInNone answers = true → AllSkip nullMessage answers) ↔
      ¬ MultiplexedSolanaClient.Mistaken nullMessage answers := by
  simp only [MultiplexedSolanaClient.Mistaken, AllSkip, not_and, not_exists, not_not]

theorem absent_skipped_iff {nullMessage : String → Prop} {slots : List Slot}
    {blocks : BTreeMap Slot UiConfirmedBlock}
    (h : ∀ slot ∈ slots,
      slot ∉ blocks ↔ MultiplexedSolanaClient.endsInNone (blockAnswers C L slot) = true) :
    (∀ slot ∈ slots, slot ∉ blocks → AllSkip nullMessage (blockAnswers C L slot)) ↔
      ∀ slot ∈ slots, ¬ MultiplexedSolanaClient.Mistaken nullMessage (blockAnswers C L slot) := by
  constructor
  · intro hall slot hslot
    rw [← allSkip_of_none_iff, ← h slot hslot]
    exact hall slot hslot
  · intro hall slot hslot
    rw [h slot hslot, allSkip_of_none_iff]
    exact hall slot hslot

/-- A request, a batch that is loaded and a batch that is stored take a slot for skipped
only where all providers say so, exactly as long as no attempt that decides is mistaken. -/
theorem none_only_if_all_skip_iff (hL : L.client = C.solanaClient fromClientError)
    (nullMessage : String → Prop) :
    (∀ slot config numRetries,
      (C.getBlockWithConfig slot config numRetries = .ok none → AllSkip nullMessage
        (C.deciding (fun client => client.getBlockWithConfig slot config) numRetries 0)) ↔
      ¬ MultiplexedSolanaClient.Mistaken nullMessage
        (C.deciding (fun client => client.getBlockWithConfig slot config) numRetries 0)) ∧
    (∀ slots blocks s t, L.loadBlocks X slots s = .ok blocks t →
      ((∀ slot ∈ slots, slot ∉ blocks → AllSkip nullMessage (blockAnswers C L slot)) ↔
        ∀ slot ∈ slots,
          ¬ MultiplexedSolanaClient.Mistaken nullMessage (blockAnswers C L slot))) ∧
    (∀ fromSlot maxSlot finalizedSlot toSlot s t,
      L.preloadBlocks X fromSlot maxSlot finalizedSlot s = .ok toSlot t →
        ∃ blocks u, L.solanaBlockStorage.storeBlocks blocks finalizedSlot u = .ok () t ∧
          ((∀ slot ∈ List.range' fromSlot (toSlot - fromSlot),
              slot ∉ blocks → AllSkip nullMessage (blockAnswers C L slot)) ↔
            ∀ slot ∈ List.range' fromSlot (toSlot - fromSlot),
              ¬ MultiplexedSolanaClient.Mistaken nullMessage (blockAnswers C L slot))) := by
  refine ⟨fun slot config numRetries => ?_, fun slots blocks s t h => ?_,
    fun fromSlot maxSlot finalizedSlot toSlot s t h => ?_⟩
  · rw [MultiplexedSolanaClient.getBlockWithConfig_none_iff]
    exact allSkip_of_none_iff _
  · exact absent_skipped_iff (loadBlocks_ok hL h)
  · obtain ⟨blocks, u, hload, hrest⟩ := EStateM.bind_ok h
    obtain ⟨_, u', hstore, hlast⟩ := EStateM.bind_ok hrest
    cases hlast
    exact ⟨blocks, u, hstore, absent_skipped_iff (loadBlocks_ok hL hload)⟩

/-! ## Two providers that disagree -/

/-- A node that answers every request for a block with this error. -/
def failingClient (kind : ClientErrorKind) : RpcClient where
  getTransactionWithConfig _ _ _ := .error kind
  getSignaturesForAddressWithConfig _ _ := .error kind
  getBlockWithConfig _ _ _ := .error kind
  getSlotWithCommitment _ := .error kind

/-- The first provider is unhealthy; the second one says that the slot was skipped. -/
def disagreeing : MultiplexedSolanaClient where
  providers :=
    [failingClient (.rpcResponseError (-32005) "Node is behind by 42 slots"),
     failingClient (.rpcResponseError (-32007) "Slot 7 was skipped, or missing due to ledger jump")]
  emergencyProviders := none
  fastest _ := 0

/-- By these words serde says that it has read a null. -/
def nullBlock (message : String) : Prop :=
  message = "invalid type: null, expected struct UiConfirmedBlock"

theorem unhealthy_taken_for_skipped :
    disagreeing.getBlockWithConfig 7 ⟨some .signatures, .confirmed⟩ 3 = .ok none ∧
      ¬ AllSkip nullBlock (disagreeing.deciding
        (fun client => client.getBlockWithConfig 7 ⟨some .signatures, .confirmed⟩) 3 0) := by
  refine ⟨rfl, fun hall => ?_⟩
  have hfirst := hall _ (List.mem_cons_self ..)
  exact absurd hfirst (by decide : (-32005 : Int) ≠ -32007)

def disagreeingLoader : SolanaBlockLoader (Server UiConfirmedBlock) :=
  { downLoader with
    client := disagreeing.solanaClient fun kind => .custom (toString (repr kind)) }

/-- The batch of the slot 7 alone. -/
theorem none_only_if_all_skip_disagreeing :
    (∀ slot ∈ [7], slot ∉ (∅ : BTreeMap Slot UiConfirmedBlock) →
        AllSkip nullBlock (blockAnswers disagreeing disagreeingLoader slot)) ↔
      ∀ slot ∈ [7], ¬ MultiplexedSolanaClient.Mistaken nullBlock
        (blockAnswers disagreeing disagreeingLoader slot) :=
  (none_only_if_all_skip_iff (X := standIns) rfl nullBlock).2.1 [7] ∅ ⟨Db.empty, []⟩
    ⟨Db.empty, []⟩ rfl

end SolanaBlockLoader

end RomeSdk
