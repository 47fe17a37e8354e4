import RomeSdk.Proofs.Finalization
import RomeSdk.Proofs.Records

/-!
# The hash a transaction was filed under and the hash it has

Steps are filed under a hash: of a transaction executed directly the indexer
computes it, of a transmitted one the sender declares it. Nothing between the
arrival of a chunk and the finalized block compares the two. So a small record
is the transaction its hash names, while a holder record is the transaction
whose encoding its bytes are, and the two agree for senders who transmit pieces
of the transaction they name.
-/

namespace RomeSdk

/-- What is relied on of `Transaction::decode`: the hash it sets is that of the
bytes it decodes. -/
def Ethers.HashesRlp (E : Ethers) : Prop := ∀ b t, E.decode b = .ok t → t.hash = E.keccak256 b

theorem decodeTransactionFromRlp_hash {X : Crates} (hX : X.ethers.HashesRlp) {b : Bytes}
    {t : Transaction} (h : decodeTransactionFromRlp X b = .ok t) :
    t.hash = X.ethers.keccak256 b ∧ ∃ t', X.ethers.decode b = .ok t' := by
  rw [decodeTransactionFromRlp] at h
  cases hdecode : X.ethers.decode b with
  | error e =>
      rw [hdecode] at h
      cases h
  | ok t' =>
      rw [hdecode] at h
      have hhash := hX b t' hdecode
      refine ⟨?_, t', rfl⟩
      simp only at h
      split at h
      · split at h
        · cases h
        · cases h
          exact hhash
      · cases h
        exact hhash

namespace DefaultTxParser

/-! ## What the records of a run are -/

/-- `SmallTx` steps are filed under the hash of their transaction, as the block
parser does. -/
def SmallUnderOwnHash (_ : DefaultTxParser) (op : ParserOp) : Prop :=
  match op with
  | .register _ slotTxs =>
      ∀ h i tx r, slotTxs.stepAt h i = some (.smallTx tx r) → tx.hash = h
  | _ => True

/-- The chunks listed under a hash are pieces of one payload. -/
def PiecesOf (payload : Bytes) (hash : TxHash) (_ : DefaultTxParser) (op : ParserOp) : Prop :=
  match op with
  | .register _ slotTxs =>
      ∀ i offset data, slotTxs.stepAt hash i = some (.transmitTx offset data) →
        Slice payload offset data
  | _ => True

/-- A property of the record of one hash that each of its steps keeps holds
throughout a run. -/
theorem record_invariant {h : TxHash} {P : Option EvmTx → Prop}
    {G : DefaultTxParser → ParserOp → Prop} (hnone : P none)
    (hstep : ∀ p slot slotTxs, G p (.register slot slotTxs) →
      ∀ o, P o → ∀ i step, slotTxs.stepAt h i = some step → P (recordStep o step).1)
    {tr : List (DefaultTxParser × ParserOp)} {p : DefaultTxParser}
    (hrun : Machine.Run freshParser tr p) (hmeets : Machine.Meets G tr) : P (p.record h) := by
  refine hrun.invariant (I := fun p => P (p.record h)) ?_ ?_ hmeets
  · intro s hinit
    cases hinit
    exact hnone
  · intro s op t hs hop hst
    cases op with
    | retainFromSlot fromSlot =>
        change t = s.retainFromSlot fromSlot at hst
        rw [hst]
        rcases retainFromSlot_record s fromSlot h with hrec | hrec
        · rw [hrec]
          exact hnone
        · rw [hrec]
          exact hs
    | rehash =>
        change DefaultTxParser.Same s t at hst
        rw [← hst.record]
        exact hs
    | register slot slotTxs =>
        obtain ⟨_, rfl⟩ := hst
        obtain ⟨done, hdone, hafter, _⟩ := registerSlotTransactions_record s slot slotTxs h
        rw [hafter]
        refine forTry_invariant ?_ hs
        intro o step hmem ho
        obtain ⟨i, hi⟩ := mem_stepsOf.mp (hdone.subset hmem)
        exact hstep s slot slotTxs hop o ho i step hi

/-- What is true of the transactions of `SmallTx` steps is true of small records. -/
theorem small_record {h : TxHash} {Q : Transaction → Prop} {G : DefaultTxParser → ParserOp → Prop}
    (hG : ∀ p slot slotTxs, G p (.register slot slotTxs) →
      ∀ i tx r, slotTxs.stepAt h i = some (.smallTx tx r) → Q tx)
    {tr : List (DefaultTxParser × ParserOp)} {p : DefaultTxParser}
    (hrun : Machine.Run freshParser tr p) (hmeets : Machine.Meets G tr) :
    ∀ t, p.record h = some (.smallEvmTx t) → Q t := by
  refine record_invariant (P := fun o => ∀ t, o = some (.smallEvmTx t) → Q t)
    (by intro t ht; cases ht) ?_ hrun hmeets
  intro p slot slotTxs hop o ho i step hi t ht
  cases step with
  | smallTx tx r =>
      cases o with
      | none =>
          cases ht
          exact hG p slot slotTxs hop i t r hi
      | some old => exact ho t ht
  | bigTx r =>
      cases o with
      | none => cases ht
      | some old => exact ho t ht
  | transmitTx offset data =>
      simp only [recordStep] at ht
      cases hup : (o.getD EvmTx.newBigTx).updateTxHolder offset data with
      | ok updated =>
          rw [hup] at ht
          have hbig := (isSmall_updateTxHolder hup).2
          cases ht
          cases hbig
      | error e =>
          rw [hup] at ht
          cases o with
          | none => cases ht
          | some old => exact ho t ht

/-- A small record is that of its own transaction. -/
theorem small_hash {h : TxHash} {tr : List (DefaultTxParser × ParserOp)} {p : DefaultTxParser}
    (hrun : Machine.Run freshParser tr p) (hmeets : Machine.Meets SmallUnderOwnHash tr) :
    ∀ t, p.record h = some (.smallEvmTx t) → t.hash = h :=
  small_record (fun _ _ _ hG i tx r => hG h i tx r) hrun hmeets

/-- Chunks of one payload build holder records of that payload. -/
theorem big_carries {payload : Bytes} {h : TxHash} {tr : List (DefaultTxParser × ParserOp)}
    {p : DefaultTxParser} (hrun : Machine.Run freshParser tr p)
    (hmeets : Machine.Meets (PiecesOf payload h) tr) :
    ∀ tx, p.record h = some tx → isSmall (some tx) = true ∨ EvmTx.Carries payload tx := by
  refine record_invariant
    (P := fun o => ∀ tx, o = some tx → isSmall (some tx) = true ∨ EvmTx.Carries payload tx)
    (by intro t ht; cases ht) ?_ hrun hmeets
  intro p slot slotTxs hG o ho i step hi tx htx
  have hstart : isSmall (some (o.getD .newBigTx)) = true ∨
      EvmTx.Carries payload (o.getD .newBigTx) := by
    cases o with
    | none => exact Or.inr (.newBigTx payload)
    | some old => exact ho old rfl
  cases step with
  | smallTx t r =>
      cases o with
      | none =>
          cases htx
          exact Or.inl rfl
      | some old => exact ho tx htx
  | bigTx r =>
      cases htx
      exact hstart
  | transmitTx offset data =>
      simp only [recordStep] at htx
      cases hup : (o.getD EvmTx.newBigTx).updateTxHolder offset data with
      | error e =>
          rw [hup] at htx
          cases htx
          exact hstart
      | ok updated =>
          rw [hup] at htx
          cases htx
          rcases hstart with hsmall | hcarries
          · rw [(isSmall_updateTxHolder hup).1] at hsmall
            cases hsmall
          · exact Or.inr (hcarries.update (hG i offset data hi) hup)

/-! ## What `finalizeSlot` returns -/

/-- `finalizeSlot` returns `t` because of the entry of `hash`. -/
structure ReturnedFor (X : Crates) (p : DefaultTxParser) (slot : Slot) (hash : TxHash)
    (t : Transaction) (r : TxResult) : Prop where
  executed : ∃ i, Executed p slot hash i r
  built : ∃ tx, p.record hash = some tx ∧ tx.isDataComplete = true ∧ tx.build X = .ok t

theorem finalizeTx_mem {X : Crates} {p : DefaultTxParser} {hash : TxHash}
    {l : List (Nat × Option TxResult)} {results results' : Finalized}
    (h : finalizeTx X p hash l results = .ok results') :
    results' = results ∨ ∃ i r t tx, firstResult l = some (i, r) ∧ p.record hash = some tx ∧
      tx.isDataComplete = true ∧ tx.build X = .ok t ∧ results' = results.insert i (t, r) := by
  induction l with
  | nil =>
      cases h
      exact Or.inl rfl
  | cons e l ih =>
      obtain ⟨k, _ | s⟩ := e
      · exact ih h
      · right
        simp only [finalizeTx] at h
        split at h
        · cases h
        · next tx hrec =>
            split at h
            · next hcomplete =>
                split at h
                · cases h
                · next t hbuild =>
                    cases h
                    exact ⟨k, s, t, tx, rfl, hrec, hcomplete, hbuild, rfl⟩
            · cases h

theorem finalizeTxs_mem {X : Crates} {p : DefaultTxParser} {slot : Slot} {slotTxs : SlotResults}
    (hslot : p.resultsBySlot[slot]? = some slotTxs)
    (l : List (Sigma fun _ : TxHash => TxResults)) : (∀ e ∈ l, e ∈ slotTxs.entries) →
      ∀ {results results' : Finalized}, finalizeTxs X p l results = .ok results' →
        (∀ (i : Nat) t r, results[i]? = some (t, r) → ∃ hash, ReturnedFor X p slot hash t r) →
          ∀ (i : Nat) t r, results'[i]? = some (t, r) → ∃ hash, ReturnedFor X p slot hash t r := by
  induction l with
  | nil =>
      intro _ results results' h hold
      cases h
      exact hold
  | cons e l ih =>
      intro hsub results results' h hold
      obtain ⟨hash, txResults⟩ := e
      simp only [finalizeTxs] at h
      split at h
      · cases h
      · next results₁ hone =>
          refine ih (fun e he => hsub e (List.mem_cons_of_mem _ he)) h ?_
          rcases finalizeTx_mem hone with rfl | ⟨i, r, t, tx, hfirst, hrec, hcomplete, hbuild, rfl⟩
          · exact hold
          · have hlookup : slotTxs.lookup hash = some txResults :=
              (HashMap.mem_entries slotTxs hash txResults).mp (hsub _ (List.mem_cons_self ..))
            have hexec := (executed_iff hslot hlookup).mp hfirst
            intro j t' r' hj
            rw [BTreeMap.get?_insert] at hj
            split at hj
            · cases hj
              exact ⟨hash, ⟨i, hexec⟩, tx, hrec, hcomplete, hbuild⟩
            · exact hold j t' r' hj

/-- Whatever `finalizeSlot` returns, it returns because of the entry of some hash. -/
theorem finalizeSlot_returnedFor {X : Crates} {p : DefaultTxParser} {slot : Slot}
    {out : List (Transaction × TxResult)} (h : p.finalizeSlot X slot = .ok out) :
    ∀ t r, (t, r) ∈ out → ∃ hash, ReturnedFor X p slot hash t r := by
  intro t r hmem
  cases hslot : p.resultsBySlot[slot]? with
  | none =>
      simp only [finalizeSlot, hslot] at h
      cases h
      cases hmem
  | some slotTxs =>
      simp only [finalizeSlot, hslot] at h
      split at h
      · cases h
      · next results hrun =>
          cases h
          obtain ⟨⟨i, e⟩, hin, heq⟩ := List.mem_map.mp hmem
          change e = (t, r) at heq
          subst heq
          refine finalizeTxs_mem hslot slotTxs.entries (fun _ he => he) hrun ?_ i t r
            ((BTreeMap.mem_toList results i _).mp hin)
          intro j t' r' hj
          rw [Std.ExtTreeMap.getElem?_empty] at hj
          cases hj

/-- Every transaction `finalizeSlot` returns is returned because of some hash,
and then: a small record gives the transaction of that hash; a holder record the
transaction of its bytes; and if the chunks sent under the hash are pieces of
the encoding the hash names, of which no proper prefix decodes, that is the
transaction of that hash as well. -/
theorem finalized_hash {X : Crates} (hX : X.ethers.HashesRlp)
    {tr : List (DefaultTxParser × ParserOp)} {p : DefaultTxParser}
    (hrun : Machine.Run freshParser tr p) (hsmall : Machine.Meets SmallUnderOwnHash tr)
    (slot : Slot) :
    (∀ out, p.finalizeSlot X slot = .ok out →
      ∀ t r, (t, r) ∈ out → ∃ hash, ReturnedFor X p slot hash t r) ∧
    ∀ hash t r, ReturnedFor X p slot hash t r →
      (∀ s, p.record hash = some (.smallEvmTx s) → t.hash = hash) ∧
      (∀ holderData pieces, p.record hash = some (.bigEvmTx holderData pieces) →
        t.hash = X.ethers.keccak256 holderData) ∧
      (∀ payload, X.ethers.keccak256 payload = hash →
        (∀ b, b <+: payload → b ≠ payload → ∀ t', X.ethers.decode b ≠ .ok t') →
          Machine.Meets (PiecesOf payload hash) tr → t.hash = hash) := by
  refine ⟨fun out hout => finalizeSlot_returnedFor hout, ?_⟩
  intro hash t r ⟨_, tx, hrec, hcomplete, hbuild⟩
  have hsmallHash : ∀ s, p.record hash = some (.smallEvmTx s) → t.hash = hash := by
    intro s hs
    rw [hrec] at hs
    cases hs
    cases hbuild
    exact small_hash hrun hsmall t hrec
  refine ⟨hsmallHash, ?_, ?_⟩
  · intro holderData pieces hbig
    rw [hrec] at hbig
    cases hbig
    exact (decodeTransactionFromRlp_hash hX hbuild).1
  · intro payload hpayload hprefix hpieces
    rcases big_carries hrun hpieces tx hrec with hkind | hcarries
    · cases tx with
      | smallEvmTx s => exact hsmallHash s hrec
      | bigEvmTx holderData pieces => cases hkind
    · rw [hcarries.built.big] at hbuild
      obtain ⟨hhash, t', hdecode⟩ := decodeTransactionFromRlp_hash hX hbuild
      have hwhole : tx.holderData = payload := by
        by_contra hne
        exact hprefix _ (hcarries.extends_to hcomplete) hne t' hdecode
      rw [hhash, hwhole, hpayload]

theorem standIns_hashesRlp : standIns.ethers.HashesRlp := by
  intro b t h
  simp only [standIns] at h
  split at h
  · cases h
  · cases h
    rfl

/-! A chunk of another transaction, sent under hash 1 and executed from the holder. -/

def foreignChunk : ParsedTxs :=
  (ParsedTxs.addStep ∅ 1 0 (.transmitTx 0 [42])).addStep 1 1 (.bigTx (some .default))

def afterForeignChunk : DefaultTxParser := (new.registerSlotTransactions 5 foreignChunk).1

theorem finalized_hash_foreign : standIns.ethers.HashesRlp ∧
    (∃ tr, Machine.Run freshParser tr afterForeignChunk ∧ Machine.Meets SmallUnderOwnHash tr) ∧
    afterForeignChunk.finalizeSlot standIns 5 = .ok [(bareTx 42, .default)] ∧
    ReturnedFor standIns afterForeignChunk 5 1 (bareTx 42) .default ∧ (bareTx 42).hash ≠ 1 := by
  refine ⟨standIns_hashesRlp, ⟨_, parserFrom_register (.start rfl) 5 foreignChunk (by decide), ?_⟩,
    by rfl, ⟨⟨1, by rfl, ?_⟩, ?_⟩, by decide⟩
  · intro e he
    cases List.mem_singleton.mp he
    intro h i tx r hstep
    have hin := ParsedTxs.mem_inOrder.mpr hstep
    have hlist : foreignChunk.inOrder
        = [(1, 0, .transmitTx 0 [42]), (1, 1, .bigTx (some .default))] := by decide
    rw [hlist] at hin
    simp at hin
  · intro i r hi
    by_contra hlt
    have hzero : i = 0 := by omega
    subst hzero
    have hnone : afterForeignChunk.resultAt 5 1 0 = some none := by rfl
    rw [hnone] at hi
    cases hi
  · exact ⟨.bigEvmTx [42] ((∅ : BTreeMap Nat Nat).insert 0 1), by rfl, by decide, by rfl⟩

theorem finalized_hash_one :
    ReturnedFor standIns afterOne 5 1 (bareTx 1) .default ∧ (bareTx 1).hash = 1 := by
  have hrun : Machine.Run freshParser _ afterOne :=
    parserFrom_register (.start rfl) 5 _ (by decide)
  have hsmall : Machine.Meets SmallUnderOwnHash
      ([] ++ [(new, .register 5 (ParsedTxs.addStep ∅ 1 0 (.smallTx (bareTx 1) (some .default))))])
      := by
    intro e he
    cases List.mem_singleton.mp he
    intro h i tx r hstep
    have hin := ParsedTxs.mem_inOrder.mpr hstep
    have hlist : (ParsedTxs.addStep ∅ 1 0 (.smallTx (bareTx 1) (some .default))).inOrder
        = [(1, 0, .smallTx (bareTx 1) (some .default))] := by decide
    rw [hlist, List.mem_singleton] at hin
    cases hin
    rfl
  have hrec : afterOne.record 1 = some (.smallEvmTx (bareTx 1)) := by rfl
  have hreturned : ReturnedFor standIns afterOne 5 1 (bareTx 1) .default :=
    ⟨⟨0, by rfl, fun i _ _ => Nat.zero_le i⟩, _, hrec, rfl, rfl⟩
  exact ⟨hreturned,
    ((finalized_hash standIns_hashesRlp hrun hsmall 5).2 1 _ _ hreturned).1 (bareTx 1) hrec⟩

end DefaultTxParser

end RomeSdk
