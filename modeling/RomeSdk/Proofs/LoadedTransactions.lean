import RomeSdk.Proofs.FailedRecheck
import RomeSdk.Proofs.StandIns

/-!
# The transactions a loaded block has

A block is asked for with its signatures only. Between the first and the last of
them the node is asked for the signatures that mention the program; the two ends
are added, and of each transaction it is looked up whether it has an instruction of
the program. In a block with one signature the two ends are the same one, and its
transaction is there twice.

The chain is a list of transactions, oldest first. Of the node it is assumed that
it finds every transaction of it and answers the range query, which leaves out both
ends, newest first.
-/

namespace RomeSdk

/-- The elements strictly between two elements of a list. -/
def between {α : Type} [DecidableEq α] (l : List α) (u b : α) : List α :=
  (l.take (l.idxOf b)).drop (l.idxOf u + 1)

theorem between_self {α : Type} [DecidableEq α] (l : List α) (a : α) : between l a a = [] :=
  List.drop_eq_nil_of_le (by rw [List.length_take]; omega)

theorem idxOf_after {α : Type} [DecidableEq α] {l later : List α} {a : α} (h : a ∉ l) :
    (l ++ a :: later).idxOf a = l.length := by
  rw [List.idxOf_append_of_notMem h, List.idxOf_cons_self, Nat.add_zero]

theorem between_ends {α : Type} [DecidableEq α] {before middle after : List α} {u b : α}
    (h : (before ++ u :: (middle ++ b :: after)).Nodup) :
    between (before ++ u :: (middle ++ b :: after)) u b = middle := by
  have hsplit : before ++ u :: (middle ++ b :: after) = (before ++ u :: middle) ++ b :: after := by
    rw [List.append_assoc, List.cons_append]
  have hu : u ∉ before := fun hmem =>
    (List.nodup_append.mp h).2.2 u hmem u (List.mem_cons_self ..) rfl
  have hb : b ∉ before ++ u :: middle := by
    intro hmem
    rw [hsplit] at h
    exact (List.nodup_append.mp h).2.2 b hmem b (List.mem_cons_self ..) rfl
  have hidxb : (before ++ u :: (middle ++ b :: after)).idxOf b
      = (before ++ u :: middle).length := by
    rw [hsplit]
    exact idxOf_after hb
  rw [between, idxOf_after hu, hidxb, hsplit, List.take_left', List.drop_append]
  · simp
  · rfl

/-! ## Looking a transaction up -/

namespace SolanaBlockLoader

/-- An instruction at the top level of the transaction is one of the program. -/
def callsProgram (programId : Pubkey) (tx : EncodedTransactionWithStatusMeta) : Bool :=
  tx.1.any fun vt => vt.instructions.any fun instruction =>
    vt.staticAccountKeys[instruction.programIdIndex]? == some programId

/-- What the decoding of a transaction checks: every instruction names its program by
an index into the static keys. -/
def Sanitized (tx : EncodedTransactionWithStatusMeta) : Prop :=
  ∀ vt, tx.1 = some vt → ∀ instruction ∈ vt.instructions,
    instruction.programIdIndex < vt.staticAccountKeys.length

/-- The transactions that have an instruction of the program, if there are any. -/
def programTransactions (programId : Pubkey) (txs : List EncodedTransactionWithStatusMeta) :
    Option (List EncodedTransactionWithStatusMeta) :=
  if (txs.filter (callsProgram programId)).isEmpty then none
  else some (txs.filter (callsProgram programId))

theorem anyOfProgram_eq (programId : Pubkey) {accounts : List Pubkey}
    {instructions : List CompiledInstruction}
    (h : ∀ instruction ∈ instructions, instruction.programIdIndex < accounts.length) :
    anyOfProgram programId accounts instructions = .ok (instructions.any fun instruction =>
      accounts[instruction.programIdIndex]? == some programId) := by
  induction instructions with
  | nil => rfl
  | cons instruction instructions ih =>
      have hrest := ih fun i hi => h i (List.mem_cons_of_mem _ hi)
      have hlt := h instruction (List.mem_cons_self ..)
      obtain ⟨key, hkey⟩ : ∃ key, accounts[instruction.programIdIndex]? = some key :=
        ⟨_, List.getElem?_eq_getElem hlt⟩
      rw [anyOfProgram, hkey, List.any_cons, hkey]
      dsimp only
      by_cases hsame : key = programId
      · simp [hsame]
      · simp [hsame, hrest]

theorem hasProgram_eq (programId : Pubkey) {tx : EncodedTransactionWithStatusMeta}
    (h : Sanitized tx) : hasProgram programId tx = .ok (callsProgram programId tx) := by
  obtain ⟨vt, status⟩ := tx
  cases vt with
  | none => rfl
  | some vt => exact anyOfProgram_eq programId (h vt rfl)

section

variable {σ : Type} {X : Crates} {L : SolanaBlockLoader σ} {commitment : CommitmentLevel}
  {chain txs before after : List (Signature × EncodedTransactionWithStatusMeta)}
  {mentions : Signature → Bool}

/-- The node has the transactions of the chain, with their signatures. A transaction
with an instruction of the program mentions it. -/
structure ServesChain (X : Crates) (L : SolanaBlockLoader σ) (commitment : CommitmentLevel)
    (chain : List (Signature × EncodedTransactionWithStatusMeta))
    (mentions : Signature → Bool) : Prop where
  distinct : (chain.map Prod.fst).Nodup
  sanitized : ∀ e ∈ chain, Sanitized e.2
  mentioned : ∀ e ∈ chain, callsProgram L.programId e.2 = true → mentions e.1 = true
  transaction : ∀ e ∈ chain, ∀ s,
    L.client.getTransactionWithConfig e.1 commitment L.txRetries s = .ok (some e.2) s
  signatures : ∀ b ∈ chain.map Prod.fst, ∀ u ∈ chain.map Prod.fst, ∀ s, ∃ statuses,
    L.client.getSignaturesForAddressWithConfig L.programId ⟨some b, some u, none, some commitment⟩ s
        = .ok statuses s ∧
      statuses.map (Signature.fromStr X) =
        ((between (chain.map Prod.fst) u b).filter mentions).reverse.map some

theorem loadTransaction_eq (hN : ServesChain X L commitment chain mentions)
    {e : Signature × EncodedTransactionWithStatusMeta} (he : e ∈ chain) (s : σ) :
    L.loadTransaction e.1 commitment s =
      .ok (if callsProgram L.programId e.2 then some e.2 else none) s := by
  simp only [loadTransaction, bind, EStateM.bind, hN.transaction e he s,
    hasProgram_eq L.programId (hN.sanitized e he)]
  rfl

/-- Calls that all answer. -/
theorem joinAll_answers {ι α β : Type} (f : α → Eff σ β) (key : ι → α) {g : ι → β} {l : List ι}
    (h : ∀ i ∈ l, ∀ s, f (key i) s = .ok (g i) s) (s : σ) :
    RollupIndexer.joinAll f (l.map key) s = .ok (l.map fun i => .ok (g i)) s := by
  induction l with
  | nil => rfl
  | cons i l ih =>
      have hrest := ih fun j hj => h j (List.mem_cons_of_mem _ hj)
      have hfirst := h i (List.mem_cons_self ..) s
      simp only [List.map_cons, RollupIndexer.joinAll, bind, EStateM.bind, Eff.attempt, hfirst, hrest]
      rfl

theorem collectResults_answers {ι β : Type} (g : ι → β) (l : List ι) :
    collectResults (l.map fun i => .ok (g i)) = .ok (l.map g) := by
  induction l with
  | nil => rfl
  | cons i l ih =>
      rw [List.map_cons, collectResults, ih]
      rfl

theorem loadTransactions_eq (hN : ServesChain X L commitment chain mentions)
    (htxs : ∀ e ∈ txs, e ∈ chain) (s : σ) :
    L.loadTransactions commitment (txs.map Prod.fst) s =
      .ok (programTransactions L.programId (txs.map Prod.snd)) s := by
  have hjoin := joinAll_answers (fun signature => L.loadTransaction signature commitment) Prod.fst
    (fun e he => loadTransaction_eq hN (htxs e he)) s
  have hfound : (txs.map fun e => if callsProgram L.programId e.2 then some e.2 else none).filterMap id
      = (txs.map Prod.snd).filter (callsProgram L.programId) := by
    rw [List.filterMap_map, ← List.filterMap_eq_filter, List.filterMap_map]
    rfl
  rw [programTransactions, ← hfound]
  simp only [loadTransactions, bind, EStateM.bind, hjoin, collectResults_answers]
  rfl

/-! ## The two ends and what is between them -/

theorem programTransactions_filter (programId : Pubkey) {p : Signature → Bool}
    (txs : List (Signature × EncodedTransactionWithStatusMeta))
    (hp : ∀ e ∈ txs, callsProgram programId e.2 = true → p e.1 = true) :
    ((txs.filter fun e => p e.1).map Prod.snd).filter (callsProgram programId) =
      (txs.map Prod.snd).filter (callsProgram programId) := by
  induction txs with
  | nil => rfl
  | cons e txs ih =>
      have hrest := ih fun e' he' => hp e' (List.mem_cons_of_mem _ he')
      have hfirst := hp e (List.mem_cons_self ..)
      cases hcall : callsProgram programId e.2 with
      | true => simp [hfirst hcall, hcall, hrest]
      | false =>
          cases hmention : p e.1 with
          | true => simp [hmention, hcall, hrest]
          | false => simp [hmention, hcall, hrest]

theorem bind_of_map {α β : Type} {f : α → Option β} {o : Option α} {b : β}
    (h : o.map f = some (some b)) : o.bind f = some b := by
  obtain ⟨a, rfl, ha⟩ := Option.map_eq_some_iff.mp h
  exact ha

/-- The ends of the range are the signatures of the last and the first transaction. -/
theorem signatureBounds_eq {block : RpcBlock} {texts : List String}
    {first last : Signature × EncodedTransactionWithStatusMeta}
    (hblock : block.signatures = some texts)
    (htexts : texts.map (Signature.fromStr X) = txs.map fun e => some e.1)
    (hfirst : txs.head? = some first) (hlast : txs.getLast? = some last) :
    signatureBounds X block = some (last.1, first.1) := by
  have hbefore : texts.getLast?.bind (Signature.fromStr X) = some last.1 := by
    refine bind_of_map ?_
    rw [← List.getLast?_map, htexts, List.getLast?_map, hlast]
    rfl
  have huntil : texts.head?.bind (Signature.fromStr X) = some first.1 := by
    refine bind_of_map ?_
    rw [← List.head?_map, htexts, List.head?_map, hfirst]
    rfl
  simp only [signatureBounds, hblock, bind, Option.bind_some, hbefore, huntil]
  rfl

/-- What is loaded, whatever lies between the two ends. -/
theorem loadBlockTransactions_eq (hN : ServesChain X L commitment chain mentions)
    {block : RpcBlock} {middle : List (Signature × EncodedTransactionWithStatusMeta)}
    {first last : Signature × EncodedTransactionWithStatusMeta}
    (hbounds : signatureBounds X block = some (last.1, first.1))
    (hbetween : between (chain.map Prod.fst) first.1 last.1 = middle.map Prod.fst)
    (hin : ∀ e ∈ first :: (middle ++ [last]), e ∈ chain) (s : σ) :
    L.loadBlockTransactions X block commitment s =
      .ok { block.toUiConfirmedBlock with
        transactions := programTransactions L.programId
          ((first :: (middle ++ [last])).map Prod.snd) } s := by
  have hlast : last ∈ chain :=
    hin last (List.mem_cons_of_mem _ (List.mem_append_right _ (List.mem_singleton_self _)))
  obtain ⟨statuses, hanswer, hstatuses⟩ := hN.signatures last.1 (List.mem_map_of_mem hlast)
    first.1 (List.mem_map_of_mem (hin first (List.mem_cons_self ..))) s
  let asked := first :: (middle.filter (fun e => mentions e.1) ++ [last])
  have hread : statuses.filterMap (Signature.fromStr X) =
      ((middle.filter fun e => mentions e.1).map Prod.fst).reverse := by
    have hid : statuses.filterMap (Signature.fromStr X) =
        (statuses.map (Signature.fromStr X)).filterMap id := by
      rw [List.filterMap_map]
      rfl
    rw [hid, hstatuses, hbetween, List.filter_map, List.filterMap_map]
    exact List.filterMap_some
  have hsigs : (last.1 :: (((middle.filter fun e => mentions e.1).map Prod.fst).reverse
      ++ [first.1])).reverse = asked.map Prod.fst := by
    simp [asked]
  have hasked : ∀ e ∈ asked, e ∈ chain := by
    intro e he
    refine hin e ?_
    rcases List.mem_cons.mp he with rfl | he
    · exact List.mem_cons_self ..
    · rcases List.mem_append.mp he with he | he
      · exact List.mem_cons_of_mem _ (List.mem_append_left _ (List.mem_filter.mp he).1)
      · exact List.mem_cons_of_mem _ (List.mem_append_right _ he)
  -- a transaction that does not mention the program has no instruction of it
  have hsame : programTransactions L.programId (asked.map Prod.snd) =
      programTransactions L.programId ((first :: (middle ++ [last])).map Prod.snd) := by
    have hmiddle := programTransactions_filter L.programId middle fun e he =>
      hN.mentioned e (hin e (List.mem_cons_of_mem _ (List.mem_append_left _ he)))
    have hfilter : (asked.map Prod.snd).filter (callsProgram L.programId) =
        ((first :: (middle ++ [last])).map Prod.snd).filter (callsProgram L.programId) := by
      simp only [asked, List.map_cons, List.map_append, List.filter_cons, List.filter_append, hmiddle]
    rw [programTransactions, programTransactions, hfilter]
  have htxs := loadTransactions_eq hN hasked s
  rw [hsame] at htxs
  simp only [loadBlockTransactions, hbounds, bind, EStateM.bind, hanswer, hread, hsigs, htxs]
  rfl

/-- The transactions of the program are loaded, each once, exactly when the block has
more than one transaction or its only one is not of the program. -/
theorem load_block_transactions_exact_iff (hN : ServesChain X L commitment chain mentions)
    (hchain : chain = before ++ txs ++ after) (hne : txs ≠ []) {block : RpcBlock}
    {texts : List String} (hblock : block.signatures = some texts)
    (htexts : texts.map (Signature.fromStr X) = txs.map fun e => some e.1) (s : σ) :
    L.loadBlockTransactions X block commitment s =
        .ok { block.toUiConfirmedBlock with
          transactions := programTransactions L.programId (txs.map Prod.snd) } s ↔
      2 ≤ txs.length ∨ ∀ e ∈ txs, callsProgram L.programId e.2 = false := by
  obtain ⟨first, rest, rfl⟩ := List.exists_cons_of_ne_nil hne
  rcases List.eq_nil_or_concat' rest with rfl | ⟨middle, last, rfl⟩
  · -- the two ends are one transaction
    have hbounds : signatureBounds X block = some (first.1, first.1) :=
      signatureBounds_eq hblock htexts rfl rfl
    have hbetween : between (chain.map Prod.fst) first.1 first.1 =
        ([] : List (Signature × EncodedTransactionWithStatusMeta)).map Prod.fst := between_self _ _
    have hloaded := loadBlockTransactions_eq hN hbounds hbetween (by rw [hchain]; simp) s
    rw [hloaded]
    cases hcall : callsProgram L.programId first.2 with
    | true => simp [programTransactions, hcall]
    | false => simp [programTransactions, hcall]
  · have hlast : (first :: (middle ++ [last])).getLast? = some last := by
      rw [← List.cons_append, List.getLast?_concat]
    have hbounds := signatureBounds_eq hblock htexts rfl hlast
    have hsigs : chain.map Prod.fst = before.map Prod.fst ++
        first.1 :: (middle.map Prod.fst ++ last.1 :: after.map Prod.fst) := by
      rw [hchain]
      simp
    have hbetween : between (chain.map Prod.fst) first.1 last.1 = middle.map Prod.fst := by
      have hdistinct := hN.distinct
      rw [hsigs] at hdistinct ⊢
      exact between_ends hdistinct
    have hloaded := loadBlockTransactions_eq hN hbounds hbetween (by
      intro e he
      rw [hchain]
      exact List.mem_append_left _ (List.mem_append_right _ he)) s
    rw [hloaded]
    simp

end

/-! ## A block with one transaction -/

/-- 63 zero bytes and another one; in base58 a zero byte at the front is a 1. -/
def signatureOf (n : UInt8) : Signature := List.replicate 63 0 ++ [n]

def zeros : String := "111111111111111111111111111111111111111111111111111111111111111"

def signatureText (signature : Signature) : String :=
  if signature = signatureOf 0 then zeros ++ "1"
  else if signature = signatureOf 1 then zeros ++ "2"
  else zeros ++ "3"

/-- A base58 that knows three signatures. -/
def signatureCrates : Crates :=
  { standIns with bs58Decode := fun text =>
      if text = zeros ++ "1" then some (signatureOf 0)
      else if text = zeros ++ "2" then some (signatureOf 1)
      else if text = zeros ++ "3" then some (signatureOf 2)
      else none }

/-- A transaction with one instruction, of the program with this id. -/
def callOf (programId : Pubkey) (n : UInt8) : Signature × EncodedTransactionWithStatusMeta :=
  (signatureOf n, some ⟨[signatureOf n], [programId], [⟨0, []⟩]⟩, none)

/-- A node that has a chain of such transactions; the first key is all they mention. -/
def callsClient (chain : List (Signature × EncodedTransactionWithStatusMeta)) :
    SolanaClient Unit where
  getTransactionWithConfig signature _ _ :=
    pure ((chain.find? fun e => e.1 = signature).map Prod.snd)
  getSignaturesForAddressWithConfig address config :=
    pure (match config.until_, config.before with
      | some u, some b => ((between (chain.map Prod.fst) u b).filter fun signature =>
          chain.any fun e => e.1 = signature && callsProgram address e.2).reverse.map signatureText
      | _, _ => [])
  getBlockWithConfig _ _ _ := pure none
  getSlotWithCommitment _ := pure 0

def callsLoader (chain : List (Signature × EncodedTransactionWithStatusMeta)) :
    SolanaBlockLoader Unit :=
  ⟨PgStorage.solanaBlockStorage ⟨pure (), fun _ => Db.empty, fun _ s => s⟩, callsClient chain,
    .confirmed, 9, 10, 3, 3⟩

def signedBlock (chain : List (Signature × EncodedTransactionWithStatusMeta)) : RpcBlock :=
  ⟨⟨"parent", "hash", 6, none, some 0⟩, some (chain.map fun e => signatureText e.1)⟩

/-- The transaction with this signature calls the program. -/
def callsOf (chain : List (Signature × EncodedTransactionWithStatusMeta)) (signature : Signature) :
    Bool :=
  chain.any fun e => e.1 = signature && callsProgram 9 e.2

theorem mem_of_mem_between {α : Type} [DecidableEq α] {l : List α} {u b a : α}
    (h : a ∈ between l u b) : a ∈ l :=
  List.mem_of_mem_take (List.mem_of_mem_drop h)

theorem servesChain_calls {chain : List (Signature × EncodedTransactionWithStatusMeta)}
    (hdistinct : (chain.map Prod.fst).Nodup) (hsanitized : ∀ e ∈ chain, Sanitized e.2)
    (htexts : ∀ e ∈ chain, Signature.fromStr signatureCrates (signatureText e.1) = some e.1) :
    ServesChain signatureCrates (callsLoader chain) .confirmed chain (callsOf chain) where
  distinct := hdistinct
  sanitized := hsanitized
  mentioned e he hcall := by
    rw [callsOf, List.any_eq_true]
    have hcall9 : callsProgram 9 e.2 = true := hcall
    exact ⟨e, he, by rw [hcall9]; simp⟩
  transaction e he s := by
    have hfind : chain.find? (fun e' => e'.1 = e.1) = some e := by
      cases hfound : chain.find? (fun e' => decide (e'.1 = e.1)) with
      | none =>
          rw [List.find?_eq_none] at hfound
          exact absurd (decide_eq_true rfl) (hfound e he)
      | some e' =>
          have hkey := List.find?_some hfound
          have hsame : e'.1 = e.1 := of_decide_eq_true hkey
          rw [List.inj_on_of_nodup_map hdistinct (List.mem_of_find?_eq_some hfound) he hsame]
    simp only [callsLoader, callsClient, hfind]
    rfl
  signatures b _ u _ s := by
    refine ⟨_, rfl, ?_⟩
    rw [List.map_map]
    refine List.map_congr_left fun signature hmem => ?_
    have hin := mem_of_mem_between (List.mem_filter.mp (List.mem_reverse.mp hmem)).1
    obtain ⟨e, he, rfl⟩ := List.mem_map.mp hin
    exact htexts e he

/-- The only transaction of a block, an instruction of the program, is there twice. -/
theorem only_transaction_twice :
    ServesChain signatureCrates (callsLoader [callOf 9 0]) .confirmed [callOf 9 0]
        (callsOf [callOf 9 0]) ∧
      (callsLoader [callOf 9 0]).loadBlockTransactions signatureCrates
        (signedBlock [callOf 9 0]) .confirmed () =
          .ok { (signedBlock [callOf 9 0]).toUiConfirmedBlock with
            transactions := some [(callOf 9 0).2, (callOf 9 0).2] } () ∧
      some [(callOf 9 0).2, (callOf 9 0).2] ≠ programTransactions 9 [(callOf 9 0).2] := by
  refine ⟨servesChain_calls (List.nodup_singleton _) ?_ ?_, rfl, by decide⟩
  · intro e he vt hvt instruction hinstruction
    rw [List.mem_singleton.mp he] at hvt
    cases hvt
    rw [List.mem_singleton.mp hinstruction]
    decide
  · intro e he
    rw [List.mem_singleton.mp he]
    rfl

/-- Of three transactions the first and the last are of the program. -/
def threeCalls : List (Signature × EncodedTransactionWithStatusMeta) :=
  [callOf 9 0, callOf 8 1, callOf 9 2]

theorem servesChain_threeCalls : ServesChain signatureCrates (callsLoader threeCalls) .confirmed
    threeCalls (callsOf threeCalls) := by
  refine servesChain_calls (by decide) ?_ ?_
  · intro e he vt hvt instruction hinstruction
    simp only [threeCalls, List.mem_cons, List.not_mem_nil, or_false] at he
    rcases he with rfl | rfl | rfl
    all_goals
      cases hvt
      rw [List.mem_singleton.mp hinstruction]
      decide
  · intro e he
    simp only [threeCalls, List.mem_cons, List.not_mem_nil, or_false] at he
    rcases he with rfl | rfl | rfl
    · rfl
    · rfl
    · rfl

theorem load_block_transactions_three :
    (callsLoader threeCalls).loadBlockTransactions signatureCrates (signedBlock threeCalls)
        .confirmed () =
      .ok { (signedBlock threeCalls).toUiConfirmedBlock with
        transactions := programTransactions 9 (threeCalls.map Prod.snd) } () :=
  have hall : threeCalls = [] ++ threeCalls ++ [] := (List.append_nil _).symm
  (load_block_transactions_exact_iff servesChain_threeCalls hall (by decide) rfl rfl ()).mpr
    (.inl (by decide))

end SolanaBlockLoader

end RomeSdk
