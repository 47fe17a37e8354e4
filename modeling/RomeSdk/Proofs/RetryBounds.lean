import RomeSdk.Indexer.MultiplexedSolanaClient

/-!
# How often a request is made

`plex_with_retries` counts down the attempts that remain. After each attempt that fails it
takes one off and asks the providers again while any are left; with none left it turns to
the emergency providers, once. So a request with a number of retries above zero is made at
most that often.

The count is taken down before it is looked at. With no retries configured an attempt that
fails takes it below zero.
-/

namespace RomeSdk

namespace MultiplexedSolanaClient

variable {α : Type} {C : MultiplexedSolanaClient} {opName : String}
  {op : RpcClient → Nat → Except ClientErrorKind α}

/-- Who is asked. -/
inductive Query where
  | usual
  | emergency
  deriving DecidableEq, Repr

/-- A request ends with a result, or with its counter below zero. -/
inductive RequestEnd (α : Type) where
  | done (result : Outcome (Option α))
  | underflow

def RequestEnd.outcome : RequestEnd α → Outcome (Option α)
  | done result => result
  | underflow => .error (.panic "attempt to subtract with overflow")

/-- The attempt ends with an error, after which another one is made. -/
def Fails (C : MultiplexedSolanaClient) (op : RpcClient → Nat → Except ClientErrorKind α)
    (attempt : Nat) : Prop :=
  ∃ e, C.attemptOnce op attempt = .error (.err e)

/-- The loop of `plex_with_retries`, with the queries it makes. The first number is that of
the attempts that remain, the second that of the attempts that were made. -/
inductive Requests (C : MultiplexedSolanaClient) (opName : String)
    (op : RpcClient → Nat → Except ClientErrorKind α) :
    Nat → Nat → List Query → RequestEnd α → Prop
  | settled {remaining attempt : Nat} : ¬ Fails C op attempt →
      Requests C opName op remaining attempt [.usual] (.done (C.attemptOnce op attempt))
  | underflow {attempt : Nat} : Fails C op attempt →
      Requests C opName op 0 attempt [.usual] .underflow
  | exhausted {attempt : Nat} : Fails C op attempt → C.emergencyProviders = none →
      Requests C opName op 1 attempt [.usual] (.done (C.lastResort opName op (attempt + 1)))
  | emergency {attempt : Nat} {providers : List RpcClient} : Fails C op attempt →
      C.emergencyProviders = some providers →
        Requests C opName op 1 attempt [.usual, .emergency]
          (.done (C.lastResort opName op (attempt + 1)))
  | again {remaining attempt : Nat} {queries : List Query} {out : RequestEnd α} :
      Fails C op attempt → Requests C opName op (remaining + 1) (attempt + 1) queries out →
        Requests C opName op (remaining + 2) attempt (.usual :: queries) out

/-- The loop is the one that is modelled. -/
theorem Requests.outcome_eq {remaining attempt : Nat} {queries : List Query} {out : RequestEnd α}
    (h : Requests C opName op remaining attempt queries out) :
    C.plexWithRetries opName op remaining attempt = out.outcome := by
  induction h with
  | @settled remaining attempt hsettled =>
      rcases remaining with _ | _ | remaining
      · exact unlessErr_of_not_err hsettled _
      · exact unlessErr_of_not_err hsettled _
      · exact unlessErr_of_not_err hsettled _
  | underflow hfails => exact unlessErr_of_err hfails _
  | exhausted hfails _ => exact unlessErr_of_err hfails _
  | emergency hfails _ => exact unlessErr_of_err hfails _
  | again hfails _ ih => exact (unlessErr_of_err hfails _).trans ih

/-- What is asked of a request: the counter holds, no more queries are made than there are
retries, and the first answer is returned at once. -/
structure Bounded (C : MultiplexedSolanaClient) (opName : String)
    (op : RpcClient → Nat → Except ClientErrorKind α) (numRetries attempt : Nat)
    (queries : List Query) (out : RequestEnd α) : Prop where
  noUnderflow : out ≠ .underflow
  usual : queries.count .usual ≤ max 1 numRetries
  emergency : queries.count .emergency ≤ 1
  first : ∀ k r, k < max 1 numRetries → (∀ j < k, Fails C op (attempt + j)) →
    C.attemptOnce op (attempt + k) = .ok r →
      queries = List.replicate (k + 1) .usual ∧ out = .done (.ok r)
  last : ∀ r, 0 < numRetries → (∀ j < numRetries, Fails C op (attempt + j)) →
    C.lastResort opName op (attempt + numRetries) = .ok r → out = .done (.ok r)

/-- An attempt that does not fail is the only one. -/
theorem bounded_settled {attempt : Nat} (h : ¬ Fails C op attempt) (numRetries : Nat) :
    Bounded C opName op numRetries attempt [.usual] (.done (C.attemptOnce op attempt)) where
  noUnderflow := by simp
  usual := by simp
  emergency := by simp
  first k r _ hbefore hk := by
    cases k with
    | zero =>
        rw [Nat.add_zero] at hk
        rw [hk]
        exact ⟨rfl, rfl⟩
    | succ k => exact absurd (hbefore 0 (Nat.succ_pos k)) h
  last r hpos hall _ := absurd (hall 0 hpos) h

/-- With one attempt left, a failure is followed by the emergency providers. -/
theorem bounded_lastResort {attempt : Nat} (h : Fails C op attempt) {queries : List Query}
    (husual : queries.count .usual = 1) (hemergency : queries.count .emergency ≤ 1) :
    Bounded C opName op 1 attempt queries (.done (C.lastResort opName op (attempt + 1))) where
  noUnderflow := by simp
  usual := by simp [husual]
  emergency := hemergency
  first k r hk _ hok := by
    have hzero : k = 0 := by
      rw [max_self] at hk
      omega
    subst hzero
    obtain ⟨e, he⟩ := h
    rw [Nat.add_zero, he] at hok
    cases hok
  last r _ _ hlast := by rw [hlast]

theorem Bounded.again {remaining attempt : Nat} {queries : List Query} {out : RequestEnd α}
    (hfails : Fails C op attempt)
    (h : Bounded C opName op (remaining + 1) (attempt + 1) queries out) :
    Bounded C opName op (remaining + 2) attempt (.usual :: queries) out where
  noUnderflow := h.noUnderflow
  usual := by
    have husual := h.usual
    rw [List.count_cons_self]
    omega
  emergency := by
    rw [List.count_cons_of_ne (by decide)]
    exact h.emergency
  first k r hk hbefore hok := by
    cases k with
    | zero =>
        obtain ⟨e, he⟩ := hfails
        rw [Nat.add_zero, he] at hok
        cases hok
    | succ k =>
        have hshift : ∀ j, attempt + 1 + j = attempt + (j + 1) := fun j => by omega
        obtain ⟨hqueries, hout⟩ := h.first k r (by omega)
          (fun j hj => hshift j ▸ hbefore (j + 1) (by omega)) (hshift k ▸ hok)
        exact ⟨by rw [hqueries]; rfl, hout⟩
  last r _ hall hlast := by
    have hshift : ∀ j, attempt + 1 + j = attempt + (j + 1) := fun j => by omega
    exact h.last r (by omega) (fun j hj => hshift j ▸ hall (j + 1) (by omega))
      (hshift (remaining + 1) ▸ hlast)

/-- A request with retries ends within its bounds. -/
theorem requests_bounded (C : MultiplexedSolanaClient) (opName : String)
    (op : RpcClient → Nat → Except ClientErrorKind α) (remaining : Nat) : ∀ attempt,
      ∃ queries out, Requests C opName op (remaining + 1) attempt queries out ∧
        Bounded C opName op (remaining + 1) attempt queries out := by
  induction remaining with
  | zero =>
      intro attempt
      by_cases hfails : Fails C op attempt
      · cases hproviders : C.emergencyProviders with
        | none =>
            exact ⟨_, _, .exhausted hfails hproviders,
              bounded_lastResort hfails rfl (by decide)⟩
        | some providers =>
            exact ⟨_, _, .emergency hfails hproviders, bounded_lastResort hfails rfl (by decide)⟩
      · exact ⟨_, _, .settled hfails, bounded_settled hfails 1⟩
  | succ remaining ih =>
      intro attempt
      by_cases hfails : Fails C op attempt
      · obtain ⟨queries, out, hrequests, hbounded⟩ := ih (attempt + 1)
        exact ⟨_, out, .again hfails hrequests, hbounded.again hfails⟩
      · exact ⟨_, _, .settled hfails, bounded_settled hfails _⟩

/-- A request keeps to its retries exactly when some are configured, or the first attempt
does not fail. -/
theorem plex_with_retries_bounded_iff (C : MultiplexedSolanaClient) (opName : String)
    (op : RpcClient → Nat → Except ClientErrorKind α) (numRetries : Nat) :
    (∃ queries out, Requests C opName op numRetries 0 queries out ∧
      C.plexWithRetries opName op numRetries 0 = out.outcome ∧
      Bounded C opName op numRetries 0 queries out) ↔
    0 < numRetries ∨ ¬ Fails C op 0 := by
  constructor
  · intro ⟨queries, out, hrequests, _, hbounded⟩
    cases hrequests with
    | settled hsettled => exact .inr hsettled
    | underflow _ => exact absurd rfl hbounded.noUnderflow
    | exhausted _ _ => exact .inl Nat.one_pos
    | emergency _ _ => exact .inl Nat.one_pos
    | again _ _ => exact .inl (Nat.succ_pos _)
  · intro hcase
    by_cases hfails : Fails C op 0
    · have hpos := hcase.resolve_right (not_not_intro hfails)
      obtain ⟨n, rfl⟩ := Nat.exists_eq_succ_of_ne_zero (Nat.ne_of_gt hpos)
      obtain ⟨queries, out, hrequests, hbounded⟩ := requests_bounded C opName op n 0
      exact ⟨queries, out, hrequests, hrequests.outcome_eq, hbounded⟩
    · have hsettled : Requests C opName op numRetries 0 _ _ := .settled hfails
      exact ⟨_, _, hsettled, hsettled.outcome_eq, bounded_settled hfails numRetries⟩

/-! ## No retries -/

/-- A node that is unhealthy for a while. -/
def unhealthyClient : RpcClient where
  getTransactionWithConfig _ _ _ := .error (.rpcResponseError (-32005) "Node is unhealthy")
  getSignaturesForAddressWithConfig _ _ := .error (.rpcResponseError (-32005) "Node is unhealthy")
  getBlockWithConfig _ _ _ := .error (.rpcResponseError (-32005) "Node is unhealthy")
  getSlotWithCommitment _ := .error (.rpcResponseError (-32005) "Node is unhealthy")

def unhealthyNode : MultiplexedSolanaClient := ⟨[unhealthyClient], none, fun _ => 0⟩

/-- A block is asked for with no retries. -/
theorem no_retries_underflow :
    unhealthyNode.getBlockWithConfig 7 ⟨none, .finalized⟩ 0 =
      .error (.panic "attempt to subtract with overflow") ∧
    ¬ ∃ queries out, Requests unhealthyNode "get_block_with_config"
      (fun client => client.getBlockWithConfig 7 ⟨none, .finalized⟩) 0 0 queries out ∧
      unhealthyNode.plexWithRetries "get_block_with_config"
        (fun client => client.getBlockWithConfig 7 ⟨none, .finalized⟩) 0 0 = out.outcome ∧
      Bounded unhealthyNode "get_block_with_config"
        (fun client => client.getBlockWithConfig 7 ⟨none, .finalized⟩) 0 0 queries out := by
  refine ⟨rfl, ?_⟩
  intro ⟨queries, out, hrequests, _, hbounded⟩
  cases hrequests with
  | settled hsettled => exact hsettled ⟨.custom "Node is unhealthy", rfl⟩
  | underflow _ => exact hbounded.noUnderflow rfl

end MultiplexedSolanaClient

end RomeSdk
