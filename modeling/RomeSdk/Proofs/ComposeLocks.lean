import RomeSdk.Proofs.StandIns
import RomeSdk.Sdk.Rome

/-!
# A composition that waits for itself

From the second round on the loop holds one resource, the first one, and leaves the pools as
it found them: what it locks goes back where it was taken. So only the pool of the first
resource is ever short of one, and only where it had no other is it empty. A later
transaction on this pool, reached because all before it compose, then waits for what the
composition itself holds.
-/

namespace RomeSdk

namespace Composition

variable {α : Type}

@[simp]
theorem not_waits_composed (tx : α) : ¬ (composed tx).Waits := fun ⟨_, h⟩ => by cases h

@[simp]
theorem not_waits_failed (e : RomeEvmError) : ¬ (failed e : Composition α).Waits :=
  fun ⟨_, h⟩ => by cases h

@[simp]
theorem waits_waits (pool : PoolId) : (waits pool : Composition α).Waits := ⟨pool, rfl⟩

end Composition

namespace Rome

variable {R : Rome} {X : Crates} {B : ComputeBudget} {pools : Pools} {held : LockedResource}
  {tx : EthSignedTxTuple} {txs : List EthSignedTxTuple} {instructions : List Instruction}
  {builder : RollupBuilder} {item : ResourceItem Pubkey}

/-- The transaction becomes an instruction that `held` pays for. -/
def Composes (R : Rome) (X : Crates) (held : LockedResource) (tx : EthSignedTxTuple) : Prop :=
  ∃ builder ix, R.getTransactionBuilderForTx tx = .ok builder ∧ builder.composeIx X held tx = .ok ix

/-- A transaction that is reached needs the pool `held` was taken from. -/
def ReachesPool (R : Rome) (X : Crates) (held : LockedResource) (txs : List EthSignedTxTuple) :
    Prop :=
  ∃ before tx after builder, txs = before ++ tx :: after ∧ (∀ t ∈ before, R.Composes X held t) ∧
    R.getTransactionBuilderForTx tx = .ok builder ∧ builder.pool = held.factory

/-- The pools of all builders are in use by nobody, and none has no resource at all. -/
def AllFree (R : Rome) (pools : Pools) : Prop :=
  ∀ tx builder, R.getTransactionBuilderForTx tx = .ok builder → pools builder.pool ≠ []

theorem not_composes_of_error {e : RomeEvmError} (h : R.getTransactionBuilderForTx tx = .error e) :
    ¬ R.Composes X held tx := by
  intro hcomposes
  obtain ⟨_, _, hok, _⟩ := hcomposes
  rw [h] at hok
  cases hok

theorem composes_iff (h : R.getTransactionBuilderForTx tx = .ok builder) :
    R.Composes X held tx ↔ ∃ ix, builder.composeIx X held tx = .ok ix := by
  constructor
  · intro hcomposes
    obtain ⟨_, ix, hok, hix⟩ := hcomposes
    rw [h] at hok
    cases hok
    exact ⟨ix, hix⟩
  · intro hix
    obtain ⟨ix, hix⟩ := hix
    exact ⟨builder, ix, h, hix⟩

theorem lockResource_empty {id : PoolId} (h : pools id = []) : lockResource pools id = none := by
  rw [lockResource, h]
  rfl

theorem lockResource_some {id : PoolId} {rest : List (ResourceItem Pubkey)}
    (h : pools id = rest ++ [item]) :
    lockResource pools id = some (⟨item, id⟩, Function.update pools id rest) := by
  rw [lockResource, h, List.getLast?_concat, List.dropLast_concat]
  rfl

/-- What was locked goes back to where it was. -/
theorem drop_lockResource {id : PoolId} {rest : List (ResourceItem Pubkey)}
    (h : pools id = rest ++ [item]) :
    (⟨item, id⟩ : LockedResource).drop (Function.update pools id rest) = pools := by
  rw [LockedResource.drop, Function.update_self, Function.update_idem, ← h,
    Function.update_eq_self]

theorem reachesPool_nil : ¬ R.ReachesPool X held [] := by
  intro h
  obtain ⟨before, tx, after, builder, hsplit, _⟩ := h
  simp at hsplit

/-- The first transaction needs the pool itself, or it composes and another one does. -/
theorem reachesPool_cons : R.ReachesPool X held (tx :: txs) ↔
    (∃ builder, R.getTransactionBuilderForTx tx = .ok builder ∧ builder.pool = held.factory) ∨
      R.Composes X held tx ∧ R.ReachesPool X held txs := by
  constructor
  · intro h
    obtain ⟨before, t, after, builder, hsplit, hbefore, hbuilder, hpool⟩ := h
    cases before with
    | nil =>
        cases hsplit
        exact .inl ⟨builder, hbuilder, hpool⟩
    | cons b before =>
        cases hsplit
        refine .inr ⟨hbefore _ (List.mem_cons_self ..), before, t, after, builder, rfl, ?_,
          hbuilder, hpool⟩
        intro t' ht'
        exact hbefore t' (List.mem_cons_of_mem _ ht')
  · intro h
    rcases h with ⟨builder, hbuilder, hpool⟩ | ⟨hcomposes, before, t, after, builder, hsplit,
      hbefore, hbuilder, hpool⟩
    · exact ⟨[], tx, txs, builder, rfl, nofun, hbuilder, hpool⟩
    · refine ⟨tx :: before, t, after, builder, by rw [hsplit]; rfl, ?_, hbuilder, hpool⟩
      intro t' ht'
      rcases List.mem_cons.mp ht' with rfl | ht'
      · exact hcomposes
      · exact hbefore t' ht'

/-! ## The rounds -/

theorem composeLoop_error {resource : Option LockedResource} {e : RomeEvmError}
    (h : R.getTransactionBuilderForTx tx = .error e) :
    ¬ (R.composeLoop X (tx :: txs) resource instructions pools).1.Waits := by
  cases resource with
  | none =>
      rw [composeLoop, h]
      exact Composition.not_waits_failed e
  | some held =>
      rw [composeLoop, h]
      exact Composition.not_waits_failed e

theorem composeLoop_empty {resource : Option LockedResource}
    (hbuilder : R.getTransactionBuilderForTx tx = .ok builder) (h : pools builder.pool = []) :
    (R.composeLoop X (tx :: txs) resource instructions pools).1.Waits := by
  cases resource with
  | none =>
      rw [composeLoop, hbuilder]
      simp only [lockResource_empty h]
      exact Composition.waits_waits _
  | some held =>
      rw [composeLoop, hbuilder]
      simp only [lockResource_empty h]
      exact Composition.waits_waits _

/-- The round of the first resource, which stays locked. -/
theorem composeLoop_first {rest : List (ResourceItem Pubkey)}
    (hbuilder : R.getTransactionBuilderForTx tx = .ok builder)
    (hpool : pools builder.pool = rest ++ [item]) :
    (R.composeLoop X (tx :: txs) none instructions pools).1.Waits ↔
      ∃ ix, builder.composeIx X ⟨item, builder.pool⟩ tx = .ok ix ∧
        (R.composeLoop X txs (some ⟨item, builder.pool⟩) (instructions ++ [ix])
          (Function.update pools builder.pool rest)).1.Waits := by
  rw [composeLoop, hbuilder]
  simp only [lockResource_some hpool, Option.getD_none, Option.isSome_none, Bool.false_eq_true,
    if_false]
  cases builder.composeIx X ⟨item, builder.pool⟩ tx with
  | error e => simp
  | ok ix => simp

/-- A round with a resource in hand, which leaves the pools alone. -/
theorem composeLoop_next {rest : List (ResourceItem Pubkey)}
    (hbuilder : R.getTransactionBuilderForTx tx = .ok builder)
    (hpool : pools builder.pool = rest ++ [item]) :
    (R.composeLoop X (tx :: txs) (some held) instructions pools).1.Waits ↔
      ∃ ix, builder.composeIx X held tx = .ok ix ∧
        (R.composeLoop X txs (some held) (instructions ++ [ix]) pools).1.Waits := by
  rw [composeLoop, hbuilder]
  simp only [lockResource_some hpool, Option.getD_some, Option.isSome_some, if_true,
    drop_lockResource hpool]
  cases builder.composeIx X held tx with
  | error e => simp
  | ok ix => simp

/-! ## The whole loop -/

/-- With a resource in hand the loop waits where the pool of this resource is empty and is
needed once more. -/
theorem composeLoop_waits_iff
    (hfree : ∀ tx builder, R.getTransactionBuilderForTx tx = .ok builder →
      builder.pool ≠ held.factory → pools builder.pool ≠ []) :
    (R.composeLoop X txs (some held) instructions pools).1.Waits ↔
      pools held.factory = [] ∧ R.ReachesPool X held txs := by
  induction txs generalizing instructions with
  | nil => exact iff_of_false (Composition.not_waits_composed _) fun h => reachesPool_nil h.2
  | cons tx txs ih =>
      rw [reachesPool_cons]
      cases hbuilder : R.getTransactionBuilderForTx tx with
      | error e =>
          refine iff_of_false (composeLoop_error hbuilder) fun h => ?_
          rcases h.2 with ⟨_, hok, _⟩ | ⟨hcomposes, _⟩
          · cases hok
          · exact not_composes_of_error hbuilder hcomposes
      | ok builder =>
          rcases List.eq_nil_or_concat (pools builder.pool) with hempty | ⟨rest, item, hpool⟩
          · -- only the pool of `held` may be empty
            have hsame : builder.pool = held.factory := by
              refine Classical.byContradiction fun hne => ?_
              exact hfree tx builder hbuilder hne hempty
            have hheld : pools held.factory = [] := by
              rw [← hsame]
              exact hempty
            exact iff_of_true (composeLoop_empty hbuilder hempty)
              ⟨hheld, .inl ⟨builder, rfl, hsame⟩⟩
          · rw [List.concat_eq_append] at hpool
            have hother : pools held.factory = [] → builder.pool ≠ held.factory := by
              intro hempty hsame
              rw [← hsame, hpool] at hempty
              simp at hempty
            rw [composeLoop_next hbuilder hpool, composes_iff hbuilder]
            constructor
            · intro h
              obtain ⟨ix, hix, hwaits⟩ := h
              obtain ⟨hempty, hreaches⟩ := ih.mp hwaits
              exact ⟨hempty, .inr ⟨⟨ix, hix⟩, hreaches⟩⟩
            · intro h
              obtain ⟨hempty, ⟨_, hok, hsame⟩ | ⟨⟨ix, hix⟩, hreaches⟩⟩ := h
              · cases hok
                exact absurd hsame (hother hempty)
              · exact ⟨ix, hix, ih.mpr ⟨hempty, hreaches⟩⟩

/-- The first transaction takes the only resource of its pool, composes, and a later one that
is reached needs this pool again. -/
def TakesTheLast (R : Rome) (X : Crates) (pools : Pools) (txs : List EthSignedTxTuple) : Prop :=
  ∃ first rest builder item, txs = first :: rest ∧
    R.getTransactionBuilderForTx first = .ok builder ∧ pools builder.pool = [item] ∧
    R.Composes X ⟨item, builder.pool⟩ first ∧ R.ReachesPool X ⟨item, builder.pool⟩ rest

theorem takesTheLast_cons {rest : List (ResourceItem Pubkey)}
    (hbuilder : R.getTransactionBuilderForTx tx = .ok builder)
    (hpool : pools builder.pool = rest ++ [item]) :
    R.TakesTheLast X pools (tx :: txs) ↔ rest = [] ∧ R.Composes X ⟨item, builder.pool⟩ tx ∧
      R.ReachesPool X ⟨item, builder.pool⟩ txs := by
  constructor
  · intro h
    obtain ⟨_, _, _, item', hsplit, hok, hone, hcomposes, hreaches⟩ := h
    cases hsplit
    rw [hbuilder] at hok
    cases hok
    have hlast : rest ++ [item] = [] ++ [item'] := hpool.symm.trans hone
    obtain ⟨hrest, hitem⟩ := List.append_inj' hlast rfl
    cases hitem
    exact ⟨hrest, hcomposes, hreaches⟩
  · intro h
    obtain ⟨hrest, hcomposes, hreaches⟩ := h
    subst hrest
    exact ⟨tx, txs, builder, item, rfl, hbuilder, hpool, hcomposes, hreaches⟩

theorem composeLoop_start_waits_iff (hfree : R.AllFree pools) :
    (R.composeLoop X txs none instructions pools).1.Waits ↔ R.TakesTheLast X pools txs := by
  cases txs with
  | nil =>
      refine iff_of_false (Composition.not_waits_composed _) fun h => ?_
      obtain ⟨_, _, _, _, hsplit, _⟩ := h
      cases hsplit
  | cons first txs =>
      cases hbuilder : R.getTransactionBuilderForTx first with
      | error e =>
          refine iff_of_false (composeLoop_error hbuilder) fun h => ?_
          obtain ⟨_, _, _, _, hsplit, _, _, hcomposes, _⟩ := h
          cases hsplit
          exact not_composes_of_error hbuilder hcomposes
      | ok builder =>
          rcases List.eq_nil_or_concat (pools builder.pool) with hempty | ⟨rest, item, hpool⟩
          · exact absurd hempty (hfree first builder hbuilder)
          · rw [List.concat_eq_append] at hpool
            have hothers : ∀ tx b, R.getTransactionBuilderForTx tx = .ok b →
                b.pool ≠ builder.pool →
                Function.update pools builder.pool rest b.pool ≠ [] := by
              intro tx b hb hne
              rw [Function.update_of_ne hne]
              exact hfree tx b hb
            rw [takesTheLast_cons hbuilder hpool, composeLoop_first hbuilder hpool,
              composes_iff hbuilder]
            constructor
            · intro h
              obtain ⟨ix, hix, hwaits⟩ := h
              obtain ⟨hrest, hreaches⟩ := (composeLoop_waits_iff hothers).mp hwaits
              rw [Function.update_self] at hrest
              exact ⟨hrest, ⟨ix, hix⟩, hreaches⟩
            · intro h
              obtain ⟨hrest, ⟨ix, hix⟩, hreaches⟩ := h
              refine ⟨ix, hix, (composeLoop_waits_iff hothers).mpr ⟨?_, hreaches⟩⟩
              rw [Function.update_self]
              exact hrest

/-- What follows the loop locks nothing. -/
theorem compose_waits_iff {α : Type} (B : ComputeBudget) (build : List Instruction → Pubkey → α)
    (hfree : R.AllFree pools) :
    (R.compose X B txs build pools).1.Waits ↔ R.TakesTheLast X pools txs := by
  rw [← composeLoop_start_waits_iff hfree, compose]
  rcases R.composeLoop X txs none
    [B.setComputeUnitLimit 1400000, B.requestHeapFrame (256 * 1024)] pools
    with ⟨⟨instructions, _ | resource⟩ | e | pool, pools'⟩
  · simp
  · simp
  · simp
  · simp

/-- Neither composition finds a pool empty, whatever it is to build, if and only if the
first transaction does not take what a later one needs. -/
theorem compose_never_waits_iff (hfree : R.AllFree pools) :
    (¬ (R.composeCrossRollupTx X B txs pools).1.Waits ∧
      ∀ solIxs signers, ¬ (R.composeCrossChainTx X B txs solIxs signers pools).1.Waits) ↔
      ¬ R.TakesTheLast X pools txs := by
  constructor
  · intro hnever htakes
    exact hnever.1 ((compose_waits_iff B _ hfree).mpr htakes)
  · intro htakes
    refine ⟨fun hwaits => ?_, fun solIxs signers hwaits => ?_⟩
    · exact htakes ((compose_waits_iff B _ hfree).mp hwaits)
    · exact htakes ((compose_waits_iff B _ hfree).mp hwaits)

/-! Two transactions of one rollup, and a pool of two holders or of one. -/

def oneRollup : Rome where
  rollupBuilders _ := some ⟨⟨1001, 7, fun _ _ => .ok []⟩, fun _ _ => true, 0⟩

def onTheSame : List EthSignedTxTuple := [⟨some 1001, [1]⟩, ⟨some 1001, [2]⟩]

def budget : ComputeBudget := ⟨fun _ => ⟨4, [], [2]⟩, fun _ => ⟨4, [], [1]⟩⟩

theorem compose_never_waits_two :
    ¬ (oneRollup.composeCrossRollupTx standIns budget onTheSame
      fun _ => [⟨3, 1, none⟩, ⟨3, 0, none⟩]).1.Waits ∧
    ∀ solIxs signers, ¬ (oneRollup.composeCrossChainTx standIns budget onTheSame solIxs signers
      fun _ => [⟨3, 1, none⟩, ⟨3, 0, none⟩]).1.Waits := by
  refine (compose_never_waits_iff fun _ _ _ => ?_).mpr fun htakes => ?_
  · nofun
  · obtain ⟨_, _, _, _, _, _, hone, _⟩ := htakes
    cases hone

/-- With one holder the second transaction waits for what the first one keeps. -/
theorem second_waits :
    (oneRollup.composeCrossRollupTx standIns budget onTheSame fun _ => [⟨3, 0, none⟩]).1.Waits ∧
    (oneRollup.composeCrossChainTx standIns budget onTheSame [] [] fun _ => [⟨3, 0, none⟩]).1.Waits :=
  ⟨⟨0, rfl⟩, 0, rfl⟩

end Rome

end RomeSdk
