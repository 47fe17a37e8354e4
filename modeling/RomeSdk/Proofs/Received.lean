import RomeSdk.Proofs.Chunks
import RomeSdk.Proofs.RegistrationOutcome

/-!
# What a record has received

Chunks of one payload, with one chunk to an offset, may come in any order and any
number of times: a record holds what it was given, zeros elsewhere, and one piece for
each offset, so it is determined by which chunks have come (`Received.unique`). The
steps of a hash come down to that, or to one transaction that is executed directly
(`Gathered`), and the record is a function of the set of steps.
-/

namespace RomeSdk

/-- Between the end of the buffer and a chunk that starts after it there are zeros. -/
theorem written_gap {buffer : Bytes} {offset : Nat} {data : Bytes} {i : Nat}
    (hi : buffer.length ≤ i) (hout : i < offset) : (written buffer offset data)[i]? = some 0 := by
  have htake : ((resize buffer (offset + data.length)).take offset).length = offset := by
    rw [List.length_take, length_resize]
    omega
  rw [written, copyAt, List.append_assoc, List.getElem?_append_left (by omega),
    List.getElem?_take_of_lt hout, resize, List.getElem?_append_right hi,
    List.getElem?_replicate_of_lt (by omega)]

namespace EvmTx

/-- No byte of a holder is set but by a piece. -/
theorem Built.zero {tx : EvmTx} (h : Built tx) : ∀ i, i < tx.holderData.length →
    (∀ o n : Nat, tx.pieces[o]? = some n → i < o ∨ o + n ≤ i) → tx.holderData[i]? = some 0 := by
  induction h with
  | newBigTx =>
      intro i hi
      exact absurd hi (Nat.not_lt_zero i)
  | @update _ _ offset data _ hup ih =>
      obtain ⟨buffer, pieces, rfl, ⟨_, rfl⟩ | ⟨hnew, _, rfl⟩⟩ := updateTxHolder_cases hup
      · exact ih
      · intro i hi hout
        change i < (written buffer offset data).length at hi
        rw [length_written] at hi
        have houtNew := hout offset data.length (by
          show (pieces.insert offset data.length)[offset]? = _
          rw [BTreeMap.get?_insert, if_pos rfl])
        show (written buffer offset data)[i]? = some 0
        by_cases hold : i < buffer.length
        · rw [written_outside hold houtNew]
          refine ih i hold fun o n ho => hout o n ?_
          show (pieces.insert offset data.length)[o]? = some n
          have hne : offset ≠ o := by
            intro heq
            change pieces[o]? = some n at ho
            rw [← heq, hnew] at ho
            cases ho
          rw [BTreeMap.get?_insert, if_neg hne]
          exact ho
        · exact written_gap (by omega) (by omega)

/-- A holder record that has received the chunks `arrived` of a payload. -/
structure Received (payload : Bytes) (arrived : Nat → Bytes → Prop) (tx : EvmTx) : Prop where
  carries : Carries payload tx
  pieces : ∀ o n : Nat, tx.pieces[o]? = some n ↔ ∃ data, arrived o data ∧ data.length = n

theorem Received.unique {payload : Bytes} {arrived : Nat → Bytes → Prop} {tx tx' : EvmTx}
    (h : Received payload arrived tx) (h' : Received payload arrived tx') : tx = tx' := by
  have hpieces : tx.pieces = tx'.pieces := by
    refine Std.ExtTreeMap.ext_getElem? fun {o} => Option.ext fun n => ?_
    rw [h.pieces, h'.pieces]
  have hlength : tx.holderData.length = tx'.holderData.length := by
    have hle : ∀ {a b : EvmTx}, a.pieces = b.pieces → Assembled a → Assembled b →
        a.holderData.length ≤ b.holderData.length := by
      intro a b hab ha hb
      rcases ha.reaches with hnil | ⟨o, n, ho, hend⟩
      · rw [hnil]
        exact Nat.zero_le _
      · rw [← hend]
        exact hb.within o n (hab ▸ ho)
    exact Nat.le_antisymm (hle hpieces h.carries.built.assembled h'.carries.built.assembled)
      (hle hpieces.symm h'.carries.built.assembled h.carries.built.assembled)
  have hdata : tx.holderData = tx'.holderData := by
    refine List.ext_getElem? fun i => ?_
    by_cases hi : i < tx.holderData.length
    · by_cases hcovered : ∃ o n, tx.pieces[o]? = some n ∧ o ≤ i ∧ i < o + n
      · obtain ⟨o, n, ho, hle, hlt⟩ := hcovered
        have hindex : i = o + (i - o) := by omega
        rw [hindex, h.carries.agrees o n ho _ (by omega),
          h'.carries.agrees o n (hpieces ▸ ho) _ (by omega)]
      · have hout : ∀ o n : Nat, tx.pieces[o]? = some n → i < o ∨ o + n ≤ i := by
          intro o n ho
          by_contra hin
          exact hcovered ⟨o, n, ho, by omega, by omega⟩
        rw [h.carries.built.zero i hi hout,
          h'.carries.built.zero i (hlength ▸ hi) (hpieces ▸ hout)]
    · rw [List.getElem?_eq_none (by omega), List.getElem?_eq_none (by omega)]
  rw [h.carries.built.big, h'.carries.built.big, hpieces, hdata]

theorem Received.congr {payload : Bytes} {arrived arrived' : Nat → Bytes → Prop} {tx : EvmTx}
    (h : Received payload arrived tx) (hsame : ∀ o data, arrived o data ↔ arrived' o data) :
    Received payload arrived' tx := by
  refine ⟨h.carries, fun o n => ?_⟩
  rw [h.pieces]
  simp only [hsame]

theorem Received.newBigTx (payload : Bytes) : Received payload (fun _ _ => False) .newBigTx := by
  refine ⟨.newBigTx payload, fun o n => ?_⟩
  show (∅ : BTreeMap Nat Nat)[o]? = some n ↔ _
  rw [Std.ExtTreeMap.getElem?_empty]
  simp

/-- A chunk is filed, whether it is new or not. -/
theorem Received.update {payload : Bytes} {arrived : Nat → Bytes → Prop} {tx : EvmTx}
    {offset : Nat} {data : Bytes} (h : Received payload arrived tx)
    (hslice : Slice payload offset data) (hsize : payload.length ≤ isizeMax)
    (hone : ∀ data', arrived offset data' → data' = data) :
    ∃ tx', tx.updateTxHolder offset data = .ok tx' ∧
      Received payload (fun o d => arrived o d ∨ o = offset ∧ d = data) tx' := by
  have hfits := hslice.fits
  obtain ⟨tx', hup⟩ := updateTxHolder_ok tx.holderData tx.pieces
    (show offset + data.length ≤ isizeMax by omega)
  rw [← h.carries.built.big] at hup
  refine ⟨tx', hup, h.carries.update hslice hup, fun o n => ?_⟩
  have hadded : (∃ d, (arrived o d ∨ o = offset ∧ d = data) ∧ d.length = n) ↔
      tx.pieces[o]? = some n ∨ o = offset ∧ data.length = n := by
    rw [h.pieces]
    constructor
    · rintro ⟨d, harrived | ⟨rfl, rfl⟩, hlength⟩
      · exact Or.inl ⟨d, harrived, hlength⟩
      · exact Or.inr ⟨rfl, hlength⟩
    · rintro (⟨d, harrived, hlength⟩ | ⟨rfl, hlength⟩)
      · exact ⟨d, Or.inl harrived, hlength⟩
      · exact ⟨data, Or.inr ⟨rfl, rfl⟩, hlength⟩
  rw [hadded]
  obtain ⟨buffer, pieces, rfl, ⟨hin, rfl⟩ | ⟨hnew, _, rfl⟩⟩ := updateTxHolder_cases hup
  · -- the chunk at a known offset is the one that is there
    refine ⟨Or.inl, ?_⟩
    rintro (hold | ⟨rfl, rfl⟩)
    · exact hold
    · obtain ⟨m, hm⟩ := Option.isSome_iff_exists.mp
        (Std.ExtTreeMap.mem_iff_isSome_getElem?.mp hin)
      obtain ⟨d, harrived, _⟩ := (h.pieces o m).mp hm
      exact (h.pieces o _).mpr ⟨d, harrived, congrArg List.length (hone d harrived)⟩
  · show (pieces.insert offset data.length)[o]? = some n ↔ pieces[o]? = some n ∨ _
    rw [BTreeMap.get?_insert]
    by_cases ho : offset = o
    · subst ho
      rw [hnew]
      simp
    · rw [if_neg ho]
      simp [Ne.symm ho]

end EvmTx

namespace DefaultTxParser

/-! ## The steps of a hash -/

/-- What the steps of a hash are for: one transaction that is executed directly, or one
payload that is sent in chunks. -/
inductive Purpose where
  | direct (tx : Transaction)
  | holder (payload : Bytes)

def Purpose.Allows : Purpose → ParsedTxStep → Prop
  | .direct tx, .smallTx tx' _ => tx' = tx
  | .holder _, .bigTx _ => True
  | .holder payload, .transmitTx offset data =>
      Slice payload offset data ∧ payload.length ≤ isizeMax
  | _, _ => False

/-- The record of a hash of which the steps `seen` have been registered. -/
structure Gathered (purpose : Purpose) (seen : ParsedTxStep → Prop) (o : Option EvmTx) :
    Prop where
  unseen : (∀ step, ¬ seen step) → o = none
  seen : ∀ step, seen step → match purpose with
    | .direct tx => o = some (.smallEvmTx tx)
    | .holder payload => ∃ tx, o = some tx ∧
        EvmTx.Received payload (fun offset data => seen (.transmitTx offset data)) tx

variable {purpose : Purpose} {seen seen' : ParsedTxStep → Prop} {o o' : Option EvmTx}

theorem Gathered.none (purpose : Purpose) : Gathered purpose (fun _ => False) none :=
  ⟨fun _ => rfl, fun _ h => h.elim⟩

theorem Gathered.congr (h : Gathered purpose seen o) (hsame : ∀ step, seen step ↔ seen' step) :
    Gathered purpose seen' o := by
  have heq : seen = seen' := funext fun step => propext (hsame step)
  exact heq ▸ h

theorem Gathered.unique (h : Gathered purpose seen o) (h' : Gathered purpose seen o') : o = o' := by
  by_cases hany : ∃ step, seen step
  · obtain ⟨step, hstep⟩ := hany
    have hrec := h.seen step hstep
    have hrec' := h'.seen step hstep
    cases purpose with
    | direct tx => exact hrec.trans hrec'.symm
    | holder payload =>
        obtain ⟨tx, rfl, hreceived⟩ := hrec
        obtain ⟨tx', rfl, hreceived'⟩ := hrec'
        rw [hreceived.unique hreceived']
  · have hnone : ∀ step, ¬ seen step := fun step hstep => hany ⟨step, hstep⟩
    rw [h.unseen hnone, h'.unseen hnone]

/-- The record a holder's next step starts from. -/
theorem Gathered.received {payload : Bytes} (h : Gathered (.holder payload) seen o) :
    EvmTx.Received payload (fun offset data => seen (.transmitTx offset data))
      (o.getD .newBigTx) := by
  by_cases hany : ∃ step, seen step
  · obtain ⟨step, hstep⟩ := hany
    obtain ⟨tx, rfl, hreceived⟩ := h.seen step hstep
    exact hreceived
  · rw [h.unseen fun step hstep => hany ⟨step, hstep⟩]
    exact (EvmTx.Received.newBigTx payload).congr fun offset data =>
      ⟨False.elim, fun hstep => hany ⟨_, hstep⟩⟩

theorem Gathered.step {step : ParsedTxStep} (h : Gathered purpose seen o)
    (hallows : purpose.Allows step)
    (hone : ∀ offset data data', seen (.transmitTx offset data) →
      step = .transmitTx offset data' → data = data') :
    ∃ o', recordStep o step = (o', .ok ()) ∧ Gathered purpose (fun s => seen s ∨ s = step) o' := by
  cases purpose with
  | direct tx =>
      cases step with
      | smallTx tx' r =>
          obtain rfl : tx' = tx := hallows
          refine ⟨_, rfl, fun hnone => absurd (Or.inr rfl) (hnone _), fun _ _ => ?_⟩
          by_cases hany : ∃ step, seen step
          · obtain ⟨step, hstep⟩ := hany
            rw [h.seen step hstep]
            rfl
          · rw [h.unseen fun step hstep => hany ⟨step, hstep⟩]
            rfl
      | bigTx r => exact hallows.elim
      | transmitTx offset data => exact hallows.elim
  | holder payload =>
      have hreceived := h.received
      cases step with
      | smallTx tx' r => exact hallows.elim
      | bigTx r =>
          refine ⟨_, rfl, fun hnone => absurd (Or.inr rfl) (hnone _), fun _ _ => ⟨_, rfl, ?_⟩⟩
          refine hreceived.congr fun offset data => ?_
          simp
      | transmitTx offset data =>
          obtain ⟨hslice, hsize⟩ := hallows
          obtain ⟨tx', hup, hreceived'⟩ := hreceived.update hslice hsize
            fun data' hdata => hone offset data' data hdata rfl
          refine ⟨some tx', ?_, fun hnone => absurd (Or.inr rfl) (hnone _),
            fun _ _ => ⟨tx', rfl, hreceived'.congr fun o d => ?_⟩⟩
          · simp only [recordStep, hup]
          · rw [ParsedTxStep.transmitTx.injEq]

/-- The steps of a hash go through, and the record is what they come to together. -/
theorem Gathered.run (steps : List ParsedTxStep) :
    ∀ {seen : ParsedTxStep → Prop} {o : Option EvmTx}, Gathered purpose seen o →
      (∀ step ∈ steps, purpose.Allows step) →
      (∀ offset data data', seen (.transmitTx offset data) ∨ .transmitTx offset data ∈ steps →
        .transmitTx offset data' ∈ steps → data = data') →
      ∃ o', forTry recordStep steps o = (o', .ok ()) ∧
        Gathered purpose (fun s => seen s ∨ s ∈ steps) o' := by
  induction steps with
  | nil =>
      intro seen o h _ _
      exact ⟨o, rfl, h.congr fun s => by simp⟩
  | cons step steps ih =>
      intro seen o h hallows hone
      obtain ⟨o₁, hstep, hgathered⟩ := h.step (hallows step (List.mem_cons_self ..))
        fun offset data data' hdata heq =>
          hone offset data data' (Or.inl hdata) (heq ▸ List.mem_cons_self ..)
      obtain ⟨o', hrun, hgathered'⟩ := ih hgathered
        (fun s hs => hallows s (List.mem_cons_of_mem _ hs))
        (fun offset data data' hdata hin => by
          refine hone offset data data' ?_ (List.mem_cons_of_mem _ hin)
          rcases hdata with (hseen | heq) | hin
          · exact Or.inl hseen
          · exact Or.inr (heq ▸ List.mem_cons_self ..)
          · exact Or.inr (List.mem_cons_of_mem _ hin))
      refine ⟨o', by rw [forTry_cons_ok hstep, hrun], hgathered'.congr fun s => ?_⟩
      rw [List.mem_cons, or_assoc]

end DefaultTxParser

end RomeSdk
