import Mathlib.Data.List.Nodup

/-!
# Loops that leave on the first error

A loop over a list whose body updates a state and may fail, written with the
early return of an imperative language: on the first error the loop is left and
the state keeps everything done so far. `forTry_split` says what is left
behind; nested loops of this kind are one loop over the flattened list. Where the
state is of no use after an error, the loop is a `foldlM`, and `foldlM_invariant` is its
rule.

A loop may also be left after a round because it has done enough. `goneThrough` are the
elements such a loop goes through, and `goneThrough_eq_take_iff` says when it has gone
through as many as it was to measure.

`untilError` is a loop without an end of its own: it goes round until the body fails.
-/

section

variable {σ α β ε : Type}

def forTry (body : σ → α → σ × Except ε Unit) : List α → σ → σ × Except ε Unit
  | [], s => (s, .ok ())
  | a :: l, s =>
      match body s a with
      | (s', .ok ()) => forTry body l s'
      | (s', .error e) => (s', .error e)

variable {body : σ → α → σ × Except ε Unit}

theorem forTry_cons_ok {a : α} {l : List α} {s s' : σ} (h : body s a = (s', .ok ())) :
    forTry body (a :: l) s = forTry body l s' := by
  simp only [forTry, h]

theorem forTry_cons_error {a : α} {l : List α} {s s' : σ} {e : ε}
    (h : body s a = (s', .error e)) : forTry body (a :: l) s = (s', .error e) := by
  simp only [forTry, h]

/-- A loop that ran through ran through its first round. -/
theorem forTry_cons_inv {a : α} {l : List α} {s s' : σ}
    (h : forTry body (a :: l) s = (s', .ok ())) :
    ∃ s₁, body s a = (s₁, .ok ()) ∧ forTry body l s₁ = (s', .ok ()) := by
  rcases hb : body s a with ⟨s₁, e | ⟨⟨⟩⟩⟩
  · rw [forTry_cons_error hb] at h
    cases h
  · rw [forTry_cons_ok hb] at h
    exact ⟨s₁, rfl, h⟩

theorem forTry_append_ok {l : List α} : ∀ {s s' : σ} (l' : List α),
    forTry body l s = (s', .ok ()) → forTry body (l ++ l') s = forTry body l' s' := by
  induction l with
  | nil =>
      intro s s' l' h
      cases h
      rfl
  | cons a l ih =>
      intro s s' l' h
      rw [List.cons_append]
      rcases hb : body s a with ⟨s₁, _ | ⟨⟨⟩⟩⟩
      · rw [forTry_cons_error hb] at h
        cases h
      · rw [forTry_cons_ok hb] at h ⊢
        exact ih l' h

theorem forTry_append_error {l : List α} : ∀ {s s' : σ} {e : ε} (l' : List α),
    forTry body l s = (s', .error e) → forTry body (l ++ l') s = (s', .error e) := by
  induction l with
  | nil =>
      intro s s' e l' h
      cases h
  | cons a l ih =>
      intro s s' e l' h
      rw [List.cons_append]
      rcases hb : body s a with ⟨s₁, _ | ⟨⟨⟩⟩⟩
      · rw [forTry_cons_error hb] at h ⊢
        exact h
      · rw [forTry_cons_ok hb] at h ⊢
        exact ih l' h

theorem forTry_append_inv {l : List α} : ∀ {s s' : σ} {l' : List α},
    forTry body (l ++ l') s = (s', .ok ()) →
      ∃ s₁, forTry body l s = (s₁, .ok ()) ∧ forTry body l' s₁ = (s', .ok ()) := by
  intro s s' l' h
  rcases hl : forTry body l s with ⟨s₁, e | ⟨⟨⟩⟩⟩
  · rw [forTry_append_error _ hl] at h
    cases h
  · rw [forTry_append_ok _ hl] at h
    exact ⟨s₁, rfl, h⟩

/-- A loop that ran through ran through its body at every element. -/
theorem forTry_body_ok {l : List α} : ∀ {s s' : σ}, forTry body l s = (s', .ok ()) →
    ∀ a ∈ l, ∃ s₁ s₂, body s₁ a = (s₂, .ok ()) := by
  induction l with
  | nil => intro s s' _ a ha; cases ha
  | cons b l ih =>
      intro s s' h a ha
      obtain ⟨s₁, hb, hrest⟩ := forTry_cons_inv h
      rcases List.mem_cons.mp ha with rfl | ha
      · exact ⟨s, s₁, hb⟩
      · exact ih hrest a ha

/-- A loop whose body is such a loop itself is one loop over the inner lists
laid end to end. -/
theorem forTry_flatMap (f : β → List α) (bs : List β) : ∀ s : σ,
    forTry (fun s b => forTry body (f b) s) bs s = forTry body (bs.flatMap f) s := by
  induction bs with
  | nil => intro s; rfl
  | cons b bs ih =>
      intro s
      rw [List.flatMap_cons]
      rcases hb : forTry body (f b) s with ⟨s₁, e | ⟨⟨⟩⟩⟩
      · rw [forTry_append_error _ hb, forTry_cons_error hb]
      · rw [forTry_append_ok _ hb, forTry_cons_ok hb, ih s₁]

/-- Mapping the list first is the same as reading through the map in the body. -/
theorem forTry_map (f : β → α) (bs : List β) : ∀ s : σ,
    forTry body (bs.map f) s = forTry (fun s b => body s (f b)) bs s := by
  induction bs with
  | nil => intro s; rfl
  | cons b bs ih =>
      intro s
      simp only [List.map_cons, forTry]
      rcases body s (f b) with ⟨s₁, _ | ⟨⟨⟩⟩⟩
      · rfl
      · exact ih s₁

/-- What every round keeps, the loop keeps, however it ends. -/
theorem forTry_invariant {P : σ → Prop} {l : List α}
    (hstep : ∀ s, ∀ a ∈ l, P s → P (body s a).1) : ∀ {s : σ}, P s → P (forTry body l s).1 := by
  induction l with
  | nil => intro s hs; exact hs
  | cons a l ih =>
      intro s hs
      have ha : P (body s a).1 := hstep s a (List.mem_cons_self ..) hs
      rcases hb : body s a with ⟨s₁, _ | ⟨⟨⟩⟩⟩
      · rw [forTry_cons_error hb]
        rwa [hb] at ha
      · rw [forTry_cons_ok hb]
        rw [hb] at ha
        exact ih (fun s b hb => hstep s b (List.mem_cons_of_mem a hb)) ha

/-- The same of the state a loop is known to end in. -/
theorem forTry_kept {P : σ → Prop} {l : List α} {s t : σ} {r : Except ε Unit}
    (h : forTry body l s = (t, r)) (hstep : ∀ s, ∀ a ∈ l, P s → P (body s a).1) (hs : P s) :
    P t := by
  have hend := forTry_invariant hstep hs
  rwa [h] at hend

/-- What one round brings about and every round keeps holds at the end. -/
theorem forTry_establishes {P : σ → Prop} {l : List α} {a : α} (ha : a ∈ l)
    (hround : ∀ s s', body s a = (s', .ok ()) → P s')
    (hkeep : ∀ s, ∀ b ∈ l, P s → P (body s b).1) {s s' : σ}
    (h : forTry body l s = (s', .ok ())) : P s' := by
  obtain ⟨before, after, rfl⟩ := List.append_of_mem ha
  obtain ⟨s₁, _, hrest⟩ := forTry_append_inv h
  obtain ⟨s₂, hround', hafter⟩ := forTry_cons_inv hrest
  have hend : P (forTry body after s₂).1 :=
    forTry_invariant (fun t b hb => hkeep t b (List.mem_append_right _ (List.mem_cons_of_mem a hb)))
      (hround s₁ s₂ hround')
  rwa [hafter] at hend

/-- What one round does to a part of the state that the other rounds leave alone. -/
theorem forTry_at {f : σ → β} {before after : List α} {a : α}
    (hother : ∀ b, b ∈ before ∨ b ∈ after → ∀ s, f (body s b).1 = f s) {s s' : σ}
    (h : forTry body (before ++ a :: after) s = (s', .ok ())) :
    ∃ s₁ s₂, f s₁ = f s ∧ body s₁ a = (s₂, .ok ()) ∧ f s' = f s₂ := by
  obtain ⟨s₁, hbefore, hrest⟩ := forTry_append_inv h
  obtain ⟨s₂, ha, hafter⟩ := forTry_cons_inv hrest
  have hkept : ∀ {l : List α} {t t' : σ}, (∀ b ∈ l, b ∈ before ∨ b ∈ after) →
      forTry body l t = (t', .ok ()) → f t' = f t := by
    intro l t t' hl hrun
    have hkeep : f (forTry body l t).1 = f t :=
      forTry_invariant (P := fun u => f u = f t)
        (fun u b hb hu => (hother b (hl b hb) u).trans hu) rfl
    rwa [hrun] at hkeep
  exact ⟨s₁, s₂, hkept (fun b hb => Or.inl hb) hbefore, ha, hkept (fun b hb => Or.inr hb) hafter⟩

/-- An element of a list whose keys are distinct, among those of other keys. -/
theorem exists_split_of_nodup_map {κ : Type} {key : α → κ} {l : List α}
    (hnodup : (l.map key).Nodup) {a : α} (ha : a ∈ l) :
    ∃ before after, l = before ++ a :: after ∧
      ∀ b, b ∈ before ∨ b ∈ after → key b ≠ key a := by
  obtain ⟨before, after, rfl⟩ := List.append_of_mem ha
  rw [List.map_append, List.map_cons, List.nodup_middle, List.nodup_cons, ← List.map_append] at hnodup
  refine ⟨before, after, rfl, fun b hb heq => hnodup.1 ?_⟩
  rw [← heq]
  exact List.mem_map_of_mem (List.mem_append.mpr hb)

/-- A loop either runs to its end or stops at some element, after a part it ran
through. -/
theorem forTry_split (body : σ → α → σ × Except ε Unit) (l : List α) : ∀ s : σ,
    (∃ s', forTry body l s = (s', .ok ())) ∨
      ∃ (done : List α) (a : α) (rest : List α) (s₁ s' : σ) (e : ε),
        l = done ++ a :: rest ∧ forTry body done s = (s₁, .ok ()) ∧
          body s₁ a = (s', .error e) ∧ forTry body l s = (s', .error e) := by
  induction l with
  | nil => intro s; exact Or.inl ⟨s, rfl⟩
  | cons a l ih =>
      intro s
      rcases hb : body s a with ⟨s₁, e | ⟨⟨⟩⟩⟩
      · right
        exact ⟨[], a, l, s, s₁, e, rfl, rfl, hb, forTry_cons_error hb⟩
      · rw [forTry_cons_ok hb]
        rcases ih s₁ with hok | ⟨done, b, rest, s₂, s', e, hl, hdone, hstop, hrun⟩
        · exact Or.inl hok
        · right
          refine ⟨a :: done, b, rest, s₂, s', e, ?_, ?_, hstop, hrun⟩
          · rw [hl, List.cons_append]
          · rw [forTry_cons_ok hb, hdone]

section

variable {f : σ → α → Except ε σ} {P : List α → σ → Prop}
  (hstep : ∀ done a s s', P done s → f s a = .ok s' → P (done ++ [a]) s')

include hstep

theorem foldlM_invariant_after {rest : List α} : ∀ {done : List α} {s s' : σ}, P done s →
    rest.foldlM f s = .ok s' → P (done ++ rest) s' := by
  induction rest with
  | nil =>
      intro done s s' hs h
      cases h
      rwa [List.append_nil]
  | cons a rest ih =>
      intro done s s' hs h
      rw [List.foldlM_cons] at h
      cases ha : f s a with
      | error e =>
          rw [ha] at h
          cases h
      | ok s₁ =>
          rw [ha] at h
          have hrest := ih (hstep done a s s₁ hs ha) h
          rwa [List.append_assoc] at hrest

/-- What a round that returns keeps of the elements gone through and the state, a loop
that returns keeps. -/
theorem foldlM_invariant {l : List α} {s s' : σ} (hs : P [] s) (h : l.foldlM f s = .ok s') :
    P l s' := foldlM_invariant_after hstep hs h

end

end

section

variable {α : Type} {stop : List α → Bool}

/-- The elements of a loop that is left after the round with which `stop` holds of what
was gone through. -/
def goneThrough (stop : List α → Bool) : List α → List α → List α
  | _, [] => []
  | done, a :: l => if stop (done ++ [a]) then [a] else a :: goneThrough stop (done ++ [a]) l

theorem goneThrough_cons_stop {done : List α} {a : α} (l : List α) (h : stop (done ++ [a])) :
    goneThrough stop done (a :: l) = [a] := by
  rw [goneThrough, if_pos h]

theorem goneThrough_cons {done : List α} {a : α} (l : List α) (h : ¬ stop (done ++ [a])) :
    goneThrough stop done (a :: l) = a :: goneThrough stop (done ++ [a]) l := by
  rw [goneThrough, if_neg h]

theorem goneThrough_eq_nil {done l : List α} : goneThrough stop done l = [] ↔ l = [] := by
  cases l with
  | nil => exact iff_of_true rfl rfl
  | cons a l =>
      refine iff_of_false ?_ (List.cons_ne_nil a l)
      rw [goneThrough]
      split <;> exact List.cons_ne_nil _ _

theorem goneThrough_isPrefix (l : List α) : ∀ done : List α, goneThrough stop done l <+: l := by
  induction l with
  | nil => intro done; exact List.prefix_refl []
  | cons a l ih =>
      intro done
      by_cases h : stop (done ++ [a])
      · rw [goneThrough_cons_stop l h]
        exact ⟨l, rfl⟩
      · rw [goneThrough_cons l h]
        exact List.cons_prefix_cons.mpr ⟨rfl, ih _⟩

variable {m : List α → Nat}

/-- A measure that counts an element at most once keeps the loop going until there are as
many as the limit; it stops right there when each of them counted. -/
theorem goneThrough_eq_take_iff (hm : ∀ l, m l ≤ l.length) {limit : Nat}
    (hstop : ∀ l, stop l ↔ limit ≤ m l) (l : List α) : ∀ (done : List α) (k : Nat),
    limit = done.length + (k + 1) →
    (goneThrough stop done l = l.take (k + 1) ↔
      l.length ≤ k + 1 ∨ limit ≤ m (done ++ l.take (k + 1))) := by
  induction l with
  | nil =>
      intro done k _
      exact iff_of_true rfl (Or.inl (Nat.zero_le _))
  | cons a l ih =>
      intro done k hlimit
      by_cases h : stop (done ++ [a])
      · -- it can only stop here when one element was left to go
        have hle := hm (done ++ [a])
        rw [List.length_append, List.length_singleton] at hle
        have hreached := (hstop _).mp h
        have hk : k = 0 := by omega
        subst hk
        rw [goneThrough_cons_stop l h]
        exact iff_of_true rfl (Or.inr hreached)
      · rw [goneThrough_cons l h, List.take_succ_cons, List.cons_inj_right]
        cases k with
        | zero =>
            rw [List.take_zero, goneThrough_eq_nil, ← hstop, ← List.length_eq_zero_iff,
              List.length_cons]
            constructor
            · intro hnil
              exact Or.inl (by omega)
            · intro hor
              rcases hor with hle | hreached
              · omega
              · exact absurd hreached h
        | succ k =>
            rw [ih (done ++ [a]) k (by rw [List.length_append, List.length_singleton]; omega),
              List.append_assoc, List.singleton_append, List.length_cons]
            rw [Nat.add_le_add_iff_right]

end

/-! ## A loop that only an error ends -/

section

variable {σ ε : Type} {body : Nat → σ → Except ε σ}

/-- So many rounds at most, after `rounds` of them: how many there were in all and the error
of the last one, and nothing where the body has not failed yet. -/
def untilError (body : Nat → σ → Except ε σ) : Nat → Nat → σ → Option (Nat × ε)
  | 0, _, _ => none
  | fuel + 1, rounds, s =>
      match body rounds s with
      | .ok s' => untilError body fuel (rounds + 1) s'
      | .error e => some (rounds + 1, e)

theorem untilError_ok {n : Nat} {s s' : σ} (h : body n s = .ok s') (fuel : Nat) :
    untilError body (fuel + 1) n s = untilError body fuel (n + 1) s' := by
  simp only [untilError, h]

theorem untilError_error {n : Nat} {s : σ} {e : ε} (h : body n s = .error e) (fuel : Nat) :
    untilError body (fuel + 1) n s = some (n + 1, e) := by
  simp only [untilError, h]

/-- With an invariant under which a round fails just if it is one of the `Last`, the loop ends
with the first of these, once it may make so many rounds. -/
theorem untilError_eq {I : Nat → σ → Prop} {Last : Nat → Prop} {e : ε}
    (hround : ∀ n s, I n s → (¬ Last (n + 1) ∧ ∃ s', body n s = .ok s' ∧ I (n + 1) s') ∨
      (Last (n + 1) ∧ body n s = .error e))
    {last : Nat} (hlast : Last last) (hleast : ∀ m, Last m → last ≤ m) :
    ∀ (fuel n : Nat) (s : σ), I n s → n < last →
      untilError body fuel n s = if last ≤ n + fuel then some (last, e) else none := by
  intro fuel
  induction fuel with
  | zero =>
      intro n s _ hn
      rw [if_neg (by omega)]
      rfl
  | succ fuel ih =>
      intro n s hI hn
      rcases hround n s hI with ⟨hgoes, s', hok, hI'⟩ | ⟨hend, herror⟩
      · have hlater : n + 1 < last := by
          rcases Nat.lt_or_eq_of_le hn with hlt | rfl
          · exact hlt
          · exact absurd hlast hgoes
        rw [untilError_ok hok, ih (n + 1) s' hI' hlater, Nat.add_assoc, Nat.add_comm 1 fuel]
      · have hfirst : last = n + 1 := by
          have := hleast (n + 1) hend
          omega
        rw [untilError_error herror, if_pos (by omega), hfirst]

end
