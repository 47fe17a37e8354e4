import Mathlib.Data.List.Basic

/-!
# Work that hands over

A list of tasks is worked off from the front: each task starts from what the one
before it hands over, and may fail. A list worked off in pieces, each piece from
what the last one handed over, gives the results of the whole list
(`work_append`), and it fails where the whole list fails (`work_append_error`).
-/

namespace Handover

variable {ε α β τ : Type} {f : τ → α → Except ε β} {next : β → τ}

/-- The results of the tasks, where `next` is what a result hands over. -/
def work (f : τ → α → Except ε β) (next : β → τ) : τ → List α → Except ε (List β)
  | _, [] => .ok []
  | given, a :: rest =>
      match f given a with
      | .error e => .error e
      | .ok b =>
          match work f next (next b) rest with
          | .error e => .error e
          | .ok bs => .ok (b :: bs)

/-- What a list of results hands over, begun from `given`. -/
def last (next : β → τ) (given : τ) (bs : List β) : τ := (bs.getLast?.map next).getD given

theorem last_cons (given : τ) (b : β) (bs : List β) :
    last next given (b :: bs) = last next (next b) bs := by
  rw [last, last, List.getLast?_cons]
  cases bs.getLast? <;> rfl

theorem last_of_getLast? {given : τ} {b : β} {bs : List β} (h : bs.getLast? = some b) :
    last next given bs = next b := by
  rw [last, h]
  rfl

theorem work_cons {given : τ} {a : α} {rest : List α} {b : β} {bs : List β}
    (hb : f given a = .ok b) (hrest : work f next (next b) rest = .ok bs) :
    work f next given (a :: rest) = .ok (b :: bs) := by
  simp only [work, hb, hrest]

theorem work_cons_error {given : τ} {a : α} {e : ε} (rest : List α) (h : f given a = .error e) :
    work f next given (a :: rest) = .error e := by
  simp only [work, h]

theorem work_cons_error_after {given : τ} {a : α} {rest : List α} {b : β} {e : ε}
    (hb : f given a = .ok b) (hrest : work f next (next b) rest = .error e) :
    work f next given (a :: rest) = .error e := by
  simp only [work, hb, hrest]

theorem work_cons_ok {given : τ} {a : α} {rest : List α} {bs : List β}
    (h : work f next given (a :: rest) = .ok bs) :
    ∃ b bs', bs = b :: bs' ∧ f given a = .ok b ∧ work f next (next b) rest = .ok bs' := by
  rw [work] at h
  split at h
  · cases h
  · next b hb =>
      split at h
      · cases h
      · next bs' hrest =>
          cases h
          exact ⟨b, bs', rfl, hb, hrest⟩

theorem work_append {l l' : List α} : ∀ {given : τ} {bs bs' : List β},
    work f next given l = .ok bs → work f next (last next given bs) l' = .ok bs' →
    work f next given (l ++ l') = .ok (bs ++ bs') := by
  induction l with
  | nil =>
      intro given bs bs' h h'
      cases h
      exact h'
  | cons a rest ih =>
      intro given bs bs' h h'
      obtain ⟨b, bs, rfl, hb, hrest⟩ := work_cons_ok h
      rw [last_cons] at h'
      exact work_cons hb (ih hrest h')

/-- The first piece fails. -/
theorem work_append_error {l : List α} (l' : List α) : ∀ {given : τ} {e : ε},
    work f next given l = .error e → work f next given (l ++ l') = .error e := by
  induction l with
  | nil => intro given e h; cases h
  | cons a rest ih =>
      intro given e h
      cases hb : f given a with
      | error e' =>
          rw [work_cons_error rest hb] at h
          cases h
          exact work_cons_error _ hb
      | ok b =>
          simp only [work, hb] at h
          split at h
          · next e' hrest =>
              cases h
              exact work_cons_error_after hb (ih hrest)
          · cases h

/-- The first piece is worked off, and the rest fails. -/
theorem work_append_error_after {l l' : List α} : ∀ {given : τ} {bs : List β} {e : ε},
    work f next given l = .ok bs → work f next (last next given bs) l' = .error e →
    work f next given (l ++ l') = .error e := by
  induction l with
  | nil =>
      intro given bs e h h'
      cases h
      exact h'
  | cons a rest ih =>
      intro given bs e h h'
      obtain ⟨b, bs, rfl, hb, hrest⟩ := work_cons_ok h
      rw [last_cons] at h'
      exact work_cons_error_after hb (ih hrest h')

/-- Each result keeps what `key` says of its task. -/
theorem work_keys {κ : Type} {key : α → κ} {key' : β → κ}
    (hkey : ∀ given a b, f given a = .ok b → key' b = key a) {l : List α} :
    ∀ {given : τ} {bs : List β}, work f next given l = .ok bs → bs.map key' = l.map key := by
  induction l with
  | nil =>
      intro given bs h
      cases h
      rfl
  | cons a rest ih =>
      intro given bs h
      obtain ⟨b, bs, rfl, hb, hrest⟩ := work_cons_ok h
      rw [List.map_cons, List.map_cons, hkey _ _ _ hb, ih hrest]

end Handover
