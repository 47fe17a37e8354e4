import RomeSdk.Lib.Answers
import RomeSdk.Lib.Machine

/-!
# A call that is made again after a failure

A call that fails leaves the state it has come to, and its caller may make it again, in
other circumstances. `retrying` is the machine of all such callers: a label is what the
call finds outside, and the state keeps the answers of all the calls so far.

What is asked of such a run is asked of each answer and of those before it. `eachAnswer`
is its rule: an invariant of the state and the answers under which the next answer is as it
should be, whatever is found outside, and which all calls keep but those that lose. A run
in which no call follows one that loses has only such answers, since the last call may
lose and be answered well.
-/

namespace EStateM

variable {ε σ η α : Type}

/-- The call in the circumstances `e`, with its answer put to those before it. -/
def retry (x : η → EStateM ε σ α) (s : σ × List (Except ε α)) (e : η) : σ × List (Except ε α) :=
  ((x e).after s.1, s.2 ++ [(x e).answer s.1])

def retrying (x : η → EStateM ε σ α) (s₀ : σ) : Machine (σ × List (Except ε α)) η where
  init s := s = (s₀, [])
  step s e t := t = retry x s e

/-- The steps of the calls in the circumstances `es`, one after the other. -/
def retries (x : η → EStateM ε σ α) (s : σ × List (Except ε α)) :
    List η → List ((σ × List (Except ε α)) × η)
  | [] => []
  | e :: es => (s, e) :: retries x (retry x s e) es

theorem run_retries {x : η → EStateM ε σ α} {s₀ : σ} (es : List η) :
    ∀ {tr : List ((σ × List (Except ε α)) × η)} {s : σ × List (Except ε α)},
      Machine.Run (retrying x s₀) tr s →
      Machine.Run (retrying x s₀) (tr ++ retries x s es) (es.foldl (retry x) s) := by
  induction es with
  | nil =>
      intro tr s h
      rw [retries, List.append_nil]
      exact h
  | cons e es ih =>
      intro tr s h
      rw [retries, List.append_cons]
      exact ih (.next h rfl)

/-- Every answer is in the relation `P` to those before it. -/
def EachAnswer (P : List (Except ε α) → Except ε α → Prop) (answers : List (Except ε α)) : Prop :=
  ∀ before a after, answers = before ++ a :: after → P before a

variable {P : List (Except ε α) → Except ε α → Prop}

theorem eachAnswer_nil : EachAnswer P [] := by
  intro before a after h
  simp at h

theorem EachAnswer.concat {answers : List (Except ε α)} {a : Except ε α}
    (h : EachAnswer P answers) (ha : P answers a) : EachAnswer P (answers ++ [a]) := by
  intro before b after hsplit
  rcases List.eq_nil_or_concat after with rfl | ⟨after', c, rfl⟩
  · obtain ⟨rfl, hb⟩ := List.append_inj' hsplit rfl
    cases hb
    exact ha
  · have hcut : answers ++ [a] = (before ++ b :: after') ++ [c] := by
      rw [hsplit]
      simp
    obtain ⟨hanswers, _⟩ := List.append_inj' hcut rfl
    exact h before b after' hanswers

/-- What a call does, with its answer and the state it leaves. -/
structure Goes (x : EStateM ε σ α) (s : σ) (a : Except ε α) (t : σ) : Prop where
  answer : x.answer s = a
  after : x.after s = t

theorem goes_ok {x : EStateM ε σ α} {s t : σ} {a : α} (h : x s = .ok a t) :
    Goes x s (.ok a) t :=
  ⟨by rw [EStateM.answer, h], by rw [EStateM.after, h]⟩

theorem goes_error {x : EStateM ε σ α} {s t : σ} {e : ε} (h : x s = .error e t) :
    Goes x s (.error e) t :=
  ⟨by rw [EStateM.answer, h], by rw [EStateM.after, h]⟩

/-- The next answer is as it should be, and a call that does not lose keeps the invariant. -/
def Keeps (x : η → EStateM ε σ α) (I : σ → List (Except ε α) → Prop)
    (P : List (Except ε α) → Except ε α → Prop) (finds loses : σ → η → Prop) : Prop :=
  ∀ s answers e, I s answers → finds s e → ∃ a t, Goes (x e) s a t ∧ P answers a ∧
    (¬ loses s e → I t (answers ++ [a]))

/-- All answers are as they should be where no call follows one that loses. -/
theorem eachAnswer {x : η → EStateM ε σ α} {s₀ : σ} {I : σ → List (Except ε α) → Prop}
    {finds loses : σ → η → Prop} (hstart : I s₀ []) (hkeeps : Keeps x I P finds loses)
    {tr : List ((σ × List (Except ε α)) × η)} {s : σ × List (Except ε α)}
    (hrun : Machine.Run (retrying x s₀) tr s)
    (hfinds : Machine.Meets (fun s e => finds s.1 e) tr)
    (hloses : Machine.Meets (fun s e => ¬ loses s.1 e) tr.dropLast) : EachAnswer P s.2 := by
  cases hrun with
  | start hinit =>
      cases hinit
      exact eachAnswer_nil
  | @next tr s t e hrun hstep =>
      rw [List.dropLast_concat] at hloses
      obtain ⟨hbefore, hlast⟩ := Machine.meets_append.mp hfinds
      have hinvariant : I s.1 s.2 ∧ EachAnswer P s.2 := by
        refine hrun.invariant (I := fun s => I s.1 s.2 ∧ EachAnswer P s.2)
          (G := fun s e => finds s.1 e ∧ ¬ loses s.1 e) ?_ ?_ ?_
        · intro s hinit
          cases hinit
          exact ⟨hstart, eachAnswer_nil⟩
        · intro s e t h hG hstep
          obtain ⟨a, u, hgoes, hP, hI⟩ := hkeeps s.1 s.2 e h.1 hG.1
          rw [hstep, retry, hgoes.answer, hgoes.after]
          exact ⟨hI hG.2, h.2.concat hP⟩
        · intro st hst
          exact ⟨hbefore st hst, hloses st hst⟩
      obtain ⟨a, u, hgoes, hP, _⟩ := hkeeps s.1 s.2 e hinvariant.1 hlast
      rw [hstep, retry, hgoes.answer]
      exact hinvariant.2.concat hP

end EStateM
