import Mathlib.Order.Defs.Unbundled
import Std.Tactic.Do

/-!
# Calls that change a state and may fail

A call that reads and writes a state and may fail half-way is an `EStateM`: on
failure the state keeps what was done before it. What is proved about such a
call is a triple of the core library; `triple_of` and `triple_elim` go between
a triple and what the call does in one state.

`Preserves f x` says that `x` leaves the part `f` of the state as it was,
whatever it answers, and `Moves R x` that it goes along the preorder `R`.

`recorded` runs a call over a state that also holds a record of what the calls
have answered so far, for statements about the order of the calls in a run; `noted`
keeps a record of the states in which a call was made. `zoom` makes a call on a part of
the state.
-/

open Std.Do

/-- A computation that ends well has been through the one it begins with. -/
theorem Except.ok_of_bind {ε α β : Type} {x : Except ε α} {f : α → Except ε β} {b : β}
    (h : x.bind f = .ok b) : ∃ a, x = .ok a ∧ f a = .ok b := by
  cases x with
  | ok a => exact ⟨a, rfl, h⟩
  | error e => cases h

/-- What a list is mapped to is what its elements are mapped to. -/
theorem Except.mem_of_mapM {ε α β : Type} {f : α → Except ε β} {as : List α} :
    ∀ {bs : List β}, as.mapM f = .ok bs → ∀ b, b ∈ bs ↔ ∃ a ∈ as, f a = .ok b := by
  induction as with
  | nil =>
      intro bs h b
      cases h
      simp
  | cons a as ih =>
      intro bs h b
      rw [List.mapM_cons] at h
      obtain ⟨b₁, hb₁, h⟩ := Except.ok_of_bind h
      obtain ⟨bs₁, hbs₁, h⟩ := Except.ok_of_bind h
      cases h
      rw [List.mem_cons, ih hbs₁]
      constructor
      · rintro (rfl | ⟨a', ha', hb⟩)
        · exact ⟨a, List.mem_cons_self .., hb₁⟩
        · exact ⟨a', List.mem_cons_of_mem a ha', hb⟩
      · rintro ⟨a', ha', hb⟩
        rcases List.mem_cons.mp ha' with rfl | ha'
        · rw [hb₁] at hb
          cases hb
          exact Or.inl rfl
        · exact Or.inr ⟨a', ha', hb⟩

theorem Except.mapM_returns {ε α β : Type} {f : α → Except ε β} {as : List α}
    (h : ∀ a ∈ as, ∃ b, f a = .ok b) : ∃ bs, as.mapM f = .ok bs := by
  induction as with
  | nil => exact ⟨[], rfl⟩
  | cons a as ih =>
      obtain ⟨b, hb⟩ := h a (List.mem_cons_self ..)
      obtain ⟨bs, hbs⟩ := ih fun a' ha' => h a' (List.mem_cons_of_mem a ha')
      refine ⟨b :: bs, ?_⟩
      rw [List.mapM_cons, hb, hbs]
      rfl

namespace EStateM

variable {ε σ α β γ ρ : Type}

theorem triple_of {x : EStateM ε σ α} {P : σ → Prop} {Q : α → σ → Prop} {E : ε → σ → Prop}
    (h : ∀ s, P s → match x s with
      | .ok a s' => Q a s'
      | .error e s' => E e s') :
    ⦃fun s => ⌜P s⌝⦄ x ⦃post⟨fun a s => ⌜Q a s⌝, fun e s => ⌜E e s⌝⟩⦄ := by
  intro s hs
  have hx := h s hs
  simp only [WP.wp, PredTrans.apply, EStateM.run]
  cases hxs : x s <;> simpa [hxs] using hx

theorem triple_elim {x : EStateM ε σ α} {P : σ → Prop} {Q : α → σ → Prop} {E : ε → σ → Prop}
    (h : ⦃fun s => ⌜P s⌝⦄ x ⦃post⟨fun a s => ⌜Q a s⌝, fun e s => ⌜E e s⌝⟩⦄) {s : σ} (hs : P s) :
    match x s with
    | .ok a s' => Q a s'
    | .error e s' => E e s' := by
  have hx := h s hs
  simp only [WP.wp, PredTrans.apply, EStateM.run] at hx
  cases hxs : x s <;> simpa [hxs] using hx

theorem get_apply (s : σ) : (EStateM.get : EStateM ε σ σ) s = .ok s s := rfl

theorem throw_apply (e : ε) (s : σ) : (EStateM.throw e : EStateM ε σ α) s = .error e s := rfl

/-- A call that ends well has been through the calls it begins with. -/
theorem bind_ok {x : EStateM ε σ α} {f : α → EStateM ε σ β} {s t : σ} {b : β}
    (h : (x >>= f) s = .ok b t) : ∃ a u, x s = .ok a u ∧ f a u = .ok b t := by
  simp only [bind, EStateM.bind] at h
  split at h
  · next a u hx => exact ⟨a, u, hx, h⟩
  · cases h

theorem bind_of_ok {x : EStateM ε σ α} {s t : σ} {a : α} (h : x s = .ok a t)
    (f : α → EStateM ε σ β) : (x >>= f) s = f a t := by
  simp only [bind, EStateM.bind, h]

theorem bind_of_error {x : EStateM ε σ α} {s t : σ} {e : ε} (h : x s = .error e t)
    (f : α → EStateM ε σ β) : (x >>= f) s = .error e t := by
  simp only [bind, EStateM.bind, h]

theorem get_bind (s : σ) (f : σ → EStateM ε σ β) : ((get : EStateM ε σ σ) >>= f) s = f s s := rfl

theorem set_bind (s t : σ) (f : PUnit → EStateM ε σ β) :
    ((set t : EStateM ε σ PUnit) >>= f) s = f ⟨⟩ t := rfl

theorem modify_bind (s : σ) (g : σ → σ) (f : PUnit → EStateM ε σ β) :
    ((modify g : EStateM ε σ PUnit) >>= f) s = f ⟨⟩ (g s) := rfl

theorem ofExcept_bind (s : σ) (a : α) (f : α → EStateM ε σ β) :
    ((ofExcept (.ok a) : EStateM ε σ α) >>= f) s = f a s := rfl

theorem discard_of_ok {x : EStateM ε σ α} {s t : σ} {a : α} (h : x s = .ok a t) :
    (discard x : EStateM ε σ PUnit) s = .ok ⟨⟩ t := by
  show EStateM.map (Function.const α PUnit.unit) x s = _
  rw [EStateM.map, h]

theorem discard_of_error {x : EStateM ε σ α} {s t : σ} {e : ε} (h : x s = .error e t) :
    (discard x : EStateM ε σ PUnit) s = .error e t := by
  show EStateM.map (Function.const α PUnit.unit) x s = _
  rw [EStateM.map, h]

/-- A call that has one answer only may be made for what it does. -/
theorem eq_discard {x : EStateM ε σ α} {a : α} (h : ∀ s b t, x s = .ok b t → b = a) :
    x = (do discard x; pure a) := by
  funext s
  cases hx : x s with
  | ok b t =>
      rw [bind_of_ok (discard_of_ok hx), h s b t hx]
      rfl
  | error e t => rw [bind_of_error (discard_of_error hx)]

/-! ## What a call leaves alone -/

/-- The state a call ends in, by an answer or by a failure. -/
def after (x : EStateM ε σ α) (s : σ) : σ :=
  match x s with
  | .ok _ s' => s'
  | .error _ s' => s'

theorem after_bind (x : EStateM ε σ α) (f : α → EStateM ε σ β) (s : σ) :
    (x >>= f).after s = match x s with
      | .ok a u => (f a).after u
      | .error _ u => u := by
  simp only [after, bind, EStateM.bind]
  cases x s <;> rfl

def Preserves (f : σ → γ) (x : EStateM ε σ α) : Prop := ∀ s, f (x.after s) = f s

namespace Preserves

variable {f : σ → γ}

theorem pure (a : α) : Preserves f (pure a : EStateM ε σ α) := fun _ => rfl

theorem throw (e : ε) : Preserves f (throw e : EStateM ε σ α) := fun _ => rfl

theorem bind {x : EStateM ε σ α} {g : α → EStateM ε σ β} (hx : Preserves f x)
    (hg : ∀ a, Preserves f (g a)) : Preserves f (x >>= g) := by
  intro s
  have hxs := hx s
  cases hrun : x s with
  | ok a s' =>
      have hgs := hg a s'
      simp only [after, hrun] at hxs
      simp only [after, Bind.bind, EStateM.bind, hrun] at hgs ⊢
      rw [hgs, hxs]
  | error e s' =>
      simp only [after, hrun] at hxs
      simpa only [after, Bind.bind, EStateM.bind, hrun] using hxs

theorem spec {x : EStateM ε σ α} (h : Preserves f x) (c : γ) :
    ⦃fun s => ⌜f s = c⌝⦄ x ⦃post⟨fun _ s => ⌜f s = c⌝, fun _ s => ⌜f s = c⌝⟩⦄ := by
  refine triple_of fun s hs => ?_
  have hx := h s
  simp only [after] at hx
  cases hrun : x s <;> simpa [hrun, hs] using hx

end Preserves

/-! ## Where a call goes -/

/-- Whatever `x` answers, the state it ends in is related to the one it began in. -/
def Moves (R : σ → σ → Prop) (x : EStateM ε σ α) : Prop := ∀ s, R s (x.after s)

namespace Moves

variable {R : σ → σ → Prop} [IsPreorder σ R]

theorem pure (a : α) : Moves R (pure a : EStateM ε σ α) := fun s => refl_of R s

theorem throw (e : ε) : Moves R (throw e : EStateM ε σ α) := fun s => refl_of R s

theorem bind {x : EStateM ε σ α} {g : α → EStateM ε σ β} (hx : Moves R x)
    (hg : ∀ a, Moves R (g a)) : Moves R (x >>= g) := by
  intro s
  have hxs := hx s
  rw [after_bind]
  cases hrun : x s with
  | ok a u =>
      rw [after, hrun] at hxs
      exact trans_of R hxs (hg a u)
  | error e u =>
      rw [after, hrun] at hxs
      exact hxs

end Moves

/-! ## Recorded calls -/

/-- The call `x` over a state with a record: an answer `a` adds the line `f a`,
if it has one, and a failure adds none. -/
def recorded (x : EStateM ε σ α) (f : α → Option ρ) : EStateM ε (σ × List ρ) α := fun st =>
  match x st.1 with
  | .ok a s => .ok a (s, st.2 ++ (f a).toList)
  | .error e s => .error e (s, st.2)

/-- A call that is not noted down. -/
def unrecorded (x : EStateM ε σ α) : EStateM ε (σ × List ρ) α := x.recorded fun _ => none

@[spec]
theorem recorded_spec (x : EStateM ε σ α) (f : α → Option ρ) (log : List ρ) :
    ⦃fun st => ⌜st.2 = log⌝⦄ x.recorded f
    ⦃post⟨fun a st => ⌜st.2 = log ++ (f a).toList⌝, fun _ st => ⌜st.2 = log⌝⟩⦄ := by
  refine triple_of fun st hst => ?_
  rw [recorded]
  cases x st.1 <;> simp [hst]

theorem preserves_unrecorded (x : EStateM ε σ α) :
    Preserves Prod.snd (x.unrecorded : EStateM ε (σ × List ρ) α) := by
  intro st
  simp only [after, unrecorded, recorded]
  cases x st.1 <;> simp

/-- The call `x` over a state with a record, where the state it is made in is noted
down, whether it is answered or not. -/
def noted (x : EStateM ε σ α) (f : σ → ρ) : EStateM ε (σ × List ρ) α := fun st =>
  match x st.1 with
  | .ok a s => .ok a (s, st.2 ++ [f st.1])
  | .error e s => .error e (s, st.2 ++ [f st.1])

/-- The same call in a state that holds something before it. -/
def second (x : EStateM ε σ α) : EStateM ε (ρ × σ) α := fun st =>
  match x st.2 with
  | .ok a s => .ok a (st.1, s)
  | .error e s => .error e (st.1, s)

/-! ## Calls on a part of the state -/

/-- A call on the part of the state which `get` reads and `set` writes back. -/
def zoom (get : ρ → σ) (set : ρ → σ → ρ) (x : EStateM ε σ α) : EStateM ε ρ α := fun s =>
  match x (get s) with
  | .ok a t => .ok a (set s t)
  | .error e t => .error e (set s t)

theorem zoom_ok {get : ρ → σ} {set : ρ → σ → ρ} {x : EStateM ε σ α} {s : ρ} {a : α} {t : σ}
    (h : x (get s) = .ok a t) : x.zoom get set s = .ok a (set s t) := by
  rw [zoom, h]

theorem zoom_error {get : ρ → σ} {set : ρ → σ → ρ} {x : EStateM ε σ α} {s : ρ} {e : ε} {t : σ}
    (h : x (get s) = .error e t) : x.zoom get set s = .error e (set s t) := by
  rw [zoom, h]

theorem ok_of_zoom {get : ρ → σ} {set : ρ → σ → ρ} {x : EStateM ε σ α} {s t : ρ} {a : α}
    (h : x.zoom get set s = .ok a t) : ∃ u, x (get s) = .ok a u ∧ t = set s u := by
  rw [zoom] at h
  cases hx : x (get s) with
  | ok b u =>
      rw [hx] at h
      cases h
      exact ⟨u, rfl, rfl⟩
  | error e u =>
      rw [hx] at h
      cases h

end EStateM
