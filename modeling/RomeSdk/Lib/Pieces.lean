import RomeSdk.Lib.Tiling

/-!
# An interval in pieces of bounded length

`pieces n a b` takes the interval from `a` to `b` from its front, `n` positions
at a time and in the end what is left. The pieces tile the interval, and none of
them is empty or longer than `n`.

A loop that goes over an interval in this way by its own arithmetic, and that is
given as many rounds as there are positions, is the loop over the list of pieces
(`loop_eq_forM`). So the rounds it is given do not matter, and what holds of the
list holds of the loop.
-/

/-- The pieces from `a` on, and no more of them than the first argument allows. -/
def piecesFrom (n b : Nat) : Nat → Nat → List (Nat × Nat)
  | 0, _ => []
  | rounds + 1, a =>
      if a < b then (a, min (b - a) n) :: piecesFrom n b rounds (a + min (b - a) n) else []

def pieces (n a b : Nat) : List (Nat × Nat) := piecesFrom n b (b - a) a

section

variable {n a b : Nat}

theorem piecesFrom_of_le (hle : b ≤ a) (rounds : Nat) : piecesFrom n b rounds a = [] := by
  cases rounds with
  | zero => rfl
  | succ rounds => rw [piecesFrom, if_neg (by omega)]

theorem piecesFrom_of_lt (hlt : a < b) (rounds : Nat) :
    piecesFrom n b (rounds + 1) a
      = (a, min (b - a) n) :: piecesFrom n b rounds (a + min (b - a) n) := by
  rw [piecesFrom, if_pos hlt]

/-- What a piece leaves fits in one round less. -/
theorem pieces_left_le {rounds : Nat} (hn : 0 < n) (hlt : a < b) (hle : b - a ≤ rounds + 1) :
    b - (a + min (b - a) n) ≤ rounds := by
  omega

theorem piecesFrom_rounds (hn : 0 < n) (rounds : Nat) : ∀ {rounds' a : Nat}, b - a ≤ rounds →
    b - a ≤ rounds' → piecesFrom n b rounds a = piecesFrom n b rounds' a := by
  induction rounds with
  | zero =>
      intro rounds' a hle _
      rw [piecesFrom_of_le (by omega), piecesFrom_of_le (by omega)]
  | succ rounds ih =>
      intro rounds' a hle hle'
      by_cases hlt : a < b
      · obtain ⟨rounds', rfl⟩ : ∃ r, rounds' = r + 1 := ⟨rounds' - 1, by omega⟩
        rw [piecesFrom_of_lt hlt, piecesFrom_of_lt hlt,
          ih (pieces_left_le hn hlt hle) (pieces_left_le hn hlt hle')]
      · rw [piecesFrom_of_le (by omega), piecesFrom_of_le (by omega)]

theorem pieces_of_le (hle : b ≤ a) : pieces n a b = [] := piecesFrom_of_le hle _

theorem pieces_of_lt (hn : 0 < n) (hlt : a < b) :
    pieces n a b = (a, min (b - a) n) :: pieces n (a + min (b - a) n) b := by
  obtain ⟨rounds, hrounds⟩ : ∃ r, b - a = r + 1 := ⟨b - a - 1, by omega⟩
  have hleft : b - (a + min (b - a) n) ≤ rounds := pieces_left_le hn hlt (by omega)
  rw [pieces, hrounds, piecesFrom_of_lt hlt, hrounds, pieces]
  rw [hrounds] at hleft
  rw [piecesFrom_rounds hn rounds hleft (Nat.le_refl _)]

/-- What holds of no pieces, and of a piece and the others if of the others, holds of the
pieces of every interval. -/
theorem pieces_induction {P : Nat → List (Nat × Nat) → Prop} (hn : 0 < n)
    (hnil : ∀ a, b ≤ a → P a [])
    (hcons : ∀ a, a < b → P (a + min (b - a) n) (pieces n (a + min (b - a) n) b) →
      P a ((a, min (b - a) n) :: pieces n (a + min (b - a) n) b)) (a : Nat) :
    P a (pieces n a b) := by
  induction hleft : b - a using Nat.strongRecOn generalizing a with
  | _ left ih =>
      by_cases hlt : a < b
      · rw [pieces_of_lt hn hlt]
        exact hcons a hlt (ih (b - (a + min (b - a) n)) (by omega) _ rfl)
      · rw [pieces_of_le (by omega)]
        exact hnil a (by omega)

/-- They are laid end to end. -/
theorem pieces_tiles (hn : 0 < n) (hab : a ≤ b) : Tiles (pieces n a b) a b := by
  have htiles := pieces_induction (P := fun a l => a ≤ b → Tiles l a b) (b := b) hn ?_ ?_ a
  · exact htiles hab
  · intro a hle hab
    obtain rfl : a = b := by omega
    exact .nil a
  · intro a hlt ih _
    exact .cons (ih (by omega))

example : pieces 3 2 9 = [(2, 3), (5, 3), (8, 1)] := by decide

/-- Each piece is cut off the front of what is left when it comes to it. -/
theorem of_mem_pieces (hn : 0 < n) {p : Nat × Nat} (hp : p ∈ pieces n a b) :
    p.1 < b ∧ p.2 = min (b - p.1) n := by
  have hall := pieces_induction (P := fun _ l => ∀ p ∈ l, p.1 < b ∧ p.2 = min (b - p.1) n)
    (b := b) hn ?_ ?_ a
  · exact hall p hp
  · intro a _ p hp
    cases hp
  · intro a hlt ih p hp
    rcases List.mem_cons.mp hp with rfl | hp
    · exact ⟨hlt, rfl⟩
    · exact ih p hp

theorem length_of_mem_pieces (hn : 0 < n) {p : Nat × Nat} (hp : p ∈ pieces n a b) :
    1 ≤ p.2 ∧ p.2 ≤ n := by
  have hcut := of_mem_pieces hn hp
  omega

end

section

variable {m : Type → Type} [Monad m] [LawfulMonad m] {n b : Nat} (loop : Nat → Nat → m Unit)
  (round : Nat → m Nat)

/-- A loop whose round answers where the piece it took ends. -/
theorem loop_eq_forM (hn : 0 < n) (hends : ∀ rounds a, ¬ a < b → loop rounds a = pure ())
    (hgoes : ∀ rounds a, a < b → loop (rounds + 1) a = round a >>= loop rounds)
    (hround : ∀ a, a < b → round a = do
      discard (round a)
      pure (a + min (b - a) n))
    (rounds : Nat) : ∀ {a : Nat}, b - a ≤ rounds →
      loop rounds a = (pieces n a b).forM fun p => discard (round p.1) := by
  induction rounds with
  | zero =>
      intro a hle
      rw [hends 0 a (by omega), pieces_of_le (by omega)]
      rfl
  | succ rounds ih =>
      intro a hle
      by_cases hlt : a < b
      · have hrest := ih (pieces_left_le hn hlt hle)
        rw [hgoes rounds a hlt, hround a hlt, bind_assoc, pieces_of_lt hn hlt]
        simp only [pure_bind, hrest]
        rfl
      · rw [hends _ a hlt, pieces_of_le (by omega)]
        rfl

end
