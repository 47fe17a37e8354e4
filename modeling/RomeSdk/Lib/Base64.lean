import Mathlib.Data.List.Basic

/-!
# Base64

Three bytes are written as four characters of the standard alphabet, and a rest
of one or two bytes is padded to four characters. What a reader of a text around
the encoding needs is which characters it can have, and that it is empty for no
bytes only.
-/

namespace Base64

/-- The character of a number below 64. -/
def digit (n : Nat) : Char :=
  if n < 26 then Char.ofNat ('A'.toNat + n)
  else if n < 52 then Char.ofNat ('a'.toNat + (n - 26))
  else if n < 62 then Char.ofNat ('0'.toNat + (n - 52))
  else if n = 62 then '+'
  else '/'

theorem digit_ne_pad {n : Nat} (h : n < 64) : digit n ≠ '=' := by
  have hall : ∀ n < 64, digit n ≠ '=' := by decide
  exact hall n h

/-- The digits of three bytes. -/
def group (a b c : UInt8) : List Char :=
  [digit (a.toNat / 4), digit (a.toNat % 4 * 16 + b.toNat / 16),
    digit (b.toNat % 16 * 4 + c.toNat / 64), digit (c.toNat % 64)]

def encode : List UInt8 → List Char
  | [] => []
  | [a] => (group a 0 0).take 2 ++ ['=', '=']
  | [a, b] => (group a b 0).take 3 ++ ['=']
  | a :: b :: c :: rest => group a b c ++ encode rest

theorem encode_eq_nil {bytes : List UInt8} : encode bytes = [] ↔ bytes = [] := by
  constructor
  · intro h
    match bytes with
    | [] => rfl
    | [_] => cases h
    | [_, _] => cases h
    | _ :: _ :: _ :: _ => cases h
  · rintro rfl
    rfl

theorem digit_of_mem_group {a b c : UInt8} {ch : Char} (h : ch ∈ group a b c) :
    ∃ n, n < 64 ∧ ch = digit n := by
  have ha := a.toNat_lt
  have hb := b.toNat_lt
  have hc := c.toNat_lt
  simp only [group, List.mem_cons, List.not_mem_nil, or_false] at h
  rcases h with h | h | h | h
  · exact ⟨_, by omega, h⟩
  · exact ⟨_, by omega, h⟩
  · exact ⟨_, by omega, h⟩
  · exact ⟨_, by omega, h⟩

theorem mem_encode {ch : Char} : ∀ {bytes : List UInt8}, ch ∈ encode bytes →
    ch = '=' ∨ ∃ n, n < 64 ∧ ch = digit n := by
  intro bytes
  induction bytes using encode.induct with
  | case1 => intro h; cases h
  | case2 a =>
      intro h
      rcases List.mem_append.mp h with h | h
      · exact Or.inr (digit_of_mem_group (List.mem_of_mem_take h))
      · exact Or.inl (by simpa using h)
  | case3 a b =>
      intro h
      rcases List.mem_append.mp h with h | h
      · exact Or.inr (digit_of_mem_group (List.mem_of_mem_take h))
      · exact Or.inl (by simpa using h)
  | case4 a b c rest ih =>
      intro h
      rw [encode] at h
      rcases List.mem_append.mp h with h | h
      · exact Or.inr (digit_of_mem_group h)
      · exact ih h

/-- A test that every character of the alphabet and the padding pass is passed by
every character of an encoding. -/
theorem all_encode {p : Char → Prop} (hpad : p '=') (hdigit : ∀ n < 64, p (digit n))
    (bytes : List UInt8) : ∀ ch ∈ encode bytes, p ch := by
  intro ch h
  rcases mem_encode h with rfl | ⟨n, hn, rfl⟩
  · exact hpad
  · exact hdigit n hn

end Base64
