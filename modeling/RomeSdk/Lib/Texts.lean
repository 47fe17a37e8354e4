import Mathlib.Data.List.Basic

/-!
# Numbers and bytes as text

Bytes are written as pairs of hexadecimal digits and numbers in decimal. Each of
the two is read back by a reader that may refuse a text, and what is said of a
written text beside that is what a reader of a longer text around it needs: which
characters it can have, and how long it is.
-/

namespace Texts

/-! ## Hexadecimal digits -/

def hexDigit (c : Char) : Option Nat :=
  if c.isDigit then some (c.toNat - '0'.toNat)
  else if 'a' ≤ c ∧ c ≤ 'f' then some (c.toNat - 'a'.toNat + 10)
  else if 'A' ≤ c ∧ c ≤ 'F' then some (c.toNat - 'A'.toNat + 10)
  else none

def hexPair (b : UInt8) : List Char := [Nat.digitChar (b.toNat / 16), Nat.digitChar (b.toNat % 16)]

def hexDigits (bytes : List UInt8) : List Char := bytes.flatMap hexPair

def readHex : List Char → Option (List UInt8)
  | [] => some []
  | [_] => none
  | high :: low :: text => do
      let h ← hexDigit high
      let l ← hexDigit low
      let bytes ← readHex text
      pure (UInt8.ofNat (16 * h + l) :: bytes)

theorem hexDigit_digitChar {n : Nat} (h : n < 16) : hexDigit (Nat.digitChar n) = some n := by
  have hall : ∀ n < 16, hexDigit (Nat.digitChar n) = some n := by decide
  exact hall n h

theorem hexDigits_cons (b : UInt8) (bytes : List UInt8) :
    hexDigits (b :: bytes)
      = Nat.digitChar (b.toNat / 16) :: Nat.digitChar (b.toNat % 16) :: hexDigits bytes := rfl

theorem readHex_hexDigits (bytes : List UInt8) : readHex (hexDigits bytes) = some bytes := by
  induction bytes with
  | nil => rfl
  | cons b bytes ih =>
      have hlt : b.toNat < 256 := b.toNat_lt
      have hhigh : b.toNat / 16 < 16 := by omega
      have hlow : b.toNat % 16 < 16 := Nat.mod_lt _ (by omega)
      have hbyte : UInt8.ofNat (16 * (b.toNat / 16) + b.toNat % 16) = b := by
        rw [Nat.div_add_mod, UInt8.ofNat_toNat]
      rw [hexDigits_cons, readHex, hexDigit_digitChar hhigh, hexDigit_digitChar hlow, ih]
      simp only [Option.bind_eq_bind, Option.bind_some, hbyte]
      rfl

theorem hexDigit_of_readHex {text : List Char} : ∀ {bytes : List UInt8}, readHex text = some bytes →
    ∀ c ∈ text, hexDigit c ≠ none := by
  induction text using readHex.induct with
  | case1 =>
      intro _ _ c hc
      cases hc
  | case2 =>
      intro _ h
      cases h
  | case3 high low text ih =>
      intro bytes h c hc
      rw [readHex] at h
      obtain ⟨x, hhigh, h⟩ := Option.bind_eq_some_iff.mp h
      obtain ⟨y, hlow, h⟩ := Option.bind_eq_some_iff.mp h
      obtain ⟨rest, hrest, _⟩ := Option.bind_eq_some_iff.mp h
      rcases List.mem_cons.mp hc with rfl | hc
      · rw [hhigh]
        exact Option.some_ne_none x
      · rcases List.mem_cons.mp hc with rfl | hc
        · rw [hlow]
          exact Option.some_ne_none y
        · exact ih hrest c hc

theorem length_hexDigits (bytes : List UInt8) : (hexDigits bytes).length = 2 * bytes.length := by
  induction bytes with
  | nil => rfl
  | cons b bytes ih =>
      rw [hexDigits_cons, List.length_cons, List.length_cons, ih, List.length_cons]
      omega

theorem hexDigit_of_mem {bytes : List UInt8} {c : Char} (h : c ∈ hexDigits bytes) :
    ∃ n, n < 16 ∧ hexDigit c = some n := by
  obtain ⟨b, _, hc⟩ := List.mem_flatMap.mp h
  have hlt : b.toNat < 256 := b.toNat_lt
  rcases List.mem_cons.mp hc with rfl | hc
  · exact ⟨b.toNat / 16, by omega, hexDigit_digitChar (by omega)⟩
  · rw [List.mem_singleton.mp hc]
    exact ⟨b.toNat % 16, by omega, hexDigit_digitChar (by omega)⟩

/-! ## Decimals -/

def readDecimal (text : List Char) : Option Nat :=
  if text ≠ [] ∧ text.all Char.isDigit then some (Nat.ofDigitChars 10 text 0) else none

theorem isDigit_of_mem_toString {n : Nat} {c : Char} (h : c ∈ (toString n).toList) :
    c.isDigit = true := by
  rw [Nat.toString_eq_repr, Nat.toList_repr] at h
  exact Nat.isDigit_of_mem_toDigits (by omega) (by omega) h

theorem toString_ne_nil (n : Nat) : (toString n).toList ≠ [] := by
  rw [Nat.toString_eq_repr, Nat.toList_repr]
  exact Nat.toDigits_ne_nil

theorem readDecimal_toString (n : Nat) : readDecimal (toString n).toList = some n := by
  have hdigits : (toString n).toList.all Char.isDigit = true :=
    List.all_eq_true.mpr fun c hc => isDigit_of_mem_toString hc
  rw [readDecimal, if_pos ⟨toString_ne_nil n, hdigits⟩, Nat.toString_eq_repr, Nat.toList_repr,
    Nat.ofDigitChars_ten_toDigits]

end Texts
