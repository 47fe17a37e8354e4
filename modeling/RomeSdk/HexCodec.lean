import RomeSdk.Indexer.RollupIndexer
import RomeSdk.Lib.Texts
import RomeSdk.Proofs.StandIns

/-!
# Hashes as text

Hashes travel to the database and to op-geth as hexadecimal texts. Writing and
reading them belongs to the Ethereum types library; what it says of the two is
`HexCodec.Documented`, and `PlainHex.codec` is a codec of this kind.
-/

namespace RomeSdk

/-- How the Ethereum types library writes and reads a hash. -/
structure HexCodec where
  /-- `hash.encode_hex()` -/
  encodeHex : H256 → String
  /-- `H256::from_str` -/
  fromStr : String → Option H256

/-- What the Ethereum types library says of its texts. -/
structure HexCodec.Documented (H : HexCodec) : Prop where
  /-- `0x` and the digits of all bytes. -/
  written : ∀ hash, H.encodeHex hash = hash.debug
  read : ∀ hash, H.fromStr (H.encodeHex hash) = some hash
  /-- A text with anything but digits, the prefix and blanks is no hash. -/
  rejects : ∀ text, (∃ c ∈ text.toList, Texts.hexDigit c = none ∧ c ≠ 'x' ∧ c.isWhitespace = false) →
    H.fromStr text = none

namespace H256

theorem toList_debug (hash : H256) :
    hash.debug.toList = '0' :: 'x' :: Texts.hexDigits (beBytes 32 hash.toNat) := by
  rw [debug, String.toList_append,
    String.toList_ofList (l := (beBytes 32 hash.toNat).flatMap _)]
  rfl

theorem length_debug (hash : H256) : hash.debug.toList.length = 66 := by
  rw [toList_debug, List.length_cons, List.length_cons, Texts.length_hexDigits, length_beBytes]

theorem comma_notMem_debug (hash : H256) : ',' ∉ hash.debug.toList := by
  rw [toList_debug]
  intro h
  rcases List.mem_cons.mp h with h | h
  · cases h
  · rcases List.mem_cons.mp h with h | h
    · cases h
    · obtain ⟨n, _, hn⟩ := Texts.hexDigit_of_mem h
      cases hn

end H256

/-! ## A codec -/

namespace PlainHex

/-- Without the prefix and the blanks. -/
def digitsOf (text : String) : List Char :=
  let digits := match text.toList with
    | '0' :: 'x' :: rest => rest
    | rest => rest
  digits.filter fun c => !c.isWhitespace

def codec : HexCodec where
  encodeHex := H256.debug
  fromStr text := (Texts.readHex (digitsOf text)).bind fun bytes =>
    if bytes.length = 32 then some (H256.fromSlice bytes) else none

theorem digitsOf_debug (hash : H256) :
    digitsOf hash.debug = Texts.hexDigits (beBytes 32 hash.toNat) := by
  rw [digitsOf, H256.toList_debug]
  refine List.filter_eq_self.mpr fun c hc => ?_
  obtain ⟨n, _, hn⟩ := Texts.hexDigit_of_mem hc
  rw [Bool.not_eq_true', Bool.eq_false_iff]
  intro hblank
  simp only [Char.isWhitespace, Bool.or_eq_true, decide_eq_true_eq] at hblank
  rcases hblank with ((rfl | rfl) | rfl) | rfl <;> cases hn

theorem codec_documented : codec.Documented where
  written _ := rfl
  read hash := by
    have hlength : (beBytes 32 hash.toNat).length = 32 := by
      rw [beBytes, List.length_reverse, length_leBytes]
    simp only [codec, digitsOf_debug, Texts.readHex_hexDigits, Option.bind_some, if_pos hlength,
      H256.fromSlice_beBytes]
  rejects text h := by
    obtain ⟨c, hc, hdigit, hx, hblank⟩ := h
    have hkept : c ∈ digitsOf text := by
      refine List.mem_filter.mpr ⟨?_, by rw [hblank]; rfl⟩
      split
      · next rest htext =>
        rw [htext] at hc
        rcases List.mem_cons.mp hc with rfl | hc
        · cases hdigit
        · exact (List.mem_cons.mp hc).resolve_left hx
      · exact hc
    cases hread : Texts.readHex (digitsOf text) with
    | none => simp only [codec, hread, Option.bind_none]
    | some bytes => exact absurd hdigit (Texts.hexDigit_of_readHex hread c hkept)

end PlainHex

end RomeSdk
