import RomeSdk.Proofs.StandIns
import RomeSdk.Utils.Rlp

/-!
# Each number has one item

The bytes that are left of a number are as many as it needs: a number with `n` significant
bits has `256 - n` leading zeros, and a whole zero byte is dropped for each eight of these. So
what is written has no leading zero byte and is read back, and bytes without one are those
that are written for the number they are read as.
-/

namespace RomeSdk

/-! ## The bytes of a number -/

/-- The last byte is the most significant one. -/
theorem leBytes_succ (width : Nat) : ∀ n, leBytes (width + 1) n
    = leBytes width n ++ [UInt8.ofNat (n / 256 ^ width % 256)] := by
  induction width with
  | zero =>
      intro n
      rw [Nat.pow_zero, Nat.div_one]
      rfl
  | succ width ih =>
      intro n
      rw [leBytes, ih, Nat.div_div_eq_div_mul, ← Nat.pow_succ', leBytes]
      rfl

theorem beBytes_succ (width n : Nat) :
    beBytes (width + 1) n = UInt8.ofNat (n / 256 ^ width % 256) :: beBytes width n := by
  rw [beBytes, leBytes_succ, List.reverse_append]
  rfl

theorem drop_beBytes (n : Nat) : ∀ width k, (beBytes width n).drop k = beBytes (width - k) n := by
  intro width
  induction width with
  | zero =>
      intro k
      rw [Nat.zero_sub]
      exact List.drop_nil
  | succ width ih =>
      intro k
      cases k with
      | zero => rfl
      | succ k => rw [beBytes_succ, List.drop_succ_cons, ih, Nat.succ_sub_succ]

/-- What is beyond the width is not written. -/
theorem leBytes_add_mul (width : Nat) :
    ∀ n m, leBytes width (m * 256 ^ width + n) = leBytes width n := by
  induction width with
  | zero => intro n m; rfl
  | succ width ih =>
      intro n m
      have hsplit : m * 256 ^ (width + 1) + n = 256 * (m * 256 ^ width) + n := by
        rw [Nat.pow_succ']
        rw [Nat.mul_left_comm]
      have hbyte : (256 * (m * 256 ^ width) + n) % 256 = n % 256 := by omega
      have hrest : (256 * (m * 256 ^ width) + n) / 256 = m * 256 ^ width + n / 256 := by omega
      rw [hsplit, leBytes, leBytes, hbyte, hrest, ih]

theorem beNat_beBytes (width n : Nat) : beNat (beBytes width n) = n % 256 ^ width := by
  rw [beBytes, beNat_reverse, leNat_leBytes]

theorem beNat_cons (x : UInt8) (b : Bytes) :
    beNat (x :: b) = x.toNat * 256 ^ b.length + beNat b := by
  show b.foldl (fun n x => 256 * n + x.toNat) (256 * 0 + x.toNat) = _
  rw [foldl_bytes, Nat.mul_zero, Nat.zero_add]

theorem beNat_lt (b : Bytes) : beNat b < 256 ^ b.length := by
  induction b with
  | nil => decide
  | cons x b ih =>
      have hx := x.toNat_lt
      rw [beNat_cons, List.length_cons, Nat.pow_succ']
      have hbyte : x.toNat * 256 ^ b.length ≤ 255 * 256 ^ b.length :=
        Nat.mul_le_mul_right _ (by omega)
      omega

theorem beNat_replicate_zero (k : Nat) (b : Bytes) : beNat (List.replicate k 0 ++ b) = beNat b := by
  induction k with
  | zero => rfl
  | succ k ih =>
      rw [List.replicate_succ, List.cons_append, beNat_cons, ih]
      exact (congrArg (· + beNat b) (Nat.zero_mul _)).trans (Nat.zero_add _)

/-- Bytes are the bytes of their number. -/
theorem beBytes_beNat (b : Bytes) : beBytes b.length (beNat b) = b := by
  induction b with
  | nil => rfl
  | cons x b ih =>
      have hlt := beNat_lt b
      have hbyte : (x.toNat * 256 ^ b.length + beNat b) / 256 ^ b.length = x.toNat := by
        have hpos : 0 < 256 ^ b.length := Nat.pow_pos (by decide)
        rw [Nat.mul_comm, Nat.mul_add_div hpos, Nat.div_eq_of_lt hlt, Nat.add_zero]
      rw [List.length_cons, beBytes_succ, beNat_cons, hbyte, Nat.mod_eq_of_lt x.toNat_lt,
        UInt8.ofNat_toNat, beBytes, leBytes_add_mul, ← beBytes, ih]

/-! ## As many bytes as a number needs -/

def significantBytes (n : Nat) : Nat := (Nat.size n + 7) / 8

theorem pow_256 (k : Nat) : 256 ^ k = 2 ^ (8 * k) := by
  rw [Nat.pow_mul]

theorem significantBytes_le {n k : Nat} : significantBytes n ≤ k ↔ n < 256 ^ k := by
  rw [pow_256, ← Nat.size_le, significantBytes]
  omega

/-- What is left of the 32 bytes once the leading zero bytes are dropped. -/
theorem significant_eq (x : U256) :
    (beBytes 32 x.toNat).drop (Rlp.leadingZeros x / 8)
      = beBytes (significantBytes x.toNat) x.toNat := by
  have hsize : Nat.size x.toNat ≤ 256 := Nat.size_le.mpr x.isLt
  rw [drop_beBytes, Rlp.leadingZeros, significantBytes]
  congr 1
  omega

theorem significantBytes_u256 (x : U256) : significantBytes x.toNat ≤ 32 := by
  have hlt : x.toNat < 256 ^ 32 := x.isLt
  exact significantBytes_le.mpr hlt

theorem head_significant {n : Nat} : (beBytes (significantBytes n) n).head? ≠ some 0 := by
  cases hwidth : significantBytes n with
  | zero => simp [beBytes, leBytes]
  | succ width =>
      have hlow : 256 ^ width ≤ n := by
        by_contra hlt
        have := significantBytes_le.mpr (Nat.lt_of_not_le hlt)
        omega
      have hhigh : n < 256 ^ (width + 1) := significantBytes_le.mp (Nat.le_of_eq hwidth)
      have hpos : 0 < n / 256 ^ width := Nat.div_pos hlow (Nat.pow_pos (by decide))
      have hbyte : n / 256 ^ width < 256 := by
        rw [Nat.pow_succ] at hhigh
        exact Nat.div_lt_of_lt_mul hhigh
      intro hzero
      rw [beBytes_succ, List.head?_cons, Option.some.injEq, ← UInt8.toNat_inj,
        UInt8.toNat_ofNat', UInt8.toNat_zero] at hzero
      omega

/-- Bytes without a leading zero byte are as many as their number needs. -/
theorem significantBytes_beNat {b : Bytes} (h : b.head? ≠ some 0) :
    significantBytes (beNat b) = b.length := by
  have hle : significantBytes (beNat b) ≤ b.length := significantBytes_le.mpr (beNat_lt b)
  cases b with
  | nil => rfl
  | cons x b =>
      have hx : 0 < x.toNat := by
        by_contra hnot
        have hzero : x = 0 := by
          rw [← UInt8.toNat_inj, UInt8.toNat_zero]
          omega
        exact h (by rw [hzero]; rfl)
      have hlow : 256 ^ b.length ≤ beNat (x :: b) := by
        rw [beNat_cons]
        have := Nat.mul_le_mul_right (256 ^ b.length) hx
        omega
      by_contra hne
      rw [List.length_cons] at hle hne
      have hfew : significantBytes (beNat (x :: b)) ≤ b.length := by omega
      have := significantBytes_le.mp hfew
      omega

/-! ## The two directions -/

namespace Rlp

variable {R : RlpCrate}

theorem toNat_fromBigEndian {b : Bytes} (h : b.length ≤ 32) :
    (U256.fromBigEndian b).toNat = beNat b := by
  have hlt : beNat b < 256 ^ 32 :=
    Nat.lt_of_lt_of_le (beNat_lt b) (Nat.pow_le_pow_right (by decide) h)
  rw [U256.fromBigEndian, BitVec.toNat_ofNat]
  exact Nat.mod_eq_of_lt hlt

/-- What the closure of `u256` accepts, and as what number. -/
theorem readU256_ok {b : Bytes} {y : U256} : readU256 b = .ok y ↔
    (b.length ≤ 32 ∧ b.head? ≠ some 0) ∧ y = U256.fromBigEndian b := by
  have hpadded : U256.fromBigEndian (List.replicate (32 - b.length) 0 ++ b)
      = U256.fromBigEndian b := by
    rw [U256.fromBigEndian, beNat_replicate_zero, ← U256.fromBigEndian]
  rw [readU256, hpadded]
  by_cases hhead : b.head? = some 0
  · rw [if_pos hhead]
    simp [hhead]
  · rw [if_neg hhead]
    by_cases hlen : b.length ≤ 32
    · rw [if_pos hlen]
      simp [hlen, hhead, eq_comm]
    · rw [if_neg hlen]
      simp [hlen]

/-- The bytes that are written for a number have no leading zero byte and are read as it. -/
theorem readU256_significant (x : U256) :
    readU256 (beBytes (significantBytes x.toNat) x.toNat) = .ok x := by
  have hlen : (beBytes (significantBytes x.toNat) x.toNat).length ≤ 32 := by
    rw [length_beBytes]
    exact significantBytes_u256 x
  refine readU256_ok.mpr ⟨⟨hlen, head_significant⟩, ?_⟩
  apply BitVec.eq_of_toNat_eq
  rw [toNat_fromBigEndian hlen, beNat_beBytes,
    Nat.mod_eq_of_lt (significantBytes_le.mp (Nat.le_refl _))]

theorem u256_rlp_canonical (hR : ∀ b : Bytes, b.length ≤ 32 → R.decodeValue (R.append b) = .ok b) :
    (∀ x, u256 R (u256RlpAppend R x) = .ok x) ∧
      ∀ item b, R.decodeValue item = .ok b →
        ((∃ y, u256 R item = .ok y) ↔ b.length ≤ 32 ∧ b.head? ≠ some 0) ∧
        ∀ y, u256 R item = .ok y → R.decodeValue (u256RlpAppend R y) = .ok b := by
  have hwritten : ∀ x, R.decodeValue (u256RlpAppend R x)
      = .ok (beBytes (significantBytes x.toNat) x.toNat) := by
    intro x
    show R.decodeValue (R.append ((beBytes 32 x.toNat).drop (leadingZeros x / 8))) = _
    rw [significant_eq]
    refine hR _ ?_
    rw [length_beBytes]
    exact significantBytes_u256 x
  refine ⟨?_, ?_⟩
  · intro x
    show (R.decodeValue (u256RlpAppend R x)).bind readU256 = _
    rw [hwritten]
    exact readU256_significant x
  · intro item b hitem
    have hread : u256 R item = readU256 b := by
      show (R.decodeValue item).bind readU256 = _
      rw [hitem]
      rfl
    refine ⟨?_, ?_⟩
    · rw [hread]
      exact ⟨fun ⟨y, hy⟩ => (readU256_ok.mp hy).1, fun hb => ⟨_, readU256_ok.mpr ⟨hb, rfl⟩⟩⟩
    · intro y hy
      rw [hread] at hy
      obtain ⟨⟨hlen, hhead⟩, rfl⟩ := readU256_ok.mp hy
      rw [hwritten, toNat_fromBigEndian hlen, significantBytes_beNat hhead, beBytes_beNat]

/-! ## The crate on short strings -/

/-- Strings of up to 55 bytes, as the crate writes and reads them. -/
def shortStrings : RlpCrate where
  append b :=
    if b.length = 1 ∧ b.head?.any (· < 0x80) then b
    else UInt8.ofNat (0x80 + b.length) :: b
  decodeValue item :=
    match item with
    | [] => .error (.other "RlpIsTooShort")
    | l :: b =>
        if l < 0x80 then .ok [l]
        else if 0xb8 ≤ l then .error (.other "RlpExpectedToBeData")
        else if b.length < l.toNat - 0x80 then .error (.other "RlpInconsistentLengthAndData")
        else if l = 0x81 ∧ b.head?.any (· < 0x80) then .error .rlpInvalidIndirection
        else .ok (b.take (l.toNat - 0x80))

theorem shortStrings_append {b : Bytes} (h : b.length ≤ 32) :
    shortStrings.decodeValue (shortStrings.append b) = .ok b := by
  simp only [shortStrings]
  by_cases hbyte : b.length = 1 ∧ b.head?.any (· < 0x80) = true
  · obtain ⟨x, rfl⟩ := List.length_eq_one_iff.mp hbyte.1
    have hx : x < 0x80 := by simpa using hbyte.2
    rw [if_pos hbyte]
    exact if_pos hx
  · rw [if_neg hbyte]
    have hl : (UInt8.ofNat (0x80 + b.length)).toNat = 128 + b.length := by
      rw [UInt8.toNat_ofNat']
      omega
    have hstring : ¬ UInt8.ofNat (0x80 + b.length) < 0x80 := by
      rw [UInt8.lt_iff_toNat_lt, hl]
      show ¬ 128 + b.length < 128
      omega
    have hshort : ¬ 0xb8 ≤ UInt8.ofNat (0x80 + b.length) := by
      rw [UInt8.le_iff_toNat_le, hl]
      show ¬ 184 ≤ 128 + b.length
      omega
    have hfull : ¬ b.length < (UInt8.ofNat (0x80 + b.length)).toNat - 0x80 := by omega
    have hcanon : ¬ (UInt8.ofNat (0x80 + b.length) = 0x81 ∧ b.head?.any (· < 0x80) = true) := by
      rintro ⟨hone, hhead⟩
      have hlen := congrArg UInt8.toNat hone
      rw [hl] at hlen
      have hlen : b.length = 1 := by
        have heq : (0x81 : UInt8).toNat = 129 := rfl
        omega
      exact hbyte ⟨hlen, hhead⟩
    simp only [if_neg hstring, if_neg hshort, if_neg hfull, if_neg hcanon]
    rw [hl, Nat.add_sub_cancel_left, List.take_length]

theorem u256_rlp_canonical_short :
    u256 shortStrings (u256RlpAppend shortStrings 256) = .ok 256 ∧
      ((∃ y, u256 shortStrings (shortStrings.append [0, 1]) = .ok y) ↔
        [0, 1].length ≤ 32 ∧ ([0, 1] : Bytes).head? ≠ some 0) := by
  obtain ⟨hround, hitems⟩ :=
    u256_rlp_canonical (R := shortStrings) fun b hb => shortStrings_append hb
  exact ⟨hround 256, (hitems _ [0, 1] (shortStrings_append (by decide))).1⟩

end Rlp

end RomeSdk
