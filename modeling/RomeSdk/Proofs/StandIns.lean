import RomeSdk.Lib.Base64
import RomeSdk.Tx.TransmitTx

/-!
# Crates to run the model with

What is assumed of the crates is assumed of a parameter. Here are functions that
meet the assumptions: the layout of the transmit instruction read back field by
field, and hashes and codecs simple enough to evaluate. `standIns` decodes nothing
but what the runs on concrete inputs need, and answers everything else with an error.
-/

namespace RomeSdk

theorem leNat_leBytes (width : Nat) : ∀ n, leNat (leBytes width n) = n % 256 ^ width := by
  induction width with
  | zero => intro n; rw [Nat.pow_zero, Nat.mod_one]; rfl
  | succ width ih =>
      intro n
      have hbyte : (UInt8.ofNat (n % 256)).toNat = n % 256 := by
        rw [UInt8.toNat_ofNat']
        omega
      rw [leBytes, leNat, ih, hbyte, Nat.pow_succ, Nat.mul_comm (256 ^ width) 256, Nat.mod_mul]

theorem length_leBytes (width : Nat) : ∀ n, (leBytes width n).length = width := by
  induction width with
  | zero => intro n; rfl
  | succ width ih => intro n; rw [leBytes, List.length_cons, ih]

theorem length_beBytes (width n : Nat) : (beBytes width n).length = width := by
  rw [beBytes, List.length_reverse, length_leBytes]

theorem beNat_reverse (b : Bytes) : beNat b.reverse = leNat b := by
  rw [beNat, List.foldl_reverse]
  induction b with
  | nil => rfl
  | cons x xs ih =>
      rw [List.foldr_cons, leNat, ih]
      omega

theorem H256.fromSlice_beBytes (h : H256) : H256.fromSlice (beBytes 32 h.toNat) = h := by
  rw [H256.fromSlice, beBytes, beNat_reverse, leNat_leBytes]
  apply BitVec.eq_of_toNat_eq
  have := h.isLt
  rw [BitVec.toNat_ofNat]
  omega

namespace TransmitTx

/-- The fields of `layout`, read back one after the other. -/
def readLayout (data : Bytes) : Except String (Nat × TxHash × Nat × Bytes) :=
  if data.length < 56 then .error "ShortData"
  else
    let afterHolder := data.drop 8
    let afterOffset := afterHolder.drop 8
    let afterHash := afterOffset.drop 32
    .ok (leNat (afterHolder.take 8), H256.fromSlice (afterOffset.take 32),
      leNat (afterHash.take 8), afterHash.drop 8)

theorem readLayout_layout {holder : UInt64} {offset : Nat} (hash : TxHash) (chainId : UInt64)
    (bin : Bytes) (hoffset : offset ≤ usizeMax) :
    readLayout (layout (leBytes 8 holder.toNat) offset hash chainId bin)
      = .ok (offset, hash, chainId.toNat, bin) := by
  have hlong : ¬ (layout (leBytes 8 holder.toNat) offset hash chainId bin).length < 56 := by
    simp only [layout, List.length_append, length_leBytes, length_beBytes]
    omega
  have hhash : (beBytes 32 hash.toNat).length = 32 := length_beBytes 32 _
  have hsmall : offset < 256 ^ 8 := by
    have : usizeMax < 256 ^ 8 := by decide
    omega
  have hchain : chainId.toNat < 256 ^ 8 := chainId.toNat_lt
  rw [readLayout, if_neg hlong]
  simp only [layout, List.append_assoc]
  rw [List.drop_left' (length_leBytes 8 _), List.drop_left' (length_leBytes 8 _),
    List.drop_left' hhash, List.drop_left' (length_leBytes 8 _),
    List.take_left' (length_leBytes 8 _), List.take_left' hhash,
    List.take_left' (length_leBytes 8 _), leNat_leBytes, leNat_leBytes,
    Nat.mod_eq_of_lt hsmall, Nat.mod_eq_of_lt hchain, H256.fromSlice_beBytes]

end TransmitTx

/-- A transaction with nothing but its hash. -/
def bareTx (hash : TxHash) : Transaction :=
  ⟨hash, 0, none, none, none, 0, none, 0, false, none, none, []⟩

/-- The value of a character of the standard base64 alphabet. -/
def base64Value (c : Char) : Option Nat :=
  if 'A' ≤ c ∧ c ≤ 'Z' then some (c.toNat - 'A'.toNat)
  else if 'a' ≤ c ∧ c ≤ 'z' then some (c.toNat - 'a'.toNat + 26)
  else if '0' ≤ c ∧ c ≤ '9' then some (c.toNat - '0'.toNat + 52)
  else if c = '+' then some 62
  else if c = '/' then some 63
  else none

/-- Padded base64, in groups of four characters. -/
def base64Groups : List Char → Option Bytes
  | [] => some []
  | [a, b, '=', '='] => do
      let n := 64 * (← base64Value a) + (← base64Value b)
      if n % 16 = 0 then some [UInt8.ofNat (n / 16)] else none
  | [a, b, c, '='] => do
      let n := 4096 * (← base64Value a) + 64 * (← base64Value b) + (← base64Value c)
      if n % 4 = 0 then some [UInt8.ofNat (n / 1024), UInt8.ofNat (n / 4)] else none
  | a :: b :: c :: d :: rest => do
      let n := 262144 * (← base64Value a) + 4096 * (← base64Value b) + 64 * (← base64Value c)
        + (← base64Value d)
      let bytes ← base64Groups rest
      some (UInt8.ofNat (n / 65536) :: UInt8.ofNat (n / 256) :: UInt8.ofNat n :: bytes)
  | _ => none

theorem base64Value_digit {n : Nat} (h : n < 64) : base64Value (Base64.digit n) = some n := by
  have hall : ∀ n < 64, base64Value (Base64.digit n) = some n := by decide
  exact hall n h

theorem ofNat_eq_of_mod {a : UInt8} {n : Nat} (h : n % 256 = a.toNat) : UInt8.ofNat n = a := by
  apply UInt8.toNat_inj.mp
  rw [UInt8.toNat_ofNat']
  exact h

/-- Four characters that are digits are read as three bytes. -/
theorem base64Groups_group (a b c : UInt8) (rest : List Char) :
    base64Groups (Base64.group a b c ++ rest)
      = (base64Groups rest).map fun bytes => a :: b :: c :: bytes := by
  have ha := a.toNat_lt
  have hb := b.toNat_lt
  have hc := c.toNat_lt
  have h1 : a.toNat / 4 < 64 := by omega
  have h2 : a.toNat % 4 * 16 + b.toNat / 16 < 64 := by omega
  have h3 : b.toNat % 16 * 4 + c.toNat / 64 < 64 := by omega
  have h4 : c.toNat % 64 < 64 := by omega
  simp only [Base64.group, List.cons_append, List.nil_append]
  rw [base64Groups]
  · simp only [base64Value_digit h1, base64Value_digit h2, base64Value_digit h3, base64Value_digit h4,
      Option.bind_eq_bind, Option.bind_some]
    rw [ofNat_eq_of_mod (a := a) (by omega), ofNat_eq_of_mod (a := b) (by omega),
      ofNat_eq_of_mod (a := c) (by omega)]
    cases base64Groups rest <;> rfl
  · intro h3' h4' _
    exact Base64.digit_ne_pad h4 h4'
  · intro h4' _
    exact Base64.digit_ne_pad h4 h4'

theorem base64Groups_encode (bytes : Bytes) : base64Groups (Base64.encode bytes) = some bytes := by
  induction bytes using Base64.encode.induct with
  | case1 => rfl
  | case2 a =>
      have ha := a.toNat_lt
      have h1 : a.toNat / 4 < 64 := by omega
      have h2 : a.toNat % 4 * 16 + 0 / 16 < 64 := by omega
      simp only [Base64.encode, Base64.group, List.take_succ_cons, List.take_zero, List.cons_append,
        List.nil_append, UInt8.toNat_zero, base64Groups, base64Value_digit h1, base64Value_digit h2,
        Option.bind_eq_bind, Option.bind_some]
      rw [if_pos (by omega), ofNat_eq_of_mod (a := a) (by omega)]
  | case3 a b =>
      have ha := a.toNat_lt
      have hb := b.toNat_lt
      have h1 : a.toNat / 4 < 64 := by omega
      have h2 : a.toNat % 4 * 16 + b.toNat / 16 < 64 := by omega
      have h3 : b.toNat % 16 * 4 + 0 / 64 < 64 := by omega
      simp only [Base64.encode, Base64.group, List.take_succ_cons, List.take_zero, List.cons_append,
        List.nil_append, UInt8.toNat_zero]
      rw [base64Groups]
      · simp only [base64Value_digit h1, base64Value_digit h2, base64Value_digit h3,
          Option.bind_eq_bind, Option.bind_some]
        rw [if_pos (by omega), ofNat_eq_of_mod (a := a) (by omega), ofNat_eq_of_mod (a := b) (by omega)]
      · exact Base64.digit_ne_pad h3
  | case4 a b c rest ih =>
      rw [Base64.encode, base64Groups_group, ih, Option.map_some]

/-- The bytes of an ASCII text. -/
def ascii (s : String) : Bytes := s.toList.map fun c => UInt8.ofNat c.toNat

/-- The number of the bytes, in the place of a digest. -/
def digest (b : Bytes) : H256 := BitVec.ofNat 256 (beNat b)

theorem foldl_bytes (b : Bytes) : ∀ n : Nat,
    b.foldl (fun n x => 256 * n + x.toNat) n = n * 256 ^ b.length + beNat b := by
  induction b with
  | nil => intro n; simp [beNat]
  | cons x b ih =>
      intro n
      have hhead : beNat (x :: b) = x.toNat * 256 ^ b.length + beNat b := by
        rw [beNat, List.foldl_cons, ih]
        simp
      rw [List.foldl_cons, ih, hhead, List.length_cons, Nat.pow_succ, Nat.add_mul, Nat.add_assoc,
        Nat.mul_comm 256 n, Nat.mul_assoc, Nat.mul_comm 256]

/-- The digest of bytes that end in a number of 32 bytes is this number. -/
theorem digest_append (b : Bytes) (h : H256) : digest (b ++ beBytes 32 h.toNat) = h := by
  have hlength : (beBytes 32 h.toNat).length = 32 := length_beBytes 32 _
  have hnumber := H256.fromSlice_beBytes h
  apply BitVec.eq_of_toNat_eq
  have hnat := congrArg BitVec.toNat hnumber
  rw [H256.fromSlice, BitVec.toNat_ofNat] at hnat
  rw [digest, beNat, List.foldl_append, foldl_bytes, hlength, BitVec.toNat_ofNat,
    show (256 : Nat) ^ 32 = 2 ^ 256 from rfl, Nat.mul_add_mod_self_right, hnat]

def standIns : Crates where
  ethers := {
    decode := fun b => if b.isEmpty then .error "RlpIsTooShort" else .ok (bareTx (digest b))
    recoverFrom := fun _ => .ok 0
    hash := fun tx => tx.hash
    depositRlp := fun tx => tx.data
    keccak256 := digest }
  romeEvm := {
    tag := fun
      | .doTx => 0
      | .transmitTx => 1
      | .doTxHolder => 2
      | .doTxIterative => 3
      | .doTxHolderIterative => 4
      | .deposit => 5
    EVENT_LOG := ascii "EVENT_LOG"
    EXIT_REASON := ascii "EXIT_REASON"
    GAS_VALUE := ascii "GAS_VALUE"
    GAS_PRICE := ascii "GAS_PRICE"
    GAS_RECIPIENT := ascii "GAS_RECIPIENT"
    splitFee := fun b => .ok (b.drop 1)
    depositArgs := fun _ => .error "InvalidInstructionData"
    doTxIterativeArgs := fun _ => .error "InvalidInstructionData"
    doTxHolderArgs := fun b => .ok (H256.fromSlice (b.take 32), leNat ((b.drop 32).take 8))
    doTxHolderIterativeArgs := fun _ => .error "InvalidInstructionData"
    transmitTxArgs := TransmitTx.readLayout }
  base64Decode := fun cs => match base64Groups cs with
    | some bytes => .ok bytes
    | none => .error "InvalidLength"
  bs58Decode := fun s => some (ascii s)

theorem standIns_invertsLayout : standIns.romeEvm.InvertsLayout :=
  fun _ _ hash chainId bin hoffset => TransmitTx.readLayout_layout hash chainId bin hoffset

/-- The transmission of an rlp under hash 9. -/
def transmitOf (rlp : Bytes) : TransmitTx where
  txBuilder := ⟨1001, 7, fun _ _ => .ok []⟩
  rlp := rlp
  hash := 9
  resource := ⟨0, 3⟩

end RomeSdk
