import RomeSdk.Lib.Texts
import RomeSdk.Proofs.StandIns

/-!
# The Celestia namespace of a rollup

`get_namespace` names a rollup `rome_` with the hexadecimal digits of its chain
id behind it, and `string_to_base64_namespace` makes ten bytes of the name: the
first ten of a longer one, and a shorter one behind zero bytes. The five letters
of the prefix leave room for five digits. So the namespaces of two rollups differ
exactly if the first five digits of their chain ids do, and from six digits on
the last ones count for nothing.
-/

namespace RomeSdk

/-- `hex::encode` of the UTF-8 bytes of a text. -/
def utf8 (text : List Char) : Bytes := text.flatMap String.utf8EncodeChar

/-- `format!("{:x}", n)`. -/
def lowerHex (n : UInt64) : List Char := Nat.toDigits 16 n.toNat

/-- Why there would be no namespace. -/
inductive NamespaceFailure where
  | fromHexError
  | copyFromSlice
  deriving DecidableEq, Repr

def stringToBase64Namespace (input : List Char) : Except NamespaceFailure (List Char) := do
  let hexString := Texts.hexDigits (utf8 input)
  let userIdHex :=
    if hexString.length ≥ 20 then hexString.take 20
    else List.replicate (20 - hexString.length) '0' ++ hexString
  match Texts.readHex userIdHex with
  | none => throw .fromHexError
  | some userIdBytes =>
      -- `namespace_bytes[19..]` has ten places
      if userIdBytes.length = 10 then
        pure (Base64.encode (List.replicate 19 0 ++ userIdBytes))
      else throw .copyFromSlice

structure RomeDaClient where
  chainId : UInt64

def RomeDaClient.getNamespace (c : RomeDaClient) : Except NamespaceFailure (List Char) :=
  stringToBase64Namespace ("rome_".toList ++ lowerHex c.chainId)

/-! ## The ten bytes of a name -/

/-- The first ten bytes, behind as many zero bytes as are missing. -/
def userId (name : Bytes) : Bytes := List.replicate (10 - name.length) 0 ++ name.take 10

theorem length_userId (name : Bytes) : (userId name).length = 10 := by
  rw [userId, List.length_append, List.length_replicate, List.length_take]
  omega

theorem userId_take (name : Bytes) : userId (name.take 10) = userId name := by
  have hmissing : 10 - (name.take 10).length = 10 - name.length := by
    rw [List.length_take]
    omega
  rw [userId, hmissing, List.take_take, Nat.min_self, ← userId]

theorem hexDigits_take (bytes : Bytes) :
    ∀ n, Texts.hexDigits (bytes.take n) = (Texts.hexDigits bytes).take (2 * n) := by
  induction bytes with
  | nil =>
      intro n
      have hnil : Texts.hexDigits [] = [] := rfl
      rw [List.take_nil, hnil, List.take_nil]
  | cons b bytes ih =>
      intro n
      cases n with
      | zero => rfl
      | succ n =>
          rw [List.take_succ_cons, Texts.hexDigits_cons, Texts.hexDigits_cons, ih,
            show 2 * (n + 1) = 2 * n + 1 + 1 by omega, List.take_succ_cons, List.take_succ_cons]

theorem hexDigits_replicate_zero (n : Nat) (bytes : Bytes) :
    Texts.hexDigits (List.replicate n 0 ++ bytes)
      = List.replicate (2 * n) '0' ++ Texts.hexDigits bytes := by
  induction n with
  | zero => rfl
  | succ n ih =>
      rw [List.replicate_succ, List.cons_append, Texts.hexDigits_cons, ih,
        show 2 * (n + 1) = 2 * n + 1 + 1 by omega, List.replicate_succ, List.replicate_succ]
      rfl

theorem stringToBase64Namespace_eq (input : List Char) :
    stringToBase64Namespace input
      = .ok (Base64.encode (List.replicate 19 0 ++ userId (utf8 input))) := by
  have hhex : (if (Texts.hexDigits (utf8 input)).length ≥ 20 then
        (Texts.hexDigits (utf8 input)).take 20
      else List.replicate (20 - (Texts.hexDigits (utf8 input)).length) '0'
        ++ Texts.hexDigits (utf8 input)) = Texts.hexDigits (userId (utf8 input)) := by
    rw [userId, hexDigits_replicate_zero, hexDigits_take, Texts.length_hexDigits]
    split
    · next hlong =>
      rw [Nat.sub_eq_zero_of_le (by omega : 10 ≤ (utf8 input).length)]
      rfl
    · next hshort =>
      have hall : (Texts.hexDigits (utf8 input)).length ≤ 2 * 10 := by
        rw [Texts.length_hexDigits]
        omega
      rw [List.take_of_length_le hall, Nat.mul_sub]
  simp only [stringToBase64Namespace, hhex, Texts.readHex_hexDigits, length_userId, if_true]
  rfl

theorem encode_injective : Function.Injective Base64.encode := by
  intro a b h
  have hread := congrArg base64Groups h
  rw [base64Groups_encode, base64Groups_encode] at hread
  exact Option.some.inj hread

/-- A name that does not begin with a zero byte can be told from its padding. -/
theorem userId_inj {x : UInt8} (hx : x ≠ 0) {name name' : Bytes}
    (h : userId (x :: name) = userId (x :: name')) : name.take 9 = name'.take 9 := by
  have hstrip : ∀ tail : Bytes,
      (userId (x :: tail)).dropWhile (fun b => decide (b = 0)) = x :: tail.take 9 := by
    intro tail
    rw [userId, List.dropWhile_append_of_pos, List.take_succ_cons, List.dropWhile_cons_of_neg]
    · simpa using hx
    · intro b hb
      simpa using (List.mem_replicate.mp hb).2
  have htails := congrArg (List.dropWhile fun b => decide (b = 0)) h
  rw [hstrip, hstrip] at htails
  exact (List.cons.inj htails).2

/-! ## The digits of a chain id -/

theorem digitChar_of_mem_toDigits {c : Char} :
    ∀ {n : Nat}, c ∈ Nat.toDigits 16 n → ∃ d, d < 16 ∧ c = Nat.digitChar d := by
  intro n
  induction n using Nat.strongRecOn with
  | _ n ih =>
      intro h
      rw [Nat.toDigits_eq_if (by omega)] at h
      split at h
      · next hlt => exact ⟨n, hlt, List.mem_singleton.mp h⟩
      · next hge =>
        rcases List.mem_append.mp h with h | h
        · exact ih (n / 16) (by omega) h
        · exact ⟨n % 16, Nat.mod_lt _ (by omega), List.mem_singleton.mp h⟩

/-- The byte of an ASCII character. -/
def asciiByte (c : Char) : UInt8 := UInt8.ofNat c.toNat

theorem utf8EncodeChar_ascii {c : Char} (h : c.toNat < 128) :
    String.utf8EncodeChar c = [asciiByte c] := by
  have hle : c.toNat ≤ 127 := Nat.le_of_lt_succ h
  simp [String.utf8EncodeChar, asciiByte, hle]

theorem ascii_of_mem_lowerHex {id : UInt64} {c : Char} (h : c ∈ lowerHex id) : c.toNat < 128 := by
  obtain ⟨d, hd, rfl⟩ := digitChar_of_mem_toDigits h
  have hall : ∀ d < 16, (Nat.digitChar d).toNat < 128 := by decide
  exact hall d hd

theorem utf8_lowerHex (id : UInt64) : utf8 (lowerHex id) = (lowerHex id).map asciiByte := by
  rw [utf8, List.map_eq_flatMap]
  exact List.flatMap_congr fun c hc => utf8EncodeChar_ascii (ascii_of_mem_lowerHex hc)

/-- The bytes of five digits are those of five digits only. -/
theorem take_asciiByte_inj {a b : UInt64} {n : Nat}
    (h : ((lowerHex a).map asciiByte).take n = ((lowerHex b).map asciiByte).take n) :
    (lowerHex a).take n = (lowerHex b).take n := by
  have hback : ∀ id : UInt64, (((lowerHex id).map asciiByte).take n).map
      (fun byte => Char.ofNat byte.toNat) = (lowerHex id).take n := by
    intro id
    rw [← List.map_take, List.map_map]
    refine (List.map_congr_left fun c hc => ?_).trans (List.map_id _)
    have hascii := ascii_of_mem_lowerHex (List.mem_of_mem_take hc)
    rw [Function.comp_apply, asciiByte,
      UInt8.toNat_ofNat_of_lt' (Nat.lt_trans hascii (by decide)), Char.ofNat_toNat]
    rfl
  rw [← hback a, h, hback b]

/-! ## The namespaces of two rollups -/

/-- The bytes of `rome` behind the first of its letters, and the underscore. -/
def prefixTail : Bytes := [111, 109, 101, 95]

theorem utf8_name (id : UInt64) :
    utf8 ("rome_".toList ++ lowerHex id)
      = 114 :: (prefixTail ++ (lowerHex id).map asciiByte) := by
  rw [utf8, List.flatMap_append, ← utf8, ← utf8, utf8_lowerHex]
  rfl

theorem take_name (id : UInt64) :
    (prefixTail ++ (lowerHex id).map asciiByte).take 9
      = prefixTail ++ ((lowerHex id).map asciiByte).take 5 := by
  rw [List.take_append]
  rfl

theorem namespaces_differ_iff (a b : UInt64) :
    (∃ n m, (RomeDaClient.mk a).getNamespace = .ok n ∧ (RomeDaClient.mk b).getNamespace = .ok m ∧
      n ≠ m) ↔ (lowerHex a).take 5 ≠ (lowerHex b).take 5 := by
  simp only [RomeDaClient.getNamespace, stringToBase64Namespace_eq, Except.ok.injEq,
    exists_and_left, exists_eq_left']
  refine not_congr ⟨fun h => ?_, fun h => ?_⟩
  · have hid := List.append_cancel_left (encode_injective h)
    rw [utf8_name, utf8_name] at hid
    have hnine := userId_inj (by decide) hid
    rw [take_name, take_name] at hnine
    exact take_asciiByte_inj (List.append_cancel_left hnine)
  · have hname : (utf8 ("rome_".toList ++ lowerHex a)).take 10
        = (utf8 ("rome_".toList ++ lowerHex b)).take 10 := by
      rw [utf8_name, utf8_name, List.take_succ_cons, List.take_succ_cons, take_name, take_name,
        ← List.map_take, ← List.map_take, h]
    rw [← userId_take, hname, userId_take]

/-! Two chain ids of six digits that differ in the last. -/

theorem lowerHex_six : lowerHex 0x100000 = "100000".toList ∧ lowerHex 0x100001 = "100001".toList :=
  ⟨rfl, rfl⟩

theorem namespaces_collide :
    ¬ ∀ a b : UInt64, a ≠ b →
      ∃ n m, (RomeDaClient.mk a).getNamespace = .ok n ∧
        (RomeDaClient.mk b).getNamespace = .ok m ∧ n ≠ m := by
  intro h
  obtain ⟨n, m, hn, hm, hne⟩ := h 0x100000 0x100001 (by decide)
  have hsame : (RomeDaClient.mk 0x100000).getNamespace
      = (RomeDaClient.mk 0x100001).getNamespace := by
    rw [RomeDaClient.getNamespace, RomeDaClient.getNamespace, lowerHex_six.1, lowerHex_six.2]
    decide
  rw [hn, hm] at hsame
  exact hne (Except.ok.inj hsame)

end RomeSdk
