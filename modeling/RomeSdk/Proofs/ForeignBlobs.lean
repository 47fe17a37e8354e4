import RomeSdk.Da.Blobs
import RomeSdk.Lib.Effect

/-!
# A foreign blob and a fetch

Anyone can put a blob into the namespace of a rollup. `decode_blob_to_tx` returns an error for
one that is no transaction, and `fetch_blobs_by_height` unwraps it: one such blob at a height
and the call panics. Without it the transactions come out in order.

What `compress_blocks_to_blobs` writes is read back blob by blob, and the index of a blob is
its position. The index is an `i32` that is incremented after each blob, the last one included.
-/

namespace RomeSdk

namespace Blobs

variable {K : DaCrates} {ns : List Char}

/-! ## The fetch -/

/-- The transactions of the blobs that are transactions. -/
def accepted (K : DaCrates) (blobs : List BlobParam) : List Transaction :=
  blobs.filterMap fun blob => (decodeBlobToTx K blob).toOption

/-- The call returns, and when it returns transactions they are those of the blobs that are
transactions. -/
def FetchSafe (c : RomeDaClient) (K : DaCrates)
    (request : UInt64 → List Char → Except String (List BlobParam)) (height : UInt64) : Prop :=
  (c.fetchBlobsByHeight K request height).returned = true ∧
    ∀ txs, c.fetchBlobsByHeight K request height = .ok txs →
      ∃ ns blobs, c.getNamespace = .ok ns ∧ request height ns = .ok blobs ∧ txs = accepted K blobs

/-- Each blob that the node returns is a transaction. -/
def EveryBlobDecodes (c : RomeDaClient) (K : DaCrates)
    (request : UInt64 → List Char → Except String (List BlobParam)) (height : UInt64) : Prop :=
  ∀ ns blobs, c.getNamespace = .ok ns → request height ns = .ok blobs →
    ∀ blob ∈ blobs, ∃ tx, decodeBlobToTx K blob = .ok tx

theorem mapM_unwrap_ok {blobs : List BlobParam}
    (h : ∀ blob ∈ blobs, ∃ tx, decodeBlobToTx K blob = .ok tx) :
    (blobs.mapM fun blob => unwrap (decodeBlobToTx K blob)) = .ok (accepted K blobs) := by
  induction blobs with
  | nil => rfl
  | cons blob blobs ih =>
      obtain ⟨tx, htx⟩ := h blob (List.mem_cons_self ..)
      have hrest := ih fun b hb => h b (List.mem_cons_of_mem blob hb)
      have haccepted : accepted K (blob :: blobs) = tx :: accepted K blobs := by
        rw [accepted, List.filterMap_cons, htx]
        rfl
      rw [List.mapM_cons, htx, hrest, haccepted]
      rfl

theorem mapM_unwrap_panics {blobs : List BlobParam}
    (h : ¬ ∀ blob ∈ blobs, ∃ tx, decodeBlobToTx K blob = .ok tx) :
    ∃ message, (blobs.mapM fun blob => unwrap (decodeBlobToTx K blob))
      = .error (.panic message) := by
  induction blobs with
  | nil => exact absurd (fun blob hb => absurd hb List.not_mem_nil) h
  | cons blob blobs ih =>
      rw [List.mapM_cons]
      cases hblob : decodeBlobToTx K blob with
      | error e => exact ⟨_, rfl⟩
      | ok tx =>
          obtain ⟨message, hrest⟩ := ih fun hall => h fun b hb => by
            rcases List.mem_cons.mp hb with rfl | hb
            · exact ⟨tx, hblob⟩
            · exact hall b hb
          rw [hrest]
          exact ⟨message, rfl⟩

theorem getNamespace_ok (c : RomeDaClient) : ∃ ns, c.getNamespace = .ok ns :=
  ⟨_, stringToBase64Namespace_eq _⟩

theorem fetchSafe_iff (c : RomeDaClient) (K : DaCrates)
    (request : UInt64 → List Char → Except String (List BlobParam)) (height : UInt64) :
    FetchSafe c K request height ↔ EveryBlobDecodes c K request height := by
  obtain ⟨ns, hns⟩ := getNamespace_ok c
  have hfetch : c.fetchBlobsByHeight K request height
      = (propagate (request height ns)).bind fun res =>
          res.mapM fun blob => unwrap (decodeBlobToTx K blob) := by
    rw [RomeDaClient.fetchBlobsByHeight, RomeDaClient.namespaceOrFailure, hns]
    rfl
  cases hres : request height ns with
  | error e =>
      rw [hres] at hfetch
      refine iff_of_true ⟨?_, ?_⟩ ?_
      · rw [hfetch]
        rfl
      · intro txs h
        rw [hfetch] at h
        cases h
      · intro ns' blobs hns' hblobs
        rw [hns] at hns'
        cases hns'
        rw [hres] at hblobs
        cases hblobs
  | ok blobs =>
      rw [hres] at hfetch
      have hevery : EveryBlobDecodes c K request height ↔
          ∀ blob ∈ blobs, ∃ tx, decodeBlobToTx K blob = .ok tx := by
        constructor
        · intro h
          exact h ns blobs hns hres
        · intro h ns' blobs' hns' hblobs
          rw [hns] at hns'
          cases hns'
          rw [hres] at hblobs
          cases hblobs
          exact h
      rw [hevery]
      constructor
      · intro hsafe
        by_contra hforeign
        obtain ⟨message, hpanic⟩ := mapM_unwrap_panics hforeign
        have hreturned := hsafe.1
        rw [hfetch] at hreturned
        rw [propagate, Except.bind, hpanic] at hreturned
        cases hreturned
      · intro hall
        have hok : c.fetchBlobsByHeight K request height = .ok (accepted K blobs) := by
          rw [hfetch]
          exact mapM_unwrap_ok hall
        refine ⟨by rw [hok]; rfl, ?_⟩
        intro txs h
        rw [hok] at h
        cases h
        exact ⟨ns, blobs, hns, hres, rfl⟩

/-! ## The round trip -/

/-- What is assumed of the crates: base64 and zlib are read back, and so are the transactions
that are written. -/
structure Codecs (K : DaCrates) (txs : List Transaction) : Prop where
  base64 : ∀ bytes, K.base64Decode (Base64.encode bytes) = .ok bytes
  zlib : ∀ bytes z, K.zlibEncode bytes = .ok z → K.zlibDecode z = .ok bytes
  compresses : ∀ tx ∈ txs, ∃ z, K.zlibEncode (K.rlp tx) = .ok z
  rlp : ∀ tx ∈ txs, K.decode (K.rlp tx) = .ok tx

/-- The blobs are read back as the transactions of the blocks, and have their positions for
indices. -/
def RoundTrips (K : DaCrates) (ns : List Char) (blocks : List DaSubmissionBlock) : Prop :=
  ∃ blobs, compressBlocksToBlobs K ns blocks = .ok blobs ∧
    blobs.map (decodeBlobToTx K) = (blocks.flatMap (·.transactions)).map .ok ∧
    blobs.map (·.index) = (List.range blobs.length).map Int.ofNat

/-- The two loops are one over all transactions. -/
theorem foldlM_blocks (blocks : List DaSubmissionBlock) : ∀ s : List BlobParam × Int,
    blocks.foldlM (fun s block => block.transactions.foldlM (pushBlob K ns) s) s
      = (blocks.flatMap (·.transactions)).foldlM (pushBlob K ns) s := by
  induction blocks with
  | nil => intro s; rfl
  | cons block blocks ih =>
      intro s
      rw [List.foldlM_cons, List.flatMap_cons, List.foldlM_append]
      exact bind_congr ih

theorem increment_eq (n : Nat) : increment n
    = if n + 1 < 2 ^ 31 then .ok ((n + 1 : Nat) : Int)
      else .error (.panic "attempt to add with overflow") := by
  rw [increment]
  by_cases h : n + 1 < 2 ^ 31
  · rw [if_pos h, if_pos (by omega)]
    rfl
  · rw [if_neg h, if_neg (by omega)]

/-- One transaction: the blob is read back, and the index is incremented if it can be. -/
theorem pushBlob_eq {txs : List Transaction} (hK : Codecs K txs) {tx : Transaction}
    (htx : tx ∈ txs) (blobs : List BlobParam) (n : Nat) :
    ∃ blob, decodeBlobToTx K blob = .ok tx ∧ blob.index = n ∧
      pushBlob K ns (blobs, (n : Int)) tx
        = if n + 1 < 2 ^ 31 then .ok (blobs ++ [blob], ((n + 1 : Nat) : Int))
          else .error (.panic "attempt to add with overflow") := by
  obtain ⟨z, hz⟩ := hK.compresses tx htx
  refine ⟨⟨ns, Base64.encode z, 0, deriveCommitment K (Base64.encode z), n⟩, ?_, rfl, ?_⟩
  · have hdecompress : decompressData K z = .ok (K.rlp tx) := hK.zlib _ z hz
    show (K.base64Decode (Base64.encode z)).bind _ = _
    rw [hK.base64, Except.bind, hdecompress]
    exact hK.rlp tx htx
  · have hcompress : compressData K (K.rlp tx) = .ok z := hz
    rw [pushBlob, hcompress, increment_eq]
    split <;> rfl

theorem Codecs.subset {txs txs' : List Transaction} (h : Codecs K txs)
    (hsub : ∀ tx ∈ txs', tx ∈ txs) : Codecs K txs' :=
  ⟨h.base64, h.zlib, fun tx htx => h.compresses tx (hsub tx htx),
    fun tx htx => h.rlp tx (hsub tx htx)⟩

/-- As long as the index has room for all of them, the transactions are appended one by one. -/
theorem pushBlobs_ok (ns : List Char) (txs : List Transaction) :
    ∀ (blobs : List BlobParam) (n : Nat), Codecs K txs → n + txs.length < 2 ^ 31 →
      ∃ more, txs.foldlM (pushBlob K ns) (blobs, (n : Int))
        = .ok (blobs ++ more, ((n + txs.length : Nat) : Int)) ∧
      more.map (decodeBlobToTx K) = txs.map .ok ∧
      more.map (·.index) = (List.range' n txs.length).map Int.ofNat := by
  induction txs with
  | nil =>
      intro blobs n _ _
      refine ⟨[], ?_, rfl, rfl⟩
      rw [List.append_nil]
      rfl
  | cons tx txs ih =>
      intro blobs n hK hroom
      rw [List.length_cons] at hroom
      obtain ⟨blob, hdecode, hindex, hpush⟩ := pushBlob_eq hK (List.mem_cons_self ..) blobs n
      rw [if_pos (by omega)] at hpush
      have hrest := hK.subset fun tx' htx' => List.mem_cons_of_mem tx htx'
      obtain ⟨more, hfold, hmore, hindices⟩ := ih (blobs ++ [blob]) (n + 1) hrest (by omega)
      refine ⟨blob :: more, ?_, ?_, ?_⟩
      · rw [List.foldlM_cons, hpush]
        show txs.foldlM (pushBlob K ns) (blobs ++ [blob], ((n + 1 : Nat) : Int)) = _
        rw [hfold, List.append_assoc, List.length_cons, Nat.add_assoc, Nat.add_comm 1]
        rfl
      · rw [List.map_cons, List.map_cons, hdecode, hmore]
      · rw [List.map_cons, hindex, hindices, List.length_cons, List.range'_succ, List.map_cons]
        rfl

theorem pushBlobs_overflow (ns : List Char) (txs : List Transaction) :
    ∀ (blobs : List BlobParam) (n : Nat), Codecs K txs → n < 2 ^ 31 → 2 ^ 31 ≤ n + txs.length →
      txs.foldlM (pushBlob K ns) (blobs, (n : Int))
        = .error (.panic "attempt to add with overflow") := by
  induction txs with
  | nil =>
      intro blobs n _ hn hmany
      rw [List.length_nil] at hmany
      omega
  | cons tx txs ih =>
      intro blobs n hK hn hmany
      rw [List.length_cons] at hmany
      obtain ⟨blob, _, _, hpush⟩ := pushBlob_eq hK (List.mem_cons_self ..) blobs n
      rw [List.foldlM_cons, hpush]
      by_cases hroom : n + 1 < 2 ^ 31
      · rw [if_pos hroom]
        have hrest := hK.subset fun tx' htx' => List.mem_cons_of_mem tx htx'
        exact ih (blobs ++ [blob]) (n + 1) hrest hroom (by omega)
      · rw [if_neg hroom]
        rfl

theorem roundTrips_iff {blocks : List DaSubmissionBlock}
    (hK : Codecs K (blocks.flatMap (·.transactions))) :
    RoundTrips K ns blocks ↔ (blocks.flatMap (·.transactions)).length < 2 ^ 31 := by
  have hcompress : compressBlocksToBlobs K ns blocks
      = ((blocks.flatMap (·.transactions)).foldlM (pushBlob K ns)
          (([], ((0 : Nat) : Int)) : List BlobParam × Int)).bind fun s => .ok s.1 := by
    rw [compressBlocksToBlobs, foldlM_blocks]
    rfl
  constructor
  · intro ⟨blobs, hblobs, _⟩
    by_contra hmany
    have hpanic := pushBlobs_overflow ns _ [] 0 hK (by decide) (by omega)
    rw [hcompress, hpanic] at hblobs
    cases hblobs
  · intro hroom
    obtain ⟨blobs, hfold, hdecode, hindices⟩ := pushBlobs_ok ns _ [] 0 hK (by omega)
    rw [List.nil_append] at hfold
    refine ⟨blobs, ?_, hdecode, ?_⟩
    · rw [hcompress, hfold]
      rfl
    · have hlength := congrArg List.length hdecode
      rw [List.length_map, List.length_map] at hlength
      rw [hindices, hlength, List.range_eq_range']

theorem foreign_blobs_iff (c : RomeDaClient) (K : DaCrates)
    (request : UInt64 → List Char → Except String (List BlobParam)) (height : UInt64)
    (ns : List Char) (blocks : List DaSubmissionBlock)
    (hK : Codecs K (blocks.flatMap (·.transactions))) :
    (FetchSafe c K request height ↔ EveryBlobDecodes c K request height) ∧
      (RoundTrips K ns blocks ↔ (blocks.flatMap (·.transactions)).length < 2 ^ 31) :=
  ⟨fetchSafe_iff c K request height, roundTrips_iff hK⟩

/-! ## Crates to run it with -/

def adler32 (data : Bytes) : Nat :=
  let sums := data.foldl (fun (s : Nat × Nat) x =>
    ((s.1 + x.toNat) % 65521, (s.2 + s.1 + x.toNat) % 65521)) (1, 0)
  65536 * sums.2 + sums.1

/-- A zlib stream of one block that is not compressed. -/
def zlibStored (data : Bytes) : Bytes :=
  [0x78, 0x01, 0x01] ++ (leBytes 2 data.length ++ (leBytes 2 (65535 - data.length) ++
    (data ++ beBytes 4 (adler32 data))))

/-- The bytes between the header and the check sum. -/
def storedData (z : Bytes) : Bytes := (z.drop 7).take (z.length - 11)

theorem storedData_zlibStored (data : Bytes) : storedData (zlibStored data) = data := by
  have hlength : (zlibStored data).length - 11 = data.length := by
    simp only [zlibStored, List.length_append, length_leBytes, length_beBytes, List.length_cons,
      List.length_nil]
    omega
  rw [storedData, hlength, zlibStored, ← List.append_assoc, ← List.append_assoc]
  rw [List.drop_left' (by simp only [List.length_append, length_leBytes, List.length_cons,
    List.length_nil]), List.take_left' rfl]

/-- Transactions that are written as their hash, in blocks that are stored as they are. -/
def daStandIns : DaCrates where
  rlp tx := 0xa0 :: beBytes 32 tx.hash.toNat
  decode bytes :=
    match bytes with
    | 0xa0 :: hash => if hash.length = 32 then .ok (bareTx (H256.fromSlice hash))
        else .error "RlpInconsistentLengthAndData"
    | _ => .error "RlpExpectedToBeList"
  base64Decode text := (base64Groups text).elim (.error "InvalidByte") .ok
  zlibEncode data :=
    if data.length < 65536 then .ok (zlibStored data) else .error "the block is too long"
  zlibDecode z :=
    if zlibStored (storedData z) = z then .ok (storedData z) else .error "corrupt deflate stream"
  sha3 bytes := beBytes 32 (digest bytes).toNat

theorem codecs_standIns {txs : List Transaction} (h : ∀ tx ∈ txs, ∃ hash, tx = bareTx hash) :
    Codecs daStandIns txs := by
  refine ⟨?_, ?_, ?_, ?_⟩
  · intro bytes
    show (base64Groups (Base64.encode bytes)).elim _ _ = _
    rw [base64Groups_encode]
    rfl
  · intro bytes z hz
    have hstored : zlibStored bytes = z := by
      have hz : (if bytes.length < 65536 then .ok (zlibStored bytes)
        else .error "the block is too long") = Except.ok z := hz
      split at hz
      · exact Except.ok.inj hz
      · cases hz
    subst hstored
    show (if zlibStored (storedData (zlibStored bytes)) = zlibStored bytes then
      Except.ok (storedData (zlibStored bytes)) else .error "corrupt deflate stream") = .ok bytes
    rw [storedData_zlibStored, if_pos rfl]
  · intro tx _
    have hshort : (0xa0 :: beBytes 32 tx.hash.toNat).length < 65536 := by
      rw [List.length_cons, length_beBytes]
      omega
    refine ⟨zlibStored (0xa0 :: beBytes 32 tx.hash.toNat), ?_⟩
    show (if (0xa0 :: beBytes 32 tx.hash.toNat).length < 65536 then Except.ok (zlibStored _)
      else .error "the block is too long") = _
    rw [if_pos hshort]
    rfl
  · intro tx htx
    obtain ⟨hash, rfl⟩ := h tx htx
    show (if (beBytes 32 hash.toNat).length = 32 then
      Except.ok (bareTx (H256.fromSlice (beBytes 32 hash.toNat)))
      else .error "RlpInconsistentLengthAndData") = .ok (bareTx hash)
    rw [if_pos (length_beBytes 32 _), H256.fromSlice_beBytes]

/-- A blob that is not base64. -/
def foreignBlob : BlobParam := ⟨"rome".toList, "!".toList, 0, [], 0⟩

/-- A fetch at a height with a foreign blob, and a block of 2^31 transactions. -/
theorem foreign_blobs_fail :
    (RomeDaClient.mk 7).fetchBlobsByHeight daStandIns (fun _ _ => .ok [foreignBlob]) 1
        = .error (.panic "called `Result::unwrap()` on an `Err` value: InvalidByte") ∧
      ¬ FetchSafe ⟨7⟩ daStandIns (fun _ _ => .ok [foreignBlob]) 1 ∧
      ¬ RoundTrips daStandIns [] [⟨List.replicate (2 ^ 31) (bareTx 1)⟩] := by
  obtain ⟨ns, hns⟩ := getNamespace_ok ⟨7⟩
  have hpanic : (RomeDaClient.mk 7).fetchBlobsByHeight daStandIns (fun _ _ => .ok [foreignBlob]) 1
      = .error (.panic "called `Result::unwrap()` on an `Err` value: InvalidByte") := by
    rw [RomeDaClient.fetchBlobsByHeight, RomeDaClient.namespaceOrFailure, hns]
    rfl
  refine ⟨hpanic, ?_, ?_⟩
  · intro hsafe
    have hreturned := hsafe.1
    rw [hpanic] at hreturned
    cases hreturned
  · have hall : ∀ tx ∈ [DaSubmissionBlock.mk (List.replicate (2 ^ 31) (bareTx 1))].flatMap
        (·.transactions), ∃ hash, tx = bareTx hash := by
      intro tx htx
      rw [List.flatMap_singleton] at htx
      exact ⟨1, (List.mem_replicate.mp htx).2⟩
    rw [roundTrips_iff (codecs_standIns hall), List.flatMap_singleton, List.length_replicate]
    omega

theorem foreign_blobs_iff_two :
    (FetchSafe ⟨7⟩ daStandIns (fun _ _ => .ok [foreignBlob]) 1 ↔
        EveryBlobDecodes ⟨7⟩ daStandIns (fun _ _ => .ok [foreignBlob]) 1) ∧
      (RoundTrips daStandIns [] [⟨[bareTx 1]⟩, ⟨[]⟩, ⟨[bareTx 2]⟩] ↔ 2 < 2 ^ 31) := by
  refine foreign_blobs_iff ⟨7⟩ daStandIns _ 1 [] [⟨[bareTx 1]⟩, ⟨[]⟩, ⟨[bareTx 2]⟩] ?_
  refine codecs_standIns fun tx htx => ?_
  rcases List.mem_cons.mp htx with rfl | htx
  · exact ⟨1, rfl⟩
  · exact ⟨2, List.mem_singleton.mp htx⟩

end Blobs

end RomeSdk
