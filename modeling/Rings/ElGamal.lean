import Rings.Did
import Rings.Effect
import Mathlib.Algebra.Module.Basic
import Mathlib.Tactic

/-!
ElGamal over a cyclic module, and its adapter from bytes to points of secp256k1.

The field candidate of a chunk of bytes is a search bias, a marker, the length, the bytes and zero
padding. Lifting it to a point may overwrite the bias and nothing else, so what was encrypted is
read back from the point.
-/

namespace Rings.ElGamal

abbrev Bytes := List UInt8

/-- A public key, or a point in a ciphertext: the compressed encoding, 33 bytes. -/
abbrev CurveEle := Vector UInt8 33

/-- A ciphertext block. -/
abbrev CiphertextBlock := CurveEle × CurveEle

def fieldEncodingMarker : UInt8 := 0x52
def fieldEncodingOverhead : ℕ := 3
def fieldChunkSize : ℕ := 32 - fieldEncodingOverhead
def plaintextBlockSize : ℕ := fieldChunkSize

/-- A field candidate: 32 bytes, big-endian. -/
structure Field where
  bytes : Bytes
  size : bytes.length = 32
deriving DecidableEq

namespace Field

def isOdd (x : Field) : Bool := (x.bytes.getLast?.getD 0) &&& 1 = 1

/-- `x` with its first byte replaced. -/
def withFirst (x : Field) (first : UInt8) : Field where
  bytes := first :: x.bytes.tail
  size := by simp [x.size]

end Field

/-- The curve library: points, as elements of the group they form, with the generator's multiples,
the x-coordinate, decompression, and the compressed encoding of points. -/
structure Curve (P S : Type) where
  generatorMul : S → P
  xBytes : P → Field
  decompress : Field → Bool → Option P
  encodeSec1 : P → CurveEle
  decodeSec1 : CurveEle → Option P

inductive CryptoError
  | identityElement
  | ecdsaPublicKeyBadFormat
  | secp256k1PointLiftFailed
deriving DecidableEq

/-! ### Bytes and field candidates -/

/-- The chunks of `n` elements each, and what is left over; at most `fuel` of them. -/
def chunksUpTo {α : Type*} (n : ℕ) : ℕ → List α → List (List α)
  | 0, _ => []
  | _ + 1, [] => []
  | fuel + 1, l => l.take n :: chunksUpTo n fuel (l.drop n)

/-- `chunks`. -/
def chunks {α : Type*} (n : ℕ) (l : List α) : List (List α) := chunksUpTo n l.length l

theorem chunksUpTo_flatten {α : Type*} {n : ℕ} (hn : 0 < n) {fuel : ℕ} {l : List α}
    (h : l.length ≤ fuel) : (chunksUpTo n fuel l).flatten = l := by
  induction fuel generalizing l with
  | zero => rw [List.eq_nil_of_length_eq_zero (Nat.le_zero.1 h), chunksUpTo, List.flatten_nil]
  | succ fuel ih =>
    cases l with
    | nil => rfl
    | cons a l =>
      have hdrop : ((a :: l).drop n).length ≤ fuel := by
        rw [List.length_drop]
        simp only [List.length_cons] at h ⊢
        omega
      rw [chunksUpTo, List.flatten_cons, ih hdrop, List.take_append_drop]
      simp

/-- The chunks are the list again. -/
@[simp] theorem chunks_flatten {α : Type*} {n : ℕ} (hn : 0 < n) (l : List α) :
    (chunks n l).flatten = l := chunksUpTo_flatten hn le_rfl

theorem length_le_of_mem_chunksUpTo {α : Type*} {n fuel : ℕ} {l c : List α}
    (h : c ∈ chunksUpTo n fuel l) : c.length ≤ n := by
  induction fuel generalizing l with
  | zero => cases h
  | succ fuel ih =>
    cases l with
    | nil => cases h
    | cons a l =>
      rcases List.mem_cons.1 h with rfl | h
      · exact List.length_take_le n _
      · exact ih h

theorem length_le_of_mem_chunks {α : Type*} {n : ℕ} {l c : List α} (h : c ∈ chunks n l) :
    c.length ≤ n := length_le_of_mem_chunksUpTo h

def encodeFieldCandidate (chunk : Bytes) : Field where
  bytes :=
    let payloadLen := min chunk.length fieldChunkSize
    255 :: fieldEncodingMarker :: UInt8.ofNat payloadLen ::
      (chunk.take payloadLen ++ List.replicate (fieldChunkSize - payloadLen) 0)
  size := by
    simp only [List.length_cons, List.length_append, List.length_take, List.length_replicate,
      fieldChunkSize, fieldEncodingOverhead]
    omega

def bytesToField (bytes : Bytes) : List Field :=
  (chunks plaintextBlockSize bytes).map encodeFieldCandidate

def decodeFieldBytes (x : Field) : Bytes :=
  match x.bytes with
  | _ :: marker :: lenByte :: payload =>
    let len := lenByte.toNat
    if marker = fieldEncodingMarker ∧ len ≤ fieldChunkSize ∧ (payload.drop len).all (· = 0) then
      payload.take len
    else (0 :: marker :: lenByte :: payload).dropWhile (· = 0)
  | _ => []

def fieldToBytes (l : List Field) : Bytes := l.flatMap decodeFieldBytes

/-- What is decoded does not depend on the first byte, which the lift may overwrite. -/
theorem decodeFieldBytes_withFirst (x : Field) (first : UInt8) :
    decodeFieldBytes (x.withFirst first) = decodeFieldBytes x := by
  obtain ⟨_ | ⟨a, _ | ⟨marker, _ | ⟨lenByte, payload⟩⟩⟩, size⟩ := x
  · cases size
  · cases size
  · cases size
  · simp only [decodeFieldBytes, Field.withFirst, List.tail_cons]

/-- A chunk is decoded from its field candidate. -/
theorem decode_encodeFieldCandidate {chunk : Bytes} (h : chunk.length ≤ fieldChunkSize) :
    decodeFieldBytes (encodeFieldCandidate chunk) = chunk := by
  have hlen : (UInt8.ofNat chunk.length).toNat = chunk.length := by
    rw [UInt8.toNat_ofNat']
    simp only [fieldChunkSize, fieldEncodingOverhead] at h
    omega
  have hmin : min chunk.length fieldChunkSize = chunk.length := min_eq_left h
  simp only [decodeFieldBytes, encodeFieldCandidate, hmin, hlen, List.take_length,
    List.drop_left, List.take_left]
  simp [h]

/-! ### Points -/

section Adapter

variable {P S R : Type} [AddCommGroup P] [CommRing S] [Module S P]
variable (curve : Curve P S) (sample : R → S × R)

def liftX (x : Field) : Except CryptoError P :=
  match curve.decompress x x.isOdd with
  | some point => .ok point
  | none =>
    match (List.range' 1 254).reverse.findSome? fun bias =>
        curve.decompress (x.withFirst (UInt8.ofNat bias)) (x.withFirst (UInt8.ofNat bias)).isOdd with
    | some point => .ok point
    | none => .error .secp256k1PointLiftFailed

def bytesToAffine (bytes : Bytes) : Except CryptoError (List P) :=
  (bytesToField bytes).mapM (liftX curve)

def affineToBytes (points : List P) : Bytes := fieldToBytes (points.map curve.xBytes)

/-- The encoding of a point other than the identity. -/
def toCurveEle [DecidableEq P] (point : P) : Except CryptoError CurveEle :=
  if point = 0 then .error .identityElement else .ok (curve.encodeSec1 point)

def toPoint (encoded : CurveEle) : Except CryptoError P :=
  (curve.decodeSec1 encoded).elim (.error .ecdsaPublicKeyBadFormat) .ok

/-! ### ElGamal -/

def encryptBlock (message publicKey : P) (ephemeral : S) : P × P :=
  (curve.generatorMul ephemeral, message + ephemeral • publicKey)

/-- Encrypt every element with a fresh ephemeral scalar. -/
def encryptWithRng (publicKey : P) : List P → R → List (P × P) × R
  | [], rng => ([], rng)
  | message :: messages, rng =>
    let (ephemeral, rng) := sample rng
    let (rest, rng) := encryptWithRng publicKey messages rng
    (encryptBlock curve message publicKey ephemeral :: rest, rng)

def decrypt (ciphertext : List (P × P)) (secretKey : S) : List P :=
  ciphertext.map fun (c1, c2) => c2 - secretKey • c1

def encryptBytesWithRng [DecidableEq P] (bytes : Bytes) (k : CurveEle) (rng : R) :
    Except CryptoError (List CiphertextBlock × R) := do
  let publicKey ← toPoint curve k
  let points ← bytesToAffine curve bytes
  let (ciphertext, rng) := encryptWithRng curve sample publicKey points rng
  let blocks ← ciphertext.mapM fun (c1, c2) => do
    return (← toCurveEle curve c1, ← toCurveEle curve c2)
  return (blocks, rng)

def decryptBytes (m : List CiphertextBlock) (k : S) : Except CryptoError Bytes := do
  let ciphertext ← m.mapM fun (c1, c2) => do
    return (← toPoint curve c1, ← toPoint curve c2)
  return affineToBytes curve (decrypt ciphertext k)

/-! ### Decryption undoes encryption -/

/-- What is relied on of the curve library: the generator's multiples are the module's, a
decompressed point has the x-coordinate it was decompressed from, and the encoding of a point other
than the identity is decoded to that point. -/
structure Curve.Lawful (curve : Curve P S) : Prop where
  generatorMul : ∀ s t : S, s • curve.generatorMul t = t • curve.generatorMul s
  xBytes : ∀ x odd point, curve.decompress x odd = some point → curve.xBytes point = x
  decodeSec1 : ∀ point, point ≠ 0 → curve.decodeSec1 (curve.encodeSec1 point) = some point

variable {curve sample}

/-- A lifted point has the bytes of the candidate, the first byte apart. -/
theorem decode_liftX (h : curve.Lawful) {x : Field} {point : P} (hlift : liftX curve x = .ok point) :
    decodeFieldBytes (curve.xBytes point) = decodeFieldBytes x := by
  unfold liftX at hlift
  split at hlift
  · next p hp =>
    cases hlift
    rw [h.xBytes _ _ _ hp]
  · split at hlift
    · next p hp =>
      cases hlift
      obtain ⟨bias, -, hbias⟩ := List.exists_of_findSome?_eq_some hp
      rw [h.xBytes _ _ _ hbias, decodeFieldBytes_withFirst]
    · cases hlift

/-- The kernel: `c2 - x c1 = m`. -/
theorem decrypt_encryptBlock (h : curve.Lawful) (message : P) (secretKey ephemeral : S) :
    (encryptBlock curve message (curve.generatorMul secretKey) ephemeral).2 -
      secretKey • (encryptBlock curve message (curve.generatorMul secretKey) ephemeral).1 =
        message := by
  simp only [encryptBlock]
  rw [h.generatorMul secretKey ephemeral, add_sub_cancel_right]

theorem decrypt_encryptWithRng (h : curve.Lawful) (secretKey : S) (messages : List P) (rng : R) :
    decrypt (encryptWithRng curve sample (curve.generatorMul secretKey) messages rng).1 secretKey =
      messages := by
  induction messages generalizing rng with
  | nil => rfl
  | cons message messages ih =>
    simp only [encryptWithRng, decrypt, List.map_cons]
    rw [decrypt_encryptBlock h]
    exact congrArg (message :: ·) (ih _)

/-- An encoded point is decoded to itself. -/
theorem toPoint_toCurveEle [DecidableEq P] (h : curve.Lawful) {point : P} {encoded : CurveEle}
    (hencoded : toCurveEle curve point = .ok encoded) : toPoint curve encoded = .ok point := by
  unfold toCurveEle at hencoded
  split at hencoded
  · cases hencoded
  · next hne =>
    cases hencoded
    rw [toPoint, h.decodeSec1 point hne]
    rfl

/-- The bytes of lifted points are those of their candidates. -/
theorem affineToBytes_lifted (h : curve.Lawful) {fields : List Field} {points : List P}
    (hlift : List.Forall₂ (fun x point => liftX curve x = .ok point) fields points) :
    affineToBytes curve points = fields.flatMap decodeFieldBytes := by
  induction hlift with
  | nil => rfl
  | cons hx hl ih =>
    simp only [affineToBytes, fieldToBytes, List.map_cons, List.flatMap_cons] at ih ⊢
    rw [decode_liftX h hx, ih]

theorem fieldToBytes_bytesToField (bytes : Bytes) : fieldToBytes (bytesToField bytes) = bytes := by
  have hall : ∀ c ∈ chunks plaintextBlockSize bytes,
      decodeFieldBytes (encodeFieldCandidate c) = c := fun c hc =>
    decode_encodeFieldCandidate (length_le_of_mem_chunks hc)
  calc fieldToBytes (bytesToField bytes)
      = (chunks plaintextBlockSize bytes).flatMap
          (fun c => decodeFieldBytes (encodeFieldCandidate c)) := by
        rw [fieldToBytes, bytesToField, List.flatMap_map]
    _ = (chunks plaintextBlockSize bytes).flatMap id := List.flatMap_congr hall
    _ = bytes := by
        rw [List.flatMap_id]
        exact chunks_flatten (by decide) bytes

/-- What was encrypted for a key is read back with its secret. -/
theorem decryptBytes_encryptBytes [DecidableEq P] (h : curve.Lawful) {bytes : Bytes} {k : CurveEle}
    {secretKey : S} (hkey : curve.decodeSec1 k = some (curve.generatorMul secretKey)) {rng rng' : R}
    {blocks : List CiphertextBlock}
    (hblocks : encryptBytesWithRng curve sample bytes k rng = .ok (blocks, rng')) :
    decryptBytes curve blocks secretKey = .ok bytes := by
  unfold encryptBytesWithRng at hblocks
  rw [toPoint, hkey, Option.elim_some] at hblocks
  obtain ⟨publicKey, hpublic, hblocks⟩ := bind_eq_ok.1 hblocks
  cases hpublic
  obtain ⟨points, hpoints, hblocks⟩ := bind_eq_ok.1 hblocks
  have hmessages := @decrypt_encryptWithRng _ _ _ _ _ _ _ sample h secretKey points rng
  rcases hc : encryptWithRng curve sample (curve.generatorMul secretKey) points rng with
    ⟨ciphertext, rest⟩
  rw [hc] at hblocks hmessages
  obtain ⟨blocks', hencoded, hblocks⟩ := bind_eq_ok.1 hblocks
  cases hblocks
  have hdecoded : blocks.mapM (fun (c1, c2) => do
      return (← toPoint curve c1, ← toPoint curve c2)) = .ok ciphertext := by
    refine mapM_of_forall₂ ((forall₂_of_mapM hencoded).flip.imp fun block c hblock => ?_)
    obtain ⟨e1, he1, hblock⟩ := bind_eq_ok.1 hblock
    obtain ⟨e2, he2, hblock⟩ := bind_eq_ok.1 hblock
    cases hblock
    simp only [toPoint_toCurveEle h he1, toPoint_toCurveEle h he2]
    rfl
  have hbytes := affineToBytes_lifted h (forall₂_of_mapM hpoints)
  have hback := fieldToBytes_bytesToField bytes
  rw [fieldToBytes] at hback
  rw [decryptBytes, hdecoded]
  change Except.ok (affineToBytes curve (decrypt ciphertext secretKey)) = .ok bytes
  rw [hmessages, hbytes, hback]

end Adapter

end Rings.ElGamal
