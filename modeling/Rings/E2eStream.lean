import Rings.ElGamal
import Rings.StreamReorder

/-!
End-to-end encrypted streams: frames of ElGamal ciphertext, numbered from zero and closed by a final
one.

The decryptor buffers frames that arrive ahead of a missing one and releases their plaintext as soon
as the frames before them are there. A stream without progress for its deadline is stalled.
-/

namespace Rings.E2e

open ElGamal (Bytes CurveEle CiphertextBlock Curve CryptoError)

/-- One frame of a stream. -/
structure E2eStreamFrame where
  streamId : Uuid
  senderPublicKey : CurveEle
  sequence : ℕ
  isFinal : Bool
  ciphertext : List CiphertextBlock
deriving DecidableEq

inductive E2eError
  | crypto (e : CryptoError)
  | e2ePublicKeyDidMismatch (expected actual : Did)
  | e2eStreamIdMismatch (expected actual : Uuid)
  | e2eFrameSequenceMismatch (expected actual : ℕ)
  | e2eFrameAfterFinal
  | e2eFrameReorderWindowExceeded (nextSequence actual window : ℕ)
  | e2eFrameSequenceOverflow
  | e2eStreamStalled (nextSequence buffered stalledMs : ℕ)
  | e2eMissingFinalFrame
deriving DecidableEq

/-- The next sequence, in 64 bits. -/
def nextSequence (sequence : ℕ) : Except E2eError ℕ :=
  (checkedAdd u64Max sequence 1).elim (.error .e2eFrameSequenceOverflow) .ok

/-- A failure of the curve is a failure of the stream. -/
def ofCrypto {α : Type} : Except CryptoError α → Except E2eError α
  | .ok a => .ok a
  | .error e => .error (.crypto e)

/-! ### Encryption -/

/-- The plaintext frames, each with whether it is the last: one empty frame of an empty plaintext. -/
def plaintextStreamFrames (plaintext : Bytes) (maxPlaintextFrameLen : ℕ) : List (Bytes × Bool) :=
  if plaintext.isEmpty then [([], true)]
  else
    let chunks := ElGamal.chunks (max maxPlaintextFrameLen 1) plaintext
    chunks.mapIdx fun i chunk => (chunk, i + 1 = chunks.length)

structure E2eStreamEncryptor where
  streamId : Uuid
  senderPublicKey : CurveEle
  recipientPublicKey : CurveEle
  nextSequence : ℕ
  closed : Bool

section Encryption

variable {P S R : Type} [AddCommGroup P] [CommRing S] [Module S P] [DecidableEq P]
variable (curve : Curve P S) (sample : R → S × R)

def E2eStreamEncryptor.new (streamId : Uuid) (senderPublicKey recipientPublicKey : CurveEle) :
    Except E2eError E2eStreamEncryptor := do
  let _ ← ofCrypto (ElGamal.toPoint curve senderPublicKey)
  let _ ← ofCrypto (ElGamal.toPoint curve recipientPublicKey)
  return ⟨streamId, senderPublicKey, recipientPublicKey, 0, false⟩

/-- A final frame closes the stream, any other has a successor. -/
def E2eStreamEncryptor.advance (enc : E2eStreamEncryptor) (isFinal : Bool) :
    Except E2eError E2eStreamEncryptor :=
  if isFinal then .ok { enc with closed := true }
  else
    match E2e.nextSequence enc.nextSequence with
    | .error e => .error e
    | .ok next => .ok { enc with nextSequence := next }

/-- `encrypt_frame`. An error ends the stream of frames, so what it leaves is not read. -/
def E2eStreamEncryptor.encryptFrame (enc : E2eStreamEncryptor) (plaintext : Bytes) (isFinal : Bool)
    (rng : R) : Except E2eError (E2eStreamFrame × E2eStreamEncryptor × R) :=
  if enc.closed then .error .e2eFrameAfterFinal
  else do
    let enc' ← enc.advance isFinal
    let (ciphertext, rng) ←
      ofCrypto (ElGamal.encryptBytesWithRng curve sample plaintext enc.recipientPublicKey rng)
    return (⟨enc.streamId, enc.senderPublicKey, enc.nextSequence, isFinal, ciphertext⟩, enc', rng)

/-- Encrypt the frames one by one, up to the first error. -/
def encryptFrames (enc : E2eStreamEncryptor) : List (Bytes × Bool) → R →
    Except E2eError (List E2eStreamFrame)
  | [], _ => .ok []
  | (plaintext, isFinal) :: rest, rng => do
    let (frame, enc, rng) ← enc.encryptFrame curve sample plaintext isFinal rng
    let frames ← encryptFrames enc rest rng
    return frame :: frames

def encryptStreamWithRng (plaintext : Bytes) (streamId : Uuid)
    (senderPublicKey recipientPublicKey : CurveEle) (maxPlaintextFrameLen : ℕ) (rng : R) :
    Except E2eError (List E2eStreamFrame) := do
  let enc ← E2eStreamEncryptor.new curve streamId senderPublicKey recipientPublicKey
  encryptFrames curve sample enc (plaintextStreamFrames plaintext maxPlaintextFrameLen) rng

end Encryption

/-! ### Decryption -/

/-- The decryptor, with the secret key in `S`; times are in milliseconds. -/
structure E2eStreamDecryptor (S : Type) where
  streamId : Uuid
  expectedSender : Did
  recipientSecretKey : S
  nextSequence : ℕ
  finalSequence : Option ℕ
  seenFinal : Bool
  reorderWindow : ℕ
  pendingFrames : BTreeMap ℕ E2eStreamFrame
  stallDeadline : ℕ
  progressMs : ℕ

inductive FrameAcceptance
  | new
  | duplicate
deriving DecidableEq

namespace E2eStreamDecryptor

section

variable {S : Type}

def new (streamId : Uuid) (expectedSender : Did) (recipientSecretKey : S) (reorderWindow
    stallDeadline nowMs : ℕ) : E2eStreamDecryptor S :=
  ⟨streamId, expectedSender, recipientSecretKey, 0, none, false, reorderWindow, .empty,
    stallDeadline, nowMs⟩

variable (address : CurveEle → Did) (d : E2eStreamDecryptor S) (frame : E2eStreamFrame)

def isConsumedDuplicate : Bool :=
  if frame.sequence < d.nextSequence then true
  else d.seenFinal && d.finalSequence.any fun finalSequence => frame.sequence ≤ finalSequence

def exceedsReorderWindow (sequence : ℕ) : Bool := sequence - d.nextSequence > d.reorderWindow

def hasPendingFrameAfter (sequence : ℕ) : Bool :=
  d.pendingFrames.lastKeyValue.any fun (pendingSequence, _) => pendingSequence > sequence

/-- `verify_sender`: the key belongs to the DID. -/
def verifySender (sender : Did) : Except E2eError Unit :=
  let actual := address frame.senderPublicKey
  if actual = sender then .ok () else .error (.e2ePublicKeyDidMismatch sender actual)

/-- Nothing may come behind the final frame, once it was seen. -/
def checkFinal : Except E2eError Unit :=
  match d.finalSequence with
  | none => .ok ()
  | some finalSequence =>
    if frame.sequence > finalSequence then .error .e2eFrameAfterFinal
    else if frame.isFinal && frame.sequence ≠ finalSequence then
      .error (.e2eFrameSequenceMismatch finalSequence frame.sequence)
    else .ok ()

def validateFrame : Except E2eError FrameAcceptance :=
  if frame.streamId ≠ d.streamId then .error (.e2eStreamIdMismatch d.streamId frame.streamId)
  else
    match verifySender address frame d.expectedSender with
    | .error e => .error e
    | .ok () =>
      if d.isConsumedDuplicate frame then .ok .duplicate
      else
        match d.pendingFrames.get? frame.sequence with
        | some pendingFrame =>
          if pendingFrame = frame then .ok .duplicate
          else .error (.e2eFrameSequenceMismatch d.nextSequence frame.sequence)
        | none =>
          if d.seenFinal then .error .e2eFrameAfterFinal
          else if d.exceedsReorderWindow frame.sequence then
            .error (.e2eFrameReorderWindowExceeded d.nextSequence frame.sequence d.reorderWindow)
          else
            match d.checkFinal frame with
            | .error e => .error e
            | .ok () =>
              if frame.isFinal && d.hasPendingFrameAfter frame.sequence then
                .error .e2eFrameAfterFinal
              else .ok .new

/-- The decryptor with `frame` buffered. -/
def buffer : E2eStreamDecryptor S :=
  { d with
    finalSequence := if frame.isFinal then some frame.sequence else d.finalSequence
    pendingFrames := d.pendingFrames.insert frame.sequence frame }

def check (nowMs : ℕ) : Except E2eError Unit :=
  let stalledMs := nowMs - d.progressMs
  if d.seenFinal || stalledMs ≤ d.stallDeadline then .ok ()
  else .error (.e2eStreamStalled d.nextSequence d.pendingFrames.size stalledMs)

def finish : Except E2eError Unit :=
  if d.seenFinal then .ok () else .error .e2eMissingFinalFrame

end

section Release

variable {P S : Type} [AddCommGroup P] [CommRing S] [Module S P]
variable (curve : Curve P S) (address : CurveEle → Did)

/-- Release the buffered frames while the next one is there; each turn takes one of the buffer, so
it turns as often as the buffer holds frames. -/
def decryptReadyFrames : ℕ → E2eStreamDecryptor S → Bytes → Except E2eError Bytes × E2eStreamDecryptor S
  | 0, d, plaintext => (.ok plaintext, d)
  | turns + 1, d, plaintext =>
    match d.pendingFrames.get? d.nextSequence with
    | none => (.ok plaintext, d)
    | some frame =>
      match ElGamal.decryptBytes curve frame.ciphertext d.recipientSecretKey with
      | .error e => (.error (.crypto e), d)
      | .ok framePlaintext =>
        let d := { d with pendingFrames := d.pendingFrames.remove d.nextSequence }
        if frame.isFinal then (.ok (plaintext ++ framePlaintext), { d with seenFinal := true })
        else
          match E2e.nextSequence d.nextSequence with
          | .error e => (.error e, d)
          | .ok next =>
            decryptReadyFrames turns { d with nextSequence := next } (plaintext ++ framePlaintext)

variable (d : E2eStreamDecryptor S) (frame : E2eStreamFrame)

def accept : Except E2eError Bytes × E2eStreamDecryptor S :=
  match d.validateFrame address frame with
  | .error e => (.error e, d)
  | .ok .duplicate => (.ok [], d)
  | .ok .new =>
    let d := d.buffer frame
    d.decryptReadyFrames curve d.pendingFrames.size []

/-- `decrypt_next`: the plaintext `frame` makes contiguous, unless the stream is stalled even so. -/
def decryptNext (nowMs : ℕ) : Except E2eError Bytes × E2eStreamDecryptor S :=
  match d.accept curve address frame with
  | (.error e, d') => (.error e, d')
  | (.ok plaintext, d') =>
    let d' := if (d'.nextSequence, d'.seenFinal) ≠ (d.nextSequence, d.seenFinal) then
      { d' with progressMs := nowMs } else d'
    match d'.check nowMs with
    | .error e => (.error e, d')
    | .ok () => (.ok plaintext, d')

end Release

end E2eStreamDecryptor

end Rings.E2e
