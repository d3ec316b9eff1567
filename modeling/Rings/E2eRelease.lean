import Rings.E2eStream
import Mathlib.Data.List.TakeWhile

/-!
What the decryptor of an end-to-end stream has consumed, over every sequence of calls.

A call releases the gapless run of frames at hand. When a frame in the middle of that run cannot be
decrypted, the ones before it are consumed and their plaintext is returned by no call.
-/

namespace Rings.E2e

open ElGamal (Bytes CurveEle Curve CryptoError)

/-! ### Validation -/

section Validation

variable {S : Type} {address : CurveEle → Did} {d : E2eStreamDecryptor S} {frame : E2eStreamFrame}

structure IsNew (address : CurveEle → Did) (d : E2eStreamDecryptor S) (frame : E2eStreamFrame) :
    Prop where
  streamId : frame.streamId = d.streamId
  sender : address frame.senderPublicKey = d.expectedSender
  ahead : d.nextSequence ≤ frame.sequence
  absent : d.pendingFrames.get? frame.sequence = none
  unfinished : d.seenFinal = false
  window : frame.sequence - d.nextSequence ≤ d.reorderWindow
  beforeFinal : ∀ n ∈ d.finalSequence, frame.sequence ≤ n ∧ (frame.isFinal → frame.sequence = n)
  last : frame.isFinal → ∀ n f, d.pendingFrames.get? n = some f → n ≤ frame.sequence

theorem hasPendingFrameAfter_eq_false {n : ℕ} : d.hasPendingFrameAfter n = false ↔
    ∀ m f, d.pendingFrames.get? m = some f → m ≤ n := by
  unfold E2eStreamDecryptor.hasPendingFrameAfter
  cases hlast : d.pendingFrames.lastKeyValue with
  | none => simp [BTreeMap.get?_eq_none_of_lastKeyValue hlast]
  | some kv =>
    simp only [Option.any_some, decide_eq_false_iff_not, not_lt]
    constructor
    · intro h m f hm
      exact (BTreeMap.le_of_lastKeyValue hlast hm).trans h
    · intro h
      exact h _ _ (BTreeMap.get?_of_lastKeyValue hlast)

theorem checkFinal_eq_ok : d.checkFinal frame = .ok () ↔
    ∀ n ∈ d.finalSequence, frame.sequence ≤ n ∧ (frame.isFinal → frame.sequence = n) := by
  unfold E2eStreamDecryptor.checkFinal
  cases d.finalSequence with
  | none => simp
  | some n =>
    simp only [Option.mem_def, Option.some.injEq, forall_eq']
    split
    · next hlt => exact iff_of_false (by simp) fun h => absurd h.1 (by omega)
    · next hle =>
      split
      · next hne =>
        rw [Bool.and_eq_true, decide_eq_true_eq] at hne
        exact iff_of_false (by simp) fun h => hne.2 (h.2 hne.1)
      · next heq =>
        rw [Bool.and_eq_true, decide_eq_true_eq, not_and, not_not] at heq
        exact iff_of_true rfl ⟨by omega, heq⟩

theorem isConsumedDuplicate_eq_false (h : d.seenFinal = false) :
    d.isConsumedDuplicate frame = false ↔ d.nextSequence ≤ frame.sequence := by
  unfold E2eStreamDecryptor.isConsumedDuplicate
  split
  · next hlt => exact iff_of_false (by simp) (by omega)
  · next hle => exact iff_of_true (by simp [h]) (by omega)

theorem validateFrame_eq_new :
    d.validateFrame address frame = .ok .new ↔ IsNew address d frame := by
  constructor
  · intro h
    unfold E2eStreamDecryptor.validateFrame E2eStreamDecryptor.verifySender at h
    by_cases hstream : frame.streamId = d.streamId
    · by_cases hsender : address frame.senderPublicKey = d.expectedSender
      · simp only [hstream, ne_eq, not_true_eq_false, if_false, hsender, if_true] at h
        split at h
        · cases h
        · next hdup =>
          split at h
          · split at h <;> cases h
          · next habsent =>
            split at h
            · cases h
            · next hseen =>
              split at h
              · cases h
              · next hwindow =>
                split at h
                · cases h
                · next hfinal =>
                  split at h
                  · cases h
                  · next hlast =>
                    have hunfinished : d.seenFinal = false := by simpa using hseen
                    refine ⟨hstream, hsender,
                      (isConsumedDuplicate_eq_false hunfinished).1 (by simpa using hdup), habsent,
                      hunfinished, ?_, checkFinal_eq_ok.1 hfinal, fun hf =>
                        hasPendingFrameAfter_eq_false.1 (by simpa [hf] using hlast)⟩
                    simpa [E2eStreamDecryptor.exceedsReorderWindow] using hwindow
      · simp [hstream, hsender] at h
    · simp [hstream] at h
  · intro h
    have hdup := (isConsumedDuplicate_eq_false h.unfinished).2 h.ahead
    have hwindow : d.exceedsReorderWindow frame.sequence = false := by
      simpa [E2eStreamDecryptor.exceedsReorderWindow] using h.window
    have hlast : (frame.isFinal && d.hasPendingFrameAfter frame.sequence) = false := by
      cases hf : frame.isFinal with
      | false => rfl
      | true => exact hasPendingFrameAfter_eq_false.2 (h.last hf)
    simp [E2eStreamDecryptor.validateFrame, E2eStreamDecryptor.verifySender, h.streamId, h.sender,
      hdup, h.absent, h.unfinished, hwindow, checkFinal_eq_ok.2 h.beforeFinal, hlast]

end Validation

/-! ### The gapless run -/

/-- The frames of `m` from position `n` on without a gap, up to a final one. -/
def gaplessRun (m : BTreeMap ℕ E2eStreamFrame) : ℕ → ℕ → List E2eStreamFrame
  | 0, _ => []
  | turns + 1, n =>
    match m.get? n with
    | none => []
    | some frame => frame :: if frame.isFinal then [] else gaplessRun m turns (n + 1)

/-- The run only reads positions from `n` on. -/
theorem gaplessRun_congr {m m' : BTreeMap ℕ E2eStreamFrame} {turns n : ℕ}
    (h : ∀ k, n ≤ k → m.get? k = m'.get? k) : gaplessRun m turns n = gaplessRun m' turns n := by
  induction turns generalizing n with
  | zero => rfl
  | succ turns ih =>
    rw [gaplessRun, gaplessRun, h n le_rfl, ih fun k hk => h k (by omega)]

theorem gaplessRun_remove (m : BTreeMap ℕ E2eStreamFrame) (turns n : ℕ) :
    gaplessRun (m.remove n) turns (n + 1) = gaplessRun m turns (n + 1) := by
  refine gaplessRun_congr fun k hk => ?_
  rw [BTreeMap.get?_remove, if_neg (by omega)]

def Gapless (m : BTreeMap ℕ E2eStreamFrame) : ℕ → List E2eStreamFrame → Prop
  | _, [] => True
  | n, frame :: run => m.get? n = some frame ∧ (frame.isFinal → run = []) ∧ Gapless m (n + 1) run

theorem gapless_gaplessRun (m : BTreeMap ℕ E2eStreamFrame) (turns n : ℕ) :
    Gapless m n (gaplessRun m turns n) := by
  induction turns generalizing n with
  | zero => trivial
  | succ turns ih =>
    rw [gaplessRun]
    cases hm : m.get? n with
    | none => trivial
    | some frame =>
      simp only
      split
      · exact ⟨hm, fun _ => rfl, trivial⟩
      · next hf => exact ⟨hm, fun h => absurd h hf, ih (n + 1)⟩

theorem Gapless.congr {m m' : BTreeMap ℕ E2eStreamFrame} {n : ℕ} {run : List E2eStreamFrame}
    (h : Gapless m n run) (hm : ∀ k, n ≤ k → m.get? k = m'.get? k) : Gapless m' n run := by
  induction run generalizing n with
  | nil => trivial
  | cons frame run ih =>
    exact ⟨(hm n le_rfl).symm.trans h.1, h.2.1, ih h.2.2 fun k hk => hm k (by omega)⟩

def E2eStreamDecryptor.takeFrame {S : Type} (d : E2eStreamDecryptor S) (frame : E2eStreamFrame) :
    E2eStreamDecryptor S :=
  { d with
    pendingFrames := d.pendingFrames.remove d.nextSequence
    seenFinal := d.seenFinal || frame.isFinal
    nextSequence := if frame.isFinal then d.nextSequence else d.nextSequence + 1 }

@[simp] theorem takeFrame_pendingFrames {S : Type} (d : E2eStreamDecryptor S) (frame : E2eStreamFrame) :
    (d.takeFrame frame).pendingFrames = d.pendingFrames.remove d.nextSequence := rfl

/-- Taking frames changes what is buffered, what comes next and whether the final one was seen. -/
theorem foldl_takeFrame_eq {S : Type} (run : List E2eStreamFrame) (d : E2eStreamDecryptor S) :
    ∃ pending seen next, run.foldl E2eStreamDecryptor.takeFrame d =
      { d with pendingFrames := pending, seenFinal := seen, nextSequence := next } := by
  induction run generalizing d with
  | nil => exact ⟨d.pendingFrames, d.seenFinal, d.nextSequence, rfl⟩
  | cons frame run ih =>
    obtain ⟨pending, seen, next, hrun⟩ := ih (d.takeFrame frame)
    exact ⟨pending, seen, next, hrun⟩

theorem foldl_takeFrame_key {S : Type} (run : List E2eStreamFrame)
    (d : E2eStreamDecryptor S) :
    (run.foldl E2eStreamDecryptor.takeFrame d).recipientSecretKey = d.recipientSecretKey := by
  obtain ⟨pending, seen, next, hrun⟩ := foldl_takeFrame_eq run d
  rw [hrun]

theorem Gapless.isFinal_eq_false {m : BTreeMap ℕ E2eStreamFrame} {n : ℕ}
    {before after : List E2eStreamFrame} {frame : E2eStreamFrame}
    (h : Gapless m n (before ++ frame :: after)) : ∀ f ∈ before, f.isFinal = false := by
  induction before generalizing n with
  | nil => simp
  | cons f before ih =>
    intro g hg
    rcases List.mem_cons.1 hg with rfl | hg
    · by_contra hf
      simpa using h.2.1 (by simpa using hf)
    · exact ih h.2.2 g hg

/-- Frames that are not final are taken one after the other, and what is behind them stays. -/
theorem foldl_takeFrame_open {S : Type} {run : List E2eStreamFrame}
    (h : ∀ f ∈ run, f.isFinal = false) (d : E2eStreamDecryptor S) :
    (run.foldl E2eStreamDecryptor.takeFrame d).nextSequence = d.nextSequence + run.length ∧
      (run.foldl E2eStreamDecryptor.takeFrame d).seenFinal = d.seenFinal ∧
      ∀ k, d.nextSequence + run.length ≤ k →
        (run.foldl E2eStreamDecryptor.takeFrame d).pendingFrames.get? k =
          d.pendingFrames.get? k := by
  induction run generalizing d with
  | nil => exact ⟨rfl, rfl, fun k _ => rfl⟩
  | cons frame run ih =>
    have hfinal := h frame List.mem_cons_self
    have hnext : (d.takeFrame frame).nextSequence = d.nextSequence + 1 := by
      simp [E2eStreamDecryptor.takeFrame, hfinal]
    have hseen : (d.takeFrame frame).seenFinal = d.seenFinal := by
      simp [E2eStreamDecryptor.takeFrame, hfinal]
    obtain ⟨hnext', hseen', hpending⟩ :=
      ih (fun f hf => h f (List.mem_cons_of_mem _ hf)) (d.takeFrame frame)
    rw [List.foldl_cons, List.length_cons]
    refine ⟨by omega, hseen'.trans hseen, fun k hk => ?_⟩
    rw [hpending k (by omega), takeFrame_pendingFrames, BTreeMap.get?_remove, if_neg (by omega)]

section Release

variable {P S : Type} [AddCommGroup P] [CommRing S] [Module S P]
variable {curve : Curve P S} {d : E2eStreamDecryptor S}

def plaintextOf? (curve : Curve P S) (secretKey : S) (frame : E2eStreamFrame) : Option Bytes :=
  (ElGamal.decryptBytes curve frame.ciphertext secretKey).toOption

/-- The frames `run` are decrypted to `texts`, and each but a final one has a successor. -/
def Decrypts (curve : Curve P S) (secretKey : S) (run : List E2eStreamFrame) (texts : List Bytes) :
    Prop :=
  List.Forall₂ (fun frame text => plaintextOf? curve secretKey frame = some text) run texts

/-- How the release of a run ends: every frame is taken, or one of them cannot be decrypted, or one
that is not final has the last sequence there is. The others have a successor. -/
inductive Released (curve : Curve P S) (d : E2eStreamDecryptor S) (plaintext : Bytes)
    (run : List E2eStreamFrame) : Except E2eError Bytes × E2eStreamDecryptor S → Prop
  | all (texts : List Bytes) (decrypts : Decrypts curve d.recipientSecretKey run texts)
      (fits : ∀ before frame after, run = before ++ frame :: after → frame.isFinal = false →
        d.nextSequence + before.length < u64Max) :
      Released curve d plaintext run
        (.ok (plaintext ++ texts.flatten), run.foldl .takeFrame d)
  | undecryptable (before after : List E2eStreamFrame) (frame : E2eStreamFrame)
      (texts : List Bytes) (e : CryptoError) (split : run = before ++ frame :: after)
      (decrypts : Decrypts curve d.recipientSecretKey before texts)
      (fails : plaintextOf? curve d.recipientSecretKey frame = none)
      (fits : before = [] ∨ d.nextSequence + before.length ≤ u64Max) :
      Released curve d plaintext run (.error (.crypto e), before.foldl .takeFrame d)
  | overflow (before after : List E2eStreamFrame) (frame : E2eStreamFrame)
      (texts : List Bytes) (text : Bytes) (split : run = before ++ frame :: after)
      (decrypts : Decrypts curve d.recipientSecretKey before texts)
      (decrypted : plaintextOf? curve d.recipientSecretKey frame = some text)
      (last : frame.isFinal = false ∧ u64Max ≤ d.nextSequence + before.length) :
      Released curve d plaintext run (.error .e2eFrameSequenceOverflow,
        { before.foldl E2eStreamDecryptor.takeFrame d with
          pendingFrames := (before.foldl E2eStreamDecryptor.takeFrame d).pendingFrames.remove
            (before.foldl E2eStreamDecryptor.takeFrame d).nextSequence })

theorem plaintextOf?_ok {secretKey : S} {frame : E2eStreamFrame} {text : Bytes}
    (h : ElGamal.decryptBytes curve frame.ciphertext secretKey = .ok text) :
    plaintextOf? curve secretKey frame = some text := by
  rw [plaintextOf?, h]
  rfl

theorem plaintextOf?_error {secretKey : S} {frame : E2eStreamFrame} {e : CryptoError}
    (h : ElGamal.decryptBytes curve frame.ciphertext secretKey = .error e) :
    plaintextOf? curve secretKey frame = none := by
  rw [plaintextOf?, h]
  rfl

theorem Released.cons {plaintext text : Bytes} {frame : E2eStreamFrame} {run : List E2eStreamFrame}
    {result : Except E2eError Bytes × E2eStreamDecryptor S} (hfinal : frame.isFinal = false)
    (htext : plaintextOf? curve d.recipientSecretKey frame = some text)
    (hfits : d.nextSequence < u64Max)
    (h : Released curve (d.takeFrame frame) (plaintext ++ text) run result) :
    Released curve d plaintext (frame :: run) result := by
  have hnext : (d.takeFrame frame).nextSequence = d.nextSequence + 1 := by
    simp [E2eStreamDecryptor.takeFrame, hfinal]
  cases h with
  | all texts decrypts fits =>
    have := @Released.all _ _ _ _ _ _ d plaintext _ (text :: texts) (.cons htext decrypts) <| by
      rintro (_ | ⟨a, before⟩) frame' after hsplit hlast
      · simpa using hfits
      · rw [List.cons_append] at hsplit
        injection hsplit with ha hsplit
        have := fits before frame' after hsplit hlast
        rw [List.length_cons]
        omega
    rwa [List.flatten_cons, ← List.append_assoc] at this
  | undecryptable before after frame' texts e split decrypts fails fits =>
    refine .undecryptable (frame :: before) after frame' (text :: texts) e (by rw [split]; rfl)
      (.cons htext decrypts) fails (.inr ?_)
    rw [List.length_cons]
    rcases fits with rfl | fits
    · rw [List.length_nil]
      omega
    · omega
  | overflow before after frame' texts text' split decrypts decrypted last =>
    refine .overflow (frame :: before) after frame' (text :: texts) text' (by rw [split]; rfl)
      (.cons htext decrypts) decrypted ⟨last.1, ?_⟩
    have hlast := last.2
    rw [List.length_cons]
    omega

theorem nextSequence_eq_ok {n m : ℕ} (h : nextSequence n = .ok m) : m = n + 1 ∧ n < u64Max := by
  unfold nextSequence checkedAdd at h
  split at h
  · cases h
    exact ⟨rfl, by omega⟩
  · cases h

theorem nextSequence_eq_error {n : ℕ} {e : E2eError} (h : nextSequence n = .error e) :
    e = .e2eFrameSequenceOverflow ∧ u64Max ≤ n := by
  unfold nextSequence checkedAdd at h
  split at h
  · cases h
  · cases h
    exact ⟨rfl, by omega⟩

theorem released_nil (d : E2eStreamDecryptor S) (plaintext : Bytes) :
    Released curve d plaintext [] (.ok plaintext, d) := by
  have := @Released.all _ _ _ _ _ curve d plaintext _ [] .nil (by simp)
  rwa [List.flatten_nil, List.append_nil] at this

/-- The loop releases the gapless run at hand. -/
theorem released_decryptReadyFrames (turns : ℕ) (d : E2eStreamDecryptor S) (plaintext : Bytes) :
    Released curve d plaintext (gaplessRun d.pendingFrames turns d.nextSequence)
      (d.decryptReadyFrames curve turns plaintext) := by
  induction turns generalizing d plaintext with
  | zero =>
    exact released_nil d plaintext
  | succ turns ih =>
    rw [gaplessRun, E2eStreamDecryptor.decryptReadyFrames]
    cases hm : d.pendingFrames.get? d.nextSequence with
    | none => exact released_nil d plaintext
    | some frame =>
      simp only
      cases hdecrypt : ElGamal.decryptBytes curve frame.ciphertext d.recipientSecretKey with
      | error e =>
        exact .undecryptable [] _ frame [] e rfl .nil (plaintextOf?_error hdecrypt) (.inl rfl)
      | ok text =>
        have htext := plaintextOf?_ok hdecrypt
        cases hfinal : frame.isFinal with
        | true =>
          have := @Released.all _ _ _ _ _ _ d plaintext _ [text] (.cons htext .nil) <| by
            rintro (_ | ⟨a, before⟩) frame' after hsplit hlast
            · cases hsplit
              simp [hfinal] at hlast
            · simp at hsplit
          simpa [E2eStreamDecryptor.takeFrame, hfinal] using this
        | false =>
          simp only [Bool.false_eq_true, if_false]
          cases hnext : nextSequence d.nextSequence with
          | error e =>
            obtain ⟨rfl, hlast⟩ := nextSequence_eq_error hnext
            exact .overflow [] _ frame [] text rfl .nil htext ⟨hfinal, hlast⟩
          | ok next =>
            obtain ⟨rfl, hfits⟩ := nextSequence_eq_ok hnext
            have htake : d.takeFrame frame = { d with
                pendingFrames := d.pendingFrames.remove d.nextSequence
                nextSequence := d.nextSequence + 1 } := by
              simp [E2eStreamDecryptor.takeFrame, hfinal]
            refine Released.cons hfinal htext hfits ?_
            rw [htake, ← gaplessRun_remove]
            exact ih _ _

/-! ### What is consumed -/

def consumedFrames (d : E2eStreamDecryptor S) : ℕ := d.nextSequence + d.seenFinal.toNat

/-- The first accepted copy of frame `n`. -/
def copyOf (accepted : List E2eStreamFrame) (n : ℕ) : Option E2eStreamFrame :=
  accepted.find? (·.sequence = n)

/-- The plaintext of the first accepted copy of frame `n`. -/
def plaintextAt (curve : Curve P S) (secretKey : S) (accepted : List E2eStreamFrame) (n : ℕ) :
    Bytes := ((copyOf accepted n).bind (plaintextOf? curve secretKey)).getD []

def plaintextUpTo (curve : Curve P S) (secretKey : S) (accepted : List E2eStreamFrame) (m : ℕ) :
    Bytes := (List.range m).flatMap (plaintextAt curve secretKey accepted)

/-- Of each frame at most one copy is accepted; it is buffered until it is consumed, and the copies
consumed are decrypted, the last of them alone being final. -/
structure Sound (curve : Curve P S) (d : E2eStreamDecryptor S) (accepted : List E2eStreamFrame) :
    Prop where
  pending : ∀ n frame, d.pendingFrames.get? n = some frame →
    frame.sequence = n ∧ frame ∈ accepted ∧ consumedFrames d ≤ n
  distinct : (accepted.map (·.sequence)).Nodup
  held : ∀ frame ∈ accepted, d.pendingFrames.get? frame.sequence = some frame ∨
    frame.sequence < consumedFrames d
  below : ∀ n < consumedFrames d, ∃ frame ∈ accepted, frame.sequence = n ∧
    (plaintextOf? curve d.recipientSecretKey frame).isSome ∧
    frame.isFinal = decide (n = d.nextSequence)

variable {accepted : List E2eStreamFrame}

theorem copyOf_eq_some (h : (accepted.map (·.sequence)).Nodup) {frame : E2eStreamFrame}
    (hmem : frame ∈ accepted) : copyOf accepted frame.sequence = some frame := by
  unfold copyOf
  cases hfind : accepted.find? (·.sequence = frame.sequence) with
  | none => simpa using List.find?_eq_none.1 hfind frame hmem
  | some other =>
    have hsequence : other.sequence = frame.sequence := by simpa using List.find?_some hfind
    rw [List.inj_on_of_nodup_map h (List.mem_of_find?_eq_some hfind) hmem hsequence]

theorem copyOf_append {n : ℕ} {frame : E2eStreamFrame} (h : copyOf accepted n = some frame)
    (more : List E2eStreamFrame) : copyOf (accepted ++ more) n = some frame := by
  unfold copyOf at h ⊢
  rw [List.find?_append, h]
  rfl

theorem plaintextUpTo_succ (secretKey : S) (m : ℕ) :
    plaintextUpTo curve secretKey accepted (m + 1) =
      plaintextUpTo curve secretKey accepted m ++ plaintextAt curve secretKey accepted m := by
  simp [plaintextUpTo, List.range_succ]

/-- What is consumed already stays as it is when more is accepted. -/
theorem Sound.plaintextUpTo_append (h : Sound curve d accepted) (more : List E2eStreamFrame) {m : ℕ}
    (hm : m ≤ consumedFrames d) :
    plaintextUpTo curve d.recipientSecretKey (accepted ++ more) m =
      plaintextUpTo curve d.recipientSecretKey accepted m := by
  refine List.flatMap_congr fun n hn => ?_
  obtain ⟨frame, hmem, rfl, -⟩ := h.below n ((List.mem_range.1 hn).trans_le hm)
  have hcopy := copyOf_eq_some h.distinct hmem
  rw [plaintextAt, plaintextAt, copyOf_append hcopy, hcopy]

theorem Sound.takeFrame (h : Sound curve d accepted) (hunfinished : d.seenFinal = false)
    {frame : E2eStreamFrame} {text : Bytes}
    (hframe : d.pendingFrames.get? d.nextSequence = some frame)
    (htext : plaintextOf? curve d.recipientSecretKey frame = some text) :
    Sound curve (d.takeFrame frame) accepted ∧
      consumedFrames (d.takeFrame frame) = consumedFrames d + 1 ∧
      plaintextUpTo curve d.recipientSecretKey accepted (consumedFrames d + 1) =
        plaintextUpTo curve d.recipientSecretKey accepted (consumedFrames d) ++ text := by
  obtain ⟨hsequence, hmem, -⟩ := h.pending _ _ hframe
  have hconsumed : consumedFrames d = d.nextSequence := by simp [consumedFrames, hunfinished]
  have hcount : consumedFrames (d.takeFrame frame) = d.nextSequence + 1 := by
    cases hfinal : frame.isFinal <;>
      simp [consumedFrames, E2eStreamDecryptor.takeFrame, hfinal, hunfinished]
  refine ⟨⟨fun n other hother => ?_, h.distinct, fun other hother => ?_, fun n hn => ?_⟩, ?_, ?_⟩
  · rw [takeFrame_pendingFrames, BTreeMap.get?_remove] at hother
    split at hother
    · cases hother
    · next hne =>
      obtain ⟨hn, hin, hle⟩ := h.pending n other hother
      exact ⟨hn, hin, by omega⟩
  · rw [takeFrame_pendingFrames, BTreeMap.get?_remove, hcount]
    rcases h.held other hother with hheld | hlt
    · by_cases hn : other.sequence = d.nextSequence
      · exact .inr (by omega)
      · rw [if_neg hn]
        exact .inl hheld
    · exact .inr (by omega)
  · rw [hcount] at hn
    by_cases hlt : n < d.nextSequence
    · obtain ⟨other, hin, hseq, hdecrypts, hlast⟩ := h.below n (by omega)
      refine ⟨other, hin, hseq, hdecrypts, ?_⟩
      rw [hlast]
      have hne : n ≠ d.nextSequence := by omega
      have hne' : n ≠ d.nextSequence + 1 := by omega
      simp only [E2eStreamDecryptor.takeFrame]
      split <;> simp [hne, hne']
    · obtain rfl : n = d.nextSequence := by omega
      refine ⟨frame, hmem, hsequence, by rw [E2eStreamDecryptor.takeFrame, htext]; rfl, ?_⟩
      cases hfinal : frame.isFinal <;> simp [E2eStreamDecryptor.takeFrame, hfinal]
  · rw [hcount, hconsumed]
  · have hcopy := copyOf_eq_some h.distinct hmem
    rw [hsequence] at hcopy
    rw [plaintextUpTo_succ, hconsumed, plaintextAt, hcopy, Option.bind_some, htext,
      Option.getD_some]

theorem Sound.takeRun {run : List E2eStreamFrame} {texts : List Bytes}
    (h : Sound curve d accepted) (hunfinished : run ≠ [] → d.seenFinal = false)
    (hrun : Gapless d.pendingFrames d.nextSequence run)
    (htexts : Decrypts curve d.recipientSecretKey run texts) :
    Sound curve (run.foldl .takeFrame d) accepted ∧
      consumedFrames (run.foldl .takeFrame d) = consumedFrames d + run.length ∧
      plaintextUpTo curve d.recipientSecretKey accepted (consumedFrames d + run.length) =
        plaintextUpTo curve d.recipientSecretKey accepted (consumedFrames d) ++ texts.flatten := by
  induction run generalizing d texts with
  | nil =>
    cases htexts
    exact ⟨h, rfl, by simp⟩
  | cons frame run ih =>
    obtain _ | ⟨htext, htexts⟩ := htexts
    obtain ⟨hframe, hlast, hgapless⟩ := hrun
    have hopen := hunfinished (List.cons_ne_nil _ _)
    obtain ⟨hsound, hcount, hplain⟩ := h.takeFrame hopen hframe htext
    cases hfinal : frame.isFinal with
    | true =>
      obtain rfl := hlast hfinal
      cases htexts
      simpa using ⟨hsound, hcount, hplain⟩
    | false =>
      have hnext : (d.takeFrame frame).nextSequence = d.nextSequence + 1 := by
        simp [E2eStreamDecryptor.takeFrame, hfinal]
      have hgapless' : Gapless (d.takeFrame frame).pendingFrames (d.takeFrame frame).nextSequence
          run := by
        rw [hnext]
        refine hgapless.congr fun k hk => ?_
        rw [takeFrame_pendingFrames, BTreeMap.get?_remove, if_neg (by omega)]
      obtain ⟨hsound', hcount', hplain'⟩ := ih hsound
        (fun _ => by simp [E2eStreamDecryptor.takeFrame, hfinal, hopen]) hgapless' htexts
      have hlength : consumedFrames d + (frame :: run).length =
          consumedFrames (d.takeFrame frame) + run.length := by
        rw [hcount, List.length_cons]
        omega
      refine ⟨hsound', ?_, ?_⟩
      · rw [List.foldl_cons, hcount', hlength]
      · rw [hlength]
        refine hplain'.trans ?_
        rw [hcount]
        change plaintextUpTo curve d.recipientSecretKey accepted _ ++ _ = _
        rw [hplain, List.flatten_cons, List.append_assoc]

theorem Sound.buffer {address : CurveEle → Did} {frame : E2eStreamFrame}
    (h : Sound curve d accepted) (hnew : IsNew address d frame) :
    Sound curve (d.buffer frame) (accepted ++ [frame]) := by
  have hconsumed : consumedFrames d = d.nextSequence := by simp [consumedFrames, hnew.unfinished]
  have hcount : consumedFrames (d.buffer frame) = consumedFrames d := rfl
  have hahead := hnew.ahead
  have hfresh : ∀ other ∈ accepted, other.sequence ≠ frame.sequence := by
    intro other hother heq
    rcases h.held other hother with hheld | hlt
    · rw [heq, hnew.absent] at hheld
      cases hheld
    · omega
  refine ⟨fun n other hother => ?_, ?_, fun other hother => ?_, fun n hn => ?_⟩
  · simp only [E2eStreamDecryptor.buffer, BTreeMap.get?_insert] at hother
    split at hother
    · next hn =>
      cases hother
      exact ⟨hn.symm, by simp, by omega⟩
    · obtain ⟨hn, hin, hle⟩ := h.pending n other hother
      exact ⟨hn, List.mem_append_left _ hin, hle⟩
  · rw [List.map_append, List.nodup_append]
    refine ⟨h.distinct, by simp, fun n hn m hm heq => ?_⟩
    obtain ⟨other, hother, rfl⟩ := List.mem_map.1 hn
    simp only [List.map_cons, List.map_nil, List.mem_singleton] at hm
    exact hfresh other hother (heq.trans hm)
  · simp only [E2eStreamDecryptor.buffer, BTreeMap.get?_insert]
    rcases List.mem_append.1 hother with hother | hother
    · rw [if_neg (hfresh other hother)]
      exact h.held other hother
    · rw [List.mem_singleton.1 hother, if_pos rfl]
      exact .inl rfl
  · obtain ⟨other, hother, hrest⟩ := h.below n hn
    exact ⟨other, List.mem_append_left _ hother, hrest⟩

/-! ### Calls -/

def bytesOf (result : Except E2eError Bytes) : Bytes := result.toOption.getD []

/-- The gapless run at hand once `frame` is buffered. -/
def runWith (d : E2eStreamDecryptor S) (frame : E2eStreamFrame) : List E2eStreamFrame :=
  gaplessRun (d.buffer frame).pendingFrames (d.buffer frame).pendingFrames.size d.nextSequence

theorem decryptNext_not_new {address : CurveEle → Did} {frame : E2eStreamFrame} {nowMs : ℕ}
    (h : ¬ IsNew address d frame) : (d.decryptNext curve address frame nowMs).2 = d ∧
      bytesOf (d.decryptNext curve address frame nowMs).1 = [] := by
  rw [← validateFrame_eq_new] at h
  unfold E2eStreamDecryptor.decryptNext E2eStreamDecryptor.accept
  rcases hvalid : d.validateFrame address frame with e | (_ | _)
  · exact ⟨rfl, rfl⟩
  · exact absurd hvalid h
  · simp only [ne_eq, not_true_eq_false, if_false]
    cases d.check nowMs <;> exact ⟨rfl, rfl⟩

/-- Without progress nothing was released. -/
theorem Released.still {address : CurveEle → Did} {frame : E2eStreamFrame} {plaintext : Bytes}
    {d' : E2eStreamDecryptor S} (h : Sound curve d accepted) (hnew : IsNew address d frame)
    (hreleased : Released curve (d.buffer frame) [] (runWith d frame) (.ok plaintext, d'))
    (hstill : (d'.nextSequence, d'.seenFinal) = (d.nextSequence, d.seenFinal)) :
    plaintext = [] := by
  obtain ⟨hnext, hseen⟩ := Prod.mk.inj hstill
  cases hreleased with
  | all texts decrypts =>
    obtain ⟨-, hcount, -⟩ := (h.buffer hnew).takeRun (fun _ => hnew.unfinished)
      (gapless_gaplessRun _ _ _) decrypts
    have hsame : consumedFrames ((runWith d frame).foldl .takeFrame (d.buffer frame)) =
        consumedFrames d := by
      simp only [consumedFrames, hnext, hseen]
    change consumedFrames ((runWith d frame).foldl .takeFrame (d.buffer frame)) =
      consumedFrames d + (runWith d frame).length at hcount
    have hlength := decrypts.length_eq
    have hnothing : texts = [] := List.eq_nil_of_length_eq_zero (by omega)
    rw [hnothing]
    rfl

/-- A release does not read the clock. -/
theorem Released.clock {frame : E2eStreamFrame} {plaintext : Bytes} {run : List E2eStreamFrame}
    {d' : E2eStreamDecryptor S}
    (hreleased : Released curve (d.buffer frame) [] run (.ok plaintext, d')) :
    d'.progressMs = d.progressMs ∧ d'.stallDeadline = d.stallDeadline := by
  cases hreleased with
  | all texts decrypts =>
    obtain ⟨pending, seen, next, hrun⟩ := foldl_takeFrame_eq run (d.buffer frame)
    rw [hrun]
    exact ⟨rfl, rfl⟩

/-- The state after a release, and the bytes released, whatever the time. -/
theorem decryptNext_new {address : CurveEle → Did} {frame : E2eStreamFrame} {nowMs : ℕ}
    (h : Sound curve d accepted) (hnew : IsNew address d frame) :
    ∃ result d' progressMs, Released curve (d.buffer frame) [] (runWith d frame) (result, d') ∧
      (d.decryptNext curve address frame nowMs).2 = { d' with progressMs := progressMs } ∧
      bytesOf (d.decryptNext curve address frame nowMs).1 = bytesOf result ∧
      (nowMs - d.progressMs ≤ d.stallDeadline →
        (d.decryptNext curve address frame nowMs).1 = result) := by
  have hreleased := @released_decryptReadyFrames _ _ _ _ _ curve
    (d.buffer frame).pendingFrames.size (d.buffer frame) []
  unfold E2eStreamDecryptor.decryptNext E2eStreamDecryptor.accept
  rw [validateFrame_eq_new.2 hnew]
  simp only
  rcases hresult : (d.buffer frame).decryptReadyFrames curve (d.buffer frame).pendingFrames.size []
    with ⟨e | plaintext, d'⟩
  · rw [hresult] at hreleased
    exact ⟨.error e, d', d'.progressMs, hreleased, rfl, rfl, fun _ => rfl⟩
  · rw [hresult] at hreleased
    simp only
    by_cases hmoved : (d'.nextSequence, d'.seenFinal) ≠ (d.nextSequence, d.seenFinal)
    · rw [if_pos hmoved]
      have hcheck : ({ d' with progressMs := nowMs } : E2eStreamDecryptor S).check nowMs = .ok () :=
        if_pos (by simp)
      rw [hcheck]
      exact ⟨.ok plaintext, d', nowMs, hreleased, rfl, rfl, fun _ => rfl⟩
    · rw [if_neg hmoved]
      have hnothing := hreleased.still h hnew (not_not.1 hmoved)
      obtain ⟨hprogress, hdeadline⟩ := hreleased.clock
      subst hnothing
      refine ⟨.ok [], d', d'.progressMs, hreleased, ?_, ?_, fun hlive => ?_⟩
      · cases d'.check nowMs <;> rfl
      · cases d'.check nowMs <;> rfl
      · have hcheck : d'.check nowMs = .ok () := by
          rw [E2eStreamDecryptor.check, hprogress, hdeadline]
          refine if_pos ?_
          simp only [Bool.or_eq_true, decide_eq_true_eq]
          exact .inr hlive
        rw [hcheck]

structure Session (S : Type) where
  decryptor : E2eStreamDecryptor S
  accepted : List E2eStreamFrame
  returned : Bytes

variable (curve) (address : CurveEle → Did)

def Session.call (s : Session S) (c : E2eStreamFrame × ℕ) : Session S where
  decryptor := (s.decryptor.decryptNext curve address c.1 c.2).2
  accepted := match s.decryptor.validateFrame address c.1 with
    | .ok .new => s.accepted ++ [c.1]
    | _ => s.accepted
  returned := s.returned ++ bytesOf (s.decryptor.decryptNext curve address c.1 c.2).1

def Session.run (s : Session S) (calls : List (E2eStreamFrame × ℕ)) : Session S :=
  calls.foldl (Session.call curve address) s

/-- What was returned are the plaintexts of the frames consumed, and what was accepted and not
consumed is still there. -/
structure Consumes (s : Session S) : Prop where
  returned : s.returned = plaintextUpTo curve s.decryptor.recipientSecretKey s.accepted
    (consumedFrames s.decryptor)
  held : ∀ frame ∈ s.accepted, s.decryptor.pendingFrames.get? frame.sequence = some frame ∨
    frame.sequence < consumedFrames s.decryptor

def readyFrames (secretKey : S) (run : List E2eStreamFrame) : List E2eStreamFrame :=
  run.takeWhile fun frame => (plaintextOf? curve secretKey frame).isSome

/-- `frame` is new and the run it completes holds a frame that cannot be decrypted behind frames with
plaintext, or one that is not final at the last sequence. -/
def Loses (d : E2eStreamDecryptor S) (frame : E2eStreamFrame) : Prop :=
  d.validateFrame address frame = .ok .new ∧
    ((readyFrames curve d.recipientSecretKey (runWith d frame) ≠ runWith d frame ∧
      (readyFrames curve d.recipientSecretKey (runWith d frame)).flatMap
        (fun f => (plaintextOf? curve d.recipientSecretKey f).getD []) ≠ []) ∨
      ∃ f ∈ readyFrames curve d.recipientSecretKey (runWith d frame),
        f.isFinal = false ∧ u64Max ≤ f.sequence)

variable {curve address}

structure Kept (curve : Curve P S) (s : Session S) : Prop where
  sound : Sound curve s.decryptor s.accepted
  returned : s.returned = plaintextUpTo curve s.decryptor.recipientSecretKey s.accepted
    (consumedFrames s.decryptor)

theorem Kept.consumes {s : Session S} (h : Kept curve s) : Consumes curve s :=
  ⟨h.returned, h.sound.held⟩

theorem Gapless.sequence_eq {n : ℕ} {before after : List E2eStreamFrame} {frame : E2eStreamFrame}
    (h : Sound curve d accepted) (hrun : Gapless d.pendingFrames n (before ++ frame :: after)) :
    frame.sequence = n + before.length ∧ frame ∈ accepted := by
  induction before generalizing n with
  | nil =>
    obtain ⟨hsequence, hmem, -⟩ := h.pending _ _ hrun.1
    exact ⟨hsequence, hmem⟩
  | cons f before ih =>
    obtain ⟨hsequence, hmem⟩ := ih hrun.2.2
    refine ⟨?_, hmem⟩
    rw [hsequence, List.length_cons]
    omega

theorem Gapless.before {m : BTreeMap ℕ E2eStreamFrame} {n : ℕ} {before after : List E2eStreamFrame}
    (h : Gapless m n (before ++ after)) : Gapless m n before := by
  induction before generalizing n with
  | nil => trivial
  | cons f before ih =>
    refine ⟨h.1, fun hf => ?_, ih h.2.2⟩
    have := h.2.1 hf
    exact (List.append_eq_nil_iff.1 this).1

theorem Decrypts.isSome {secretKey : S} {run : List E2eStreamFrame} {texts : List Bytes}
    (h : Decrypts curve secretKey run texts) :
    ∀ f ∈ run, (plaintextOf? curve secretKey f).isSome = true := by
  induction h with
  | nil => simp
  | cons hf _ ih =>
    intro f hmem
    rcases List.mem_cons.1 hmem with rfl | hmem
    · rw [hf]
      rfl
    · exact ih f hmem

theorem Decrypts.flatten {secretKey : S} {run : List E2eStreamFrame} {texts : List Bytes}
    (h : Decrypts curve secretKey run texts) :
    run.flatMap (fun f => (plaintextOf? curve secretKey f).getD []) = texts.flatten := by
  induction h with
  | nil => rfl
  | cons hf _ ih => rw [List.flatMap_cons, hf, Option.getD_some, List.flatten_cons, ih]

/-- The frames before one that cannot be decrypted are those that are ready. -/
theorem readyFrames_eq {secretKey : S} {before after : List E2eStreamFrame} {frame : E2eStreamFrame}
    {texts : List Bytes} (h : Decrypts curve secretKey before texts)
    (hfails : plaintextOf? curve secretKey frame = none) :
    readyFrames curve secretKey (before ++ frame :: after) = before := by
  rw [readyFrames, List.takeWhile_append_of_pos h.isSome, List.takeWhile_cons, hfails]
  simp

theorem Sound.progress (h : Sound curve d accepted) (progressMs : ℕ) :
    Sound curve { d with progressMs := progressMs } accepted :=
  ⟨h.pending, h.distinct, h.held, h.below⟩

/-- The call of a new frame keeps what it should just where it loses nothing. -/
theorem Kept.call_new {s : Session S} {c : E2eStreamFrame × ℕ} (h : Kept curve s)
    (hnew : IsNew address s.decryptor c.1) :
    (¬ Loses curve address s.decryptor c.1 → Kept curve (s.call curve address c)) ∧
      (Loses curve address s.decryptor c.1 → ¬ Consumes curve (s.call curve address c)) := by
  obtain ⟨d, accepted, returned⟩ := s
  obtain ⟨frame, nowMs⟩ := c
  obtain ⟨hsound, hreturned⟩ := h
  simp only at hsound hreturned hnew
  obtain ⟨result, d', progressMs, hreleased, hstate, hbytes, -⟩ :=
    @decryptNext_new _ _ _ _ _ _ _ _ _ _ nowMs hsound hnew
  have hbuffer := hsound.buffer hnew
  have hgapless : Gapless (d.buffer frame).pendingFrames d.nextSequence (runWith d frame) :=
    gapless_gaplessRun _ _ _
  have hcall : Session.call curve address ⟨d, accepted, returned⟩ (frame, nowMs) =
      ⟨{ d' with progressMs := progressMs }, accepted ++ [frame], returned ++ bytesOf result⟩ := by
    simp only [Session.call, hstate, hbytes, validateFrame_eq_new.2 hnew]
  have hbefore : returned = plaintextUpTo curve d.recipientSecretKey (accepted ++ [frame])
      (consumedFrames d) := hreturned.trans (hsound.plaintextUpTo_append [frame] le_rfl).symm
  have hloses : Loses curve address d frame ↔
      (readyFrames curve d.recipientSecretKey (runWith d frame) ≠ runWith d frame ∧
        (readyFrames curve d.recipientSecretKey (runWith d frame)).flatMap
          (fun f => (plaintextOf? curve d.recipientSecretKey f).getD []) ≠ []) ∨
      ∃ f ∈ readyFrames curve d.recipientSecretKey (runWith d frame),
        f.isFinal = false ∧ u64Max ≤ f.sequence :=
    and_iff_right (validateFrame_eq_new.2 hnew)
  rw [hcall, hloses]
  cases hreleased with
  | all texts decrypts fits =>
    obtain ⟨hsound', hcount, hplain⟩ := hbuffer.takeRun (fun _ => hnew.unfinished) hgapless decrypts
    have hready : readyFrames curve d.recipientSecretKey (runWith d frame) = runWith d frame :=
      List.takeWhile_eq_self_iff.2 decrypts.isSome
    constructor
    · intro _
      refine ⟨hsound'.progress progressMs, ?_⟩
      change returned ++ texts.flatten = plaintextUpTo curve (_ : E2eStreamDecryptor S).recipientSecretKey
        _ (consumedFrames (List.foldl _ _ _))
      rw [foldl_takeFrame_key, hcount, hplain, hbefore]
      rfl
    · rintro (⟨hne, -⟩ | ⟨f, hf, hfinal, hlast⟩)
      · exact absurd hready hne
      · rw [hready] at hf
        obtain ⟨before, after, hsplit⟩ := List.append_of_mem hf
        have hfit := fits before f after hsplit hfinal
        rw [hsplit] at hgapless
        have := (hgapless.sequence_eq hbuffer).1
        simp only [E2eStreamDecryptor.buffer] at hfit
        omega
  | undecryptable before after stuck texts e split decrypts fails fits =>
    rw [split] at hgapless
    obtain ⟨hsound', hcount, hplain⟩ := hbuffer.takeRun (fun _ => hnew.unfinished)
      hgapless.before decrypts
    have hready : readyFrames curve d.recipientSecretKey (runWith d frame) = before := by
      rw [split]
      exact readyFrames_eq decrypts fails
    have hlost : (readyFrames curve d.recipientSecretKey (runWith d frame)).flatMap
        (fun f => (plaintextOf? curve d.recipientSecretKey f).getD []) = texts.flatten := by
      rw [hready]
      exact decrypts.flatten
    have hconsumed : plaintextUpTo curve (before.foldl .takeFrame (d.buffer frame)).recipientSecretKey
        (accepted ++ [frame]) (consumedFrames (before.foldl .takeFrame (d.buffer frame))) =
          returned ++ texts.flatten := by
      rw [foldl_takeFrame_key, hcount, hplain, hbefore]
      rfl
    constructor
    · intro hkeeps
      have hnone : texts.flatten = [] := by
        by_contra hsome
        refine hkeeps (.inl ⟨?_, by rwa [hlost]⟩)
        rw [hready, split]
        simp
      refine ⟨hsound'.progress progressMs, ?_⟩
      rw [hnone, List.append_nil] at hconsumed
      exact (List.append_nil returned).trans hconsumed.symm
    · rintro (⟨-, hsome⟩ | ⟨f, hf, hfinal, hlast⟩) hconsumes
      · have hall : returned ++ [] = returned ++ texts.flatten :=
          hconsumes.returned.trans hconsumed
        rw [hlost] at hsome
        exact hsome (List.append_cancel_left hall).symm
      · rw [hready] at hf
        obtain ⟨ahead, behind, rfl⟩ := List.append_of_mem hf
        have := (hgapless.before.sequence_eq hbuffer).1
        have hfit := fits.resolve_left (by simp)
        simp only [E2eStreamDecryptor.buffer, List.length_append, List.length_cons] at hfit
        omega
  | overflow before after stuck texts text split decrypts decrypted last =>
    rw [split] at hgapless
    obtain ⟨hsequence, hmem⟩ := hgapless.sequence_eq hbuffer
    obtain ⟨hnext, hseen, -⟩ :=
      foldl_takeFrame_open hgapless.isFinal_eq_false (d.buffer frame)
    have hfull : u64Max ≤ d.nextSequence + before.length := last.2
    constructor
    · intro hkeeps
      have hisSome : ∀ f ∈ before, (plaintextOf? curve d.recipientSecretKey f).isSome = true :=
        decrypts.isSome
      have hdecrypted : plaintextOf? curve d.recipientSecretKey stuck = some text := decrypted
      refine absurd (.inr ⟨stuck, ?_, last.1, by omega⟩) hkeeps
      rw [readyFrames, split, List.takeWhile_append_of_pos hisSome, List.takeWhile_cons, hdecrypted]
      simp
    · intro _ hconsumes
      -- the last frame left the buffer and is not consumed
      have hposition : (before.foldl E2eStreamDecryptor.takeFrame (d.buffer frame)).nextSequence =
          stuck.sequence := hnext.trans hsequence.symm
      have hcount : consumedFrames (before.foldl E2eStreamDecryptor.takeFrame (d.buffer frame)) =
          stuck.sequence := by
        rw [consumedFrames, hposition, hseen]
        simp [E2eStreamDecryptor.buffer, hnew.unfinished]
      rcases hconsumes.held stuck hmem with hheld | hlt
      · change ((before.foldl E2eStreamDecryptor.takeFrame (d.buffer frame)).pendingFrames.remove
          (before.foldl E2eStreamDecryptor.takeFrame (d.buffer frame)).nextSequence).get? _ = _ at hheld
        rw [hposition, BTreeMap.get?_remove, if_pos rfl] at hheld
        cases hheld
      · change stuck.sequence < consumedFrames (before.foldl _ (d.buffer frame)) at hlt
        omega

theorem call_not_new {s : Session S} {c : E2eStreamFrame × ℕ}
    (hnew : ¬ IsNew address s.decryptor c.1) : s.call curve address c = s := by
  obtain ⟨hstate, hbytes⟩ := @decryptNext_not_new _ _ _ _ _ curve _ _ _ c.2 hnew
  rw [← validateFrame_eq_new] at hnew
  unfold Session.call
  rw [hstate, hbytes, List.append_nil]
  rcases hvalid : s.decryptor.validateFrame address c.1 with e | (_ | _)
  · rfl
  · exact absurd hvalid hnew
  · rfl

/-- One call keeps what it should just where it loses nothing. -/
theorem Kept.call {s : Session S} {c : E2eStreamFrame × ℕ} (h : Kept curve s) :
    (¬ Loses curve address s.decryptor c.1 → Kept curve (s.call curve address c)) ∧
      (Loses curve address s.decryptor c.1 → ¬ Consumes curve (s.call curve address c)) := by
  by_cases hnew : IsNew address s.decryptor c.1
  · exact h.call_new hnew
  · rw [call_not_new hnew]
    exact ⟨fun _ => h, fun hloses => absurd (validateFrame_eq_new.1 hloses.1) hnew⟩

theorem kept_new (streamId : Uuid) (sender : Did) (secretKey : S) (window deadline nowMs : ℕ) :
    Kept curve ⟨.new streamId sender secretKey window deadline nowMs, [], []⟩ where
  sound := ⟨(fun n frame h => by cases h), List.nodup_nil, by simp, (fun n hn => by cases hn)⟩
  returned := rfl

variable (curve address)

def Session.new (streamId : Uuid) (sender : Did) (secretKey : S) (window deadline nowMs : ℕ) :
    Session S := ⟨.new streamId sender secretKey window deadline nowMs, [], []⟩

/-- After every call the bytes returned are the plaintexts of the frames consumed, just where no call
loses a plaintext it released. -/
theorem consumes_iff (streamId : Uuid) (sender : Did) (secretKey : S) (window deadline nowMs : ℕ)
    (calls : List (E2eStreamFrame × ℕ)) :
    (∀ before, before <+: calls → Consumes curve
      ((Session.new streamId sender secretKey window deadline nowMs).run curve address before)) ↔
    ∀ before c, before ++ [c] <+: calls → ¬ Loses curve address
      ((Session.new streamId sender secretKey window deadline nowMs).run curve address
        before).decryptor c.1 := by
  set s := Session.new streamId sender secretKey window deadline nowMs with hs
  have hrun : ∀ before c, s.run curve address (before ++ [c]) =
      (s.run curve address before).call curve address c := fun before c => by
    simp [Session.run]
  have hstart : Kept curve (s.run curve address []) := kept_new _ _ _ _ _ _
  constructor
  · intro hall
    -- nothing was lost so far, so the next call is judged from a sound state
    have hkept : ∀ before, before <+: calls → Kept curve (s.run curve address before) := by
      intro before
      induction before using List.reverseRecOn with
      | nil => exact fun _ => hstart
      | append_singleton before c ih =>
        intro hbegins
        have hkept := ih ((List.prefix_append before [c]).trans hbegins)
        have hconsumes := hall _ hbegins
        rw [hrun] at hconsumes ⊢
        exact hkept.call.1 fun hloses => hkept.call.2 hloses hconsumes
    intro before c hbegins hloses
    have hconsumes := hall _ hbegins
    rw [hrun] at hconsumes
    exact (hkept before ((List.prefix_append before [c]).trans hbegins)).call.2 hloses hconsumes
  · intro hkeeps before
    have hkept : before <+: calls → Kept curve (s.run curve address before) := by
      induction before using List.reverseRecOn with
      | nil => exact fun _ => hstart
      | append_singleton before c ih =>
        intro hbegins
        rw [hrun]
        exact (ih ((List.prefix_append before [c]).trans hbegins)).call.1
          (hkeeps before c hbegins)
    exact fun hbegins => (hkept hbegins).consumes

end Release

/-! ### A plaintext lost -/

/-- A curve of one point, with the plaintext `[7]` and one encoding. -/
def onePoint : Curve (ZMod 1) (ZMod 1) where
  generatorMul _ := 0
  xBytes _ := ElGamal.encodeFieldCandidate [7]
  decompress _ _ := none
  encodeSec1 _ := .replicate 33 2
  decodeSec1 encoded := if encoded = .replicate 33 2 then some 0 else none

/-- Frame 1 has a block that is no point, and arrives before frame 0, which can be decrypted. -/
def brokenSecond : List (E2eStreamFrame × ℕ) :=
  [(⟨0, .replicate 33 2, 1, true, [(.replicate 33 0, .replicate 33 0)]⟩, 0),
    (⟨0, .replicate 33 2, 0, false, [(.replicate 33 2, .replicate 33 2)]⟩, 0)]

/-- Frame 0 is consumed, and no call returns its plaintext. -/
theorem brokenSecond_loses : ¬ Consumes onePoint
    ((Session.new 0 0 0 32 80000 0).run onePoint (fun _ => 0) brokenSecond) := by
  intro h
  have hlost : ((Session.new 0 0 0 32 80000 0).run onePoint (fun _ => 0) brokenSecond).returned ≠
      plaintextUpTo onePoint
        ((Session.new 0 0 0 32 80000 0).run onePoint (fun _ => 0)
          brokenSecond).decryptor.recipientSecretKey
        ((Session.new 0 0 0 32 80000 0).run onePoint (fun _ => 0) brokenSecond).accepted
        (consumedFrames ((Session.new 0 0 0 32 80000 0).run onePoint (fun _ => 0)
          brokenSecond).decryptor) := by
    decide +kernel
  exact hlost h.returned

end Rings.E2e
