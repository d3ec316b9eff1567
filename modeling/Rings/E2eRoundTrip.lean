import Rings.E2eRelease

/-!
End-to-end streams release exactly the plaintext: whatever frames arrive, what was returned is a
prefix of the stream, and of a stream encrypted for the recipient it is all, once each frame arrived.
-/

namespace Rings.E2e

open ElGamal (Bytes CurveEle Curve CryptoError)

section Taking

variable {S : Type} {address : CurveEle → Did} {d : E2eStreamDecryptor S}

/-- The run at hand begins with the frame at the next position. -/
theorem runWith_eq_cons {frame next : E2eStreamFrame} (hnew : IsNew address d frame)
    (hnext : d.pendingFrames.get? d.nextSequence = some next) :
    ∃ rest, runWith d frame = next :: rest := by
  have hne : d.nextSequence ≠ frame.sequence := by
    intro heq
    rw [heq, hnew.absent] at hnext
    cases hnext
  have hget : (d.buffer frame).pendingFrames.get? d.nextSequence = some next := by
    rw [E2eStreamDecryptor.buffer, BTreeMap.get?_insert, if_neg hne]
    exact hnext
  have hsize := BTreeMap.size_remove hget
  unfold runWith
  rw [← hsize, gaplessRun, hget]
  exact ⟨_, rfl⟩

theorem Gapless.get?_after {m : BTreeMap ℕ E2eStreamFrame} {n : ℕ}
    {before after : List E2eStreamFrame} {frame : E2eStreamFrame}
    (h : Gapless m n (before ++ frame :: after)) : m.get? (n + before.length) = some frame := by
  induction before generalizing n with
  | nil => exact h.1
  | cons f before ih =>
    rw [List.length_cons, Nat.add_comm before.length, ← Nat.add_assoc]
    exact ih h.2.2

theorem get?_eq_none_of_size {m : BTreeMap ℕ E2eStreamFrame} (h : m.size = 0) (n : ℕ) :
    m.get? n = none := by
  cases hm : m.get? n with
  | none => rfl
  | some frame =>
    have := BTreeMap.size_remove hm
    omega

/-- With a turn for each frame the run ends at a final frame or where none is. -/
theorem gaplessRun_ends {m : BTreeMap ℕ E2eStreamFrame} {turns n : ℕ} (h : m.size ≤ turns) :
    (∃ frame ∈ gaplessRun m turns n, frame.isFinal) ∨
      m.get? (n + (gaplessRun m turns n).length) = none := by
  induction turns generalizing m n with
  | zero => exact .inr (get?_eq_none_of_size (by omega) _)
  | succ turns ih =>
    rw [gaplessRun]
    cases hm : m.get? n with
    | none => exact .inr hm
    | some frame =>
      cases hfinal : frame.isFinal with
      | true => exact .inl ⟨frame, List.mem_cons_self, hfinal⟩
      | false =>
        have hsize := BTreeMap.size_remove hm
        have hrest : (if frame.isFinal then [] else gaplessRun m turns (n + 1)) =
            gaplessRun (m.remove n) turns (n + 1) := by
          rw [hfinal, gaplessRun_remove]
          rfl
        simp only [hrest]
        rcases ih (m := m.remove n) (n := n + 1) (by omega) with ⟨f, hf, hlast⟩ | hnone
        · exact .inl ⟨f, List.mem_cons_of_mem _ hf, hlast⟩
        · right
          rw [BTreeMap.get?_remove, if_neg (by omega)] at hnone
          rw [List.length_cons, ← hnone]
          congr 1
          omega

/-- A run that ends at a final frame finishes the stream, any other leaves it open. -/
theorem Gapless.foldl_seenFinal {m : BTreeMap ℕ E2eStreamFrame} {n : ℕ}
    {run : List E2eStreamFrame} (h : Gapless m n run) {d : E2eStreamDecryptor S}
    (hd : d.seenFinal = false) :
    (run.foldl E2eStreamDecryptor.takeFrame d).seenFinal = run.any (·.isFinal) := by
  induction run generalizing n d with
  | nil => exact hd
  | cons frame run ih =>
    cases hfinal : frame.isFinal with
    | true =>
      obtain rfl := h.2.1 hfinal
      simp [E2eStreamDecryptor.takeFrame, hfinal]
    | false =>
      rw [List.foldl_cons, ih h.2.2 (by simp [E2eStreamDecryptor.takeFrame, hd, hfinal]),
        List.any_cons, hfinal, Bool.false_or]

end Taking

variable {P S : Type} [AddCommGroup P] [CommRing S] [Module S P]
variable {curve : Curve P S} {address : CurveEle → Did} {d : E2eStreamDecryptor S}
variable {accepted : List E2eStreamFrame}

/-! ### Arbitrary frames -/

def Stuck (curve : Curve P S) (d : E2eStreamDecryptor S) : Prop :=
  d.seenFinal = false ∧ ∃ frame, d.pendingFrames.get? d.nextSequence = some frame ∧
    plaintextOf? curve d.recipientSecretKey frame = none

/-- What was returned are the plaintexts of the first frames: all that are consumed, or fewer and
nothing more will be. -/
structure Prefixed (curve : Curve P S) (s : Session S) : Prop where
  sound : Sound curve s.decryptor s.accepted
  numbered : ∀ frame ∈ s.accepted, frame.isFinal = false → frame.sequence < u64Max
  returned : ∃ m ≤ consumedFrames s.decryptor,
    s.returned = plaintextUpTo curve s.decryptor.recipientSecretKey s.accepted m ∧
    (m = consumedFrames s.decryptor ∨ Stuck curve s.decryptor)

theorem Prefixed.call_new {s : Session S} {c : E2eStreamFrame × ℕ} (h : Prefixed curve s)
    (hnumbered : c.1.isFinal = false → c.1.sequence < u64Max)
    (hnew : IsNew address s.decryptor c.1) : Prefixed curve (s.call curve address c) := by
  obtain ⟨d, accepted, returned⟩ := s
  obtain ⟨frame, nowMs⟩ := c
  obtain ⟨hsound, hall, m, hm, hreturned, hstuck⟩ := h
  simp only at hsound hall hreturned hnew hm hstuck hnumbered
  obtain ⟨result, d', progressMs, hreleased, hstate, hbytes, -⟩ :=
    @decryptNext_new _ _ _ _ _ _ _ _ _ _ nowMs hsound hnew
  have hbuffer := hsound.buffer hnew
  have hgapless : Gapless (d.buffer frame).pendingFrames d.nextSequence (runWith d frame) :=
    gapless_gaplessRun _ _ _
  have hcall : Session.call curve address ⟨d, accepted, returned⟩ (frame, nowMs) =
      ⟨{ d' with progressMs := progressMs }, accepted ++ [frame], returned ++ bytesOf result⟩ := by
    simp only [Session.call, hstate, hbytes, validateFrame_eq_new.2 hnew]
  have hnumbered' : ∀ f ∈ accepted ++ [frame], f.isFinal = false → f.sequence < u64Max := by
    intro f hf
    rcases List.mem_append.1 hf with hf | hf
    · exact hall f hf
    · rw [List.mem_singleton.1 hf]
      exact hnumbered
  have hbefore : returned = plaintextUpTo curve d.recipientSecretKey (accepted ++ [frame]) m :=
    hreturned.trans (hsound.plaintextUpTo_append [frame] hm).symm
  rw [hcall]
  -- a stuck stream has no frame to take
  have hfirst : m ≠ consumedFrames d → ∃ stuck rest, runWith d frame = stuck :: rest ∧
      plaintextOf? curve d.recipientSecretKey stuck = none := by
    intro hne
    obtain ⟨-, next, hnext, hfails⟩ := hstuck.resolve_left hne
    obtain ⟨rest, hrest⟩ := runWith_eq_cons hnew hnext
    exact ⟨next, rest, hrest, hfails⟩
  cases hreleased with
  | all texts decrypts fits =>
    obtain ⟨hsound', hcount, hplain⟩ := hbuffer.takeRun (fun _ => hnew.unfinished) hgapless decrypts
    obtain rfl : m = consumedFrames d := by
      by_contra hne
      obtain ⟨stuck, rest, hrun, hfails⟩ := hfirst hne
      have : (plaintextOf? curve d.recipientSecretKey stuck).isSome = true :=
        decrypts.isSome stuck (by rw [hrun]; exact List.mem_cons_self)
      rw [hfails] at this
      cases this
    refine ⟨hsound'.progress progressMs, hnumbered', _, le_rfl, ?_, .inl rfl⟩
    change returned ++ texts.flatten = plaintextUpTo curve (_ : E2eStreamDecryptor S).recipientSecretKey
      _ (consumedFrames (List.foldl _ _ _))
    rw [foldl_takeFrame_key, hcount, hplain, hbefore]
    rfl
  | undecryptable before after stuck texts e split decrypts fails fits =>
    rw [split] at hgapless
    obtain ⟨hsound', hcount, hplain⟩ := hbuffer.takeRun (fun _ => hnew.unfinished)
      hgapless.before decrypts
    obtain ⟨hnext, hseen, hbehind⟩ :=
      foldl_takeFrame_open hgapless.isFinal_eq_false (d.buffer frame)
    refine ⟨hsound'.progress progressMs, hnumbered', m, ?_, ?_, .inr ⟨?_, stuck, ?_, ?_⟩⟩
    · change m ≤ consumedFrames (List.foldl _ _ _)
      rw [hcount]
      exact hm.trans (Nat.le_add_right _ _)
    · change returned ++ [] = plaintextUpTo curve (_ : E2eStreamDecryptor S).recipientSecretKey _ m
      rw [foldl_takeFrame_key, List.append_nil]
      exact hbefore
    · exact hseen.trans hnew.unfinished
    · change (List.foldl _ _ _ : E2eStreamDecryptor S).pendingFrames.get? (List.foldl _ _ _ :
        E2eStreamDecryptor S).nextSequence = _
      rw [hnext]
      exact (hbehind _ le_rfl).trans hgapless.get?_after
    · rw [foldl_takeFrame_key]
      exact fails
  | overflow before after stuck texts text split decrypts decrypted last =>
    rw [split] at hgapless
    obtain ⟨hsequence, hmem⟩ := hgapless.sequence_eq hbuffer
    have := hnumbered' stuck hmem last.1
    have hfull : u64Max ≤ d.nextSequence + before.length := last.2
    omega

theorem Prefixed.call {s : Session S} {c : E2eStreamFrame × ℕ} (h : Prefixed curve s)
    (hnumbered : c.1.isFinal = false → c.1.sequence < u64Max) :
    Prefixed curve (s.call curve address c) := by
  by_cases hnew : IsNew address s.decryptor c.1
  · exact h.call_new hnumbered hnew
  · rw [call_not_new hnew]
    exact h

theorem Prefixed.call_key {s : Session S} {c : E2eStreamFrame × ℕ} (h : Prefixed curve s) :
    (s.call curve address c).decryptor.recipientSecretKey = s.decryptor.recipientSecretKey := by
  by_cases hnew : IsNew address s.decryptor c.1
  · obtain ⟨result, d', progressMs, hreleased, hstate, -, -⟩ :=
      @decryptNext_new _ _ _ _ _ curve _ _ _ _ c.2 h.sound hnew
    simp only [Session.call, hstate]
    cases hreleased <;> exact foldl_takeFrame_key _ _
  · rw [call_not_new hnew]

theorem prefixed_new (streamId : Uuid) (sender : Did) (secretKey : S)
    (window deadline nowMs : ℕ) :
    Prefixed curve (Session.new streamId sender secretKey window deadline nowMs) where
  sound := (kept_new streamId sender secretKey window deadline nowMs).sound
  numbered := by simp [Session.new]
  returned := ⟨0, Nat.zero_le _, rfl, .inl rfl⟩

theorem Session.run_concat (s : Session S) (calls : List (E2eStreamFrame × ℕ))
    (c : E2eStreamFrame × ℕ) :
    s.run curve address (calls ++ [c]) = (s.run curve address calls).call curve address c := by
  simp [Session.run]

theorem Prefixed.run {s : Session S} (h : Prefixed curve s) {calls : List (E2eStreamFrame × ℕ)}
    (hnumbered : ∀ c ∈ calls, c.1.isFinal = false → c.1.sequence < u64Max) :
    Prefixed curve (s.run curve address calls) := by
  induction calls using List.reverseRecOn with
  | nil => exact h
  | append_singleton calls c ih =>
    rw [Session.run_concat]
    exact (ih fun c' hc' => hnumbered c' (List.mem_append_left _ hc')).call
      (hnumbered c (by simp))

theorem run_key {s : Session S} (h : Prefixed curve s) {calls : List (E2eStreamFrame × ℕ)}
    (hnumbered : ∀ c ∈ calls, c.1.isFinal = false → c.1.sequence < u64Max) :
    (s.run curve address calls).decryptor.recipientSecretKey = s.decryptor.recipientSecretKey := by
  induction calls using List.reverseRecOn with
  | nil => rfl
  | append_singleton calls c ih =>
    have hcalls : ∀ c' ∈ calls, c'.1.isFinal = false → c'.1.sequence < u64Max := fun c' hc' =>
      hnumbered c' (List.mem_append_left _ hc')
    rw [Session.run_concat, (h.run hcalls).call_key, ih hcalls]

/-- The first `m` frames were accepted and decrypted. -/
def Holds (curve : Curve P S) (s : Session S) (m : ℕ) : Prop :=
  ∀ n < m, ∃ frame, copyOf s.accepted n = some frame ∧
    (plaintextOf? curve s.decryptor.recipientSecretKey frame).isSome

theorem Prefixed.holds {s : Session S} (h : Prefixed curve s) {m : ℕ}
    (hm : m ≤ consumedFrames s.decryptor) : Holds curve s m := by
  intro n hn
  obtain ⟨frame, hmem, rfl, hdecrypts, -⟩ := h.sound.below n (hn.trans_le hm)
  exact ⟨frame, copyOf_eq_some h.sound.distinct hmem, hdecrypts⟩

theorem Prefixed.finished {s : Session S} (h : Prefixed curve s) {m : ℕ}
    (hm : m ≤ consumedFrames s.decryptor)
    (hstuck : m = consumedFrames s.decryptor ∨ Stuck curve s.decryptor)
    (hfinish : s.decryptor.finish = .ok ()) :
    ∃ frame, copyOf s.accepted (m - 1) = some frame ∧ frame.isFinal ∧ 0 < m := by
  have hseen : s.decryptor.seenFinal = true := by
    by_contra hnot
    simp [E2eStreamDecryptor.finish, hnot] at hfinish
  have hcount : consumedFrames s.decryptor = s.decryptor.nextSequence + 1 := by
    simp [consumedFrames, hseen]
  obtain rfl : m = consumedFrames s.decryptor := hstuck.resolve_right fun hstuck => by
    rw [hstuck.1] at hseen
    cases hseen
  obtain ⟨frame, hmem, hsequence, -, hfinal⟩ := h.sound.below s.decryptor.nextSequence (by omega)
  refine ⟨frame, ?_, by simpa using hfinal, by omega⟩
  have hcopy := copyOf_eq_some h.sound.distinct hmem
  rw [hsequence] at hcopy
  rw [hcount]
  exact hcopy

/-! ### Frames encrypted for the recipient -/

section Encryption

variable {R : Type} {sample : R → S × R} [DecidableEq P] {secretKey : S}

/-- `frame` carries `text`, as the last one if `isFinal`. -/
structure Carries (curve : Curve P S) (secretKey : S) (enc : E2eStreamEncryptor)
    (text : Bytes × Bool) (frame : E2eStreamFrame) : Prop where
  streamId : frame.streamId = enc.streamId
  senderPublicKey : frame.senderPublicKey = enc.senderPublicKey
  isFinal : frame.isFinal = text.2
  plaintext : plaintextOf? curve secretKey frame = some text.1
  fits : frame.isFinal = false → frame.sequence < u64Max

omit [DecidableEq P] in
theorem ofCrypto_eq_ok {α : Type} {x : Except CryptoError α} {a : α} (h : ofCrypto x = .ok a) :
    x = .ok a := by
  cases x with
  | error e => cases h
  | ok b =>
    cases h
    rfl

theorem encryptFrame_eq_ok {enc enc' : E2eStreamEncryptor} {text : Bytes} {isFinal : Bool}
    {rng rng' : R} {frame : E2eStreamFrame} (h : curve.Lawful)
    (hkey : curve.decodeSec1 enc.recipientPublicKey = some (curve.generatorMul secretKey))
    (hframe : enc.encryptFrame curve sample text isFinal rng = .ok (frame, enc', rng')) :
    Carries curve secretKey enc (text, isFinal) frame ∧ frame.sequence = enc.nextSequence ∧
      enc' = if isFinal then { enc with closed := true }
        else { enc with nextSequence := enc.nextSequence + 1 } := by
  unfold E2eStreamEncryptor.encryptFrame at hframe
  split at hframe
  · cases hframe
  · next hopen =>
    obtain ⟨next, hadvance, hframe⟩ := bind_eq_ok.1 hframe
    obtain ⟨⟨ciphertext, rest⟩, hciphertext, hframe⟩ := bind_eq_ok.1 hframe
    cases hframe
    have hplain := @plaintextOf?_ok _ _ _ _ _ _ _ ⟨enc.streamId, enc.senderPublicKey,
      enc.nextSequence, isFinal, ciphertext⟩ _ (ElGamal.decryptBytes_encryptBytes h hkey (ofCrypto_eq_ok hciphertext))
    unfold E2eStreamEncryptor.advance at hadvance
    cases isFinal with
    | true =>
      cases hadvance
      exact ⟨⟨rfl, rfl, rfl, hplain, fun h => by cases h⟩, rfl, rfl⟩
    | false =>
      simp only [Bool.false_eq_true, if_false] at hadvance ⊢
      cases hnext : nextSequence enc.nextSequence with
      | error e =>
        rw [hnext] at hadvance
        cases hadvance
      | ok n =>
        obtain ⟨rfl, hfits⟩ := nextSequence_eq_ok hnext
        rw [hnext] at hadvance
        cases hadvance
        exact ⟨⟨rfl, rfl, rfl, hplain, fun _ => hfits⟩, trivial, rfl⟩

theorem encryptFrame_open {enc : E2eStreamEncryptor} {text : Bytes} {isFinal : Bool} {rng : R}
    {result : E2eStreamFrame × E2eStreamEncryptor × R}
    (h : enc.encryptFrame curve sample text isFinal rng = .ok result) : enc.closed = false := by
  unfold E2eStreamEncryptor.encryptFrame at h
  split at h
  · cases h
  · next hopen => simpa using hopen

theorem encryptFrames_eq_ok {enc : E2eStreamEncryptor} {texts : List (Bytes × Bool)} {rng : R}
    {frames : List E2eStreamFrame} (h : curve.Lawful)
    (hkey : curve.decodeSec1 enc.recipientPublicKey = some (curve.generatorMul secretKey))
    (hframes : encryptFrames curve sample enc texts rng = .ok frames) :
    List.Forall₂ (Carries curve secretKey enc) texts frames ∧
      ∀ (i : ℕ) (f : E2eStreamFrame), frames[i]? = some f →
        f.sequence = enc.nextSequence + i := by
  induction texts generalizing enc rng frames with
  | nil =>
    cases hframes
    exact ⟨.nil, by simp⟩
  | cons text texts ih =>
    obtain ⟨text, isFinal⟩ := text
    rw [encryptFrames] at hframes
    obtain ⟨⟨frame, enc', rng'⟩, hframe, hframes⟩ := bind_eq_ok.1 hframes
    obtain ⟨rest, hrest, hframes⟩ := bind_eq_ok.1 hframes
    cases hframes
    obtain ⟨hcarries, hsequence, henc⟩ := encryptFrame_eq_ok h hkey hframe
    cases isFinal with
    | true =>
      -- a closed encryptor has no more frames
      obtain rfl : texts = [] := by
        cases texts with
        | nil => rfl
        | cons text' texts =>
          rw [encryptFrames] at hrest
          obtain ⟨⟨frame', enc'', rng''⟩, hframe', -⟩ := bind_eq_ok.1 hrest
          have hopen := encryptFrame_open hframe'
          rw [henc] at hopen
          cases hopen
      cases hrest
      refine ⟨.cons hcarries .nil, fun i f hf => ?_⟩
      cases i with
      | zero =>
        cases hf
        exact hsequence
      | succ i => simp at hf
    | false =>
      rw [henc] at hrest
      simp only [Bool.false_eq_true, if_false] at hrest
      obtain ⟨hcarry, hnumbers⟩ := @ih { enc with nextSequence := enc.nextSequence + 1 } _ _
        hkey hrest
      refine ⟨.cons hcarries (hcarry.imp fun text f hf => ⟨hf.1, hf.2, hf.3, hf.4, hf.5⟩),
        fun i f hf => ?_⟩
      cases i with
      | zero =>
        cases hf
        exact hsequence
      | succ i =>
        have := hnumbers i f (by simpa using hf)
        simp only at this
        omega

/-- The plaintext frames are the plaintext, and the last alone is final. -/
theorem plaintextStreamFrames_spec (plaintext : Bytes) (maxPlaintextFrameLen : ℕ) :
    ((plaintextStreamFrames plaintext maxPlaintextFrameLen).map (·.1)).flatten = plaintext ∧
      plaintextStreamFrames plaintext maxPlaintextFrameLen ≠ [] ∧
      ∀ i t, (plaintextStreamFrames plaintext maxPlaintextFrameLen)[i]? = some t →
        t.2 = decide (i + 1 = (plaintextStreamFrames plaintext maxPlaintextFrameLen).length) := by
  unfold plaintextStreamFrames
  by_cases hempty : plaintext = []
  · subst hempty
    refine ⟨rfl, by simp, fun i t ht => ?_⟩
    cases i with
    | zero =>
      cases ht
      rfl
    | succ i => simp at ht
  · rw [if_neg (by simpa using hempty)]
    have hflatten := ElGamal.chunks_flatten (show 0 < max maxPlaintextFrameLen 1 by omega) plaintext
    refine ⟨?_, ?_, fun i t ht => ?_⟩
    · refine (congrArg List.flatten (List.ext_getElem? fun i => ?_)).trans hflatten
      simp only [List.getElem?_map, List.getElem?_mapIdx, Option.map_map]
      exact Option.map_id'
    · intro hnil
      simp only [List.mapIdx_eq_nil_iff] at hnil
      rw [hnil] at hflatten
      exact hempty hflatten.symm
    · simp only [List.getElem?_mapIdx, Option.map_eq_some_iff] at ht
      obtain ⟨chunk, hchunk, rfl⟩ := ht
      simp

/-- The frames of a stream, encrypted for `secretKey`. -/
structure StreamOf (curve : Curve P S) (secretKey : S) (streamId : Uuid) (sender : CurveEle)
    (plaintext : Bytes) (frames : List E2eStreamFrame) : Prop where
  header : ∀ f ∈ frames, f.streamId = streamId ∧ f.senderPublicKey = sender
  sequence : ∀ (i : ℕ) (f : E2eStreamFrame), frames[i]? = some f → f.sequence = i
  final : ∀ f ∈ frames, f.isFinal = decide (f.sequence + 1 = frames.length)
  fits : ∀ f ∈ frames, f.isFinal = false → f.sequence < u64Max
  nonempty : frames ≠ []
  decrypts : ∃ texts, Decrypts curve secretKey frames texts ∧ texts.flatten = plaintext

theorem streamOf_encryptStream (h : curve.Lawful) {recipient sender : CurveEle}
    (hkey : curve.decodeSec1 recipient = some (curve.generatorMul secretKey)) {plaintext : Bytes}
    {streamId : Uuid} {maxPlaintextFrameLen : ℕ} {rng : R} {frames : List E2eStreamFrame}
    (hframes : encryptStreamWithRng curve sample plaintext streamId sender recipient
      maxPlaintextFrameLen rng = .ok frames) :
    StreamOf curve secretKey streamId sender plaintext frames := by
  obtain ⟨enc, henc, hframes⟩ := bind_eq_ok.1 hframes
  obtain ⟨-, -, henc⟩ := bind_eq_ok.1 henc
  obtain ⟨-, -, henc⟩ := bind_eq_ok.1 henc
  cases henc
  obtain ⟨hcarries, hsequence⟩ := encryptFrames_eq_ok h hkey hframes
  obtain ⟨hflatten, hnonempty, hlast⟩ := plaintextStreamFrames_spec plaintext maxPlaintextFrameLen
  have hlength := hcarries.length_eq
  have hsequence' : ∀ (i : ℕ) (f : E2eStreamFrame), frames[i]? = some f → f.sequence = i :=
    fun i f hf => (hsequence i f hf).trans (Nat.zero_add i)
  have hcarry : ∀ f ∈ frames, ∃ t, (plaintextStreamFrames plaintext
      maxPlaintextFrameLen)[f.sequence]? = some t ∧
        Carries curve secretKey ⟨streamId, sender, recipient, 0, false⟩ t f := by
    intro f hf
    obtain ⟨i, hi, hfi⟩ := List.getElem_of_mem hf
    have hseq := hsequence' i f (List.getElem?_eq_some_iff.2 ⟨hi, hfi⟩)
    have hi' : i < (plaintextStreamFrames plaintext maxPlaintextFrameLen).length := by omega
    refine ⟨_, by rw [hseq]; exact List.getElem?_eq_getElem hi', ?_⟩
    rw [← hfi]
    exact hcarries.get hi' hi
  refine ⟨fun f hf => ?_, hsequence', fun f hf => ?_, fun f hf => ?_, ?_, ?_⟩
  · obtain ⟨t, -, ht⟩ := hcarry f hf
    exact ⟨ht.streamId, ht.senderPublicKey⟩
  · obtain ⟨t, htext, ht⟩ := hcarry f hf
    rw [ht.isFinal, hlast _ _ htext, hlength]
  · obtain ⟨t, -, ht⟩ := hcarry f hf
    exact ht.fits
  · intro hnil
    rw [hnil] at hlength
    exact hnonempty (List.eq_nil_of_length_eq_zero hlength)
  · refine ⟨(plaintextStreamFrames plaintext maxPlaintextFrameLen).map (·.1), ?_, hflatten⟩
    refine List.forall₂_map_right_iff.2 (hcarries.flip.imp fun f t ht => ht.plaintext)

end Encryption

/-! ### Their arrival -/

section Arrival

variable {secretKey : S} {streamId : Uuid} {sender : CurveEle} {plaintext : Bytes}
variable {frames before : List E2eStreamFrame} {window deadline : ℕ} {s : Session S}

theorem StreamOf.eq_of_sequence (hs : StreamOf curve secretKey streamId sender plaintext frames)
    {f g : E2eStreamFrame} (hf : f ∈ frames) (hg : g ∈ frames) (h : f.sequence = g.sequence) :
    f = g := by
  obtain ⟨i, hi, rfl⟩ := List.getElem_of_mem hf
  obtain ⟨j, hj, rfl⟩ := List.getElem_of_mem hg
  rw [hs.sequence i _ (List.getElem?_eq_getElem hi),
    hs.sequence j _ (List.getElem?_eq_getElem hj)] at h
  subst h
  rfl

theorem StreamOf.sequence_lt (hs : StreamOf curve secretKey streamId sender plaintext frames)
    {f : E2eStreamFrame} (hf : f ∈ frames) : f.sequence < frames.length := by
  obtain ⟨i, hi, rfl⟩ := List.getElem_of_mem hf
  rwa [hs.sequence i _ (List.getElem?_eq_getElem hi)]

theorem StreamOf.exists_frame (hs : StreamOf curve secretKey streamId sender plaintext frames)
    {n : ℕ} (hn : n < frames.length) : ∃ f ∈ frames, f.sequence = n :=
  ⟨frames[n], List.getElem_mem hn, hs.sequence n _ (List.getElem?_eq_getElem hn)⟩

theorem StreamOf.isSome (hs : StreamOf curve secretKey streamId sender plaintext frames)
    {f : E2eStreamFrame} (hf : f ∈ frames) : (plaintextOf? curve secretKey f).isSome = true := by
  obtain ⟨texts, hdecrypts, -⟩ := hs.decrypts
  exact hdecrypts.isSome f hf

/-- The stream after `before` arrived, all of it frames of the stream. -/
structure Arrived (curve : Curve P S) (address : CurveEle → Did) (secretKey : S) (streamId : Uuid)
    (sender : CurveEle) (window deadline : ℕ) (frames before : List E2eStreamFrame)
    (s : Session S) : Prop where
  kept : Kept curve s
  header : s.decryptor.streamId = streamId ∧ s.decryptor.expectedSender = address sender ∧
    s.decryptor.recipientSecretKey = secretKey
  bounds : s.decryptor.reorderWindow = window ∧ s.decryptor.stallDeadline = deadline
  accepted : ∀ f, f ∈ s.accepted ↔ f ∈ before
  subset : ∀ f ∈ before, f ∈ frames
  ready : s.decryptor.seenFinal = false →
    s.decryptor.pendingFrames.get? s.decryptor.nextSequence = none
  final : ∀ n ∈ s.decryptor.finalSequence, n + 1 = frames.length
  known : ∀ f ∈ before, f.isFinal → s.decryptor.finalSequence = some f.sequence

variable (hs : StreamOf curve secretKey streamId sender plaintext frames)
variable (h : Arrived curve address secretKey streamId sender window deadline frames before s)
include hs h

theorem Arrived.mem_of_consumed {f : E2eStreamFrame} (hf : f ∈ frames)
    (hlt : f.sequence < consumedFrames s.decryptor) : f ∈ before := by
  obtain ⟨g, hg, hsequence, -⟩ := h.kept.sound.below f.sequence hlt
  rw [h.accepted] at hg
  rwa [hs.eq_of_sequence hf (h.subset g hg) hsequence.symm]

omit hs in
theorem Arrived.next_missing (hopen : s.decryptor.seenFinal = false) :
    ∀ f ∈ before, f.sequence ≠ s.decryptor.nextSequence := by
  intro f hf heq
  have hcount : consumedFrames s.decryptor = s.decryptor.nextSequence := by
    simp [consumedFrames, hopen]
  rcases h.kept.sound.held f ((h.accepted f).2 hf) with hheld | hlt
  · rw [heq, h.ready hopen] at hheld
    cases hheld
  · omega

theorem Arrived.next_lt (hopen : s.decryptor.seenFinal = false) :
    s.decryptor.nextSequence < frames.length := by
  have hpos := List.length_pos_iff.2 hs.nonempty
  have hcount : consumedFrames s.decryptor = s.decryptor.nextSequence := by
    simp [consumedFrames, hopen]
  by_contra hge
  obtain ⟨f, hf, hsequence, -, hfinal⟩ := h.kept.sound.below (frames.length - 1) (by omega)
  rw [hs.final f (h.subset f ((h.accepted f).1 hf)), hsequence] at hfinal
  have hlast : frames.length - 1 + 1 = frames.length := by omega
  have hne : frames.length - 1 ≠ s.decryptor.nextSequence := by omega
  simp [hlast, hne] at hfinal

/-- The final frame, once seen, is the last of the stream. -/
theorem Arrived.finished (hseen : s.decryptor.seenFinal = true) :
    consumedFrames s.decryptor = frames.length := by
  have hcount : consumedFrames s.decryptor = s.decryptor.nextSequence + 1 := by
    simp [consumedFrames, hseen]
  obtain ⟨f, hf, hsequence, -, hfinal⟩ :=
    h.kept.sound.below s.decryptor.nextSequence (by omega)
  rw [hs.final f (h.subset f ((h.accepted f).1 hf)), hsequence] at hfinal
  rw [hcount]
  simpa using hfinal

/-- The stream is finished once every frame arrived, and not before. -/
theorem Arrived.seenFinal_iff : s.decryptor.seenFinal = true ↔ ∀ f ∈ frames, f ∈ before := by
  constructor
  · intro hseen f hf
    refine h.mem_of_consumed hs hf ?_
    rw [h.finished hs hseen]
    exact hs.sequence_lt hf
  · intro hall
    by_contra hopen
    have hopen : s.decryptor.seenFinal = false := by simpa using hopen
    obtain ⟨f, hf, hsequence⟩ := hs.exists_frame (h.next_lt hs hopen)
    exact h.next_missing hopen f (hall f hf) hsequence

theorem Arrived.isNew {f : E2eStreamFrame} (hf : f ∈ frames) (hnot : f ∉ before)
    (hwindow : ∀ n < frames.length, (∀ g ∈ before, g.sequence ≠ n) → f.sequence ≤ n + window) :
    IsNew address s.decryptor f := by
  have hopen : s.decryptor.seenFinal = false := by
    by_contra hseen
    have hall := (h.seenFinal_iff hs).1 (by simpa using hseen)
    exact hnot (hall f hf)
  have hcount : consumedFrames s.decryptor = s.decryptor.nextSequence := by
    simp [consumedFrames, hopen]
  constructor
  case streamId => rw [h.header.1, (hs.header f hf).1]
  case sender => rw [h.header.2.1, (hs.header f hf).2]
  case ahead =>
    by_contra hlt
    exact hnot (h.mem_of_consumed hs hf (by omega))
  case absent =>
    cases hget : s.decryptor.pendingFrames.get? f.sequence with
    | none => rfl
    | some g =>
      obtain ⟨hsequence, hg, -⟩ := h.kept.sound.pending _ _ hget
      rw [h.accepted] at hg
      rw [hs.eq_of_sequence hf (h.subset g hg) hsequence.symm] at hnot
      exact absurd hg hnot
  case unfinished => exact hopen
  case window =>
    have := hwindow _ (h.next_lt hs hopen) (h.next_missing hopen)
    rw [h.bounds.1]
    omega
  case beforeFinal =>
    intro n hn
    have hlast := h.final n hn
    have hlt := hs.sequence_lt hf
    refine ⟨by omega, fun hfinal => ?_⟩
    rw [hs.final f hf, decide_eq_true_eq] at hfinal
    omega
  case last =>
    intro hfinal n g hg
    obtain ⟨hsequence, hmem, -⟩ := h.kept.sound.pending _ _ hg
    have hlt := hs.sequence_lt (h.subset g ((h.accepted g).1 hmem))
    rw [hs.final f hf, decide_eq_true_eq] at hfinal
    omega

/-- Only all of a run is released: every frame of the stream can be decrypted and has its place. -/
theorem Arrived.released {f : E2eStreamFrame} (hf : f ∈ frames) (hnew : IsNew address s.decryptor f)
    {result : Except E2eError Bytes} {d' : E2eStreamDecryptor S}
    (hreleased : Released curve (s.decryptor.buffer f) [] (runWith s.decryptor f) (result, d')) :
    ∃ texts, Decrypts curve secretKey (runWith s.decryptor f) texts ∧
      result = .ok texts.flatten ∧
      d' = (runWith s.decryptor f).foldl .takeFrame (s.decryptor.buffer f) := by
  have hbuffer := h.kept.sound.buffer hnew
  have hgapless : Gapless (s.decryptor.buffer f).pendingFrames s.decryptor.nextSequence
      (runWith s.decryptor f) := gapless_gaplessRun _ _ _
  have hmem : ∀ g ∈ s.accepted ++ [f], g ∈ frames := by
    intro g hg
    rcases List.mem_append.1 hg with hg | hg
    · exact h.subset g ((h.accepted g).1 hg)
    · rwa [List.mem_singleton.1 hg]
  have hkey : (s.decryptor.buffer f).recipientSecretKey = secretKey := h.header.2.2
  cases hreleased with
  | all texts decrypts fits =>
    rw [hkey] at decrypts
    exact ⟨texts, decrypts, rfl, rfl⟩
  | undecryptable ahead after stuck texts e split decrypts fails fits =>
    rw [split] at hgapless
    have hsome := hs.isSome (hmem stuck (hgapless.sequence_eq hbuffer).2)
    rw [hkey] at fails
    rw [fails] at hsome
    cases hsome
  | overflow ahead after stuck texts text split decrypts decrypted last =>
    rw [split] at hgapless
    obtain ⟨hsequence, hstuck⟩ := hgapless.sequence_eq hbuffer
    have hfits := hs.fits stuck (hmem stuck hstuck) last.1
    have hfull : u64Max ≤ s.decryptor.nextSequence + ahead.length := last.2
    omega

theorem Arrived.call_new {c : E2eStreamFrame × ℕ} (hf : c.1 ∈ frames)
    (hnew : IsNew address s.decryptor c.1) :
    Arrived curve address secretKey streamId sender window deadline frames (before ++ [c.1])
      (s.call curve address c) := by
  obtain ⟨d, accepted, returned⟩ := s
  obtain ⟨frame, nowMs⟩ := c
  simp only at hf hnew
  have hsound := h.kept.sound
  have hreturned := h.kept.returned
  obtain ⟨result, d', progressMs, hreleased, hstate, hbytes, -⟩ :=
    @decryptNext_new _ _ _ _ _ _ _ _ _ _ nowMs hsound hnew
  obtain ⟨texts, hdecrypts, rfl, rfl⟩ := h.released hs hf hnew hreleased
  have hbuffer := hsound.buffer hnew
  have hgapless : Gapless (d.buffer frame).pendingFrames d.nextSequence (runWith d frame) :=
    gapless_gaplessRun _ _ _
  have hkey : d.recipientSecretKey = secretKey := h.header.2.2
  have hrun : Decrypts curve (d.buffer frame).recipientSecretKey (runWith d frame) texts := by
    change Decrypts curve d.recipientSecretKey (runWith d frame) texts
    rwa [hkey]
  obtain ⟨hsound', hcount, hplain⟩ := hbuffer.takeRun (fun _ => hnew.unfinished) hgapless hrun
  have hbefore : returned = plaintextUpTo curve d.recipientSecretKey (accepted ++ [frame])
      (consumedFrames d) := hreturned.trans (hsound.plaintextUpTo_append [frame] le_rfl).symm
  have hcall : Session.call curve address ⟨d, accepted, returned⟩ (frame, nowMs) =
      ⟨{ (runWith d frame).foldl .takeFrame (d.buffer frame) with progressMs := progressMs },
        accepted ++ [frame], returned ++ texts.flatten⟩ := by
    simp only [Session.call, hstate, hbytes, validateFrame_eq_new.2 hnew]
    rfl
  have hkept : Kept curve (Session.call curve address ⟨d, accepted, returned⟩ (frame, nowMs)) := by
    rw [hcall]
    refine ⟨hsound'.progress progressMs, ?_⟩
    change returned ++ texts.flatten = plaintextUpTo curve (_ : E2eStreamDecryptor S).recipientSecretKey
      _ (consumedFrames (List.foldl _ _ _))
    rw [foldl_takeFrame_key, hcount, hplain, hbefore]
    rfl
  obtain ⟨pending, seen, next, hfold⟩ := foldl_takeFrame_eq (runWith d frame) (d.buffer frame)
  refine ⟨hkept, ?_, ?_, ?_, ?_, ?_, ?_, ?_⟩
  · rw [hcall, hfold]
    exact h.header
  · rw [hcall, hfold]
    exact h.bounds
  · intro f
    rw [hcall]
    simp only [List.mem_append, List.mem_singleton, ← h.accepted f]
  · intro f hmem
    rcases List.mem_append.1 hmem with hmem | hmem
    · exact h.subset f hmem
    · rwa [List.mem_singleton.1 hmem]
  · -- the run ended where the next frame is missing
    intro hopen
    rw [hcall] at hopen ⊢
    change ((runWith d frame).foldl E2eStreamDecryptor.takeFrame (d.buffer frame)).seenFinal = false
      at hopen
    rw [hgapless.foldl_seenFinal (d := d.buffer frame) hnew.unfinished, List.any_eq_false] at hopen
    have hnone : ∀ f ∈ runWith d frame, f.isFinal = false := fun f hf => by simpa using hopen f hf
    obtain ⟨hnext, -, hbehind⟩ := foldl_takeFrame_open hnone (d.buffer frame)
    have hends := (gaplessRun_ends (n := d.nextSequence) le_rfl).resolve_left <| by
      rintro ⟨f, hf, hlast⟩
      exact hopen f hf hlast
    change ((runWith d frame).foldl E2eStreamDecryptor.takeFrame (d.buffer frame)).pendingFrames.get?
      ((runWith d frame).foldl E2eStreamDecryptor.takeFrame (d.buffer frame)).nextSequence = none
    rw [hnext, hbehind _ le_rfl]
    exact hends
  · rw [hcall, hfold]
    intro n hn
    simp only [E2eStreamDecryptor.buffer] at hn
    split at hn
    · next hfinal =>
      cases hn
      rw [hs.final frame hf, decide_eq_true_eq] at hfinal
      exact hfinal
    · exact h.final n hn
  · rw [hcall, hfold]
    intro f hmem hfinal
    simp only [E2eStreamDecryptor.buffer]
    rcases List.mem_append.1 hmem with hmem | hmem
    · split
      · next hlast =>
        rw [hs.final frame hf, decide_eq_true_eq] at hlast
        rw [hs.final f (h.subset f hmem), decide_eq_true_eq] at hfinal
        congr 1
        omega
      · exact h.known f hmem hfinal
    · rw [List.mem_singleton.1 hmem] at hfinal ⊢
      rw [if_pos hfinal]

omit hs in
theorem Arrived.duplicate (hs : StreamOf curve secretKey streamId sender plaintext frames)
    {f : E2eStreamFrame} (hf : f ∈ before) :
    s.decryptor.validateFrame address f = .ok .duplicate := by
  have hheader := hs.header f (h.subset f hf)
  have hstream : f.streamId = s.decryptor.streamId := hheader.1.trans h.header.1.symm
  have hsender : address f.senderPublicKey = s.decryptor.expectedSender := by
    rw [hheader.2, h.header.2.1]
  simp only [E2eStreamDecryptor.validateFrame, E2eStreamDecryptor.verifySender, hstream, hsender,
    ne_eq, not_true_eq_false, if_false, if_true]
  by_cases hdup : s.decryptor.isConsumedDuplicate f = true
  · rw [if_pos hdup]
  · rw [if_neg hdup]
    have hheld : s.decryptor.pendingFrames.get? f.sequence = some f := by
      refine (h.kept.sound.held f ((h.accepted f).2 hf)).resolve_right fun hlt => hdup ?_
      unfold E2eStreamDecryptor.isConsumedDuplicate
      split
      · rfl
      · next hge =>
        cases hseen : s.decryptor.seenFinal with
        | false =>
          simp only [consumedFrames, hseen, Bool.toNat_false] at hlt
          omega
        | true =>
          simp only [consumedFrames, hseen, Bool.toNat_true] at hlt
          obtain ⟨g, hg, hsequence, -, hfinal⟩ :=
            h.kept.sound.below s.decryptor.nextSequence (by simp [consumedFrames, hseen])
          rw [h.known g ((h.accepted g).1 hg) (by simpa using hfinal)]
          simp only [Bool.true_and, Option.any_some, decide_eq_true_eq]
          omega
    simp [hheld]

theorem Arrived.call {c : E2eStreamFrame × ℕ} (hf : c.1 ∈ frames)
    (hwindow : ∀ n < frames.length, (∀ g ∈ before, g.sequence ≠ n) →
      c.1.sequence ≤ n + window) :
    Arrived curve address secretKey streamId sender window deadline frames (before ++ [c.1])
      (s.call curve address c) := by
  by_cases hmem : c.1 ∈ before
  · have hnew : ¬ IsNew address s.decryptor c.1 := by
      rw [← validateFrame_eq_new, h.duplicate hs hmem]
      simp
    have hsame : ∀ f, f ∈ before ++ [c.1] ↔ f ∈ before := by
      intro f
      rw [List.mem_append, List.mem_singleton]
      exact ⟨fun hf => hf.elim id fun heq => heq ▸ hmem, .inl⟩
    rw [call_not_new hnew]
    exact ⟨h.kept, h.header, h.bounds, fun f => (h.accepted f).trans (hsame f).symm,
      fun f hf => h.subset f ((hsame f).1 hf), h.ready, h.final,
      fun f hf => h.known f ((hsame f).1 hf)⟩
  · exact h.call_new hs hf (h.isNew hs hf hmem hwindow)

/-- A call within the deadline succeeds. -/
theorem Arrived.answered {c : E2eStreamFrame × ℕ} (hf : c.1 ∈ frames)
    (hwindow : ∀ n < frames.length, (∀ g ∈ before, g.sequence ≠ n) →
      c.1.sequence ≤ n + window)
    (hlive : c.2 - s.decryptor.progressMs ≤ deadline) :
    ∃ text, (s.decryptor.decryptNext curve address c.1 c.2).1 = .ok text := by
  rw [← h.bounds.2] at hlive
  by_cases hmem : c.1 ∈ before
  · have hcheck : s.decryptor.check c.2 = .ok () := if_pos (by simp [hlive])
    refine ⟨[], ?_⟩
    simp [E2eStreamDecryptor.decryptNext, E2eStreamDecryptor.accept, h.duplicate hs hmem, hcheck]
  · have hnew := h.isNew hs hf hmem hwindow
    obtain ⟨result, d', progressMs, hreleased, -, -, hanswer⟩ :=
      @decryptNext_new _ _ _ _ _ _ _ _ _ _ c.2 h.kept.sound hnew
    obtain ⟨texts, -, rfl, -⟩ := h.released hs hf hnew hreleased
    exact ⟨texts.flatten, hanswer hlive⟩

/-- With every frame there the plaintext was returned. -/
theorem Arrived.returned (hall : ∀ f ∈ frames, f ∈ before) : s.returned = plaintext := by
  obtain ⟨texts, hdecrypts, rfl⟩ := hs.decrypts
  have hcount := h.finished hs ((h.seenFinal_iff hs).2 hall)
  rw [h.kept.returned, hcount, h.header.2.2, ← hdecrypts.flatten]
  have hplain : ∀ f ∈ frames, plaintextAt curve secretKey s.accepted f.sequence =
      (plaintextOf? curve secretKey f).getD [] := by
    intro f hf
    rw [plaintextAt, copyOf_eq_some h.kept.sound.distinct ((h.accepted f).2 (hall f hf)),
      Option.bind_some]
  calc plaintextUpTo curve secretKey s.accepted frames.length
      = (frames.map (·.sequence)).flatMap (plaintextAt curve secretKey s.accepted) := by
        have hrange : frames.map (·.sequence) = List.range frames.length := by
          refine List.ext_getElem (by simp) fun i hi hi' => ?_
          rw [List.length_map] at hi
          rw [List.getElem_map, List.getElem_range,
            hs.sequence i _ (List.getElem?_eq_getElem hi)]
        rw [plaintextUpTo, hrange]
    _ = frames.flatMap fun f => plaintextAt curve secretKey s.accepted f.sequence := by
        rw [List.flatMap_map]
    _ = frames.flatMap fun f => (plaintextOf? curve secretKey f).getD [] :=
        List.flatMap_congr hplain

end Arrival

/-- Every call is of a frame of the stream, which runs no further ahead of a missing frame than the
window. -/
def InWindow (frames : List E2eStreamFrame) (window : ℕ) (calls : List (E2eStreamFrame × ℕ)) : Prop :=
  ∀ before c, before ++ [c] <+: calls → c.1 ∈ frames ∧
    ∀ n < frames.length, (∀ b ∈ before, b.1.sequence ≠ n) → c.1.sequence ≤ n + window

theorem arrived_run {secretKey : S} {streamId : Uuid} {sender : CurveEle} {plaintext : Bytes}
    {frames : List E2eStreamFrame} {window deadline nowMs : ℕ}
    (hs : StreamOf curve secretKey streamId sender plaintext frames)
    {calls : List (E2eStreamFrame × ℕ)} (hwindow : InWindow frames window calls) :
    Arrived curve address secretKey streamId sender window deadline frames (calls.map (·.1))
      ((Session.new streamId (address sender) secretKey window deadline nowMs).run curve address
        calls) := by
  induction calls using List.reverseRecOn with
  | nil =>
    exact ⟨kept_new _ _ _ _ _ _, ⟨rfl, rfl, rfl⟩, ⟨rfl, rfl⟩, by simp [Session.run, Session.new],
      by simp, fun _ => rfl, (fun n hn => by cases hn), by simp⟩
  | append_singleton calls c ih =>
    have hbegins := ih fun before c' h => hwindow before c' (h.trans (List.prefix_append _ _))
    obtain ⟨hmem, hahead⟩ := hwindow calls c List.prefix_rfl
    rw [Session.run_concat, List.map_append]
    refine hbegins.call hs hmem fun n hn hmissing => hahead n hn fun b hb => ?_
    exact hmissing b.1 (List.mem_map_of_mem hb)

variable (curve address)

/-- End-to-end streams release exactly the plaintext. Of a stream encrypted for the recipient, whose
frames arrive in any order the window allows and as often as they like, every call within the deadline
succeeds, the stream finishes with its last missing frame, and what was returned is the plaintext. Of
any frames whatever, what was returned are at every point the plaintexts of the first `m`, each of the
first copy accepted, and the stream finishes only if the last of them is final. -/
theorem e2e_streams_exact {R : Type} [DecidableEq P] (sample : R → S × R) (h : curve.Lawful)
    (streamId : Uuid) (sender recipient : CurveEle) (secretKey : S)
    (hkey : curve.decodeSec1 recipient = some (curve.generatorMul secretKey))
    (window deadline nowMs : ℕ) :
    (∀ plaintext maxPlaintextFrameLen rng frames,
      encryptStreamWithRng curve sample plaintext streamId sender recipient maxPlaintextFrameLen rng =
        .ok frames → ∀ calls, InWindow frames window calls →
      let run := (Session.new streamId (address sender) secretKey window deadline nowMs).run curve
        address
      (∀ before c, before ++ [c] <+: calls →
        c.2 - (run before).decryptor.progressMs ≤ deadline →
        ∃ text, ((run before).decryptor.decryptNext curve address c.1 c.2).1 = .ok text) ∧
      (∀ before, before <+: calls → ((run before).decryptor.finish = .ok () ↔
        ∀ f ∈ frames, ∃ c ∈ before, c.1 = f)) ∧
      ((∀ f ∈ frames, ∃ c ∈ calls, c.1 = f) → (run calls).returned = plaintext)) ∧
    ∀ expectedSender calls, (∀ c ∈ calls, c.1.isFinal = false → c.1.sequence < u64Max) →
      ∀ before, before <+: calls →
      let s := (Session.new streamId expectedSender secretKey window deadline nowMs).run curve
        address before
      ∃ m, s.returned = plaintextUpTo curve secretKey s.accepted m ∧ Holds curve s m ∧
        (s.decryptor.finish = .ok () →
          ∃ f, copyOf s.accepted (m - 1) = some f ∧ f.isFinal ∧ 0 < m) := by
  have hmem : ∀ (f : E2eStreamFrame) (before : List (E2eStreamFrame × ℕ)),
      f ∈ before.map (·.1) ↔ ∃ c ∈ before, c.1 = f := fun f before => List.mem_map
  refine ⟨fun plaintext maxPlaintextFrameLen rng frames hframes calls hwindow => ?_,
    fun expectedSender calls hnumbered before hbegins => ?_⟩
  · have hs := streamOf_encryptStream h hkey hframes
    have harrived : ∀ before, before <+: calls → Arrived curve address secretKey streamId sender
        window deadline frames (before.map (·.1)) ((Session.new streamId (address sender) secretKey
          window deadline nowMs).run curve address before) := fun before hbefore =>
      arrived_run hs fun b c hb => hwindow b c (hb.trans hbefore)
    refine ⟨fun before c hbegins hlive => ?_, fun before hbegins => ?_, fun hall => ?_⟩
    · have hbefore := (List.prefix_append before [c]).trans hbegins
      obtain ⟨hframe, hahead⟩ := hwindow before c hbegins
      refine (harrived before hbefore).answered hs hframe (fun n hn hmissing => ?_) hlive
      exact hahead n hn fun b hb => hmissing b.1 (List.mem_map_of_mem hb)
    · simp only [← hmem]
      rw [← (harrived before hbegins).seenFinal_iff hs, E2eStreamDecryptor.finish]
      split
      · next hseen => exact iff_of_true rfl hseen
      · next hopen => exact iff_of_false (by simp) hopen
    · exact (harrived calls List.prefix_rfl).returned hs fun f hf => (hmem f calls).2 (hall f hf)
  · have hrun := @Prefixed.run _ _ _ _ _ curve address _
      (prefixed_new streamId expectedSender secretKey window deadline nowMs) _
      fun c hc => hnumbered c (hbegins.subset hc)
    obtain ⟨m, hm, hreturned, hstuck⟩ := hrun.returned
    rw [run_key (prefixed_new streamId expectedSender secretKey window deadline nowMs)
      fun c hc => hnumbered c (hbegins.subset hc)] at hreturned
    exact ⟨m, hreturned, hrun.holds hm, hrun.finished hm hstuck⟩

def sevenPoints : Curve (ZMod 7) (ZMod 7) where
  generatorMul x := x
  xBytes point := ElGamal.encodeFieldCandidate (if point = 3 then [7] else [])
  decompress x _ := if x = ElGamal.encodeFieldCandidate [7] then some 3 else none
  encodeSec1 point := .replicate 33 (UInt8.ofNat point.val)
  decodeSec1 encoded := (List.finRange 7).find? fun point : ZMod 7 =>
    encoded = .replicate 33 (UInt8.ofNat point.val)

theorem sevenPoints_lawful : sevenPoints.Lawful where
  generatorMul s t := mul_comm s t
  xBytes x odd point h := by
    simp only [sevenPoints] at h ⊢
    split at h
    · next hx =>
      cases h
      rw [if_pos rfl, hx]
    · cases h
  decodeSec1 := by decide +kernel

def twoFrames : List E2eStreamFrame :=
  (encryptStreamWithRng sevenPoints (fun rng : Unit => (1, rng)) [7, 7] 0 (.replicate 33 3)
    (.replicate 33 2) 1 ()).toOption.getD []

/-- The second frame arrives twice, and first. -/
theorem e2e_streams_exact_reordered :
    ((Session.new 0 0 (2 : ZMod 7) 32 80000 0).run sevenPoints (fun _ => 0)
      ((twoFrames.drop 1 ++ twoFrames.drop 1 ++ twoFrames).map (·, 0))).returned = [7, 7] := by
  have hexact := e2e_streams_exact sevenPoints (fun _ => 0) (fun rng : Unit => (1, rng))
    sevenPoints_lawful 0 (.replicate 33 3) (.replicate 33 2) (2 : ZMod 7) (by decide +kernel) 32
    80000 0
  have hcalls : ∀ c ∈ (twoFrames.drop 1 ++ twoFrames.drop 1 ++ twoFrames).map fun f => (f, 0),
      c.1 ∈ twoFrames ∧ c.1.sequence ≤ 32 := by decide +kernel
  refine (hexact.1 [7, 7] 1 () twoFrames (by decide +kernel) _ fun before c hbegins => ?_).2.2 ?_
  · obtain ⟨hmem, hle⟩ := hcalls c (hbegins.subset (by simp))
    exact ⟨hmem, fun n _ _ => by omega⟩
  · decide +kernel

/-! ### Sequences at their end -/

def blankFrame (n : ℕ) (isFinal : Bool) : E2eStreamFrame := ⟨0, .replicate 33 2, n, isFinal, []⟩

def emptied (n : ℕ) : E2eStreamDecryptor (ZMod 1) := ⟨0, 0, 0, n, none, false, 32, .empty, 80000, 0⟩

theorem insert_remove (n : ℕ) (frame : E2eStreamFrame) :
    ((BTreeMap.empty : BTreeMap ℕ E2eStreamFrame).insert n frame).remove n = .empty := by
  refine BTreeMap.ext_get? fun k => ?_
  rw [BTreeMap.get?_remove, BTreeMap.get?_insert, BTreeMap.get?_empty]
  split <;> rfl

theorem isNew_blankFrame (n : ℕ) (isFinal : Bool) :
    IsNew (fun _ => 0) (emptied n) (blankFrame n isFinal) := by
  constructor <;> simp [emptied, blankFrame]

theorem decryptReadyFrames_blankFrame (n : ℕ) (isFinal : Bool) :
    ((emptied n).buffer (blankFrame n isFinal)).decryptReadyFrames onePoint
      ((emptied n).buffer (blankFrame n isFinal)).pendingFrames.size [] =
    if isFinal then (.ok [], { emptied n with finalSequence := some n, seenFinal := true })
    else
      match nextSequence n with
      | .error e => (.error e, emptied n)
      | .ok next => (.ok [], emptied next) := by
  have hsize : ((emptied n).buffer (blankFrame n isFinal)).pendingFrames.size = 1 := rfl
  have hget : ((emptied n).buffer (blankFrame n isFinal)).pendingFrames.get?
      ((emptied n).buffer (blankFrame n isFinal)).nextSequence = some (blankFrame n isFinal) := by
    simp [E2eStreamDecryptor.buffer, emptied, blankFrame, BTreeMap.get?_insert]
  have hplain : ∀ key : ZMod 1, ElGamal.decryptBytes onePoint (blankFrame n isFinal).ciphertext key =
      .ok [] := fun key => rfl
  have hremove := insert_remove n (blankFrame n isFinal)
  rw [hsize, E2eStreamDecryptor.decryptReadyFrames, hget]
  simp only [hplain]
  cases isFinal with
  | true => simp [E2eStreamDecryptor.buffer, emptied, blankFrame] at hremove ⊢; exact hremove
  | false =>
    simp only [blankFrame, Bool.false_eq_true, if_false]
    change (match nextSequence n with
      | .error e => _
      | .ok next => _) = _
    cases nextSequence n with
    | error e => simp [E2eStreamDecryptor.buffer, emptied, blankFrame] at hremove ⊢; exact hremove
    | ok next =>
      simp [E2eStreamDecryptor.buffer, emptied, blankFrame,
        E2eStreamDecryptor.decryptReadyFrames] at hremove ⊢
      exact hremove

/-- A blank frame is taken, if it has a successor. -/
theorem decryptNext_blankFrame {n : ℕ} (hn : n < u64Max) :
    (emptied n).decryptNext onePoint (fun _ => 0) (blankFrame n false) 0 =
      (.ok [], emptied (n + 1)) := by
  have hnext : nextSequence n = .ok (n + 1) := by
    rw [nextSequence, checkedAdd, if_pos (by omega)]
    rfl
  unfold E2eStreamDecryptor.decryptNext E2eStreamDecryptor.accept
  rw [validateFrame_eq_new.2 (isNew_blankFrame n false)]
  simp only [decryptReadyFrames_blankFrame, hnext, Bool.false_eq_true, if_false]
  have hmoved : ((emptied (n + 1)).nextSequence, (emptied (n + 1)).seenFinal) ≠
      ((emptied n).nextSequence, (emptied n).seenFinal) := by simp [emptied]
  rw [if_pos hmoved]
  rfl

theorem decryptNext_lastFrame :
    (emptied u64Max).decryptNext onePoint (fun _ => 0) (blankFrame u64Max false) 0 =
      (.error .e2eFrameSequenceOverflow, emptied u64Max) := by
  have hnext : nextSequence u64Max = .error .e2eFrameSequenceOverflow := by
    rw [nextSequence, checkedAdd, if_neg (by omega)]
    rfl
  unfold E2eStreamDecryptor.decryptNext E2eStreamDecryptor.accept
  rw [validateFrame_eq_new.2 (isNew_blankFrame u64Max false)]
  simp only [decryptReadyFrames_blankFrame, hnext, Bool.false_eq_true, if_false]

theorem decryptNext_finalFrame (n : ℕ) :
    (emptied n).decryptNext onePoint (fun _ => 0) (blankFrame n true) 0 =
      (.ok [], { emptied n with finalSequence := some n, seenFinal := true }) := by
  unfold E2eStreamDecryptor.decryptNext E2eStreamDecryptor.accept
  rw [validateFrame_eq_new.2 (isNew_blankFrame n true)]
  simp only [decryptReadyFrames_blankFrame, if_true]
  rw [if_pos (by simp [emptied])]
  rfl

/-- Every sequence below `n` was taken, and no copy is final. -/
structure Emptied (n : ℕ) (s : Session (ZMod 1)) : Prop where
  decryptor : s.decryptor = emptied n
  none : ∀ f ∈ s.accepted, f.isFinal = false

theorem Emptied.call {n : ℕ} {s : Session (ZMod 1)} (h : Emptied n s) (hn : n < u64Max) :
    Emptied (n + 1) (s.call onePoint (fun _ => 0) (blankFrame n false, 0)) := by
  constructor
  · simp only [Session.call, h.decryptor, decryptNext_blankFrame hn]
  · intro f hf
    simp only [Session.call, h.decryptor, validateFrame_eq_new.2 (isNew_blankFrame n false)] at hf
    rcases List.mem_append.1 hf with hf | hf
    · exact h.none f hf
    · rw [List.mem_singleton.1 hf]
      rfl

def blanks (n : ℕ) : List (E2eStreamFrame × ℕ) := (List.range n).map fun k => (blankFrame k false, 0)

theorem emptied_blanks {n : ℕ} (hn : n ≤ u64Max) :
    Emptied n ((Session.new 0 0 0 32 80000 0).run onePoint (fun _ => 0) (blanks n)) := by
  induction n with
  | zero => exact ⟨rfl, by simp [blanks, Session.run, Session.new]⟩
  | succ n ih =>
    rw [blanks, List.range_succ, List.map_append, List.map_singleton, Session.run_concat]
    exact (ih (by omega)).call (by omega)

/-- The frame at the last sequence is dropped for want of a successor, and a final copy of it is taken
in its place. -/
theorem Emptied.overtaken {s : Session (ZMod 1)} (h : Emptied u64Max s) :
    let s' := (s.call onePoint (fun _ => 0) (blankFrame u64Max false, 0)).call onePoint (fun _ => 0)
      (blankFrame u64Max true, 0)
    s'.decryptor.finish = .ok () ∧ ∀ n f, copyOf s'.accepted n = some f → f.isFinal = false := by
  have hfirst : s.call onePoint (fun _ => 0) (blankFrame u64Max false, 0) =
      ⟨emptied u64Max, s.accepted ++ [blankFrame u64Max false], s.returned⟩ := by
    simp only [Session.call, h.decryptor, decryptNext_lastFrame,
      validateFrame_eq_new.2 (isNew_blankFrame u64Max false)]
    exact congrArg _ (List.append_nil _)
  have hopen : ∀ f ∈ s.accepted ++ [blankFrame u64Max false], f.isFinal = false := by
    intro f hf
    rcases List.mem_append.1 hf with hf | hf
    · exact h.none f hf
    · rw [List.mem_singleton.1 hf]
      rfl
  rw [hfirst]
  simp only [Session.call, decryptNext_finalFrame,
    validateFrame_eq_new.2 (isNew_blankFrame u64Max true)]
  refine ⟨rfl, fun n f hf => ?_⟩
  rw [copyOf, List.find?_append] at hf
  cases hfind : (s.accepted ++ [blankFrame u64Max false]).find? (·.sequence = n) with
  | some g =>
    rw [hfind] at hf
    cases hf
    exact hopen f (List.mem_of_find?_eq_some hfind)
  | none =>
    -- the first copy at the last sequence comes before the final one
    rw [hfind, Option.none_or, List.find?_singleton] at hf
    have hne := List.find?_eq_none.1 hfind (blankFrame u64Max false) (by simp)
    split at hf
    · next heq => exact absurd heq hne
    · cases hf

/-- With sequences at their end a stream finishes at a frame whose first copy is not final. -/
theorem e2e_finish_overtaken : ¬ ∀ calls : List (E2eStreamFrame × ℕ),
    let s := (Session.new 0 0 (0 : ZMod 1) 32 80000 0).run onePoint (fun _ => 0) calls
    ∃ m, s.returned = plaintextUpTo onePoint 0 s.accepted m ∧ Holds onePoint s m ∧
      (s.decryptor.finish = .ok () →
        ∃ f, copyOf s.accepted (m - 1) = some f ∧ f.isFinal ∧ 0 < m) := by
  intro hall
  obtain ⟨hfinish, hcopies⟩ := (emptied_blanks le_rfl).overtaken
  rw [← Session.run_concat, ← Session.run_concat] at hfinish hcopies
  obtain ⟨m, -, -, hfinal⟩ := hall _
  obtain ⟨f, hcopy, hlast, -⟩ := hfinal hfinish
  rw [hcopies _ f hcopy] at hlast
  cases hlast

end Rings.E2e
