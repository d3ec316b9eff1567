import Rings.Effect
import Rings.SphinxLayer

/-!
Session frames, the values a session's loops carry: a string decodes to at most one frame, and it
is the encoding of that frame.
-/

namespace Rings.Sphinx

open Onion (Byte OnionLoopClass)

inductive OnionFrame
  | data (sequence : BitVec 32) (target : Option (List Byte)) (payload : List Byte)
  | fin (sequence : BitVec 32) (target : Option (List Byte))
  | credit (mark : BitVec 32) (surbs : List OnionSurb)
  | abort (sequence : BitVec 32)

inductive OnionFrameUnencodable
  | tooWide (length capacity : ℕ)
  | emptyCredit

inductive OnionFrameError
  | tag
  | flags (reserved : Byte)
  | malformed
  | surb

def sequenceCodec : FixedCodec Byte 4 (BitVec 32) := .bigEndian 4 rfl
def lengthCodec : FixedCodec Byte 2 (BitVec 16) := .bigEndian 2 rfl

def dataTag : Byte := 0
def finTag : Byte := 1
def creditTag : Byte := 2
def abortTag : Byte := 3
def targetFlag : Byte := 1

/-- The flags, and the target behind its length when there is one. -/
def encodeTarget (capacity : ℕ) : Option (List Byte) → Except OnionFrameUnencodable (List Byte)
  | none => .ok [0]
  | some t =>
    if t.length < 2 ^ 16 then .ok (targetFlag :: lengthCodec.write (BitVec.ofNat 16 t.length) ++ t)
    else .error (.tooWide t.length capacity)

def splitTarget : List Byte → Except OnionFrameError (Option (List Byte) × List Byte)
  | [] => .error .malformed
  | flags :: rest =>
    if flags = 0 then .ok (none, rest)
    else if flags = targetFlag then
      match lengthCodec.read rest with
      | none => .error .malformed
      | some (n, rest) =>
        if n.toNat ≤ rest.length then .ok (some (rest.take n.toNat), rest.drop n.toNat)
        else .error .malformed
    else .error (.flags flags)

def splitSequence (bytes : List Byte) : Except OnionFrameError (BitVec 32 × List Byte) :=
  match sequenceCodec.read bytes with
  | none => .error .malformed
  | some split => .ok split

/-- The first `k` blocks of a string; the first that is none fails. -/
def decodeSurbs (c : OnionLoopClass) : ℕ → List Byte → Except OnionFrameError (List OnionSurb)
  | 0, _ => .ok []
  | k + 1, bytes =>
    match OnionSurb.decode c (bytes.take 2979) with
    | none => .error .surb
    | some s => do return s :: (← decodeSurbs c k (bytes.drop 2979))

namespace OnionFrame

/-- The encoding of a frame, before its width is checked. -/
def body (capacity : ℕ) : OnionFrame → Except OnionFrameUnencodable (List Byte)
  | data n t payload => do
    return dataTag :: sequenceCodec.write n ++ ((← encodeTarget capacity t) ++ payload)
  | fin n t => do return finTag :: sequenceCodec.write n ++ (← encodeTarget capacity t)
  | abort n => .ok (abortTag :: sequenceCodec.write n)
  | credit mark surbs =>
    if surbs = [] then .error .emptyCredit
    else .ok (creditTag :: sequenceCodec.write mark ++ surbs.flatMap OnionSurb.encode)

def encode (c : OnionLoopClass) (f : OnionFrame) : Except OnionFrameUnencodable (List Byte) := do
  let bytes ← f.body c.valueCapacity
  if bytes.length > c.valueCapacity then .error (.tooWide bytes.length c.valueCapacity)
  else return bytes

/-- The frame behind one tag. -/
def decodeRest (c : OnionLoopClass) (tag : Byte) (n : BitVec 32) (rest : List Byte) :
    Except OnionFrameError OnionFrame :=
  if tag = dataTag then do
    let (t, payload) ← splitTarget rest
    return data n t payload
  else if tag = finTag then do
    let (t, rest) ← splitTarget rest
    if rest = [] then return fin n t else .error .malformed
  else if tag = abortTag then if rest = [] then .ok (abort n) else .error .malformed
  else if rest.length % 2979 ≠ 0 ∨ rest = [] then .error .malformed
  else do return credit n (← decodeSurbs c (rest.length / 2979) rest)

def decode (c : OnionLoopClass) : List Byte → Except OnionFrameError OnionFrame
  | [] => .error .tag
  | tag :: rest =>
    if tag = dataTag ∨ tag = finTag ∨ tag = abortTag ∨ tag = creditTag then do
      let (n, rest) ← splitSequence rest
      decodeRest c tag n rest
    else .error .tag

/-- The reply blocks are of the class that carries them, and their expiries fit the wire. -/
def Carried (c : OnionLoopClass) : OnionFrame → Prop
  | credit _ surbs => ∀ s ∈ surbs, s.class' = c ∧ s.expiry.Carried
  | _ => True

variable {c : OnionLoopClass} {m : ℕ}

lemma splitSequence_eq_ok {w r : List Byte} {n : BitVec 32} :
    splitSequence w = .ok (n, r) ↔ w = sequenceCodec.write n ++ r := by
  rw [← FixedCodec.read_eq_some, splitSequence]
  cases sequenceCodec.read w <;> simp

lemma splitTarget_eq_ok {w r : List Byte} {t : Option (List Byte)} :
    splitTarget w = .ok (t, r) ↔ ∃ e, encodeTarget m t = .ok e ∧ w = e ++ r := by
  constructor
  · intro h
    cases w with
    | nil => cases h
    | cons flags rest =>
      simp only [splitTarget] at h
      split at h
      · next h0 =>
        cases h
        exact ⟨[0], rfl, by rw [h0]; rfl⟩
      · split at h
        · next h1 =>
          split at h
          · cases h
          · next n rest' hread =>
            split at h
            · next hle =>
              cases h
              have hlen : (rest'.take n.toNat).length = n.toNat := by
                rw [List.length_take, Nat.min_eq_left hle]
              refine ⟨_, if_pos (by rw [hlen]; exact n.isLt), ?_⟩
              rw [hlen, BitVec.ofNat_toNat, BitVec.setWidth_eq, h1, lengthCodec.write_of_read hread,
                List.append_assoc, List.take_append_drop, List.cons_append]
            · cases h
        · cases h
  · rintro ⟨e, he, rfl⟩
    cases t with
    | none =>
      cases he
      rfl
    | some t =>
      rw [encodeTarget] at he
      split at he
      · next hlt =>
        cases he
        have hn : (BitVec.ofNat 16 t.length).toNat = t.length := by
          rw [BitVec.toNat_ofNat, Nat.mod_eq_of_lt hlt]
        simp only [List.cons_append, List.append_assoc, splitTarget, lengthCodec.read_write, hn]
        rw [if_neg (by decide), if_pos trivial, if_pos (by rw [List.length_append]; omega),
          List.take_left, List.drop_left]
      · cases he

/-- By induction on the count: a run of blocks decodes to the blocks it is the encoding of. -/
lemma decodeSurbs_eq_ok {k : ℕ} {w : List Byte} {surbs : List OnionSurb} (h : w.length = k * 2979) :
    decodeSurbs c k w = .ok surbs ↔
      w = surbs.flatMap OnionSurb.encode ∧ ∀ s ∈ surbs, s.class' = c ∧ s.expiry.Carried := by
  induction k generalizing w surbs with
  | zero =>
    obtain rfl := List.eq_nil_of_length_eq_zero (h.trans (Nat.zero_mul _))
    cases surbs with
    | nil => simp [decodeSurbs]
    | cons s surbs =>
      have hs := s.length_encode
      have hne : s.encode ≠ [] := by
        intro hnil
        rw [hnil] at hs
        cases hs
      simp [decodeSurbs, hne]
  | succ k ih =>
    have hdrop : (w.drop 2979).length = k * 2979 := by
      rw [List.length_drop]
      omega
    rw [decodeSurbs]
    constructor
    · intro hok
      cases hd : OnionSurb.decode c (w.take 2979) with
      | none =>
        rw [hd] at hok
        cases hok
      | some s =>
        rw [hd] at hok
        obtain ⟨rest, hrest, hok⟩ := bind_eq_ok.1 hok
        cases hok
        obtain ⟨hclass, henc, hfit⟩ := OnionSurb.decode_eq_some.1 hd
        obtain ⟨hw, hall⟩ := (ih hdrop).1 hrest
        refine ⟨?_, List.forall_mem_cons.2 ⟨⟨hclass, hfit⟩, hall⟩⟩
        rw [List.flatMap_cons, henc, ← hw, List.take_append_drop]
    · rintro ⟨hw, hall⟩
      cases surbs with
      | nil =>
        rw [hw] at h
        cases h
      | cons s surbs =>
        obtain ⟨⟨hclass, hfit⟩, hall⟩ := List.forall_mem_cons.1 hall
        rw [List.flatMap_cons] at hw
        have htake : w.take 2979 = s.encode := by rw [hw, List.take_left' s.length_encode]
        have hrest : w.drop 2979 = surbs.flatMap OnionSurb.encode := by
          rw [hw, List.drop_left' s.length_encode]
        rw [htake, OnionSurb.decode_eq_some.2 ⟨hclass, rfl, hfit⟩]
        exact bind_eq_ok.2 ⟨surbs, (ih hdrop).2 ⟨hrest, hall⟩, rfl⟩

lemma length_surbs (surbs : List OnionSurb) :
    (surbs.flatMap OnionSurb.encode).length = surbs.length * 2979 := by
  rw [List.length_flatMap, List.map_congr_left fun s _ => s.length_encode, List.map_const',
    List.sum_replicate, smul_eq_mul]

lemma decode_eq_ok {w : List Byte} {f : OnionFrame} :
    decode c w = .ok f ↔ f.body m = .ok w ∧ f.Carried c := by
  constructor
  · intro h
    cases w with
    | nil => cases h
    | cons tag rest =>
      rw [decode] at h
      split at h
      · next htag =>
        obtain ⟨⟨n, rest⟩, hn, h⟩ := bind_eq_ok.1 h
        rw [splitSequence_eq_ok.1 hn]
        change decodeRest c tag n rest = _ at h
        unfold decodeRest at h
        split at h
        · next h0 =>
          obtain ⟨⟨t, payload⟩, ht, hf⟩ := bind_eq_ok.1 h
          obtain ⟨e, he, rfl⟩ := (splitTarget_eq_ok (m := m)).1 ht
          cases hf
          rw [h0]
          exact ⟨bind_eq_ok.2 ⟨e, he, by simp [pure, Except.pure]⟩, trivial⟩
        · split at h
          · next h1 =>
            obtain ⟨⟨t, payload⟩, ht, hf⟩ := bind_eq_ok.1 h
            obtain ⟨e, he, rfl⟩ := (splitTarget_eq_ok (m := m)).1 ht
            change (if payload = [] then Except.ok (fin n t) else .error OnionFrameError.malformed) =
              .ok f at hf
            split at hf
            · next hnil =>
              cases hf
              rw [h1, hnil]
              exact ⟨bind_eq_ok.2 ⟨e, he, by simp [pure, Except.pure]⟩, trivial⟩
            · cases hf
          · split at h
            · next h3 =>
              split at h
              · next hnil =>
                cases h
                rw [h3, hnil, List.append_nil]
                exact ⟨rfl, trivial⟩
              · cases h
            · split at h
              · cases h
              · next hwhole =>
                rw [not_or, not_not] at hwhole
                obtain ⟨surbs, hs, h⟩ := bind_eq_ok.1 h
                cases h
                obtain ⟨hrest, hall⟩ := (decodeSurbs_eq_ok (by omega)).1 hs
                have hne : surbs ≠ [] := by
                  rintro rfl
                  exact hwhole.2 hrest
                obtain rfl : tag = creditTag := by tauto
                rw [hrest]
                exact ⟨if_neg hne, hall⟩
      · cases h
  · rintro ⟨hbody, hcarried⟩
    cases f with
    | data n t payload =>
      obtain ⟨e, he, hbody⟩ := bind_eq_ok.1 hbody
      cases hbody
      exact bind_eq_ok.2 ⟨_, splitSequence_eq_ok.2 rfl,
        bind_eq_ok.2 ⟨_, splitTarget_eq_ok.2 ⟨e, he, rfl⟩, rfl⟩⟩
    | fin n t =>
      obtain ⟨e, he, hbody⟩ := bind_eq_ok.1 hbody
      cases hbody
      exact bind_eq_ok.2 ⟨_, splitSequence_eq_ok.2 rfl,
        bind_eq_ok.2 ⟨(t, []), splitTarget_eq_ok.2 ⟨e, he, by rw [List.append_nil]⟩, rfl⟩⟩
    | abort n =>
      cases hbody
      exact bind_eq_ok.2 ⟨(n, []), splitSequence_eq_ok.2 (by rw [List.append_nil]), rfl⟩
    | credit mark surbs =>
      rw [body] at hbody
      split at hbody
      · cases hbody
      · next hne =>
        cases hbody
        have hlen := length_surbs surbs
        have hpos := List.length_pos_iff.2 hne
        have hk : (surbs.flatMap OnionSurb.encode).length / 2979 * 2979 =
            (surbs.flatMap OnionSurb.encode).length := by omega
        refine bind_eq_ok.2 ⟨_, splitSequence_eq_ok.2 rfl, ?_⟩
        change decodeRest c creditTag mark (surbs.flatMap OnionSurb.encode) = _
        have hwhole : ¬((surbs.flatMap OnionSurb.encode).length % 2979 ≠ 0 ∨
            surbs.flatMap OnionSurb.encode = []) := by
          rintro (hmod | hnil)
          · omega
          · rw [hnil] at hlen
            simp only [List.length_nil] at hlen
            omega
        rw [decodeRest, if_neg (by decide), if_neg (by decide), if_neg (by decide), if_neg hwhole]
        exact bind_eq_ok.2 ⟨surbs, (decodeSurbs_eq_ok hk.symm).2 ⟨rfl, hcarried⟩, rfl⟩

/-- A string as wide as the class carries decodes to a frame exactly when it is the encoding of that
frame. -/
theorem decode_iff_encode (w : List Byte) (f : OnionFrame) :
    decode c w = .ok f ∧ w.length ≤ c.valueCapacity ↔ encode c f = .ok w ∧ f.Carried c := by
  have henc : encode c f = .ok w ↔
      f.body c.valueCapacity = .ok w ∧ w.length ≤ c.valueCapacity := by
    rw [encode, bind_eq_ok]
    constructor
    · rintro ⟨bytes, hbody, h⟩
      split at h
      · cases h
      · next hle =>
        cases h
        exact ⟨hbody, Nat.le_of_not_lt hle⟩
    · rintro ⟨hbody, hle⟩
      exact ⟨w, hbody, if_neg (Nat.not_lt.2 hle)⟩
  rw [decode_eq_ok (m := c.valueCapacity), henc]
  exact and_right_comm

end OnionFrame

end Rings.Sphinx
