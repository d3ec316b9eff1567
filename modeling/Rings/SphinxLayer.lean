import Rings.FixedCodec
import Rings.LoopClass
import Rings.OnionAdmission

/-!
The uniform layer of an onion cell, its header and its reply block as byte strings. Every field has
a fixed width, and a string decodes to at most one value, whose encoding it is.
-/

namespace Rings.Onion

/-- The expiry as the 64-bit field of a layer or a reply block; one that does not fit is written
off the grid. -/
def OnionExpiry.toWireMs (x : OnionExpiry) : BitVec 64 :=
  BitVec.ofNat 64 (if x.asMs ≤ u64Max then x.asMs else u64Max)

/-- The expiry lies below the greatest instant of the wire. -/
def OnionExpiry.Carried (x : OnionExpiry) : Prop := x.quantum * onionExpiryQuantumMs ≤ u64Max

lemma OnionExpiry.fromWireMs_eq_some {w : BitVec 64} {x : OnionExpiry} :
    fromWireMs w.toFin = some x ↔ x.toWireMs = w ∧ x.Carried := by
  have hmax : u64Max < u128Max := by decide
  have hlt : w.toNat < 2 ^ 64 := w.isLt
  have hoff : u64Max % onionExpiryQuantumMs ≠ 0 := by decide
  have hfrom : fromWireMs w.toFin = if w.toNat % onionExpiryQuantumMs = 0 then
      some ⟨w.toNat / onionExpiryQuantumMs⟩ else none := rfl
  rw [hfrom, Carried, toWireMs, asMs]
  constructor
  · intro h
    split at h
    · next hgrid =>
      cases h
      have hmul := Nat.div_mul_cancel (Nat.dvd_of_mod_eq_zero hgrid)
      have hle : w.toNat ≤ u64Max := Nat.le_pred_of_lt hlt
      refine ⟨?_, by rw [hmul]; exact hle⟩
      rw [hmul, min_eq_left (by omega), if_pos hle]
      exact BitVec.ofNat_toNat 64 w
    · cases h
  · rintro ⟨rfl, hle⟩
    rw [min_eq_left (by omega), if_pos hle, BitVec.toNat_ofNat, Nat.mod_eq_of_lt
      (Nat.lt_of_le_of_lt hle (by decide)), Nat.mul_mod_left, if_pos rfl,
      Nat.mul_div_cancel _ (by decide)]

namespace OnionLoopClass

/-- The width of the carry slot: a cell without its header. -/
def carryBytes (c : OnionLoopClass) : ℕ := c.cellBytes - 2919

/-- The width of a padded carry value. -/
def carryValueBytes (c : OnionLoopClass) : ℕ := c.carryBytes - 16

/-- The widest value the padding admits. -/
def valueCapacity (c : OnionLoopClass) : ℕ := c.carryValueBytes - 1

/-- The class as the byte the header's code binds. -/
def macLabel : OnionLoopClass → Byte
  | .kiB16 => 0
  | .kiB64 => 1
  | .kiB256 => 2
  | .miB1 => 3
  | .miB4 => 4
  | .miB12 => 5

lemma carryBytes_eq (c : OnionLoopClass) :
    c.carryBytes = c.valueCapacity + 17 ∧ c.cellBytes = 2919 + c.carryBytes := by
  cases c <;> decide

end OnionLoopClass

end Rings.Onion

namespace Rings.Sphinx

open Onion (Byte OnionExpiry OnionReplayNonce OnionProcessEpoch OnionLoopClass)

/-! ### Symbols -/

/-- The world-facing symbols, in table order. -/
inductive OnionWorldSymbol | tcp | https
  deriving DecidableEq

inductive OnionSymbol
  | relay
  | worldFacing (symbol : OnionWorldSymbol)
  deriving DecidableEq

namespace OnionSymbol

/-- The position in table order. -/
def code : OnionSymbol → Byte
  | relay => 0
  | worldFacing .tcp => 1 + 0
  | worldFacing .https => 1 + 1

def fromCode (code : Byte) : Option OnionSymbol :=
  if code.toNat = 0 then some relay
  else ([OnionWorldSymbol.tcp, .https][code.toNat - 1]?).map worldFacing

lemma fromCode_eq_some {w : Byte} {s : OnionSymbol} : fromCode w = some s ↔ s.code = w := by
  revert w s
  have h : ∀ w : Byte, (∀ s, fromCode w = some s → s.code = w) ∧ ∀ s, s.code = w →
      fromCode w = some s := by
    intro w
    constructor
    · intro s hs
      rw [fromCode] at hs
      split at hs
      · next h0 =>
        cases hs
        exact BitVec.eq_of_toNat_eq h0.symm
      · next h0 =>
        obtain ⟨t, ht, rfl⟩ := Option.map_eq_some_iff.1 hs
        obtain ⟨hlt, ht⟩ := List.getElem?_eq_some_iff.1 ht
        have hlt' : w.toNat - 1 < 2 := hlt
        obtain hw | hw : w.toNat = 1 ∨ w.toNat = 2 := by omega
        all_goals
          simp only [hw] at ht
          cases ht
          exact BitVec.eq_of_toNat_eq hw.symm
    · intro s hs
      subst hs
      rcases s with _ | ⟨_ | _⟩ <;> rfl
  exact fun {w s} => ⟨(h w).1 s, (h w).2 s⟩

end OnionSymbol

/-! ### Layers -/

abbrev OnionCarrySeed := Vector Byte 32
abbrev OnionSegmentSeed := Vector Byte 32
abbrev OnionHeaderMac := Vector Byte 16
abbrev OnionArguments := Vector Byte 64

/-- The application of a symbol hop. -/
structure OnionApplication where
  symbol : OnionWorldSymbol
  arguments : OnionArguments
  deriving DecidableEq

inductive OnionLayerApplication
  | relay
  | apply (application : OnionApplication)
  deriving DecidableEq

/-- The fields of a layer that admission and routing read. -/
structure OnionLayerHead where
  application : OnionLayerApplication
  next : Did
  epoch : OnionProcessEpoch
  expiry : OnionExpiry
  nonce : OnionReplayNonce
  deriving DecidableEq

structure OnionLayer where
  head : OnionLayerHead
  inbound : OnionCarrySeed
  outbound : OnionSegmentSeed
  deriving DecidableEq

/-- The raw fields of a layer, in wire order. -/
abbrev LayerRecord := Vector Byte 1 × OnionArguments × Did × OnionProcessEpoch × BitVec 64 ×
  OnionReplayNonce × OnionCarrySeed × OnionSegmentSeed × OnionHeaderMac

def expiryCodec : FixedCodec Byte 8 (BitVec 64) := .bigEndian 8 rfl

def didCodec : FixedCodec Byte 20 Did := .bigEndian 20 rfl

def layerRecord : FixedCodec Byte 205 LayerRecord :=
  (FixedCodec.take Byte 1).pair <| (FixedCodec.take Byte 64).pair <| didCodec.pair <|
    (FixedCodec.bigEndian 16 rfl).pair <| expiryCodec.pair <| (FixedCodec.take Byte 16).pair <|
    (FixedCodec.take Byte 32).pair <| (FixedCodec.take Byte 32).pair (FixedCodec.take Byte 16)

inductive OnionLayerError
  | width (length : ℕ)
  | unknownSymbol (code : Byte)
  | relayArguments
  | offGridExpiry (ms : BitVec 64)
  deriving DecidableEq

namespace OnionLayer

/-- The fields of a layer, its header code in place. -/
def record (layer : OnionLayer) (nextMac : OnionHeaderMac) : LayerRecord :=
  let application := match layer.head.application with
    | .relay => (OnionSymbol.relay, Vector.replicate 64 0)
    | .apply application => (OnionSymbol.worldFacing application.symbol, application.arguments)
  (#v[application.1.code], application.2, layer.head.next, layer.head.epoch,
    layer.head.expiry.toWireMs, layer.head.nonce, layer.inbound, layer.outbound, nextMac)

def encode (layer : OnionLayer) (nextMac : OnionHeaderMac) : List Byte :=
  layerRecord.write (layer.record nextMac)

@[simp] lemma length_encode (layer : OnionLayer) (nextMac : OnionHeaderMac) :
    (layer.encode nextMac).length = 205 := layerRecord.length_write _

def decodeApplication (code : Byte) (arguments : OnionArguments) :
    Except OnionLayerError OnionLayerApplication :=
  match OnionSymbol.fromCode code with
  | none => .error (.unknownSymbol code)
  | some .relay => if arguments = .replicate 64 0 then .ok .relay else .error .relayArguments
  | some (.worldFacing symbol) => .ok (.apply ⟨symbol, arguments⟩)

/-- The layer of a record: the application is checked first, then the expiry. -/
def ofRecord (r : LayerRecord) : Except OnionLayerError (OnionLayer × OnionHeaderMac) :=
  let (code, arguments, next, epoch, expiry, nonce, inbound, outbound, nextMac) := r
  match decodeApplication (getElem code 0 Nat.one_pos) arguments,
    OnionExpiry.fromWireMs expiry.toFin with
  | .error e, _ => .error e
  | .ok _, none => .error (.offGridExpiry expiry)
  | .ok application, some x =>
    .ok (⟨⟨application, next, epoch, x, nonce⟩, inbound, outbound⟩, nextMac)

def decode (bytes : List Byte) : Except OnionLayerError (OnionLayer × OnionHeaderMac) :=
  match layerRecord.readAll bytes with
  | none => .error (.width bytes.length)
  | some r => ofRecord r

lemma decodeApplication_eq_ok {code : Byte} {arguments : OnionArguments}
    {a : OnionLayerApplication} :
    decodeApplication code arguments = .ok a ↔
      (a = .relay ∧ OnionSymbol.relay.code = code ∧ Vector.replicate 64 0 = arguments) ∨
        ∃ s, a = .apply ⟨s, arguments⟩ ∧ (OnionSymbol.worldFacing s).code = code := by
  constructor
  · intro h
    rw [decodeApplication] at h
    cases hs : OnionSymbol.fromCode code with
    | none =>
      rw [hs] at h
      cases h
    | some s =>
      rw [hs] at h
      have hcode := OnionSymbol.fromCode_eq_some.1 hs
      cases s with
      | relay =>
        simp only at h
        split at h
        · next harg =>
          cases h
          exact .inl ⟨rfl, hcode, harg.symm⟩
        · cases h
      | worldFacing s =>
        cases h
        exact .inr ⟨s, rfl, hcode⟩
  · rintro (⟨rfl, hcode, rfl⟩ | ⟨s, rfl, hcode⟩)
    · rw [decodeApplication, OnionSymbol.fromCode_eq_some.2 hcode]
      exact if_pos rfl
    · rw [decodeApplication, OnionSymbol.fromCode_eq_some.2 hcode]

lemma singleton_eq_iff {b : Byte} {v : Vector Byte 1} : #v[b] = v ↔ b = v[0] := by
  constructor
  · rintro rfl
    rfl
  · rintro rfl
    apply Vector.ext
    intro i hi
    obtain rfl : i = 0 := by omega
    rfl

lemma ofRecord_eq_ok {r : LayerRecord} {layer : OnionLayer} {nextMac : OnionHeaderMac} :
    ofRecord r = .ok (layer, nextMac) ↔ layer.record nextMac = r ∧ layer.head.expiry.Carried := by
  obtain ⟨code, arguments, next, epoch, expiry, nonce, inbound, outbound, mac⟩ := r
  constructor
  · intro h
    simp only [ofRecord] at h
    split at h
    · cases h
    · cases h
    · next ha hx =>
      cases h
      obtain ⟨rfl, hfit⟩ := OnionExpiry.fromWireMs_eq_some.1 hx
      refine ⟨?_, hfit⟩
      rcases decodeApplication_eq_ok.1 ha with ⟨rfl, hcode, rfl⟩ | ⟨s, rfl, hcode⟩
      · rw [← singleton_eq_iff.2 hcode]
        rfl
      · rw [← singleton_eq_iff.2 hcode]
        rfl
  · obtain ⟨⟨application, next', epoch', x, nonce'⟩, inbound', outbound'⟩ := layer
    rintro ⟨h, hfit⟩
    have hx := OnionExpiry.fromWireMs_eq_some.2 ⟨rfl, hfit⟩
    rcases application with _ | ⟨s, args⟩
    · have ha := decodeApplication_eq_ok.2 (.inl ⟨rfl, rfl, rfl⟩)
      cases h
      simp only [ofRecord]
      rw [hx, show decodeApplication (#v[OnionSymbol.relay.code])[0] _ = _ from ha]
    · have ha := (decodeApplication_eq_ok (a := .apply ⟨s, args⟩)).2 (.inr ⟨s, rfl, rfl⟩)
      cases h
      simp only [ofRecord]
      rw [hx, show decodeApplication (#v[(OnionSymbol.worldFacing s).code])[0] _ = _ from ha]

/-- A string decodes to a layer exactly when it is the encoding of that layer and of the code of the
next header, and the expiry fits the wire. -/
lemma decode_eq_ok {bytes : List Byte} {layer : OnionLayer} {nextMac : OnionHeaderMac} :
    decode bytes = .ok (layer, nextMac) ↔
      layer.encode nextMac = bytes ∧ layer.head.expiry.Carried := by
  have hread : layer.encode nextMac = bytes ↔
      layerRecord.readAll bytes = some (layer.record nextMac) := FixedCodec.readAll_eq_some.symm
  rw [hread, decode]
  cases layerRecord.readAll bytes with
  | none => simp
  | some r =>
    rw [Option.some.injEq, eq_comm (a := r)]
    exact ofRecord_eq_ok

lemma ofRecord_ne_width (r : LayerRecord) (length : ℕ) : ofRecord r ≠ .error (.width length) := by
  obtain ⟨code, arguments, next, epoch, expiry, rest⟩ := r
  intro h
  simp only [ofRecord] at h
  split at h
  · next ha =>
    cases h
    unfold decodeApplication at ha
    split at ha
    · cases ha
    · split at ha <;> cases ha
    · cases ha
  · cases h
  · cases h

/-- The strings that decode are the encodings whose expiry fits the wire; those refused for their
width are the ones of another width. -/
theorem decode_exact (bytes : List Byte) :
    (∀ layer nextMac, decode bytes = .ok (layer, nextMac) ↔
      layer.encode nextMac = bytes ∧ layer.head.expiry.Carried) ∧
      ∀ n, decode bytes = .error (.width n) ↔ n = bytes.length ∧ bytes.length ≠ 205 := by
  refine ⟨fun _ _ => decode_eq_ok, fun n => ?_⟩
  rw [decode, ← FixedCodec.readAll_eq_none (c := layerRecord)]
  cases layerRecord.readAll bytes with
  | none => simp [eq_comm]
  | some r => simp [ofRecord_ne_width]

end OnionLayer

/-! ### Headers and reply blocks -/

/-- One layer slot. -/
abbrev Block := Vector Byte 205

structure OnionHeader where
  alpha : Vector Byte 33
  routing : Vector Block 14
  mac : OnionHeaderMac
  deriving DecidableEq

/-- The fields of a header, in wire order. -/
def headerCodec : FixedCodec Byte 2919 OnionHeader :=
  ((FixedCodec.take Byte 33).pair
    (((FixedCodec.take Byte 205).many 14).pair (FixedCodec.take Byte 16))).map
    ⟨fun p => ⟨p.1, p.2.1, p.2.2⟩, fun h => (h.alpha, h.routing, h.mac), fun _ => rfl, fun _ => rfl⟩

/-- A single-use reply block: where its cell goes, the header, the seed of the carry, the expiry. -/
structure OnionSurb where
  class' : OnionLoopClass
  next : Did
  header : OnionHeader
  outbound : OnionSegmentSeed
  expiry : OnionExpiry
  deriving DecidableEq

def surbCodec : FixedCodec Byte 2979 (Did × OnionHeader × OnionSegmentSeed × BitVec 64) :=
  didCodec.pair (headerCodec.pair ((FixedCodec.take Byte 32).pair expiryCodec))

namespace OnionSurb

def encode (s : OnionSurb) : List Byte :=
  surbCodec.write (s.next, s.header, s.outbound, s.expiry.toWireMs)

/-- Decode a block carried in a loop of class `c`, which is not part of the encoding. -/
def decode (c : OnionLoopClass) (bytes : List Byte) : Option OnionSurb :=
  (surbCodec.readAll bytes).bind fun r =>
    (OnionExpiry.fromWireMs r.2.2.2.toFin).map fun x => ⟨c, r.1, r.2.1, r.2.2.1, x⟩

@[simp] lemma length_encode (s : OnionSurb) : s.encode.length = 2979 := surbCodec.length_write _

lemma decode_eq_some {c : OnionLoopClass} {bytes : List Byte} {s : OnionSurb} :
    decode c bytes = some s ↔ s.class' = c ∧ s.encode = bytes ∧ s.expiry.Carried := by
  constructor
  · intro h
    obtain ⟨⟨next, header, outbound, ms⟩, hr, h⟩ := Option.bind_eq_some_iff.1 h
    obtain ⟨x, hx, h⟩ := Option.map_eq_some_iff.1 h
    cases h
    obtain ⟨hms, hfit⟩ := OnionExpiry.fromWireMs_eq_some.1 hx
    refine ⟨rfl, ?_, hfit⟩
    rw [← FixedCodec.readAll_eq_some.1 hr]
    exact congrArg (fun w => surbCodec.write (next, header, outbound, w)) hms
  · rintro ⟨rfl, rfl, hfit⟩
    rw [decode, encode, FixedCodec.readAll_write, Option.bind_some,
      OnionExpiry.fromWireMs_eq_some.2 ⟨rfl, hfit⟩]
    rfl

end OnionSurb

end Rings.Sphinx
