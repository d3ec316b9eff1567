import Rings.LoopSelection
import Rings.SphinxHeader

/-!
Cells of an onion loop: the client seals a value under the keys of the first segment and wraps the
layers of the loop around it; each hop takes its layer off, and a symbol hop answers through the
reply block its layer leaves it.
-/

namespace Rings.Sphinx

open Onion (Byte OnionExpiry OnionReplayNonce OnionLoopClass)
open OnionRoute (OnionRouteHop OnionLoop PublicKey)
open Aez (Bytes Subkeys KeyError)

variable {Z G : Type} (prim : Primitives Z G)

/-! ### Seeds -/

/-- The key of a seed; a weak one is refused. -/
def seedKey (seed : OnionCarrySeed) : Except KeyError Subkeys :=
  Subkeys.new (prim.hkdf (ascii "rings-node:onion-carry-key") seed.toList (ascii "aez") Aez.keyBytes)

/-- The seeds of one segment: of its two relays in the order of the visits, and of its consumer. -/
structure OnionSegmentSeeds where
  relays : Vector OnionCarrySeed 2
  consumer : OnionCarrySeed

def segmentSeeds (seed : OnionSegmentSeed) : OnionSegmentSeeds :=
  let derive info := prim.hkdf (ascii "rings-node:onion-carry-seed") seed.toList info 32
  ⟨#v[derive (ascii "relay" ++ [1]), derive (ascii "relay" ++ [2])], derive (ascii "consumer")⟩

structure OnionSegmentKeys where
  relays : Vector Subkeys 2
  consumer : Subkeys

def segmentKeys (seed : OnionSegmentSeed) : Except KeyError OnionSegmentKeys := do
  let seeds := segmentSeeds prim seed
  let first ← seedKey prim seeds.relays[0]
  let second ← seedKey prim seeds.relays[1]
  let consumer ← seedKey prim seeds.consumer
  return ⟨#v[first, second], consumer⟩

/-! ### The carry -/

structure OnionValueTooWide where
  length : ℕ
  capacity : ℕ

inductive OnionOpenError | inauthentic | padding
  deriving DecidableEq

def paddingMarker : Byte := 0x80

/-- Pad a value, encrypt it for the consumer and encipher it for each relay, the last one first. -/
def sealSlot (c : OnionLoopClass) (keys : OnionSegmentKeys) (value : Bytes) :
    Except OnionValueTooWide Bytes :=
  if value.length > c.valueCapacity then .error ⟨value.length, c.valueCapacity⟩
  else
    let slot := value ++ paddingMarker :: .replicate (c.carryBytes - value.length - 1) 0
    let sealed := (Aez.encrypt prim.aesRound keys.consumer [] 16 slot).getD slot
    .ok (keys.relays.toList.reverse.foldl (fun y k => Aez.encipher prim.aesRound k [] y) sealed)

/-- Take one relay's layer off. -/
def peelSlot (key : Subkeys) (slot : Bytes) : Bytes := Aez.decipher prim.aesRound key [] slot

/-- The consumer's value: what comes before the marker that ends it. -/
def openSlot (key : Subkeys) (slot : Bytes) : Except OnionOpenError Bytes :=
  match Aez.decrypt prim.aesRound key [] 16 slot with
  | .error _ => .error .inauthentic
  | .ok message =>
    match message.reverse.dropWhile (· == 0) with
    | [] => .error .padding
    | marker :: rest => if marker = paddingMarker then .ok rest.reverse else .error .padding

lemma toList_two {α : Type} (v : Vector α 2) : v.toList = [v[0], v[1]] := by
  refine List.ext_getElem (by simp) fun i hi _ => ?_
  rw [Vector.length_toList] at hi
  obtain rfl | rfl : i = 0 ∨ i = 1 := by omega
  all_goals simp

/-- The consumer opens what the producer sealed, once both relays have taken their layer off. -/
lemma openSlot_sealSlot {c : OnionLoopClass} {keys : OnionSegmentKeys} {value slot : Bytes}
    (h : sealSlot prim c keys value = .ok slot) :
    openSlot prim keys.consumer (peelSlot prim keys.relays[1] (peelSlot prim keys.relays[0] slot)) =
      .ok value := by
  rw [sealSlot] at h
  split at h
  · cases h
  · next hfits =>
    have hcarry := c.carryBytes_eq.1
    have hpad : value ++ paddingMarker :: List.replicate (c.carryBytes - value.length - 1) 0 =
        (value ++ paddingMarker :: List.replicate (c.valueCapacity - value.length) 0) ++
          (Vector.replicate 16 (0 : Byte)).toList := by
      rw [show c.carryBytes - value.length - 1 = c.valueCapacity - value.length + 16 by omega,
        ← List.replicate_append_replicate, List.append_assoc, List.cons_append]
      rfl
    simp only at h
    rw [toList_two, hpad, Aez.encrypt_append] at h
    cases h
    have hperm := fun k y => Aez.transform_flip prim.aesRound k [] 0 .encipher y
    have hdecrypt := (Aez.decrypt_eq_ok prim.aesRound keys.consumer [] 16 _
      (value ++ paddingMarker :: List.replicate (c.valueCapacity - value.length) 0)).2 rfl
    simp only [List.reverse_cons, List.reverse_nil, List.nil_append, List.cons_append,
      List.foldl_cons, List.foldl_nil, Option.getD_some, peelSlot, Aez.decipher, Aez.encipher]
    simp only [Aez.Direction.flip] at hperm
    rw [hperm, hperm, openSlot, hdecrypt]
    simp only [List.reverse_append, List.reverse_cons, List.reverse_replicate, List.append_assoc]
    rw [List.dropWhile_append_of_pos (by simp)]
    simp [paddingMarker]

/-! ### Cells -/

structure OnionCell where
  class' : OnionLoopClass
  bytes : Bytes

inductive OnionHopDrop
  | peel (error : OnionPeelError)
  | key (error : KeyError)
  | opening (error : OnionOpenError)
  | width
  | produce

/-- What a hop's layer makes of its cell. -/
inductive OnionStep
  | relayed (next : Did) (cell : OnionCell)
  | consumed (application : OnionApplication) (value : Bytes) (surb : OnionSurb)

/-- The carry step of a position, by its layer's application: the layer, and the cell with the next
header in place. -/
def carryStep (layer : OnionLayer) (cell : OnionCell) : Except OnionHopDrop OnionStep := do
  let key ← (seedKey prim layer.inbound).mapError .key
  match headerCodec.read cell.bytes with
  | none => .error .width
  | some (header, slot) =>
    match layer.head.application with
    | .relay => .ok (.relayed layer.head.next
        ⟨cell.class', headerCodec.write header ++ peelSlot prim key slot⟩)
    | .apply application => do
      let value ← (openSlot prim key slot).mapError .opening
      return .consumed application value
        ⟨cell.class', layer.head.next, header, layer.outbound, layer.head.expiry⟩

/-- Spend a reply block on a value. -/
def produce (surb : OnionSurb) (value : Bytes) : Except OnionHopDrop (Did × OnionCell) := do
  let keys ← (segmentKeys prim surb.outbound).mapError .key
  let slot ← (sealSlot prim surb.class' keys value).mapError fun _ => .produce
  return (surb.next, ⟨surb.class', headerCodec.write surb.header ++ slot⟩)

section

variable [CommGroup Z] [MulAction Z G]

def OnionCell.peel (cell : OnionCell) (key : Z) :
    Except OnionPeelError (OnionLayer × OnionCell) :=
  match headerCodec.read cell.bytes with
  | none => .error .invalid
  | some (header, slot) => do
    let (layer, next) ← OnionHeader.peel prim cell.class' key header
    return (layer, ⟨cell.class', headerCodec.write next ++ slot⟩)

/-- The data path of one hop: peel, take the carry step, and at a symbol hop answer with what the
application makes of the value. -/
def hop (keyOf : Did → Z) (eval : OnionApplication → Bytes → Bytes) (at' : Did × OnionCell) :
    Except OnionHopDrop (Did × OnionCell) := do
  let (layer, cell) ← (at'.2.peel prim (keyOf at'.1)).mapError .peel
  match ← carryStep prim layer cell with
  | .relayed next cell => return (next, cell)
  | .consumed application value surb => produce prim surb (eval application value)

/-- The cell after `n` hops. -/
def hops (keyOf : Did → Z) (eval : OnionApplication → Bytes → Bytes) :
    ℕ → Did × OnionCell → Except OnionHopDrop (Did × OnionCell)
  | 0, at' => .ok at'
  | n + 1, at' => do hops keyOf eval n (← hop prim keyOf eval at')

end

/-! ### The builder -/

/-- A source of random bytes and scalars. -/
structure Rng (R Z : Type) where
  fill : (n : ℕ) → R → Vector Byte n × R
  scalar : R → Z × R

inductive OnionLoopRole
  | relay
  | symbol (k : ℕ)

def roles (l : OnionLoop OnionRouteHop OnionRouteHop) : List (OnionLoopRole × OnionRouteHop) :=
  (l.guard :: l.lead).map (fun p => (.relay, p)) ++
    (l.stages.zipIdx 1).flatMap (fun s =>
      (.symbol s.2, s.1.1) :: s.1.2.map fun p => (.relay, p)) ++
    (.symbol (l.stages.length + 1), l.terminal) ::
      (l.tail ++ [l.guard]).map fun p => (.relay, p)

inductive OnionBuildError
  | key (error : KeyError)
  | publicKey
  | hopCount (count : ℕ)
  | blinding
  | valueTooWide
  | shape

/-- A public key is written by its bytes. -/
def publicKeyBytes : Vector Byte 33 ≃ PublicKey := digitsEquiv 8 33 rfl

structure OnionHeaderHop where
  publicKey : Vector Byte 33
  layer : OnionLayer

/-- The positions of a loop, every key a point. -/
def OnionHeaderRoute.new (hops : List OnionHeaderHop) :
    Except OnionBuildError (OnionHeaderRoute G) :=
  match hops.mapM fun h => (prim.ofSec1 h.publicKey).map fun p => (⟨p, h.layer⟩ :
      OnionRoutePosition G) with
  | none => .error .publicKey
  | some positions =>
    if h : positions ≠ [] ∧ positions.length ≤ 14 then
      .ok ⟨positions.dropLast, positions.getLast h.1, by
        have := List.length_pos_iff.2 h.1
        rw [List.length_dropLast]
        omega⟩
    else .error (.hopCount hops.length)

/-- The seeds of the segment being built that are not placed yet. -/
structure OnionOpenSegment where
  relays : List OnionCarrySeed
  consumer : OnionCarrySeed

def OnionOpenSegment.of (seed : OnionSegmentSeed) : OnionOpenSegment :=
  ⟨(segmentSeeds prim seed).relays.toList, (segmentSeeds prim seed).consumer⟩

section

variable {R : Type} (rng : Rng R Z)

def fill (n : ℕ) : Effect R OnionBuildError (Vector Byte n) := do
  let r ← get
  set (rng.fill n r).2
  return (rng.fill n r).1

def attempt : Effect R OnionBuildError (OnionSegmentSeed × OnionSegmentKeys) := do
  let seed ← fill rng 32
  match segmentKeys prim seed with
  | .error e => throw (.key e)
  | .ok keys => return (seed, keys)

/-- The first of four seeds whose keys are strong. -/
def draw : ℕ → Effect R OnionBuildError (OnionSegmentSeed × OnionSegmentKeys)
  | 0 => attempt prim rng
  | n + 1 => tryCatch (attempt prim rng) fun _ => draw n

variable (client : Did) (expiry : OnionExpiry) (applications : List OnionApplication)

/-- Place the seeds on the positions that are left: a relay takes the next seed of the open segment,
a symbol hop its consumer's, and opens the next segment. Gives the last segment's seed, too. -/
def place : List (OnionLoopRole × OnionRouteHop) → OnionOpenSegment → OnionSegmentSeed →
    Effect R OnionBuildError (List OnionHeaderHop × OnionSegmentSeed)
  | [], _, last => return ([], last)
  | (.relay, hop) :: rest, segment, last => do
    match segment.relays with
    | [] => throw .shape
    | inbound :: relays =>
      let outbound ← fill rng 32
      let nonce ← fill rng 16
      let placed ← place rest ⟨relays, segment.consumer⟩ last
      let next := (rest.head?.map (·.2.did)).getD client
      return (⟨publicKeyBytes.symm hop.delegateePublicKey,
        ⟨⟨.relay, next, hop.processEpoch, expiry, nonce⟩, inbound, outbound⟩⟩ :: placed.1, placed.2)
  | (.symbol k, hop) :: rest, segment, _ => do
    match if k = 0 then none else applications[k - 1]? with
    | none => throw .shape
    | some application =>
      let produced ← draw prim rng 3
      let nonce ← fill rng 16
      let placed ← place rest (.of prim produced.1) produced.1
      let next := (rest.head?.map (·.2.did)).getD client
      return (⟨publicKeyBytes.symm hop.delegateePublicKey,
        ⟨⟨.apply application, next, hop.processEpoch, expiry, nonce⟩, segment.consumer,
          produced.1⟩⟩ :: placed.1, placed.2)

/-- What the client keeps for a returning cell. -/
structure OnionReplyKey where
  tag : OnionHeaderMac
  key : Subkeys
  expiry : OnionExpiry

structure OnionBuiltLoop where
  guard : Did
  cell : OnionCell
  reply : OnionReplyKey

variable [CommGroup Z] [MulAction Z G] (c : OnionLoopClass)

/-- The first cell of a loop and the key of its reply. -/
def buildLoop (l : OnionLoop OnionRouteHop OnionRouteHop) (value : Bytes) :
    Effect R OnionBuildError OnionBuiltLoop := do
  let first ← draw prim rng 3
  let placed ← place prim rng client expiry applications (roles l) (.of prim first.1) first.1
  if l.stages.length + 1 ≠ applications.length then throw .shape
  let route ← ExceptT.mk (pure (OnionHeaderRoute.new prim placed.1))
  let tag ← fill rng 16
  let r ← get
  set (rng.scalar r).2
  let random ← fill rng (14 * 205)
  let header ← ExceptT.mk (pure ((OnionHeader.build prim route c tag (rng.scalar r).1
    (.ofFn fun i => .ofFn fun j => random[i.val * 205 + j.val])).mapError fun _ => .blinding))
  let slot ← ExceptT.mk (pure ((sealSlot prim c first.2 value).mapError fun _ => .valueTooWide))
  let key ← ExceptT.mk (pure ((seedKey prim (segmentSeeds prim placed.2).consumer).mapError .key))
  return ⟨l.guard.did, ⟨c, headerCodec.write header ++ slot⟩, ⟨tag, key, expiry⟩⟩

end

end Rings.Sphinx
