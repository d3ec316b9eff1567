import Rings.AezCipher
import Rings.Effect
import Rings.SphinxLayer
import Mathlib.Algebra.Group.Action.Defs
import Mathlib.Tactic.Cases

/-!
The header of an onion cell: the client wraps the layers of a loop from the last to the first, and
each hop takes one off with its own key. The filler keeps the length of the header fixed: the tail
of every header is what the hops before it will have masked zeros with.
-/

namespace Rings

/-! ### Fillers -/

namespace Filler

variable {B : Type*} (x : B → B → B) (zero : B)

/-- Mask blocks with a stream, as far as the shorter goes. -/
def mask (blocks stream : List B) : List B := List.zipWith x blocks stream

def step (filler stream : List B) : List B :=
  (mask x (filler ++ [zero]).reverse stream.reverse).reverse

/-- Put a layer in front, drop the last block and mask. -/
def wrap (layer : B) (next stream : List B) : List B := mask x (layer :: next.dropLast) stream

def peel (blocks stream : List B) : List B := mask x (blocks ++ [zero]) stream

variable {x zero} (hx : ∀ a m, x (x a m) m = a)

lemma mask_take {blocks stream : List B} {k : ℕ} (h : blocks.length ≤ k) :
    mask x blocks (stream.take k) = mask x blocks stream := by
  induction blocks generalizing stream k with
  | nil => rfl
  | cons b blocks ih =>
    obtain ⟨k, rfl⟩ : ∃ j, k = j + 1 := ⟨k - 1, by rw [List.length_cons] at h; omega⟩
    cases stream with
    | nil => rfl
    | cons s stream =>
      exact congrArg (x b s :: ·) (ih (Nat.le_of_succ_le_succ h))

include hx in
lemma mask_mask {blocks stream : List B} (h : blocks.length ≤ stream.length) :
    mask x (mask x blocks stream) stream = blocks := Aez.zipWith_cancel hx h

lemma step_eq {filler stream : List B} {k : ℕ} (h : filler.length + 1 + k = stream.length) :
    step x zero filler stream = mask x (filler ++ [zero]) (stream.drop k) := by
  have hlen : (filler ++ [zero]).length = (stream.drop k).length := by
    rw [List.length_append, List.length_singleton, List.length_drop]
    omega
  have htake : stream.reverse.take (stream.length - k) = (stream.drop k).reverse := by
    rw [List.take_reverse]
    congr 2
    omega
  rw [step, ← mask_take (k := stream.length - k)
      (by rw [List.length_reverse, hlen, List.length_drop]), htake, mask, ← List.reverse_zipWith hlen,
    List.reverse_reverse, mask]

lemma length_step {filler stream : List B} (h : filler.length < stream.length) :
    (step x zero filler stream).length = filler.length + 1 := by
  rw [step_eq (k := stream.length - (filler.length + 1)) (by omega), mask, List.length_zipWith,
    List.length_append, List.length_singleton, List.length_drop]
  omega

section

variable {n : ℕ} {layer : B} {filler next stream : List B}

lemma length_wrap (hnext : next.length = n) (hn : 0 < n) (hstream : stream.length = n + 1) :
    (wrap x layer next stream).length = n := by
  rw [wrap, mask, List.length_zipWith, List.length_cons, List.length_dropLast, hnext, hstream]
  omega

include hx in
lemma drop_wrap {k : ℕ} (hnext : next.length = n) (hstream : stream.length = n + 1)
    (hk : filler.length + 1 + k = n) (htail : next.drop k = step x zero filler stream) :
    (wrap x layer next stream).drop (k + 1) = filler := by
  have hstep := @step_eq _ x zero filler stream (k + 1) (by omega)
  have hcut : next.dropLast.drop k = mask x filler (stream.drop (k + 1)) := by
    rw [List.dropLast_eq_take, List.drop_take, htail, hstep, hnext,
      show n - 1 - k = filler.length by omega, mask, List.take_zipWith, List.take_left]
    exact mask_take (Nat.le_refl _)
  rw [wrap, mask, List.drop_zipWith, List.drop_succ_cons, hcut]
  exact mask_mask hx (by rw [List.length_drop]; omega)

include hx in
/-- Peeling what was wrapped gives the layer and the next blocks back, the last one out of the
filler. -/
lemma peel_wrap {k : ℕ} (hnext : next.length = n) (hstream : stream.length = n + 1)
    (hk : filler.length + 1 + k = n) (htail : next.drop k = step x zero filler stream) :
    peel x zero (wrap x layer next stream) stream = layer :: next := by
  have hlast : next.drop (n - 1) = mask x [zero] (stream.drop n) := by
    have hdrop : next.drop (n - 1) = (next.drop k).drop filler.length := by
      rw [List.drop_drop]
      congr 1
      omega
    rw [hdrop, htail, step_eq (k := k + 1) (by omega), mask, List.drop_zipWith, List.drop_left,
      List.drop_drop, mask]
    congr 2
    omega
  have hlen : (wrap x layer next stream).length = n := length_wrap hnext (by omega) hstream
  generalize hout : wrap x layer next stream = out at hlen
  have hsplit : stream = stream.take n ++ stream.drop n := (List.take_append_drop n stream).symm
  have htake : (stream.take n).length = n := by
    rw [List.length_take]
    omega
  have hwrap : mask x out (stream.take n) = layer :: next.dropLast := by
    have hcut : out = mask x (layer :: next.dropLast) (stream.take n) := by
      rw [← hout, wrap]
      exact (mask_take (by rw [List.length_cons, List.length_dropLast]; omega)).symm
    rw [hcut]
    exact mask_mask hx (by rw [List.length_cons, List.length_dropLast]; omega)
  rw [peel, mask]
  conv_lhs => rw [hsplit]
  rw [List.zipWith_append (by omega)]
  change mask x _ (stream.take n) ++ mask x [zero] (stream.drop n) = _
  rw [hwrap, ← hlast, List.cons_append, List.dropLast_eq_take, hnext, List.take_append_drop]

end

end Filler

end Rings

namespace Rings.Sphinx

open Onion (Byte OnionExpiry OnionLoopClass)

/-! ### Keys -/

/-- The curve, the hashes and the ciphers a cell is made with: points other than the identity under
the scalars other than zero, and the standard functions on bytes. -/
structure Primitives (Z G : Type) where
  generator : G
  /-- The affine coordinate that a shared secret is. -/
  xBytes : G → Vector Byte 32
  toSec1 : G → Vector Byte 33
  ofSec1 : Vector Byte 33 → Option G
  ofSec1_toSec1 : ∀ p, ofSec1 (toSec1 p) = some p
  /-- A wide number as a scalar; none when it is zero. -/
  reduceWide : Vector Byte 64 → Option Z
  hkdf : (salt ikm info : List Byte) → (n : ℕ) → Vector Byte n
  /-- The stream of a key, as the blocks of a header and one more. -/
  chacha20 : Vector Byte 32 → Vector Block 15
  hmacSha256 : Vector Byte 64 → List Byte → Vector Byte 32
  aesRound : Aez.Block → Aez.Block → Aez.Block

def ascii (text : String) : List Byte := text.toList.map fun c => BitVec.ofNat 8 c.toNat

inductive OnionBlindingError | zero
  deriving DecidableEq

structure OnionHopSecrets (Z : Type) where
  stream : Vector Block 15
  macKey : Vector Byte 64
  blinding : Z

/-- One position of a loop: the point of its key, and its layer. -/
structure OnionRoutePosition (G : Type) where
  recipient : G
  layer : OnionLayer

structure OnionHeaderRoute (G : Type) where
  outer : List (OnionRoutePosition G)
  last : OnionRoutePosition G
  bounded : outer.length + 1 ≤ 14

inductive OnionPeelError
  | invalid
  | blinding
  | layer (error : OnionLayerError)
  deriving DecidableEq

def xorBlock (a b : Block) : Block := Vector.zipWith (· ^^^ ·) a b

def zeroBlock : Block := .replicate 205 0

lemma xorBlock_xorBlock (a m : Block) : xorBlock (xorBlock a m) m = a := by
  apply Vector.ext
  intro i hi
  rw [xorBlock, xorBlock, Vector.getElem_zipWith, Vector.getElem_zipWith, Aez.xor_xor_cancel]

/-- The blocks of a header, from a list of as many. -/
def toRouting (blocks : List Block) : Vector Block 14 :=
  .ofFn fun i => (blocks[i.val]?).getD zeroBlock

lemma toList_toRouting {blocks : List Block} (h : blocks.length = 14) :
    (toRouting blocks).toList = blocks := by
  apply List.ext_getElem
  · simp [h]
  · intro i hi hi'
    simp [toRouting, List.getElem?_eq_getElem hi']

def layerBlock (layer : OnionLayer) (nextMac : OnionHeaderMac) : Block :=
  ⟨⟨layer.encode nextMac⟩, layer.length_encode nextMac⟩

section

variable {Z G : Type} [CommGroup Z] [MulAction Z G] (prim : Primitives Z G)

/-- The key schedule of one position, from its element and the shared secret. -/
def OnionHopSecrets.derive (alpha : Vector Byte 33) (shared : Vector Byte 32) :
    Except OnionBlindingError (OnionHopSecrets Z) :=
  let kdf info n := prim.hkdf (ascii "rings-node:onion-sphinx-header")
    (alpha.toList ++ shared.toList) (ascii info) n
  match prim.reduceWide (kdf "blind" 64) with
  | none => .error .zero
  | some blinding => .ok ⟨prim.chacha20 (kdf "prg" 32), kdf "mac" 64, blinding⟩

/-- The code of a header: the class and the blocks under the key, cut to sixteen bytes. -/
def OnionHopSecrets.mac (secrets : OnionHopSecrets Z) (c : OnionLoopClass) (routing : List Block) :
    OnionHeaderMac :=
  let code := prim.hmacSha256 secrets.macKey (c.macLabel :: routing.flatMap (·.toList))
  .ofFn fun i => code.get (i.castLE (by decide))

namespace OnionHeader

/-- The client's view of one position under an exponent. -/
def position (p : OnionRoutePosition G) (exponent : Z) :
    Except OnionBlindingError (Vector Byte 33 × OnionHopSecrets Z) :=
  (OnionHopSecrets.derive prim (prim.toSec1 (exponent • prim.generator))
    (prim.xBytes (exponent • p.recipient))).map
      fun secrets => (prim.toSec1 (exponent • prim.generator), secrets)

/-- The elements and secrets of the positions, each exponent blinded for the next; the exponent
after them comes first. -/
def schedule : Z → List (OnionRoutePosition G) →
    Except OnionBlindingError (Z × List (Vector Byte 33 × OnionHopSecrets Z))
  | exponent, [] => .ok (exponent, [])
  | exponent, p :: ps => do
    let first ← position prim p exponent
    let rest ← schedule (exponent * first.2.blinding) ps
    return (rest.1, first :: rest.2)

def fillers (filler : List Block) (outer : List (Vector Byte 33 × OnionHopSecrets Z)) : List Block :=
  outer.foldl (fun filler s => Filler.step xorBlock zeroBlock filler s.2.stream.toList) filler

/-- The header of the last position: its layer and random blocks, masked, with the filler at the
end. -/
def innermost (c : OnionLoopClass) (tag : OnionHeaderMac) (random : Vector Block 14)
    (last : OnionRoutePosition G) (alpha : Vector Byte 33) (secrets : OnionHopSecrets Z)
    (filler : List Block) : OnionHeader :=
  let masked := Filler.mask xorBlock (layerBlock last.layer tag :: random.toList.drop 1)
    secrets.stream.toList
  let routing := toRouting (masked.take (14 - filler.length) ++ filler)
  ⟨alpha, routing, secrets.mac prim c routing.toList⟩

/-- The header of an outer position around the next one. -/
def outward (c : OnionLoopClass) (p : OnionRoutePosition G) (s : Vector Byte 33 × OnionHopSecrets Z)
    (next : OnionHeader) : OnionHeader :=
  let routing := toRouting (Filler.wrap xorBlock (layerBlock p.layer next.mac) next.routing.toList
    s.2.stream.toList)
  ⟨s.1, routing, s.2.mac prim c routing.toList⟩

/-- The header of a loop, from a tag, an exponent and random blocks. -/
def build (route : OnionHeaderRoute G) (c : OnionLoopClass) (tag : OnionHeaderMac) (exponent : Z)
    (random : Vector Block 14) : Except OnionBlindingError OnionHeader := do
  let outer ← schedule prim exponent route.outer
  let last ← position prim route.last outer.1
  return (route.outer.zip outer.2).foldr (fun ps next => outward prim c ps.1 ps.2 next)
    (innermost prim c tag random route.last last.1 last.2 (fillers [] outer.2))

def peel (c : OnionLoopClass) (key : Z) (header : OnionHeader) :
    Except OnionPeelError (OnionLayer × OnionHeader) :=
  match prim.ofSec1 header.alpha with
  | none => .error .invalid
  | some alpha =>
    match OnionHopSecrets.derive prim header.alpha (prim.xBytes (key • alpha)) with
    | .error _ => .error .blinding
    | .ok secrets =>
      if secrets.mac prim c header.routing.toList ≠ header.mac then .error .invalid
      else
        let blocks := Filler.peel xorBlock zeroBlock header.routing.toList secrets.stream.toList
        match OnionLayer.decode ((blocks[0]?).getD zeroBlock).toList with
        | .error e => .error (.layer e)
        | .ok (layer, nextMac) =>
          .ok (layer, ⟨prim.toSec1 (secrets.blinding • alpha), toRouting (blocks.drop 1), nextMac⟩)

/-- The layers the hops take off one after the other, and the header that is left. -/
def peelAll (c : OnionLoopClass) : List Z → OnionHeader →
    Except OnionPeelError (List OnionLayer × OnionHeader)
  | [], header => .ok ([], header)
  | key :: keys, header => do
    let first ← peel prim c key header
    let rest ← peelAll c keys first.2
    return (first.1 :: rest.1, rest.2)

lemma position_eq_ok {p : OnionRoutePosition G} {exponent : Z}
    {s : Vector Byte 33 × OnionHopSecrets Z} (h : position prim p exponent = .ok s) :
    s.1 = prim.toSec1 (exponent • prim.generator) ∧
      OnionHopSecrets.derive prim s.1 (prim.xBytes (exponent • p.recipient)) = .ok s.2 := by
  rw [position] at h
  cases hd : OnionHopSecrets.derive prim (prim.toSec1 (exponent • prim.generator))
      (prim.xBytes (exponent • p.recipient)) with
  | error e =>
    rw [hd] at h
    cases h
  | ok secrets =>
    rw [hd] at h
    cases h
    exact ⟨rfl, hd⟩

/-- A key opens the position made for its point: the hop derives the client's secrets. -/
lemma peel_eq_ok {c : OnionLoopClass} {key exponent : Z} {header : OnionHeader}
    {p : OnionRoutePosition G} {s : Vector Byte 33 × OnionHopSecrets Z} {nextMac : OnionHeaderMac}
    {rest : List Block} (hposition : position prim p exponent = .ok s)
    (hkey : p.recipient = key • prim.generator) (halpha : header.alpha = s.1)
    (hmac : header.mac = s.2.mac prim c header.routing.toList)
    (hpeel : Filler.peel xorBlock zeroBlock header.routing.toList s.2.stream.toList =
      layerBlock p.layer nextMac :: rest) (hcarried : p.layer.head.expiry.Carried) :
    peel prim c key header = .ok (p.layer, ⟨prim.toSec1 ((exponent * s.2.blinding) • prim.generator),
      toRouting rest, nextMac⟩) := by
  obtain ⟨hs, hderive⟩ := position_eq_ok prim hposition
  have hshared : key • exponent • prim.generator = exponent • p.recipient := by
    rw [hkey, smul_smul, smul_smul, mul_comm]
  have hdecode : OnionLayer.decode (layerBlock p.layer nextMac).toList = .ok (p.layer, nextMac) :=
    OnionLayer.decode_eq_ok.2 ⟨rfl, hcarried⟩
  rw [peel, halpha, hs, prim.ofSec1_toSec1]
  simp only
  rw [hshared, ← hs, hderive]
  simp only
  rw [if_neg (not_not.2 hmac.symm), hpeel]
  simp only [List.getElem?_cons_zero, Option.getD_some, List.drop_one, List.tail_cons]
  rw [hdecode, smul_smul, mul_comm]

omit [CommGroup Z] in
lemma length_fillers {outer : List (Vector Byte 33 × OnionHopSecrets Z)} {filler : List Block}
    (h : filler.length + outer.length < 15) :
    (fillers filler outer).length = filler.length + outer.length := by
  induction outer generalizing filler with
  | nil => rfl
  | cons s outer ih =>
    rw [List.length_cons] at h ⊢
    have hstep := @Filler.length_step _ xorBlock zeroBlock filler s.2.stream.toList (by simp; omega)
    change (fillers (Filler.step _ _ _ _) outer).length = _
    rw [ih (by omega), hstep]
    omega

lemma length_schedule {ps : List (OnionRoutePosition G)} {exponent : Z}
    {outer : Z × List (Vector Byte 33 × OnionHopSecrets Z)}
    (h : schedule prim exponent ps = .ok outer) : outer.2.length = ps.length := by
  induction ps generalizing exponent outer with
  | nil =>
    cases h
    rfl
  | cons p ps ih =>
    obtain ⟨s, -, h⟩ := bind_eq_ok.1 h
    obtain ⟨rest, hrest, h⟩ := bind_eq_ok.1 h
    cases h
    rw [List.length_cons, ih hrest, List.length_cons]

/-- Around a header whose tail is the whole filler, the outer headers are peeled off one by one. -/
lemma peelAll_outward (c : OnionLoopClass) {outer : List (OnionRoutePosition G)} {exponent last : Z}
    {secrets : List (Vector Byte 33 × OnionHopSecrets Z)} {keys : List Z} {filler : List Block}
    {inner : OnionHeader} (hschedule : schedule prim exponent outer = .ok (last, secrets))
    (hkeys : outer.map (·.recipient) = keys.map (· • prim.generator))
    (hcarried : ∀ p ∈ outer, p.layer.head.expiry.Carried)
    (hbound : filler.length + outer.length < 14)
    (halpha : inner.alpha = prim.toSec1 (last • prim.generator))
    (htail : inner.routing.toList.drop (14 - (filler.length + outer.length)) =
      fillers filler secrets) :
    let header := (outer.zip secrets).foldr (fun ps next => outward prim c ps.1 ps.2 next) inner
    header.alpha = prim.toSec1 (exponent • prim.generator) ∧
      header.routing.toList.drop (14 - filler.length) = filler ∧
      peelAll prim c keys header = .ok (outer.map (·.layer), inner) := by
  induction outer generalizing exponent secrets keys filler with
  | nil =>
    cases hschedule
    cases keys with
    | nil => exact ⟨halpha, htail, rfl⟩
    | cons key keys => cases hkeys
  | cons p outer ih =>
    obtain ⟨s, hp, hschedule⟩ := bind_eq_ok.1 hschedule
    obtain ⟨rest, hrest, hschedule⟩ := bind_eq_ok.1 hschedule
    cases hschedule
    cases keys with
    | nil => cases hkeys
    | cons key keys =>
      rw [List.map_cons, List.map_cons, List.cons.injEq] at hkeys
      rw [List.length_cons] at hbound htail
      have hstream : s.2.stream.toList.length = 14 + 1 := by simp
      have hstep := @Filler.length_step _ xorBlock zeroBlock filler s.2.stream.toList (by omega)
      have hsum : (Filler.step xorBlock zeroBlock filler s.2.stream.toList).length + outer.length =
          filler.length + (outer.length + 1) := by omega
      obtain ⟨hnextAlpha, hnextTail, hnextPeel⟩ :=
        @ih _ _ _ (Filler.step xorBlock zeroBlock filler s.2.stream.toList) hrest hkeys.2
          (fun q hq => hcarried q (List.mem_cons_of_mem p hq)) (by omega) (by rw [hsum]; exact htail)
      generalize hnext : (outer.zip rest.2).foldr (fun ps next => outward prim c ps.1 ps.2 next)
        inner = next at hnextAlpha hnextTail hnextPeel
      have hlen : next.routing.toList.length = 14 := by simp
      have hk : filler.length + 1 + (14 - (filler.length + 1)) = 14 := by omega
      rw [hstep] at hnextTail
      have hrouting : (outward prim c p s next).routing.toList = Filler.wrap xorBlock
          (layerBlock p.layer next.mac) next.routing.toList s.2.stream.toList :=
        toList_toRouting (Filler.length_wrap hlen (by omega) hstream)
      have hback : toRouting next.routing.toList = next.routing :=
        Vector.toList_inj.1 (toList_toRouting hlen)
      have hslots : Filler.peel xorBlock zeroBlock (outward prim c p s next).routing.toList
          s.2.stream.toList = layerBlock p.layer next.mac :: next.routing.toList := by
        rw [hrouting]
        exact Filler.peel_wrap xorBlock_xorBlock hlen hstream hk hnextTail
      have hpeel := peel_eq_ok prim hp hkeys.1 rfl rfl hslots (hcarried p List.mem_cons_self)
      rw [hback, ← hnextAlpha] at hpeel
      simp only [List.zip_cons_cons, List.foldr_cons, hnext]
      refine ⟨(position_eq_ok prim hp).1, ?_, ?_⟩
      · rw [hrouting, show 14 - filler.length = 14 - (filler.length + 1) + 1 by omega]
        exact Filler.drop_wrap xorBlock_xorBlock hlen hstream hk hnextTail
      · rw [peelAll, hpeel, bind_eq_ok]
        refine ⟨_, rfl, ?_⟩
        rw [hnextPeel]
        rfl

omit [CommGroup Z] [MulAction Z G] in
/-- The tail of the last header is the filler, and its first block is the layer. -/
lemma innermost_routing {c : OnionLoopClass} {tag : OnionHeaderMac} {random : Vector Block 14}
    {last : OnionRoutePosition G} {s : Vector Byte 33 × OnionHopSecrets Z} {filler : List Block}
    (h : filler.length < 14) :
    let routing := (innermost prim c tag random last s.1 s.2 filler).routing.toList
    routing.drop (14 - filler.length) = filler ∧
      ∃ rest, Filler.peel xorBlock zeroBlock routing s.2.stream.toList =
        layerBlock last.layer tag :: rest := by
  have hmask : (Filler.mask xorBlock (layerBlock last.layer tag :: random.toList.drop 1)
      s.2.stream.toList).length = 14 := by simp [Filler.mask]
  have htake : ((Filler.mask xorBlock (layerBlock last.layer tag :: random.toList.drop 1)
      s.2.stream.toList).take (14 - filler.length)).length = 14 - filler.length := by
    rw [List.length_take]
    omega
  have hrouting : (innermost prim c tag random last s.1 s.2 filler).routing.toList =
      (Filler.mask xorBlock (layerBlock last.layer tag :: random.toList.drop 1)
        s.2.stream.toList).take (14 - filler.length) ++ filler :=
    toList_toRouting (by rw [List.length_append, htake]; omega)
  refine ⟨by rw [hrouting, List.drop_left' htake], ?_⟩
  obtain ⟨m, stream, hs⟩ := List.exists_cons_of_length_pos (l := s.2.stream.toList) (by simp)
  obtain ⟨k, hk⟩ : ∃ k, 14 - filler.length = k + 1 := ⟨13 - filler.length, by omega⟩
  rw [hrouting, hk, hs, Filler.mask, List.zipWith_cons_cons, List.take_succ_cons, List.cons_append,
    Filler.peel, List.cons_append, Filler.mask, List.zipWith_cons_cons, xorBlock_xorBlock]
  exact ⟨_, rfl⟩

lemma peelAll_concat {c : OnionLoopClass} {keys : List Z} {key : Z} {header mid : OnionHeader}
    {layers : List OnionLayer} {last : OnionLayer × OnionHeader}
    (h : peelAll prim c keys header = .ok (layers, mid)) (hlast : peel prim c key mid = .ok last) :
    peelAll prim c (keys ++ [key]) header = .ok (layers ++ [last.1], last.2) := by
  induction keys generalizing header layers with
  | nil =>
    cases h
    rw [List.nil_append, peelAll, hlast]
    rfl
  | cons k keys ih =>
    obtain ⟨first, hfirst, h⟩ := bind_eq_ok.1 h
    obtain ⟨rest, hrest, h⟩ := bind_eq_ok.1 h
    obtain ⟨rfl, rfl⟩ := Prod.mk.inj (Except.ok.inj h)
    rw [List.cons_append, peelAll, hfirst]
    change (peelAll prim c (keys ++ [key]) first.2 >>= _) = _
    rw [ih hrest]
    rfl

/-- The hops of a route take off, one after the other, the layers the header was built from, and
the header that is left carries the client's tag. -/
lemma peelAll_build {route : OnionHeaderRoute G} {c : OnionLoopClass} {tag : OnionHeaderMac}
    {exponent : Z} {random : Vector Block 14} {header : OnionHeader} {keys : List Z}
    (hbuild : build prim route c tag exponent random = .ok header)
    (hkeys : (route.outer ++ [route.last]).map (·.recipient) = keys.map (· • prim.generator))
    (hcarried : ∀ p ∈ route.outer ++ [route.last], p.layer.head.expiry.Carried) :
    ∃ final, peelAll prim c keys header = .ok ((route.outer ++ [route.last]).map (·.layer), final) ∧
      final.mac = tag := by
  rw [List.map_append, eq_comm, List.map_eq_append_iff] at hkeys
  obtain ⟨keys, one, rfl, hkeys, hone⟩ := hkeys
  obtain ⟨key, rfl, hkey⟩ := List.map_eq_singleton_iff.1 hone
  obtain ⟨outer, hs, hbuild⟩ := bind_eq_ok.1 hbuild
  obtain ⟨last, hp, hbuild⟩ := bind_eq_ok.1 hbuild
  cases hbuild
  have hcount := length_schedule prim hs
  have hbound := route.bounded
  have hfillers := @length_fillers Z outer.2 [] (by simp; omega)
  rw [List.length_nil, Nat.zero_add] at hfillers
  obtain ⟨htail, rest, hpeel⟩ := @innermost_routing Z G prim c tag random route.last last
    (fillers [] outer.2) (by omega)
  obtain ⟨-, -, hchain⟩ := peelAll_outward prim c hs hkeys.symm
    (fun p hp => hcarried p (List.mem_append_left _ hp)) (show [].length + _ < 14 by simp; omega)
    (position_eq_ok prim hp).1 (by
      rw [List.length_nil, Nat.zero_add, ← hcount, ← hfillers]
      exact htail)
  have hlast := peel_eq_ok prim hp hkey.symm rfl rfl hpeel (hcarried _ (by simp))
  have hall := peelAll_concat prim hchain hlast
  rw [List.map_append]
  exact ⟨_, hall, rfl⟩

end OnionHeader

end

end Rings.Sphinx
