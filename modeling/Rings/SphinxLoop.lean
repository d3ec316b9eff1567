import Mathlib.Algebra.Group.Int.Units
import Rings.SphinxCell

/-!
A loop computes its pipeline: the cell the client builds visits every position in order, each
symbol hop is handed the value of the one before it, and the client opens the last one's answer.
-/

namespace Rings.Sphinx

open Onion (Byte OnionExpiry OnionLoopClass)
open OnionRoute (OnionRouteHop OnionLoop)
open Aez (Bytes)
open Effect

variable {Z G R : Type} (prim : Primitives Z G) (rng : Rng R Z)

/-! ### The carry of a segment -/

/-- The slot opens to the value, once the relays that are left have taken their layer off. -/
def Opens (consumer : OnionCarrySeed) : List OnionCarrySeed → Bytes → Bytes → Prop
  | [], slot, value => ∃ k, seedKey prim consumer = .ok k ∧ openSlot prim k slot = .ok value
  | seed :: relays, slot, value =>
    ∃ k, seedKey prim seed = .ok k ∧ Opens consumer relays (peelSlot prim k slot) value

variable {prim}

lemma opens_sealSlot {seed : OnionSegmentSeed} {keys : OnionSegmentKeys} {c : OnionLoopClass}
    {value slot : Bytes} (hkeys : segmentKeys prim seed = .ok keys)
    (hseal : sealSlot prim c keys value = .ok slot) :
    Opens prim (OnionOpenSegment.of prim seed).consumer (OnionOpenSegment.of prim seed).relays slot
      value := by
  obtain ⟨first, hfirst, hkeys⟩ := bind_eq_ok.1 hkeys
  obtain ⟨second, hsecond, hkeys⟩ := bind_eq_ok.1 hkeys
  obtain ⟨consumer, hconsumer, hkeys⟩ := bind_eq_ok.1 hkeys
  cases hkeys
  have hopen := openSlot_sealSlot prim hseal
  change Opens prim _ (segmentSeeds prim seed).relays.toList slot value
  rw [toList_two]
  exact ⟨first, hfirst, second, hsecond, consumer, hconsumer, hopen⟩

variable {rng}

lemma segmentKeys_of_draw {n : ℕ} {drawn : OnionSegmentSeed × OnionSegmentKeys} {s s' : R}
    (h : outcome (draw prim rng n) s = (.ok drawn, s')) : segmentKeys prim drawn.1 = .ok drawn.2 := by
  have hattempt : ∀ {s t}, outcome (attempt prim rng) s = (.ok drawn, t) →
      segmentKeys prim drawn.1 = .ok drawn.2 := by
    intro s t h
    obtain ⟨seed, t', -, h⟩ := outcome_bind_eq_ok h
    cases hk : segmentKeys prim seed with
    | error e =>
      rw [hk] at h
      cases h
    | ok keys =>
      rw [hk] at h
      cases h
      exact hk
  induction n generalizing s with
  | zero => exact hattempt h
  | succ n ih =>
    rw [draw, outcome_tryCatch] at h
    rcases ha : outcome (attempt prim rng) s with ⟨e | a, t⟩
    · rw [ha] at h
      exact ih h
    · rw [ha] at h
      cases h
      exact hattempt ha

/-! ### Roles -/

/-- Exactly two relays stand before each symbol hop and after the last, counting the `r` that are
left of the first segment. -/
def Segmented : ℕ → List OnionLoopRole → Prop
  | r, [] => r = 0
  | r, .relay :: rest => ∃ r', r = r' + 1 ∧ Segmented r' rest
  | r, .symbol _ :: rest => r = 0 ∧ Segmented 2 rest

/-- The segment lengths every unfolded loop has. -/
structure Shaped (l : OnionLoop OnionRouteHop OnionRouteHop) : Prop where
  lead : l.lead.length = 1
  stages : ∀ s ∈ l.stages, s.2.length = 2
  tail : l.tail.length = 1

/-- One application of the pipeline; a value too wide for the class has no answer. -/
def applied (eval : OnionApplication → Bytes → Bytes) (c : OnionLoopClass) (value : Bytes)
    (a : OnionApplication) : Option Bytes :=
  if (eval a value).length ≤ c.valueCapacity then some (eval a value) else none

def evalRoles (eval : OnionApplication → Bytes → Bytes) (c : OnionLoopClass)
    (applications : List OnionApplication) : List OnionLoopRole → Bytes → Option Bytes
  | [], value => some value
  | .relay :: rest, value => evalRoles eval c applications rest value
  | .symbol k :: rest, value =>
    (applications[k - 1]?).bind fun a =>
      (applied eval c value a).bind (evalRoles eval c applications rest)

section

variable {l : OnionLoop OnionRouteHop OnionRouteHop}

def stageRoles (stages : List (OnionRouteHop × List OnionRouteHop)) (n : ℕ) : List OnionLoopRole :=
  (stages.zipIdx n).flatMap fun s => .symbol s.2 :: s.1.2.map fun _ => .relay

lemma Shaped.roles_eq (h : Shaped l) : (roles l).map Prod.fst =
    .relay :: .relay :: (stageRoles l.stages 1 ++ [.symbol (l.stages.length + 1), .relay, .relay]) := by
  obtain ⟨a, ha⟩ := List.length_eq_one_iff.1 h.lead
  obtain ⟨b, hb⟩ := List.length_eq_one_iff.1 h.tail
  simp [roles, ha, hb, stageRoles, List.map_flatMap, Function.comp_def]

lemma segmented_stages {stages : List (OnionRouteHop × List OnionRouteHop)} {n : ℕ}
    {rest : List OnionLoopRole} (h : ∀ s ∈ stages, s.2.length = 2) (hrest : Segmented 0 rest) :
    Segmented 0 (stageRoles stages n ++ rest) := by
  induction stages generalizing n with
  | nil => exact hrest
  | cons s stages ih =>
    obtain ⟨a, b, hab⟩ := List.length_eq_two.1 (h s List.mem_cons_self)
    have hs := ih (n := n + 1) fun t ht => h t (List.mem_cons_of_mem s ht)
    simp only [stageRoles, List.zipIdx_cons, List.flatMap_cons, hab, List.map_cons, List.map_nil,
      List.cons_append, List.nil_append]
    exact ⟨rfl, 1, rfl, 0, rfl, hs⟩

lemma Shaped.segmented (h : Shaped l) : Segmented 2 ((roles l).map Prod.fst) := by
  rw [h.roles_eq]
  exact ⟨1, rfl, 0, rfl, segmented_stages h.stages ⟨rfl, 1, rfl, 0, rfl, rfl⟩⟩

lemma evalRoles_stages {eval : OnionApplication → Bytes → Bytes} {c : OnionLoopClass}
    {applications : List OnionApplication} {stages : List (OnionRouteHop × List OnionRouteHop)}
    {n : ℕ} {rest : List OnionLoopRole} {value : Bytes} (h : ∀ s ∈ stages, s.2.length = 2)
    (hn : n + stages.length ≤ applications.length) :
    evalRoles eval c applications (stageRoles stages (n + 1) ++ rest) value =
      (((applications.drop n).take stages.length).foldlM (applied eval c) value).bind
        (evalRoles eval c applications rest) := by
  induction stages generalizing n value with
  | nil => rfl
  | cons s stages ih =>
    obtain ⟨a, b, hab⟩ := List.length_eq_two.1 (h s List.mem_cons_self)
    rw [List.length_cons] at hn ⊢
    have hdrop := List.drop_eq_getElem_cons (l := applications) (i := n) (by omega)
    have hget : applications[n + 1 - 1]? = some applications[n] :=
      List.getElem?_eq_getElem (by omega)
    simp only [stageRoles, List.zipIdx_cons, List.flatMap_cons, hab, List.map_cons, List.map_nil,
      List.cons_append, List.nil_append, evalRoles, hget, Option.bind_some]
    rw [hdrop, List.take_succ_cons, List.foldlM_cons]
    change _ = ((applied eval c value applications[n]).bind _).bind _
    rw [Option.bind_assoc]
    congr 1
    funext v
    exact ih (fun t ht => h t (List.mem_cons_of_mem s ht)) (by omega)

lemma Shaped.evalRoles_eq (h : Shaped l) {eval : OnionApplication → Bytes → Bytes}
    {c : OnionLoopClass} {applications : List OnionApplication} {value : Bytes}
    (hcount : l.stages.length + 1 = applications.length) :
    evalRoles eval c applications ((roles l).map Prod.fst) value =
      applications.foldlM (applied eval c) value := by
  have hlast : applications.drop l.stages.length = [applications[l.stages.length]] := by
    rw [List.drop_eq_getElem_cons (by omega), List.drop_eq_nil_of_le (by omega)]
  have hget : applications[l.stages.length + 1 - 1]? = some applications[l.stages.length] :=
    List.getElem?_eq_getElem (by omega)
  rw [h.roles_eq]
  simp only [evalRoles]
  rw [evalRoles_stages h.stages (by omega)]
  conv_rhs => rw [← List.take_append_drop l.stages.length applications, hlast, List.foldlM_append]
  change _ = Option.bind _ _
  simp only [List.drop_zero, evalRoles, hget, Option.bind_some, List.foldlM_cons, List.foldlM_nil]
  rfl

end

/-! ### The run -/

variable [CommGroup Z] [MulAction Z G] {client : Did} {expiry : OnionExpiry} {c : OnionLoopClass}
  {applications : List OnionApplication} {keyOf : Did → Z} {eval : OnionApplication → Bytes → Bytes}

/-- Where the cell stands: the first of the positions that are left, or the client. -/
def headDid (client : Did) (rs : List (OnionLoopRole × OnionRouteHop)) : Did :=
  (rs.head?.map (·.2.did)).getD client

lemma hop_of_peel {did : Did} {header next : OnionHeader} {layer : OnionLayer} {slot : Bytes}
    (h : OnionHeader.peel prim c (keyOf did) header = .ok (layer, next)) :
    hop prim keyOf eval (did, ⟨c, headerCodec.write header ++ slot⟩) =
      carryStep prim layer ⟨c, headerCodec.write next ++ slot⟩ >>= fun step =>
        match step with
        | .relayed next cell => return (next, cell)
        | .consumed application value surb => produce prim surb (eval application value) := by
  simp only [hop, OnionCell.peel, headerCodec.read_write, h]
  rfl

/-- By induction on the positions that are left: the header peels to their layers, and the slot
opens in the open segment to the value computed so far. -/
lemma hops_place {rs : List (OnionLoopRole × OnionRouteHop)} {segment : OnionOpenSegment}
    {last : OnionSegmentSeed} {placed : List OnionHeaderHop × OnionSegmentSeed} {s s' : R}
    {header final : OnionHeader} {slot value out : Bytes}
    (hplace : outcome (place prim rng client expiry applications rs segment last) s = (.ok placed, s'))
    (hseg : Segmented segment.relays.length (rs.map Prod.fst))
    (hconsumer : segment.consumer = (segmentSeeds prim last).consumer)
    (hopens : Opens prim segment.consumer segment.relays slot value)
    (hpeel : OnionHeader.peelAll prim c (rs.map fun r => keyOf r.2.did) header =
      .ok (placed.1.map (·.layer), final))
    (heval : evalRoles eval c applications (rs.map Prod.fst) value = some out) :
    ∃ slot', hops prim keyOf eval rs.length
          (headDid client rs, ⟨c, headerCodec.write header ++ slot⟩) =
        .ok (client, ⟨c, headerCodec.write final ++ slot'⟩) ∧
      ∃ k, seedKey prim (segmentSeeds prim placed.2).consumer = .ok k ∧
        openSlot prim k slot' = .ok out := by
  induction rs generalizing segment last placed s header slot value with
  | nil =>
    cases hplace
    cases hpeel
    cases heval
    rw [List.eq_nil_of_length_eq_zero (l := segment.relays) hseg, hconsumer] at hopens
    exact ⟨slot, rfl, hopens⟩
  | cons r rs ih =>
    obtain ⟨role, node⟩ := r
    obtain ⟨first, hfirst, hpeel⟩ := bind_eq_ok.1 hpeel
    obtain ⟨others, hothers, hpeel⟩ := bind_eq_ok.1 hpeel
    obtain ⟨hlayers, rfl⟩ := Prod.mk.inj (Except.ok.inj hpeel)
    have hstep := @hop_of_peel _ _ _ _ _ _ keyOf eval _ _ _ _ slot hfirst
    simp only [List.map_cons, List.length_cons] at hseg heval ⊢
    cases role with
    | relay =>
      obtain ⟨r', hr', hseg⟩ := hseg
      obtain ⟨inbound, relays, hrelays⟩ := List.exists_cons_of_length_eq_add_one hr'
      rw [place, hrelays] at hplace
      obtain ⟨outbound, s₁, -, hplace⟩ := outcome_bind_eq_ok hplace
      obtain ⟨nonce, s₂, -, hplace⟩ := outcome_bind_eq_ok hplace
      obtain ⟨rest, s₃, hrest, hplace⟩ := outcome_bind_eq_ok hplace
      cases hplace
      rw [List.map_cons, List.cons.injEq] at hlayers
      rw [hrelays] at hopens hr'
      obtain ⟨k, hk, hopens⟩ := hopens
      have hlen : relays.length = r' := by simpa using hr'
      obtain ⟨slot', hrun, hout⟩ := ih hrest (by rw [hlen]; exact hseg) hconsumer hopens
        (by rw [hothers, ← hlayers.2]) heval
      refine ⟨slot', ?_, hout⟩
      rw [hops, show headDid client ((OnionLoopRole.relay, node) :: rs) = node.did from rfl, hstep,
        hlayers.1]
      simp only [carryStep, hk, headerCodec.read_write]
      exact hrun
    | symbol k =>
      obtain ⟨hnil, hseg⟩ := hseg
      rw [List.eq_nil_of_length_eq_zero hnil] at hopens
      obtain ⟨key, hkey, hopen⟩ := hopens
      obtain ⟨a, ha, heval⟩ := Option.bind_eq_some_iff.1 heval
      obtain ⟨w, hw, heval⟩ := Option.bind_eq_some_iff.1 heval
      rw [place] at hplace
      by_cases hk : k = 0
      · rw [if_pos hk] at hplace
        cases hplace
      · rw [if_neg hk, ha] at hplace
        obtain ⟨produced, s₁, hdraw, hplace⟩ := outcome_bind_eq_ok hplace
        obtain ⟨nonce, s₂, -, hplace⟩ := outcome_bind_eq_ok hplace
        obtain ⟨rest, s₃, hrest, hplace⟩ := outcome_bind_eq_ok hplace
        cases hplace
        rw [List.map_cons, List.cons.injEq] at hlayers
        have hkeys := segmentKeys_of_draw hdraw
        rw [applied] at hw
        split at hw
        · next hfits =>
          cases hw
          obtain ⟨sealed, hseal⟩ : ∃ y, sealSlot prim c produced.2 (eval a value) = .ok y := by
            rw [sealSlot, if_neg (by omega)]
            exact ⟨_, rfl⟩
          obtain ⟨slot', hrun, hout⟩ := ih hrest (by simpa [OnionOpenSegment.of] using hseg) rfl
            (opens_sealSlot hkeys hseal) (by rw [hothers, ← hlayers.2]) heval
          refine ⟨slot', ?_, hout⟩
          rw [hops, show headDid client ((OnionLoopRole.symbol k, node) :: rs) = node.did from rfl,
            hstep, hlayers.1]
          simp only [carryStep, hkey, headerCodec.read_write, Except.mapError]
          change (((openSlot prim key slot).mapError OnionHopDrop.opening >>= _) >>= _) >>= _ = _
          rw [hopen]
          change ((produce prim _ (eval a value)) >>= _) = _
          rw [produce, hkeys]
          change (((sealSlot prim c produced.2 (eval a value)).mapError _ >>= _) >>= _) = _
          rw [hseal]
          exact hrun
        · cases hw

lemma mapM_of_keys {hs : List OnionHeaderHop} {keys : List Z}
    (hkeys : hs.map (fun h => prim.ofSec1 h.publicKey) =
      keys.map fun k => some (k • prim.generator)) :
    ∃ ps : List (OnionRoutePosition G),
      (hs.mapM fun h => (prim.ofSec1 h.publicKey).map fun p => ⟨p, h.layer⟩) = some ps ∧
        ps.map (·.recipient) = keys.map (· • prim.generator) ∧
          ps.map (·.layer) = hs.map (·.layer) := by
  induction hs generalizing keys with
  | nil =>
    cases keys with
    | nil => exact ⟨[], rfl, rfl, rfl⟩
    | cons k keys => cases hkeys
  | cons h hs ih =>
    cases keys with
    | nil => cases hkeys
    | cons k keys =>
      rw [List.map_cons, List.map_cons, List.cons.injEq] at hkeys
      obtain ⟨ps, hps, hrecipients, hlayers⟩ := ih hkeys.2
      refine ⟨⟨k • prim.generator, h.layer⟩ :: ps, ?_, ?_, ?_⟩
      · rw [List.mapM_cons, hkeys.1, hps]
        rfl
      · rw [List.map_cons, hrecipients, List.map_cons]
      · rw [List.map_cons, hlayers, List.map_cons]

lemma mapError_eq_ok {ε ε' α : Type} {f : ε → ε'} {m : Except ε α} {a : α}
    (h : m.mapError f = .ok a) : m = .ok a := by
  cases m with
  | error e => cases h
  | ok b =>
    cases h
    rfl

/-- The positions of a route are those it was made from, each under its own key. -/
lemma peelAll_new {hs : List OnionHeaderHop} {keys : List Z} {route : OnionHeaderRoute G}
    {tag : OnionHeaderMac} {exponent : Z} {random : Vector Block 14} {header : OnionHeader}
    (hnew : OnionHeaderRoute.new prim hs = .ok route)
    (hkeys : hs.map (fun h => prim.ofSec1 h.publicKey) = keys.map fun k => some (k • prim.generator))
    (hcarried : ∀ h ∈ hs, h.layer.head.expiry.Carried)
    (hbuild : OnionHeader.build prim route c tag exponent random = .ok header) :
    ∃ final, OnionHeader.peelAll prim c keys header = .ok (hs.map (·.layer), final) ∧
      final.mac = tag := by
  obtain ⟨ps, hps, hrecipients, hlayers⟩ := mapM_of_keys hkeys
  rw [OnionHeaderRoute.new, hps] at hnew
  simp only at hnew
  split at hnew
  · next hne =>
    cases hnew
    have hall := List.dropLast_append_getLast hne.1
    obtain ⟨final, hpeel, hmac⟩ := OnionHeader.peelAll_build prim hbuild
      ((congrArg _ hall).trans hrecipients) (by
        intro p hp
        rw [hall] at hp
        have hmem : p.layer ∈ hs.map (·.layer) := hlayers ▸ List.mem_map_of_mem hp
        obtain ⟨h, hh, heq⟩ := List.mem_map.1 hmem
        rw [← heq]
        exact hcarried h hh)
    rw [hall, hlayers] at hpeel
    exact ⟨final, hpeel, hmac⟩
  · cases hnew

omit [CommGroup Z] [MulAction Z G] in
/-- Every position is placed under its own key and with the expiry of the loop. -/
lemma of_place {rs : List (OnionLoopRole × OnionRouteHop)} {segment : OnionOpenSegment}
    {last : OnionSegmentSeed} {placed : List OnionHeaderHop × OnionSegmentSeed} {s s' : R}
    (hplace : outcome (place prim rng client expiry applications rs segment last) s =
      (.ok placed, s')) :
    placed.1.map (·.publicKey) =
        rs.map (fun r => publicKeyBytes.symm r.2.delegateePublicKey) ∧
      ∀ h ∈ placed.1, h.layer.head.expiry = expiry := by
  have hcons : ∀ {h : OnionHeaderHop} {hs : List OnionHeaderHop}, h.layer.head.expiry = expiry →
      (∀ x ∈ hs, x.layer.head.expiry = expiry) → ∀ x ∈ h :: hs, x.layer.head.expiry = expiry := by
    intro h hs hh hhs x hx
    rcases List.mem_cons.1 hx with rfl | hx
    · exact hh
    · exact hhs x hx
  induction rs generalizing segment last placed s with
  | nil =>
    cases hplace
    exact ⟨rfl, by simp⟩
  | cons r rs ih =>
    obtain ⟨role, node⟩ := r
    cases role with
    | relay =>
      rw [place] at hplace
      cases hrelays : segment.relays with
      | nil =>
        rw [hrelays] at hplace
        cases hplace
      | cons inbound relays =>
        rw [hrelays] at hplace
        obtain ⟨outbound, s₁, -, hplace⟩ := outcome_bind_eq_ok hplace
        obtain ⟨nonce, s₂, -, hplace⟩ := outcome_bind_eq_ok hplace
        obtain ⟨rest, s₃, hrest, hplace⟩ := outcome_bind_eq_ok hplace
        cases hplace
        exact ⟨congrArg (_ :: ·) (ih hrest).1, hcons rfl (ih hrest).2⟩
    | symbol k =>
      rw [place] at hplace
      generalize (if k = 0 then none else applications[k - 1]?) = found at hplace
      cases found with
      | none => cases hplace
      | some a =>
        obtain ⟨produced, s₁, -, hplace⟩ := outcome_bind_eq_ok hplace
        obtain ⟨nonce, s₂, -, hplace⟩ := outcome_bind_eq_ok hplace
        obtain ⟨rest, s₃, hrest, hplace⟩ := outcome_bind_eq_ok hplace
        cases hplace
        exact ⟨congrArg (_ :: ·) (ih hrest).1, hcons rfl (ih hrest).2⟩

/-- The loop computes the pipeline: where every hop answers with what its application makes of the
value it is handed, the cell is back at the client after one step for each position, with the tag
the client kept, and opens under the reply key to the composition of the applications. -/
theorem loop_computes_pipeline {l : OnionLoop OnionRouteHop OnionRouteHop} {built : OnionBuiltLoop}
    {s s' : R} {value out : Bytes} (hshape : Shaped l) (hcarried : expiry.Carried)
    (hbuild : outcome (buildLoop prim rng client expiry applications c l value) s = (.ok built, s'))
    (hkeys : ∀ r ∈ roles l, prim.ofSec1 (publicKeyBytes.symm r.2.delegateePublicKey) =
      some (keyOf r.2.did • prim.generator))
    (hout : applications.foldlM (applied eval c) value = some out) :
    ∃ final slot, hops prim keyOf eval (roles l).length (built.guard, built.cell) =
        .ok (client, ⟨c, headerCodec.write final ++ slot⟩) ∧
      final.mac = built.reply.tag ∧ openSlot prim built.reply.key slot = .ok out := by
  obtain ⟨first, s₁, hfirst, hbuild⟩ := outcome_bind_eq_ok hbuild
  obtain ⟨placed, s₂, hplace, hbuild⟩ := outcome_bind_eq_ok hbuild
  by_cases hcount : l.stages.length + 1 = applications.length
  · rw [if_neg (not_not.2 hcount)] at hbuild
    obtain ⟨route, s₃, hroute, hbuild⟩ := outcome_bind_eq_ok hbuild
    obtain ⟨tag, s₄, -, hbuild⟩ := outcome_bind_eq_ok hbuild
    obtain ⟨r, s₅, -, hbuild⟩ := outcome_bind_eq_ok hbuild
    obtain ⟨-, s₆, -, hbuild⟩ := outcome_bind_eq_ok hbuild
    obtain ⟨random, s₇, -, hbuild⟩ := outcome_bind_eq_ok hbuild
    obtain ⟨header, s₈, hheader, hbuild⟩ := outcome_bind_eq_ok hbuild
    obtain ⟨slot, s₉, hslot, hbuild⟩ := outcome_bind_eq_ok hbuild
    obtain ⟨key, s₁₀, hkey, hbuild⟩ := outcome_bind_eq_ok hbuild
    cases hbuild
    have hnew : OnionHeaderRoute.new prim placed.1 = .ok route := (Prod.mk.inj hroute).1
    have hheader := mapError_eq_ok (Prod.mk.inj hheader).1
    have hslot := mapError_eq_ok (Prod.mk.inj hslot).1
    have hkey := mapError_eq_ok (Prod.mk.inj hkey).1
    obtain ⟨hpublic, hexpiry⟩ := of_place hplace
    have hpublicKeys : placed.1.map (fun h => prim.ofSec1 h.publicKey) =
        ((roles l).map fun r => keyOf r.2.did).map fun k => some (k • prim.generator) := by
      have hmap := congrArg (List.map prim.ofSec1) hpublic
      rw [List.map_map, List.map_map] at hmap
      refine Eq.trans hmap ?_
      rw [List.map_map]
      exact List.map_congr_left hkeys
    obtain ⟨final, hpeel, hmac⟩ := peelAll_new hnew hpublicKeys
      (fun h hh => by rw [hexpiry h hh]; exact hcarried) hheader
    obtain ⟨slot', hrun, k, hk, hopen⟩ := hops_place hplace
      hshape.segmented rfl
      (opens_sealSlot (segmentKeys_of_draw hfirst) hslot) hpeel
      ((hshape.evalRoles_eq hcount).trans hout)
    rw [hkey] at hk
    cases hk
    exact ⟨final, slot', hrun, hmac, hopen⟩
  · rw [if_pos hcount] at hbuild
    cases hbuild

/-- A group of two elements, and functions that keep every key strong. -/
def twoPrimitives : Primitives ℤˣ ℤˣ where
  generator := -1
  xBytes p := .replicate 32 (if p = 1 then 1 else 2)
  toSec1 p := .replicate 33 (if p = 1 then 2 else 3)
  ofSec1 v := if v[0] = 2 then some 1 else if v[0] = 3 then some (-1) else none
  ofSec1_toSec1 p := by
    obtain rfl | rfl := Int.units_eq_one_or p <;> rfl
  reduceWide _ := some (-1)
  hkdf _ ikm info n := .replicate n (ikm.headD 0 + info.headD 0)
  chacha20 key := .replicate 15 (.replicate 205 key[0])
  hmacSha256 key message := .replicate 32 (key[0] + message.headD 0)
  aesRound a b := a ^^^ b

def twoRng : Rng ℕ ℤˣ := ⟨fun n s => (.replicate n (BitVec.ofNat 8 s), s + 1), fun s => (-1, s)⟩

def twoHop (did : Did) : OnionRouteHop := ⟨did, publicKeyBytes (.replicate 33 3), 0⟩

def oneSymbolLoop : OnionLoop OnionRouteHop OnionRouteHop :=
  ⟨twoHop 1, [twoHop 2], [], twoHop 3, [twoHop 4]⟩

/-- What the builder makes of the loop for the value 7, and the generator it leaves. -/
def oneSymbolBuild : Except OnionBuildError OnionBuiltLoop × ℕ :=
  outcome (buildLoop twoPrimitives twoRng 9 ⟨7⟩ [⟨.tcp, .replicate 64 0⟩] .kiB16 oneSymbolLoop [7])
    1

theorem loop_computes_pipeline_one :
    ∃ built final slot, oneSymbolBuild.1 = .ok built ∧
      hops twoPrimitives (fun _ => 1) (fun _ value => value ++ [8]) 5 (1, built.cell) =
        .ok (9, ⟨.kiB16, headerCodec.write final ++ slot⟩) ∧
      final.mac = built.reply.tag ∧ openSlot twoPrimitives built.reply.key slot = .ok [7, 8] := by
  have hguard : oneSymbolBuild.1.toOption.map (·.guard) = some 1 := by decide +kernel
  obtain ⟨built, hok, hguard⟩ := Option.map_eq_some_iff.1 hguard
  have hok : oneSymbolBuild.1 = .ok built := by
    cases h : oneSymbolBuild.1 with
    | error e => rw [h] at hok; cases hok
    | ok b => rw [h] at hok; cases hok; rfl
  have hbuild : oneSymbolBuild = (.ok built, oneSymbolBuild.2) :=
    hok ▸ (Prod.mk.eta : (oneSymbolBuild.1, oneSymbolBuild.2) = oneSymbolBuild).symm
  obtain ⟨final, slot, hrun, hmac, hopen⟩ := @loop_computes_pipeline _ _ _ twoPrimitives _ _ _ _ _
    _ _ (fun _ => 1) (fun _ value => value ++ [8]) _ _ _ _ _ [7, 8]
    ⟨rfl, by simp [oneSymbolLoop], rfl⟩
    (by change 7 * Onion.onionExpiryQuantumMs ≤ u64Max; decide) hbuild (fun r hr => by
      simp only [oneSymbolLoop, roles, twoHop, List.map_cons, List.map_nil, List.zipIdx_nil,
        List.flatMap_nil, List.append_nil, List.cons_append, List.nil_append, List.mem_cons,
        List.not_mem_nil, or_false] at hr
      rcases hr with rfl | rfl | rfl | rfl | rfl <;>
        · rw [Equiv.symm_apply_apply]
          rfl) rfl
  rw [hguard] at hrun
  exact ⟨built, final, slot, hok, hrun, hmac, hopen⟩

end Rings.Sphinx
