import Rings.Effect
import Rings.Matching
import Rings.OnionAdmission
import Mathlib.Data.List.Destutter
import Mathlib.Data.List.Sort

/-!
Route selection of an onion loop.

A pipeline of `n` symbols is placed on a loop of `3 n + 2` positions, closed by one guard. Every
symbol position takes a registrant of its symbol that registers `relay` as well, the guard is a
permitted relay registrant, and all hops but the guard's two occurrences are distinct. The symbols
are drawn first, then the guard, then the relays, and each draw leaves a matching of the positions
still pending.
-/

namespace Rings.OnionRoute

open Onion (OnionProcessEpoch)
open Matching

/-- A session public key. -/
abbrev PublicKey := BitVec 264

structure OnionRouteHop where
  did : Did
  delegateePublicKey : PublicKey
  processEpoch : OnionProcessEpoch
deriving DecidableEq

inductive OnionRouteError
  | loopSymbolsOutOfBounds (symbols maxSymbols : ℕ)
  | notEnoughLoopHops (required eligible : ℕ)
  | noDistinctSymbolHops
  | loopDrawInvariant
  | noPermittedFirstHop
deriving DecidableEq

inductive PeerQuality
  | unknown
  | healthy
  | degraded
deriving DecidableEq

/-- A source of uniform 64-bit draws. -/
class RouteEntropy (E : Type) where
  nextU64 : E → Fin (2 ^ 64) × E

/-! ### Loops -/

def onionSegmentRelays : ℕ := 2
def maxOnionLoopSymbols : ℕ := 4
def symbolPeriod : ℕ := onionSegmentRelays + 1
def loopHops (symbols : ℕ) : ℕ := symbolPeriod * symbols + onionSegmentRelays

structure OnionLoopShape where
  symbols : ℕ
  bounded : symbols ≠ 0 ∧ symbols ≤ maxOnionLoopSymbols

namespace OnionLoopShape

def new (symbols : ℕ) : Except OnionRouteError OnionLoopShape :=
  if h : symbols = 0 ∨ symbols > maxOnionLoopSymbols then
    .error (.loopSymbolsOutOfBounds symbols maxOnionLoopSymbols)
  else .ok ⟨symbols, by omega⟩

def hopCount (shape : OnionLoopShape) : ℕ := loopHops shape.symbols

def distinctHops (shape : OnionLoopShape) : ℕ := shape.hopCount - 1

end OnionLoopShape

/-- A pipeline of symbols, which is never empty. -/
structure OnionPipelineSymbols (S : Type) where
  all : List S
  intermediate : List S
  terminal : S
  split : all = intermediate ++ [terminal]

namespace OnionPipelineSymbols

variable {S T σ : Type}

def single (symbol : S) : OnionPipelineSymbols S := ⟨[symbol], [], symbol, rfl⟩

def symbolCount (symbols : OnionPipelineSymbols S) : ℕ := symbols.all.length

/-- Label every symbol in order, handing each the symbols after it. -/
def tryMapWithLater (symbols : OnionPipelineSymbols S)
    (label : S → List S → Effect σ OnionRouteError T) :
    Effect σ OnionRouteError (List T × T) := do
  let laters := symbols.all.tails.tail
  let intermediate ← (symbols.intermediate.zip laters).mapM fun (symbol, later) =>
    label symbol later
  let terminal ← label symbols.terminal []
  return (intermediate, terminal)

end OnionPipelineSymbols

inductive OnionLoopRelay
  | guard
  | relay

/-- The guard, the relays after it, each intermediate symbol with the relays after it, the last
symbol, and the relays before the guard again. -/
structure OnionLoop (P T : Type) where
  guard : P
  lead : List P
  stages : List (T × List P)
  terminal : T
  tail : List P

namespace OnionLoop

variable {P T σ : Type}

def tryUnfold (intermediate : List T) (terminal : T)
    (labelRelay : OnionLoopRelay → Effect σ OnionRouteError P) :
    Effect σ OnionRouteError (OnionLoop P T) := do
  let _ ← ExceptT.mk (pure (OnionLoopShape.new (intermediate.length + 1)))
  let guard ← labelRelay .guard
  let lead ← (List.range' 1 (onionSegmentRelays - 1)).mapM fun _ => labelRelay .relay
  let stages ← intermediate.mapM fun symbol => do
    let relays ← (List.range onionSegmentRelays).mapM fun _ => labelRelay .relay
    return (symbol, relays)
  let tail ← (List.range' 1 (onionSegmentRelays - 1)).mapM fun _ => labelRelay .relay
  return ⟨guard, lead, stages, terminal, tail⟩

/-- The labels of the symbol positions, in order. -/
def symbols (l : OnionLoop P T) : List T := l.stages.map (·.1) ++ [l.terminal]

/-- Relabel every symbol position, and give the terminal's label. -/
def projectSymbols (l : OnionLoop P T) (project : T → P) : OnionLoop P P × T :=
  (⟨l.guard, l.lead, l.stages.map fun (symbol, relays) => (project symbol, relays),
    project l.terminal, l.tail⟩, l.terminal)

/-- The labels of all positions but the last. -/
def openPath (l : OnionLoop P P) : List P :=
  (l.guard :: l.lead) ++ l.stages.flatMap (fun (symbol, relays) => symbol :: relays) ++
    [l.terminal] ++ l.tail

/-- The labels of all positions, the guard at the first and at the last. -/
def positions (l : OnionLoop P P) : List P := l.openPath ++ [l.guard]

end OnionLoop

/-! ### Registrants -/

section Registrants

variable {α X : Type}

/-- Sort stably by DID and keep the first of each. -/
def oncePerDid (didOf : α → Did) (l : List α) : List α :=
  (l.insertionSort fun a b => (didOf a).toNat ≤ (didOf b).toNat).destutter
    fun a b => didOf a ≠ didOf b

theorem mem_of_mem_oncePerDid {didOf : α → Did} {l : List α} {a : α} (h : a ∈ oncePerDid didOf l) :
    a ∈ l :=
  (List.mem_insertionSort _).1 ((List.destutter_sublist _ _).subset h)

instance total_toNat (didOf : α → Did) : Std.Total fun a b => (didOf a).toNat ≤ (didOf b).toNat :=
  ⟨fun a b => Nat.le_total (didOf a).toNat (didOf b).toNat⟩

instance isTrans_toNat (didOf : α → Did) : IsTrans α fun a b => (didOf a).toNat ≤ (didOf b).toNat :=
  ⟨fun _ _ _ => Nat.le_trans⟩

theorem oncePerDid_pairwise (didOf : α → Did) (l : List α) :
    (oncePerDid didOf l).Pairwise fun a b => (didOf a).toNat < (didOf b).toNat := by
  have hle : (oncePerDid didOf l).Pairwise fun a b => (didOf a).toNat ≤ (didOf b).toNat :=
    (List.pairwise_insertionSort _ l).sublist (List.destutter_sublist _ _)
  have hne : (oncePerDid didOf l).IsChain fun a b => didOf a ≠ didOf b :=
    List.isChain_destutter _ _
  have : IsTrans α fun a b => (didOf a).toNat < (didOf b).toNat := ⟨fun _ _ _ => Nat.lt_trans⟩
  rw [← List.isChain_iff_pairwise] at hle ⊢
  refine List.isChain_iff_getElem.2 fun i hi => lt_of_le_of_ne (hle.getElem i hi) fun heq => ?_
  exact hne.getElem i hi (BitVec.eq_of_toNat_eq heq)

/-- Every DID of `l` is kept once. -/
theorem exists_mem_oncePerDid (didOf : α → Did) {l : List α} {a : α} (h : a ∈ l) :
    ∃ b ∈ oncePerDid didOf l, didOf b = didOf a := by
  have hkept : ∀ (l : List α) (first : α), ∀ a ∈ first :: l,
      ∃ b ∈ List.destutter' (fun a b => didOf a ≠ didOf b) first l, didOf b = didOf a := by
    intro l
    induction l with
    | nil => simp
    | cons c l ih =>
      intro first a ha
      by_cases hc : didOf first ≠ didOf c
      · rw [List.destutter'_cons, if_pos hc]
        rcases List.mem_cons.1 ha with rfl | ha
        · exact ⟨a, List.mem_cons_self, rfl⟩
        · obtain ⟨b, hb, hba⟩ := ih c a ha
          exact ⟨b, List.mem_cons_of_mem first hb, hba⟩
      · rw [List.destutter'_cons, if_neg hc]
        rcases List.mem_cons.1 ha with rfl | ha
        · exact ih a a List.mem_cons_self
        · rcases List.mem_cons.1 ha with rfl | ha
          · obtain ⟨b, hb, hbf⟩ := ih first first List.mem_cons_self
            exact ⟨b, hb, hbf.trans (not_not.1 hc)⟩
          · exact ih first a (List.mem_cons_of_mem first ha)
  have h : a ∈ l.insertionSort fun a b => (didOf a).toNat ≤ (didOf b).toNat :=
    (List.mem_insertionSort _).2 h
  unfold oncePerDid
  generalize l.insertionSort (fun a b => (didOf a).toNat ≤ (didOf b).toNat) = sorted at h
  cases sorted with
  | nil => simp at h
  | cons first l => exact hkept l first a h

end Registrants

/-- The relay registrants of one draw: one hop per DID, in DID order. -/
structure RelayRegistrants where
  hops : List OnionRouteHop
  ordered : hops.Pairwise fun a b => a.did.toNat < b.did.toNat

/-- The registrations of one symbol whose hops are relay registrations of the draw, in DID order and
one per DID. -/
structure SymbolRegistrants (relays : RelayRegistrants) (X : Type) where
  registrations : List (OnionRouteHop × X)
  dids : List Did
  projected : dids = registrations.map (·.1.did)
  registered : ∀ r ∈ registrations, r.1 ∈ relays.hops
  ordered : registrations.Pairwise fun a b => a.1.did.toNat < b.1.did.toNat

namespace RelayRegistrants

variable {X : Type}

def new (relays : List OnionRouteHop) : RelayRegistrants :=
  ⟨oncePerDid (·.did) relays, oncePerDid_pairwise (·.did) relays⟩

variable (relays : RelayRegistrants)

/-- The relay registration of `did`; the hops are in strict DID order, so that a binary search finds
the only one. -/
def get (did : Did) : Option OnionRouteHop := relays.hops.find? (·.did = did)

theorem mem_of_get {did : Did} {hop : OnionRouteHop} (h : relays.get did = some hop) :
    hop ∈ relays.hops := List.mem_of_find?_eq_some h

theorem nodup_dids : (relays.hops.map (·.did)).Nodup := by
  refine List.pairwise_map.2 (relays.ordered.imp fun hlt heq => ?_)
  rw [heq] at hlt
  exact lt_irrefl _ hlt

theorem get_eq_some {hop : OnionRouteHop} (h : hop ∈ relays.hops) :
    relays.get hop.did = some hop := by
  cases hfound : relays.get hop.did with
  | none => simpa using List.find?_eq_none.1 hfound hop h
  | some found =>
    have hdid : found.did = hop.did := by simpa using List.find?_some hfound
    rw [List.inj_on_of_nodup_map relays.nodup_dids (relays.mem_of_get hfound) h hdid]

/-- The registrations of one symbol whose hop is a relay registration of this draw. -/
def admitted (registrations : List X) (project : X → OnionRouteHop) : SymbolRegistrants relays X :=
  let admitted := oncePerDid (·.1.did) <|
    (registrations.map fun registration => (project registration, registration)).filter
      fun r => relays.get r.1.did = some r.1
  { registrations := admitted
    dids := admitted.map (·.1.did)
    projected := rfl
    registered := fun r hr => by
      have := (List.mem_filter.1 (mem_of_mem_oncePerDid hr)).2
      exact relays.mem_of_get (of_decide_eq_true this)
    ordered := oncePerDid_pairwise _ _ }

/-- What is admitted is a registration whose hop is a relay registration. -/
theorem of_mem_admit {registrations : List X} {project : X → OnionRouteHop} {r : OnionRouteHop × X}
    (h : r ∈ (relays.admitted registrations project).registrations) :
    r.2 ∈ registrations ∧ project r.2 = r.1 ∧ r.1 ∈ relays.hops := by
  refine ⟨?_, ?_, (relays.admitted registrations project).registered r h⟩ <;>
  · obtain ⟨x, hx, rfl⟩ := List.mem_map.1 (List.mem_filter.1 (mem_of_mem_oncePerDid h)).1
    first | exact hx | rfl

/-- Every DID registering the symbol with a relay registration is admitted. -/
theorem mem_admit_dids (registrations : List X) (project : X → OnionRouteHop) (did : Did) :
    did ∈ (relays.admitted registrations project).dids ↔
      ∃ x ∈ registrations, (project x).did = did ∧ project x ∈ relays.hops := by
  constructor
  · intro h
    obtain ⟨r, hr, rfl⟩ := List.mem_map.1 h
    obtain ⟨hx, hproject, hmem⟩ := relays.of_mem_admit hr
    exact ⟨r.2, hx, by rw [hproject], hproject ▸ hmem⟩
  · rintro ⟨x, hx, rfl, hmem⟩
    have : (project x, x) ∈ (registrations.map fun x => (project x, x)).filter
        fun r => relays.get r.1.did = some r.1 :=
      List.mem_filter.2 ⟨List.mem_map_of_mem hx, decide_eq_true (relays.get_eq_some hmem)⟩
    obtain ⟨r, hr, hdid⟩ := exists_mem_oncePerDid (fun r : OnionRouteHop × X => r.1.did) this
    exact List.mem_map.2 ⟨r, hr, hdid⟩

end RelayRegistrants

end Rings.OnionRoute
