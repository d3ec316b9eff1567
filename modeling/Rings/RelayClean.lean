import Rings.RelayOrder

/-!
The clean end of a relayed TCP session.

While nothing goes wrong around a session, only the `Close` of a peer can stop a loop before both
its directions are over. Where every such `Close` finds the loop done, what is in flight to an
end, waits in its queue and was taken off it stands in the order of its peer's stream in every
state of a run, so no socket is reset, and a session that is dropped has written all of it.
-/

namespace Rings.Transport

variable {T : Type*}

lemma Frame.isClose_of_closes {f : Frame} {key : SessionKey} (h : f.Closes key) :
    Endpoint.IsClose f := by
  cases f with
  | close session fromOpener => exact ⟨_, _, rfl⟩
  | _ => exact absurd h id

def itemsOf (fs : List Frame) : List Outbound := fs.filterMap Frame.item?

lemma itemsOf_append (fs gs : List Frame) : itemsOf (fs ++ gs) = itemsOf fs ++ itemsOf gs :=
  List.filterMap_append

lemma itemsOf_closes {fs : List Frame} (h : ∀ f ∈ fs, Endpoint.IsClose f) : itemsOf fs = [] := by
  refine List.filterMap_eq_nil_iff.2 fun f hf => ?_
  obtain ⟨session, fromOpener, rfl⟩ := h f hf
  rfl

namespace Endpoint

variable {e : Endpoint T} {l : RelayLoop} {f : Frame} {src : Source}
  {next : Endpoint T × List Frame} {items : List Outbound}

/-! ### Steps of the task -/

lemma endTask_shutdown (e : Endpoint T) : e.endTask.socket.shutdown = e.socket.shutdown := by
  unfold endTask
  split <;> rfl

lemma endTask_released (h : e.socket.released ≠ some .reset) :
    e.endTask.socket.released ≠ some .reset := by
  unfold endTask
  split
  · simp
  · exact h

lemma Intact.endTask (hi : e.Intact) (hhandle : e.handle = none)
    (hshut : e.socket.shutdown = true) : e.endTask.Intact where
  entry := hi.entry
  unreset := endTask_released hi.unreset
  running _ hfinished := by cases hfinished
  stage := ⟨hhandle, (endTask_shutdown e).trans hshut⟩

lemma Intact.progress (hi : e.Intact) (hr : e.Receives src) (h : Progress e next) :
    next.1.Intact := by
  have hlaw := hi.stage
  cases h with
  | stay s hs =>
    exact ⟨fun g hg => ⟨(hi.entry g hg).1, hs (hi.entry g hg).2⟩, hi.unreset, hi.running, hlaw⟩
  | sendOpen hstage =>
    have hrunning := hi.running (by simp [hstage]) (by simp [finished, hstage])
    exact ⟨hi.entry, hi.unreset, fun _ _ => hrunning, trivial⟩
  | admitted hstage =>
    have hrunning := hi.running (by simp [hstage]) (by simp [finished, hstage])
    exact ⟨hi.entry, hi.unreset, fun _ _ => hrunning, trivial⟩
  | dialed hstage =>
    have hrunning := hi.running (by simp [hstage]) (by simp [finished, hstage])
    exact ⟨hi.entry, hi.unreset, fun _ _ => hrunning, trivial⟩
  | preamble sent chunk rest hstage =>
    have hrunning := hi.running (by simp [hstage]) (by simp [finished, hstage])
    exact ⟨hi.entry, hi.unreset, fun _ _ => hrunning, trivial⟩
  | start sent hstage =>
    have hrunning := hi.running (by simp [hstage]) (by simp [finished, hstage])
    exact ⟨hi.entry, hi.unreset, fun _ _ => hrunning, trivial⟩
  | select l hstage =>
    refine ⟨hi.entry, hi.unreset, fun _ hopen => hi.running (by simp [hstage]) ?_, trivial⟩
    simpa only [finished, hstage] using hopen
  | left selecting l hstage hover =>
    have hrelays := hr.2
    simp only [hstage] at hrelays
    refine ⟨hi.entry, hi.unreset, (fun _ hfinished => by cases hfinished), ?_⟩
    change e.socket.shutdown = true
    rw [hrelays.shutdown, hover.2, Bool.not_false]
  | read l bytes hstage hopen =>
    have hrunning := hi.running (by simp [hstage]) (by simp [finished, hstage, hopen])
    cases bytes with
    | nil => exact ⟨hi.entry, hi.unreset, fun _ _ => hrunning, trivial⟩
    | cons b bytes => exact ⟨hi.entry, hi.unreset, fun _ _ => hrunning, trivial⟩
  | took l item queue inbound ready hstage hopen hqueue =>
    have hrunning := hi.running (by simp [hstage]) (by simp [finished, hstage, hopen])
    exact ⟨hi.entry, hi.unreset, fun _ _ => hrunning, trivial⟩
  | release hstage =>
    simp only [hstage] at hlaw
    exact ⟨(fun _ hhandle => by cases hhandle), hi.unreset,
      (fun _ hfinished => by cases hfinished), rfl, hlaw⟩
  | stale hstage hhandle =>
    simp only [hstage] at hlaw
    exact hi.endTask hhandle hlaw
  | untracked s fs hstage hfs =>
    simp only [hstage] at hlaw
    refine ⟨fun g hg => ?_, hi.unreset, (fun _ hfinished => by cases hfinished), hlaw⟩
    rw [show e.handle = some g from hg] at hlaw
    cases hlaw.1
  | closed hstage =>
    simp only [hstage] at hlaw
    exact hi.endTask hlaw.1 hlaw.2

lemma Emits.progress (he : e.Emits items) (h : Progress e next) :
    next.1.Emits (items ++ itemsOf next.2) := by
  have hclosed : ∀ {fs : List Frame}, itemsOf fs = [] →
      ∃ n closed, Numbered (items ++ itemsOf fs) n closed := fun hfs => by
    rw [hfs, List.append_nil]
    exact he.numbered
  unfold Emits at he
  cases h with
  | stay s hs =>
    rw [itemsOf, List.filterMap_nil, List.append_nil]
    exact he
  | sendOpen hstage =>
    simp only [hstage] at he
    simp [Emits, he, itemsOf, Frame.item?]
  | admitted hstage =>
    simp only [hstage] at he
    rw [he]
    exact numbered_nil
  | dialed hstage =>
    simp only [hstage] at he
    rw [he]
    exact numbered_nil
  | preamble sent chunk rest hstage =>
    simp only [hstage] at he
    exact he.segment chunk
  | start sent hstage =>
    simp only [hstage] at he
    simpa [Emits, startLoop, itemsOf] using he
  | select l hstage =>
    simp only [hstage] at he
    simpa [Emits, itemsOf] using he
  | left selecting l hstage hover => exact hclosed rfl
  | read l bytes hstage hopen =>
    simp only [hstage, hopen, Bool.not_true] at he
    cases bytes with
    | nil => exact he.shutdown
    | cons b bytes =>
      have hnext := he.segment (b :: bytes)
      simp only [localRead, Emits, if_true, hopen, Bool.not_true]
      exact hnext
  | took l item queue inbound ready hstage hopen hqueue =>
    simp only [hstage] at he
    simpa [Emits, writeReady, itemsOf] using he
  | release hstage => exact hclosed rfl
  | stale hstage hhandle => exact hclosed rfl
  | untracked s fs hstage hfs => exact hclosed (itemsOf_closes hfs)
  | closed hstage => exact hclosed rfl

/-- What a step leaves as it was, and how it addresses what it sends. -/
structure Steady (e : Endpoint T) (next : Endpoint T × List Frame) : Prop where
  key : next.1.key = e.key
  pending : next.1.taken ++ next.1.queue = e.taken ++ e.queue
  idle : next.1.stage = .idle ↔ e.stage = .idle
  handle : next.1.handle.isSome → e.handle.isSome
  opening : next.1.stage = .opening false → e.stage = .opening false ∧ next.2 = []
  frames : ∀ f ∈ next.2, f.Addressed e.key.session e.openedByUs
  opens : ∀ f ∈ next.2, f.opens ≠ 0 → e.stage = .opening false ∧ next.2 = [f] ∧
    next.1.stage = .opening true

lemma steady_progress (h : Progress e next) : Steady e next := by
  cases h with
  | stay s hs => exact ⟨rfl, rfl, Iff.rfl, id, fun h => ⟨h, rfl⟩, by simp, by simp⟩
  | sendOpen hstage =>
    refine ⟨rfl, rfl, by simp [hstage], id, by simp, by simp [Frame.Addressed], ?_⟩
    intro f hf _
    rw [List.mem_singleton.1 hf]
    exact ⟨hstage, rfl, rfl⟩
  | preamble sent chunk rest hstage =>
    exact ⟨rfl, rfl, by simp [hstage], id, by simp, by simp [Frame.Addressed],
      by simp [Frame.opens]⟩
  | read l bytes hstage hopen =>
    cases bytes with
    | nil => exact ⟨rfl, rfl, by simp [localRead, hstage], id, by simp [localRead],
        by simp [localRead, Frame.Addressed], by simp [localRead, Frame.opens]⟩
    | cons b bytes => exact ⟨rfl, rfl, by simp [localRead, hstage], id, by simp [localRead],
        by simp [localRead, Frame.Addressed], by simp [localRead, Frame.opens]⟩
  | took l item queue inbound ready hstage hopen hqueue =>
    refine ⟨rfl, ?_, by simp [writeReady, hstage], id, by simp [writeReady], by simp, by simp⟩
    simp [writeReady, hqueue]
  | release hstage => exact ⟨rfl, rfl, by simp [hstage], by simp, by simp, by simp, by simp⟩
  | untracked s fs hstage hfs =>
    refine ⟨rfl, rfl, by simp [hstage], id, by simp, fun f hf => ?_, fun f hf => ?_⟩
    · obtain ⟨session, fromOpener, rfl⟩ := hfs f hf
      trivial
    · obtain ⟨session, fromOpener, rfl⟩ := hfs f hf
      exact fun hopens => absurd rfl hopens
  | closed hstage =>
    exact ⟨rfl, rfl, by simp [endTask, hstage], id, by simp [endTask], by simp [Frame.Addressed],
      by simp [Frame.opens]⟩
  | admitted hstage | dialed hstage | start sent hstage | select l hstage
  | left selecting l hstage hover | stale hstage hhandle =>
    refine ⟨rfl, rfl, ?_, id, ?_, by simp, by simp⟩ <;> simp [relayTcp, endTask, hstage]

/-! ### Arrivals -/

/-- An arrival leaves an end undisturbed, unless a `Close` comes too early. -/
lemma Intact.arrival (hi : e.Intact) (h : Arrival e f next)
    (hlate : f.Closes e.key → e.handle.isSome → e.finished = true) : next.1.Intact := by
  have hlaw := hi.stage
  cases h with
  | ignored s fs hfs hlive =>
    refine ⟨fun g hg => ⟨(hi.entry g hg).1, ?_⟩, hi.unreset, hi.running, hlaw⟩
    exact (hlive (by rw [show e.handle = some g from hg]; rfl)).2.2
  | queued o ho => exact ⟨hi.entry, hi.unreset, hi.running, hlaw⟩
  | stopped s hf hlive =>
    have hfinished := hlate hf hlive
    refine ⟨nofun, hi.unreset, fun _ hopen => ?_, ?_⟩
    · rw [show e.finished = false from hopen] at hfinished
      cases hfinished
    · cases hstage : e.stage <;> simp only [hstage] at hlaw ⊢
      case untracking | sendingClose | done => exact ⟨trivial, hlaw.2⟩
      case closing => exact hlaw
  | connected s g generations hf hnone hkey =>
    refine ⟨fun g' hg' => ⟨(Option.some.inj hg').symm, hkey⟩, hi.unreset, fun _ _ => ⟨rfl, rfl⟩,
      trivial⟩

lemma Arrival.key (h : Arrival e f next) : next.1.key = e.key := by cases h <;> rfl

lemma Arrival.closes (h : Arrival e f next) : ∀ g ∈ next.2, IsClose g := by
  cases h with
  | ignored s fs hfs hlive => exact hfs
  | _ => exact fun g hg => absurd hg List.not_mem_nil

lemma Emits.arrival (he : e.Emits items) (h : Arrival e f next)
    (hidle : f.opens ≠ 0 → e.stage = .idle) : next.1.Emits items := by
  cases h with
  | connected s g generations hf hnone hkey =>
    unfold Emits at he
    rw [hidle hf] at he
    exact he
  | _ => exact he

/-! ### What stands between two ends -/

/-- The end `o` sends, `e` receives, and `fs` is in flight to `e`: an `Open` comes first, and what
`e` took, what waits in its queue and what is in flight is what `o` sent. -/
structure Stands (o e : Endpoint T) (fs : List Frame) : Prop where
  addressed : ∀ f ∈ fs, f.Addressed e.key.session (e.key.initiator = .remote)
  unopened : o.stage = .opening false → e.stage = .idle ∧ fs = []
  opening : e.stage = .idle → ∀ f ∈ fs, f.opens ≠ 0 →
    ∃ rest, fs = f :: rest ∧ (∀ g ∈ rest, g.opens = 0) ∧ o.Emits (itemsOf rest)
  settled : e.stage ≠ .idle → ∀ f ∈ fs, f.opens = 0
  relayed : e.stage ≠ .idle → e.handle.isSome → o.Emits (e.taken ++ e.queue ++ itemsOf fs)

def Peers (o e : Endpoint T) : Prop :=
  o.key.session = e.key.session ∧ o.openedByUs = decide (e.key.initiator = .remote)

variable {o : Endpoint T} {fs : List Frame}

lemma Stands.sends (h : Stands o e fs) (hp : Peers o e) (hs : Progress o next) :
    Stands next.1 e (fs ++ next.2) := by
  have hsteady := steady_progress hs
  constructor
  case addressed =>
    intro f hf
    rcases List.mem_append.1 hf with hf | hf
    · exact h.addressed f hf
    · have := hsteady.frames f hf
      rwa [hp.1, hp.2] at this
  case unopened =>
    intro hstage
    obtain ⟨hold, hnone⟩ := hsteady.opening hstage
    rw [hnone, List.append_nil]
    exact h.unopened hold
  case opening =>
    intro hidle f hf hopens
    rcases List.mem_append.1 hf with hf | hf
    · obtain ⟨rest, rfl, hrest, hemits⟩ := h.opening hidle f hf hopens
      have hnext := hemits.progress hs
      refine ⟨rest ++ next.2, rfl, fun g hg => ?_, by rwa [itemsOf_append]⟩
      rcases List.mem_append.1 hg with hg | hg
      · exact hrest g hg
      · by_contra hne
        have := (h.unopened (hsteady.opens g hg hne).1).2
        cases this
    · obtain ⟨hstage, hnext, hopened⟩ := hsteady.opens f hf hopens
      rw [(h.unopened hstage).2, hnext]
      refine ⟨[], rfl, by simp, ?_⟩
      unfold Emits
      rw [hopened]
      rfl
  case settled =>
    intro hne f hf
    rcases List.mem_append.1 hf with hf | hf
    · exact h.settled hne f hf
    · by_contra hopens
      exact hne (h.unopened (hsteady.opens f hf hopens).1).1
  case relayed =>
    intro hne hlive
    have hnext := (h.relayed hne hlive).progress hs
    rwa [List.append_assoc, ← itemsOf_append] at hnext

lemma Stands.receives (h : Stands o e fs) (hs : Progress e next) : Stands o next.1 fs := by
  have hsteady := steady_progress hs
  constructor
  case addressed =>
    rw [hsteady.key]
    exact h.addressed
  case unopened =>
    rw [hsteady.idle]
    exact h.unopened
  case opening =>
    rw [hsteady.idle]
    exact h.opening
  case settled =>
    rw [ne_eq, hsteady.idle]
    exact h.settled
  case relayed =>
    rw [ne_eq, hsteady.idle, hsteady.pending]
    exact fun hne hlive => h.relayed hne (hsteady.handle hlive)

/-- The sending end takes what is in flight to it, and answers. -/
lemma Stands.answers (h : Stands o e fs) (ho : o.Intact) (ha : Arrival o f next)
    (hidle : f.opens ≠ 0 → o.stage = .idle) : Stands next.1 e (fs ++ next.2) := by
  have hitems : itemsOf next.2 = [] := itemsOf_closes ha.closes
  have hopens : ∀ g ∈ next.2, g.opens = 0 := fun g hg => by
    obtain ⟨session, fromOpener, rfl⟩ := ha.closes g hg
    rfl
  constructor
  case addressed =>
    intro g hg
    rcases List.mem_append.1 hg with hg | hg
    · exact h.addressed g hg
    · obtain ⟨session, fromOpener, rfl⟩ := ha.closes g hg
      trivial
  case unopened =>
    intro hstage
    have hold : o.stage = .opening false ∧ next.2 = [] := by
      cases ha with
      | ignored s fs hfs hlive =>
        have hrunning := ho.running (by simp [show o.stage = _ from hstage])
          (by simp [finished, show o.stage = _ from hstage])
        exact ⟨hstage, (hlive hrunning.2).2.1⟩
      | connected s g generations hf hnone hkey => cases hstage
      | _ => exact ⟨hstage, rfl⟩
    rw [hold.2, List.append_nil]
    exact h.unopened hold.1
  case opening =>
    intro hestage g hg hne
    rcases List.mem_append.1 hg with hg | hg
    · obtain ⟨rest, rfl, hrest, hemits⟩ := h.opening hestage g hg hne
      refine ⟨rest ++ next.2, rfl, fun g' hg' => ?_, ?_⟩
      · rcases List.mem_append.1 hg' with hg' | hg'
        · exact hrest g' hg'
        · exact hopens g' hg'
      · rw [itemsOf_append, hitems, List.append_nil]
        exact hemits.arrival ha hidle
    · exact absurd (hopens g hg) hne
  case settled =>
    intro hne g hg
    rcases List.mem_append.1 hg with hg | hg
    · exact h.settled hne g hg
    · exact hopens g hg
  case relayed =>
    intro hne hlive
    rw [itemsOf_append, hitems, List.append_nil]
    exact (h.relayed hne hlive).arrival ha hidle

/-- Behind the first frame in flight to an end there is no `Open`. -/
lemma Stands.rest (h : Stands o e (f :: fs)) : ∀ g ∈ fs, g.opens = 0 := by
  intro g hg
  by_contra hne
  have hmem : g ∈ f :: fs := List.mem_cons_of_mem f hg
  by_cases hidle : e.stage = .idle
  · obtain ⟨rest, heq, hrest, -⟩ := h.opening hidle g hmem hne
    obtain ⟨-, rfl⟩ := List.cons.inj heq
    exact hne (hrest g hg)
  · exact hne (h.settled hidle g hmem)

lemma Stands.arrives (h : Stands o e (f :: fs)) (hr : e.Receives src) (ha : Arrival e f next) :
    Stands o next.1 fs := by
  have hitem : ∀ g ∈ fs, g ∈ f :: fs := fun g hg => List.mem_cons_of_mem f hg
  have hrest := h.rest
  constructor
  case addressed =>
    rw [ha.key]
    exact fun g hg => h.addressed g (hitem g hg)
  case unopened =>
    intro hstage
    cases (h.unopened hstage).2
  case opening => exact fun _ g hg hne => absurd (hrest g hg) hne
  case settled => exact fun _ => hrest
  case relayed =>
    intro hne hlive
    cases ha with
    | ignored s fs hfs hsame =>
      have hnone := (hsame hlive).1
      have hold := h.relayed hne hlive
      rwa [itemsOf, List.filterMap_cons_none hnone] at hold
    | queued q hq =>
      have hold := h.relayed hne hlive
      rw [itemsOf, List.filterMap_cons_some hq] at hold
      simpa [itemsOf] using hold
    | stopped s hf hsome => cases hlive
    | connected s g generations hf hnone hkey =>
      have hidle : e.stage = .idle := by
        by_contra hne
        exact hf (h.settled hne f List.mem_cons_self)
      obtain ⟨rest, heq, -, hemits⟩ := h.opening hidle f List.mem_cons_self hf
      obtain ⟨-, rfl⟩ := List.cons.inj heq
      have hfresh := hr.2
      simp only [hidle] at hfresh
      simpa [hfresh.taken] using hemits

/-! ### Who closes -/

/-- Once both directions are over, the write half of the local socket is shut. -/
lemma Intact.shutdown (hi : e.Intact) (hr : e.Receives src) (hfinished : e.finished = true) :
    e.socket.shutdown = true := by
  have hlaw := hi.stage
  have hrelays := hr.2
  cases hstage : e.stage <;>
    simp only [finished, hstage, Bool.false_eq_true] at hfinished hlaw hrelays
  case relaying selecting l =>
    simp only [Bool.and_eq_true, Bool.not_eq_true'] at hfinished
    rw [hrelays.shutdown, hfinished.2, Bool.not_false]
  case closing => exact hlaw
  case untracking | sendingClose | done => exact hlaw.2

/-- An end with nothing left to read whose write half is shut is over in both directions. -/
lemma finished_of_ended (hi : e.Intact) (hs : e.Sends) (hr : e.Receives src)
    (hread : e.socket.eof = true) (hshut : e.socket.shutdown = true) : e.finished = true := by
  have hlaw := hi.stage
  have hrelays := hr.2
  cases hstage : e.stage <;>
    simp only [Sends, finished, hstage, hread, Bool.true_eq_false, and_false, false_and] at *
  have hopen := hrelays.shutdown
  rw [hshut, Bool.true_eq, Bool.not_eq_true'] at hopen
  simp [hs.1, hopen]

/-- A `Close` in flight from `o` to `e` means that `o` has shut its write half, or that it never
had the session and never will; `bs` is in flight to `o`. -/
def Answered (o e : Endpoint T) (fs bs : List Frame) : Prop :=
  (∃ f ∈ fs, IsClose f) → o.socket.shutdown = true ∨
    (o.stage = .idle ∧ e.stage ≠ .opening false ∧ ∀ g ∈ bs, g.opens = 0)

lemma shutdown_progress (hi : e.Intact) (h : Progress e next) :
    (e.socket.shutdown = true → next.1.socket.shutdown = true) ∧
      ((∃ f ∈ next.2, IsClose f) → next.1.socket.shutdown = true) := by
  have hlaw := hi.stage
  cases h with
  | read l bytes hstage hopen =>
    cases bytes <;> exact ⟨id, by simp [localRead, IsClose]⟩
  | took l item queue inbound ready hstage hopen hqueue =>
    exact ⟨fun h => by simp [writeReady, h], by simp⟩
  | stale hstage hhandle => exact ⟨(endTask_shutdown e).trans, by simp⟩
  | untracked s fs hstage hfs =>
    simp only [hstage] at hlaw
    exact ⟨id, fun _ => hlaw.2⟩
  | closed hstage =>
    simp only [hstage] at hlaw
    exact ⟨(endTask_shutdown e).trans, fun _ => (endTask_shutdown e).trans hlaw.2⟩
  | _ => exact ⟨id, by simp [IsClose]⟩

lemma Answered.sends {bs : List Frame} (h : Answered o e fs bs) (hi : o.Intact)
    (hs : Progress o next) : Answered next.1 e (fs ++ next.2) bs := by
  obtain ⟨hkept, hclosed⟩ := shutdown_progress hi hs
  rintro ⟨f, hf, hclose⟩
  rcases List.mem_append.1 hf with hf | hf
  · exact (h ⟨f, hf, hclose⟩).imp hkept fun hnone =>
      ⟨(steady_progress hs).idle.2 hnone.1, hnone.2⟩
  · exact Or.inl (hclosed ⟨f, hf, hclose⟩)

lemma Answered.receives {bs : List Frame} (h : Answered o e fs bs) (hs : Progress e next) :
    Answered o next.1 fs (bs ++ next.2) := by
  have hsteady := steady_progress hs
  intro hclose
  refine (h hclose).imp_right fun ⟨hidle, hopened, hnone⟩ => ⟨hidle, fun hstage =>
    hopened (hsteady.opening hstage).1, fun g hg => ?_⟩
  rcases List.mem_append.1 hg with hg | hg
  · exact hnone g hg
  · by_contra hne
    exact hopened (hsteady.opens g hg hne).1

lemma Answered.answers {bs : List Frame} (h : Answered o e fs (f :: bs)) (hi : o.Intact)
    (hr : o.Receives src) (hstands : Stands e o (f :: bs)) (ha : Arrival o f next) :
    Answered next.1 e (fs ++ next.2) bs := by
  have hopened : e.stage ≠ .opening false := fun hstage => by
    cases (hstands.unopened hstage).2
  rintro ⟨g, hg, hclose⟩
  cases ha with
  | ignored s gs hgs hlive =>
    rcases List.mem_append.1 hg with hg | hg
    · exact (h ⟨g, hg, hclose⟩).imp_right fun hnone => ⟨hnone.1, hopened, hstands.rest⟩
    · by_cases hidle : o.stage = .idle
      · exact Or.inr ⟨hidle, hopened, hstands.rest⟩
      · refine Or.inl (hi.shutdown hr ?_)
        by_contra hne
        have hrunning := hi.running hidle (by simpa using hne)
        rw [show gs = [] from (hlive hrunning.2).2.1] at hg
        cases hg
  | connected s n generations hf hnone hkey =>
    rw [List.append_nil] at hg
    refine (h ⟨g, hg, hclose⟩).imp_right fun hnone => ?_
    exact absurd (hnone.2.2 f List.mem_cons_self) hf
  | queued q hq =>
    rw [List.append_nil] at hg
    exact (h ⟨g, hg, hclose⟩).imp_right fun hnone => ⟨hnone.1, hopened, hstands.rest⟩
  | stopped s hf hlive =>
    rw [List.append_nil] at hg
    exact (h ⟨g, hg, hclose⟩).imp_right fun hnone => ⟨hnone.1, hopened, hstands.rest⟩

lemma Answered.arrives {bs : List Frame} (h : Answered o e (f :: fs) bs) (ha : Arrival e f next) :
    Answered o next.1 fs (bs ++ next.2) := by
  rintro ⟨g, hg, hclose⟩
  refine (h ⟨g, List.mem_cons_of_mem f hg, hclose⟩).imp_right fun ⟨hidle, hopened, hnone⟩ =>
    ⟨hidle, ?_, fun g hg => ?_⟩
  · cases ha with
    | connected s n generations hf hnone hkey => exact nofun
    | _ => exact hopened
  · rcases List.mem_append.1 hg with hg | hg
    · exact hnone g hg
    · obtain ⟨session, fromOpener, rfl⟩ := ha.closes g hg
      rfl

end Endpoint

namespace World

variable {w : World T}

/-! ### Frames in order -/

def framesTo (w : World T) (side : Side) : List Frame :=
  w.network.filterMap fun x => if x.1 = side then some x.2 else none

lemma mem_framesTo {side : Side} {f : Frame} : f ∈ w.framesTo side ↔ (side, f) ∈ w.network := by
  simp only [framesTo, List.mem_filterMap, Option.ite_none_right_eq_some, Option.some.injEq,
    Prod.exists]
  constructor
  · rintro ⟨x, g, hmem, rfl, rfl⟩
    exact hmem
  · exact fun hmem => ⟨side, f, hmem, rfl, rfl⟩

lemma framesTo_update_self (w : World T) (side : Side) (next : Endpoint T × List Frame) :
    (w.update side next).framesTo side = w.framesTo side := by
  have hnone : (next.2.map fun f => (side.other, f)).filterMap
      (fun x => if x.1 = side then some x.2 else none) = [] := by
    refine List.filterMap_eq_nil_iff.2 fun x hx => ?_
    obtain ⟨f, -, rfl⟩ := List.mem_map.1 hx
    exact if_neg (other_ne side)
  rw [framesTo, update, List.filterMap_append, hnone, List.append_nil]
  rfl

lemma framesTo_update_other (w : World T) (side : Side) (next : Endpoint T × List Frame) :
    (w.update side next).framesTo side.other = w.framesTo side.other ++ next.2 := by
  have hall : (next.2.map fun f => (side.other, f)).filterMap
      (fun x => if x.1 = side.other then some x.2 else none) = next.2 := by
    rw [List.filterMap_map]
    simp
  rw [framesTo, update, List.filterMap_append, hall]
  rfl

/-- The frame at a position, none before it for the same end, is the first in flight to it. -/
lemma framesTo_eraseIdx {index : ℕ} {side : Side} {f : Frame}
    (hget : w.network[index]? = some (side, f)) (hfirst : ∀ x ∈ w.network.take index, x.1 ≠ side) :
    w.framesTo side = f :: framesTo { w with network := w.network.eraseIdx index } side ∧
      w.framesTo side.other =
        framesTo { w with network := w.network.eraseIdx index } side.other := by
  obtain ⟨hlt, hget⟩ := List.getElem?_eq_some_iff.1 hget
  have hsplit : w.network = w.network.take index ++ (side, f) :: w.network.drop (index + 1) := by
    rw [← hget, List.getElem_cons_drop, List.take_append_drop]
  have hbefore : (w.network.take index).filterMap
      (fun x => if x.1 = side then some x.2 else none) = [] :=
    List.filterMap_eq_nil_iff.2 fun x hx => if_neg (hfirst x hx)
  simp only [framesTo, List.eraseIdx_eq_take_drop_succ, List.filterMap_append]
  constructor
  · conv_lhs => rw [hsplit]
    simp [hbefore]
  · conv_lhs => rw [hsplit]
    simp [(other_ne side).symm]

/-! ### A session that nothing disturbs -/

/-- The step of a session around which nothing goes wrong: the task's own step is calm, and a
frame is the first in flight to its end, whose queue has room. -/
def CalmStep (w : World T) : WorldStep T → Prop
  | .act _ a => a.Calm
  | .deliver index => ∀ x ∈ w.network[index]?, (∀ y ∈ w.network.take index, y.1 ≠ x.1) ∧
      ((w.ends x.1).handle.isSome → x.2.item?.isSome →
        (w.ends x.1).queue.length < outboundCapacity)

instance (w : World T) (op : WorldStep T) : Decidable (w.CalmStep op) :=
  match op with
  | .act _ a => inferInstanceAs (Decidable a.Calm)
  | .deliver _ => inferInstanceAs (Decidable (∀ x ∈ _, _ ∧ _))

/-- A `Close` that reaches its live session finds the loop over in both directions. -/
def ClosesLate (w : World T) : WorldStep T → Prop
  | .act _ _ => True
  | .deliver index => ∀ x ∈ w.network[index]?, x.2.Closes (w.ends x.1).key →
      (w.ends x.1).handle.isSome → (w.ends x.1).finished = true

instance (w : World T) (op : WorldStep T) : Decidable (w.ClosesLate op) :=
  match op with
  | .act _ _ => inferInstanceAs (Decidable True)
  | .deliver _ => inferInstanceAs (Decidable (∀ x ∈ _, _ → _ → _))

/-- No socket is reset, and a session is dropped only when all of its peer's stream was written and
its write half was shut. -/
def EndsCleanly (w : World T) : Prop :=
  ∀ side, (w.ends side).socket.released ≠ some .reset ∧
    ((w.ends side).stage ≠ .idle → (w.ends side).handle = none →
      (w.ends side).socket.shutdown = true ∧ (w.ends side.other).socket.eof = true ∧
        (w.ends side).socket.written = (w.ends side.other).stream)

structure Clear (w : World T) : Prop where
  sound : w.Sound
  intact : ∀ side, (w.ends side).Intact
  stands : ∀ side, Endpoint.Stands (w.ends side.other) (w.ends side) (w.framesTo side)
  peers : ∀ side, Endpoint.Peers (w.ends side.other) (w.ends side)
  answered : ∀ side, Endpoint.Answered (w.ends side.other) (w.ends side) (w.framesTo side)
    (w.framesTo side.other)

lemma Clear.inOrder (h : w.Clear) {side : Side} {l : RelayLoop}
    (hstage : (w.ends side).stage = .relaying true l) (hopen : l.localWriteOpen = true) :
    (w.ends side).InOrder := by
  intro item queue hqueue
  have hrunning := (h.intact side).running (by simp [hstage])
    (by simp [Endpoint.finished, hstage, hopen])
  have hemits := (h.stands side).relayed (by simp [hstage]) hrunning.2
  obtain ⟨n, closed, hnumbered⟩ := hemits.numbered
  rw [hqueue, List.append_assoc] at hnumbered
  exact ⟨queue ++ itemsOf (w.framesTo side), n, closed, hnumbered⟩

lemma clear_update {side : Side} {next : Endpoint T × List Frame}
    (hsound : (w.update side next).Sound)
    (hpeers : ∀ x, Endpoint.Peers (w.ends x.other) (w.ends x))
    (hkey : next.1.key = (w.ends side).key) (hintact : next.1.Intact)
    (hintact' : (w.ends side.other).Intact)
    (hself : Endpoint.Stands (w.ends side.other) next.1 (w.framesTo side))
    (hother : Endpoint.Stands next.1 (w.ends side.other) (w.framesTo side.other ++ next.2))
    (hanswered : Endpoint.Answered (w.ends side.other) next.1 (w.framesTo side)
      (w.framesTo side.other ++ next.2))
    (hanswered' : Endpoint.Answered next.1 (w.ends side.other) (w.framesTo side.other ++ next.2)
      (w.framesTo side)) :
    (w.update side next).Clear := by
  have hends : (w.update side next).ends side = next.1 := Function.update_self _ _ _
  have hends' : (w.update side next).ends side.other = w.ends side.other :=
    Function.update_of_ne (other_ne side) _ _
  constructor
  case sound => exact hsound
  case intact =>
    intro x
    rcases eq_or_eq_other side x with rfl | rfl
    · rw [hends]
      exact hintact
    · rw [hends']
      exact hintact'
  case stands =>
    intro x
    rcases eq_or_eq_other side x with rfl | rfl
    · rw [hends, hends', framesTo_update_self]
      exact hself
    · rw [other_other, hends, hends', framesTo_update_other]
      exact hother
  case peers =>
    intro x
    rcases eq_or_eq_other side x with rfl | rfl
    · rw [hends, hends', Endpoint.Peers, hkey]
      exact hpeers _
    · have hold := hpeers side.other
      rw [other_other] at hold ⊢
      rw [hends, hends', Endpoint.Peers, Endpoint.openedByUs, hkey]
      exact hold
  case answered =>
    intro x
    rcases eq_or_eq_other side x with rfl | rfl
    · rw [hends, hends', framesTo_update_self, framesTo_update_other]
      exact hanswered
    · rw [other_other, hends, hends', framesTo_update_self, framesTo_update_other]
      exact hanswered'

lemma Clear.act (h : w.Clear) (side : Side) {a : Action T} (ha : a.Calm) :
    (w.step (.act side a)).Clear := by
  have hprogress := Endpoint.progress_act (h.intact side) (h.sound.receives side) ha
    fun l hstage hopen => h.inOrder hstage hopen
  have hpeers := h.peers side.other
  have hstands := h.stands side.other
  have hanswered := h.answered side.other
  rw [other_other] at hpeers hstands hanswered
  exact clear_update (h.sound.step (.act side a)) h.peers
    (Endpoint.steady_progress hprogress).key
    ((h.intact side).progress (h.sound.receives side) hprogress) (h.intact side.other)
    ((h.stands side).receives hprogress) (hstands.sends hpeers hprogress)
    ((h.answered side).receives hprogress) (hanswered.sends (h.intact side) hprogress)

lemma Clear.arrival (h : w.Clear) {side : Side} {f : Frame} (hf : f ∈ w.framesTo side)
    (hroom : (w.ends side).handle.isSome → f.item?.isSome →
      (w.ends side).queue.length < outboundCapacity) :
    Endpoint.Arrival (w.ends side) f ((w.ends side).receive f) := by
  have hstands := h.stands side
  have hintact := h.intact side
  cases hhandle : (w.ends side).handle with
  | none =>
    cases f with
    | open_ session service => exact Endpoint.arrival_open hhandle session service
    | _ => exact Endpoint.arrival_gone hhandle (Or.inl rfl)
  | some g =>
    have hne : (w.ends side).stage ≠ .idle := by
      intro hidle
      have hlaw := hintact.stage
      simp only [hidle, hhandle, reduceCtorEq] at hlaw
    refine Endpoint.arrival_live hhandle (hintact.entry g hhandle).2 (hstands.addressed f hf)
      (hstands.settled hne f hf) (fun bytes hitem => ?_) (hroom (by simp [hhandle]))
    have hemits := hstands.relayed hne (by simp [hhandle])
    obtain ⟨n, closed, hnumbered⟩ := hemits.numbered
    refine hnumbered.no_datagram bytes ?_
    exact List.mem_append_right _ (List.mem_filterMap.2 ⟨f, hf, hitem⟩)

lemma Clear.deliver (h : w.Clear) {index : ℕ} (hcalm : w.CalmStep (.deliver index))
    (hlate : w.ClosesLate (.deliver index)) : (w.step (.deliver index)).Clear := by
  have hsound := h.sound.step (.deliver index)
  simp only [World.step] at hsound ⊢
  split
  · exact h
  · rename_i side f hget
    simp only [hget] at hsound
    obtain ⟨hfirst, hroom⟩ := hcalm (side, f) hget
    obtain ⟨hself, hother⟩ := framesTo_eraseIdx hget hfirst
    have hmem : f ∈ w.framesTo side := by rw [hself]; exact List.mem_cons_self
    have harrival := h.arrival hmem hroom
    have hidle : f.opens ≠ 0 → (w.ends side).stage = .idle := fun hopens => by
      by_contra hne
      exact hopens ((h.stands side).settled hne f hmem)
    have hstands := h.stands side
    have hstands' := h.stands side.other
    rw [hself] at hstands
    rw [other_other, hother] at hstands'
    have hintact := (h.intact side).arrival harrival (hlate (side, f) hget)
    have hanswered := h.answered side
    have hanswered' := h.answered side.other
    rw [hself, hother] at hanswered
    rw [other_other, hself, hother] at hanswered'
    exact clear_update hsound h.peers harrival.key hintact (h.intact side.other)
      (hstands.arrives (h.sound.receives side) harrival)
      (hstands'.answers (h.intact side) harrival hidle) (hanswered.arrives harrival)
      (hanswered'.answers (h.intact side) (h.sound.receives side) hstands harrival)

lemma Clear.endsCleanly (h : w.Clear) : w.EndsCleanly := by
  intro side
  refine ⟨(h.intact side).unreset, fun hidle hhandle => ?_⟩
  have hfinished : (w.ends side).finished = true := by
    by_contra hne
    have hrunning := (h.intact side).running hidle (by simpa using hne)
    simp [hhandle] at hrunning
  have hshut := (h.intact side).shutdown (h.sound.receives side) hfinished
  exact ⟨hshut, h.sound.complete hshut⟩

/-- A `Close` that does not come late drops a session which has not written all it was sent. -/
lemma Clear.late (h : w.Clear) {op : WorldStep T} (hcalm : w.CalmStep op)
    (hends : (w.step op).EndsCleanly) : w.ClosesLate op := by
  cases op with
  | act side a => trivial
  | deliver index =>
    rintro ⟨side, f⟩ hget hf hlive
    obtain ⟨g, hg⟩ := Option.isSome_iff_exists.1 hlive
    have hidle : (w.ends side).stage ≠ .idle := by
      intro hidle
      have hlaw := (h.intact side).stage
      simp only [hidle, hg, reduceCtorEq] at hlaw
    have hclose : Endpoint.IsClose f := Frame.isClose_of_closes hf
    have hreceive := Endpoint.receive_close hg ((h.intact side).entry g hg).2 hf
    rw [Option.mem_def] at hget
    simp only [World.step, hget, hreceive] at hends
    have hself := (hends side).2
    simp only [update, Function.update_self, Function.update_of_ne (other_ne side)] at hself
    obtain ⟨hshut, heof, -⟩ := hself hidle trivial
    have hmem : f ∈ w.framesTo side := mem_framesTo.2 (List.mem_of_getElem? hget)
    have hread : (w.ends side).socket.eof = true := by
      rcases h.answered side ⟨f, hmem, hclose⟩ with hother | ⟨hother, -⟩
      · have := (h.sound.complete hother).1
        rwa [other_other] at this
      · have hsends := h.sound.sends side.other
        simp only [Endpoint.Sends, hother, heof, Bool.true_eq_false, and_false] at hsends
    exact Endpoint.finished_of_ended (h.intact side) (h.sound.sends side) (h.sound.receives side)
      hread hshut

/-! ### Runs -/

lemma Clear.step (h : w.Clear) {op : WorldStep T} (hcalm : w.CalmStep op)
    (hlate : w.ClosesLate op) : (w.step op).Clear := by
  cases op with
  | act side a => exact h.act side hcalm
  | deliver index => exact h.deliver hcalm hlate

/-- A session begins undisturbed: the relay of the opener has it, and its task was not stopped. -/
lemma clear_of_begins (h : w.Begins)
    (hlive : (w.ends .opener).key ∈ (w.ends .opener).state.sessions)
    (hrunning : (w.ends .opener).cancelled = false) : w.Clear where
  sound := sound_of_begins h
  intact side := by
    have hfresh := h.fresh side
    cases side with
    | opener =>
      refine ⟨fun g hg => ?_, by simp [hfresh.released], fun _ _ => ⟨hrunning, ?_⟩, ?_⟩
      · rw [h.handles.1, Option.some.injEq] at hg
        exact ⟨hg.symm, hlive⟩
      · rw [h.handles.1]
        rfl
      · rw [h.stages.1]
        trivial
    | acceptor =>
      refine ⟨fun g hg => ?_, by simp [hfresh.released], fun hidle => absurd h.stages.2 hidle, ?_⟩
      · rw [h.handles.2] at hg
        cases hg
      · rw [h.stages.2]
        exact h.handles.2
  stands side := by
    have hnone : w.framesTo side = [] := by simp [framesTo, h.network]
    rw [hnone]
    cases side with
    | opener =>
      refine ⟨by simp, fun hstage => ?_, by simp, by simp, fun _ _ => ?_⟩
      · rw [Side.other, h.stages.2] at hstage
        cases hstage
      · simp [Side.other, Endpoint.Emits, h.stages.2, (h.fresh .opener).taken, h.queues .opener,
          itemsOf]
    | acceptor =>
      exact ⟨by simp, fun _ => ⟨h.stages.2, rfl⟩, by simp, by simp,
        fun hidle => absurd h.stages.2 hidle⟩
  peers side := by
    cases side <;> simp [Side.other, Endpoint.Peers, Endpoint.openedByUs, h.session, h.initiators]
  answered side := by
    have hnone : w.framesTo side = [] := by simp [framesTo, h.network]
    rw [hnone]
    rintro ⟨f, hf, -⟩
    exact absurd hf List.not_mem_nil

/-- Around a session nothing goes wrong: it ends cleanly in every state of a run in just those runs
in which no `Close` reaches a live session before its loop is over in both directions. -/
theorem endsCleanly_iff (h : w.Begins)
    (hlive : (w.ends .opener).key ∈ (w.ends .opener).state.sessions)
    (hrunning : (w.ends .opener).cancelled = false) (steps : List (WorldStep T))
    (hcalm : ∀ pre op, pre ++ [op] <+: steps → (w.run pre).CalmStep op) :
    (∀ pre, pre <+: steps → (w.run pre).EndsCleanly) ↔
      ∀ pre op, pre ++ [op] <+: steps → (w.run pre).ClosesLate op := by
  have hclear := clear_of_begins h hlive hrunning
  constructor
  · intro hends
    have hall : ∀ pre, pre <+: steps → (w.run pre).Clear := by
      intro pre
      induction pre using List.reverseRecOn with
      | nil => exact fun _ => hclear
      | append_singleton pre op ih =>
        intro hpre
        have hbefore := ih ((List.prefix_append _ _).trans hpre)
        have hafter := hends _ hpre
        rw [run_concat] at hafter ⊢
        exact hbefore.step (hcalm pre op hpre) (hbefore.late (hcalm pre op hpre) hafter)
    intro pre op hpre
    have hafter := hends _ hpre
    rw [run_concat] at hafter
    exact (hall pre ((List.prefix_append _ _).trans hpre)).late (hcalm pre op hpre) hafter
  · intro hlate pre hpre
    have hall : (w.run pre).Clear := by
      induction pre using List.reverseRecOn with
      | nil => exact hclear
      | append_singleton pre op ih =>
        rw [run_concat]
        exact (ih ((List.prefix_append _ _).trans hpre)).step (hcalm pre op hpre)
          (hlate pre op hpre)
    exact hall.endsCleanly

/-- Both ends relay; the opener's client sends a byte and ends its stream, and the acceptor's
service ends its own without a byte. The half-close of the service reaches the opener, whose loop
is then over and sends `Close`. -/
def exchanged : List (WorldStep Unit) :=
  [.act .opener .sendOpen, .act .opener (.opened true), .act .opener (.sendPreamble true),
    .act .opener .loopHead, .deliver 0, .act .acceptor (.dialed true),
    .act .acceptor (.sendPreamble true), .act .acceptor .loopHead,
    .act .opener (.localRead (some [7]) true), .act .opener .loopHead,
    .act .opener (.localRead (some []) true), .act .opener .loopHead,
    .act .acceptor (.localRead (some []) true), .act .acceptor .loopHead, .deliver 2,
    .act .opener (.recv none), .act .opener .loopHead, .act .opener .closeIfCurrent,
    .act .opener (.untracked true), .act .opener .sendClose]

/-- The service's end writes the byte and the end of stream before the `Close` arrives. -/
def closedLate : List (WorldStep Unit) :=
  exchanged ++ [.deliver 0, .deliver 0, .act .acceptor (.recv none), .act .acceptor .loopHead,
    .act .acceptor (.recv none), .deliver 0, .act .acceptor .loopHead,
    .act .acceptor .closeIfCurrent]

def closedEarly : List (WorldStep Unit) :=
  exchanged ++ [.deliver 0, .deliver 0, .deliver 0, .act .acceptor .cancelledBranch]

/-- What a run of the session has to meet, checked step by step. -/
lemma forall_steps {P : List (WorldStep T) → WorldStep T → Prop} {steps : List (WorldStep T)}
    (h : ∀ p ∈ steps.inits, ∀ op ∈ p.getLast?, P p.dropLast op) :
    ∀ pre op, pre ++ [op] <+: steps → P pre op := by
  intro pre op hpre
  have hop := h (pre ++ [op]) ((List.mem_inits _ _).2 hpre) op (by simp)
  rwa [List.dropLast_concat] at hop

theorem endsCleanly_closedLate :
    ((accepted.run closedLate).ends .acceptor).socket.written = [7] ∧
      ∀ pre, pre <+: closedLate → (accepted.run pre).EndsCleanly := by
  refine ⟨by decide +kernel, (endsCleanly_iff accepted_begins (by decide) rfl closedLate
    (forall_steps (by decide +kernel))).2 (forall_steps ?_)⟩
  decide +kernel

/-- The service's socket is reset, and the byte is lost. -/
theorem closedEarly_resets : accepted.Begins ∧
    (accepted.ends .opener).key ∈ (accepted.ends .opener).state.sessions ∧
      (accepted.ends .opener).cancelled = false ∧
        (∀ pre op, pre ++ [op] <+: closedEarly → (accepted.run pre).CalmStep op) ∧
          ((accepted.run closedEarly).ends .acceptor).socket.released = some .reset ∧
            ((accepted.run closedEarly).ends .acceptor).socket.written = [] ∧
              ¬ ∀ pre, pre <+: closedEarly → (accepted.run pre).EndsCleanly := by
  have hreset : ((accepted.run closedEarly).ends .acceptor).socket.released = some .reset := by
    decide +kernel
  refine ⟨accepted_begins, by decide, rfl, forall_steps (by decide +kernel), hreset,
    by decide +kernel, fun hends => ?_⟩
  exact (hends closedEarly List.prefix_rfl .acceptor).1 hreset

end World

end Rings.Transport
