import Rings.RelayMemoryLaws

/-!
Runs of the relay's memories: observations and bindings in the order of their clocks, and any
number of restarts.

What an owner announced is answered until its grace is over, however long the directory is silent,
unless it withdrew or was evicted; a restart costs at most the lag of the journal.
-/

namespace Rings.DnsRelay

open Lagged

variable {O E : Type*} [Owner O]

/-- An owner's announcement is not touched: the directory is silent of it, and no observation of
another evicts it. -/
def Relay.Spares (r : Relay O) (o : O) : Step O E → Prop
  | .observe owner observed nowMs =>
    if owner = o then AnnouncementMemory.Silent observed
    else .forget o ∉ (r.announcements.memory.observe owner observed nowMs).2.changes
  | .bind _ _ => True
  | .restart => True

def lastClock : ℕ → List (Step O E) → ℕ
  | clock, [] => clock
  | _, .observe _ _ nowMs :: steps | _, .bind _ nowMs :: steps => lastClock nowMs steps
  | clock, .restart :: steps => lastClock clock steps

omit [Owner O] in
lemma lastClock_cons (clock : ℕ) (step : Step O E) (steps : List (Step O E)) :
    lastClock clock (step :: steps) = lastClock (lastClock clock [step]) steps := by
  cases step <;> rfl

section Runs

variable (json : Json (List Char) MemoryRecord) (bookJson : Json Ipv6Addr BookRecord)

def Relay.Undisturbed (o : O) : Relay O → List (Step O E) → Prop
  | _, [] => True
  | r, step :: steps => r.Spares o step ∧ Undisturbed o (r.step json bookJson step) steps

/-- The journals replay to what the memories hold, at most an eighth of their windows behind. -/
structure Relay.Followed (r : Relay O) : Prop where
  announcements : ∃ journal map, Journal.open_ json r.announcements.file = .ok (journal, map) ∧
    Behind (r.announcements.memory.windows.graceMs / 8) MemoryRecord.of Owner.label
      r.announcements.memory.held map
  addresses : ∃ journal map, Journal.open_ bookJson r.addresses.file = .ok (journal, map) ∧
    Behind (r.addresses.book.retentionMs / 8) BookRecord.of id r.addresses.book.held map

/-- Binding collides exactly at another owner's address and then changes nothing, and else binds;
an address keeps its owner until it is evicted. -/
structure Relay.Binds (E : Type*) (r : Relay O) : Prop where
  collides : ∀ owner now,
    (r.addresses.addressFor bookJson owner now).2 = .error ⟨r.addresses.plan.addressOf owner⟩ ↔
      ∃ other, r.addresses.book.ownerAt (r.addresses.plan.addressOf owner) = some other ∧
        other ≠ owner
  unchanged : ∀ owner now error, (r.addresses.addressFor bookJson owner now).2 = .error error →
    (r.addresses.addressFor bookJson owner now).1 = r.addresses
  bound : ∀ owner now address, (r.addresses.addressFor bookJson owner now).2 = .ok address →
    address = r.addresses.plan.addressOf owner ∧
      (r.addresses.addressFor bookJson owner now).1.book.ownerAt address = some owner
  keeps : ∀ (step : Step O E) address o, r.addresses.book.ownerAt address = some o →
    (r.step json bookJson step).addresses.book.ownerAt address = some o ∨
      ∃ owner now book changes, step = .bind owner now ∧
        r.addresses.book.bind (r.addresses.plan.addressOf owner) owner now = .ok (book, changes) ∧
        .unbind address ∈ changes

/-- A relay of a configuration whose memories and journals are in step. -/
structure Relay.Good (config : Config) (r : Relay O) (clock : ℕ) : Prop where
  announcements : r.announcements.Good json clock
  addresses : r.addresses.Good bookJson
  windows : r.announcements.memory.windows = config.windows
  maxOwners : r.announcements.memory.capacity = config.maxOwners
  plan : r.addresses.plan = config.plan
  retention : r.addresses.book.retentionMs = config.retentionMs
  maxBindings : r.addresses.book.capacity = config.maxBindings

end Runs

namespace Relay

variable {json : Json (List Char) MemoryRecord} {bookJson : Json Ipv6Addr BookRecord}
  {config : Config} {r : Relay O} {clock now : ℕ} {steps : List (Step O E)} {o : O}
  {a : Announcement} {observed : Except E (Option Announcement)}

lemma good_new (json : Json (List Char) MemoryRecord) (bookJson : Json Ipv6Addr BookRecord)
    (config : Config) (clock : ℕ) : (new config : Relay O).Good json bookJson config clock := by
  have hempty : ∀ {K V : Type} [LinearOrder K] (json : Json K V),
      Holds json none BTreeMap.empty .whole := by
    intro K V _ json
    exact ⟨[], by simp [logOf], rfl⟩
  refine ⟨⟨Nat.zero_le _, fun o h hh => (by cases hh), fun o h hh => (by cases hh), ?_⟩,
    ⟨Nat.zero_le _, fun address o ho => (by cases ho), ?_⟩, rfl, rfl, rfl, rfl, rfl⟩
  · exact ⟨BTreeMap.empty, hempty json, mirrors_empty _ _ _⟩
  · exact ⟨BTreeMap.empty, hempty bookJson, mirrors_empty _ _ _⟩

lemma Good.restart (hr : r.Good json bookJson config clock) :
    (r.restart json bookJson).Good json bookJson config clock ∧
      (∀ address, (r.restart json bookJson).addresses.book.ownerAt address =
        r.addresses.book.ownerAt address) ∧
      ∃ map, Reloaded r.announcements.memory.refreshMs MemoryRecord.of Owner.label
        r.announcements.memory.held (r.restart json bookJson).announcements.memory.held map := by
  obtain ⟨announcements, map, hopen, hgood, hwindows, hcap, hreloaded⟩ := hr.announcements.open_
  obtain ⟨addresses, hopen', hgood', hplan, hretention, hcap', howner⟩ := hr.addresses.open_
  have heq : r.restart json bookJson = ⟨announcements, addresses⟩ := by
    simp only [Relay.restart, hopen, hopen']
  rw [heq]
  exact ⟨⟨hgood, hgood', hwindows.trans hr.windows, hcap.trans hr.maxOwners,
    hplan.trans hr.plan, hretention.trans hr.retention, hcap'.trans hr.maxBindings⟩, howner, map,
    hreloaded⟩

/-- A step keeps the memories and their journals in step. -/
lemma Good.step (hr : r.Good json bookJson config clock) (howners : 0 < config.maxOwners)
    (hbindings : 0 < config.maxBindings) {step : Step O E}
    (htimed : Timed clock (step :: steps)) :
    (r.step json bookJson step).Good json bookJson config (lastClock clock [step]) ∧
      Timed (lastClock clock [step]) steps := by
  cases step with
  | observe owner observed now =>
    obtain ⟨hclock, hrest⟩ := htimed
    have hcapacity : 0 < r.announcements.memory.capacity := hr.maxOwners ▸ howners
    obtain ⟨hwindows, hcap⟩ :=
      AnnouncementMemory.room_observe r.announcements.memory owner observed now
    exact ⟨⟨hr.announcements.observe hcapacity hclock owner observed, hr.addresses,
      hwindows.trans hr.windows, hcap.trans hr.maxOwners, hr.plan, hr.retention, hr.maxBindings⟩,
      hrest⟩
  | bind owner now =>
    obtain ⟨hclock, hrest⟩ := htimed
    have hcapacity : 0 < r.addresses.book.capacity := hr.maxBindings ▸ hbindings
    obtain ⟨hgood, hplan, hretention, hcap⟩ := hr.addresses.addressFor hcapacity owner now
    have hannouncements := hr.announcements
    refine ⟨⟨⟨hannouncements.size, hannouncements.announces, fun o h hh => ?_,
      hannouncements.mirrored⟩, hgood, hr.windows, hr.maxOwners, hplan.trans hr.plan,
      hretention.trans hr.retention, hcap.trans hr.maxBindings⟩, hrest⟩
    exact (hannouncements.clock o h hh).trans hclock
  | restart => exact ⟨hr.restart.1, htimed⟩

lemma Good.run (hr : r.Good json bookJson config clock) (howners : 0 < config.maxOwners)
    (hbindings : 0 < config.maxBindings) (htimed : Timed clock steps) :
    (r.run json bookJson steps).Good json bookJson config (lastClock clock steps) := by
  induction steps generalizing r clock with
  | nil => exact hr
  | cons step steps ih =>
    obtain ⟨hstep, hrest⟩ := hr.step howners hbindings htimed
    rw [lastClock_cons]
    exact ih hstep hrest

lemma Good.followed (hr : r.Good json bookJson config clock) : r.Followed json bookJson := by
  obtain ⟨map, hfile, hm⟩ := hr.announcements.mirrored
  obtain ⟨map', hfile', hm'⟩ := hr.addresses.mirrored
  obtain ⟨journal, hopen⟩ := hfile.open_ (by decide)
  obtain ⟨journal', hopen'⟩ := hfile'.open_ (by decide)
  exact ⟨⟨journal, map, hopen, hm.behind⟩, ⟨journal', map', hopen', hm'.behind⟩⟩

lemma Good.binds (hr : r.Good json bookJson config clock) : r.Binds json bookJson E := by
  constructor
  · intro owner now
    rw [← AddressBook.bind_error r.addresses.book _ owner now]
    cases hbind : r.addresses.book.bind (r.addresses.plan.addressOf owner) owner now with
    | error error =>
      rw [AddressRegistry.addressFor_of_error hbind, AddressBook.error_eq hbind]
      exact ⟨fun _ => ⟨_, rfl⟩, fun _ => rfl⟩
    | ok bound =>
      rw [AddressRegistry.addressFor_of_ok hbind]
      constructor
      · intro herror
        cases herror
      · rintro ⟨error, herror⟩
        cases herror
  · intro owner now error herror
    cases hbind : r.addresses.book.bind (r.addresses.plan.addressOf owner) owner now with
    | error error => rw [AddressRegistry.addressFor_of_error hbind]
    | ok bound =>
      rw [AddressRegistry.addressFor_of_ok hbind] at herror
      cases herror
  · intro owner now address hok
    cases hbind : r.addresses.book.bind (r.addresses.plan.addressOf owner) owner now with
    | error error =>
      rw [AddressRegistry.addressFor_of_error hbind] at hok
      cases hok
    | ok bound =>
      rw [AddressRegistry.addressFor_of_ok hbind] at hok ⊢
      cases hok
      exact ⟨rfl, (AddressBook.ownerAt_bind hbind).2 (Or.inl ⟨rfl, rfl⟩)⟩
  · intro step address o ho
    cases step with
    | observe owner observed now => exact Or.inl ho
    | restart =>
      obtain ⟨-, howner, -⟩ := hr.restart
      exact Or.inl ((howner address).trans ho)
    | bind owner now =>
      cases hbind : r.addresses.book.bind (r.addresses.plan.addressOf owner) owner now with
      | error error =>
        left
        rw [Relay.step, AddressRegistry.addressFor_of_error hbind]
        exact ho
      | ok bound =>
        by_cases hgone : .unbind address ∈ bound.2
        · exact Or.inr ⟨owner, now, bound.1, bound.2, rfl, hbind, hgone⟩
        · left
          rw [Relay.step, AddressRegistry.addressFor_of_ok hbind]
          refine (AddressBook.ownerAt_bind hbind).2 ?_
          by_cases haddress : address = r.addresses.plan.addressOf owner
          · -- it is bound to no one else, or the call would collide
            refine Or.inl ⟨haddress, ?_⟩
            by_contra hne
            obtain ⟨error, herror⟩ := (AddressBook.bind_error r.addresses.book _ owner now).2
              ⟨o, haddress ▸ ho, hne⟩
            rw [hbind] at herror
            cases herror
          · exact Or.inr ⟨haddress, hgone, ho⟩

/-! ### The grace period -/

/-- Of `o` the memory holds `a`, seen at `s` or at most the slack before, and as persisted at most
the lag before. -/
def Remembers (r : Relay O) (o : O) (a : Announcement) (s slack : ℕ) : Prop :=
  ∃ h, r.announcements.memory.held o = some h ∧ h.value = a ∧ s ≤ h.movedAt + slack ∧
    s ≤ h.persistedAt + r.announcements.memory.refreshMs

variable {s slack : ℕ} {call : Step O E}

/-- Within the grace period a silent directory leaves the answer to the memory. -/
lemma Remembers.answer (h : r.Remembers o a s slack)
    (hnow : now + slack ≤ s + r.announcements.memory.windows.graceMs)
    (hsilent : AnnouncementMemory.Silent observed) :
    (r.announcements.memory.observe o observed now).1.held = r.announcements.memory.held ∧
      (r.announcements.memory.observe o observed now).2.answer = .ok (some a) := by
  obtain ⟨held, hheld, rfl, hmoved, -⟩ := h
  exact AnnouncementMemory.observe_graced hsilent hheld (by omega)

lemma Good.remembers_seen (hr : r.Good json bookJson config clock) (howners : 0 < config.maxOwners)
    (hclock : clock ≤ s) (ha : a.isEmpty = false) (o : O) (slack : ℕ) :
    (r.step json bookJson (.observe (E := E) o (.ok (some a)) s)).Remembers o a s slack := by
  have hcapacity : 0 < r.announcements.memory.capacity := hr.maxOwners ▸ howners
  obtain ⟨p, hheld⟩ : ∃ p, (r.announcements.memory.observe (E := E) o (.ok (some a)) s).1.held o =
      some ⟨a, s, p⟩ := (AnnouncementMemory.observe_seen ha).1
  have hgood := hr.announcements.observe hcapacity hclock o (.ok (some a) : Except E _)
  obtain ⟨map, -, hm⟩ := hgood.mirrored
  obtain ⟨-, hlag⟩ := hm.instants hheld
  exact ⟨_, hheld, rfl, Nat.le_add_right s slack, hlag⟩

/-- A step that does not touch the announcement leaves it remembered; a restart takes the lag. -/
lemma Remembers.step (h : r.Remembers o a s slack) (hr : r.Good json bookJson config clock)
    (hspares : r.Spares o call)
    (hrestart : call = .restart → slack = r.announcements.memory.refreshMs)
    (hnow : ∀ owner observed now, call = .observe owner observed now →
      now + slack ≤ s + r.announcements.memory.windows.graceMs) :
    (r.step json bookJson call).Remembers o a s slack := by
  cases call with
  | bind owner now => exact h
  | restart =>
    obtain ⟨held, hheld, rfl, hmoved, hpersisted⟩ := h
    obtain ⟨hgood, -, map, hreloaded⟩ := hr.restart
    obtain ⟨t, -, hlive, hle, -⟩ := hreloaded.some o held hheld
    have hrefresh : (r.restart json bookJson).announcements.memory.refreshMs =
        r.announcements.memory.refreshMs := by
      rw [AnnouncementMemory.refreshMs, hgood.windows, ← hr.windows]
      rfl
    refine ⟨_, hlive, rfl, ?_, ?_⟩
    · rw [hrestart rfl]
      change s ≤ t + _
      omega
    · change s ≤ t + (r.restart json bookJson).announcements.memory.refreshMs
      rw [hrefresh]
      omega
  | observe owner observed now =>
    obtain ⟨hwindows, -⟩ :=
      AnnouncementMemory.room_observe r.announcements.memory owner observed now
    have hheld : (r.announcements.memory.observe owner observed now).1.held o =
        r.announcements.memory.held o := by
      rw [Spares] at hspares
      split at hspares
      · rename_i howner
        rw [howner, (h.answer (hnow owner observed now rfl) hspares).1]
      · rename_i howner
        exact AnnouncementMemory.held_observe_other (Ne.symm howner) hspares
    obtain ⟨held, hold, rfl, hmoved, hpersisted⟩ := h
    refine ⟨held, hheld.trans hold, rfl, hmoved, ?_⟩
    change s ≤ held.persistedAt + (r.announcements.memory.observe owner observed now).1.refreshMs
    rw [AnnouncementMemory.refreshMs, hwindows]
    exact hpersisted

omit [Owner O] in
lemma le_of_timed {owner : O} (h : Timed clock (steps ++ [.observe owner observed now])) :
    clock ≤ now := by
  induction steps generalizing clock with
  | nil => exact h.1
  | cons step steps ih =>
    cases step with
    | observe owner observed t => exact h.1.trans (ih h.2)
    | bind owner t => exact h.1.trans (ih h.2)
    | restart => exact ih h

omit [Owner O] in
lemma timed_of_append {rest : List (Step O E)} (h : Timed clock (steps ++ rest)) :
    Timed clock steps := by
  induction steps generalizing clock with
  | nil => trivial
  | cons step steps ih =>
    cases step with
    | observe owner observed t => exact ⟨h.1, ih h.2⟩
    | bind owner t => exact ⟨h.1, ih h.2⟩
    | restart =>
      have htimed : Timed clock (steps ++ rest) := h
      exact ih htimed

/-- A run that does not touch the announcement leaves it remembered, until its last clock. -/
lemma Remembers.run (h : r.Remembers o a s slack) (hr : r.Good json bookJson config clock)
    (howners : 0 < config.maxOwners) (hbindings : 0 < config.maxBindings)
    (hsteps : r.Undisturbed json bookJson o steps)
    (hrestart : .restart ∈ steps → slack = config.windows.graceMs / 8)
    (htimed : Timed clock (steps ++ [.observe o observed now]))
    (hnow : now + slack ≤ s + config.windows.graceMs) :
    (r.run json bookJson steps).Remembers o a s slack := by
  induction steps generalizing r clock with
  | nil => exact h
  | cons step steps ih =>
    obtain ⟨hspares, hrest⟩ := hsteps
    obtain ⟨hgood, htimed'⟩ := hr.step howners hbindings htimed
    refine ih (h.step hr hspares (fun heq => ?_) fun owner observed' t heq => ?_) hgood hrest
      (fun hmem => hrestart (List.mem_cons_of_mem step hmem)) htimed'
    · rw [AnnouncementMemory.refreshMs, hr.windows]
      exact hrestart (heq ▸ List.mem_cons_self)
    · rw [heq] at htimed
      have hle := le_of_timed htimed.2
      rw [hr.windows]
      omega

end Relay

/-- What an owner announced last is answered while the directory is silent: for the grace period
when no restart lies between, and for it less the lag of the journal otherwise. -/
def Relay.Graced (json : Json (List Char) MemoryRecord) (bookJson : Json Ipv6Addr BookRecord)
    (E : Type*) (config : Config) (r : Relay O) (clock : ℕ) : Prop :=
  ∀ (o : O) (a : Announcement) (s : ℕ) (quiet : List (Step O E))
    (observed : Except E (Option Announcement)) (now : ℕ),
    let seen := r.step json bookJson (.observe (E := E) o (.ok (some a)) s)
    a.isEmpty = false → seen.Undisturbed json bookJson o quiet →
    AnnouncementMemory.Silent observed →
    Timed clock (.observe o (.ok (some a)) s :: (quiet ++ [.observe o observed now])) →
    (.restart ∉ quiet ∧ now ≤ s + config.windows.graceMs ∨
      now ≤ s + config.windows.graceMs - config.windows.graceMs / 8) →
    ((seen.run json bookJson quiet).announcements.memory.observe o observed now).2.answer =
      .ok (some a)

lemma Relay.Good.graced {json : Json (List Char) MemoryRecord}
    {bookJson : Json Ipv6Addr BookRecord} {config : Config} {r : Relay O} {clock : ℕ}
    (hr : r.Good json bookJson config clock) (howners : 0 < config.maxOwners)
    (hbindings : 0 < config.maxBindings) : r.Graced json bookJson E config clock := by
  intro o a s quiet observed now seen ha hquiet hsilent htimed hnow
  have hseen : seen.Good json bookJson config s := (hr.step howners hbindings htimed).1
  obtain ⟨hclock, hrest⟩ := htimed
  have hremembers : ∀ slack, seen.Remembers o a s slack :=
    hr.remembers_seen howners hclock ha o
  have hanswer : ∀ slack, (.restart ∈ quiet → slack = config.windows.graceMs / 8) →
      now + slack ≤ s + config.windows.graceMs →
      ((seen.run json bookJson quiet).announcements.memory.observe o observed now).2.answer =
        .ok (some a) := by
    intro slack hrestart hle
    have hkept := (hremembers slack).run hseen howners hbindings hquiet hrestart hrest hle
    have hgood := hseen.run howners hbindings (timed_of_append hrest)
    refine (hkept.answer ?_ hsilent).2
    rw [hgood.windows]
    exact hle
  rcases hnow with ⟨hnone, hle⟩ | hle
  · exact hanswer 0 (fun hmem => absurd hmem hnone) hle
  · refine hanswer (config.windows.graceMs / 8) (fun _ => rfl) ?_
    have hlag : config.windows.graceMs / 8 ≤ config.windows.graceMs := Nat.div_le_self _ _
    omega

/-- **The memories equal their persisted form up to the lag.** -/
theorem memories_follow (json : Json (List Char) MemoryRecord)
    (bookJson : Json Ipv6Addr BookRecord) (config : Config) (howners : 1 ≤ config.maxOwners)
    (hbindings : 1 ≤ config.maxBindings) (clock : ℕ) (steps : List (Step O E))
    (htimed : Timed clock steps) :
    let r : Relay O := (Relay.new config).run json bookJson steps
    r.Followed json bookJson ∧ r.announcements.memory.len ≤ config.maxOwners ∧
      r.addresses.book.len ≤ config.maxBindings ∧ r.Binds json bookJson E ∧
      r.Graced json bookJson E config (lastClock clock steps) := by
  intro r
  have hr : r.Good json bookJson config (lastClock clock steps) :=
    (Relay.good_new json bookJson config clock).run howners hbindings htimed
  refine ⟨hr.followed, ?_, ?_, hr.binds, hr.graced howners hbindings⟩
  · rw [← hr.maxOwners]
    exact hr.announcements.size
  · rw [← hr.maxBindings]
    exact hr.addresses.size

/-! ### A relay of two owners -/

section Numbered

variable {K V : Type*}

open Classical in
/-- The text of one record, and a numbered text of every other. -/
noncomputable def numberedText (number : Record K V → ℕ) (written : Record K V)
    (text : List Char) (r : Record K V) : List Char :=
  if r = written then text else '#' :: (List.replicate (number r) '.' ++ ['!'])

lemma eq_of_replicate {m n : ℕ}
    (h : List.replicate m '.' ++ ['!'] <+: List.replicate n '.' ++ ['!']) : m = n := by
  induction m generalizing n with
  | zero =>
    cases n with
    | zero => rfl
    | succ n =>
      rw [List.replicate_succ, List.cons_append] at h
      simp at h
  | succ m ih =>
    cases n with
    | zero =>
      rw [List.replicate_succ, List.cons_append] at h
      simp at h
    | succ n =>
      rw [List.replicate_succ, List.replicate_succ, List.cons_append, List.cons_append,
        List.cons_prefix_cons] at h
      rw [ih h.2]

variable {number : Record K V → ℕ} {written r r' : Record K V} {text : List Char}

lemma record_of_numberedText (hnumber : Function.Injective number) (hhead : text.head? = some '\x7b')
    (h : numberedText number written text r' <+: numberedText number written text r) : r' = r := by
  obtain ⟨rest, htext⟩ := List.head?_eq_some_iff.1 hhead
  rw [numberedText, numberedText] at h
  split at h
  · rename_i hr'
    split at h
    · rename_i hr
      rw [hr', hr]
    · rw [htext, List.cons_prefix_cons] at h
      exact absurd h.1 (by decide)
  · split at h
    · rw [htext, List.cons_prefix_cons] at h
      exact absurd h.1 (by decide)
    · rw [List.cons_prefix_cons] at h
      exact hnumber (eq_of_replicate h.2)

lemma notMem_numberedText {c : Char} (hc : c ∉ text) (hne : c ∉ ['#', '.', '!'])
    (r : Record K V) : c ∉ numberedText number written text r := by
  rw [numberedText]
  split
  · exact hc
  · simp only [List.mem_cons, List.not_mem_nil, or_false, not_or] at hne
    simp only [List.mem_cons, List.mem_append, List.mem_replicate, List.not_mem_nil, or_false,
      not_or, not_and]
    exact ⟨hne.1, fun _ => hne.2.1, hne.2.2⟩

open Classical in
noncomputable def numberedJson (number : Record K V → ℕ) (hnumber : Function.Injective number)
    (written : Record K V) (text : List Char) (hhead : text.head? = some '\x7b')
    (hnewline : '\n' ∉ text) (hreturn : '\r' ∉ text) : Json K V where
  toString := numberedText number written text
  fromStr line := if h : ∃ r, numberedText number written text r = line then some h.choose else none
  fromStr_toString r := by
    have hex : ∃ r', numberedText number written text r' = numberedText number written text r :=
      ⟨r, rfl⟩
    have hbegins : numberedText number written text hex.choose <+:
        numberedText number written text r := by
      rw [hex.choose_spec]
    rw [dif_pos hex]
    exact congrArg some (record_of_numberedText hnumber hhead hbegins)
  newline r := notMem_numberedText hnewline (by decide) r
  carriageReturn r := notMem_numberedText hreturn (by decide) r
  torn r t ht hne := by
    refine dif_neg ?_
    rintro ⟨r', rfl⟩
    exact hne (congrArg _ (record_of_numberedText hnumber hhead ht))

end Numbered

/-- The owners `o0` and `o1`. -/
instance owner_bool : Owner Bool where
  fromLabel l := if l = ['o', '0'] then some false else if l = ['o', '1'] then some true else none
  label o := if o then ['o', '1'] else ['o', '0']
  fromLabel_label o := by cases o <;> rfl
  label_fromLabel l o h := by
    split at h
    · rename_i hl
      cases h
      exact hl.symm
    · split at h
      · rename_i hl
        cases h
        exact hl.symm
      · cases h

lemma countable_char : Countable Char :=
  Function.Injective.countable (f := Char.toNat) fun _ _ h => Char.ext (UInt32.toNat_inj.1 h)

def Record.parts {K V : Type*} : Record K V → K × Option V
  | .put key value => (key, some value)
  | .remove key => (key, none)

/-- Records are countable when their keys and values are. -/
lemma countable_record {K V : Type*} [Countable K] [Countable V] : Countable (Record K V) := by
  refine Function.Injective.countable (f := Record.parts) ?_
  rintro (⟨k, v⟩ | k) (⟨k', v'⟩ | k') h <;> simp_all [Record.parts]

lemma countable_memoryRecord : Countable MemoryRecord := by
  have hchar := countable_char
  have hproxy : Countable ProxyProtocol := by
    refine Function.Injective.countable (f := fun p => decide (p = ProxyProtocol.off)) ?_
    rintro (_ | _) (_ | _) h <;> simp_all
  refine Function.Injective.countable (f := fun r : MemoryRecord => (r.ports, r.txt, r.seenAtMs)) ?_
  rintro ⟨p, t, s⟩ ⟨p', t', s'⟩ h
  simpa using h

lemma countable_bookRecord : Countable BookRecord := by
  have hchar := countable_char
  refine Function.Injective.countable (f := fun r : BookRecord => (r.owner, r.answeredAtMs)) ?_
  rintro ⟨o, t⟩ ⟨o', t'⟩ h
  simpa using h

def mailAnnouncement : Announcement where
  ports := BTreeMap.empty.insert ⟨⟨25, by decide⟩, by decide⟩ .off
  txt := BTreeMap.empty
  ports_le := by decide
  txt_le := by decide
  values name v h := by cases h

def twoOwners : Config where
  windows := ⟨30000, 86400000⟩
  maxOwners := 1
  plan := ⟨⟨0, by decide⟩, ⟨1, by decide⟩, fun _ => ⟨1, by decide⟩⟩
  retentionMs := 86400000
  maxBindings := 1

/-- The owner `o0` is seen and its address answered; after a restart the directory is silent. -/
def silentRun : List (Step Bool String) :=
  [.observe false (.ok (some mailAnnouncement)) 5, .bind false 6, .restart,
    .observe false (.ok none) 40000]

def mailText : List Char :=
  "\x7b\"Put\":[\"o0\",\x7b\"ports\":[[25,\"off\"]],\"txt\":[],\"seen_at_ms\":5\x7d]\x7d".toList

def addressText : List Char :=
  "\x7b\"Put\":[\"::1\",\x7b\"owner\":\"o0\",\"answered_at_ms\":6\x7d]\x7d".toList

theorem memories_follow_silent : ∃ (json : Json (List Char) MemoryRecord)
    (bookJson : Json Ipv6Addr BookRecord),
    json.toString (.put ['o', '0'] (.of mailAnnouncement 5)) = mailText ∧
    bookJson.toString (.put ⟨1, by decide⟩ (.of false 6)) = addressText ∧
    let r : Relay Bool := (Relay.new twoOwners).run json bookJson silentRun
    r.Followed json bookJson ∧ r.announcements.memory.len ≤ 1 ∧
      r.addresses.book.len ≤ 1 ∧ r.Binds json bookJson String ∧
      r.Graced json bookJson String twoOwners 40000 := by
  have hchar := countable_char
  have hmemory := countable_memoryRecord
  have hbook := countable_bookRecord
  have hrecords : Countable (Record (List Char) MemoryRecord) := countable_record
  have hbindings : Countable (Record Ipv6Addr BookRecord) := countable_record
  obtain ⟨number, hnumber⟩ := hrecords.exists_injective_nat
  obtain ⟨number', hnumber'⟩ := hbindings.exists_injective_nat
  refine ⟨numberedJson number hnumber (.put ['o', '0'] (.of mailAnnouncement 5)) mailText rfl
    (by decide) (by decide), numberedJson number' hnumber' (.put ⟨1, by decide⟩ (.of false 6))
    addressText rfl (by decide) (by decide), if_pos rfl, if_pos rfl, ?_⟩
  exact memories_follow _ _ twoOwners (by decide) (by decide) 0 silentRun
    ⟨by decide, by decide, by decide, trivial⟩

end Rings.DnsRelay
