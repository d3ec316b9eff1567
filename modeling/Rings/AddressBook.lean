import Rings.Announcement
import Rings.Eviction
import Rings.LaggedMirror

/-!
The relay's address map: an owner's address is a keyed hash of its label in the prefix, and the
book holds which owner each answered address belongs to.

An address bound to one owner is not bound to another while its binding lasts. A full book forgets
the bindings past their retention, then the one answered longest ago.
-/

namespace Rings.DnsRelay

open Lagged

/-- An address, as its 128 bits. -/
abbrev Ipv6Addr := Fin (2 ^ 128)

/-- The address map of one relay: the prefix as its network and its host mask, and the first
sixteen bytes of the hash of a label under the key. -/
structure AddressPlan where
  network : Ipv6Addr
  hostmask : Ipv6Addr
  mac : List Char → Ipv6Addr

def AddressPlan.addressOf {O : Type*} [Owner O] (plan : AddressPlan) (owner : O) : Ipv6Addr :=
  plan.network ||| (plan.mac (Owner.label owner) &&& plan.hostmask)

structure AddressCollision where
  address : Ipv6Addr

inductive BookChange (O : Type*)
  | bind (address : Ipv6Addr) (owner : O) (answeredAtMs : ℕ)
  | unbind (address : Ipv6Addr)

/-- One binding of the book; `persistedAtMs` is the answer time the persisted book holds. -/
structure Binding (O : Type*) where
  owner : O
  answeredAtMs : ℕ
  persistedAtMs : ℕ

/-- A change made in a map of records. -/
def BookChange.apply {O R : Type*} (record : O → ℕ → R) (map : BTreeMap Ipv6Addr R) :
    BookChange O → BTreeMap Ipv6Addr R
  | .bind address owner answeredAtMs => map.insert address (record owner answeredAtMs)
  | .unbind address => map.remove address

structure AddressBook (O : Type*) [Owner O] where
  bindings : BTreeMap Ipv6Addr (Binding O)
  retentionMs : ℕ
  capacity : ℕ

namespace AddressBook

variable {O : Type*} [Owner O]

def new (retentionMs capacity : ℕ) : AddressBook O := ⟨BTreeMap.empty, retentionMs, capacity⟩

/-- The loop over the persisted bindings: of two at one address the first stands. -/
def collect (bindings : List (Ipv6Addr × O × ℕ)) : BTreeMap Ipv6Addr (Binding O) :=
  bindings.foldl (fun m b => if (m.get? b.1).isSome then m
    else m.insert b.1 ⟨b.2.1, b.2.2, b.2.2⟩) BTreeMap.empty

def restore (retentionMs capacity : ℕ) (bindings : List (Ipv6Addr × O × ℕ)) : AddressBook O :=
  let collected := collect bindings
  let excess := collected.size - capacity
  let byAge := (collected.entries.map fun kv => toLex (kv.2.answeredAtMs, kv.1)).mergeSort (· ≤ ·)
  ⟨((byAge.take excess).map fun aged => (ofLex aged).2).foldl BTreeMap.remove collected,
    retentionMs, capacity⟩

def refreshMs (book : AddressBook O) : ℕ := book.retentionMs / 8

/-- Make room for one more binding: forget the bindings past their retention, then, while the book
is full, the one answered longest ago. -/
def makeRoom (book : AddressBook O) (nowMs : ℕ) : AddressBook O × List (BookChange O) :=
  let horizon := nowMs - book.retentionMs
  let left := book.bindings.makeRoom (fun kv => kv.2.answeredAtMs < horizon)
    (fun kv => kv.2.answeredAtMs) book.capacity
  ({ book with bindings := left.1 }, left.2.map fun kv => .unbind kv.1)

/-- Bind `address` to `owner`; the changes to persist. -/
def bind (book : AddressBook O) (address : Ipv6Addr) (owner : O) (nowMs : ℕ) :
    Except AddressCollision (AddressBook O × List (BookChange O)) :=
  match book.bindings.get? address with
  | some binding =>
    if binding.owner ≠ owner then .error ⟨address⟩
    else
      let answeredAtMs := max binding.answeredAtMs nowMs
      if answeredAtMs - binding.persistedAtMs ≤ book.refreshMs then
        .ok ({ book with
          bindings := book.bindings.insert address { binding with answeredAtMs } }, [])
      else
        .ok ({ book with
          bindings := book.bindings.insert address
            { binding with answeredAtMs, persistedAtMs := answeredAtMs } },
          [.bind address owner answeredAtMs])
  | none =>
    let room := book.makeRoom nowMs
    .ok ({ room.1 with bindings := room.1.bindings.insert address ⟨owner, nowMs, nowMs⟩ },
      room.2 ++ [.bind address owner nowMs])

/-- The owner `address` is bound to. -/
def ownerAt (book : AddressBook O) (address : Ipv6Addr) : Option O :=
  (book.bindings.get? address).map Binding.owner

/-- The bindings, with their answer times. -/
def entries (book : AddressBook O) : List (Ipv6Addr × O × ℕ) :=
  book.bindings.entries.map fun kv => (kv.1, kv.2.owner, kv.2.answeredAtMs)

def len (book : AddressBook O) : ℕ := book.bindings.size

/-! ### What is held -/

def held (book : AddressBook O) (address : Ipv6Addr) : Option (Held O) :=
  (book.bindings.get? address).map fun b => ⟨b.owner, b.answeredAtMs, b.persistedAtMs⟩

variable {book book' : AddressBook O} {address k : Ipv6Addr} {owner : O} {now : ℕ} {h : Held O}
  {changes : List (BookChange O)} {error : AddressCollision}

lemma ownerAt_eq (book : AddressBook O) (address : Ipv6Addr) :
    book.ownerAt address = (book.held address).map Held.value := by
  rw [ownerAt, held, Option.map_map]
  rfl

lemma held_insert (book : AddressBook O) (address k : Ipv6Addr) (b : Binding O) :
    ({ book with bindings := book.bindings.insert address b } : AddressBook O).held k =
      if k = address then some ⟨b.owner, b.answeredAtMs, b.persistedAtMs⟩ else book.held k := by
  rw [held, BTreeMap.get?_insert]
  split <;> rfl

lemma binding_of_held (hh : book.held address = some h) :
    book.bindings.get? address = some ⟨h.value, h.movedAt, h.persistedAt⟩ := by
  obtain ⟨b, hb, rfl⟩ := Option.map_eq_some_iff.1 hh
  exact hb

/-- `book'` is the book without the addresses `gone`. -/
structure Room (book book' : AddressBook O) (gone : List Ipv6Addr) : Prop where
  retention : book'.retentionMs = book.retentionMs
  capacity : book'.capacity = book.capacity
  lost : ∀ k ∈ gone, book'.held k = none
  kept : ∀ k ∉ gone, book'.held k = book.held k
  wasHeld : ∀ k ∈ gone, book.held k ≠ none

lemma room_makeRoom (book : AddressBook O) (now : ℕ) : ∃ gone,
    Room book (book.makeRoom now).1 gone ∧ (book.makeRoom now).2 = gone.map .unbind := by
  obtain ⟨left, hdef⟩ : ∃ left, left = book.bindings.makeRoom
      (fun kv => decide (kv.2.answeredAtMs < now - book.retentionMs))
      (fun kv => kv.2.answeredAtMs) book.capacity := ⟨_, rfl⟩
  have hleft : book.bindings.Without left.1 left.2 := by
    rw [hdef]
    exact BTreeMap.without_makeRoom _ _ _ _
  have hroom : book.makeRoom now =
      ({ book with bindings := left.1 }, left.2.map fun kv => .unbind kv.1) := by
    rw [makeRoom, ← hdef]
  rw [hroom]
  refine ⟨left.2.map Prod.fst, ⟨rfl, rfl, fun k hk => ?_, fun k hk => ?_, fun k hk => ?_⟩, ?_⟩
  · rw [held, hleft.get?, if_pos hk]
    rfl
  · rw [held, hleft.get?, if_neg hk]
    rfl
  · obtain ⟨kv, hkv, rfl⟩ := List.mem_map.1 hk
    rw [held, hleft.held kv hkv]
    exact Option.some_ne_none _
  · rw [List.map_map]
    rfl

/-! ### What binding does -/

/-- A binding is refused, or an owner's own moves, or a new one is made. -/
lemma bind_cases (book : AddressBook O) (address : Ipv6Addr) (owner : O) (now : ℕ) :
    (∃ h, book.held address = some h ∧ h.value ≠ owner ∧
      book.bind address owner now = .error ⟨address⟩) ∨
    (∃ h, book.held address = some h ∧ h.value = owner ∧
      max h.movedAt now ≤ h.persistedAt + book.refreshMs ∧
      book.bind address owner now = .ok ({ book with
        bindings := book.bindings.insert address ⟨owner, max h.movedAt now, h.persistedAt⟩ }, [])) ∨
    (∃ h, book.held address = some h ∧ h.value = owner ∧
      book.bind address owner now = .ok ({ book with
        bindings := book.bindings.insert address
          ⟨owner, max h.movedAt now, max h.movedAt now⟩ },
        [.bind address owner (max h.movedAt now)])) ∨
    (book.held address = none ∧ book.bind address owner now = .ok
      ({ (book.makeRoom now).1 with
          bindings := (book.makeRoom now).1.bindings.insert address ⟨owner, now, now⟩ },
        (book.makeRoom now).2 ++ [.bind address owner now])) := by
  rw [bind, held]
  cases hget : book.bindings.get? address with
  | none => exact Or.inr (Or.inr (Or.inr ⟨rfl, rfl⟩))
  | some b =>
    by_cases howner : b.owner = owner
    · by_cases hlag : max b.answeredAtMs now - b.persistedAtMs ≤ book.refreshMs
      · refine Or.inr (Or.inl ⟨⟨b.owner, b.answeredAtMs, b.persistedAtMs⟩, rfl, howner, ?_, ?_⟩)
        · change max b.answeredAtMs now ≤ b.persistedAtMs + book.refreshMs
          omega
        · simp only [howner, ne_eq, not_true, if_false, if_pos hlag]
      · refine Or.inr (Or.inr (Or.inl
          ⟨⟨b.owner, b.answeredAtMs, b.persistedAtMs⟩, rfl, howner, ?_⟩))
        simp only [howner, ne_eq, not_true, if_false, if_neg hlag]
    · refine Or.inl ⟨⟨b.owner, b.answeredAtMs, b.persistedAtMs⟩, rfl, howner, ?_⟩
      simp only [ne_eq, howner, not_false_eq_true, if_true]

/-- Binding collides exactly at the address of another owner. -/
lemma bind_error (book : AddressBook O) (address : Ipv6Addr) (owner : O) (now : ℕ) :
    (∃ error, book.bind address owner now = .error error) ↔
    ∃ other, book.ownerAt address = some other ∧ other ≠ owner := by
  rw [ownerAt_eq]
  rcases book.bind_cases address owner now with ⟨h, hh, hne, heq⟩ | ⟨h, hh, howner, -, heq⟩ |
    ⟨h, hh, howner, heq⟩ | ⟨hh, heq⟩
  · rw [heq, hh]
    exact ⟨fun _ => ⟨h.value, rfl, hne⟩, fun _ => ⟨_, rfl⟩⟩
  · rw [heq, hh]
    constructor
    · rintro ⟨error, herror⟩
      cases herror
    · rintro ⟨other, hother, hne⟩
      exact absurd ((Option.some.inj hother).symm.trans howner) hne
  · rw [heq, hh]
    constructor
    · rintro ⟨error, herror⟩
      cases herror
    · rintro ⟨other, hother, hne⟩
      exact absurd ((Option.some.inj hother).symm.trans howner) hne
  · rw [heq, hh]
    constructor
    · rintro ⟨error, herror⟩
      cases herror
    · rintro ⟨other, hother, -⟩
      cases hother

lemma error_eq (h : book.bind address owner now = .error error) : error = ⟨address⟩ := by
  rcases book.bind_cases address owner now with ⟨h', -, -, heq⟩ | ⟨h', -, -, -, heq⟩ |
    ⟨h', -, -, heq⟩ | ⟨-, heq⟩
  · rw [heq] at h
    cases h
    rfl
  all_goals
    rw [heq] at h
    cases h

lemma windows_bind (h : book.bind address owner now = .ok (book', changes)) :
    book'.retentionMs = book.retentionMs ∧ book'.capacity = book.capacity := by
  obtain ⟨gone, hroom, -⟩ := room_makeRoom book now
  rcases book.bind_cases address owner now with ⟨h', -, -, heq⟩ | ⟨h', -, -, -, heq⟩ |
    ⟨h', -, -, heq⟩ | ⟨-, heq⟩
  · rw [heq] at h
    cases h
  · rw [heq] at h
    cases h
    exact ⟨rfl, rfl⟩
  · rw [heq] at h
    cases h
    exact ⟨rfl, rfl⟩
  · rw [heq] at h
    cases h
    exact ⟨hroom.retention, hroom.capacity⟩

lemma size_bind (hcapacity : 0 < book.capacity) (hsize : book.bindings.size ≤ book.capacity)
    (h : book.bind address owner now = .ok (book', changes)) :
    book'.bindings.size ≤ book.capacity := by
  have hstays : ∀ {h'} b, book.held address = some h' →
      (book.bindings.insert address b).size ≤ book.capacity := by
    intro h' b hh
    rw [BTreeMap.size_insert, binding_of_held hh]
    exact hsize
  rcases book.bind_cases address owner now with ⟨h', -, -, heq⟩ | ⟨h', hh, -, -, heq⟩ |
    ⟨h', hh, -, heq⟩ | ⟨-, heq⟩
  · rw [heq] at h
    cases h
  · rw [heq] at h
    cases h
    exact hstays _ hh
  · rw [heq] at h
    cases h
    exact hstays _ hh
  · rw [heq] at h
    cases h
    have hlt : (book.makeRoom now).1.bindings.size < book.capacity :=
      BTreeMap.size_makeRoom_lt hcapacity _ _ _
    change ((book.makeRoom now).1.bindings.insert address _).size ≤ book.capacity
    rw [BTreeMap.size_insert]
    split <;> omega

/-- The owner of an address after a binding had it before, or is the one bound. -/
lemma ownerAt_bind {o : O} (hbind : book.bind address owner now = .ok (book', changes)) :
    book'.ownerAt k = some o ↔ (k = address ∧ o = owner) ∨
      k ≠ address ∧ .unbind k ∉ changes ∧ book.ownerAt k = some o := by
  have hset : ∀ (b : AddressBook O) (t p : ℕ), ({ b with
      bindings := b.bindings.insert address ⟨owner, t, p⟩ } : AddressBook O).ownerAt k =
        if k = address then some owner else b.ownerAt k := by
    intro b t p
    rw [ownerAt_eq, held_insert, ownerAt_eq]
    split <;> rfl
  have hiff : ∀ (b : AddressBook O), (k ≠ address → (b.ownerAt k = some o ↔
      .unbind k ∉ changes ∧ book.ownerAt k = some o)) →
      ((if k = address then some owner else b.ownerAt k) = some o ↔ (k = address ∧ o = owner) ∨
        k ≠ address ∧ .unbind k ∉ changes ∧ book.ownerAt k = some o) := by
    intro b hb
    by_cases hk : k = address
    · rw [if_pos hk, Option.some.injEq]
      simp [hk, eq_comm]
    · rw [if_neg hk, hb hk]
      simp [hk]
  rcases book.bind_cases address owner now with ⟨h, -, -, heq⟩ | ⟨h, -, -, -, heq⟩ |
    ⟨h, -, -, heq⟩ | ⟨-, heq⟩
  · rw [heq] at hbind
    cases hbind
  · rw [heq] at hbind
    cases hbind
    rw [hset]
    exact hiff book fun _ => by simp
  · rw [heq] at hbind
    cases hbind
    rw [hset]
    exact hiff book fun _ => by simp
  · obtain ⟨gone, hroom, hchanges⟩ := room_makeRoom book now
    rw [heq] at hbind
    cases hbind
    rw [hset]
    refine hiff _ fun _ => ?_
    have hmem : .unbind k ∈ (book.makeRoom now).2 ++ [BookChange.bind address owner now] ↔
        k ∈ gone := by
      simp [hchanges]
    rw [hmem, ownerAt_eq, ownerAt_eq]
    by_cases hgone : k ∈ gone
    · rw [hroom.lost k hgone]
      simp [hgone]
    · rw [hroom.kept k hgone]
      simp [hgone]

/-! ### The persisted form follows -/

section Persisted

variable {R : Type*} {record : O → ℕ → R} {map : BTreeMap Ipv6Addr R}

omit [Owner O] in
lemma foldl_unbind (record : O → ℕ → R) (gone : List Ipv6Addr) (map : BTreeMap Ipv6Addr R) :
    (gone.map BookChange.unbind).foldl (BookChange.apply record) map =
      (gone.map id).foldl BTreeMap.remove map := by
  rw [List.foldl_map, List.foldl_map]
  rfl

/-- The persisted form follows a binding by its changes. -/
lemma mirrors_bind (hm : Mirrors book.refreshMs record id book.held map)
    (h : book.bind address owner now = .ok (book', changes)) :
    Mirrors book.refreshMs record id book'.held
      (changes.foldl (BookChange.apply record) map) := by
  have hset : ∀ (b : AddressBook O) (t p : ℕ), (({ b with
      bindings := b.bindings.insert address ⟨owner, t, p⟩ } : AddressBook O).held address =
        some ⟨owner, t, p⟩) ∧ ∀ j, j ≠ address → ({ b with
          bindings := b.bindings.insert address ⟨owner, t, p⟩ } : AddressBook O).held j =
            b.held j := by
    refine fun b t p => ⟨?_, fun j hj => ?_⟩
    · rw [held_insert, if_pos rfl]
    · rw [held_insert, if_neg hj]
  rcases book.bind_cases address owner now with ⟨h', -, -, heq⟩ | ⟨h', hh, howner, hlag, heq⟩ |
    ⟨h', -, -, heq⟩ | ⟨-, heq⟩
  · rw [heq] at h
    cases h
  · rw [heq] at h
    cases h
    refine hm.touch hh ?_ ?_ ?_ ?_ (hset book _ _).1 (hset book _ _).2
    · exact howner.symm
    · rfl
    · exact le_max_left _ _
    · exact hlag
  · rw [heq] at h
    cases h
    exact hm.insert Function.injective_id (hset book _ _).1 (hset book _ _).2
  · obtain ⟨gone, hroom, hchanges⟩ := room_makeRoom book now
    rw [heq] at h
    cases h
    have hrest := hm.removeAll Function.injective_id gone hroom.lost hroom.kept
    rw [List.foldl_append, hchanges, foldl_unbind]
    exact hrest.insert Function.injective_id (hset _ _ _).1 (hset _ _ _).2

end Persisted

/-! ### What is restored -/

lemma mem_entries {r : Ipv6Addr × O × ℕ} : r ∈ book.entries ↔
    ∃ p, book.held r.1 = some ⟨r.2.1, r.2.2, p⟩ := by
  obtain ⟨k, o, t⟩ := r
  rw [entries, List.mem_map]
  constructor
  · rintro ⟨⟨k', b⟩, hmem, heq⟩
    cases heq
    refine ⟨b.persistedAtMs, ?_⟩
    rw [held, (BTreeMap.mem_entries _).1 hmem]
    rfl
  · rintro ⟨p, hheld⟩
    exact ⟨(k, ⟨o, t, p⟩), (BTreeMap.mem_entries _).2 (binding_of_held hheld), rfl⟩

def restored (b : Ipv6Addr × O × ℕ) : Ipv6Addr × Binding O := (b.1, ⟨b.2.1, b.2.2, b.2.2⟩)

omit [Owner O] in
lemma collect_eq {l : List (Ipv6Addr × O × ℕ)} (hl : (l.map Prod.fst).Nodup) :
    collect l = (l.map restored).foldl (fun m kv => m.insert kv.1 kv.2) BTreeMap.empty := by
  have hfold : ∀ (l : List (Ipv6Addr × O × ℕ)) (m : BTreeMap Ipv6Addr (Binding O)),
      (l.map Prod.fst).Nodup → (∀ b ∈ l, m.get? b.1 = none) →
      l.foldl (fun m b => if (m.get? b.1).isSome then m
        else m.insert b.1 ⟨b.2.1, b.2.2, b.2.2⟩) m =
        (l.map restored).foldl (fun m kv => m.insert kv.1 kv.2) m := by
    intro l
    induction l with
    | nil => exact fun m _ _ => rfl
    | cons b l ih =>
      intro m hl hfresh
      rw [List.map_cons, List.nodup_cons] at hl
      have hnone : ¬(m.get? b.1).isSome := by
        rw [hfresh b List.mem_cons_self]
        simp
      rw [List.foldl_cons, if_neg hnone, List.map_cons, List.foldl_cons]
      refine ih _ hl.2 fun c hc => ?_
      have hne : c.1 ≠ b.1 := fun h => hl.1 (List.mem_map.2 ⟨c, hc, h⟩)
      rw [BTreeMap.get?_insert, if_neg hne]
      exact hfresh c (List.mem_cons_of_mem b hc)
  exact hfold l BTreeMap.empty hl fun b _ => BTreeMap.get?_empty b.1

omit [Owner O] in
lemma size_collect (l : List (Ipv6Addr × O × ℕ)) : (collect l).size ≤ l.length := by
  have hfold : ∀ (l : List (Ipv6Addr × O × ℕ)) (m : BTreeMap Ipv6Addr (Binding O)),
      (l.foldl (fun m b => if (m.get? b.1).isSome then m
        else m.insert b.1 ⟨b.2.1, b.2.2, b.2.2⟩) m).size ≤ m.size + l.length := by
    intro l
    induction l with
    | nil => exact fun m => le_rfl
    | cons b l ih =>
      intro m
      rw [List.foldl_cons, List.length_cons]
      refine (ih _).trans ?_
      split
      · omega
      · rw [BTreeMap.size_insert]
        split <;> omega
  have hempty : (BTreeMap.empty : BTreeMap Ipv6Addr (Binding O)).size = 0 := rfl
  refine (hfold l BTreeMap.empty).trans ?_
  rw [hempty, Nat.zero_add]

/-- A book is restored from any list of distinct addresses within its capacity. -/
lemma held_restore {l : List (Ipv6Addr × O × ℕ)} (hl : (l.map Prod.fst).Nodup) {capacity : ℕ}
    (hlen : l.length ≤ capacity) (retention : ℕ) :
    (restore retention capacity l).held k = some h ↔ ∃ o t, (k, o, t) ∈ l ∧ h = ⟨o, t, t⟩ := by
  have hexcess : (collect l).size - capacity = 0 :=
    Nat.sub_eq_zero_of_le ((size_collect l).trans hlen)
  have hbindings : (restore retention capacity l).bindings = collect l := by
    simp only [restore, hexcess, List.take_zero, List.map_nil, List.foldl_nil]
  have hnodup : ((l.map restored).map Prod.fst).Nodup := by
    have hkeys : (l.map restored).map Prod.fst = l.map Prod.fst := by
      rw [List.map_map]
      rfl
    rw [hkeys]
    exact hl
  have hget : (restore retention capacity l).bindings.get? k = (l.map restored).lookup k := by
    rw [hbindings, collect_eq hl, BTreeMap.get?_foldl_insert hnodup, BTreeMap.get?_empty,
      Option.or_none]
  rw [held, hget, Option.map_eq_some_iff]
  constructor
  · rintro ⟨b, hb, rfl⟩
    obtain ⟨⟨k', o, t⟩, hmem, heq⟩ := List.mem_map.1 ((lookup_eq_some_iff hnodup).1 hb)
    cases heq
    exact ⟨o, t, hmem, rfl⟩
  · rintro ⟨o, t, hmem, rfl⟩
    refine ⟨(restored (k, o, t)).2, ?_, rfl⟩
    rw [lookup_eq_some_iff hnodup]
    exact List.mem_map_of_mem (f := restored) hmem

lemma size_restore {l : List (Ipv6Addr × O × ℕ)} {capacity : ℕ} (hlen : l.length ≤ capacity)
    (retention : ℕ) : (restore retention capacity l).bindings.size ≤ capacity := by
  have hexcess : (collect l).size - capacity = 0 :=
    Nat.sub_eq_zero_of_le ((size_collect l).trans hlen)
  have hbindings : (restore retention capacity l).bindings = collect l := by
    simp only [restore, hexcess, List.take_zero, List.map_nil, List.foldl_nil]
  rw [hbindings]
  exact (size_collect l).trans hlen

end AddressBook

end Rings.DnsRelay
