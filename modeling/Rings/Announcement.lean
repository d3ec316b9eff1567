import Mathlib.Data.Char
import Mathlib.Data.List.Lex
import Rings.BTreeMap
import Rings.Did
import Rings.TextLines

/-!
What an owner announces through the relay: the ports it serves, each with how its service learns
a connection's origin, and the TXT records it publishes under its name.

An announcement is made by validating it, so it meets every bound, and its record in a journal
validates to it again.
-/

namespace Rings.DnsRelay

open TextLines

/-- The identity a relayed name denotes: its label names it, and no other label does. -/
class Owner (O : Type*) extends LinearOrder O where
  fromLabel : List Char → Option O
  label : O → List Char
  fromLabel_label : ∀ o, fromLabel (label o) = some o
  label_fromLabel : ∀ l o, fromLabel l = some o → label o = l

lemma label_injective {O : Type*} [Owner O] : Function.Injective (Owner.label : O → List Char) :=
  fun o o' h => Option.some.inj (by rw [← Owner.fromLabel_label, h, Owner.fromLabel_label])

def maxServedPorts : ℕ := 32
def maxTxtNames : ℕ := 8
def maxTxtValues : ℕ := 4
def maxTxtValueLen : ℕ := 255
def maxSubNameLabels : ℕ := 4
def maxLabelLen : ℕ := 63

/-- Why an announcement, or one of its parts, is malformed. -/
inductive AnnouncementError
  | txtValue (len : ℕ)
  | subName (name : List Char)
  | portZero
  | duplicatePort (port : ℕ)
  | tooManyPorts (count : ℕ)
  | tooManyTxtNames (count : ℕ)
  | txtValueCount (name : List Char) (count : ℕ)
  | duplicateTxtName (name : List Char)
deriving DecidableEq

/-- How the ingress tells a served port's service where a connection came from. -/
inductive ProxyProtocol
  | off | v2
deriving DecidableEq

/-! ### Values, names and ports -/

/-- One TXT record's text: a single DNS character-string. -/
def TxtValue := { value : List Char // (bytesOf value).size ≤ maxTxtValueLen }

instance decidableEq_txtValue : DecidableEq TxtValue :=
  inferInstanceAs (DecidableEq { value : List Char // (bytesOf value).size ≤ maxTxtValueLen })

def TxtValue.new (value : List Char) : Except AnnouncementError TxtValue :=
  if h : (bytesOf value).size ≤ maxTxtValueLen then .ok ⟨value, h⟩
  else .error (.txtValue (bytesOf value).size)

def TxtValue.asStr (value : TxtValue) : List Char := value.val

lemma TxtValue.new_asStr (value : TxtValue) : TxtValue.new value.asStr = .ok value :=
  dif_pos value.2

/-- Whether a text is a label of a name. -/
def isSubLabel (label : List Char) : Bool :=
  !label.isEmpty && (bytesOf label).size ≤ maxLabelLen &&
    label.all fun c => c.isLower || c.isDigit || c = '-' || c = '_'

/-- A name under an owner: its labels joined by dots, or the owner's own. -/
def SubName.Valid (name : List Char) : Prop :=
  name = [] ∨ (name.splitOn '.').length ≤ maxSubNameLabels ∧ (name.splitOn '.').all isSubLabel

instance decidable_subName_valid (name : List Char) : Decidable (SubName.Valid name) :=
  inferInstanceAs (Decidable (_ ∨ _ ∧ _))

/-- A name under an owner's name. -/
def SubName := { name : List Char // SubName.Valid name }

instance linearOrder_subName : LinearOrder SubName :=
  inferInstanceAs (LinearOrder { name : List Char // SubName.Valid name })

def SubName.new (name : List Char) : Except AnnouncementError SubName :=
  if h : SubName.Valid name then .ok ⟨name, h⟩ else .error (.subName name)

def SubName.asStr (name : SubName) : List Char := name.val

lemma SubName.new_asStr (name : SubName) : SubName.new name.asStr = .ok name := dif_pos name.2

/-- The port numbers, as a `u16`. -/
abbrev Port := Fin (2 ^ 16)

/-- A port that can be served. -/
def NonZeroPort := { port : Port // port.val ≠ 0 }

instance linearOrder_nonZeroPort : LinearOrder NonZeroPort :=
  inferInstanceAs (LinearOrder { port : Port // port.val ≠ 0 })

def NonZeroPort.new (port : Port) : Option NonZeroPort :=
  if h : port.val ≠ 0 then some ⟨port, h⟩ else none

def NonZeroPort.get (port : NonZeroPort) : Port := port.val

lemma NonZeroPort.new_get (port : NonZeroPort) : NonZeroPort.new port.get = some port :=
  dif_pos port.2

/-! ### Announcements -/

/-- What an owner announces through the relay. -/
@[ext]
structure Announcement where
  ports : BTreeMap NonZeroPort ProxyProtocol
  txt : BTreeMap SubName (List TxtValue)
  ports_le : ports.size ≤ maxServedPorts
  txt_le : txt.size ≤ maxTxtNames
  values : ∀ name v, txt.get? name = some v → v ≠ [] ∧ v.length ≤ maxTxtValues

instance decidableEq_bTreeMap {K V : Type*} [LinearOrder K] [DecidableEq V] :
    DecidableEq (BTreeMap K V) := fun m n => decidable_of_iff (m.entries = n.entries)
  BTreeMap.ext_iff.symm

instance decidableEq_announcement : DecidableEq Announcement := fun a b =>
  decidable_of_iff (a.ports = b.ports ∧ a.txt = b.txt) Announcement.ext_iff.symm

/-- The loop over the served ports. -/
def servePorts : ℕ → List (Port × ProxyProtocol) → BTreeMap NonZeroPort ProxyProtocol →
    Except AnnouncementError (BTreeMap NonZeroPort ProxyProtocol)
  | _, [], served => .ok served
  | count, (port, proxy) :: ports, served =>
    if maxServedPorts ≤ count then .error (.tooManyPorts (saturatingAdd usizeMax count 1))
    else match NonZeroPort.new port with
      | none => .error .portZero
      | some port =>
        if (served.get? port).isSome then .error (.duplicatePort port.get.val)
        else servePorts (count + 1) ports (served.insert port proxy)

/-- The loop over the TXT records. -/
def publishTxt : ℕ → List (SubName × List TxtValue) → BTreeMap SubName (List TxtValue) →
    Except AnnouncementError (BTreeMap SubName (List TxtValue))
  | _, [], published => .ok published
  | count, (name, values) :: txt, published =>
    if maxTxtNames ≤ count then .error (.tooManyTxtNames (saturatingAdd usizeMax count 1))
    else if values.isEmpty ∨ maxTxtValues < values.length then
      .error (.txtValueCount name.asStr values.length)
    else if (published.get? name).isSome then .error (.duplicateTxtName name.asStr)
    else publishTxt (count + 1) txt (published.insert name values)

lemma servePorts_size {count : ℕ} {ports : List (Port × ProxyProtocol)}
    {served served' : BTreeMap NonZeroPort ProxyProtocol} (hcount : served.size = count)
    (hle : count ≤ maxServedPorts) (h : servePorts count ports served = .ok served') :
    served'.size ≤ maxServedPorts := by
  induction ports generalizing count served with
  | nil =>
    cases h
    omega
  | cons p ports ih =>
    rw [servePorts] at h
    split at h
    · cases h
    · cases hport : NonZeroPort.new p.1 with
      | none =>
        simp only [hport] at h
        cases h
      | some port =>
        simp only [hport] at h
        split at h
        · cases h
        · rename_i hfresh
          refine ih ?_ (by omega) h
          rw [BTreeMap.size_insert, if_neg hfresh, hcount]

lemma publishTxt_spec {count : ℕ} {txt : List (SubName × List TxtValue)}
    {published published' : BTreeMap SubName (List TxtValue)} (hcount : published.size = count)
    (hle : count ≤ maxTxtNames)
    (hvalues : ∀ name v, published.get? name = some v → v ≠ [] ∧ v.length ≤ maxTxtValues)
    (h : publishTxt count txt published = .ok published') : published'.size ≤ maxTxtNames ∧
      ∀ name v, published'.get? name = some v → v ≠ [] ∧ v.length ≤ maxTxtValues := by
  induction txt generalizing count published with
  | nil =>
    cases h
    exact ⟨by omega, hvalues⟩
  | cons record txt ih =>
    rw [publishTxt] at h
    split at h
    · cases h
    · split at h
      · cases h
      · rename_i hcounted
        split at h
        · cases h
        · rename_i hfresh
          refine ih ?_ (by omega) (fun name v hv => ?_) h
          · rw [BTreeMap.size_insert, if_neg hfresh, hcount]
          · rw [BTreeMap.get?_insert] at hv
            split at hv
            · cases hv
              rw [not_or, List.isEmpty_iff] at hcounted
              exact ⟨hcounted.1, not_lt.1 hcounted.2⟩
            · exact hvalues name v hv

lemma servePorts_empty {ports : List (Port × ProxyProtocol)}
    {served : BTreeMap NonZeroPort ProxyProtocol}
    (h : servePorts 0 ports BTreeMap.empty = .ok served) : served.size ≤ maxServedPorts := by
  have hsize : (BTreeMap.empty : BTreeMap NonZeroPort ProxyProtocol).size = 0 := rfl
  exact servePorts_size hsize (Nat.zero_le _) h

lemma publishTxt_empty {txt : List (SubName × List TxtValue)}
    {published : BTreeMap SubName (List TxtValue)}
    (h : publishTxt 0 txt BTreeMap.empty = .ok published) : published.size ≤ maxTxtNames ∧
      ∀ name v, published.get? name = some v → v ≠ [] ∧ v.length ≤ maxTxtValues := by
  have hsize : (BTreeMap.empty : BTreeMap SubName (List TxtValue)).size = 0 := rfl
  refine publishTxt_spec hsize (Nat.zero_le _) (fun name v hv => ?_) h
  rw [BTreeMap.get?_empty] at hv
  cases hv

/-- Validate an announcement from its served ports and its TXT records. -/
def Announcement.new (ports : List (Port × ProxyProtocol)) (txt : List (SubName × List TxtValue)) :
    Except AnnouncementError Announcement :=
  match hports : servePorts 0 ports BTreeMap.empty with
  | .error error => .error error
  | .ok served =>
    match htxt : publishTxt 0 txt BTreeMap.empty with
    | .error error => .error error
    | .ok published =>
      .ok ⟨served, published, servePorts_empty hports, (publishTxt_empty htxt).1,
        (publishTxt_empty htxt).2⟩

/-- Whether the announcement announces nothing. -/
def Announcement.isEmpty (a : Announcement) : Bool :=
  a.ports.entries.isEmpty && a.txt.entries.isEmpty

/-- The ports the owner serves, ascending. -/
def Announcement.servedPorts (a : Announcement) : List (Port × ProxyProtocol) :=
  a.ports.entries.map fun p => (p.1.get, p.2)

def Announcement.txtRecords (a : Announcement) : List (SubName × List TxtValue) := a.txt.entries

/-! ### Its own parts validate to it -/

section Parts

variable {K V : Type*} [LinearOrder K]

/-- Inserting the rest of a map's pairs ends at the map. -/
lemma foldl_insert_entries (m : BTreeMap K V) :
    m.entries.foldl (fun m kv => m.insert kv.1 kv.2) BTreeMap.empty = m := by
  refine BTreeMap.ext_get? fun k => ?_
  rw [BTreeMap.get?_foldl_insert m.nodup, BTreeMap.get?_empty, Option.or_none]
  rfl

lemma servePorts_entries {l : List (NonZeroPort × ProxyProtocol)} {count : ℕ}
    {served : BTreeMap NonZeroPort ProxyProtocol} (hl : (l.map Prod.fst).Nodup)
    (hfresh : ∀ p ∈ l, served.get? p.1 = none) (hle : count + l.length ≤ maxServedPorts) :
    servePorts count (l.map fun p => (p.1.get, p.2)) served =
      .ok (l.foldl (fun m kv => m.insert kv.1 kv.2) served) := by
  induction l generalizing count served with
  | nil => rfl
  | cons p l ih =>
    rw [List.map_cons, List.nodup_cons] at hl
    rw [List.length_cons] at hle
    have hnone : (served.get? p.1).isSome = false := by
      rw [hfresh p List.mem_cons_self]
      rfl
    have hrest : ∀ q ∈ l, (served.insert p.1 p.2).get? q.1 = none := by
      intro q hq
      have hne : q.1 ≠ p.1 := fun h => hl.1 (List.mem_map.2 ⟨q, hq, h⟩)
      rw [BTreeMap.get?_insert, if_neg hne]
      exact hfresh q (List.mem_cons_of_mem p hq)
    rw [List.map_cons, servePorts, if_neg (by omega), NonZeroPort.new_get]
    simp only [hnone, Bool.false_eq_true, if_false]
    rw [ih hl.2 hrest (by omega), List.foldl_cons]

lemma publishTxt_entries {l : List (SubName × List TxtValue)} {count : ℕ}
    {published : BTreeMap SubName (List TxtValue)} (hl : (l.map Prod.fst).Nodup)
    (hfresh : ∀ p ∈ l, published.get? p.1 = none)
    (hvalues : ∀ p ∈ l, p.2 ≠ [] ∧ p.2.length ≤ maxTxtValues)
    (hle : count + l.length ≤ maxTxtNames) :
    publishTxt count l published = .ok (l.foldl (fun m kv => m.insert kv.1 kv.2) published) := by
  induction l generalizing count published with
  | nil => rfl
  | cons p l ih =>
    rw [List.map_cons, List.nodup_cons] at hl
    rw [List.length_cons] at hle
    obtain ⟨hne, hlen⟩ := hvalues p List.mem_cons_self
    have hnone : (published.get? p.1).isSome = false := by
      rw [hfresh p List.mem_cons_self]
      rfl
    have hrest : ∀ q ∈ l, (published.insert p.1 p.2).get? q.1 = none := by
      intro q hq
      have hneq : q.1 ≠ p.1 := fun h => hl.1 (List.mem_map.2 ⟨q, hq, h⟩)
      rw [BTreeMap.get?_insert, if_neg hneq]
      exact hfresh q (List.mem_cons_of_mem p hq)
    have hcounted : ¬(p.2.isEmpty ∨ maxTxtValues < p.2.length) := by
      rw [List.isEmpty_iff, not_or]
      exact ⟨hne, not_lt.2 hlen⟩
    rw [publishTxt, if_neg (by omega), if_neg hcounted, if_neg (by simp [hnone]),
      ih hl.2 hrest (fun q hq => hvalues q (List.mem_cons_of_mem p hq)) (by omega),
      List.foldl_cons]

end Parts

lemma Announcement.new_of_ok {ports : List (Port × ProxyProtocol)}
    {txt : List (SubName × List TxtValue)} (a : Announcement)
    (hports : servePorts 0 ports BTreeMap.empty = .ok a.ports)
    (htxt : publishTxt 0 txt BTreeMap.empty = .ok a.txt) : Announcement.new ports txt = .ok a := by
  rw [Announcement.new]
  split
  · rename_i herror
    rw [hports] at herror
    cases herror
  · rename_i served hserved
    rw [hports] at hserved
    cases hserved
    split
    · rename_i herror
      rw [htxt] at herror
      cases herror
    · rename_i published hpublished
      rw [htxt] at hpublished
      cases hpublished
      rfl

/-- The parts of an announcement validate to it. -/
lemma Announcement.new_parts (a : Announcement) :
    Announcement.new a.servedPorts a.txtRecords = .ok a := by
  have hports : 0 + a.ports.entries.length ≤ maxServedPorts := by
    rw [Nat.zero_add]
    exact a.ports_le
  have htxt : 0 + a.txt.entries.length ≤ maxTxtNames := by
    rw [Nat.zero_add]
    exact a.txt_le
  have hserved := servePorts_entries a.ports.nodup (fun p _ => BTreeMap.get?_empty p.1) hports
  have hpublished := publishTxt_entries a.txt.nodup (fun p _ => BTreeMap.get?_empty p.1)
    (fun p hp => a.values p.1 p.2 ((BTreeMap.mem_entries _).1 hp)) htxt
  rw [foldl_insert_entries] at hserved hpublished
  exact a.new_of_ok hserved hpublished

end Rings.DnsRelay
