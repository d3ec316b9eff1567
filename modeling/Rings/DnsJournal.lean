import Rings.BTreeMap
import Rings.Did
import Rings.TextLines

/-!
The journal of the relay's state: a map kept as a log of puts and removes, one JSON record a
line.

Opening a journal reads its file as text and replays the lines up to the first that does not
decode. An append writes one line behind whatever the file holds; a compaction replaces the
file by one put an entry. A crash may cut the line being appended at any byte, so a file is whole
lines and possibly a torn one, and an append behind a torn line is lost.
-/

namespace Rings.DnsRelay

open TextLines

variable {K V : Type*} [LinearOrder K]

inductive Record (K V : Type*)
  | put (key : K) (value : V)
  | remove (key : K)

/-- `apply(m, r)`. -/
def Record.apply (m : BTreeMap K V) : Record K V → BTreeMap K V
  | .put key value => m.insert key value
  | .remove key => m.remove key

/-- The JSON of records: every record encodes as one line that decodes back to it, and what a
line begins with does not decode. -/
structure Json (K V : Type*) where
  toString : Record K V → List Char
  fromStr : List Char → Option (Record K V)
  fromStr_toString : ∀ r, fromStr (toString r) = some r
  newline : ∀ r, '\n' ∉ toString r
  carriageReturn : ∀ r, '\r' ∉ toString r
  torn : ∀ r t, t <+: toString r → t ≠ toString r → fromStr t = none

inductive ErrorKind
  | invalidData

inductive StateError
  | io (source : ErrorKind)

structure Journal where
  records : ℕ

namespace Journal

variable (json : Json K V)

def compactionSlack : ℕ := 64

/-- The loop over the lines, up to the first that does not decode. -/
def replay : List (List Char) → BTreeMap K V → ℕ → BTreeMap K V × ℕ
  | [], map, records => (map, records)
  | line :: lines, map, records =>
    match json.fromStr line with
    | some record => replay lines (record.apply map) (saturatingAdd usizeMax records 1)
    | none => (map, records)

def open_ (file : Option ByteArray) : Except StateError (Journal × BTreeMap K V) :=
  let text := match file with
    | none => some []
    | some bytes => textOf bytes
  match text with
  | none => .error (.io .invalidData)
  | some text =>
    let (map, records) := replay json (lines text) BTreeMap.empty 0
    .ok (⟨records⟩, map)

def encode (record : Record K V) : List Char := json.toString record ++ ['\n']

def append (file : Option ByteArray) (journal : Journal) (record : Record K V) :
    Option ByteArray × Journal :=
  (some (file.getD ByteArray.empty ++ bytesOf (encode json record)),
    ⟨saturatingAdd usizeMax journal.records 1⟩)

def put (file : Option ByteArray) (journal : Journal) (key : K) (value : V) :
    Option ByteArray × Journal := append json file journal (.put key value)

def remove (file : Option ByteArray) (journal : Journal) (key : K) :
    Option ByteArray × Journal := append json file journal (.remove key)

/-- Whether a map of `live` entries should be compacted. -/
def needsCompaction (journal : Journal) (live : ℕ) : Bool :=
  journal.records > saturatingAdd usizeMax (min usizeMax (live * 2)) compactionSlack

/-- The text of a snapshot, and its records. -/
def snapshot (entries : List (K × V)) : List Char × ℕ :=
  entries.foldl (fun acc kv =>
    (acc.1 ++ encode json (.put kv.1 kv.2), saturatingAdd usizeMax acc.2 1)) ([], 0)

def compact (entries : List (K × V)) : Option ByteArray × Journal :=
  (some (bytesOf (snapshot json entries).1), ⟨(snapshot json entries).2⟩)

end Journal

/-! ### Runs -/

inductive Op (K V : Type*)
  | put (key : K) (value : V)
  | remove (key : K)
  | compact (entries : List (K × V))

def Op.run (json : Json K V) (s : Option ByteArray × Journal) : Op K V → Option ByteArray × Journal
  | .put key value => Journal.put json s.1 s.2 key value
  | .remove key => Journal.remove json s.1 s.2 key
  | .compact entries => Journal.compact json entries

/-- How a session ends: closed, or by a crash in a call. A crash leaves the first bytes of the
line being appended, and replaces the log by a snapshot or not. -/
inductive Ending (K V : Type*)
  | closed
  | append (record : Record K V) (written : ℕ)
  | compact (entries : List (K × V)) (renamed : Bool)

def Ending.file (json : Json K V) (file : Option ByteArray) : Ending K V → Option ByteArray
  | .closed => file
  | .append record written =>
    some (file.getD ByteArray.empty ++ cut written (bytesOf (Journal.encode json record)))
  | .compact entries renamed => if renamed then (Journal.compact json entries).1 else file

/-- From one opening of the journal to the next. -/
structure Session (K V : Type*) where
  ops : List (Op K V)
  ending : Ending K V

/-- A session leaves its file; one whose journal does not open makes no call. -/
def Session.file (json : Json K V) (file : Option ByteArray) (s : Session K V) :
    Option ByteArray :=
  match Journal.open_ json file with
  | .error _ => file
  | .ok (journal, _) => s.ending.file json (s.ops.foldl (Op.run json) (file, journal)).1

/-- The file the sessions leave, from a missing one. -/
def fileAfter (json : Json K V) (sessions : List (Session K V)) : Option ByteArray :=
  sessions.foldl (Session.file json) none

/-! ### The map of the completed records -/

def ofEntries (entries : List (K × V)) : BTreeMap K V :=
  entries.foldl (fun m kv => m.insert kv.1 kv.2) BTreeMap.empty

def Op.apply (m : BTreeMap K V) : Op K V → BTreeMap K V
  | .put key value => m.insert key value
  | .remove key => m.remove key
  | .compact entries => ofEntries entries

/-- The record a crash interrupts counts or not. -/
def Ending.apply (kept : Bool) (m : BTreeMap K V) : Ending K V → BTreeMap K V
  | .closed => m
  | .append record _ => if kept then record.apply m else m
  | .compact entries renamed => if renamed then ofEntries entries else m

/-- All completed records in order; of the records that crashes interrupt, those that `kept`
says, by the number of the session. -/
def completed (kept : ℕ → Bool) (sessions : List (Session K V)) : BTreeMap K V :=
  sessions.zipIdx.foldl
    (fun m si => si.1.ending.apply (kept si.2) (si.1.ops.foldl Op.apply m)) BTreeMap.empty

/-- Every opening of the journal returns the completed records. -/
def Survives (json : Json K V) (sessions : List (Session K V)) : Prop :=
  ∃ kept : ℕ → Bool, ∀ i ≤ sessions.length, ∃ journal,
    Journal.open_ json (fileAfter json (sessions.take i)) =
      .ok (journal, completed kept (sessions.take i))

/-! ### What a log reads as -/

section Log

variable {json : Json K V} {records : List (Record K V)} {r : Record K V} {t : List Char}
  {m : BTreeMap K V} {file : Option ByteArray}

omit [LinearOrder K] in
def logOf (json : Json K V) (records : List (Record K V)) : List Char :=
  records.flatMap (Journal.encode json)

omit [LinearOrder K] in
lemma logOf_concat (json : Json K V) (records : List (Record K V)) (r : Record K V) :
    logOf json (records ++ [r]) = logOf json records ++ Journal.encode json r := by
  simp [logOf]

/-- Whole lines are replayed whole, whatever follows them. -/
lemma replay_logOf_append (json : Json K V) (records : List (Record K V)) (t : List Char)
    (m : BTreeMap K V) (count : ℕ) : ∃ count',
    Journal.replay json (lines (logOf json records ++ t)) m count =
      Journal.replay json (lines t) (records.foldl Record.apply m) count' := by
  induction records generalizing m count with
  | nil => exact ⟨count, rfl⟩
  | cons r records ih =>
    have htext : logOf json (r :: records) ++ t =
        json.toString r ++ '\n' :: (logOf json records ++ t) := by
      simp [logOf, Journal.encode]
    rw [htext, lines_line (json.newline r) (json.carriageReturn r), Journal.replay,
      json.fromStr_toString]
    exact ih (r.apply m) (saturatingAdd usizeMax count 1)

/-- The piece of a line is read as its record when all of it is there, and else stops the
replay. -/
lemma replay_piece (ht : t <+: json.toString r) (hne : t ≠ []) (m : BTreeMap K V) (count : ℕ) :
    (Journal.replay json (lines t) m count).1 =
      if t = json.toString r then r.apply m else m := by
  have hnewline : '\n' ∉ t := fun h => json.newline r (ht.subset h)
  rw [lines_last hnewline, if_neg hne]
  by_cases hfull : t = json.toString r
  · rw [if_pos hfull, Journal.replay, hfull, json.fromStr_toString]
    rfl
  · rw [if_neg hfull, Journal.replay, json.torn r t ht hfull]

/-! ### What a crash leaves -/

/-- How a log ends: with a whole line, with a torn one, or with a line behind a torn one. -/
inductive Tail
  | whole | torn | buried
deriving DecidableEq

/-- An append lands behind the last line. -/
def Tail.append : Tail → Tail
  | whole => whole
  | _ => buried

def Op.tail (tail : Tail) : Op K V → Tail
  | .put _ _ | .remove _ => tail.append
  | .compact _ => .whole

omit [LinearOrder K] in
/-- Of an append that crashed nothing stands there, or a piece of its line, or all of it. -/
def Ending.tail (json : Json K V) (tail : Tail) : Ending K V → Tail
  | .closed => tail
  | .append record written =>
    if written = 0 then tail
    else if written < (bytesOf (Journal.encode json record)).size ∧ tail = .whole then .torn
    else tail.append
  | .compact _ renamed => if renamed then .whole else tail

def Session.tail (json : Json K V) (tail : Tail) (s : Session K V) : Tail :=
  s.ending.tail json (s.ops.foldl Op.tail tail)

def tailAfter (json : Json K V) (sessions : List (Session K V)) : Tail :=
  sessions.foldl (Session.tail json) .whole

def Ending.WholeChars (json : Json K V) : Ending K V → Prop
  | .append record written =>
    textOf (cut written (bytesOf (Journal.encode json record))) ≠ none
  | _ => True

/-- No crash cuts inside a character, and no opening finds a line behind a torn one. -/
structure Sound (json : Json K V) (sessions : List (Session K V)) : Prop where
  wholeChars : ∀ s ∈ sessions, s.ending.WholeChars json
  unburied : ∀ i ≤ sessions.length, tailAfter json (sessions.take i) ≠ .buried

/-- What a file holds, by how it ends. -/
def Holds (json : Json K V) (file : Option ByteArray) (m : BTreeMap K V) : Tail → Prop
  | .whole => ∃ records, file.getD ByteArray.empty = bytesOf (logOf json records) ∧
      records.foldl Record.apply BTreeMap.empty = m
  | .torn => ∃ records r t, t <+: json.toString r ∧ t ≠ [] ∧
      file.getD ByteArray.empty = bytesOf (logOf json records ++ t) ∧
      (if t = json.toString r then r.apply (records.foldl Record.apply BTreeMap.empty)
        else records.foldl Record.apply BTreeMap.empty) = m
  | .buried => True

lemma open_text (h : file.getD ByteArray.empty = bytesOf t) : Journal.open_ json file =
    .ok (⟨(Journal.replay json (lines t) BTreeMap.empty 0).2⟩,
      (Journal.replay json (lines t) BTreeMap.empty 0).1) := by
  cases file with
  | none =>
    have ht : t = [] := bytesOf_injective (by rw [← h, bytesOf_nil, Option.getD_none])
    rw [Journal.open_, ht]
  | some bytes =>
    have hbytes : bytes = bytesOf t := h
    rw [Journal.open_, hbytes]
    simp only [textOf_bytesOf]

/-- A log that ends with a whole or a torn line opens to its map. -/
lemma Holds.open_ {tail : Tail} (h : Holds json file m tail) (htail : tail ≠ .buried) :
    ∃ journal, Journal.open_ json file = .ok (journal, m) := by
  cases tail with
  | whole =>
    obtain ⟨records, hfile, hm⟩ := h
    obtain ⟨count, hreplay⟩ := replay_logOf_append json records [] BTreeMap.empty 0
    rw [List.append_nil] at hreplay
    rw [open_text hfile, hreplay, hm]
    exact ⟨_, rfl⟩
  | torn =>
    obtain ⟨records, r, t, ht, hne, hfile, hm⟩ := h
    obtain ⟨count, hreplay⟩ := replay_logOf_append json records t BTreeMap.empty 0
    rw [open_text hfile, hreplay, replay_piece ht hne, hm]
    exact ⟨_, rfl⟩
  | buried => exact absurd rfl htail

/-! ### What a session leaves -/

lemma Holds.append {tail : Tail} (h : Holds json file m tail) (journal : Journal)
    (r : Record K V) :
    Holds json (Journal.append json file journal r).1 (r.apply m) tail.append := by
  cases tail with
  | whole =>
    obtain ⟨records, hfile, hm⟩ := h
    refine ⟨records ++ [r], ?_, ?_⟩
    · change file.getD ByteArray.empty ++ bytesOf (Journal.encode json r) = _
      rw [hfile, logOf_concat, bytesOf_append]
    · rw [List.foldl_concat, hm]
  | torn => trivial
  | buried => trivial

omit [LinearOrder K] in
lemma snapshot_eq (json : Json K V) (entries : List (K × V)) :
    (Journal.snapshot json entries).1 =
      logOf json (entries.map fun kv => .put kv.1 kv.2) := by
  have hfold : ∀ (acc : List Char × ℕ), (entries.foldl (fun acc kv =>
      (acc.1 ++ Journal.encode json (.put kv.1 kv.2), saturatingAdd usizeMax acc.2 1)) acc).1 =
        acc.1 ++ logOf json (entries.map fun kv => .put kv.1 kv.2) := by
    induction entries with
    | nil => simp [logOf]
    | cons kv entries ih =>
      intro acc
      rw [List.foldl_cons, ih]
      simp [logOf]
  exact hfold ([], 0)

lemma holds_compact (json : Json K V) (entries : List (K × V)) :
    Holds json (Journal.compact json entries).1 (ofEntries entries) .whole := by
  refine ⟨entries.map fun kv => .put kv.1 kv.2, ?_, ?_⟩
  · change bytesOf _ = _
    rw [snapshot_eq]
  · rw [List.foldl_map]
    rfl

lemma Holds.op {tail : Tail} {journal : Journal} (h : Holds json file m tail) (op : Op K V) :
    Holds json (op.run json (file, journal)).1 (op.apply m) (op.tail tail) := by
  cases op with
  | put key value => exact h.append journal (.put key value)
  | remove key => exact h.append journal (.remove key)
  | compact entries => exact holds_compact json entries

lemma Holds.ops {tail : Tail} {journal : Journal} (h : Holds json file m tail)
    (ops : List (Op K V)) : Holds json (ops.foldl (Op.run json) (file, journal)).1
      (ops.foldl Op.apply m) (ops.foldl Op.tail tail) := by
  induction ops generalizing file journal m tail with
  | nil => exact h
  | cons op ops ih => exact ih (h.op op)

/-- Whether the record of a crashed append is there to the last byte of its JSON. -/
def Ending.kept (json : Json K V) : Ending K V → Bool
  | .append record written =>
    decide (0 < written ∧ (bytesOf (json.toString record)).size ≤ written)
  | _ => false

lemma size_newline : (bytesOf ['\n']).size = 1 := by
  rw [bytesOf_eq, List.utf8Encode_singleton, List.size_toByteArray,
    String.length_utf8EncodeChar]
  rfl

omit [LinearOrder K] in
/-- What a crash in an append leaves of the line, if it is text. -/
lemma crash_piece {n : ℕ} (hn : n ≠ 0) (hlt : n < (bytesOf (Journal.encode json r)).size)
    (h : textOf (cut n (bytesOf (Journal.encode json r))) = some t) :
    t <+: json.toString r ∧ t ≠ [] ∧
      (t = json.toString r ↔ (bytesOf (json.toString r)).size ≤ n) := by
  have hsize : (bytesOf t).size = n := by rw [size_of_cut h, min_eq_left hlt.le]
  have hline : (bytesOf (Journal.encode json r)).size = (bytesOf (json.toString r)).size + 1 := by
    rw [Journal.encode, size_bytesOf_append, size_newline]
  have hpiece : t <+: json.toString r := by
    rcases List.prefix_concat_iff.1 (isPrefix_of_cut h) with hwhole | hpiece
    · have hwhole' : t = Journal.encode json r := hwhole
      rw [hwhole'] at hsize
      omega
    · exact hpiece
  refine ⟨hpiece, fun hnil => hn ?_, fun hfull => ?_, fun hle => ?_⟩
  · rw [← hsize, bytesOf_size_eq_zero.2 hnil]
  · rw [← hfull, hsize]
  · exact eq_of_isPrefix_of_size hpiece (hle.trans hsize.ge)

lemma Holds.crash {n : ℕ} (h : Holds json file m .whole)
    (hchars : textOf (cut n (bytesOf (Journal.encode json r))) ≠ none) :
    Holds json ((Ending.append r n).file json file)
      ((Ending.append r n).apply ((Ending.append r n).kept json) m)
      ((Ending.append r n).tail json .whole) := by
  obtain ⟨records, hfile, hm⟩ := h
  obtain ⟨t, ht⟩ := Option.ne_none_iff_exists'.1 hchars
  have hbytes : ((Ending.append r n).file json file).getD ByteArray.empty =
      bytesOf (logOf json records ++ t) := by
    change file.getD ByteArray.empty ++ cut n _ = _
    rw [hfile, bytesOf_append, bytesOf_of_textOf ht]
  by_cases hn : n = 0
  · -- nothing of the line is there
    have hnil : t = [] := bytesOf_size_eq_zero.1 (by rw [size_of_cut ht, hn, Nat.zero_min])
    have hkept : (Ending.append r n).kept json = false := by simp [Ending.kept, hn]
    have htail : (Ending.append r n).tail json .whole = .whole := if_pos hn
    rw [hnil, List.append_nil] at hbytes
    rw [hkept, htail]
    exact ⟨records, hbytes, hm⟩
  · by_cases hlt : n < (bytesOf (Journal.encode json r)).size
    · obtain ⟨hpiece, hne, hfull⟩ := crash_piece hn hlt ht
      have hkept : (Ending.append r n).kept json = decide (t = json.toString r) := by
        simp [Ending.kept, hfull, Nat.pos_of_ne_zero hn]
      have htail : (Ending.append r n).tail json .whole = .torn := by
        simp [Ending.tail, hn, hlt]
      rw [hkept, htail]
      refine ⟨records, r, t, hpiece, hne, hbytes, ?_⟩
      rw [hm]
      by_cases hall : t = json.toString r
      · rw [if_pos hall, decide_eq_true hall]
        rfl
      · rw [if_neg hall, decide_eq_false hall]
        rfl
    · have hwhole : t = Journal.encode json r := by
        rw [cut_of_le (not_lt.1 hlt), textOf_bytesOf] at ht
        exact (Option.some.inj ht).symm
      have hle : (bytesOf (json.toString r)).size ≤ n := by
        rw [Journal.encode, size_bytesOf_append] at hlt
        omega
      have hkept : (Ending.append r n).kept json = true := by
        simp [Ending.kept, hle, Nat.pos_of_ne_zero hn]
      have htail : (Ending.append r n).tail json .whole = .whole := by
        simp [Ending.tail, hn, hlt, Tail.append]
      rw [hkept, htail]
      refine ⟨records ++ [r], ?_, ?_⟩
      · rw [hbytes, hwhole, logOf_concat]
      · rw [List.foldl_concat, hm]
        rfl

lemma Holds.congr {tail : Tail} {file' : Option ByteArray} (h : Holds json file m tail)
    (hfile : file'.getD ByteArray.empty = file.getD ByteArray.empty) :
    Holds json file' m tail := by
  cases tail with
  | whole =>
    obtain ⟨records, hbytes, hm⟩ := h
    exact ⟨records, hfile.trans hbytes, hm⟩
  | torn =>
    obtain ⟨records, r, t, ht, hne, hbytes, hm⟩ := h
    exact ⟨records, r, t, ht, hne, hfile.trans hbytes, hm⟩
  | buried => trivial

lemma Holds.ending {tail : Tail} (h : Holds json file m tail) (ending : Ending K V)
    (hchars : ending.WholeChars json) :
    Holds json (ending.file json file) (ending.apply (ending.kept json) m)
      (ending.tail json tail) := by
  cases ending with
  | closed => exact h
  | append r n =>
    by_cases hwhole : tail = .whole
    · subst hwhole
      exact h.crash hchars
    · by_cases hn : n = 0
      · have htail : (Ending.append r n).tail json tail = tail := if_pos hn
        have hkept : (Ending.append r n).apply ((Ending.append r n).kept json) m = m :=
          if_neg (by simp [Ending.kept, hn])
        rw [htail, hkept]
        refine h.congr ?_
        change file.getD ByteArray.empty ++ cut n _ = _
        rw [hn, cut, ByteArray.extract_same, ByteArray.append_empty]
      · have htail : (Ending.append r n).tail json tail = .buried := by
          simp only [Ending.tail]
          rw [if_neg hn, if_neg fun hor => hwhole hor.2]
          cases tail with
          | whole => exact absurd rfl hwhole
          | torn => rfl
          | buried => rfl
        rw [htail]
        trivial
  | compact entries renamed =>
    cases renamed with
    | false => exact h
    | true => exact holds_compact json entries

lemma Holds.session {tail : Tail} (h : Holds json file m tail) (htail : tail ≠ .buried)
    (s : Session K V) (hchars : s.ending.WholeChars json) :
    Holds json (s.file json file) (s.ending.apply (s.ending.kept json) (s.ops.foldl Op.apply m))
      (s.tail json tail) := by
  obtain ⟨journal, hopen⟩ := h.open_ htail
  rw [Session.file, hopen]
  exact (h.ops s.ops).ending s.ending hchars

end Log

/-- The records of crashed appends that count. -/
def keptOf (json : Json K V) (sessions : List (Session K V)) (i : ℕ) : Bool :=
  match sessions[i]? with
  | some s => s.ending.kept json
  | none => false

lemma completed_concat (kept : ℕ → Bool) (sessions : List (Session K V)) (s : Session K V) :
    completed kept (sessions ++ [s]) =
      s.ending.apply (kept sessions.length) (s.ops.foldl Op.apply (completed kept sessions)) := by
  simp [completed, List.zipIdx_append]

/-- After every session of a sound run the file holds the completed records. -/
lemma holds_fileAfter {json : Json K V} {sessions : List (Session K V)} (h : Sound json sessions)
    {i : ℕ} (hi : i ≤ sessions.length) :
    Holds json (fileAfter json (sessions.take i))
      (completed (keptOf json sessions) (sessions.take i)) (tailAfter json (sessions.take i)) := by
  induction i with
  | zero => exact ⟨[], by simp [fileAfter, logOf], rfl⟩
  | succ i ih =>
    have hlt : i < sessions.length := hi
    have htake : sessions.take (i + 1) = sessions.take i ++ [sessions[i]] :=
      List.take_succ_eq_append_getElem hlt
    have hlen : (sessions.take i).length = i := List.length_take_of_le hlt.le
    have hkept : keptOf json sessions i = sessions[i].ending.kept json := by
      rw [keptOf, List.getElem?_eq_getElem hlt]
    have hstep := (ih hlt.le).session (h.unburied i hlt.le) sessions[i]
      (h.wholeChars _ (List.getElem_mem hlt))
    rw [htake, completed_concat, hlen, hkept, fileAfter, List.foldl_concat, tailAfter,
      List.foldl_concat]
    exact hstep

lemma ofEntries_entries (m : BTreeMap K V) : ofEntries m.entries = m := by
  refine BTreeMap.ext_get? fun k => ?_
  change (BTreeMap.empty.extend m).get? k = m.get? k
  rw [BTreeMap.get?_extend, BTreeMap.get?_empty, Option.or_none]

/-- **The journal survives crashes** when none cuts inside a character and no opening finds a
line behind a torn one: every opening returns the completed records. A snapshot replays to its
map. -/
theorem journal_survives (json : Json K V) (sessions : List (Session K V))
    (h : Sound json sessions) : Survives json sessions ∧
      ∀ m : BTreeMap K V, ∃ journal,
        Journal.open_ json (Journal.compact json m.entries).1 = .ok (journal, m) := by
  refine ⟨⟨keptOf json sessions, fun i hi => (holds_fileAfter h hi).open_ (h.unburied i hi)⟩,
    fun m => ?_⟩
  have hsnapshot := holds_compact json m.entries
  rw [ofEntries_entries] at hsnapshot
  exact hsnapshot.open_ (by decide)

/-! ### What the two defects cost -/

section Defects

variable {json : Json K V} {file : Option ByteArray} {t : List Char}

/-- A record appended behind a torn line is lost with it. -/
lemma open_of_buried {records : List (Record K V)} {r r' : Record K V} (ht : t <+: json.toString r')
    (hfile : file.getD ByteArray.empty = bytesOf (logOf json records ++ t)) (journal : Journal)
    (hline : json.fromStr (t ++ json.toString r) = none) :
    ∃ journal', Journal.open_ json (Journal.append json file journal r).1 =
      .ok (journal', records.foldl Record.apply BTreeMap.empty) := by
  have hn : '\n' ∉ t ++ json.toString r := by
    rw [List.mem_append, not_or]
    exact ⟨fun h => json.newline r' (ht.subset h), json.newline r⟩
  have hr : '\r' ∉ t ++ json.toString r := by
    rw [List.mem_append, not_or]
    exact ⟨fun h => json.carriageReturn r' (ht.subset h), json.carriageReturn r⟩
  have htext : ((Journal.append json file journal r).1).getD ByteArray.empty =
      bytesOf (logOf json records ++ ((t ++ json.toString r) ++ '\n' :: [])) := by
    change file.getD ByteArray.empty ++ bytesOf (Journal.encode json r) = _
    rw [hfile, ← bytesOf_append, Journal.encode]
    simp
  obtain ⟨count, hreplay⟩ := replay_logOf_append json records
    ((t ++ json.toString r) ++ '\n' :: []) BTreeMap.empty 0
  rw [open_text htext, hreplay, lines_line hn hr, Journal.replay, hline]
  exact ⟨_, rfl⟩

end Defects

/-! ### A map of booleans to nothing -/

/-- The JSON of the records of a map of booleans to nothing. -/
def boolText : Record Bool Unit → List Char
  | .put true () => "\x7b\"Put\":[true,null]\x7d".toList
  | .put false () => "\x7b\"Put\":[false,null]\x7d".toList
  | .remove true => "\x7b\"Remove\":true\x7d".toList
  | .remove false => "\x7b\"Remove\":false\x7d".toList

def boolRecords : List (Record Bool Unit) :=
  [.put true (), .put false (), .remove true, .remove false]

lemma mem_boolRecords (r : Record Bool Unit) : r ∈ boolRecords := by
  rcases r with ⟨_ | _, _⟩ | _ | _ <;> simp [boolRecords]

lemma boolText_endings :
    ∀ r ∈ boolRecords, '\n' ∉ boolText r ∧ '\r' ∉ boolText r := by decide

lemma boolText_apart : ∀ r ∈ boolRecords, ∀ r' ∈ boolRecords,
    boolText r' <+: boolText r → boolText r' = boolText r := by decide

def boolJson : Json Bool Unit where
  toString := boolText
  fromStr text := boolRecords.find? fun r => boolText r = text
  fromStr_toString r := by
    rcases r with ⟨_ | _, _⟩ | _ | _ <;> rfl
  newline r := (boolText_endings r (mem_boolRecords r)).1
  carriageReturn r := (boolText_endings r (mem_boolRecords r)).2
  torn r t ht hne := by
    rw [List.find?_eq_none]
    intro r' hr' heq
    have htext : boolText r' = t := of_decide_eq_true heq
    subst htext
    exact hne (boolText_apart r (mem_boolRecords r) r' hr' ht)

/-- What is left of a line of which five bytes were written. -/
def tornText : List Char := "\x7b\"Put".toList

lemma cut_line (b : Bool) :
    cut 5 (bytesOf (Journal.encode boolJson (.put b ()))) = bytesOf tornText := by
  have hsize : (bytesOf tornText).size = 5 := by decide +kernel
  have hline : Journal.encode boolJson (.put b ()) =
      tornText ++ (Journal.encode boolJson (.put b ())).drop 5 := by
    cases b <;> rfl
  rw [hline, ← hsize, cut_bytesOf_append]

/-- Opened again after a crash in its first append, the journal takes a record. -/
def buriedRun : List (Session Bool Unit) :=
  [⟨[], .append (.put true ()) 5⟩, ⟨[.put false ()], .closed⟩]

/-- The record is lost at the next opening. -/
theorem journal_loses_record : ¬ Survives boolJson buriedRun := by
  rintro ⟨kept, h⟩
  obtain ⟨journal, hopen⟩ := h 2 le_rfl
  have hfile : fileAfter boolJson (buriedRun.take 1) = some (bytesOf tornText) := by
    change some (ByteArray.empty ++ cut 5 (bytesOf (Journal.encode boolJson (.put true ())))) = _
    rw [ByteArray.empty_append, cut_line]
  obtain ⟨journal', hopen'⟩ := h 1 (by decide)
  have hfile' : fileAfter boolJson (buriedRun.take 2) =
      (Journal.append boolJson (some (bytesOf tornText)) journal' (.put false ())).1 := by
    have htake : buriedRun.take 2 = buriedRun.take 1 ++ [⟨[.put false ()], .closed⟩] := rfl
    rw [htake, fileAfter, List.foldl_concat, ← fileAfter, Session.file, hopen', hfile]
    rfl
  obtain ⟨journal'', hlost⟩ := @open_of_buried _ _ _ boolJson (some (bytesOf tornText)) tornText []
    (.put false ()) (.put true ()) (by decide) rfl journal' (by decide)
  rw [hfile', hlost] at hopen
  simp only [Except.ok.injEq, Prod.mk.injEq] at hopen
  have hget := congrArg (BTreeMap.get? · false) hopen.2
  change none = ((completed kept (buriedRun.take 1)).insert false ()).get? false at hget
  rw [BTreeMap.get?_insert, if_pos rfl] at hget
  cases hget

/-- A crash that the next session compacts away. -/
def compactedRun : List (Session Bool Unit) :=
  [⟨[.put true ()], .append (.put false ()) 5⟩,
    ⟨[.compact [(true, ())], .put false ()], .closed⟩]

theorem journal_survives_compacted : Survives boolJson compactedRun ∧
    ∀ m : BTreeMap Bool Unit, ∃ journal,
      Journal.open_ boolJson (Journal.compact boolJson m.entries).1 = .ok (journal, m) := by
  refine journal_survives boolJson compactedRun ⟨?_, ?_⟩
  · intro s hs
    rcases List.mem_cons.1 hs with rfl | hs
    · change textOf (cut 5 (bytesOf (Journal.encode boolJson (.put false ())))) ≠ none
      rw [cut_line, textOf_bytesOf]
      exact Option.some_ne_none _
    · rw [List.mem_singleton.1 hs]
      trivial
  · decide +kernel

end Rings.DnsRelay
