import QuorumLog.Log.Store

/-! What a log promises to those who append to it and read from it. Appends number the entries without
a gap, and what is read back is what was appended. A call may fail at any time, and then it leaves the
entries as they were. Both kinds of log number their entries so, and the log in memory is shown here to
keep the whole promise. -/

namespace QuorumLog

/-! ### Entries that are numbered without a gap -/

theorem numbered_take {es : List Entry} {first : Nat}
    (numbered : es.map Entry.offset = List.range' first es.length) (count : Nat) :
    (es.take count).map Entry.offset = List.range' first (es.take count).length := by
  rw [List.map_take, numbered, List.length_take]
  rcases Nat.le_total count es.length with short | long
  · rw [List.take_range'_of_length_ge short, Nat.min_eq_left short]
  · rw [List.take_range'_of_length_le long, Nat.min_eq_right long]

/-- The place of an entry among numbered ones tells its offset. -/
theorem offset_of_numbered {es : List Entry} {first i : Nat} {e : Entry}
    (numbered : es.map Entry.offset = List.range' first es.length) (place : es[i]? = some e) :
    e.offset = first + i := by
  have within := (List.getElem?_eq_some_iff.mp place).1
  have number := congrArg (·[i]?) numbered
  simp only [List.getElem?_map, place, Option.map_some, List.getElem?_range' within,
    Option.some.injEq] at number
  rwa [Nat.one_mul] at number

/-- The offset of an entry among numbered ones tells its place. -/
theorem place_of_numbered {es : List Entry} {first : Nat} {e : Entry}
    (numbered : es.map Entry.offset = List.range' first es.length) (held : e ∈ es) :
    first ≤ e.offset ∧ es[e.offset - first]? = some e := by
  obtain ⟨i, place⟩ := List.getElem?_of_mem held
  have number := offset_of_numbered numbered place
  refine ⟨by omega, ?_⟩
  rwa [number, Nat.add_sub_cancel_left]

/-! ### The promise -/

/-- An append that succeeds takes the next offset, and one that fails leaves the end in place. -/
class NumberedLog (L : Type) [LocalLog L] : Prop where
  append_takes_next {log after : L} {payload : Bytes} {metadata : Option Bytes} {offset : Nat} :
    LocalLog.append log payload metadata = (after, .ok offset) →
      offset = LocalLog.highest log + 1 ∧ LocalLog.highest after = offset
  append_fails_in_place {log after : L} {payload : Bytes} {metadata : Option Bytes}
    {fault : Fault} : LocalLog.append log payload metadata = (after, .error fault) →
      LocalLog.highest after = LocalLog.highest log

/-- A log that gives back what it was given. Not every way of storing can hold every entry, so the
promise is made for the entries that it admits. -/
class LawfulLog (L : Type) [LocalLog L] extends NumberedLog L where
  /-- What the log keeps true of itself. -/
  Sound : L → Prop
  /-- The retained entries, by ascending offset. -/
  entries : L → List Entry
  /-- Whether the way of storing can hold an entry. -/
  Admits : Entry → Prop
  entries_numbered {log : L} : Sound log → (entries log).map Entry.offset =
    List.range' (LocalLog.oldest log) (entries log).length
  entries_span {log : L} : Sound log →
    LocalLog.oldest log + (entries log).length = LocalLog.highest log + 1
  entries_admitted {log : L} {e : Entry} : Sound log → e ∈ entries log → Admits e
  read_gives {log : L} {start limit : Nat} {found : List Entry} : Sound log →
    LocalLog.read log start limit = .ok found →
      found = ((entries log).filter (start ≤ ·.offset)).take limit
  append_stores {log after : L} {payload : Bytes} {metadata : Option Bytes} {offset : Nat} :
    Sound log → LocalLog.append log payload metadata = (after, .ok offset) →
      Admits ⟨offset, payload, metadata⟩ →
      Sound after ∧ entries after = entries log ++ [⟨offset, payload, metadata⟩]
  append_fails {log after : L} {payload : Bytes} {metadata : Option Bytes} {fault : Fault} :
    Sound log → LocalLog.append log payload metadata = (after, .error fault) →
      Sound after ∧ entries after = entries log
  appendEntry_stores {log after : L} {e : Entry} :
    Sound log → LocalLog.appendEntry log e = (after, .ok ()) → Admits e →
      e.offset = LocalLog.highest log + 1 ∧ Sound after ∧ entries after = entries log ++ [e]
  appendEntry_fails {log after : L} {e : Entry} {fault : Fault} :
    Sound log → LocalLog.appendEntry log e = (after, .error fault) →
      Sound after ∧ entries after = entries log ∧
        LocalLog.highest after = LocalLog.highest log

namespace LawfulLog

variable {L : Type} [LocalLog L] [LawfulLog L] {log after big : L} {e : Entry}

/-- The log retains everything that was ever written to it. -/
structure Complete (log : L) : Prop where
  sound : Sound log
  oldest : LocalLog.oldest log = 1

/-- The log retains an entry, and whoever reads one entry at its offset finds it, unless the read
fails. -/
def Holds (log : L) (e : Entry) : Prop :=
  e ∈ entries log ∧ e.offset ≤ LocalLog.highest log ∧
    ∀ found, LocalLog.read log e.offset 1 = .ok found → found = [e]

/-- A complete log has as many entries as its highest offset says. -/
theorem complete_length (complete : Complete log) :
    (entries log).length = LocalLog.highest log := by
  have span := entries_span complete.sound
  rw [complete.oldest] at span
  omega

/-- A complete log counts its entries from 1 on. -/
theorem complete_numbered (complete : Complete log) :
    (entries log).map Entry.offset = List.range' 1 (LocalLog.highest log) := by
  rw [entries_numbered complete.sound, complete.oldest, complete_length complete]

/-- An entry of a complete log stands at the place of its offset. -/
theorem complete_entry (complete : Complete log) (held : e ∈ entries log) :
    (entries log)[e.offset - 1]? = some e ∧ 1 ≤ e.offset ∧ e.offset ≤ LocalLog.highest log := by
  obtain ⟨old, place⟩ := place_of_numbered (entries_numbered complete.sound) held
  have within := (List.getElem?_eq_some_iff.mp place).1
  rw [complete.oldest] at old place within
  rw [complete_length complete] at within
  exact ⟨place, old, by omega⟩

/-- Entries that are numbered without a gap and reach up to an offset are those behind it. -/
theorem filter_numbered (start first : Nat) (l : List Entry)
    (numbered : l.map Entry.offset = List.range' first l.length) :
    l.filter (start ≤ ·.offset) = l.drop (start - first) := by
  induction l generalizing first with
  | nil => simp
  | cons e rest ih =>
    rw [List.map_cons, List.length_cons, List.range'_succ] at numbered
    obtain ⟨head, tail⟩ := List.cons.inj numbered
    by_cases reached : start ≤ first
    · have all : ∀ x ∈ rest, start ≤ x.offset := by
        intro x member
        have := List.mem_map_of_mem (f := Entry.offset) member
        rw [tail, List.mem_range'_1] at this
        omega
      have none : start - first = 0 := by omega
      rw [none, List.drop_zero, List.filter_eq_self]
      simpa [head, reached] using all
    · have later : start - first = start - (first + 1) + 1 := by omega
      rw [later, List.drop_succ_cons, ← ih (first + 1) tail, List.filter_cons_of_neg]
      simpa [head] using reached

/-- An entry of a complete log is found by reading one entry at its offset. -/
theorem holds_of_mem (complete : Complete log) (held : e ∈ entries log) : Holds log e := by
  obtain ⟨place, positive, within⟩ := complete_entry complete held
  refine ⟨held, within, fun found read => ?_⟩
  rw [read_gives complete.sound read, filter_numbered e.offset _ _ (entries_numbered complete.sound),
    complete.oldest, List.take_one, List.head?_drop, place, Option.toList_some]

/-- What a complete log gives to a reader is its own. -/
theorem mem_of_read (complete : Complete log) {start limit : Nat} {found : List Entry}
    (read : LocalLog.read log start limit = .ok found) (given : e ∈ found) : e ∈ entries log := by
  rw [read_gives complete.sound read] at given
  exact (List.mem_filter.mp (List.mem_of_mem_take given)).1

/-- A log with the same entries and the same end is as complete. -/
theorem complete_of_same (complete : Complete log) (sound : Sound after)
    (same : entries after = entries log)
    (ends : LocalLog.highest after = LocalLog.highest log) : Complete after := by
  refine ⟨sound, ?_⟩
  have span := entries_span sound
  have length := complete_length complete
  rw [same] at span
  omega

/-- A complete log stays complete when the next entry is added. -/
theorem complete_of_next (complete : Complete log) (sound : Sound after)
    (next : entries after = entries log ++ [e]) (offset : e.offset = LocalLog.highest log + 1) :
    Complete after ∧ LocalLog.highest after = e.offset := by
  have span := entries_span sound
  have numbers := entries_numbered sound
  have length := complete_length complete
  rw [next, List.length_append, List.length_singleton] at span numbers
  have last := congrArg (·[(entries log).length]?) numbers
  simp only [List.map_append, List.map_cons, List.map_nil, List.getElem?_range' (Nat.lt_succ_self _),
    List.getElem?_append_right (Nat.le_of_eq (List.length_map _)), List.length_map, Nat.sub_self,
    List.getElem?_cons_zero, Option.some.injEq] at last
  exact ⟨⟨sound, by omega⟩, by omega⟩

/-- An entry of the longer log that comes next in the shorter one keeps it a beginning of the
longer. -/
theorem prefix_of_next (small : Complete log) (large : Complete big)
    (begins : entries log <+: entries big) (held : e ∈ entries big)
    (next : e.offset = LocalLog.highest log + 1) : entries log ++ [e] <+: entries big := by
  obtain ⟨place, -, -⟩ := complete_entry large held
  rw [next, Nat.add_sub_cancel, ← complete_length small] at place
  obtain ⟨rest, split⟩ := begins
  rw [← split, List.getElem?_append_right (Nat.le_refl _), Nat.sub_self] at place
  cases rest with
  | nil => cases place
  | cons head rest =>
    cases place
    exact ⟨rest, by rw [← split, List.append_assoc, List.singleton_append]⟩

/-- A log that begins another one and reaches up to an entry has that entry. -/
theorem mem_of_begins (small : Complete log) (large : Complete big)
    (begins : entries log <+: entries big) (held : e ∈ entries big)
    (reaches : e.offset ≤ LocalLog.highest log) : e ∈ entries log := by
  obtain ⟨place, positive, -⟩ := complete_entry large held
  have within : e.offset - 1 < (entries log).length := by
    rw [complete_length small]
    omega
  obtain ⟨rest, split⟩ := begins
  rw [← split, List.getElem?_append_left within] at place
  exact List.mem_of_getElem? place

end LawfulLog

/-! ### The log in memory -/

namespace VolatileLog

/-- The entries are numbered without a gap and end at the highest offset. -/
structure Numbered (log : VolatileLog) : Prop where
  offsets : log.entries.map Entry.offset = List.range' log.oldest log.entries.length
  span : log.oldest + log.entries.length = log.highest + 1

private theorem oldest_push {log : VolatileLog} (numbered : log.Numbered) {e : Entry}
    (next : e.offset = log.highest + 1) : (log.push e).oldest = log.oldest := by
  have span := numbered.span
  cases h : log.entries with
  | nil =>
    simp only [h, List.length_nil] at span
    simp only [push, oldest, h, List.nil_append]
    exact next
  | cons first rest => simp [push, oldest, h]

/-- Another entry at the end keeps the numbers without a gap. -/
theorem numbered_push {log : VolatileLog} (numbered : log.Numbered) {e : Entry}
    (next : e.offset = log.highest + 1) : (log.push e).Numbered := by
  have first := oldest_push numbered next
  have span := numbered.span
  constructor
  · rw [first]
    simp only [push, List.map_append, List.map_cons, List.map_nil, List.length_append,
      List.length_singleton, List.range'_concat, numbered.offsets]
    congr 2
    omega
  · rw [first]
    simp only [push, List.length_append, List.length_singleton]
    omega

theorem append_of_ok {log after : VolatileLog} {payload : Bytes} {metadata : Option Bytes}
    {offset : Nat} (ran : log.append payload metadata = (after, .ok offset)) :
    offset = log.highest + 1 ∧ after = log.push ⟨offset, payload, metadata⟩ := by
  unfold append at ran
  split at ran <;> cases ran
  exact ⟨rfl, rfl⟩

theorem append_of_error {log after : VolatileLog} {payload : Bytes} {metadata : Option Bytes}
    {fault : Fault} (ran : log.append payload metadata = (after, .error fault)) : after = log := by
  unfold append at ran
  split at ran <;> cases ran
  rfl

theorem appendEntry_of_ok {log after : VolatileLog} {e : Entry}
    (ran : log.appendEntry e = (after, .ok ())) :
    e.offset = log.highest + 1 ∧ after = log.push e := by
  unfold appendEntry at ran
  split at ran
  · cases ran
  · split at ran <;> cases ran
    rename_i next
    exact ⟨Decidable.not_not.mp next, rfl⟩

theorem appendEntry_of_error {log after : VolatileLog} {e : Entry} {fault : Fault}
    (ran : log.appendEntry e = (after, .error fault)) : after = log := by
  unfold appendEntry at ran
  split at ran
  · cases ran; rfl
  · split at ran <;> cases ran
    rfl

/-- Reading skips to the offset that is asked for. -/
theorem read_of_numbered {log : VolatileLog} (numbered : log.Numbered) (start limit : Nat) :
    log.read start limit = (log.entries.filter (start ≤ ·.offset)).take limit := by
  rw [LawfulLog.filter_numbered start _ _ numbered.offsets]
  unfold read oldest
  cases log.entries <;> simp

instance : LawfulLog VolatileLog where
  append_takes_next ran := by
    obtain ⟨offset, rfl⟩ := append_of_ok ran
    exact ⟨offset, rfl⟩
  append_fails_in_place ran := by rw [append_of_error ran]
  Sound := Numbered
  entries := entries
  Admits _ := True
  entries_numbered numbered := numbered.offsets
  entries_span numbered := numbered.span
  entries_admitted _ _ := trivial
  read_gives {log start limit _} numbered ran := by
    rw [← Except.ok.inj ran]
    exact read_of_numbered numbered start limit
  append_stores numbered ran _ := by
    obtain ⟨offset, rfl⟩ := append_of_ok ran
    exact ⟨numbered_push numbered offset, rfl⟩
  append_fails numbered ran := by
    rw [append_of_error ran]
    exact ⟨numbered, rfl⟩
  appendEntry_stores numbered ran _ := by
    obtain ⟨next, rfl⟩ := appendEntry_of_ok ran
    exact ⟨next, numbered_push numbered next, rfl⟩
  appendEntry_fails numbered ran := by
    rw [appendEntry_of_error ran]
    exact ⟨numbered, rfl, rfl⟩

end VolatileLog

/-! ### The log in a directory -/

namespace SegmentLog

variable {medium : Medium} {log after : SegmentLog}

private theorem startSegment_highest {base : Nat}
    (ran : log.startSegment medium base = .ok after) : after.highest = log.highest := by
  unfold startSegment at ran
  split at ran
  · cases ran
  · split at ran <;> cases ran
    rfl

/-- Where the log ends after an entry was handed to it, by the result of the call. -/
def endAfter (log : SegmentLog) (e : Entry) : Except Fault Unit → Nat
  | .ok () => e.offset
  | .error _ => log.highest

private theorem writeRecord_highest {e : Entry} {result : Except Fault Unit}
    (ran : log.writeRecord medium e = (after, result)) :
    after.highest = log.endAfter e result := by
  unfold writeRecord at ran
  split at ran
  · dsimp only at ran
    split at ran <;> cases ran <;> rfl
  · cases ran; rfl

/-- An entry that is stored becomes the end of the log, and one that is not leaves the end in
place. -/
theorem store_highest {e : Entry} {result : Except Fault Unit}
    (ran : log.store medium e = (after, result)) : after.highest = log.endAfter e result := by
  unfold store at ran
  split at ran
  · split at ran
    · cases ran; rfl
    · rename_i started
      rw [writeRecord_highest ran]
      cases result
      · exact startSegment_highest started
      · rfl
  · exact writeRecord_highest ran

private theorem append_highest {payload : Bytes} {metadata : Option Bytes}
    {result : Except Fault Nat} (ran : log.append medium payload metadata = (after, result)) :
    match result with
    | .ok offset => offset = log.highest + 1 ∧ after.highest = offset
    | .error _ => after.highest = log.highest := by
  cases stored : log.store medium ⟨log.highest + 1, payload, metadata⟩ with
  | mk next outcome =>
    have ends := store_highest stored
    simp only [append, stored] at ran
    cases outcome <;> cases ran
    · exact ends
    · exact ⟨rfl, ends⟩

instance : NumberedLog SegmentLog where
  append_takes_next ran := append_highest ran
  append_fails_in_place ran := append_highest ran

end SegmentLog

namespace Store

variable {K : Type} [LocalLog K] [NumberedLog K] {payload : Bytes} {metadata : Option Bytes}

private theorem takes_next (log : K) {offset : Nat}
    (result : (LocalLog.append log payload metadata).2 = .ok offset) :
    offset = LocalLog.highest log + 1 ∧
      LocalLog.highest (LocalLog.append log payload metadata).1 = offset :=
  NumberedLog.append_takes_next
    (Prod.ext rfl result : LocalLog.append log payload metadata = (_, .ok offset))

private theorem fails_in_place (log : K) {fault : Fault}
    (result : (LocalLog.append log payload metadata).2 = .error fault) :
    LocalLog.highest (LocalLog.append log payload metadata).1 = LocalLog.highest log :=
  NumberedLog.append_fails_in_place
    (Prod.ext rfl result : LocalLog.append log payload metadata = (_, .error fault))

instance : NumberedLog Store where
  append_takes_next {log _ _ _ _} ran := by
    cases log with
    | volatile log =>
      obtain ⟨rfl, result⟩ := Prod.mk.inj ran
      exact takes_next log result
    | segmented log =>
      obtain ⟨rfl, result⟩ := Prod.mk.inj ran
      exact takes_next log result
  append_fails_in_place {log _ _ _ _} ran := by
    cases log with
    | volatile log =>
      obtain ⟨rfl, result⟩ := Prod.mk.inj ran
      exact fails_in_place log result
    | segmented log =>
      obtain ⟨rfl, result⟩ := Prod.mk.inj ran
      exact fails_in_place log result

end Store

end QuorumLog
