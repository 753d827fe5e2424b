import QuorumLog.Proofs.ComparedHistory
import QuorumLog.Proofs.StoredRuns

/-! A replica says hello whose log took the beginning of its master's history. The check of the master
is about the last entry of the replica, and a replica that does not retain it says 0 in place of its
checksum. So a log in memory that has forgotten everything is turned away although nothing is wrong with
it, and every other one is welcomed. -/

namespace QuorumLog

/-- A log of which every read comes to something. -/
class ReadableLog (L : Type) [LocalLog L] [LawfulLog L] : Prop where
  read_ok {log : L} (start limit : Nat) : LawfulLog.Sound log →
    ∃ found, LocalLog.read log start limit = .ok found

instance : ReadableLog VolatileLog where
  read_ok _ _ _ := ⟨_, rfl⟩

instance : ReadableLog SegmentLog where
  read_ok start limit sound := by
    obtain ⟨parts, filed⟩ := sound
    exact ⟨_, filed.read start limit⟩

instance : ReadableLog Store where
  read_ok {log} start limit sound := by
    cases log with
    | volatile log => exact ReadableLog.read_ok (L := VolatileLog) start limit sound.1
    | segmented log => exact ReadableLog.read_ok (L := SegmentLog) start limit sound

section Logs

variable {L : Type} [LocalLog L] [LawfulLog L] {log : L} {history : List Entry} {offset : Nat}

/-- A log that began empty, with every entry that it took since. Calls may have failed, and old entries
may have been forgotten. -/
inductive Grown : List Entry → L → Prop
  | empty {log : L} (sound : LawfulLog.Sound log) (ends : LocalLog.highest log = 0)
      (none : LawfulLog.entries log = []) : Grown [] log
  | append {history : List Entry} {log : L} (grown : Grown history log) {payload : Bytes}
      {metadata : Option Bytes} {offset : Nat}
      (ran : (LocalLog.append log payload metadata).2 = .ok offset)
      (admits : LawfulLog.Admits L ⟨offset, payload, metadata⟩) :
      Grown (history ++ [⟨offset, payload, metadata⟩]) (LocalLog.append log payload metadata).1
  | refused {history : List Entry} {log : L} (grown : Grown history log) {payload : Bytes}
      {metadata : Option Bytes} {fault : Fault}
      (ran : (LocalLog.append log payload metadata).2 = .error fault) :
      Grown history (LocalLog.append log payload metadata).1
  | take {history : List Entry} {log : L} (grown : Grown history log) {e : Entry}
      (ran : (LocalLog.appendEntry log e).2 = .ok ()) (admits : LawfulLog.Admits L e) :
      Grown (history ++ [e]) (LocalLog.appendEntry log e).1
  | reject {history : List Entry} {log : L} (grown : Grown history log) {e : Entry} {fault : Fault}
      (ran : (LocalLog.appendEntry log e).2 = .error fault) :
      Grown history (LocalLog.appendEntry log e).1
  | purge {history : List Entry} {log : L} (grown : Grown history log) (offset : Nat) :
      Grown history (LocalLog.purge log offset).1

/-- A log ends with its last entry. -/
theorem highest_of_last (sound : LawfulLog.Sound log) {older : List Entry} {e : Entry}
    (entries : LawfulLog.entries log = older ++ [e]) : LocalLog.highest log = e.offset := by
  have held : e ∈ LawfulLog.entries log := by simp [entries]
  have span := LawfulLog.entries_span sound
  have numbers := LawfulLog.entries_numbered sound
  rw [entries, List.length_append, List.length_singleton] at span numbers
  rw [List.map_append, List.range'_1_concat, List.map_singleton] at numbers
  have last := (List.append_inj' numbers rfl).2
  simp only [List.cons.injEq, and_true] at last
  omega

/-- A log in step with all that it ever took. -/
structure Remembers (log : L) (history : List Entry) : Prop where
  sound : LawfulLog.Sound log
  numbered : history.map Entry.offset = List.range' 1 history.length
  ends : LocalLog.highest log = history.length
  retains : LawfulLog.entries log <:+ history

/-- A complete log is in step with its own entries. -/
theorem remembers_of_complete (complete : LawfulLog.Complete log) :
    Remembers log (LawfulLog.entries log) where
  sound := complete.sound
  numbered := by
    rw [LawfulLog.complete_numbered complete, LawfulLog.complete_length complete]
  ends := (LawfulLog.complete_length complete).symm
  retains := List.suffix_refl _

private theorem Remembers.next {after : L} {e : Entry} (remembers : Remembers log history)
    (sound : LawfulLog.Sound after) (next : e.offset = LocalLog.highest log + 1)
    (entries : LawfulLog.entries after = LawfulLog.entries log ++ [e])
    (ends : LocalLog.highest after = e.offset) : Remembers after (history ++ [e]) where
  sound := sound
  numbered := SegmentLog.numbered_snoc remembers.numbered (remembers.ends ▸ next)
  ends := by rw [ends, next, remembers.ends, List.length_append, List.length_singleton]
  retains := by
    obtain ⟨gone, split⟩ := remembers.retains
    exact ⟨gone, by rw [entries, ← List.append_assoc, split]⟩

theorem Grown.remembers [PurgeableLog L] (grown : Grown history log) : Remembers log history := by
  induction grown with
  | empty sound ends none => exact ⟨sound, rfl, ends, none ▸ List.suffix_refl _⟩
  | @append history log grown payload metadata offset ran admits ih =>
    have call : LocalLog.append log payload metadata = (_, .ok offset) := Prod.ext rfl ran
    obtain ⟨next, ends⟩ := NumberedLog.append_takes_next call
    obtain ⟨sound, entries⟩ := LawfulLog.append_stores ih.sound call admits
    exact ih.next sound next entries ends
  | @refused history log grown payload metadata fault ran ih =>
    have call : LocalLog.append log payload metadata = (_, .error fault) := Prod.ext rfl ran
    obtain ⟨sound, entries⟩ := LawfulLog.append_fails ih.sound call
    exact ⟨sound, ih.numbered, (NumberedLog.append_fails_in_place call).trans ih.ends,
      entries ▸ ih.retains⟩
  | @take history log grown e ran admits ih =>
    have call : LocalLog.appendEntry log e = (_, .ok ()) := Prod.ext rfl ran
    obtain ⟨next, sound, entries⟩ := LawfulLog.appendEntry_stores ih.sound call admits
    exact ih.next sound next entries (highest_of_last sound entries)
  | @reject history log grown e fault ran ih =>
    have call : LocalLog.appendEntry log e = (_, .error fault) := Prod.ext rfl ran
    obtain ⟨sound, entries, ends⟩ := LawfulLog.appendEntry_fails ih.sound call
    exact ⟨sound, ih.numbered, ends.trans ih.ends, entries ▸ ih.retains⟩
  | @purge history log grown offset ih =>
    obtain ⟨sound, ends, gone, -, split, -⟩ :=
      PurgeableLog.purge_forgets ih.sound (Prod.ext rfl rfl : LocalLog.purge log offset = (_, _))
    refine ⟨sound, ih.numbered, ends.trans ih.ends, ?_⟩
    exact List.IsSuffix.trans ⟨gone, split.symm⟩ ih.retains

/-! ### The last entry -/

/-- Every offset from the oldest to the last has its entry, which is the one of the history. -/
theorem Remembers.entry (remembers : Remembers log history)
    (old : LocalLog.oldest log ≤ offset) (reached : offset ≤ history.length) :
    ∃ e ∈ LawfulLog.entries log, e.offset = offset ∧ history[offset - 1]? = some e := by
  obtain ⟨e, held, here⟩ :=
    LawfulLog.exists_of_offset remembers.sound old (remembers.ends.symm ▸ reached)
  refine ⟨e, held, here, ?_⟩
  obtain ⟨i, place⟩ := List.getElem?_of_mem (remembers.retains.mem held)
  have within := (List.getElem?_eq_some_iff.mp place).1
  have number := congrArg (·[i]?) remembers.numbered
  simp only [List.getElem?_map, place, Option.map_some, List.getElem?_range' within,
    Option.some.injEq] at number
  rwa [show offset - 1 = i by omega]

/-- An entry of a log that began empty has an offset from 1 on. -/
theorem Remembers.positive (remembers : Remembers log history) {e : Entry}
    (held : e ∈ LawfulLog.entries log) : 1 ≤ e.offset ∧ e.offset ≤ history.length := by
  have member := List.mem_map_of_mem (f := Entry.offset) (remembers.retains.mem held)
  rw [remembers.numbered, List.mem_range'_1] at member
  omega

variable [ReadableLog L]

/-- The checksum at an offset is that of the entry in the history, if the log retains the offset. -/
theorem Remembers.checksumAt (remembers : Remembers log history) (positive : 1 ≤ offset)
    (reached : offset ≤ history.length) : LocalLog.checksumAt log offset =
      .ok (if LocalLog.oldest log ≤ offset then (history[offset - 1]?).map Entry.checksum
        else none) := by
  obtain ⟨found, read⟩ := ReadableLog.read_ok offset 1 remembers.sound
  have told : LocalLog.checksumAt log offset =
      .ok ((found.find? (·.offset = offset)).map Entry.checksum) := by
    simp [LocalLog.checksumAt, read, Except.map]
  by_cases old : LocalLog.oldest log ≤ offset
  · obtain ⟨e, held, rfl, place⟩ := remembers.entry old reached
    rw [told, LawfulLog.checksumAt_of_mem remembers.sound held told, if_pos old, place,
      Option.map_some]
  · have missed : found.find? (·.offset = offset) = none := by
      refine List.find?_eq_none.mpr fun e member here => ?_
      rw [LawfulLog.read_gives remembers.sound read] at member
      have held := (List.mem_filter.mp (List.mem_of_mem_take member)).1
      have first := (LawfulLog.place_of_mem remembers.sound held).1
      have same : e.offset = offset := by simpa using here
      exact old (same ▸ first)
    rw [told, missed, if_neg old, Option.map_none]

end Logs

/-! ### The handshake -/

variable {K : Type} [LocalLog K] [LawfulLog K] {mine : K} {history : List Entry}

/-- The master retains an entry at the end of a replica's log and the replica does not, so it says 0
where the master has another checksum. -/
def Misread {L : Type} [LocalLog L] (mine : K) (theirs : L) : Prop :=
  LocalLog.highest theirs < LocalLog.oldest theirs ∧
    ∃ e ∈ LawfulLog.entries mine, e.offset = LocalLog.highest theirs ∧ e.checksum ≠ 0

/-- A log that retains everything shows its last entry. -/
theorem not_misread {L : Type} [LocalLog L] [LawfulLog L] {theirs : L}
    (complete : LawfulLog.Complete mine) (complete' : LawfulLog.Complete theirs) :
    ¬Misread mine theirs := by
  rintro ⟨forgotten, e, held, here, -⟩
  have first := (LawfulLog.complete_entry complete held).2.1
  rw [complete'.oldest] at forgotten
  omega

/-- What becomes of the hello of a replica. It is turned away as having another history if its last
entry is misread, and otherwise it passes, and then it takes the welcome. -/
structure Recognized {L : Type} [LocalLog L] (mine : K) (r : Replica L) (h : Hello) : Prop where
  said : r.hello = .ok h
  last : h.lastOffset = LocalLog.highest r.log
  passes : ¬Misread mine r.log → Master.checkHistory mine h = .ok ()
  fails : Misread mine r.log → Master.checkHistory mine h =
    .error (.divergence h.lastOffset (LocalLog.oldest mine) (LocalLog.highest mine))
  welcomed : ∀ name,
    (r.welcome h.lastOffset
        (.ok (.welcome ⟨name, LocalLog.highest mine, LocalLog.oldest mine⟩))).2 =
      .ok ⟨name, LocalLog.highest mine, LocalLog.oldest mine, h.lastOffset⟩

section Hello

variable {L : Type} [LocalLog L] [LawfulLog L] [ReadableLog L] {r : Replica L}

/-- The checksum that a replica says is that of the last entry, or 0 if it has none to say. -/
theorem hello_of_remembers (remembers : Remembers r.log history) : r.hello = .ok
    { replicaId := r.settings.nodeId
      token := r.settings.token
      lastOffset := history.length
      lastChecksum := if LocalLog.oldest r.log ≤ history.length then
        (history.getLast?.map Entry.checksum).getD 0 else 0
      version := Message.version } := by
  have ends : r.offset = history.length := remembers.ends
  unfold Replica.hello
  rw [ends]
  by_cases none : history.length = 0
  · have empty : history = [] := List.length_eq_zero_iff.mp none
    simp [empty]
  · rw [if_neg none, remembers.checksumAt (by omega) (Nat.le_refl _), ← List.getLast?_eq_getElem?]
    by_cases old : LocalLog.oldest r.log ≤ history.length
    · simp [old, Except.map]
    · simp [old, Except.map]

end Hello

section Check

variable [ReadableLog K] {h : Hello}

/-- A hello of a replica that is neither ahead nor too far behind passes if the master has no other
checksum for its last entry, and is turned away as diverged otherwise. -/
theorem checkHistory_of_remembers (remembers : Remembers mine history)
    (within : h.lastOffset ≤ history.length) (near : LocalLog.oldest mine ≤ h.lastOffset + 1) :
    Master.checkHistory mine h =
      if h.lastOffset ≠ 0 ∧ LocalLog.oldest mine ≤ h.lastOffset ∧
          (history[h.lastOffset - 1]?).any (·.checksum ≠ h.lastChecksum) then
        .error (.divergence h.lastOffset (LocalLog.oldest mine) (LocalLog.highest mine))
      else .ok () := by
  have inside : ¬(LocalLog.highest mine < h.lastOffset ∨ h.lastOffset + 1 < LocalLog.oldest mine) := by
    rw [remembers.ends]
    omega
  unfold Master.checkHistory Master.diverges Master.historyDiffers
  rw [if_neg inside]
  by_cases none : h.lastOffset = 0
  · simp [none]
  rw [if_neg none, remembers.checksumAt (by omega) within]
  by_cases old : LocalLog.oldest mine ≤ h.lastOffset
  · cases place : history[h.lastOffset - 1]? with
    | none => simp [old, Except.map]
    | some e =>
      by_cases same : e.checksum = h.lastChecksum
      · simp [old, same, Except.map]
      · simp [old, same, none, Except.map]
  · simp [old, Except.map]

end Check

private theorem getLast?_take_of_le {k : Nat} (some : k ≠ 0) (within : k ≤ history.length) :
    (history.take k).getLast? = history[k - 1]? := by
  rw [List.getLast?_eq_getElem?, List.length_take_of_le within, List.getElem?_take, if_pos (by omega)]

/-- The replica whose log took the beginning of the master's history is recognized, unless its last entry
is misread. -/
theorem recognized_of_remembers [ReadableLog K] {L : Type} [LocalLog L] [LawfulLog L] [ReadableLog L]
    {r : Replica L} {k : Nat} (remembers : Remembers mine history)
    (remembers' : Remembers r.log (history.take k)) (within : k ≤ history.length)
    (near : LocalLog.oldest mine ≤ k + 1) : ∃ h, Recognized mine r h := by
  have length : (history.take k).length = k := List.length_take_of_le within
  have ends : LocalLog.highest r.log = k := remembers'.ends.trans length
  have said := hello_of_remembers remembers'
  rw [length] at said
  refine ⟨_, said, ends.symm, fun trusted => ?_, fun misread => ?_, fun name => ?_⟩
  · rw [checkHistory_of_remembers remembers within near, if_neg]
    rintro ⟨some, old, differs⟩
    obtain ⟨e, held, here, place⟩ := remembers.entry old within
    rw [getLast?_take_of_le some within] at differs
    by_cases known : LocalLog.oldest r.log ≤ k
    · simp [place, known] at differs
    · refine trusted ⟨by omega, e, held, here.trans ends.symm, ?_⟩
      simpa [place, known] using differs
  · obtain ⟨forgotten, e, held, here, some⟩ := misread
    rw [ends] at forgotten here
    have old : LocalLog.oldest mine ≤ k := here ▸ (LawfulLog.place_of_mem remembers.sound held).1
    obtain ⟨e', held', here', place⟩ := remembers.entry old within
    have same : e' = e := LawfulLog.eq_of_offset remembers.sound held held' (here'.trans here.symm)
    have first := (remembers.positive held).1
    rw [checkHistory_of_remembers remembers within near, if_pos]
    refine ⟨by show k ≠ 0; omega, old, ?_⟩
    have unknown : ¬LocalLog.oldest r.log ≤ k := by omega
    simp [place, same, unknown, some]
  · have inside : ¬(LocalLog.highest mine < k ∨ k + 1 < LocalLog.oldest mine) := by
      rw [remembers.ends]
      omega
    simp [Replica.welcome, inside]

/-! ### A stored log retains its last entry -/

namespace SegmentLog

variable {log after : SegmentLog} {parts : List Part} {e : Entry}

/-- The last segment of a log has an entry. -/
def Tailed (log : SegmentLog) : Prop :=
  ∃ init last, log.Filed (init ++ [last]) ∧ last.2 ≠ []

/-- An entry is stored in the last segment. -/
theorem store_tail {medium : Medium} (ran : log.store medium e = (after, .ok ())) :
    ∃ s, after.segments.getLast? = some s ∧ s.positions ≠ [] := by
  have written (log : SegmentLog) (ran : log.writeRecord medium e = (after, .ok ())) :
      ∃ s, after.segments.getLast? = some s ∧ s.positions ≠ [] := by
    unfold writeRecord at ran
    split at ran
    · rename_i s handle tail _
      dsimp only at ran
      split at ran <;> cases ran
      exact ⟨s.push (Record.size e), List.getLast?_concat, by simp [Segment.push]⟩
    · cases ran
  unfold store at ran
  split at ran
  · split at ran
    · cases ran
    · exact written _ ran
  · exact written _ ran

theorem Filed.store_tailed (filed : log.Filed parts) (next : e.offset = log.highest + 1)
    (fits : Record.Fits e) (ran : log.store .sound e = (after, .ok ())) : after.Tailed := by
  obtain ⟨stored, parts', taken, -, -, filed'⟩ := filed.store next
  obtain rfl : stored = after := congrArg Prod.fst (taken.symm.trans ran)
  obtain ⟨s, tail, held⟩ := store_tail ran
  have files := filed' fits
  rcases List.eq_nil_or_concat' parts' with rfl | ⟨init, last, rfl⟩
  · simp [files.segments] at tail
  · have same : last.1 = s := by simpa [files.segments] using tail
    have stores := files.stores last (List.mem_append_right _ List.mem_cons_self)
    refine ⟨init, last, files, fun none => held ?_⟩
    rw [← same]
    exact (positions_eq_nil stores).mpr none

theorem Tailed.purge (tailed : log.Tailed) (offset : Nat) :
    (LocalLog.purge log offset).1.Tailed := by
  obtain ⟨init, last, filed, held⟩ := tailed
  obtain ⟨after, gone, kept, purged, -, filed', -⟩ := filed.purge_last offset
  have same : LocalLog.purge log offset = (after, _) := purged
  rw [same]
  exact ⟨kept, last, filed', held⟩

theorem Tailed.oldest (tailed : log.Tailed) : LocalLog.oldest log ≤ LocalLog.highest log := by
  obtain ⟨init, last, filed, held⟩ := tailed
  have sound : LawfulLog.Sound log := ⟨_, filed⟩
  have span := LawfulLog.entries_span sound
  have some : 1 ≤ (LawfulLog.entries log).length := by
    rw [show LawfulLog.entries log = _ from filed.entries]
    exact List.length_pos_iff.mpr (by simp [held])
  omega

private theorem Filed.append_ran (filed : log.Filed parts) (payload : Bytes)
    (metadata : Option Bytes) : ∃ after, LocalLog.append log payload metadata =
        (after, .ok (log.highest + 1)) ∧
      log.store .sound ⟨log.highest + 1, payload, metadata⟩ = (after, .ok ()) := by
  obtain ⟨after, -, stored, -⟩ := filed.store (e := ⟨log.highest + 1, payload, metadata⟩) rfl
  refine ⟨after, ?_, stored⟩
  show log.append .sound payload metadata = _
  rw [SegmentLog.append, stored]
  rfl

private theorem Filed.take_ran (filed : log.Filed parts) (next : e.offset = log.highest + 1) :
    ∃ after, LocalLog.appendEntry log e = (after, .ok ()) ∧
      log.store .sound e = (after, .ok ()) := by
  obtain ⟨after, -, stored, -⟩ := filed.store next
  refine ⟨after, ?_, stored⟩
  show log.appendEntry .sound e = _
  rw [SegmentLog.appendEntry, if_neg (not_not_intro next), stored]

/-- A log in a directory retains the last entry that it took, whatever is forgotten. -/
theorem tailed_of_grown {history : List Entry} (grown : Grown history log) :
    history = [] ∨ log.Tailed := by
  induction grown with
  | empty => exact .inl rfl
  | @append history log grown payload metadata offset ran admits ih =>
    obtain ⟨parts, filed⟩ := grown.remembers.sound
    obtain ⟨after, call, stored⟩ := filed.append_ran payload metadata
    rw [call] at ran ⊢
    cases ran
    exact .inr (filed.store_tailed rfl admits stored)
  | @refused history log grown payload metadata fault ran ih =>
    obtain ⟨parts, filed⟩ := grown.remembers.sound
    obtain ⟨after, call, -⟩ := filed.append_ran payload metadata
    rw [call] at ran
    cases ran
  | @take history log grown e ran admits ih =>
    obtain ⟨parts, filed⟩ := grown.remembers.sound
    by_cases next : e.offset = log.highest + 1
    · obtain ⟨after, call, stored⟩ := filed.take_ran next
      rw [call]
      exact .inr (filed.store_tailed next admits stored)
    · rw [log.appendEntry_of_apart next] at ran
      cases ran
  | @reject history log grown e fault ran ih =>
    obtain ⟨parts, filed⟩ := grown.remembers.sound
    by_cases next : e.offset = log.highest + 1
    · obtain ⟨after, call, -⟩ := filed.take_ran next
      rw [call] at ran
      cases ran
    · rwa [log.appendEntry_of_apart next]
  | @purge history log grown offset ih =>
    exact ih.imp_right fun tailed => tailed.purge offset

end SegmentLog

/-- A replica whose log took the beginning of its master's history, and forgot what it liked, and whose
next entry the master still has, gets through the handshake unless its last entry is misread. It never
is if the replica's log is in a directory. -/
theorem healthy_hello [PurgeableLog K] [ReadableLog K] (grown : Grown history mine) {k : Nat}
    (within : k ≤ history.length) (near : LocalLog.oldest mine ≤ k + 1) :
    (∀ {L : Type} [LocalLog L] [LawfulLog L] [PurgeableLog L] [ReadableLog L] (r : Replica L),
      Grown (history.take k) r.log → ∃ h, Recognized mine r h) ∧
    ∀ r : Replica SegmentLog, Grown (history.take k) r.log → ¬Misread mine r.log := by
  have remembers := grown.remembers
  refine ⟨fun r taken => ?_, fun r taken misread => ?_⟩
  · exact recognized_of_remembers remembers taken.remembers within near
  · obtain ⟨forgotten, e, held, here, -⟩ := misread
    rcases SegmentLog.tailed_of_grown taken with empty | tailed
    · have ends := taken.remembers.ends
      have first := (remembers.positive held).1
      rw [empty, List.length_nil] at ends
      omega
    · exact Nat.not_lt.mpr tailed.oldest forgotten

/-! ### Two replicas that forgot -/

theorem VolatileLog.grown_empty : Grown [] ({} : VolatileLog) :=
  .empty (⟨rfl, rfl⟩ : VolatileLog.Numbered {}) rfl rfl

theorem SegmentLog.grown_fresh (settings : StoreSettings) :
    Grown [] (⟨settings, {}, [], none, 0⟩ : SegmentLog) :=
  .empty (follows_fresh settings).sound rfl rfl

/-- A log in memory with two entries. -/
def twoEntries : VolatileLog :=
  (LocalLog.append (LocalLog.append ({} : VolatileLog) [97] none).1 [98] none).1

/-- An empty log in a directory that takes one entry for each segment. -/
def shortSegments : SegmentLog := ⟨{ StoreSettings.standard with segmentSize := 1 }, {}, [], none, 0⟩

/-- A replica that took both entries, and was told to forget them. -/
def tidyReplica : Replica SegmentLog where
  settings := Settings.replica "tidy" Settings.defaultBind
  log := (LocalLog.purge (LocalLog.appendEntry
    (LocalLog.appendEntry shortSegments ⟨1, [97], none⟩).1 ⟨2, [98], none⟩).1 3).1

/-- It still has the last one and gets through the handshake. -/
theorem tidy_passes : ∃ h, tidyReplica.hello = .ok h ∧ Master.checkHistory twoEntries h = .ok () := by
  have grown : Grown [⟨1, [97], none⟩, ⟨2, [98], none⟩] twoEntries :=
    .append (.append VolatileLog.grown_empty rfl trivial) rfl trivial
  have taken : Grown [⟨1, [97], none⟩, ⟨2, [98], none⟩] tidyReplica.log := by
    refine .purge (.take (.take (SegmentLog.grown_fresh _) ?_ ?_) ?_ ?_) 3
    · decide +kernel
    · exact ⟨by decide +kernel, by decide +kernel⟩
    · decide +kernel
    · exact ⟨by decide +kernel, by decide +kernel⟩
  obtain ⟨recognized, stored⟩ := healthy_hello grown (k := 2) (by decide) (by decide)
  obtain ⟨h, known⟩ := recognized tidyReplica taken
  exact ⟨h, known.said, known.passes (stored tidyReplica taken)⟩

/-- A replica in memory that took both entries, and was told to forget them. -/
def forgetfulReplica : Replica VolatileLog where
  settings := Settings.replica "forgetful" Settings.defaultBind
  log := (LocalLog.purge (LocalLog.appendEntry
    (LocalLog.appendEntry {} ⟨1, [97], none⟩).1 ⟨2, [98], none⟩).1 3).1

/-- It took the whole history of its master and lacks nothing, and it is turned away as having another
history. -/
theorem forgetful_is_turned_away :
    Grown [⟨1, [97], none⟩, ⟨2, [98], none⟩] twoEntries ∧
    Grown [⟨1, [97], none⟩, ⟨2, [98], none⟩] forgetfulReplica.log ∧
    LocalLog.oldest twoEntries ≤ LocalLog.highest forgetfulReplica.log + 1 ∧
    ∃ h, forgetfulReplica.hello = .ok h ∧
      Master.checkHistory twoEntries h = .error (.divergence 2 1 2) := by
  refine ⟨?_, ?_, by decide, _, rfl, by decide +kernel⟩
  · exact .append (.append VolatileLog.grown_empty rfl trivial) rfl trivial
  · exact .purge (.take (.take VolatileLog.grown_empty rfl trivial) rfl trivial) 3

end QuorumLog
