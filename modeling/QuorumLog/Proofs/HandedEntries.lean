import QuorumLog.Proofs.FailedAppends
import QuorumLog.Proofs.FrameFormat
import QuorumLog.Proofs.ReadableRecords
import QuorumLog.Proofs.StoredLog

/-! What a log promises to those who hand it entries that were numbered elsewhere. It takes an entry that
a record can hold as the next one or stays as it was, whatever the medium does. Both kinds of log keep this
promise, and so does a log in a directory whose medium may fail at any call. A frame never carries an entry
that a record cannot hold. -/

namespace QuorumLog

/-! ### The promise -/

/-- A log that takes an entry as a whole or not at all, if a record can hold it. -/
class IntakeLog (L : Type) [LocalLog L] where
  /-- What the log keeps true of itself. -/
  Sound : L → Prop
  /-- The retained entries, by ascending offset. -/
  entries : L → List Entry
  entries_numbered {log : L} : Sound log → (entries log).map Entry.offset =
    List.range' (LocalLog.oldest log) (entries log).length
  entries_span {log : L} : Sound log →
    LocalLog.oldest log + (entries log).length = LocalLog.highest log + 1
  stores {log after : L} {e : Entry} : Sound log → Record.Fits e →
    LocalLog.appendEntry log e = (after, .ok ()) →
      e.offset = LocalLog.highest log + 1 ∧ Sound after ∧ entries after = entries log ++ [e]
  fails {log after : L} {e : Entry} {fault : Fault} : Sound log → Record.Fits e →
    LocalLog.appendEntry log e = (after, .error fault) →
      Sound after ∧ entries after = entries log ∧
        LocalLog.highest after = LocalLog.highest log

namespace IntakeLog

/-- A log that gives back what it was given keeps the promise, if it admits what a record can hold. -/
@[reducible] def ofLawful (L : Type) [LocalLog L] [LawfulLog L]
    (holds : ∀ e, Record.Fits e → LawfulLog.Admits L e) : IntakeLog L where
  Sound := LawfulLog.Sound
  entries := LawfulLog.entries
  entries_numbered := LawfulLog.entries_numbered
  entries_span := LawfulLog.entries_span
  stores sound fits ran := LawfulLog.appendEntry_stores sound ran (holds _ fits)
  fails sound _ ran := LawfulLog.appendEntry_fails sound ran

instance : IntakeLog VolatileLog := ofLawful VolatileLog fun _ _ => trivial

instance : IntakeLog SegmentLog := ofLawful SegmentLog fun _ => id

instance : IntakeLog Store := ofLawful Store fun _ => id

variable {L : Type} [LocalLog L] [IntakeLog L] {log after : L} {e : Entry} {offset : Nat}

/-- A log retains an entry at every offset from its oldest to its highest. -/
theorem exists_retained (sound : Sound log) (low : LocalLog.oldest log ≤ offset)
    (high : offset ≤ LocalLog.highest log) : ∃ e ∈ entries log, e.offset = offset := by
  have span := entries_span sound
  have within : offset ∈ (entries log).map Entry.offset := by
    rw [entries_numbered sound, List.mem_range'_1]
    omega
  exact List.mem_map.mp within

/-- No two retained entries have the same offset. -/
theorem eq_of_offset (sound : Sound log) {x y : Entry} (left : x ∈ entries log)
    (right : y ∈ entries log) (same : x.offset = y.offset) : x = y := by
  have distinct : ((entries log).map Entry.offset).Nodup := by
    rw [entries_numbered sound]
    exact List.nodup_range'
  exact List.inj_on_of_nodup_map distinct left right same

/-- The next entry becomes the end of the log. -/
theorem highest_of_stored (sound : Sound log) (fits : Record.Fits e)
    (ran : LocalLog.appendEntry log e = (after, .ok ())) :
    LocalLog.highest after = e.offset ∧ LocalLog.oldest after = LocalLog.oldest log := by
  obtain ⟨next, sound', more⟩ := stores sound fits ran
  have span := entries_span sound
  have span' := entries_span sound'
  have numbers := entries_numbered sound'
  rw [more, List.length_append, List.length_singleton] at span' numbers
  rw [List.map_append, List.range'_concat] at numbers
  have last := (List.append_inj' numbers rfl).2
  rw [List.map_singleton, List.singleton_inj] at last
  omega

end IntakeLog

/-! ### A medium that may fail at any call -/

/-- A log in a directory, and what its medium will do. -/
structure WornLog where
  log : SegmentLog
  /-- What the medium does during the next calls; after these it is sound. -/
  media : List Medium := []

namespace WornLog

/-- What the medium does during the next call. -/
def medium (w : WornLog) : Medium := w.media.headD .sound

/-- The log after a call. -/
def after (w : WornLog) (log : SegmentLog) : WornLog := ⟨log, w.media.tail⟩

instance : LocalLog WornLog where
  append w payload metadata :=
    let (log, result) := w.log.append w.medium payload metadata
    (w.after log, result)
  appendEntry w e :=
    let (log, result) := w.log.appendEntry w.medium e
    (w.after log, result)
  read w := w.log.read
  highest w := w.log.highest
  oldest w := w.log.oldest
  purge w offset :=
    let (log, result) := w.log.purge w.medium offset
    (w.after log, result)

variable {w w' : WornLog} {parts : List SegmentLog.Part} {e : Entry}

/-- What an entry comes to, by its result. -/
private theorem appendEntry_result {result : Except Fault Unit}
    (backed : w.log.Backed parts) (fits : Record.Fits e)
    (ran : LocalLog.appendEntry w e = (w', result)) :
    (result = .ok () ∧ e.offset = w.log.highest + 1 ∧ ∃ parts', w'.log.Backed parts' ∧
      parts'.flatMap (·.2) = parts.flatMap (·.2) ++ [e]) ∨
    ((∃ fault, result = .error fault) ∧ w'.log.highest = w.log.highest ∧ ∃ parts',
      w'.log.Backed parts' ∧ parts'.flatMap (·.2) = parts.flatMap (·.2)) := by
  cases handed : w.log.appendEntry w.medium e with
  | mk log outcome =>
    have whole : LocalLog.appendEntry w e = (w.after log, outcome) := by
      show (w.after (w.log.appendEntry w.medium e).1, (w.log.appendEntry w.medium e).2) = _
      rw [handed]
    obtain ⟨rfl, rfl⟩ := Prod.mk.inj (whole.symm.trans ran)
    by_cases comes : e.offset = w.log.highest + 1
    · rw [SegmentLog.appendEntry_of_next comes] at handed
      have room : w.log.highest + 1 < UInt64.size := comes ▸ fits.1
      rcases backed.stored room comes handed with
        ⟨fault, failed, left⟩ | ⟨done, -, init, s, es, -, -, same, extended⟩
      · obtain ⟨parts', backed', same, ends, -⟩ := backed.left room left
        exact .inr ⟨⟨fault, failed⟩, ends, parts', backed', same⟩
      · refine .inl ⟨done, comes, _, extended fits, ?_⟩
        rw [← same]
        simp
    · rw [SegmentLog.appendEntry, if_pos comes] at handed
      obtain ⟨rfl, rfl⟩ := Prod.mk.inj handed
      exact .inr ⟨⟨_, rfl⟩, rfl, parts, backed, rfl⟩

instance : IntakeLog WornLog where
  Sound w := ∃ parts, w.log.Backed parts
  entries w := w.log.entries
  entries_numbered := by
    rintro w ⟨parts, backed⟩
    rw [backed.entries]
    exact backed.retained.1
  entries_span := by
    rintro w ⟨parts, backed⟩
    rw [backed.entries]
    exact backed.retained.2
  stores := by
    rintro w w' e ⟨parts, backed⟩ fits ran
    rcases appendEntry_result backed fits ran with
      ⟨-, next, parts', backed', more⟩ | ⟨⟨fault, failed⟩, -⟩
    · exact ⟨next, ⟨parts', backed'⟩, by rw [backed'.entries, backed.entries, more]⟩
    · cases failed
  fails := by
    rintro w w' e fault ⟨parts, backed⟩ fits ran
    rcases appendEntry_result backed fits ran with
      ⟨done, -⟩ | ⟨-, ends, parts', backed', same⟩
    · cases done
    · exact ⟨⟨parts', backed'⟩, by rw [backed'.entries, backed.entries, same], ends⟩

/-- A log that was opened from any files is sound. -/
theorem sound_of_recover {settings : StoreSettings} {d : Directory} {log : SegmentLog}
    (regular : SegmentLog.Regular d) (opened : SegmentLog.recover settings d = .ok log)
    (media : List Medium) : IntakeLog.Sound (WornLog.mk log media) := by
  obtain ⟨parts, backed, -⟩ := SegmentLog.backed_of_recover regular opened
  exact ⟨parts, backed⟩

end WornLog

/-! ### What a frame carries -/

/-- The message can arrive in a frame. -/
def Message.Arrives (m : Message) : Prop := ∃ frame, Frame.decode frame = .ok m

theorem Message.arrives_of_fits {m : Message} (fits : m.Fits) (small : m.payloadSize < UInt32.size) :
    m.Arrives :=
  ⟨_, Frame.decode_sealed fits (by simpa using small : m.payloadSize + ([] : Bytes).length < _)⟩

/-- A record can hold every entry that arrives in a frame. -/
theorem Message.Arrives.fits {e : Entry} (arrives : (Message.entry e).Arrives) : Record.Fits e := by
  obtain ⟨frame, read⟩ := arrives
  obtain ⟨fits, padding, small, -⟩ := Frame.of_decode read
  refine ⟨fits, ?_⟩
  rw [Record.length_body]
  simp only [Message.payloadSize] at small
  cases metadata : e.metadata <;> simp only [metadata] at small ⊢ <;> omega

end QuorumLog
