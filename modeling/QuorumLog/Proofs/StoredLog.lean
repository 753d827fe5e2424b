import QuorumLog.Proofs.RecordedLog

/-! A log in a directory that nobody else touches keeps the whole promise of a log, for entries that a
record can hold. Its segments follow one another without a gap, each file has the records of its
segment and nothing else, and only the last segment may be empty. -/

namespace QuorumLog

namespace SegmentLog

variable {parts init : List Part} {s : Segment} {es : List Entry} {e : Entry} {log after : SegmentLog}
variable {d : Directory} {path : String}

/-! ### Reading -/

/-- Segments that do not overlap, and whose entries can be read from their files. -/
structure Served (path : String) (d : Directory) (parts : List Part) : Prop where
  numbered : ∀ p ∈ parts, p.2.map Entry.offset = List.range' p.1.base p.2.length
  limit : ∀ p ∈ parts, p.1.limit = p.1.base + p.2.length
  reads : ∀ p ∈ parts, ∀ {offset : Nat}, p.1.base ≤ offset → ∀ count,
    p.1.read path d offset count = .ok ((p.2.drop (offset - p.1.base)).take count)
  ascending : parts.Pairwise Before

theorem Served.offset (served : Served path d parts) {p : Part} (held : p ∈ parts)
    (member : e ∈ p.2) : p.1.base ≤ e.offset ∧ e.offset < p.1.limit := by
  have within := List.mem_map_of_mem (f := Entry.offset) member
  rw [served.numbered p held, List.mem_range'_1] at within
  rw [served.limit p held]
  exact within

theorem Served.filter (served : Served path d parts) (keep : Part → Bool) :
    Served path d (parts.filter keep) where
  numbered p held := served.numbered p (List.mem_of_mem_filter held)
  limit p held := served.limit p (List.mem_of_mem_filter held)
  reads p held := served.reads p (List.mem_of_mem_filter held)
  ascending := served.ascending.filter keep

/-- Reading segment after segment gives the first entries from an offset on. -/
theorem Served.readSegments (served : Served path d parts) (start limit : Nat) :
    readSegments path d start limit (parts.map (·.1)) =
      .ok (((parts.flatMap (·.2)).filter (start ≤ ·.offset)).take limit) := by
  induction parts generalizing start limit with
  | nil => simp [SegmentLog.readSegments]
  | cons p later ih =>
    obtain ⟨apart, ascending⟩ := List.pairwise_cons.mp served.ascending
    have here : p ∈ p :: later := List.mem_cons_self
    have rest : Served path d later :=
      ⟨fun q member => served.numbered q (List.mem_cons_of_mem p member),
        fun q member => served.limit q (List.mem_cons_of_mem p member),
        fun q member => served.reads q (List.mem_cons_of_mem p member), ascending⟩
    have first : p.2.drop (max start p.1.base - p.1.base) =
        p.2.filter (start ≤ ·.offset) := by
      rw [LawfulLog.filter_numbered start p.1.base p.2 (served.numbered p here)]
      congr 1
      omega
    have skip : (later.flatMap (·.2)).filter (max start p.1.limit ≤ ·.offset) =
        (later.flatMap (·.2)).filter (start ≤ ·.offset) := by
      refine List.filter_congr fun x member => ?_
      obtain ⟨q, held, inside⟩ := List.mem_flatMap.mp member
      have behind := (rest.offset held inside).1
      have after : p.1.limit ≤ q.1.base := apart q held
      simp only [decide_eq_decide]
      omega
    simp only [List.map_cons, SegmentLog.readSegments]
    split
    · rename_i none
      simp [none]
    · rw [served.reads p here (Nat.le_max_right ..), first]
      dsimp only
      rw [ih rest, skip]
      simp only [Except.map, List.flatMap_cons, List.filter_append, List.take_append,
        List.length_take]
      congr 3
      omega

/-- A segment that starts below another one ends where the other starts, or below that. -/
theorem Served.limit_le (served : Served path d parts) {p q : Part} (left : p ∈ parts)
    (right : q ∈ parts) (below : p.1.base < q.1.base) : p.1.limit ≤ q.1.base := by
  have symmetric : Std.Symm fun p q : Part => Before p q ∨ Before q p := ⟨fun _ _ => Or.symm⟩
  have either : parts.Pairwise fun p q => Before p q ∨ Before q p := served.ascending.imp Or.inl
  have apart : p ≠ q := fun same => absurd below (same ▸ Nat.lt_irrefl _)
  rcases either.forall left right apart with before | after
  · exact before
  · have reach : q.1.limit ≤ p.1.base := after
    unfold Segment.limit at reach
    omega

/-- Segments that end below an offset have nothing to give from there on. -/
private theorem filter_of_kept (keep : Part → Bool) (start : Nat)
    (low : ∀ p ∈ parts, keep p = false → ∀ e ∈ p.2, e.offset < start) :
    ((parts.filter keep).flatMap (·.2)).filter (start ≤ ·.offset) =
      (parts.flatMap (·.2)).filter (start ≤ ·.offset) := by
  induction parts with
  | nil => rfl
  | cons p later ih =>
    obtain ⟨now, rest⟩ := List.forall_mem_cons.mp low
    cases kept : keep p with
    | true => simp [kept, ih rest]
    | false =>
      have none : p.2.filter (start ≤ ·.offset) = [] := by
        rw [List.filter_eq_nil_iff]
        intro x member
        have := now kept x member
        simp only [decide_eq_true_eq]
        omega
      simp [kept, ih rest, none]

/-- Whoever reads a log of such segments gets the first entries from an offset on. -/
theorem Served.read (served : Served log.settings.path log.directory parts)
    (segments : log.segments = parts.map (·.1))
    (ends : ∀ e ∈ parts.flatMap (·.2), e.offset ≤ log.highest) (start limit : Nat) :
    log.read start limit = .ok (((parts.flatMap (·.2)).filter (start ≤ ·.offset)).take limit) := by
  unfold SegmentLog.read
  split
  · rename_i nothing
    rcases nothing with beyond | none
    · have empty : (parts.flatMap (·.2)).filter (start ≤ ·.offset) = [] := by
        rw [List.filter_eq_nil_iff]
        intro x member
        have within := ends x member
        simp only [decide_eq_true_eq]
        omega
      rw [empty, List.take_nil]
    · rw [none, List.take_zero]
  unfold segmentsFrom
  rw [segments]
  split
  · exact served.readSegments start limit
  · rename_i first last
    obtain ⟨held, reached⟩ := List.mem_filter.mp (List.mem_of_getLast? last)
    obtain ⟨q, present, rfl⟩ := List.mem_map.mp held
    have kept : (parts.map (·.1)).filter (q.1.base ≤ ·.base) =
        (parts.filter (q.1.base ≤ ·.1.base)).map (·.1) := List.filter_map
    rw [kept, (served.filter _).readSegments, filter_of_kept]
    intro p member low x inside
    have below : p.1.base < q.1.base := by simpa using low
    have before := served.limit_le member present below
    have within := (served.offset member inside).2
    have here : q.1.base ≤ start := by simpa using reached
    omega

/-! ### The whole log -/

/-- The log knows its segments and their files, there are no others, and the last one is open for
appending and ends where the log ends. -/
structure Filed (log : SegmentLog) (parts : List Part) : Prop where
  segments : log.segments = parts.map (·.1)
  stores : ∀ p ∈ parts, p.1.Stores p.2
  files : ∀ p ∈ parts, log.directory.get? p.1.name = some (.file (Record.encodeAll p.2))
  joined : parts.IsChain Joins
  positive : ∀ p ∈ parts, 1 ≤ p.1.base
  ends : ∀ p ∈ parts.getLast?, p.1.limit = log.highest + 1
  active : log.active = parts.getLast?.map fun p => .file p.1.name
  names : ∀ name ∈ log.directory.names, ∃ p ∈ parts, name = p.1.name

/-- A record can hold each entry that is written in the files of the log. -/
theorem Filed.recorded (filed : log.Filed parts) : log.Recorded parts where
  segments := filed.segments
  holds p held := (filed.stores p held).holds
  files := filed.files
  joined := filed.joined
  positive := filed.positive
  ends := filed.ends
  active := filed.active
  names := filed.names

theorem Recorded.filed (recorded : log.Recorded parts)
    (fits : ∀ p ∈ parts, ∀ e ∈ p.2, Record.Fits e) : log.Filed parts where
  segments := recorded.segments
  stores p held := (recorded.holds p held).stores (fits p held)
  files := recorded.files
  joined := recorded.joined
  positive := recorded.positive
  ends := recorded.ends
  active := recorded.active
  names := recorded.names

/-- The offset of an entry is one of its segment. -/
theorem Filed.offset (filed : log.Filed parts) {p : Part} (held : p ∈ parts) (member : e ∈ p.2) :
    p.1.base ≤ e.offset ∧ e.offset < p.1.limit := (filed.stores p held).holds.offset member

/-- The entries of the files can be read. -/
theorem Filed.served (filed : log.Filed parts) : Served path log.directory parts where
  numbered p held := (filed.stores p held).numbered
  limit p held := (filed.stores p held).limit
  reads p held _ inside count := (filed.stores p held).read (filed.files p held) inside count
  ascending := before_of_joined filed.joined

theorem positions_eq_nil {p : Part} (stores : p.1.Stores p.2) : p.1.positions = [] ↔ p.2 = [] :=
  stores.holds.positions_eq_nil

/-- The entries are numbered without a gap and end at the highest offset. -/
theorem Filed.numbered (filed : log.Filed parts) :
    (parts.flatMap (·.2)).map Entry.offset =
        List.range' log.oldest (parts.flatMap (·.2)).length ∧
      log.oldest + (parts.flatMap (·.2)).length = log.highest + 1 ∧ 1 ≤ log.oldest :=
  filed.recorded.numbered

/-- Whoever reads gets the first entries from an offset on. -/
theorem Filed.read (filed : log.Filed parts) (start limit : Nat) : log.read start limit =
    .ok (((parts.flatMap (·.2)).filter (start ≤ ·.offset)).take limit) := by
  obtain ⟨numbers, span, -⟩ := filed.numbered
  refine filed.served.read filed.segments (fun x member => ?_) start limit
  have within := List.mem_map_of_mem (f := Entry.offset) member
  rw [numbers, List.mem_range'_1] at within
  omega

/-! ### Appending -/

/-- The next entry is stored, and kept as it is if a record can hold it. -/
theorem Filed.store (filed : log.Filed parts) (next : e.offset = log.highest + 1) :
    ∃ after parts', log.store .sound e = (after, .ok ()) ∧ after.highest = e.offset ∧
      parts'.flatMap (·.2) = parts.flatMap (·.2) ++ [e] ∧
      (Record.Fits e → after.Filed parts') := by
  obtain ⟨after, parts', stored, ends, more, recorded⟩ := filed.recorded.store next
  refine ⟨after, parts', stored, ends, more, fun fits => recorded.filed fun p held x inside => ?_⟩
  have among : x ∈ parts.flatMap (·.2) ++ [e] := more ▸ List.mem_flatMap.mpr ⟨p, held, inside⟩
  rcases List.mem_append.mp among with old | new
  · obtain ⟨q, present, within⟩ := List.mem_flatMap.mp old
    exact (filed.stores q present).fits x within
  · rw [List.mem_singleton.mp new]
    exact fits

/-! ### The promise -/

/-- The entries that a log gives to a reader. -/
def entries (log : SegmentLog) : List Entry :=
  match log.read 0 log.highest with
  | .ok found => found
  | .error _ => []

theorem Filed.entries (filed : log.Filed parts) : log.entries = parts.flatMap (·.2) := by
  obtain ⟨-, span, positive⟩ := filed.numbered
  have all : (parts.flatMap (·.2)).filter (0 ≤ ·.offset) = parts.flatMap (·.2) := by simp
  rw [SegmentLog.entries, filed.read, all]
  exact List.take_of_length_le (by omega)

theorem Filed.append (filed : log.Filed parts) {payload : Bytes} {metadata : Option Bytes}
    {result : Except Fault Nat} (ran : log.append .sound payload metadata = (after, result)) :
    result = .ok (log.highest + 1) ∧
      (Record.Fits ⟨log.highest + 1, payload, metadata⟩ → ∃ parts', after.Filed parts' ∧
        parts'.flatMap (·.2) = parts.flatMap (·.2) ++ [⟨log.highest + 1, payload, metadata⟩]) := by
  obtain ⟨stored, parts', taken, -, more, filed'⟩ :=
    filed.store (e := ⟨log.highest + 1, payload, metadata⟩) rfl
  simp only [SegmentLog.append, taken] at ran
  cases ran
  exact ⟨rfl, fun fits => ⟨parts', filed' fits, more⟩⟩

theorem Filed.appendEntry (filed : log.Filed parts) {result : Except Fault Unit}
    (ran : log.appendEntry .sound e = (after, result)) :
    (e.offset ≠ log.highest + 1 ∧ after = log ∧ result ≠ .ok ()) ∨
      (e.offset = log.highest + 1 ∧ result = .ok () ∧ (Record.Fits e → ∃ parts',
        after.Filed parts' ∧ parts'.flatMap (·.2) = parts.flatMap (·.2) ++ [e])) := by
  unfold SegmentLog.appendEntry at ran
  split at ran
  · rename_i apart
    cases ran
    exact .inl ⟨apart, rfl, by simp⟩
  · rename_i next
    have next' := Decidable.not_not.mp next
    obtain ⟨stored, parts', taken, -, more, filed'⟩ := filed.store next'
    rw [taken] at ran
    cases ran
    exact .inr ⟨next', rfl, fun fits => ⟨parts', filed' fits, more⟩⟩

instance : LawfulLog SegmentLog where
  Sound log := ∃ parts, log.Filed parts
  entries := entries
  Admits := Record.Fits
  entries_numbered := by
    rintro log ⟨parts, filed⟩
    rw [filed.entries]
    exact filed.numbered.1
  entries_span := by
    rintro log ⟨parts, filed⟩
    rw [filed.entries]
    exact filed.numbered.2.1
  entries_admitted := by
    rintro log e ⟨parts, filed⟩ held
    rw [filed.entries] at held
    obtain ⟨p, member, inside⟩ := List.mem_flatMap.mp held
    exact (filed.stores p member).fits e inside
  read_gives := by
    rintro log start limit found ⟨parts, filed⟩ ran
    rw [filed.entries]
    exact (Except.ok.inj ((filed.read start limit).symm.trans ran)).symm
  append_stores := by
    rintro log after payload metadata offset ⟨parts, filed⟩ ran fits
    obtain ⟨result, stored⟩ := filed.append ran
    cases result
    obtain ⟨parts', filed', more⟩ := stored fits
    exact ⟨⟨parts', filed'⟩, by rw [filed'.entries, filed.entries, more]⟩
  append_fails := by
    rintro log after payload metadata fault ⟨parts, filed⟩ ran
    cases (filed.append ran).1
  appendEntry_stores := by
    rintro log after e ⟨parts, filed⟩ ran fits
    rcases filed.appendEntry ran with ⟨-, -, failed⟩ | ⟨next, -, stored⟩
    · exact absurd rfl failed
    · obtain ⟨parts', filed', more⟩ := stored fits
      exact ⟨next, ⟨parts', filed'⟩, by rw [filed'.entries, filed.entries, more]⟩
  appendEntry_fails := by
    rintro log after e fault ⟨parts, filed⟩ ran
    rcases filed.appendEntry ran with ⟨-, rfl, -⟩ | ⟨-, done, -⟩
    · exact ⟨⟨parts, filed⟩, rfl, rfl⟩
    · cases done

end SegmentLog

/-! ### A log of either kind -/

namespace Store

/-- The log keeps the promise of its kind, and a record can hold each of its entries. -/
def Sound : Store → Prop
  | volatile log => LawfulLog.Sound log ∧ ∀ e ∈ LawfulLog.entries log, Record.Fits e
  | segmented log => LawfulLog.Sound log

/-- The retained entries. -/
def entries : Store → List Entry
  | volatile log => LawfulLog.entries log
  | segmented log => LawfulLog.entries log

instance : LawfulLog Store where
  Sound := Sound
  entries := entries
  Admits := Record.Fits
  entries_numbered {log} sound := by
    cases log with
    | volatile log => exact LawfulLog.entries_numbered sound.1
    | segmented log => exact LawfulLog.entries_numbered (L := SegmentLog) sound
  entries_span {log} sound := by
    cases log with
    | volatile log => exact LawfulLog.entries_span sound.1
    | segmented log => exact LawfulLog.entries_span (L := SegmentLog) sound
  entries_admitted {log e} sound held := by
    cases log with
    | volatile log => exact sound.2 e held
    | segmented log => exact LawfulLog.entries_admitted (L := SegmentLog) sound held
  read_gives {log _ _ _} sound ran := by
    cases log with
    | volatile log => exact LawfulLog.read_gives sound.1 ran
    | segmented log => exact LawfulLog.read_gives (L := SegmentLog) sound ran
  append_stores {log _ payload metadata _} sound ran fits := by
    cases log with
    | volatile log =>
      obtain ⟨rfl, result⟩ := Prod.mk.inj ran
      obtain ⟨sound', more⟩ := LawfulLog.append_stores sound.1 (Prod.ext rfl result) trivial
      refine ⟨⟨sound', fun e held => ?_⟩, more⟩
      rw [more] at held
      rcases List.mem_append.mp held with old | new
      · exact sound.2 e old
      · exact List.mem_singleton.mp new ▸ fits
    | segmented log =>
      obtain ⟨rfl, result⟩ := Prod.mk.inj ran
      exact LawfulLog.append_stores (L := SegmentLog) sound (Prod.ext rfl result) fits
  append_fails {log _ _ _ _} sound ran := by
    cases log with
    | volatile log =>
      obtain ⟨rfl, result⟩ := Prod.mk.inj ran
      obtain ⟨sound', same⟩ := LawfulLog.append_fails sound.1 (Prod.ext rfl result)
      exact ⟨⟨sound', fun e held => sound.2 e (same ▸ held)⟩, same⟩
    | segmented log =>
      obtain ⟨rfl, result⟩ := Prod.mk.inj ran
      exact LawfulLog.append_fails (L := SegmentLog) sound (Prod.ext rfl result)
  appendEntry_stores {log _ e} sound ran fits := by
    cases log with
    | volatile log =>
      obtain ⟨rfl, result⟩ := Prod.mk.inj ran
      obtain ⟨next, sound', more⟩ :=
        LawfulLog.appendEntry_stores sound.1 (Prod.ext rfl result) trivial
      refine ⟨next, ⟨sound', fun x held => ?_⟩, more⟩
      rw [more] at held
      rcases List.mem_append.mp held with old | new
      · exact sound.2 x old
      · exact List.mem_singleton.mp new ▸ fits
    | segmented log =>
      obtain ⟨rfl, result⟩ := Prod.mk.inj ran
      exact LawfulLog.appendEntry_stores (L := SegmentLog) sound (Prod.ext rfl result) fits
  appendEntry_fails {log _ _ _} sound ran := by
    cases log with
    | volatile log =>
      obtain ⟨rfl, result⟩ := Prod.mk.inj ran
      obtain ⟨sound', same, ends⟩ := LawfulLog.appendEntry_fails sound.1 (Prod.ext rfl result)
      exact ⟨⟨sound', fun x held => sound.2 x (same ▸ held)⟩, same, ends⟩
    | segmented log =>
      obtain ⟨rfl, result⟩ := Prod.mk.inj ran
      exact LawfulLog.appendEntry_fails (L := SegmentLog) sound (Prod.ext rfl result)

end Store

end QuorumLog
