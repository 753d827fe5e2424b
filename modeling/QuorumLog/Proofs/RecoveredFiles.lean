import QuorumLog.Proofs.OpenedSegments

/-! What opening a directory does to its files, whatever is in them. A scan keeps the longest beginning
of a file that is a sequence of records, so nothing that is kept is lost when the file is scanned again:
the second opening finds what the first one left. Only the file of the last segment is ever cut, and a
directory that is refused is left as it was. -/

namespace QuorumLog

/-! ### Scans -/

namespace SegmentScan

variable {front bytes rest : Bytes} {es : List Entry} {e : Entry} {size expected position : Nat}

/-- A scan goes over all records that stand at the start of some bytes and have the offsets it expects. -/
theorem length_le_run (spelled : Record.SpellsAll front es)
    (numbered : es.map Entry.offset = List.range' expected es.length) (begins : front <+: bytes)
    (fills : size = position + bytes.length) :
    position + front.length ≤ (run size expected position bytes).length := by
  induction spelled generalizing expected position bytes with
  | nil =>
    obtain ⟨kept, _, _, _, -, -, -, ran, -⟩ := exists_spelled size expected position bytes fills
    rw [ran]
    exact Nat.le_add_right _ _
  | @cons piece behind e later first _ ih =>
    obtain ⟨more, rfl⟩ := begins
    rw [List.map_cons, List.length_cons, List.range'_succ] at numbered
    obtain ⟨number, numbers⟩ := List.cons.inj numbered
    rw [List.append_assoc, List.length_append, first.length] at fills
    have room : Record.size e ≤ size - position := by omega
    have left : size = position + Record.size e + (behind ++ more).length := by omega
    have further := ih numbers (List.prefix_append behind more) left
    rw [List.append_assoc, run_eq, first.next room]
    simp only [number, if_true, List.length_append, first.length]
    omega

/-- So many rounds of a scan, or nothing if they are not enough for it to end. -/
def rounds : Nat → (size expected position : Nat) → Bytes → Option SegmentScan
  | 0, _, _, _, _ => none
  | count + 1, size, expected, position, bytes =>
    match Record.next (size - position) bytes with
    | .error cause => some ⟨[], position, .broken cause⟩
    | .ok none => some ⟨[], position, .complete⟩
    | .ok (some (e, rest)) =>
      if e.offset = expected then
        (rounds count size (expected + 1) (position + Record.size e) rest).map fun later =>
          { later with positions := position :: later.positions }
      else some ⟨[], position, .stray expected e.offset⟩

/-- A scan ends on any bytes, since each round but the last takes off a header at least. -/
theorem rounds_suffice {count : Nat} (enough : bytes.length < count * Record.headerSize) :
    rounds count size expected position bytes = some (run size expected position bytes) := by
  induction count generalizing expected position bytes with
  | zero => omega
  | succ count ih =>
    rw [rounds, run_eq]
    cases read : Record.next (size - position) bytes with
    | error cause => rfl
    | ok taken =>
      cases taken with
      | none => rfl
      | some pair =>
        obtain ⟨e, rest⟩ := pair
        obtain ⟨piece, rfl, spells⟩ := Record.spells_of_next read
        rw [List.length_append, spells.length, Record.size, Nat.succ_mul] at enough
        dsimp only
        rw [ih (by omega)]
        split <;> rfl

end SegmentScan

namespace Record

/-- The longest beginning of some bytes that is a sequence of records with the offsets from `base` on. -/
structure Longest (bytes : Bytes) (base : Nat) (kept : Bytes) (es : List Entry) : Prop where
  begins : kept <+: bytes
  spelled : SpellsAll kept es
  numbered : es.map Entry.offset = List.range' base es.length
  longest {front : Bytes} {first : List Entry} : front <+: bytes → SpellsAll front first →
    first.map Entry.offset = List.range' base first.length → front <+: kept

variable {bytes kept : Bytes} {base : Nat} {es first : List Entry}

/-- Nothing is left of a file that is nothing but records. -/
theorem Longest.whole (longest : Longest bytes base kept es) (spelled : SpellsAll bytes first)
    (numbered : first.map Entry.offset = List.range' base first.length) : kept = bytes :=
  longest.begins.eq_of_length_le (longest.longest List.prefix_rfl spelled numbered).length_le

end Record

namespace Directory

variable {d : Directory} {name : String} {f : Bytes → Bytes}

theorem names_modifyFile : (d.modifyFile f name).names = d.names := by
  unfold modifyFile
  split
  · rename_i content file
    rw [names_put, if_pos (mem_names_of_get? file)]
  · rfl

theorem names_resize {length : Nat} : (d.resize name length).names = d.names := by
  unfold resize
  split
  · exact names_modifyFile
  · rfl

end Directory

/-! ### One file -/

namespace Segment

variable {d after : Directory} {path : String} {base : Nat} {isLast : Bool} {s : Segment}
variable {content : Bytes} {es : List Entry}

theorem names_of_recover (ran : recover path d base isLast = .ok (after, s)) :
    after.names = d.names := by
  unfold recover at ran
  dsimp only at ran
  split at ran
  · cases ran
  split at ran
  · cases ran
  obtain ⟨rfl, -⟩ := Prod.mk.inj (Except.ok.inj ran)
  split
  · exact Directory.names_resize
  · rfl

/-- A segment is recovered from a file of nothing but its records, and the file stays as it is. -/
theorem recover_of_spelled (path : String) (isLast : Bool) (holds : s.Holds es)
    (spelled : Record.SpellsAll content es) (file : d.get? s.name = some (.file content)) :
    recover path d s.base isLast = .ok (d, s) := by
  have bytes := Directory.read_of_file file 0
  have length := Directory.length_of_file file
  rw [List.drop_zero] at bytes
  have fills : d.length s.name = 0 + content.length + ([] : Bytes).length := by
    rw [length, Nat.zero_add, List.length_nil, Nat.add_zero]
  obtain ⟨ending, scan, complete⟩ :=
    SegmentScan.run_spelled spelled holds.numbered (.inl rfl) fills
  rw [complete.mp rfl, List.append_nil, Nat.zero_add] at scan
  have called : SegmentName.ofBase s.base = s.name := rfl
  have same : (⟨s.base, Record.starts 0 es, content.length⟩ : Segment) = s := by
    rw [spelled.length, ← holds.length, ← holds.positions]
  have whole : ¬content.length < d.length s.name := by
    rw [length]
    exact Nat.lt_irrefl _
  simp only [recover, called, bytes, scan, fault?, if_neg whole, same]

/-- A segment that was recovered has the longest sequence of records at the start of its file. -/
theorem longest_of_recover (file : d.get? (SegmentName.ofBase base) = some (.file content))
    (ran : recover path d base isLast = .ok (after, s)) : s.base = base ∧ ∃ kept es,
      Record.Longest content base kept es ∧ s.Holds es ∧
      after.get? (SegmentName.ofBase base) = some (.file kept) := by
  obtain ⟨rfl, kept, torn, es, split, spelled, holds, file', -⟩ := spelled_of_recover file ran
  refine ⟨rfl, kept, es, ⟨⟨torn, split.symm⟩, spelled, holds.numbered, ?_⟩, holds, file'⟩
  intro front first begins spelled' numbered'
  refine List.prefix_of_prefix_length_le begins ⟨torn, split.symm⟩ ?_
  -- The scan went over the front as well, and what it went over is kept.
  have bytes := Directory.read_of_file file 0
  have length := Directory.length_of_file file
  rw [List.drop_zero] at bytes
  have fills : d.length (SegmentName.ofBase s.base) = 0 + content.length := by
    rw [length, Nat.zero_add]
  have reached := SegmentScan.length_le_run spelled' numbered' begins fills
  simp only [recover, bytes] at ran
  split at ran
  · cases ran
  obtain ⟨-, same⟩ := Prod.mk.inj (Except.ok.inj ran)
  have scanned : _ = s.length := congrArg Segment.length same
  dsimp only at scanned
  rw [Nat.zero_add, scanned, holds.length, ← spelled.length] at reached
  exact reached

end Segment

/-! ### All files -/

namespace SegmentLog

variable {d after : Directory} {path : String} {segments final : List Segment} {numbers : List Nat}
variable {highest end_ : Nat} {settings : StoreSettings} {log : SegmentLog} {parts : List Part}

/-- How the files of the segments are left: each with the longest sequence of records at its start, and
all but the last one as they were. -/
structure Trimmed (numbers : List Nat) (d after : Directory) : Prop where
  names : after.names = d.names
  others : ∀ name, (∀ base ∈ numbers.getLast?, name ≠ SegmentName.ofBase base) →
    after.get? name = d.get? name
  longest : ∀ base ∈ numbers, ∃ content kept es,
    d.get? (SegmentName.ofBase base) = some (.file content) ∧
      after.get? (SegmentName.ofBase base) = some (.file kept) ∧ Record.Longest content base kept es

/-- A file of nothing but records stays, also if it is the last one. -/
theorem Trimmed.whole (trimmed : Trimmed numbers d after) {base : Nat} {content : Bytes}
    {es : List Entry} (file : d.get? (SegmentName.ofBase base) = some (.file content))
    (spelled : Record.SpellsAll content es)
    (numbered : es.map Entry.offset = List.range' base es.length) :
    after.get? (SegmentName.ofBase base) = some (.file content) := by
  by_cases last : numbers.getLast? = some base
  · obtain ⟨content', kept, es', file', file'', longest⟩ :=
      trimmed.longest base (List.mem_of_getLast? last)
    obtain rfl := FileNode.file.inj (Option.some.inj (file.symm.trans file'))
    rw [file'', longest.whole spelled numbered]
  · rw [trimmed.others _ fun other isLast same => last ?_, file]
    rw [SegmentName.ofBase_injective same]
    exact isLast

/-- The same segments are recovered from what a recovery leaves. -/
theorem recoverSegments_again (again : String)
    (regular : ∀ base ∈ numbers, ∀ target, d.get? (SegmentName.ofBase base) ≠ some (.link target))
    (ran : recoverSegments path d segments highest numbers = .ok (after, final, end_)) :
    recoverSegments again after segments highest numbers = .ok (after, final, end_) ∧
      Trimmed numbers d after := by
  induction numbers generalizing d segments highest with
  | nil =>
    cases ran
    exact ⟨rfl, rfl, fun _ _ => rfl, by simp⟩
  | cons base later ih =>
    unfold recoverSegments at ran ⊢
    split at ran
    · cases ran
    rename_i joins
    cases recovered : Segment.recover path d base later.isEmpty with
    | error fault =>
      rw [recovered] at ran
      cases ran
    | ok result =>
      obtain ⟨d', s⟩ := result
      rw [recovered] at ran
      dsimp only at ran
      obtain ⟨content, file⟩ := Segment.file_of_recover (regular base List.mem_cons_self) recovered
      obtain ⟨rfl, kept, es, longest, holds, file'⟩ := Segment.longest_of_recover file recovered
      obtain ⟨-, -, torn, -, -, -, -, -, others, unlast⟩ := Segment.spelled_of_recover file recovered
      cases later with
      | nil =>
        cases ran
        refine ⟨?_, Segment.names_of_recover recovered, fun name apart => others name (apart _ rfl), ?_⟩
        · rw [if_neg joins, Segment.recover_of_spelled again _ holds longest.spelled file']
          rfl
        · intro number member
          rw [List.mem_singleton.mp member]
          exact ⟨content, kept, es, file, file', longest⟩
      | cons next rest =>
        -- Nothing is cut here, and what comes later leaves a whole file alone.
        obtain ⟨-, rfl⟩ := unlast rfl
        obtain rfl := FileNode.file.inj (Option.some.inj (file.symm.trans file'))
        obtain ⟨same, trimmed⟩ := ih (fun number member => regular number (.tail _ member)) ran
        have stays := trimmed.whole file longest.spelled longest.numbered
        refine ⟨?_, trimmed.names, fun name apart => trimmed.others name fun base last =>
          apart base (by rw [List.getLast?_cons_cons]; exact last), ?_⟩
        · rw [if_neg joins, Segment.recover_of_spelled again _ holds longest.spelled stays]
          exact same
        · intro number member
          rcases List.mem_cons.mp member with rfl | later
          · exact ⟨content, content, es, file, stays, longest⟩
          · exact trimmed.longest number later

/-! ### The directory behind an opening -/

/-- Recovers segments like `recoverSegments`, and gives the directory also if that fails. -/
def recoverFiles (path : String) : (d : Directory) → (segments : List Segment) → (highest : Nat) →
    (bases : List Nat) → Directory × Except Fault (List Segment × Nat)
  | d, segments, highest, [] => (d, .ok (segments, highest))
  | d, segments, highest, base :: later =>
    if highest ≠ 0 ∧ base ≠ highest + 1 then (d, .error (.log (.segmentGap base highest)))
    else match Segment.recover path d base later.isEmpty with
      | .error fault => (d, .error fault)
      | .ok (d, s) => recoverFiles path d (withSegment segments s) (s.limit - 1) later

/-- Opens a log, and gives the directory also if that fails. -/
def opening (settings : StoreSettings) (d : Directory) : Directory × Except Fault SegmentLog :=
  if settings.segmentSize = 0 then (d, .error (.settings .noSegmentSize))
  else match recoverFiles settings.path d [] 0 (bases d) with
    | (d, .error fault) => (d, .error fault)
    | (d, .ok (segments, highest)) =>
      (d, (openLast d segments).map fun active => ⟨settings, d, segments, active, highest⟩)

theorem recoverSegments_eq (path : String) (d : Directory) (segments : List Segment)
    (highest : Nat) (numbers : List Nat) : recoverSegments path d segments highest numbers =
    (recoverFiles path d segments highest numbers).2.map fun found =>
      ((recoverFiles path d segments highest numbers).1, found) := by
  induction numbers generalizing d segments highest with
  | nil => rfl
  | cons base later ih =>
    rw [recoverSegments, recoverFiles]
    split
    · rfl
    cases Segment.recover path d base later.isEmpty with
    | error fault => rfl
    | ok result => exact ih _ _ _

/-- The log that is opened has the directory that is left, and the answer is that of `recover`. -/
theorem opening_eq (settings : StoreSettings) (d : Directory) :
    (opening settings d).2 = recover settings d ∧
      ∀ log, recover settings d = .ok log → (opening settings d).1 = log.directory := by
  unfold opening recover
  split
  · exact ⟨rfl, fun log opened => by cases opened⟩
  rw [recoverSegments_eq]
  obtain ⟨left, found⟩ := recoverFiles settings.path d [] 0 (bases d)
  cases found with
  | error fault => exact ⟨rfl, fun log opened => by cases opened⟩
  | ok pair =>
    refine ⟨rfl, fun log opened => ?_⟩
    obtain ⟨segments, highest⟩ := pair
    change (openLast left segments).map _ = _ at opened
    cases last : openLast left segments with
    | error fault =>
      rw [last] at opened
      cases opened
    | ok active =>
      rw [last] at opened
      cases opened
      rfl

/-- Segments that cannot be recovered leave their files as they were. -/
theorem recoverFiles_of_error {fault : Fault}
    (regular : ∀ base ∈ numbers, ∀ target, d.get? (SegmentName.ofBase base) ≠ some (.link target))
    (failed : (recoverFiles path d segments highest numbers).2 = .error fault) :
    (recoverFiles path d segments highest numbers).1 = d := by
  induction numbers generalizing d segments highest with
  | nil => rfl
  | cons base later ih =>
    unfold recoverFiles at failed ⊢
    split
    · rfl
    rename_i joins
    rw [if_neg joins] at failed
    cases recovered : Segment.recover path d base later.isEmpty with
    | error fault => rfl
    | ok result =>
      obtain ⟨d', s⟩ := result
      rw [recovered] at failed
      cases later with
      | nil => cases failed
      | cons next rest =>
        obtain ⟨content, file⟩ := Segment.file_of_recover (regular base List.mem_cons_self) recovered
        obtain ⟨-, -, torn, -, -, -, -, -, -, unlast⟩ := Segment.spelled_of_recover file recovered
        obtain ⟨-, rfl⟩ := unlast rfl
        exact ih (fun number member => regular number (.tail _ member)) failed

/-- The last segment that was recovered can be opened. -/
theorem Loaded.openLast (loaded : Loaded d parts highest) :
    openLast d (parts.map (·.1)) = .ok ((parts.getLast?).map fun p => .file p.1.name) := by
  rw [SegmentLog.openLast, List.getLast?_map]
  cases last : parts.getLast? with
  | none => rfl
  | some p =>
    obtain ⟨content, file, -⟩ := loaded.files p (List.mem_of_getLast? last)
    simp only [Option.map_some, Directory.openAppend, Directory.follow_of_file file]

/-- A directory that is refused is as it was. -/
theorem opening_of_error (regular : Regular d) {fault : Fault}
    (failed : recover settings d = .error fault) : (opening settings d).1 = d := by
  unfold opening
  unfold recover at failed
  split
  · rfl
  rename_i sized
  rw [if_neg sized, recoverSegments_eq] at failed
  cases ran : recoverFiles settings.path d [] 0 (bases d) with
  | mk left found =>
    cases found with
    | error cause =>
      have left_eq := recoverFiles_of_error regular (congrArg Prod.snd ran)
      rw [ran] at left_eq
      exact left_eq
    | ok pair =>
      -- Once all segments are recovered, the last one can be opened.
      obtain ⟨segments, highest⟩ := pair
      have recovered := recoverSegments_eq settings.path d [] 0 (bases d)
      rw [ran] at recovered failed
      obtain ⟨parts, segments_eq, loaded, -⟩ := loaded_of_recoverSegments loaded_nil
        (sorted_bases d) (by simp) bases_positive regular recovered
      change (openLast left segments).map _ = _ at failed
      rw [segments_eq, loaded.openLast] at failed
      cases failed

/-! ### The rule -/

/-- What was found in a directory and what is left there: for each number of a file a segment, whose
entries are those of the longest sequence of records at the start of the file. -/
structure Recovered (d : Directory) (log : SegmentLog) (parts : List Part) : Prop where
  segments : log.segments = parts.map (·.1)
  numbers : ∀ number, number ∈ bases d ↔ ∃ p ∈ parts, p.1.base = number
  /-- Nothing but the file of the last segment is touched. -/
  names : log.directory.names = d.names
  others : ∀ name, (∀ s ∈ log.segments.getLast?, name ≠ s.name) →
    log.directory.get? name = d.get? name
  /-- A file keeps the longest sequence of records, and the index has a position for each of them. -/
  kept : ∀ p ∈ parts, ∃ content kept, d.get? p.1.name = some (.file content) ∧
    log.directory.get? p.1.name = some (.file kept) ∧
    Record.Longest content p.1.base kept p.2 ∧
    p.1.positions = Record.starts 0 p.2 ∧ p.1.length = kept.length
  /-- The entries are numbered from the oldest offset through the highest one. -/
  numbered : (parts.flatMap (·.2)).map Entry.offset =
    List.range' log.oldest (parts.flatMap (·.2)).length
  span : log.oldest + (parts.flatMap (·.2)).length = log.highest + 1
  /-- The offset behind the last record of each segment fits a word. -/
  counted : ∀ p ∈ parts, p.1.limit < UInt64.size
  /-- All of them can be read, from wherever the reading starts. -/
  reads : ∀ start limit, LocalLog.read log start limit =
    .ok (((parts.flatMap (·.2)).filter (start ≤ ·.offset)).take limit)

/-- Opening what is left comes to the same log and changes nothing. -/
structure Settled (log again : SegmentLog) : Prop where
  directory : again.directory = log.directory
  segments : again.segments = log.segments
  highest : LocalLog.highest again = LocalLog.highest log
  oldest : LocalLog.oldest again = LocalLog.oldest log
  reads : ∀ start limit, LocalLog.read again start limit = LocalLog.read log start limit

theorem bases_of_same_names (same : after.names = d.names) : bases after = bases d := by
  rw [bases, bases, same]

theorem Trimmed.regular (trimmed : Trimmed (bases d) d after) : Regular after := by
  intro base member target linked
  rw [bases_of_same_names trimmed.names] at member
  obtain ⟨content, kept, es, -, file, -⟩ := trimmed.longest base member
  rw [linked] at file
  cases file

/-- The same log is opened again from the directory that it left. -/
theorem recover_again (regular : Regular d) (opened : recover settings d = .ok log)
    (again : StoreSettings) (sized : 1 ≤ again.segmentSize) :
    recover again log.directory = .ok { log with settings := again } := by
  obtain ⟨-, -, ran, last⟩ := recoverSegments_of_recover opened
  obtain ⟨same, trimmed⟩ := recoverSegments_again again.path regular ran
  rw [recover, if_neg (by omega), bases_of_same_names trimmed.names, same]
  simp only [last, Except.map]

theorem le_last_of_mem_bases {number : Nat} (member : number ∈ bases d) :
    ∃ base ∈ (bases d).getLast?, number ≤ base := by
  rcases List.eq_nil_or_concat' (bases d) with none | ⟨front, base, split⟩
  · rw [none] at member
    cases member
  have sorted := sorted_bases d
  rw [split] at sorted member ⊢
  refine ⟨base, List.getLast?_concat, ?_⟩
  rcases List.mem_append.mp member with before | here
  · exact (List.pairwise_append.mp sorted).2.2 number before base (by simp)
  · exact Nat.le_of_eq (List.mem_singleton.mp here)

/-- No number is above that of the last segment. -/
theorem Opened.upper (opened : Opened d log parts) :
    ∀ number ∈ bases d, ∃ p ∈ parts.getLast?, number ≤ p.1.base := by
  intro number member
  obtain ⟨q, held, rfl⟩ := (opened.numbers number).mpr member
  rcases List.eq_nil_or_concat' parts with rfl | ⟨init, p, rfl⟩
  · cases held
  refine ⟨p, List.getLast?_concat, ?_⟩
  rcases List.mem_append.mp held with before | here
  · have apart := (List.pairwise_append.mp (ascending_of_links opened.loaded.chain)).2.2
    exact Nat.le_of_lt (apart q before p (by simp))
  · rw [List.mem_singleton.mp here]

/-- The last of the numbers is that of the last segment. -/
theorem Opened.uppermost (opened : Opened d log parts) :
    ∀ base ∈ (bases d).getLast?, ∃ p ∈ parts.getLast?, p.1.base = base := by
  intro base last
  obtain ⟨p, final, above⟩ := opened.upper base (List.mem_of_getLast? last)
  obtain ⟨top, last', below⟩ :=
    le_last_of_mem_bases ((opened.numbers _).mp ⟨p, List.mem_of_getLast? final, rfl⟩)
  obtain rfl := Option.some.inj (last.symm.trans last')
  exact ⟨p, final, Nat.le_antisymm below above⟩

theorem Opened.recovered (opened : Opened d log parts)
    (trimmed : Trimmed (bases d) d log.directory)
    (counted : ∀ s ∈ log.segments, s.limit < UInt64.size) : Recovered d log parts where
  segments := opened.segments
  numbers number := (opened.numbers number).symm
  names := trimmed.names
  others name apart := by
    refine trimmed.others name fun base last => ?_
    obtain ⟨p, last', rfl⟩ := opened.uppermost base last
    refine apart p.1 ?_
    rw [opened.segments, List.getLast?_map, last']
    rfl
  kept p held := by
    have member := (opened.numbers _).mp ⟨p, held, rfl⟩
    obtain ⟨content, kept, es, file, file', longest⟩ := trimmed.longest p.1.base member
    obtain ⟨content', file'', spelled⟩ := opened.loaded.files p held
    have holds := opened.loaded.holds p held
    obtain rfl := FileNode.file.inj (Option.some.inj (file'.symm.trans file''))
    obtain rfl : p.2 = es := spelled.unique longest.spelled
    exact ⟨content, kept, file, file', longest, holds.positions,
      holds.length.trans spelled.length.symm⟩
  numbered := opened.retained.1.1
  span := opened.retained.1.2
  counted p held := counted p.1 (opened.segments ▸ List.mem_map_of_mem held)
  reads := opened.loaded.read opened.segments

/-- What an opening does to a directory. -/
structure Careful (settings : StoreSettings) (d : Directory) : Prop where
  answer : (opening settings d).2 = recover settings d
  /-- A directory that is refused is left as it was. -/
  refused : ∀ fault, recover settings d = .error fault → (opening settings d).1 = d
  opened : ∀ log, recover settings d = .ok log →
    (opening settings d).1 = log.directory ∧ ∃ parts, Recovered d log parts
  /-- The next opening finds the same and leaves everything as it is. -/
  again : ∀ log, recover settings d = .ok log → ∀ later : StoreSettings, 1 ≤ later.segmentSize →
    ∃ other, opening later log.directory = (log.directory, .ok other) ∧ Settled log other
  /-- The scan of a file ends, with one round for each header that could be in it, and one more. -/
  scans : ∀ name content, d.get? name = some (.file content) → ∀ base,
    SegmentScan.rounds (content.length / Record.headerSize + 1) content.length base 0 content =
      some (SegmentScan.run content.length base 0 content)

/-- Opening keeps the longest valid beginning of every file, whatever is in the files, and what is left
is settled. -/
theorem careful_opening (regular : Regular d) (countable : Countable d)
    (settings : StoreSettings) : Careful settings d := by
  refine ⟨(opening_eq settings d).1, fun fault => opening_of_error regular, fun log opened => ?_,
    fun log opened later sized => ?_, fun name content _ base => ?_⟩
  · obtain ⟨-, -, ran, -⟩ := recoverSegments_of_recover opened
    obtain ⟨parts, found⟩ := exists_opened regular opened
    exact ⟨(opening_eq settings d).2 log opened, parts,
      found.recovered (recoverSegments_again settings.path regular ran).2
        (counted_of_recover regular countable opened)⟩
  · have again := recover_again regular opened later sized
    obtain ⟨answer, left⟩ := opening_eq later log.directory
    obtain ⟨parts, found⟩ := exists_opened regular opened
    have files := left { log with settings := later } again
    refine ⟨{ log with settings := later }, Prod.ext files (answer.trans again), rfl, rfl, rfl, rfl,
      fun start limit => ?_⟩
    have found' : Opened d { log with settings := later } parts := { found with }
    exact (found'.loaded.read found'.segments start limit).trans
      (found.loaded.read found.segments start limit).symm
  · refine SegmentScan.rounds_suffice ?_
    rw [Nat.mul_comm, Record.headerSize]
    omega

/-- Two segments with one record each, and the last file has two bytes behind its record. -/
def untidy : Directory where
  nodes := [(SegmentName.ofBase 1, .file (Record.encode ⟨1, [97], none⟩)),
    (SegmentName.ofBase 2, .file (Record.encode ⟨2, [98], none⟩ ++ [1, 2]))]

/-- Both entries are there, and the two bytes are cut off. -/
theorem careful_untidy : Careful .standard untidy ∧ ∃ log, recover .standard untidy = .ok log ∧
    log.directory.get? (SegmentName.ofBase 2) = some (.file (Record.encode ⟨2, [98], none⟩)) ∧
    LocalLog.read log 1 9 = .ok [⟨1, [97], none⟩, ⟨2, [98], none⟩] := by
  have regular : Regular untidy := regular_of_files (by simp [untidy])
  have numbers : bases untidy = [1, 2] := bases_of_sorted (by decide +kernel) (by decide)
  have countable : Countable untidy := by
    rw [Countable, numbers]
    decide +kernel
  refine ⟨careful_opening regular countable .standard, ⟨.standard, ⟨[
    (SegmentName.ofBase 1, .file (Record.encode ⟨1, [97], none⟩)),
    (SegmentName.ofBase 2, .file (Record.encode ⟨2, [98], none⟩))]⟩,
    [⟨1, [0], 18⟩, ⟨2, [0], 18⟩], some (.file (SegmentName.ofBase 2)), 2⟩, ?_, ?_, ?_⟩
  · rw [recover, numbers]
    decide +kernel
  · decide +kernel
  · decide +kernel

end SegmentLog

end QuorumLog
