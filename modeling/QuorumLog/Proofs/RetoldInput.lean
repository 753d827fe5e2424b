import QuorumLog.Cli.Program
import QuorumLog.Proofs.PagedReading
import QuorumLog.Proofs.RefusalTexts
import QuorumLog.Proofs.ShownTexts
import QuorumLog.Proofs.StrayFiles

/-! From the standard input of a master to the lines that show its log. Each line that is not empty
becomes an entry, up to the first that is no text, which ends the program. Whoever opens the directory
afterwards and shows it gets one line for each entry, in their order. -/

namespace QuorumLog

/-! ### Lines -/

namespace Lines

variable {input last : Bytes} {ended : List Bytes}

/-- An input cut behind each line feed. -/
structure Cut (input : Bytes) (ended : List Bytes) (last : Bytes) : Prop where
  whole : input = ended.flatMap (· ++ [lineFeed]) ++ last
  ended : ∀ line ∈ ended, lineFeed ∉ line
  last : lineFeed ∉ last

/-- Every input is cut by reading it. -/
theorem cut_split (input : Bytes) : Cut input (split input).1 (split input).2 := by
  fun_induction split input with
  | case1 => exact ⟨rfl, by simp, by simp⟩
  | case2 rest last same ih =>
    rw [same] at ih
    exact ⟨by simpa using ih.whole, by simp, ih.last⟩
  | case3 b rest last same other ih =>
    rw [same] at ih
    exact ⟨by simpa using ih.whole, by simp, by simpa [Ne.symm other] using ih.last⟩
  | case4 rest line later last same ih =>
    rw [same] at ih
    exact ⟨by simpa using ih.whole, by simpa using ih.ended, ih.last⟩
  | case5 b rest line later last same other ih =>
    rw [same] at ih
    refine ⟨by simpa using ih.whole, ?_, ih.last⟩
    simpa [Ne.symm other] using ih.ended

/-- The lines of an input are what stands in front of its line feeds without a carriage return, and what
stands behind the last one unless that is nothing. -/
theorem ofInput_eq (input : Bytes) : ∃ ended last, Cut input ended last ∧
    ofInput input = ended.map trimmed ++ if last = [] then [] else [last] := by
  refine ⟨_, _, cut_split input, ?_⟩
  simp [ofInput]

end Lines

/-! ### Writes -/

/-- Whether bytes are a text. -/
def Utf8.isText (bytes : Bytes) : Bool := (Utf8.decode? bytes).isSome

/-- The lines that are written, up to the first that is no text. -/
def Lines.written (lines : List Bytes) : List Bytes :=
  (lines.takeWhile Utf8.isText).filter (· ≠ [])

/-- Entries without metadata, numbered from an offset on. -/
def Entry.numbered (first : Nat) : List Bytes → List Entry
  | [] => []
  | payload :: later => ⟨first, payload, none⟩ :: numbered (first + 1) later

namespace SegmentLog

variable {log next : SegmentLog} {parts : List Part} {payload : Bytes}

/-- A log on a medium that takes everything got more entries. -/
structure Gained (log next : SegmentLog) (added : List Entry) : Prop where
  backed : ∃ parts, next.Backed parts
  tidy : next.Tidy
  entries : next.entries = log.entries ++ added
  highest : next.highest = log.highest + added.length

theorem Gained.refl (backed : log.Backed parts) (tidy : log.Tidy) : log.Gained log [] :=
  ⟨⟨parts, backed⟩, tidy, by simp, rfl⟩

theorem Gained.trans {after : SegmentLog} {added more : List Entry} (one : log.Gained next added)
    (other : next.Gained after more) : log.Gained after (added ++ more) where
  backed := other.backed
  tidy := other.tidy
  entries := by rw [other.entries, one.entries, List.append_assoc]
  highest := by rw [other.highest, one.highest, List.length_append, Nat.add_assoc]

/-- An append of a short payload gives the log its entry. -/
theorem Backed.gains (backed : log.Backed parts) (tidy : log.Tidy)
    (room : log.highest + 1 < UInt64.size) (short : payload.length < UInt32.size) :
    ∃ next, LocalLog.append log payload none = (next, .ok (log.highest + 1)) ∧
      log.Gained next [⟨log.highest + 1, payload, none⟩] := by
  have stored := backed.store (e := ⟨log.highest + 1, payload, none⟩) room rfl .sound
  rw [failure_sound] at stored
  obtain ⟨init, s, es, ready, same, ran⟩ := stored
  have fits : Record.Fits ⟨log.highest + 1, payload, none⟩ := ⟨room, short⟩
  have extended := ready.extend (by rw [highest_ready]) fits
  refine ⟨_, ?_, ⟨_, extended⟩, ?_, ?_, rfl⟩
  · show log.append .sound payload none = _
    rw [SegmentLog.append, ran]
    rfl
  · exact (tidy.ready room).extended (by simp [ready.segments]) _
  · rw [extended.entries, backed.entries, ← same]
    simp

end SegmentLog

namespace Master

variable {m : Master SegmentLog} {parts : List SegmentLog.Part}

/-- The master takes writes. -/
structure Open {L : Type} (m : Master L) : Prop where
  going : m.stopped = false
  free : m.unannounced = none

/-- A write that the log takes leaves the master open. -/
theorem Open.append {L : Type} [LocalLog L] {m : Master L} {log : L} {payload : Bytes} {offset : Nat}
    (taking : m.Open) (stored : LocalLog.append m.log payload none = (log, .ok offset)) :
    (m.append payload none).1.Open ∧ (m.append payload none).1.log = log := by
  obtain ⟨going, free⟩ := taking
  have same : m.append payload none = Master.announce
      { m with log, unannounced := some ⟨offset, payload, none⟩ } := by
    simp [Master.append, store, going, free, stored]
  rw [same]
  exact ⟨⟨going, rfl⟩, rfl⟩

/-- Lines become entries up to the first that is no text, and that one is told as the failure. -/
theorem takeLines_gains (lines : List Bytes) (taking : m.Open) (backed : m.log.Backed parts)
    (tidy : m.log.Tidy) (short : ∀ line ∈ Lines.written lines, line.length < UInt32.size)
    (room : m.log.highest + (Lines.written lines).length + 1 < UInt64.size) :
    m.log.Gained (m.takeLines lines).1.log
        (Entry.numbered (m.log.highest + 1) (Lines.written lines)) ∧
      (m.takeLines lines).2 = if lines.all Utf8.isText then none else some .line := by
  induction lines generalizing m parts with
  | nil => exact ⟨.refl backed tidy, rfl⟩
  | cons line later ih =>
    cases text : Utf8.decode? line with
    | none =>
      have foreign : Utf8.isText line = false := by simp [Utf8.isText, text]
      have nothing : Lines.written (line :: later) = [] := by simp [Lines.written, foreign]
      have ends : m.takeLines (line :: later) = (m, some .line) := by
        simp [takeLines, takeLine, text]
      rw [nothing, ends]
      exact ⟨.refl backed tidy, by simp [foreign]⟩
    | some content =>
      have plain : Utf8.isText line = true := by simp [Utf8.isText, text]
      cases line with
      | nil =>
        -- An empty line is no write.
        have skipped : Lines.written ([] :: later) = Lines.written later := by
          simp [Lines.written, plain]
        have goes : m.takeLines ([] :: later) = m.takeLines later := by
          simp [takeLines, takeLine, text]
        rw [skipped] at short room ⊢
        rw [goes, List.all_cons, plain, Bool.true_and]
        exact ih taking backed tidy short room
      | cons b rest =>
        have taken : Lines.written ((b :: rest) :: later) = (b :: rest) :: Lines.written later := by
          simp [Lines.written, plain]
        have goes : m.takeLines ((b :: rest) :: later) =
            (m.append (b :: rest) none).1.takeLines later := by
          simp [takeLines, takeLine, text]
        rw [taken] at short room ⊢
        rw [List.length_cons] at room
        obtain ⟨now, behind⟩ := List.forall_mem_cons.mp short
        obtain ⟨next, stored, gained⟩ := backed.gains tidy (by omega) now
        obtain ⟨taking', log⟩ := taking.append stored
        obtain ⟨parts', backed'⟩ := gained.backed
        have ends : next.highest = m.log.highest + 1 := gained.highest
        obtain ⟨rest, failure⟩ := ih taking' (log ▸ backed') (log ▸ gained.tidy) behind
          (by rw [log, ends]; omega)
        rw [goes, List.all_cons, plain, Bool.true_and]
        refine ⟨?_, failure⟩
        rw [log, ends] at rest
        exact gained.trans rest

end Master

/-! ### What is shown -/

/-- An entry is shown on one line. -/
theorem Entry.newline_not_mem_describe (e : Entry) : '\n' ∉ e.describe.toList := by
  have number : '\n' ∉ Decimal.digits e.offset := fun member =>
    absurd (Decimal.digit_of_mem_digits member).1 (by decide)
  have label : '\n' ∉ Json.quotedOrNull (e.metadata.map Utf8.decodeLossy) := by
    cases e.metadata with
    | none => decide
    | some metadata => exact Json.newline_not_mem_quoted _
  have names : '\n' ∉ Json.quoted "metadata" ∧ '\n' ∉ Json.quoted "offset" ∧
      '\n' ∉ Json.quoted "payload" := by
    exact ⟨Json.newline_not_mem_quoted _, Json.newline_not_mem_quoted _,
      Json.newline_not_mem_quoted _⟩
  have payload := Json.newline_not_mem_quoted (Utf8.decodeLossy e.payload)
  simp [describe, Json.record, List.intercalate, number, label, names, payload]

/-- An entry is shown with its offset, and with its payload if that is a text. -/
theorem Entry.describe_of_text {e : Entry} {text : String} (payload : e.payload = Utf8.encode text) :
    e.describe = Json.record
      [("metadata", Json.quotedOrNull (e.metadata.map Utf8.decodeLossy)),
        ("offset", Decimal.digits e.offset), ("payload", Json.quoted text)] := by
  rw [describe, payload, Utf8.decodeLossy_encode]

/-- All entries of a log are shown, in their order. -/
theorem SegmentLog.Backed.describe {log : SegmentLog} {parts : List SegmentLog.Part}
    (backed : log.Backed parts) : log.describe = (log.entries.map Entry.describe, none) := by
  have legible := backed.legible
  obtain ⟨ended, drained, -⟩ := legible.drained (LocalLog.oldest log) Cursor.usualPage
  rw [Nat.max_eq_left legible.positive, legible.filter_oldest, ← backed.entries] at drained
  have items : ((Cursor.start log.oldest Cursor.usualPage).drain log).2 = log.entries.map .ok :=
    congrArg Prod.snd drained
  simp [SegmentLog.describe, items, List.filterMap_map, List.findSome?_map, Function.comp_def,
    Except.map, Except.toOption]

/-! ### From input to output -/

/-- What becomes of an input: what the program ends with, what it left in the log, and what is shown of
that. -/
structure Retold (input : Bytes) (fresh : SegmentLog) (o : Outcome) : Prop where
  /-- The input was cut into lines, and the last one may lack its end. -/
  lines : ∃ ended last, Lines.Cut input ended last ∧
    Lines.ofInput input = ended.map Lines.trimmed ++ if last = [] then [] else [last]
  failure : o.failure = if (Lines.ofInput input).all Utf8.isText then none else some .line
  entries : o.log.entries = fresh.entries ++
    Entry.numbered (fresh.highest + 1) (Lines.written (Lines.ofInput input))
  ordered : o.log.entries.map Entry.offset = List.range' o.log.oldest o.log.entries.length
  /-- Whoever opens the directory finds all of it, and shows one line for each entry. -/
  shown : ∀ settings : StoreSettings, 1 ≤ settings.segmentSize → ∃ again,
    SegmentLog.recover settings o.log.directory = .ok again ∧ again.entries = o.log.entries ∧
    ∀ rest, Job.run (.dump again) rest (none : Option (Master SegmentLog × SocketAddress)) =
      some { log := again, lines := o.log.entries.map Entry.describe, failure := none }
  told : ∀ e ∈ o.log.entries, '\n' ∉ e.describe.toList ∧
    ∀ text, e.payload = Utf8.encode text → e.describe = Json.record
      [("metadata", Json.quotedOrNull (e.metadata.map Utf8.decodeLossy)),
        ("offset", Decimal.digits e.offset), ("payload", Json.quoted text)]

/-- A master over a log that was opened from well-named files turns its input into entries, and whoever
opens the files afterwards shows them all, as long as lines are short and offsets can be counted. -/
theorem input_is_retold {d : Directory} {storage : StoreSettings} {fresh : SegmentLog}
    {settings : Settings} {created m : Master SegmentLog} {bound : Except Nat SocketAddress}
    {address : SocketAddress} {input : Bytes} (regular : SegmentLog.Regular d)
    (named : SegmentLog.WellNamed d) (opened : SegmentLog.recover storage d = .ok fresh)
    (made : Master.create settings fresh = .ok created)
    (started : created.start bound = (m, .ok address))
    (short : ∀ line ∈ Lines.written (Lines.ofInput input), line.length < UInt32.size)
    (room : fresh.highest + (Lines.written (Lines.ofInput input)).length + 1 < UInt64.size) :
    ∃ o, Job.run (.master m) input (none : Option (Master SegmentLog × SocketAddress)) = some o ∧
      Retold input fresh o := by
  obtain ⟨parts, backed, -⟩ := SegmentLog.backed_of_recover regular opened
  have tidy := SegmentLog.tidy_of_recover regular named opened
  have began : m.log = fresh ∧ m.Open := by
    obtain ⟨-, rfl⟩ := Master.create_of_ok made
    cases bound with
    | error number => simp [Master.start] at started
    | ok place =>
      obtain ⟨rfl, -⟩ := Prod.mk.inj started
      exact ⟨rfl, rfl, rfl⟩
  obtain ⟨rfl, taking⟩ := began
  obtain ⟨gained, failure⟩ := Master.takeLines_gains (Lines.ofInput input) taking backed tidy short room
  obtain ⟨parts', backed'⟩ := gained.backed
  refine ⟨_, rfl, ?_⟩
  constructor
  case lines => exact Lines.ofInput_eq input
  case failure => exact failure
  case entries => exact gained.entries
  case ordered =>
    show ((m.takeLines (Lines.ofInput input)).1.log.entries).map Entry.offset = _
    rw [backed'.entries]
    exact backed'.retained.1
  case shown =>
    intro settings sized
    have again := backed'.resettle settings
    refine ⟨_, backed'.reopens gained.tidy (Nat.ne_of_gt sized), ?_, fun rest => ?_⟩
    · rw [again.entries, ← backed'.entries]
    · simp only [Job.run, again.describe]
      rw [again.entries, ← backed'.entries]
  case told => exact fun e _ => ⟨e.newline_not_mem_describe, fun _ => Entry.describe_of_text⟩

/-- A line with a carriage return, an empty one, one that is no text, and one that is never read. -/
def mixedInput : Bytes := [98, 13, 10, 10, 255, 10, 99]

/-- A running master of a node that was told nothing but its name. -/
def plainMaster (log : SegmentLog) : Master SegmentLog where
  settings := .ofName "m"
  log := log
  quorum := .ofCopies 1
  running := true
  address := some Settings.defaultBind

theorem mixed_input_is_retold : ∃ fresh o,
    SegmentLog.recover .standard SegmentLog.single = .ok fresh ∧
    Job.run (.master (plainMaster fresh)) mixedInput
      (none : Option (Master SegmentLog × SocketAddress)) = some o ∧
    Retold mixedInput fresh o ∧ o.failure = some .line ∧
    o.log.entries = [⟨1, [97], none⟩, ⟨2, [98], none⟩] := by
  have numbers : SegmentLog.bases SegmentLog.single = [1] :=
    SegmentLog.bases_of_sorted (by decide +kernel) (by decide)
  have opened : SegmentLog.recover .standard SegmentLog.single = .ok
      ⟨.standard, SegmentLog.single, [⟨1, [0], 18⟩], some (.file (SegmentName.ofBase 1)), 1⟩ := by
    rw [SegmentLog.recover, numbers]
    decide +kernel
  have regular : SegmentLog.Regular SegmentLog.single :=
    SegmentLog.regular_of_files (by simp [SegmentLog.single])
  have named : SegmentLog.WellNamed SegmentLog.single := by
    refine ⟨by decide +kernel, fun name member base told => ?_⟩
    obtain rfl : name = SegmentName.ofBase 1 := by
      simpa [Directory.names, SegmentLog.single] using member
    have own : SegmentName.base? (SegmentName.ofBase 1) = some 1 :=
      SegmentName.base?_ofBase (by decide) (by decide)
    rw [Option.some.inj (told.symm.trans own)]
  have written : Lines.written (Lines.ofInput mixedInput) = [[98]] := by decide +kernel
  have short : ∀ line ∈ Lines.written (Lines.ofInput mixedInput), line.length < UInt32.size := by
    rw [written]
    decide
  obtain ⟨o, ran, retold⟩ := input_is_retold regular named opened
    (rfl : Master.create (.ofName "m") _ = .ok _)
    (rfl : Master.start _ (.ok Settings.defaultBind) = (plainMaster _, .ok _)) short
    (by rw [written]; decide)
  refine ⟨_, o, opened, ran, retold, ?_, ?_⟩
  · rw [retold.failure]
    decide +kernel
  · rw [retold.entries, written]
    decide +kernel

/-- An empty segment and another spelling of its name. -/
def twiceSpelled : Directory where
  nodes := [(SegmentName.ofBase 1, .file []), ("1.log", .file [])]

/-- Beside another spelling of its segment's name a log is opened and takes the line, and then it cannot
be opened again: nothing of it is shown. -/
theorem retold_to_nobody : ∃ fresh o,
    SegmentLog.recover .standard twiceSpelled = .ok fresh ∧
    Job.run (.master (plainMaster fresh)) [97, 10]
      (none : Option (Master SegmentLog × SocketAddress)) = some o ∧
    o.failure = none ∧ o.log.entries = [⟨1, [97], none⟩] ∧
    SegmentLog.recover .standard o.log.directory = .error (.log (.segmentGap 1 1)) := by
  have numbers (d : Directory) (names : d.names = [SegmentName.ofBase 1, "1.log"]) :
      SegmentLog.bases d = [1, 1] :=
    SegmentLog.bases_of_sorted (by rw [names]; decide +kernel) (by decide)
  have opened : SegmentLog.recover .standard twiceSpelled = .ok
      ⟨.standard, twiceSpelled, [⟨1, [], 0⟩], some (.file (SegmentName.ofBase 1)), 0⟩ := by
    rw [SegmentLog.recover, numbers _ rfl]
    decide +kernel
  refine ⟨_, _, opened, rfl, by decide +kernel, by decide +kernel, ?_⟩
  rw [SegmentLog.recover, numbers _ (by decide +kernel)]
  decide +kernel

end QuorumLog
