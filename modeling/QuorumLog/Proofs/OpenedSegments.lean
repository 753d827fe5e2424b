import QuorumLog.Proofs.DamagedRecords
import QuorumLog.Proofs.Purging

/-! A log that is opened from files of any origin. What a scan takes for records is read back as the same
records, and segments are only taken one behind the other. So an opened log has no hole, with one
exception: when the file of segment 1 is empty, the number of the segment behind it is not looked at. -/

namespace QuorumLog

/-! ### Records in any bytes -/

namespace Record

variable {available : Nat} {bytes rest : Bytes} {e : Entry} {es : List Entry}

/-- A body is as long as its header says, whatever the flags are. -/
theorem length_body_of_openBody {flags : UInt8} {content payload : Bytes}
    {metadata : Option Bytes} (offset : Nat)
    (opened : openBody flags content = .ok (payload, metadata)) :
    (body ⟨offset, payload, metadata⟩).length = content.length := by
  unfold openBody at opened
  split at opened
  · cases opened
    rfl
  split at opened
  · cases opened
  dsimp only at opened
  split at opened
  · cases opened
  · cases opened
    simp only [body, List.length_append, List.length_take, List.length_drop, LittleEndian.length_encode]
    omega

/-- What is taken off some bytes is a record. -/
theorem spells_of_next (read : next available bytes = .ok (some (e, rest))) :
    ∃ piece, bytes = piece ++ rest ∧ Spells piece e := by
  simp only [next] at read
  split at read
  · cases read
  rename_i present
  split at read
  · cases read
  rename_i header
  split at read
  · cases read
  split at read
  · cases read
  rename_i whole
  split at read
  · cases read
  rename_i same
  split at read
  · cases read
  rename_i payload metadata opened
  cases read
  generalize claims : LittleEndian.decode ((bytes.take headerSize).take 4) = length at *
  rw [List.length_take, List.length_drop] at whole
  rw [List.length_take] at header
  have long : (bytes.take (headerSize + length)).length = headerSize + length := by
    rw [List.length_take]
    omega
  have size_eq : size ⟨LittleEndian.decode (((bytes.take headerSize).drop 4).take 8), payload,
      metadata⟩ = headerSize + length := by
    rw [size, length_body_of_openBody _ opened, List.length_take, List.length_drop]
    omega
  refine ⟨bytes.take (headerSize + length), (List.take_append_drop _ _).symm, long.trans size_eq.symm,
    fun {room} enough later => ?_⟩
  rw [size_eq] at enough
  have front : (bytes.take (headerSize + length) ++ later).take headerSize =
      bytes.take headerSize := by
    rw [List.take_append_of_le_length (by omega), List.take_take, Nat.min_eq_left (by omega)]
  have inside : ((bytes.take (headerSize + length) ++ later).drop headerSize).take length =
      (bytes.drop headerSize).take length := by
    rw [List.drop_append_of_le_length (by omega), List.take_append_of_le_length (by
      rw [List.length_drop]
      omega), List.drop_take, List.take_take, Nat.add_sub_cancel_left, Nat.min_self]
  have behind : (bytes.take (headerSize + length) ++ later).drop (headerSize + length) = later :=
    List.drop_left' long
  simp only [next, front, claims, inside, behind]
  rw [if_neg present, if_neg (by rw [List.length_take]; exact header), if_neg (by omega),
    if_neg (by rw [List.length_take, List.length_drop]; exact whole), if_neg same, opened]

/-- The records in front of some bytes are the first of those in all of them. -/
theorem SpellsAll.begins {content front : Bytes} {first : List Entry} (spelled : SpellsAll content es)
    (before : SpellsAll front first) (begins : front <+: content) : first <+: es := by
  induction before generalizing content es with
  | nil => exact List.nil_prefix
  | @cons piece behind e later head _ ih =>
    obtain ⟨more, same⟩ := begins
    rw [List.append_assoc] at same
    have here := head.next (Nat.le_max_left _ content.length) (behind ++ more)
    cases spelled with
    | nil =>
      rw [same, next_nil] at here
      cases here
    | @cons piece' behind' e' later' head' tail' =>
      have enough : size e' ≤ max (size e) (piece' ++ behind').length := by
        rw [List.length_append, head'.length]
        omega
      have there := head'.next enough behind'
      rw [same, there] at here
      obtain ⟨rfl, rfl⟩ : e' = e ∧ behind' = behind ++ more := by simpa using here
      exact (List.prefix_cons_inj e').mpr (ih tail' (List.prefix_append _ _))

/-- Some bytes are records of one list of entries only. -/
theorem SpellsAll.unique {content : Bytes} {others : List Entry} (spelled : SpellsAll content es)
    (spelled' : SpellsAll content others) : es = others :=
  (spelled'.begins spelled List.prefix_rfl).eq_of_length_le
    (spelled.begins spelled' List.prefix_rfl).length_le

theorem SpellsAll.eq_nil (spelled : SpellsAll [] es) : es = [] := by
  have none := spelled.length
  cases es with
  | nil => rfl
  | cons e later =>
    rw [length_encodeAll_cons, size, headerSize, List.length_nil] at none
    omega

theorem SpellsAll.of_nil {content : Bytes} (spelled : SpellsAll content []) : content = [] :=
  List.eq_nil_of_length_eq_zero spelled.length

end Record

/-- A scan takes the records at the start of some bytes, as long as their offsets follow one another. It
is complete only if nothing stands behind them. -/
theorem SegmentScan.exists_spelled (size expected position : Nat) (bytes : Bytes)
    (fills : size = position + bytes.length) : ∃ kept torn es ending, bytes = kept ++ torn ∧
      Record.SpellsAll kept es ∧ es.map Entry.offset = List.range' expected es.length ∧
      run size expected position bytes = ⟨Record.starts position es, position + kept.length, ending⟩ ∧
      (ending = .complete → torn = []) := by
  have left : size - position = bytes.length := by omega
  rw [run_eq, left]
  cases read : Record.next bytes.length bytes with
  | error cause =>
    exact ⟨[], bytes, [], .broken cause, rfl, .nil, rfl, rfl, fun complete => by cases complete⟩
  | ok taken =>
    cases taken with
    | none =>
      exact ⟨[], bytes, [], .complete, rfl, .nil, rfl, rfl, fun _ => Record.of_next_none read⟩
    | some pair =>
      obtain ⟨e, rest⟩ := pair
      dsimp only
      by_cases number : e.offset = expected
      · obtain ⟨piece, rfl, spells⟩ := Record.spells_of_next read
        have shorter := Record.length_lt_of_next read
        rw [List.length_append, spells.length] at fills
        obtain ⟨kept, torn, es, ending, rfl, spelled, numbered, ran, complete⟩ :=
          exists_spelled size (expected + 1) (position + Record.size e) rest (by omega)
        refine ⟨piece ++ kept, torn, e :: es, ending, by rw [List.append_assoc],
          .cons spells spelled, ?_, ?_, complete⟩
        · rw [List.map_cons, numbered, number, List.length_cons, List.range'_succ]
        · rw [if_pos number, ran, List.length_append, spells.length, Nat.add_assoc]
          rfl
      · refine ⟨[], bytes, [], .stray expected e.offset, rfl, .nil, rfl, ?_,
          fun complete => by cases complete⟩
        rw [if_neg number]
        rfl
termination_by bytes.length

/-! ### One file -/

namespace Segment

variable {d after : Directory} {path : String} {base : Nat} {isLast : Bool} {s : Segment}

/-- A segment that is recovered has a file, if its name is no link. -/
theorem file_of_recover (regular : ∀ target, d.get? (SegmentName.ofBase base) ≠ some (.link target))
    (ran : recover path d base isLast = .ok (after, s)) :
    ∃ content, d.get? (SegmentName.ofBase base) = some (.file content) := by
  cases found : d.get? (SegmentName.ofBase base) with
  | none =>
    simp [recover, Directory.read, Directory.follow_of_none found] at ran
  | some node =>
    cases node with
    | file content => exact ⟨content, rfl⟩
    | folder => simp [recover, Directory.read, Directory.follow, Directory.followFor, found] at ran
    | link target => exact absurd found (regular target)

/-- A segment that was recovered has the records at the start of its file, and no other file was touched.
If the segment is not the last one, nothing else stands in the file. -/
theorem spelled_of_recover {content : Bytes}
    (file : d.get? (SegmentName.ofBase base) = some (.file content))
    (ran : recover path d base isLast = .ok (after, s)) :
    s.base = base ∧ ∃ kept torn es, content = kept ++ torn ∧ Record.SpellsAll kept es ∧ s.Holds es ∧
      after.get? s.name = some (.file kept) ∧
      (∀ other ≠ s.name, after.get? other = d.get? other) ∧
      (isLast = false → torn = [] ∧ after = d) := by
  have bytes := Directory.read_of_file file 0
  have length := Directory.length_of_file file
  rw [List.drop_zero] at bytes
  obtain ⟨kept, torn, es, ending, rfl, spelled, numbered, scan, complete⟩ :=
    SegmentScan.exists_spelled _ base 0 content (length.trans (Nat.zero_add _).symm)
  rw [Nat.zero_add] at scan
  simp only [recover, bytes, scan] at ran
  split at ran
  · cases ran
  rename_i sound
  obtain ⟨rfl, rfl⟩ := Prod.mk.inj (Except.ok.inj ran)
  refine ⟨rfl, kept, torn, es, rfl, spelled, ⟨rfl, spelled.length, numbered⟩, ?_, ?_, ?_⟩
  · split
    · rw [Directory.resize, Directory.follow_of_file file]
      simp only [Directory.modifyFile_of_file _ file]
      rw [Directory.fitted_of_le (by simp), List.take_left]
      exact Directory.get?_put.trans (if_pos rfl)
    · rename_i whole
      rw [length, List.length_append] at whole
      obtain rfl := List.eq_nil_of_length_eq_zero (l := torn) (by omega)
      rw [List.append_nil] at file
      exact file
  · intro other apart
    split
    · rw [Directory.resize, Directory.follow_of_file file]
      simp only [Directory.modifyFile_of_file _ file]
      exact Directory.get?_put.trans (if_neg apart)
    · rfl
  · rintro rfl
    have whole : torn = [] := by
      cases ending with
      | complete => exact complete rfl
      | stray expected actual => cases sound
      | broken cause => cases sound
    refine ⟨whole, if_neg ?_⟩
    rw [length, whole, List.append_nil]
    exact Nat.lt_irrefl _

end Segment

namespace SegmentLog

variable {d after : Directory} {path : String} {parts init : List Part} {p : Part} {s : Segment}
variable {es : List Entry} {highest base : Nat} {log : SegmentLog} {settings : StoreSettings}

/-! ### All files -/

/-- One segment starts above the other, and where it ends. If the other ends at offset 0, it may start
anywhere. -/
def Links (p q : Part) : Prop := p.1.base < q.1.base ∧ (p.1.limit = 1 ∨ p.1.limit = q.1.base)

/-- Segments that were recovered one after the other from the files of a directory. -/
structure Loaded (d : Directory) (parts : List Part) (highest : Nat) : Prop where
  holds : ∀ p ∈ parts, p.1.Holds p.2
  files : ∀ p ∈ parts, ∃ content, d.get? p.1.name = some (.file content) ∧
    Record.SpellsAll content p.2
  positive : ∀ p ∈ parts, 1 ≤ p.1.base
  chain : parts.IsChain Links
  ends : ∀ p ∈ parts.getLast?, p.1.limit = highest + 1
  origin : parts = [] → highest = 0

theorem loaded_nil : Loaded d [] 0 := ⟨by simp, by simp, by simp, .nil, by simp, fun _ => rfl⟩

theorem ascending_of_links (chain : parts.IsChain Links) :
    parts.Pairwise fun p q => p.1.base < q.1.base := by
  have transitive : Trans (fun p q : Part => p.1.base < q.1.base)
      (fun p q : Part => p.1.base < q.1.base) (fun p q : Part => p.1.base < q.1.base) :=
    ⟨Nat.lt_trans⟩
  exact List.isChain_iff_pairwise.mp (chain.imp fun _ _ links => links.1)

/-- Another segment behind the others. -/
theorem Loaded.push (loaded : Loaded d parts highest) (above : ∀ p ∈ parts, p.1.base < s.base)
    (joins : highest = 0 ∨ s.base = highest + 1) (positive : 1 ≤ s.base) (holds : s.Holds es)
    {content : Bytes} (file : after.get? s.name = some (.file content))
    (spelled : Record.SpellsAll content es)
    (others : ∀ other ≠ s.name, after.get? other = d.get? other) :
    Loaded after (parts ++ [(s, es)]) (s.limit - 1) where
  holds p held := by
    rcases List.mem_append.mp held with old | new
    · exact loaded.holds p old
    · rw [List.mem_singleton.mp new]
      exact holds
  files p held := by
    rcases List.mem_append.mp held with old | new
    · rw [others p.1.name fun same =>
        Nat.ne_of_lt (above p old) (SegmentName.ofBase_injective same)]
      exact loaded.files p old
    · rw [List.mem_singleton.mp new]
      exact ⟨content, file, spelled⟩
  positive p held := by
    rcases List.mem_append.mp held with old | new
    · exact loaded.positive p old
    · rw [List.mem_singleton.mp new]
      exact positive
  chain := by
    refine List.isChain_append.mpr ⟨loaded.chain, .singleton _, fun p last q first => ?_⟩
    obtain rfl : (s, es) = q := Option.some.inj first
    have reach := loaded.ends p last
    refine ⟨above p (List.mem_of_getLast? last), joins.imp (fun zero => ?_) fun next => ?_⟩
    · rw [reach, zero]
    · exact reach.trans next.symm
  ends p last := by
    rw [List.getLast?_concat] at last
    obtain rfl := Option.some.inj last
    show s.limit = s.limit - 1 + 1
    unfold Segment.limit
    omega
  origin none := by simp at none

/-- Segments without the last of them, which could be linked to what is left. -/
theorem Loaded.dropLast (loaded : Loaded d (init ++ [p]) highest) :
    ∃ end_, Loaded d init end_ ∧ (end_ = 0 ∨ p.1.base = end_ + 1) := by
  have inside : ∀ q ∈ init, q ∈ init ++ [p] := fun q => List.mem_append_left _
  obtain ⟨chain, -, meets⟩ := List.isChain_append.mp loaded.chain
  rcases List.eq_nil_or_concat' init with rfl | ⟨front, q, rfl⟩
  · exact ⟨0, ⟨by simp, by simp, by simp, chain, by simp, fun _ => rfl⟩, .inl rfl⟩
  · have links := (meets q (by simp) p rfl).2
    have first := loaded.positive q (inside q (by simp))
    refine ⟨q.1.limit - 1, ⟨fun r held => loaded.holds r (inside r held),
      fun r held => loaded.files r (inside r held), fun r held => loaded.positive r (inside r held),
      chain, fun r last => ?_, fun none => by simp at none⟩, ?_⟩
    · rw [List.getLast?_concat] at last
      obtain rfl := Option.some.inj last
      unfold Segment.limit
      omega
    · unfold Segment.limit at links ⊢
      omega

/-- The segments that stay when one comes that starts where the last one does, or above. -/
theorem Loaded.front (loaded : Loaded d parts highest) (above : ∀ p ∈ parts, p.1.base ≤ base)
    (joins : highest = 0 ∨ base = highest + 1) : ∃ front end_, Loaded d front end_ ∧
      (end_ = 0 ∨ base = end_ + 1) ∧ (∀ p ∈ front, p.1.base < base) ∧
      (parts.map (·.1)).filter (·.base ≠ base) = front.map (·.1) ∧
      ∀ number, ((∃ p ∈ front, p.1.base = number) ∨ number = base) ↔
        ((∃ p ∈ parts, p.1.base = number) ∨ number = base) := by
  have kept {front : List Part} (lower : ∀ p ∈ front, p.1.base < base) :
      (front.map (·.1)).filter (·.base ≠ base) = front.map (·.1) := by
    rw [List.filter_eq_self]
    intro s held
    obtain ⟨p, present, rfl⟩ := List.mem_map.mp held
    exact decide_eq_true (Nat.ne_of_lt (lower p present))
  by_cases lower : ∀ p ∈ parts, p.1.base < base
  · exact ⟨parts, highest, loaded, joins, lower, kept lower, fun _ => .rfl⟩
  -- Only the last segment can start where the new one does.
  rcases List.eq_nil_or_concat' parts with rfl | ⟨init, p, rfl⟩
  · exact absurd (by simp) lower
  have apart := (List.pairwise_append.mp (ascending_of_links loaded.chain)).2.2
  have reach := above p (by simp)
  have lower' : ∀ q ∈ init, q.1.base < base := fun q held =>
    Nat.lt_of_lt_of_le (apart q held p (by simp)) reach
  have same : p.1.base = base := by
    by_contra differs
    refine lower fun q held => ?_
    rcases List.mem_append.mp held with old | last
    · exact lower' q old
    · rw [List.mem_singleton.mp last]
      omega
  obtain ⟨end_, loaded', joins'⟩ := loaded.dropLast
  refine ⟨init, end_, loaded', same ▸ joins', lower', ?_, fun number => ?_⟩
  · rw [List.map_append, List.filter_append, kept lower']
    simp [same]
  · simp only [List.mem_append, List.mem_singleton, or_and_right, exists_or, exists_eq_left, same]
    constructor
    · exact Or.imp_left Or.inl
    · rintro ((old | rfl) | rfl)
      · exact .inl old
      · exact .inr rfl
      · exact .inr rfl

/-- A directory in which no segment is a link to another file. -/
def Regular (d : Directory) : Prop :=
  ∀ base ∈ bases d, ∀ target, d.get? (SegmentName.ofBase base) ≠ some (.link target)

/-- How many records a scan takes from the file of the segment at an offset. -/
def recordCount (d : Directory) (base : Nat) : Nat :=
  match d.read (SegmentName.ofBase base) 0 with
  | .error _ => 0
  | .ok bytes =>
    (SegmentScan.run (d.length (SegmentName.ofBase base)) base 0 bytes).positions.length

/-- A directory in which the offset behind the last record of every segment fits a word. Offsets are
words outside of these proofs, and in such a directory no count of them wraps around. -/
def Countable (d : Directory) : Prop := ∀ base ∈ bases d, base + recordCount d base < UInt64.size

/-- The segments that are recovered are linked, and there is one for each number. Only the file of the
last one may have been cut. -/
theorem loaded_of_recoverSegments {numbers : List Nat} {segments : List Segment} {end_ : Nat}
    (loaded : Loaded d parts highest) (sorted : numbers.Pairwise (· ≤ ·))
    (above : ∀ p ∈ parts, ∀ base ∈ numbers, p.1.base ≤ base) (positive : ∀ base ∈ numbers, 1 ≤ base)
    (regular : ∀ base ∈ numbers, ∀ target, d.get? (SegmentName.ofBase base) ≠ some (.link target))
    (ran : recoverSegments path d (parts.map (·.1)) highest numbers = .ok (after, segments, end_)) :
    ∃ parts', segments = parts'.map (·.1) ∧ Loaded after parts' end_ ∧
      (∀ number, (∃ p ∈ parts', p.1.base = number) ↔
        (∃ p ∈ parts, p.1.base = number) ∨ number ∈ numbers) ∧
      ∀ p ∈ parts', parts'.getLast? ≠ some p → after.get? p.1.name = d.get? p.1.name := by
  induction numbers generalizing d parts highest with
  | nil =>
    cases ran
    exact ⟨parts, rfl, loaded, by simp, fun _ _ _ => rfl⟩
  | cons base later ih =>
    obtain ⟨below, sorted'⟩ := List.pairwise_cons.mp sorted
    unfold recoverSegments at ran
    split at ran
    · cases ran
    rename_i joins
    have joins' : highest = 0 ∨ base = highest + 1 := by omega
    cases recovered : Segment.recover path d base later.isEmpty with
    | error fault =>
      rw [recovered] at ran
      cases ran
    | ok result =>
      obtain ⟨d', s⟩ := result
      rw [recovered] at ran
      dsimp only at ran
      obtain ⟨content, file⟩ := Segment.file_of_recover (regular base List.mem_cons_self) recovered
      obtain ⟨rfl, kept, torn, es, -, spelled, holds, file', others, whole⟩ :=
        Segment.spelled_of_recover file recovered
      obtain ⟨front, end', loaded', joins'', lower, filtered, same⟩ :=
        loaded.front (fun p held => above p held s.base List.mem_cons_self) joins'
      have pushed := loaded'.push lower joins'' (positive s.base List.mem_cons_self) holds file'
        spelled others
      have together : withSegment (parts.map (·.1)) s = (front ++ [(s, es)]).map (·.1) := by
        rw [withSegment, filtered, List.map_append, List.map_singleton]
      rw [together] at ran
      have numbered (number : Nat) : (∃ p ∈ front ++ [(s, es)], p.1.base = number) ↔
          (∃ p ∈ parts, p.1.base = number) ∨ number = s.base := by
        rw [← same number]
        simp only [List.mem_append, List.mem_singleton, or_and_right, exists_or, exists_eq_left,
          @eq_comm _ s.base]
      cases later with
      | nil =>
        cases ran
        refine ⟨front ++ [(s, es)], rfl, pushed, fun number => ?_, fun p held other => ?_⟩
        · rw [numbered, List.mem_singleton]
        · rcases List.mem_append.mp held with old | new
          · exact others _ fun named =>
              Nat.ne_of_lt (lower p old) (SegmentName.ofBase_injective named)
          · rw [List.mem_singleton.mp new, List.getLast?_concat] at other
            exact absurd rfl other
      | cons next rest =>
        obtain ⟨-, rfl⟩ := whole rfl
        have above' : ∀ p ∈ front ++ [(s, es)], ∀ number ∈ next :: rest, p.1.base ≤ number := by
          intro p held number member
          rcases List.mem_append.mp held with old | new
          · exact Nat.le_trans (Nat.le_of_lt (lower p old)) (below number member)
          · rw [List.mem_singleton.mp new]
            exact below number member
        obtain ⟨parts', rfl, loaded'', numbers, files⟩ := ih pushed sorted' above'
          (fun number member => positive number (.tail _ member))
          (fun number member => regular number (.tail _ member)) ran
        refine ⟨parts', rfl, loaded'', fun number => ?_, files⟩
        rw [numbers, numbered, or_assoc, List.mem_cons (a := number) (b := s.base)]

theorem limit_of_recover {isLast : Bool} (ran : Segment.recover path d base isLast = .ok (after, s)) :
    s.limit = base + recordCount d base := by
  simp only [Segment.recover] at ran
  unfold recordCount
  cases read : d.read (SegmentName.ofBase base) 0 with
  | error number => simp [read] at ran
  | ok bytes =>
    simp only [read] at ran
    split at ran
    · cases ran
    · cases ran
      rfl

/-- No segment of a countable directory ends beyond the words. -/
theorem counted_of_recoverSegments {numbers : List Nat} {segments found : List Segment} {end_ : Nat}
    (regular : ∀ base ∈ numbers, ∀ target, d.get? (SegmentName.ofBase base) ≠ some (.link target))
    (countable : ∀ base ∈ numbers, base + recordCount d base < UInt64.size)
    (ran : recoverSegments path d segments highest numbers = .ok (after, found, end_)) :
    ∀ s ∈ found, s ∈ segments ∨ s.limit < UInt64.size := by
  induction numbers generalizing d segments highest with
  | nil =>
    cases ran
    exact fun s held => .inl held
  | cons base later ih =>
    obtain ⟨plain, regular'⟩ := List.forall_mem_cons.mp regular
    obtain ⟨fits, countable'⟩ := List.forall_mem_cons.mp countable
    unfold recoverSegments at ran
    split at ran
    · cases ran
    split at ran
    · cases ran
    rename_i d' s recovered
    have here : s.limit < UInt64.size := limit_of_recover recovered ▸ fits
    have known : ∀ t ∈ withSegment segments s, t ∈ segments ∨ t.limit < UInt64.size := by
      intro t held
      rcases List.mem_append.mp held with old | new
      · exact .inl (List.mem_of_mem_filter old)
      · rw [List.mem_singleton.mp new]
        exact .inr here
    intro t held
    cases later with
    | nil =>
      cases ran
      exact known t held
    | cons next rest =>
      -- The file was not the last one, so it was not cut, and the others are scanned as they were.
      obtain ⟨content, file⟩ := Segment.file_of_recover plain recovered
      obtain ⟨-, -, torn, -, -, -, -, -, -, unlast⟩ := Segment.spelled_of_recover file recovered
      obtain ⟨-, rfl⟩ := unlast rfl
      exact (ih regular' countable' ran t held).elim (known t) .inr

/-! ### What linked segments are -/

theorem Loaded.served (loaded : Loaded d parts highest) : Served path d parts where
  numbered p held := (loaded.holds p held).numbered
  limit p held := (loaded.holds p held).limit
  reads p held _ inside count := by
    obtain ⟨content, file, spelled⟩ := loaded.files p held
    exact (loaded.holds p held).read spelled file inside count
  ascending := by
    refine List.isChain_iff_pairwise.mp (loaded.chain.imp fun p q links => ?_)
    obtain ⟨above, ends⟩ := links
    show p.1.limit ≤ q.1.base
    omega

/-- Linked segments are joined, but for an empty segment 1 in front of the others. -/
theorem Loaded.joined (loaded : Loaded d parts highest) : parts.IsChain Joins ∨
    ∃ later, parts = (.empty 1, []) :: later ∧ later ≠ [] ∧ later.IsChain Joins ∧
      ∀ q ∈ later, 1 < q.1.base := by
  cases parts with
  | nil => exact .inl .nil
  | cons p later =>
    have first := loaded.positive p List.mem_cons_self
    have holds := loaded.holds p List.mem_cons_self
    obtain ⟨above, -⟩ := List.pairwise_cons.mp (ascending_of_links loaded.chain)
    have higher : ∀ q ∈ later, 1 < q.1.base := fun q held => Nat.lt_of_le_of_lt first (above q held)
    obtain ⟨meets, chain⟩ := List.isChain_cons.mp loaded.chain
    have joined : later.IsChain Joins := by
      refine chain.imp_of_mem_imp fun q r held _ links => ?_
      have limit := (loaded.holds q (.tail _ held)).limit
      have beyond := higher q held
      obtain ⟨below, ends⟩ := links
      refine ⟨by omega, fun empty => ?_⟩
      rw [empty, List.length_nil] at limit
      omega
    cases later with
    | nil => exact .inl (.singleton p)
    | cons q rest =>
      obtain ⟨below, ends⟩ := meets q rfl
      have limit := holds.limit
      have beyond := higher q List.mem_cons_self
      by_cases empty : p.2 = []
      · refine .inr ⟨q :: rest, ?_, by simp, joined, higher⟩
        obtain ⟨⟨base, positions, length⟩, es⟩ := p
        obtain rfl : es = [] := empty
        obtain rfl : positions = [] := holds.positions
        obtain rfl : length = 0 := holds.length
        obtain rfl : base = 1 := by
          change base + 0 = 1 ∨ base + 0 = q.1.base at ends
          change base < q.1.base at below
          omega
        rfl
      · have full := List.length_pos_iff.mpr empty
        exact .inl (List.isChain_cons_cons.mpr ⟨⟨by omega, empty⟩, joined⟩)

/-- Joined segments have every offset from the first base to the highest one. -/
theorem retained_of_joined (segments : log.segments = parts.map (·.1))
    (holds : ∀ p ∈ parts, p.1.Holds p.2) (joined : parts.IsChain Joins)
    (ends : ∀ p ∈ parts.getLast?, p.1.limit = log.highest + 1)
    (origin : parts = [] → log.highest = 0) :
    (parts.flatMap (·.2)).map Entry.offset =
        List.range' log.oldest (parts.flatMap (·.2)).length ∧
      log.oldest + (parts.flatMap (·.2)).length = log.highest + 1 ∧
      ∀ p ∈ parts.head?, log.oldest = p.1.base := by
  cases parts with
  | nil => simp [oldest, segments, origin rfl]
  | cons p later =>
    rw [oldest_of_joined segments holds joined ends]
    obtain ⟨numbers, span⟩ := numbered_of_joined holds joined ends
    exact ⟨numbers, span, fun q first => by rw [Option.some.inj first]⟩

/-- What is retained is what is in the segments, or in those behind an empty segment 1. -/
theorem Loaded.retained (loaded : Loaded d parts log.highest)
    (segments : log.segments = parts.map (·.1)) :
    ((parts.flatMap (·.2)).map Entry.offset =
        List.range' log.oldest (parts.flatMap (·.2)).length ∧
      log.oldest + (parts.flatMap (·.2)).length = log.highest + 1) ∧
    ((¬∃ later, parts = (.empty 1, []) :: later ∧ later ≠ []) →
      ∀ p ∈ parts.head?, log.oldest = p.1.base) ∧
    ((∃ later, parts = (.empty 1, []) :: later ∧ later ≠ []) → 1 < log.oldest) := by
  have holds := loaded.holds
  have ends := loaded.ends
  rcases loaded.joined with joined | ⟨later, rfl, others, joined, higher⟩
  · obtain ⟨numbers, span, first⟩ := retained_of_joined segments holds joined ends loaded.origin
    refine ⟨⟨numbers, span⟩, fun _ => first, fun skipped => ?_⟩
    obtain ⟨later, rfl, others⟩ := skipped
    obtain ⟨q, rest, rfl⟩ := List.exists_cons_of_ne_nil others
    exact absurd rfl (List.isChain_cons_cons.mp joined).1.2
  · have oldest : log.oldest = SegmentLog.oldest { log with segments := later.map (·.1) } := by
      rw [SegmentLog.oldest, segments]
      rfl
    obtain ⟨q, rest, rfl⟩ := List.exists_cons_of_ne_nil others
    have tail : ({ log with segments := (q :: rest).map (·.1) } : SegmentLog).segments =
        (q :: rest).map (·.1) := rfl
    obtain ⟨numbers, span, first⟩ := retained_of_joined tail
      (fun p held => holds p (List.mem_cons_of_mem _ held)) joined (fun p last => ends p last)
      (fun none => by cases none)
    rw [oldest]
    exact ⟨⟨numbers, span⟩, fun seen => absurd ⟨_, rfl, others⟩ seen,
      fun _ => first q rfl ▸ higher q List.mem_cons_self⟩

/-- Whoever reads linked segments gets the first entries from an offset on. -/
theorem Loaded.read (loaded : Loaded log.directory parts log.highest)
    (segments : log.segments = parts.map (·.1)) (start limit : Nat) : LocalLog.read log start limit =
      .ok (((parts.flatMap (·.2)).filter (start ≤ ·.offset)).take limit) := by
  obtain ⟨⟨numbered, span⟩, -⟩ := loaded.retained segments
  refine loaded.served.read segments (fun e member => ?_) start limit
  have within := List.mem_map_of_mem (f := Entry.offset) member
  rw [numbered, List.mem_range'_1] at within
  omega

/-! ### The opened log -/

theorem mem_bases {number : Nat} :
    number ∈ bases d ↔ ∃ name ∈ d.names, SegmentName.base? name = some number := by
  rw [bases, List.mem_mergeSort, List.mem_filterMap]

theorem sorted_bases (d : Directory) : (bases d).Pairwise (· ≤ ·) :=
  List.pairwise_mergeSort' (· ≤ ·) _

theorem bases_positive : ∀ number ∈ bases d, 1 ≤ number := by
  intro number member
  obtain ⟨name, -, number_eq⟩ := mem_bases.mp member
  exact of_decide_eq_true (Option.filter_eq_some_iff.mp number_eq).2

/-- The file of segment 1 is empty, so the number of the segment behind it is not compared with it. -/
def Overlooked (d : Directory) : Prop :=
  d.get? (SegmentName.ofBase 1) = some (.file []) ∧ ∃ base ∈ bases d, 1 < base

/-- A log that was opened from a directory. Only the file of the last segment may have been cut. -/
structure Opened (d : Directory) (log : SegmentLog) (parts : List Part) : Prop where
  segments : log.segments = parts.map (·.1)
  loaded : Loaded log.directory parts log.highest
  numbers : ∀ number, (∃ p ∈ parts, p.1.base = number) ↔ number ∈ bases d
  files : ∀ p ∈ parts, parts.getLast? ≠ some p → log.directory.get? p.1.name = d.get? p.1.name

/-- What `recover` goes through when it succeeds. -/
theorem recoverSegments_of_recover (opened : recover settings d = .ok log) :
    settings.segmentSize ≠ 0 ∧ log.settings = settings ∧
      recoverSegments settings.path d [] 0 (bases d) =
        .ok (log.directory, log.segments, log.highest) ∧
      openLast log.directory log.segments = .ok log.active := by
  unfold recover at opened
  split at opened
  · cases opened
  rename_i sized
  split at opened
  · cases opened
  rename_i after segments highest ran
  cases last : openLast after segments with
  | error fault =>
    rw [last] at opened
    cases opened
  | ok active =>
    rw [last] at opened
    cases opened
    exact ⟨sized, rfl, ran, last⟩

theorem exists_opened (regular : Regular d) (opened : recover settings d = .ok log) :
    ∃ parts, Opened d log parts := by
  obtain ⟨-, -, recovered, -⟩ := recoverSegments_of_recover opened
  obtain ⟨parts, segments_eq, loaded, numbers, files⟩ := loaded_of_recoverSegments loaded_nil
    (sorted_bases d) (by simp) bases_positive regular recovered
  exact ⟨parts, segments_eq, loaded, fun number => by simp [numbers number], files⟩

theorem counted_of_recover (regular : Regular d) (countable : Countable d)
    (opened : recover settings d = .ok log) : ∀ s ∈ log.segments, s.limit < UInt64.size := by
  obtain ⟨-, -, recovered, -⟩ := recoverSegments_of_recover opened
  intro s held
  have counted := counted_of_recoverSegments regular countable recovered s held
  exact counted.resolve_left List.not_mem_nil

namespace Opened

variable {q : Part} {front back : List Part}

/-- A segment that is not the last one is linked to the next, of which the number is the next higher
one. -/
theorem next (opened : Opened d log parts) (held : p ∈ parts) (more : parts.getLast? ≠ some p) :
    ∃ q, Links p q ∧ q.1.base ∈ bases d ∧
      ∀ number ∈ bases d, p.1.base < number → q.1.base ≤ number := by
  obtain ⟨front, back, rfl⟩ := List.append_of_mem held
  cases back with
  | nil => exact absurd List.getLast?_concat more
  | cons q back =>
    have chain := opened.loaded.chain
    have ascending := ascending_of_links chain
    obtain ⟨-, later, apart⟩ := List.pairwise_append.mp ascending
    obtain ⟨-, later'⟩ := List.pairwise_cons.mp later
    obtain ⟨behind, -⟩ := List.pairwise_cons.mp later'
    obtain ⟨links, -⟩ := List.isChain_cons_cons.mp (List.isChain_append.mp chain).2.1
    refine ⟨q, links, (opened.numbers _).mp ⟨q, by simp, rfl⟩, fun number member above => ?_⟩
    obtain ⟨r, present, rfl⟩ := (opened.numbers number).mpr member
    rcases List.mem_append.mp present with before | after
    · exact absurd (apart r before p List.mem_cons_self) (Nat.lt_asymm above)
    rcases List.mem_cons.mp after with rfl | after
    · exact absurd above (Nat.lt_irrefl _)
    rcases List.mem_cons.mp after with rfl | after
    · exact Nat.le_refl _
    · exact Nat.le_of_lt (behind r after)

/-- The file of a segment that is not the last one is as it was. -/
theorem file (opened : Opened d log parts) (held : p ∈ parts) (more : parts.getLast? ≠ some p) :
    ∃ content, d.get? p.1.name = some (.file content) ∧ Record.SpellsAll content p.2 := by
  rw [← opened.files p held more]
  exact opened.loaded.files p held

/-- A segment above which another one starts is not the last one. -/
theorem more_of_above (opened : Opened d log parts) (present : q ∈ parts)
    (above : p.1.base < q.1.base) : parts.getLast? ≠ some p := by
  intro last
  obtain ⟨front, rfl⟩ := List.getLast?_eq_some_iff.mp last
  have apart := (List.pairwise_append.mp (ascending_of_links opened.loaded.chain)).2.2
  rcases List.mem_append.mp present with before | here
  · exact Nat.lt_asymm above (apart q before p List.mem_cons_self)
  · rw [List.mem_singleton.mp here] at above
    exact Nat.lt_irrefl _ above

/-- Segment 1 is overlooked exactly if it is the first of several and has no record. -/
theorem overlooked_iff (opened : Opened d log parts) :
    Overlooked d ↔ ∃ later, parts = (.empty 1, []) :: later ∧ later ≠ [] := by
  constructor
  · rintro ⟨empty, number, member, above⟩
    have one : 1 ∈ bases d := mem_bases.mpr ⟨_, Directory.mem_names_of_get? empty,
      SegmentName.base?_ofBase Nat.one_pos (by decide)⟩
    obtain ⟨p, held, first⟩ := (opened.numbers 1).mpr one
    obtain ⟨q, present, rfl⟩ := (opened.numbers number).mpr member
    have more := opened.more_of_above present (first ▸ above)
    rcases opened.loaded.joined with joined | ⟨later, rfl, others, -⟩
    · obtain ⟨content, file, spelled⟩ := opened.file held more
      rw [Segment.name, first, empty] at file
      obtain rfl := FileNode.file.inj (Option.some.inj file)
      rcases List.eq_nil_or_concat' parts with rfl | ⟨front, last, rfl⟩
      · cases held
      rcases List.mem_append.mp held with before | here
      · exact absurd (Record.SpellsAll.eq_nil spelled) (nonempty_of_joined joined p before)
      · rw [List.mem_singleton.mp here, List.getLast?_concat] at more
        exact absurd rfl more
    · exact ⟨later, rfl, others⟩
  · rintro ⟨later, rfl, others⟩
    obtain ⟨q, rest, rfl⟩ := List.exists_cons_of_ne_nil others
    have above := (List.pairwise_cons.mp (ascending_of_links opened.loaded.chain)).1 q
      List.mem_cons_self
    have present : q ∈ (Segment.empty 1, []) :: q :: rest := by simp
    obtain ⟨content, file, spelled⟩ :=
      opened.file List.mem_cons_self (opened.more_of_above present above)
    obtain rfl := spelled.of_nil
    exact ⟨file, _, (opened.numbers _).mp ⟨q, present, rfl⟩, above⟩

/-- What is retained is what is in the segments behind an overlooked one. -/
theorem retained (opened : Opened d log parts) :
    ((parts.flatMap (·.2)).map Entry.offset =
        List.range' log.oldest (parts.flatMap (·.2)).length ∧
      log.oldest + (parts.flatMap (·.2)).length = log.highest + 1) ∧
    (¬Overlooked d → ∀ p ∈ parts.head?, log.oldest = p.1.base) ∧
    (Overlooked d → 1 < log.oldest) := by
  rw [opened.overlooked_iff]
  exact opened.loaded.retained opened.segments

end Opened

/-- The log has what is in the files of a directory, and there is no hole in it unless segment 1 was
overlooked. -/
structure Coherent (d : Directory) (log : SegmentLog) : Prop where
  /-- There is one segment for each number of a file. -/
  numbers : ∀ number, number ∈ bases d ↔ ∃ s ∈ log.segments, s.base = number
  /-- Every offset from the oldest through the highest one is retained, and read from wherever the
  reading starts. -/
  retained : ∃ es : List Entry, es.map Entry.offset = List.range' log.oldest es.length ∧
    log.oldest + es.length = log.highest + 1 ∧ ∀ start limit,
      LocalLog.read log start limit = .ok ((es.filter (start ≤ ·.offset)).take limit)
  /-- The oldest offset is the lowest number of a file. -/
  lowest : ¬Overlooked d → ∀ low ∈ (bases d).head?, log.oldest = low
  /-- Behind an overlooked segment 1 the lowest offsets are missing. -/
  hidden : Overlooked d → (bases d).head? = some 1 ∧ 1 < log.oldest
  /-- The file of a segment has its records and nothing else, but for the last segment. -/
  whole : ∀ s ∈ log.segments, log.segments.getLast? ≠ some s → ∃ content es,
    d.get? s.name = some (.file content) ∧ Record.SpellsAll content es ∧ s.Holds es
  /-- The next number is the offset behind the last record. -/
  follows : ∀ s ∈ log.segments, log.segments.getLast? ≠ some s →
    (Overlooked d ∧ s = .empty 1) ∨ (s.positions ≠ [] ∧ s.limit ∈ bases d ∧
      ∀ number ∈ bases d, s.base < number → s.limit ≤ number)

theorem Opened.lowest (opened : Opened d log parts) :
    ∀ low ∈ (bases d).head?, ∃ p ∈ parts.head?, p.1.base = low := by
  intro low first
  obtain ⟨rest, split⟩ := List.head?_eq_some_iff.mp first
  have lowest : ∀ number ∈ bases d, low ≤ number := by
    intro number member
    have sorted := sorted_bases d
    rw [split] at sorted member
    rcases List.mem_cons.mp member with rfl | later
    · exact Nat.le_refl _
    · exact (List.pairwise_cons.mp sorted).1 number later
  obtain ⟨p, held, same⟩ := (opened.numbers low).mpr (split ▸ List.mem_cons_self)
  cases parts with
  | nil => cases held
  | cons q later =>
    refine ⟨q, rfl, Nat.le_antisymm ?_ (lowest _ ((opened.numbers _).mp ⟨q, List.mem_cons_self, rfl⟩))⟩
    rcases List.mem_cons.mp held with rfl | behind
    · exact Nat.le_of_eq same
    · have above := (List.pairwise_cons.mp (ascending_of_links opened.loaded.chain)).1 p behind
      exact Nat.le_of_lt (same ▸ above)

theorem Opened.coherent (opened : Opened d log parts) : Coherent d log := by
  obtain ⟨⟨numbers, span⟩, lowest, hidden⟩ := opened.retained
  have part {s : Segment} (known : s ∈ log.segments) (more : log.segments.getLast? ≠ some s) :
      ∃ p ∈ parts, p.1 = s ∧ parts.getLast? ≠ some p := by
    rw [opened.segments] at known more
    obtain ⟨p, held, rfl⟩ := List.mem_map.mp known
    exact ⟨p, held, rfl, fun last => more (by rw [List.getLast?_map, last]; rfl)⟩
  refine ⟨fun number => ?_, ⟨_, numbers, span, fun start limit => ?_⟩, fun seen low first => ?_,
    fun overlooked => ⟨?_, hidden overlooked⟩, fun s known more => ?_, fun s known more => ?_⟩
  · rw [← opened.numbers number, opened.segments]
    simp
  · exact opened.loaded.read opened.segments start limit
  · obtain ⟨p, first', rfl⟩ := opened.lowest low first
    exact lowest seen p first'
  · obtain ⟨later, rfl, -⟩ := opened.overlooked_iff.mp overlooked
    have one := (opened.numbers 1).mp ⟨_, List.mem_cons_self, rfl⟩
    obtain ⟨low, rest, split⟩ := List.exists_cons_of_ne_nil (List.ne_nil_of_mem one)
    obtain ⟨p, first, same⟩ := opened.lowest low (by rw [split]; rfl)
    obtain rfl := Option.some.inj first
    rw [split, ← same]
    rfl
  · obtain ⟨p, held, rfl, more'⟩ := part known more
    obtain ⟨content, file, spelled⟩ := opened.file held more'
    exact ⟨content, p.2, file, spelled, opened.loaded.holds p held⟩
  · obtain ⟨p, held, rfl, more'⟩ := part known more
    obtain ⟨q, ⟨above, ends⟩, member, next⟩ := opened.next held more'
    have holds := opened.loaded.holds p held
    by_cases empty : p.2 = []
    · left
      rcases opened.loaded.joined with joined | ⟨later, rfl, others, joined, higher⟩
      · rcases List.eq_nil_or_concat' parts with rfl | ⟨front, last, rfl⟩
        · cases held
        rcases List.mem_append.mp held with before | here
        · exact absurd empty (nonempty_of_joined joined p before)
        · rw [List.mem_singleton.mp here, List.getLast?_concat] at more'
          exact absurd rfl more'
      · refine ⟨opened.overlooked_iff.mpr ⟨later, rfl, others⟩, ?_⟩
        rcases List.mem_cons.mp held with rfl | behind
        · rfl
        · have limit := holds.limit
          have beyond := higher p behind
          rw [empty, List.length_nil] at limit
          omega
    · right
      have limit := holds.limit
      have full := List.length_pos_iff.mpr empty
      have first := opened.loaded.positive p held
      have meets : p.1.limit = q.1.base := by omega
      exact ⟨fun none => empty (holds.positions_eq_nil.mp none), meets ▸ member, meets ▸ next⟩

/-! ### Missing and shortened segments -/

theorem small_of_mem_bases {number : Nat} (member : number ∈ bases d) : number < UInt64.size := by
  obtain ⟨name, -, told⟩ := mem_bases.mp member
  obtain ⟨stem, -, read⟩ := Option.bind_eq_some_iff.mp (Option.filter_eq_some_iff.mp told).1
  exact of_decide_eq_true (Option.filter_eq_some_iff.mp read).2

/-- A deleted segment takes no other number with it. -/
theorem mem_bases_erase {number : Nat} (small : base ∈ bases d) (other : number ≠ base) :
    number ∈ bases (d.erase (SegmentName.ofBase base)) ↔ number ∈ bases d := by
  have own := SegmentName.base?_ofBase (bases_positive base small) (small_of_mem_bases small)
  rw [mem_bases, mem_bases, Directory.names_erase]
  constructor
  · rintro ⟨name, member, told⟩
    exact ⟨name, List.mem_of_mem_filter member, told⟩
  · rintro ⟨name, member, told⟩
    refine ⟨name, List.mem_filter.mpr ⟨member, decide_eq_true fun same => other ?_⟩, told⟩
    rw [same, own] at told
    exact (Option.some.inj told).symm

theorem get?_erase_self {name : String} : (d.erase name).get? name = none :=
  Directory.get?_of_not_mem (by simp [Directory.names_erase])

theorem Regular.erase (regular : Regular d) {name : String} : Regular (d.erase name) := by
  intro number member target linked
  have present : number ∈ bases d := by
    obtain ⟨other, kept, told⟩ := mem_bases.mp member
    rw [Directory.names_erase] at kept
    exact mem_bases.mpr ⟨other, List.mem_of_mem_filter kept, told⟩
  by_cases same : SegmentName.ofBase number = name
  · rw [same, get?_erase_self] at linked
    cases linked
  · rw [Directory.get?_erase_of_ne same] at linked
    exact regular number present target linked

theorem bases_put {name : String} {content : Bytes} (known : name ∈ d.names) :
    bases (d.put name (.file content)) = bases d := by
  rw [bases, bases, Directory.names_put, if_pos known]

theorem Regular.put (regular : Regular d) {name : String} {content : Bytes}
    (known : name ∈ d.names) : Regular (d.put name (.file content)) := by
  intro number member target linked
  rw [bases_put known] at member
  rw [Directory.get?_put] at linked
  split at linked
  · cases linked
  · exact regular number member target linked

/-- A directory of files has no links. -/
theorem regular_of_files (files : ∀ node ∈ d.nodes, ∃ content, node.2 = .file content) :
    Regular d := by
  intro number _ target linked
  obtain ⟨before, after, split, -⟩ := List.lookup_eq_some_iff.mp linked
  obtain ⟨content, file⟩ := files _ (split ▸ List.mem_append_right _ List.mem_cons_self)
  cases file

/-- Numbers that stand in a directory in ascending order. -/
theorem bases_of_sorted {numbers : List Nat}
    (told : d.names.filterMap SegmentName.base? = numbers) (sorted : numbers.Pairwise (· ≤ ·)) :
    bases d = numbers := by
  rw [bases, told]
  exact List.mergeSort_eq_self LE.le sorted

section Damage

variable {p : Part} {other : SegmentLog} {parts' : List Part}

/-- The segment in front of one that is not the first. -/
theorem Opened.previous (opened : Opened d log parts) (held : p ∈ parts)
    (first : parts.head? ≠ some p) : ∃ q ∈ parts, Links q p := by
  obtain ⟨front, back, rfl⟩ := List.append_of_mem held
  rcases List.eq_nil_or_concat' front with rfl | ⟨front, q, rfl⟩
  · exact absurd rfl first
  · obtain ⟨-, -, meets⟩ := List.isChain_append.mp opened.loaded.chain
    exact ⟨q, by simp, meets q (by simp) p rfl⟩

/-- No other log is opened when a segment that is not the last one is shortened. -/
theorem Opened.not_shortened (opened : Opened d log parts) (held : p ∈ parts)
    (more : parts.getLast? ≠ some p) {content : Bytes}
    (file : d.get? p.1.name = some (.file content)) {length : Nat} (short : length < content.length)
    (seen : p.1.base ≠ 1 ∨ 0 < length)
    (opened' : Opened (d.put p.1.name (.file (content.take length))) other parts') : False := by
  obtain ⟨content', file', spelled⟩ := opened.file held more
  obtain rfl := FileNode.file.inj (Option.some.inj (file.symm.trans file'))
  obtain ⟨q, links, member, least⟩ := opened.next held more
  have numbers : bases (d.put p.1.name (.file (content.take length))) = bases d :=
    bases_put (Directory.mem_names_of_get? file)
  -- The same numbers are there, so the shorter segment would have to end where the next one starts.
  obtain ⟨p', held', same⟩ := (opened'.numbers p.1.base).mpr
    (numbers ▸ (opened.numbers _).mp ⟨p, held, rfl⟩)
  obtain ⟨r, present, next⟩ := (opened'.numbers q.1.base).mpr (numbers ▸ member)
  have more' := opened'.more_of_above present (by rw [same, next]; exact links.1)
  obtain ⟨q', links', member', least'⟩ := opened'.next held' more'
  have agree : q'.1.base = q.1.base := by
    refine Nat.le_antisymm (least' _ (numbers ▸ member) (same ▸ links.1)) ?_
    exact least _ (numbers ▸ member') (same ▸ links'.1)
  obtain ⟨cut, file', spelled'⟩ := opened'.file held' more'
  rw [show p'.1.name = p.1.name from congrArg SegmentName.ofBase same, Directory.get?_put,
    if_pos rfl] at file'
  obtain rfl := FileNode.file.inj (Option.some.inj file')
  have begins := spelled.begins spelled' (List.take_prefix _ _)
  have limit := (opened.loaded.holds p held).limit
  have limit' := (opened'.loaded.holds p' held').limit
  have first := opened.loaded.positive p held
  have fewer := begins.length_le
  obtain ⟨above, ends⟩ := links
  obtain ⟨-, ends'⟩ := links'
  by_cases none : p'.2 = []
  · rw [none] at spelled' limit'
    have gone := spelled'.of_nil
    rw [List.take_eq_nil_iff] at gone
    rw [List.length_nil] at limit'
    rcases gone with zero | empty
    · omega
    · rw [empty] at short
      cases short
  · have some := List.length_pos_iff.mpr none
    have all : p'.2.length = p.2.length := by omega
    rw [begins.eq_of_length all] at spelled'
    have long := spelled'.length.trans spelled.length.symm
    rw [List.length_take] at long
    omega

/-- No other log is opened when a segment between two others is missing. -/
theorem Opened.not_missing (opened : Opened d log parts) (seen : ¬Overlooked d) (held : p ∈ parts)
    (first : parts.head? ≠ some p) (more : parts.getLast? ≠ some p)
    (opened' : Opened (d.erase p.1.name) other parts') : False := by
  have known := (opened.numbers _).mp ⟨p, held, rfl⟩
  obtain ⟨q, held', links⟩ := opened.previous held first
  obtain ⟨r, links', member, -⟩ := opened.next held more
  have stays {number : Nat} (apart : number ≠ p.1.base) (present : number ∈ bases d) :
      ∃ p' ∈ parts', p'.1.base = number :=
    (opened'.numbers number).mpr ((mem_bases_erase known apart).mpr present)
  obtain ⟨r', present, next⟩ := stays (Nat.ne_of_gt links'.1) member
  obtain ⟨q', front, same⟩ := stays (Nat.ne_of_lt links.1) ((opened.numbers _).mp ⟨q, held', rfl⟩)
  -- The number of the missing segment is gone, since its file is not there.
  have gone : ∀ p' ∈ parts', p'.1.base ≠ p.1.base := by
    intro p' there named
    obtain ⟨content, file, -⟩ := opened'.file there
      (opened'.more_of_above present (by rw [named, next]; exact links'.1))
    rw [show p'.1.name = p.1.name from congrArg SegmentName.ofBase named, get?_erase_self] at file
    cases file
  have more' := opened'.more_of_above present
    (by rw [same, next]; exact Nat.lt_trans links.1 links'.1)
  obtain ⟨content, file, spelled⟩ := opened.file held' (opened.more_of_above held links.1)
  obtain ⟨content', file', spelled'⟩ := opened'.file front more'
  have apart : q.1.name ≠ p.1.name := fun named =>
    Nat.ne_of_lt links.1 (SegmentName.ofBase_injective named)
  rw [show q'.1.name = q.1.name from congrArg SegmentName.ofBase same,
    Directory.get?_erase_of_ne apart, file] at file'
  obtain rfl := FileNode.file.inj (Option.some.inj file')
  have entries := spelled'.unique spelled
  obtain ⟨q'', links'', member', -⟩ := opened'.next front more'
  obtain ⟨p', there, named⟩ := (opened'.numbers _).mpr member'
  have limit := (opened.loaded.holds q held').limit
  have limit' := (opened'.loaded.holds q' front).limit
  rw [entries] at limit'
  have lowest := opened.loaded.positive q held'
  have above := links.1
  have joined : q.1.limit = p.1.base := by
    refine links.2.resolve_left fun one => seen ⟨?_, p.1.base, known, by omega⟩
    have none : q.2 = [] := List.eq_nil_of_length_eq_zero (by omega)
    have number : q.1.base = 1 := by omega
    rw [none] at spelled
    rw [Segment.name, number, spelled.of_nil] at file
    exact file
  refine gone p' there (named.trans ?_)
  obtain ⟨-, ends⟩ := links''
  omega

end Damage

/-! ### The rule -/

/-- What holds of a log that was opened from any directory: it has no hole but behind an overlooked
segment 1, and any other hole keeps a log from being opened. -/
structure Unbroken (d : Directory) (log : SegmentLog) : Prop where
  coherent : Coherent d log
  /-- The offset behind the last record of each segment fits a word. -/
  counted : ∀ s ∈ log.segments, s.limit < UInt64.size
  /-- A segment that is not the last one is emptied or cut, but for segment 1, which can be emptied. -/
  shortened : ∀ s ∈ log.segments, log.segments.getLast? ≠ some s →
    ∀ content, d.get? s.name = some (.file content) → ∀ length < content.length,
      s.base ≠ 1 ∨ 0 < length → ∀ damaged, (Change.truncate length).apply s.name d = .ok damaged →
        ∀ settings, ∃ fault, recover settings damaged = .error fault
  /-- A segment between two others is deleted. -/
  missing : ¬Overlooked d → ∀ s ∈ log.segments, log.segments.head? ≠ some s →
    log.segments.getLast? ≠ some s → ∀ damaged, Change.delete.apply s.name d = .ok damaged →
      ∀ settings, ∃ fault, recover settings damaged = .error fault

/-- A directory of files that can be counted is either refused, or the log that is opened is
unbroken. -/
theorem unbroken_of_recover (regular : Regular d) (countable : Countable d)
    (opened : recover settings d = .ok log) : Unbroken d log := by
  have counted := counted_of_recover regular countable opened
  obtain ⟨parts, opened⟩ := exists_opened regular opened
  have part {s : Segment} (known : s ∈ log.segments) (more : log.segments.getLast? ≠ some s) :
      ∃ p ∈ parts, p.1 = s ∧ parts.getLast? ≠ some p ∧
        (log.segments.head? ≠ some s → parts.head? ≠ some p) := by
    rw [opened.segments] at known more ⊢
    obtain ⟨p, held, rfl⟩ := List.mem_map.mp known
    refine ⟨p, held, rfl, fun last => more ?_, fun behind first => behind ?_⟩
    · rw [List.getLast?_map, last]
      rfl
    · rw [List.head?_map, first]
      rfl
  refine ⟨opened.coherent, counted, ?_, ?_⟩
  · intro s known more content file length short seen damaged cut settings
    obtain ⟨p, held, rfl, more', -⟩ := part known more
    have name := Directory.mem_names_of_get? file
    simp only [Change.apply, Change.onFile, Directory.follow_of_file file,
      Directory.modifyFile_of_file _ file, Directory.fitted_of_le (Nat.le_of_lt short)] at cut
    obtain rfl := Except.ok.inj cut
    cases ran : recover settings (d.put p.1.name (.file (content.take length))) with
    | error fault => exact ⟨fault, rfl⟩
    | ok other =>
      obtain ⟨parts', opened'⟩ := exists_opened (regular.put name) ran
      exact (opened.not_shortened held more' file short seen opened').elim
  · intro seen s known behind more damaged deleted settings
    obtain ⟨p, held, rfl, more', first⟩ := part known more
    obtain ⟨content, file, -⟩ := opened.file held more'
    simp only [Change.apply, file] at deleted
    obtain rfl := Except.ok.inj deleted
    cases ran : recover settings (d.erase p.1.name) with
    | error fault => exact ⟨fault, rfl⟩
    | ok other =>
      obtain ⟨parts', opened'⟩ := exists_opened regular.erase ran
      exact (opened.not_missing seen held (first behind) more' opened').elim

/-- Three segments with one record each. -/
def three : Directory where
  nodes := [(SegmentName.ofBase 1, .file (Record.encode ⟨1, [97], none⟩)),
    (SegmentName.ofBase 2, .file (Record.encode ⟨2, [98], none⟩)),
    (SegmentName.ofBase 3, .file (Record.encode ⟨3, [99], none⟩))]

/-- The three entries are there, and without the second file the log is not opened. -/
theorem unbroken_three : ∃ log, recover .standard three = .ok log ∧ Unbroken three log ∧
    LocalLog.read log 1 9 = .ok [⟨1, [97], none⟩, ⟨2, [98], none⟩, ⟨3, [99], none⟩] ∧
    ∀ settings, ∃ fault, recover settings (three.erase (SegmentName.ofBase 2)) = .error fault := by
  have regular : Regular three := regular_of_files (by simp [three])
  have numbers : bases three = [1, 2, 3] := bases_of_sorted (by decide +kernel) (by decide)
  have opened : recover .standard three = .ok ⟨.standard, three,
      [⟨1, [0], 18⟩, ⟨2, [0], 18⟩, ⟨3, [0], 18⟩], some (.file (SegmentName.ofBase 3)), 3⟩ := by
    rw [recover, numbers]
    decide +kernel
  have seen : ¬Overlooked three := fun overlooked => absurd overlooked.1 (by decide +kernel)
  have countable : Countable three := by
    rw [Countable, numbers]
    decide +kernel
  have unbroken := unbroken_of_recover regular countable opened
  refine ⟨_, opened, unbroken, by decide +kernel, fun settings => ?_⟩
  exact unbroken.missing seen ⟨2, [0], 18⟩ (by simp) (by simp) (by simp) _ (by decide +kernel) settings

/-- The file of segment 1 is empty, and the next segment starts at 5. -/
def holed : Directory where
  nodes := [(SegmentName.ofBase 1, .file []),
    (SegmentName.ofBase 5, .file (Record.encode ⟨5, [101], none⟩))]

/-- The log is opened, and whoever reads it from the lowest number on gets the entry at offset 5 first. -/
theorem hole_behind_empty_segment : ∃ log, recover .standard holed = .ok log ∧
    (bases holed).head? = some 1 ∧ LocalLog.highest log = 5 ∧ LocalLog.oldest log = 5 ∧
    LocalLog.read log 1 1 = .ok [⟨5, [101], none⟩] := by
  have numbers : bases holed = [1, 5] := bases_of_sorted (by decide +kernel) (by decide)
  have opened : recover .standard holed = .ok ⟨.standard, holed,
      [⟨1, [], 0⟩, ⟨5, [0], 18⟩], some (.file (SegmentName.ofBase 5)), 5⟩ := by
    rw [recover, numbers]
    decide +kernel
  exact ⟨_, opened, by rw [numbers]; rfl, rfl, by decide +kernel, by decide +kernel⟩

end SegmentLog

end QuorumLog
