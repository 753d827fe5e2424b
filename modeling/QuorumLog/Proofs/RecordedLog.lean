import Mathlib.Data.List.Chain
import Mathlib.Data.List.Pairwise
import QuorumLog.Proofs.StoredRecords

/-! What a log writes into a directory that nobody else touches, whatever the size of its entries. Its
segments follow one another without a gap, each file has the records of its segment and nothing else,
and only the last segment may be empty. -/

namespace QuorumLog

/-! ### Names and files -/

/-- Segments that start at different offsets have different names. -/
theorem SegmentName.ofBase_injective {base other : Nat}
    (same : SegmentName.ofBase base = SegmentName.ofBase other) : base = other := by
  have digits := List.append_cancel_right (String.ofList_injective same)
  have value := congrArg Decimal.value? digits
  rw [Decimal.value?_padded, Decimal.value?_padded] at value
  exact Option.some.inj value

namespace Directory

variable {d : Directory} {name other : String} {node : FileNode} {content : Bytes}

private theorem lookup_first (held : String) (old : FileNode) (rest : List (String × FileNode)) :
    ((held, old) :: rest).lookup other = if other = held then some old else rest.lookup other := by
  by_cases same : other = held
  · simp [same]
  · have apart : (other == held) = false := beq_eq_false_iff_ne.mpr same
    simp [List.lookup_cons, apart, same]

theorem get?_put : (d.put name node).get? other = if other = name then some node else d.get? other := by
  obtain ⟨nodes⟩ := d
  simp only [put, get?]
  induction nodes with
  | nil => exact lookup_first name node []
  | cons first rest ih =>
    obtain ⟨held, old⟩ := first
    simp only [putNode]
    split
    · rename_i here
      subst here
      rw [lookup_first, lookup_first]
      split <;> rfl
    · rename_i elsewhere
      rw [lookup_first, lookup_first, ih]
      by_cases same : other = held
      · have apart : other ≠ name := fun named => elsewhere (same.symm.trans named)
        rw [if_pos same, if_pos same, if_neg apart]
      · rw [if_neg same, if_neg same]

theorem mem_names_put : other ∈ (d.put name node).names ↔ other = name ∨ other ∈ d.names := by
  obtain ⟨nodes⟩ := d
  simp only [put, names]
  induction nodes with
  | nil => simp [putNode]
  | cons first rest ih =>
    obtain ⟨held, old⟩ := first
    simp only [putNode]
    split
    · rename_i here
      simp [here]
    · simp only [List.map_cons, List.mem_cons, ih]
      exact or_left_comm

theorem get?_of_not_mem (absent : name ∉ d.names) : d.get? name = none := by
  rw [get?, List.lookup_eq_none_iff]
  rintro ⟨held, node⟩ member
  have other : name ≠ held := fun same => absent (same ▸ List.mem_map_of_mem member)
  simpa using other

theorem follow_of_none (free : d.get? name = none) : d.follow name = .vacant name := by
  simp [follow, followFor, free]

theorem modifyFile_of_file (f : Bytes → Bytes) (file : d.get? name = some (.file content)) :
    d.modifyFile f name = d.put name (.file (f content)) := by
  simp [modifyFile, file]

theorem put_put (old : FileNode) : (d.put name old).put name node = d.put name node := by
  obtain ⟨nodes⟩ := d
  simp only [put]
  congr 1
  induction nodes with
  | nil => simp [putNode]
  | cons first rest ih =>
    obtain ⟨held, other⟩ := first
    by_cases here : held = name <;> simp [putNode, here, ih]

theorem put_self (found : d.get? name = some node) : d.put name node = d := by
  obtain ⟨nodes⟩ := d
  simp only [put, get?] at found ⊢
  congr 1
  induction nodes with
  | nil => cases found
  | cons first rest ih =>
    obtain ⟨held, other⟩ := first
    by_cases here : held = name
    · subst here
      rw [List.lookup_cons_self] at found
      obtain rfl := Option.some.inj found
      simp [putNode]
    · have apart : (name == held) = false := beq_eq_false_iff_ne.mpr (Ne.symm here)
      rw [List.lookup_cons, apart] at found
      rw [putNode, if_neg here, ih found]

/-- A file that is cut to a length that it has keeps its first bytes. -/
theorem fitted_of_le {length : Nat} (short : length ≤ content.length) :
    fitted length content = content.take length := by
  rw [fitted, Nat.sub_eq_zero_of_le short, List.replicate_zero, List.append_nil]

/-- Bytes that are cut off again leave no trace. -/
theorem modifyFile_fitted (file : d.get? name = some (.file content)) (bytes : Bytes) :
    (d.modifyFile (· ++ bytes) name).modifyFile (fitted content.length) name = d := by
  have written : (d.put name (.file (content ++ bytes))).get? name =
      some (.file (content ++ bytes)) := get?_put.trans (if_pos rfl)
  rw [modifyFile_of_file _ file, modifyFile_of_file _ written,
    fitted_of_le (by rw [List.length_append]; omega), List.take_left, put_put, put_self file]

end Directory

namespace SegmentLog

/-! ### Segments that follow one another -/

/-- A segment and the entries whose records are in its file. -/
abbrev Part := Segment × List Entry

/-- One segment ends where the other starts, or below that. -/
def Before (p q : Part) : Prop := p.1.limit ≤ q.1.base

instance : Trans Before Before Before where
  trans first second := Nat.le_trans first (Nat.le_trans (Nat.le_add_right ..) second)

/-- One segment ends where the other starts, and it is not empty. -/
def Joins (p q : Part) : Prop := p.1.limit = q.1.base ∧ p.2 ≠ []

variable {parts init : List Part} {s : Segment} {es : List Entry} {e : Entry} {log : SegmentLog}

/-! ### Writing -/

/-- A segment that starts above the others goes behind them. -/
theorem withSegment_of_below {segments : List Segment} (below : ∀ r ∈ segments, r.base < s.base) :
    withSegment segments s = segments ++ [s] := by
  rw [withSegment, List.filter_eq_self.mpr]
  exact fun r held => decide_eq_true (Nat.ne_of_lt (below r held))

/-- The log with an empty segment behind the others. -/
def started (log : SegmentLog) : SegmentLog :=
  { log with
    directory := log.directory.put (SegmentName.ofBase (log.highest + 1)) (.file [])
    segments := log.segments ++ [.empty (log.highest + 1)]
    active := some (.file (SegmentName.ofBase (log.highest + 1))) }

/-- A segment behind the others is started if its name is free. -/
theorem startSegment_free (below : ∀ r ∈ log.segments, r.base < log.highest + 1)
    (free : log.directory.get? (SegmentName.ofBase (log.highest + 1)) = none) (medium : Medium) :
    log.startSegment medium (log.highest + 1) =
      match medium.create with
      | some number => .error (.io (.system number))
      | none => .ok log.started := by
  have others : withSegment log.segments (.empty (log.highest + 1)) =
      log.segments ++ [.empty (log.highest + 1)] := withSegment_of_below below
  unfold startSegment
  cases medium.create with
  | some number => rfl
  | none =>
    simp only [Directory.openAppend, Directory.follow_of_none free, if_true, others]
    rfl

/-- The error number that writing a record comes to, if the medium fails. -/
def writeFailure (medium : Medium) (log : SegmentLog) : Option Nat :=
  (medium.write.map Prod.snd).or (if log.settings.syncOnAppend then medium.sync else none)

/-- The log with a record behind those of the last segment. -/
def extended (log : SegmentLog) (s : Segment) (e : Entry) : SegmentLog :=
  { log with
    directory := log.directory.modifyFile (· ++ Record.encode e) s.name
    segments := log.segments.dropLast ++ [s.push (Record.size e)]
    highest := e.offset }

/-- A record goes behind the content of the last file, or what was written of it is cut off and the log
is as it was. -/
theorem writeRecord_last {content : Bytes} (tail : log.segments.getLast? = some s)
    (handle : log.active = some (.file s.name))
    (file : log.directory.get? s.name = some (.file content)) (length : s.length = content.length)
    (medium : Medium) (e : Entry) : log.writeRecord medium e =
      match log.writeFailure medium with
      | some number => (log, .error (.io (.system number)))
      | none => (log.extended s e, .ok ()) := by
  have cut (bytes : Bytes) : ((log.directory.modifyOpen (· ++ bytes) (.file s.name)).modifyOpen
      (Directory.fitted s.length) (.file s.name)) = log.directory := by
    rw [length]
    exact Directory.modifyFile_fitted file bytes
  unfold writeRecord writeFailure written
  simp only [tail, handle]
  cases medium.write with
  | some failed =>
    simp only [cut, Option.map_some, Option.some_or]
    rw [← handle]
  | none =>
    rw [Option.map_none, Option.none_or]
    cases (if log.settings.syncOnAppend = true then medium.sync else none) with
    | some number =>
      simp only [cut]
      rw [← handle]
    | none =>
      rw [extended, ← handle]
      rfl

/-! ### The whole log -/

/-- The log knows what is written in the files of its segments, there are no other files, and the last
one is open for appending and ends where the log ends. -/
structure Recorded (log : SegmentLog) (parts : List Part) : Prop where
  segments : log.segments = parts.map (·.1)
  holds : ∀ p ∈ parts, p.1.Holds p.2
  files : ∀ p ∈ parts, log.directory.get? p.1.name = some (.file (Record.encodeAll p.2))
  joined : parts.IsChain Joins
  positive : ∀ p ∈ parts, 1 ≤ p.1.base
  ends : ∀ p ∈ parts.getLast?, p.1.limit = log.highest + 1
  active : log.active = parts.getLast?.map fun p => .file p.1.name
  names : ∀ name ∈ log.directory.names, ∃ p ∈ parts, name = p.1.name

theorem before_of_joined (joined : parts.IsChain Joins) : parts.Pairwise Before :=
  List.isChain_iff_pairwise.mp (joined.imp fun _ _ joins => Nat.le_of_eq joins.1)

/-- The entries of joined segments are numbered from the first base on. -/
theorem numbered_of_joined {p : Part} {later : List Part} {limit : Nat}
    (holds : ∀ q ∈ p :: later, q.1.Holds q.2) (joined : (p :: later).IsChain Joins)
    (ends : ∀ q ∈ (p :: later).getLast?, q.1.limit = limit) :
    ((p :: later).flatMap (·.2)).map Entry.offset =
        List.range' p.1.base ((p :: later).flatMap (·.2)).length ∧
      p.1.base + ((p :: later).flatMap (·.2)).length = limit := by
  have first := holds p List.mem_cons_self
  have reach := first.limit
  induction later generalizing p with
  | nil =>
    have last := ends p (by simp)
    simp only [List.flatMap_cons, List.flatMap_nil, List.append_nil]
    exact ⟨first.numbered, by omega⟩
  | cons q later ih =>
    obtain ⟨joins, rest⟩ := List.isChain_cons_cons.mp joined
    obtain ⟨numbers, span⟩ := ih (fun r member => holds r (List.mem_cons_of_mem p member)) rest
      (fun r last => ends r (by simpa using last))
      (holds q (List.mem_cons_of_mem p List.mem_cons_self))
      (holds q (List.mem_cons_of_mem p List.mem_cons_self)).limit
    have next : q.1.base = p.1.base + p.2.length := joins.1 ▸ reach
    rw [List.flatMap_cons, List.map_append, List.length_append, numbers, first.numbered, next,
      List.range'_append_1]
    exact ⟨rfl, by omega⟩

/-- The first of joined segments tells the oldest entry, or where it would be. -/
theorem oldest_of_joined {p : Part} {later : List Part}
    (segments : log.segments = (p :: later).map (·.1)) (holds : ∀ q ∈ p :: later, q.1.Holds q.2)
    (joined : (p :: later).IsChain Joins)
    (ends : ∀ q ∈ (p :: later).getLast?, q.1.limit = log.highest + 1) : log.oldest = p.1.base := by
  have first := holds p List.mem_cons_self
  rw [oldest, segments, List.map_cons]
  by_cases empty : p.2 = []
  · cases later with
    | nil =>
      have last := ends p (by simp)
      have limit := first.limit
      rw [empty, List.length_nil] at limit
      simp only [List.map_nil, first.positions_eq_nil.mpr empty, ne_eq, not_true_eq_false,
        decide_false, List.find?_cons, List.find?_nil]
      omega
    | cons q later => exact absurd empty (List.isChain_cons_cons.mp joined).1.2
  · have held : p.1.positions ≠ [] := fun none => empty (first.positions_eq_nil.mp none)
    simp [held]

/-- The entries are numbered without a gap and end at the highest offset. -/
theorem Recorded.numbered (recorded : log.Recorded parts) :
    (parts.flatMap (·.2)).map Entry.offset =
        List.range' log.oldest (parts.flatMap (·.2)).length ∧
      log.oldest + (parts.flatMap (·.2)).length = log.highest + 1 ∧ 1 ≤ log.oldest := by
  cases parts with
  | nil => simp [oldest, recorded.segments]
  | cons p later =>
    rw [oldest_of_joined recorded.segments recorded.holds recorded.joined recorded.ends]
    obtain ⟨numbers, span⟩ := numbered_of_joined recorded.holds recorded.joined recorded.ends
    exact ⟨numbers, span, recorded.positive p List.mem_cons_self⟩

/-! ### Appending -/

/-- Only the last segment may be empty. -/
theorem nonempty_of_joined {last : Part} (joined : (init ++ [last]).IsChain Joins) :
    ∀ p ∈ init, p.2 ≠ [] := by
  induction init with
  | nil => simp
  | cons p later ih =>
    cases later with
    | nil =>
      intro q member
      rw [List.mem_singleton.mp member]
      exact (List.isChain_cons_cons.mp joined).1.2
    | cons r later =>
      obtain ⟨joins, rest⟩ := List.isChain_cons_cons.mp joined
      exact List.forall_mem_cons.mpr ⟨joins.2, ih rest⟩

/-- Each segment starts above those before it. -/
theorem ascending_of_joined (holds : ∀ p ∈ parts, p.1.Holds p.2) (joined : parts.IsChain Joins) :
    (parts.map (·.1.base)).Pairwise (· < ·) := by
  rw [← List.isChain_iff_pairwise, List.isChain_map]
  refine joined.imp_of_mem_imp fun p q held _ joins => ?_
  have limit := (holds p held).limit
  have full := List.length_pos_iff.mpr joins.2
  have meets := joins.1
  omega

/-- The last segment has a name of its own. -/
theorem name_of_last (holds : ∀ p ∈ init ++ [(s, es)], p.1.Holds p.2)
    (joined : (init ++ [(s, es)]).IsChain Joins) : ∀ p ∈ init, p.1.name ≠ s.name := by
  intro p held same
  have ascending := ascending_of_joined holds joined
  rw [List.map_append, List.pairwise_append] at ascending
  have less := ascending.2.2 p.1.base (List.mem_map_of_mem held) s.base List.mem_cons_self
  exact Nat.ne_of_lt less (SegmentName.ofBase_injective same)

/-- A segment with entries starts below the end of the log. -/
theorem Recorded.base_le (recorded : log.Recorded parts) {p : Part} (held : p ∈ parts)
    (full : p.2 ≠ []) : p.1.base ≤ log.highest := by
  obtain ⟨x, member⟩ := List.exists_mem_of_ne_nil _ full
  obtain ⟨numbers, span, -⟩ := recorded.numbered
  have within := List.mem_map_of_mem (f := Entry.offset) (List.mem_flatMap.mpr ⟨p, held, member⟩)
  rw [numbers, List.mem_range'_1] at within
  have inside := ((recorded.holds p held).offset member).1
  omega

/-- A new segment starts behind the last entry. -/
theorem Recorded.start (recorded : log.Recorded parts) (full : ∀ p ∈ parts, p.2 ≠ []) :
    ∃ after, log.startSegment .sound (log.highest + 1) = .ok after ∧
      after.Recorded (parts ++ [(.empty (log.highest + 1), [])]) ∧ after.highest = log.highest := by
  have below : ∀ p ∈ parts, p.1.base < log.highest + 1 := fun p held =>
    Nat.lt_succ_of_le (recorded.base_le held (full p held))
  have free : log.directory.get? (SegmentName.ofBase (log.highest + 1)) = none := by
    refine Directory.get?_of_not_mem fun taken => ?_
    obtain ⟨p, held, same⟩ := recorded.names _ taken
    exact Nat.ne_of_lt (below p held) (SegmentName.ofBase_injective same).symm
  have begun : log.startSegment .sound (log.highest + 1) = .ok log.started := by
    refine startSegment_free (fun s held => ?_) free .sound
    rw [recorded.segments] at held
    obtain ⟨p, present, rfl⟩ := List.mem_map.mp held
    exact below p present
  refine ⟨_, begun, ⟨?_, ?_, ?_, ?_, ?_, ?_, ?_, ?_⟩, rfl⟩
  · rw [List.map_append, ← recorded.segments]
    rfl
  · intro p member
    rcases List.mem_append.mp member with old | new
    · exact recorded.holds p old
    · rw [List.mem_singleton.mp new]
      exact ⟨rfl, rfl, rfl⟩
  · intro p member
    rw [started, Directory.get?_put]
    rcases List.mem_append.mp member with old | new
    · have apart : p.1.name ≠ SegmentName.ofBase (log.highest + 1) := fun same =>
        Nat.ne_of_lt (below p old) (SegmentName.ofBase_injective same)
      rw [if_neg apart]
      exact recorded.files p old
    · rw [List.mem_singleton.mp new]
      exact if_pos rfl
  · refine List.isChain_append.mpr ⟨recorded.joined, List.isChain_singleton _, ?_⟩
    intro p last q new
    cases new
    exact ⟨recorded.ends p last, full p (List.mem_of_getLast? last)⟩
  · intro p member
    rcases List.mem_append.mp member with old | new
    · exact recorded.positive p old
    · rw [List.mem_singleton.mp new]
      exact Nat.le_add_left ..
  · intro p last
    rw [List.getLast?_concat] at last
    cases last
    rfl
  · rw [List.getLast?_concat]
    rfl
  · intro name held
    rcases Directory.mem_names_put.mp held with here | old
    · exact ⟨_, List.mem_append_right _ List.mem_cons_self, here⟩
    · obtain ⟨p, present, same⟩ := recorded.names name old
      exact ⟨p, List.mem_append_left _ present, same⟩

/-- A record goes behind those of the last segment. -/
theorem Recorded.write (recorded : log.Recorded (init ++ [(s, es)])) (next : e.offset = log.highest + 1) :
    ∃ after, log.writeRecord .sound e = (after, .ok ()) ∧ after.highest = e.offset ∧
      after.Recorded (init ++ [(s.push (Record.size e), es ++ [e])]) := by
  have last : (s, es) ∈ init ++ [(s, es)] := List.mem_append_right _ List.mem_cons_self
  have limit : s.limit = log.highest + 1 := recorded.ends (s, es) (by simp)
  have apart := name_of_last recorded.holds recorded.joined
  have file := recorded.files _ last
  have written : log.writeRecord .sound e = (log.extended s e, .ok ()) := by
    have sound : log.writeFailure .sound = none := by simp [writeFailure, Medium.sound]
    have wrote := writeRecord_last (by simp [recorded.segments]) (by simp [recorded.active]) file
      (recorded.holds _ last).length .sound e
    rwa [sound] at wrote
  have files : (log.extended s e).directory =
      log.directory.put s.name (.file (Record.encodeAll es ++ Record.encode e)) :=
    Directory.modifyFile_of_file _ file
  refine ⟨_, written, rfl, ?_, ?_, ?_, ?_, ?_, ?_, ?_, ?_⟩
  · simp [extended, recorded.segments]
  · intro p member
    rcases List.mem_append.mp member with old | new
    · exact recorded.holds p (List.mem_append_left _ old)
    · rw [List.mem_singleton.mp new]
      exact (recorded.holds _ last).push (next.trans limit.symm)
  · intro p member
    rw [files, Directory.get?_put]
    rcases List.mem_append.mp member with old | new
    · rw [if_neg (apart p old)]
      exact recorded.files p (List.mem_append_left _ old)
    · rw [List.mem_singleton.mp new, Record.encodeAll_append]
      simp [Record.encodeAll, Segment.push, Segment.name]
  · obtain ⟨front, -, joins⟩ := List.isChain_append.mp recorded.joined
    refine List.isChain_append.mpr ⟨front, List.isChain_singleton _, ?_⟩
    intro p before q new
    cases new
    exact joins p before (s, es) rfl
  · intro p member
    rcases List.mem_append.mp member with old | new
    · exact recorded.positive p (List.mem_append_left _ old)
    · rw [List.mem_singleton.mp new]
      exact recorded.positive (s, es) last
  · intro p final
    rw [List.getLast?_concat] at final
    cases final
    rw [Segment.limit_push, limit, extended, next]
  · rw [extended, List.getLast?_concat, recorded.active, List.getLast?_concat]
    rfl
  · intro name held
    have known : ∃ p ∈ init ++ [(s, es)], name = p.1.name := by
      rcases Directory.mem_names_put.mp (files ▸ held) with here | old
      · exact ⟨(s, es), last, here⟩
      · exact recorded.names name old
    obtain ⟨p, present, same⟩ := known
    rcases List.mem_append.mp present with old | new
    · exact ⟨p, List.mem_append_left _ old, same⟩
    · rw [List.mem_singleton.mp new] at same
      exact ⟨_, List.mem_append_right _ List.mem_cons_self, same⟩

private theorem stored_in_new (recorded : log.Recorded parts) (full : ∀ p ∈ parts, p.2 ≠ [])
    (needed : log.needsSegment = true) (next : e.offset = log.highest + 1) :
    ∃ after parts', log.store .sound e = (after, .ok ()) ∧ after.highest = e.offset ∧
      parts'.flatMap (·.2) = parts.flatMap (·.2) ++ [e] ∧ after.Recorded parts' := by
  obtain ⟨fresh, started, recorded', same⟩ := recorded.start full
  obtain ⟨after, written, ends, stored⟩ := recorded'.write (e := e) (by rw [same, next])
  refine ⟨after, _, ?_, ends, by simp, stored⟩
  rw [SegmentLog.store, if_pos needed, next, started]
  exact written

/-- The next entry is stored, whatever its size. -/
theorem Recorded.store (recorded : log.Recorded parts) (next : e.offset = log.highest + 1) :
    ∃ after parts', log.store .sound e = (after, .ok ()) ∧ after.highest = e.offset ∧
      parts'.flatMap (·.2) = parts.flatMap (·.2) ++ [e] ∧ after.Recorded parts' := by
  rcases List.eq_nil_or_concat' parts with rfl | ⟨init, p, rfl⟩
  · exact stored_in_new recorded (by simp) (by simp [needsSegment, recorded.segments]) next
  have tail : log.segments.getLast? = some p.1 := by simp [recorded.segments]
  cases needed : log.needsSegment with
  | true =>
    refine stored_in_new recorded (fun q member => ?_) needed next
    rcases List.mem_append.mp member with old | last
    · exact nonempty_of_joined recorded.joined q old
    · rw [List.mem_singleton.mp last]
      have holds := recorded.holds p (List.mem_append_right _ List.mem_cons_self)
      rw [needsSegment, tail] at needed
      have held : p.1.positions ≠ [] := (of_decide_eq_true needed).2
      exact fun none => held (holds.positions_eq_nil.mpr none)
  | false =>
    obtain ⟨after, written, ends, stored⟩ := recorded.write next
    refine ⟨after, _, ?_, ends, by simp, stored⟩
    rw [SegmentLog.store, needed, if_neg Bool.false_ne_true]
    exact written

end SegmentLog

end QuorumLog
