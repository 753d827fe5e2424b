import QuorumLog.Proofs.RecoveredFiles
import QuorumLog.Proofs.StoredRuns

/-! What holds of a stored log at any time, whatever its medium does. Every segment is backed by the
records in its file, and the next one has a free name. A store that fails leaves nothing behind but
perhaps an empty segment; a purge that fails leaves files that no segment knows. So the segments always
fit the files, but not the other way round. -/

namespace QuorumLog

/-- Another record behind some others. -/
theorem Record.SpellsAll.snoc {content piece : Bytes} {es : List Entry} {e : Entry}
    (spelled : SpellsAll content es) (next : Spells piece e) :
    SpellsAll (content ++ piece) (es ++ [e]) := by
  induction spelled with
  | nil => simpa using SpellsAll.cons next .nil
  | cons first _ ih =>
    rw [List.append_assoc]
    exact .cons first ih

namespace SegmentLog

variable {d after : Directory} {parts init gone rest : List Part} {p : Part} {s : Segment}
variable {es : List Entry} {e : Entry} {highest : Nat} {log next : SegmentLog} {name : String}
variable {settings : StoreSettings} {medium : Medium}

/-! ### The invariant -/

/-- Each segment has its records in a file of its own, the last one is open for appending and ends where
the log ends, and no file has a higher number. There may be files of which the log knows nothing. -/
structure Backed (log : SegmentLog) (parts : List Part) : Prop where
  segments : log.segments = parts.map (·.1)
  loaded : Loaded log.directory parts log.highest
  active : log.active = parts.getLast?.map fun p => .file p.1.name
  regular : Regular log.directory
  listed : ∀ p ∈ parts, p.1.base ∈ bases log.directory
  upper : ∀ number ∈ bases log.directory, ∃ p ∈ parts.getLast?, number ≤ p.1.base

/-- The settings play no part in it. -/
theorem Backed.resettle (backed : log.Backed parts) (settings : StoreSettings) :
    Backed { log with settings } parts := { backed with }

/-- Linked segments have every offset from the oldest through the highest one. -/
theorem Backed.retained (backed : log.Backed parts) :
    (parts.flatMap (·.2)).map Entry.offset =
        List.range' log.oldest (parts.flatMap (·.2)).length ∧
      log.oldest + (parts.flatMap (·.2)).length = log.highest + 1 :=
  (backed.loaded.retained backed.segments).1

/-- Whoever reads gets the first of the entries from an offset on. -/
theorem Backed.read (backed : log.Backed parts) (start limit : Nat) : LocalLog.read log start limit =
    .ok (((parts.flatMap (·.2)).filter (start ≤ ·.offset)).take limit) :=
  backed.loaded.read backed.segments start limit

theorem Backed.oldest_pos (backed : log.Backed parts) : 1 ≤ log.oldest := by
  obtain ⟨-, plain, skipping⟩ := backed.loaded.retained backed.segments
  by_cases skipped : ∃ later, parts = (.empty 1, []) :: later ∧ later ≠ []
  · exact Nat.le_of_lt (skipping skipped)
  cases parts with
  | nil =>
    rw [oldest, backed.segments]
    exact Nat.le_add_left ..
  | cons p later =>
    rw [plain skipped p rfl]
    exact backed.loaded.positive p List.mem_cons_self

theorem Backed.entries (backed : log.Backed parts) : log.entries = parts.flatMap (·.2) := by
  obtain ⟨-, span⟩ := backed.retained
  have positive := backed.oldest_pos
  have read : log.read 0 log.highest = _ := backed.read 0 log.highest
  have all : (parts.flatMap (·.2)).filter (0 ≤ ·.offset) = parts.flatMap (·.2) := by simp
  rw [SegmentLog.entries, read, all]
  exact List.take_of_length_le (by omega)

/-- If the last segment has entries, every segment starts below the end of the log. -/
theorem Backed.base_lt (backed : log.Backed parts) (full : ∀ p ∈ parts.getLast?, p.2 ≠ []) :
    ∀ p ∈ parts, p.1.base < log.highest + 1 := by
  intro p held
  rcases List.eq_nil_or_concat' parts with rfl | ⟨init, q, rfl⟩
  · cases held
  have ends := backed.loaded.ends q (by simp)
  have limit := (backed.loaded.holds q (by simp)).limit
  have some := List.length_pos_iff.mpr (full q (by simp))
  rcases List.mem_append.mp held with before | last
  · have less := (List.pairwise_append.mp (ascending_of_links backed.loaded.chain)).2.2 p before q
      (by simp)
    omega
  · rw [List.mem_singleton.mp last]
    omega

theorem mem_bases_put {node : FileNode} {number : Nat} : number ∈ bases (d.put name node) ↔
    SegmentName.base? name = some number ∨ number ∈ bases d := by
  rw [mem_bases, mem_bases]
  constructor
  · rintro ⟨other, member, told⟩
    rcases Directory.mem_names_put.mp member with rfl | old
    · exact .inl told
    · exact .inr ⟨other, old, told⟩
  · rintro (told | ⟨other, old, told⟩)
    · exact ⟨name, Directory.mem_names_put.mpr (.inl rfl), told⟩
    · exact ⟨other, Directory.mem_names_put.mpr (.inr old), told⟩

/-! ### A new segment -/

/-- The name of the next segment is free. -/
theorem Backed.free (backed : log.Backed parts) (full : ∀ p ∈ parts.getLast?, p.2 ≠ [])
    (room : log.highest + 1 < UInt64.size) :
    log.directory.get? (SegmentName.ofBase (log.highest + 1)) = none := by
  refine Directory.get?_of_not_mem fun taken => ?_
  have told := SegmentName.base?_ofBase (Nat.succ_pos log.highest) room
  obtain ⟨p, last, above⟩ := backed.upper _ (mem_bases.mpr ⟨_, taken, told⟩)
  have below := backed.base_lt full p (List.mem_of_getLast? last)
  omega

theorem Backed.start (backed : log.Backed parts) (full : ∀ p ∈ parts.getLast?, p.2 ≠ [])
    (room : log.highest + 1 < UInt64.size) :
    (∀ medium, log.startSegment medium (log.highest + 1) =
      match medium.create with
      | some number => .error (.io (.system number))
      | none => .ok log.started) ∧
    log.started.Backed (parts ++ [(.empty (log.highest + 1), [])]) := by
  have below := backed.base_lt full
  have told := SegmentName.base?_ofBase (Nat.succ_pos log.highest) room
  refine ⟨startSegment_free (fun s held => ?_) (backed.free full room), ?_⟩
  · rw [backed.segments] at held
    obtain ⟨p, present, rfl⟩ := List.mem_map.mp held
    exact below p present
  have pushed : Loaded log.started.directory (parts ++ [(.empty (log.highest + 1), [])]) log.highest :=
    backed.loaded.push below (.inr rfl) (Nat.le_add_left 1 log.highest) ⟨rfl, rfl, rfl⟩
    (Directory.get?_put.trans (if_pos rfl)) .nil
    (fun other apart => Directory.get?_put.trans (if_neg apart))
  refine ⟨?_, pushed, ?_, ?_, ?_, ?_⟩
  · rw [List.map_append, ← backed.segments]
    rfl
  · rw [List.getLast?_concat]
    rfl
  · intro number member target linked
    rw [started, Directory.get?_put] at linked
    split at linked
    · cases linked
    rename_i apart
    rcases mem_bases_put.mp member with new | old
    · exact apart (by rw [← Option.some.inj (told.symm.trans new)])
    · exact backed.regular number old target linked
  · intro p held
    refine mem_bases_put.mpr ?_
    rcases List.mem_append.mp held with old | new
    · exact .inr (backed.listed p old)
    · rw [List.mem_singleton.mp new]
      exact .inl told
  · intro number member
    refine ⟨_, List.getLast?_concat, ?_⟩
    rcases mem_bases_put.mp member with new | old
    · exact Nat.le_of_eq (Option.some.inj (told.symm.trans new)).symm
    · obtain ⟨p, last, above⟩ := backed.upper number old
      have less := below p (List.mem_of_getLast? last)
      exact Nat.le_of_lt (Nat.lt_of_le_of_lt above less)

/-! ### Storing an entry -/

/-- The error number that storing an entry comes to, if the medium fails at what has to be done. -/
def failure (medium : Medium) (log : SegmentLog) : Option Nat :=
  (if log.needsSegment then medium.create else none).or (log.writeFailure medium)

/-- A record is written, or what was written of it is cut off and the log is as it was. -/
theorem Backed.writes (backed : log.Backed (init ++ [(s, es)])) (medium : Medium) (e : Entry) :
    log.writeRecord medium e =
      match log.writeFailure medium with
      | some number => (log, .error (.io (.system number)))
      | none => (log.extended s e, .ok ()) := by
  have last : (s, es) ∈ init ++ [(s, es)] := by simp
  obtain ⟨content, file, spelled⟩ := backed.loaded.files _ last
  have length : s.length = content.length :=
    (backed.loaded.holds _ last).length.trans spelled.length.symm
  exact writeRecord_last (by simp [backed.segments]) (by simp [backed.active]) file length medium e

/-- The record of the next entry goes behind the others. -/
theorem Backed.extend (backed : log.Backed (init ++ [(s, es)])) (comes : e.offset = log.highest + 1)
    (fits : Record.Fits e) :
    (log.extended s e).Backed (init ++ [(s.push (Record.size e), es ++ [e])]) := by
  have last : (s, es) ∈ init ++ [(s, es)] := by simp
  have limit : s.limit = log.highest + 1 := backed.loaded.ends (s, es) (by simp)
  have holds : s.Holds es := backed.loaded.holds _ last
  obtain ⟨content, file, spelled⟩ := backed.loaded.files _ last
  have written : (log.extended s e).directory =
      log.directory.put s.name (.file (content ++ Record.encode e)) :=
    Directory.modifyFile_of_file _ file
  have same : bases (log.extended s e).directory = bases log.directory := by
    rw [written, bases_put (Directory.mem_names_of_get? file)]
  obtain ⟨end_, front, joins⟩ := backed.loaded.dropLast
  have lower := (List.pairwise_append.mp (ascending_of_links backed.loaded.chain)).2.2
  have pushed : Loaded (log.extended s e).directory (init ++ [(s.push (Record.size e), es ++ [e])])
      ((s.push (Record.size e)).limit - 1) := front.push
    (fun p held => lower p held (s, es) (by simp)) joins (backed.loaded.positive _ last)
    (holds.push (comes.trans limit.symm)) (written ▸ Directory.get?_put.trans (if_pos rfl))
    (spelled.snoc (Record.spells_encode fits))
    (fun other apart => written ▸ Directory.get?_put.trans (if_neg apart))
  have ends : (s.push (Record.size e)).limit - 1 = e.offset := by
    rw [Segment.limit_push, limit, comes, Nat.add_sub_cancel]
  rw [ends] at pushed
  refine ⟨?_, pushed, ?_, ?_, fun p held => ?_, fun number member => ?_⟩
  · simp [extended, backed.segments]
  · simp [extended, backed.active, Segment.name, Segment.push]
  · rw [written]
    exact backed.regular.put (Directory.mem_names_of_get? file)
  · rw [same]
    rcases List.mem_append.mp held with old | new
    · exact backed.listed p (List.mem_append_left _ old)
    · rw [List.mem_singleton.mp new]
      exact backed.listed (s, es) last
  · rw [same] at member
    obtain ⟨p, last', above⟩ := backed.upper number member
    rw [List.getLast?_concat] at last'
    obtain rfl := Option.some.inj last'
    exact ⟨_, List.getLast?_concat, above⟩

/-- If a new segment is needed, the last one has entries. -/
theorem Backed.full (backed : log.Backed parts) (needed : log.needsSegment = true) :
    ∀ p ∈ parts.getLast?, p.2 ≠ [] := by
  intro p last none
  have tail : log.segments.getLast? = some p.1 := by
    rw [backed.segments, List.getLast?_map, last]
    rfl
  rw [needsSegment, tail] at needed
  have holds := backed.loaded.holds p (List.mem_of_getLast? last)
  exact (of_decide_eq_true needed).2 (holds.positions_eq_nil.mpr none)

/-- The log in which the next entry goes into the last segment. -/
def ready (log : SegmentLog) : SegmentLog := if log.needsSegment then log.started else log

/-- The segment for the next entry, if a new one is started, is empty. -/
theorem Backed.ready (backed : log.Backed parts) (room : log.highest + 1 < UInt64.size) :
    ∃ init s es, log.ready.Backed (init ++ [(s, es)]) ∧
      (init ++ [(s, es)]).flatMap (·.2) = parts.flatMap (·.2) ∧ log.ready.needsSegment = false := by
  unfold SegmentLog.ready
  cases needed : log.needsSegment with
  | true =>
    refine ⟨parts, _, _, (backed.start (backed.full needed) room).2, by simp, ?_⟩
    simp [needsSegment, started, Segment.empty]
  | false =>
    rcases List.eq_nil_or_concat' parts with rfl | ⟨init, ⟨s, es⟩, rfl⟩
    · rw [needsSegment, backed.segments] at needed
      cases needed
    · exact ⟨init, s, es, backed, rfl, needed⟩

@[simp] theorem highest_ready : log.ready.highest = log.highest := by
  unfold SegmentLog.ready
  split <;> rfl

@[simp] theorem settings_ready : log.ready.settings = log.settings := by
  unfold SegmentLog.ready
  split <;> rfl

/-- A store either fails, and the log is at most made ready for it, or it extends the last segment. -/
theorem Backed.store (backed : log.Backed parts) (room : log.highest + 1 < UInt64.size)
    (comes : e.offset = log.highest + 1) (medium : Medium) :
    match log.failure medium with
    | some number => ∃ after, log.store medium e = (after, .error (.io (.system number))) ∧
        (after = log ∨ after = log.ready)
    | none => ∃ init s es, log.ready.Backed (init ++ [(s, es)]) ∧
        (init ++ [(s, es)]).flatMap (·.2) = parts.flatMap (·.2) ∧
        log.store medium e = (log.ready.extended s e, .ok ()) := by
  obtain ⟨init, s, es, backed', same, -⟩ := backed.ready room
  have written := backed'.writes medium e
  have wrote : log.ready.writeFailure medium = log.writeFailure medium := by
    rw [writeFailure, settings_ready]
    rfl
  rw [wrote] at written
  unfold SegmentLog.store failure
  rw [comes]
  cases needed : log.needsSegment with
  | true =>
    rw [if_pos rfl, if_pos rfl, (backed.start (backed.full needed) room).1 medium]
    have here : log.ready = log.started := if_pos needed
    cases medium.create with
    | some number => exact ⟨log, rfl, .inl rfl⟩
    | none =>
      rw [Option.none_or]
      cases failed : log.writeFailure medium with
      | some number =>
        rw [failed, here] at written
        exact ⟨log.ready, here ▸ written, .inr rfl⟩
      | none =>
        rw [failed, here] at written
        exact ⟨init, s, es, backed', same, here ▸ written⟩
  | false =>
    rw [if_neg Bool.false_ne_true, if_neg Bool.false_ne_true, Option.none_or]
    have here : log.ready = log := if_neg (by rw [needed]; exact Bool.false_ne_true)
    cases failed : log.writeFailure medium with
    | some number =>
      rw [failed, here] at written
      exact ⟨log, written, .inl rfl⟩
    | none =>
      rw [failed] at written
      exact ⟨init, s, es, backed', same,
        (congrArg (fun log => log.writeRecord medium e) here.symm).trans written⟩

/-- What a store comes to on any medium, told by its result. -/
theorem Backed.stored {result : Except Fault Unit} (backed : log.Backed parts)
    (room : log.highest + 1 < UInt64.size) (comes : e.offset = log.highest + 1)
    (ran : log.store medium e = (next, result)) :
    (∃ fault, result = .error fault ∧ (next = log ∨ next = log.ready)) ∨
      (result = .ok () ∧ next.highest = e.offset ∧ ∃ init s es,
        log.ready.segments.getLast? = some s ∧ next = log.ready.extended s e ∧
        (init ++ [(s, es)]).flatMap (·.2) = parts.flatMap (·.2) ∧
        (Record.Fits e → next.Backed (init ++ [(s.push (Record.size e), es ++ [e])]))) := by
  have stored := backed.store room comes medium
  rw [ran] at stored
  split at stored
  · obtain ⟨after, same, left⟩ := stored
    obtain ⟨rfl, rfl⟩ := Prod.mk.inj same
    exact .inl ⟨_, rfl, left⟩
  · obtain ⟨init, s, es, backed', entries, same⟩ := stored
    obtain ⟨rfl, rfl⟩ := Prod.mk.inj same
    refine .inr ⟨rfl, rfl, init, s, es, ?_, rfl, entries, backed'.extend (by simp [comes])⟩
    simp [backed'.segments]

end SegmentLog

end QuorumLog
