import Mathlib.Data.List.TakeWhile
import QuorumLog.Proofs.SegmentRecovery

/-! What forgetting old entries leaves. A log in memory forgets exactly those below an offset. A stored
log forgets whole segments, so it may keep some of those entries, but never loses one above. Either
way a log retains the end of what it retained before, and still ends where it ended. -/

namespace QuorumLog

/-- A log whose purges take nothing but old entries, and tell how many. -/
class PurgeableLog (L : Type) [LocalLog L] [LawfulLog L] : Prop where
  purge_forgets {log after : L} {offset : Nat} {result : Except Fault Nat} :
    LawfulLog.Sound log → LocalLog.purge log offset = (after, result) →
      LawfulLog.Sound after ∧ LocalLog.highest after = LocalLog.highest log ∧
        ∃ gone, result = .ok gone.length ∧
          LawfulLog.entries log = gone ++ LawfulLog.entries after ∧ ∀ e ∈ gone, e.offset < offset

/-! ### The log in memory -/

namespace VolatileLog

variable {log : VolatileLog}

/-- The last entries are numbered without a gap as well. -/
theorem numbered_of_suffix (numbered : log.Numbered) {gone kept : List Entry}
    (split : log.entries = gone ++ kept) : Numbered { log with entries := kept } := by
  have span := numbered.span
  have offsets := numbered.offsets
  rw [split, List.length_append] at span offsets
  rw [List.map_append, ← List.range'_append_1] at offsets
  obtain ⟨-, later⟩ := List.append_inj offsets (by simp)
  have first : oldest { log with entries := kept } = log.oldest + gone.length := by
    cases kept with
    | nil =>
      rw [List.length_nil] at span
      show log.highest + 1 = _
      omega
    | cons e rest =>
      rw [List.map_cons, List.length_cons, List.range'_succ] at later
      exact (List.cons.inj later).1
  exact ⟨first ▸ later, by rw [first]; show _ + kept.length = log.highest + 1; omega⟩

instance : PurgeableLog VolatileLog where
  purge_forgets {log after offset result} numbered ran := by
    obtain ⟨rfl, rfl⟩ := Prod.mk.inj ran
    have split : log.entries = log.entries.takeWhile (·.offset < offset) ++
        log.entries.dropWhile (·.offset < offset) := List.takeWhile_append_dropWhile.symm
    refine ⟨numbered_of_suffix numbered split, rfl, _, rfl, split, fun e held => ?_⟩
    simpa using List.mem_takeWhile_imp held

end VolatileLog

/-! ### The log in a directory -/

namespace Directory

variable {d : Directory} {name other : String}

theorem get?_erase_of_ne (apart : other ≠ name) : (d.erase name).get? other = d.get? other := by
  obtain ⟨nodes⟩ := d
  simp only [erase, get?]
  induction nodes with
  | nil => rfl
  | cons first rest ih =>
    by_cases here : first.1 = name
    · have missed : (other == first.1) = false := beq_eq_false_iff_ne.mpr (here ▸ apart)
      rw [List.filter_cons_of_neg (by simp [here]), ih, List.lookup_cons, missed]
    · rw [List.filter_cons_of_pos (by simp [here]), List.lookup_cons, List.lookup_cons, ih]

theorem names_erase : (d.erase name).names = d.names.filter (· ≠ name) := by
  rw [erase, names, names, List.filter_map]
  rfl

end Directory

namespace SegmentLog

variable {log after : SegmentLog} {parts gone kept : List Part} {p : Part} {offset : Nat}

/-- The first segment goes with its file; the others and the end of the log stay. -/
theorem Filed.deleteFirst (filed : log.Filed (p :: kept)) (some : kept ≠ []) :
    ∃ after, deleteFile .sound { log with segments := log.segments.filter (·.base ≠ p.1.base) }
        p.1 = .ok after ∧ after.Filed kept ∧ after.highest = log.highest ∧
      after.settings = log.settings ∧
      after.directory.names = log.directory.names.filter (· ≠ p.1.name) := by
  obtain ⟨above, -⟩ := List.pairwise_cons.mp (ascending_of_joined filed.recorded.holds filed.joined)
  have apart : ∀ q ∈ kept, q.1.name ≠ p.1.name := fun q held same =>
    Nat.ne_of_gt (above _ (List.mem_map_of_mem held)) (SegmentName.ofBase_injective same)
  have others : log.segments.filter (·.base ≠ p.1.base) = kept.map (·.1) := by
    rw [filed.segments, List.map_cons, List.filter_cons_of_neg (by simp), List.filter_eq_self]
    intro s held
    obtain ⟨q, member, rfl⟩ := List.mem_map.mp held
    exact decide_eq_true (Nat.ne_of_gt (above _ (List.mem_map_of_mem member)))
  have last : (p :: kept).getLast? = kept.getLast? := List.getLast?_cons_of_ne_nil some
  have active : log.active.map (Change.delete.follow p.1.name) = log.active := by
    rw [filed.active, last, Option.map_map]
    refine Option.map_congr fun q held => ?_
    exact if_neg (apart q (List.mem_of_getLast? held))
  have file := filed.files p List.mem_cons_self
  refine ⟨{ log with directory := log.directory.erase p.1.name, segments := kept.map (·.1) }, ?_,
    ⟨rfl, fun q held => filed.stores q (List.mem_cons_of_mem p held), fun q held => ?_,
      (List.isChain_cons.mp filed.joined).2,
      fun q held => filed.positive q (List.mem_cons_of_mem p held), fun q held => ?_, ?_,
      fun name held => ?_⟩, rfl, rfl, Directory.names_erase⟩
  · rw [others]
    simp only [deleteFile, Medium.sound, Change.apply, file, active, Except.map]
  · rw [Directory.get?_erase_of_ne (apart q held)]
    exact filed.files q (List.mem_cons_of_mem p held)
  · exact filed.ends q (last ▸ held)
  · rw [← last]
    exact filed.active
  · rw [Directory.names_erase, List.mem_filter, decide_eq_true_eq] at held
    obtain ⟨q, member, rfl⟩ := filed.names name held.1
    rcases List.mem_cons.mp member with rfl | later
    · exact absurd rfl held.2
    · exact ⟨q, later, rfl⟩

theorem Findable.deleteFirst (findable : log.Findable)
    (segments : ∀ s ∈ after.segments, s ∈ log.segments) (some : after.segments ≠ [])
    (names : after.directory.names = log.directory.names.filter (· ≠ p.1.name)) :
    after.Findable where
  distinct := by
    rw [names]
    exact findable.distinct.filter _
  small s held := findable.small s (segments s held)
  origin none := absurd none some

/-- Segments go one after the other, as long as one stays. -/
theorem Filed.dropSegments (filed : log.Filed (gone ++ kept)) (some : kept ≠ []) (count : Nat) :
    ∃ after, log.dropSegments .sound count (gone.map (·.1)) =
        (after, .ok (count + (gone.flatMap (·.2)).length)) ∧ after.Filed kept ∧
      after.highest = log.highest ∧ after.settings = log.settings ∧
      (log.Findable → after.Findable) := by
  induction gone generalizing log count with
  | nil => exact ⟨log, rfl, filed, rfl, rfl, id⟩
  | cons p later ih =>
    obtain ⟨next, deleted, filed', ends, same, names⟩ := filed.deleteFirst (by simp [some])
    obtain ⟨after, dropped, kept', ends', same', findable⟩ :=
      ih filed' (count + p.1.positions.length)
    have length : p.1.positions.length = p.2.length := by
      rw [(filed.stores p List.mem_cons_self).positions, Record.length_starts]
    refine ⟨after, ?_, kept', ends'.trans ends, same'.trans same, fun found => findable ?_⟩
    · rw [List.map_cons, SegmentLog.dropSegments]
      simp only [deleted, dropped, List.flatMap_cons, List.length_append]
      rw [length, Nat.add_assoc]
    · refine found.deleteFirst (fun s held => ?_) ?_ names
      · rw [filed'.segments] at held
        rw [filed.segments]
        exact List.mem_cons_of_mem _ held
      · rw [filed'.segments]
        simp [some]

/-- What is picked from a list stands in front, if with each pick everything before it is picked. -/
theorem filter_of_front {α : Type} (l : List α) (pick : α → Bool)
    (front : l.Pairwise fun a b => pick b = true → pick a = true) :
    ∃ gone kept, l = gone ++ kept ∧ l.filter pick = gone := by
  induction l with
  | nil => exact ⟨[], [], rfl, rfl⟩
  | cons a later ih =>
    obtain ⟨before, rest⟩ := List.pairwise_cons.mp front
    cases first : pick a with
    | true =>
      obtain ⟨gone, kept, rfl, picked⟩ := ih rest
      exact ⟨a :: gone, kept, rfl, by rw [List.filter_cons_of_pos first, picked]⟩
    | false =>
      refine ⟨[], a :: later, rfl, List.filter_eq_nil_iff.mpr ?_⟩
      rintro b (_ | ⟨_, behind⟩) picked
      · rw [first] at picked
        cases picked
      · rw [before b behind picked] at first
        cases first

/-- The segments that end at an offset or below are the first ones. -/
private theorem expired_of_ascending (stores : ∀ q ∈ parts, q.1.Stores q.2)
    (ascending : parts.Pairwise Before) (full : ∀ q ∈ parts, q.2 ≠ []) (offset : Nat) :
    ∃ gone kept, parts = gone ++ kept ∧
      (parts.map (·.1)).filter (fun s => s.positions = [] ∨ s.limit ≤ offset) = gone.map (·.1) ∧
      ∀ q ∈ gone, q.1.limit ≤ offset := by
  have held : ∀ q ∈ parts, q.1.positions ≠ [] := fun q member none =>
    full q member ((positions_eq_nil (stores q member)).mp none)
  obtain ⟨gone, kept, split, picked⟩ := filter_of_front parts
    (fun q => q.1.positions = [] ∨ q.1.limit ≤ offset) (by
      refine ascending.imp_of_mem fun {q r} _ member before old => ?_
      have low := (of_decide_eq_true old).resolve_left (held r member)
      refine decide_eq_true (.inr ?_)
      unfold Before Segment.limit at *
      omega)
  refine ⟨gone, kept, split, ?_, fun q member => ?_⟩
  · rw [← picked, List.filter_map]
    rfl
  · rw [← picked] at member
    obtain ⟨known, old⟩ := List.mem_filter.mp member
    exact (of_decide_eq_true old).resolve_left (held q known)

/-- A purge takes the segments that end at an offset or below, but never the last one. -/
theorem Filed.purge_last {init : List Part} {last : Part} (filed : log.Filed (init ++ [last]))
    (offset : Nat) :
    ∃ after gone kept, log.purge .sound offset = (after, .ok (gone.flatMap (·.2)).length) ∧
      init = gone ++ kept ∧ after.Filed (kept ++ [last]) ∧ after.highest = log.highest ∧
      after.settings = log.settings ∧ (log.Findable → after.Findable) ∧
      ∀ e ∈ gone.flatMap (·.2), e.offset < offset := by
  unfold SegmentLog.purge expired
  rw [filed.segments]
  have inside : ∀ q ∈ init, q ∈ init ++ [last] := fun q => List.mem_append_left _
  obtain ⟨gone, kept, rfl, found, low⟩ := expired_of_ascending
    (fun q member => filed.stores q (inside q member))
    (List.pairwise_append.mp (before_of_joined filed.joined)).1 (nonempty_of_joined filed.joined) offset
  rw [List.append_assoc] at filed
  obtain ⟨after, dropped, filed', ends, same, findable⟩ := filed.dropSegments (by simp) 0
  refine ⟨after, gone, kept, ?_, rfl, filed', ends, same, findable, ?_⟩
  · rw [List.map_append, List.map_singleton, List.dropLast_concat, found, dropped, Nat.zero_add]
  · intro e held
    obtain ⟨q, member, within⟩ := List.mem_flatMap.mp held
    have reach := (filed.offset (List.mem_append_left _ member) within).2
    exact Nat.lt_of_lt_of_le reach (low q member)

theorem Filed.purge (filed : log.Filed parts) (offset : Nat) :
    ∃ after gone kept, log.purge .sound offset = (after, .ok (gone.flatMap (·.2)).length) ∧
      parts = gone ++ kept ∧ after.Filed kept ∧ after.highest = log.highest ∧
      after.settings = log.settings ∧ (log.Findable → after.Findable) ∧
      ∀ e ∈ gone.flatMap (·.2), e.offset < offset := by
  rcases List.eq_nil_or_concat' parts with rfl | ⟨init, last, rfl⟩
  · refine ⟨log, [], [], ?_, rfl, filed, rfl, rfl, id, by simp⟩
    unfold SegmentLog.purge expired
    rw [filed.segments]
    rfl
  · obtain ⟨after, gone, kept, purged, rfl, filed', rest⟩ := filed.purge_last offset
    exact ⟨after, gone, kept ++ [last], purged, List.append_assoc .., filed', rest⟩

instance : PurgeableLog SegmentLog where
  purge_forgets {log after offset result} sound ran := by
    obtain ⟨parts, filed⟩ := sound
    obtain ⟨purged, gone, kept, done, rfl, filed', ends, -, -, low⟩ := filed.purge offset
    obtain ⟨rfl, rfl⟩ := Prod.mk.inj (done.symm.trans ran)
    refine ⟨⟨kept, filed'⟩, ends, _, rfl, ?_, low⟩
    exact filed.entries.trans (List.flatMap_append.trans (congrArg _ filed'.entries.symm))

end SegmentLog

/-! ### A log of either kind -/

instance : PurgeableLog Store where
  purge_forgets {log after offset result} sound ran := by
    cases log with
    | volatile log =>
      obtain ⟨rfl, counted⟩ := Prod.mk.inj ran
      have purged : LocalLog.purge log offset = ((LocalLog.purge log offset).1, result) :=
        Prod.ext rfl counted
      obtain ⟨sound', ends, gone, told, split, low⟩ := PurgeableLog.purge_forgets sound.1 purged
      refine ⟨⟨sound', fun e held => sound.2 e ?_⟩, ends, gone, told, split, low⟩
      rw [split]
      exact List.mem_append_right _ held
    | segmented log =>
      obtain ⟨rfl, counted⟩ := Prod.mk.inj ran
      exact PurgeableLog.purge_forgets (L := SegmentLog) sound (Prod.ext rfl counted)

end QuorumLog
