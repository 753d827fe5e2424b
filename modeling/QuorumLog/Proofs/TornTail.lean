import QuorumLog.Proofs.StoredRuns

/-! What is left of a log whose last segment file was cut, wherever the cut falls. The records that are
whole come back, the rest of the file is given up, and the log goes on behind them. -/

namespace QuorumLog.SegmentLog

variable {log after : SegmentLog} {history : List Entry} {s : Segment} {init : List Part}
variable {es : List Entry} {settings : StoreSettings}

/-- The retained entries of the segments before one. -/
def earlier (log : SegmentLog) (s : Segment) : List Entry := log.entries.filter (·.offset < s.base)

/-- The retained entries of a segment and of those behind it. -/
def own (log : SegmentLog) (s : Segment) : List Entry := log.entries.filter (s.base ≤ ·.offset)

/-- What a log is after its last segment `s` was cut to some bytes and the directory opened again. -/
structure Salvaged (log : SegmentLog) (s : Segment) (length whole : Nat) (after : SegmentLog) :
    Prop where
  /-- An entry of the last segment is among those that come back if its record ends within the
  bytes. -/
  survives (i : Nat) : i < (log.own s).length →
    (i < whole ↔ (Record.encodeAll ((log.own s).take (i + 1))).length ≤ length)
  within : whole ≤ (log.own s).length
  entries : after.entries = log.earlier s ++ (log.own s).take whole
  file : after.directory.get? s.name =
    some (.file (Record.encodeAll ((log.own s).take whole)))
  others : ∀ name ≠ s.name, after.directory.get? name = log.directory.get? name
  highest : LocalLog.highest after = s.base + whole - 1
  /-- The next append goes behind them, and is there after another opening too. -/
  append (payload : Bytes) (metadata : Option Bytes) :
    Record.Fits ⟨LocalLog.highest after + 1, payload, metadata⟩ →
      ∃ grown, LocalLog.append after payload metadata = (grown, .ok (LocalLog.highest after + 1)) ∧
        ∀ segmentSize, 1 ≤ segmentSize → ∃ again, grown.reopen segmentSize = .ok again ∧
          ∀ held ∈ [grown, again],
            held.entries = after.entries ++ [⟨LocalLog.highest after + 1, payload, metadata⟩] ∧
            LocalLog.read held (LocalLog.highest after + 1) 1 =
              .ok [⟨LocalLog.highest after + 1, payload, metadata⟩]

theorem Filed.entries_of_last (filed : log.Filed (init ++ [(s, es)])) :
    log.entries = init.flatMap (·.2) ++ es := by
  rw [filed.entries, List.flatMap_append, List.flatMap_singleton]

theorem Recorded.ends_of_last (recorded : log.Recorded (init ++ [(s, es)])) :
    s.base + es.length = log.highest + 1 :=
  (recorded.holds (s, es) (by simp)).limit.symm.trans (recorded.ends (s, es) (by simp))

/-- The last segment has the entries from its base on. -/
theorem Filed.parted (filed : log.Filed (init ++ [(s, es)])) :
    log.earlier s = init.flatMap (·.2) ∧ log.own s = es := by
  have last : (s, es) ∈ init ++ [(s, es)] := List.mem_append_right _ List.mem_cons_self
  have ascending := (List.pairwise_append.mp (before_of_joined filed.joined)).2.2
  have low : ∀ e ∈ init.flatMap (·.2), e.offset < s.base := by
    intro e held
    obtain ⟨p, member, inside⟩ := List.mem_flatMap.mp held
    have reach := (filed.offset (List.mem_append_left _ member) inside).2
    exact Nat.lt_of_lt_of_le reach (ascending p member (s, es) List.mem_cons_self)
  have high : ∀ e ∈ es, s.base ≤ e.offset := fun e held => (filed.offset last held).1
  have all := filed.entries_of_last
  constructor
  · rw [earlier, all, List.filter_append, List.filter_eq_self.mpr, List.filter_eq_nil_iff.mpr,
      List.append_nil]
    · intro e held
      simpa using high e held
    · intro e held
      simpa using low e held
  · rw [own, all, List.filter_append, List.filter_eq_nil_iff.mpr, List.filter_eq_self.mpr,
      List.nil_append]
    · intro e held
      simpa using high e held
    · intro e held
      simpa using low e held

/-- A segment of which the last entries are gone. -/
theorem shorten_holds (holds : s.Holds es) (whole : Nat) :
    Segment.Holds ⟨s.base, Record.starts 0 (es.take whole),
      (Record.encodeAll (es.take whole)).length⟩ (es.take whole) where
  positions := rfl
  length := rfl
  numbered := numbered_take holds.numbered whole

/-- A directory of which the last segment file has only the first records has the files of a log that
ends earlier. -/
theorem Recorded.remains_of_last (recorded : log.Recorded (init ++ [(s, es)]))
    (findable : log.Findable) (fits : ∀ p ∈ init, ∀ e ∈ p.2, Record.Fits e) {whole : Nat}
    {content torn : Bytes} (bytes : content = Record.encodeAll (es.take whole) ++ torn)
    (held : ∀ e ∈ es.take whole, Record.Fits e) (unread : Record.Unread torn) :
    Remains (log.directory.put s.name (.file content)) init
      ⟨s.base, Record.starts 0 (es.take whole), (Record.encodeAll (es.take whole)).length⟩
      (es.take whole) torn := by
  have member : (s, es) ∈ init ++ [(s, es)] := List.mem_append_right _ List.mem_cons_self
  have known := Directory.mem_names_of_get? (recorded.files (s, es) member)
  have names : (log.directory.put s.name (.file content)).names = log.directory.names := by
    rw [Directory.names_put, if_pos known]
  -- Only the entries of the last part change, so what is said of the segments' bases stays.
  have replaced {P : Part → Prop} (all : ∀ p ∈ init, P p) {q : Part} (last : P q) :
      ∀ p ∈ init ++ [q], P p := by
    intro p held
    rcases List.mem_append.mp held with before | new
    · exact all p before
    · rw [List.mem_singleton.mp new]
      exact last
  have before {p : Part} (held : p ∈ init) : p ∈ init ++ [(s, es)] := List.mem_append_left _ held
  constructor
  case distinct => exact names ▸ findable.distinct
  case names =>
    intro name
    rw [names, recorded.mem_names]
    simp only [List.mem_append, List.mem_singleton, or_and_right, exists_or, exists_eq_left]
    rfl
  case stores =>
    exact replaced (fun p held => (recorded.holds p (before held)).stores (fits p held))
      ((shorten_holds (recorded.holds _ member) whole).stores held)
  case files =>
    intro p held
    rw [Directory.get?_put, if_neg (name_of_last recorded.holds recorded.joined p held)]
    exact recorded.files p (before held)
  case last =>
    rw [← bytes, Directory.get?_put]
    exact if_pos rfl
  case unread => exact unread
  case joined =>
    obtain ⟨front, -, joins⟩ := List.isChain_append.mp recorded.joined
    refine List.isChain_append.mpr ⟨front, List.isChain_singleton _, ?_⟩
    intro p before q new
    cases new
    exact joins p before (s, es) rfl
  case positive =>
    have start := recorded.positive (s, es) member
    exact replaced (fun p held => recorded.positive p (before held)) start
  case small =>
    have start := recorded.small findable (s, es) member
    exact replaced (fun p held => recorded.small findable p (before held)) start

/-- A log that was opened from remains can be opened again. -/
theorem Remains.findable {d : Directory} {torn : Bytes} (remains : Remains d init s es torn)
    (filed : after.Filed (init ++ [(s, es)])) (names : after.directory.names = d.names) :
    after.Findable := by
  refine ⟨names ▸ remains.distinct, fun r held => ?_, fun none => ?_⟩
  · rw [filed.segments] at held
    obtain ⟨p, present, rfl⟩ := List.mem_map.mp held
    exact remains.small p present
  · rw [filed.segments] at none
    simp at none

/-- What comes back is in step with the history up to there. -/
theorem follows_of_cut (findable : after.Findable) (sound : LawfulLog.Sound after)
    {keeps lost : List Entry} (numbered : history.map Entry.offset = List.range' 1 history.length)
    (kept : after.entries = keeps) (retains : keeps ++ lost <:+ history)
    (ends : after.highest + lost.length = history.length) :
    after.Follows (history.take after.highest) where
  sound := sound
  findable := findable
  numbered := numbered_take numbered _
  ends := by
    rw [List.length_take]
    omega
  retains := by
    obtain ⟨gone, all⟩ := retains
    have total := ends
    rw [← all, ← List.append_assoc, List.length_append] at total
    rw [← all, ← List.append_assoc, List.take_left' (by omega), kept]
    exact List.suffix_append ..

/-- The next append goes behind the others and is there after another opening. -/
theorem Follows.appends (follows : log.Follows history) {payload : Bytes}
    {metadata : Option Bytes} (fits : Record.Fits ⟨log.highest + 1, payload, metadata⟩) :
    ∃ grown, LocalLog.append log payload metadata = (grown, .ok (log.highest + 1)) ∧
      ∀ segmentSize, 1 ≤ segmentSize → ∃ again, grown.reopen segmentSize = .ok again ∧
        ∀ held ∈ [grown, again],
          held.entries = log.entries ++ [⟨log.highest + 1, payload, metadata⟩] ∧
          LocalLog.read held (log.highest + 1) 1 = .ok [⟨log.highest + 1, payload, metadata⟩] := by
  obtain ⟨grown, appended, keeps⟩ := follows.append payload metadata
  obtain ⟨follows', entries⟩ := keeps fits
  refine ⟨grown, appended, fun segmentSize sized => ⟨_, follows'.reopen sized, ?_⟩⟩
  have none : log.entries.filter (log.highest + 1 ≤ ·.offset) = [] := by
    obtain ⟨parts, filed⟩ := follows.sound
    obtain ⟨numbers, span, -⟩ := filed.numbered
    rw [List.filter_eq_nil_iff, filed.entries]
    intro e member
    have within := List.mem_map_of_mem (f := Entry.offset) member
    rw [numbers, List.mem_range'_1] at within
    simp only [decide_eq_true_eq]
    omega
  intro held member
  have known : held.Follows (history ++ [⟨log.highest + 1, payload, metadata⟩]) ∧
      held.entries = grown.entries := by
    rcases List.mem_cons.mp member with rfl | other
    · exact ⟨follows', rfl⟩
    · rw [List.mem_singleton.mp other]
      exact follows'.resettle _
  refine ⟨known.2.trans entries, ?_⟩
  rw [known.1.describes.read, known.2, entries, List.filter_append, none]
  simp

/-- A log whose last segment file was cut comes back with the records that are whole. -/
theorem Follows.salvage (follows : log.Follows history) (last : log.segments.getLast? = some s)
    (sized : 1 ≤ settings.segmentSize) :
    log.directory.get? s.name = some (.file (Record.encodeAll (log.own s))) ∧
      ∀ length ≤ (Record.encodeAll (log.own s)).length,
        (Change.truncate length).apply s.name log.directory = .ok (log.directory.put s.name
          (.file ((Record.encodeAll (log.own s)).take length))) ∧
        ∃ after whole, recover settings (log.directory.put s.name
            (.file ((Record.encodeAll (log.own s)).take length))) = .ok after ∧
          log.Salvaged s length whole after ∧ after.Follows (history.take after.highest) := by
  obtain ⟨parts, filed⟩ := follows.sound
  rcases List.eq_nil_or_concat' parts with rfl | ⟨init, ⟨s', es⟩, rfl⟩
  · rw [filed.segments] at last
    cases last
  obtain rfl : s' = s := by simpa [filed.segments] using last
  obtain ⟨before, own⟩ := filed.parted
  have member : (s', es) ∈ init ++ [(s', es)] := List.mem_append_right _ List.mem_cons_self
  have stores : s'.Stores es := filed.stores _ member
  have file : log.directory.get? s'.name = some (.file (Record.encodeAll es)) :=
    filed.files _ member
  rw [own]
  refine ⟨file, fun length short => ⟨?_, ?_⟩⟩
  · simp only [Change.apply, Change.onFile, Directory.follow_of_file file,
      Directory.modifyFile_of_file _ file, Directory.fitted_of_le short]
  obtain ⟨whole, within, torn, isTorn, bytes, survives⟩ := Record.take_encodeAll stores.fits length
  have fits : ∀ p ∈ init, ∀ e ∈ p.2, Record.Fits e := fun p held =>
    (filed.stores p (List.mem_append_left _ held)).fits
  have remains := filed.recorded.remains_of_last follows.findable fits bytes
    (fun e held => stores.fits e (List.mem_of_mem_take held)) isTorn.unread
  obtain ⟨after, recovered, -, filed', cut, -⟩ :=
    recover_of_remains (Nat.ne_of_gt sized) remains
  have entries := filed'.entries_of_last
  have split : log.entries = (init.flatMap (·.2) ++ es.take whole) ++ es.drop whole := by
    rw [filed.entries_of_last, List.append_assoc, List.take_append_drop]
  have limit := filed.recorded.ends_of_last
  have limit' : s'.base + (es.take whole).length = after.highest + 1 := filed'.recorded.ends_of_last
  rw [List.length_take, Nat.min_eq_left within] at limit'
  have follows' := follows_of_cut (remains.findable filed' cut.names) ⟨_, filed'⟩ follows.numbered
    entries (split ▸ follows.retains) (by
      rw [List.length_drop, ← follows.ends]
      omega)
  refine ⟨after, whole, recovered, ?_, follows'⟩
  constructor
  case survives => exact own ▸ survives
  case within => exact own ▸ within
  case entries => rw [entries, before, own]
  case file => rw [own]; exact cut.file
  case others =>
    intro name apart
    rw [cut.others name apart, Directory.get?_put, if_neg apart]
  case highest =>
    show after.highest = _
    omega
  case append => exact fun payload metadata fits => follows'.appends fits

/-- A log that starts in an empty directory, is used in any way, and whose last segment file is then
cut anywhere, can be opened again: the records that are whole come back as they were, the file is cut
behind them, and the log goes on as if nothing had been stored after them. -/
theorem salvaged_runs (settings later : StoreSettings) (sized : 1 ≤ settings.segmentSize)
    (sized' : 1 ≤ later.segmentSize) (calls : List Call) (modest : ∀ call ∈ calls, call.Modest) :
    ∃ fresh log answers, recover settings {} = .ok fresh ∧
      Call.performAll SegmentLog.reopen calls fresh = (log, answers) ∧
      ((Call.history calls answers).length < UInt64.size →
        ∀ s ∈ log.segments.getLast?, ∃ bytes, log.directory.get? s.name = some (.file bytes) ∧
          bytes = Record.encodeAll (log.own s) ∧
          ∀ length ≤ bytes.length, ∃ cut after whole,
            (Change.truncate length).apply s.name log.directory = .ok cut ∧
              cut = log.directory.put s.name (.file (bytes.take length)) ∧
              recover later cut = .ok after ∧ log.Salvaged s length whole after ∧
              after.Describes ((Call.history calls answers).take (LocalLog.highest after))) := by
  refine ⟨_, _, _, recover_empty (Nat.ne_of_gt sized) rfl, rfl, fun room s last => ?_⟩
  have follows := (follows_fresh settings).performAll modest rfl room
  obtain ⟨file, salvages⟩ := follows.salvage last sized'
  refine ⟨_, file, rfl, fun length short => ?_⟩
  obtain ⟨applied, after, whole, recovered, salvaged, follows'⟩ := salvages length short
  exact ⟨_, after, whole, applied, rfl, recovered, salvaged, follows'.describes⟩

/-- The second of two records in the last segment is cut, and the first comes back. -/
theorem salvaged_mixed : ∃ fresh log answers cut after, recover narrow {} = .ok fresh ∧
    Call.performAll SegmentLog.reopen mixedCalls fresh = (log, answers) ∧
    (Change.truncate 30).apply (SegmentName.ofBase 2) log.directory = .ok cut ∧
    recover narrow cut = .ok after ∧ after.entries = [⟨2, [98], some [99]⟩] ∧
    LocalLog.highest after = 2 := by
  obtain ⟨fresh, log, answers, opened, ran, told⟩ :=
    salvaged_runs narrow narrow (by decide) (by decide) mixedCalls (by decide)
  obtain rfl := Except.ok.inj ((recover_empty (by decide) rfl).symm.trans opened)
  obtain ⟨left, given⟩ := Prod.ext_iff.mp ran
  dsimp only at left given
  have room : (Call.history mixedCalls answers).length < UInt64.size := by
    rw [← given]
    decide +kernel
  have last : log.segments.getLast? = some ⟨2, [0, 23], 41⟩ := by
    rw [← left]
    decide +kernel
  have own : log.own ⟨2, [0, 23], 41⟩ = [⟨2, [98], some [99]⟩, ⟨3, [100], none⟩] ∧
      log.earlier ⟨2, [0, 23], 41⟩ = [] := by
    rw [← left]
    decide +kernel
  obtain ⟨bytes, -, rfl, salvages⟩ := told room _ last
  rw [own.1] at salvages
  obtain ⟨cut, after, whole, applied, -, recovered, salvaged, -⟩ := salvages 30 (by decide)
  have first := salvaged.survives 0
  have second := salvaged.survives 1
  have within := salvaged.within
  have entries := salvaged.entries
  have highest := salvaged.highest
  rw [own.1] at first second within entries
  have one : whole = 1 := by
    have kept : 0 < whole := (first (by decide)).mpr (by decide)
    have lost : ¬1 < whole := fun more => absurd ((second (by decide)).mp more) (by decide)
    omega
  rw [one] at highest entries
  rw [own.2] at entries
  exact ⟨_, log, answers, cut, after, opened, ran, applied, recovered, entries, highest⟩

end QuorumLog.SegmentLog
