import QuorumLog.Proofs.FailedAppends

/-! Purges that cannot delete a file. The segments before it are gone with their files. Its own segment is
gone as well although the file is still there, and the error is all that tells: from then on the log and
its directory differ. The file is taken for a segment again when the log is opened again, and once another
one behind it was purged it stands in front of a hole, so the log is not opened any more. -/

namespace QuorumLog.SegmentLog

variable {d : Directory} {parts gone rest later : List Part} {p : Part} {log after fresh : SegmentLog}
variable {settings : StoreSettings} {trials : List Trial} {answers : List Answer}

/-! ### What is left -/

/-- A log without its first segments. The files of some of them are deleted, and all others are there. -/
structure Dropped (log after : SegmentLog) (deleted dropped : List Segment) : Prop where
  split : log.segments = dropped ++ after.segments
  some : dropped ≠ [] → after.segments ≠ []
  files : after.directory = (deleted.map Segment.name).foldl Directory.erase log.directory
  highest : LocalLog.highest after = LocalLog.highest log
  /-- The log starts with the first segment that is left. -/
  oldest : ∀ first ∈ after.segments.head?,
    LocalLog.oldest after = max (LocalLog.oldest log) first.base
  /-- What is read is what was read from that segment on. -/
  reads : ∀ first ∈ after.segments.head?, ∀ start limit,
    LocalLog.read after start limit = LocalLog.read log (max start first.base) limit

/-- The entries of a segment and of those behind it start at its base, and those before it end below. -/
theorem Backed.parted (backed : log.Backed (gone ++ p :: later)) :
    (∀ e ∈ gone.flatMap (·.2), e.offset < p.1.base) ∧
      ∀ e ∈ (p :: later).flatMap (·.2), p.1.base ≤ e.offset := by
  have served : Served log.settings.path log.directory (gone ++ p :: later) := backed.loaded.served
  obtain ⟨-, behind, before⟩ := List.pairwise_append.mp served.ascending
  refine ⟨fun e entry => ?_, fun e entry => ?_⟩
  · obtain ⟨q, held, inside⟩ := List.mem_flatMap.mp entry
    have below : q.1.limit ≤ p.1.base := before q held p List.mem_cons_self
    exact Nat.lt_of_lt_of_le (served.offset (List.mem_append_left _ held) inside).2 below
  · obtain ⟨q, held, inside⟩ := List.mem_flatMap.mp entry
    have reach := (served.offset (List.mem_append_right _ held) inside).1
    rcases List.mem_cons.mp held with rfl | other
    · exact reach
    · have above : p.1.limit ≤ q.1.base := (List.pairwise_cons.mp behind).1 q other
      unfold Segment.limit at above
      omega

theorem Backed.reads_of_rest (backed : log.Backed (gone ++ p :: later))
    (backed' : after.Backed (p :: later)) (start limit : Nat) :
    LocalLog.read after start limit = LocalLog.read log (max start p.1.base) limit := by
  obtain ⟨below, above⟩ := backed.parted
  have none : (gone.flatMap (·.2)).filter (max start p.1.base ≤ ·.offset) = [] := by
    refine List.filter_eq_nil_iff.mpr fun e entry => ?_
    have before := below e entry
    simp only [decide_eq_true_eq]
    omega
  have same : ((p :: later).flatMap (·.2)).filter (start ≤ ·.offset) =
      ((p :: later).flatMap (·.2)).filter (max start p.1.base ≤ ·.offset) := by
    refine List.filter_congr fun e entry => decide_eq_decide.mpr ?_
    have behind := above e entry
    omega
  rw [backed'.read, backed.read, List.flatMap_append, List.filter_append, none, List.nil_append,
    same]

theorem Backed.oldest_of_rest (backed : log.Backed (gone ++ p :: later))
    (backed' : after.Backed (p :: later)) (ends : after.highest = log.highest) :
    LocalLog.oldest after = max (LocalLog.oldest log) p.1.base := by
  obtain ⟨-, span⟩ := backed.retained
  obtain ⟨⟨-, span'⟩, plain, skipping⟩ := backed'.loaded.retained backed'.segments
  rw [List.flatMap_append, List.length_append] at span
  show after.oldest = max log.oldest p.1.base
  by_cases skipped : ∃ others, p :: later = (.empty 1, []) :: others ∧ others ≠ []
  · -- Nothing comes before segment 1, so nothing was dropped.
    have first := skipping skipped
    obtain ⟨others, same, -⟩ := skipped
    obtain ⟨rfl, -⟩ := List.cons.inj same
    have front : gone = [] := by
      refine List.eq_nil_iff_forall_not_mem.mpr fun q held => ?_
      have ascending := (List.pairwise_append.mp (ascending_of_links backed.loaded.chain)).2.2
      have less : q.1.base < 1 := ascending q held _ List.mem_cons_self
      have lowest := backed.loaded.positive q (List.mem_append_left _ held)
      omega
    rw [front, List.flatMap_nil, List.length_nil] at span
    show after.oldest = max log.oldest 1
    omega
  · have first := plain skipped p rfl
    omega

theorem Backed.drop (backed : log.Backed (gone ++ rest)) (more : gone ≠ [] → rest ≠ [])
    (backed' : after.Backed rest) (ends : after.highest = log.highest) {deleted : List Segment}
    (files : after.directory = (deleted.map Segment.name).foldl Directory.erase log.directory) :
    Dropped log after deleted (gone.map (·.1)) where
  split := by rw [backed.segments, backed'.segments, List.map_append]
  some dropped := by
    rw [backed'.segments]
    simpa using more (by simpa using dropped)
  files := files
  highest := ends
  oldest first here := by
    rw [backed'.segments] at here
    cases rest with
    | nil => cases here
    | cons p later =>
      obtain rfl : p.1 = first := Option.some.inj here
      exact backed.oldest_of_rest backed' ends
  reads first here := by
    rw [backed'.segments] at here
    cases rest with
    | nil => cases here
    | cons p later =>
      obtain rfl : p.1 = first := Option.some.inj here
      exact backed.reads_of_rest backed'

theorem files_without : (log.without gone rest).directory =
    ((gone.map (·.1)).map Segment.name).foldl Directory.erase log.directory := by
  rw [List.map_map]
  rfl

/-! ### The outcome -/

/-- What a purge comes to on a medium that may refuse to delete files. -/
structure Accounted (log : SegmentLog) (medium : Medium) (offset : Nat) : Prop where
  /-- If all files of old segments can be deleted, log and directory go on to fit. -/
  done : (∀ s ∈ log.expired offset, medium.delete s.base = none) → ∃ after,
    log.purge medium offset =
        (after, .ok ((log.expired offset).flatMap (·.positions)).length) ∧
      Dropped log after (log.expired offset) (log.expired offset) ∧
      (log.Tidy → after.Tidy ∧ ∀ later : StoreSettings, 1 ≤ later.segmentSize →
        ∃ again, recover later after.directory = .ok again ∧ Settled after again)
  /-- At the first file that cannot be deleted the purge ends with the error, and the log has lost the
  segment of that file: it comes back, and the oldest offset goes down, when the log is opened again. -/
  stuck : ∀ deleted s others number, log.expired offset = deleted ++ s :: others →
    (∀ r ∈ deleted, medium.delete r.base = none) → medium.delete s.base = some number → ∃ after,
      log.purge medium offset = (after, .error (.io (.system number))) ∧
      Dropped log after deleted (deleted ++ [s]) ∧
      (log.Tidy → ∀ later : StoreSettings, 1 ≤ later.segmentSize →
        ∃ again, recover later after.directory = .ok again ∧ again.segments = s :: after.segments ∧
          (s.positions ≠ [] → LocalLog.oldest again < LocalLog.oldest after))

theorem Backed.accounted_done (backed : log.Backed (gone ++ rest)) (more : gone ≠ [] → rest ≠ [])
    {medium : Medium} {offset : Nat} (expired : log.expired offset = gone.map (·.1))
    (deletes : ∀ p ∈ gone, medium.delete p.1.base = none) : ∃ after,
    log.purge medium offset = (after, .ok ((gone.map (·.1)).flatMap (·.positions)).length) ∧
      Dropped log after (gone.map (·.1)) (gone.map (·.1)) ∧
      (log.Tidy → after.Tidy ∧ ∀ later : StoreSettings, 1 ≤ later.segmentSize →
        ∃ again, recover later after.directory = .ok again ∧ Settled after again) := by
  have backed' := backed.without more
  have count : ((gone.map (·.1)).flatMap (·.positions)).length = (gone.flatMap (·.2)).length := by
    rw [List.flatMap_map, List.length_flatMap, List.length_flatMap]
    congr 1
    refine List.map_congr_left fun p held => ?_
    have holds := backed.loaded.holds p (List.mem_append_left _ held)
    exact (congrArg List.length holds.positions).trans (Record.length_starts _ _)
  refine ⟨_, count ▸ backed.purge more expired deletes, backed.drop more backed' rfl files_without,
    fun tidy => ?_⟩
  have tidy' := tidy.without backed more
  refine ⟨tidy', fun later sized => ⟨_, backed'.reopens tidy' (Nat.ne_of_gt sized), rfl, rfl, rfl, rfl,
    fun start limit => ?_⟩⟩
  exact ((backed'.resettle later).read start limit).trans (backed'.read start limit).symm

theorem Backed.accounted_stuck {others : List Part} (backed : log.Backed (gone ++ p :: rest))
    (more : rest ≠ []) {medium : Medium} {offset number : Nat}
    (expired : log.expired offset = (gone ++ p :: others).map (·.1))
    (deletes : ∀ p ∈ gone, medium.delete p.1.base = none)
    (refused : medium.delete p.1.base = some number) : ∃ after,
    log.purge medium offset = (after, .error (.io (.system number))) ∧
      Dropped log after (gone.map (·.1)) (gone.map (·.1) ++ [p.1]) ∧
      (log.Tidy → ∀ later : StoreSettings, 1 ≤ later.segmentSize →
        ∃ again, recover later after.directory = .ok again ∧
          again.segments = p.1 :: after.segments ∧
          (p.1.positions ≠ [] → LocalLog.oldest again < LocalLog.oldest after)) := by
  have backed' := backed.without_stuck more
  refine ⟨_, backed.purge_stuck more expired deletes refused, ?_, fun tidy later sized => ?_⟩
  · have split : gone ++ p :: rest = (gone ++ [p]) ++ rest := by simp
    have dropped := (split ▸ backed).drop (fun _ => more) backed' rfl files_without
    rwa [List.map_append] at dropped
  -- With the segment of the file that is left, the log would know all files.
  have whole := backed.without (by simp)
  have tidy' := tidy.without backed (by simp)
  refine ⟨_, whole.reopens tidy' (Nat.ne_of_gt sized), rfl, fun full => ?_⟩
  have entries : p.2 ≠ [] := fun none =>
    full ((backed.loaded.holds p (by simp)).positions_eq_nil.mpr none)
  have span := (whole.resettle later).retained.2
  have span' := backed'.retained.2
  have fewer := List.length_pos_iff.mpr entries
  rw [List.flatMap_cons, List.length_append] at span
  change _ + _ = log.highest + 1 at span span'
  show SegmentLog.oldest _ < SegmentLog.oldest _
  omega

/-- Any purge is accounted for. -/
theorem Backed.accounted (backed : log.Backed parts) (medium : Medium) (offset : Nat) :
    Accounted log medium offset := by
  obtain ⟨gone, kept, rfl, more, expired, -⟩ := backed.expired offset
  refine ⟨fun deletes => ?_, fun deleted s others number split deletes refused => ?_⟩
  · rw [expired] at deletes ⊢
    refine backed.accounted_done more expired fun p held => deletes _ (List.mem_map_of_mem held)
  · rw [expired] at split
    obtain ⟨front, back, rfl, rfl, tail⟩ := List.map_eq_append_iff.mp split
    obtain ⟨p, behind, rfl, rfl, rfl⟩ := List.map_eq_cons_iff.mp tail
    rw [List.append_assoc] at backed
    exact backed.accounted_stuck (by simp [more (by simp)]) expired
      (fun q held => deletes _ (List.mem_map_of_mem held)) refused

/-! ### The rule -/

/-- After any calls on a log that was opened from any files, a purge is accounted for. As long as every
file could be deleted, the log has a segment for each file. -/
theorem accounted_runs (regular : Regular d) (opened : recover settings d = .ok fresh)
    (modest : ∀ t ∈ trials, t.call.Modest)
    (ran : Trial.performAll trials fresh = (log, answers))
    (room : LocalLog.highest fresh + (Trial.history trials answers).length + 1 < UInt64.size) :
    (∀ medium offset, Accounted log medium offset) ∧
      (WellNamed d → (∀ t ∈ trials, t.Deletes) → log.Tidy) := by
  obtain ⟨parts, backed, -⟩ := backed_of_recover regular opened
  have run := backed.performAll modest ran room
  obtain ⟨parts', backed'⟩ := run.backed
  exact ⟨backed'.accounted,
    fun named deletes => (run.tidy deletes (tidy_of_recover regular named opened)).1⟩

/-- Three appends, each to a segment of its own. -/
def threeAppends : List Trial :=
  [⟨.append [97] none, .sound⟩, ⟨.append [98] none, .sound⟩, ⟨.append [99] none, .sound⟩]

/-- The log that they leave. -/
def threeLog : SegmentLog where
  settings := narrow
  directory := three
  segments := [⟨1, [0], 18⟩, ⟨2, [0], 18⟩, ⟨3, [0], 18⟩]
  active := some (.file (SegmentName.ofBase 3))
  highest := 3

/-- The file of segment 1 cannot be deleted. -/
def keepsFirst : Medium where
  delete base := if base = 1 then some isFolder else none

/-- Segment 1 is dropped although its file stays, and comes back when the log is opened again. -/
theorem accounted_three : ∃ fresh answers, recover narrow {} = .ok fresh ∧
    Trial.performAll threeAppends fresh = (threeLog, answers) ∧ ∃ after,
      threeLog.purge keepsFirst 3 = (after, .error (.io (.system isFolder))) ∧
      Dropped threeLog after [] [⟨1, [0], 18⟩] ∧
      ∃ again, recover narrow after.directory = .ok again ∧
        LocalLog.oldest again < LocalLog.oldest after := by
  have regular : Regular {} := regular_of_files (by simp)
  have named : WellNamed {} := ⟨List.nodup_nil, by simp [Directory.names]⟩
  have opened : recover narrow {} = .ok ⟨narrow, {}, [], none, 0⟩ := recover_empty (by decide) rfl
  cases ran : Trial.performAll threeAppends ⟨narrow, {}, [], none, 0⟩ with
  | mk log answers =>
  obtain rfl : threeLog = log := by
    rw [show log = _ from (congrArg Prod.fst ran).symm]
    decide +kernel
  have stored : (Trial.history threeAppends answers).length = 3 := by
    rw [show answers = _ from (congrArg Prod.snd ran).symm]
    decide +kernel
  obtain ⟨accounted, tidy⟩ := accounted_runs regular opened (by decide) ran (by rw [stored]; decide)
  obtain ⟨after, purged, dropped, reopens⟩ := (accounted keepsFirst 3).stuck [] ⟨1, [0], 18⟩
    [⟨2, [0], 18⟩] isFolder (by decide +kernel) (by simp) rfl
  obtain ⟨again, recovered, -, older⟩ := reopens
    (tidy named (by simp [threeAppends, Trial.Deletes, Medium.sound])) narrow (by decide)
  exact ⟨_, answers, opened, ran, after, purged, dropped, again, recovered, older (by simp)⟩

/-- No file was removed, and yet the oldest entry is gone until the log is opened again. If it is not, the
next purge leaves a hole behind the file that stayed, and no log is opened any more. -/
theorem stuck_segment_is_forgotten : ∃ after, threeLog.purge keepsFirst 3 =
      (after, .error (.io (.system isFolder))) ∧
    after.directory = threeLog.directory ∧
    LocalLog.oldest threeLog = 1 ∧ LocalLog.oldest after = 2 ∧
    LocalLog.read threeLog 1 1 = .ok [⟨1, [97], none⟩] ∧
    LocalLog.read after 1 1 = .ok [⟨2, [98], none⟩] ∧
    (∃ again, recover narrow after.directory = .ok again ∧ LocalLog.oldest again = 1) ∧
    ∃ later, LocalLog.purge after 3 = (later, .ok 1) ∧
      recover narrow later.directory = .error (.log (.segmentGap 3 1)) := by
  refine ⟨{ threeLog with segments := [⟨2, [0], 18⟩, ⟨3, [0], 18⟩] }, by decide +kernel, rfl,
    by decide +kernel, by decide +kernel, by decide +kernel, by decide +kernel, ⟨threeLog, ?_, ?_⟩,
    { threeLog with
      directory := three.erase (SegmentName.ofBase 2)
      segments := [⟨3, [0], 18⟩] }, by decide +kernel, ?_⟩
  · have numbers : bases three = [1, 2, 3] := bases_of_sorted (by decide +kernel) (by decide)
    show recover narrow three = _
    rw [recover, numbers]
    decide +kernel
  · decide +kernel
  · have numbers : bases (three.erase (SegmentName.ofBase 2)) = [1, 3] :=
      bases_of_sorted (by decide +kernel) (by decide)
    show recover narrow (three.erase (SegmentName.ofBase 2)) = _
    rw [recover, numbers]
    decide +kernel

end QuorumLog.SegmentLog
