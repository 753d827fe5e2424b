import QuorumLog.Proofs.BackedSegments

/-! Stored logs that drop segments, and logs that are opened. A purge drops the first segments, up to one
of which the file cannot be deleted: that one is out of the log, and its file is still there. As long
as every file can be deleted the log has a segment for each file, and is the same log when it is opened
again. -/

namespace QuorumLog.SegmentLog

variable {d : Directory} {parts init gone rest : List Part} {p : Part} {s : Segment}
variable {highest : Nat} {log next : SegmentLog} {name : String} {settings : StoreSettings}
variable {medium : Medium}

/-! ### Dropping segments -/

/-- Segments without the first of them. -/
theorem Loaded.tail (loaded : Loaded d (p :: rest) highest) (more : rest ≠ []) :
    Loaded d rest highest where
  holds q held := loaded.holds q (.tail _ held)
  files q held := loaded.files q (.tail _ held)
  positive q held := loaded.positive q (.tail _ held)
  chain := (List.isChain_cons.mp loaded.chain).2
  ends q last := loaded.ends q (by rwa [List.getLast?_cons_of_ne_nil more])
  origin none := absurd none more

/-- The file of a segment that is not among these can go. -/
theorem Loaded.erase (loaded : Loaded d parts highest) (apart : ∀ p ∈ parts, p.1.name ≠ name) :
    Loaded (d.erase name) parts highest where
  holds := loaded.holds
  files p held := by
    rw [Directory.get?_erase_of_ne (apart p held)]
    exact loaded.files p held
  positive := loaded.positive
  chain := loaded.chain
  ends := loaded.ends
  origin := loaded.origin

/-- The log without its first segment, of which the file is left. -/
def forgetting (log : SegmentLog) (rest : List Part) : SegmentLog :=
  { log with segments := rest.map (·.1) }

theorem Backed.names_above (backed : log.Backed (p :: rest)) : ∀ q ∈ rest, q.1.name ≠ p.1.name := by
  intro q held same
  have above := (List.pairwise_cons.mp (ascending_of_links backed.loaded.chain)).1 q held
  exact Nat.ne_of_gt above (SegmentName.ofBase_injective same)

theorem Backed.forget (backed : log.Backed (p :: rest)) (more : rest ≠ []) :
    (log.forgetting rest).Backed rest where
  segments := rfl
  loaded := backed.loaded.tail more
  active := by
    rw [← List.getLast?_cons_of_ne_nil (x := p) more]
    exact backed.active
  regular := backed.regular
  listed q held := backed.listed q (.tail _ held)
  upper number member := by
    rw [← List.getLast?_cons_of_ne_nil (x := p) more]
    exact backed.upper number member

/-- A file of which the log knows nothing can go. -/
theorem Backed.erase (backed : log.Backed parts) (apart : ∀ p ∈ parts, p.1.name ≠ s.name)
    (listed : s.base ∈ bases log.directory) :
    Backed { log with directory := log.directory.erase s.name } parts where
  segments := backed.segments
  loaded := backed.loaded.erase apart
  active := backed.active
  regular := backed.regular.erase
  listed q held := by
    refine (mem_bases_erase listed fun same => apart q held ?_).mpr (backed.listed q held)
    exact congrArg SegmentName.ofBase same
  upper number member := by
    refine backed.upper number ?_
    obtain ⟨name, kept, told⟩ := mem_bases.mp member
    rw [Directory.names_erase] at kept
    exact mem_bases.mpr ⟨name, List.mem_of_mem_filter kept, told⟩

/-- The log without some segments and their files. -/
def without (log : SegmentLog) (gone rest : List Part) : SegmentLog :=
  { log with
    directory := (gone.map (·.1.name)).foldl Directory.erase log.directory
    segments := rest.map (·.1) }

/-- The first segment goes, and its file with it if the medium lets it go. -/
theorem Backed.deletes (backed : log.Backed (p :: rest)) (more : rest ≠ []) (medium : Medium)
    (count : Nat) (later : List Segment) : log.dropSegments medium count (p.1 :: later) =
      match medium.delete p.1.base with
      | some number => (log.forgetting rest, .error (.io (.system number)))
      | none => (log.without [p] rest).dropSegments medium (count + p.2.length) later := by
  have above := (List.pairwise_cons.mp (ascending_of_links backed.loaded.chain)).1
  have others : log.segments.filter (·.base ≠ p.1.base) = rest.map (·.1) := by
    rw [backed.segments, List.map_cons, List.filter_cons_of_neg (by simp), List.filter_eq_self]
    intro s held
    obtain ⟨q, member, rfl⟩ := List.mem_map.mp held
    exact decide_eq_true (Nat.ne_of_gt (above q member))
  have active : log.active.map (Change.delete.follow p.1.name) = log.active := by
    rw [backed.active, List.getLast?_cons_of_ne_nil more, Option.map_map]
    refine Option.map_congr fun q held => ?_
    exact if_neg (backed.names_above q (List.mem_of_getLast? held))
  obtain ⟨content, file, -⟩ := backed.loaded.files p List.mem_cons_self
  have length : p.1.positions.length = p.2.length := by
    rw [(backed.loaded.holds p List.mem_cons_self).positions, Record.length_starts]
  rw [SegmentLog.dropSegments, others, ← length]
  unfold deleteFile
  cases medium.delete p.1.base with
  | some number => rfl
  | none =>
    simp only [Change.apply, file, active, Except.map]
    rfl

theorem Backed.first (backed : log.Backed (p :: rest)) (more : rest ≠ []) :
    (log.without [p] rest).Backed rest :=
  (backed.forget more).erase backed.names_above (backed.listed p List.mem_cons_self)

theorem Backed.without (backed : log.Backed (gone ++ rest)) (more : gone ≠ [] → rest ≠ []) :
    (log.without gone rest).Backed rest := by
  induction gone generalizing log with
  | nil => exact { backed with segments := rfl }
  | cons p later ih =>
    have some := more (by simp)
    exact ih (backed.first (by simp [some])) fun _ => some

/-- Segments go one after the other, up to one of which the file cannot be deleted. -/
theorem Backed.drops (backed : log.Backed (gone ++ rest)) (more : gone ≠ [] → rest ≠ [])
    (deletes : ∀ p ∈ gone, medium.delete p.1.base = none) (count : Nat) (later : List Segment) :
    log.dropSegments medium count (gone.map (·.1) ++ later) =
      (log.without gone rest).dropSegments medium (count + (gone.flatMap (·.2)).length) later := by
  induction gone generalizing log count with
  | nil =>
    have same : log.without [] rest = log := by
      rw [SegmentLog.without, ← List.nil_append rest, ← backed.segments]
      rfl
    rw [same]
    rfl
  | cons p others ih =>
    obtain ⟨first, behind⟩ := List.forall_mem_cons.mp deletes
    have some := more (by simp)
    rw [List.map_cons, List.cons_append, backed.deletes (by simp [some]), first]
    refine (ih (backed.first (by simp [some])) (fun _ => some) behind (count + p.2.length)).trans ?_
    rw [List.flatMap_cons, List.length_append, Nat.add_assoc]
    rfl

/-- An empty segment with another one behind it is segment 1. -/
theorem Loaded.base_of_empty {q : Part} (loaded : Loaded d (init ++ [q]) highest) (held : p ∈ init)
    (none : p.2 = []) : p.1.base = 1 := by
  obtain ⟨front, back, rfl⟩ := List.append_of_mem held
  have limit := (loaded.holds p (by simp)).limit
  have chain := loaded.chain
  rw [List.append_assoc, List.cons_append] at chain
  obtain ⟨r, others, same⟩ := List.exists_cons_of_ne_nil (l := back ++ [q]) (by simp)
  rw [same] at chain
  obtain ⟨above, ends⟩ := (List.isChain_cons_cons.mp (List.isChain_append.mp chain).2.1).1
  rw [none, List.length_nil] at limit
  omega

private theorem expired_of_last {q : Part} (backed : log.Backed (init ++ [q])) (offset : Nat) :
    ∃ gone kept, init = gone ++ kept ∧ log.expired offset = gone.map (·.1) ∧
      ∀ p ∈ gone, ∀ e ∈ p.2, e.offset < offset := by
  have inside : ∀ p ∈ init, p ∈ init ++ [q] := fun p => List.mem_append_left _
  have ascending := (List.pairwise_append.mp (ascending_of_links backed.loaded.chain)).1
  have served : Served log.settings.path log.directory (init ++ [q]) := backed.loaded.served
  have before := (List.pairwise_append.mp served.ascending).1
  obtain ⟨gone, kept, split, picked⟩ := filter_of_front init
    (fun p => p.1.positions = [] ∨ p.1.limit ≤ offset) (by
      refine (ascending.and before).imp_of_mem fun {p r} first second both old => ?_
      refine decide_eq_true (.inr ?_)
      obtain ⟨above, below⟩ := both
      have lowest := backed.loaded.positive p (inside p first)
      have holds := backed.loaded.holds r (inside r second)
      rcases of_decide_eq_true old with none | low
      · have one := backed.loaded.base_of_empty second (holds.positions_eq_nil.mp none)
        omega
      · unfold Before Segment.limit at *
        omega)
  refine ⟨gone, kept, split, ?_, fun p member e entry => ?_⟩
  · rw [SegmentLog.expired, backed.segments, List.map_append, List.map_singleton,
      List.dropLast_concat, ← picked, List.filter_map]
    rfl
  · rw [← picked] at member
    obtain ⟨known, old⟩ := List.mem_filter.mp member
    have within := (served.offset (inside p known) entry).2
    rcases of_decide_eq_true old with none | low
    · rw [(backed.loaded.holds p (inside p known)).positions_eq_nil.mp none] at entry
      cases entry
    · omega

/-- The segments that a purge is to drop are the first ones, and never all of them. -/
theorem Backed.expired (backed : log.Backed parts) (offset : Nat) :
    ∃ gone kept, parts = gone ++ kept ∧ (gone ≠ [] → kept ≠ []) ∧
      log.expired offset = gone.map (·.1) ∧ ∀ p ∈ gone, ∀ e ∈ p.2, e.offset < offset := by
  rcases List.eq_nil_or_concat' parts with rfl | ⟨init, q, rfl⟩
  · refine ⟨[], [], rfl, absurd rfl, ?_, by simp⟩
    rw [SegmentLog.expired, backed.segments]
    rfl
  · obtain ⟨gone, kept, rfl, expired, low⟩ := expired_of_last backed offset
    exact ⟨gone, kept ++ [q], List.append_assoc .., by simp, expired, low⟩

/-- A purge drops the segments with their files if each of these can be deleted. -/
theorem Backed.purge (backed : log.Backed (gone ++ rest)) (more : gone ≠ [] → rest ≠ [])
    {offset : Nat} (expired : log.expired offset = gone.map (·.1))
    (deletes : ∀ p ∈ gone, medium.delete p.1.base = none) :
    log.purge medium offset = (log.without gone rest, .ok (gone.flatMap (·.2)).length) := by
  have dropped := backed.drops more deletes 0 []
  rw [List.append_nil, Nat.zero_add] at dropped
  rw [SegmentLog.purge, expired, dropped]
  rfl

/-- A purge ends at the first file that cannot be deleted, and drops the segment of that file as well. -/
theorem Backed.purge_stuck {others : List Part} (backed : log.Backed (gone ++ p :: rest))
    (more : rest ≠ []) {offset : Nat} (expired : log.expired offset = (gone ++ p :: others).map (·.1))
    (deletes : ∀ p ∈ gone, medium.delete p.1.base = none) {number : Nat}
    (refused : medium.delete p.1.base = some number) :
    log.purge medium offset = (log.without gone rest, .error (.io (.system number))) := by
  have dropped := backed.drops (by simp) deletes 0 (p.1 :: others.map (·.1))
  have left := (backed.without (by simp)).deletes more medium (0 + (gone.flatMap (·.2)).length)
    (others.map (·.1))
  rw [refused] at left
  rw [SegmentLog.purge, expired, List.map_append, List.map_cons, dropped]
  exact left

/-- What is left when a file cannot be deleted is backed. -/
theorem Backed.without_stuck (backed : log.Backed (gone ++ p :: rest)) (more : rest ≠ []) :
    (log.without gone rest).Backed rest :=
  (backed.without (by simp)).forget more

/-! ### Opening -/

/-- A log that is opened from a directory without links is backed. -/
theorem backed_of_recover (regular : Regular d) (opened : recover settings d = .ok log) :
    ∃ parts, log.Backed parts ∧ Opened d log parts ∧ Trimmed (bases d) d log.directory := by
  obtain ⟨parts, found⟩ := exists_opened regular opened
  obtain ⟨-, -, ran, last⟩ := recoverSegments_of_recover opened
  obtain ⟨-, trimmed⟩ := recoverSegments_again settings.path regular ran
  have numbers := bases_of_same_names trimmed.names
  refine ⟨parts, ⟨found.segments, found.loaded, ?_, trimmed.regular, fun p held => ?_,
    fun number member => ?_⟩, found, trimmed⟩
  · rw [found.segments, found.loaded.openLast] at last
    exact (Except.ok.inj last).symm
  · rw [numbers]
    exact (found.numbers _).mp ⟨p, held, rfl⟩
  · exact found.upper number (numbers ▸ member)

/-- What is opened from the files of a log ends where the log ends. -/
theorem Backed.reopen (backed : log.Backed parts) (opened : recover settings log.directory = .ok next) :
    ∃ parts', next.Backed parts' ∧ next.highest = log.highest := by
  obtain ⟨parts', backed', found, trimmed⟩ := backed_of_recover backed.regular opened
  refine ⟨parts', backed', ?_⟩
  rcases List.eq_nil_or_concat' parts with rfl | ⟨init, p, rfl⟩
  · have none : parts' = [] := by
      by_contra some
      obtain ⟨q, others, rfl⟩ := List.exists_cons_of_ne_nil some
      obtain ⟨r, last, -⟩ := backed.upper _ ((found.numbers _).mp ⟨q, List.mem_cons_self, rfl⟩)
      cases last
    rw [backed.loaded.origin rfl, backed'.loaded.origin none]
  -- The last segments have the same number, and its file was left alone.
  have held : p ∈ init ++ [p] := by simp
  obtain ⟨q, last, lower⟩ := found.upper _ (backed.listed p held)
  have present := List.mem_of_getLast? last
  obtain ⟨r, final, upper⟩ := backed.upper _ ((found.numbers _).mp ⟨q, present, rfl⟩)
  rw [List.getLast?_concat] at final
  obtain rfl := Option.some.inj final
  have number : q.1.base = p.1.base := Nat.le_antisymm upper lower
  have holds := backed.loaded.holds p held
  obtain ⟨content, file, spelled⟩ := backed.loaded.files p held
  obtain ⟨content', file', spelled'⟩ := backed'.loaded.files q present
  have kept := trimmed.whole file spelled holds.numbered
  rw [Segment.name, number, kept] at file'
  obtain rfl := FileNode.file.inj (Option.some.inj file')
  have entries : q.2 = p.2 := spelled'.unique spelled
  have limit := holds.limit
  have limit' := (backed'.loaded.holds q present).limit
  have ends := backed.loaded.ends p (by simp)
  have ends' := backed'.loaded.ends q last
  rw [entries] at limit'
  omega

/-! ### A log that knows all files -/

/-- No name stands twice in a directory, and each one that tells a number is spelled as a segment is
named. -/
structure WellNamed (d : Directory) : Prop where
  distinct : d.names.Nodup
  own : ∀ name ∈ d.names, ∀ base, SegmentName.base? name = some base → name = SegmentName.ofBase base

theorem WellNamed.nodup_bases (named : WellNamed d) : (bases d).Nodup := by
  refine (List.mergeSort_perm _ _).nodup_iff.mpr ?_
  refine List.pairwise_filterMap.mpr (named.distinct.imp_of_mem ?_)
  rintro name other held present apart base told base' told' rfl
  exact apart ((named.own name held base told).trans (named.own other present base told').symm)

/-- The log has a segment for each file that is taken for one. -/
structure Tidy (log : SegmentLog) : Prop where
  named : WellNamed log.directory
  known : ∀ number ∈ bases log.directory, ∃ s ∈ log.segments, s.base = number

theorem Tidy.resettle (tidy : log.Tidy) (settings : StoreSettings) : Tidy { log with settings } :=
  { tidy with }

theorem tidy_of_recover (regular : Regular d) (named : WellNamed d)
    (opened : recover settings d = .ok log) : log.Tidy := by
  obtain ⟨parts, -, found, trimmed⟩ := backed_of_recover regular opened
  refine ⟨⟨trimmed.names ▸ named.distinct, trimmed.names ▸ named.own⟩, fun number member => ?_⟩
  rw [bases_of_same_names trimmed.names] at member
  obtain ⟨p, held, same⟩ := (found.numbers number).mpr member
  exact ⟨p.1, found.segments ▸ List.mem_map_of_mem held, same⟩

theorem Tidy.ready (tidy : log.Tidy) (room : log.highest + 1 < UInt64.size) : log.ready.Tidy := by
  unfold SegmentLog.ready
  split
  · have told := SegmentName.base?_ofBase log.highest.succ_pos room
    refine ⟨⟨Directory.nodup_put tidy.named.distinct, fun name member base read => ?_⟩,
      fun number member => ?_⟩
    · rcases Directory.mem_names_put.mp member with rfl | old
      · exact congrArg SegmentName.ofBase (Option.some.inj (told.symm.trans read))
      · exact tidy.named.own name old base read
    · rcases mem_bases_put.mp member with new | old
      · exact ⟨_, List.mem_append_right _ List.mem_cons_self, Option.some.inj (told.symm.trans new)⟩
      · obtain ⟨s, held, same⟩ := tidy.known number old
        exact ⟨s, List.mem_append_left _ held, same⟩
  · exact tidy

theorem Tidy.extended (tidy : log.Tidy) (last : log.segments.getLast? = some s) (e : Entry) :
    (log.extended s e).Tidy := by
  have names : (log.extended s e).directory.names = log.directory.names :=
    Directory.names_modifyFile
  refine ⟨⟨names ▸ tidy.named.distinct, names ▸ tidy.named.own⟩, fun number member => ?_⟩
  rw [bases_of_same_names names] at member
  obtain ⟨r, held, same⟩ := tidy.known number member
  obtain ⟨init, split⟩ := List.getLast?_eq_some_iff.mp last
  rw [SegmentLog.extended, split, List.dropLast_concat]
  rw [split] at held
  rcases List.mem_append.mp held with before | here
  · exact ⟨r, List.mem_append_left _ before, same⟩
  · rw [List.mem_singleton.mp here] at same
    exact ⟨_, List.mem_append_right _ List.mem_cons_self, same⟩

theorem Tidy.first (tidy : log.Tidy) (backed : log.Backed (p :: rest)) :
    (log.without [p] rest).Tidy := by
  refine ⟨⟨?_, fun name member => ?_⟩, fun number member => ?_⟩
  · exact Directory.names_erase ▸ tidy.named.distinct.filter _
  · rw [without, List.map_singleton, List.foldl_cons, List.foldl_nil, Directory.names_erase] at member
    exact tidy.named.own name (List.mem_of_mem_filter member)
  · obtain ⟨name, kept, told⟩ := mem_bases.mp member
    rw [without, List.map_singleton, List.foldl_cons, List.foldl_nil, Directory.names_erase,
      List.mem_filter, decide_eq_true_eq] at kept
    obtain ⟨s, held, same⟩ := tidy.known number (mem_bases.mpr ⟨name, kept.1, told⟩)
    rw [backed.segments] at held
    rcases List.mem_cons.mp held with rfl | behind
    · exact absurd ((tidy.named.own name kept.1 number told).trans (same ▸ rfl)) kept.2
    · exact ⟨s, behind, same⟩

theorem Tidy.without (tidy : log.Tidy) (backed : log.Backed (gone ++ rest))
    (more : gone ≠ [] → rest ≠ []) :
    (log.without gone rest).Tidy := by
  induction gone generalizing log with
  | nil =>
    refine ⟨tidy.named, fun number member => ?_⟩
    rw [SegmentLog.without, ← List.nil_append rest, ← backed.segments]
    exact tidy.known number member
  | cons p later ih =>
    have some := more (by simp)
    exact ih (tidy.first backed) (backed.first (by simp [some])) fun _ => some

theorem Backed.bases (backed : log.Backed parts) (tidy : log.Tidy) :
    bases log.directory = parts.map (·.1.base) := by
  have ascending : (parts.map (·.1.base)).Pairwise (· < ·) :=
    List.pairwise_map.mpr (ascending_of_links backed.loaded.chain)
  have same : (SegmentLog.bases log.directory).Perm (parts.map (·.1.base)) := by
    refine (List.perm_ext_iff_of_nodup tidy.named.nodup_bases
      (ascending.imp Nat.ne_of_lt)).mpr fun number => ?_
    rw [List.mem_map]
    refine ⟨fun member => ?_, ?_⟩
    · obtain ⟨s, held, same⟩ := tidy.known number member
      rw [backed.segments] at held
      obtain ⟨p, present, rfl⟩ := List.mem_map.mp held
      exact ⟨p, present, same⟩
    · rintro ⟨p, held, rfl⟩
      exact backed.listed p held
  exact same.eq_of_pairwise' (sorted_bases _) (ascending.imp Nat.le_of_lt)

/-- Linked segments are recovered from their files one after the other. -/
theorem recoverSegments_of_loaded (path : String) (segments : List Segment) (highest : Nat)
    (holds : ∀ p ∈ parts, p.1.Holds p.2)
    (files : ∀ p ∈ parts, ∃ content, d.get? p.1.name = some (.file content) ∧
      Record.SpellsAll content p.2)
    (chain : parts.IsChain Links) (below : ∀ r ∈ segments, ∀ p ∈ parts, r.base < p.1.base)
    (joins : ∀ p ∈ parts.head?, highest = 0 ∨ p.1.base = highest + 1) :
    recoverSegments path d segments highest (parts.map (·.1.base)) =
      .ok (d, segments ++ parts.map (·.1),
        parts.getLast?.elim highest fun p => p.1.limit - 1) := by
  induction parts generalizing segments highest with
  | nil => simp [recoverSegments]
  | cons p later ih =>
    obtain ⟨content, file, spelled⟩ := files p List.mem_cons_self
    obtain ⟨meets, rest⟩ := List.isChain_cons.mp chain
    have above := (List.pairwise_cons.mp (ascending_of_links chain)).1
    have gap : ¬(highest ≠ 0 ∧ p.1.base ≠ highest + 1) := by
      have first := joins p rfl
      omega
    have recovered := Segment.recover_of_spelled path ((later.map (·.1.base)).isEmpty)
      (holds p List.mem_cons_self) spelled file
    have lower : ∀ r ∈ segments ++ [p.1], ∀ q ∈ later, r.base < q.1.base := by
      intro r member q held
      rcases List.mem_append.mp member with old | new
      · exact below r old q (.tail _ held)
      · rw [List.mem_singleton.mp new]
        exact above q held
    rw [List.map_cons, recoverSegments, if_neg gap, recovered]
    dsimp only
    rw [withSegment_of_below fun r old => below r old p List.mem_cons_self,
      ih _ _ (fun q held => holds q (.tail _ held)) (fun q held => files q (.tail _ held)) rest lower]
    · cases later with
      | nil => simp
      | cons q others => simp [List.getLast?_cons]
    · intro q first
      obtain ⟨-, ends⟩ := meets q first
      omega

/-- A log that knows all files is the same when it is closed and opened again. -/
theorem Backed.reopens (backed : log.Backed parts) (tidy : log.Tidy)
    (sized : settings.segmentSize ≠ 0) :
    recover settings log.directory = .ok { log with settings := settings } := by
  have recovered := recoverSegments_of_loaded settings.path [] 0
    backed.loaded.holds backed.loaded.files backed.loaded.chain (by simp) (fun _ _ => .inl rfl)
  have ends : (parts.getLast?.elim 0 fun p => p.1.limit - 1) = log.highest := by
    cases last : parts.getLast? with
    | none => exact (backed.loaded.origin (List.getLast?_eq_none_iff.mp last)).symm
    | some p =>
      have limit := backed.loaded.ends p last
      show p.1.limit - 1 = log.highest
      omega
  have active : openLast log.directory log.segments = .ok log.active := by
    rw [backed.segments, backed.loaded.openLast, backed.active]
  rw [recover, if_neg sized, backed.bases tidy, recovered, List.nil_append, ends,
    ← backed.segments]
  simp only [active, Except.map]

end QuorumLog.SegmentLog
