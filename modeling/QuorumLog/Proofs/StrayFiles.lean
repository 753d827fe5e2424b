import QuorumLog.Proofs.SegmentNames

/-! Which files of a directory make a difference to the log that is opened in it. A file under a name that
tells no number makes none. Neither does a file under another spelling of a segment's name, as long as the
log is opened: but then the segment's own file is there too, and is empty, or else nothing is opened. -/

namespace QuorumLog

namespace Directory

variable {d : Directory} {name other : String} {node : FileNode} {content : Bytes}
variable {keep : String → Bool}

/-- Some of the names of a directory, with what they stand for. -/
def only (keep : String → Bool) (d : Directory) : Directory :=
  ⟨d.nodes.filter fun node => keep node.1⟩

theorem names_only : (d.only keep).names = d.names.filter keep := by
  rw [names, only, names, List.filter_map]
  rfl

theorem get?_only : (d.only keep).get? name = if keep name then d.get? name else none := by
  obtain ⟨nodes⟩ := d
  simp only [only, get?]
  induction nodes with
  | nil => simp
  | cons first rest ih =>
    obtain ⟨held, old⟩ := first
    by_cases here : name = held
    · subst here
      cases stays : keep name <;> simp [stays, ih]
    · have apart : (name == held) = false := beq_eq_false_iff_ne.mpr here
      cases stays : keep held <;> simp [List.lookup_cons, stays, apart, ih]

theorem put_only (stays : keep name = true) :
    (d.put name node).only keep = (d.only keep).put name node := by
  obtain ⟨nodes⟩ := d
  simp only [only, put]
  congr 1
  induction nodes with
  | nil => simp [putNode, stays]
  | cons first rest ih =>
    obtain ⟨held, old⟩ := first
    by_cases here : held = name
    · subst here
      simp [putNode, stays]
    · cases keeps : keep held <;> simp [putNode, here, keeps, ih]

/-- No name that stays in a directory leads to one that goes. -/
def Severed (keep : String → Bool) (d : Directory) : Prop :=
  ∀ name target, keep name = true → d.get? name = some (.link target) → target ∈ d.names →
    keep target = true

/-- A name that stays leads where it led. -/
theorem followFor_only (severed : d.Severed keep) (fuel : Nat)
    (stays : name ∈ d.names → keep name = true) :
    (d.only keep).followFor fuel name = d.followFor fuel name := by
  induction fuel generalizing name with
  | zero => rfl
  | succ fuel ih =>
    rw [followFor, followFor, get?_only]
    cases found : d.get? name with
    | none => simp
    | some node =>
      have kept := stays (mem_names_of_get? found)
      rw [if_pos kept]
      cases node with
      | file content => rfl
      | folder => rfl
      | link target => simp only [ih (severed name target kept found)]

/-- The file to which a name leads is there, and stays if the name does. -/
theorem file_of_followFor (severed : d.Severed keep) {fuel : Nat}
    (stays : name ∈ d.names → keep name = true) (leads : d.followFor fuel name = .file other content) :
    d.get? other = some (.file content) ∧ keep other = true := by
  induction fuel generalizing name with
  | zero => cases leads
  | succ fuel ih =>
    rw [followFor] at leads
    cases found : d.get? name with
    | none =>
      rw [found] at leads
      cases leads
    | some node =>
      have kept := stays (mem_names_of_get? found)
      rw [found] at leads
      cases node with
      | file bytes =>
        obtain ⟨rfl, rfl⟩ := Place.file.inj leads
        exact ⟨found, kept⟩
      | folder => cases leads
      | link target =>
        dsimp only at leads
        split at leads
        · cases leads
        split at leads
        · cases leads
        · exact ih (severed name target kept found) leads

variable (severed : d.Severed keep) (stays : name ∈ d.names → keep name = true)
include severed stays

theorem follow_only : (d.only keep).follow name = d.follow name := followFor_only severed 41 stays

theorem read_only (position : Nat) : (d.only keep).read name position = d.read name position := by
  rw [read, follow_only severed stays, read]

theorem length_only : (d.only keep).length name = d.length name := by
  rw [length, follow_only severed stays, length]

/-- Cutting the file to which a name leads is the same with the other names and without. -/
theorem resize_only (length : Nat) :
    (d.only keep).resize name length = (d.resize name length).only keep ∧
      (d.resize name length).names = d.names ∧ (d.resize name length).Severed keep := by
  rw [resize, follow_only severed stays, resize]
  cases leads : d.follow name with
  | file other content =>
    obtain ⟨file, kept⟩ := file_of_followFor severed stays leads
    have file' : (d.only keep).get? other = some (.file content) := by
      rw [get?_only, if_pos kept, file]
    have same : (d.put other (.file (fitted length content))).names = d.names := by
      rw [names_put, if_pos (mem_names_of_get? file)]
    dsimp only
    rw [modifyFile_of_file _ file, modifyFile_of_file _ file', put_only kept]
    refine ⟨rfl, same, fun name target stays linked within => ?_⟩
    rw [get?_put] at linked
    split at linked
    · cases linked
    · exact severed name target stays linked (same ▸ within)
  | _ => exact ⟨rfl, rfl, severed⟩

end Directory

namespace Segment

variable {d after : Directory} {path : String} {base : Nat} {isLast : Bool} {s : Segment}
variable {keep : String → Bool}

/-- A segment that is recovered has a file of its own name, and no name comes or goes. -/
theorem own_name_of_recover (ran : recover path d base isLast = .ok (after, s)) :
    SegmentName.ofBase base ∈ d.names ∧ s.base = base := by
  unfold recover at ran
  dsimp only at ran
  split at ran
  · cases ran
  rename_i bytes read
  split at ran
  · cases ran
  obtain ⟨-, rfl⟩ := Prod.mk.inj (Except.ok.inj ran)
  refine ⟨?_, rfl⟩
  by_contra absent
  rw [Directory.read, Directory.follow_of_none (Directory.get?_of_not_mem absent)] at read
  cases read

/-- The recovery of a segment is the same with the names of other files and without. -/
theorem recover_only (path : String) (isLast : Bool) (severed : d.Severed keep)
    (stays : SegmentName.ofBase base ∈ d.names → keep (SegmentName.ofBase base) = true) :
    recover path (d.only keep) base isLast =
      (recover path d base isLast).map fun (after, s) => (after.only keep, s) := by
  unfold recover
  dsimp only
  rw [Directory.read_only severed stays, Directory.length_only severed stays]
  split
  · rfl
  split
  · rfl
  · split
    · rw [(Directory.resize_only severed stays _).1]
      rfl
    · rfl

theorem severed_of_recover (severed : d.Severed keep)
    (stays : SegmentName.ofBase base ∈ d.names → keep (SegmentName.ofBase base) = true)
    (ran : recover path d base isLast = .ok (after, s)) :
    after.names = d.names ∧ after.Severed keep := by
  unfold recover at ran
  dsimp only at ran
  split at ran
  · cases ran
  split at ran
  · cases ran
  obtain ⟨rfl, -⟩ := Prod.mk.inj (Except.ok.inj ran)
  split
  · exact (Directory.resize_only severed stays _).2
  · exact ⟨rfl, severed⟩

/-- A segment that is not the last one is recovered from all of its file, and no file is cut. -/
theorem front_of_recover (ran : recover path d base false = .ok (after, s)) :
    after = d ∧ s.base = base ∧
      (s.positions = [] → d.read (SegmentName.ofBase base) 0 = .ok []) := by
  unfold recover at ran
  dsimp only at ran
  split at ran
  · cases ran
  rename_i bytes read
  split at ran
  · cases ran
  rename_i sound
  obtain ⟨rfl, rfl⟩ := Prod.mk.inj (Except.ok.inj ran)
  -- What the name leads to is a file of just these bytes, or the device, which has no length.
  have size : d.length (SegmentName.ofBase base) = 0 + bytes.length ∨
      d.length (SegmentName.ofBase base) = 0 := by
    rw [Directory.read] at read
    rw [Directory.length]
    split at read <;> rename_i leads <;> cases read
    · exact .inl (by rw [leads, List.drop_zero, Nat.zero_add])
    · exact .inr (by rw [leads])
  have done : (SegmentScan.run (d.length (SegmentName.ofBase base)) base 0 bytes).ending =
      .complete := by
    cases ended : (SegmentScan.run (d.length (SegmentName.ofBase base)) base 0 bytes).ending with
    | complete => rfl
    | stray expected actual => rw [ended] at sound; cases sound
    | broken cause => rw [ended] at sound; cases sound
  refine ⟨if_neg ?_, rfl, fun none => ?_⟩
  · rcases size with whole | nothing
    · obtain ⟨kept, torn, es, ending, split, -, -, scan, complete⟩ :=
        SegmentScan.exists_spelled _ base 0 bytes whole
      rw [scan] at done ⊢
      rw [complete done, List.append_nil] at split
      rw [whole, split]
      exact Nat.lt_irrefl _
    · rw [nothing]
      exact Nat.not_lt_zero _
  · rw [SegmentScan.run_eq] at done none
    split at done
    · cases done
    · rename_i taken
      rw [read, Record.of_next_none taken]
    · rename_i e rest taken
      rw [taken] at none
      dsimp only at done none
      split at done
      · rename_i number
        rw [if_pos number] at none
        cases none
      · cases done

end Segment

namespace SegmentLog

variable {d after : Directory} {path : String} {segments others : List Segment}
variable {numbers : List Nat} {highest number last base : Nat} {log : SegmentLog}
variable {settings : StoreSettings} {keep : String → Bool} {name : String}

/-! ### Files that the log did not write -/

/-- Names that may go: none is the own name of a segment, and no name that stays leads to one. -/
structure Strange (keep : String → Bool) (d : Directory) : Prop where
  foreign : ∀ name ∈ d.names, keep name = false →
    ∀ base, 0 < base → base < UInt64.size → name ≠ SegmentName.ofBase base
  severed : d.Severed keep

/-- The own name of a segment stays. -/
theorem Strange.stays (strange : Strange keep d) (positive : 0 < base) (small : base < UInt64.size)
    (held : SegmentName.ofBase base ∈ d.names) : keep (SegmentName.ofBase base) = true := by
  by_contra goes
  exact strange.foreign _ held (Bool.eq_false_iff.mpr goes) base positive small rfl

theorem Strange.of_recover {isLast : Bool} {s : Segment} (strange : Strange keep d)
    (positive : 0 < base) (small : base < UInt64.size)
    (ran : Segment.recover path d base isLast = .ok (after, s)) :
    after.names = d.names ∧ Strange keep after := by
  obtain ⟨names, severed⟩ :=
    Segment.severed_of_recover strange.severed (strange.stays positive small) ran
  exact ⟨names, names ▸ strange.foreign, severed⟩

/-- The recovery of the segments of some numbers is the same with the strange names and without. -/
theorem Strange.recoverSegments (strange : Strange keep d) (path : String) (segments : List Segment) (highest : Nat)
    (ranged : ∀ number ∈ numbers, 0 < number ∧ number < UInt64.size) :
    recoverSegments path (d.only keep) segments highest numbers =
        (recoverSegments path d segments highest numbers).map
          (fun (after, others, last) => (after.only keep, others, last)) ∧
      ∀ after others last, SegmentLog.recoverSegments path d segments highest numbers =
        .ok (after, others, last) → Strange keep after := by
  induction numbers generalizing d segments highest with
  | nil =>
    refine ⟨rfl, fun after others last ran => ?_⟩
    cases ran
    exact strange
  | cons number later ih =>
    obtain ⟨⟨positive, small⟩, rest⟩ := List.forall_mem_cons.mp ranged
    have first := Segment.recover_only path later.isEmpty strange.severed
      (strange.stays positive small)
    rw [SegmentLog.recoverSegments, SegmentLog.recoverSegments, first]
    split
    · exact ⟨rfl, fun _ _ _ ran => by cases ran⟩
    cases found : Segment.recover path d number later.isEmpty with
    | error fault => exact ⟨rfl, fun _ _ _ ran => by cases ran⟩
    | ok pair =>
      obtain ⟨middle, s⟩ := pair
      exact ih (strange.of_recover positive small found).2 (withSegment segments s) (s.limit - 1) rest

theorem Strange.openLast (strange : Strange keep d)
    (ranged : ∀ s ∈ segments, 0 < s.base ∧ s.base < UInt64.size) :
    openLast (d.only keep) segments = openLast d segments := by
  unfold SegmentLog.openLast
  split
  · rfl
  · rename_i s last
    obtain ⟨positive, small⟩ := ranged s (List.mem_of_getLast? last)
    rw [Directory.openAppend, Segment.name,
      Directory.follow_only strange.severed (strange.stays positive small), Directory.openAppend]
    cases d.follow (SegmentName.ofBase s.base) <;> rfl

theorem ranged_of_bases : ∀ number ∈ bases d, 0 < number ∧ number < UInt64.size :=
  fun number member => ⟨bases_positive number member, small_of_mem_bases member⟩

/-- Each segment that was recovered has one of the numbers. -/
theorem number_of_recoverSegments
    (ran : recoverSegments path d segments highest numbers = .ok (after, others, last)) :
    ∀ s ∈ others, s ∈ segments ∨ s.base ∈ numbers := by
  induction numbers generalizing d segments highest with
  | nil =>
    cases ran
    exact fun s held => .inl held
  | cons number later ih =>
    rw [recoverSegments] at ran
    split at ran
    · cases ran
    split at ran
    · cases ran
    rename_i middle first found
    intro s held
    rcases ih ran s held with old | new
    · rcases List.mem_append.mp old with before | here
      · exact .inl (List.mem_of_mem_filter before)
      · rw [List.mem_singleton.mp here, (Segment.own_name_of_recover found).2]
        exact .inr List.mem_cons_self
    · exact .inr (List.mem_cons_of_mem number new)

/-- If the same segments are recovered with the strange names and without, so is the log. -/
theorem Strange.recover (strange : Strange keep d) (settings : StoreSettings)
    (same : SegmentLog.recoverSegments settings.path d [] 0 (bases (d.only keep)) =
      SegmentLog.recoverSegments settings.path d [] 0 (bases d)) :
    recover settings (d.only keep) =
      (recover settings d).map fun log => { log with directory := log.directory.only keep } := by
  obtain ⟨kept, keeps⟩ := strange.recoverSegments settings.path [] 0
    (ranged_of_bases (d := d.only keep))
  rw [same] at kept keeps
  rw [SegmentLog.recover, SegmentLog.recover, kept]
  split
  · rfl
  cases ran : SegmentLog.recoverSegments settings.path d [] 0 (bases d) with
  | error fault => rfl
  | ok found =>
    obtain ⟨after, segments, highest⟩ := found
    have ranged : ∀ s ∈ segments, 0 < s.base ∧ s.base < UInt64.size := by
      intro s held
      rcases number_of_recoverSegments ran s held with old | new
      · cases old
      · exact ranged_of_bases _ new
    show (SegmentLog.openLast (after.only keep) segments).map _ =
      ((SegmentLog.openLast after segments).map _).map _
    rw [(keeps after segments highest ran).openLast ranged]
    cases SegmentLog.openLast after segments <;> rfl

/-- Names that tell no number are not looked at. -/
theorem bases_only (silent : ∀ name ∈ d.names, keep name = false → SegmentName.base? name = none) :
    bases (d.only keep) = bases d := by
  rw [bases, bases, Directory.names_only, List.filterMap_filter]
  congr 1
  refine List.filterMap_congr fun name held => ?_
  cases kept : keep name with
  | true => rfl
  | false => exact (silent name held kept).symm

/-! ### Other spellings of a segment's name -/

/-- If segments are recovered, each number has a file of its own name. -/
theorem own_names_of_recoverSegments
    (ran : recoverSegments path d segments highest numbers = .ok (after, others, last)) :
    ∀ number ∈ numbers, SegmentName.ofBase number ∈ d.names := by
  induction numbers generalizing d segments highest with
  | nil => simp
  | cons number later ih =>
    rw [SegmentLog.recoverSegments] at ran
    split at ran
    · cases ran
    split at ran
    · cases ran
    rename_i middle first found
    have names := Segment.names_of_recover found
    refine List.forall_mem_cons.mpr ⟨(Segment.own_name_of_recover found).1, fun other held => ?_⟩
    exact names ▸ ih ran other held

/-- Nothing stands between two equal numbers. -/
theorem exists_repeated {later : List Nat} (sorted : (number :: later).Pairwise (· ≤ ·))
    (again : number ∈ later) : ∃ rest, later = number :: rest := by
  obtain ⟨least, sorted'⟩ := List.pairwise_cons.mp sorted
  obtain ⟨second, rest, rfl⟩ := List.exists_cons_of_ne_nil (List.ne_nil_of_mem again)
  refine ⟨rest, congrArg (· :: rest) ?_⟩
  have low := least second List.mem_cons_self
  rcases List.mem_cons.mp again with here | behind
  · exact here.symm
  · exact Nat.le_antisymm ((List.pairwise_cons.mp sorted').1 number behind) low

/-- If a number that is told twice in a row is let through, its file is empty: otherwise it would not
follow the offsets of its own segment. And the second time changes nothing. -/
theorem again_of_recoverSegments (positive : 0 < number)
    (ran : recoverSegments path d segments highest (number :: number :: numbers) =
      .ok (after, others, last)) :
    d.read (SegmentName.ofBase number) 0 = .ok [] ∧
      recoverSegments path d segments highest (number :: numbers) = .ok (after, others, last) := by
  rw [recoverSegments] at ran
  split at ran
  · cases ran
  rename_i first
  split at ran
  · cases ran
  rename_i middle s found
  obtain ⟨rfl, based, empty⟩ := Segment.front_of_recover found
  rw [recoverSegments] at ran
  split at ran
  · cases ran
  rename_i follows
  have nothing : s.positions = [] := by
    refine List.eq_nil_of_length_eq_zero ?_
    unfold Segment.limit at follows
    omega
  refine ⟨empty nothing, ?_⟩
  rw [recoverSegments, if_neg first]
  split at ran
  · cases ran
  rename_i after' t again
  have twice : withSegment (withSegment segments s) t = withSegment segments t := by
    have place : t.base = s.base := (Segment.own_name_of_recover again).2.trans based.symm
    rw [withSegment, withSegment, withSegment, List.filter_append, List.filter_filter, place]
    simp
  rw [← twice]
  exact ran

/-- If a number is told twice by the names of a directory, and its segments are recovered, the file of
the number's own name is empty. -/
theorem empty_of_recoverSegments
    (ran : recoverSegments path d segments highest numbers = .ok (after, others, last))
    (sorted : numbers.Pairwise (· ≤ ·)) (positive : ∀ number ∈ numbers, 0 < number)
    (twice : 2 ≤ numbers.count base) : d.read (SegmentName.ofBase base) 0 = .ok [] := by
  induction numbers generalizing segments highest with
  | nil => simp at twice
  | cons number later ih =>
    obtain ⟨above, positive'⟩ := List.forall_mem_cons.mp positive
    have once : base ∈ later := by
      rw [List.count_cons] at twice
      refine List.count_pos_iff.mp ?_
      split at twice <;> omega
    by_cases same : number = base
    · subst same
      obtain ⟨rest, rfl⟩ := exists_repeated sorted once
      exact (again_of_recoverSegments above ran).1
    · obtain ⟨second, rest, rfl⟩ := List.exists_cons_of_ne_nil (List.ne_nil_of_mem once)
      rw [recoverSegments] at ran
      split at ran
      · cases ran
      split at ran
      · cases ran
      rename_i middle s found
      obtain ⟨rfl, -, -⟩ := Segment.front_of_recover found
      refine ih ran sorted.of_cons positive' ?_
      rwa [List.count_cons_of_ne same] at twice

/-- If segments are recovered from numbers of which some come more than once, the same segments are
recovered from the numbers without some of the repetitions. -/
theorem recoverSegments_of_sublist
    (ran : recoverSegments path d segments highest numbers = .ok (after, others, last))
    (sorted : numbers.Pairwise (· ≤ ·)) (positive : ∀ number ∈ numbers, 0 < number)
    {fewer : List Nat} (sub : fewer.Sublist numbers) (all : numbers ⊆ fewer) :
    recoverSegments path d segments highest fewer = .ok (after, others, last) := by
  induction numbers generalizing d fewer segments highest with
  | nil =>
    obtain rfl := List.sublist_nil.mp sub
    exact ran
  | cons number later ih =>
    obtain ⟨above, positive'⟩ := List.forall_mem_cons.mp positive
    by_cases through : fewer.Sublist later
    · -- The first number is repeated, and can go.
      obtain ⟨rest, rfl⟩ := exists_repeated sorted (through.subset (all List.mem_cons_self))
      exact ih (again_of_recoverSegments above ran).2 sorted.of_cons positive' through
        fun n held => all (List.mem_cons_of_mem _ held)
    cases sub with
    | cons _ sub => exact absurd sub through
    | @cons_cons rest _ _ sub =>
      have all' : later ⊆ rest := by
        intro n held
        rcases List.mem_cons.mp (all (List.mem_cons_of_mem _ held)) with rfl | kept
        · -- Were the number not kept behind, the first one could have gone.
          by_contra gone
          obtain ⟨others, rfl⟩ := exists_repeated sorted held
          cases sub with
          | cons _ sub => exact through (sub.cons_cons n)
          | cons_cons _ sub => exact gone List.mem_cons_self
        · exact kept
      have ends : rest.isEmpty = later.isEmpty := by
        rw [Bool.eq_iff_iff, List.isEmpty_iff, List.isEmpty_iff]
        exact ⟨fun none => List.subset_nil.mp (none ▸ all'),
          fun none => List.sublist_nil.mp (none ▸ sub)⟩
      rw [recoverSegments] at ran ⊢
      split at ran
      · cases ran
      rename_i follows
      rw [if_neg follows, ends]
      split at ran
      · cases ran
      exact ih ran sorted.of_cons positive' sub all'

/-- If a log is opened, each file that is taken for a segment has one of the segment's own name beside
it, or is that file. If it is another one, that one is empty. -/
theorem own_of_recover (opened : recover settings d = .ok log) (held : name ∈ d.names)
    (told : SegmentName.base? name = some base) : SegmentName.ofBase base ∈ d.names ∧
      (name ≠ SegmentName.ofBase base → d.read (SegmentName.ofBase base) 0 = .ok []) := by
  obtain ⟨-, -, ran, -⟩ := recoverSegments_of_recover opened
  have member : base ∈ bases d := mem_bases.mpr ⟨name, held, told⟩
  have own := own_names_of_recoverSegments ran base member
  refine ⟨own, fun other => empty_of_recoverSegments ran (sorted_bases d) bases_positive ?_⟩
  -- Both names tell the number.
  have told' := SegmentName.base?_ofBase (bases_positive base member) (small_of_mem_bases member)
  have both : [name, SegmentName.ofBase base].Subperm d.names :=
    List.subperm_of_subset (by simpa using other) (by simp [held, own])
  have told : ([name, SegmentName.ofBase base].filterMap SegmentName.base?).count base = 2 := by
    simp [told, told']
  obtain ⟨listed, perm, sub⟩ := both
  rw [bases, (List.mergeSort_perm _ _).count_eq, ← told, ← (perm.filterMap _).count_eq]
  exact (sub.filterMap _).count_le _

/-! ### The rule -/

/-- Which files make a difference to the log that is opened in a directory. -/
structure Discerning (settings : StoreSettings) (d : Directory) : Prop where
  /-- A number is told by its digits, however many zeros or a plus sign stand in front of them. -/
  told : ∀ name base, SegmentName.base? name = some base ↔
    0 < base ∧ base < UInt64.size ∧ SegmentName.Tells name base
  own : ∀ base, 0 < base → base < UInt64.size →
    SegmentName.base? (SegmentName.ofBase base) = some base
  /-- Files that the log does not write make no difference to what is opened, only to whether it is. -/
  strange : ∀ keep, Strange keep d → ∀ log, recover settings d = .ok log →
    recover settings (d.only keep) = .ok { log with directory := log.directory.only keep }
  /-- Files whose names tell no number make no difference at all. -/
  silent : ∀ keep, d.Severed keep →
    (∀ name ∈ d.names, keep name = false → SegmentName.base? name = none) →
    recover settings (d.only keep) =
      (recover settings d).map fun log => { log with directory := log.directory.only keep }
  /-- Another spelling of a name is let pass beside an empty file of that name only. -/
  spelled : Countable d → ∀ log, recover settings d = .ok log →
    ∀ name ∈ d.names, ∀ base, SegmentName.base? name = some base →
      SegmentName.ofBase base ∈ d.names ∧
        (name ≠ SegmentName.ofBase base → d.read (SegmentName.ofBase base) 0 = .ok [])

theorem Strange.of_silent (severed : d.Severed keep)
    (silent : ∀ name ∈ d.names, keep name = false → SegmentName.base? name = none) :
    Strange keep d := by
  refine ⟨fun name held goes base positive small own => ?_, severed⟩
  have told := SegmentName.base?_ofBase positive small
  rw [← own, silent name held goes] at told
  cases told

/-- If a log is opened, the same segments are recovered without the strange names. -/
theorem Strange.fewer_bases (strange : Strange keep d)
    (opened : SegmentLog.recover settings d = .ok log) :
    SegmentLog.recoverSegments settings.path d [] 0 (bases (d.only keep)) =
      SegmentLog.recoverSegments settings.path d [] 0 (bases d) := by
  obtain ⟨-, -, ran, -⟩ := recoverSegments_of_recover opened
  have fewer : (bases (d.only keep)).Sublist (bases d) := by
    refine List.sublist_of_subperm_of_pairwise ?_ (sorted_bases _) (sorted_bases d)
    have sub : ((d.only keep).names.filterMap SegmentName.base?).Sublist
        (d.names.filterMap SegmentName.base?) := by
      rw [Directory.names_only]
      exact List.filter_sublist.filterMap _
    exact (List.mergeSort_perm _ _).subperm.trans
      (sub.subperm.trans (List.mergeSort_perm _ _).symm.subperm)
  -- Each number has its own name, and that one stays.
  have all : bases d ⊆ bases (d.only keep) := by
    intro base member
    obtain ⟨positive, small⟩ := ranged_of_bases base member
    have own := own_names_of_recoverSegments ran base member
    refine mem_bases.mpr ⟨_, ?_, SegmentName.base?_ofBase positive small⟩
    rw [Directory.names_only]
    exact List.mem_filter.mpr ⟨own, strange.stays positive small own⟩
  rw [ran, recoverSegments_of_sublist ran (sorted_bases d) bases_positive fewer all]

/-- Every directory is opened by what the names of its files tell. -/
theorem discerning (settings : StoreSettings) (d : Directory) : Discerning settings d where
  told _ _ := SegmentName.base?_eq_some_iff
  own _ := SegmentName.base?_ofBase
  strange keep strange log opened := by
    rw [strange.recover settings (strange.fewer_bases opened), opened]
    rfl
  silent keep severed silent :=
    (Strange.of_silent severed silent).recover settings (by rw [bases_only silent])
  spelled _ log opened name held base told := own_of_recover opened held told

/-- A segment with one record. -/
def single : Directory where
  nodes := [(SegmentName.ofBase 1, .file (Record.encode ⟨1, [97], none⟩))]

/-- The same segment beside files of other names. -/
def crowded : Directory where
  nodes := [("notes.txt", .file [1, 2]), (SegmentName.ofBase 1, .file (Record.encode ⟨1, [97], none⟩)),
    ("00000000000000000002.log.bak", .file [3]), ("latest.log", .link (SegmentName.ofBase 1)),
    (".log", .file []), ("00000000000000000000.log", .folder)]

/-- The log is opened as if the segment were alone. -/
theorem crowd_is_ignored : ∃ log, recover .standard crowded = .ok log ∧
    recover .standard (crowded.only (· == SegmentName.ofBase 1)) =
      .ok { log with directory := single } := by
  have numbers : bases crowded = [1] := bases_of_sorted (by decide +kernel) (by decide)
  have opened : recover .standard crowded = .ok ⟨.standard, crowded, [⟨1, [0], 18⟩],
      some (.file (SegmentName.ofBase 1)), 1⟩ := by
    rw [recover, numbers]
    decide +kernel
  refine ⟨_, opened, ?_⟩
  have alone := (discerning .standard crowded).silent (· == SegmentName.ofBase 1) ?_ ?_
  · have kept : crowded.only (· == SegmentName.ofBase 1) = single := by decide +kernel
    rw [alone, opened, ← kept]
    rfl
  · intro name target stays linked
    have file : crowded.get? (SegmentName.ofBase 1) =
        some (.file (Record.encode ⟨1, [97], none⟩)) := by decide +kernel
    rw [beq_iff_eq.mp stays, file] at linked
    cases linked
  · decide +kernel

/-- No segment has a file named `1.log`, but such a file is taken for that of segment 1, and an empty one
beside the segment's own keeps the log from being opened. -/
theorem short_name_closes : SegmentName.base? "1.log" = some 1 ∧
    (∀ base, "1.log" ≠ SegmentName.ofBase base) ∧
    (∃ log, recover .standard single = .ok log ∧
      LocalLog.read log 1 9 = .ok [⟨1, [97], none⟩]) ∧
    recover .standard (single.put "1.log" (.file [])) = .error (.log (.segmentGap 1 1)) := by
  have numbers : bases single = [1] := bases_of_sorted (by decide +kernel) (by decide)
  have opened : recover .standard single = .ok ⟨.standard, single, [⟨1, [0], 18⟩],
      some (.file (SegmentName.ofBase 1)), 1⟩ := by
    rw [recover, numbers]
    decide +kernel
  have numbers' : bases (single.put "1.log" (.file [])) = [1, 1] :=
    bases_of_sorted (by decide +kernel) (by decide)
  refine ⟨by decide +kernel, fun base same => ?_, ⟨_, opened, by decide +kernel⟩, ?_⟩
  · have length := congrArg (·.toList.length) same
    simp [SegmentName.toList_ofBase] at length
    omega
  · rw [recover, numbers']
    decide +kernel

end SegmentLog

end QuorumLog
