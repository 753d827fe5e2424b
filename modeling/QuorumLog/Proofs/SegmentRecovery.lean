import Mathlib.Data.List.Sort
import QuorumLog.Proofs.StoredLog
import QuorumLog.Proofs.TornRecords

/-! A log that is opened again is the log that was closed. Only the last file of its directory may have
lost bytes: then the log comes back with the records that are whole, and the file is cut behind
them. -/

namespace QuorumLog

/-- The name of a segment file tells where the segment starts. -/
theorem SegmentName.base?_ofBase {base : Nat} (positive : 0 < base) (small : base < UInt64.size) :
    base? (ofBase base) = some base := by
  have value := Decimal.value?_padded 20 base
  have stem : stem? (ofBase base).toList = some (Decimal.padded 20 base) := by
    rw [ofBase, String.toList_ofList, stem?, List.reverse_append]
    cases digits : (Decimal.padded 20 base).reverse with
    | nil =>
      rw [List.reverse_eq_nil_iff.mp digits] at value
      cases value
    | cons c rest =>
      show some (c :: rest).reverse = _
      rw [← digits, List.reverse_reverse]
  have read : Decimal.read? UInt64.size (Decimal.padded 20 base) = some base := by
    unfold Decimal.read?
    split
    · rename_i rest signed
      rw [signed] at value
      cases value
    · simp [value, small]
  simp [base?, stem, read, positive]

namespace Directory

variable {d : Directory} {name other : String} {node : FileNode} {content : Bytes}

theorem length_of_file (file : d.get? name = some (.file content)) :
    d.length name = content.length := by
  rw [length, follow_of_file file]

theorem mem_names_of_get? (found : d.get? name = some node) : name ∈ d.names := by
  by_contra absent
  rw [get?_of_not_mem absent] at found
  cases found

theorem names_put : (d.put name node).names =
    if name ∈ d.names then d.names else d.names ++ [name] := by
  obtain ⟨nodes⟩ := d
  simp only [put, names]
  induction nodes with
  | nil => rfl
  | cons first rest ih =>
    obtain ⟨held, old⟩ := first
    by_cases here : held = name
    · simp [putNode, here]
    · have apart : name ≠ held := Ne.symm here
      simp only [putNode, here, if_false, List.map_cons, ih, List.mem_cons, apart, false_or]
      by_cases later : name ∈ rest.map (·.1) <;> simp [later]

theorem nodup_put (distinct : d.names.Nodup) : (d.put name node).names.Nodup := by
  rw [names_put]
  split
  · exact distinct
  · rename_i new
    exact List.nodup_append.mpr ⟨distinct, List.nodup_singleton name, fun x held y here same =>
      new (List.mem_singleton.mp here ▸ same ▸ held)⟩

theorem nodup_modifyFile {f : Bytes → Bytes} (distinct : d.names.Nodup) :
    (d.modifyFile f name).names.Nodup := by
  unfold modifyFile
  split
  · exact nodup_put distinct
  · exact distinct

end Directory

/-! ### One segment -/

namespace Segment

variable {s : Segment} {es : List Entry} {d : Directory} {torn : Bytes}

/-- One file of a directory was cut to the records of some entries, and no other was touched. -/
structure CutTo (name : String) (es : List Entry) (before after : Directory) : Prop where
  file : after.get? name = some (.file (Record.encodeAll es))
  others : ∀ other ≠ name, after.get? other = before.get? other
  names : after.names = before.names

/-- A segment is recovered from a file that has its records, and the file of the last segment is cut
behind them if more stands there. -/
theorem recover_of_file (path : String) (isLast : Bool) (stores : s.Stores es)
    (unread : Record.Unread torn)
    (file : d.get? s.name = some (.file (Record.encodeAll es ++ torn)))
    (whole : isLast = false → torn = []) :
    ∃ d', recover path d s.base isLast = .ok (d', s) ∧ CutTo s.name es d d' ∧
      (torn = [] → d' = d) := by
  have bytes := Directory.read_of_file file 0
  have length := Directory.length_of_file file
  rw [List.drop_zero] at bytes
  rw [List.length_append] at length
  have fills : d.length s.name = 0 + (Record.encodeAll es).length + torn.length := by omega
  obtain ⟨ending, scan, complete⟩ :=
    SegmentScan.run_encodeAll stores.fits stores.numbered unread fills
  have sound : fault? (Segment.path path s.name) isLast ending = none := by
    cases last : isLast with
    | true => cases ending <;> rfl
    | false => rw [complete.mp (whole last)]; rfl
  have same : (⟨s.base, Record.starts 0 es, (Record.encodeAll es).length⟩ : Segment) = s := by
    rw [← stores.positions, ← stores.length]
  rw [Nat.zero_add] at scan
  have called : SegmentName.ofBase s.base = s.name := rfl
  unfold recover
  simp only [called, bytes, scan, sound, same]
  by_cases more : torn = []
  · subst more
    rw [List.append_nil] at file
    refine ⟨d, ?_, ⟨file, fun _ _ => rfl, rfl⟩, fun _ => rfl⟩
    rw [if_neg (by rw [length, List.length_nil]; omega)]
  · have positive := List.length_pos_iff.mpr more
    refine ⟨d.put s.name (.file (Record.encodeAll es)), ?_, ⟨?_, fun other apart => ?_, ?_⟩,
      fun none => absurd none more⟩
    · rw [if_pos (by omega), Directory.resize, Directory.follow_of_file file]
      simp only [Directory.modifyFile_of_file _ file]
      rw [Directory.fitted_of_le (by simp), List.take_left]
    · rw [Directory.get?_put, if_pos rfl]
    · rw [Directory.get?_put, if_neg apart]
    · rw [Directory.names_put, if_pos (Directory.mem_names_of_get? file)]

end Segment

namespace SegmentLog

open Segment (CutTo)

variable {d : Directory} {init : List Part} {s : Segment} {es : List Entry} {torn : Bytes}
variable {log after : SegmentLog} {parts : List Part} {settings : StoreSettings}

/-! ### All segments of a directory -/

/-- A directory that a log left: the files of its segments and no others. Behind the records of the
last segment bytes may stand that are no record. -/
structure Remains (d : Directory) (init : List Part) (s : Segment) (es : List Entry) (torn : Bytes) :
    Prop where
  distinct : d.names.Nodup
  names : ∀ name, name ∈ d.names ↔ ∃ p ∈ init ++ [(s, es)], name = p.1.name
  stores : ∀ p ∈ init ++ [(s, es)], p.1.Stores p.2
  files : ∀ p ∈ init, d.get? p.1.name = some (.file (Record.encodeAll p.2))
  last : d.get? s.name = some (.file (Record.encodeAll es ++ torn))
  unread : Record.Unread torn
  joined : (init ++ [(s, es)]).IsChain Joins
  positive : ∀ p ∈ init ++ [(s, es)], 1 ≤ p.1.base
  small : ∀ p ∈ init ++ [(s, es)], p.1.base < UInt64.size

/-- A directory tells the offsets at which its segments start. -/
theorem bases_of_names (distinct : d.names.Nodup)
    (names : ∀ name, name ∈ d.names ↔ ∃ p ∈ parts, name = p.1.name)
    (holds : ∀ p ∈ parts, p.1.Holds p.2) (joined : parts.IsChain Joins)
    (positive : ∀ p ∈ parts, 1 ≤ p.1.base) (small : ∀ p ∈ parts, p.1.base < UInt64.size) :
    bases d = parts.map (·.1.base) := by
  have ascending := ascending_of_joined holds joined
  have inverse : (parts.map (·.1.name)).filterMap SegmentName.base? = parts.map (·.1.base) := by
    rw [List.filterMap_map, ← List.filterMap_eq_map]
    refine List.filterMap_congr fun p held => ?_
    exact SegmentName.base?_ofBase (positive p held) (small p held)
  have nodup : (parts.map (·.1.name)).Nodup := by
    have apart := ascending.imp fun less => Nat.ne_of_lt less
    rw [List.pairwise_map] at apart
    exact List.pairwise_map.mpr (apart.imp fun differ same =>
      differ (SegmentName.ofBase_injective same))
  have same : d.names.Perm (parts.map (·.1.name)) := by
    refine (List.perm_ext_iff_of_nodup distinct nodup).mpr fun name => ?_
    rw [names, List.mem_map]
    exact ⟨fun ⟨p, held, called⟩ => ⟨p, held, called.symm⟩,
      fun ⟨p, held, called⟩ => ⟨p, held, called.symm⟩⟩
  have perm := (List.mergeSort_perm _ (· ≤ ·)).trans (inverse ▸ same.filterMap SegmentName.base?)
  exact perm.eq_of_pairwise' (List.pairwise_mergeSort' (· ≤ ·) _)
    (ascending.imp fun less => Nat.le_of_lt less)

theorem Remains.holds (remains : Remains d init s es torn) :
    ∀ p ∈ init ++ [(s, es)], p.1.Holds p.2 := fun p held => (remains.stores p held).holds

theorem Remains.bases (remains : Remains d init s es torn) :
    bases d = (init ++ [(s, es)]).map (·.1.base) :=
  bases_of_names remains.distinct remains.names remains.holds remains.joined remains.positive
    remains.small

/-- A segment that starts behind those before it leaves no gap. -/
private theorem no_gap {highest : Nat} {p : Part}
    (starts : highest = 0 ∨ ∀ q ∈ parts.head?, q.1.base = highest + 1) (first : parts.head? = some p) :
    ¬(highest ≠ 0 ∧ p.1.base ≠ highest + 1) := by
  rintro ⟨some, gap⟩
  exact starts.elim some fun next => gap (next p first)

/-- Segments are recovered one after the other, each behind those before it. -/
theorem recoverSegments_of_files (path : String) (segments : List Segment) (highest : Nat)
    (stores : ∀ p ∈ init ++ [(s, es)], p.1.Stores p.2)
    (files : ∀ p ∈ init, d.get? p.1.name = some (.file (Record.encodeAll p.2)))
    (last : d.get? s.name = some (.file (Record.encodeAll es ++ torn)))
    (unread : Record.Unread torn)
    (joined : (init ++ [(s, es)]).IsChain Joins)
    (below : ∀ r ∈ segments, ∀ p ∈ init ++ [(s, es)], r.base < p.1.base)
    (starts : highest = 0 ∨ ∀ p ∈ (init ++ [(s, es)]).head?, p.1.base = highest + 1) :
    ∃ d', recoverSegments path d segments highest ((init ++ [(s, es)]).map (·.1.base)) =
        .ok (d', segments ++ (init ++ [(s, es)]).map (·.1), s.limit - 1) ∧
      CutTo s.name es d d' ∧ (torn = [] → d' = d) := by
  induction init generalizing segments highest with
  | nil =>
    obtain ⟨d', recovered, cut, same⟩ := Segment.recover_of_file path true
      (stores (s, es) List.mem_cons_self) unread last (fun no => by cases no)
    refine ⟨d', ?_, cut, same⟩
    simp only [List.nil_append, List.map_cons, List.map_nil, recoverSegments,
      if_neg (no_gap starts rfl),
      List.isEmpty_nil, recovered,
      withSegment_of_below fun r old => below r old (s, es) List.mem_cons_self]
  | cons p later ih =>
    have here : p ∈ p :: later ++ [(s, es)] := List.mem_cons_self
    have behind : ∀ q ∈ later ++ [(s, es)], q ∈ p :: later ++ [(s, es)] := fun q =>
      List.mem_cons_of_mem p
    have file : d.get? p.1.name = some (.file (Record.encodeAll p.2 ++ [])) := by
      rw [List.append_nil]
      exact files p List.mem_cons_self
    obtain ⟨d', recovered, -, same⟩ := Segment.recover_of_file path false (stores p here)
      (.inl rfl) file (fun _ => rfl)
    rw [same rfl] at recovered
    obtain ⟨meets, rest⟩ := List.isChain_cons.mp joined
    obtain ⟨above, -⟩ := List.pairwise_cons.mp (ascending_of_joined (fun q held => (stores q held).holds) joined)
    have lower : ∀ r ∈ segments ++ [p.1], ∀ q ∈ later ++ [(s, es)], r.base < q.1.base := by
      intro r member q held
      rcases List.mem_append.mp member with old | new
      · exact below r old q (behind q held)
      · rw [List.mem_singleton.mp new]
        exact above _ (List.mem_map_of_mem held)
    have next : p.1.limit - 1 = 0 ∨
        ∀ q ∈ (later ++ [(s, es)]).head?, q.1.base = p.1.limit - 1 + 1 := by
      by_cases none : p.1.limit - 1 = 0
      · exact .inl none
      · exact .inr fun q first => by have := (meets q first).1; omega
    obtain ⟨d'', recovered', cut, same'⟩ := ih (segments ++ [p.1]) (p.1.limit - 1)
      (fun q held => stores q (behind q held))
      (fun q held => files q (List.mem_cons_of_mem p held)) rest lower next
    refine ⟨d'', ?_, cut, same'⟩
    have more : ((later ++ [(s, es)]).map (·.1.base)).isEmpty = false := by simp
    rw [List.cons_append, List.map_cons, recoverSegments, if_neg (no_gap starts rfl), more,
      recovered]
    dsimp only
    rw [withSegment_of_below fun r old => below r old p here, recovered', List.map_cons,
      List.append_assoc, List.singleton_append]

/-! ### Opening the log -/

/-- A log that is opened from what a log left has the same segments, the last one cut behind its
records. -/
theorem recover_of_remains (sized : settings.segmentSize ≠ 0) (remains : Remains d init s es torn) :
    ∃ after, recover settings d = .ok after ∧ after.settings = settings ∧
      after.Filed (init ++ [(s, es)]) ∧ CutTo s.name es d after.directory ∧
      (torn = [] → after.directory = d) := by
  obtain ⟨d', recovered, cut, same⟩ := recoverSegments_of_files settings.path [] 0 remains.stores
    remains.files remains.last remains.unread remains.joined (by simp) (.inl rfl)
  have opened : openLast d' ((init ++ [(s, es)]).map (·.1)) = .ok (some (.file s.name)) := by
    have final : ((init ++ [(s, es)]).map (·.1)).getLast? = some s := by simp
    simp only [openLast, final, Directory.openAppend, Directory.follow_of_file cut.file]
  have member : (s, es) ∈ init ++ [(s, es)] := List.mem_append_right _ List.mem_cons_self
  have apart := name_of_last remains.holds remains.joined
  refine ⟨⟨settings, d', (init ++ [(s, es)]).map (·.1), some (.file s.name), s.limit - 1⟩, ?_, rfl,
    ⟨rfl, remains.stores, fun p held => ?_, remains.joined, remains.positive, fun p last => ?_, ?_,
      fun name held => ?_⟩, cut, same⟩
  · rw [recover, if_neg sized, remains.bases, recovered, List.nil_append]
    dsimp only
    rw [opened]
    rfl
  · rcases List.mem_append.mp held with before | last
    · rw [cut.others _ (apart p before)]
      exact remains.files p before
    · rw [List.mem_singleton.mp last]
      exact cut.file
  · rw [List.getLast?_concat] at last
    cases last
    have positive : 1 ≤ s.base := remains.positive _ member
    show s.limit = s.limit - 1 + 1
    unfold Segment.limit
    omega
  · rw [List.getLast?_concat]
    rfl
  · rw [cut.names] at held
    exact (remains.names name).mp held

/-- What a log needs to be found again: no name stands twice in its directory, a name can tell where
each segment starts, and an end above 0 has a segment that tells it. -/
structure Findable (log : SegmentLog) : Prop where
  distinct : log.directory.names.Nodup
  small : ∀ s ∈ log.segments, s.base < UInt64.size
  origin : log.segments = [] → log.highest = 0

theorem Recorded.mem_names (recorded : log.Recorded parts) (name : String) :
    name ∈ log.directory.names ↔ ∃ p ∈ parts, name = p.1.name := by
  refine ⟨recorded.names name, ?_⟩
  rintro ⟨p, held, rfl⟩
  exact Directory.mem_names_of_get? (recorded.files p held)

theorem Recorded.small (recorded : log.Recorded parts) (findable : log.Findable) :
    ∀ p ∈ parts, p.1.base < UInt64.size := fun p held =>
  findable.small p.1 (recorded.segments ▸ List.mem_map_of_mem held)

/-- A log leaves what it has. -/
theorem Filed.remains (filed : log.Filed (init ++ [(s, es)])) (findable : log.Findable) :
    Remains log.directory init s es [] where
  distinct := findable.distinct
  names := filed.recorded.mem_names
  stores := filed.stores
  files p held := filed.files p (List.mem_append_left _ held)
  last := by
    rw [List.append_nil]
    exact filed.files (s, es) (List.mem_append_right _ List.mem_cons_self)
  unread := .inl rfl
  joined := filed.joined
  positive := filed.positive
  small := filed.recorded.small findable

/-- Nothing is brought back from a directory without files. -/
theorem recover_empty (sized : settings.segmentSize ≠ 0) (free : d.names = []) :
    recover settings d = .ok ⟨settings, d, [], none, 0⟩ := by
  have bases : bases d = [] := by simp [SegmentLog.bases, free]
  rw [recover, if_neg sized, bases]
  rfl

/-- A log that is closed and opened again is the same log. -/
theorem Filed.reopen (filed : log.Filed parts) (findable : log.Findable)
    (sized : settings.segmentSize ≠ 0) :
    recover settings log.directory = .ok { log with settings := settings } := by
  obtain ⟨held, d, segments, active, highest⟩ := log
  obtain rfl : segments = parts.map (·.1) := filed.segments
  rcases List.eq_nil_or_concat' parts with rfl | ⟨init, ⟨s, es⟩, rfl⟩
  · have free : d.names = [] := List.eq_nil_iff_forall_not_mem.mpr fun name member => by
      obtain ⟨p, impossible, -⟩ := filed.names name member
      cases impossible
    obtain rfl : highest = 0 := findable.origin rfl
    obtain rfl : active = none := filed.active
    exact recover_empty sized free
  · obtain ⟨⟨_, d', _, _, highest'⟩, recovered, rfl, filed', -, same⟩ :=
      recover_of_remains sized (filed.remains findable)
    obtain rfl : d' = d := same rfl
    obtain rfl := filed'.segments
    obtain rfl := filed'.active
    obtain rfl : active = _ := filed.active
    have ends : s.limit = highest + 1 := filed.ends (s, es) (by simp)
    have ends' : s.limit = highest' + 1 := filed'.ends (s, es) (by simp)
    obtain rfl : highest' = highest := by omega
    exact recovered

private theorem written_findable {e : Entry} (distinct : log.directory.names.Nodup)
    (small : ∀ s ∈ log.segments, s.base < UInt64.size)
    (ran : log.writeRecord .sound e = (after, .ok ())) : after.Findable := by
  unfold writeRecord at ran
  split at ran
  · rename_i s handle last active
    dsimp only at ran
    split at ran <;> cases ran
    refine ⟨?_, fun r held => ?_, fun none => by simp at none⟩
    · cases handle with
      | file name => exact Directory.nodup_modifyFile distinct
      | nameless => exact distinct
      | fullDevice => exact distinct
    · rcases List.mem_append.mp held with old | new
      · exact small r (List.dropLast_subset _ old)
      · rw [List.mem_singleton.mp new]
        exact small s (List.mem_of_getLast? last)
  · cases ran

private theorem started_findable {base : Nat} (findable : log.Findable) (bound : base < UInt64.size)
    (ran : log.startSegment .sound base = .ok after) :
    after.directory.names.Nodup ∧ ∀ s ∈ after.segments, s.base < UInt64.size := by
  unfold startSegment Directory.openAppend at ran
  dsimp only [Medium.sound] at ran
  have small : ∀ s ∈ withSegment log.segments (.empty base), s.base < UInt64.size := by
    intro s held
    rcases List.mem_append.mp held with old | new
    · exact findable.small s (List.mem_of_mem_filter old)
    · rw [List.mem_singleton.mp new]
      exact bound
  cases place : log.directory.follow (SegmentName.ofBase base) with
  | file name content => rw [place] at ran; cases ran; exact ⟨findable.distinct, small⟩
  | vacant name => rw [place] at ran; cases ran; exact ⟨Directory.nodup_put findable.distinct, small⟩
  | folder => rw [place] at ran; cases ran
  | fullDevice => rw [place] at ran; cases ran; exact ⟨findable.distinct, small⟩
  | nowhere number => rw [place] at ran; cases ran

/-- An entry whose offset a name can tell leaves the log findable. -/
theorem Findable.store {e : Entry} (findable : log.Findable) (bound : e.offset < UInt64.size)
    (ran : log.store .sound e = (after, .ok ())) : after.Findable := by
  unfold SegmentLog.store at ran
  split at ran
  · split at ran
    · cases ran
    · rename_i fresh started
      obtain ⟨distinct, small⟩ := started_findable findable bound started
      exact written_findable distinct small ran
  · exact written_findable findable.distinct findable.small ran

end SegmentLog

end QuorumLog
