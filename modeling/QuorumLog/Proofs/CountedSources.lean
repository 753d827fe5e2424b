import QuorumLog.Proofs.Credit

/-! The count of copies, told by the requests alone. While a write waits it is counted for by exactly
those sources that have vouched for its offset since it was registered, and it waits for as long as
they are too few; the request with which they become enough is the one that gives its offset back.
Registering an offset again starts over, and a write that waited there never becomes durable. -/

namespace QuorumLog

/-- What the count of copies is asked to do. -/
inductive Request where
  /-- Waits for the write at an offset. -/
  | register (offset : Nat)
  | credit (offset : Nat) (source : Source)
  | rebase (source : Source) (offset : Nat)
deriving DecidableEq, Repr

/-- Who vouches in a request. -/
def Request.source? : Request → Option Source
  | register _ => none
  | credit _ source | rebase source _ => some source

namespace Quorum

variable {q : Quorum} {source : Source} {low high offset cell : Nat} {sources : Finset Source}
variable {r : Request} {requests : List Request}

/-! ### Requests -/

/-- Does what is asked; gives the offsets that became durable. A registered write has a new cell. -/
def serve (q : Quorum) : Request → Quorum × List Nat
  | .register offset => ((q.track offset).1, [])
  | .credit offset source => q.credit offset source
  | .rebase source offset => q.rebase source offset

/-- The count of copies after some requests. -/
def serveAll (q : Quorum) (requests : List Request) : Quorum :=
  requests.foldl (fun q r => (q.serve r).1) q

/-- The offsets that became durable in some requests, one request after the other. -/
def returned (q : Quorum) : List Request → List Nat
  | [] => []
  | r :: later => (q.serve r).2 ++ (q.serve r).1.returned later

/-- The source that a request counts for the write at an offset, if it counts one: a credit counts its
source above what the source was credited with before, a rebase counts it from the first offset on. -/
def backing (q : Quorum) (offset : Nat) : Request → Finset Source
  | .register _ => ∅
  | .credit reached source =>
    if q.watermark source < offset ∧ offset ≤ reached then {source} else ∅
  | .rebase source reached => if 1 ≤ offset ∧ offset ≤ reached then {source} else ∅

/-- The sources that some requests count for the write at an offset. -/
def backers (q : Quorum) (offset : Nat) : List Request → Finset Source
  | [] => ∅
  | r :: later => q.backing offset r ∪ (q.serve r).1.backers offset later

theorem serveAll_append (q : Quorum) (earlier later : List Request) :
    q.serveAll (earlier ++ later) = (q.serveAll earlier).serveAll later := List.foldl_append

theorem backers_append (q : Quorum) (offset : Nat) (earlier later : List Request) :
    q.backers offset (earlier ++ later) =
      q.backers offset earlier ∪ (q.serveAll earlier).backers offset later := by
  induction earlier generalizing q with
  | nil => exact (Finset.empty_union _).symm
  | cons r earlier ih =>
    simp only [List.cons_append, backers, ih, Finset.union_assoc]
    rfl

/-- Whoever is counted was counted by one of the requests. -/
theorem mem_backers : source ∈ q.backers offset requests ↔ ∃ earlier r later,
    requests = earlier ++ r :: later ∧ source ∈ (q.serveAll earlier).backing offset r := by
  induction requests generalizing q with
  | nil => simp [backers]
  | cons r rest ih =>
    rw [backers, Finset.mem_union, ih]
    constructor
    · rintro (now | ⟨earlier, r', later, rfl, counted⟩)
      · exact ⟨[], r, rest, rfl, now⟩
      · exact ⟨r :: earlier, r', later, rfl, counted⟩
    · rintro ⟨earlier, r', later, split, counted⟩
      cases earlier with
      | nil =>
        cases split
        exact .inl counted
      | cons first earlier =>
        cases split
        exact .inr ⟨earlier, r', later, rfl, counted⟩

/-! ### What a credit does to one write -/

/-- The source of a credit for a range of offsets, if the range covers an offset. -/
def within (low high : Nat) (source : Source) (offset : Nat) : Finset Source :=
  if low ≤ offset ∧ offset ≤ high then {source} else ∅

theorem sources_creditWithin (w : PendingWrite) :
    (w.creditWithin low high source).sources.toFinset =
      w.sources.toFinset ∪ within low high source w.offset := by
  ext s
  rw [List.mem_toFinset, PendingWrite.mem_creditWithin, Finset.mem_union, List.mem_toFinset, within]
  by_cases covered : low ≤ w.offset ∧ w.offset ≤ high <;> simp [covered]

/-- A write waits while it has too few sources. -/
theorem Orderly.few (orderly : q.Orderly) {w : PendingWrite} (waits : w ∈ q.pending) :
    w.sources.toFinset.card < q.required := by
  obtain ⟨distinct, few⟩ := orderly.sources w waits
  rwa [List.toFinset_card_of_nodup distinct]

/-- A credit completes a write if with its source there are enough. -/
theorem completes_iff_card (orderly : q.Orderly) {w : PendingWrite} (waits : w ∈ q.pending) :
    q.completes low high source w ↔
      q.required ≤ (w.sources.toFinset ∪ within low high source w.offset).card := by
  obtain ⟨distinct, few⟩ := orderly.sources w waits
  have count : w.sources.toFinset.card = w.sources.length := List.toFinset_card_of_nodup distinct
  rw [completes_iff, within]
  by_cases covered : low ≤ w.offset ∧ w.offset ≤ high
  · rw [if_pos covered]
    by_cases counted : source ∈ w.sources
    · have same : w.sources.toFinset ∪ {source} = w.sources.toFinset := by simpa using counted
      rw [same, count]
      simp [counted, few]
    · have more : (w.sources.toFinset ∪ {source}).card = w.sources.length + 1 := by
        rw [Finset.union_comm, Finset.singleton_union, Finset.card_insert_of_notMem (by simpa), count]
      rw [more]
      simp [covered, counted]
  · rw [if_neg covered, Finset.union_empty, count]
    constructor
    · exact fun complete => absurd ⟨complete.1, complete.2.1⟩ covered
    · exact fun enough => absurd few (Nat.not_lt.mpr enough)

theorem mem_returned_creditRange : offset ∈ (q.creditRange low high source).2 ↔
    ∃ w ∈ q.pending, q.completes low high source w ∧ w.offset = offset := by
  simp [creditRange, and_assoc]

theorem ascending_creditRange (orderly : q.Orderly) :
    (q.creditRange low high source).2.Pairwise (· < ·) :=
  List.pairwise_map.mpr (orderly.ascending.filter _)

theorem orderly_setWatermark (orderly : q.Orderly) : (q.setWatermark source offset).Orderly :=
  ⟨orderly.needs, orderly.ascending, orderly.opened, orderly.sources⟩

/-- A request registers a write, or it is no news, or it credits its source with a range of offsets and
notes how far that goes. -/
theorem serve_cases (q : Quorum) (r : Request) :
    (∃ offset, r = .register offset) ∨
    (q.serve r = (q, []) ∧ ∀ offset, q.backing offset r = ∅) ∨
    ∃ source low high, r.source? = some source ∧
      q.serve r = (q.setWatermark source high).creditRange low high source ∧
      ∀ offset, q.backing offset r = within low high source offset := by
  cases r with
  | register offset => exact .inl ⟨offset, rfl⟩
  | credit reached source =>
    by_cases known : reached ≤ q.watermark source
    · refine .inr (.inl ⟨if_pos known, fun offset => if_neg fun covered => ?_⟩)
      omega
    · exact .inr (.inr ⟨source, q.watermark source + 1, reached, rfl, if_neg known, fun _ => rfl⟩)
  | rebase source reached =>
    exact .inr (.inr ⟨source, 1, reached, rfl, rfl, fun _ => rfl⟩)

theorem Orderly.serve (orderly : q.Orderly) (r : Request) : (q.serve r).1.Orderly := by
  rcases serve_cases q r with ⟨offset, rfl⟩ | ⟨same, -⟩ | ⟨source, low, high, -, same, -⟩
  · exact orderly_track orderly offset
  · rw [same]
    exact orderly
  · rw [same]
    exact orderly_creditRange (orderly_setWatermark orderly)

theorem Orderly.serveAll (orderly : q.Orderly) (requests : List Request) :
    (q.serveAll requests).Orderly := by
  induction requests generalizing q with
  | nil => exact orderly
  | cons r later ih => exact ih (orderly.serve r)

theorem orderly_ofCopies (copies : UInt32) : (ofCopies copies).Orderly :=
  (consistent_ofCopies copies).orderly

/-- As many copies are asked for as before, and what is durable stays so. -/
theorem keeps_serve (q : Quorum) (r : Request) : q.Keeps (q.serve r).1 := by
  cases r with
  | register offset => exact keeps_track q offset
  | credit reached source => exact credit_grants.toKeeps
  | rebase source reached => exact rebase_grants.toKeeps

theorem keeps_serveAll (q : Quorum) (requests : List Request) : q.Keeps (q.serveAll requests) := by
  induction requests generalizing q with
  | nil => exact .refl q
  | cons r later ih => exact (keeps_serve q r).trans (ih _)

theorem Keeps.durable {q' : Quorum} (keeps : q.Keeps q') (durable : q.board.state cell = .durable) :
    q'.board.state cell = .durable := by
  unfold Board.state at durable ⊢
  cases found : q.board.cells[cell]? with
  | none => simp [found] at durable
  | some c =>
    obtain ⟨c', kept, -, stays⟩ := keeps.cells cell c found
    rw [kept]
    exact stays (by simpa [found] using durable)

/-! ### How it stands with a write -/

/-- The write at an offset, whose outcome goes to a cell, waits with exactly these sources, or they are
enough and it is durable. -/
inductive Stands (offset cell : Nat) (sources : Finset Source) (q : Quorum) : Prop
  | waiting {w : PendingWrite} (held : w ∈ q.pending) (here : w.offset = offset)
      (told : w.cell = cell) (counted : w.sources.toFinset = sources)
  | settled (enough : q.required ≤ sources.card) (gone : ∀ w ∈ q.pending, w.offset ≠ offset)
      (durable : q.board.state cell = .durable)

/-- A credit counts its source for the write if it covers the offset, and gives the offset back if that
makes them enough. -/
theorem Stands.creditRange (orderly : q.Orderly) (stands : q.Stands offset cell sources) :
    (q.creditRange low high source).1.Stands offset cell
        (sources ∪ within low high source offset) ∧
      (offset ∈ (q.creditRange low high source).2 ↔ sources.card < q.required ∧
        q.required ≤ (sources ∪ within low high source offset).card) := by
  have grants : Grants source _ q (q.creditRange low high source).1 := creditRange_grants
  cases stands with
  | settled enough gone durable =>
    have still : q.required ≤ (sources ∪ within low high source offset).card :=
      enough.trans (Finset.card_le_card Finset.subset_union_left)
    refine ⟨.settled still (fun v held => ?_) (grants.toKeeps.durable durable), ?_, ?_⟩
    · obtain ⟨w, waited, same, -⟩ := grants.waited v held
      exact same ▸ gone w waited
    · intro given
      obtain ⟨w, waited, -, here⟩ := mem_returned_creditRange.mp given
      exact absurd here (gone w waited)
    · exact fun few => absurd enough (Nat.not_le.mpr few.1)
  | @waiting w held here told counted =>
    have few : sources.card < q.required := counted ▸ orderly.few held
    have complete : q.completes low high source w ↔ _ := completes_iff_card orderly held
    rw [counted, here] at complete
    rw [← complete]
    by_cases done : q.completes low high source w
    · refine ⟨.settled (complete.mp done) (fun v waiting same => ?_) ?_, ?_⟩
      · obtain ⟨u, waited, incomplete, rfl⟩ := mem_creditRange.mp waiting
        rw [PendingWrite.offset_creditWithin, ← here] at same
        exact incomplete (orderly.offset_unique held waited same.symm ▸ done)
      · have touched : cell ∈ (q.pending.filter (q.completes low high source)).map PendingWrite.cell :=
          List.mem_map.mpr ⟨w, List.mem_filter.mpr ⟨held, done⟩, told⟩
        rw [Board.state, cells_creditRange, if_pos touched, ← told, orderly.opened w held]
        rfl
      · exact iff_of_true (mem_returned_creditRange.mpr ⟨w, held, done, here⟩) ⟨few, done⟩
    · refine ⟨.waiting (mem_creditRange.mpr ⟨w, held, done, rfl⟩) ?_ ?_ ?_, ?_⟩
      · rw [PendingWrite.offset_creditWithin, here]
      · rw [PendingWrite.cell_creditWithin, told]
      · rw [sources_creditWithin, counted, here]
      · refine iff_of_false (fun given => ?_) fun both => done both.2
        obtain ⟨u, waited, completed, same⟩ := mem_returned_creditRange.mp given
        exact done (orderly.offset_unique held waited (here.trans same.symm) ▸ completed)

/-- Another write that is registered changes nothing for this one. -/
theorem Stands.track (orderly : q.Orderly) (stands : q.Stands offset cell sources) {other : Nat}
    (apart : other ≠ offset) : (q.track other).1.Stands offset cell sources := by
  cases stands with
  | waiting held here told counted =>
    refine .waiting ((mem_track orderly).mpr (.inr ⟨held, ?_⟩)) here told counted
    exact fun same => apart (same.symm.trans here)
  | settled enough gone durable =>
    refine .settled enough (fun v held => ?_) ((keeps_track q other).durable durable)
    rcases (mem_track orderly).mp held with rfl | ⟨waited, -⟩
    · exact apart
    · exact gone v waited

/-- A write that is registered waits without a source. -/
theorem stands_track (orderly : q.Orderly) (offset : Nat) :
    (q.track offset).1.Stands offset q.board.size ∅ :=
  .waiting ((mem_track orderly).mpr (.inl rfl)) rfl rfl rfl

/-- A request that does not register the write again counts its source, if it covers the offset. -/
theorem Stands.serve (orderly : q.Orderly) (stands : q.Stands offset cell sources)
    (other : r ≠ .register offset) :
    (q.serve r).1.Stands offset cell (sources ∪ q.backing offset r) ∧
      (offset ∈ (q.serve r).2 ↔ sources.card < q.required ∧
        q.required ≤ (sources ∪ q.backing offset r).card) := by
  have idle (given : List Nat) (none : given = []) : offset ∈ given ↔
      sources.card < q.required ∧ q.required ≤ (sources ∪ ∅).card := by
    rw [none, Finset.union_empty]
    exact iff_of_false List.not_mem_nil fun both => absurd both.2 (Nat.not_le.mpr both.1)
  rcases serve_cases q r with ⟨_, rfl⟩ | ⟨same, nobody⟩ | ⟨source, low, high, -, same, covered⟩
  · refine ⟨?_, idle _ rfl⟩
    rw [backing, Finset.union_empty]
    exact stands.track orderly fun here => other (congrArg _ here)
  · rw [same, nobody]
    refine ⟨?_, idle _ rfl⟩
    rw [Finset.union_empty]
    exact stands
  · rw [same, covered offset]
    have marked : (q.setWatermark source high).Stands offset cell sources := by
      cases stands with
      | waiting held here told counted => exact .waiting held here told counted
      | settled enough gone durable => exact .settled enough gone durable
    exact marked.creditRange (orderly_setWatermark orderly)

theorem Stands.serveAll (orderly : q.Orderly) (stands : q.Stands offset cell sources)
    (latest : .register offset ∉ requests) :
    (q.serveAll requests).Stands offset cell (sources ∪ q.backers offset requests) := by
  induction requests generalizing q sources with
  | nil =>
    rw [backers, Finset.union_empty]
    exact stands
  | cons r later ih =>
    obtain ⟨other, latest⟩ := not_or.mp (mt List.mem_cons.mpr latest)
    have now := (stands.serve orderly (Ne.symm other)).1
    rw [backers, ← Finset.union_assoc]
    exact ih (orderly.serve r) now latest

/-! ### Writes that nobody waits for any more -/

/-- The outcome of a cell that belongs to no waiting write is settled one way or the other, and no
request gives the cell to another write. -/
theorem forsaken_serve (inside : cell < q.board.size) (alone : ∀ w ∈ q.pending, w.cell ≠ cell)
    (orderly : q.Orderly) (r : Request) :
    (q.serve r).1.board.state cell = q.board.state cell ∧
      ∀ w ∈ (q.serve r).1.pending, w.cell ≠ cell := by
  rcases serve_cases q r with ⟨offset, rfl⟩ | ⟨same, -⟩ | ⟨source, low, high, -, same, -⟩
  · have pushed : (q.board.push (.opened (some offset))).cells[cell]? = q.board.cells[cell]? := by
      rw [Board.cells_push, if_neg (Nat.ne_of_lt inside)]
    refine ⟨?_, fun v held => ?_⟩
    · rcases board_track q offset with board | ⟨w, replaced, -, board⟩
      · rw [Board.state, serve, board, pushed, Board.state]
      · rw [Board.state, serve, board, Board.cells_release, if_neg (alone w replaced), pushed,
          Board.state]
    · rcases (mem_track orderly).mp held with rfl | ⟨waited, -⟩
      · exact Nat.ne_of_gt inside
      · exact alone v waited
  · rw [same]
    exact ⟨rfl, alone⟩
  · rw [same]
    refine ⟨?_, fun v held => ?_⟩
    · rw [Board.state, cells_creditRange, if_neg]
      · rfl
      · intro touched
        obtain ⟨w, done, here⟩ := List.mem_map.mp touched
        exact alone w (List.mem_filter.mp done).1 here
    · obtain ⟨w, waited, -, rfl⟩ := mem_creditRange.mp held
      rw [PendingWrite.cell_creditWithin]
      exact alone w waited

theorem forsaken_serveAll (inside : cell < q.board.size) (alone : ∀ w ∈ q.pending, w.cell ≠ cell)
    (orderly : q.Orderly) (requests : List Request) :
    (q.serveAll requests).board.state cell = q.board.state cell := by
  induction requests generalizing q with
  | nil => rfl
  | cons r later ih =>
    obtain ⟨same, alone'⟩ := forsaken_serve inside alone orderly r
    exact (ih ((keeps_serve q r).inside inside) alone' (orderly.serve r)).trans same

/-- A write whose place another one takes stays pending for good. -/
theorem replaced_pending (orderly : q.Orderly) {w : PendingWrite} (held : w ∈ q.pending)
    (later : List Request) :
    (q.serveAll (.register w.offset :: later)).board.state w.cell = .pending := by
  have inside := orderly.inside held
  have alone : ∀ v ∈ (q.track w.offset).1.pending, v.cell ≠ w.cell := by
    intro v waiting
    rcases (mem_track orderly).mp waiting with rfl | ⟨waited, apart⟩
    · exact Nat.ne_of_gt inside
    · exact fun same => apart (congrArg PendingWrite.offset (orderly.cell_unique waited held same))
  have opened : (q.track w.offset).1.board.state w.cell = .pending := by
    have pushed : (q.board.push (.opened (some w.offset))).cells[w.cell]? =
        some (.opened (some w.offset)) := by
      rw [Board.cells_push, if_neg (Nat.ne_of_lt inside)]
      exact orderly.opened w held
    rcases board_track q w.offset with board | ⟨u, -, -, board⟩
    · rw [Board.state, board, pushed]
      rfl
    · rw [Board.state, board, Board.cells_release, pushed]
      split <;> rfl
  have moved := (keeps_track q w.offset).inside inside
  exact (forsaken_serveAll moved alone (orderly_track orderly w.offset) later).trans opened

/-! ### What is given back -/

/-- What is asked for and given by sources alone: every write that waited waits on with its cell or its
offset is given back, each that is given back is counted, and its cell alone is settled. -/
structure Yields (before after : Quorum) (given : List Nat) : Prop where
  required : after.required = before.required
  waited : ∀ v ∈ after.pending, ∃ w ∈ before.pending, w.offset = v.offset ∧ w.cell = v.cell
  divided : (given ++ after.pendingOffsets).Perm before.pendingOffsets
  resolved : after.resolved = before.resolved + given.length
  cells : ∀ i : Nat, after.board.cells[i]? =
    if i ∈ before.pending.map PendingWrite.cell ∧ i ∉ after.pending.map PendingWrite.cell then
      (before.board.cells[i]?).map Cell.fulfilled
    else before.board.cells[i]?

theorem Yields.refl (q : Quorum) : q.Yields q [] where
  required := rfl
  waited v held := ⟨v, held, rfl, rfl⟩
  divided := .refl _
  resolved := rfl
  cells i := by simp

/-- A cell of a write that waits is one of a write that waited. -/
theorem Yields.cell_of {before after : Quorum} {given : List Nat} (yields : before.Yields after given)
    {i : Nat} (waits : i ∈ after.pending.map PendingWrite.cell) :
    i ∈ before.pending.map PendingWrite.cell := by
  obtain ⟨v, held, rfl⟩ := List.mem_map.mp waits
  obtain ⟨w, waited, -, same⟩ := yields.waited v held
  exact List.mem_map.mpr ⟨w, waited, same⟩

theorem Yields.trans {q' q'' : Quorum} {first second : List Nat} (one : q.Yields q' first)
    (two : q'.Yields q'' second) : q.Yields q'' (first ++ second) where
  required := two.required.trans one.required
  waited v held := by
    obtain ⟨u, between, offset, cell⟩ := two.waited v held
    obtain ⟨w, waited, offset', cell'⟩ := one.waited u between
    exact ⟨w, waited, offset'.trans offset, cell'.trans cell⟩
  divided := by
    rw [List.append_assoc]
    exact (two.divided.append_left first).trans one.divided
  resolved := by rw [two.resolved, one.resolved, List.length_append, Nat.add_assoc]
  cells i := by
    rw [two.cells, one.cells]
    by_cases before : i ∈ q.pending.map PendingWrite.cell
    · by_cases between : i ∈ q'.pending.map PendingWrite.cell
      · simp only [before, between, true_and, not_true, if_false]
      · have after : i ∉ q''.pending.map PendingWrite.cell := mt two.cell_of between
        simp only [before, between, after, true_and, false_and, not_false_eq_true, if_true, if_false]
    · have between : i ∉ q'.pending.map PendingWrite.cell := mt one.cell_of before
      simp only [before, between, false_and, if_false]

theorem yields_creditRange (orderly : q.Orderly) :
    q.Yields (q.creditRange low high source).1 (q.creditRange low high source).2 where
  required := rfl
  waited v held := by
    obtain ⟨w, waited, -, rfl⟩ := mem_creditRange.mp held
    exact ⟨w, waited, by simp, by simp⟩
  divided := by
    have kept : (q.creditRange low high source).1.pendingOffsets =
        (q.pending.filter (!q.completes low high source ·)).map PendingWrite.offset := by
      refine (List.map_map ..).trans (List.map_congr_left fun w _ => ?_)
      exact PendingWrite.offset_creditWithin
    rw [kept]
    change (List.map PendingWrite.offset _ ++ _).Perm _
    rw [← List.map_append]
    exact (List.filter_append_perm _ q.pending).map _
  resolved := by simp [creditRange]
  cells i := by
    rw [cells_creditRange]
    refine if_congr ?_ rfl rfl
    constructor
    · intro touched
      obtain ⟨w, done, rfl⟩ := List.mem_map.mp touched
      obtain ⟨waited, complete⟩ := List.mem_filter.mp done
      refine ⟨List.mem_map_of_mem waited, fun stays => ?_⟩
      obtain ⟨v, held, same⟩ := List.mem_map.mp stays
      obtain ⟨u, before, incomplete, rfl⟩ := mem_creditRange.mp held
      rw [PendingWrite.cell_creditWithin] at same
      exact incomplete (orderly.cell_unique before waited same ▸ complete)
    · rintro ⟨waited, leaves⟩
      obtain ⟨w, held, rfl⟩ := List.mem_map.mp waited
      by_cases complete : q.completes low high source w
      · exact List.mem_map_of_mem (List.mem_filter.mpr ⟨held, complete⟩)
      · have stays := mem_creditRange.mpr ⟨w, held, complete, rfl⟩
        exact absurd (List.mem_map.mpr ⟨_, stays, PendingWrite.cell_creditWithin⟩) leaves

/-- A request of a source settles writes that waited and registers none. -/
theorem yields_serve (orderly : q.Orderly) (speaks : r.source? ≠ none) :
    q.Yields (q.serve r).1 (q.serve r).2 := by
  rcases serve_cases q r with ⟨offset, rfl⟩ | ⟨same, -⟩ | ⟨source, low, high, -, same, -⟩
  · exact absurd rfl speaks
  · rw [same]
    exact .refl q
  · rw [same]
    have marked : (q.setWatermark source high).Orderly := orderly_setWatermark orderly
    have yields : Yields _ ((q.setWatermark source high).creditRange low high source).1 _ :=
      yields_creditRange marked
    exact ⟨yields.required, yields.waited, yields.divided, yields.resolved, yields.cells⟩

theorem yields_serveAll (orderly : q.Orderly) (speak : ∀ r ∈ requests, r.source? ≠ none) :
    q.Yields (q.serveAll requests) (q.returned requests) := by
  induction requests generalizing q with
  | nil => exact .refl q
  | cons r later ih =>
    have now := yields_serve orderly (speak r List.mem_cons_self)
    exact now.trans (ih (orderly.serve r) fun r' member => speak r' (List.mem_cons_of_mem r member))

theorem resolved_serveAll (orderly : q.Orderly) (requests : List Request) :
    (q.serveAll requests).resolved = q.resolved + (q.returned requests).length := by
  induction requests generalizing q with
  | nil => rfl
  | cons r later ih =>
    have first : (q.serve r).1.resolved = q.resolved + (q.serve r).2.length := by
      by_cases speaks : r.source? = none
      · cases r with
        | register offset => rfl
        | credit | rebase => cases speaks
      · exact (yields_serve orderly speaks).resolved
    have rest := ih (orderly.serve r)
    rw [returned, List.length_append]
    exact rest.trans (by omega)

theorem ascending_serve (orderly : q.Orderly) (r : Request) :
    (q.serve r).2.Pairwise (· < ·) := by
  rcases serve_cases q r with ⟨offset, rfl⟩ | ⟨same, -⟩ | ⟨source, low, high, -, same, -⟩
  · exact .nil
  · rw [same]
    exact .nil
  · rw [same]
    exact ascending_creditRange (orderly_setWatermark orderly)

/-! ### The count and the sources -/

/-- How a registration, with its cell, fares in the requests behind it when its offset is not
registered again: the sources counted for it are those that vouched for it since, the write waits for
as long as they are fewer than required, the request with which they are enough gives the offset back,
and no other request does. -/
structure Exact (required offset : Nat) (registered : Quorum × Nat) (after : List Request) :
    Prop where
  counted : ∀ w ∈ (registered.1.serveAll after).pending, w.offset = offset →
    w.cell = registered.2 ∧ w.sources.Nodup ∧ ∀ s, s ∈ w.sources ↔
      ∃ earlier r later, after = earlier ++ r :: later ∧
        s ∈ (registered.1.serveAll earlier).backing offset r
  waits : offset ∈ (registered.1.serveAll after).pendingOffsets ↔
    (registered.1.backers offset after).card < required
  outcome : (registered.1.serveAll after).board.state registered.2 =
    if (registered.1.backers offset after).card < required then .pending else .durable
  returns : ∀ earlier r later, after = earlier ++ r :: later →
    (offset ∈ ((registered.1.serveAll earlier).serve r).2 ↔
      (registered.1.backers offset earlier).card < required ∧
        required ≤ (registered.1.backers offset (earlier ++ [r])).card)

theorem exact_track (orderly : q.Orderly) {after : List Request}
    (latest : .register offset ∉ after) : Exact q.required offset (q.track offset) after := by
  have behind := orderly_track orderly offset
  have required (l : List Request) : ((q.track offset).1.serveAll l).required = q.required :=
    (keeps_serveAll _ l).required
  have stands (l : List Request) (latest : .register offset ∉ l) :
      ((q.track offset).1.serveAll l).Stands offset (q.track offset).2
        ((q.track offset).1.backers offset l) := by
    have all := (stands_track orderly offset).serveAll behind latest
    rwa [Finset.empty_union] at all
  have ends := behind.serveAll after
  refine ⟨fun w held here => ?_, ?_, ?_, fun earlier r later split => ?_⟩
  · cases stands after latest with
    | @waiting v waits there told counted =>
      obtain rfl := ends.offset_unique held waits (here.trans there.symm)
      refine ⟨told, (ends.sources w held).1, fun s => ?_⟩
      rw [← mem_backers, ← counted, List.mem_toFinset]
    | settled enough gone durable => exact absurd here (gone w held)
  · cases stands after latest with
    | @waiting v waits there told counted =>
      have few := ends.few waits
      rw [required, counted] at few
      exact iff_of_true (List.mem_map.mpr ⟨v, waits, there⟩) few
    | settled enough gone durable =>
      rw [required] at enough
      refine iff_of_false (fun waits => ?_) (Nat.not_lt.mpr enough)
      obtain ⟨v, waits, there⟩ := List.mem_map.mp waits
      exact gone v waits there
  · cases stands after latest with
    | @waiting v waits there told counted =>
      have few := ends.few waits
      rw [required, counted] at few
      rw [if_pos few, ← told, Board.state, ends.opened v waits]
      rfl
    | settled enough gone durable =>
      rw [required] at enough
      rw [if_neg (Nat.not_lt.mpr enough), durable]
  · have part : .register offset ∉ earlier ++ [r] := by
      rw [split] at latest
      simp only [List.mem_append, List.mem_cons, List.not_mem_nil, or_false, not_or] at latest ⊢
      exact ⟨latest.1, latest.2.1⟩
    obtain ⟨fresh, other⟩ := not_or.mp (mt List.mem_append.mpr part)
    have step := ((stands earlier fresh).serve (behind.serveAll earlier)
      fun same => other (List.mem_singleton.mpr same.symm)).2
    rw [required] at step
    rw [step, backers_append, backers, backers, Finset.union_empty]

/-- After any requests, each waiting write is counted for by exactly the sources that vouched for its
offset since its last registration, it waits for as long as they are fewer than required, and one
request gives its offset back, the one with which they are enough. Each request gives its offsets in
ascending order, the offsets given back are counted one by one, and a write whose place another one
takes never becomes durable. -/
theorem counts_sources (factor : UInt32) (requests : List Request) :
    (∀ before offset after, requests = before ++ .register offset :: after →
      .register offset ∉ after →
      Exact (max factor.toNat 1) offset (((ofCopies factor).serveAll before).track offset) after) ∧
    (∀ r, (((ofCopies factor).serveAll requests).serve r).2.Pairwise (· < ·)) ∧
    ((ofCopies factor).serveAll requests).resolved =
      ((ofCopies factor).returned requests).length ∧
    ∀ w ∈ ((ofCopies factor).serveAll requests).pending, ∀ later,
      ((ofCopies factor).serveAll (requests ++ .register w.offset :: later)).board.state w.cell =
        .pending := by
  have orderly (l : List Request) : ((ofCopies factor).serveAll l).Orderly :=
    (orderly_ofCopies factor).serveAll l
  refine ⟨?_, ascending_serve (orderly requests), ?_, fun w held later => ?_⟩
  · intro before offset after _ latest
    have required : ((ofCopies factor).serveAll before).required = max factor.toNat 1 :=
      (keeps_serveAll _ before).required
    exact required ▸ exact_track (orderly before) latest
  · have total := resolved_serveAll (orderly_ofCopies factor) requests
    rwa [show (ofCopies factor).resolved = 0 from rfl, Nat.zero_add] at total
  · rw [serveAll_append]
    exact replaced_pending (orderly requests) held later

/-- An offset is registered again while the master already vouched for more: its next credit is no
news, its word counts it, and with the replica the two are enough. -/
theorem counts_registered_again :
    let before := [.credit 5 .master, .register 2, .rebase .master 1]
    let after := [.credit 5 .master, .credit 4 .master, .credit 3 (.replica "a")]
    let start := ((ofCopies 2).serveAll before).track 2
    Exact 2 2 start after ∧ start.1.backers 2 after = {.master, .replica "a"} ∧
      start.1.returned after = [2] ∧ start.1.board.state start.2 = .pending ∧
      (start.1.serveAll after).board.state start.2 = .durable :=
  ⟨(counts_sources 2 _).1 [.credit 5 .master, .register 2, .rebase .master 1] 2
    [.credit 5 .master, .credit 4 .master, .credit 3 (.replica "a")] rfl (by decide),
    by decide, by decide, rfl, rfl⟩

end Quorum

end QuorumLog
