import Mathlib.Data.Finset.Card
import Mathlib.Data.Finset.Preimage
import QuorumLog.Quorum

/-! What the count of copies keeps true. Every write with an offset is either durable or waits in just
one place, the sources of a waiting write are distinct and too few, and whoever is counted for a write
vouches for it. Crediting a range of offsets adds the source to the waiting writes in that range and
to no others. -/

namespace QuorumLog

/-! ### The board -/

/-- The cell of a write that became durable while it waited, with its promise given up. -/
def Cell.fulfilled (c : Cell) : Cell := (c.settle .durable).release

@[simp] theorem Cell.offset_fulfilled (c : Cell) : c.fulfilled.offset = c.offset :=
  c.offset_settle .durable

theorem Cell.fulfilled_fulfilled (c : Cell) : c.fulfilled.fulfilled = c.fulfilled := by
  unfold fulfilled settle release Durability.isPending
  by_cases pending : c.state = .pending <;> simp [pending]

theorem Cell.state_fulfilled_of_durable {c : Cell} (durable : c.state = .durable) :
    c.fulfilled.state = .durable := by
  simp [fulfilled, settle, durable, Durability.isPending]

namespace Board

theorem cells_push (b : Board) (c : Cell) (i : Nat) :
    (b.push c).cells[i]? = if i = b.size then some c else b.cells[i]? := by
  unfold push size
  rcases Nat.lt_trichotomy i b.cells.length with before | rfl | behind
  · rw [List.getElem?_append_left before, if_neg (by omega)]
  · simp
  · rw [if_neg (by omega), List.getElem?_eq_none (by simpa using Nat.succ_le_of_lt behind),
      List.getElem?_eq_none (by omega)]

theorem cells_release (b : Board) (write i : Nat) :
    (b.release write).cells[i]? =
      if write = i then (b.cells[i]?).map Cell.release else b.cells[i]? := by
  by_cases here : write = i <;> simp [release, here]

theorem cells_resolve_release (b : Board) (write i : Nat) :
    ((b.resolve write).release write).cells[i]? =
      if write = i then (b.cells[i]?).map Cell.fulfilled else b.cells[i]? := by
  simp only [release, resolve, settle, List.getElem?_modify]
  by_cases here : write = i
  · simp only [here, if_true, Option.map_eq_map, Option.map_map]
    rfl
  · simp [here]

/-- Settling some writes touches their cells and no others. -/
theorem cells_settled (done : List PendingWrite) (b : Board) (i : Nat) :
    (done.foldl (fun b w => (b.resolve w.cell).release w.cell) b).cells[i]? =
      if i ∈ done.map PendingWrite.cell then (b.cells[i]?).map Cell.fulfilled
      else b.cells[i]? := by
  induction done generalizing b with
  | nil => simp
  | cons w rest ih =>
    rw [List.foldl_cons, ih, cells_resolve_release]
    by_cases here : w.cell = i
    · by_cases later : i ∈ rest.map PendingWrite.cell
      · simp [here, later, Function.comp_def, Cell.fulfilled_fulfilled]
      · simp [here, later]
    · have mine : i ≠ w.cell := Ne.symm here
      simp [here, mine]

end Board

namespace Quorum

variable {q : Quorum} {source : Source} {low high offset : Nat}

/-! ### What is kept true -/

/-- The writes that wait are in order, each has an open cell and distinct sources, and none has
enough of them. -/
structure Orderly (q : Quorum) : Prop where
  needs : 1 ≤ q.required
  ascending : q.pending.Pairwise (·.offset < ·.offset)
  opened : ∀ w ∈ q.pending, q.board.cells[w.cell]? = some (.opened (some w.offset))
  sources : ∀ w ∈ q.pending, w.sources.Nodup ∧ w.sources.length < q.required

/-- The writes that wait and the board tell the same: a write has an open cell for as long as it
waits, and is durable otherwise. -/
structure Consistent (q : Quorum) : Prop where
  needs : 1 ≤ q.required
  ascending : q.pending.Pairwise (·.offset < ·.offset)
  opened : ∀ w ∈ q.pending, q.board.cells[w.cell]? = some (.opened (some w.offset))
  sources : ∀ w ∈ q.pending, w.sources.Nodup ∧ w.sources.length < q.required
  settled : ∀ (i : Nat) (c : Cell) (o : Nat), q.board.cells[i]? = some c → c.offset = some o →
    c.state = .durable ∨ ∃ w ∈ q.pending, w.cell = i ∧ w.offset = o

/-- Whoever is counted for a write vouches for its offset, and a durable write has as many distinct
sources as are required. -/
structure Vouched (vouches : Source → Nat → Prop) (q : Quorum) : Prop where
  pending : ∀ w ∈ q.pending, ∀ s ∈ w.sources, vouches s w.offset
  durable : ∀ (i : Nat) (c : Cell) (o : Nat), q.board.cells[i]? = some c → c.offset = some o →
    c.state = .durable → ∃ sources : List Source,
      sources.Nodup ∧ q.required ≤ sources.length ∧ ∀ s ∈ sources, vouches s o

/-- What a vouching source vouched for, it may vouch for in another sense. -/
theorem Vouched.mono {vouches vouches' : Source → Nat → Prop} (vouched : q.Vouched vouches)
    (more : ∀ s o, vouches s o → vouches' s o) : q.Vouched vouches' where
  pending w held s counted := more _ _ (vouched.pending w held s counted)
  durable i c o cell offset state := by
    obtain ⟨sources, distinct, enough, all⟩ := vouched.durable i c o cell offset state
    exact ⟨sources, distinct, enough, fun s counted => more _ _ (all s counted)⟩

theorem Consistent.orderly (consistent : q.Consistent) : q.Orderly :=
  ⟨consistent.needs, consistent.ascending, consistent.opened, consistent.sources⟩

/-- Two waiting writes at one offset are one. -/
theorem Orderly.offset_unique (orderly : q.Orderly) {w v : PendingWrite}
    (left : w ∈ q.pending) (right : v ∈ q.pending) (same : w.offset = v.offset) : w = v :=
  List.Pairwise.forall_of_forall_of_flip (R := fun w v => w.offset = v.offset → w = v)
    (fun _ _ _ => rfl)
    (orderly.ascending.imp fun below same => absurd same (Nat.ne_of_lt below))
    (orderly.ascending.imp fun below same => absurd same (Nat.ne_of_gt below))
    left right same

/-- Two waiting writes with one cell are one. -/
theorem Orderly.cell_unique (orderly : q.Orderly) {w v : PendingWrite}
    (left : w ∈ q.pending) (right : v ∈ q.pending) (same : w.cell = v.cell) : w = v := by
  have cell := orderly.opened w left
  rw [same, orderly.opened v right] at cell
  exact orderly.offset_unique left right (by simpa [Cell.opened] using cell.symm)

/-- A waiting write has a cell on the board. -/
theorem Orderly.inside (orderly : q.Orderly) {w : PendingWrite} (held : w ∈ q.pending) :
    w.cell < q.board.size :=
  (List.getElem?_eq_some_iff.mp (orderly.opened w held)).1

theorem Consistent.cell_unique (consistent : q.Consistent) {w v : PendingWrite}
    (left : w ∈ q.pending) (right : v ∈ q.pending) (same : w.cell = v.cell) : w = v :=
  consistent.orderly.cell_unique left right same

theorem Consistent.inside (consistent : q.Consistent) {w : PendingWrite} (held : w ∈ q.pending) :
    w.cell < q.board.size := consistent.orderly.inside held

theorem consistent_setWatermark (consistent : q.Consistent) :
    (q.setWatermark source offset).Consistent :=
  ⟨consistent.needs, consistent.ascending, consistent.opened, consistent.sources,
    consistent.settled⟩

theorem vouched_setWatermark {vouches : Source → Nat → Prop} (vouched : q.Vouched vouches) :
    (q.setWatermark source offset).Vouched vouches :=
  ⟨vouched.pending, vouched.durable⟩

theorem consistent_ofCopies (copies : UInt32) : (ofCopies copies).Consistent where
  needs := Nat.le_max_right ..
  ascending := .nil
  opened := by simp [ofCopies]
  sources := by simp [ofCopies]
  settled := by simp [ofCopies]

theorem vouched_ofCopies (copies : UInt32) (vouches : Source → Nat → Prop) :
    (ofCopies copies).Vouched vouches where
  pending := by simp [ofCopies]
  durable := by simp [ofCopies]

end Quorum

/-! ### Counting -/

/-- Distinct sources are the master at most and replicas. -/
theorem length_le_of_sources {sources : List Source} (distinct : sources.Nodup) {ids : Finset String}
    (all : ∀ id, .replica id ∈ sources → id ∈ ids) : sources.length ≤ ids.card + 1 := by
  have within : sources.toFinset ⊆ insert .master (ids.image .replica) := by
    intro s member
    cases s with
    | master => exact Finset.mem_insert_self ..
    | replica id =>
      have named := all id (List.mem_toFinset.mp member)
      exact Finset.mem_insert_of_mem (Finset.mem_image_of_mem _ named)
  calc sources.length
    _ = sources.toFinset.card := (List.toFinset_card_of_nodup distinct).symm
    _ ≤ (insert .master (ids.image .replica)).card := Finset.card_le_card within
    _ ≤ (ids.image Source.replica).card + 1 := Finset.card_insert_le ..
    _ ≤ ids.card + 1 := Nat.succ_le_succ Finset.card_image_le

/-- Distinct sources are the master at most and replicas, whose names can be counted. -/
theorem exists_names_of_sources {sources : List Source} (distinct : sources.Nodup) :
    ∃ ids : Finset String, sources.length ≤ ids.card + 1 ∧ ∀ id ∈ ids, .replica id ∈ sources := by
  refine ⟨sources.toFinset.preimage .replica fun _ _ _ _ same => Source.replica.inj same, ?_, ?_⟩
  · refine length_le_of_sources distinct fun id counted => ?_
    exact Finset.mem_preimage.mpr (List.mem_toFinset.mpr counted)
  · exact fun id named => List.mem_toFinset.mp (Finset.mem_preimage.mp named)

/-- The master and some replicas are as many sources. -/
theorem card_lt_of_sources {sources : List Source} (own : .master ∈ sources) {ids : Finset String}
    (all : ∀ id ∈ ids, .replica id ∈ sources) : ids.card < sources.length := by
  have within : insert .master (ids.image .replica) ⊆ sources.toFinset := by
    intro s member
    rcases Finset.mem_insert.mp member with rfl | named
    · exact List.mem_toFinset.mpr own
    · obtain ⟨id, counted, rfl⟩ := Finset.mem_image.mp named
      exact List.mem_toFinset.mpr (all id counted)
  calc ids.card + 1
    _ = (ids.image Source.replica).card + 1 := by
      rw [Finset.card_image_of_injective _ fun _ _ same => Source.replica.inj same]
    _ = (insert .master (ids.image .replica)).card :=
      (Finset.card_insert_of_notMem (by simp)).symm
    _ ≤ sources.toFinset.card := Finset.card_le_card within
    _ ≤ sources.length := List.toFinset_card_le _

/-! ### Crediting a range -/

namespace PendingWrite

variable {w : PendingWrite} {source s : Source} {low high : Nat}

@[simp] theorem offset_credit : (w.credit source).offset = w.offset := by
  unfold credit; split <;> rfl

@[simp] theorem cell_credit : (w.credit source).cell = w.cell := by
  unfold credit; split <;> rfl

theorem mem_credit : s ∈ (w.credit source).sources ↔ s ∈ w.sources ∨ s = source := by
  unfold credit
  split
  · rename_i counted
    exact ⟨Or.inl, fun either => either.elim id fun same => same ▸ counted⟩
  · simp

theorem nodup_credit (distinct : w.sources.Nodup) : (w.credit source).sources.Nodup := by
  unfold credit
  split
  · exact distinct
  · rename_i missing
    exact List.nodup_append.mpr ⟨distinct, by simp, by
      intro a counted b single
      rw [List.mem_singleton.mp single]
      exact fun same => missing (same ▸ counted)⟩

/-- Adds a source if the offset of the write is within a range. -/
def creditWithin (low high : Nat) (source : Source) (w : PendingWrite) : PendingWrite :=
  if low ≤ w.offset ∧ w.offset ≤ high then w.credit source else w

@[simp] theorem offset_creditWithin : (w.creditWithin low high source).offset = w.offset := by
  unfold creditWithin; split <;> simp

@[simp] theorem cell_creditWithin : (w.creditWithin low high source).cell = w.cell := by
  unfold creditWithin; split <;> simp

theorem mem_creditWithin : s ∈ (w.creditWithin low high source).sources ↔
    s ∈ w.sources ∨ s = source ∧ low ≤ w.offset ∧ w.offset ≤ high := by
  unfold creditWithin
  split
  · rename_i within
    simp [mem_credit, within]
  · rename_i outside
    simp [outside]

theorem nodup_creditWithin (distinct : w.sources.Nodup) :
    (w.creditWithin low high source).sources.Nodup := by
  unfold creditWithin
  split
  · exact nodup_credit distinct
  · exact distinct

end PendingWrite

namespace Quorum

variable {q : Quorum} {source : Source} {low high offset : Nat}

theorem completes_iff {w : PendingWrite} : q.completes low high source w ↔
    low ≤ w.offset ∧ w.offset ≤ high ∧ source ∉ w.sources ∧
      q.required ≤ w.sources.length + 1 := by
  simp [completes]

/-- What waits after a credit waited before and was not completed by it. -/
theorem mem_creditRange {v : PendingWrite} : v ∈ (q.creditRange low high source).1.pending ↔
    ∃ w ∈ q.pending, ¬q.completes low high source w ∧ w.creditWithin low high source = v := by
  simp [creditRange, PendingWrite.creditWithin, and_assoc]

/-- A credit touches the cells of the writes that it completes and no others. -/
theorem cells_creditRange (i : Nat) : (q.creditRange low high source).1.board.cells[i]? =
    if i ∈ (q.pending.filter (q.completes low high source)).map PendingWrite.cell then
      (q.board.cells[i]?).map Cell.fulfilled
    else q.board.cells[i]? :=
  Board.cells_settled ..

/-- A write that an incomplete credit leaves waiting still has too few sources. -/
private theorem few_creditWithin {w : PendingWrite} (few : w.sources.length < q.required)
    (incomplete : ¬q.completes low high source w) :
    (w.creditWithin low high source).sources.length < q.required := by
  rw [completes_iff] at incomplete
  unfold PendingWrite.creditWithin
  split
  · rename_i within
    unfold PendingWrite.credit
    split
    · exact few
    · rename_i missing
      have short : ¬q.required ≤ w.sources.length + 1 := fun enough =>
        incomplete ⟨within.1, within.2, missing, enough⟩
      simpa using short
  · exact few

theorem orderly_creditRange (orderly : q.Orderly) :
    (q.creditRange low high source).1.Orderly where
  needs := orderly.needs
  ascending := by
    refine List.pairwise_map.mpr ((orderly.ascending.filter _).imp ?_)
    intro w v below
    change (w.creditWithin low high source).offset < (v.creditWithin low high source).offset
    simpa using below
  opened v held := by
    obtain ⟨w, waited, incomplete, rfl⟩ := mem_creditRange.mp held
    rw [cells_creditRange, if_neg]
    · simpa using orderly.opened w waited
    · intro member
      obtain ⟨u, done, cell⟩ := List.mem_map.mp member
      obtain ⟨waiting, complete⟩ := List.mem_filter.mp done
      rw [PendingWrite.cell_creditWithin] at cell
      exact incomplete (orderly.cell_unique waiting waited cell ▸ complete)
  sources v held := by
    obtain ⟨w, waited, incomplete, rfl⟩ := mem_creditRange.mp held
    obtain ⟨distinct, few⟩ := orderly.sources w waited
    exact ⟨PendingWrite.nodup_creditWithin distinct, few_creditWithin few incomplete⟩

theorem consistent_creditRange (consistent : q.Consistent) :
    (q.creditRange low high source).1.Consistent where
  needs := (orderly_creditRange consistent.orderly).needs
  ascending := (orderly_creditRange consistent.orderly).ascending
  opened := (orderly_creditRange consistent.orderly).opened
  sources := (orderly_creditRange consistent.orderly).sources
  settled i c o cell written := by
    rw [cells_creditRange] at cell
    split at cell
    · rename_i member
      obtain ⟨w, done, rfl⟩ := List.mem_map.mp member
      rw [consistent.opened w (List.mem_filter.mp done).1] at cell
      cases cell
      exact .inl rfl
    · rename_i untouched
      rcases consistent.settled i c o cell written with durable | ⟨w, waited, rfl, rfl⟩
      · exact .inl durable
      · have incomplete : ¬q.completes low high source w := fun complete =>
          untouched (List.mem_map_of_mem (List.mem_filter.mpr ⟨waited, complete⟩))
        exact .inr ⟨_, mem_creditRange.mpr ⟨w, waited, incomplete, rfl⟩, by simp, by simp⟩

theorem vouched_creditRange {vouches : Source → Nat → Prop} (consistent : q.Consistent)
    (vouched : q.Vouched vouches) (granted : ∀ o, low ≤ o → o ≤ high → vouches source o) :
    (q.creditRange low high source).1.Vouched vouches where
  pending v held s counted := by
    obtain ⟨w, waited, -, rfl⟩ := mem_creditRange.mp held
    rw [PendingWrite.offset_creditWithin]
    rcases PendingWrite.mem_creditWithin.mp counted with before | ⟨rfl, above, below⟩
    · exact vouched.pending w waited s before
    · exact granted _ above below
  durable i c o cell written durable := by
    rw [cells_creditRange] at cell
    split at cell
    · rename_i member
      obtain ⟨w, done, rfl⟩ := List.mem_map.mp member
      obtain ⟨waited, complete⟩ := List.mem_filter.mp done
      rw [consistent.opened w waited] at cell
      cases cell
      cases written
      obtain ⟨above, below, missing, enough⟩ := completes_iff.mp complete
      refine ⟨source :: w.sources,
        List.nodup_cons.mpr ⟨missing, (consistent.sources w waited).1⟩, enough, ?_⟩
      intro s member
      rcases List.mem_cons.mp member with rfl | counted
      · exact granted _ above below
      · exact vouched.pending w waited s counted
    · exact vouched.durable i c o cell written durable

/-! ### Credit and rebase -/

/-- As many copies are asked for, and the board keeps its cells with their offsets and with what is
durable already. -/
structure Keeps (before after : Quorum) : Prop where
  required : after.required = before.required
  cells : ∀ (i : Nat) (c : Cell), before.board.cells[i]? = some c →
    ∃ c', after.board.cells[i]? = some c' ∧ c'.offset = c.offset ∧
      (c.state = .durable → c'.state = .durable)

theorem Keeps.refl (q : Quorum) : Keeps q q := ⟨rfl, fun _ c cell => ⟨c, cell, rfl, id⟩⟩

theorem Keeps.trans {q' q'' : Quorum} (first : Keeps q q') (second : Keeps q' q'') :
    Keeps q q'' where
  required := second.required.trans first.required
  cells i c cell := by
    obtain ⟨c', cell', offset, durable⟩ := first.cells i c cell
    obtain ⟨c'', cell'', offset', durable'⟩ := second.cells i c' cell'
    exact ⟨c'', cell'', offset'.trans offset, durable' ∘ durable⟩

/-- A place with a cell keeps one, so no cell goes. -/
theorem Keeps.inside {q' : Quorum} (keeps : Keeps q q') {i : Nat} (within : i < q.board.size) :
    i < q'.board.size := by
  obtain ⟨c', cell', -⟩ := keeps.cells i _ (List.getElem?_eq_getElem within)
  exact (List.getElem?_eq_some_iff.mp cell').1

/-- What a credit does to the writes: those in a range get the source. -/
structure Grants (source : Source) (within : Nat → Prop) (before after : Quorum) : Prop
    extends Keeps before after where
  waited : ∀ v ∈ after.pending, ∃ w ∈ before.pending, w.offset = v.offset ∧ w.cell = v.cell ∧
    ∀ s, s ∈ v.sources ↔ s ∈ w.sources ∨ s = source ∧ within v.offset

theorem creditRange_grants : Grants source (fun o => low ≤ o ∧ o ≤ high) q
    (q.creditRange low high source).1 where
  required := rfl
  waited v held := by
    obtain ⟨w, waited, -, rfl⟩ := mem_creditRange.mp held
    exact ⟨w, waited, by simp, by simp, fun s => by simp [PendingWrite.mem_creditWithin]⟩
  cells i c cell := by
    rw [cells_creditRange, cell]
    split
    · exact ⟨c.fulfilled, rfl, c.offset_fulfilled, Cell.state_fulfilled_of_durable⟩
    · exact ⟨c, rfl, rfl, id⟩

/-- A credit is one for the offsets above what the source was credited with before. -/
theorem credit_cases (q : Quorum) (offset : Nat) (source : Source) :
    (offset ≤ q.watermark source ∧ (q.credit offset source).1 = q) ∨
      (q.watermark source < offset ∧ (q.credit offset source).1 =
        ((q.setWatermark source offset).creditRange (q.watermark source + 1) offset source).1) := by
  unfold credit
  split
  · rename_i known
    exact .inl ⟨known, rfl⟩
  · rename_i news
    exact .inr ⟨Nat.lt_of_not_le news, rfl⟩

theorem credit_grants : Grants source (fun o => q.watermark source < o ∧ o ≤ offset) q
    (q.credit offset source).1 := by
  rcases credit_cases q offset source with ⟨known, same⟩ | ⟨-, granted⟩
  · rw [same]
    refine ⟨.refl q, fun v held => ⟨v, held, rfl, rfl, fun s => ?_⟩⟩
    have none : ¬(q.watermark source < v.offset ∧ v.offset ≤ offset) := by omega
    simp [none]
  · rw [granted]
    exact ⟨⟨creditRange_grants.required, creditRange_grants.cells⟩, creditRange_grants.waited⟩

theorem rebase_grants : Grants source (fun o => 1 ≤ o ∧ o ≤ offset) q
    (q.rebase source offset).1 :=
  ⟨⟨creditRange_grants.required, creditRange_grants.cells⟩, creditRange_grants.waited⟩

theorem watermark_credit (q : Quorum) (offset : Nat) (source other : Source) :
    (q.credit offset source).1.watermark other =
      if other = source then max (q.watermark source) offset else q.watermark other := by
  rcases credit_cases q offset source with ⟨known, same⟩ | ⟨news, granted⟩
  · rw [same]
    split
    · rename_i mine
      rw [mine, Nat.max_eq_left known]
    · rfl
  · rw [granted, Nat.max_eq_right (Nat.le_of_lt news)]
    exact watermark_setWatermark q source other offset

theorem watermark_rebase (q : Quorum) (offset : Nat) (source other : Source) :
    (q.rebase source offset).1.watermark other =
      if other = source then offset else q.watermark other :=
  watermark_setWatermark q source other offset

theorem consistent_credit (consistent : q.Consistent) : (q.credit offset source).1.Consistent := by
  rcases credit_cases q offset source with ⟨-, same⟩ | ⟨-, granted⟩
  · rwa [same]
  · rw [granted]
    exact consistent_creditRange (consistent_setWatermark consistent)

theorem consistent_rebase (consistent : q.Consistent) : (q.rebase source offset).1.Consistent :=
  consistent_creditRange (consistent_setWatermark consistent)

section Vouched

variable {vouches : Source → Nat → Prop}

theorem vouched_credit (consistent : q.Consistent) (vouched : q.Vouched vouches)
    (granted : ∀ o ≤ offset, vouches source o) : (q.credit offset source).1.Vouched vouches := by
  rcases credit_cases q offset source with ⟨-, same⟩ | ⟨-, range⟩
  · rwa [same]
  · rw [range]
    exact vouched_creditRange (consistent_setWatermark consistent) (vouched_setWatermark vouched)
      fun o _ below => granted o below

theorem vouched_rebase (consistent : q.Consistent) (vouched : q.Vouched vouches)
    (granted : ∀ o ≤ offset, vouches source o) : (q.rebase source offset).1.Vouched vouches :=
  vouched_creditRange (consistent_setWatermark consistent) (vouched_setWatermark vouched)
    fun o _ below => granted o below

end Vouched

/-! ### New writes -/

/-- A new write takes the place of one at the same offset and leaves the others. -/
theorem mem_insertWrite {w v : PendingWrite} {l : List PendingWrite}
    (ascending : l.Pairwise (·.offset < ·.offset)) :
    v ∈ insertWrite w l ↔ v = w ∨ v ∈ l ∧ v.offset ≠ w.offset := by
  induction l with
  | nil => simp [insertWrite]
  | cons u rest ih =>
    obtain ⟨above, ascending⟩ := List.pairwise_cons.mp ascending
    unfold insertWrite
    split
    · rename_i front
      have apart : ∀ x ∈ u :: rest, x.offset ≠ w.offset := by
        intro x member
        rcases List.mem_cons.mp member with rfl | later
        · omega
        · have higher := above x later
          omega
      rw [List.mem_cons]
      exact or_congr_right ⟨fun member => ⟨member, apart v member⟩, And.left⟩
    split
    · rename_i same
      have apart : ∀ x ∈ rest, x.offset ≠ w.offset := fun x later => by
        have higher := above x later
        omega
      have replaced : v = u → v.offset = w.offset := fun here => here ▸ same.symm
      constructor
      · intro member
        rcases List.mem_cons.mp member with new | later
        · exact .inl new
        · exact .inr ⟨List.mem_cons_of_mem u later, apart v later⟩
      · rintro (new | ⟨member, other⟩)
        · exact new ▸ List.mem_cons_self
        · rcases List.mem_cons.mp member with here | later
          · exact absurd (replaced here) other
          · exact List.mem_cons_of_mem w later
    · rename_i behind
      rw [List.mem_cons, ih ascending, List.mem_cons]
      constructor
      · rintro (rfl | new | ⟨later, other⟩)
        · exact .inr ⟨.inl rfl, by omega⟩
        · exact .inl new
        · exact .inr ⟨.inr later, other⟩
      · rintro (new | ⟨here | later, other⟩)
        · exact .inr (.inl new)
        · exact .inl here
        · exact .inr (.inr ⟨later, other⟩)

theorem ascending_insertWrite {w : PendingWrite} {l : List PendingWrite}
    (ascending : l.Pairwise (·.offset < ·.offset)) :
    (insertWrite w l).Pairwise (·.offset < ·.offset) := by
  induction l with
  | nil => exact List.pairwise_singleton ..
  | cons u rest ih =>
    obtain ⟨above, later⟩ := List.pairwise_cons.mp ascending
    unfold insertWrite
    split
    · rename_i front
      refine List.pairwise_cons.mpr ⟨fun x member => ?_, ascending⟩
      rcases List.mem_cons.mp member with rfl | member
      · exact front
      · exact Nat.lt_trans front (above x member)
    split
    · rename_i same
      exact List.pairwise_cons.mpr ⟨fun x member => same ▸ above x member, later⟩
    · refine List.pairwise_cons.mpr ⟨fun x member => ?_, ih later⟩
      rcases (mem_insertWrite later).mp member with rfl | ⟨member, -⟩
      · omega
      · exact above x member

/-- A new write has a new cell, and the promise of a write whose place it takes is given up. -/
theorem board_track (q : Quorum) (offset : Nat) :
    (q.track offset).1.board = q.board.push (.opened (some offset)) ∨
      ∃ w ∈ q.pending, w.offset = offset ∧
        (q.track offset).1.board = (q.board.push (.opened (some offset))).release w.cell := by
  unfold track register
  dsimp only
  split
  · rename_i replaced found
    exact .inr ⟨replaced, List.mem_of_find?_eq_some found, by simpa using List.find?_some found, rfl⟩
  · exact .inl rfl

/-- A write waits from now on, whether or not one waited at its offset. -/
theorem mem_track (orderly : q.Orderly) {v : PendingWrite} : v ∈ (q.track offset).1.pending ↔
    v = ⟨offset, [], q.board.size⟩ ∨ v ∈ q.pending ∧ v.offset ≠ offset :=
  mem_insertWrite orderly.ascending

theorem orderly_track (orderly : q.Orderly) (offset : Nat) : (q.track offset).1.Orderly where
  needs := orderly.needs
  ascending := ascending_insertWrite orderly.ascending
  opened v held := by
    rcases (mem_track orderly).mp held with rfl | ⟨waited, apart⟩
    · rcases board_track q offset with same | ⟨w, replaced, -, same⟩
      · rw [same, Board.cells_push, if_pos rfl]
      · rw [same, Board.cells_release, if_neg (Nat.ne_of_lt (orderly.inside replaced)),
          Board.cells_push, if_pos rfl]
    · have kept : (q.board.push (.opened (some offset))).cells[v.cell]? =
          some (.opened (some v.offset)) := by
        rw [Board.cells_push, if_neg (Nat.ne_of_lt (orderly.inside waited))]
        exact orderly.opened v waited
      rcases board_track q offset with same | ⟨w, replaced, here, same⟩
      · rw [same, kept]
      · have other : w.cell ≠ v.cell := fun cell =>
          apart (orderly.cell_unique replaced waited cell ▸ here)
        rw [same, Board.cells_release, if_neg other, kept]
  sources v held := by
    rcases (mem_track orderly).mp held with rfl | ⟨waited, -⟩
    · exact ⟨List.nodup_nil, orderly.needs⟩
    · exact orderly.sources v waited

theorem insertWrite_of_last {w : PendingWrite} {l : List PendingWrite}
    (last : ∀ v ∈ l, v.offset < w.offset) : insertWrite w l = l ++ [w] := by
  induction l with
  | nil => rfl
  | cons v rest ih =>
    have above := last v List.mem_cons_self
    rw [insertWrite, if_neg (by omega), if_neg (by omega),
      ih fun u member => last u (List.mem_cons_of_mem v member), List.cons_append]

/-- A write behind all that wait waits too, with an open cell and without a source. -/
theorem track_of_last (last : ∀ w ∈ q.pending, w.offset < offset) : q.track offset =
    ({ q with
        pending := q.pending ++ [⟨offset, [], q.board.size⟩]
        board := q.board.push (.opened (some offset)) }, q.board.size) := by
  have absent : q.get? offset = none :=
    List.find?_eq_none.mpr fun w member here => by
      have below := last w member
      have same : w.offset = offset := by simpa using here
      omega
  simp only [get?] at absent
  simp [track, register, get?, absent,
    insertWrite_of_last (w := ⟨offset, [], q.board.size⟩) last]

theorem consistent_track (consistent : q.Consistent)
    (last : ∀ w ∈ q.pending, w.offset < offset) : (q.track offset).1.Consistent := by
  have orderly := orderly_track consistent.orderly offset
  refine ⟨orderly.needs, orderly.ascending, orderly.opened, orderly.sources, ?_⟩
  rw [track_of_last last]
  intro i c o cell written
  rw [Board.cells_push] at cell
  split at cell
  · rename_i here
    cases cell
    cases written
    exact .inr ⟨_, List.mem_append_right _ List.mem_cons_self, here.symm, rfl⟩
  · rcases consistent.settled i c o cell written with durable | ⟨w, waited, place⟩
    · exact .inl durable
    · exact .inr ⟨w, List.mem_append_left _ waited, place⟩

theorem vouched_track {vouches : Source → Nat → Prop} (vouched : q.Vouched vouches)
    (last : ∀ w ∈ q.pending, w.offset < offset) : (q.track offset).1.Vouched vouches := by
  rw [track_of_last last]
  constructor
  · intro w member s counted
    rcases List.mem_append.mp member with waited | single
    · exact vouched.pending w waited s counted
    · rw [List.mem_singleton.mp single] at counted
      cases counted
  · intro i c o cell written durable
    rw [Board.cells_push] at cell
    split at cell
    · cases cell
      cases durable
    · exact vouched.durable i c o cell written durable

theorem consistent_refuse (consistent : q.Consistent) (reason : String) :
    (q.refuse reason).1.Consistent := by
  refine ⟨consistent.needs, consistent.ascending, ?_, consistent.sources, ?_⟩
  · intro w waited
    rw [refuse, Board.cells_push, if_neg (Nat.ne_of_lt (consistent.inside waited))]
    exact consistent.opened w waited
  · intro i c o cell written
    rw [refuse, Board.cells_push] at cell
    split at cell
    · cases cell
      cases written
    · exact consistent.settled i c o cell written

theorem vouched_refuse {vouches : Source → Nat → Prop} (vouched : q.Vouched vouches)
    (reason : String) : (q.refuse reason).1.Vouched vouches where
  pending := vouched.pending
  durable i c o cell written durable := by
    rw [refuse, Board.cells_push] at cell
    split at cell
    · cases cell
      cases durable
    · exact vouched.durable i c o cell written durable

/-! ### Writes keep their place -/

/-- A new cell changes no other. -/
private theorem keeps_push (q : Quorum) (pending : List PendingWrite) (c : Cell) :
    Keeps q { q with pending, board := q.board.push c } := by
  refine ⟨rfl, fun i d cell => ⟨d, ?_, rfl, id⟩⟩
  rw [Board.cells_push, if_neg, cell]
  exact Nat.ne_of_lt (List.getElem?_eq_some_iff.mp cell).1

theorem keeps_refuse (reason : String) : Keeps q (q.refuse reason).1 := keeps_push q q.pending _

theorem keeps_track (q : Quorum) (offset : Nat) : Keeps q (q.track offset).1 := by
  have pushed := keeps_push q (q.track offset).1.pending (.opened (some offset))
  refine ⟨rfl, fun i c cell => ?_⟩
  obtain ⟨d, kept, same, durable⟩ := pushed.cells i c cell
  rcases board_track q offset with board | ⟨w, -, -, board⟩
  · exact ⟨d, by rw [board]; exact kept, same, durable⟩
  · rw [board, Board.cells_release]
    split
    · exact ⟨d.release, by rw [kept, Option.map_some], same, durable⟩
    · exact ⟨d, kept, same, durable⟩

end Quorum

end QuorumLog
