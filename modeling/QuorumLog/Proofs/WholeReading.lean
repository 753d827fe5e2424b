import QuorumLog.Log.Cursor
import QuorumLog.Proofs.KnownHistory

/-! Reading a whole log. A cursor gives out the retained entries one by one, whatever the pages in which
it reads them, and the steps that it is allowed bring it to the end. -/

namespace QuorumLog

variable {L : Type} [LocalLog L] {log : L} {es rest : List Entry} {e : Entry} {c : Cursor}
variable {n limit fuel : Nat}

/-- A log that can be read from every offset on, and the entries that it retains. -/
structure Legible (log : L) (es : List Entry) : Prop where
  numbered : es.map Entry.offset = List.range' (LocalLog.oldest log) es.length
  span : LocalLog.oldest log + es.length = LocalLog.highest log + 1
  positive : 1 ≤ LocalLog.oldest log
  read : ∀ start limit,
    LocalLog.read log start limit = .ok ((es.filter (start ≤ ·.offset)).take limit)

namespace Legible

/-- No read from an offset on needs a higher limit than the highest offset. -/
theorem read_all (legible : Legible log es) (enough : LocalLog.highest log ≤ limit) :
    LocalLog.read log n limit = .ok (es.filter (n ≤ ·.offset)) := by
  have span := legible.span
  have positive := legible.positive
  have fewer := List.length_filter_le (fun e : Entry => decide (n ≤ e.offset)) es
  rw [legible.read, List.take_of_length_le (by omega)]

theorem filter_oldest (legible : Legible log es) :
    es.filter (LocalLog.oldest log ≤ ·.offset) = es := by
  rw [LawfulLog.filter_numbered _ _ _ legible.numbered, Nat.sub_self, List.drop_zero]

theorem readTail (legible : Legible log es) (n : Nat) :
    LocalLog.readTail log n = .ok (es.filter (n ≤ ·.offset)) := legible.read_all (Nat.le_refl _)

/-- The first entry from an offset on has this offset, or is the oldest one. The others have higher
offsets. -/
theorem filter_next (legible : Legible log es) (first : es.filter (n ≤ ·.offset) = e :: rest) :
    e.offset = max n (LocalLog.oldest log) ∧ es.filter (e.offset + 1 ≤ ·.offset) = rest := by
  rw [LawfulLog.filter_numbered _ _ _ legible.numbered] at first
  have here : es[n - LocalLog.oldest log]? = some e := by rw [← List.head?_drop, first, List.head?_cons]
  have number := offset_of_numbered legible.numbered here
  refine ⟨by omega, ?_⟩
  rw [LawfulLog.filter_numbered _ _ _ legible.numbered,
    show e.offset + 1 - LocalLog.oldest log = n - LocalLog.oldest log + 1 by omega, ← List.tail_drop,
    first, List.tail_cons]

end Legible

/-! ### A cursor on its way -/

namespace Cursor

/-- Behind the end there is nothing. -/
theorem step_finished (finished : c.finished = true) (page : c.page = []) :
    c.step log = (c, none) := by
  simp [step, take, finished, page]

/-- A cursor that still gives the entries from its offset on; the first of them may be in its page. -/
structure Onward (es : List Entry) (c : Cursor) : Prop where
  page : c.page <+: es.filter (c.next ≤ ·.offset)
  sized : 1 ≤ c.pageSize
  going : c.finished = false

theorem onward_start (start size : Nat) : (Cursor.start start size).Onward es :=
  ⟨List.nil_prefix, Nat.le_max_right _ _, rfl⟩

/-- The first entry of a page is given out, and the cursor goes on behind it. -/
theorem Onward.take (legible : Legible log es) (onward : c.Onward es) {later : List Entry}
    (page : c.page = e :: later) : ∃ rest, es.filter (c.next ≤ ·.offset) = e :: rest ∧
      c.take = ({ c with next := e.offset + 1, page := later }, some (.ok e)) ∧
      Onward es { c with next := e.offset + 1, page := later } := by
  obtain ⟨behind, split⟩ := onward.page
  rw [page, List.cons_append] at split
  refine ⟨_, split.symm, by rw [Cursor.take, page], ?_, onward.sized, onward.going⟩
  rw [(legible.filter_next split.symm).2]
  exact List.prefix_append _ _

/-- A step gives the first entry from the offset of the cursor on, or there is none. -/
theorem Onward.step (legible : Legible log es) (onward : c.Onward es) :
    (es.filter (c.next ≤ ·.offset) = [] ∧
      ∃ ended, c.step log = (ended, none) ∧ ended.finished = true ∧ ended.page = []) ∨
    ∃ e rest c', es.filter (c.next ≤ ·.offset) = e :: rest ∧ c.step log = (c', some (.ok e)) ∧
      c'.next = e.offset + 1 ∧ c'.Onward es := by
  cases page : c.page with
  | cons e later =>
    obtain ⟨rest, first, taken, onward'⟩ := onward.take legible page
    have step : c.step log = c.take := by simp [Cursor.step, page]
    exact .inr ⟨e, rest, _, first, step.trans taken, rfl, onward'⟩
  | nil =>
    have read := legible.read c.next c.pageSize
    cases found : (es.filter (c.next ≤ ·.offset)).take c.pageSize with
    | nil =>
      rw [found] at read
      have none := (List.take_eq_nil_iff.mp found).resolve_left (Nat.ne_of_gt onward.sized)
      refine .inl ⟨none, { c with finished := true }, ?_, rfl, page⟩
      simp [Cursor.step, page, onward.going, read]
    | cons e later =>
      rw [found] at read
      have turned : Onward es { c with page := e :: later } :=
        ⟨found ▸ List.take_prefix _ _, onward.sized, onward.going⟩
      obtain ⟨rest, first, taken, onward'⟩ := turned.take legible rfl
      have step : c.step log = { c with page := e :: later }.take := by
        simp [Cursor.step, page, onward.going, read]
      exact .inr ⟨e, rest, _, first, step.trans taken, rfl, onward'⟩

/-- Enough steps through a log that stays as it is give the entries from the offset of the cursor on,
and come to the end. -/
theorem Onward.run (legible : Legible log es) (onward : c.Onward es)
    (enough : (es.filter (c.next ≤ ·.offset)).length < fuel) :
    ∃ ended, c.run log fuel = (ended, (es.filter (c.next ≤ ·.offset)).map .ok) ∧
      ended.finished = true ∧ ended.page = [] := by
  induction fuel generalizing c with
  | zero => exact absurd enough (Nat.not_lt_zero _)
  | succ fuel ih =>
    rcases onward.step legible with
      ⟨none, ended, step, done⟩ | ⟨e, rest, c', first, step, next, onward'⟩
    · refine ⟨ended, ?_, done⟩
      rw [Cursor.run, step, none]
      rfl
    · have others := (legible.filter_next first).2
      rw [first, List.length_cons] at enough
      rw [← next] at others
      obtain ⟨ended, ran, done⟩ := ih onward' (others ▸ Nat.lt_of_succ_lt_succ enough)
      refine ⟨ended, ?_, done⟩
      rw [Cursor.run, step, first, ← others]
      dsimp only
      rw [ran]
      rfl

end Cursor

/-! ### Everything -/

theorem Legible.drained (legible : Legible log es) (start size : Nat) : ∃ ended,
    (Cursor.start start size).drain log = (ended, (es.filter (max start 1 ≤ ·.offset)).map .ok) ∧
      ended.step log = (ended, none) := by
  have span := legible.span
  have positive := legible.positive
  have fewer := List.length_filter_le (fun e : Entry => decide (max start 1 ≤ e.offset)) es
  have enough : (es.filter ((Cursor.start start size).next ≤ ·.offset)).length <
      LocalLog.highest log + 2 := Nat.lt_of_le_of_lt fewer (by omega)
  obtain ⟨ended, ran, finished, page⟩ := (Cursor.onward_start start size).run legible enough
  exact ⟨ended, ran, Cursor.step_finished finished page⟩

/-- Where every item is there, the first fault is none. -/
theorem mapM_ok {α β : Type} (f : α → β) (l : List α) :
    (l.map (.ok : α → Except Fault α)).mapM (fun item => item.map f) = .ok (l.map f) := by
  induction l with
  | nil => rfl
  | cons a rest ih =>
    rw [List.map_cons, List.mapM_cons, ih]
    rfl

/-- Reading everything gives the payloads of the retained entries, in their order. -/
theorem Legible.readAll (legible : Legible log es) :
    LocalLog.readAll log = .ok (es.map Entry.payload) := by
  obtain ⟨ended, ran, -⟩ := legible.drained (LocalLog.oldest log) Cursor.usualPage
  rw [Nat.max_eq_left legible.positive, legible.filter_oldest] at ran
  rw [LocalLog.readAll, ran]
  exact mapM_ok Entry.payload es

theorem readAll_of_sound [LawfulLog L] [ReadableLog L] (sound : LawfulLog.Sound log)
    (counted : 1 ≤ LocalLog.oldest log) :
    LocalLog.readAll log = .ok ((LawfulLog.entries log).map Entry.payload) := by
  refine Legible.readAll ⟨LawfulLog.entries_numbered sound, LawfulLog.entries_span sound, counted, ?_⟩
  intro start limit
  obtain ⟨found, read⟩ := ReadableLog.read_ok start limit sound
  rw [read, LawfulLog.read_gives sound read]

end QuorumLog
