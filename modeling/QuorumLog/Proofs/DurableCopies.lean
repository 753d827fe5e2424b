import QuorumLog.Proofs.SystemRuns

/-! What durability promises. A replica is credited only with what it holds, so a write that is durable
has as many copies as the settings ask for: one in the log of the master, and the others with replicas
of different names. -/

namespace QuorumLog.System

variable {L : Type} [LocalLog L] {s s' : System L} {event : Event} {events : List Event}
variable {write : Nat} {e : Entry}

/-! ### Writes on record -/

/-- The write that an event brings into the log of the master: its number and its entry. -/
def written? (s : System L) : Event → Option (Nat × Entry)
  | .append payload metadata => s.master.written? (.append payload metadata)
  | .announce => s.master.written? .announce
  | _ => none

/-- Every write that a run brought into the log of the master: its number and its entry. -/
def written (s : System L) : List Event → List (Nat × Entry)
  | [] => []
  | event :: later => (s.written? event).toList ++ (s.act event).written later

variable [LawfulLog L]

/-- The master has the entry of a write in its log, and the write is about the offset of that entry. -/
structure Entered (s : System L) (write : Nat) (e : Entry) : Prop where
  held : e ∈ s.history
  cell : ∃ c, s.master.quorum.board.cells[write]? = some c ∧ c.offset = some e.offset

theorem Entered.onward (entered : s.Entered write e) (onward : Onward s s') :
    s'.Entered write e where
  held := onward.history.mem entered.held
  cell := by
    obtain ⟨c, cell, offset⟩ := entered.cell
    obtain ⟨c', cell', same, -⟩ := onward.keeps.cells write c cell
    exact ⟨c', cell', same.trans offset⟩

private theorem entered_of_announce (agreement : s.Agreement)
    (written : s.master.written? .announce = some (write, e)) :
    ({ s with master := s.master.announce.1 } : System L).Entered write e := by
  rcases Master.announce_cases s.master with ⟨none, -⟩ | ⟨entry, unannounced, number, quiet⟩
  · simp [Master.written?, none] at written
  · simp only [Master.written?, unannounced, number, Option.some.injEq, Prod.mk.injEq] at written
    obtain ⟨rfl, rfl⟩ := written
    constructor
    · show entry ∈ LawfulLog.entries s.master.announce.1.log
      rw [quiet.log]
      exact agreement.stored entry unannounced
    · rw [quiet.quorum]
      exact Master.announcedQuorum_cell (agreement.books.below entry unannounced).2

private theorem entered_of_append (agreement : s.Agreement) {payload : Bytes}
    {metadata : Option Bytes} (fits : LawfulLog.Admits L ⟨s.master.offset + 1, payload, metadata⟩)
    (written : s.master.written? (.append payload metadata) = some (write, e)) :
    ({ s with master := (s.master.append payload metadata).1 } : System L).Entered write e := by
  rcases Master.append_outcome s.master agreement.books.within payload metadata with
    ⟨unwritten, -⟩ | ⟨reason, log, -, unwritten, -⟩ | ⟨log, offset, free, taken, this, quiet⟩
  · rw [unwritten] at written
    cases written
  · rw [unwritten] at written
    cases written
  · rw [this] at written
    cases written
    have next : offset = s.master.offset + 1 := (NumberedLog.append_takes_next taken).1
    constructor
    · show _ ∈ LawfulLog.entries (s.master.append payload metadata).1.log
      rw [quiet.log, (LawfulLog.append_stores agreement.complete.sound taken (next ▸ fits)).2]
      exact List.mem_append_right _ List.mem_cons_self
    · rw [quiet.quorum]
      refine Master.announcedQuorum_cell fun w waiting => ?_
      have low := agreement.books.within w waiting
      show w.offset < offset
      omega

theorem entered_of_act (agreement : s.Agreement)
    (fits : ∀ e, s.offer? event = some e → LawfulLog.Admits L e)
    (written : s.written? event = some (write, e)) : (s.act event).Entered write e := by
  cases event with
  | append payload metadata => exact entered_of_append agreement (fits _ rfl) written
  | announce => exact entered_of_announce agreement written
  | _ => cases written

theorem entered_of_run (agreement : s.Agreement) (kept : ∀ below, .purge below ∉ events)
    (fits : ∀ e ∈ s.offered events, LawfulLog.Admits L e)
    (written : (write, e) ∈ s.written events) : (s.run events).Entered write e := by
  induction events generalizing s with
  | nil => cases written
  | cons event later ih =>
    have fitsNow : ∀ e, s.offer? event = some e → LawfulLog.Admits L e := fun e offer =>
      fits e (List.mem_append_left _ (Option.mem_toList.mpr offer))
    have fitsLater : ∀ e ∈ (s.act event).offered later, LawfulLog.Admits L e := fun e member =>
      fits e (List.mem_append_right _ member)
    have keptLater : ∀ below, .purge below ∉ later := fun below member =>
      kept below (List.mem_cons_of_mem _ member)
    have onward := agreement.act event (fun below same => kept below (same ▸ List.mem_cons_self))
      fitsNow
    rcases List.mem_append.mp written with now | afterwards
    · exact (entered_of_act agreement fitsNow (Option.mem_toList.mp now)).onward
        (onward.agreement.run keptLater fitsLater)
    · exact ih onward.agreement keptLater fitsLater afterwards

/-! ### Copies -/

/-- A replica that reaches up to an entry of the master holds it. -/
theorem Agreement.copied (agreement : s.Agreement) (held : e ∈ s.history) {id : String}
    (has : s.Has id e.offset) :
    ∃ r ∈ s.replicas, r.settings.nodeId = id ∧ LawfulLog.Holds r.log e := by
  obtain ⟨r, member, name, reaches⟩ := has
  obtain ⟨complete, begins⟩ := agreement.copies r member
  exact ⟨r, member, name, LawfulLog.holds_of_mem complete
    (LawfulLog.mem_of_begins complete agreement.complete begins held reaches)⟩

/-- In every run without a purge, a write that is durable is held by the master and by so many replicas
of different names that together they are as many as the settings ask for. Each of them holds at the
offset of the write the entry that was written. -/
theorem durable_has_copies (fresh : s.Fresh) (kept : ∀ below, .purge below ∉ events)
    (fits : ∀ e ∈ s.offered events, LawfulLog.Admits L e) (written : (write, e) ∈ s.written events)
    (durable : (s.run events).master.quorum.board.state write = .durable) :
    LawfulLog.Holds (s.run events).master.log e ∧
      ∃ ids : Finset String, s.master.settings.copies.toNat - 1 ≤ ids.card ∧
        ∀ id ∈ ids, ∃ r ∈ (s.run events).replicas,
          r.settings.nodeId = id ∧ LawfulLog.Holds r.log e := by
  have before := agreement_of_fresh fresh
  have onward := before.run kept fits
  have agreement := onward.agreement
  obtain ⟨held, c, cell, offset⟩ := entered_of_run before kept fits written
  rw [Board.state, cell] at durable
  obtain ⟨sources, distinct, enough, all⟩ :=
    agreement.books.vouched.durable write c e.offset cell offset durable
  obtain ⟨ids, count, named⟩ := exists_names_of_sources distinct
  have required := onward.keeps.required.trans (Master.required_of_create fresh.created)
  refine ⟨LawfulLog.holds_of_mem agreement.complete held, ids, by omega, fun id member => ?_⟩
  exact agreement.copied held (all (.replica id) (named id member))

/-- The acknowledgment of the first write is lost with its connection. The write is durable once the
replica is back, and then there is a replica that holds it. -/
theorem copied_after_loss : (pair.run passage).master.quorum.board.state 0 = .durable ∧
    ∃ r ∈ (pair.run passage).replicas, LawfulLog.Holds r.log ⟨1, [7], none⟩ := by
  have kept : ∀ below, .purge below ∉ passage := by simp [passage]
  have written : (0, (⟨1, [7], none⟩ : Entry)) ∈ pair.written passage := by decide +kernel
  have durable : (pair.run passage).master.quorum.board.state 0 = .durable := by decide +kernel
  obtain ⟨-, ids, enough, copied⟩ :=
    durable_has_copies fresh_pair kept (fun _ _ => trivial) written durable
  have one : pair.master.settings.copies.toNat - 1 = 1 := rfl
  obtain ⟨id, member⟩ := Finset.card_pos.mp (Nat.lt_of_lt_of_le Nat.zero_lt_one (one ▸ enough))
  obtain ⟨r, held, -, holds⟩ := copied id member
  exact ⟨durable, r, held, holds⟩

end QuorumLog.System
