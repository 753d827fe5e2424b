import QuorumLog.Proofs.MasterSteps
import QuorumLog.Proofs.ReplicaSteps
import QuorumLog.System

/-! A master that never forgets an entry, replicas that start with a beginning of its log, and any order
of events between them. Every entry on its way is one of the master's, and every report on its way is
true, so the replicas hold beginnings of the master's log and the master credits nobody who does not
hold what is credited. -/

namespace QuorumLog

variable {L : Type} [LocalLog L] {holds holds' : String → Nat → Prop} {q : Quorum} {e : Entry}
variable {unannounced : Option Entry} {last offset : Nat} {id : String}

/-! ### The books of the master -/

/-- Replicas vouch for what they hold, and the master for everything. -/
def Backs (holds : String → Nat → Prop) : Source → Nat → Prop
  | .master, _ => True
  | .replica id, offset => holds id offset

/-- The count of copies is consistent, only what is held is credited, and an entry that is not announced
is the last one and behind every write that waits. -/
structure Books (holds : String → Nat → Prop) (q : Quorum) (unannounced : Option Entry) (last : Nat) :
    Prop where
  consistent : q.Consistent
  vouched : q.Vouched (Backs holds)
  within : ∀ w ∈ q.pending, w.offset ≤ last
  below : ∀ e, unannounced = some e → e.offset = last ∧ ∀ w ∈ q.pending, w.offset < e.offset

namespace Books

theorem mono (books : Books holds q unannounced last)
    (more : ∀ id offset, holds id offset → holds' id offset) :
    Books holds' q unannounced last where
  consistent := books.consistent
  vouched := books.vouched.mono fun s o => by
    cases s with
    | master => exact id
    | replica id => exact more id o
  within := books.within
  below := books.below

theorem refuse (books : Books holds q unannounced last) (reason : String) :
    Books holds (q.refuse reason).1 unannounced last :=
  ⟨Quorum.consistent_refuse books.consistent reason, Quorum.vouched_refuse books.vouched reason,
    books.within, books.below⟩

theorem store (books : Books holds q none last) (next : e.offset = last + 1) :
    Books holds q (some e) e.offset where
  consistent := books.consistent
  vouched := books.vouched
  within w waiting := by
    have low := books.within w waiting
    omega
  below x same := by
    cases same
    refine ⟨rfl, fun w waiting => ?_⟩
    have low := books.within w waiting
    omega

theorem announce (books : Books holds q (some e) last) :
    Books holds ((q.track e.offset).1.credit e.offset .master).1 none last := by
  obtain ⟨ends, below⟩ := books.below e rfl
  refine ⟨Quorum.consistent_credit (Quorum.consistent_track books.consistent below),
    Quorum.vouched_credit (Quorum.consistent_track books.consistent below)
      (Quorum.vouched_track books.vouched below) fun _ _ => trivial, ?_, by simp⟩
  intro v held
  obtain ⟨w, waited, same, -⟩ := Quorum.credit_grants.waited v held
  rw [Quorum.track_of_last below] at waited
  rcases List.mem_append.mp waited with before | new
  · exact same ▸ books.within w before
  · rw [List.mem_singleton.mp new] at same
    simp only at same
    omega

/-- A credit in any range adds no write. -/
private theorem granted {s : Source} {range : Nat → Prop} {q' : Quorum}
    (books : Books holds q unannounced last) (grants : Quorum.Grants s range q q')
    (consistent : q'.Consistent) (vouched : q'.Vouched (Backs holds)) :
    Books holds q' unannounced last := by
  refine ⟨consistent, vouched, fun v held => ?_, fun e same => ⟨(books.below e same).1, ?_⟩⟩
  · obtain ⟨w, waited, offsets, -⟩ := grants.waited v held
    exact offsets ▸ books.within w waited
  · intro v held
    obtain ⟨w, waited, offsets, -⟩ := grants.waited v held
    exact offsets ▸ (books.below e same).2 w waited

theorem credit (books : Books holds q unannounced last) (held : ∀ o ≤ offset, holds id o) :
    Books holds (q.credit offset (.replica id)).1 unannounced last :=
  books.granted Quorum.credit_grants (Quorum.consistent_credit books.consistent)
    (Quorum.vouched_credit books.consistent books.vouched held)

theorem rebase (books : Books holds q unannounced last) (held : ∀ o ≤ offset, holds id o) :
    Books holds (q.rebase (.replica id) offset).1 unannounced last :=
  books.granted Quorum.rebase_grants (Quorum.consistent_rebase books.consistent)
    (Quorum.vouched_rebase books.consistent books.vouched held)

end Books

namespace System

variable [LawfulLog L] {s s' s'' : System L} {m' : Master L} {c c' : Channel} {number : Nat}
variable {given : Entry → Prop}

/-! ### What every moment keeps -/

/-- The entries that the master holds. -/
def history (s : System L) : List Entry := LawfulLog.entries s.master.log

omit [LawfulLog L] in
/-- The replica with a name holds everything up to an offset. -/
def Has (s : System L) (id : String) (offset : Nat) : Prop :=
  ∃ r ∈ s.replicas, r.settings.nodeId = id ∧ offset ≤ r.offset

omit [LawfulLog L] in
theorem Has.below (has : s.Has id offset) {o : Nat} (less : o ≤ offset) : s.Has id o := by
  obtain ⟨r, held, name, reaches⟩ := has
  exact ⟨r, held, name, Nat.le_trans less reaches⟩

/-- What is on its way between a replica and the master is true: entries are the master's, and the
replica holds what it reports. -/
structure Carries (s : System L) (id : String) (c : Channel) : Prop where
  down : ∀ e, .entry e ∈ c.down → e ∈ s.history
  acks : ∀ offset, .ack offset ∈ c.up → s.Has id offset
  hello : ∀ h, .hello h ∈ c.up → h.replicaId = id ∧ s.Has id h.lastOffset
  issued : ∀ generation, c.generation = some generation → generation ≤ s.master.generation
  session : ∀ t ∈ s.master.sessions, c.generation = some t.generation → t.replicaId = id

/-- Each replica holds a beginning of the master's log, all that is on its way or about to be sent fits
that, and the master knows no more of a replica than is true. -/
structure Agreement (s : System L) : Prop where
  numbered : s.master.Numbered
  complete : LawfulLog.Complete s.master.log
  names : (s.replicas.map (·.settings.nodeId)).Nodup
  copies : ∀ r ∈ s.replicas, LawfulLog.Complete r.log ∧ LawfulLog.entries r.log <+: s.history
  links : ∀ l ∈ s.master.links, s.Has l.peer.id l.lastAck
  welcomes : ∀ t ∈ s.master.sessions, t.isWelcoming → s.Has t.replicaId (t.next - 1)
  waiting : ∀ e, s.master.Waits e → e ∈ s.history
  stored : ∀ e, s.master.unannounced = some e → e ∈ s.history
  books : Books s.Has s.master.quorum s.master.unannounced s.master.offset
  channels : ∀ c ∈ s.channels, s.Carries c.1 c.2

/-- A later moment: the master's log has the entries it had, and the writes their places. -/
structure Onward (before after : System L) : Prop where
  agreement : after.Agreement
  history : before.history <+: after.history
  keeps : before.master.quorum.Keeps after.master.quorum

theorem Onward.refl (agreement : s.Agreement) : Onward s s :=
  ⟨agreement, List.prefix_refl _, .refl _⟩

theorem Onward.trans (first : Onward s s') (second : Onward s' s'') : Onward s s'' where
  agreement := second.agreement
  history := first.history.trans second.history
  keeps := first.keeps.trans second.keeps

/-- What was true on the way stays true as long as nobody loses an entry and no session changes
hands. -/
theorem Carries.mono (carries : s.Carries id c) (history : s.history <+: s'.history)
    (has : ∀ id offset, s.Has id offset → s'.Has id offset)
    (generation : s.master.generation ≤ s'.master.generation)
    (sessions : ∀ t' ∈ s'.master.sessions, (∃ t ∈ s.master.sessions, t.Continues t') ∨
      s.master.generation < t'.generation) : s'.Carries id c where
  down e member := history.mem (carries.down e member)
  acks offset member := has _ _ (carries.acks offset member)
  hello h member := (carries.hello h member).imp (fun same => same) (has _ _)
  issued generation' named := Nat.le_trans (carries.issued generation' named) generation
  session t' held named := by
    rcases sessions t' held with ⟨t, before, continues⟩ | newer
    · rw [continues.generation] at named
      rw [continues.replicaId]
      exact carries.session t before named
    · exact absurd newer (Nat.not_lt.mpr (carries.issued _ named))

/-! ### Steps of the master -/

/-- A quiet step keeps the agreement. -/
theorem Agreement.quiet (agreement : s.Agreement) (quiet : Master.Quiet given s.master m')
    (known : ∀ e, given e → e ∈ s.history) : Onward s { s with master := m' } := by
  have same : ({ s with master := m' } : System L).history = s.history :=
    congrArg LawfulLog.entries quiet.log
  have ends : m'.offset = s.master.offset := congrArg LocalLog.highest quiet.log
  refine ⟨⟨agreement.numbered.kept quiet.toKept, quiet.log ▸ agreement.complete, agreement.names,
    ?_, ?_, ?_, ?_, ?_, ?_, ?_⟩, same ▸ List.prefix_refl _, ?_⟩
  · rw [same]
    exact agreement.copies
  · intro l' member
    obtain ⟨l, before, continues⟩ := quiet.links l' member
    rw [continues.id, continues.lastAck]
    exact agreement.links l before
  · intro t' member welcoming
    obtain ⟨t, before, continues⟩ := quiet.sessions t' member
    obtain ⟨was, next⟩ := continues.welcoming welcoming
    rw [continues.replicaId, next]
    exact agreement.welcomes t before was
  · intro e waits
    rw [same]
    exact (quiet.waiting e waits).elim (agreement.waiting e) (known e)
  · intro e entry
    rw [same]
    exact agreement.stored e (quiet.unannounced ▸ entry)
  · show Books s.Has m'.quorum m'.unannounced m'.offset
    rw [quiet.quorum, quiet.unannounced, ends]
    exact agreement.books
  · exact fun c member => (agreement.channels c member).mono (same ▸ List.prefix_refl _)
      (fun _ _ has => has) quiet.generation fun t' held => .inl (quiet.sessions t' held)
  · show Quorum.Keeps _ m'.quorum
    exact quiet.quorum ▸ .refl _

theorem Agreement.silent (agreement : s.Agreement) (quiet : Master.Silent s.master m') :
    Onward s { s with master := m' } :=
  agreement.quiet quiet fun _ => False.elim

/-- A change of the log, the count of copies and the stored entry keeps the agreement if the log keeps
its entries and the books are right. -/
theorem Agreement.ledger (agreement : s.Agreement) {log : L} (complete : LawfulLog.Complete log)
    (grows : s.history <+: LawfulLog.entries log)
    (stored : ∀ e, unannounced = some e → e ∈ LawfulLog.entries log)
    (books : Books s.Has q unannounced (LocalLog.highest log))
    (keeps : s.master.quorum.Keeps q) :
    Onward s { s with master := { s.master with log, quorum := q, unannounced } } := by
  refine ⟨⟨?_, complete, agreement.names, ?_, agreement.links, agreement.welcomes, ?_, stored, books,
    ?_⟩, grows, keeps⟩
  · exact agreement.numbered.same rfl rfl rfl
  · exact fun r held => 
      ⟨(agreement.copies r held).1, (agreement.copies r held).2.trans grows⟩
  · exact fun e waits => grows.mem (agreement.waiting e waits)
  · exact fun c member => (agreement.channels c member).mono grows (fun _ _ has => has)
      (Nat.le_refl _) fun t held => .inl ⟨t, held, .refl t⟩

/-- A link may learn what its replica holds. -/
theorem Agreement.reported (agreement : s.Agreement) (has : s.Has id offset) :
    Onward s { s with master := s.master.onLink id (Link.recordAck offset) } := by
  refine ⟨⟨Master.numbered_onLink agreement.numbered id (Link.recordAck_same offset),
    agreement.complete, agreement.names, agreement.copies, ?_, agreement.welcomes,
    agreement.waiting, agreement.stored, agreement.books, ?_⟩, List.prefix_refl _,
    .refl _⟩
  · intro l' member
    obtain ⟨l, before, rfl⟩ := List.mem_map.mp member
    split
    · rename_i here
      rw [(Link.recordAck_same offset l).1]
      unfold Link.recordAck
      split
      · exact here ▸ has
      · split <;> exact agreement.links l before
    · exact agreement.links l before
  · exact fun c member => (agreement.channels c member).mono (List.prefix_refl _)
      (fun _ _ has => has) (Nat.le_refl _) fun t held => .inl ⟨t, held, .refl t⟩

/-- A replica may get its link and its session for what it holds. -/
theorem Agreement.seated (agreement : s.Agreement) (has : s.Has id offset)
    (seated : Master.Seated id offset s.master m') : Onward s { s with master := m' } := by
  have same : ({ s with master := m' } : System L).history = s.history :=
    congrArg LawfulLog.entries seated.log
  have ends : m'.offset = s.master.offset := congrArg LocalLog.highest seated.log
  refine ⟨⟨agreement.numbered.seated seated, seated.log ▸ agreement.complete, agreement.names,
    ?_, ?_, ?_, ?_, ?_, ?_, ?_⟩, same ▸ List.prefix_refl _, ?_⟩
  · rw [same]
    exact agreement.copies
  · intro l' member
    rcases seated.links l' member with ⟨name, -, resume, -⟩ | ⟨-, l, before, continues⟩
    · rw [name, resume]
      exact has
    · rw [continues.id, continues.lastAck]
      exact agreement.links l before
  · intro t' member welcoming
    rcases seated.sessions t' member with ⟨name, -, next, -⟩ | ⟨t, before, continues⟩
    · rw [name, next]
      exact has
    · obtain ⟨was, next⟩ := continues.welcoming welcoming
      rw [continues.replicaId, next]
      exact agreement.welcomes t before was
  · exact fun e waits => same ▸ agreement.waiting e (seated.waiting e waits)
  · exact fun e entry => same ▸ agreement.stored e (seated.unannounced ▸ entry)
  · show Books s.Has m'.quorum m'.unannounced m'.offset
    rw [seated.quorum, seated.unannounced, ends]
    exact agreement.books
  · refine fun c member => (agreement.channels c member).mono (same ▸ List.prefix_refl _)
      (fun _ _ has => has) ?_ fun t' held => ?_
    · show s.master.generation ≤ m'.generation
      rw [seated.generation]
      omega
    · rcases seated.sessions t' held with ⟨-, newest, -⟩ | continues
      · refine .inr ?_
        rw [newest, seated.generation]
        omega
      · exact .inl continues
  · show Quorum.Keeps _ m'.quorum
    exact seated.quorum ▸ .refl _

/-- A true report may be credited. -/
theorem Agreement.acknowledge (agreement : s.Agreement) (has : s.Has id offset) :
    Onward s { s with master := s.master.acknowledge id offset } := by
  rcases Master.acknowledge_cases s.master agreement.numbered id offset
    with ⟨quiet, -⟩ | ⟨l, -, -, -, -, -, quiet⟩
  · exact agreement.silent quiet
  · -- The link learns of the report before the count does; in between all is as true as before.
    have told := agreement.reported has
    have credited := told.agreement.ledger told.agreement.complete (List.prefix_refl _)
      told.agreement.stored (told.agreement.books.credit fun _ less => has.below less)
      Quorum.credit_grants.toKeeps
    exact (told.trans credited).trans (credited.agreement.silent quiet)

theorem Agreement.receive (agreement : s.Agreement) (generation : Nat) (message : Message)
    (said : ∀ t ∈ s.master.sessions, t.generation = generation → ∀ offset, message = .ack offset →
      s.Has t.replicaId offset) :
    Onward s { s with master := s.master.receive generation message } := by
  rcases Master.receive_cases s.master generation message with
    ⟨t, held, offset, found, -, ack, same⟩ | ⟨-, quiet⟩
  · rw [same]
    exact agreement.acknowledge (said t held (Master.session_of_find found).2 offset ack)
  · exact agreement.silent quiet

/-- A step of a session keeps the agreement and writes an entry of the master at most. -/
theorem Agreement.advance (agreement : s.Agreement) (generation : Nat) :
    Onward s { s with master := (s.master.advance generation).1 } ∧
      ∀ e, (s.master.advance generation).2 = some (.entry e) → e ∈ s.history := by
  rcases agreement.numbered.listens_or_welcomes generation with listens | ⟨t, found, welcoming⟩
  · obtain ⟨quiet, message⟩ := Master.quiet_advance s.master listens
    refine ⟨agreement.quiet quiet ?_, fun e written => agreement.waiting e (message e written)⟩
    rintro e ⟨start, limit, found, read, member⟩
    exact LawfulLog.mem_of_read agreement.complete read member
  · rcases Master.advance_welcome s.master found welcoming with ⟨fault, same⟩ | ⟨welcome, same⟩
    · rw [same]
      exact ⟨agreement.silent (Master.quiet_endSession _ _ _), by simp⟩
    · rw [same]
      -- The welcome credits what the hello said, and the session still knows it.
      have has := agreement.welcomes t (Master.session_of_find found).1 welcoming
      have credited := agreement.ledger agreement.complete (List.prefix_refl _) agreement.stored
        (agreement.books.rebase fun _ less => has.below less) Quorum.rebase_grants.toKeeps
      exact ⟨credited.trans (credited.agreement.silent (Master.quiet_welcomed _ t)), by simp⟩

theorem Agreement.greet (agreement : s.Agreement) (address : SocketAddress)
    (first : Except Fault Message)
    (said : ∀ h, first = .ok (.hello h) → s.Has h.replicaId h.lastOffset) :
    Onward s { s with master := (s.master.greet address first).1 } := by
  rcases Master.greet_cases s.master address first with ⟨rejection, -, quiet⟩ |
    ⟨h, report, hello, -, -, seated⟩
  · exact agreement.silent quiet
  · exact agreement.seated (said h hello) seated

theorem Agreement.store (agreement : s.Agreement) {payload : Bytes} {metadata : Option Bytes}
    (admitted : LawfulLog.Admits L ⟨s.master.offset + 1, payload, metadata⟩) :
    Onward s { s with master := (s.master.store payload metadata).1 } := by
  rcases Master.store_cases s.master payload metadata with ⟨-, same⟩ |
    ⟨reason, log, kept, -, quiet⟩ | ⟨log, offset, free, taken, same⟩
  · rw [same]
    exact .refl agreement
  · have whole : LawfulLog.Complete log ∧ LawfulLog.entries log = s.history ∧
        LocalLog.highest log = s.master.offset := by
      rcases kept with rfl | ⟨fault, failed⟩
      · exact ⟨agreement.complete, rfl, rfl⟩
      · obtain ⟨sound, entries⟩ := LawfulLog.append_fails agreement.complete.sound failed
        have ends := NumberedLog.append_fails_in_place failed
        exact ⟨LawfulLog.complete_of_same agreement.complete sound entries ends, entries, ends⟩
    obtain ⟨complete, entries, ends⟩ := whole
    have refused := agreement.ledger complete (entries ▸ List.prefix_refl _)
      (fun e entry => entries ▸ agreement.stored e entry)
      (ends ▸ agreement.books.refuse reason) (Quorum.keeps_refuse reason)
    exact refused.trans (refused.agreement.silent quiet)
  · obtain ⟨next, ends⟩ := NumberedLog.append_takes_next taken
    have next' : offset = s.master.offset + 1 := next
    obtain ⟨sound, entries⟩ := LawfulLog.append_stores agreement.complete.sound taken
      (next' ▸ admitted)
    have complete := (LawfulLog.complete_of_next agreement.complete sound entries next).1
    rw [same]
    refine agreement.ledger complete ⟨_, entries.symm⟩ ?_ ?_ (.refl _)
    · intro e entry
      cases entry
      rw [entries]
      exact List.mem_append_right _ List.mem_cons_self
    · have books := agreement.books
      rw [free] at books
      rw [ends]
      exact books.store (e := ⟨offset, payload, metadata⟩) next'

theorem Agreement.announce (agreement : s.Agreement) :
    Onward s { s with master := s.master.announce.1 } := by
  rcases Master.announce_cases s.master with ⟨-, same⟩ | ⟨e, entry, -, quiet⟩
  · rw [same]
    exact .refl agreement
  · have books := agreement.books
    rw [entry] at books
    have tracked := agreement.ledger agreement.complete (List.prefix_refl _) (by simp)
      books.announce ((Quorum.keeps_track ..).trans
        Quorum.credit_grants.toKeeps)
    refine tracked.trans (tracked.agreement.quiet quiet ?_)
    rintro x rfl
    exact agreement.stored x entry

theorem Agreement.append (agreement : s.Agreement) {payload : Bytes} {metadata : Option Bytes}
    (admitted : LawfulLog.Admits L ⟨s.master.offset + 1, payload, metadata⟩) :
    Onward s { s with master := (s.master.append payload metadata).1 } := by
  have stored := agreement.store admitted
  rcases Master.append_cases s.master payload metadata with ⟨-, same⟩ | ⟨write, -, same⟩ |
    ⟨-, -, same⟩
  · rw [same]
    exact .refl agreement
  · rw [same]
    exact stored
  · rw [same]
    exact stored.trans stored.agreement.announce

end System

end QuorumLog
