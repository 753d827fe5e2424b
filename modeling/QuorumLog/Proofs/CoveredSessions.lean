import QuorumLog.Proofs.ShippingRuns

/-! All connections of a master at once, while nothing is forgotten. What each session wrote begins
what it is for, and a session whose link is streaming and that has nothing left to write has written
the log up to its end. -/

namespace QuorumLog.Master

variable {L : Type} [LocalLog L] {m : Master L} {a : Move} {first : Nat} {history : List Entry}
variable {s' : Session}

/-! ### What a move does to the sessions -/

/-- The sessions are the same ones, or there is one more, of a replica that was accepted. -/
inductive Seats (m : Master L) (a : Move) : Prop
  | same (generations : (m.move a).sessions.map (·.generation) = m.sessions.map (·.generation))
  | seated {address : SocketAddress} {h : Hello} {report : LinkReport}
      (greets : a = .greet address (.ok (.hello h)))
      (accepted : (m.greet address (.ok (.hello h))).2 = .ok report)
      (generations : (m.move a).sessions.map (·.generation) =
        m.sessions.map (·.generation) ++ [(m.move a).generation])

theorem seats_of_quiet {given : Entry → Prop} {q : Quorum}
    (quiet : Quiet given { m with quorum := q } (m.move a)) :
    Seats m a ∧ (m.move a).settings = m.settings :=
  ⟨.same quiet.generations, quiet.settings⟩

theorem store_settings (m : Master L) (payload : Bytes) (metadata : Option Bytes) :
    (m.store payload metadata).1.settings = m.settings := by
  unfold store
  split
  · rfl
  split
  · rfl
  · split <;> rfl

omit [LocalLog L] in
theorem announce_settings (m : Master L) : m.announce.1.settings = m.settings := by
  unfold announce
  split <;> rfl

/-- A move leaves the settings alone and adds no session but that of an accepted replica. -/
theorem seats_move (numbered : m.Numbered) (a : Move) :
    Seats m a ∧ (m.move a).settings = m.settings := by
  have acknowledged (id : String) (offset : Nat) (same : m.move a = m.acknowledge id offset) :
      Seats m a ∧ (m.move a).settings = m.settings := by
    obtain ⟨sessions, settings⟩ := acknowledge_same m id offset
    exact ⟨.same (by rw [same, sessions]), by rw [same, settings]⟩
  have stored (payload : Bytes) (metadata : Option Bytes) :
      (m.store payload metadata).1.sessions.map (·.generation) = m.sessions.map (·.generation) :=
    congrArg _ (store_same m payload metadata).2.1
  cases a with
  | append payload metadata =>
    rcases move_append m payload metadata with ⟨-, same⟩ | same | same
    · exact ⟨.same (by rw [same]), by rw [same]⟩
    · exact ⟨.same (by rw [same]; exact stored payload metadata),
        by rw [same]; exact store_settings m payload metadata⟩
    · refine ⟨.same ?_, ?_⟩
      · rw [same]
        exact (announce_books _).2.2.2.2.trans (stored payload metadata)
      · rw [same]
        exact (announce_settings _).trans (store_settings m payload metadata)
  | store payload metadata => exact ⟨.same (stored payload metadata), store_settings m _ _⟩
  | announce => exact ⟨.same (announce_books m).2.2.2.2, announce_settings m⟩
  | purge offset => exact ⟨.same rfl, rfl⟩
  | greet address message =>
    rcases greet_cases m address message with ⟨rejection, -, quiet⟩ |
      ⟨h, report, rfl, accepted, -, seated⟩
    · exact seats_of_quiet quiet
    · exact ⟨.seated rfl accepted seated.generations, seated.settings⟩
  | advance generation =>
    obtain ⟨q, given, quiet⟩ := quiet_step m numbered generation
    exact seats_of_quiet quiet
  | receive generation message =>
    rcases receive_cases m generation message with ⟨s, -, offset, -, -, -, same⟩ | ⟨-, quiet⟩
    · exact acknowledged s.replicaId offset same
    · exact seats_of_quiet quiet
  | acknowledge id offset => exact acknowledged id offset rfl
  | disconnect id => exact seats_of_quiet (quiet_closeLink m id none : Silent m _)
  | endSession generation fault =>
    exact seats_of_quiet (quiet_endSession m generation fault : Silent m _)
  | start bind => exact seats_of_quiet (quiet_start m bind : Silent m _)
  | stop => exact seats_of_quiet (quiet_stop m : Silent m _)

/-! ### Every session -/

variable [LawfulLog L]

/-- The log took what is on record, and every connection carries and covers its part of that. -/
structure Covered (first : Nat) (history : List Entry) (m : Master L) : Prop extends
    Ledger first history m where
  connections : ∀ s ∈ m.sessions, ∃ id resume sent,
    Conveys first s.generation resume id history sent m ∧ Covers s.generation resume history sent m

theorem covered_of_create {settings : Settings} {log : L} (sound : LawfulLog.Sound log)
    (created : create settings log = .ok m) :
    m.Covered (LocalLog.oldest log) (LawfulLog.entries log) := by
  refine ⟨ledger_of_create sound created, ?_⟩
  obtain ⟨-, rfl⟩ := create_of_ok created
  intro s held
  cases held

/-- While nothing is forgotten, every connection goes on covering its part, and so does a new one. -/
theorem Covered.move [PurgeableLog L] (covered : m.Covered first history) (a : Move)
    (admitted : ∀ e, m.taken? a = some e → LawfulLog.Admits L e) (keeps : a.isPurge = false) :
    (m.move a).Covered first (history ++ (m.taken? a).toList) := by
  refine ⟨covered.toLedger.move a admitted, fun s' held => ?_⟩
  have named := List.mem_map_of_mem (f := Session.generation) held
  have old (before : s'.generation ∈ m.sessions.map (·.generation)) : ∃ id resume sent,
      Conveys first s'.generation resume id (history ++ (m.taken? a).toList) sent (m.move a) ∧
        Covers s'.generation resume (history ++ (m.taken? a).toList) sent (m.move a) := by
    obtain ⟨s, member, same⟩ := List.mem_map.mp before
    obtain ⟨id, resume, sent, conveys, covers⟩ := covered.connections s member
    rw [same] at conveys covers
    exact ⟨id, resume, _, conveys.move a admitted, covers.move conveys a admitted keeps⟩
  cases (seats_move covered.names a).1 with
  | same generations =>
    rw [generations] at named
    exact old named
  | @seated address h report greets accepted generations =>
    rw [generations] at named
    rcases List.mem_append.mp named with before | new
    · exact old before
    · subst greets
      rw [List.mem_singleton.mp new, show m.taken? (.greet address (.ok (.hello h))) = none from rfl,
        Option.toList_none, List.append_nil]
      exact ⟨_, _, _, conveys_of_greet covered.toLedger accepted,
        covers_of_greet covered.toLedger accepted⟩

/-- In a move a session goes on by the entry that it writes, if it writes one, and that is the one it
was to write. -/
theorem Covered.next [PurgeableLog L] (covered : m.Covered first history)
    (admitted : ∀ e, m.taken? a = some e → LawfulLog.Admits L e) (held : s' ∈ (m.move a).sessions)
    (issued : s'.generation ≤ m.generation) : ∃ s ∈ m.sessions, s.generation = s'.generation ∧
      s'.next = s.next + (m.frame? s'.generation a).toList.length ∧
      ∀ e, m.frame? s'.generation a = some e → e.offset = s.next := by
  have named := List.mem_map_of_mem (f := Session.generation) held
  have before : s'.generation ∈ m.sessions.map (·.generation) := by
    cases (seats_move covered.names a).1 with
    | same generations => rwa [generations] at named
    | @seated address h report greets accepted generations =>
      rw [generations] at named
      refine (List.mem_append.mp named).resolve_right fun new => ?_
      subst greets
      have later := (greet_cases m address (.ok (.hello h))).resolve_left ?_
      · obtain ⟨_, _, -, -, -, seated⟩ := later
        rw [List.mem_singleton.mp new] at issued
        have newest : (m.move (.greet address (.ok (.hello h)))).generation = m.generation + 1 :=
          seated.generation
        omega
      · rintro ⟨rejection, rejected, -⟩
        cases accepted.symm.trans rejected
  obtain ⟨s, member, same⟩ := List.mem_map.mp before
  obtain ⟨id, resume, sent, conveys, -⟩ := covered.connections s member
  rw [same] at conveys
  have moved := conveys.move a admitted
  have now := (conveys.sessions s member same).1
  have later := (moved.sessions s' held rfl).1
  refine ⟨s, member, same, ?_, fun e wrote => ?_⟩
  · rw [List.length_append] at later
    omega
  · have begins := moved.begins
    rw [wrote, Option.toList_some] at begins
    have places := offsets_of_begins moved.offsets moved.start begins
    rw [List.map_append, List.length_append, List.length_singleton, List.range'_1_concat,
      List.map_singleton] at places
    have last := (List.append_inj' places rfl).2
    simp only [List.cons.injEq, and_true] at last
    omega

/-- A session whose link is streaming and that has nothing left to write, while no entry waits to be
announced, has written everything up to the end of the log. -/
theorem Covered.whole (covered : m.Covered first history) {s : Session} (held : s ∈ m.sessions)
    (fed : m.Fed s.generation) (done : s.waiting = []) (idle : m.unannounced = none) :
    s.next = m.offset + 1 := by
  obtain ⟨id, resume, sent, conveys, covers⟩ := covered.connections s held
  have next := (conveys.sessions s held rfl).1
  have whole := (covers.late s held rfl fed).2
  rw [done, idle, Option.toList_none, List.append_nil, List.append_nil] at whole
  have lengths := congrArg List.length conveys.due_offsets
  rw [← whole, List.length_map, List.length_range'] at lengths
  have reached := conveys.reached
  omega

end QuorumLog.Master
