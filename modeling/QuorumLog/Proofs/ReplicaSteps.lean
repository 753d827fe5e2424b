import QuorumLog.Channel
import QuorumLog.Proofs.LogContract

/-! What a replica does on a connection, as far as its log is concerned. From entries of one history it
takes only the next one, so a log that is the beginning of that history stays one, and it answers only
for what it holds. -/

namespace QuorumLog

variable {L : Type} [LocalLog L] [LawfulLog L] {history : List Entry}

namespace Replica

variable {r r' : Replica L} {big : L}

/-- The replica keeps its name, and its log goes on along a history. -/
structure Follows (history : List Entry) (before after : Replica L) : Prop where
  settings : after.settings = before.settings
  complete : LawfulLog.Complete after.log
  begins : LawfulLog.entries after.log <+: history
  longer : before.offset ≤ after.offset

theorem Follows.refl (complete : LawfulLog.Complete r.log)
    (begins : LawfulLog.entries r.log <+: history) : Follows history r r :=
  ⟨rfl, complete, begins, Nat.le_refl _⟩

/-- A replica that changes nothing but its state of mind goes on. -/
theorem Follows.of_same (complete : LawfulLog.Complete r.log)
    (begins : LawfulLog.entries r.log <+: history) (settings : r'.settings = r.settings)
    (log : r'.log = r.log) : Follows history r r' :=
  ⟨settings, log ▸ complete, log ▸ begins, Nat.le_of_eq (congrArg LocalLog.highest log.symm)⟩

/-- An entry of the history is taken if it is the next one, and what is answered for is held. -/
theorem apply_follows (large : LawfulLog.Complete big) (complete : LawfulLog.Complete r.log)
    (begins : LawfulLog.entries r.log <+: LawfulLog.entries big) {e : Entry}
    (known : e ∈ LawfulLog.entries big) {result : Except Fault Unit}
    (ran : r.apply e = (r', result)) : Follows (LawfulLog.entries big) r r' ∧
      (result = .ok () → e.offset ≤ r'.offset) := by
  unfold apply at ran
  dsimp only at ran
  split at ran
  · rename_i old
    cases ran
    have held : e.offset < r.offset + 1 := old
    exact ⟨.of_same complete begins rfl rfl, fun _ => Nat.le_of_lt_succ held⟩
  split at ran
  · cases ran
    exact ⟨.of_same complete begins rfl rfl, fun done => by cases done⟩
  split at ran
  · rename_i log fault failed
    cases ran
    obtain ⟨sound, same, ends⟩ := LawfulLog.appendEntry_fails complete.sound failed
    exact ⟨⟨rfl, LawfulLog.complete_of_same complete sound same ends, same ▸ begins,
      Nat.le_of_eq ends.symm⟩, fun done => by cases done⟩
  · rename_i log stored
    cases ran
    -- The replica took the next entry, and the history has just one at that offset.
    have admitted := LawfulLog.entries_admitted large.sound known
    obtain ⟨next, sound, more⟩ := LawfulLog.appendEntry_stores complete.sound stored admitted
    have next' : e.offset = LocalLog.highest r.log + 1 := next
    obtain ⟨complete', ends⟩ := LawfulLog.complete_of_next complete sound more next'
    refine ⟨⟨rfl, complete', ?_, ?_⟩, fun _ => Nat.le_of_eq ends.symm⟩
    · exact more ▸ LawfulLog.prefix_of_next complete large begins known next'
    · show LocalLog.highest r.log ≤ LocalLog.highest log
      omega

/-- Whatever arrives, the log goes on along the history, and an acknowledgment is for what it holds. -/
theorem receive_follows (large : LawfulLog.Complete big) (complete : LawfulLog.Complete r.log)
    (begins : LawfulLog.entries r.log <+: LawfulLog.entries big) {message : Message}
    (known : ∀ e, message = .entry e → e ∈ LawfulLog.entries big)
    {result : Except Fault (Option Message)} (ran : r.receive message = (r', result)) :
    Follows (LawfulLog.entries big) r r' ∧ ∀ answer, result = .ok (some answer) →
      (∃ timestamp, answer = .pong timestamp) ∨ ∃ offset ≤ r'.offset, answer = .ack offset := by
  unfold receive at ran
  split at ran
  · rename_i e
    cases applied : r.apply e with
    | mk taken outcome =>
      rw [applied] at ran
      obtain ⟨follows, held⟩ := apply_follows large complete begins (known e rfl) applied
      cases outcome with
      | error fault =>
        cases ran
        exact ⟨follows, fun _ done => by cases done⟩
      | ok _ =>
        cases ran
        refine ⟨⟨follows.settings, follows.complete, follows.begins, follows.longer⟩, ?_⟩
        intro answer done
        cases done
        exact .inr ⟨e.offset, held rfl, rfl⟩
  all_goals cases ran
  · exact ⟨.of_same complete begins rfl rfl, fun _ done => by cases done⟩
  · refine ⟨.refl complete begins, fun answer done => ?_⟩
    cases done
    exact .inl ⟨_, rfl⟩
  all_goals exact ⟨.refl complete begins, fun _ done => by cases done⟩

omit [LocalLog L] [LawfulLog L] in
theorem welcome_same {held : Nat} {reply : Except Fault Message} {result : Except Fault Welcomed}
    (ran : r.welcome held reply = (r', result)) : r'.settings = r.settings ∧ r'.log = r.log := by
  unfold welcome at ran
  split at ran
  · cases ran; exact ⟨rfl, rfl⟩
  · split at ran <;> cases ran <;> exact ⟨rfl, rfl⟩
  · cases ran; exact ⟨rfl, rfl⟩
  · cases ran; exact ⟨rfl, rfl⟩

omit [LawfulLog L] in
/-- A hello tells the name of the replica and the end of its log. -/
theorem hello_of_ok {h : Hello} (said : r.hello = .ok h) :
    h.replicaId = r.settings.nodeId ∧ h.lastOffset = r.offset := by
  unfold hello at said
  dsimp only at said
  split at said
  · cases said; exact ⟨rfl, rfl⟩
  · cases read : LocalLog.checksumAt r.log r.offset with
    | error fault => rw [read] at said; cases said
    | ok sum => rw [read] at said; cases said; exact ⟨rfl, rfl⟩

end Replica

namespace Channel

variable {r r' : Replica L} {big : L} {c c' : Channel}

/-- The replica keeps to the history of what is on its way, leaves the session of the master alone, and
sends acknowledgments for what it holds and signs of life, nothing else. -/
structure Heard (history : List Entry) (r r' : Replica L) (before after : Channel) : Prop where
  follows : Replica.Follows history r r'
  generation : after.generation = before.generation
  down : ∀ message ∈ after.down, message ∈ before.down
  up : ∀ message ∈ after.up, message ∈ before.up ∨ (∃ timestamp, message = .pong timestamp) ∨
    ∃ offset ≤ r'.offset, message = .ack offset

/-- The replica leaves the connection. -/
private theorem heard_leave (follows : Replica.Follows history r r') (ending : Except Fault Unit) :
    Heard history r r' c (c.leave ending) :=
  ⟨follows, rfl, fun _ member => absurd member List.not_mem_nil, fun _ => .inl⟩

/-- What the replica does with the message at the front. -/
theorem toReplica_heard (large : LawfulLog.Complete big) (complete : LawfulLog.Complete r.log)
    (begins : LawfulLog.entries r.log <+: LawfulLog.entries big)
    (known : ∀ e, .entry e ∈ c.down → e ∈ LawfulLog.entries big) :
    Heard (LawfulLog.entries big) r (c.toReplica r).1 c (c.toReplica r).2 := by
  have idle : Heard (LawfulLog.entries big) r r c c :=
    ⟨.refl complete begins, rfl, fun _ => id, fun _ => .inl⟩
  have left (ending : Except Fault Unit) : Heard (LawfulLog.entries big) r r c (c.leave ending) :=
    heard_leave (.refl complete begins) ending
  unfold toReplica
  split
  · exact idle
  · split
    · cases welcomed : r.welcome _ (.error (.io .earlyEnd)) with
      | mk after result =>
        obtain ⟨settings, log⟩ := Replica.welcome_same welcomed
        exact heard_leave (.of_same complete begins settings log) _
    · exact idle
  · rename_i message later _ down
    split
    · rename_i after fault refused
      obtain ⟨settings, log⟩ := Replica.welcome_same refused
      exact heard_leave (.of_same complete begins settings log) _
    · rename_i after w welcomed
      obtain ⟨settings, log⟩ := Replica.welcome_same welcomed
      exact ⟨.of_same complete begins settings log, rfl,
        fun _ member => down ▸ List.mem_cons_of_mem message member, fun _ => .inl⟩
  · split
    · exact left _
    · exact idle
  · rename_i message later _ down
    cases received : r.receive message with
    | mk after result =>
      have front : message ∈ c.down := down ▸ List.mem_cons_self
      obtain ⟨follows, answers⟩ := Replica.receive_follows large complete begins
        (fun e same => known e (same ▸ front)) received
      cases result with
      | error fault => exact heard_leave follows _
      | ok answer =>
        dsimp only
        unfold Channel.answer
        split
        · exact ⟨follows, rfl, fun _ member => down ▸ List.mem_cons_of_mem message member,
            fun _ => .inl⟩
        · refine ⟨follows, rfl, fun _ member => down ▸ List.mem_cons_of_mem message member, ?_⟩
          intro sent member
          rcases List.mem_append.mp member with before | new
          · exact .inl before
          · exact .inr (answers sent (by rw [Option.mem_toList.mp new]))

omit [LawfulLog L] in
/-- Dialling changes nothing but the state of mind. -/
theorem dial_same (r : Replica L) (address : SocketAddress) :
    (dial r address).1.settings = r.settings ∧ (dial r address).1.log = r.log := by
  unfold dial Replica.dial
  split
  · rename_i dialled
    split at dialled <;> cases dialled
    exact ⟨rfl, rfl⟩
  · rename_i dialled
    split at dialled <;> cases dialled
    exact ⟨rfl, rfl⟩

omit [LawfulLog L] in
/-- On a new connection there is nothing but the hello. -/
theorem dial_of_ok {address : SocketAddress} (dialled : dial r address = (r', .ok c)) :
    ∃ h, c = { address, attempt := .greeting h.lastOffset, up := [.hello h] } ∧
      h.replicaId = r'.settings.nodeId ∧ h.lastOffset = r'.offset := by
  unfold dial at dialled
  split at dialled
  · cases dialled
  · rename_i after a _
    obtain ⟨rfl, said⟩ := Prod.mk.inj dialled
    cases hello : after.hello with
    | error fault => simp [hello, Except.bind] at said
    | ok h =>
      simp only [hello, Except.bind] at said
      split at said <;> cases said
      exact ⟨h, rfl, Replica.hello_of_ok hello⟩

end Channel

end QuorumLog
