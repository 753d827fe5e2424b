import QuorumLog.Proofs.CoveredSessions
import QuorumLog.Proofs.SystemRuns

/-! A replica in step with its master. What the session of a connection has written is what the replica
holds together with what is still on its way down, each entry right behind the one before. So when
nothing is on its way and the session has nothing left to write, the replica holds all that the master
holds, however often connections broke before and whatever other replicas do. -/

namespace QuorumLog

namespace Channel

/-- The entries on their way to the replica. -/
def arriving (c : Channel) : List Entry := c.down.filterMap Message.entry?

/-- The replica takes part in the connection. -/
def IsLive (c : Channel) : Prop := c.attempt.isOver = false

theorem arriving_send (c : Channel) (messages : List Message) (whole : c.lost = false) :
    (c.send messages).arriving = c.arriving ++ messages.filterMap Message.entry? := by
  rw [send, if_neg (by simp [whole]), arriving, arriving, List.filterMap_append]

theorem send_same (c : Channel) (messages : List Message) :
    (c.send messages).attempt = c.attempt ∧ (c.send messages).generation = c.generation ∧
      (c.send messages).lost = c.lost ∧ (c.send messages).up = c.up := by
  unfold send
  split <;> exact ⟨rfl, rfl, rfl, rfl⟩

end Channel

variable {L : Type} [LocalLog L] {m : Master L} {c c' : Channel} {held number : Nat} {a : Move}
variable {history : List Entry} {first : Nat}

/-! ### One connection -/

/-- A connection in step with the log of its replica, which ends at `held`, and with the session that
the master has for it. -/
structure Channel.Meets (m : Master L) (held : Nat) (c : Channel) : Prop where
  whole : c.lost = false
  fresh : c.generation = none → c.arriving = [] ∧ ∀ h, .hello h ∈ c.up → h.lastOffset = held
  numbered : c.arriving.map Entry.offset = List.range' (held + 1) c.arriving.length
  session : ∀ t ∈ m.sessions, c.generation = some t.generation →
    t.next = held + 1 + c.arriving.length

namespace Channel

variable [LawfulLog L] [PurgeableLog L]

/-- A move that writes nothing on the connection leaves it in step. -/
theorem Meets.move (meets : c.Meets m held) (covered : m.Covered first history)
    (admitted : ∀ e, m.taken? a = some e → LawfulLog.Admits L e)
    (issued : ∀ g, c.generation = some g → g ≤ m.generation)
    (quiet : ∀ g, c.generation = some g → m.frame? g a = none) : c.Meets (m.move a) held where
  whole := meets.whole
  fresh := meets.fresh
  numbered := meets.numbered
  session t' member named := by
    obtain ⟨t, before, same, next, -⟩ := covered.next admitted member (issued _ named)
    rw [next, quiet _ named, Option.toList_none, List.length_nil, Nat.add_zero]
    exact meets.session t before (named.trans (congrArg some same.symm))

/-- What the session writes is the entry behind those that are on their way. -/
theorem Meets.ship (meets : c.Meets m held) (covered : m.Covered first history)
    (issued : ∀ g, c.generation = some g → g ≤ m.generation) :
    (c.ship m).2.Meets (c.ship m).1 held := by
  unfold Channel.ship
  split
  · exact meets
  rename_i g named
  have new : (m.advance g).2.toList.filterMap Message.entry? =
      (m.frame? g (.advance g)).toList := by
    rw [Master.frame?, if_pos rfl]
    cases (m.advance g).2 <;> rfl
  have arriving (closed : Bool) : ({ c with closed }.send (m.advance g).2.toList).arriving =
      c.arriving ++ (m.frame? g (.advance g)).toList := by
    refine (arriving_send { c with closed } _ meets.whole).trans ?_
    rw [new]
    rfl
  have goes (t' : Session) (member : t' ∈ (m.move (.advance g)).sessions)
      (here : t'.generation = g) : ∃ t ∈ m.sessions, t.generation = g ∧
        t'.next = t.next + (m.frame? g (.advance g)).toList.length ∧
        ∀ e, m.frame? g (.advance g) = some e → e.offset = t.next := by
    subst here
    exact covered.next (fun e took => by cases took) member (issued _ named)
  refine ⟨?_, ?_, ?_, ?_⟩
  · rw [(send_same _ _).2.2.1]
    exact meets.whole
  · rw [(send_same _ _).2.1]
    intro none
    cases named.symm.trans none
  · rw [arriving, List.map_append, meets.numbered, List.length_append]
    cases wrote : m.frame? g (.advance g) with
    | none => simp
    | some e =>
      obtain ⟨t, found⟩ : ∃ t, m.session? g = some t := by
        cases found : m.session? g with
        | some t => exact ⟨t, rfl⟩
        | none => simp [Master.frame?, Master.advance, found] at wrote
      obtain ⟨member, here⟩ := Master.session_of_find found
      have kept := (Master.sessions_move covered.names (.advance g)).mem
        (List.mem_map_of_mem (f := Session.generation) member)
      obtain ⟨t', member', here'⟩ := List.mem_map.mp kept
      obtain ⟨u, before, same, -, due⟩ := goes t' member' (here'.trans here)
      have next := meets.session u before (named.trans (congrArg some same.symm))
      rw [Option.toList_some, List.map_singleton, List.length_singleton, List.range'_concat,
        Nat.one_mul, due e wrote, next]
  · intro t' member same
    rw [(send_same _ _).2.1] at same
    obtain ⟨t, before, here, next, -⟩ :=
      goes t' member (Option.some.inj (named.symm.trans same)).symm
    rw [next, meets.session t before (named.trans (congrArg some here.symm)), arriving,
      List.length_append]
    omega

omit [LawfulLog L] [PurgeableLog L] in
/-- The master does nothing on a connection, or takes the first message, or hears a later one. -/
theorem toMaster_cases (m : Master L) (c : Channel) : c.toMaster m = (m, c) ∨
    (∃ first rest, c.generation = none ∧ c.up = first :: rest ∧
      c.toMaster m = c.greet m (.ok first) rest) ∨
    ∃ g message later, c.generation = some g ∧ c.up = message :: later ∧
      c.toMaster m = (m.move (.receive g message), { c with up := later }) := by
  unfold toMaster
  split
  · exact .inl rfl
  · rename_i first rest none up
    split
    · exact .inl rfl
    · exact .inr (.inl ⟨first, rest, none, up, rfl⟩)
  · rename_i g message later named up
    split
    · exact .inl rfl
    · exact .inr (.inr ⟨g, message, later, named, up, rfl⟩)

omit [LawfulLog L] [PurgeableLog L] in
/-- The first message is turned away, with a failure if anything, or it is a hello that is accepted. -/
theorem greet_cases (m : Master L) (c : Channel) (first : Message) (rest : List Message) :
    (∃ reply : Option Message, reply.bind Message.entry? = none ∧
      c.greet m (.ok first) rest = (m.move (.greet c.address (.ok first)),
        { c with closed := true, up := [] }.send reply.toList)) ∨
    ∃ h, first = .hello h ∧
      Master.Seated h.replicaId h.lastOffset m (m.move (.greet c.address (.ok first))) ∧
      c.greet m (.ok first) rest = (m.move (.greet c.address (.ok first)),
        { c with
          generation := some (m.move (.greet c.address (.ok first))).generation
          up := rest }) := by
  have moved : m.move (.greet c.address (.ok first)) = (m.greet c.address (.ok first)).1 := rfl
  rw [greet, moved]
  rcases Master.greet_cases m c.address (.ok first) with ⟨rejection, rejected, -⟩ |
    ⟨h, report, hello, accepted, -, seated⟩
  · left
    have reply {x : Message} (answer : rejection.reply = some x) :=
      Master.greet_reply rejected answer
    cases greeted : m.greet c.address (.ok first) with
    | mk m' result =>
      rw [greeted] at rejected
      cases rejected
      refine ⟨rejection.reply, ?_, rfl⟩
      cases answer : rejection.reply with
      | none => rfl
      | some x =>
        obtain ⟨code, text, rfl⟩ := reply answer
        rfl
  · right
    cases greeted : m.greet c.address (.ok first) with
    | mk m' result =>
      rw [greeted] at accepted seated
      cases accepted
      exact ⟨h, Except.ok.inj hello, seated, rfl⟩

/-- A connection stays in step whatever the master makes of a message. -/
theorem Meets.toMaster (meets : c.Meets m held) (covered : m.Covered first history)
    (issued : ∀ g, c.generation = some g → g ≤ m.generation) :
    (c.toMaster m).2.Meets (c.toMaster m).1 held := by
  rcases toMaster_cases m c with same | ⟨message, rest, none, up, same⟩ |
    ⟨g, message, later, named, up, same⟩
  · rw [same]
    exact meets
  · rw [same]
    obtain ⟨empty, said⟩ := meets.fresh none
    rcases greet_cases m c message rest with ⟨reply, silent, turned⟩ | ⟨h, rfl, seated, taken⟩
    · rw [turned]
      have nothing : reply.toList.filterMap Message.entry? = [] := by
        cases reply with
        | none => rfl
        | some x => simpa using silent
      have arriving : ({ c with closed := true, up := [] }.send reply.toList).arriving = [] := by
        rw [arriving_send { c with closed := true, up := [] } _ meets.whole, nothing,
          List.append_nil]
        exact empty
      obtain ⟨-, generation, lost, up'⟩ :=
        send_same { c with closed := true, up := [] } reply.toList
      refine ⟨lost.trans meets.whole, fun _ => ⟨arriving, fun h member => ?_⟩, ?_, ?_⟩
      · rw [up'] at member
        cases member
      · rw [arriving]
        rfl
      · rw [generation]
        intro t member some
        cases none.symm.trans some
    · rw [taken]
      refine ⟨meets.whole, (fun none => by cases none), meets.numbered,
        fun t member newest => ?_⟩
      obtain ⟨t', found, -, next, -⟩ := seated.session covered.names
      obtain ⟨member', here⟩ := Master.session_of_find found
      have same : t = t' := (covered.names.seated seated).session_unique member member'
        ((Option.some.inj newest).symm.trans here.symm)
      have last := said h (up ▸ List.mem_cons_self)
      show t.next = held + 1 + c.arriving.length
      rw [same, next, last, empty, List.length_nil, Nat.add_zero]
  · rw [same]
    have moved := meets.move (a := .receive g message) covered (fun e took => by cases took) issued
      fun _ _ => rfl
    exact ⟨moved.whole, (fun none => by cases named.symm.trans none), moved.numbered,
      moved.session⟩

end Channel

/-! ### The replica -/

section Replica

variable [LawfulLog L] {r r' : Replica L} {message : Message}

/-- An entry with the next offset is taken, or the session ends. -/
theorem Replica.apply_next (complete : LawfulLog.Complete r.log) {e : Entry}
    (admits : LawfulLog.Admits L e) (next : e.offset = r.offset + 1)
    (ran : r.apply e = (r', .ok ())) : r'.offset = r.offset + 1 := by
  unfold apply at ran
  dsimp only at ran
  rw [if_neg (by omega), if_neg (by omega)] at ran
  split at ran
  · cases ran
  · rename_i log stored
    cases ran
    obtain ⟨place, sound, more⟩ := LawfulLog.appendEntry_stores complete.sound stored admits
    exact (LawfulLog.complete_of_next complete sound more place).2.trans next

/-- What a replica takes from a message is the entry in it, and it says no hello. -/
theorem Replica.receive_next (complete : LawfulLog.Complete r.log)
    (next : ∀ e, message = .entry e → LawfulLog.Admits L e ∧ e.offset = r.offset + 1)
    {answer : Option Message} (ran : r.receive message = (r', .ok answer)) :
    r'.offset = r.offset + message.entry?.toList.length ∧ ∀ h, answer ≠ some (.hello h) := by
  unfold receive at ran
  cases message with
  | entry e =>
    cases applied : r.apply e with
    | mk taken outcome =>
      simp only [applied] at ran
      cases outcome with
      | error fault => cases ran
      | ok _ =>
        cases ran
        obtain ⟨admits, here⟩ := next e rfl
        have grown := Replica.apply_next complete admits here applied
        exact ⟨grown, by simp⟩
  | failure code text => cases ran
  | _ => cases ran; exact ⟨rfl, by simp⟩

namespace Channel

/-- A connection stays in step when the replica handles the message at the front. -/
theorem Meets.toReplica (meets : c.Meets m r.offset) (complete : LawfulLog.Complete r.log)
    (admitted : ∀ e, .entry e ∈ c.down → LawfulLog.Admits L e)
    (live : (c.toReplica r).2.IsLive) : (c.toReplica r).2.Meets m (c.toReplica r).1.offset := by
  have same {after : Replica L} (log : after.log = r.log) : c.Meets m after.offset := by
    rwa [Replica.offset, log]
  unfold Channel.toReplica at live ⊢
  split at live
  · exact meets
  · split at live
    · cases live
    · rename_i closed
      rw [if_neg closed]
      exact meets
  · rename_i held message later _ down
    split at live
    · cases live
    · rename_i after w welcomed
      have log := (Replica.welcome_same welcomed).2
      have silent : message.entry? = none := by
        cases message with
        | entry e => cases welcomed
        | _ => rfl
      have arriving : c.arriving = later.filterMap Message.entry? := by
        rw [Channel.arriving, down, List.filterMap_cons_none silent]
      have meets' : c.Meets m after.offset := same log
      refine ⟨meets'.whole, fun none => ?_, ?_, fun t member named => ?_⟩
      · obtain ⟨empty, said⟩ := meets'.fresh none
        exact ⟨arriving.symm.trans empty, said⟩
      · have numbered := meets'.numbered
        rwa [arriving] at numbered
      · have next := meets'.session t member named
        rwa [arriving] at next
  · split at live
    · cases live
    · rename_i closed
      rw [if_neg closed]
      exact meets
  · rename_i message later _ down
    cases received : r.receive message with
    | mk after result =>
      rw [received] at live
      cases result with
      | error fault => cases live
      | ok answer =>
        have split : c.arriving = message.entry?.toList ++ later.filterMap Message.entry? := by
          rw [Channel.arriving, down]
          cases entry : message.entry? with
          | none => rw [List.filterMap_cons_none entry]; rfl
          | some e => rw [List.filterMap_cons_some entry]; rfl
        have numbered := meets.numbered
        rw [split, List.map_append, List.length_append, ← List.range'_append_1] at numbered
        obtain ⟨front, rest⟩ := List.append_inj numbered (by simp)
        have next : ∀ e, message = .entry e → LawfulLog.Admits L e ∧ e.offset = r.offset + 1 := by
          rintro e rfl
          exact ⟨admitted e (down ▸ List.mem_cons_self), by simpa [Message.entry?] using front⟩
        obtain ⟨grown, silent⟩ := Replica.receive_next complete next received
        have answered : { c with down := later }.answer answer.toList =
            { c with down := later, up := c.up ++ answer.toList } := by
          rw [Channel.answer, if_neg (by simp [meets.whole])]
        dsimp only
        rw [answered]
        refine ⟨meets.whole, fun none => ?_, ?_, fun t member named => ?_⟩
        · obtain ⟨empty, said⟩ := meets.fresh none
          rw [split] at empty
          obtain ⟨nothing, empty'⟩ := List.append_eq_nil_iff.mp empty
          rw [nothing, List.length_nil, Nat.add_zero] at grown
          refine ⟨empty', fun h sent => grown ▸ said h ?_⟩
          rcases List.mem_append.mp sent with before | new
          · exact before
          · exact absurd (Option.mem_toList.mp new) (silent h)
        · rw [grown, Nat.add_right_comm]
          exact rest
        · have due := meets.session t member named
          rw [split, List.length_append] at due
          rw [due, grown]
          show _ = _ + (later.filterMap Message.entry?).length
          omega

end Channel

end Replica

/-! ### The work of the master -/

theorem Move.taken?_plain (m : Master L) (plain : a.isPlain) : m.taken? a = none := by
  cases a with
  | append | store | announce | purge => cases plain
  | _ => rfl

theorem Move.keeps_plain (plain : a.isPlain) : a.isPurge = false := by
  cases a with
  | append | store | announce | purge => cases plain
  | _ => rfl

/-- What the work of the master on one connection comes to: it does at most one thing, writes on no
other connection, and the connection stays in step as long as the replica takes part in it. -/
structure Channel.Worked (m : Master L) (c : Channel) (result : Master L × Channel) : Prop where
  master : result.1 = m ∨ ∃ a : Move, result.1 = m.move a ∧ a.isPlain ∧
    ∀ g, c.generation ≠ some g → m.frame? g a = none
  left : result.2.IsLive → c.IsLive
  named : ∀ g, result.2.generation = some g → c.generation = some g ∨ m.generation < g
  meets : ∀ held, result.2.IsLive → c.Meets m held → result.2.Meets result.1 held

namespace Channel

variable [LawfulLog L] [PurgeableLog L]

theorem worked_ship (covered : m.Covered first history)
    (issued : ∀ g, c.generation = some g → g ≤ m.generation) : Worked m c (c.ship m) := by
  have meets : ∀ held, (c.ship m).2.IsLive → c.Meets m held →
      (c.ship m).2.Meets (c.ship m).1 held := fun held _ meets => meets.ship covered issued
  unfold Channel.ship at meets ⊢
  split at meets
  · exact ⟨.inl rfl, id, fun _ => .inl, meets⟩
  · rename_i g named
    refine ⟨.inr ⟨.advance g, rfl, rfl, fun other apart => ?_⟩, fun live => ?_, fun other same => ?_,
      meets⟩
    · rw [Master.frame?, if_neg fun same => apart (named.trans (congrArg some same))]
    · rw [IsLive, (send_same _ _).1] at live
      exact live
    · rw [(send_same _ _).2.1] at same
      exact .inl same

theorem worked_toMaster (covered : m.Covered first history)
    (issued : ∀ g, c.generation = some g → g ≤ m.generation) : Worked m c (c.toMaster m) := by
  have meets : ∀ held, (c.toMaster m).2.IsLive → c.Meets m held →
      (c.toMaster m).2.Meets (c.toMaster m).1 held := fun held _ meets =>
    meets.toMaster covered issued
  rcases toMaster_cases m c with same | ⟨message, rest, none, up, same⟩ |
    ⟨g, message, later, named, up, same⟩
  · rw [same] at meets ⊢
    exact ⟨.inl rfl, id, fun _ => .inl, meets⟩
  · rw [same] at meets ⊢
    rcases greet_cases m c message rest with ⟨reply, -, turned⟩ | ⟨h, -, seated, taken⟩
    · rw [turned] at meets ⊢
      obtain ⟨attempt, generation, -⟩ := send_same { c with closed := true, up := [] } reply.toList
      refine ⟨.inr ⟨.greet c.address (.ok message), rfl, rfl, fun _ _ => rfl⟩, fun live => ?_,
        fun g some => ?_, meets⟩
      · rwa [IsLive, attempt] at live
      · exact .inl (generation.symm.trans some)
    · rw [taken] at meets ⊢
      refine ⟨.inr ⟨.greet c.address (.ok message), rfl, rfl, fun _ _ => rfl⟩, id,
        fun g some => .inr ?_, meets⟩
      obtain rfl := Option.some.inj some
      rw [seated.generation]
      exact Nat.lt_succ_self _
  · rw [same] at meets ⊢
    exact ⟨.inr ⟨.receive g message, rfl, rfl, fun _ _ => rfl⟩, id, fun _ => .inl, meets⟩

theorem worked_hangUp (covered : m.Covered first history)
    (issued : ∀ g, c.generation = some g → g ≤ m.generation) : Worked m c (c.hangUp m) := by
  have silent {held : Nat} {m' : Master L} (meets : c.Meets m' held) :
      Meets m' held { c with closed := true, up := [] } :=
    ⟨meets.whole, fun none => ⟨(meets.fresh none).1, fun h sent => by cases sent⟩, meets.numbered,
      meets.session⟩
  unfold hangUp
  split
  · exact ⟨.inl rfl, id, fun _ => .inl, fun held _ meets => silent meets⟩
  · rename_i g named
    refine ⟨.inr ⟨.endSession g none, rfl, rfl, fun _ _ => rfl⟩, id, fun _ => .inl,
      fun held _ meets => silent ?_⟩
    exact meets.move (a := .endSession g none) covered (fun e took => by cases took) issued
      fun _ _ => rfl

omit [LawfulLog L] [PurgeableLog L] in
theorem worked_breakOff (m : Master L) (c : Channel) : Worked m c (m, c.breakOff) :=
  ⟨.inl rfl, (fun live => by cases live), fun _ => .inl, (fun held live => by cases live)⟩

end Channel

end QuorumLog
