import QuorumLog.Proofs.Agreement
import QuorumLog.Proofs.MasterRuns

/-! Runs of a whole system. Connections carry only what is true, whatever breaks and in whatever order
things happen, and a replica takes from them only what comes next, so its log stays a beginning of the
master's. -/

namespace QuorumLog.System

variable {L : Type} [LocalLog L] [LawfulLog L] {s : System L} {m' : Master L} {c c' : Channel}
variable {r r' : Replica L} {id : String} {offset number : Nat}

/-! ### Steps on a connection -/

/-- A connection on which less is on its way carries nothing false either. -/
theorem Carries.less (carries : s.Carries id c) (down : ∀ x ∈ c'.down, x ∈ c.down)
    (up : ∀ x ∈ c'.up, x ∈ c.up) (generation : c'.generation = c.generation) : s.Carries id c' where
  down e member := carries.down e (down _ member)
  acks offset member := carries.acks offset (up _ member)
  hello h member := carries.hello h (up _ member)
  issued g named := carries.issued g (generation ▸ named)
  session t held named := carries.session t held (generation ▸ named)

theorem Carries.send (carries : s.Carries id c) {messages : List Message}
    (known : ∀ e, .entry e ∈ messages → e ∈ s.history) : s.Carries id (c.send messages) := by
  unfold Channel.send
  split
  · exact carries
  · refine ⟨fun e member => ?_, carries.acks, carries.hello, carries.issued, carries.session⟩
    exact (List.mem_append.mp member).elim (carries.down e) (known e)

/-- The connections may be replaced by others that carry nothing false. -/
theorem Agreement.reconnect (agreement : s.Agreement) {channels : List (String × Channel)}
    (carries : ∀ c ∈ channels, s.Carries c.1 c.2) : Onward s { s with channels } := by
  refine ⟨⟨agreement.numbered, agreement.complete, agreement.names, agreement.copies,
    agreement.links, agreement.welcomes, agreement.waiting, agreement.stored, agreement.books, ?_⟩,
    List.prefix_refl _, .refl _⟩
  intro c member
  have true := carries c member
  exact ⟨true.down, true.acks, true.hello, true.issued, true.session⟩

theorem Agreement.setChannel (agreement : s.Agreement)
    (carries : ∀ id c, s.channels[number]? = some (id, c) → s.Carries id c') :
    Onward s (s.setChannel number c') := by
  refine agreement.reconnect fun entry member => ?_
  obtain ⟨i, place⟩ := List.getElem?_of_mem member
  rw [List.getElem?_modify] at place
  cases found : s.channels[i]? with
  | none => simp [found] at place
  | some old =>
    rw [found] at place
    split at place
    · rename_i here
      cases place
      exact carries old.1 old.2 (here ▸ found)
    · cases place
      exact agreement.channels old (List.mem_of_getElem? found)

/-- The master works on a connection: it is enough to look at what it does to itself and to what is on
its way. -/
theorem Agreement.onMaster (agreement : s.Agreement) (number : Nat)
    {f : Master L → Channel → Master L × Channel}
    (works : ∀ id c, (id, c) ∈ s.channels → Onward s { s with master := (f s.master c).1 } ∧
      ({ s with master := (f s.master c).1 } : System L).Carries id (f s.master c).2) :
    Onward s (s.onMaster number f) := by
  unfold System.onMaster
  split
  · exact .refl agreement
  · rename_i id c found
    obtain ⟨onward, carries⟩ := works id c (List.mem_of_getElem? found)
    refine onward.trans (onward.agreement.setChannel fun id' c' same => ?_)
    have here : some (id, c) = some (id', c') := found.symm.trans same
    cases here
    exact carries

theorem Agreement.ship (agreement : s.Agreement) (member : (id, c) ∈ s.channels) :
    Onward s { s with master := (c.ship s.master).1 } ∧
      ({ s with master := (c.ship s.master).1 } : System L).Carries id (c.ship s.master).2 := by
  unfold Channel.ship
  split
  · exact ⟨.refl agreement, agreement.channels _ member⟩
  · rename_i generation _
    obtain ⟨onward, message⟩ := agreement.advance generation
    have carries := onward.agreement.channels _ member
    refine ⟨onward, Carries.send ?_ fun e written => ?_⟩
    · exact carries.less (fun _ held => held) (fun _ held => held) rfl
    · exact onward.history.mem (message e (Option.mem_toList.mp written))

theorem Agreement.hangUp (agreement : s.Agreement) (member : (id, c) ∈ s.channels) :
    Onward s { s with master := (c.hangUp s.master).1 } ∧
      ({ s with master := (c.hangUp s.master).1 } : System L).Carries id (c.hangUp s.master).2 := by
  unfold Channel.hangUp
  split
  · have carries := agreement.channels _ member
    exact ⟨.refl agreement, carries.less (fun _ held => held) (fun _ none => by cases none) rfl⟩
  · rename_i generation _
    have onward := agreement.silent (Master.quiet_endSession s.master generation none)
    have carries := onward.agreement.channels _ member
    exact ⟨onward, carries.less (fun _ held => held) (fun _ none => by cases none) rfl⟩

/-- The master takes the first message of a connection. -/
theorem Agreement.greetOn (agreement : s.Agreement) (member : (id, c) ∈ s.channels)
    {first : Message} {rest : List Message} (up : c.up = first :: rest) :
    Onward s { s with master := (c.greet s.master (.ok first) rest).1 } ∧
      ({ s with master := (c.greet s.master (.ok first) rest).1 } : System L).Carries id
        (c.greet s.master (.ok first) rest).2 := by
  have before := agreement.channels _ member
  have said : ∀ h, (.ok first : Except Fault Message) = .ok (.hello h) →
      h.replicaId = id ∧ s.Has id h.lastOffset := by
    intro h same
    cases same
    exact before.hello h (up ▸ List.mem_cons_self)
  have onward := agreement.greet c.address (.ok first) fun h same =>
    (said h same).1 ▸ (said h same).2
  have carries := onward.agreement.channels _ member
  unfold Channel.greet
  rcases Master.greet_cases s.master c.address (.ok first) with ⟨rejection, rejected, -⟩ |
    ⟨h, report, hello, taken, -, seated⟩
  · cases greeted : s.master.greet c.address (.ok first) with
    | mk m' result =>
      have reply {x : Message} (answer : rejection.reply = some x) :=
        Master.greet_reply rejected answer
      rw [greeted] at rejected onward carries
      cases rejected
      refine ⟨onward, Carries.send ?_ fun e replied => ?_⟩
      · exact carries.less (fun _ held => held) (fun _ none => by cases none) rfl
      · obtain ⟨code, text, failure⟩ := reply (Option.mem_toList.mp replied)
        cases failure
  · cases greeted : s.master.greet c.address (.ok first) with
    | mk m' result =>
      rw [greeted] at taken onward carries seated
      cases taken
      obtain ⟨t, found, name, -⟩ := seated.session agreement.numbered
      refine ⟨onward, carries.down, fun offset member => ?_, fun h member => ?_, fun g named => ?_,
        fun u held named => ?_⟩
      · exact carries.acks offset (up ▸ List.mem_cons_of_mem first member)
      · exact carries.hello h (up ▸ List.mem_cons_of_mem first member)
      · cases named
        exact Nat.le_refl _
      · obtain ⟨present, newest⟩ := Master.session_of_find found
        have same : u.generation = t.generation := (Option.some.inj named).symm.trans newest.symm
        rw [onward.agreement.numbered.session_unique held present same, name]
        exact (said h hello).1

theorem Agreement.toMaster (agreement : s.Agreement) (member : (id, c) ∈ s.channels) :
    Onward s { s with master := (c.toMaster s.master).1 } ∧
      ({ s with master := (c.toMaster s.master).1 } : System L).Carries id
        (c.toMaster s.master).2 := by
  have before := agreement.channels _ member
  unfold Channel.toMaster
  split
  · exact ⟨.refl agreement, before⟩
  · rename_i first rest _ up
    split
    · exact ⟨.refl agreement, before⟩
    · exact agreement.greetOn member up
  · rename_i generation message later named up
    split
    · exact ⟨.refl agreement, before⟩
    · have front : message ∈ c.up := up ▸ List.mem_cons_self
      have onward := agreement.receive generation message fun t held here offset ack => by
        rw [before.session t held (named.trans (congrArg some here.symm))]
        exact before.acks offset (ack ▸ front)
      have carries := onward.agreement.channels _ member
      exact ⟨onward, carries.less (fun _ held => held)
        (fun x behind => up ▸ List.mem_cons_of_mem message behind) rfl⟩

/-! ### Steps of a replica -/

omit [LocalLog L] [LawfulLog L] in
theorem replica_of_find (found : s.replica? id = some r) :
    r ∈ s.replicas ∧ r.settings.nodeId = id :=
  ⟨List.mem_of_find?_eq_some found, by simpa using List.find?_some found⟩

/-- A replica that goes on along the master's log takes its own place. -/
theorem Agreement.setReplica (agreement : s.Agreement) (held : r ∈ s.replicas)
    (follows : Replica.Follows s.history r r') : Onward s (s.setReplica r') := by
  -- Names are distinct, so nobody else loses its log.
  have only : ∀ x ∈ s.replicas, x.settings.nodeId = r'.settings.nodeId → x = r := by
    intro x member same
    rw [follows.settings] at same
    exact List.inj_on_of_nodup_map agreement.names member held same
  have names : (s.setReplica r').replicas.map (·.settings.nodeId) =
      s.replicas.map (·.settings.nodeId) := by
    rw [System.setReplica, List.map_map]
    refine List.map_congr_left fun x _ => ?_
    rw [Function.comp_apply]
    split
    · rename_i same
      exact same.symm
    · rfl
  have has : ∀ id offset, s.Has id offset → (s.setReplica r').Has id offset := by
    rintro id offset ⟨x, member, name, reaches⟩
    by_cases same : x.settings.nodeId = r'.settings.nodeId
    · refine ⟨r', List.mem_map.mpr ⟨x, member, if_pos same⟩, same ▸ name, ?_⟩
      rw [only x member same] at reaches
      exact Nat.le_trans reaches follows.longer
    · exact ⟨x, List.mem_map.mpr ⟨x, member, if_neg same⟩, name, reaches⟩
  refine ⟨⟨agreement.numbered, agreement.complete, names ▸ agreement.names, ?_, ?_, ?_,
    agreement.waiting, agreement.stored, agreement.books.mono has, ?_⟩, List.prefix_refl _, .refl _⟩
  · intro x member
    obtain ⟨old, before, rfl⟩ := List.mem_map.mp member
    split
    · exact ⟨follows.complete, follows.begins⟩
    · exact agreement.copies old before
  · exact fun l member => has _ _ (agreement.links l member)
  · exact fun t member welcoming => has _ _ (agreement.welcomes t member welcoming)
  · exact fun c member => (agreement.channels c member).mono (List.prefix_refl _) has
      (Nat.le_refl _) fun t held => .inl ⟨t, held, .refl t⟩

/-- A connection on which the replica did its work carries nothing false. -/
theorem Carries.heard (carries : s.Carries id c) (heard : Channel.Heard s.history r r' c c')
    (has : s.Has id r'.offset) : s.Carries id c' where
  down e member := carries.down e (heard.down _ member)
  acks offset member := by
    rcases heard.up _ member with before | ⟨timestamp, pong⟩ | ⟨reached, within, ack⟩
    · exact carries.acks offset before
    · cases pong
    · cases ack
      exact has.below within
  hello h member := by
    rcases heard.up _ member with before | ⟨timestamp, pong⟩ | ⟨reached, within, ack⟩
    · exact carries.hello h before
    · cases pong
    · cases ack
  issued generation named := carries.issued generation (heard.generation ▸ named)
  session t held named := carries.session t held (heard.generation ▸ named)

theorem Agreement.toReplica (agreement : s.Agreement) (number : Nat) :
    Onward s (s.onReplica number fun r c => c.toReplica r) := by
  unfold onReplica
  split
  · exact .refl agreement
  rename_i id c found
  split
  · exact .refl agreement
  rename_i r known
  obtain ⟨held, name⟩ := replica_of_find known
  obtain ⟨complete, begins⟩ := agreement.copies r held
  have before := agreement.channels _ (List.mem_of_getElem? found)
  have heard := Channel.toReplica_heard agreement.complete complete begins before.down
  have onward := agreement.setReplica held heard.follows
  refine onward.trans (onward.agreement.setChannel fun id' c' same => ?_)
  have here : some (id, c) = some (id', c') := found.symm.trans same
  cases here
  have carries := onward.agreement.channels _ (List.mem_of_getElem? found)
  refine carries.heard heard ⟨(c.toReplica r).1, ?_, ?_, Nat.le_refl _⟩
  · exact List.mem_map.mpr ⟨r, held, if_pos (by rw [heard.follows.settings])⟩
  · rw [heard.follows.settings, name]

/-- A replica may leave its connections. What they still carry upwards stays on its way, and it stays
true. -/
theorem Agreement.leaveAll (agreement : s.Agreement) (id : String) : Onward s (s.leaveAll id) := by
  refine agreement.reconnect fun entry member => ?_
  obtain ⟨old, before, rfl⟩ := List.mem_map.mp member
  have carries := agreement.channels old before
  dsimp only
  split
  · exact carries.less (fun _ none => by cases none) (fun _ held => held) rfl
  · exact carries

/-- A replica may leave all that it has and dial again. -/
theorem Agreement.dial (agreement : s.Agreement) (id : String) (address : SocketAddress) :
    Onward s (s.dial id address) := by
  unfold System.dial
  split
  · exact .refl agreement
  rename_i r known
  obtain ⟨held, name⟩ := replica_of_find known
  obtain ⟨complete, begins⟩ := agreement.copies r held
  obtain ⟨settings, log⟩ := Channel.dial_same r address
  have onward := agreement.setReplica held (.of_same complete begins settings log)
  split
  · rename_i r' fault dialled
    rw [dialled] at onward
    exact onward
  rename_i r' c dialled
  rw [dialled] at onward settings log
  obtain ⟨h, rfl, said, last⟩ := Channel.dial_of_ok dialled
  have left := onward.trans (onward.agreement.leaveAll id)
  refine left.trans (left.agreement.reconnect fun entry member => ?_)
  rcases List.mem_append.mp member with before | new
  · exact left.agreement.channels entry before
  · cases List.mem_singleton.mp new
    refine ⟨by simp, by simp, fun h' sent => ?_, by simp, by simp⟩
    rw [List.mem_singleton] at sent
    cases sent
    have place : r' ∈ (s.setReplica r').replicas :=
      List.mem_map.mpr ⟨r, held, if_pos (by rw [settings])⟩
    have same : h.replicaId = id := by rw [said, settings, name]
    exact ⟨same, r', place, same ▸ said.symm, Nat.le_of_eq last⟩

/-! ### Whole runs -/

/-- The entry that an event asks the log of the master to hold. -/
def offer? (s : System L) : Event → Option Entry
  | .append payload metadata | .store payload metadata =>
    some ⟨s.master.offset + 1, payload, metadata⟩
  | _ => none

/-- All that a run asks the log of the master to hold. -/
def offered (s : System L) : List Event → List Entry
  | [] => []
  | event :: later => (s.offer? event).toList ++ (s.act event).offered later

theorem Agreement.act (agreement : s.Agreement) (event : Event)
    (kept : ∀ below, event ≠ .purge below)
    (fits : ∀ e, s.offer? event = some e → LawfulLog.Admits L e) : Onward s (s.act event) := by
  cases event with
  | append payload metadata => exact agreement.append (fits _ rfl)
  | store payload metadata => exact agreement.store (fits _ rfl)
  | announce => exact agreement.announce
  | purge below => exact absurd rfl (kept below)
  | dial id address => exact agreement.dial id address
  | ship number => exact agreement.onMaster number fun _ _ member => agreement.ship member
  | toMaster number => exact agreement.onMaster number fun _ _ member => agreement.toMaster member
  | toReplica number => exact agreement.toReplica number
  | breakOff number =>
    refine agreement.onMaster number (f := fun m c => (m, c.breakOff)) fun id c member =>
      ⟨.refl agreement, ?_⟩
    exact (agreement.channels _ member).less (fun _ none => by cases none)
      (fun _ none => by cases none) rfl
  | hangUp number => exact agreement.onMaster number fun _ _ member => agreement.hangUp member
  | disconnect id => exact agreement.silent (Master.quiet_closeLink _ id none)
  | stop => exact agreement.silent (Master.quiet_stop _)

theorem Agreement.run (agreement : s.Agreement) {events : List Event}
    (kept : ∀ below, .purge below ∉ events) (fits : ∀ e ∈ s.offered events, LawfulLog.Admits L e) :
    Onward s (s.run events) := by
  induction events generalizing s with
  | nil => exact .refl agreement
  | cons event later ih =>
    have now := agreement.act event (fun below same => kept below (same ▸ List.mem_cons_self))
      fun e offer => fits e (List.mem_append_left _ (Option.mem_toList.mpr offer))
    exact now.trans (ih now.agreement (fun below member => kept below (List.mem_cons_of_mem _ member))
      fun e member => fits e (List.mem_append_right _ member))

/-- A new master over a log that retains everything, and replicas with names of their own that hold
beginnings of it and have no connection yet. -/
structure Fresh (s : System L) : Prop where
  created : Master.create s.master.settings s.master.log = .ok s.master
  complete : LawfulLog.Complete s.master.log
  names : (s.replicas.map (·.settings.nodeId)).Nodup
  copies : ∀ r ∈ s.replicas, LawfulLog.Complete r.log ∧ LawfulLog.entries r.log <+: s.history
  channels : s.channels = []

theorem agreement_of_fresh (fresh : s.Fresh) : s.Agreement := by
  obtain ⟨-, new⟩ := Master.create_of_ok fresh.created
  have quorum : s.master.quorum = .ofCopies s.master.settings.copies := congrArg Master.quorum new
  have links : s.master.links = [] := congrArg Master.links new
  have sessions : s.master.sessions = [] := congrArg Master.sessions new
  have unannounced : s.master.unannounced = none := congrArg Master.unannounced new
  have waiting : ∀ e, ¬s.master.Waits e := by
    rintro e ⟨t, held, -⟩
    rw [sessions] at held
    cases held
  refine ⟨⟨by simp [links], by simp [sessions], by simp [links], by simp [sessions]⟩, fresh.complete,
    fresh.names, fresh.copies, by simp [links], by simp [sessions],
    fun e waits => absurd waits (waiting e), by simp [unannounced], ?_, by simp [fresh.channels]⟩
  rw [quorum, unannounced]
  exact ⟨Quorum.consistent_ofCopies _, Quorum.vouched_ofCopies _ _, by simp [Quorum.ofCopies],
    by simp⟩

/-- A new replica with a name, over an empty log in memory. -/
def follower (name : String) : Replica VolatileLog where
  settings := .replica name Settings.defaultBind
  log := {}

/-- A new master that asks for two copies, and two replicas, all without an entry. -/
def pair : System VolatileLog where
  master := .small 2
  replicas := [follower "first", follower "second"]

theorem fresh_pair : pair.Fresh where
  created := rfl
  complete := ⟨⟨rfl, rfl⟩, rfl⟩
  names := by decide
  copies r held := by
    have empty : r.log = {} := by
      rcases List.mem_pair.mp held with rfl | rfl <;> rfl
    rw [empty]
    exact ⟨⟨⟨rfl, rfl⟩, rfl⟩, List.nil_prefix⟩
  channels := rfl

/-- A run in which the first replica takes an entry, and the connection breaks with the answer on its
way. The master takes another entry before the replica is back and is welcomed again. -/
def passage : List Event :=
  [.dial "first" Settings.defaultBind, .toMaster 0, .ship 0, .toReplica 0, .append [7] none,
    .ship 0, .ship 0, .toReplica 0, .breakOff 0, .append [8] none,
    .dial "first" Settings.defaultBind, .toMaster 1, .ship 1]

/-- In every run without a purge, the log of each replica is a beginning of the master's: both number
their entries from 1 on without a gap, and where the replica has an entry the master has the same. No
link knows of more than its replica holds. -/
theorem replicas_follow (fresh : s.Fresh) {events : List Event}
    (kept : ∀ below, .purge below ∉ events) (fits : ∀ e ∈ s.offered events, LawfulLog.Admits L e) :
    (LawfulLog.entries (s.run events).master.log).map Entry.offset =
        List.range' 1 (s.run events).master.offset ∧
      (∀ r ∈ (s.run events).replicas,
        LawfulLog.entries r.log <+: LawfulLog.entries (s.run events).master.log ∧
          (LawfulLog.entries r.log).map Entry.offset = List.range' 1 r.offset) ∧
      ∀ l ∈ (s.run events).master.links, ∃ r ∈ (s.run events).replicas,
        r.settings.nodeId = l.peer.id ∧ l.lastAck ≤ r.offset := by
  have agreement := ((agreement_of_fresh fresh).run kept fits).agreement
  refine ⟨LawfulLog.complete_numbered agreement.complete, fun r held => ?_, agreement.links⟩
  obtain ⟨complete, begins⟩ := agreement.copies r held
  exact ⟨begins, LawfulLog.complete_numbered complete⟩

/-- A replica that lost its connection holds the beginning of a log that went on without it. -/
theorem follows_after_loss :
    (pair.run passage).replicas.map Replica.offset = [1, 0] ∧
      ∀ r ∈ (pair.run passage).replicas,
        r.log.entries <+: (pair.run passage).master.log.entries := by
  have kept : ∀ below, .purge below ∉ passage := by simp [passage]
  refine ⟨by decide +kernel, fun r held => ?_⟩
  exact ((replicas_follow fresh_pair kept fun _ _ => trivial).2.1 r held).1

end QuorumLog.System
