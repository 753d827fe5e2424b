import QuorumLog.Node
import QuorumLog.Proofs.Handshakes
import QuorumLog.Proofs.ReopenedLogs
import QuorumLog.Proofs.WholeReading

/-! Nodes that take turns as master. A term begins when a node becomes master over a log that has all
that the last master had, and ends when that master is stopped. Whatever happens in between, the entries
of all terms make up one list that every log has the beginning of: a new master reads out all that was
ever appended, the others get through its handshake, and who has nothing left to take has everything. -/

namespace QuorumLog

/-! ### The handshake -/

section Handshake

variable {L : Type} [LocalLog L] {m : Master L} {r : Replica L}

/-- A replica gets through the handshake of a master: its hello is accepted, the session that is opened
goes on right behind what it holds, and it takes the welcome with which the session begins. -/
structure Master.Receives (m : Master L) (address : SocketAddress) (r : Replica L) (h : Hello)
    (w : Welcome) : Prop where
  said : r.hello = .ok h
  accepted : ∃ report, (m.greet address (.ok (.hello h))).2 = .ok report
  session : (m.greet address (.ok (.hello h))).1.session? (m.generation + 1) = some {
    replicaId := r.settings.nodeId
    generation := m.generation + 1
    next := r.offset + 1
    stage := .welcoming w }
  welcomed : ∃ welcomed, (r.welcome h.lastOffset (.ok (.welcome w))).2 = .ok welcomed

variable [LawfulLog L]

namespace System

variable {s : System L}

/-- Only replicas of the system have links, no two of them one link, so the others leave a place for
each. -/
theorem Agreement.others_lt (agreement : s.Agreement) (held : r ∈ s.replicas) :
    s.master.others r.settings.nodeId < s.replicas.length := by
  generalize linked : (s.master.links.filter fun l =>
    l.isConnected ∧ l.peer.id ≠ r.settings.nodeId) = others
  have names : others.map (·.peer.id) ⊆
      (s.replicas.filter (·.settings.nodeId ≠ r.settings.nodeId)).map (·.settings.nodeId) := by
    intro id member
    obtain ⟨l, inside, rfl⟩ := List.mem_map.mp member
    rw [← linked] at inside
    obtain ⟨present, apart⟩ := List.mem_filter.mp inside
    obtain ⟨x, known, name, -⟩ := agreement.links l present
    have other : l.peer.id ≠ r.settings.nodeId := (of_decide_eq_true apart).2
    exact List.mem_map.mpr ⟨x, List.mem_filter.mpr ⟨known, by simpa [name] using other⟩, name⟩
  have distinct : (others.map (·.peer.id)).Nodup := by
    rw [← linked]
    exact agreement.numbered.ids.sublist (List.filter_sublist.map _)
  have fewer := (distinct.subperm names).length_le
  rw [List.length_map, List.length_map, ← linked, ← List.countP_eq_length_filter] at fewer
  refine Nat.lt_of_le_of_lt fewer ?_
  exact List.length_filter_lt_length_iff_exists.mpr ⟨r, held, by simp⟩

/-- A replica in agreement with a master that trusts it and has places for all gets in. -/
theorem Agreement.receives [ReadableLog L] (agreement : s.Agreement) (held : r ∈ s.replicas)
    (trusted : r.settings.token = s.master.settings.token)
    (places : s.replicas.length ≤ s.master.settings.maxReplicas.toNat) (address : SocketAddress) :
    ∃ h w, s.master.Receives address r h w := by
  obtain ⟨complete, begins⟩ := agreement.copies r held
  have ours := remembers_of_complete agreement.complete
  have theirs := remembers_of_complete complete
  have within := begins.length_le
  rw [List.prefix_iff_eq_take.mp begins] at theirs
  obtain ⟨h, recognized⟩ := recognized_of_remembers ours theirs within
    (by rw [agreement.complete.oldest]; omega)
  have passes := recognized.passes (not_misread agreement.complete complete)
  obtain ⟨id, token, version⟩ : h.replicaId = r.settings.nodeId ∧ h.token = r.settings.token ∧
      h.version = Message.version := by
    have said := hello_of_remembers theirs
    rw [recognized.said] at said
    cases said
    exact ⟨rfl, rfl, rfl⟩
  have together : Master.diverges s.master.log h = .ok false := by
    unfold Master.checkHistory at passes
    split at passes <;> first | assumption | cases passes
  have place : s.master.others h.replicaId < s.master.settings.maxReplicas.toNat := by
    rw [id]
    exact Nat.lt_of_lt_of_le (agreement.others_lt held) places
  obtain ⟨report, accepted⟩ :=
    Handshake.greet_placed address version (token.trans trusted) together place
  obtain ⟨-, session⟩ := Handshake.session_of_greet agreement.numbered accepted
  rw [id, recognized.last] at session
  exact ⟨h, _, recognized.said, ⟨report, accepted⟩, session, _,
    recognized.welcomed s.master.settings.nodeId⟩

end System

end Handshake

/-! ### Terms -/

/-- A node is master over a log that has all of a history: a replica was promoted over its log, or a new
master was started over a log that was closed and opened again. -/
inductive Leads (history : List Entry) (m : Master Store) : Prop
  | promoted {settings : Settings} {bind : Except Nat SocketAddress} {r : Replica Store}
      (copies : r.log.Copies history) (whole : LawfulLog.entries r.log = history)
      (runs : Node.promote settings bind (.replica r) = .ok (.master m))
  | opened {settings : Settings} {bind : Except Nat SocketAddress} {log after : Store}
      {segmentSize : Nat} (copies : log.Copies history) (whole : LawfulLog.entries log = history)
      (sized : 1 ≤ segmentSize) (again : log.reopen segmentSize = .ok after)
      (runs : Node.start settings after bind = .ok (.master m))

/-- The term of a master: the system when it begins, and what happens in it. -/
structure Term where
  start : System Store
  events : List Event

namespace Term

/-- The system when the term is over. -/
def last (t : Term) : System Store := t.start.run t.events

/-- All that the log of the master took in the term. -/
def taken (t : Term) : List Entry := t.start.taken t.events

/-- A term behind a history. Its master leads with the whole history, and the other nodes have names of
their own, the token of the master, beginnings of the history, and a place each. Nothing is purged, and
all that is to be written fits into a frame. -/
structure Regular (history : List Entry) (t : Term) : Prop where
  leads : Leads history t.start.master
  copies : ∀ r ∈ t.start.replicas, r.log.Copies history
  names : (t.start.replicas.map (·.settings.nodeId)).Nodup
  trusted : ∀ r ∈ t.start.replicas, r.settings.token = t.start.master.settings.token
  places : t.start.replicas.length ≤ t.start.master.settings.maxReplicas.toNat
  channels : t.start.channels = []
  keeps : ∀ below, .purge below ∉ t.events
  fits : ∀ e ∈ t.start.offered t.events, e.Portable ∧ e.offset < UInt64.size

/-- Terms one after the other: each master is stopped before the next one leads with all that its log
has. -/
def Rotation (history : List Entry) : List Term → Prop
  | [] => True
  | t :: later => t.Regular history ∧ (later ≠ [] → t.last.master.stopped) ∧
      Rotation t.last.history later

end Term

/-- All nodes share one history: the master has the whole of it and reads it out, and the others have
beginnings of it and get in. Whoever closes a log and opens it again has the same log. -/
structure System.Shares (history : List Entry) (s : System Store) : Prop where
  /-- The offsets go on from 1 without a gap, and none is given twice. -/
  numbered : history.map Entry.offset = List.range' 1 history.length
  whole : s.history = history
  reads : LocalLog.readAll s.master.log = .ok (history.map Entry.payload)
  copies : s.Each (Store.Copies history)
  reopens : s.Each (Store.Reopens history)
  receives : ∀ r ∈ s.replicas, ∀ address, ∃ h w, s.master.Receives address r h w

section Terms

variable {history : List Entry} {settings : Settings} {address : Except Nat SocketAddress}
variable {log : Store} {m : Master Store} {t : Term}

/-- A node that runs as master was created over its log and then started. -/
theorem created_of_start (runs : Node.start settings log address = .ok (.master m)) :
    ∃ new, Master.create settings log = .ok new ∧ m = new.move (.start address) := by
  unfold Node.start at runs
  split at runs
  · cases created : Master.create settings log with
    | error fault => simp [created, bind, Except.bind] at runs
    | ok new =>
      simp only [created, bind, Except.bind] at runs
      split at runs <;> cases runs
      rename_i started
      exact ⟨new, rfl, congrArg Prod.fst started.symm⟩
  · cases created : Replica.create settings log with
    | error fault => simp [created, Except.map] at runs
    | ok r => simp [created, Except.map] at runs

/-- A replica is promoted exactly by settings that are accepted and those of a master, to an address that
is free. Then it is a running master over the log of the replica, with nobody connected. -/
theorem promote_eq_ok {r : Replica Store} {node : Node Store} :
    Node.promote settings address (.replica r) = .ok node ↔
      settings.role = .master ∧ settings.validate = .ok () ∧ ∃ place, address = .ok place ∧
        node = .master {
          settings
          log := r.log
          quorum := .ofCopies settings.copies
          address := some place
          running := true } := by
  constructor
  · intro promoted
    unfold Node.promote at promoted
    cases created : Master.create settings r.log with
    | error fault => simp [created, bind, Except.bind] at promoted
    | ok new =>
      obtain ⟨role, valid, rfl⟩ := Master.create_eq_ok.mp created
      simp only [created, bind, Except.bind] at promoted
      cases address with
      | error number => cases promoted
      | ok place => exact ⟨role, valid, place, rfl, (Except.ok.inj promoted).symm⟩
  · rintro ⟨role, valid, place, rfl, rfl⟩
    have created : Master.create settings r.log = .ok _ :=
      Master.create_eq_ok.mpr ⟨role, valid, rfl⟩
    simp only [Node.promote, created, bind, Except.bind]
    rfl

/-- A replica that has a whole history can be made master, and leads with it. -/
theorem leads_of_promote {r : Replica Store} (copies : r.log.Copies history)
    (whole : LawfulLog.entries r.log = history) (role : settings.role = .master)
    (valid : settings.validate = .ok ()) (place : SocketAddress) :
    ∃ m, Node.promote settings (.ok place) (.replica r) = .ok (.master m) ∧ m.log = r.log ∧
      Leads history m := by
  have runs := (promote_eq_ok (r := r)).mpr ⟨role, valid, place, rfl, rfl⟩
  exact ⟨_, runs, rfl, .promoted copies whole runs⟩

theorem created_of_promote {r : Replica Store}
    (runs : Node.promote settings address (.replica r) = .ok (.master m)) :
    ∃ new, Master.create settings r.log = .ok new ∧ m = new.move (.start address) := by
  obtain ⟨role, valid, place, rfl, same⟩ := promote_eq_ok.mp runs
  exact ⟨_, Master.create_eq_ok.mpr ⟨role, valid, rfl⟩, Node.master.inj same⟩

/-- A node that leads was created as master over a log with the whole history. -/
theorem Leads.created (leads : Leads history m) : ∃ new address,
    Master.create new.settings new.log = .ok new ∧ m = new.move (.start address) ∧
      new.log.Copies history ∧ LawfulLog.entries new.log = history := by
  have settled {settings : Settings} {log : Store} {new : Master Store}
      (created : Master.create settings log = .ok new) :
      new.log = log ∧ Master.create new.settings new.log = .ok new := by
    obtain ⟨-, same⟩ := Master.create_of_ok created
    have settings' : new.settings = settings := congrArg Master.settings same
    have log' : new.log = log := congrArg Master.log same
    rw [settings', log']
    exact ⟨rfl, created⟩
  cases leads with
  | @promoted settings address r copies whole runs =>
    obtain ⟨new, created, rfl⟩ := created_of_promote runs
    obtain ⟨log, created'⟩ := settled created
    exact ⟨new, address, created', rfl, log ▸ copies, log ▸ whole⟩
  | @opened settings address log after segmentSize copies whole sized again runs =>
    obtain ⟨after', again', copies', same⟩ := copies.reopens segmentSize sized
    obtain rfl : after' = after := Except.ok.inj (again'.symm.trans again)
    obtain ⟨new, created, rfl⟩ := created_of_start runs
    obtain ⟨log, created'⟩ := settled created
    exact ⟨new, address, created', rfl, log ▸ copies', log ▸ same.trans whole⟩

namespace Term

/-- When a term begins, its nodes are in step. -/
theorem Regular.begins (regular : t.Regular history) :
    t.start.Lockstep ∧ t.start.history = history ∧ t.start.Each (Store.Copies history) := by
  obtain ⟨new, address, created, started, copies, whole⟩ := regular.leads.created
  have fresh : System.Fresh { t.start with master := new } := by
    refine ⟨created, copies.complete, regular.names, fun r held => ?_, regular.channels⟩
    obtain ⟨complete, -, begins⟩ := regular.copies r held
    refine ⟨complete, ?_⟩
    show _ <+: LawfulLog.entries new.log
    rwa [whole]
  have lock := System.lockstep_of_fresh fresh
  have quiet := lock.agreement.silent (Master.quiet_start new address)
  have moved := lock.moved (.start address) quiet.agreement (fun e took => by cases took) rfl
    fun _ => rfl
  have log : t.start.master.log = new.log := by
    rw [started]
    exact (Master.steady_move lock.covered.names (a := .start address) rfl).log
  refine ⟨?_, ?_, ?_, regular.copies⟩
  · have same : t.start = { t.start with master := new.move (.start address) } := by rw [← started]
    rw [same]
    exact moved
  · rw [System.history, log, whole]
  · rwa [log]

/-- In every moment of a term the nodes are in step, and from one moment to a later one the log of the
master takes what is on record. -/
theorem Regular.run (regular : t.Regular history) (before meanwhile : List Event)
    (part : before ++ meanwhile <+: t.events) : (t.start.run before).Lockstep ∧
      (t.start.run before).Grows (t.start.run (before ++ meanwhile))
        ((t.start.run before).taken meanwhile) := by
  obtain ⟨lock, -, -⟩ := regular.begins
  obtain ⟨later, split⟩ := part
  have kept (below : Nat) : .purge below ∉ before ++ meanwhile := fun member =>
    regular.keeps below (split ▸ List.mem_append_left later member)
  have fits (e : Entry) (offered : e ∈ t.start.offered (before ++ meanwhile)) :
      LawfulLog.Admits Store e := by
    have fit := regular.fits e
    rw [← split, System.offered_append] at fit
    obtain ⟨portable, small⟩ := fit (List.mem_append_left _ offered)
    exact Record.fits_of_portable portable small
  rw [System.offered_append] at fits
  have lock' := lock.run (fun below member => kept below (List.mem_append_left _ member))
    fun e offered => fits e (List.mem_append_left _ offered)
  have grows := lock'.grows_run (fun below member => kept below (List.mem_append_right _ member))
    fun e offered => fits e (List.mem_append_right _ offered)
  refine ⟨lock', ?_⟩
  rw [System.run_append]
  exact grows

end Term

/-- A complete log is read out. -/
theorem reads_of_complete {log : Store} (complete : LawfulLog.Complete log) :
    LocalLog.readAll log = .ok ((LawfulLog.entries log).map Entry.payload) :=
  readAll_of_sound complete.sound (Nat.le_of_eq complete.oldest.symm)

/-- Nodes in step share the history that the log of their master has. -/
theorem System.Lockstep.shares {s : System Store} (lock : s.Lockstep) (findable : s.Each Store.Findable)
    (trusted : ∀ r ∈ s.replicas, r.settings.token = s.master.settings.token)
    (places : s.replicas.length ≤ s.master.settings.maxReplicas.toNat) : s.Shares s.history := by
  have complete := lock.agreement.complete
  have copies : s.Each (Store.Copies s.history) := by
    refine ⟨⟨complete, findable.1, List.prefix_refl _⟩, fun r held => ?_⟩
    obtain ⟨complete', begins⟩ := lock.agreement.copies r held
    exact ⟨complete', findable.2 r held, begins⟩
  constructor
  case numbered => exact (remembers_of_complete complete).numbered
  case whole => rfl
  case reads => exact reads_of_complete complete
  case copies => exact copies
  case reopens => exact ⟨copies.1.reopens, fun r held => (copies.2 r held).reopens⟩
  case receives =>
    exact fun r held address => lock.agreement.receives held (trusted r held) places address

namespace Term

/-- In every moment of a term all nodes share the history, with what the term added to it. -/
theorem Regular.shares (regular : t.Regular history) {before : List Event}
    (part : before <+: t.events) :
    (t.start.run before).Shares (history ++ t.start.taken before) := by
  obtain ⟨-, whole, copies⟩ := regular.begins
  have lock : (t.start.run before).Lockstep :=
    (regular.run before [] (by rwa [List.append_nil])).1
  have grows : t.start.Grows (t.start.run before) (t.start.taken before) :=
    (regular.run [] before part).2
  have findable : (t.start.run before).Each Store.Findable :=
    grows.each Store.lasting_findable
      ⟨copies.1.findable, fun r held => (copies.2 r held).findable⟩
  have tokens : ∀ r ∈ (t.start.run before).replicas,
      r.settings.token = (t.start.run before).master.settings.token := by
    intro r held
    obtain ⟨old, member, same, -⟩ := grows.replicas r held
    rw [same, grows.settings]
    exact regular.trusted old member
  have places : (t.start.run before).replicas.length ≤
      (t.start.run before).master.settings.maxReplicas.toNat := by
    have count := congrArg List.length grows.members
    rw [List.length_map, List.length_map] at count
    rw [count, grows.settings]
    exact regular.places
  have shares := lock.shares findable tokens places
  rwa [grows.history, whole] at shares

/-- A replica that has applied everything reads out what the master does, as long as the log of the
master takes nothing new. -/
theorem Regular.equal (regular : t.Regular history) {before meanwhile : List Event}
    (part : before ++ meanwhile <+: t.events) {id : String}
    (caught : (t.start.run before).CaughtUp id) (idle : (t.start.run before).taken meanwhile = [])
    {r : Replica Store} (held : r ∈ (t.start.run (before ++ meanwhile)).replicas)
    (name : r.settings.nodeId = id) :
    LocalLog.readAll r.log = LocalLog.readAll (t.start.run (before ++ meanwhile)).master.log := by
  obtain ⟨lock, grows⟩ := regular.run before meanwhile part
  have later : (t.start.run (before ++ meanwhile)).Lockstep :=
    (regular.run (before ++ meanwhile) [] (by rwa [List.append_nil])).1
  obtain ⟨old, member, settings, lasts⟩ := grows.replicas r held
  have whole := lock.holds_all caught member (by rw [← settings, name])
  have least := lasts (LawfulLog.lasting_begins (LawfulLog.entries old.log)) (List.prefix_refl _)
  obtain ⟨complete, begins⟩ := later.agreement.copies r held
  have same : (t.start.run (before ++ meanwhile)).history = (t.start.run before).history := by
    rw [grows.history, idle, List.append_nil]
  rw [whole, ← same] at least
  have equal := begins.eq_of_length_le least.length_le
  rw [reads_of_complete complete, reads_of_complete later.agreement.complete, equal, System.history]

/-- Terms hand on what they began with and what they took. -/
theorem rotation_regular {terms earlier later : List Term} (rotation : Rotation history terms)
    (place : terms = earlier ++ t :: later) : t.Regular (history ++ earlier.flatMap taken) := by
  induction earlier generalizing history terms with
  | nil =>
    subst place
    rw [List.flatMap_nil, List.append_nil]
    exact rotation.1
  | cons first earlier ih =>
    subst place
    obtain ⟨regular, -, rest⟩ := rotation
    have handed := (regular.shares (List.prefix_refl _)).whole
    rw [List.flatMap_cons, ← List.append_assoc]
    exact ih (handed ▸ rest) rfl

end Term

/-- However often the master changes, every new master reads out all that was appended in all earlier
terms, in its order, and so it goes on in every moment of its term: all nodes share one history, and a
replica that has applied everything reads out what the master does until the log takes more. -/
theorem rotation_keeps_history {earlier later : List Term}
    (rotation : Term.Rotation [] (earlier ++ t :: later)) :
    LocalLog.readAll t.start.master.log =
        .ok ((earlier.flatMap Term.taken).map Entry.payload) ∧
      (∀ before, before <+: t.events →
        (t.start.run before).Shares (earlier.flatMap Term.taken ++ t.start.taken before)) ∧
      ∀ before meanwhile id, before ++ meanwhile <+: t.events →
        (t.start.run before).CaughtUp id → (t.start.run before).taken meanwhile = [] →
        ∀ r ∈ (t.start.run (before ++ meanwhile)).replicas, r.settings.nodeId = id →
          LocalLog.readAll r.log =
            LocalLog.readAll (t.start.run (before ++ meanwhile)).master.log := by
  have regular := Term.rotation_regular rotation rfl
  rw [List.nil_append] at regular
  have first := (regular.shares (List.nil_prefix (l := t.events))).reads
  rw [System.taken, List.append_nil] at first
  exact ⟨first, fun before part => regular.shares part,
    fun before meanwhile id part caught idle r held name => regular.equal part caught idle held name⟩

end Terms

/-! ### Two terms -/

/-- A new replica with a name and a log. -/
def newcomer (name : String) (log : Store) : Replica Store where
  settings := .replica name Settings.defaultBind
  log := log

/-- A new master with a name and a log, started. -/
def successor (name : String) (log : Store) : Master Store where
  settings := .master name Settings.defaultBind
  log := log
  quorum := .ofCopies 1
  address := some Settings.defaultBind
  running := true

/-- A master over an empty directory takes an entry, and the first of two replicas gets it. -/
def firstTerm : Term where
  start :=
    { master := successor "first" (.segmented ⟨.standard, {}, [], none, 0⟩)
      replicas := [newcomer "second" (.volatile {}), newcomer "third" (.volatile {})] }
  events := [.dial "second" Settings.defaultBind, .toMaster 0, .ship 0, .ship 0, .ship 0, .ship 0,
    .toReplica 0, .append [7] none, .ship 0, .toReplica 0, .toReplica 0, .stop]

/-- That replica is promoted and takes another entry, and the first master gets it, over its directory
opened again. -/
def secondTerm : Term where
  start :=
    { master := successor "second" (.volatile { entries := [⟨1, [7], none⟩], highest := 1 })
      replicas := [newcomer "first" ((firstTerm.last.master.log.reopen 100).toOption.getD default),
        newcomer "third" (.volatile {})] }
  events := [.append [8] none, .dial "first" Settings.defaultBind, .toMaster 0, .ship 0, .ship 0,
    .ship 0, .ship 0, .ship 0, .ship 0, .toReplica 0, .toReplica 0, .toReplica 0]

/-- The first term has nothing before it. -/
theorem regular_first : firstTerm.Regular [] where
  leads := @Leads.opened [] _ (.master "first" Settings.defaultBind) (.ok Settings.defaultBind)
    (.segmented ⟨.standard, {}, [], none, 0⟩) _ StoreSettings.standard.segmentSize
    (Store.copies_fresh .standard []) rfl (by decide) (by decide +kernel) rfl
  copies r held := by
    rcases List.mem_pair.mp held with rfl | rfl <;> exact Store.copies_empty []
  names := by decide
  trusted := by decide
  places := by decide
  channels := rfl
  keeps := by simp [firstTerm]
  fits := by decide +kernel

/-- The second term has behind it what the first one took. -/
theorem regular_second : firstTerm.last.history = [⟨1, [7], none⟩] ∧
    secondTerm.Regular [⟨1, [7], none⟩] := by
  have shares := regular_first.shares (List.prefix_refl firstTerm.events)
  have taken : [] ++ firstTerm.start.taken firstTerm.events = [⟨1, [7], none⟩] := by decide +kernel
  rw [taken] at shares
  obtain ⟨again, opened, copies, -⟩ := shares.reopens.1 100 (by decide)
  refine ⟨shares.whole, ?_⟩
  have old : (firstTerm.last.master.log.reopen 100).toOption.getD default = again := by
    rw [Term.last, opened]
    rfl
  have whole : (Store.volatile { entries := [⟨1, [7], none⟩], highest := 1 }).Copies
      [⟨1, [7], none⟩] := by
    refine ⟨⟨⟨⟨rfl, rfl⟩, fun e held => ?_⟩, rfl⟩, trivial, List.prefix_refl _⟩
    rw [List.mem_singleton.mp held]
    exact ⟨by decide, by decide⟩
  constructor
  case leads =>
    exact @Leads.promoted _ _ (.master "second" Settings.defaultBind) (.ok Settings.defaultBind)
      (newcomer "second" (.volatile { entries := [⟨1, [7], none⟩], highest := 1 })) whole rfl rfl
  case copies =>
    intro r held
    rcases List.mem_pair.mp held with rfl | rfl
    · rw [← old] at copies
      exact copies
    · exact Store.copies_empty _
  case names => decide
  case trusted => decide
  case places => decide
  case channels => rfl
  case keeps => simp [secondTerm]
  case fits => decide +kernel

/-- The second master reads out what the first one took, and the first one has everything again. -/
theorem rotation_there_and_back : Term.Rotation [] [firstTerm, secondTerm] ∧
    LocalLog.readAll secondTerm.start.master.log = .ok [[7]] ∧
    ∀ r ∈ secondTerm.last.replicas, r.settings.nodeId = "first" →
      LocalLog.readAll r.log = .ok [[7], [8]] := by
  obtain ⟨handed, second⟩ := regular_second
  have rotation : Term.Rotation [] ([firstTerm] ++ secondTerm :: []) :=
    ⟨regular_first, fun _ => by decide +kernel, handed ▸ second, fun none => absurd rfl none, trivial⟩
  obtain ⟨begins, shares, equal⟩ := rotation_keeps_history rotation
  have taken : [firstTerm].flatMap Term.taken = [⟨1, [7], none⟩] := by decide +kernel
  have more : secondTerm.start.taken secondTerm.events = [⟨2, [8], none⟩] := by decide +kernel
  rw [taken] at begins
  refine ⟨rotation, begins, fun r held name => ?_⟩
  have reads := (shares secondTerm.events (List.prefix_refl _)).reads
  rw [taken, more] at reads
  have same := equal secondTerm.events [] "first" (by rw [List.append_nil]) (by decide +kernel) rfl
  rw [List.append_nil] at same
  rw [same r held name, reads]
  rfl

end QuorumLog
