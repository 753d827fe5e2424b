import QuorumLog.Proofs.Lockstep

/-! Runs of a whole system, in step. While nothing is forgotten, the session of every connection in
which a replica takes part stays in step with what the replica holds, whatever breaks and in whatever
order things happen. So a replica for which nothing is left to do holds what the master holds, and the
master holds what it began with and what it took since. -/

namespace QuorumLog

variable {L : Type} [LocalLog L] {m : Master L} {c c' : Channel} {number : Nat} {a : Move}
variable {history : List Entry}

/-! ### The whole system -/

namespace System

variable [LawfulLog L] {s s' : System L} {m' : Master L} {id : String} {r : Replica L}

/-- All replicas are in step with the master. No two connections have one session, and a replica takes
part in one connection at most. -/
structure Lockstep (s : System L) : Prop where
  agreement : s.Agreement
  covered : s.master.Covered 1 s.history
  apart : ∀ (i j : Nat) (x y : String × Channel) (g : Nat), s.channels[i]? = some x →
    s.channels[j]? = some y → x.2.generation = some g → y.2.generation = some g → i = j
  live : ∀ (i j : Nat) (x y : String × Channel), s.channels[i]? = some x →
    s.channels[j]? = some y → x.1 = y.1 → x.2.IsLive → y.2.IsLive → i = j
  meets : ∀ x ∈ s.channels, x.2.IsLive → ∀ r ∈ s.replicas, r.settings.nodeId = x.1 →
    x.2.Meets s.master r.offset

/-- What the log of a master has on record is all that it has, if it forgot nothing. -/
theorem entries_of_covered (covered : m.Covered 1 history) (complete : LawfulLog.Complete m.log) :
    LawfulLog.entries m.log = history := by
  have span := covered.span
  have length := LawfulLog.complete_length complete
  rw [Master.offset] at span
  exact covered.retained.eq_of_length (by omega)

theorem Lockstep.covered_move [PurgeableLog L] (lock : s.Lockstep)
    (complete : LawfulLog.Complete (s.master.move a).log)
    (admitted : ∀ e, s.master.taken? a = some e → LawfulLog.Admits L e) (keeps : a.isPurge = false) :
    (s.master.move a).Covered 1 (LawfulLog.entries (s.master.move a).log) := by
  have covered := lock.covered.move a admitted keeps
  rwa [entries_of_covered covered complete]

/-- The generation of a connection was given out. -/
theorem Lockstep.issued (lock : s.Lockstep) {x : String × Channel} (member : x ∈ s.channels) (g : Nat)
    (named : x.2.generation = some g) : g ≤ s.master.generation :=
  (lock.agreement.channels x member).issued g named

/-- The connection with a number becomes another one, which is no more alive and has the same session
or a new one. -/
theorem Lockstep.replace (lock : s.Lockstep) (found : s.channels[number]? = some (id, c))
    (channels : s'.channels = s.channels.modify number fun x => (x.1, c')) (agreement : s'.Agreement)
    (covered : s'.master.Covered 1 s'.history) (left : c'.IsLive → c.IsLive)
    (named : ∀ g, c'.generation = some g → c.generation = some g ∨ s.master.generation < g)
    (own : c'.IsLive → ∀ r ∈ s'.replicas, r.settings.nodeId = id → c'.Meets s'.master r.offset)
    (others : ∀ i x, i ≠ number → s.channels[i]? = some x → x.2.IsLive → ∀ r ∈ s'.replicas,
      r.settings.nodeId = x.1 → x.2.Meets s'.master r.offset) : s'.Lockstep := by
  have place (i : Nat) (x : String × Channel) (here : s'.channels[i]? = some x) :
      (i = number ∧ x = (id, c')) ∨ (i ≠ number ∧ s.channels[i]? = some x) := by
    rw [channels, List.getElem?_modify] at here
    by_cases same : number = i
    · subst same
      simp only [found, if_true, Option.map_eq_map, Option.map_some, Option.some.injEq] at here
      exact .inl ⟨rfl, here.symm⟩
    · simp only [if_neg same, Option.map_eq_map, Option.map_id'] at here
      exact .inr ⟨Ne.symm same, here⟩
  refine ⟨agreement, covered, ?_, ?_, ?_⟩
  · intro i j x y g here there mine theirs
    rcases place i x here with ⟨rfl, rfl⟩ | ⟨other, before⟩ <;>
      rcases place j y there with ⟨rfl, rfl⟩ | ⟨other', before'⟩
    · rfl
    · rcases named g mine with same | newer
      · exact lock.apart i j _ y g found before' same theirs
      · have old := lock.issued (List.mem_of_getElem? before') g theirs
        omega
    · rcases named g theirs with same | newer
      · exact lock.apart i j x _ g before found mine same
      · have old := lock.issued (List.mem_of_getElem? before) g mine
        omega
    · exact lock.apart i j x y g before before' mine theirs
  · intro i j x y here there same mine theirs
    rcases place i x here with ⟨rfl, rfl⟩ | ⟨other, before⟩ <;>
      rcases place j y there with ⟨rfl, rfl⟩ | ⟨other', before'⟩
    · rfl
    · exact lock.live i j _ y found before' same (left mine) theirs
    · exact lock.live i j x _ before found same mine (left theirs)
    · exact lock.live i j x y before before' same mine theirs
  · intro x member alive r held name
    obtain ⟨i, here⟩ := List.getElem?_of_mem member
    rcases place i x here with ⟨rfl, rfl⟩ | ⟨other, before⟩
    · exact own alive r held name
    · exact others i x other before alive r held name

/-- The master works on a connection. -/
theorem Lockstep.onMaster [PurgeableLog L] (lock : s.Lockstep)
    {f : Master L → Channel → Master L × Channel} (agreement : (s.onMaster number f).Agreement)
    (works : ∀ x ∈ s.channels, x.2.Worked s.master (f s.master x.2)) :
    (s.onMaster number f).Lockstep := by
  unfold System.onMaster at agreement ⊢
  split at agreement
  · exact lock
  rename_i id c found
  have worked := works (id, c) (List.mem_of_getElem? found)
  generalize f s.master c = result at agreement worked ⊢
  obtain ⟨m', c'⟩ := result
  refine lock.replace found rfl agreement ?_ worked.left worked.named ?_ ?_
  · rcases worked.master with same | ⟨a, same, plain, -⟩
    · obtain rfl : m' = s.master := same
      exact lock.covered
    · obtain rfl : m' = s.master.move a := same
      refine lock.covered_move agreement.complete (fun e took => ?_) (a.keeps_plain plain)
      rw [a.taken?_plain s.master plain] at took
      cases took
  · intro live r held name
    exact worked.meets r.offset live
      (lock.meets (id, c) (List.mem_of_getElem? found) (worked.left live) r held name)
  · intro i x other here live r held name
    have member := List.mem_of_getElem? here
    have meets := lock.meets x member live r held name
    rcases worked.master with same | ⟨a, same, plain, quiet⟩
    · obtain rfl : m' = s.master := same
      exact meets
    · obtain rfl : m' = s.master.move a := same
      refine meets.move lock.covered (fun e took => ?_) (lock.issued member) fun g named => ?_
      · rw [a.taken?_plain s.master plain] at took
        cases took
      · exact quiet g fun same => other (lock.apart i number x (id, c) g here found named same)

omit [LocalLog L] [LawfulLog L] in
/-- The replicas after one of them took its own place. -/
theorem mem_setReplica {r' x : Replica L} (settings : r'.settings = r.settings) (member : x ∈ (s.setReplica r').replicas) :
    (x = r' ∧ x.settings.nodeId = r.settings.nodeId) ∨
      (x ∈ s.replicas ∧ x.settings.nodeId ≠ r.settings.nodeId) := by
  obtain ⟨old, before, rfl⟩ := List.mem_map.mp member
  split
  · exact .inl ⟨rfl, by rw [settings]⟩
  · rename_i other
    rw [settings] at other
    exact .inr ⟨before, other⟩

/-- A replica handles what is at the front of a connection. -/
theorem Lockstep.toReplica [PurgeableLog L] (lock : s.Lockstep) (number : Nat) :
    (s.onReplica number fun r c => c.toReplica r).Lockstep := by
  have agreement := (lock.agreement.toReplica number).agreement
  unfold onReplica at agreement ⊢
  split at agreement
  · exact lock
  rename_i id c found
  split at agreement
  · exact lock
  rename_i r known
  obtain ⟨held, name⟩ := replica_of_find known
  have member := List.mem_of_getElem? found
  obtain ⟨complete, begins⟩ := lock.agreement.copies r held
  have carries := lock.agreement.channels _ member
  have heard := Channel.toReplica_heard lock.agreement.complete complete begins carries.down
  have idle : ¬c.IsLive → c.toReplica r = (r, c) := by
    intro gone
    unfold Channel.IsLive Attempt.isOver at gone
    unfold Channel.toReplica
    split at gone
    · rename_i ended
      simp [ended]
    · exact absurd rfl gone
  have left : (c.toReplica r).2.IsLive → c.IsLive := by
    intro live
    by_contra gone
    rw [idle gone] at live
    exact gone live
  have meets (live : (c.toReplica r).2.IsLive) :=
    (lock.meets (id, c) member (left live) r held name).toReplica complete
      (fun e sent => LawfulLog.entries_admitted lock.agreement.complete.sound (carries.down e sent)) live
  beta_reduce at agreement ⊢
  generalize c.toReplica r = result at agreement heard idle left meets ⊢
  obtain ⟨r', c'⟩ := result
  refine lock.replace found rfl agreement lock.covered left ?_ ?_ ?_
  · intro g named
    exact .inl (heard.generation.symm.trans named)
  · intro live x present here
    rcases mem_setReplica heard.follows.settings present with ⟨rfl, -⟩ | ⟨-, other⟩
    · exact meets live
    · exact absurd (here.trans name.symm) other
  · intro i x other there live y present here
    rcases mem_setReplica heard.follows.settings present with
      ⟨rfl, same⟩ | ⟨before, -⟩
    · -- The replica takes part in one connection at most, so this one is not alive.
      have gone : ¬c.IsLive := fun alive =>
        other (lock.live i number x (id, c) there found
          (here.symm.trans (same.trans name)) live alive)
      cases idle gone
      exact lock.meets x (List.mem_of_getElem? there) live r held here
    · exact lock.meets x (List.mem_of_getElem? there) live y before here

/-- A replica may change its mind about anything but its log. -/
theorem Lockstep.setReplica (lock : s.Lockstep) (held : r ∈ s.replicas) {r' : Replica L}
    (settings : r'.settings = r.settings) (log : r'.log = r.log) : (s.setReplica r').Lockstep := by
  obtain ⟨complete, begins⟩ := lock.agreement.copies r held
  have onward := lock.agreement.setReplica held (.of_same complete begins settings log)
  refine ⟨onward.agreement, lock.covered, lock.apart, lock.live, fun x member live y present here => ?_⟩
  rcases mem_setReplica settings present with ⟨rfl, same⟩ | ⟨before, -⟩
  · rw [Replica.offset, log]
    exact lock.meets x member live r held (same.symm.trans here)
  · exact lock.meets x member live y before here

/-- A replica leaves its connections. -/
theorem Lockstep.leaveAll (lock : s.Lockstep) (id : String) (agreement : (s.leaveAll id).Agreement) :
    (s.leaveAll id).Lockstep ∧ ∀ x ∈ (s.leaveAll id).channels, x.2.IsLive → x.1 ≠ id := by
  have place (i : Nat) (x : String × Channel) (here : (s.leaveAll id).channels[i]? = some x) :
      ∃ y, s.channels[i]? = some y ∧ x.1 = y.1 ∧ x.2.generation = y.2.generation ∧
        (x.2.IsLive → x = y ∧ x.1 ≠ id) := by
    rw [System.leaveAll, List.getElem?_map] at here
    obtain ⟨y, before, rfl⟩ := Option.map_eq_some_iff.mp here
    refine ⟨y, before, rfl, ?_, ?_⟩
    · dsimp only
      split <;> rfl
    · dsimp only
      split
      · intro live
        cases live
      · rename_i stays
        intro live
        refine ⟨rfl, fun same => stays ⟨same, ?_⟩⟩
        rw [Channel.IsLive] at live
        simp [live]
  refine ⟨⟨agreement, lock.covered, ?_, ?_, ?_⟩, ?_⟩
  · intro i j x y g here there mine theirs
    obtain ⟨x', before, -, generation, -⟩ := place i x here
    obtain ⟨y', before', -, generation', -⟩ := place j y there
    exact lock.apart i j x' y' g before before' (generation ▸ mine) (generation' ▸ theirs)
  · intro i j x y here there same mine theirs
    obtain ⟨x', before, -, -, alive⟩ := place i x here
    obtain ⟨y', before', -, -, alive'⟩ := place j y there
    obtain ⟨rfl, -⟩ := alive mine
    obtain ⟨rfl, -⟩ := alive' theirs
    exact lock.live i j x y before before' same mine theirs
  · intro x member live
    obtain ⟨i, here⟩ := List.getElem?_of_mem member
    obtain ⟨y, before, -, -, alive⟩ := place i x here
    obtain ⟨rfl, -⟩ := alive live
    exact lock.meets x (List.mem_of_getElem? before) live
  · intro x member live
    obtain ⟨i, here⟩ := List.getElem?_of_mem member
    obtain ⟨y, before, -, -, alive⟩ := place i x here
    exact (alive live).2

/-- A new connection of a replica that has no other one is in step. -/
theorem Lockstep.connect (lock : s.Lockstep) (free : ∀ x ∈ s.channels, x.2.IsLive → x.1 ≠ id)
    (none : c.generation = none)
    (meets : ∀ r ∈ s.replicas, r.settings.nodeId = id → c.Meets s.master r.offset)
    (agreement : ({ s with channels := s.channels ++ [(id, c)] } : System L).Agreement) :
    ({ s with channels := s.channels ++ [(id, c)] } : System L).Lockstep := by
  have place (i : Nat) (x : String × Channel) (here : (s.channels ++ [(id, c)])[i]? = some x) :
      s.channels[i]? = some x ∨ (i = s.channels.length ∧ x = (id, c)) := by
    rcases Nat.lt_or_ge i s.channels.length with old | new
    · rw [List.getElem?_append_left old] at here
      exact .inl here
    · rw [List.getElem?_append_right new, List.getElem?_singleton] at here
      split at here
      · exact .inr ⟨by omega, (Option.some.inj here).symm⟩
      · cases here
  refine ⟨agreement, lock.covered, ?_, ?_, ?_⟩
  · intro i j x y g here there mine theirs
    rcases place i x here with before | ⟨-, rfl⟩
    · rcases place j y there with before' | ⟨-, rfl⟩
      · exact lock.apart i j x y g before before' mine theirs
      · cases none.symm.trans theirs
    · cases none.symm.trans mine
  · intro i j x y here there same mine theirs
    rcases place i x here with before | ⟨new, rfl⟩ <;>
      rcases place j y there with before' | ⟨new', rfl⟩
    · exact lock.live i j x y before before' same mine theirs
    · exact absurd same (free x (List.mem_of_getElem? before) mine)
    · exact absurd same.symm (free y (List.mem_of_getElem? before') theirs)
    · exact new.trans new'.symm
  · intro x member live r held name
    rcases List.mem_append.mp member with before | new
    · exact lock.meets x before live r held name
    · obtain rfl := List.mem_singleton.mp new
      exact meets r held name

/-- A replica dials, and leaves the connections that it had. -/
theorem Lockstep.dial [PurgeableLog L] (lock : s.Lockstep) (id : String) (address : SocketAddress) :
    (s.dial id address).Lockstep := by
  have agreement := (lock.agreement.dial id address).agreement
  cases known : s.replica? id with
  | none =>
    have same : s.dial id address = s := by simp [System.dial, known]
    rwa [same]
  | some r =>
    obtain ⟨held, name⟩ := replica_of_find known
    obtain ⟨settings, log⟩ := Channel.dial_same r address
    cases dialled : Channel.dial r address with
    | mk r' result =>
      rw [dialled] at settings log
      have mind := lock.setReplica held settings log
      cases result with
      | error fault =>
        have same : s.dial id address = s.setReplica r' := by simp [System.dial, known, dialled]
        rwa [same]
      | ok c =>
        have same : s.dial id address = { (s.setReplica r').leaveAll id with
            channels := ((s.setReplica r').leaveAll id).channels ++ [(id, c)] } := by
          simp [System.dial, known, dialled]
        rw [same] at agreement ⊢
        obtain ⟨left, free⟩ := mind.leaveAll id (mind.agreement.leaveAll id).agreement
        obtain ⟨h, rfl, -, last⟩ := Channel.dial_of_ok dialled
        refine left.connect free rfl (fun x present here => ?_) agreement
        rcases mem_setReplica settings present with ⟨rfl, -⟩ | ⟨-, other⟩
        · refine ⟨rfl, fun _ => ⟨rfl, fun h' sent => ?_⟩, rfl, fun t _ named => by cases named⟩
          cases List.mem_singleton.mp sent
          exact last
        · exact absurd (here.trans name.symm) other

/-- The master does something that concerns no single connection. -/
theorem Lockstep.moved [PurgeableLog L] (lock : s.Lockstep) (a : Move)
    (agreement : ({ s with master := s.master.move a } : System L).Agreement)
    (admitted : ∀ e, s.master.taken? a = some e → LawfulLog.Admits L e) (keeps : a.isPurge = false)
    (quiet : ∀ g, s.master.frame? g a = none) :
    ({ s with master := s.master.move a } : System L).Lockstep where
  agreement := agreement
  covered := lock.covered_move agreement.complete admitted keeps
  apart := lock.apart
  live := lock.live
  meets x member live r held name :=
    (lock.meets x member live r held name).move lock.covered admitted (lock.issued member)
      fun g _ => quiet g

omit [LawfulLog L] in
/-- What the log takes in a write is what was to be written, in the next place. -/
theorem taken_in_place [NumberedLog L] (m : Master L) (payload : Bytes) (metadata : Option Bytes)
    {e : Entry} (took : m.taken? (.store payload metadata) = some e) :
    e = ⟨m.offset + 1, payload, metadata⟩ := by
  rw [Master.taken?] at took
  split at took
  · cases took
  split at took
  · rename_i ran
    cases took
    rw [(NumberedLog.append_takes_next ran).1]
    rfl
  · cases took

/-- An event that forgets nothing leaves the replicas in step. -/
theorem Lockstep.act [PurgeableLog L] (lock : s.Lockstep) (event : Event)
    (kept : ∀ below, event ≠ .purge below)
    (fits : ∀ e, s.offer? event = some e → LawfulLog.Admits L e) : (s.act event).Lockstep := by
  have agreement := (lock.agreement.act event kept fits).agreement
  cases event with
  | append payload metadata =>
    refine lock.moved (.append payload metadata) agreement (fun e took => fits e ?_) rfl fun _ => rfl
    rw [taken_in_place s.master payload metadata took]
    rfl
  | store payload metadata =>
    refine lock.moved (.store payload metadata) agreement (fun e took => fits e ?_) rfl fun _ => rfl
    rw [taken_in_place s.master payload metadata took]
    rfl
  | announce =>
    exact lock.moved .announce agreement (fun e took => by cases took) rfl fun _ => rfl
  | purge below => exact absurd rfl (kept below)
  | dial id address => exact lock.dial id address
  | ship number =>
    exact lock.onMaster (f := fun m c => c.ship m) agreement fun x member =>
      Channel.worked_ship lock.covered (lock.issued member)
  | toMaster number =>
    exact lock.onMaster (f := fun m c => c.toMaster m) agreement fun x member =>
      Channel.worked_toMaster lock.covered (lock.issued member)
  | toReplica number => exact lock.toReplica number
  | breakOff number =>
    exact lock.onMaster (f := fun m c => (m, c.breakOff)) agreement fun x _ =>
      Channel.worked_breakOff s.master x.2
  | hangUp number =>
    exact lock.onMaster (f := fun m c => c.hangUp m) agreement fun x member =>
      Channel.worked_hangUp lock.covered (lock.issued member)
  | disconnect id =>
    exact lock.moved (.disconnect id) agreement (fun e took => by cases took) rfl fun _ => rfl
  | stop => exact lock.moved .stop agreement (fun e took => by cases took) rfl fun _ => rfl

omit [LawfulLog L] in
theorem run_append (s : System L) (before later : List Event) :
    s.run (before ++ later) = (s.run before).run later := List.foldl_append

omit [LawfulLog L] in
theorem offered_append (s : System L) (before later : List Event) :
    s.offered (before ++ later) = s.offered before ++ (s.run before).offered later := by
  induction before generalizing s with
  | nil => rfl
  | cons event before ih =>
    rw [List.cons_append, offered, offered, ih, List.append_assoc]
    rfl

theorem Lockstep.run [PurgeableLog L] (lock : s.Lockstep) {events : List Event}
    (kept : ∀ below, .purge below ∉ events) (fits : ∀ e ∈ s.offered events, LawfulLog.Admits L e) :
    (s.run events).Lockstep := by
  induction events generalizing s with
  | nil => exact lock
  | cons event later ih =>
    have now := lock.act event (fun below same => kept below (same ▸ List.mem_cons_self))
      fun e offer => fits e (List.mem_append_left _ (Option.mem_toList.mpr offer))
    exact ih now (fun below member => kept below (List.mem_cons_of_mem _ member))
      fun e member => fits e (List.mem_append_right _ member)

/-- A new master and replicas that hold beginnings of its log are in step. -/
theorem lockstep_of_fresh (fresh : s.Fresh) : s.Lockstep where
  agreement := agreement_of_fresh fresh
  covered := by
    have covered := Master.covered_of_create fresh.complete.sound fresh.created
    rwa [fresh.complete.oldest] at covered
  apart i j x y g here := by
    rw [fresh.channels] at here
    cases here
  live i j x y here := by
    rw [fresh.channels] at here
    cases here
  meets x member := by
    rw [fresh.channels] at member
    cases member

/-! ### Nothing left to do -/

/-- A replica has applied everything that was shipped to it, and nothing is left to ship: it takes part
in a connection on which nothing is on its way to it, its link is up, and the session waits for new
entries while none is about to be announced. -/
def CaughtUp (s : System L) (id : String) : Prop :=
  s.master.unannounced = none ∧ ∃ x ∈ s.channels, x.1 = id ∧ x.2.IsLive ∧ x.2.down = [] ∧
    ∃ t ∈ s.master.sessions, x.2.generation = some t.generation ∧ t.isIdle ∧
      ∃ l ∈ s.master.links, l.generation = t.generation ∧ l.isConnected

instance (s : System L) (id : String) : Decidable (s.CaughtUp id) := by
  unfold CaughtUp Channel.IsLive
  infer_instance

/-- A replica that has applied everything holds what the master holds. -/
theorem Lockstep.holds_all (lock : s.Lockstep) (caught : s.CaughtUp id) (held : r ∈ s.replicas)
    (name : r.settings.nodeId = id) : LawfulLog.entries r.log = s.history := by
  obtain ⟨idle, ⟨id', c⟩, member, rfl, live, down, t, present, named, rests, connected⟩ := caught
  simp only [Session.isIdle, Bool.and_eq_true, decide_eq_true_eq, List.isEmpty_iff] at rests
  obtain ⟨⟨streaming, queue⟩, -⟩ := rests
  have done : t.waiting = [] := by rw [Session.waiting, streaming, queue]; rfl
  obtain ⟨resume, id, sent, conveys, covers⟩ := lock.covered.connections t present
  have fed : s.master.Fed t.generation := by
    by_contra unfed
    have early := (covers.early t present rfl connected unfed).1
    rw [streaming] at early
    cases early
  have wrote := lock.covered.whole present fed done idle
  have next := (lock.meets (id', c) member live r held name).session t present named
  have empty : c.arriving = [] := by rw [Channel.arriving, down]; rfl
  rw [empty, List.length_nil, Nat.add_zero] at next
  obtain ⟨complete, begins⟩ := lock.agreement.copies r held
  have length := LawfulLog.complete_length complete
  have length' := LawfulLog.complete_length lock.agreement.complete
  rw [Replica.offset] at next
  rw [Master.offset] at wrote
  exact begins.eq_of_length (by rw [System.history]; omega)

end System

end QuorumLog
