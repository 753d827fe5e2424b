import QuorumLog.Proofs.LockstepRuns

/-! What a run leaves of a system. The log of the master ends with the entries that it took in the run,
in their order, nobody changes its settings, and no log is touched but by appends: whatever appends keep
true of one log stays true of all. -/

namespace QuorumLog

variable {L : Type} [LocalLog L] {m : Master L} {a : Move} {c : Channel} {number : Nat}

/-- Something that stays true of a sound log whatever is appended to it. -/
structure LawfulLog.Lasting [LawfulLog L] (P : L → Prop) : Prop where
  append {log : L} (payload : Bytes) (metadata : Option Bytes) : LawfulLog.Sound log → P log →
    (∀ offset, (LocalLog.append log payload metadata).2 = .ok offset →
      LawfulLog.Admits L ⟨offset, payload, metadata⟩) →
    P (LocalLog.append log payload metadata).1
  appendEntry {log : L} {e : Entry} : LawfulLog.Sound log → P log → LawfulLog.Admits L e →
    P (LocalLog.appendEntry log e).1

/-- Appends take nothing away. -/
theorem LawfulLog.lasting_begins [LawfulLog L] (es : List Entry) :
    LawfulLog.Lasting fun log : L => es <+: LawfulLog.entries log where
  append {log} payload metadata sound begins admitted := by
    cases ran : LocalLog.append log payload metadata with
    | mk after result =>
      rw [ran] at admitted
      cases result with
      | ok offset =>
        rw [(LawfulLog.append_stores sound ran (admitted offset rfl)).2]
        exact begins.trans (List.prefix_append _ _)
      | error fault => rwa [(LawfulLog.append_fails sound ran).2]
  appendEntry {log e} sound begins admits := by
    cases ran : LocalLog.appendEntry log e with
    | mk after result =>
      cases result with
      | ok _ =>
        rw [(LawfulLog.appendEntry_stores sound ran admits).2.2]
        exact begins.trans (List.prefix_append _ _)
      | error fault => rwa [(LawfulLog.appendEntry_fails sound ran).2.1]

/-! ### What one side does to its log -/

/-- A move appends to the log and takes note of what the log took, or leaves the log alone. -/
def Master.Logs (m : Master L) (a : Move) : Prop :=
  (m.move a).log = m.log ∨ ∃ payload metadata,
    (m.move a).log = (LocalLog.append m.log payload metadata).1 ∧
    ∀ offset, (LocalLog.append m.log payload metadata).2 = .ok offset →
      m.taken? a = some ⟨offset, payload, metadata⟩

theorem Master.logs_store (m : Master L) (payload : Bytes) (metadata : Option Bytes) :
    m.Logs (.store payload metadata) := by
  unfold Logs
  rw [show m.move (.store payload metadata) = (m.store payload metadata).1 from rfl, store]
  by_cases stopped : m.stopped
  · rw [if_pos stopped]
    exact .inl rfl
  by_cases busy : m.unannounced.isSome
  · rw [if_neg stopped, if_pos busy]
    exact .inl rfl
  rw [if_neg stopped, if_neg busy]
  refine .inr ⟨payload, metadata, ?_⟩
  rw [taken?, if_neg (by simp [stopped, busy])]
  cases ran : LocalLog.append m.log payload metadata with
  | mk log result =>
    cases result with
    | error fault => exact ⟨rfl, fun offset took => by cases took⟩
    | ok offset => exact ⟨rfl, fun _ took => by cases took; rfl⟩

theorem Master.logs_move (numbered : m.Numbered) (a : Move) (keeps : a.isPurge = false) :
    m.Logs a := by
  cases a with
  | append payload metadata =>
    rcases move_append m payload metadata with ⟨-, same⟩ | same | same
    · exact .inl (congrArg Master.log same)
    · rw [Logs, same]
      exact m.logs_store payload metadata
    · have log : ((m.move (.store payload metadata)).move .announce).log =
          (m.move (.store payload metadata)).log := (announce_books _).1
      rw [Logs, same, log]
      exact m.logs_store payload metadata
  | store payload metadata => exact m.logs_store payload metadata
  | announce => exact .inl (announce_books m).1
  | purge offset => cases keeps
  | _ => exact .inl (steady_move numbered rfl).log

theorem Replica.log_apply (r : Replica L) (e : Entry) : (r.apply e).1.log = r.log ∨
    (r.apply e).1.log = (LocalLog.appendEntry r.log e).1 := by
  unfold apply
  dsimp only
  split
  · exact .inl rfl
  split
  · exact .inl rfl
  right
  split
  · rename_i ran
    exact congrArg Prod.fst ran.symm
  · rename_i ran
    exact congrArg Prod.fst ran.symm

/-- A replica appends an entry that is on its way to it, or leaves its log alone. -/
theorem Channel.log_toReplica (r : Replica L) (c : Channel) : (c.toReplica r).1.log = r.log ∨
    ∃ e, .entry e ∈ c.down ∧ (c.toReplica r).1.log = (LocalLog.appendEntry r.log e).1 := by
  have welcomed (held : Nat) (reply : Except Fault Message) :
      (r.welcome held reply).1.log = r.log := (Replica.welcome_same rfl).2
  have received (message : Message) : (r.receive message).1.log = r.log ∨
      ∃ e, message = .entry e ∧ (r.receive message).1.log = (LocalLog.appendEntry r.log e).1 := by
    cases message with
    | entry e =>
      have same : (r.receive (.entry e)).1.log = (r.apply e).1.log := by
        rw [Replica.receive]
        cases r.apply e with
        | mk after result => cases result <;> rfl
      exact (r.log_apply e).imp same.trans fun log => ⟨e, rfl, same.trans log⟩
    | _ => exact .inl rfl
  unfold Channel.toReplica
  split
  · exact .inl rfl
  · split
    · exact .inl (welcomed _ _)
    · exact .inl rfl
  · rename_i held message later _ _
    have log := welcomed held (.ok message)
    split <;> rename_i ran <;> rw [ran] at log <;> exact .inl log
  · split <;> exact .inl rfl
  · rename_i message later _ down
    rw [down]
    have log := received message
    split <;> rename_i ran <;> rw [ran] at log <;>
      exact log.imp id fun ⟨e, same, log⟩ => ⟨e, same ▸ List.mem_cons_self, log⟩

/-! ### The whole system -/

namespace System

variable [LawfulLog L] {s s' s'' : System L} {r r' : Replica L} {new later : List Entry}

/-- Something is true of every log. -/
def Each (P : L → Prop) (s : System L) : Prop := P s.master.log ∧ ∀ r ∈ s.replicas, P r.log

/-- A system in which the log of the master took some entries, nobody got other settings, and every log
keeps what appends keep true of it. -/
structure Grows (s s' : System L) (new : List Entry) : Prop where
  history : s'.history = s.history ++ new
  settings : s'.master.settings = s.master.settings
  members : s'.replicas.map (·.settings) = s.replicas.map (·.settings)
  master : ∀ {P : L → Prop}, LawfulLog.Lasting P → P s.master.log → P s'.master.log
  replicas : ∀ r' ∈ s'.replicas, ∃ r ∈ s.replicas, r'.settings = r.settings ∧
    ∀ {P : L → Prop}, LawfulLog.Lasting P → P r.log → P r'.log

theorem Grows.refl (s : System L) : s.Grows s [] :=
  ⟨(List.append_nil _).symm, rfl, rfl, fun _ true => true,
    fun r held => ⟨r, held, rfl, fun _ true => true⟩⟩

theorem Grows.trans (grows : s.Grows s' new) (grows' : s'.Grows s'' later) :
    s.Grows s'' (new ++ later) where
  history := by rw [grows'.history, grows.history, List.append_assoc]
  settings := grows'.settings.trans grows.settings
  members := grows'.members.trans grows.members
  master lasting true := grows'.master lasting (grows.master lasting true)
  replicas r'' held := by
    obtain ⟨r', held', same', lasts'⟩ := grows'.replicas r'' held
    obtain ⟨r, before, same, lasts⟩ := grows.replicas r' held'
    exact ⟨r, before, same'.trans same, fun lasting true => lasts' lasting (lasts lasting true)⟩

theorem Grows.each (grows : s.Grows s' new) {P : L → Prop} (lasting : LawfulLog.Lasting P)
    (each : s.Each P) : s'.Each P := by
  refine ⟨grows.master lasting each.1, fun r' held => ?_⟩
  obtain ⟨r, before, -, lasts⟩ := grows.replicas r' held
  exact lasts lasting (each.2 r before)

/-- The connections play no part. -/
theorem Grows.reconnect (grows : s.Grows s' new) (channels : List (String × Channel)) :
    s.Grows { s' with channels } new :=
  ⟨grows.history, grows.settings, grows.members, grows.master, grows.replicas⟩

theorem Lockstep.grows_moved [PurgeableLog L] (lock : s.Lockstep) (a : Move)
    (complete : LawfulLog.Complete (s.master.move a).log)
    (admitted : ∀ e, s.master.taken? a = some e → LawfulLog.Admits L e) (keeps : a.isPurge = false) :
    s.Grows { s with master := s.master.move a } (s.master.taken? a).toList where
  history := entries_of_covered (lock.covered.move a admitted keeps) complete
  settings := (Master.seats_move lock.covered.names a).2
  members := rfl
  master {P} lasting true := by
    rcases Master.logs_move lock.covered.names a keeps with same | ⟨payload, metadata, log, took⟩
    · rwa [same]
    · rw [log]
      exact lasting.append payload metadata lock.agreement.complete.sound true fun offset ran =>
        admitted _ (took offset ran)
  replicas := (Grows.refl s).replicas

/-- The work of the master on a connection is not a write. -/
theorem Lockstep.grows_onMaster [PurgeableLog L] (lock : s.Lockstep)
    {f : Master L → Channel → Master L × Channel} (agreement : (s.onMaster number f).Agreement)
    (works : ∀ x ∈ s.channels, x.2.Worked s.master (f s.master x.2)) :
    s.Grows (s.onMaster number f) [] := by
  unfold System.onMaster at agreement ⊢
  split at agreement
  · exact .refl s
  rename_i id c found
  have worked := (works (id, c) (List.mem_of_getElem? found)).master
  generalize f s.master c = result at agreement worked ⊢
  obtain ⟨m', c'⟩ := result
  rcases worked with same | ⟨a, same, plain, -⟩
  · obtain rfl : m' = s.master := same
    exact (Grows.refl s).reconnect _
  · obtain rfl : m' = s.master.move a := same
    have idle := a.taken?_plain s.master plain
    have grows := lock.grows_moved a agreement.complete (fun e took => by simp [idle] at took)
      (a.keeps_plain plain)
    rw [idle, Option.toList_none] at grows
    exact grows.reconnect _

/-- A replica that keeps its settings takes its own place. -/
theorem Lockstep.grows_setReplica (lock : s.Lockstep) (held : r ∈ s.replicas)
    (settings : r'.settings = r.settings)
    (lasts : ∀ {P : L → Prop}, LawfulLog.Lasting P → P r.log → P r'.log) :
    s.Grows (s.setReplica r') [] where
  history := (List.append_nil _).symm
  settings := rfl
  members := by
    rw [System.setReplica, List.map_map]
    refine List.map_congr_left fun x member => ?_
    rw [Function.comp_apply]
    split
    · rename_i same
      rw [settings] at same
      rw [List.inj_on_of_nodup_map lock.agreement.names member held same, settings]
    · rfl
  master _ true := true
  replicas x present := by
    rcases mem_setReplica settings present with ⟨rfl, -⟩ | ⟨before, -⟩
    · exact ⟨r, held, settings, lasts⟩
    · exact ⟨x, before, rfl, fun _ true => true⟩

theorem Lockstep.grows_toReplica (lock : s.Lockstep) (number : Nat) :
    s.Grows (s.onReplica number fun r c => c.toReplica r) [] := by
  unfold onReplica
  split
  · exact .refl s
  rename_i id c found
  split
  · exact .refl s
  rename_i r known
  obtain ⟨held, -⟩ := replica_of_find known
  obtain ⟨complete, begins⟩ := lock.agreement.copies r held
  have carries := lock.agreement.channels _ (List.mem_of_getElem? found)
  have heard := Channel.toReplica_heard lock.agreement.complete complete begins carries.down
  refine (lock.grows_setReplica held heard.follows.settings fun {P} lasting true => ?_).reconnect _
  rcases c.log_toReplica r with same | ⟨e, sent, log⟩
  · rwa [same]
  · rw [log]
    exact lasting.appendEntry complete.sound true
      (LawfulLog.entries_admitted lock.agreement.complete.sound (carries.down e sent))

theorem Lockstep.grows_dial (lock : s.Lockstep) (id : String) (address : SocketAddress) :
    s.Grows (s.dial id address) [] := by
  unfold System.dial
  split
  · exact .refl s
  rename_i r known
  obtain ⟨held, -⟩ := replica_of_find known
  obtain ⟨settings, log⟩ := Channel.dial_same r address
  have grows := lock.grows_setReplica held settings fun {P} _ true => by rwa [log]
  split <;> rename_i dialled <;> rw [dialled] at grows
  · exact grows
  · exact grows.reconnect _

/-! ### What a run takes -/

/-- The entry that the log of the master takes in an event. -/
def taken? (s : System L) : Event → Option Entry
  | .append payload metadata => s.master.taken? (.append payload metadata)
  | .store payload metadata => s.master.taken? (.store payload metadata)
  | _ => none

/-- The entries that the log of the master takes in a run. -/
def taken (s : System L) : List Event → List Entry
  | [] => []
  | event :: later => (s.taken? event).toList ++ (s.act event).taken later

theorem taken_offered (s : System L) (event : Event) {e : Entry} (took : s.taken? event = some e) :
    s.offer? event = some e := by
  cases event with
  | append payload metadata => rw [taken_in_place s.master payload metadata took]; rfl
  | store payload metadata => rw [taken_in_place s.master payload metadata took]; rfl
  | _ => cases took

theorem Lockstep.grows [PurgeableLog L] (lock : s.Lockstep) (event : Event)
    (kept : ∀ below, event ≠ .purge below)
    (fits : ∀ e, s.offer? event = some e → LawfulLog.Admits L e) :
    s.Grows (s.act event) (s.taken? event).toList := by
  have agreement := (lock.agreement.act event kept fits).agreement
  have admitted (e : Entry) (took : s.taken? event = some e) : LawfulLog.Admits L e :=
    fits e (s.taken_offered event took)
  cases event with
  | append payload metadata =>
    exact lock.grows_moved (.append payload metadata) agreement.complete admitted rfl
  | store payload metadata =>
    exact lock.grows_moved (.store payload metadata) agreement.complete admitted rfl
  | announce => exact lock.grows_moved .announce agreement.complete admitted rfl
  | purge below => exact absurd rfl (kept below)
  | dial id address => exact lock.grows_dial id address
  | ship number =>
    exact lock.grows_onMaster (f := fun m c => c.ship m) agreement fun x member =>
      Channel.worked_ship lock.covered (lock.issued member)
  | toMaster number =>
    exact lock.grows_onMaster (f := fun m c => c.toMaster m) agreement fun x member =>
      Channel.worked_toMaster lock.covered (lock.issued member)
  | toReplica number => exact lock.grows_toReplica number
  | breakOff number =>
    exact lock.grows_onMaster (f := fun m c => (m, c.breakOff)) agreement fun x _ =>
      Channel.worked_breakOff s.master x.2
  | hangUp number =>
    exact lock.grows_onMaster (f := fun m c => c.hangUp m) agreement fun x member =>
      Channel.worked_hangUp lock.covered (lock.issued member)
  | disconnect id => exact lock.grows_moved (.disconnect id) agreement.complete admitted rfl
  | stop => exact lock.grows_moved .stop agreement.complete admitted rfl

/-- In a run the log of the master takes what is on record for it, behind what it had. -/
theorem Lockstep.grows_run [PurgeableLog L] (lock : s.Lockstep) {events : List Event}
    (kept : ∀ below, .purge below ∉ events) (fits : ∀ e ∈ s.offered events, LawfulLog.Admits L e) :
    s.Grows (s.run events) (s.taken events) := by
  induction events generalizing s with
  | nil => exact .refl s
  | cons event later ih =>
    have first (below : Nat) : event ≠ .purge below :=
      fun same => kept below (same ▸ List.mem_cons_self)
    have fit (e : Entry) (offer : s.offer? event = some e) : LawfulLog.Admits L e :=
      fits e (List.mem_append_left _ (Option.mem_toList.mpr offer))
    exact (lock.grows event first fit).trans <| ih (lock.act event first fit)
      (fun below member => kept below (List.mem_cons_of_mem _ member))
      fun e member => fits e (List.mem_append_right _ member)

end System

end QuorumLog
