import QuorumLog.Proofs.LinkTable

/-! A master without some of its connections. Whatever else happens to it, what becomes of the rest does not
depend on them: the log, the writes, the links, and the sessions of all other connections come out the same
as if those connections were not there. Two things are left aside, the counts of what happened and when a
replica was heard last; no step depends on either. -/

namespace QuorumLog

/-- A link, whenever its replica was heard last. -/
def Link.unheard (l : Link) : Link := { l with heard := 0 }

namespace Master

variable {L : Type} {old : List Nat} {m : Master L} {generation : Nat} {id : String}
variable {f g : Master L → Master L}

/-- The master as it is to all but the connections of some generations. -/
def without (old : List Nat) (m : Master L) : Master L :=
  { m with
    links := m.links.map Link.unheard
    sessions := m.sessions.filter (·.generation ∉ old)
    tally := {} }

/-- What a step makes of the rest does not depend on the connections that are left out. -/
def Heedless (old : List Nat) (f : Master L → Master L) : Prop :=
  ∀ m, (f m).without old = (f (m.without old)).without old

@[simp] theorem without_without (old : List Nat) (m : Master L) :
    (m.without old).without old = m.without old := by
  simp [without, List.filter_filter, Function.comp_def, Link.unheard]

@[simp] theorem log_without (old : List Nat) (m : Master L) : (m.without old).log = m.log := rfl

@[simp] theorem settings_without (old : List Nat) (m : Master L) :
    (m.without old).settings = m.settings := rfl

@[simp] theorem unannounced_without (old : List Nat) (m : Master L) :
    (m.without old).unannounced = m.unannounced := rfl

@[simp] theorem running_without (old : List Nat) (m : Master L) :
    (m.without old).running = m.running := rfl

@[simp] theorem stopped_without (old : List Nat) (m : Master L) :
    (m.without old).stopped = m.stopped := rfl

theorem link?_without (old : List Nat) (m : Master L) (id : String) :
    (m.without old).link? id = (m.link? id).map Link.unheard := by
  simp only [link?, without, List.find?_map]
  rfl

/-- The connections that are not left out are found. -/
theorem session?_without (kept : generation ∉ old) (m : Master L) :
    (m.without old).session? generation = m.session? generation := by
  simp only [session?, without, List.find?_filter]
  congr 1
  funext s
  by_cases here : s.generation = generation <;> simp [here, kept]

theorem heedless_id : Heedless old (fun m : Master L => m) := fun m => (without_without old m).symm

/-- What reads no more than the rest, and changes the rest alone. -/
theorem heedless_of_commutes (commutes : ∀ m, (f m).without old = f (m.without old)) :
    Heedless old f := fun m => by
  rw [commutes, commutes, without_without]

/-- A step may depend on a part of the rest. -/
theorem heedless_of_part {α : Type} (part : Master L → α)
    (same : ∀ m, part (m.without old) = part m) {f : α → Master L → Master L}
    (each : ∀ a, Heedless old (f a)) : Heedless old fun m => f (part m) m := fun m => by
  dsimp only
  rw [same]
  exact each _ m

theorem Heedless.comp (outer : Heedless old g) (inner : Heedless old f) :
    Heedless old fun m => g (f m) := fun m => by
  rw [outer, inner, ← outer]

/-- What is done to the rest is all that matters. -/
theorem Heedless.congr (same : ∀ m, (f m).without old = (g m).without old)
    (heedless : Heedless old g) : Heedless old f := fun m => by
  rw [same, heedless, ← same]

/-! ### Parts of steps -/

/-- A link may be changed by what is known of it besides when it was heard. -/
theorem heedless_onLink (id : String) {f : Link → Link}
    (even : ∀ l : Link, (f l).unheard = (f l.unheard).unheard) :
    Heedless old fun m : Master L => m.onLink id f := fun m => by
  have links : (m.links.map fun l => if l.peer.id = id then f l else l).map Link.unheard =
      ((m.links.map Link.unheard).map fun l => if l.peer.id = id then f l else l).map
        Link.unheard := by
    simp only [List.map_map]
    refine List.map_congr_left fun l _ => ?_
    simp only [Function.comp_apply]
    by_cases here : l.peer.id = id
    · rw [if_pos here, if_pos (show l.unheard.peer.id = id from here), even]
    · rw [if_neg here, if_neg (show ¬l.unheard.peer.id = id from here)]
      rfl
  simp only [without, onLink, links, List.filter_filter, Bool.and_self]

theorem filter_map_sessions {change : Session → Session}
    (named : ∀ s, (change s).generation = s.generation) (sessions : List Session) :
    (sessions.map change).filter (·.generation ∉ old) =
      (sessions.filter (·.generation ∉ old)).map change := by
  rw [List.filter_map]
  congr 2
  funext s
  simp only [Function.comp_apply, named]

/-- Sessions may be changed one by one. -/
theorem heedless_sessions {change : Master L → Session → Session}
    (named : ∀ m s, (change m s).generation = s.generation)
    (same : ∀ m, change (m.without old) = change m) :
    Heedless old fun m : Master L => { m with sessions := m.sessions.map (change m) } := fun m => by
  dsimp only
  rw [same]
  simp only [without, filter_map_sessions (named m), List.filter_filter, Bool.and_self]
  simp [Function.comp_def, Link.unheard]

theorem heedless_onSession (generation : Nat) {change : Session → Session}
    (named : ∀ s, (change s).generation = s.generation) :
    Heedless old fun m : Master L => m.onSession generation change := by
  refine heedless_sessions (fun _ s => ?_) fun _ => rfl
  split
  · exact named s
  · rfl

theorem heedless_cut (generation : Nat) : Heedless old fun m : Master L => m.cut generation :=
  heedless_onSession generation fun _ => rfl

theorem heedless_enter (generation : Nat) (stage : Stage) :
    Heedless old fun m : Master L => m.enter generation stage :=
  heedless_onSession generation fun _ => rfl

theorem heedless_countShipped (id : String) (count : Nat) :
    Heedless old fun m : Master L => m.countShipped id count :=
  (heedless_onLink id (f := Link.recordSent count) fun _ => rfl).congr fun _ => rfl

/-- What is done depends on a link only by what is known of it besides when it was heard. -/
theorem heedless_link (id : String) {f : Master L → Master L}
    {g : Link → Master L → Master L} (none : Heedless old f) (some : ∀ l, Heedless old (g l))
    (even : ∀ l m, g l.unheard m = g l m) :
    Heedless old fun m => match m.link? id with
      | .none => f m
      | .some l => g l m := fun m => by
  dsimp only
  rw [link?_without]
  cases m.link? id with
  | none => exact none m
  | some l =>
    dsimp only [Option.map_some]
    rw [even]
    exact some l m

/-- What is done depends on a session that is not left out. -/
theorem heedless_session (kept : generation ∉ old) {g : Session → Master L → Master L}
    (some : ∀ s, s.generation = generation → Heedless old (g s)) :
    Heedless old fun m => match m.session? generation with
      | .none => m
      | .some s => g s m := fun m => by
  dsimp only
  rw [session?_without kept]
  cases held : m.session? generation with
  | none => exact heedless_id m
  | some s => exact some s (session_of_find held).2 m

theorem heedless_ite {c : Master L → Prop} [∀ m, Decidable (c m)]
    (same : ∀ m, c (m.without old) ↔ c m) (yes : Heedless old f) (no : Heedless old g) :
    Heedless old fun m => if c m then f m else g m := fun m => by
  dsimp only
  by_cases h : c m
  · rw [if_pos h, if_pos ((same m).mpr h)]
    exact yes m
  · rw [if_neg h, if_neg (mt (same m).mp h)]
    exact no m

theorem heedless_closeLink (id : String) (generation? : Option Nat) :
    Heedless old fun m : Master L => m.closeLink id generation? := by
  refine heedless_link id heedless_id (fun l => ?_) fun _ _ => rfl
  refine heedless_ite (fun _ => .rfl) ?_ heedless_id
  exact ((heedless_cut l.generation).comp (heedless_onLink id (f := Link.disconnect)
    fun _ => rfl)).congr fun _ => rfl

theorem heedless_endSession (kept : generation ∉ old) (fault : Option Fault) :
    Heedless old fun m : Master L => m.endSession generation fault := by
  refine heedless_session kept fun s _ => ?_
  exact (heedless_closeLink _ _).comp (heedless_onSession _ fun _ => rfl)

/-! ### Writes -/

/-- Whom a new entry is handed to depends on the links alone. -/
theorem isFed_without (m : Master L) (s : Session) : (m.without old).isFed s = m.isFed s := by
  simp only [isFed, without, List.any_map]
  rfl

theorem heedless_forward (e : Entry) : Heedless old fun m : Master L => m.forward e := by
  refine heedless_sessions (fun m s => ?_) fun m => ?_
  · split <;> rfl
  · funext s
    rw [isFed_without]

/-- What is announced is the entry that was stored. -/
theorem announce_of_stored {e : Entry} (stored : m.unannounced = some e) :
    m.announce.1.without old =
      (({ m with quorum := m.announcedQuorum e, unannounced := none } : Master L).forward e).without
        old := by
  unfold announce
  rw [stored]
  rfl

theorem heedless_announce : Heedless old fun m : Master L => m.announce.1 := fun m => by
  cases stored : m.unannounced with
  | none =>
    have idle {m : Master L} (stored : m.unannounced = none) : m.announce.1 = m := by
      rw [announce, stored]
    dsimp only
    rw [idle stored, idle (m := m.without old) stored, without_without]
  | some e =>
    dsimp only
    rw [announce_of_stored stored, announce_of_stored (m := m.without old) stored]
    have tracked : Heedless old fun m : Master L =>
        { m with quorum := m.announcedQuorum e, unannounced := none } :=
      heedless_of_commutes fun _ => rfl
    exact (heedless_forward e).comp tracked m

variable [LocalLog L]

theorem heedless_store (payload : Bytes) (metadata : Option Bytes) :
    Heedless old fun m : Master L => (m.store payload metadata).1 := by
  have refused (reason : String) : Heedless old fun m : Master L => (m.refuse reason).1 :=
    heedless_of_commutes fun _ => rfl
  intro m
  dsimp only
  unfold store
  rw [stopped_without, unannounced_without, log_without]
  split
  · exact refused "master stopped" m
  split
  · exact heedless_id m
  cases LocalLog.append m.log payload metadata with
  | mk log result =>
    cases result with
    | ok offset =>
      exact heedless_of_commutes (f := fun m : Master L =>
        { m with log, unannounced := some ⟨offset, payload, metadata⟩ }) (fun _ => rfl) m
    | error fault =>
      have logged : Heedless old fun m : Master L => { m with log } :=
        heedless_of_commutes fun _ => rfl
      have noted := (refused ("local append failed: " ++ fault.message)).comp logged
      exact noted.congr (fun _ => rfl) m

theorem store_number_without (m : Master L) (payload : Bytes) (metadata : Option Bytes) :
    ((m.without old).store payload metadata).2 = (m.store payload metadata).2 := by
  unfold store
  rw [stopped_without, unannounced_without, log_without]
  split
  · rfl
  split
  · rfl
  cases LocalLog.append m.log payload metadata with
  | mk log result => cases result <;> rfl

theorem heedless_append (payload : Bytes) (metadata : Option Bytes) :
    Heedless old fun m : Master L => (m.append payload metadata).1 := by
  refine Heedless.congr (fun m => congrArg (without old) ?_)
    (heedless_ite (c := fun m => m.unannounced.isSome ∧ !m.stopped) (fun _ => .rfl) heedless_id
      (heedless_ite (c := fun m => (m.store payload metadata).2.isSome)
        (fun m => by rw [store_number_without]) (heedless_store payload metadata)
        (heedless_announce.comp (heedless_store payload metadata))))
  unfold append
  split
  · rfl
  cases m.store payload metadata with
  | mk after write => cases write <;> rfl

theorem heedless_acknowledge (id : String) (offset : Nat) :
    Heedless old fun m : Master L => m.acknowledge id offset := by
  refine heedless_ite (fun _ => .rfl) heedless_id ?_
  refine heedless_link id heedless_id (fun l => ?_) fun _ _ => rfl
  have recorded : Heedless old fun m : Master L => m.onLink id (Link.recordAck offset) := by
    refine heedless_onLink id fun l => ?_
    have same : l.unheard.accepts offset = l.accepts offset ∧
        l.unheard.isConnected = l.isConnected := ⟨rfl, rfl⟩
    unfold Link.recordAck
    rw [same.1, same.2]
    split
    · rfl
    · split <;> rfl
  refine heedless_ite (fun _ => .rfl) ?_ recorded
  have credited : Heedless old fun m : Master L =>
      { m with quorum := (m.quorum.credit offset (.replica id)).1 } :=
    heedless_of_commutes fun _ => rfl
  exact (credited.comp recorded).congr fun _ => rfl

/-! ### Start and stop -/

omit [LocalLog L] in
theorem heedless_start (bind : Except Nat SocketAddress) :
    Heedless old fun m : Master L => (m.start bind).1 := by
  refine heedless_of_commutes fun m => ?_
  unfold start
  rw [stopped_without, running_without]
  split
  · rfl
  split
  · rfl
  cases bind <;> rfl

omit [LocalLog L] in
theorem heedless_stop : Heedless old fun m : Master L => m.stop := by
  have cut : Heedless old fun m : Master L => m.cutAll := by
    refine heedless_sessions (fun m s => ?_) fun m => ?_
    · split <;> rfl
    · simp only [without, List.any_map]
      rfl
  have gone : Heedless old fun m : Master L =>
      { m with links := [], running := false, stopped := true } :=
    heedless_of_commutes fun _ => rfl
  exact heedless_ite (fun _ => .rfl) heedless_id ((gone.comp cut).congr fun _ => rfl)

/-! ### Handshakes -/

omit [LocalLog L] in
theorem others_without (m : Master L) (id : String) : (m.without old).others id = m.others id := by
  simp only [others, without, List.countP_map]
  rfl

omit [LocalLog L] in
theorem heedless_register (peer : Peer) (held : Nat) :
    Heedless old fun m : Master L => m.register peer held := by
  refine Heedless.congr (fun m => congrArg (without old) ?_) (heedless_link peer.id
    (f := fun m => { m with
      links := m.links ++
        [Link.beginCatchUp { peer, generation := m.generation, lastAck := held }] })
    (g := fun l m => (m.cut l.generation).onLink peer.id fun l =>
      (l.reconnect peer m.generation held).beginCatchUp) ?_ (fun l => ?_) fun _ _ => rfl)
  · unfold register
    cases m.link? peer.id <;> rfl
  · refine heedless_of_commutes fun m => ?_
    simp only [without, List.map_append, List.map_cons, List.map_nil]
    rfl
  · refine heedless_of_part (fun m => m.generation) (fun _ => rfl)
      (f := fun newest m => (m.cut l.generation).onLink peer.id fun l =>
        (l.reconnect peer newest held).beginCatchUp) fun newest => ?_
    exact (heedless_onLink peer.id fun _ => rfl).comp (heedless_cut l.generation)

theorem heedless_openSession (h : Hello) :
    Heedless old fun m : Master L => m.openSession h := fun m => by
  simp only [without, openSession, List.filter_append, List.filter_filter, Bool.and_self,
    List.map_map]
  rfl

theorem heedless_seatOf (peer : Peer) (h : Hello) :
    Heedless old fun m : Master L => m.seatOf peer h :=
  (heedless_openSession h).comp ((heedless_register peer h.lastOffset).comp
    (heedless_of_commutes (f := fun m => { m with generation := m.generation + 1 }) fun _ => rfl))

theorem heedless_seat (peer : Peer) (h : Hello) :
    Heedless old fun m : Master L => (m.seat peer h).1 := by
  refine Heedless.congr (fun m => congrArg (without old) ?_)
    (heedless_ite (c := fun m => m.settings.maxReplicas.toNat ≤ m.others peer.id)
      (fun m => by rw [others_without]; rfl)
      (heedless_of_commutes (f := fun m => { m with generation := m.generation + 1 }) fun _ => rfl)
      (heedless_seatOf peer h))
  unfold seat
  dsimp only
  split
  · rename_i full
    exact (if_pos full).symm
  · rename_i place
    refine Eq.trans ?_ (if_neg place).symm
    split <;> rfl

omit [LocalLog L] in
theorem countRejection_without (m : Master L) (rejection : Rejection) :
    (m.countRejection rejection).without old = m.without old := by
  unfold countRejection
  split <;> rfl

/-- A first message that is good gives its replica a place, or there is none. -/
theorem greet_of_good {address : SocketAddress} {first : Except Fault Message} {peer : Peer}
    {h : Hello} (hello : checkHello m.settings address first = .ok (peer, h))
    (history : checkHistory m.log h = .ok ()) :
    (m.greet address first).1.without old = (m.seat peer h).1.without old := by
  unfold greet
  rw [hello]
  dsimp only
  rw [history]
  dsimp only
  cases m.seat peer h with
  | mk after result =>
    cases result with
    | error rejection => exact countRejection_without after rejection
    | ok report => rfl

/-- Any other is counted at most. -/
theorem greet_of_bad {address : SocketAddress} {first : Except Fault Message}
    (bad : ¬∃ peer h, checkHello m.settings address first = .ok (peer, h) ∧
      checkHistory m.log h = .ok ()) :
    (m.greet address first).1.without old = m.without old := by
  unfold greet
  cases hello : checkHello m.settings address first with
  | error rejection => exact countRejection_without m rejection
  | ok named =>
    obtain ⟨peer, h⟩ := named
    dsimp only
    cases history : checkHistory m.log h with
    | error rejection => exact countRejection_without m rejection
    | ok _ => exact absurd ⟨peer, h, hello, history⟩ bad

theorem heedless_greet (address : SocketAddress) (first : Except Fault Message) :
    Heedless old fun m : Master L => (m.greet address first).1 := fun m => by
  dsimp only
  by_cases good : ∃ peer h, checkHello m.settings address first = .ok (peer, h) ∧
      checkHistory m.log h = .ok ()
  · obtain ⟨peer, h, hello, history⟩ := good
    rw [greet_of_good hello history, greet_of_good (m := m.without old) hello history]
    exact heedless_seat peer h m
  · rw [greet_of_bad good, greet_of_bad (m := m.without old) good, without_without]

/-! ### Sessions -/

omit [LocalLog L] in
/-- Whether a message fits into a frame is the same for every master. -/
theorem write_either (generation : Nat) (message : Message) :
    (∃ fault, ∀ m : Master L, m.write generation message = .error (m.endSession generation fault)) ∨
      ∀ m : Master L, m.write generation message = .ok (some message) := by
  by_cases large : Frame.maxPayload < message.payloadSize
  · exact .inl ⟨_, fun _ => if_pos large⟩
  · exact .inr fun _ => if_neg large

omit [LocalLog L] in
theorem heedless_sendNext {s : Session} (kept : s.generation ∉ old) (slice : Slice) (e : Entry)
    (rest : List Entry) (count : Nat) :
    Heedless old fun m : Master L => (m.sendNext s slice e rest count).1 := fun m => by
  have moved : Heedless old fun m : Master L =>
      m.onSession s.generation fun s => { s with next := s.next + 1 } :=
    heedless_onSession s.generation fun _ => rfl
  dsimp only
  unfold sendNext
  split
  · exact heedless_endSession kept _ m
  rcases write_either s.generation (.entry e) with ⟨fault, failed⟩ | wrote
  · rw [failed, failed]
    exact heedless_endSession kept fault m
  rw [wrote, wrote]
  dsimp only
  split
  · exact (heedless_enter s.generation slice.after).comp
      ((heedless_countShipped s.replicaId count).comp moved) m
  · exact (heedless_enter s.generation (.sending slice rest count)).comp moved m

omit [LocalLog L] in
theorem heedless_takeFresh {s : Session} (kept : s.generation ∉ old) :
    Heedless old fun m : Master L => (m.takeFresh s).1 := by
  unfold takeFresh
  cases s.connection.queue with
  | nil =>
    dsimp only
    split
    · exact heedless_id
    · exact heedless_endSession kept none
  | cons e later =>
    have taken : Heedless old fun m : Master L => m.onSession s.generation fun s =>
        { s with connection := { s.connection with queue := later } } :=
      heedless_onSession s.generation fun _ => rfl
    exact (heedless_sendNext kept .fresh e [] 1).comp taken

theorem heedless_readPage {s : Session} (kept : s.generation ∉ old) :
    Heedless old fun m : Master L => m.readPage s := fun m => by
  dsimp only
  unfold readPage
  rw [log_without, settings_without]
  rcases LocalLog.read m.log s.next m.settings.batchSize with fault | _ | ⟨e, page⟩
  · exact heedless_endSession kept (some fault) m
  · exact heedless_enter s.generation .finishing m
  · exact heedless_enter s.generation _ m

theorem heedless_finishCatchUp {s : Session} (kept : s.generation ∉ old) :
    Heedless old fun m : Master L => m.finishCatchUp s := fun m => by
  have superseded := heedless_endSession kept (some (.stopped (.superseded s.replicaId))) m
  dsimp only
  unfold finishCatchUp
  rw [unannounced_without, log_without, link?_without]
  split
  · exact heedless_id m
  rcases LocalLog.readTail m.log s.next with fault | tail
  · exact heedless_endSession kept (some fault) m
  cases m.link? s.replicaId with
  | none => exact superseded
  | some l =>
    have streams : Heedless old fun m : Master L =>
        (m.onLink s.replicaId Link.beginStreaming).recount := by
      refine (heedless_onLink s.replicaId (f := Link.beginStreaming) fun l => ?_).congr fun _ => rfl
      have same : l.unheard.phase = l.phase := rfl
      unfold Link.beginStreaming
      rw [same]
      split <;> rfl
    have flipped := (heedless_enter s.generation (sendingStage .tail tail)).comp streams
    exact heedless_ite (c := fun _ => l.generation = s.generation ∧ l.phase = .catchingUp)
      (fun _ => .rfl) flipped (heedless_endSession kept _) m

omit [LocalLog L] in
theorem heedless_welcomed (s : Session) : Heedless old fun m : Master L => m.welcomed s := by
  have rebased : Heedless old fun m : Master L =>
      { m with quorum := (m.quorum.rebase (.replica s.replicaId) (s.next - 1)).1 } :=
    heedless_of_commutes fun _ => rfl
  exact ((heedless_enter s.generation .reading).comp rebased).congr fun _ => rfl

theorem heedless_advance (kept : generation ∉ old) :
    Heedless old fun m : Master L => (m.advance generation).1 := fun m => by
  dsimp only
  unfold advance
  rw [session?_without kept]
  cases found : m.session? generation with
  | none => exact heedless_id m
  | some s =>
    obtain ⟨-, rfl⟩ := session_of_find found
    dsimp only
    rcases s.stage with welcome | _ | ⟨slice, _ | ⟨e, rest⟩, count⟩ | _ | _ | _ | fault
    · dsimp only
      rcases write_either s.generation (.welcome welcome) with ⟨fault, failed⟩ | wrote
      · rw [failed, failed]
        exact heedless_endSession kept fault m
      · rw [wrote, wrote]
        exact heedless_welcomed s m
    · exact heedless_readPage kept m
    · exact heedless_enter s.generation slice.after m
    · exact heedless_sendNext kept slice e rest count m
    · exact heedless_finishCatchUp kept m
    · exact heedless_enter s.generation .streaming m
    · exact heedless_takeFresh kept m
    · exact heedless_id m

theorem heedless_receive (kept : generation ∉ old) (message : Message) :
    Heedless old fun m : Master L => m.receive generation message := by
  refine heedless_session kept fun s own => ?_
  refine heedless_ite (fun _ => .rfl) ?_ heedless_id
  cases message with
  | ack offset => exact heedless_acknowledge s.replicaId offset
  | pong timestamp => exact heedless_onLink s.replicaId fun _ => rfl
  | failure code text => exact heedless_endSession kept none
  | _ => exact heedless_id

end Master

/-- Whether a move is a step of a connection of some generations. -/
def Move.isOf (old : List Nat) : Move → Bool
  | .advance generation | .receive generation _ | .endSession generation _ => generation ∈ old
  | _ => false

/-- What the others do, they do as if the connections that are left out were not there. -/
theorem Master.heedless_move {L : Type} [LocalLog L] {old : List Nat} {a : Move}
    (other : a.isOf old = false) : Heedless old fun m : Master L => m.move a := by
  cases a with
  | append payload metadata => exact heedless_append payload metadata
  | store payload metadata => exact heedless_store payload metadata
  | announce => exact heedless_announce
  | purge offset => exact heedless_of_commutes fun _ => rfl
  | greet address first => exact heedless_greet address first
  | advance generation => exact heedless_advance (by simpa [Move.isOf] using other)
  | receive generation message => exact heedless_receive (by simpa [Move.isOf] using other) message
  | acknowledge id offset => exact heedless_acknowledge id offset
  | disconnect id => exact heedless_closeLink id none
  | endSession generation fault =>
    exact heedless_endSession (by simpa [Move.isOf] using other) fault
  | start bind => exact heedless_start bind
  | stop => exact heedless_stop

end QuorumLog
