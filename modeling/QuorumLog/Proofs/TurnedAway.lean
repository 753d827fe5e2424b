import QuorumLog.Proofs.Handshakes

/-! Peers that are turned away. A first message is refused for one of six reasons, and what a refusal
leaves behind is a count and a generation that is used up, also if the peer claims to be a replica
that is connected. A peer that does not show the token of a master is answered by every master with
the same bytes, so it learns nothing about the one that it talks to. -/

namespace QuorumLog.Master

variable {L K : Type} {m : Master L} {first : Except Fault Message} {address : SocketAddress}
  {rejection : Rejection}

/-! ### What a refusal leaves behind -/

/-- Nothing of a master changed, but a peer that was told why it is turned away is counted. A
generation may be used up; no connection is of that generation. -/
structure Untouched (m after : Master L) (told : Bool) : Prop where
  settings : after.settings = m.settings
  log : after.log = m.log
  unannounced : after.unannounced = m.unannounced
  /-- Writes that wait, what became of every other write, and how far every copy has come. -/
  quorum : after.quorum = m.quorum
  links : after.links = m.links
  sessions : after.sessions = m.sessions
  tally : after.tally = { m.tally with rejected := m.tally.rejected + told.toNat }
  address : after.address = m.address
  running : after.running = m.running
  stopped : after.stopped = m.stopped
  issued : m.generation ≤ after.generation ∧ after.generation ≤ m.generation + 1

theorem untouched_countRejection (m : Master L) (rejection : Rejection) {generation : Nat}
    (issued : m.generation ≤ generation ∧ generation ≤ m.generation + 1) :
    m.Untouched ({ m with generation }.countRejection rejection) rejection.reply.isSome := by
  unfold countRejection
  cases told : rejection.reply.isSome <;>
    exact ⟨rfl, rfl, rfl, rfl, rfl, rfl, rfl, rfl, rfl, rfl, issued⟩

section Greeting

variable [LocalLog L] [LocalLog K]

/-- A peer that finds no place has used up a generation and changed nothing else. -/
theorem seat_of_rejected {peer : Peer} {h : Hello} (named : h.replicaId = peer.id)
    (rejected : (m.seat peer h).2 = .error rejection) :
    (m.seat peer h).1 = { m with generation := m.generation + 1 } := by
  by_cases place : m.others peer.id < m.settings.maxReplicas.toNat
  · obtain ⟨report, taken⟩ := m.seat_of_place peer named place
    rw [taken] at rejected
    cases rejected
  · have full : m.settings.maxReplicas.toNat ≤
        others { m with generation := m.generation + 1 } peer.id := Nat.le_of_not_lt place
    unfold seat
    dsimp only
    rw [if_pos full]

theorem untouched_of_rejected (rejected : (m.greet address first).2 = .error rejection) :
    m.Untouched (m.greet address first).1 rejection.reply.isSome := by
  have same : m.generation ≤ m.generation ∧ m.generation ≤ m.generation + 1 :=
    ⟨Nat.le_refl _, Nat.le_succ _⟩
  unfold greet at rejected ⊢
  split at rejected
  · cases rejected
    exact untouched_countRejection m _ same
  rename_i peer h hello
  split at rejected
  · cases rejected
    exact untouched_countRejection m _ same
  cases seat : m.seat peer h with
  | mk after result =>
    rw [seat] at rejected
    cases result with
    | ok report => cases rejected
    | error reason =>
      cases rejected
      have named := (checkHello_of_ok hello).2.symm
      obtain rfl : after = { m with generation := m.generation + 1 } := by
        rw [← seat_of_rejected named (congrArg Prod.snd seat), seat]
      exact untouched_countRejection m _ ⟨Nat.le_succ _, Nat.le_refl _⟩

/-! ### What is refused -/

/-- Why a first message does not open a session. -/
inductive Bars (m : Master L) : Except Fault Message → Prop
  /-- The bytes are no frame of a message. -/
  | unread (fault : Fault) : m.Bars (.error fault)
  /-- The message is not a hello. -/
  | stray (message : Message) (other : message.kind ≠ .hello) : m.Bars (.ok message)
  | version (h : Hello) (unspoken : h.version ≠ Message.version) : m.Bars (.ok (.hello h))
  /-- The token differs in some byte, or in its length. -/
  | token (h : Hello) (wrong : Utf8.encode h.token ≠ Utf8.encode m.settings.token) :
    m.Bars (.ok (.hello h))
  /-- The log of the peer left the history, or where it did cannot be read. -/
  | history (h : Hello) (parts : diverges m.log h ≠ .ok false) : m.Bars (.ok (.hello h))
  /-- As many others as there are places are connected. -/
  | full (h : Hello) (places : m.settings.maxReplicas.toNat ≤ m.others h.replicaId) :
    m.Bars (.ok (.hello h))

theorem encode_token_inj {shown expected : String} :
    Utf8.encode shown = Utf8.encode expected ↔ shown = expected := by
  refine ⟨fun same => Option.some.inj ?_, congrArg Utf8.encode⟩
  rw [← Utf8.decode?_encode shown, same, Utf8.decode?_encode]

/-- A hello of the spoken version passes exactly if its token is the one of the master, byte for
byte. -/
theorem checkHello_ok_iff {settings : Settings} {h : Hello} (spoken : h.version = Message.version) :
    (∃ known, checkHello settings address (.ok (.hello h)) = .ok known) ↔
      Utf8.encode h.token = Utf8.encode settings.token := by
  rw [encode_token_inj]
  constructor
  · rintro ⟨known, passed⟩
    simp only [checkHello, spoken, ne_eq, not_true_eq_false, if_false] at passed
    split at passed
    · rename_i accepted
      exact (Token.isAccepted_iff _ _).mp accepted
    · cases passed
  · exact fun trusted => ⟨_, Handshake.checkHello_of_trusted spoken trusted⟩

theorem hello_of_greet {report : LinkReport} (accepted : (m.greet address first).2 = .ok report) :
    ∃ h, first = .ok (.hello h) ∧ h.version = Message.version ∧
      Utf8.encode h.token = Utf8.encode m.settings.token ∧ diverges m.log h = .ok false ∧
      m.others h.replicaId < m.settings.maxReplicas.toNat := by
  unfold greet at accepted
  split at accepted
  · cases accepted
  rename_i peer h hello
  obtain ⟨rfl, named⟩ := checkHello_of_ok hello
  split at accepted
  · cases accepted
  rename_i history
  have spoken : h.version = Message.version := by
    by_contra unspoken
    simp [checkHello, unspoken] at hello
  refine ⟨h, rfl, spoken, (checkHello_ok_iff spoken).mp ⟨_, hello⟩, ?_, ?_⟩
  · unfold checkHistory at history
    split at history
    · cases history
    · cases history
    · assumption
  · refine Nat.lt_of_not_le fun full => ?_
    have places : m.settings.maxReplicas.toNat ≤
        others { m with generation := m.generation + 1 } peer.id := named ▸ full
    unfold seat at accepted
    dsimp only at accepted
    rw [if_pos places] at accepted
    cases accepted

/-- A first message is refused exactly for one of the reasons. -/
theorem refused_iff_bars (m : Master L) (address : SocketAddress) (first : Except Fault Message) :
    (∃ rejection, (m.greet address first).2 = .error rejection) ↔ m.Bars first := by
  constructor
  · rintro ⟨rejection, rejected⟩
    by_contra free
    cases first with
    | error fault => exact free (.unread fault)
    | ok message =>
      cases message with
      | hello h =>
        have spoken : h.version = Message.version := by_contra fun other => free (.version h other)
        have trusted := encode_token_inj.mp (by_contra fun wrong => free (.token h wrong))
        have together : diverges m.log h = .ok false :=
          by_contra fun parts => free (.history h parts)
        have place := Nat.lt_of_not_le fun places => free (.full h places)
        obtain ⟨report, taken⟩ := Handshake.greet_placed address spoken trusted together place
        rw [taken] at rejected
        cases rejected
      | _ => exact free (.stray _ (by simp [Message.kind]))
  · intro barred
    cases greeted : (m.greet address first).2 with
    | error rejection => exact ⟨rejection, rfl⟩
    | ok report =>
      obtain ⟨h, rfl, spoken, trusted, together, place⟩ := hello_of_greet greeted
      cases barred with
      | stray _ other => exact absurd rfl other
      | version _ unspoken => exact absurd spoken unspoken
      | token _ wrong => exact absurd trusted wrong
      | history _ parts => exact absurd together parts
      | full _ places => exact absurd place (Nat.not_lt_of_le places)

/-! ### What a stranger learns -/

/-- A first message that shows neither of two tokens: none could be read, it is no hello, it is of
another version, or its token is wrong on both sides. -/
def Distrusted (first : Except Fault Message) (ours theirs : String) : Prop :=
  ∀ h, first = .ok (.hello h) → h.version = Message.version →
    Utf8.encode h.token ≠ Utf8.encode ours ∧ Utf8.encode h.token ≠ Utf8.encode theirs

theorem checkHello_of_distrusted {ours theirs : Settings} (here there : SocketAddress)
    (distrusted : Distrusted first ours.token theirs.token) :
    ∃ one other, checkHello ours here first = .error one ∧
      checkHello theirs there first = .error other ∧ one.reply = other.reply := by
  cases first with
  | error fault => exact ⟨_, _, rfl, rfl, rfl⟩
  | ok message =>
    cases message with
    | hello h =>
      by_cases spoken : h.version = Message.version
      · obtain ⟨wrong, wrong'⟩ := distrusted h rfl spoken
        have one : ¬Token.isAccepted h.token ours.token := fun accepted =>
          wrong (congrArg Utf8.encode ((Token.isAccepted_iff _ _).mp accepted))
        have other : ¬Token.isAccepted h.token theirs.token := fun accepted =>
          wrong' (congrArg Utf8.encode ((Token.isAccepted_iff _ _).mp accepted))
        exact ⟨.token ⟨h.replicaId, here, h.token⟩, .token ⟨h.replicaId, there, h.token⟩,
          by simp [checkHello, spoken, one], by simp [checkHello, spoken, other], rfl⟩
      · exact ⟨.version h.version, .version h.version, by simp [checkHello, spoken],
          by simp [checkHello, spoken], rfl⟩
    | _ => exact ⟨_, _, rfl, rfl, rfl⟩

theorem greet_of_checkHello (failed : checkHello m.settings address first = .error rejection) :
    (m.greet address first).2 = .error rejection := by
  unfold greet
  rw [failed]

theorem answer_of_rejected {received : Bytes} (meanwhile : List Move)
    (rejected : (m.greet address (Frame.next received).1).2 = .error rejection) :
    (m.respond address received meanwhile).2.2 = Frame.written rejection.reply := by
  unfold respond
  cases greeted : m.greet address (Frame.next received).1 with
  | mk after result =>
    rw [greeted] at rejected
    cases rejected
    rfl

/-- Two masters write the same bytes to a peer that shows neither the token of the one nor that of the
other, whatever their logs, their links and their writes are and whatever they do meanwhile. -/
theorem answer_of_distrusted (m : Master L) (other : Master K) (here there : SocketAddress)
    (received : Bytes) (meanwhile meanwhile' : List Move)
    (distrusted : Distrusted (Frame.next received).1 m.settings.token other.settings.token) :
    (m.respond here received meanwhile).2.2 = (other.respond there received meanwhile').2.2 := by
  obtain ⟨one, two, failed, failed', reply⟩ := checkHello_of_distrusted here there distrusted
  rw [answer_of_rejected meanwhile (greet_of_checkHello failed),
    answer_of_rejected meanwhile' (greet_of_checkHello failed'), reply]

end Greeting

/-! ### The rule -/

/-- What a master does with the first bytes on a new connection if it does not accept them. -/
structure TurnsAway [LocalLog L] (m : Master L) (address : SocketAddress) (received : Bytes) :
    Prop where
  /-- The reasons are all that there are. -/
  refused : (∃ rejection, (m.greet address (Frame.next received).1).2 = .error rejection) ↔
    m.Bars (Frame.next received).1
  untouched : ∀ rejection, (m.greet address (Frame.next received).1).2 = .error rejection →
    m.Untouched (m.greet address (Frame.next received).1).1 rejection.reply.isSome
  /-- The answer to a stranger is the one of any other master to which it is a stranger. -/
  blind : ∀ (K : Type) [LocalLog K] (other : Master K) (there : SocketAddress)
    (meanwhile meanwhile' : List Move),
    Distrusted (Frame.next received).1 m.settings.token other.settings.token →
      (m.respond address received meanwhile).2.2 = (other.respond there received meanwhile').2.2
  /-- Of the hellos of the spoken version those with the very token pass. -/
  token : ∀ h, (Frame.next received).1 = .ok (.hello h) → h.version = Message.version →
    ((∃ known, checkHello m.settings address (Frame.next received).1 = .ok known) ↔
      Utf8.encode h.token = Utf8.encode m.settings.token)

/-- In any state, a refused peer changes nothing, and a stranger learns nothing. -/
theorem turns_away [LocalLog L] (m : Master L) (address : SocketAddress) (received : Bytes) :
    m.TurnsAway address received where
  refused := refused_iff_bars m address _
  untouched _ rejected := untouched_of_rejected rejected
  blind _ _ other there meanwhile meanwhile' :=
    answer_of_distrusted m other address there received meanwhile meanwhile'
  token h read spoken := by
    rw [read]
    exact checkHello_ok_iff spoken

/-- A hello in the name of a replica. -/
def claim (id token : String) : Hello where
  replicaId := id
  token := token
  lastOffset := 0
  lastChecksum := 0
  version := Message.version

/-- A master with one connected replica and one write that waits for another copy. -/
def guarded : Master VolatileLog :=
  ({ small 2 with settings := { smallSettings 2 with token := "secret" } }).play
    [.greet Settings.defaultBind (.ok (.hello (claim "first" "secret"))), .advance 1,
      .append [7] none]

/-- The bytes of a hello in the name of the connected replica, its token filled up with a zero. -/
def disguised : Bytes := Frame.written (some (.hello (claim "first" "secret\x00")))

/-- The impostor is refused and counted, the replica keeps its connection and the write waits on. A
master without a token gives the same answer. -/
theorem turns_away_impostor :
    guarded.TurnsAway Settings.defaultBind disguised ∧
    (Frame.next disguised).1 = .ok (.hello (claim "first" "secret\x00")) ∧
    guarded.Untouched (guarded.greet Settings.defaultBind (Frame.next disguised).1).1 true ∧
    (guarded.respond Settings.defaultBind disguised []).2.2 =
      ((small 1).respond Settings.defaultBind disguised []).2.2 ∧
    guarded.links.map (·.isConnected) = [true] ∧
    guarded.quorum.board.state 0 = .pending := by
  have turned := turns_away guarded Settings.defaultBind disguised
  have read : (Frame.next disguised).1 = .ok (.hello (claim "first" "secret\x00")) := by
    decide +kernel
  have strange : Distrusted (Frame.next disguised).1 guarded.settings.token
      (small 1).settings.token := by
    intro h said _
    rw [read] at said
    cases said
    decide +kernel
  have refused : (guarded.greet Settings.defaultBind (Frame.next disguised).1).2 =
      .error (.token ⟨"first", Settings.defaultBind, "secret\x00"⟩) := by decide +kernel
  refine ⟨turned, read, turned.untouched _ refused, turned.blind _ (small 1) _ [] [] strange, ?_, ?_⟩ <;>
    decide +kernel

end QuorumLog.Master
