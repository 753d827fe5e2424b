import Mathlib.Data.Nat.Bitwise
import QuorumLog.Proofs.FrameCodec
import QuorumLog.Proofs.PendingWelcomes
import QuorumLog.Proofs.RefusalTexts
import QuorumLog.Proofs.ShippingRuns

/-! A handshake seen from both ends. The replica writes its hello on a stream, the master reads it
there, decides, and writes its answer back; nothing is lost on the way, but the master may do anything
else before it answers. Whatever it decides, the replica comes to the same end: both go on from one
offset, both hold the same divergence, or both know that the token was not trusted. -/

namespace QuorumLog

/-! ### Tokens -/

namespace Token

theorem difference_eq_zero_iff {shown expected : Bytes} (same : shown.length = expected.length) :
    difference shown expected = 0 ↔ shown = expected := by
  induction expected generalizing shown with
  | nil => simp [difference, List.length_eq_zero_iff.mp same]
  | cons b rest ih =>
    cases shown with
    | nil => cases same
    | cons a shown =>
      have byte : (a ^^^ b).toNat = 0 ↔ a = b := by
        rw [← UInt8.xor_eq_zero_iff, ← UInt8.toNat_inj]
        rfl
      simp only [difference, List.headD_cons, List.tail_cons, Nat.or_eq_zero_iff, byte,
        ih (Nat.succ.inj same), List.cons.injEq]

/-- A token is accepted exactly if it is the expected one. -/
theorem isAccepted_iff (shown expected : String) : isAccepted shown expected ↔ shown = expected := by
  simp only [isAccepted, decide_eq_true_eq, Nat.or_eq_zero_iff, Nat.xor_eq_zero_iff]
  constructor
  · rintro ⟨length, bytes⟩
    have read := congrArg Utf8.decode? ((difference_eq_zero_iff length).mp bytes)
    rw [Utf8.decode?_encode, Utf8.decode?_encode] at read
    exact Option.some.inj read
  · rintro rfl
    exact ⟨rfl, (difference_eq_zero_iff rfl).mpr rfl⟩

end Token

/-! ### The two ends -/

/-- What a message puts on a stream; one that fits into no frame, or none, puts nothing there. -/
def Frame.written : Option Message → Bytes
  | none => []
  | some message => (encode message).toOption.getD []

/-- The fault with which a session ended. -/
def Session.fault? (s : Session) : Option Fault :=
  match s.stage with
  | .ended fault => fault
  | _ => none

section Ends

variable {L K : Type} [LocalLog L] [LocalLog K]

/-- The whole handshake of a master on a stream: what becomes of the replica, and what is written
back. Other things may happen between the decision and the answer. -/
def Master.respond (m : Master L) (address : SocketAddress) (received : Bytes)
    (meanwhile : List Move) : Master L × Except Fault LinkReport × Bytes :=
  match m.greet address (Frame.next received).1 with
  | (m, .error rejection) =>
    (m.play meanwhile, .error rejection.fault, Frame.written rejection.reply)
  | (opened, .ok report) =>
    match (opened.play meanwhile).advance opened.generation with
    | (m, some welcome) => (m, .ok report, Frame.written (some welcome))
    | (m, none) =>
      let fault := (m.session? opened.generation).bind Session.fault?
      (m, .error (fault.getD (.stopped .master)), [])

/-- The first half of the handshake of a replica: it dials, and gives its hello and the frame that it
writes. -/
def Replica.knock (r : Replica K) : Replica K × Except Fault (Hello × Bytes) :=
  match r.dial with
  | (r, .error fault) => (r, .error fault)
  | (r, .ok _) => (r, r.hello.bind fun h => (Frame.encode (.hello h)).map fun frame => (h, frame))

/-- The end of a handshake. -/
structure Handshake (L K : Type) where
  master : Master L
  /-- What the master made of the replica. -/
  accepted : Except Fault LinkReport
  /-- What the master wrote. -/
  answer : Bytes
  replica : Replica K
  /-- What the replica made of the answer. -/
  connected : Except Fault Welcomed

/-- The handshake of a replica with a master, or the fault that kept the replica from writing. -/
def Handshake.between (m : Master L) (r : Replica K) (address : SocketAddress)
    (meanwhile : List Move) : Except Fault (Handshake L K) :=
  match r.knock with
  | (_, .error fault) => .error fault
  | (r, .ok (h, sent)) =>
    let (master, accepted, answer) := m.respond address sent meanwhile
    let (replica, connected) := r.welcome h.lastOffset (Frame.next answer).1
    .ok { master, accepted, answer, replica, connected }

/-- Whether the log of a replica has left the history of a master: it is ahead, it lacks entries that
the master forgot, or its last entry is another one. -/
def Parts (ours : L) (theirs : K) : Prop :=
  LocalLog.highest ours < LocalLog.highest theirs ∨
  LocalLog.highest theirs + 1 < LocalLog.oldest ours ∨
  LocalLog.highest theirs ≠ 0 ∧ ∃ here there,
    LocalLog.checksumAt ours (LocalLog.highest theirs) = .ok (some here) ∧
    LocalLog.checksumAt theirs (LocalLog.highest theirs) = .ok there ∧ here ≠ there.getD 0

namespace Handshake

/-- A replica knows where its master is and there is a place for it, both logs can be read where they
are compared, names, tokens and offsets can be written, and an entry behind those of the replica could
still have an offset. -/
structure Possible (m : Master L) (r : Replica K) : Prop where
  dials : r.settings.masterAddress.isSome
  place : m.others r.settings.nodeId < m.settings.maxReplicas.toNat
  ours : ∃ sum, LocalLog.checksumAt m.log r.offset = .ok sum
  theirs : ∃ sum, LocalLog.checksumAt r.log r.offset = .ok sum
  hello : 36 + r.settings.nodeId.utf8ByteSize + r.settings.token.utf8ByteSize ≤ Frame.maxPayload
  welcome : 28 + m.settings.nodeId.utf8ByteSize ≤ Frame.maxPayload
  replica : r.offset + 1 < UInt64.size
  master : m.offset < UInt64.size
  oldest : LocalLog.oldest m.log < UInt64.size

/-- Both ends go on from the end of the replica's log. -/
structure Joined (m : Master L) (r : Replica K) (h : Handshake L K) : Prop where
  trusted : r.settings.token = m.settings.token
  together : ¬Parts m.log r.log
  accepted : ∃ report, h.accepted = .ok report
  connected : h.connected = .ok {
    masterId := m.settings.nodeId
    masterOffset := m.offset
    oldest := LocalLog.oldest m.log
    resume := r.offset }
  /-- What is shipped first is the entry behind the offset from which the replica resumes. -/
  session : ∃ s, h.master.session? (m.generation + 1) = some s ∧
    s.replicaId = r.settings.nodeId ∧ s.next = r.offset + 1 ∧ s.stage = .reading

/-- Both ends hold the same divergence. -/
structure Parted (m : Master L) (r : Replica K) (h : Handshake L K) : Prop where
  trusted : r.settings.token = m.settings.token
  parts : Parts m.log r.log
  accepted : h.accepted = .error (.divergence r.offset (LocalLog.oldest m.log) m.offset)
  connected : h.connected = .error (.divergence r.offset (LocalLog.oldest m.log) m.offset)

/-- The master did not trust the replica, and both ends know. -/
structure Refused (m : Master L) (r : Replica K) (h : Handshake L K) : Prop where
  wrong : r.settings.token ≠ m.settings.token
  accepted : ∃ cause, h.accepted = .error (.trust cause)
  connected : ∃ cause, h.connected = .error (.trust cause)

/-- The two ends agree. The check that the replica makes of a welcome never fails, and it gives up for
good exactly if it has to. -/
structure Agrees (m : Master L) (r : Replica K) (h : Handshake L K) : Prop where
  outcome : h.Joined m r ∨ h.Parted m r ∨ h.Refused m r
  welcome : ∀ w, (Frame.next h.answer).1 = .ok (.welcome w) →
    ¬(w.current < r.offset ∨ r.offset + 1 < w.oldest)
  fatal : (∃ fault, h.connected = .error fault ∧ fault.isFatal) ↔ h.Parted m r ∨ h.Refused m r

end Handshake

/-! ### The replica begins -/

/-- What a replica says whose last entry has a checksum, or is not retained. -/
def Replica.said (r : Replica K) (sum : Option UInt32) : Hello where
  replicaId := r.settings.nodeId
  token := r.settings.token
  lastOffset := r.offset
  lastChecksum := if r.offset = 0 then 0 else sum.getD 0
  version := Message.version

theorem Replica.hello_of_read {r : Replica K} {sum : Option UInt32}
    (read : LocalLog.checksumAt r.log r.offset = .ok sum) : r.hello = .ok (r.said sum) := by
  unfold hello said
  by_cases empty : r.offset = 0
  · simp [empty]
  · simp [empty, read, Except.map]

/-- A message that fits is read from the stream on which it was written. -/
theorem Frame.next_written (message : Message) (fits : message.Fits)
    (small : message.payloadSize ≤ maxPayload) :
    (next (written (some message))).1 = .ok message := by
  obtain ⟨frame, encoded⟩ := (encode_ok_iff message).mpr small
  have read := next_encode fits encoded []
  rw [List.append_nil] at read
  rw [written, encoded]
  exact congrArg Prod.fst read

namespace Handshake

variable {m : Master L} {r : Replica K} {address : SocketAddress}

/-- What was written on both ways arrives. -/
structure Met (m : Master L) (r : Replica K) (address : SocketAddress) (meanwhile : List Move)
    (sum : Option UInt32) (sent : Bytes) (h : Handshake L K) : Prop where
  said : LocalLog.checksumAt r.log r.offset = .ok sum
  arrived : (Frame.next sent).1 = .ok (.hello (r.said sum))
  master : h.master = (m.respond address sent meanwhile).1
  admitted : (m.respond address sent meanwhile).2 = (h.accepted, h.answer)
  connected : h.connected =
    ({ r with phase := .connecting }.welcome r.offset (Frame.next h.answer).1).2

theorem met_of_possible (possible : Possible m r) (address : SocketAddress)
    (meanwhile : List Move) : ∃ h sum sent, between m r address meanwhile = .ok h ∧
      Met m r address meanwhile sum sent h := by
  obtain ⟨sum, read⟩ := possible.theirs
  obtain ⟨a, dials⟩ := Option.isSome_iff_exists.mp possible.dials
  have small : (Message.hello (r.said sum)).payloadSize ≤ Frame.maxPayload := possible.hello
  have fits : (Message.hello (r.said sum)).Fits := Nat.lt_of_succ_lt possible.replica
  obtain ⟨frame, encoded⟩ := (Frame.encode_ok_iff _).mpr small
  have arrived := Frame.next_encode fits encoded []
  rw [List.append_nil] at arrived
  have said : ({ r with phase := .connecting } : Replica K).hello = .ok (r.said sum) :=
    Replica.hello_of_read read
  have knocked : r.knock = ({ r with phase := .connecting }, .ok (r.said sum, frame)) := by
    simp only [Replica.knock, Replica.dial, dials, said, Except.bind, encoded, Except.map]
  cases admitted : m.respond address frame meanwhile with
  | mk master result =>
    obtain ⟨accepted, answer⟩ := result
    have ran : between m r address meanwhile = .ok {
        master, accepted, answer
        replica := ({ r with phase := .connecting }.welcome r.offset (Frame.next answer).1).1
        connected := ({ r with phase := .connecting }.welcome r.offset
          (Frame.next answer).1).2 } := by
      simp only [between, knocked, admitted]
      rfl
    exact ⟨_, sum, frame, ran, read, congrArg Prod.fst arrived, by rw [admitted],
      by rw [admitted], rfl⟩

/-! ### The master decides -/

/-- What is compared in both logs decides whether the replica can go on. -/
theorem diverges_said {sum : Option UInt32}
    (theirs : LocalLog.checksumAt r.log r.offset = .ok sum)
    (ours : ∃ sum, LocalLog.checksumAt m.log r.offset = .ok sum) :
    ∃ parts, Master.diverges m.log (r.said sum) = .ok parts ∧
      (parts = true ↔ Parts m.log r.log) := by
  obtain ⟨kept, ours⟩ := ours
  have last : (r.said sum).lastOffset = LocalLog.highest r.log := rfl
  rw [Replica.offset] at ours theirs
  unfold Master.diverges Master.historyDiffers Parts
  rw [last]
  by_cases beyond : LocalLog.highest m.log < LocalLog.highest r.log ∨
      LocalLog.highest r.log + 1 < LocalLog.oldest m.log
  · rw [if_pos beyond]
    exact ⟨true, rfl, fun _ => or_assoc.mp (.inl beyond), fun _ => rfl⟩
  rw [if_neg beyond, ← or_assoc, or_iff_right beyond]
  by_cases empty : LocalLog.highest r.log = 0
  · rw [if_pos empty]
    exact ⟨false, rfl, by simp [empty]⟩
  have checksum : (r.said sum).lastChecksum = sum.getD 0 := if_neg empty
  rw [if_neg empty, ours, theirs, checksum]
  refine ⟨_, rfl, ?_⟩
  cases kept with
  | none => simp
  | some here => simp [empty]

/-- The master turns away a replica with another token. -/
theorem greet_wrong {h : Hello} (version : h.version = Message.version)
    (wrong : h.token ≠ m.settings.token) :
    (m.greet address (.ok (.hello h))).2 = .error (.token ⟨h.replicaId, address, h.token⟩) := by
  have other : ¬Token.isAccepted h.token m.settings.token :=
    fun accepted => wrong ((Token.isAccepted_iff _ _).mp accepted)
  simp [Master.greet, Master.checkHello, version, other]

theorem checkHello_of_trusted {settings : Settings} {h : Hello}
    (version : h.version = Message.version) (trusted : h.token = settings.token) :
    Master.checkHello settings address (.ok (.hello h)) =
      .ok (⟨h.replicaId, address, h.token⟩, h) := by
  have accepted := (Token.isAccepted_iff h.token settings.token).mpr trusted
  simp [Master.checkHello, version, accepted]

/-- The master turns away a replica whose log has left its history. -/
theorem greet_parted {h : Hello} (version : h.version = Message.version)
    (trusted : h.token = m.settings.token) (parts : Master.diverges m.log h = .ok true) :
    (m.greet address (.ok (.hello h))).2 =
      .error (.divergence h.lastOffset (LocalLog.oldest m.log) m.offset) := by
  simp [Master.greet, checkHello_of_trusted version trusted, Master.checkHistory, parts,
    Master.offset]

/-- The master accepts any other replica for which there is a place. -/
theorem greet_placed (address : SocketAddress) {h : Hello} (version : h.version = Message.version)
    (trusted : h.token = m.settings.token) (together : Master.diverges m.log h = .ok false)
    (place : m.others h.replicaId < m.settings.maxReplicas.toNat) :
    ∃ report, (m.greet address (.ok (.hello h))).2 = .ok report := by
  obtain ⟨report, taken⟩ := m.seat_of_place ⟨h.replicaId, address, h.token⟩ rfl place
  refine ⟨report, ?_⟩
  unfold Master.greet
  rw [checkHello_of_trusted version trusted]
  simp only [Master.checkHistory, together]
  cases seated : m.seat ⟨h.replicaId, address, h.token⟩ h with
  | mk after result =>
    rw [seated] at taken
    cases taken
    rfl

theorem session_openSession {h : Hello} (numbered : (m.openSession h).Numbered) :
    (m.openSession h).session? m.generation = some {
      replicaId := h.replicaId
      generation := m.generation
      next := h.lastOffset + 1
      stage := .welcoming ⟨m.settings.nodeId, m.offset, LocalLog.oldest m.log⟩ } :=
  numbered.find_session (List.mem_append_right _ (List.mem_singleton_self _))

/-- The session of an accepted replica is about to welcome it with what the log of the master is. -/
theorem session_of_greet {h : Hello} {report : LinkReport} (numbered : m.Numbered)
    (accepted : (m.greet address (.ok (.hello h))).2 = .ok report) :
    (m.greet address (.ok (.hello h))).1.generation = m.generation + 1 ∧
      (m.greet address (.ok (.hello h))).1.session? (m.generation + 1) = some {
        replicaId := h.replicaId
        generation := m.generation + 1
        next := h.lastOffset + 1
        stage := .welcoming ⟨m.settings.nodeId, m.offset, LocalLog.oldest m.log⟩ } := by
  obtain ⟨-, peer, -, after⟩ := Master.greet_of_ok accepted
  have steady := Master.steady_greet numbered address (.ok (.hello h))
  rw [after] at steady ⊢
  obtain ⟨settings, issued⟩ : ({ m with generation := m.generation + 1 }.register peer
      h.lastOffset).settings = m.settings ∧ ({ m with generation := m.generation + 1 }.register peer
        h.lastOffset).generation = m.generation + 1 := by
    unfold Master.register
    split <;> exact ⟨rfl, rfl⟩
  have log : ({ m with generation := m.generation + 1 }.register peer h.lastOffset).log = m.log :=
    steady.log
  have found := session_openSession steady.numbered
  rw [settings, Master.offset, log, issued] at found
  exact ⟨issued, found⟩

/-- A welcome that fits into a frame is written, and the log is read for the replica next. -/
theorem advance_welcoming {generation : Nat} {s : Session} {w : Welcome}
    (found : m.session? generation = some s) (stage : s.stage = .welcoming w)
    (small : (Message.welcome w).payloadSize ≤ Frame.maxPayload) :
    (m.advance generation).2 = some (.welcome w) ∧
      (m.advance generation).1.session? generation = some { s with stage := .reading } := by
  obtain ⟨-, rfl⟩ := Master.session_of_find found
  have write : m.write s.generation (.welcome w) = .ok (some (.welcome w)) :=
    if_neg (Nat.not_lt.mpr small)
  have advanced : m.advance s.generation = (m.welcomed s, some (.welcome w)) := by
    simp only [Master.advance, found, stage, write]
  rw [advanced]
  exact ⟨rfl, Master.find_onSession found (f := fun s => { s with stage := .reading })
    fun _ => rfl⟩

theorem respond_of_rejected {h : Hello} {sent : Bytes} {rejection : Rejection}
    (arrived : (Frame.next sent).1 = .ok (.hello h))
    (rejected : (m.greet address (.ok (.hello h))).2 = .error rejection) (meanwhile : List Move) :
    (m.respond address sent meanwhile).2 =
      (.error rejection.fault, Frame.written rejection.reply) := by
  unfold Master.respond
  rw [arrived]
  cases greeted : m.greet address (.ok (.hello h)) with
  | mk after result =>
    rw [greeted] at rejected
    cases rejected
    rfl

/-- An accepted replica is welcomed with what the log of the master was, and served from the offset
that it named. -/
theorem respond_of_accepted {h : Hello} {sent : Bytes} {report : LinkReport} (numbered : m.Numbered)
    (arrived : (Frame.next sent).1 = .ok (.hello h))
    (accepted : (m.greet address (.ok (.hello h))).2 = .ok report)
    (small : 28 + m.settings.nodeId.utf8ByteSize ≤ Frame.maxPayload) {meanwhile : List Move}
    (foreign : ∀ a ∈ meanwhile, a.concerns (m.generation + 1) = false) :
    (m.respond address sent meanwhile).2 = (.ok report, Frame.written
      (some (.welcome ⟨m.settings.nodeId, m.offset, LocalLog.oldest m.log⟩))) ∧
    ∃ s, (m.respond address sent meanwhile).1.session? (m.generation + 1) = some s ∧
      s.replicaId = h.replicaId ∧ s.next = h.lastOffset + 1 ∧ s.stage = .reading := by
  obtain ⟨newest, opened⟩ := session_of_greet numbered accepted
  unfold Master.respond
  rw [arrived]
  cases greeted : m.greet address (.ok (.hello h)) with
  | mk after result =>
    rw [greeted] at accepted newest opened
    cases accepted
    obtain ⟨connection, found⟩ := Master.spares_play after opened rfl meanwhile foreign
    obtain ⟨wrote, reading⟩ := advance_welcoming found rfl small
    dsimp only at newest wrote reading ⊢
    rw [newest]
    cases advanced : (after.play meanwhile).advance (m.generation + 1) with
    | mk later message =>
      rw [advanced] at wrote reading
      cases wrote
      exact ⟨rfl, _, reading, rfl, rfl, rfl⟩

/-! ### The replica takes the answer -/

variable {meanwhile : List Move} {sum : Option UInt32} {sent : Bytes} {h : Handshake L K}

/-- A replica that the master turns away reads why. -/
theorem Met.rejected (met : h.Met m r address meanwhile sum sent) {rejection : Rejection}
    {message : Message} (rejected : (m.greet address (.ok (.hello (r.said sum)))).2 = .error rejection)
    (reply : rejection.reply = some message) (fits : message.Fits)
    (small : message.payloadSize ≤ Frame.maxPayload) :
    h.accepted = .error rejection.fault ∧ (Frame.next h.answer).1 = .ok message := by
  have admitted := met.admitted
  rw [respond_of_rejected met.arrived rejected meanwhile, reply] at admitted
  obtain ⟨accepted, answer⟩ := Prod.mk.inj admitted
  exact ⟨accepted.symm, answer ▸ Frame.next_written message fits small⟩

theorem Met.refused (met : h.Met m r address meanwhile sum sent)
    (wrong : r.settings.token ≠ m.settings.token) :
    (∃ text, (Frame.next h.answer).1 = .ok (.failure Refusal.wrongToken text)) ∧ h.Refused m r := by
  obtain ⟨accepted, read⟩ := met.rejected (greet_wrong rfl wrong) rfl trivial (by decide)
  have connected := met.connected
  rw [read] at connected
  exact ⟨⟨_, read⟩, wrong, ⟨_, accepted⟩, _, connected⟩

theorem Met.parted (met : h.Met m r address meanwhile sum sent) (possible : Possible m r)
    (trusted : r.settings.token = m.settings.token) (parts : Parts m.log r.log)
    (diverges : Master.diverges m.log (r.said sum) = .ok true) :
    (∃ text, (Frame.next h.answer).1 = .ok (.failure Refusal.diverged text)) ∧ h.Parted m r := by
  have last : r.offset < UInt64.size := Nat.lt_of_succ_lt possible.replica
  have small := Refusal.payloadSize_divergence last possible.oldest possible.master
  have fault := Refusal.toFault_divergence last possible.oldest possible.master
  obtain ⟨accepted, read⟩ := met.rejected (greet_parted rfl trusted diverges) rfl trivial small
  have connected := met.connected
  rw [read] at connected
  refine ⟨⟨_, read⟩, trusted, parts, accepted, connected.trans ?_⟩
  rw [← fault]
  rfl

theorem Met.joined (met : h.Met m r address meanwhile sum sent) (possible : Possible m r)
    (numbered : m.Numbered) (foreign : ∀ a ∈ meanwhile, a.concerns (m.generation + 1) = false)
    (trusted : r.settings.token = m.settings.token) (together : ¬Parts m.log r.log)
    (diverges : Master.diverges m.log (r.said sum) = .ok false) :
    (Frame.next h.answer).1 = .ok (.welcome ⟨m.settings.nodeId, m.offset, LocalLog.oldest m.log⟩) ∧
      h.Joined m r := by
  obtain ⟨report, taken⟩ :=
    greet_placed address (h := r.said sum) rfl trusted diverges possible.place
  obtain ⟨welcomed, session⟩ := respond_of_accepted numbered met.arrived taken possible.welcome foreign
  obtain ⟨accepted, answer⟩ := Prod.mk.inj (met.admitted.symm.trans welcomed)
  have read := Frame.next_written
    (.welcome ⟨m.settings.nodeId, m.offset, LocalLog.oldest m.log⟩)
    ⟨possible.master, possible.oldest⟩ possible.welcome
  rw [← answer] at read
  have within : ¬(m.offset < r.offset ∨ r.offset + 1 < LocalLog.oldest m.log) := fun beyond =>
    together (or_assoc.mp (.inl beyond))
  have connected := met.connected
  rw [read, Replica.welcome] at connected
  dsimp only at connected
  rw [if_neg within] at connected
  exact ⟨read, trusted, together, ⟨report, accepted⟩, connected, met.master ▸ session⟩

/-- A master that was created and did anything since meets a replica, and does anything else before it
answers but tend the new session. Both ends come to the same end. -/
theorem ends_agree {settings : Settings} {log : L} (created : Master.create settings log = .ok m)
    (moves : List Move) (possible : Possible (m.play moves) r) (address : SocketAddress)
    (meanwhile : List Move)
    (foreign : ∀ a ∈ meanwhile, a.concerns ((m.play moves).generation + 1) = false) :
    ∃ h, between (m.play moves) r address meanwhile = .ok h ∧ h.Agrees (m.play moves) r := by
  have numbered := (Master.numbered_of_create created).play moves
  obtain ⟨h, sum, sent, ran, met⟩ := met_of_possible possible address meanwhile
  refine ⟨h, ran, ?_⟩
  by_cases trusted : r.settings.token = (m.play moves).settings.token
  · obtain ⟨parts, diverges, parts_iff⟩ := diverges_said met.said possible.ours
    cases parts with
    | true =>
      obtain ⟨⟨text, read⟩, parted⟩ := met.parted possible trusted (parts_iff.mp rfl) diverges
      refine ⟨.inr (.inl parted), fun w welcomed => ?_, fun _ => .inl parted, fun _ => ?_⟩
      · rw [read] at welcomed
        cases welcomed
      · exact ⟨_, parted.connected, rfl⟩
    | false =>
      have together : ¬Parts (m.play moves).log r.log := fun parts => by cases parts_iff.mpr parts
      obtain ⟨read, joined⟩ := met.joined possible numbered foreign trusted together diverges
      refine ⟨.inl joined, fun w welcomed beyond => ?_, fun ⟨fault, failed, _⟩ => ?_,
        fun other => ?_⟩
      · rw [read] at welcomed
        cases welcomed
        exact together (or_assoc.mp (.inl beyond))
      · rw [joined.connected] at failed
        cases failed
      · rcases other with parted | refused
        · exact absurd parted.parts together
        · exact absurd trusted refused.wrong
  · obtain ⟨⟨text, read⟩, refused⟩ := met.refused trusted
    refine ⟨.inr (.inr refused), fun w welcomed => ?_, fun _ => .inr refused, fun _ => ?_⟩
    · rw [read] at welcomed
      cases welcomed
    · obtain ⟨cause, failed⟩ := refused.connected
      exact ⟨_, failed, rfl⟩

end Handshake

end Ends

/-! ### Three replicas -/

namespace Handshake

/-- A master that runs and took two writes. -/
def busy : Master VolatileLog :=
  (Master.small 2).play [.start (.ok Settings.defaultBind), .append [97] none, .append [98] none]

/-- A replica with one entry. -/
def follower (payload : Bytes) (token : String) : Replica VolatileLog where
  settings := { Settings.replica "follower" Settings.defaultBind with token }
  log := { entries := [⟨1, payload, none⟩], highest := 1 }

/-- One more write comes before the master answers. -/
def overlapping : List Move := [.append [99] none]

/-- What a replica makes of the answer of that master. -/
def ending (r : Replica VolatileLog) : Option (Except Fault Welcomed) :=
  (between busy r Settings.defaultBind overlapping).toOption.map (·.connected)

/-- A replica with the master's first entry goes on behind it, one with another entry learns so, and
one with another token is not trusted. -/
theorem ends_agree_followers :
    ((∃ h, between busy (follower [97] "") Settings.defaultBind overlapping = .ok h ∧
      h.Agrees busy (follower [97] "")) ∧
      ending (follower [97] "") = some (.ok ⟨"master", 2, 1, 1⟩)) ∧
    ((∃ h, between busy (follower [7] "") Settings.defaultBind overlapping = .ok h ∧
      h.Agrees busy (follower [7] "")) ∧
      ending (follower [7] "") = some (.error (.divergence 1 1 2))) ∧
    ((∃ h, between busy (follower [97] "guess") Settings.defaultBind overlapping = .ok h ∧
      h.Agrees busy (follower [97] "guess")) ∧
      ending (follower [97] "guess") =
        some (.error (.trust (.other "Invalid security token")))) := by
  have created : Master.create (Master.smallSettings 2) {} = .ok (Master.small 2) := rfl
  have foreign : ∀ a ∈ overlapping, a.concerns (busy.generation + 1) = false := by
    rintro a member
    rw [List.mem_singleton.mp member]
    rfl
  have possible (payload : Bytes) (token : String) (short : token.utf8ByteSize ≤ 8) :
      Possible busy (follower payload token) := by
    have place : busy.others "follower" < busy.settings.maxReplicas.toNat := by decide
    have offset : 1 + 1 < UInt64.size := by decide
    refine ⟨rfl, place, ⟨_, rfl⟩, ⟨_, rfl⟩, ?_, by decide, offset, by decide, by decide⟩
    have name : (follower payload token).settings.nodeId.utf8ByteSize = 8 := by rfl
    have secret : (follower payload token).settings.token = token := rfl
    rw [name, secret, Frame.maxPayload]
    omega
  refine ⟨⟨ends_agree created _ (possible [97] "" (by decide)) _ _ foreign, ?_⟩,
    ⟨ends_agree created _ (possible [7] "" (by decide)) _ _ foreign, ?_⟩,
    ⟨ends_agree created _ (possible [97] "guess" (by decide)) _ _ foreign, ?_⟩⟩ <;> decide +kernel

end Handshake

end QuorumLog
