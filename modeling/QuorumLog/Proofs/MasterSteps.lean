import QuorumLog.Proofs.Continuation
import QuorumLog.Proofs.Credit

/-! What each step of a master can do, said once. A step is quiet, or it is quiet up to one change of
the log, of the count of copies or of a link, which is named here. Everything that is proved about
runs of a master rests on these lemmas and looks into no step again. -/

namespace QuorumLog.Master

variable {L : Type} {m m' : Master L} {given : Entry → Prop} {generation : Nat} {s : Session}

/-! ### A new master -/

section Create

variable {settings : Settings} {log : L}

/-- A master is created exactly from settings that are accepted and those of a master. -/
theorem create_eq_ok : create settings log = .ok m ↔ settings.role = .master ∧
    settings.validate = .ok () ∧ m = { settings, log, quorum := .ofCopies settings.copies } := by
  cases role : settings.role with
  | replica => simp [create, role, throw, throwThe, MonadExceptOf.throw, bind, Except.bind]
  | master =>
    cases accepted : settings.validate with
    | error fault => simp [create, role, accepted, bind, Except.bind]
    | ok =>
      simp only [create, role, ne_eq, not_true_eq_false, if_false, accepted, bind, Except.bind, pure,
        Except.pure, Except.ok.injEq, true_and]
      exact eq_comm

/-- A new master knows no replica and no write, and asks for one copy at least. -/
theorem create_of_ok (created : create settings log = .ok m) :
    1 ≤ settings.copies.toNat ∧ m = { settings, log, quorum := .ofCopies settings.copies } := by
  obtain ⟨role, valid, same⟩ := create_eq_ok.mp created
  refine ⟨Nat.le_of_not_lt fun few => ?_, same⟩
  have none : settings.copies < 1 := UInt32.lt_iff_toNat_lt.mpr few
  have objection : settings.objection? ≠ .none := by
    simp only [Settings.objection?, Settings.roleObjection?, role, none, if_true]
    split <;> simp
  obtain ⟨cause, found⟩ := Option.ne_none_iff_exists'.mp objection
  rw [Settings.validate, found] at valid
  cases valid

theorem required_of_create (created : create settings log = .ok m) :
    m.quorum.required = settings.copies.toNat := by
  obtain ⟨one, rfl⟩ := create_of_ok created
  exact Nat.max_eq_left one

end Create

/-! ### Shipping -/

theorem write_cases (m : Master L) (generation : Nat) (message : Message) :
    (∃ fault, m.write generation message = .error (m.endSession generation fault)) ∨
      m.write generation message = .ok (some message) := by
  unfold write
  split
  · exact .inl ⟨_, rfl⟩
  · exact .inr rfl

/-- Writing an entry of a session that is past its welcome is quiet. -/
theorem quiet_sendNext (m : Master L) (s : Session) (slice : Slice) (e : Entry)
    (rest : List Entry) (count : Nat) (listens : m.Listens s.generation)
    (known : ∀ x ∈ rest, m.Waits x) : Quiet given m (m.sendNext s slice e rest count).1 ∧
      ∀ x, (m.sendNext s slice e rest count).2 = some (.entry x) → x = e := by
  unfold sendNext
  split
  · exact ⟨quiet_endSession m _ _, by simp⟩
  · rcases write_cases m s.generation (.entry e) with ⟨fault, failed⟩ | wrote
    · rw [failed]
      exact ⟨quiet_endSession m _ _, by simp⟩
    · rw [wrote]
      have moved {given : Entry → Prop} :
          Quiet given m (m.onSession s.generation fun s => { s with next := s.next + 1 }) :=
        quiet_onSession m (fun t held here => ⟨rfl, rfl, fun welcoming =>
          absurd ((listens t held here).symm.trans welcoming) Bool.false_ne_true⟩)
          fun _ _ _ => Or.inl
      dsimp only
      split
      · refine ⟨(moved.trans (quiet_countShipped _ _ _)).trans (quiet_enter _ _ ?_ ?_), ?_⟩
        · cases slice <;> simp [Slice.after, Stage.rest]
        · cases slice <;> simp [Slice.after]
        · simp
      · refine ⟨(moved.trans (quiet_enter _ _ ?_ ?_ : Quiet (· ∈ rest) _ _)).absorb known, ?_⟩
        · exact fun x member => member
        · simp
        · simp

theorem quiet_takeFresh (m : Master L) (held : s ∈ m.sessions) (listens : m.Listens s.generation) :
    Quiet given m (m.takeFresh s).1 ∧ ∀ e, (m.takeFresh s).2 = some (.entry e) → m.Waits e := by
  unfold takeFresh
  split
  · rename_i e later queue
    have waits : ∀ x ∈ e :: later, m.Waits x := fun x member =>
      ⟨s, held, List.mem_append_right _ (queue ▸ member)⟩
    have taken : Quiet m.Waits m (m.onSession s.generation fun s =>
        { s with connection := { s.connection with queue := later } }) := by
      refine quiet_onSession m (fun _ _ _ => ⟨rfl, rfl, fun w => ⟨w, rfl⟩⟩) fun t _ x member => ?_
      rcases List.mem_append.mp member with written | queued
      · exact .inl (List.mem_append_left _ written)
      · exact .inr (waits x (List.mem_cons_of_mem e queued))
    obtain ⟨sent, message⟩ :=
      quiet_sendNext _ s .fresh e [] 1 (taken.listens listens) (by simp)
    exact ⟨(taken.trans sent).absorb fun _ known => known,
      fun x written => message x written ▸ waits e List.mem_cons_self⟩
  · split
    · exact ⟨.refl m, by simp⟩
    · exact ⟨quiet_endSession m _ _, by simp⟩

section Reading

variable [LocalLog L]

theorem quiet_readPage (m : Master L) (s : Session) :
    Quiet (LocalLog.Gives m.log) m (m.readPage s) := by
  unfold readPage
  split
  · exact quiet_endSession m _ _
  · exact quiet_enter m _ (by simp [Stage.rest]) (by simp)
  · rename_i page _ read
    exact quiet_enter m _ (fun e member => ⟨_, _, page, read, member⟩) (by simp)

theorem quiet_finishCatchUp (m : Master L) (s : Session) :
    Quiet (LocalLog.Gives m.log) m (m.finishCatchUp s) := by
  unfold finishCatchUp
  split
  · exact .refl m
  split
  · exact quiet_endSession m _ _
  rename_i tail read
  split
  · exact quiet_endSession m _ _
  split
  · refine ((quiet_onLink m _ ?_).trans (quiet_recount _)).trans (quiet_enter _ _ ?_ ?_)
    · intro l _ _
      unfold Link.beginStreaming
      split
      · rename_i phase
        exact ⟨rfl, rfl, rfl, fun _ => by simp [Link.isConnected, phase]⟩
      · exact .refl l
    · unfold sendingStage
      split
      · simp [Slice.after, Stage.rest]
      · exact fun e member => ⟨_, _, tail, read, member⟩
    · unfold sendingStage
      split <;> simp [Slice.after]
  · exact quiet_endSession m _ _

/-- A step of a session that is past its welcome is quiet, and the entry that it writes was waiting
for that. -/
theorem quiet_advance (m : Master L) (listens : m.Listens generation) :
    Quiet (LocalLog.Gives m.log) m (m.advance generation).1 ∧
      ∀ e, (m.advance generation).2 = some (.entry e) → m.Waits e := by
  unfold advance
  split
  · exact ⟨.refl m, by simp⟩
  rename_i s found
  obtain ⟨held, rfl⟩ := session_of_find found
  split
  · rename_i welcome stage
    exact absurd (listens s held rfl) (by simp [Session.isWelcoming, stage])
  · exact ⟨quiet_readPage m s, by simp⟩
  · rename_i slice e rest count stage
    have waits : ∀ x ∈ e :: rest, m.Waits x := fun x member =>
      ⟨s, held, List.mem_append_left _ (by rw [stage]; exact member)⟩
    obtain ⟨sent, message⟩ := quiet_sendNext m s slice e rest count listens
      fun x member => waits x (List.mem_cons_of_mem e member)
    exact ⟨sent, fun x written => message x written ▸ waits e List.mem_cons_self⟩
  · rename_i slice _ _
    exact ⟨quiet_enter m _ (by cases slice <;> simp [Slice.after, Stage.rest])
      (by cases slice <;> simp [Slice.after]), by simp⟩
  · exact ⟨quiet_finishCatchUp m s, by simp⟩
  · exact ⟨quiet_enter m _ (by simp [Stage.rest]) (by simp), by simp⟩
  · exact quiet_takeFresh m held listens
  · exact ⟨.refl m, by simp⟩

/-- The step of a session that was not welcomed writes the welcome, unless that fits into no frame. -/
theorem advance_welcome (m : Master L) (found : m.session? generation = some s)
    (welcoming : s.isWelcoming) :
    (∃ fault, m.advance generation = (m.endSession generation fault, none)) ∨
      ∃ welcome, m.advance generation = (m.welcomed s, some (.welcome welcome)) := by
  unfold Session.isWelcoming at welcoming
  split at welcoming
  · rename_i welcome stage
    unfold advance
    rcases write_cases m generation (.welcome welcome) with ⟨fault, failed⟩ | wrote
    · exact .inl ⟨fault, by simp [found, stage, failed]⟩
    · exact .inr ⟨welcome, by simp [found, stage, wrote]⟩
  · cases welcoming

end Reading

/-- A welcome takes the word of the replica for what it holds, and is quiet beyond that. -/
theorem quiet_welcomed (m : Master L) (s : Session) : Quiet given
    { m with quorum := (m.quorum.rebase (.replica s.replicaId) (s.next - 1)).1 } (m.welcomed s) := by
  unfold welcomed
  refine Quiet.trans ?_ (quiet_enter _ _ ?_ ?_)
  · exact quiet_of_same rfl rfl rfl rfl rfl rfl (Nat.le_refl _)
  · simp [Stage.rest]
  · simp

/-! ### Start and stop -/

theorem quiet_start (m : Master L) (bind : Except Nat SocketAddress) :
    Quiet given m (m.start bind).1 := by
  unfold start
  split
  · exact .refl m
  split
  · exact .refl m
  split
  · exact .refl m
  · exact quiet_of_same rfl rfl rfl rfl rfl rfl (Nat.le_refl _)

theorem quiet_stop (m : Master L) : Quiet given m m.stop := by
  unfold stop
  split
  · exact .refl m
  refine ⟨⟨rfl, Nat.le_refl _, List.nil_sublist _, by simp [recount], ?_, ?_, ?_⟩,
    rfl, rfl, rfl⟩
  · simp only [recount, cutAll, List.map_map]
    refine List.map_congr_left fun s _ => ?_
    simp only [Function.comp_apply]
    split <;> rfl
  · intro s' held
    obtain ⟨s, before, rfl⟩ := List.mem_map.mp held
    refine ⟨s, before, ?_⟩
    split
    · exact ⟨rfl, rfl, fun w => ⟨w, rfl⟩⟩
    · exact .refl s
  · rintro e ⟨s', held, waits⟩
    obtain ⟨s, before, rfl⟩ := List.mem_map.mp held
    split at waits <;> exact .inl ⟨s, before, waits⟩

/-! ### The handshake -/

/-- A replica that was accepted has its link with a new generation, and a session of that generation
that is about to welcome it. Other links and all sessions before go on. -/
structure Seated (id : String) (held : Nat) (before after : Master L) : Prop where
  settings : after.settings = before.settings
  log : after.log = before.log
  quorum : after.quorum = before.quorum
  unannounced : after.unannounced = before.unannounced
  generation : after.generation = before.generation + 1
  ids : (before.links.map (·.peer.id)).Nodup → (after.links.map (·.peer.id)).Nodup
  links : ∀ l' ∈ after.links,
    (l'.peer.id = id ∧ l'.generation = after.generation ∧ l'.lastAck = held ∧ l'.isConnected) ∨
      (l'.peer.id ≠ id ∧ ∃ l ∈ before.links, l.Continues l')
  link : ∃ l ∈ after.links, l.peer.id = id
  generations : after.sessions.map (·.generation) =
    before.sessions.map (·.generation) ++ [after.generation]
  sessions : ∀ s' ∈ after.sessions,
    (s'.replicaId = id ∧ s'.generation = after.generation ∧ s'.next = held + 1 ∧
      s'.isWelcoming) ∨ ∃ s ∈ before.sessions, s.Continues s'
  waiting : ∀ e, after.Waits e → before.Waits e

theorem Numbered.seated {id : String} {held : Nat} (numbered : m.Numbered)
    (seated : Seated id held m m') : m'.Numbered where
  ids := seated.ids numbered.ids
  generations := by
    rw [seated.generations]
    refine List.nodup_append.mpr ⟨numbered.generations, by simp, ?_⟩
    intro g member g' new same
    obtain ⟨s, before, rfl⟩ := List.mem_map.mp member
    have issued := numbered.sessions s before
    rw [same, List.mem_singleton.mp new, seated.generation] at issued
    omega
  links l' present := by
    rcases seated.links l' present with ⟨-, new, -⟩ | ⟨-, l, before, continues⟩
    · exact Nat.le_of_eq new
    · have issued := numbered.links l before
      rw [continues.generation, seated.generation]
      omega
  sessions s' present := by
    rcases seated.sessions s' present with ⟨-, new, -⟩ | ⟨s, before, continues⟩
    · exact Nat.le_of_eq new
    · have issued := numbered.sessions s before
      rw [continues.generation, seated.generation]
      omega

/-- The session of the newest generation is the one that is about to welcome the replica. -/
theorem Seated.session {id : String} {held : Nat} (seated : Seated id held m m')
    (numbered : m.Numbered) : ∃ s, m'.session? m'.generation = some s ∧ s.replicaId = id ∧
      s.next = held + 1 ∧ s.isWelcoming := by
  have member : m'.generation ∈ m'.sessions.map (·.generation) := by simp [seated.generations]
  obtain ⟨s, present, newest⟩ := List.mem_map.mp member
  have found := (numbered.seated seated).find_session present
  rw [newest] at found
  rcases seated.sessions s present with ⟨name, -, next, welcoming⟩ | ⟨t, before, continues⟩
  · exact ⟨s, found, name, next, welcoming⟩
  · have issued := numbered.sessions t before
    rw [← continues.generation, newest, seated.generation] at issued
    omega

private theorem register_links (m : Master L) (peer : Peer) (held : Nat) :
    ∀ l' ∈ (m.register peer held).links,
      (l'.peer.id = peer.id ∧ l'.generation = m.generation ∧ l'.lastAck = held ∧
        l'.isConnected) ∨ (l'.peer.id ≠ peer.id ∧ ∃ l ∈ m.links, l.Continues l') := by
  intro l' member
  unfold register at member
  split at member
  · obtain ⟨l, before, rfl⟩ := List.mem_map.mp member
    by_cases here : l.peer.id = peer.id
    · simp [here, Link.reconnect, Link.beginCatchUp, Link.isConnected]
    · simp only [here, if_false]
      exact .inr ⟨here, l, before, .refl l⟩
  · rename_i missing
    rcases List.mem_append.mp member with before | new
    · have other : l'.peer.id ≠ peer.id := by
        simpa using List.find?_eq_none.mp missing l' before
      exact .inr ⟨other, l', before, .refl l'⟩
    · rw [List.mem_singleton.mp new]
      simp [Link.beginCatchUp, Link.isConnected]

private theorem register_ids (m : Master L) (peer : Peer) (held : Nat)
    (distinct : (m.links.map (·.peer.id)).Nodup) :
    ((m.register peer held).links.map (·.peer.id)).Nodup := by
  unfold register
  split
  · have same : ∀ l : Link, (if l.peer.id = peer.id then
        (l.reconnect peer m.generation held).beginCatchUp else l).peer.id = l.peer.id := by
      intro l
      split
      · rename_i here
        simp [Link.reconnect, Link.beginCatchUp, here]
      · rfl
    simpa [onLink, cut, onSession, Function.comp_def, same] using distinct
  · rename_i missing
    rw [List.map_append]
    refine List.nodup_append.mpr ⟨distinct, by simp, ?_⟩
    intro id member id' new same
    obtain ⟨l, before, rfl⟩ := List.mem_map.mp member
    have other := List.find?_eq_none.mp missing l before
    simp [Link.beginCatchUp] at new
    exact other (by simpa [new] using same)

private theorem register_link (m : Master L) (peer : Peer) (held : Nat) :
    ∃ l ∈ (m.register peer held).links, l.peer.id = peer.id := by
  unfold register
  split
  · rename_i old found
    obtain ⟨present, here⟩ := link_of_find found
    refine ⟨_, List.mem_map_of_mem present, ?_⟩
    simp [here, Link.reconnect, Link.beginCatchUp]
  · exact ⟨_, List.mem_append_right _ List.mem_cons_self, by simp [Link.beginCatchUp]⟩

private theorem register_sessions (m : Master L) (peer : Peer) (held : Nat) :
    (m.register peer held).sessions.map (·.generation) = m.sessions.map (·.generation) ∧
      (∀ s' ∈ (m.register peer held).sessions, ∃ s ∈ m.sessions, s.Continues s') ∧
      ∀ e, (m.register peer held).Waits e → m.Waits e := by
  unfold register
  split
  · rename_i old _
    have cut : Quiet (fun _ => False) m (m.cut old.generation) := quiet_cut m _
    exact ⟨cut.generations, cut.sessions, fun e waits => (cut.waiting e waits).elim id False.elim⟩
  · exact ⟨rfl, fun s held => ⟨s, held, .refl s⟩, fun _ waits => waits⟩

private theorem register_same (m : Master L) (peer : Peer) (held : Nat) :
    (m.register peer held).settings = m.settings ∧ (m.register peer held).log = m.log ∧
      (m.register peer held).quorum = m.quorum ∧
      (m.register peer held).unannounced = m.unannounced ∧
      (m.register peer held).generation = m.generation := by
  unfold register
  split <;> exact ⟨rfl, rfl, rfl, rfl, rfl⟩

theorem quiet_countRejection (m : Master L) (rejection : Rejection) :
    Quiet given m (m.countRejection rejection) := by
  unfold countRejection
  split
  · exact quiet_tally m _
  · exact .refl m

theorem checkHello_of_ok {settings : Settings} {address : SocketAddress}
    {first : Except Fault Message} {peer : Peer} {h : Hello}
    (passed : checkHello settings address first = .ok (peer, h)) :
    first = .ok (.hello h) ∧ peer.id = h.replicaId := by
  unfold checkHello at passed
  split at passed
  · cases passed
  · split at passed
    · cases passed
    · split at passed <;> cases passed
      exact ⟨rfl, rfl⟩
  · cases passed

/-! ### Writes -/

theorem quiet_forward (m : Master L) (e : Entry) : Quiet (· = e) m (m.forward e) := by
  refine ⟨⟨rfl, Nat.le_refl _, .refl _, fun l held => ⟨l, held, .refl l⟩, ?_, ?_, ?_⟩,
    rfl, rfl, rfl⟩
  · simp only [forward, List.map_map]
    refine List.map_congr_left fun s _ => ?_
    simp only [Function.comp_apply]
    split <;> rfl
  · intro s' held
    obtain ⟨s, before, rfl⟩ := List.mem_map.mp held
    refine ⟨s, before, ?_⟩
    split
    · exact ⟨rfl, rfl, fun w => ⟨w, rfl⟩⟩
    · exact .refl s
  · rintro x ⟨s', held, waits⟩
    obtain ⟨s, before, rfl⟩ := List.mem_map.mp held
    split at waits
    · rcases List.mem_append.mp waits with written | queued
      · exact .inl ⟨s, before, List.mem_append_left _ written⟩
      · unfold Connection.offer at queued
        split at queued
        · rcases List.mem_append.mp queued with earlier | new
          · exact .inl ⟨s, before, List.mem_append_right _ earlier⟩
          · exact .inr (List.mem_singleton.mp new)
        · exact .inl ⟨s, before, List.mem_append_right _ queued⟩
    · exact .inl ⟨s, before, waits⟩

/-- The count of copies after a write is announced: it waits, and the master vouches for it. -/
def announcedQuorum (m : Master L) (e : Entry) : Quorum :=
  ((m.quorum.track e.offset).1.credit e.offset .master).1

theorem announcedQuorum_watermark (m : Master L) (e : Entry) (s : Source) :
    (m.announcedQuorum e).watermark s =
      if s = .master then max (m.quorum.watermark .master) e.offset else m.quorum.watermark s :=
  Quorum.watermark_credit (m.quorum.track e.offset).1 e.offset .master s

/-- The write of an announcement has a cell with its offset. -/
theorem announcedQuorum_cell {e : Entry} (last : ∀ w ∈ m.quorum.pending, w.offset < e.offset) :
    ∃ c, (m.announcedQuorum e).board.cells[m.quorum.board.size]? = some c ∧
      c.offset = some e.offset := by
  have opened : (m.quorum.track e.offset).1.board.cells[m.quorum.board.size]? =
      some (.opened (some e.offset)) := by
    rw [Quorum.track_of_last last, Board.cells_push, if_pos rfl]
  obtain ⟨c, cell, offset, -⟩ := Quorum.credit_grants.cells _ _ opened
  exact ⟨c, cell, offset⟩

/-- An announcement tracks the stored entry and hands it to the sessions, or there is none to
announce. -/
theorem announce_cases (m : Master L) : (m.unannounced = none ∧ m.announce = (m, none)) ∨
    ∃ e, m.unannounced = some e ∧ m.announce.2 = some m.quorum.board.size ∧
      Quiet (· = e) { m with quorum := m.announcedQuorum e, unannounced := none } m.announce.1 := by
  unfold announce
  cases unannounced : m.unannounced with
  | none => exact .inl ⟨rfl, rfl⟩
  | some e =>
    refine .inr ⟨e, rfl, rfl, (quiet_forward _ e).trans ?_⟩
    exact quiet_of_same rfl rfl rfl rfl rfl rfl (Nat.le_refl _)

variable [LocalLog L] {payload : Bytes} {metadata : Option Bytes}

/-- An entry is stored, or the write is refused and the log took nothing, or another write is under
way. -/
theorem store_cases (m : Master L) (payload : Bytes) (metadata : Option Bytes) :
    (m.unannounced.isSome ∧ m.store payload metadata = (m, none)) ∨
    (∃ reason log, (log = m.log ∨ ∃ fault, LocalLog.append m.log payload metadata =
        (log, .error fault)) ∧ (m.store payload metadata).2 = some m.quorum.board.size ∧
      Silent { m with log, quorum := (m.quorum.refuse reason).1 }
        (m.store payload metadata).1) ∨
    ∃ log offset, m.unannounced = none ∧
      LocalLog.append m.log payload metadata = (log, .ok offset) ∧
      m.store payload metadata =
        ({ m with log, unannounced := some ⟨offset, payload, metadata⟩ }, none) := by
  unfold store
  split
  · exact .inr (.inl ⟨_, m.log, .inl rfl, rfl, .refl _⟩)
  split
  · rename_i pending
    exact .inl ⟨pending, rfl⟩
  rename_i free
  split
  · rename_i log offset stored
    exact .inr (.inr ⟨log, offset, by simpa using free, stored, rfl⟩)
  · rename_i log fault failed
    exact .inr (.inl ⟨_, log, .inr ⟨fault, failed⟩, rfl,
      quiet_of_same rfl rfl rfl rfl rfl rfl (Nat.le_refl _)⟩)

/-- A write is turned away while another is under way, or refused, or stored and announced. -/
theorem append_cases (m : Master L) (payload : Bytes) (metadata : Option Bytes) :
    (m.unannounced.isSome ∧ m.append payload metadata = (m, none)) ∨
    (∃ write, (m.store payload metadata).2 = some write ∧
      m.append payload metadata = m.store payload metadata) ∨
    ((m.store payload metadata).2 = none ∧ m.unannounced = none ∧
      m.append payload metadata = (m.store payload metadata).1.announce) := by
  unfold append
  split
  · rename_i busy
    exact .inl ⟨busy.1, rfl⟩
  rename_i free
  cases stored : m.store payload metadata with
  | mk after write =>
    cases write with
    | some write => exact .inr (.inl ⟨write, rfl, rfl⟩)
    | none =>
      refine .inr (.inr ⟨rfl, ?_, rfl⟩)
      by_cases stopped : m.stopped
      · simp [store, stopped, refuse] at stored
      · simpa [stopped] using free

/-! ### Reports -/

/-- A report is news for a connected link and is credited, or nothing but the sign of life counts. -/
theorem acknowledge_cases (m : Master L) (numbered : m.Numbered) (id : String) (offset : Nat) :
    (Silent m (m.acknowledge id offset) ∧
      ∀ l ∈ m.links, l.peer.id = id → l.isConnected → offset ≤ m.offset → offset ≤ l.lastAck) ∨
    ∃ l ∈ m.links, l.peer.id = id ∧ l.isConnected ∧ l.lastAck < offset ∧ offset ≤ m.offset ∧
      Silent { m.onLink id (Link.recordAck offset) with
        quorum := (m.quorum.credit offset (.replica id)).1 } (m.acknowledge id offset) := by
  unfold acknowledge
  split
  · rename_i beyond
    exact .inl ⟨.refl m, fun _ _ _ _ within => absurd within (by omega)⟩
  rename_i within
  cases found : m.link? id with
  | none =>
    refine .inl ⟨.refl m, fun l held here _ _ => ?_⟩
    simpa [here] using List.find?_eq_none.mp found l held
  | some l =>
    obtain ⟨held, here⟩ := link_of_find found
    have only : ∀ l' ∈ m.links, l'.peer.id = id → l' = l := fun l' held' here' =>
      numbered.link_unique held' held (here'.trans here.symm)
    dsimp only
    split
    · rename_i news
      obtain ⟨connected, less⟩ : l.isConnected ∧ l.lastAck < offset := by
        simpa [Link.accepts] using news
      exact .inr ⟨l, held, here, connected, less, by omega,
        quiet_of_same rfl rfl rfl rfl rfl rfl (Nat.le_refl _)⟩
    · rename_i old
      refine .inl ⟨quiet_onLink m id fun l' held' here' => ?_, fun l' held' here' connected _ => ?_⟩
      · rw [only l' held' here', Link.recordAck, if_neg old]
        split
        · exact ⟨rfl, rfl, rfl, fun c => c⟩
        · exact .refl l
      · rw [only l' held' here'] at connected ⊢
        simpa [Link.accepts, connected] using old

/-- What a session hears is a report, or it is quiet. -/
theorem receive_cases (m : Master L) (generation : Nat) (message : Message) :
    (∃ s ∈ m.sessions, ∃ offset, m.session? generation = some s ∧ s.isListening ∧
      message = .ack offset ∧
      m.receive generation message = m.acknowledge s.replicaId offset) ∨
    ((∀ s offset, m.session? generation = some s → s.isListening → message ≠ .ack offset) ∧
      Silent m (m.receive generation message)) := by
  unfold receive
  split
  · rename_i missing
    exact .inr ⟨by simp [missing], .refl m⟩
  rename_i s found
  split
  · rename_i listening
    split
    · rename_i offset
      exact .inl ⟨s, (session_of_find found).1, offset, found, listening, rfl, rfl⟩
    · exact .inr ⟨by simp, quiet_onLink m _ fun _ _ _ => ⟨rfl, rfl, rfl, fun c => c⟩⟩
    · exact .inr ⟨by simp, quiet_endSession m _ _⟩
    · rename_i other _ _
      exact .inr ⟨fun _ offset _ _ => other offset, .refl m⟩
  · rename_i deaf
    exact .inr ⟨fun s' offset found' listening => by
      rw [found] at found'; cases found'; exact absurd listening deaf, .refl m⟩

/-! ### Greeting -/

theorem seated_of_register (m : Master L) (peer : Peer) (h : Hello)
    (named : h.replicaId = peer.id) : Seated peer.id h.lastOffset m
      (({ m with generation := m.generation + 1 }.register peer h.lastOffset).openSession h) := by
  have links := register_links { m with generation := m.generation + 1 } peer h.lastOffset
  have ids := register_ids { m with generation := m.generation + 1 } peer h.lastOffset
  have link := register_link { m with generation := m.generation + 1 } peer h.lastOffset
  obtain ⟨generations, sessions, waiting⟩ :=
    register_sessions { m with generation := m.generation + 1 } peer h.lastOffset
  obtain ⟨settings, log, quorum, unannounced, generation⟩ :=
    register_same { m with generation := m.generation + 1 } peer h.lastOffset
  refine ⟨settings, log, quorum, unannounced, generation, ids, ?_, link, by simp [openSession, generations], ?_, ?_⟩
  · intro l' member
    rw [show (openSession _ h).generation = m.generation + 1 from generation]
    exact links l' member
  · intro s' member
    rcases List.mem_append.mp member with before | new
    · exact .inr (sessions s' before)
    · rw [List.mem_singleton.mp new]
      exact .inl ⟨named, rfl, rfl, rfl⟩
  · rintro e ⟨s', member, waits⟩
    rcases List.mem_append.mp member with before | new
    · exact waiting e ⟨s', before, waits⟩
    · rw [List.mem_singleton.mp new] at waits
      cases waits

/-- A replica with a good history gets a place, or there is none and all stays as it was. -/
theorem seat_cases (m : Master L) (peer : Peer) (h : Hello) (named : h.replicaId = peer.id) :
    (∃ rejection, (m.seat peer h).2 = .error rejection ∧
      Silent m (m.seat peer h).1) ∨
    ∃ report, (m.seat peer h).2 = .ok report ∧ Seated peer.id h.lastOffset m (m.seat peer h).1 := by
  have seated := seated_of_register m peer h named
  unfold seat
  dsimp only
  split
  · exact .inl ⟨_, rfl, quiet_of_same rfl rfl rfl rfl rfl rfl (Nat.le_succ _)⟩
  · split
    · rename_i report _
      exact .inr ⟨report, rfl, seated⟩
    · rename_i vanished
      obtain ⟨l, present, here⟩ := seated.link
      have missing : link? _ peer.id = none := Option.map_eq_none_iff.mp vanished
      exact absurd (by simpa using here) (List.find?_eq_none.mp missing l present)

/-- While there is a place, a replica with a good history gets it. -/
theorem seat_of_place (m : Master L) (peer : Peer) {h : Hello} (named : h.replicaId = peer.id)
    (place : m.others peer.id < m.settings.maxReplicas.toNat) :
    ∃ report, (m.seat peer h).2 = .ok report := by
  rcases seat_cases m peer h named with ⟨rejection, rejected, -⟩ | ⟨report, taken, -⟩
  · obtain ⟨l, present, here⟩ := (seated_of_register m peer h named).link
    have held : link? (openSession _ h) peer.id ≠ none := fun missing =>
      absurd (by simpa using here) (List.find?_eq_none.mp missing l present)
    have free : ¬ m.settings.maxReplicas.toNat ≤
        others { m with generation := m.generation + 1 } peer.id := Nat.not_le_of_lt place
    unfold seat at rejected
    dsimp only at rejected
    rw [if_neg free] at rejected
    split at rejected
    · cases rejected
    · rename_i vanished
      exact absurd (Option.map_eq_none_iff.mp vanished) held
  · exact ⟨report, taken⟩

theorem checkHistory_of_ok {log : L} {h : Hello} (passed : checkHistory log h = .ok ()) :
    h.lastOffset ≤ LocalLog.highest log := by
  unfold checkHistory diverges at passed
  split at passed
  · cases passed
  · cases passed
  · rename_i agrees
    split at agrees
    · cases agrees
    · rename_i within
      omega

/-- A first message that is taken is a hello of a replica that is not ahead, and it gives the replica
its link and its session. Any other is quiet. -/
theorem greet_cases (m : Master L) (address : SocketAddress) (first : Except Fault Message) :
    (∃ rejection, (m.greet address first).2 = .error rejection ∧
      Silent m (m.greet address first).1) ∨
    ∃ h report, first = .ok (.hello h) ∧ (m.greet address first).2 = .ok report ∧
      h.lastOffset ≤ m.offset ∧ Seated h.replicaId h.lastOffset m (m.greet address first).1 := by
  unfold greet
  split
  · exact .inl ⟨_, rfl, quiet_countRejection m _⟩
  rename_i peer h hello
  obtain ⟨said, name⟩ := checkHello_of_ok hello
  split
  · exact .inl ⟨_, rfl, quiet_countRejection m _⟩
  rename_i history
  have within := checkHistory_of_ok history
  cases seat : m.seat peer h with
  | mk after result =>
    rcases seat_cases m peer h name.symm with ⟨rejection, rejected, quiet⟩ | ⟨report, taken, seated⟩
    · rw [seat] at rejected quiet
      cases rejected
      exact .inl ⟨rejection, rfl, quiet.trans (quiet_countRejection _ _)⟩
    · rw [seat] at taken seated
      cases taken
      rw [name] at seated
      exact .inr ⟨h, report, said, rfl, within, seated⟩

/-- A replica that finds no place is answered with a failure, if it is answered. -/
private theorem seat_reply {peer : Peer} {h : Hello} {rejection : Rejection} {message : Message}
    (rejected : (m.seat peer h).2 = .error rejection) (reply : rejection.reply = some message) :
    ∃ code text, message = .failure code text := by
  unfold seat at rejected
  dsimp only at rejected
  split at rejected
  · cases rejected; cases reply; exact ⟨_, _, rfl⟩
  · split at rejected <;> cases rejected
    cases reply

/-- A replica that is turned away is answered with a failure, if it is answered. -/
theorem greet_reply {address : SocketAddress} {first : Except Fault Message} {rejection : Rejection}
    {message : Message} (rejected : (m.greet address first).2 = .error rejection)
    (reply : rejection.reply = some message) : ∃ code text, message = .failure code text := by
  unfold greet at rejected
  split at rejected
  · rename_i hello
    cases rejected
    unfold checkHello at hello
    split at hello
    · cases hello; cases reply
    · split at hello
      · cases hello; cases reply; exact ⟨_, _, rfl⟩
      · split at hello <;> cases hello
        cases reply; exact ⟨_, _, rfl⟩
    · cases hello; cases reply
  split at rejected
  · rename_i history
    cases rejected
    unfold checkHistory at history
    split at history <;> cases history
    · cases reply
    · cases reply; exact ⟨_, _, rfl⟩
  split at rejected
  · rename_i turned
    cases rejected
    exact seat_reply (congrArg Prod.snd turned) reply
  · cases rejected

end QuorumLog.Master
