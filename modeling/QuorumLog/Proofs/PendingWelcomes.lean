import QuorumLog.Proofs.MasterMoves

/-! What others leave of a session that waits. Whatever a master does meanwhile, a session keeps its
replica, its place and its stage until it takes a step itself or is ended; only its connection may be
cut or given entries. So a replica that was accepted is welcomed with what it was accepted for. -/

namespace QuorumLog

/-- Whether a move is a step of the session of a generation, or ends it. -/
def Move.concerns (generation : Nat) : Move → Bool
  | .advance other | .endSession other _ => other = generation
  | _ => false

namespace Master

variable {L : Type} {m m' m'' : Master L} {generation other : Nat} {s : Session}

/-- The session of a generation is as it was, except for its connection. -/
def Spares (generation : Nat) (before after : Master L) : Prop :=
  ∀ s, before.session? generation = some s →
    ∃ connection, after.session? generation = some { s with connection }

theorem Spares.trans (first : Spares generation m m') (second : Spares generation m' m'') :
    Spares generation m m'' := by
  intro s found
  obtain ⟨between, found⟩ := first s found
  obtain ⟨connection, found⟩ := second _ found
  exact ⟨connection, found⟩

/-! ### Small steps -/

theorem spares_of_same (sessions : m'.sessions = m.sessions) : Spares generation m m' := by
  intro s found
  exact ⟨s.connection, by rw [session?, sessions]; exact found⟩

theorem Spares.refl (m : Master L) : Spares generation m m := spares_of_same rfl

/-- Sessions may be changed one by one if the one of the generation changes in nothing else. -/
theorem spares_of_map {f : Session → Session} (sessions : m'.sessions = m.sessions.map f)
    (named : ∀ t, (f t).generation = t.generation)
    (same : ∀ t, t.generation = generation → ∃ connection, f t = { t with connection }) :
    Spares generation m m' := by
  intro s found
  obtain ⟨connection, changed⟩ := same s (session_of_find found).2
  have kept : (fun t : Session => decide (t.generation = generation)) ∘ f =
      fun t => decide (t.generation = generation) := by
    funext t
    simp only [Function.comp_apply, named]
  refine ⟨connection, ?_⟩
  rw [session?, sessions, List.find?_map, kept]
  exact (congrArg (Option.map f) found).trans (congrArg some changed)

/-- Connections may be changed as one likes. -/
theorem spares_of_connections {f : Session → Session} (sessions : m'.sessions = m.sessions.map f)
    (only : ∀ t, ∃ connection, f t = { t with connection }) : Spares generation m m' := by
  refine spares_of_map sessions (fun t => ?_) fun t _ => only t
  obtain ⟨connection, changed⟩ := only t
  rw [changed]

theorem spares_onSession (m : Master L) (apart : other ≠ generation) {f : Session → Session}
    (named : ∀ t : Session, (f t).generation = t.generation) :
    Spares generation m (m.onSession other f) := by
  refine spares_of_map rfl (fun t => ?_) fun t here => ⟨t.connection, ?_⟩
  · split
    · exact named t
    · rfl
  · rw [if_neg fun same => apart (same.symm.trans here)]

theorem spares_enter (m : Master L) (apart : other ≠ generation) (stage : Stage) :
    Spares generation m (m.enter other stage) := spares_onSession m apart fun _ => rfl

theorem spares_cut (m : Master L) (other : Nat) : Spares generation m (m.cut other) := by
  refine spares_of_connections rfl fun t => ?_
  split
  · exact ⟨_, rfl⟩
  · exact ⟨_, rfl⟩

theorem spares_closeLink (m : Master L) (name : String) (generation? : Option Nat) :
    Spares generation m (m.closeLink name generation?) := by
  unfold closeLink
  split
  · exact .refl m
  split
  · exact ((spares_of_same rfl).trans (spares_cut _ _)).trans (spares_of_same rfl)
  · exact .refl m

theorem spares_endSession (m : Master L) (apart : other ≠ generation) (fault : Option Fault) :
    Spares generation m (m.endSession other fault) := by
  unfold endSession
  split
  · exact .refl m
  · refine Spares.trans ?_ (spares_closeLink _ _ _)
    exact spares_onSession m apart fun _ => rfl

theorem spares_stop (m : Master L) : Spares generation m m.stop := by
  unfold stop
  split
  · exact .refl m
  refine spares_of_connections rfl fun t => ?_
  split
  · exact ⟨_, rfl⟩
  · exact ⟨_, rfl⟩

theorem spares_announce (m : Master L) : Spares generation m m.announce.1 := by
  unfold announce
  split
  · exact .refl m
  refine spares_of_connections rfl fun t => ?_
  split
  · exact ⟨_, rfl⟩
  · exact ⟨_, rfl⟩

/-! ### Steps of other sessions -/

theorem spares_sendNext (m : Master L) (apart : s.generation ≠ generation) (slice : Slice)
    (e : Entry) (rest : List Entry) (count : Nat) :
    Spares generation m (m.sendNext s slice e rest count).1 := by
  unfold sendNext
  split
  · exact spares_endSession m apart _
  rcases write_cases m s.generation (.entry e) with ⟨fault, failed⟩ | wrote
  · rw [failed]
    exact spares_endSession m apart _
  · rw [wrote]
    have moved : Spares generation m
        (m.onSession s.generation fun s => { s with next := s.next + 1 }) :=
      spares_onSession m apart fun _ => rfl
    dsimp only
    split
    · exact (moved.trans (spares_of_same rfl)).trans (spares_enter _ apart _)
    · exact moved.trans (spares_enter _ apart _)

theorem spares_takeFresh (m : Master L) (apart : s.generation ≠ generation) :
    Spares generation m (m.takeFresh s).1 := by
  unfold takeFresh
  split
  · refine Spares.trans ?_ (spares_sendNext _ apart _ _ _ _)
    exact spares_onSession m apart fun _ => rfl
  · split
    · exact .refl m
    · exact spares_endSession m apart _

variable [LocalLog L]

theorem spares_readPage (m : Master L) (apart : s.generation ≠ generation) :
    Spares generation m (m.readPage s) := by
  unfold readPage
  split
  · exact spares_endSession m apart _
  · exact spares_enter m apart _
  · exact spares_enter m apart _

theorem spares_finishCatchUp (m : Master L) (apart : s.generation ≠ generation) :
    Spares generation m (m.finishCatchUp s) := by
  unfold finishCatchUp
  split
  · exact .refl m
  split
  · exact spares_endSession m apart _
  split
  · exact spares_endSession m apart _
  split
  · exact (spares_of_same rfl).trans (spares_enter _ apart _)
  · exact spares_endSession m apart _

theorem spares_advance (m : Master L) (apart : other ≠ generation) :
    Spares generation m (m.advance other).1 := by
  unfold advance
  split
  · exact .refl m
  rename_i s found
  obtain ⟨-, rfl⟩ := session_of_find found
  split
  · rename_i welcome _
    rcases write_cases m s.generation (.welcome welcome) with ⟨fault, failed⟩ | wrote
    · rw [failed]
      exact spares_endSession m apart _
    · rw [wrote]
      exact Spares.trans (spares_of_same rfl) (spares_enter _ apart _)
  · exact spares_readPage m apart
  · exact spares_sendNext m apart _ _ _ _
  · exact spares_enter m apart _
  · exact spares_finishCatchUp m apart
  · exact spares_enter m apart _
  · exact spares_takeFresh m apart
  · exact .refl m

/-! ### What is heard and greeted -/

theorem spares_acknowledge (m : Master L) (name : String) (offset : Nat) :
    Spares generation m (m.acknowledge name offset) := by
  unfold acknowledge
  split
  · exact .refl m
  split
  · exact .refl m
  dsimp only
  split <;> exact spares_of_same rfl

/-- A session that is about to welcome its replica does not listen to it yet. -/
theorem spares_receive (m : Master L) (found : m.session? generation = some s)
    (welcoming : s.isWelcoming) (other : Nat) (message : Message) :
    Spares generation m (m.receive other message) := by
  unfold receive
  split
  · exact .refl m
  rename_i t heard
  split
  · rename_i listening
    have apart : other ≠ generation := by
      rintro rfl
      rw [found] at heard
      cases heard
      simp [Session.isListening, welcoming] at listening
    split
    · exact spares_acknowledge m _ _
    · exact spares_of_same rfl
    · exact spares_endSession m apart _
    · exact .refl m
  · exact .refl m

theorem spares_openSession (m : Master L) (h : Hello) : Spares generation m (m.openSession h) := by
  intro s found
  refine ⟨s.connection, ?_⟩
  rw [session?, openSession, List.find?_append]
  exact congrArg (Option.or · _) found

omit [LocalLog L] in
theorem spares_register (m : Master L) (peer : Peer) (held : Nat) :
    Spares generation m (m.register peer held) := by
  unfold register
  split
  · exact (spares_cut m _).trans (spares_of_same rfl)
  · exact spares_of_same rfl

theorem spares_greet (m : Master L) (address : SocketAddress) (first : Except Fault Message) :
    Spares generation m (m.greet address first).1 := by
  have counted (m : Master L) (rejection : Rejection) :
      Spares generation m (m.countRejection rejection) := by
    unfold countRejection
    split <;> exact spares_of_same rfl
  have seated (peer : Peer) (h : Hello) : Spares generation m (m.seat peer h).1 := by
    have issued : Spares generation m { m with generation := m.generation + 1 } :=
      spares_of_same rfl
    have opened := (issued.trans (spares_register _ peer h.lastOffset)).trans (spares_openSession _ h)
    unfold seat
    dsimp only
    split
    · exact issued
    · split
      · exact opened
      · exact opened
  unfold greet
  split
  · exact counted m _
  rename_i peer h _
  split
  · exact counted m _
  have placed := seated peer h
  split
  · rename_i seat
    rw [seat] at placed
    exact placed.trans (counted _ _)
  · rename_i seat
    rw [seat] at placed
    exact placed

/-! ### Moves -/

theorem spares_move (m : Master L) (found : m.session? generation = some s)
    (welcoming : s.isWelcoming) {a : Move} (foreign : a.concerns generation = false) :
    Spares generation m (m.move a) := by
  have stored (payload : Bytes) (metadata : Option Bytes) :
      Spares generation m (m.move (.store payload metadata)) :=
    spares_of_same (store_same m payload metadata).2.1
  cases a with
  | append payload metadata =>
    rcases move_append m payload metadata with ⟨-, same⟩ | same | same
    · rw [same]
      exact .refl m
    · rw [same]
      exact stored payload metadata
    · rw [same]
      exact (stored payload metadata).trans (spares_announce _)
  | store payload metadata => exact stored payload metadata
  | announce => exact spares_announce m
  | purge offset => exact spares_of_same rfl
  | greet address first => exact spares_greet m address first
  | advance other => exact spares_advance m (by simpa [Move.concerns] using foreign)
  | receive other message => exact spares_receive m found welcoming other message
  | acknowledge id offset => exact spares_acknowledge m id offset
  | disconnect id => exact spares_closeLink m id none
  | endSession other fault =>
    exact spares_endSession m (by simpa [Move.concerns] using foreign) fault
  | start bind =>
    simp only [move, start]
    split
    · exact .refl m
    split
    · exact .refl m
    split
    · exact .refl m
    · exact spares_of_same rfl
  | stop => exact spares_stop m

/-- A replica that was accepted is still about to be welcomed after anything that is no step of its own
session. -/
theorem spares_play (m : Master L) (found : m.session? generation = some s)
    (welcoming : s.isWelcoming) (moves : List Move)
    (foreign : ∀ a ∈ moves, a.concerns generation = false) :
    ∃ connection, (m.play moves).session? generation = some { s with connection } := by
  induction moves generalizing m s with
  | nil => exact ⟨s.connection, found⟩
  | cons a later ih =>
    obtain ⟨connection, moved⟩ :=
      spares_move m found welcoming (foreign a List.mem_cons_self) s found
    obtain ⟨last, played⟩ :=
      ih _ moved welcoming fun b member => foreign b (List.mem_cons_of_mem a member)
    exact ⟨last, played⟩

end Master

end QuorumLog
