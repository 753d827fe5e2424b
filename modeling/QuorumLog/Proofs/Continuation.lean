import QuorumLog.Master.Handshake
import QuorumLog.Master.Shipping

/-! Most of what a master does is quiet: it moves sessions along and gives up links, but it neither
touches the log nor the count of copies, and no link learns of a report. A quiet step keeps every link
and session that it leaves recognizable by name and generation, and says where the entries come from
that are about to be written. -/

namespace QuorumLog

/-! ### What stays recognizable -/

/-- The same connection, which may have been given up meanwhile. -/
structure Link.Continues (before after : Link) : Prop where
  id : after.peer.id = before.peer.id
  generation : after.generation = before.generation
  lastAck : after.lastAck = before.lastAck
  connected : after.isConnected → before.isConnected

theorem Link.Continues.refl (l : Link) : l.Continues l := ⟨rfl, rfl, rfl, fun c => c⟩

theorem Link.Continues.trans {l l' l'' : Link} (first : l.Continues l')
    (second : l'.Continues l'') : l.Continues l'' :=
  ⟨second.id.trans first.id, second.generation.trans first.generation,
    second.lastAck.trans first.lastAck, first.connected ∘ second.connected⟩

theorem Link.recordAck_same (offset : Nat) (l : Link) :
    (l.recordAck offset).peer = l.peer ∧ (l.recordAck offset).generation = l.generation := by
  unfold recordAck
  split
  · exact ⟨rfl, rfl⟩
  · split <;> exact ⟨rfl, rfl⟩

/-- The same session, further on: it does not go back to the welcome. -/
structure Session.Continues (before after : Session) : Prop where
  replicaId : after.replicaId = before.replicaId
  generation : after.generation = before.generation
  welcoming : after.isWelcoming → before.isWelcoming ∧ after.next = before.next

theorem Session.Continues.refl (s : Session) : s.Continues s := ⟨rfl, rfl, fun w => ⟨w, rfl⟩⟩

theorem Session.Continues.trans {s s' s'' : Session} (first : s.Continues s')
    (second : s'.Continues s'') : s.Continues s'' where
  replicaId := second.replicaId.trans first.replicaId
  generation := second.generation.trans first.generation
  welcoming w := by
    obtain ⟨w, next⟩ := second.welcoming w
    obtain ⟨w, next'⟩ := first.welcoming w
    exact ⟨w, next.trans next'⟩

/-- The entries that are being written in a stage. -/
def Stage.rest : Stage → List Entry
  | .sending _ rest _ => rest
  | _ => []

/-- The entries that a session is about to write. -/
def Session.waiting (s : Session) : List Entry := s.stage.rest ++ s.connection.queue

/-- Whether a log gives an entry to those who read it. -/
def LocalLog.Gives {L : Type} [LocalLog L] (log : L) (e : Entry) : Prop :=
  ∃ start limit found, LocalLog.read log start limit = .ok found ∧ e ∈ found

namespace Master

variable {L : Type} {m m' m'' : Master L} {given : Entry → Prop} {generation : Nat}

/-- Some session is about to write an entry. -/
def Waits (m : Master L) (e : Entry) : Prop := ∃ s ∈ m.sessions, e ∈ s.waiting

/-- Every session of a generation is past its welcome. -/
def Listens (m : Master L) (generation : Nat) : Prop :=
  ∀ s ∈ m.sessions, s.generation = generation → s.isWelcoming = false

/-- Links go on or are gone, sessions go on, and whatever is about to be written was so before or is
given. -/
structure Kept (given : Entry → Prop) (before after : Master L) : Prop where
  settings : after.settings = before.settings
  generation : before.generation ≤ after.generation
  ids : (after.links.map (·.peer.id)).Sublist (before.links.map (·.peer.id))
  links : ∀ l' ∈ after.links, ∃ l ∈ before.links, l.Continues l'
  generations : after.sessions.map (·.generation) = before.sessions.map (·.generation)
  sessions : ∀ s' ∈ after.sessions, ∃ s ∈ before.sessions, s.Continues s'
  waiting : ∀ e, after.Waits e → before.Waits e ∨ given e

/-- What is kept while the log and the writes stay as they are. -/
structure Quiet (given : Entry → Prop) (before after : Master L) : Prop
    extends Kept given before after where
  log : after.log = before.log
  quorum : after.quorum = before.quorum
  unannounced : after.unannounced = before.unannounced

/-- A quiet step after which nobody is about to write an entry that was not so before. -/
abbrev Silent (before after : Master L) : Prop := Quiet (fun _ => False) before after

theorem Kept.listens (kept : Kept given m m') (listens : m.Listens generation) :
    m'.Listens generation := by
  intro s' held here
  obtain ⟨s, before, continues⟩ := kept.sessions s' held
  have past := listens s before (continues.generation.symm.trans here)
  cases welcoming : s'.isWelcoming with
  | false => rfl
  | true => rw [(continues.welcoming welcoming).1] at past; cases past

theorem Kept.refl (m : Master L) : Kept given m m where
  settings := rfl
  generation := Nat.le_refl _
  ids := .refl _
  links l held := ⟨l, held, .refl l⟩
  generations := rfl
  sessions s held := ⟨s, held, .refl s⟩
  waiting _ := Or.inl

theorem Kept.trans (first : Kept given m m') (second : Kept given m' m'') : Kept given m m'' where
  settings := second.settings.trans first.settings
  generation := Nat.le_trans first.generation second.generation
  ids := second.ids.trans first.ids
  links l'' held := by
    obtain ⟨l', held, later⟩ := second.links l'' held
    obtain ⟨l, held, earlier⟩ := first.links l' held
    exact ⟨l, held, earlier.trans later⟩
  generations := second.generations.trans first.generations
  sessions s'' held := by
    obtain ⟨s', held, later⟩ := second.sessions s'' held
    obtain ⟨s, held, earlier⟩ := first.sessions s' held
    exact ⟨s, held, earlier.trans later⟩
  waiting e waits := (second.waiting e waits).elim (first.waiting e) Or.inr

theorem Quiet.refl (m : Master L) : Quiet given m m := ⟨.refl m, rfl, rfl, rfl⟩

theorem Quiet.trans (first : Quiet given m m') (second : Quiet given m' m'') : Quiet given m m'' :=
  ⟨first.toKept.trans second.toKept, second.log.trans first.log,
    second.quorum.trans first.quorum, second.unannounced.trans first.unannounced⟩

/-- What waited before need not be given. -/
theorem Quiet.absorb {given' : Entry → Prop} (quiet : Quiet given m m')
    (known : ∀ e, given e → m.Waits e) : Quiet given' m m' where
  toKept := { quiet.toKept with
    waiting e waits := .inl ((quiet.waiting e waits).elim id (known e)) }
  log := quiet.log
  quorum := quiet.quorum
  unannounced := quiet.unannounced

/-! ### Quiet steps -/

/-- What touches neither links nor sessions nor the ledger of writes is quiet. -/
theorem quiet_of_same (settings : m'.settings = m.settings) (log : m'.log = m.log)
    (links : m'.links = m.links) (sessions : m'.sessions = m.sessions)
    (quorum : m'.quorum = m.quorum) (unannounced : m'.unannounced = m.unannounced)
    (generation : m.generation ≤ m'.generation) : Quiet given m m' := by
  refine ⟨⟨settings, generation, ?_, ?_, ?_, ?_, ?_⟩, log, quorum, unannounced⟩
  · exact links ▸ List.Sublist.refl _
  · rw [links]; exact fun l held => ⟨l, held, .refl l⟩
  · rw [sessions]
  · rw [sessions]; exact fun s held => ⟨s, held, .refl s⟩
  · unfold Waits; rw [sessions]; exact fun _ => Or.inl

theorem quiet_tally (m : Master L) (tally : Tally) : Quiet given m { m with tally } :=
  quiet_of_same rfl rfl rfl rfl rfl rfl (Nat.le_refl _)

theorem quiet_onLink (m : Master L) (id : String) {f : Link → Link}
    (continues : ∀ l ∈ m.links, l.peer.id = id → l.Continues (f l)) :
    Quiet given m (m.onLink id f) := by
  have each : ∀ l ∈ m.links, l.Continues (if l.peer.id = id then f l else l) := by
    intro l held
    split
    · exact continues l held ‹_›
    · exact .refl l
  refine ⟨⟨rfl, Nat.le_refl _, ?_, ?_, rfl, fun s held => ⟨s, held, .refl s⟩, fun _ => Or.inl⟩,
    rfl, rfl, rfl⟩
  · have same : ((m.onLink id f).links.map (·.peer.id)) = m.links.map (·.peer.id) := by
      simp only [onLink, List.map_map]
      exact List.map_congr_left fun l held => (each l held).1
    exact same ▸ List.Sublist.refl _
  · intro l' held
    obtain ⟨l, before, rfl⟩ := List.mem_map.mp held
    exact ⟨l, before, each l before⟩

theorem quiet_onSession (m : Master L) {f : Session → Session}
    (continues : ∀ s ∈ m.sessions, s.generation = generation → s.Continues (f s))
    (waiting : ∀ s ∈ m.sessions, ∀ e ∈ (f s).waiting, e ∈ s.waiting ∨ given e) :
    Quiet given m (m.onSession generation f) := by
  have each : ∀ s ∈ m.sessions, s.Continues (if s.generation = generation then f s else s) := by
    intro s held
    split
    · exact continues s held ‹_›
    · exact .refl s
  refine ⟨⟨rfl, Nat.le_refl _, .refl _, fun l held => ⟨l, held, .refl l⟩, ?_, ?_, ?_⟩,
    rfl, rfl, rfl⟩
  · simp only [onSession, List.map_map]
    exact List.map_congr_left fun s held => (each s held).generation
  · intro s' held
    obtain ⟨s, before, rfl⟩ := List.mem_map.mp held
    exact ⟨s, before, each s before⟩
  · rintro e ⟨s', held, waits⟩
    obtain ⟨s, before, rfl⟩ := List.mem_map.mp held
    split at waits
    · exact (waiting s before e waits).imp_left fun waited => ⟨s, before, waited⟩
    · exact .inl ⟨s, before, waits⟩

theorem quiet_recount (m : Master L) : Quiet given m m.recount := quiet_tally m _

theorem quiet_cut (m : Master L) (generation : Nat) : Quiet given m (m.cut generation) :=
  quiet_onSession m (fun _ _ _ => ⟨rfl, rfl, fun w => ⟨w, rfl⟩⟩) fun _ _ _ => Or.inl

theorem quiet_disconnect (m : Master L) (id : String) :
    Quiet given m (m.onLink id Link.disconnect) :=
  quiet_onLink m id fun _ _ _ => ⟨rfl, rfl, rfl, fun connected => by
    simp [Link.isConnected, Link.disconnect] at connected⟩

theorem quiet_closeLink (m : Master L) (id : String) (generation? : Option Nat) :
    Quiet given m (m.closeLink id generation?) := by
  unfold closeLink
  split
  · exact .refl m
  · split
    · exact ((quiet_disconnect m id).trans (quiet_cut _ _)).trans (quiet_recount _)
    · exact .refl m

theorem quiet_endSession (m : Master L) (generation : Nat) (fault : Option Fault) :
    Quiet given m (m.endSession generation fault) := by
  unfold endSession
  split
  · exact .refl m
  · refine (quiet_onSession m ?_ ?_).trans (quiet_closeLink _ _ _)
    · exact fun _ _ _ => ⟨rfl, rfl, fun w => by cases w⟩
    · intro s held e waits
      simp [Session.waiting, Stage.rest, Connection.abandon] at waits

theorem quiet_countShipped (m : Master L) (id : String) (count : Nat) :
    Quiet given m (m.countShipped id count) :=
  (quiet_onLink m id (f := Link.recordSent count) fun _ _ _ => ⟨rfl, rfl, rfl, fun c => c⟩).trans (quiet_tally _ _)

/-- A session that enters a stage is about to write the entries of that stage. -/
theorem quiet_enter (m : Master L) (generation : Nat) {stage : Stage}
    (rest : ∀ e ∈ stage.rest, given e) (past : ∀ welcome, stage ≠ .welcoming welcome) :
    Quiet given m (m.enter generation stage) := by
  refine quiet_onSession m (fun s _ _ => ⟨rfl, rfl, fun w => ?_⟩) fun s _ e waits => ?_
  · cases stage with
    | welcoming welcome => exact absurd rfl (past welcome)
    | _ => cases w
  · rcases List.mem_append.mp waits with written | queued
    · exact .inr (rest e written)
    · exact .inl (List.mem_append_right _ queued)

/-! ### Names and generations -/

/-- No two links have one name, no two sessions one generation, and all generations were given out. -/
structure Numbered (m : Master L) : Prop where
  ids : (m.links.map (·.peer.id)).Nodup
  generations : (m.sessions.map (·.generation)).Nodup
  links : ∀ l ∈ m.links, l.generation ≤ m.generation
  sessions : ∀ s ∈ m.sessions, s.generation ≤ m.generation

/-- Nothing else is asked of a master than its links and the generations of its sessions. -/
theorem Numbered.same (numbered : m.Numbered) (links : m'.links = m.links)
    (sessions : m'.sessions.map (·.generation) = m.sessions.map (·.generation))
    (issued : m'.generation = m.generation) : m'.Numbered where
  ids := links ▸ numbered.ids
  generations := sessions ▸ numbered.generations
  links := by rw [links, issued]; exact numbered.links
  sessions s' held := by
    have member := List.mem_map_of_mem (f := Session.generation) held
    rw [sessions] at member
    obtain ⟨s, before, same⟩ := List.mem_map.mp member
    rw [issued, ← same]
    exact numbered.sessions s before

theorem Numbered.kept (numbered : m.Numbered) (kept : Kept given m m') : m'.Numbered where
  ids := numbered.ids.sublist kept.ids
  generations := kept.generations ▸ numbered.generations
  links l' held := by
    obtain ⟨l, before, continues⟩ := kept.links l' held
    rw [continues.generation]
    exact Nat.le_trans (numbered.links l before) kept.generation
  sessions s' held := by
    obtain ⟨s, before, continues⟩ := kept.sessions s' held
    rw [continues.generation]
    exact Nat.le_trans (numbered.sessions s before) kept.generation

private theorem eq_of_nodup_map {α β : Type} {f : α → β} {l : List α} (distinct : (l.map f).Nodup)
    {a b : α} (left : a ∈ l) (right : b ∈ l) (same : f a = f b) : a = b :=
  List.Pairwise.forall_of_forall_of_flip (R := fun a b => f a = f b → a = b) (fun _ _ _ => rfl)
    ((List.pairwise_map.mp distinct).imp fun apart same => absurd same apart)
    ((List.pairwise_map.mp distinct).imp fun apart same => absurd same.symm apart) left right same

/-- A link is the one with its name. -/
theorem Numbered.link_unique (numbered : m.Numbered) {l l' : Link} (left : l ∈ m.links)
    (right : l' ∈ m.links) (same : l.peer.id = l'.peer.id) : l = l' :=
  eq_of_nodup_map numbered.ids left right same

/-- A session is the one of its generation. -/
theorem Numbered.session_unique (numbered : m.Numbered) {s s' : Session} (left : s ∈ m.sessions)
    (right : s' ∈ m.sessions) (same : s.generation = s'.generation) : s = s' :=
  eq_of_nodup_map numbered.generations left right same

theorem numbered_onLink (numbered : m.Numbered) (id : String) {f : Link → Link}
    (same : ∀ l : Link, (f l).peer = l.peer ∧ (f l).generation = l.generation) :
    (m.onLink id f).Numbered := by
  have each : ∀ l : Link, (if l.peer.id = id then f l else l).peer = l.peer ∧
      (if l.peer.id = id then f l else l).generation = l.generation := by
    intro l
    split
    · exact same l
    · exact ⟨rfl, rfl⟩
  refine ⟨?_, numbered.generations, ?_, numbered.sessions⟩
  · simpa [onLink, Function.comp_def, each] using numbered.ids
  · intro l' member
    obtain ⟨l, before, rfl⟩ := List.mem_map.mp member
    exact (each l).2 ▸ numbered.links l before

theorem link_of_find {id : String} {l : Link} (found : m.link? id = some l) :
    l ∈ m.links ∧ l.peer.id = id :=
  ⟨List.mem_of_find?_eq_some found, by simpa using List.find?_some found⟩

theorem session_of_find {s : Session} (found : m.session? generation = some s) :
    s ∈ m.sessions ∧ s.generation = generation :=
  ⟨List.mem_of_find?_eq_some found, by simpa using List.find?_some found⟩

theorem Numbered.find_link (numbered : m.Numbered) {l : Link} (held : l ∈ m.links) :
    m.link? l.peer.id = some l := by
  cases found : m.link? l.peer.id with
  | none => simpa using List.find?_eq_none.mp found l held
  | some l' =>
    obtain ⟨held', same⟩ := link_of_find found
    rw [numbered.link_unique held' held same]

theorem Numbered.find_session (numbered : m.Numbered) {s : Session} (held : s ∈ m.sessions) :
    m.session? s.generation = some s := by
  cases found : m.session? s.generation with
  | none => simpa using List.find?_eq_none.mp found s held
  | some s' =>
    obtain ⟨held', same⟩ := session_of_find found
    rw [numbered.session_unique held' held same]

/-- A generation has a session that is about to welcome its replica, or none has. -/
theorem Numbered.listens_or_welcomes (numbered : m.Numbered) (generation : Nat) :
    m.Listens generation ∨ ∃ s, m.session? generation = some s ∧ s.isWelcoming := by
  cases found : m.session? generation with
  | none =>
    refine .inl fun s held here => ?_
    exact absurd (by simpa using here) (List.find?_eq_none.mp found s held)
  | some s =>
    obtain ⟨held, here⟩ := session_of_find found
    cases welcoming : s.isWelcoming with
    | true => exact .inr ⟨s, rfl, welcoming⟩
    | false =>
      refine .inl fun t present same => ?_
      rw [numbered.session_unique present held (same.trans here.symm)]
      exact welcoming

end Master

end QuorumLog
