import QuorumLog.Proofs.LinkRoster
import QuorumLog.Proofs.WithoutConnections

/-! The connections that a replica left behind when it came back. They take steps until they notice, and
a step of theirs is a matter of their own session alone, with three exceptions in which nobody asks for
the generation: a report is booked for the replica, whoever reads it; so is a welcome that is written
late; and the link counts the entries that an earlier connection still writes. While none of these
happens, the connection that the link has now goes its way as if it were the only one. -/

namespace QuorumLog

/-- The count that the link is told of with the next entry that is written, if that ends a slice. -/
def Session.closing? (s : Session) : Option Nat :=
  match s.stage with
  | .sending _ [_] count => some count
  | .streaming => if s.connection.queue.isEmpty then none else some 1
  | _ => none

namespace Master

variable {L : Type} [LocalLog L] {m m' n : Master L} {old : List Nat} {generation : Nat}
variable {id : String} {a : Move} {moves : List Move} {s : Session}

/-- In a move somebody vouches for a replica, and the master is as it was but for that. -/
inductive Vouches (m : Master L) (id : String) : Move → Master L → Prop
  /-- One of its connections reports what is news to the link. -/
  | reported {generation offset : Nat} {s : Session} {l : Link}
      (session : m.session? generation = some s) (replica : s.replicaId = id)
      (listening : s.isListening) (link : m.link? id = some l) (news : l.accepts offset)
      (known : offset ≤ m.offset) :
      Vouches m id (.receive generation (.ack offset)) (m.acknowledge id offset)
  /-- A report in its name, which is news to the link. -/
  | named {offset : Nat} {l : Link} (link : m.link? id = some l) (news : l.accepts offset)
      (known : offset ≤ m.offset) : Vouches m id (.acknowledge id offset) (m.acknowledge id offset)
  /-- One of its connections is welcomed, and its first word is taken for what it holds. -/
  | welcomed {generation : Nat} {s : Session} (session : m.session? generation = some s)
      (replica : s.replicaId = id) (welcoming : s.isWelcoming) :
      Vouches m id (.advance generation)
        { m with quorum := (m.quorum.rebase (.replica id) (s.next - 1)).1 }

/-- In a move a connection of a replica tells on what the master knows of the replica, and the master is
as it was but for that. -/
inductive Tells (m : Master L) (id : String) : Move → Master L → Prop
  | vouches {a : Move} {after : Master L} (vouches : m.Vouches id a after) : Tells m id a after
  /-- Entries that one of its connections wrote are counted in the link. -/
  | counted {generation count : Nat} {s : Session} (session : m.session? generation = some s)
      (replica : s.replicaId = id) (closing : s.closing? = some count) :
      Tells m id (.advance generation) (m.onLink id (Link.recordSent count))

/-- Something happens in none of some moves. -/
def Never (happens : Master L → Move → Prop) (m : Master L) : List Move → Prop
  | [] => True
  | a :: later => ¬happens m a ∧ (m.move a).Never happens later

/-- The generations that a link left behind: those of the other sessions of its replica. -/
def elder (m : Master L) (l : Link) : List Nat :=
  (m.sessions.filter fun s => s.replicaId = l.peer.id ∧ s.generation ≠ l.generation).map
    (·.generation)

/-! ### Connections that no link has any more -/

/-- The connection of a generation is of a replica whose link, if it has one, has another. -/
structure Overtaken (m : Master L) (id : String) (generation : Nat) : Prop
    extends Belongs m generation id where
  gone : ∀ l ∈ m.links, l.generation ≠ generation

theorem Belongs.move (belongs : m.Belongs generation id) (numbered : m.Numbered) (a : Move) :
    (m.move a).Belongs generation id := by
  have stored (payload : Bytes) (metadata : Option Bytes) :
      (m.move (.store payload metadata)).Belongs generation id :=
    belongs.leaves (leaves_store m payload metadata)
  have announced {m : Master L} (belongs : m.Belongs generation id) :
      (m.move .announce).Belongs generation id := by
    rcases announce_cases m with ⟨-, same⟩ | ⟨e, -, -, quiet⟩
    · rwa [Master.move, same]
    · exact Belongs.kept (m := { m with quorum := _, unannounced := none })
        ⟨belongs.issued, belongs.links, belongs.sessions⟩ quiet.toKept
  cases a with
  | append payload metadata =>
    rcases move_append m payload metadata with ⟨-, same⟩ | same | same
    · rwa [same]
    · rw [same]
      exact stored payload metadata
    · rw [same]
      exact announced (stored payload metadata)
  | store payload metadata => exact stored payload metadata
  | announce => exact announced belongs
  | purge offset => exact ⟨belongs.issued, belongs.links, belongs.sessions⟩
  | advance other => exact belongs.advance numbered other
  | _ => exact belongs.leaves (leaves_move numbered belongs rfl (by simp))

theorem Overtaken.move (overtaken : m.Overtaken id generation) (table : m.Table) (a : Move) :
    (m.move a).Overtaken id generation where
  toBelongs := overtaken.toBelongs.move table.numbered a
  gone l' held same := by
    rcases (table.move a).links l' held with ⟨l, before, -, kept⟩ | newer
    · exact overtaken.gone l before (kept.trans same)
    · have issued := overtaken.issued
      omega

theorem Overtaken.play (overtaken : m.Overtaken id generation) (table : m.Table)
    (moves : List Move) : (m.play moves).Overtaken id generation := by
  induction moves generalizing m with
  | nil => exact overtaken
  | cons a later ih => exact ih (overtaken.move table a) (table.move a).table

omit [LocalLog L] in
/-- What a link left behind is not the connection of any link. -/
theorem overtaken_of_elder (table : m.Table) {l : Link} (held : l ∈ m.links) :
    ∀ generation ∈ m.elder l, m.Overtaken l.peer.id generation := by
  intro generation left
  obtain ⟨s, elder, rfl⟩ := List.mem_map.mp left
  obtain ⟨present, both⟩ := List.mem_filter.mp elder
  obtain ⟨replica, apart⟩ : s.replicaId = l.peer.id ∧ s.generation ≠ l.generation := by
    simpa using both
  -- A link of this generation would have this session, so it would be the link of this replica.
  have name : ∀ l' ∈ m.links, l'.generation = s.generation → l'.peer.id = l.peer.id := by
    intro l' held' here
    obtain ⟨s', present', here', name⟩ := table.session l' held'
    have one : s' = s := table.numbered.session_unique present' present (here'.trans here)
    rw [← name, one, replica]
  refine ⟨⟨table.numbered.sessions s present, name, fun s' present' here => ?_⟩,
    fun l' held' here => apart ?_⟩
  · rw [table.numbered.session_unique present' present here, replica]
  · rw [← here, table.numbered.link_unique held' held (name l' held' here)]

/-! ### Their steps -/

omit [LocalLog L] in
/-- What depends on the rest alone is the same whenever the rest is. -/
theorem Heedless.same {f : Master L → Master L} (heedless : Heedless old f)
    (same : m.without old = n.without old) : (f m).without old = (f n).without old := by
  rw [heedless, same, ← heedless]

omit [LocalLog L] in
theorem onSession_overtaken (stale : generation ∈ old) {f : Session → Session}
    (named : ∀ s, (f s).generation = s.generation) (m : Master L) :
    (m.onSession generation f).without old = m.without old := by
  have others : (m.onSession generation f).sessions.filter (·.generation ∉ old) =
      m.sessions.filter (·.generation ∉ old) := by
    rw [onSession, filter_map_sessions fun s => ?_]
    · refine (List.map_congr_left fun s kept => ?_).trans (List.map_id _)
      have apart : s.generation ≠ generation := fun same => by
        simp [same, stale] at kept
      exact if_neg apart
    · split
      · exact named s
      · rfl
  rw [without, others]
  rfl

omit [LocalLog L] in
theorem enter_overtaken (stale : generation ∈ old) (m : Master L) (stage : Stage) :
    (m.enter generation stage).without old = m.without old :=
  onSession_overtaken stale (fun _ => by rfl) m

omit [LocalLog L] in
theorem closeLink_overtaken (gone : ∀ l ∈ m.links, l.generation ≠ generation) (id : String) :
    m.closeLink id (some generation) = m := by
  unfold closeLink
  split
  · rfl
  · rename_i l found
    refine if_neg fun both => gone l (link_of_find found).1 ?_
    have same : generation = l.generation := by simpa using both.2
    exact same.symm

omit [LocalLog L] in
/-- A session that was overtaken takes no link with it when it ends. -/
theorem endSession_overtaken (stale : generation ∈ old)
    (gone : ∀ l ∈ m.links, l.generation ≠ generation) (fault : Option Fault) :
    (m.endSession generation fault).without old = m.without old := by
  unfold endSession
  split
  · rfl
  · rename_i s _
    have kept := closeLink_overtaken (m := m.onSession generation fun s =>
      { s with stage := .ended fault, connection := s.connection.cancel.abandon }) gone s.replicaId
    exact (congrArg (without old) kept).trans (onSession_overtaken stale (fun _ => by rfl) m)

omit [LocalLog L] in
/-- Writing an entry counts in the link if it is the last of its slice. -/
theorem sendNext_overtaken (stale : s.generation ∈ old)
    (gone : ∀ l ∈ m.links, l.generation ≠ s.generation) (slice : Slice) (e : Entry)
    (rest : List Entry) (count : Nat) :
    (m.sendNext s slice e rest count).1.without old = m.without old ∨
    rest = [] ∧ (m.sendNext s slice e rest count).1.without old =
      (m.onLink s.replicaId (Link.recordSent count)).without old := by
  unfold sendNext
  split
  · exact .inl (endSession_overtaken stale gone _)
  rcases write_cases m s.generation (.entry e) with ⟨fault, failed⟩ | wrote
  · rw [failed]
    exact .inl (endSession_overtaken stale gone fault)
  rw [wrote]
  have moved : (m.onSession s.generation fun s => { s with next := s.next + 1 }).without old =
      m.without old :=
    onSession_overtaken stale (fun _ => by rfl) m
  cases rest with
  | nil =>
    refine .inr ⟨rfl, (enter_overtaken stale _ slice.after).trans ?_⟩
    exact (heedless_onLink s.replicaId (f := Link.recordSent count) fun _ => rfl).same moved
  | cons x later => exact .inl ((enter_overtaken stale _ _).trans moved)

omit [LocalLog L] in
theorem takeFresh_overtaken (stale : s.generation ∈ old)
    (gone : ∀ l ∈ m.links, l.generation ≠ s.generation) :
    (m.takeFresh s).1.without old = m.without old ∨
    s.connection.queue.isEmpty = false ∧ (m.takeFresh s).1.without old =
      (m.onLink s.replicaId (Link.recordSent 1)).without old := by
  unfold takeFresh
  split
  · rename_i e later queue
    have taken (m : Master L) : (m.onSession s.generation fun s =>
        { s with connection := { s.connection with queue := later } }).without old =
      m.without old :=
      onSession_overtaken stale (fun _ => by rfl) m
    rcases sendNext_overtaken (m := m.onSession s.generation fun s =>
        { s with connection := { s.connection with queue := later } }) stale gone .fresh e [] 1 with
      same | ⟨-, counted⟩
    · exact .inl (same.trans (taken m))
    · refine .inr ⟨by simp [queue], counted.trans ?_⟩
      exact (heedless_onLink s.replicaId (f := Link.recordSent 1) fun _ => rfl).same (taken m)
  · split
    · exact .inl rfl
    · exact .inl (endSession_overtaken stale gone none)

theorem readPage_overtaken (stale : s.generation ∈ old)
    (gone : ∀ l ∈ m.links, l.generation ≠ s.generation) :
    (m.readPage s).without old = m.without old := by
  unfold readPage
  split
  · exact endSession_overtaken stale gone _
  · exact enter_overtaken stale m _
  · exact enter_overtaken stale m _

/-- The link does not become streaming for a connection that it left behind. -/
theorem finishCatchUp_overtaken (stale : s.generation ∈ old)
    (gone : ∀ l ∈ m.links, l.generation ≠ s.generation) :
    (m.finishCatchUp s).without old = m.without old := by
  unfold finishCatchUp
  split
  · rfl
  split
  · exact endSession_overtaken stale gone _
  split
  · exact endSession_overtaken stale gone _
  rename_i l found
  rw [if_neg fun both => gone l (link_of_find found).1 both.1]
  exact endSession_overtaken stale gone _

omit [LocalLog L] in
theorem welcomed_overtaken (stale : s.generation ∈ old) (m : Master L) :
    (m.welcomed s).without old =
      ({ m with quorum := (m.quorum.rebase (.replica s.replicaId) (s.next - 1)).1
        } : Master L).without old :=
  enter_overtaken stale _ .reading

/-- A step of an overtaken session leaves the rest as it is, or tells on its replica and leaves the rest
as it is but for that. -/
theorem advance_overtaken (overtaken : m.Overtaken id generation) (stale : generation ∈ old) :
    (m.advance generation).1.without old = m.without old ∨
    ∃ after, m.Tells id (.advance generation) after ∧
      (m.advance generation).1.without old = after.without old := by
  cases found : m.session? generation with
  | none =>
    rw [advance, found]
    exact .inl rfl
  | some s =>
    obtain ⟨held, here⟩ := session_of_find found
    obtain rfl := overtaken.sessions s held here
    have gone : ∀ l ∈ m.links, l.generation ≠ s.generation := here.symm ▸ overtaken.gone
    subst here
    unfold advance
    rw [found]
    dsimp only
    split
    · rename_i welcome stage
      rcases write_cases m s.generation (.welcome welcome) with ⟨fault, failed⟩ | wrote
      · rw [failed]
        exact .inl (endSession_overtaken stale gone fault)
      · rw [wrote]
        refine .inr ⟨_, .vouches (.welcomed found rfl ?_), welcomed_overtaken stale m⟩
        rw [Session.isWelcoming, stage]
    · exact .inl (readPage_overtaken stale gone)
    · rename_i slice e rest count stage
      rcases sendNext_overtaken stale gone slice e rest count with same | ⟨rfl, counted⟩
      · exact .inl same
      · refine .inr ⟨_, .counted found rfl ?_, counted⟩
        rw [Session.closing?, stage]
    · exact .inl (enter_overtaken stale m _)
    · exact .inl (finishCatchUp_overtaken stale gone)
    · exact .inl (enter_overtaken stale m _)
    · rename_i stage
      rcases takeFresh_overtaken stale gone with same | ⟨queue, counted⟩
      · exact .inl same
      · refine .inr ⟨_, .counted found rfl ?_, counted⟩
        rw [Session.closing?, stage]
        exact if_neg (by simp [queue])
    · exact .inl rfl

omit [LocalLog L] in
/-- When a replica was heard makes no difference. -/
theorem onLink_unheard {f : Link → Link}
    (same : ∀ l ∈ m.links, l.peer.id = id → (f l).unheard = l.unheard) :
    (m.onLink id f).without old = m.without old := by
  have links : (m.onLink id f).links.map Link.unheard = m.links.map Link.unheard := by
    rw [onLink, List.map_map]
    refine List.map_congr_left fun l held => ?_
    rw [Function.comp_apply]
    split
    · rename_i here
      exact same l held here
    · rfl
  rw [without, links]
  rfl

/-- A report is no news to the link, or the replica vouches. -/
theorem acknowledge_unheard (numbered : m.Numbered) (id : String) (offset : Nat) :
    (m.acknowledge id offset).without old = m.without old ∨
    offset ≤ m.offset ∧ ∃ l, m.link? id = some l ∧ l.accepts offset := by
  unfold acknowledge
  split
  · exact .inl rfl
  rename_i known
  split
  · exact .inl rfl
  rename_i l found
  dsimp only
  split
  · rename_i news
    exact .inr ⟨Nat.le_of_not_lt known, l, found, news⟩
  rename_i told
  obtain ⟨held, name⟩ := link_of_find found
  refine .inl (onLink_unheard fun l' held' name' => ?_)
  rw [numbered.link_unique held' held (name'.trans name.symm), Link.recordAck, if_neg told]
  split <;> rfl

theorem receive_overtaken (numbered : m.Numbered) (overtaken : m.Overtaken id generation)
    (stale : generation ∈ old) (message : Message) :
    (m.receive generation message).without old = m.without old ∨
    ∃ after, m.Tells id (.receive generation message) after ∧
      (m.receive generation message).without old = after.without old := by
  unfold receive
  split
  · exact .inl rfl
  rename_i s found
  obtain ⟨held, here⟩ := session_of_find found
  obtain rfl := overtaken.sessions s held here
  split
  · rename_i listening
    split
    · rename_i offset
      rcases acknowledge_unheard numbered s.replicaId offset with same | ⟨known, l, link, news⟩
      · exact .inl same
      · exact .inr ⟨_, .vouches (.reported found rfl listening link news known), rfl⟩
    · exact .inl (onLink_unheard fun _ _ _ => rfl)
    · exact .inl (endSession_overtaken stale overtaken.gone none)
    · exact .inl rfl
  · exact .inl rfl

theorem move_overtaken (numbered : m.Numbered)
    (overtaken : ∀ generation ∈ old, m.Overtaken id generation) (stale : a.isOf old) :
    (m.move a).without old = m.without old ∨
    ∃ after, m.Tells id a after ∧ (m.move a).without old = after.without old := by
  cases a with
  | advance generation =>
    have stale : generation ∈ old := of_decide_eq_true stale
    exact advance_overtaken (overtaken generation stale) stale
  | receive generation message =>
    have stale : generation ∈ old := of_decide_eq_true stale
    exact receive_overtaken numbered (overtaken generation stale) stale message
  | endSession generation fault =>
    have stale : generation ∈ old := of_decide_eq_true stale
    exact .inl (endSession_overtaken stale (overtaken generation stale).gone fault)
  | _ => cases stale

/-- While the overtaken connections do not tell on their replica, all others go on as if they were not
there. -/
theorem without_play (table : m.Table) (overtaken : ∀ generation ∈ old, m.Overtaken id generation)
    (same : m.without old = n.without old)
    (never : m.Never (fun m a => a.isOf old ∧ ∃ after, m.Tells id a after) moves) :
    (m.play moves).without old = (n.play (moves.filter fun a => !a.isOf old)).without old := by
  induction moves generalizing m n with
  | nil => exact same
  | cons a later ih =>
    obtain ⟨quiet, never⟩ := never
    have table' := (table.move a).table
    have overtaken' := fun generation stale => (overtaken generation stale).move table a
    cases stale : a.isOf old with
    | true =>
      rw [List.filter_cons_of_neg (by simp [stale])]
      refine ih table' overtaken' ?_ never
      rcases move_overtaken table.numbered overtaken stale with kept | ⟨after, tells, -⟩
      · exact kept.trans same
      · exact absurd ⟨stale, after, tells⟩ quiet
    | false =>
      rw [List.filter_cons_of_pos (by simp [stale])]
      exact ih table' overtaken' ((heedless_move stale).same same) never

/-! ### What a replica is known to hold -/

/-- What a link and the count of copies know of a replica stands. -/
structure Stands (id : String) (generation : Nat) (before after : Master L) : Prop where
  links : ∀ l' ∈ after.links, l'.generation = generation →
    ∃ l ∈ before.links, l.generation = generation ∧ l'.lastAck = l.lastAck
  mark : after.quorum.watermark (.replica id) = before.quorum.watermark (.replica id)

omit [LocalLog L] in
theorem Stands.refl (m : Master L) : Stands id generation m m :=
  ⟨fun l held here => ⟨l, held, here, rfl⟩, rfl⟩

omit [LocalLog L] in
theorem Stands.trans {m'' : Master L} (first : Stands id generation m m')
    (second : Stands id generation m' m'') : Stands id generation m m'' where
  links l'' held here := by
    obtain ⟨l', held', here', same'⟩ := second.links l'' held here
    obtain ⟨l, before, newest, same⟩ := first.links l' held' here'
    exact ⟨l, before, newest, same'.trans same⟩
  mark := second.mark.trans first.mark

omit [LocalLog L] in
theorem stands_of_quiet {given : Entry → Prop} {q : Quorum} {log : L} {e : Option Entry}
    (mark : q.watermark (.replica id) = m.quorum.watermark (.replica id))
    (quiet : Quiet given { m with quorum := q, log := log, unannounced := e } m') :
    Stands id generation m m' where
  links l' held here := by
    obtain ⟨l, before, continues⟩ := quiet.links l' held
    exact ⟨l, before, continues.generation.symm.trans here, continues.lastAck⟩
  mark := by rw [quiet.quorum, mark]

omit [LocalLog L] in
theorem stands_announce (m : Master L) : Stands id generation m m.announce.1 := by
  rcases announce_cases m with ⟨-, same⟩ | ⟨e, -, -, quiet⟩
  · rw [same]
    exact .refl m
  · refine stands_of_quiet ?_ quiet
    rw [announcedQuorum_watermark, if_neg (by simp)]

theorem stands_store (m : Master L) (payload : Bytes) (metadata : Option Bytes) :
    Stands id generation m (m.store payload metadata).1 := by
  rcases store_cases m payload metadata with ⟨-, same⟩ | ⟨reason, log, -, -, quiet⟩ |
    ⟨log, offset, -, -, same⟩
  · rw [same]
    exact .refl m
  · exact stands_of_quiet (q := (m.quorum.refuse reason).1) rfl quiet
  · rw [same]
    exact ⟨fun l held here => ⟨l, held, here, rfl⟩, rfl⟩

/-- A report that is news is for another replica. -/
theorem stands_acknowledge (numbered : m.Numbered) (belongs : m.Belongs generation id)
    {name : String} {offset : Nat}
    (unheard : ∀ l, m.link? id = some l → l.accepts offset → offset ≤ m.offset → name ≠ id) :
    Stands id generation m (m.acknowledge name offset) := by
  rcases acknowledge_cases m numbered name offset with ⟨quiet, -⟩ |
    ⟨l, held, here, connected, less, known, quiet⟩
  · exact stands_of_quiet (q := m.quorum) rfl quiet
  · have apart : name ≠ id := fun same => by
      have found : m.link? id = some l := same ▸ here ▸ numbered.find_link held
      exact unheard l found (by simp [Link.accepts, connected, less]) known same
    have recorded : Stands id generation m (m.onLink name (Link.recordAck offset)) := by
      refine ⟨fun l' held' here' => ?_, rfl⟩
      obtain ⟨l₀, before, rfl⟩ := List.mem_map.mp held'
      by_cases mine : l₀.peer.id = name
      · rw [if_pos mine] at here'
        have same := (Link.recordAck_same offset l₀).2.symm.trans here'
        exact absurd (mine.symm.trans (belongs.links l₀ before same)) apart
      · rw [if_neg mine] at here' ⊢
        exact ⟨l₀, before, here', rfl⟩
    refine recorded.trans (stands_of_quiet ?_ quiet)
    exact (Quorum.watermark_credit ..).trans (if_neg (by simpa using apart.symm))

/-- In a move in which nobody vouches for a replica, what is known of it stands. -/
theorem stands_move (numbered : m.Numbered) (belongs : m.Belongs generation id)
    (unheard : ∀ after, ¬m.Vouches id a after) : Stands id generation m (m.move a) := by
  have quietly {m' : Master L} (quiet : Silent m m') : Stands id generation m m' :=
    stands_of_quiet (q := m.quorum) rfl quiet
  cases a with
  | append payload metadata =>
    rcases move_append m payload metadata with ⟨-, same⟩ | same | same
    · rw [same]
      exact .refl m
    · rw [same]
      exact stands_store m payload metadata
    · rw [same]
      exact (stands_store m payload metadata).trans (stands_announce _)
  | store payload metadata => exact stands_store m payload metadata
  | announce => exact stands_announce m
  | purge offset => exact ⟨fun l held here => ⟨l, held, here, rfl⟩, rfl⟩
  | greet address first =>
    rcases greet_cases m address first with ⟨rejection, -, quiet⟩ | ⟨h, report, -, -, -, seated⟩
    · exact quietly quiet
    · refine ⟨fun l' held here => ?_, by rw [move, seated.quorum]⟩
      rcases seated.links l' held with ⟨-, new, -⟩ | ⟨-, l, before, continues⟩
      · have issued := belongs.issued
        rw [← here, new, seated.generation] at issued
        omega
      · exact ⟨l, before, continues.generation.symm.trans here, continues.lastAck⟩
  | advance other =>
    rcases numbered.listens_or_welcomes other with listens | ⟨s, found, welcoming⟩
    · exact stands_of_quiet (q := m.quorum) rfl (quiet_advance m listens).1
    · rcases advance_welcome m found welcoming with ⟨fault, failed⟩ | ⟨welcome, wrote⟩
      · rw [move, failed]
        exact quietly (quiet_endSession m other fault)
      · have apart : s.replicaId ≠ id := fun same => unheard _ (.welcomed found same welcoming)
        have quiet : Silent { m with
            quorum := (m.quorum.rebase (.replica s.replicaId) (s.next - 1)).1 } (m.welcomed s) :=
          quiet_welcomed m s
        rw [move, wrote]
        refine stands_of_quiet ?_ quiet
        exact (Quorum.watermark_rebase ..).trans (if_neg (by simpa using apart.symm))
  | receive other message =>
    rcases receive_cases m other message with
      ⟨s, -, offset, found, listening, rfl, same⟩ | ⟨-, quiet⟩
    · rw [move, same]
      exact stands_acknowledge numbered belongs fun l link news known replica =>
        unheard _ (.reported found replica listening link news known)
    · exact quietly quiet
  | acknowledge name offset =>
    refine stands_acknowledge numbered belongs fun l link news known same => ?_
    subst same
    exact unheard _ (.named link news known)
  | disconnect name => exact quietly (quiet_closeLink m name none)
  | endSession other fault => exact quietly (quiet_endSession m other fault)
  | start bind => exact quietly (quiet_start m bind)
  | stop => exact quietly (quiet_stop m)

theorem stands_play (numbered : m.Numbered) (belongs : m.Belongs generation id)
    (never : m.Never (fun m a => ∃ after, m.Vouches id a after) moves) :
    Stands id generation m (m.play moves) := by
  induction moves generalizing m with
  | nil => exact .refl m
  | cons a later ih =>
    obtain ⟨quiet, never⟩ := never
    exact (stands_move numbered belongs fun after vouches => quiet ⟨after, vouches⟩).trans
      (ih (numbered.move a) (belongs.move numbered a) never)

/-! ### The connection that a link has -/

omit [LocalLog L] in
theorem belongs_of_link (table : m.Table) {l : Link} (held : l ∈ m.links) :
    m.Belongs l.generation l.peer.id where
  issued := table.numbered.links l held
  links l' held' here := congrArg (·.peer.id) (table.link_unique held' held here)
  sessions s' present' here := by
    obtain ⟨s, present, same, name⟩ := table.session l held
    rw [table.numbered.session_unique present' present (here.trans same.symm), name]

/-- A step of a connection that a link left behind is a matter of its own session, or it tells on the
replica and leaves everything else as it is but for that. While no such step tells on the replica, all
else goes as if those connections were not there: the link and the session of its connection, the other
ones, the log and the count of copies. And what the link and the count of copies know of the replica
stands until somebody vouches for it. -/
theorem overtaken_apart {settings : Settings} {log : L} (created : create settings log = .ok m)
    (before : List Move) {l : Link} (held : l ∈ (m.play before).links) :
    let n := m.play before
    let old := n.elder l
    (∀ moves a, a.isOf old →
      ((n.play moves).move a).without old = (n.play moves).without old ∨
      ∃ after, (n.play moves).Tells l.peer.id a after ∧
        ((n.play moves).move a).without old = after.without old) ∧
    (∀ moves, n.Never (fun n a => a.isOf old ∧ ∃ after, n.Tells l.peer.id a after) moves →
      (n.play moves).without old = (n.play (moves.filter fun a => !a.isOf old)).without old) ∧
    ∀ moves, n.Never (fun n a => ∃ after, n.Vouches l.peer.id a after) moves →
      (∀ l' ∈ (n.play moves).links, l'.generation = l.generation → l'.lastAck = l.lastAck) ∧
      (n.play moves).quorum.watermark (.replica l.peer.id) =
        n.quorum.watermark (.replica l.peer.id) := by
  intro n old
  have table : n.Table := ((table_of_create created).play before).table
  have overtaken : ∀ generation ∈ old, n.Overtaken l.peer.id generation :=
    overtaken_of_elder table held
  refine ⟨fun moves a stale => ?_, fun moves never => without_play table overtaken rfl never,
    fun moves never => ?_⟩
  · exact move_overtaken (table.play moves).table.numbered
      (fun generation stale => (overtaken generation stale).play table moves) stale
  · have stands := stands_play table.numbered (belongs_of_link table held) never
    refine ⟨fun l' held' here => ?_, stands.mark⟩
    obtain ⟨l₀, before, same, known⟩ := stands.links l' held' here
    rw [known, table.link_unique before held same]

/-- A replica comes while three writes wait for a copy, and comes back with an empty log. -/
def revisited : List Move :=
  [.append [97] none, .append [98] none, .append [99] none,
    .greet Settings.defaultBind (introduction "visitor" 0), .advance 1,
    .greet Settings.defaultBind (introduction "visitor" 0), .advance 2]

/-- Its first connection is heard and ends, and the second one begins to read. -/
def parting : List Move := [.receive 1 (.pong 0), .endSession 1 none, .advance 2]

/-- What becomes of the second connection is the step of its own, and nothing more is known of the
replica. -/
theorem overtaken_apart_parting : ∃ l ∈ ((small 2).play revisited).links,
    ((small 2).play revisited).elder l = [1] ∧ l.generation = 2 ∧
    (((small 2).play revisited).play parting).without [1] =
      (((small 2).play revisited).play [.advance 2]).without [1] ∧
    ∀ l' ∈ (((small 2).play revisited).play parting).links, l'.generation = 2 → l'.lastAck = 0 := by
  have created : create (smallSettings 2) ({} : VolatileLog) = .ok (small 2) := rfl
  have known : (((small 2).play revisited).link? "visitor").map (fun l =>
      (((small 2).play revisited).elder l, l.generation, l.lastAck)) = some ([1], 2, 0) := by
    decide +kernel
  obtain ⟨l, found, facts⟩ := Option.map_eq_some_iff.mp known
  obtain ⟨elder, newest, resume⟩ : ((small 2).play revisited).elder l = [1] ∧ l.generation = 2 ∧
      l.lastAck = 0 := by simpa using facts
  obtain ⟨held, name⟩ := link_of_find found
  obtain ⟨-, apart, stands⟩ := overtaken_apart created revisited held
  rw [elder] at apart
  refine ⟨l, held, elder, newest, apart parting ⟨?_, ?_, ?_, trivial⟩, ?_⟩
  · rintro ⟨-, after, vouches | counted⟩
    cases vouches
  · rintro ⟨-, after, vouches | counted⟩
    cases vouches
  · rintro ⟨stale, -⟩
    exact absurd stale (by decide)
  · rw [← newest, ← resume]
    refine (stands parting ⟨?_, ?_, ?_, trivial⟩).1
    · rintro ⟨after, vouches⟩
      cases vouches
    · rintro ⟨after, vouches⟩
      cases vouches
    · -- The second connection was welcomed before.
      have past : ∀ s, (((small 2).play revisited).play (parting.take 2)).session? 2 = some s →
          s.isWelcoming = false := by
        have heard : ((((small 2).play revisited).play (parting.take 2)).session? 2).all
            (!·.isWelcoming) := by decide +kernel
        intro s found
        simpa [found] using heard
      rintro ⟨after, vouches⟩
      cases vouches with
      | welcomed session replica welcoming =>
        rw [past _ session] at welcoming
        cases welcoming

/-- A report that is still read from the first connection is booked for the second one, whose replica
holds nothing: its link and its credit say that it holds all three entries, and nothing waits. -/
theorem late_report_counts :
    ((small 2).play revisited).links.map (fun l =>
      (l.peer.id, l.generation, ((small 2).play revisited).elder l, l.lastAck)) =
        [("visitor", 2, [1], 0)] ∧
    ((small 2).play revisited).quorum.watermark (.replica "visitor") = 0 ∧
    ((small 2).play revisited).quorum.pendingOffsets = [1, 2, 3] ∧
    (((small 2).play revisited).move (.receive 1 (.ack 3))).links.map (fun l =>
      (l.peer.id, l.generation, l.lastAck)) = [("visitor", 2, 3)] ∧
    (((small 2).play revisited).move (.receive 1 (.ack 3))).quorum.watermark (.replica "visitor") =
      3 ∧
    (((small 2).play revisited).move (.receive 1 (.ack 3))).quorum.pendingOffsets = [] := by
  decide +kernel

end Master

end QuorumLog
