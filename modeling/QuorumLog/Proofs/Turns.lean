import QuorumLog.Proofs.MasterRuns

/-! The link of a replica and the count of copies stay in step: what a connected link knows of its
replica is what the replica is credited with. That holds between the actions of every run, and with it
the effect of an action can be told in five short ways, from which every statement about such runs is
proved. -/

namespace QuorumLog.Master

variable {L : Type} [LocalLog L] {m m' : Master L} {e : Entry}

/-! ### Links and credits in step -/

/-- The offset of the last entry that was announced. -/
def tracked (m : Master L) : Nat := if m.unannounced.isSome then m.offset - 1 else m.offset

theorem tracked_le (m : Master L) : m.tracked ≤ m.offset := by
  unfold tracked
  split <;> omega

/-- What is true between the actions of a run. A connected link knows the offset that its replica is
credited with, nobody is credited beyond the log, and only announced writes wait, each with the
master's own credit. -/
structure InStep (m : Master L) : Prop where
  numbered : m.Numbered
  calm : m.Calm
  agree : ∀ l ∈ m.links, l.isConnected →
    m.quorum.watermark (.replica l.peer.id) = l.lastAck
  within : ∀ l ∈ m.links, l.lastAck ≤ m.offset
  consistent : m.quorum.Consistent
  unannounced : ∀ e, m.unannounced = some e → e.offset = m.offset ∧ 0 < m.offset
  pending : ∀ w ∈ m.quorum.pending, 0 < w.offset ∧ w.offset ≤ m.tracked ∧ .master ∈ w.sources
  master : m.quorum.watermark .master ≤ m.tracked

theorem inStep_of_create {settings : Settings} {log : L}
    (created : create settings log = .ok m) : m.InStep := by
  obtain ⟨-, rfl⟩ := create_of_ok created
  exact ⟨⟨.nil, .nil, by simp, by simp⟩, by simp [Calm, Listens], by simp, by simp,
    Quorum.consistent_ofCopies _, by simp, by simp [Quorum.ofCopies], by
      simp [Quorum.ofCopies, Quorum.watermark]⟩

/-! ### The effect of an action -/

/-- Nothing that counts: links go on or lose their connection, and at most a write is refused. -/
structure Plain (before after : Master L) : Prop where
  offset : after.offset = before.offset
  unannounced : after.unannounced = before.unannounced
  numbered : after.Numbered
  calm : before.Calm → after.Calm
  generation : before.generation ≤ after.generation
  quorum : after.quorum = before.quorum ∨
    ∃ reason, after.quorum = (before.quorum.refuse reason).1
  links : ∀ l' ∈ after.links, (∃ l ∈ before.links, l.Continues l') ∨
    (l'.isConnected = false ∧ l'.lastAck ≤ before.offset ∧ before.generation < l'.generation)

/-- The report of a replica is credited to the writes above what it is known to hold. That is nothing
on a connection that is new. -/
structure Reported (id : String) (offset : Nat) (before after : Master L) : Prop where
  within : offset ≤ before.offset
  ends : after.offset = before.offset
  unannounced : after.unannounced = before.unannounced
  numbered : after.Numbered
  calm : before.Calm → after.Calm
  generation : before.generation ≤ after.generation
  consistent : after.quorum.Consistent
  vouched : ∀ vouches, before.quorum.Vouched vouches →
    (∀ o ≤ offset, vouches (.replica id) o) → after.quorum.Vouched vouches
  watermark : ∀ s, after.quorum.watermark s =
    if s = .replica id then offset else before.quorum.watermark s
  others : ∀ l' ∈ after.links, l'.peer.id ≠ id → ∃ l ∈ before.links, l.Continues l'
  granted : ∃ known ≤ offset, Quorum.Grants (.replica id) (fun o => known < o ∧ o ≤ offset)
      before.quorum after.quorum ∧
    (known = 0 ∧ (∀ l' ∈ after.links, l'.peer.id = id →
        l'.lastAck = offset ∧ before.generation < l'.generation) ∨
      ∃ l ∈ before.links, l.peer.id = id ∧ l.isConnected ∧ l.lastAck = known ∧
        ∀ l' ∈ after.links, l'.peer.id = id →
          l'.lastAck = offset ∧ l'.generation = l.generation)

/-- An entry is in the log and not announced yet. -/
structure Stored (e : Entry) (before after : Master L) : Prop where
  free : before.unannounced = none
  next : e.offset = before.offset + 1
  state : ∃ log, LocalLog.highest log = e.offset ∧
    after = { before with log, unannounced := some e }

/-- The stored entry is announced. -/
structure Announced (e : Entry) (before after : Master L) : Prop where
  entry : before.unannounced = some e
  quiet : Quiet (· = e)
    { before with quorum := before.announcedQuorum e, unannounced := none } after

/-! ### Each effect keeps links and credits in step -/

/-- No write is added to those that wait, and none leaves them. -/
theorem Plain.pending (plain : Plain m m') : m'.quorum.pending = m.quorum.pending := by
  rcases plain.quorum with same | ⟨reason, refused⟩
  · rw [same]
  · rw [refused]; rfl

theorem Plain.keeps (plain : Plain m m') : m.quorum.Keeps m'.quorum := by
  rcases plain.quorum with same | ⟨reason, refused⟩
  · exact same ▸ .refl _
  · exact refused ▸ Quorum.keeps_refuse reason

theorem InStep.plain (inStep : m.InStep) (plain : Plain m m') : m'.InStep := by
  have tracked : m'.tracked = m.tracked := by
    simp [Master.tracked, plain.offset, plain.unannounced]
  have watermark (s : Source) : m'.quorum.watermark s = m.quorum.watermark s := by
    rcases plain.quorum with same | ⟨reason, refused⟩
    · rw [same]
    · rw [refused]; rfl
  refine ⟨plain.numbered, plain.calm inStep.calm, ?_, ?_, ?_, ?_, ?_, ?_⟩
  · intro l' member connected
    rw [watermark]
    rcases plain.links l' member with ⟨l, before, continues⟩ | ⟨gone, -⟩
    · rw [continues.id, continues.lastAck]
      exact inStep.agree l before (continues.connected connected)
    · rw [gone] at connected
      cases connected
  · intro l' member
    rw [plain.offset]
    rcases plain.links l' member with ⟨l, before, continues⟩ | ⟨-, within, -⟩
    · exact continues.lastAck ▸ inStep.within l before
    · exact within
  · rcases plain.quorum with same | ⟨reason, refused⟩
    · exact same ▸ inStep.consistent
    · exact refused ▸ Quorum.consistent_refuse inStep.consistent reason
  · rw [plain.unannounced, plain.offset]
    exact inStep.unannounced
  · rw [plain.pending, tracked]
    exact inStep.pending
  · rw [watermark, tracked]
    exact inStep.master

theorem InStep.reported {id : String} {offset : Nat} (inStep : m.InStep)
    (reported : Reported id offset m m') : m'.InStep := by
  have tracked : m'.tracked = m.tracked := by
    simp [Master.tracked, reported.ends, reported.unannounced]
  obtain ⟨known, -, grants, links⟩ := reported.granted
  have resumed : ∀ l' ∈ m'.links, l'.peer.id = id → l'.lastAck = offset := by
    intro l' member here
    rcases links with ⟨-, new⟩ | ⟨l, -, -, -, -, same⟩
    · exact (new l' member here).1
    · exact (same l' member here).1
  refine ⟨reported.numbered, reported.calm inStep.calm, ?_, ?_, reported.consistent, ?_, ?_, ?_⟩
  · intro l' member connected
    rw [reported.watermark]
    by_cases here : l'.peer.id = id
    · rw [if_pos (by rw [here]), resumed l' member here]
    · obtain ⟨l, before, continues⟩ := reported.others l' member here
      rw [if_neg (by simpa using here), continues.id, continues.lastAck]
      exact inStep.agree l before (continues.connected connected)
  · intro l' member
    rw [reported.ends]
    by_cases here : l'.peer.id = id
    · exact resumed l' member here ▸ reported.within
    · obtain ⟨l, before, continues⟩ := reported.others l' member here
      exact continues.lastAck ▸ inStep.within l before
  · rw [reported.unannounced, reported.ends]
    exact inStep.unannounced
  · intro v member
    obtain ⟨w, waited, offsets, -, sources⟩ := grants.waited v member
    obtain ⟨positive, low, own⟩ := inStep.pending w waited
    exact ⟨offsets ▸ positive, tracked ▸ offsets ▸ low, (sources _).mpr (.inl own)⟩
  · rw [reported.watermark, if_neg (by simp), tracked]
    exact inStep.master

theorem InStep.stored (inStep : m.InStep) (stored : Stored e m m') : m'.InStep := by
  obtain ⟨free, next, log, ends, rfl⟩ := stored
  have before : m.tracked = m.offset := by simp [Master.tracked, free]
  -- The log is longer by an entry that does not count as announced.
  have tracked : tracked { m with log, unannounced := some e } = m.tracked := by
    simp [Master.tracked, free, Master.offset, ends, next]
  have longer : m.offset ≤ LocalLog.highest log := by omega
  refine ⟨inStep.numbered.same rfl rfl rfl, inStep.calm, inStep.agree,
    fun l member => Nat.le_trans (inStep.within l member) longer, inStep.consistent, ?_, ?_, ?_⟩
  · intro x announced
    cases announced
    exact ⟨ends.symm, show 0 < LocalLog.highest log by omega⟩
  · rw [tracked]
    exact inStep.pending
  · rw [tracked]
    exact inStep.master

/-- The entry that is not announced is the one behind those that were. -/
theorem InStep.next (inStep : m.InStep) (entry : m.unannounced = some e) :
    e.offset = m.offset ∧ m.tracked + 1 = m.offset ∧ ∀ w ∈ m.quorum.pending, w.offset < e.offset := by
  obtain ⟨last, positive⟩ := inStep.unannounced e entry
  have tracked : m.tracked + 1 = m.offset := by
    simp only [Master.tracked, entry, Option.isSome_some, if_true]
    omega
  refine ⟨last, tracked, fun w waited => ?_⟩
  have low := (inStep.pending w waited).2.1
  omega

/-- What waits after an announcement waited before, or it is the new write with the master's own
credit. -/
theorem InStep.waited_of_announced (inStep : m.InStep) (entry : m.unannounced = some e)
    {v : PendingWrite} (member : v ∈ (m.announcedQuorum e).pending) :
    (∃ w ∈ m.quorum.pending, w.offset = v.offset ∧ w.cell = v.cell ∧
      (∀ s, s ∈ w.sources → s ∈ v.sources) ∧
      ∀ id, .replica id ∈ v.sources ↔ .replica id ∈ w.sources) ∨
    (v.offset = e.offset ∧ v.cell = m.quorum.board.size ∧ ∀ s, s ∈ v.sources ↔ s = .master) := by
  obtain ⟨last, tracked, below⟩ := inStep.next entry
  obtain ⟨w, waited, offsets, cells, sources⟩ := Quorum.credit_grants.waited v member
  rw [Quorum.track_of_last below] at waited sources
  rcases List.mem_append.mp waited with before | new
  · exact .inl ⟨w, before, offsets, cells, fun s counted => (sources s).mpr (.inl counted),
      fun id => by simp [sources]⟩
  · rw [List.mem_singleton.mp new] at offsets cells sources
    have known : m.quorum.watermark .master < v.offset := by
      have low := inStep.master
      simp only at offsets
      omega
    have reached : v.offset ≤ e.offset := Nat.le_of_eq offsets.symm
    refine .inr ⟨offsets.symm, cells.symm, fun s => ?_⟩
    rw [sources s]
    simp [reached]
    exact fun _ => known

theorem InStep.announced (inStep : m.InStep) (announced : Announced e m m') : m'.InStep := by
  obtain ⟨entry, quiet⟩ := announced
  obtain ⟨last, before, below⟩ := inStep.next entry
  have quorum : m'.quorum = m.announcedQuorum e := quiet.quorum
  have ends : m'.offset = m.offset := congrArg LocalLog.highest quiet.log
  have free : m'.unannounced = none := quiet.unannounced
  have tracked : m'.tracked = m.offset := by simp [Master.tracked, free, ends]
  refine ⟨?_, fun generation => quiet.listens (inStep.calm generation), ?_, ?_, ?_, ?_, ?_, ?_⟩
  · exact Numbered.kept (m := { m with quorum := m.announcedQuorum e, unannounced := none })
      (inStep.numbered.same rfl rfl rfl) quiet.toKept
  · intro l' member connected
    obtain ⟨l, held, continues⟩ := quiet.links l' member
    rw [quorum, announcedQuorum_watermark, if_neg (by simp), continues.id, continues.lastAck]
    exact inStep.agree l held (continues.connected connected)
  · intro l' member
    obtain ⟨l, held, continues⟩ := quiet.links l' member
    rw [ends, continues.lastAck]
    exact inStep.within l held
  · rw [quorum]
    exact Quorum.consistent_credit (Quorum.consistent_track inStep.consistent below)
  · simp [free]
  · intro v member
    rw [quorum] at member
    rcases inStep.waited_of_announced entry member with
      ⟨w, waited, offsets, -, sources, -⟩ | ⟨offset, -, sources⟩
    · obtain ⟨positive, low, own⟩ := inStep.pending w waited
      exact ⟨by omega, by omega, sources _ own⟩
    · exact ⟨by omega, by omega, (sources _).mpr rfl⟩
  · have low := inStep.master
    rw [quorum, announcedQuorum_watermark, if_pos rfl, tracked]
    omega

/-! ### Every action is one of these -/

/-- What an action can do, with what it leaves behind in the record of the run. -/
inductive Turn (m : Master L) : Action L → Prop
  | plain {a : Action L} (plain : Plain m (m.act a)) (silent : m.overtaken a = [])
      (unwritten : m.written? a = none)
      (known : ∀ id offset, m.report? a = some (id, offset) → ∃ l ∈ m.links,
        l.peer.id = id ∧ l.isConnected ∧ offset ≤ l.lastAck) : Turn m a
  | reported {a : Action L} {id : String} {offset : Nat}
      (reported : Reported id offset m (m.act a)) (silent : m.overtaken a = [])
      (unwritten : m.written? a = none) (report : m.report? a = some (id, offset)) : Turn m a
  | stored {payload : Bytes} {metadata : Option Bytes} {e : Entry}
      (stored : Stored e m (m.act (.store payload metadata))) :
      Turn m (.store payload metadata)
  | announced {e : Entry} (announced : Announced e m (m.act .announce))
      (written : m.written? .announce = some (m.quorum.board.size, e)) : Turn m .announce
  | appended {payload : Bytes} {metadata : Option Bytes} {e : Entry} {mid : Master L}
      (stored : Stored e m mid)
      (announced : Announced e mid (m.act (.append payload metadata)))
      (written : m.written? (.append payload metadata) = some (m.quorum.board.size, e)) :
      Turn m (.append payload metadata)

/-- What is quiet but for a log with the same end is nothing that counts. -/
theorem plain_of_quiet {given : Entry → Prop} {log : L} (numbered : m.Numbered)
    (ends : LocalLog.highest log = m.offset) (quiet : Quiet given { m with log } m') :
    Plain m m' where
  offset := (congrArg LocalLog.highest quiet.log).trans ends
  unannounced := quiet.unannounced
  numbered := Numbered.kept (m := { m with log }) (numbered.same rfl rfl rfl) quiet.toKept
  calm calm generation := quiet.listens (calm generation)
  generation := quiet.generation
  quorum := .inl quiet.quorum
  links l' member := .inl (quiet.links l' member)

/-- A write that the log did not take is nothing that counts. -/
theorem plain_of_refused {log : L} {reason : String} (numbered : m.Numbered)
    (ends : LocalLog.highest log = m.offset)
    (quiet : Silent { m with log, quorum := (m.quorum.refuse reason).1 } m') : Plain m m' where
  offset := (congrArg LocalLog.highest quiet.log).trans ends
  unannounced := quiet.unannounced
  numbered := Numbered.kept (m := { m with log, quorum := (m.quorum.refuse reason).1 })
    (numbered.same rfl rfl rfl) quiet.toKept
  calm calm generation := quiet.listens (calm generation)
  generation := quiet.generation
  quorum := .inr ⟨reason, quiet.quorum⟩
  links l' member := .inl (quiet.links l' member)

/-- A replica whose welcome did not reach it leaves a link without connection. -/
theorem plain_of_accepted {id : String} {held : Nat} (within : held ≤ m.offset)
    (accepted : Accepted false id held m m') : Plain m m' where
  offset := congrArg LocalLog.highest accepted.log
  unannounced := accepted.unannounced
  numbered := accepted.numbered
  calm := accepted.calm
  generation := Nat.le_of_lt accepted.generation
  quorum := .inl (by simpa using accepted.quorum)
  links l' member := by
    rcases accepted.links l' member with ⟨-, newer, resume, gone⟩ | ⟨-, continues⟩
    · exact .inr ⟨by simpa using gone, resume ▸ within, newer⟩
    · exact .inl continues

theorem reported_of_accepted {id : String} {held : Nat} (consistent : m.quorum.Consistent)
    (within : held ≤ m.offset) (accepted : Accepted true id held m m') : Reported id held m m' where
  within := within
  ends := congrArg LocalLog.highest accepted.log
  unannounced := accepted.unannounced
  numbered := accepted.numbered
  calm := accepted.calm
  generation := Nat.le_of_lt accepted.generation
  consistent := by
    rw [accepted.quorum]
    exact Quorum.consistent_rebase consistent
  vouched vouches vouched granted := by
    rw [accepted.quorum]
    exact Quorum.vouched_rebase consistent vouched granted
  watermark s := by
    rw [accepted.quorum]
    exact Quorum.watermark_rebase ..
  others l' member other := by
    rcases accepted.links l' member with ⟨here, -⟩ | ⟨-, continues⟩
    · exact absurd here other
    · exact continues
  granted := by
    refine ⟨0, Nat.zero_le _, ?_, .inl ⟨rfl, fun l' member here => ?_⟩⟩
    · rw [accepted.quorum]
      exact Quorum.rebase_grants
    · rcases accepted.links l' member with ⟨-, newer, resume, -⟩ | ⟨other, -⟩
      · exact ⟨resume, newer⟩
      · exact absurd here other

omit [LocalLog L] in
/-- After news from a replica its link knows the offset, and the other links go on. -/
private theorem links_of_credit {id : String} {offset : Nat} {l : Link} {q : Quorum}
    (numbered : m.Numbered) (held : l ∈ m.links) (here : l.peer.id = id) (accepts : l.accepts offset)
    (quiet : Silent { m.onLink id (Link.recordAck offset) with quorum := q } m') :
    ∀ l' ∈ m'.links, (l'.peer.id = id ∧ l'.lastAck = offset ∧ l'.generation = l.generation) ∨
      (l'.peer.id ≠ id ∧ ∃ l ∈ m.links, l.Continues l') := by
  intro l' member
  obtain ⟨l₁, touched, continues⟩ := quiet.links l' member
  obtain ⟨l₀, before, rfl⟩ := List.mem_map.mp touched
  split at continues
  · rename_i named
    have same : l₀ = l := numbered.link_unique before held (named.trans here.symm)
    rw [same, Link.recordAck, if_pos accepts] at continues
    exact .inl ⟨continues.id.trans here, continues.lastAck, continues.generation⟩
  · rename_i other
    exact .inr ⟨continues.id ▸ other, l₀, before, continues⟩

/-- News on a connected link is credited above what the link knows. -/
theorem reported_of_credit {id : String} {offset : Nat} {l : Link}
    (inStep : m.InStep) (held : l ∈ m.links) (here : l.peer.id = id) (connected : l.isConnected)
    (news : l.lastAck < offset) (within : offset ≤ m.offset)
    (quiet : Silent { m.onLink id (Link.recordAck offset) with
      quorum := (m.quorum.credit offset (.replica id)).1 } m') : Reported id offset m m' := by
  have known : m.quorum.watermark (.replica id) = l.lastAck := here ▸ inStep.agree l held connected
  have accepts : l.accepts offset := by simp [Link.accepts, connected, news]
  have recorded := links_of_credit inStep.numbered held here accepts quiet
  have ended : ∀ l' ∈ m'.links, l'.peer.id = id →
      l'.lastAck = offset ∧ l'.generation = l.generation := by
    intro l' member named
    rcases recorded l' member with ⟨-, facts⟩ | ⟨other, -⟩
    · exact facts
    · exact absurd named other
  have quorum : m'.quorum = (m.quorum.credit offset (.replica id)).1 := quiet.quorum
  refine ⟨within, congrArg LocalLog.highest quiet.log, quiet.unannounced, ?_,
    fun calm generation => quiet.listens (calm generation), quiet.generation, ?_, ?_, ?_, ?_, ?_⟩
  · have placed : (m.onLink id (Link.recordAck offset)).Numbered :=
      numbered_onLink inStep.numbered id (Link.recordAck_same offset)
    exact Numbered.kept (m := { m.onLink id (Link.recordAck offset) with
      quorum := (m.quorum.credit offset (.replica id)).1 })
      ⟨placed.ids, placed.generations, placed.links, placed.sessions⟩ quiet.toKept
  · rw [quorum]
    exact Quorum.consistent_credit inStep.consistent
  · intro vouches vouched granted
    rw [quorum]
    exact Quorum.vouched_credit inStep.consistent vouched granted
  · intro s
    rw [quorum, Quorum.watermark_credit, known, Nat.max_eq_right (Nat.le_of_lt news)]
  · intro l' member other
    rcases recorded l' member with ⟨named, -⟩ | ⟨-, continues⟩
    · exact absurd named other
    · exact continues
  · refine ⟨l.lastAck, Nat.le_of_lt news, ?_, .inr ⟨l, held, here, connected, rfl, ended⟩⟩
    rw [quorum, ← known]
    exact Quorum.credit_grants

theorem plain_refl (numbered : m.Numbered) : Plain m m :=
  plain_of_quiet numbered rfl (.refl m : Silent m m)

/-- What counts as a report comes from a replica with a connected link. -/
theorem heard_of_some {id : String} {offset : Nat} {report : String × Nat}
    (heard : m.heard? id offset = some report) :
    report = (id, offset) ∧ offset ≤ m.offset ∧
      ∃ l ∈ m.links, l.peer.id = id ∧ l.isConnected := by
  unfold heard? at heard
  split at heard
  · rename_i counts
    cases heard
    cases found : m.link? id with
    | none => simp [found] at counts
    | some l =>
      obtain ⟨held, here⟩ := link_of_find found
      exact ⟨rfl, counts.1, l, held, here, by simpa [found] using counts.2⟩
  · cases heard

/-- A report is credited, or the link knew as much. -/
theorem acknowledge_turn (inStep : m.InStep) (id : String) (offset : Nat) :
    (Plain m (m.acknowledge id offset) ∧ ∀ id' offset',
      m.heard? id offset = some (id', offset') → ∃ l ∈ m.links,
        l.peer.id = id' ∧ l.isConnected ∧ offset' ≤ l.lastAck) ∨
    (Reported id offset m (m.acknowledge id offset) ∧ m.heard? id offset = some (id, offset)) := by
  rcases acknowledge_cases m inStep.numbered id offset with
    ⟨quiet, old⟩ | ⟨l, held, here, connected, news, within, quiet⟩
  · refine .inl ⟨plain_of_quiet inStep.numbered rfl quiet, fun id' offset' heard => ?_⟩
    obtain ⟨same, within, l, held, here, connected⟩ := heard_of_some heard
    cases same
    exact ⟨l, held, here, connected, old l held here connected within⟩
  · refine .inr ⟨reported_of_credit inStep held here connected news within quiet, ?_⟩
    rw [heard?, if_pos]
    rw [← here, inStep.numbered.find_link held]
    exact ⟨within, connected⟩

theorem announce_turn (inStep : m.InStep) : Turn m .announce := by
  rcases announce_cases m with ⟨none, same⟩ | ⟨e, entry, number, quiet⟩
  · refine .plain ?_ (by simp [overtaken, none]) (by simp [written?, none]) (by simp [report?])
    rw [act, same]
    exact plain_refl inStep.numbered
  · exact .announced ⟨entry, quiet⟩ (by simp [written?, entry, number])

theorem accept_turn (inStep : m.InStep) (address : SocketAddress) (first : Except Fault Message)
    (reached : Bool) : Turn m (.accept address first reached) := by
  rcases accept_cases m inStep.numbered address first reached with ⟨rejected, quiet⟩ |
    ⟨h, welcomed, rfl, told, within, accepted⟩
  · refine .plain (plain_of_quiet inStep.numbered rfl quiet) rfl rfl ?_
    intro id offset report
    cases first with
    | error _ => simp [report?] at report
    | ok message =>
      cases message with
      | hello h => simp [report?, rejected] at report
      | _ => simp [report?] at report
  · cases welcomed with
    | false =>
      exact .plain (plain_of_accepted within accepted) rfl rfl (by simp [report?, told])
    | true =>
      exact .reported (reported_of_accepted inStep.consistent within accepted) rfl rfl
        (by simp [report?, told])

theorem receive_turn (inStep : m.InStep) (generation : Nat) (message : Message) :
    Turn m (.receive generation message) := by
  rcases receive_cases m generation message with
    ⟨s, -, offset, found, listening, rfl, same⟩ | ⟨deaf, quiet⟩
  · have report : m.report? (.receive generation (.ack offset)) = m.heard? s.replicaId offset := by
      simp [report?, found, listening]
    rcases acknowledge_turn inStep s.replicaId offset with ⟨plain, known⟩ | ⟨reported, heard⟩
    · refine .plain ?_ rfl rfl (by rw [report]; exact known)
      rw [act, same]
      exact plain
    · refine .reported ?_ rfl rfl (report.trans heard)
      rw [act, same]
      exact reported
  · refine .plain (plain_of_quiet inStep.numbered rfl quiet) rfl rfl ?_
    intro id offset report
    cases message with
    | ack offset =>
      cases found : m.session? generation with
      | none => simp [report?, found] at report
      | some s =>
        simp only [report?, found] at report
        split at report
        · rename_i listening
          exact absurd rfl (deaf s offset found listening)
        · cases report
    | _ => simp [report?] at report

variable [NumberedLog L]

/-- A write that is refused by the store step is nothing that counts. -/
private theorem refused_turn (numbered : m.Numbered) {payload : Bytes} {metadata : Option Bytes}
    {log : L} {reason : String} (kept : log = m.log ∨ ∃ fault,
      LocalLog.append m.log payload metadata = (log, .error fault))
    (quiet : Silent { m with log, quorum := (m.quorum.refuse reason).1 } m') :
    Plain m m' := by
  refine plain_of_refused numbered ?_ quiet
  rcases kept with rfl | ⟨fault, failed⟩
  · rfl
  · exact NumberedLog.append_fails_in_place failed

/-- A write that the log takes is stored. -/
private theorem stored_turn {payload : Bytes} {metadata : Option Bytes} {log : L} {offset : Nat}
    (free : m.unannounced = none)
    (stored : LocalLog.append m.log payload metadata = (log, .ok offset)) :
    Stored ⟨offset, payload, metadata⟩ m
      { m with log, unannounced := some ⟨offset, payload, metadata⟩ } := by
  obtain ⟨next, ends⟩ := NumberedLog.append_takes_next stored
  exact ⟨free, next, log, ends, rfl⟩

theorem store_turn (inStep : m.InStep) (payload : Bytes) (metadata : Option Bytes) :
    Turn m (.store payload metadata) := by
  rcases store_cases m payload metadata with ⟨-, same⟩ | ⟨reason, log, kept, -, quiet⟩ |
    ⟨log, offset, free, taken, same⟩
  · refine .plain ?_ rfl rfl (by simp [report?])
    rw [act, same]
    exact plain_refl inStep.numbered
  · exact .plain (refused_turn inStep.numbered kept quiet) rfl rfl (by simp [report?])
  · refine .stored (e := ⟨offset, payload, metadata⟩) ?_
    rw [act, same]
    exact stored_turn free taken

theorem append_turn (inStep : m.InStep) (payload : Bytes) (metadata : Option Bytes) :
    Turn m (.append payload metadata) := by
  have within : ∀ w ∈ m.quorum.pending, w.offset ≤ m.offset := fun w waited =>
    Nat.le_trans (inStep.pending w waited).2.1 m.tracked_le
  rcases append_outcome m within payload metadata with ⟨unwritten, same⟩ |
    ⟨reason, log, kept, unwritten, quiet⟩ | ⟨log, offset, free, taken, written, quiet⟩
  · refine .plain ?_ rfl unwritten (by simp [report?])
    rw [act, same]
    exact plain_refl inStep.numbered
  · exact .plain (refused_turn inStep.numbered kept quiet) rfl unwritten (by simp [report?])
  · exact .appended (stored_turn free taken) ⟨rfl, quiet⟩ written

/-- Every action between the actions of a run does one of the five things. -/
theorem turn (inStep : m.InStep) (a : Action L) : Turn m a := by
  have quietly {m' : Master L} (quiet : Silent m m') : Plain m m' :=
    plain_of_quiet inStep.numbered rfl quiet
  cases a with
  | append payload metadata => exact append_turn inStep payload metadata
  | store payload metadata => exact store_turn inStep payload metadata
  | announce => exact announce_turn inStep
  | accept address first reached => exact accept_turn inStep address first reached
  | advance generation =>
    have quiet := (quiet_advance m (inStep.calm generation)).1
    exact .plain (plain_of_quiet inStep.numbered rfl quiet) rfl rfl (by simp [report?])
  | receive generation message => exact receive_turn inStep generation message
  | acknowledge id offset =>
    rcases acknowledge_turn inStep id offset with ⟨plain, known⟩ | ⟨reported, heard⟩
    · exact .plain plain rfl rfl known
    · exact .reported reported rfl rfl heard
  | disconnect id =>
    exact .plain (quietly (quiet_closeLink m id none)) rfl rfl (by simp [report?])
  | endSession generation fault =>
    exact .plain (quietly (quiet_endSession m generation fault)) rfl rfl (by simp [report?])
  | start bind => exact .plain (quietly (quiet_start m bind)) rfl rfl (by simp [report?])
  | stop => exact .plain (quietly (quiet_stop m)) rfl rfl (by simp [report?])
  | disturb log =>
    refine .plain ?_ rfl rfl (by simp [report?])
    simp only [act]
    split
    · rename_i same
      exact plain_of_quiet inStep.numbered same (.refl _ : Silent { m with log } _)
    · exact plain_refl inStep.numbered

/-- Links and credits stay in step. -/
theorem InStep.act (inStep : m.InStep) (a : Action L) : (m.act a).InStep := by
  cases turn inStep a with
  | plain plain => exact inStep.plain plain
  | reported reported => exact inStep.reported reported
  | stored stored => exact inStep.stored stored
  | announced announced => exact inStep.announced announced
  | appended stored announced => exact (inStep.stored stored).announced announced

theorem InStep.run (inStep : m.InStep) (actions : List (Action L)) : (m.run actions).InStep := by
  induction actions generalizing m with
  | nil => exact inStep
  | cons a later ih => exact ih (inStep.act a)

end QuorumLog.Master
