import QuorumLog.Proofs.Turns
import QuorumLog.Replica.Session

/-! What a master learns of the history of a replica that says hello. Only the last entries are
compared, by their checksums. If these are the same, the replica is credited with every pending write
up to there, so its copies of older entries are copies only if its older history is the master's
too. -/

namespace QuorumLog

namespace LawfulLog

variable {L : Type} [LocalLog L] [LawfulLog L] {log : L} {e : Entry}

/-- An entry of a log stands as far behind the oldest one as its offset says. -/
theorem place_of_mem (sound : Sound log) (held : e ∈ entries log) :
    LocalLog.oldest log ≤ e.offset ∧ (entries log)[e.offset - LocalLog.oldest log]? = some e :=
  place_of_numbered (entries_numbered sound) held

/-- Two entries of a log at one offset are one. -/
theorem eq_of_offset (sound : Sound log) (held : e ∈ entries log) {x : Entry}
    (other : x ∈ entries log) (same : x.offset = e.offset) : x = e := by
  have place := (place_of_mem sound held).2
  have place' := (place_of_mem sound other).2
  rw [same, place] at place'
  exact (Option.some.inj place').symm

/-- Every offset from the oldest to the highest has its entry. -/
theorem exists_of_offset (sound : Sound log) {offset : Nat} (old : LocalLog.oldest log ≤ offset)
    (reached : offset ≤ LocalLog.highest log) : ∃ e ∈ entries log, e.offset = offset := by
  have span := entries_span sound
  have member : offset ∈ (entries log).map Entry.offset := by
    rw [entries_numbered sound, List.mem_range'_1]
    omega
  simpa using member

/-- An entry ends where the log ends, or before that. -/
theorem offset_le (sound : Sound log) (held : e ∈ entries log) : e.offset ≤ LocalLog.highest log := by
  have span := entries_span sound
  have member := List.mem_map_of_mem (f := Entry.offset) held
  rw [entries_numbered sound, List.mem_range'_1] at member
  omega

/-- The checksum at the offset of an entry is the one of that entry. -/
theorem checksumAt_of_mem (sound : Sound log) (held : e ∈ entries log) {sum : Option UInt32}
    (told : LocalLog.checksumAt log e.offset = .ok sum) : sum = some e.checksum := by
  unfold LocalLog.checksumAt at told
  cases read : LocalLog.read log e.offset 1 with
  | error fault => rw [read] at told; cases told
  | ok found =>
    rw [read] at told
    have one : found = [e] := by
      rw [read_gives sound read, filter_numbered e.offset _ _ (entries_numbered sound),
        List.take_one, List.head?_drop, (place_of_mem sound held).2, Option.toList_some]
    rw [← Except.ok.inj told, one]
    simp

end LawfulLog

section Compared

variable {K L : Type} [LocalLog K] [LawfulLog K] [LocalLog L] [LawfulLog L]
variable {mine : K} {theirs : L} {r : Replica L} {h : Hello} {offset : Nat}

/-- Two logs have the same entry at an offset, if both retain it. -/
def SameAt (mine : K) (theirs : L) (offset : Nat) : Prop :=
  ∀ e ∈ LawfulLog.entries mine, ∀ e' ∈ LawfulLog.entries theirs,
    e.offset = offset → e'.offset = offset → e = e'

/-- The entries of two logs at an offset are one if they have one checksum. -/
def SumTells (mine : K) (theirs : L) (offset : Nat) : Prop :=
  ∀ e ∈ LawfulLog.entries mine, ∀ e' ∈ LawfulLog.entries theirs,
    e.offset = offset → e'.offset = offset → e.checksum = e'.checksum → e = e'

/-- A replica says where its log ends, and the checksum of the last entry if it retains that. -/
theorem Replica.hello_told (sound : LawfulLog.Sound r.log) (said : r.hello = .ok h) :
    h.lastOffset = LocalLog.highest r.log ∧ ∀ e ∈ LawfulLog.entries r.log,
      e.offset = h.lastOffset → 1 ≤ h.lastOffset → h.lastChecksum = e.checksum := by
  unfold hello at said
  dsimp only at said
  split at said
  · rename_i empty
    cases said
    refine ⟨rfl, fun e _ _ some => ?_⟩
    dsimp only at some
    omega
  · cases told : LocalLog.checksumAt r.log r.offset with
    | error fault => rw [told] at said; cases said
    | ok sum =>
      rw [told] at said
      cases said
      refine ⟨rfl, fun e held last _ => ?_⟩
      rw [← show e.offset = r.offset from last] at told
      rw [LawfulLog.checksumAt_of_mem sound held told]
      rfl

/-- A history that is accepted reaches from the master's oldest entry at most to its last, and its
last entry has the checksum of the master's. -/
theorem Master.checkHistory_told (sound : LawfulLog.Sound mine)
    (passed : Master.checkHistory mine h = .ok ()) :
    LocalLog.oldest mine ≤ h.lastOffset + 1 ∧ h.lastOffset ≤ LocalLog.highest mine ∧
      ∀ e ∈ LawfulLog.entries mine, e.offset = h.lastOffset → 1 ≤ h.lastOffset →
        e.checksum = h.lastChecksum := by
  have agrees : Master.diverges mine h = .ok false := by
    unfold Master.checkHistory at passed
    split at passed
    · cases passed
    · cases passed
    · assumption
  unfold Master.diverges at agrees
  split at agrees
  · cases agrees
  rename_i within
  refine ⟨by omega, by omega, fun e held last some => ?_⟩
  unfold Master.historyDiffers at agrees
  rw [if_neg (by omega)] at agrees
  cases told : LocalLog.checksumAt mine h.lastOffset with
  | error fault => rw [told] at agrees; cases agrees
  | ok ours =>
    rw [told] at agrees
    rw [← last] at told
    rw [LawfulLog.checksumAt_of_mem sound held told] at agrees
    simpa [Except.map] using agrees

/-- What is known of two logs when the hello about one of them passes the check against the other. -/
structure Compared (mine : K) (theirs : L) (h : Hello) : Prop where
  /-- The last entry of the replica lies within the master's log, or right before it. -/
  within : LocalLog.oldest mine ≤ h.lastOffset + 1 ∧ h.lastOffset ≤ LocalLog.highest mine
  reported : h.lastOffset = LocalLog.highest theirs
  /-- The entries at the reported offset are the same. -/
  last : 1 ≤ h.lastOffset → SameAt mine theirs h.lastOffset
  /-- All entries are the same if the older ones are. -/
  all : (∀ offset, 1 ≤ offset → offset < h.lastOffset → SameAt mine theirs offset) →
    ∀ offset, 1 ≤ offset → SameAt mine theirs offset

theorem compared_of_hello (sound : LawfulLog.Sound mine) (sound' : LawfulLog.Sound r.log)
    (said : r.hello = .ok h) (passed : Master.checkHistory mine h = .ok ())
    (tells : SumTells mine r.log h.lastOffset) : Compared mine r.log h := by
  obtain ⟨old, reached, sum⟩ := Master.checkHistory_told sound passed
  obtain ⟨reported, sum'⟩ := Replica.hello_told sound' said
  have last : 1 ≤ h.lastOffset → SameAt mine r.log h.lastOffset := by
    intro some e held e' held' here here'
    refine tells e held e' held' here here' ?_
    rw [sum e held here some, sum' e' held' here' some]
  refine ⟨⟨old, reached⟩, reported, last, fun older offset some => ?_⟩
  rcases Nat.lt_trichotomy offset h.lastOffset with below | rfl | above
  · exact older offset some below
  · exact last some
  · intro e _ e' held' _ here'
    have ends := LawfulLog.offset_le sound' held'
    omega

/-- A log that retains an offset and has there what the other has holds a copy of it. -/
theorem copy_of_same (sound : LawfulLog.Sound theirs) (same : SameAt mine theirs offset)
    (old : LocalLog.oldest theirs ≤ offset) (reached : offset ≤ LocalLog.highest theirs) :
    ∀ e ∈ LawfulLog.entries mine, e.offset = offset → e ∈ LawfulLog.entries theirs := by
  intro e held here
  obtain ⟨e', held', here'⟩ := LawfulLog.exists_of_offset sound old reached
  rw [same e held e' held' here here']
  exact held'

end Compared

/-! ### The credit for it -/

namespace Quorum

variable {q : Quorum} {source : Source} {offset : Nat}

/-- What the word of a source does to the writes that wait: those up to an offset count it from now
on or are durable, and the others stay as they are. -/
structure CreditedUpTo (source : Source) (offset : Nat) (before after : Quorum) : Prop where
  counted : ∀ w ∈ before.pending, w.offset ≤ offset →
    (∃ v ∈ after.pending, v.offset = w.offset ∧ v.cell = w.cell ∧ source ∈ v.sources) ∨
      ∃ c, after.board.cells[w.cell]? = some c ∧ c.state = .durable
  others : ∀ w ∈ before.pending, offset < w.offset → w ∈ after.pending

theorem creditedUpTo_rebase (consistent : q.Consistent)
    (positive : ∀ w ∈ q.pending, 0 < w.offset) :
    CreditedUpTo source offset q (q.rebase source offset).1 := by
  constructor
  · intro w held low
    have start := positive w held
    by_cases done : (q.setWatermark source offset).completes 1 offset source w
    · refine .inr ?_
      have opened := consistent.opened w held
      refine ⟨(Cell.opened (some w.offset)).fulfilled, ?_, rfl⟩
      refine (cells_creditRange w.cell).trans ((if_pos ?_).trans ?_)
      · exact List.mem_map.mpr ⟨w, List.mem_filter.mpr ⟨held, done⟩, rfl⟩
      · exact congrArg (Option.map Cell.fulfilled) opened
    · refine .inl ⟨w.creditWithin 1 offset source, mem_creditRange.mpr ⟨w, held, ?_, rfl⟩, ?_, ?_, ?_⟩
      · simpa using done
      · simp
      · simp
      · rw [PendingWrite.mem_creditWithin]
        exact .inr ⟨rfl, start, low⟩
  · intro w held high
    refine mem_creditRange.mpr ⟨w, held, ?_, ?_⟩
    · simp [completes]
      omega
    · unfold PendingWrite.creditWithin
      rw [if_neg (by omega)]

end Quorum

namespace Master

variable {K L : Type} [LocalLog K] [LawfulLog K] [LocalLog L] [LawfulLog L]
variable {settings : Settings} {log : K} {m : Master K} {r : Replica L} {h : Hello}

/-- What the word of a replica that passed the check is worth. -/
structure Trusted (m : Master K) (theirs : L) (h : Hello) : Prop where
  compared : Compared m.log theirs h
  /-- A pending write that counts the replica is copied there if the entries at its offset are the
  same, which they are at the reported offset itself. -/
  copied : ∀ w ∈ m.quorum.pending, w.offset ≤ h.lastOffset →
    w.offset = h.lastOffset ∨ SameAt m.log theirs w.offset → LocalLog.oldest theirs ≤ w.offset →
      ∀ e ∈ LawfulLog.entries m.log, e.offset = w.offset → e ∈ LawfulLog.entries theirs
  /-- Accepting the replica credits it with every pending write up to the reported offset, and with
  no other. -/
  credited : ∀ address, (m.accept address (.ok (.hello h)) true).2 = true →
    Quorum.CreditedUpTo (.replica h.replicaId) h.lastOffset m.quorum
      (m.accept address (.ok (.hello h)) true).1.quorum

/-- If the hello of a replica passes the check of the master, the two logs have the same entry at the
reported offset, and what is older was not compared: all entries are the same if the older ones are.
The credit that follows is for copies as far as that goes. -/
theorem trusted_of_hello (created : create settings log = .ok m) (actions : List (Action K))
    (sound : LawfulLog.Sound (m.run actions).log) (sound' : LawfulLog.Sound r.log)
    (said : r.hello = .ok h) (passed : checkHistory (m.run actions).log h = .ok ())
    (tells : SumTells (m.run actions).log r.log h.lastOffset) :
    (m.run actions).Trusted r.log h := by
  have inStep := (inStep_of_create created).run actions
  have positive : ∀ w ∈ (m.run actions).quorum.pending, 0 < w.offset :=
    fun w held => (inStep.pending w held).1
  have compared := compared_of_hello sound sound' said passed tells
  constructor
  case compared => exact compared
  case copied =>
    intro w held low same old
    have start := positive w held
    have reached : w.offset ≤ LocalLog.highest r.log := compared.reported ▸ low
    refine copy_of_same sound' ?_ old reached
    rcases same with last | same
    · rw [last] at start ⊢
      exact compared.last start
    · exact same
  case credited =>
    intro address accepted
    rcases accept_cases (m.run actions) inStep.numbered address (.ok (.hello h)) true with
      ⟨refused, -⟩ | ⟨h', welcomed, same, result, -, taken⟩
    · rw [refused] at accepted
      cases accepted
    · cases same
      rw [accepted] at result
      subst result
      rw [taken.quorum]
      exact Quorum.creditedUpTo_rebase inStep.consistent positive

/-! ### A replica that returns, and one with a foreign entry -/

/-- A replica over a log in memory. -/
def visitor (entries : List Entry) : Replica VolatileLog where
  settings := Settings.replica "visitor" Settings.defaultBind
  log := { entries, highest := entries.length }

/-- Two writes wait for a second copy. -/
def twoWrites : List (Action VolatileLog) := [.append [97] none, .append [99] none]

/-- The hello of the replica with the last entry of the master. -/
def visit (last : Entry) : Hello where
  replicaId := "visitor"
  token := ""
  lastOffset := last.offset
  lastChecksum := last.checksum
  version := Message.version

/-- The two writes of the master, and what a log holds that has them. -/
theorem twoWrites_log : ((small 2).run twoWrites).log =
    { entries := [⟨1, [97], none⟩, ⟨2, [99], none⟩], highest := 2 } := by
  decide +kernel

/-- A replica that has both entries of the master is trusted. -/
theorem trusted_copy : ((small 2).run twoWrites).Trusted
    (visitor [⟨1, [97], none⟩, ⟨2, [99], none⟩]).log (visit ⟨2, [99], none⟩) := by
  have created : create (smallSettings 2) ({} : VolatileLog) = .ok (small 2) := rfl
  have sound : LawfulLog.Sound (visitor [⟨1, [97], none⟩, ⟨2, [99], none⟩]).log := ⟨rfl, rfl⟩
  refine trusted_of_hello created twoWrites ?_ sound (by decide +kernel) (by decide +kernel) ?_
  · rw [twoWrites_log]
    exact sound
  · rw [twoWrites_log]
    intro e held e' held' here here' _
    exact LawfulLog.eq_of_offset sound held' held (here.trans here'.symm)

/-- A replica whose first entry is another one passes the check, and then the write of the master's
first entry is durable as if the replica had a copy of it. -/
theorem foreign_entry_passes :
    LawfulLog.Sound ((small 2).run twoWrites).log ∧
    LawfulLog.Sound (visitor [⟨1, [98], none⟩, ⟨2, [99], none⟩]).log ∧
    (visitor [⟨1, [98], none⟩, ⟨2, [99], none⟩]).hello = .ok (visit ⟨2, [99], none⟩) ∧
    checkHistory ((small 2).run twoWrites).log (visit ⟨2, [99], none⟩) = .ok () ∧
    SumTells ((small 2).run twoWrites).log (visitor [⟨1, [98], none⟩, ⟨2, [99], none⟩]).log 2 ∧
    ¬SameAt ((small 2).run twoWrites).log (visitor [⟨1, [98], none⟩, ⟨2, [99], none⟩]).log 1 ∧
    (((small 2).run twoWrites).quorum.board.cells[0]?).map (·.state) = some .pending ∧
    (((((small 2).run twoWrites).accept Settings.defaultBind (.ok (.hello (visit ⟨2, [99], none⟩)))
      true).1.quorum.board.cells[0]?).map (·.state)) = some .durable := by
  rw [twoWrites_log]
  refine ⟨⟨rfl, rfl⟩, ⟨rfl, rfl⟩, by decide +kernel, by decide +kernel, ?_, ?_, by decide +kernel,
    by decide +kernel⟩
  · intro e held e' held' here here'
    simp only [LawfulLog.entries, visitor, List.mem_cons, List.not_mem_nil, or_false] at held held'
    rcases held with rfl | rfl <;> rcases held' with rfl | rfl <;> simp_all
  · intro same
    have foreign := same ⟨1, [97], none⟩ List.mem_cons_self ⟨1, [98], none⟩ List.mem_cons_self rfl rfl
    cases foreign

end Master

end QuorumLog
