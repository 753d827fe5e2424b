import Mathlib.Algebra.Group.Nat.Defs
import Mathlib.Data.List.Induction
import QuorumLog.Log.Volatile
import QuorumLog.Proofs.ReplicaSteps
import QuorumLog.Proofs.SettingLimits
import QuorumLog.Rehearsal.Supervision

/-! How a replica goes from one attempt to the next. Only a stop and a fatal fault end its attempts; every
other end of an attempt is followed by a wait and another attempt. A wait is twice the one before, within
a bound, and only an operator who cuts a connection makes the waits start anew. A master that welcomed the
replica does not, since no session ends without a fault but by the operator. -/

namespace QuorumLog

variable {L : Type}

namespace Replica

variable {r r' r'' : Replica L}

/-- Two states of a replica between which it went on with the same attempts. -/
structure Steady (before after : Replica L) : Prop where
  settings : after.settings = before.settings
  delay : after.delay = before.delay
  running : after.running = before.running
  stopped : after.stopped = before.stopped
  reconnects : after.tally.reconnects = before.tally.reconnects

theorem Steady.refl (r : Replica L) : Steady r r := ⟨rfl, rfl, rfl, rfl, rfl⟩

theorem Steady.trans (one : Steady r r') (other : Steady r' r'') : Steady r r'' where
  settings := other.settings.trans one.settings
  delay := other.delay.trans one.delay
  running := other.running.trans one.running
  stopped := other.stopped.trans one.stopped
  reconnects := other.reconnects.trans one.reconnects

theorem dial_steady (r : Replica L) : Steady r r.dial.1 := by
  unfold dial
  split <;> exact ⟨rfl, rfl, rfl, rfl, rfl⟩

theorem welcome_steady (r : Replica L) (held : Nat) (reply : Except Fault Message) :
    Steady r (r.welcome held reply).1 := by
  unfold welcome
  split
  · exact .refl r
  · split <;> exact ⟨rfl, rfl, rfl, rfl, rfl⟩
  · exact .refl r
  · exact .refl r

variable [LocalLog L]

theorem apply_steady (r : Replica L) (e : Entry) : Steady r (r.apply e).1 := by
  unfold apply
  dsimp only
  split
  · exact ⟨rfl, rfl, rfl, rfl, rfl⟩
  · split
    · exact ⟨rfl, rfl, rfl, rfl, rfl⟩
    · split <;> exact ⟨rfl, rfl, rfl, rfl, rfl⟩

theorem receive_steady (r : Replica L) (message : Message) : Steady r (r.receive message).1 := by
  unfold receive
  split
  · rename_i e
    have steady := apply_steady r e
    split <;> rename_i applied <;> rw [applied] at steady
    · exact steady
    · exact steady.trans ⟨rfl, rfl, rfl, rfl, rfl⟩
  all_goals exact ⟨rfl, rfl, rfl, rfl, rfl⟩

end Replica

/-! ### A connection ends by a fault or by the operator -/

namespace Channel

variable {c : Channel}

/-- The operator did not cut the connection. -/
def Uncut (c : Channel) : Prop := c.attempt ≠ .ended (.ok ())

theorem uncut_leave (c : Channel) (fault : Fault) : (c.leave (.error fault)).Uncut := by
  simp [Uncut, Channel.leave]

variable [LocalLog L]

/-- Whatever the master sends, a connection that was not cut is none that was. -/
theorem toReplica_steady (r : Replica L) (uncut : c.Uncut) :
    Replica.Steady r (c.toReplica r).1 ∧ (c.toReplica r).2.Uncut := by
  unfold toReplica
  split
  · exact ⟨.refl r, uncut⟩
  · split
    · exact ⟨Replica.welcome_steady .., uncut_leave c _⟩
    · exact ⟨.refl r, uncut⟩
  · rename_i held message later _ _
    have steady := r.welcome_steady held (.ok message)
    split <;> rename_i welcomed <;> rw [welcomed] at steady
    · exact ⟨steady, uncut_leave c _⟩
    · exact ⟨steady.trans ⟨rfl, rfl, rfl, rfl, rfl⟩, by simp [Uncut]⟩
  · split
    · exact ⟨.refl r, uncut_leave c _⟩
    · exact ⟨.refl r, uncut⟩
  · rename_i message later syncing _
    have steady := r.receive_steady message
    split <;> rename_i received <;> rw [received] at steady
    · exact ⟨steady, uncut_leave c _⟩
    · refine ⟨steady, ?_⟩
      unfold answer
      split <;> simp [Uncut, syncing]

theorem drain_steady (r : Replica L) (uncut : c.Uncut) (count : Nat) :
    Replica.Steady r (c.drain r count).1 ∧ (c.drain r count).2.Uncut := by
  induction count generalizing r c with
  | zero => exact ⟨.refl r, uncut⟩
  | succ count ih =>
    obtain ⟨steady, uncut⟩ := toReplica_steady r uncut
    obtain ⟨later, uncut⟩ := ih (c.toReplica r).1 uncut
    exact ⟨steady.trans later, uncut⟩

theorem hear_steady (r : Replica L) (uncut : c.Uncut) (messages : List Message) :
    Replica.Steady r (c.hear r messages).1 ∧ (c.hear r messages).2.Uncut := by
  apply drain_steady
  unfold send
  split <;> exact uncut

/-- A new connection was not cut. -/
theorem dial_steady (r : Replica L) (address : SocketAddress) :
    Replica.Steady r (dial r address).1 ∧ ∀ c, (dial r address).2 = .ok c → c.Uncut := by
  constructor
  · have steady := r.dial_steady
    unfold dial
    split <;> rename_i dialled <;> rw [dialled] at steady <;> exact steady
  · intro c made
    obtain ⟨h, rfl, -⟩ := dial_of_ok (Prod.ext rfl made)
    simp [Uncut]

end Channel

namespace Follower

variable {f : Follower L}

theorem ending?_eq_some_iff {ending : Except Fault Unit} :
    f.ending? = some ending ↔ f.channel.attempt = .ended ending := by
  unfold ending?
  cases f.channel.attempt <;> simp

theorem ending?_eq_none_iff : f.ending? = none ↔ f.channel.attempt.isOver = false := by
  unfold ending? Attempt.isOver
  cases f.channel.attempt <;> simp

/-- An open connection that is finished ended that way. -/
theorem ending?_finish (opened : f.ending? = none) (ending : Except Fault Unit) :
    (f.finish ending).ending? = some ending := by
  rw [ending?_eq_none_iff] at opened
  simp [ending?_eq_some_iff, finish, Channel.finish, opened, Channel.leave]

theorem missed_steady (f : Follower L) (ending : Except Fault Unit) :
    Replica.Steady f.replica (f.missed ending).replica := by
  have steady := f.replica.dial_steady
  unfold missed
  split <;> rename_i dialled <;> rw [dialled] at steady
  · exact steady
  · exact steady

/-- An attempt of a replica with a master ends the way that it is ended. -/
theorem ending?_missed (addressed : f.replica.settings.masterAddress ≠ none)
    (ending : Except Fault Unit) : (f.missed ending).ending? = some ending := by
  cases address : f.replica.settings.masterAddress with
  | none => exact absurd address addressed
  | some a => simp [missed, Replica.dial, address, ending?]

variable [LocalLog L]

theorem dial_steady (f : Follower L) : Replica.Steady f.replica f.dial.replica ∧
    f.dial.ending? ≠ some (.ok ()) := by
  obtain ⟨steady, uncut⟩ := Channel.dial_steady f.replica Settings.defaultBind
  unfold dial
  split <;> rename_i dialled <;> rw [dialled] at steady uncut
  · exact ⟨steady, by rw [Ne, ending?_eq_some_iff]; exact uncut _ rfl⟩
  · exact ⟨steady, by simp [unconnected, ending?]⟩

theorem hear_steady (opened : f.ending? = none) (messages : List Message) :
    Replica.Steady f.replica (f.hear messages).replica ∧
      (f.hear messages).ending? ≠ some (.ok ()) := by
  have uncut : f.channel.Uncut := by
    intro cut
    rw [← ending?_eq_some_iff] at cut
    simp [cut] at opened
  obtain ⟨steady, uncut⟩ := Channel.hear_steady f.replica uncut messages
  exact ⟨steady, by rw [Ne, ending?_eq_some_iff]; exact uncut⟩

end Follower

/-! ### Waits -/

/-- A wait that was doubled so often. The bound holds back every wait but the first. -/
def Settings.backoff (s : Settings) : (doublings : Nat) → Span
  | 0 => s.firstDelay
  | n + 1 => ⟨min (s.firstDelay.nanos * 2 ^ (n + 1)) s.maxDelay.nanos⟩

theorem Settings.backoff_succ (s : Settings) (n : Nat) :
    s.backoff (n + 1) = ⟨min (2 * (s.backoff n).nanos) s.maxDelay.nanos⟩ := by
  cases n with
  | zero => simp [backoff, Nat.mul_comm]
  | succ n =>
    have twice : s.firstDelay.nanos * 2 ^ (n + 2) = 2 * (s.firstDelay.nanos * 2 ^ (n + 1)) := by
      rw [Nat.pow_succ _ (n + 1), ← Nat.mul_assoc, Nat.mul_comm]
    simp only [backoff, Span.mk.injEq, twice]
    omega

namespace Ended

/-- Whether the operator ended the attempt. -/
def isCut (a : Ended) : Bool :=
  match a.ending with
  | .ok _ => true
  | .error _ => false

def isFatal (a : Ended) : Bool :=
  match a.ending with
  | .ok _ => false
  | .error fault => fault.isFatal

/-- How often the first wait was doubled after some attempts, the last one first: once for each of
them, back to one that the operator cut. -/
def doublings : List Ended → Nat
  | [] => 0
  | a :: older => if a.isCut then 1 else doublings older + 1

theorem doublings_append {since : List Ended} (uncut : ∀ a ∈ since, a.isCut = false)
    (before : List Ended) : doublings (since ++ before) = since.length + doublings before := by
  induction since with
  | nil => simp
  | cons a since ih =>
    obtain ⟨first, rest⟩ := List.forall_mem_cons.mp uncut
    simp only [List.cons_append, doublings, first, ih rest, List.length_cons]
    simp only [Bool.false_eq_true, if_false]
    omega

/-- The wait after an attempt that came after older ones. -/
def waitAfter (s : Settings) (a : Ended) (older : List Ended) : Span :=
  s.backoff (if a.isCut then 0 else doublings older)

/-- Every attempt but one with a fatal fault was followed by its wait. -/
def Timed (s : Settings) : List Ended → Prop
  | [] => True
  | a :: older =>
    a.wait = (if a.isFatal then none else some (waitAfter s a older)) ∧ Timed s older

theorem Timed.wait {s : Settings} {a : Ended} {newer older : List Ended}
    (timed : Timed s (newer ++ a :: older)) :
    a.wait = if a.isFatal then none else some (waitAfter s a older) := by
  induction newer with
  | nil => exact timed.1
  | cons b newer ih => exact ih timed.2

/-- After a wait comes the next one, unless the operator cuts. -/
theorem doubled (s : Settings) (a : Ended) (older : List Ended) :
    (⟨min (2 * (waitAfter s a older).nanos) s.maxDelay.nanos⟩ : Span) =
      s.backoff (doublings (a :: older)) := by
  rw [waitAfter, ← Settings.backoff_succ, doublings]
  split <;> rfl

end Ended

/-! ### What a happening makes of the attempts -/

namespace Watch

variable {s : Settings} {w w' : Watch L} {h : Happening}

/-- The replica makes attempts, with this wait after the next one. -/
structure Trying (s : Settings) (w : Watch L) : Prop where
  running : w.replica.running = true
  unstopped : w.replica.stopped = false
  delay : w.replica.delay = s.backoff (Ended.doublings w.past)
  mendable : ∀ a ∈ w.past, a.isFatal = false

/-- How the replica stands, by where it is with its attempts. -/
def Stands (s : Settings) (w : Watch L) : Prop :=
  match w.stage with
  | .dialing => w.Trying s
  | .connected => w.Trying s ∧ w.follower.ending? = none
  | .waiting =>
    { w with follower.replica.delay := w.replica.longerDelay }.Trying s ∧
      w.replica.phase = .disconnected
  | .closed (.ok ()) =>
    w.replica.stopped = true ∧ w.replica.running = false ∧ w.replica.phase = .stopped ∧
      ∀ a ∈ w.past, a.isFatal = false
  | .closed (.error fault) =>
    fault.isFatal = true ∧ w.replica.running = false ∧ w.replica.phase = .failed ∧
      ∃ a older, w.past = a :: older ∧ a.ending = .error fault

/-- What holds between any two happenings. -/
structure Standing (s : Settings) (w : Watch L) : Prop where
  settings : w.replica.settings = s
  reconnects : w.replica.tally.reconnects = w.past.countP fun a => !a.isFatal
  waits : Ended.Timed s w.past
  stands : w.Stands s

variable [LocalLog L]

/-- All that a happening can make of the attempts. -/
inductive Turn (s : Settings) (w : Watch L) : Happening → Watch L → Prop where
  /-- It does not concern the replica. -/
  | rests {h : Happening} (unmet : w.meet? h = none) (spared : h ≠ .stop)
      (early : w.stage = .waiting → h ≠ .elapse) : Turn s w h w
  | stopsLate {result : Except Fault Unit} (closed : w.stage = .closed result) :
      Turn s w .stop { w with follower.replica := w.replica.stop }
  | stops (going : ∀ result, w.stage ≠ .closed result) :
      Turn s w .stop
        { w with follower.replica := w.replica.stop.rest, stage := .closed (.ok ()) }
  | resumes (waiting : w.stage = .waiting) :
      Turn s w .elapse
        { w with follower.replica.delay := w.replica.longerDelay, stage := .dialing }
  | goesOn {h : Happening} {f : Follower L} (met : w.meet? h = some f)
      (opened : f.ending? = none) : Turn s w h { w with follower := f, stage := .connected }
  | retries {h : Happening} {f : Follower L} {a : Ended} (met : w.meet? h = some f)
      (ended : f.ending? = some a.ending) (welcomed : a.welcomed = f.channel.welcomed.isSome)
      (cut : a.isCut = true ↔ h = .cut) (mendable : a.isFatal = false)
      (wait : a.wait = some (a.waitAfter s w.past)) :
      Turn s w h
        { follower :=
            { f with
              replica.phase := .disconnected
              replica.delay := a.waitAfter s w.past
              replica.tally.reconnects := w.replica.tally.reconnects + 1 }
          stage := .waiting
          past := a :: w.past }
  | fails {h : Happening} {f : Follower L} {a : Ended} {fault : Fault} (met : w.meet? h = some f)
      (ended : f.ending? = some a.ending) (welcomed : a.welcomed = f.channel.welcomed.isSome)
      (failed : a.ending = .error fault) (fatal : fault.isFatal = true) (wait : a.wait = none) :
      Turn s w h
        { follower := { f with replica.running := false, replica.phase := .failed }
          stage := .closed a.ending
          past := a :: w.past }

omit [LocalLog L] in
theorem trying_of_dialing (stands : w.Stands s) (stage : w.stage = .dialing) : w.Trying s := by
  simpa only [Stands, stage] using stands

omit [LocalLog L] in
theorem trying_of_connected (stands : w.Stands s) (stage : w.stage = .connected) :
    w.Trying s ∧ w.follower.ending? = none := by
  simpa only [Stands, stage] using stands

/-- A happening that concerns an attempt does not touch how attempts are made, and the attempt ends
without a fault exactly if the operator cut it. -/
theorem meet?_cases {f : Follower L} (stands : w.Stands s) (settings : w.replica.settings = s)
    (addressed : s.masterAddress ≠ none) (met : w.meet? h = some f) :
    w.Trying s ∧ Replica.Steady w.replica f.replica ∧
      ∀ ending, f.ending? = some ending → (ending = .ok () ↔ h = .cut) := by
  have addressed : w.follower.replica.settings.masterAddress ≠ none := settings ▸ addressed
  unfold meet? at met
  split at met <;> rename_i stage <;> cases met
  · obtain ⟨steady, uncut⟩ := w.follower.dial_steady
    refine ⟨trying_of_dialing stands stage, steady, fun ending ended => ?_⟩
    simp only [reduceCtorEq, iff_false]
    exact fun done => uncut (done ▸ ended)
  · rename_i fault
    refine ⟨trying_of_dialing stands stage, w.follower.missed_steady _, fun ending ended => ?_⟩
    cases (Follower.ending?_missed addressed (.error fault)).symm.trans ended
    simp
  · refine ⟨trying_of_dialing stands stage, w.follower.missed_steady _, fun ending ended => ?_⟩
    cases (Follower.ending?_missed addressed (.ok ())).symm.trans ended
    simp
  · rename_i messages
    obtain ⟨trying, opened⟩ := trying_of_connected stands stage
    obtain ⟨steady, uncut⟩ := Follower.hear_steady opened messages
    refine ⟨trying, steady, fun ending ended => ?_⟩
    simp only [reduceCtorEq, iff_false]
    exact fun done => uncut (done ▸ ended)
  · rename_i fault
    obtain ⟨trying, opened⟩ := trying_of_connected stands stage
    refine ⟨trying, .refl _, fun ending ended => ?_⟩
    cases (Follower.ending?_finish opened (.error fault)).symm.trans ended
    simp
  · obtain ⟨trying, opened⟩ := trying_of_connected stands stage
    refine ⟨trying, .refl _, fun ending ended => ?_⟩
    cases (Follower.ending?_finish opened _).symm.trans ended
    simp
  · obtain ⟨trying, opened⟩ := trying_of_connected stands stage
    have running : w.follower.replica.running = true := trying.running
    simp only [Follower.cut, running, if_true]
    refine ⟨trying, .refl _, fun ending ended => ?_⟩
    cases (Follower.ending?_finish opened (.ok ())).symm.trans ended
    simp

omit [LocalLog L] in
theorem unstopped_of_waiting (stands : w.Stands s) (stage : w.stage = .waiting) :
    w.replica.stopped = false := by
  simp only [Stands, stage] at stands
  exact stands.1.unstopped

theorem turn_of_halt : Turn s w .stop w.halt := by
  have stops (going : ∀ result, w.stage ≠ .closed result) := Turn.stops (s := s) going
  unfold halt
  cases stage : w.stage with
  | closed result => simpa only [stage] using Turn.stopsLate (s := s) stage
  | waiting => exact stops (by simp [stage])
  | dialing => exact stops (by simp [stage])
  | connected => exact stops (by simp [stage])

theorem turn_of_resume (stands : w.Stands s) (stage : w.stage = .waiting) :
    Turn s w .elapse w.resume := by
  have unstopped := unstopped_of_waiting stands stage
  have goes := Turn.resumes (s := s) stage
  unfold resume Replica.waited
  rw [if_neg (by simp [unstopped])]
  exact goes

/-- An attempt that ended is followed by another one, unless it ended by a fatal fault. -/
theorem turn_of_conclude {f : Follower L} {ending : Except Fault Unit} (trying : w.Trying s)
    (settings : w.replica.settings = s) (steady : Replica.Steady w.replica f.replica)
    (met : w.meet? h = some f) (ended : f.ending? = some ending)
    (cut : ending = .ok () ↔ h = .cut) : Turn s w h (w.conclude f ending) := by
  have unstopped : f.replica.stopped = false := steady.stopped.trans trying.unstopped
  have settings : f.replica.settings = s := steady.settings.trans settings
  have delay : f.replica.delay = s.backoff (Ended.doublings w.past) :=
    steady.delay.trans trying.delay
  have reconnects := steady.reconnects
  cases ending with
  | ok _ =>
    have retries := Turn.retries (s := s) (a := ⟨f.channel.welcomed.isSome, .ok (), some s.firstDelay⟩)
      met ended rfl (by simpa [Ended.isCut] using cut) rfl rfl
    simpa [conclude, Replica.attemptEnded, unstopped, settings, reconnects, Ended.waitAfter,
      Ended.isCut, Settings.backoff] using retries
  | error fault =>
    cases fatal : fault.isFatal with
    | true =>
      have fails := Turn.fails (s := s) (a := ⟨f.channel.welcomed.isSome, .error fault, none⟩)
        met ended rfl rfl fatal rfl
      simpa [conclude, Replica.attemptEnded, unstopped, fatal] using fails
    | false =>
      have retries := Turn.retries (s := s)
        (a := ⟨f.channel.welcomed.isSome, .error fault, some f.replica.delay⟩)
        met ended rfl (by simpa [Ended.isCut] using cut) (by simpa [Ended.isFatal] using fatal)
        (by simp [Ended.waitAfter, Ended.isCut, delay])
      simpa [conclude, Replica.attemptEnded, unstopped, fatal, reconnects, Ended.waitAfter,
        Ended.isCut, ← delay] using retries

/-- A happening makes a turn. -/
theorem turn_of_step (standing : w.Standing s) (addressed : s.masterAddress ≠ none)
    (h : Happening) : Turn s w h (w.step h) := by
  unfold step
  split
  · exact turn_of_halt
  · rename_i stage
    exact turn_of_resume standing.stands stage
  · rename_i h _ _ spared early
    cases met : w.meet? h with
    | none => exact .rests met spared early
    | some f =>
      obtain ⟨trying, steady, cut⟩ :=
        meet?_cases standing.stands standing.settings addressed met
      simp only [Option.elim, proceed]
      cases ended : f.ending? with
      | none => exact .goesOn met ended
      | some ending =>
        exact turn_of_conclude trying standing.settings steady met ended (cut ending ended)

/-- What holds between happenings holds after a turn. -/
theorem Standing.turn (standing : w.Standing s) (addressed : s.masterAddress ≠ none)
    (turn : Turn s w h w') : w'.Standing s := by
  obtain ⟨settings, reconnects, waits, stands⟩ := standing
  cases turn with
  | rests => exact ⟨settings, reconnects, waits, stands⟩
  | stopsLate closed =>
    refine ⟨settings, reconnects, waits, ?_⟩
    rename_i result
    simp only [Stands, closed] at stands ⊢
    cases result with
    | ok _ =>
      obtain ⟨-, running, phase, mendable⟩ := stands
      exact ⟨rfl, running, phase, mendable⟩
    | error fault => exact stands
  | stops going =>
    refine ⟨settings, reconnects, waits, rfl, rfl, rfl, ?_⟩
    cases stage : w.stage <;> simp only [Stands, stage] at stands
    · exact stands.mendable
    · exact stands.1.mendable
    · exact stands.1.mendable
    · exact absurd stage (going _)
  | resumes waiting =>
    simp only [Stands, waiting] at stands
    obtain ⟨⟨running, unstopped, delay, mendable⟩, -⟩ := stands
    exact ⟨settings, reconnects, waits, running, unstopped, delay, mendable⟩
  | goesOn met opened =>
    obtain ⟨trying, steady, -⟩ := meet?_cases stands settings addressed met
    refine ⟨steady.settings.trans settings, steady.reconnects.trans reconnects, waits, ?_, opened⟩
    exact ⟨steady.running.trans trying.running, steady.stopped.trans trying.unstopped,
      steady.delay.trans trying.delay, trying.mendable⟩
  | retries met ended welcomed cut mendable wait =>
    rename_i f a
    obtain ⟨trying, steady, -⟩ := meet?_cases stands settings addressed met
    have settings := steady.settings.trans settings
    refine ⟨settings, ?_, ⟨?_, waits⟩, ⟨?_, ?_, ?_, ?_⟩, rfl⟩
    · simp [replica, mendable, ← reconnects]
    · simpa [mendable] using wait
    · exact steady.running.trans trying.running
    · exact steady.stopped.trans trying.unstopped
    · rw [← Ended.doubled]
      simp only [replica, Replica.longerDelay]
      rw [show f.replica.settings = s from settings]
    · simpa [mendable] using trying.mendable
  | fails met ended welcomed failed fatal wait =>
    rename_i f a fault
    obtain ⟨trying, steady, -⟩ := meet?_cases stands settings addressed met
    have fatal' : a.isFatal = true := by simpa [Ended.isFatal, failed] using fatal
    refine ⟨steady.settings.trans settings, ?_, ⟨?_, waits⟩, ?_⟩
    · simpa [replica, fatal'] using steady.reconnects.trans reconnects
    · simpa [fatal'] using wait
    · simp only [Stands, failed]
      exact ⟨fatal, rfl, rfl, a, w.past, rfl, failed⟩

/-! ### Whole runs -/

omit [LocalLog L] in
/-- A replica that was created has a master, and nothing happened to it. -/
theorem standing_start {log : L} {r : Replica L} (created : Replica.create s log = .ok r) :
    s.masterAddress ≠ none ∧ (start r).Standing s ∧ (start r).replica.stopped = false := by
  unfold Replica.create at created
  cases role : s.role with
  | master => simp [role, throw, throwThe, MonadExceptOf.throw, bind, Except.bind] at created
  | replica =>
    cases accepted : s.validate with
    | error fault => simp [role, accepted, bind, Except.bind] at created
    | ok _ =>
      simp only [role, ne_eq, not_true_eq_false, if_false, accepted, bind, Except.bind, pure,
        Except.pure, Except.ok.injEq] at created
      subst created
      have sound := (Settings.validate_iff_sound.mp accepted).2
      exact ⟨sound.master role, ⟨rfl, rfl, trivial, rfl, rfl, rfl, by simp [start, Replica.run]⟩, rfl⟩

theorem stopped_of_turn (stands : w.Stands s) (settings : w.replica.settings = s)
    (addressed : s.masterAddress ≠ none) (turn : Turn s w h w') :
    w'.replica.stopped = true ↔ w.replica.stopped = true ∨ h = .stop := by
  have met {f : Follower L} (met : w.meet? h = some f) :
      f.replica.stopped = w.replica.stopped ∧ h ≠ .stop := by
    refine ⟨(meet?_cases stands settings addressed met).2.1.stopped, ?_⟩
    rintro rfl
    cases stage : w.stage <;> simp [meet?, stage] at met
  cases turn with
  | rests unmet spared => simp [spared]
  | stopsLate => simp [replica, Replica.stop]
  | stops => simp [replica, Replica.stop, Replica.rest]
  | resumes => simp [replica]
  | goesOn now | retries now | fails now =>
    obtain ⟨same, spared⟩ := met now
    simp [replica, same, spared]

/-- How a replica stands with its attempts after some happenings. -/
structure Supervised (s : Settings) (happenings : List Happening) (w : Watch L) : Prop where
  /-- Its attempts are over exactly if it was stopped or one of them met a fatal fault. -/
  closed : (∃ result, w.stage = .closed result) ↔
    .stop ∈ happenings ∨ ∃ a ∈ w.past, a.isFatal = true
  stopped : w.stage = .closed (.ok ()) → .stop ∈ happenings ∧ w.replica.phase = .stopped
  failed : ∀ fault, w.stage = .closed (.error fault) → w.replica.phase = .failed ∧
    fault.isFatal = true ∧ ∃ a older, w.past = a :: older ∧ a.ending = .error fault
  /-- Every attempt that ended and was not the last is counted. -/
  reconnects : w.replica.tally.reconnects = w.past.countP fun a => !a.isFatal
  waiting : w.stage = .waiting → w.replica.phase = .disconnected ∧
    (w.step .elapse).stage = .dialing
  /-- An operator who cut makes the waits start anew, and each further attempt doubles them. -/
  wait : ∀ newer a since before, w.past = newer ++ a :: (since ++ before) →
    a.isFatal = false → (∀ b ∈ since, b.isCut = false) →
    (a.isCut = true → a.wait = some s.firstDelay) ∧
    (a.isCut = false → before = [] → a.wait = some (s.backoff since.length)) ∧
    ∀ c older, a.isCut = false → before = c :: older → c.isCut = true →
      a.wait = some (s.backoff (since.length + 1))
  turn : ∀ h, Turn s w h (w.step h)

theorem Standing.supervised {happenings : List Happening} (standing : w.Standing s)
    (addressed : s.masterAddress ≠ none)
    (stopped : w.replica.stopped = true ↔ .stop ∈ happenings) : w.Supervised s happenings := by
  obtain ⟨settings, reconnects, waits, stands⟩ := standing
  -- While it goes on, nothing happened that would have ended it.
  have going (unstopped : w.replica.stopped = false) (mendable : ∀ a ∈ w.past, a.isFatal = false) :
      ¬(.stop ∈ happenings ∨ ∃ a ∈ w.past, a.isFatal = true) := by
    rintro (stop | ⟨a, member, fatal⟩)
    · simp [stopped.mpr stop] at unstopped
    · simp [mendable a member] at fatal
  constructor
  case closed =>
    cases stage : w.stage <;> simp only [Stands, stage] at stands
    · simpa using going stands.unstopped stands.mendable
    · simpa using going stands.1.unstopped stands.1.mendable
    · simpa using going stands.1.unstopped stands.1.mendable
    · rename_i result
      refine ⟨fun _ => ?_, fun _ => ⟨result, rfl⟩⟩
      cases result with
      | ok _ => exact .inl (stopped.mp stands.1)
      | error fault =>
        obtain ⟨fatal, -, -, a, older, past, ending⟩ := stands
        exact .inr ⟨a, by simp [past], by simp [Ended.isFatal, ending, fatal]⟩
  case stopped =>
    intro stage
    simp only [Stands, stage] at stands
    exact ⟨stopped.mp stands.1, stands.2.2.1⟩
  case failed =>
    intro fault stage
    simp only [Stands, stage] at stands
    exact ⟨stands.2.2.1, stands.1, stands.2.2.2⟩
  case reconnects => exact reconnects
  case waiting =>
    intro stage
    have unstopped := unstopped_of_waiting stands stage
    simp only [Stands, stage] at stands
    exact ⟨stands.2, by simp [step, stage, resume, Replica.waited, unstopped]⟩
  case wait =>
    intro newer a since before past mendable uncut
    have wait := (past ▸ waits).wait
    simp only [mendable, Bool.false_eq_true, if_false, Ended.waitAfter,
      Ended.doublings_append uncut] at wait
    refine ⟨fun cut => ?_, fun kept first => ?_, fun c older kept first cut => ?_⟩
    · simpa [cut, Settings.backoff] using wait
    · simpa [kept, first, Ended.doublings] using wait
    · simpa [kept, first, cut, Ended.doublings] using wait
  case turn => exact turn_of_step ⟨settings, reconnects, waits, stands⟩ addressed

/-- A replica that was created goes from attempt to attempt until it is stopped or meets a fatal fault,
whatever happens to it. -/
theorem attempts_supervised {log : L} {r : Replica L} (created : Replica.create s log = .ok r)
    (happenings : List Happening) :
    ((start r).play happenings).Supervised s happenings := by
  obtain ⟨addressed, standing, fresh⟩ := standing_start created
  have run : ((start r).play happenings).Standing s ∧
      (((start r).play happenings).replica.stopped = true ↔ .stop ∈ happenings) := by
    induction happenings using List.reverseRecOn with
    | nil => exact ⟨standing, by simp [play, fresh]⟩
    | append_singleton earlier h ih =>
      obtain ⟨standing, stopped⟩ := ih
      simp only [play, List.foldl_append, List.foldl_cons, List.foldl_nil]
      have turn := turn_of_step standing addressed h
      refine ⟨standing.turn addressed turn, ?_⟩
      have after := stopped_of_turn standing.stands standing.settings addressed turn
      refine after.trans ?_
      rw [stopped]
      simp [eq_comm]
  exact run.1.supervised addressed run.2

/-- A replica with an empty log and the usual waits. -/
def pupil : Replica VolatileLog where
  settings := .replica "r1" (.v4 ⟨127, 0, 0, 1⟩ 15475)
  log := {}

/-- A connection on which an empty master streams. -/
def streaming : List Happening :=
  [.connect, .hear [.welcome ⟨"m", 0, 1⟩, .catchUpComplete 0]]

/-- A refused attempt, one that the operator cuts, another refused one, and a master that wants another
secret. -/
def schooling : List Happening :=
  [.fail (.io (.system 111)), .elapse] ++ streaming ++
    [.cut, .elapse, .fail (.io (.system 111)), .elapse, .fail (.trust (.other ""))]

theorem schooling_is_supervised :
    Replica.create pupil.settings pupil.log = .ok pupil ∧
      ((start pupil).play schooling).Supervised pupil.settings schooling ∧
      ((start pupil).play schooling).replica.phase = .failed ∧
      ((start pupil).play schooling).past.map Ended.wait =
        [none, some (.ofMillis 200), some (.ofMillis 100), some (.ofMillis 100)] := by
  have created : Replica.create pupil.settings pupil.log = .ok pupil := rfl
  have supervised := attempts_supervised created schooling
  refine ⟨created, supervised, ?_, ?_⟩
  · exact (supervised.failed _ rfl).1
  · decide

/-- A replica that was streaming waits longer after it lost its master a second time, and a first wait
above the bound is not held back. -/
theorem lost_master_doubles_wait :
    (let w := (start pupil).play
        (streaming ++ [.fail (.io .earlyEnd), .elapse] ++ streaming ++ [.fail (.io .earlyEnd)])
     w.stage = .waiting ∧ w.past.map Ended.welcomed = [true, true] ∧
      w.past.map Ended.wait = [some (.ofMillis 200), some (.ofMillis 100)] ∧
      Span.ofMillis 200 ≠
        ⟨min (pupil.settings.firstDelay.nanos * 2 ^ 0) pupil.settings.maxDelay.nanos⟩) ∧
    (let hasty := { pupil with settings.firstDelay := .ofMillis 60000 }
     let w := (start hasty).play [.fail (.io (.system 111))]
     w.past.map Ended.wait = [some (.ofMillis 60000)] ∧
      hasty.settings.maxDelay.nanos < (Span.ofMillis 60000).nanos) := by
  refine ⟨⟨rfl, ?_, ?_, ?_⟩, ?_, ?_⟩
  all_goals decide

end Watch

end QuorumLog
