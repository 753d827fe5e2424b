import Mathlib.Data.List.Induction
import Mathlib.Order.Lattice
import QuorumLog.Connection

/-! The life of a link, through any moves in any order. Moves that are made in the wrong phase change
nothing, a connection gets the entries that are forwarded while it streams and no others, and what the replica
has reported only grows until it returns. -/

namespace QuorumLog

/-- What is done once something holds is done with the last of some steps, or before it. -/
theorem exists_step_snoc {α : Type} {P : List α → Prop} {steps : List α} {last x : α} :
    (∃ before, before ++ [x] <+: steps ++ [last] ∧ P before) ↔
      (last = x ∧ P steps) ∨ ∃ before, before ++ [x] <+: steps ∧ P before := by
  constructor
  · rintro ⟨before, begins, there⟩
    rcases List.prefix_concat_iff.mp begins with all | front
    · obtain ⟨rfl, same⟩ := List.append_inj' all rfl
      exact .inl ⟨(List.singleton_inj.mp same).symm, there⟩
    · exact .inr ⟨before, front, there⟩
  · rintro (⟨rfl, there⟩ | ⟨before, front, there⟩)
    · exact ⟨steps, List.prefix_rfl, there⟩
    · exact ⟨before, front.trans (List.prefix_append _ _), there⟩

namespace Line

/-- What is done to a link or to the far end of one of its connections. -/
inductive Move where
  | beginCatchUp
  | beginStreaming
  | forward (e : Entry)
  | recordAck (offset : Nat)
  | recordSent (count : Nat)
  | touch
  | disconnect
  | reconnect (peer : Peer) (generation resume : Nat)
  /-- Whoever writes takes out everything that waits. -/
  | receive (number : Nat)
  /-- Whoever writes is gone. -/
  | abandon (number : Nat)
  /-- Somebody tells the tasks of a connection to end. -/
  | cancel (number : Nat)
deriving DecidableEq, Repr

/-- A move, and the answer to it if there is one. -/
def perform (l : Line) : Move → Line × Option Bool
  | .beginCatchUp => (l.onLink Link.beginCatchUp, none)
  | .beginStreaming => (l.onLink Link.beginStreaming, none)
  | .forward e => (l.forward e, some l.forwards)
  | .recordAck offset => (l.onLink (Link.recordAck offset), some (l.link.accepts offset))
  | .recordSent count => (l.onLink (Link.recordSent count), none)
  | .touch => (l.onLink Link.touch, none)
  | .disconnect => (l.disconnect, some l.link.isConnected)
  | .reconnect peer generation resume => (l.reconnect peer generation resume, none)
  | .receive number => (l.modify number Connection.drain, none)
  | .abandon number => (l.modify number Connection.abandon, none)
  | .cancel number => (l.modify number Connection.cancel, none)

/-- One move after the other. -/
def run (moves : List Move) (l : Line) : Line := moves.foldl (fun l move => (l.perform move).1) l

/-- Whether a new connection comes with a move. -/
def Move.reconnects : Move → Bool
  | .reconnect _ _ _ => true
  | _ => false

variable {l : Line} {move : Move} {moves later : List Move} {number : Nat} {c : Connection}
variable {f : Connection → Connection} {e : Entry}

/-! ### What a move makes of the link -/

/-- The phase behind a move, and what the replica has reported by then. -/
def turn (before : LinkPhase × Nat) (move : Move) : LinkPhase × Nat :=
  match move, before with
  | .beginCatchUp, (.connecting, acked) => (.catchingUp, acked)
  | .beginStreaming, (.catchingUp, acked) => (.streaming, acked)
  | .disconnect, (_, acked) => (.disconnected, acked)
  | .reconnect _ _ resume, _ => (.connecting, resume)
  | .recordAck _, (.disconnected, acked) => (.disconnected, acked)
  | .recordAck offset, (phase, acked) => (phase, max acked offset)
  | _, before => before

/-- The phase of a link, and what the replica has reported. -/
def standing (k : Link) : LinkPhase × Nat := (k.phase, k.lastAck)

theorem standing_recordAck (k : Link) (offset : Nat) :
    standing (k.recordAck offset) = turn (standing k) (.recordAck offset) := by
  obtain ⟨peer, phase, generation, acked, sent, reconnects, heard⟩ := k
  by_cases news : acked < offset
  · have most : max acked offset = offset := Nat.max_eq_right (Nat.le_of_lt news)
    cases phase <;>
      simp [standing, turn, Link.recordAck, Link.accepts, Link.isConnected, Link.touch, news, most]
  · have most : max acked offset = acked := Nat.max_eq_left (Nat.le_of_not_lt news)
    cases phase <;>
      simp [standing, turn, Link.recordAck, Link.accepts, Link.isConnected, Link.touch, news, most]

theorem standing_beginCatchUp (k : Link) :
    standing k.beginCatchUp = turn (standing k) .beginCatchUp := by
  obtain ⟨peer, phase, generation, acked, sent, reconnects, heard⟩ := k
  cases phase <;> rfl

theorem standing_beginStreaming (k : Link) :
    standing k.beginStreaming = turn (standing k) .beginStreaming := by
  obtain ⟨peer, phase, generation, acked, sent, reconnects, heard⟩ := k
  cases phase <;> rfl

@[simp] theorem link_modify (l : Line) (number : Nat) (f : Connection → Connection) :
    (l.modify number f).link = l.link := by
  unfold modify
  split <;> rfl

@[simp] theorem link_forward (l : Line) (e : Entry) : (l.forward e).link = l.link := by
  unfold forward
  split <;> rfl

theorem standing_disconnect (l : Line) :
    standing l.disconnect.link = turn (standing l.link) .disconnect := by
  obtain ⟨⟨peer, phase, generation, acked, sent, reconnects, heard⟩, past, current⟩ := l
  cases phase <;> rfl

/-- The phase and the report after a move depend on nothing but those before. -/
theorem standing_perform (l : Line) (move : Move) :
    standing (l.perform move).1.link = turn (standing l.link) move := by
  cases move with
  | beginCatchUp => exact standing_beginCatchUp l.link
  | beginStreaming => exact standing_beginStreaming l.link
  | forward e => exact congrArg standing (link_forward l e)
  | recordAck offset => exact standing_recordAck l.link offset
  | disconnect => exact standing_disconnect l
  | receive other => exact congrArg standing (link_modify l other _)
  | abandon other => exact congrArg standing (link_modify l other _)
  | cancel other => exact congrArg standing (link_modify l other _)
  | _ => rfl

theorem standing_run (moves : List Move) (l : Line) :
    standing (run moves l).link = moves.foldl turn (standing l.link) := by
  induction moves generalizing l with
  | nil => rfl
  | cons move later ih => exact (ih _).trans (by rw [standing_perform]; rfl)

/-- Without a new connection, what the replica has reported does not shrink, and it stays as it is once the
link is disconnected. -/
theorem turn_advances (before : LinkPhase × Nat) (kept : move.reconnects = false) :
    before.2 ≤ (turn before move).2 ∧
      (before.1 = .disconnected → turn before move = before) := by
  obtain ⟨phase, acked⟩ := before
  cases move <;> cases phase <;> simp_all [turn, Move.reconnects]

theorem foldl_turn_advances (before : LinkPhase × Nat)
    (kept : ∀ move ∈ later, move.reconnects = false) :
    before.2 ≤ (later.foldl turn before).2 ∧
      (before.1 = .disconnected → later.foldl turn before = before) := by
  induction later generalizing before with
  | nil => exact ⟨Nat.le_refl _, fun _ => rfl⟩
  | cons move later ih =>
    obtain ⟨now, behind⟩ := List.forall_mem_cons.mp kept
    obtain ⟨grows, rests⟩ := turn_advances before now
    obtain ⟨grows', rests'⟩ := ih (turn before move) behind
    refine ⟨Nat.le_trans grows grows', fun gone => ?_⟩
    rw [List.foldl_cons, rests gone]
    exact (rests gone ▸ rests') gone

/-! ### What a move makes of a connection -/

/-- What a move makes of a connection, by its number on the line. -/
def shape (l : Line) (number : Nat) (move : Move) (c : Connection) : Connection :=
  match move with
  | .forward e => if l.link.isStreaming ∧ l.past.length = number then c.offer e else c
  | .disconnect => if l.link.isConnected ∧ l.past.length = number then c.cut else c
  | .reconnect _ _ _ => if l.past.length = number then c.cut else c
  | .receive other => if other = number then c.drain else c
  | .abandon other => if other = number then c.abandon else c
  | .cancel other => if other = number then c.cancel else c
  | _ => c

/-- A connection is one of those before, or the current one. -/
theorem cases_connection (known : l.connections[number]? = some c) :
    (number < l.past.length ∧ l.past[number]? = some c) ∨ (number = l.past.length ∧ c = l.current) := by
  rcases Nat.lt_trichotomy number l.past.length with before | rfl | behind
  · exact .inl ⟨before, (List.getElem?_append_left before).symm.trans known⟩
  · exact .inr ⟨rfl, Option.some.inj (known.symm.trans List.getElem?_concat_length)⟩
  · have within := (List.getElem?_eq_some_iff.mp known).1
    rw [connections, List.length_append, List.length_singleton] at within
    omega

theorem connection_past (held : l.past[number]? = some c) : l.connections[number]? = some c :=
  (List.getElem?_append_left (List.getElem?_eq_some_iff.mp held).1).trans held

theorem connection_current (l : Line) : l.connections[l.past.length]? = some l.current :=
  List.getElem?_concat_length

@[simp] theorem length_modify (l : Line) (other : Nat) (f : Connection → Connection) :
    (l.modify other f).past.length = l.past.length := by
  unfold modify
  split
  · rfl
  · exact List.length_modify ..

theorem connection_modify (known : l.connections[number]? = some c) (other : Nat)
    (f : Connection → Connection) :
    (l.modify other f).connections[number]? = some (if other = number then f c else c) := by
  rcases cases_connection known with ⟨before, held⟩ | ⟨rfl, rfl⟩
  · unfold modify
    split
    · rename_i last
      rw [if_neg (by omega)]
      exact connection_past held
    · refine connection_past (List.getElem?_modify .. |>.trans ?_)
      rw [held]
      rfl
  · unfold modify
    split
    · exact connection_current _
    · rename_i apart
      have current := connection_current { l with past := l.past.modify other f }
      rwa [List.length_modify] at current

theorem modify_current (l : Line) (f : Connection → Connection) :
    l.modify l.past.length f = { l with current := f l.current } := if_pos rfl

theorem connection_perform (known : l.connections[number]? = some c) (move : Move) :
    (l.perform move).1.connections[number]? = some (l.shape number move c) := by
  -- A move on the link reaches the current connection, if any.
  have last (f : Connection → Connection) :
      ({ l with current := f l.current } : Line).connections[number]? =
      some (if l.past.length = number then f c else c) := by
    rw [← modify_current]
    exact connection_modify known _ f
  cases move with
  | forward e =>
    simp only [perform, forward, shape]
    split
    · rename_i streams
      simpa [streams] using last (Connection.offer e)
    · rename_i rests
      simpa [rests] using known
  | disconnect =>
    simp only [perform, disconnect, shape]
    split
    · rename_i connected
      exact (last Connection.cut).trans (by simp [connected])
    · rename_i gone
      simpa [gone] using known
  | reconnect peer generation resume =>
    show (l.reconnect peer generation resume).connections[number]? = _
    refine connection_past ?_
    rcases cases_connection known with ⟨before, held⟩ | ⟨rfl, rfl⟩
    · rw [shape, if_neg (Nat.ne_of_gt before)]
      exact (List.getElem?_append_left before).trans held
    · rw [shape, if_pos rfl]
      exact List.getElem?_concat_length
  | receive other => exact connection_modify known other _
  | abandon other => exact connection_modify known other _
  | cancel other => exact connection_modify known other _
  | _ => exact known

theorem length_perform (l : Line) (move : Move) :
    (l.perform move).1.past.length = l.past.length + if move.reconnects then 1 else 0 := by
  cases move with
  | forward e =>
    simp only [perform, forward]
    split <;> rfl
  | disconnect =>
    simp only [perform, disconnect]
    split <;> rfl
  | reconnect peer generation resume => simp [perform, reconnect, Move.reconnects]
  | receive other => exact length_modify ..
  | abandon other => exact length_modify ..
  | cancel other => exact length_modify ..
  | _ => rfl

/-- A connection that was not there before comes with a return, and is the last one. -/
theorem connection_perform_of_none (new : l.connections[number]? = none)
    (made : (l.perform move).1.connections[number]? = some c) :
    c = {} ∧ move.reconnects = true ∧ number = l.past.length + 1 := by
  have behind : l.past.length + 1 ≤ number := by
    simpa [connections] using List.getElem?_eq_none_iff.mp new
  have length := l.length_perform move
  cases returns : move.reconnects with
  | false =>
    rw [returns] at length
    rcases cases_connection made with ⟨before, -⟩ | ⟨here, -⟩ <;> simp at length <;> omega
  | true =>
    rw [returns, if_pos rfl] at length
    rcases cases_connection made with ⟨before, -⟩ | ⟨here, rfl⟩
    · omega
    · cases move with
      | reconnect peer generation resume => exact ⟨rfl, rfl, here.trans length⟩
      | _ => cases returns

/-! ### Open and closed connections -/

@[simp] theorem fed_offer (e : Entry) (c : Connection) : (c.offer e).fed = c.fed := by
  unfold Connection.offer
  split <;> rfl

@[simp] theorem cancelled_offer (e : Entry) (c : Connection) :
    (c.offer e).cancelled = c.cancelled := by
  unfold Connection.offer
  split <;> rfl

/-- Whether a connection is the current one of a link that is connected. -/
def Lives (l : Line) (number : Nat) : Prop :=
  number = l.past.length ∧ l.link.phase ≠ .disconnected

theorem phase_perform (l : Line) (move : Move) :
    (l.perform move).1.link.phase = (turn (standing l.link) move).1 :=
  congrArg Prod.fst (l.standing_perform move)

/-- No move but a disconnection and a return makes a difference to which connections live. -/
theorem lives_perform (l : Line) (move : Move) (number : Nat) : (l.perform move).1.Lives number ↔
    match move with
    | .disconnect => False
    | .reconnect _ _ _ => number = l.past.length + 1
    | _ => l.Lives number := by
  rw [Lives, length_perform, phase_perform, Lives]
  unfold standing
  cases move <;> cases l.link.phase <;> simp [turn, Move.reconnects]

/-- A connection takes entries while it lives, and its tasks are told to end when it does not live any more. -/
structure Tended (l : Line) : Prop where
  fed : ∀ number c, l.connections[number]? = some c → (c.fed = true ↔ l.Lives number)
  cancelled : ∀ number c, l.connections[number]? = some c → ¬l.Lives number → c.cancelled = true

theorem Tended.perform (tended : l.Tended) (move : Move) : (l.perform move).1.Tended := by
  have step (number : Nat) (c : Connection) (made : (l.perform move).1.connections[number]? = some c) :
      (c.fed = true ↔ (l.perform move).1.Lives number) ∧
        (¬(l.perform move).1.Lives number → c.cancelled = true) := by
    rw [lives_perform]
    cases known : l.connections[number]? with
    | none =>
      obtain ⟨rfl, returns, here⟩ := connection_perform_of_none known made
      cases move with
      | reconnect peer generation resume => exact ⟨iff_of_true rfl here, fun other => absurd here other⟩
      | _ => cases returns
    | some old =>
      have fed := tended.fed number old known
      have cancelled := tended.cancelled number old known
      obtain rfl := Option.some.inj ((connection_perform known move).symm.trans made)
      cases move with
      | forward e =>
        simp only [shape]
        split
        · simpa using ⟨fed, cancelled⟩
        · exact ⟨fed, cancelled⟩
      | disconnect =>
        simp only [shape]
        split
        · simp [Connection.cut, Connection.shut, Connection.cancel]
        · rename_i apart
          have gone : ¬l.Lives number := fun lives =>
            apart ⟨by simpa [Link.isConnected] using lives.2, lives.1.symm⟩
          exact ⟨iff_of_false (mt fed.mp gone) id, fun _ => cancelled gone⟩
      | reconnect peer generation resume =>
        have old : ¬number = l.past.length + 1 := by
          rcases cases_connection known with ⟨before, -⟩ | ⟨here, -⟩ <;> omega
        simp only [shape]
        split
        · exact ⟨iff_of_false (by simp [Connection.cut, Connection.shut, Connection.cancel]) old,
            fun _ => rfl⟩
        · rename_i apart
          have gone : ¬l.Lives number := fun lives => apart lives.1.symm
          exact ⟨iff_of_false (mt fed.mp gone) old, fun _ => cancelled gone⟩
      | receive other =>
        simp only [shape]
        split <;> exact ⟨fed, cancelled⟩
      | abandon other =>
        simp only [shape]
        split <;> exact ⟨fed, cancelled⟩
      | cancel other =>
        simp only [shape]
        split
        · exact ⟨fed, fun _ => rfl⟩
        · exact ⟨fed, cancelled⟩
      | _ => exact ⟨fed, cancelled⟩
  exact ⟨fun number c made => (step number c made).1, fun number c made => (step number c made).2⟩

/-! ### Connections that are left -/

/-- Whether whoever writes to a connection has left it by the end of some moves. Nobody can leave a
connection that is still to come. -/
def Left (moves : List Move) (number : Nat) : Prop :=
  ∃ before, before ++ [.abandon number] <+: moves ∧ number ≤ before.countP Move.reconnects

theorem left_snoc : Left (moves ++ [move]) number ↔
    (move = .abandon number ∧ number ≤ moves.countP Move.reconnects) ∨ Left moves number :=
  exists_step_snoc

/-- A connection that is left is one of those so far. -/
theorem Left.number_le (left : Left moves number) : number ≤ moves.countP Move.reconnects := by
  obtain ⟨before, ⟨later, rfl⟩, there⟩ := left
  rw [List.countP_append, List.countP_append]
  omega

/-- Nobody but the writer of a connection makes a difference to whether somebody writes. -/
theorem served_shape (l : Line) (number : Nat) (move : Move) (c : Connection) :
    (l.shape number move c).served = true ↔ c.served = true ∧ move ≠ .abandon number := by
  cases move with
  | forward e =>
    simp only [shape, Connection.offer]
    split
    · split <;> simp
    · simp
  | disconnect =>
    simp only [shape]
    split <;> simp [Connection.cut, Connection.shut, Connection.cancel]
  | reconnect peer generation resume =>
    simp only [shape]
    split <;> simp [Connection.cut, Connection.shut, Connection.cancel]
  | receive other =>
    simp only [shape]
    split <;> simp [Connection.drain]
  | abandon other =>
    simp only [shape]
    split
    · rename_i here
      simp [Connection.abandon, here]
    · rename_i apart
      simp [apart]
  | cancel other =>
    simp only [shape]
    split <;> simp [Connection.cancel]
  | _ => simp [shape]

theorem served_perform (move : Move) (past : l.past.length = moves.countP Move.reconnects)
    (served : ∀ number c, l.connections[number]? = some c → (c.served = true ↔ ¬Left moves number))
    (made : (l.perform move).1.connections[number]? = some c) :
    c.served = true ↔ ¬Left (moves ++ [move]) number := by
  rw [left_snoc]
  cases known : l.connections[number]? with
  | none =>
    obtain ⟨rfl, returns, here⟩ := connection_perform_of_none known made
    refine iff_of_true rfl ?_
    rintro (⟨rfl, -⟩ | left)
    · cases returns
    · have within := left.number_le
      omega
  | some old =>
    obtain rfl := Option.some.inj ((connection_perform known move).symm.trans made)
    have there : number ≤ moves.countP Move.reconnects := by
      rcases cases_connection known with ⟨before, -⟩ | ⟨here, -⟩ <;> omega
    rw [served_shape, served number old known, not_or, not_and_or, and_comm]
    simp only [there, not_true, or_false]

/-! ### The entries of a connection -/

/-- The entries that are forwarded to a connection while it streams and somebody is there to write them. -/
def given (number : Nat) (l : Line) : Move → List Entry
  | .forward e =>
    if l.link.phase = .streaming ∧ l.past.length = number ∧ l.current.served then [e] else []
  | _ => []

/-- The entries that are taken out of a connection to be written. -/
def taken (number : Nat) (l : Line) : Move → List Entry
  | .receive other => if other = number then ((l.connections[number]?).map (·.queue)).getD [] else []
  | _ => []

/-- What all moves of a run come to, one after the other. -/
def along (part : Line → Move → List Entry) : List Move → Line → List Entry
  | [], _ => []
  | move :: later, l => part l move ++ along part later (l.perform move).1

theorem along_snoc (part : Line → Move → List Entry) (moves : List Move) (l : Line) (move : Move) :
    along part (moves ++ [move]) l = along part moves l ++ part (run moves l) move := by
  induction moves generalizing l with
  | nil => simp [along, run]
  | cons first later ih =>
    rw [List.cons_append, along, along, ih, List.append_assoc]
    rfl

theorem run_snoc (moves : List Move) (l : Line) (move : Move) :
    run (moves ++ [move]) l = ((run moves l).perform move).1 := by simp [run]

/-- What was put into a connection was taken out or waits, unless nobody is left to take it. -/
structure Accounted (given taken : List Entry) (c : Connection) : Prop where
  all : c.served = true → given = taken ++ c.queue
  begins : taken <+: given
  lost : c.served = false → c.queue = []

/-- An entry that is forwarded to a living connection waits there if somebody is there to write it. -/
theorem Accounted.offer {given taken : List Entry} (accounted : Accounted given taken c)
    (fed : c.fed = true) (e : Entry) :
    Accounted (given ++ if c.served then [e] else []) taken (c.offer e) := by
  cases served : c.served with
  | true =>
    have offered : c.offer e = { c with queue := c.queue ++ [e] } := by
      simp [Connection.offer, Connection.takes, fed, served]
    rw [offered, if_pos rfl]
    refine ⟨fun _ => ?_, accounted.begins.trans (List.prefix_append _ _), fun gone => ?_⟩
    · rw [accounted.all served, List.append_assoc]
    · cases served.symm.trans gone
  | false =>
    have offered : c.offer e = c := by simp [Connection.offer, Connection.takes, served]
    rw [offered]
    simpa using accounted

theorem Accounted.drain {given taken : List Entry} (accounted : Accounted given taken c) :
    Accounted given (taken ++ c.queue) c.drain := by
  refine ⟨fun served => ?_, ?_, fun _ => rfl⟩
  · rw [accounted.all served]
    exact (List.append_nil _).symm
  · cases served : c.served with
    | true => exact accounted.all served ▸ List.prefix_refl _
    | false =>
      rw [accounted.lost served, List.append_nil]
      exact accounted.begins

theorem Accounted.abandon {given taken : List Entry} (accounted : Accounted given taken c) :
    Accounted given taken c.abandon :=
  ⟨fun served => (by cases served), accounted.begins, fun _ => rfl⟩

/-- A move puts into a connection and takes out of it what it says. -/
theorem Accounted.shape {before out : List Entry} (accounted : Accounted before out c)
    (tended : l.Tended) (known : l.connections[number]? = some c) (move : Move) :
    Accounted (before ++ given number l move) (out ++ taken number l move) (l.shape number move c) := by
  have same : Accounted (before ++ []) (out ++ []) c := by
    rw [List.append_nil, List.append_nil]
    exact accounted
  cases move with
  | forward e =>
    simp only [Line.shape, given, taken, List.append_nil]
    by_cases reached : l.link.isStreaming = true ∧ l.past.length = number
    · have streams : l.link.phase = .streaming := by simpa [Link.isStreaming] using reached.1
      obtain rfl : c = l.current :=
        Option.some.inj (known.symm.trans (reached.2 ▸ l.connection_current))
      have fed := (tended.fed number _ known).mpr ⟨reached.2.symm, by rw [streams]; decide⟩
      rw [if_pos reached]
      simpa only [streams, reached.2, true_and] using accounted.offer fed e
    · have missed : ¬(l.link.phase = .streaming ∧ l.past.length = number ∧ l.current.served = true) :=
        fun all => reached ⟨by simpa [Link.isStreaming] using all.1, all.2.1⟩
      rw [if_neg reached, if_neg missed, List.append_nil]
      exact accounted
  | disconnect =>
    simp only [Line.shape]
    split
    · exact ⟨same.all, same.begins, same.lost⟩
    · exact same
  | reconnect peer generation resume =>
    simp only [Line.shape]
    split
    · exact ⟨same.all, same.begins, same.lost⟩
    · exact same
  | receive other =>
    simp only [Line.shape, given, taken, List.append_nil]
    split
    · rw [known]
      exact accounted.drain
    · rw [List.append_nil]
      exact accounted
  | abandon other =>
    simp only [Line.shape, given, taken, List.append_nil]
    split
    · exact accounted.abandon
    · exact accounted
  | cancel other =>
    simp only [Line.shape]
    split
    · exact ⟨same.all, same.begins, same.lost⟩
    · exact same
  | _ => exact same

/-- Connections that are there are accounted for, and nothing was put into others or taken out. -/
def Accounts (given taken : List Entry) (l : Line) (number : Nat) : Prop :=
  match l.connections[number]? with
  | some c => Accounted given taken c
  | none => given = [] ∧ taken = []

theorem Accounts.perform {before out : List Entry} (accounts : Accounts before out l number)
    (tended : l.Tended) (move : Move) :
    Accounts (before ++ given number l move) (out ++ taken number l move) (l.perform move).1 number := by
  unfold Accounts at accounts ⊢
  cases known : l.connections[number]? with
  | some c =>
    rw [known] at accounts
    rw [connection_perform known]
    exact Accounted.shape accounts tended known move
  | none =>
    rw [known] at accounts
    obtain ⟨rfl, rfl⟩ := accounts
    have behind : l.past.length ≠ number := by
      intro here
      rw [← here, connection_current] at known
      cases known
    have nothing : given number l move = [] ∧ taken number l move = [] := by
      cases move <;> simp [given, taken, behind, known]
    rw [nothing.1, nothing.2]
    cases made : (l.perform move).1.connections[number]? with
    | none => exact ⟨rfl, rfl⟩
    | some c =>
      obtain ⟨rfl, -⟩ := connection_perform_of_none known made
      exact ⟨fun _ => rfl, List.prefix_refl _, fun _ => rfl⟩

/-! ### The rule -/

/-- What holds of a link after any moves since it was opened for a replica that held everything up to
an offset. -/
structure Lived (start : Line) (resume : Nat) (moves : List Move) (l : Line) : Prop where
  begins : start.link.phase = .connecting ∧ start.link.lastAck = resume
  /-- Phases and reports follow each other as the moves say. -/
  standing : standing l.link = moves.foldl turn (standing start.link)
  past : l.past.length = moves.countP Move.reconnects
  /-- Only the current connection of a connected link takes entries. -/
  fed : ∀ number c, l.connections[number]? = some c →
    (c.fed = true ↔ number = l.past.length ∧ l.link.phase ≠ .disconnected)
  /-- The tasks of all other connections are told to end. -/
  cancelled : ∀ number c, l.connections[number]? = some c →
    ¬(number = l.past.length ∧ l.link.phase ≠ .disconnected) → c.cancelled = true
  /-- The tasks of the current one are only told by somebody else. -/
  spared : ∀ number c, l.connections[number]? = some c → c.cancelled = true →
    ¬(number = l.past.length ∧ l.link.phase ≠ .disconnected) ∨ .cancel number ∈ moves
  /-- Somebody writes to a connection until he leaves it. -/
  served : ∀ number c, l.connections[number]? = some c → (c.served = true ↔ ¬Left moves number)
  /-- What was forwarded to a connection while it streamed was taken out of it or waits, in this order. -/
  entries : ∀ number c, l.connections[number]? = some c →
    Accounted (along (given number) moves start) (along (taken number) moves start) c
  /-- An entry is put behind those that wait, and the answer tells so, or it is not and nothing happens. -/
  forward : ∀ e, l.perform (.forward e) =
    if l.link.phase = .streaming ∧ l.current.served = true
    then ({ l with current := { l.current with queue := l.current.queue ++ [e] } }, some true)
    else (l, some false)
  /-- The answer to a report tells whether it was news. -/
  ack : ∀ offset, (l.perform (.recordAck offset)).2 =
    some (decide ((l.perform (.recordAck offset)).1.link.lastAck ≠ l.link.lastAck))
  /-- Until the replica returns, its reports do not go back, and there are none without connection. -/
  advances : ∀ later, (∀ move ∈ later, move.reconnects = false) →
    l.link.lastAck ≤ (run later l).link.lastAck ∧
      (l.link.phase = .disconnected → (run later l).link.lastAck = l.link.lastAck)

theorem spared_perform (move : Move)
    (spared : ∀ number c, l.connections[number]? = some c → c.cancelled = true →
      ¬l.Lives number ∨ .cancel number ∈ moves)
    (made : (l.perform move).1.connections[number]? = some c) (told : c.cancelled = true) :
    ¬(l.perform move).1.Lives number ∨ .cancel number ∈ moves ++ [move] := by
  rw [lives_perform]
  cases known : l.connections[number]? with
  | none =>
    obtain ⟨rfl, -⟩ := connection_perform_of_none known made
    cases told
  | some old =>
    obtain rfl := Option.some.inj ((connection_perform known move).symm.trans made)
    have before (told : old.cancelled = true) : ¬l.Lives number ∨ .cancel number ∈ moves ++ [move] :=
      (spared number old known told).imp_right (List.mem_append_left _)
    cases move with
    | forward e =>
      simp only [shape] at told
      split at told
      · exact before (by simpa using told)
      · exact before told
    | disconnect => exact .inl id
    | reconnect peer generation resume =>
      refine .inl ?_
      rcases cases_connection known with ⟨within, -⟩ | ⟨here, -⟩ <;> dsimp only <;> omega
    | receive other =>
      simp only [shape] at told
      split at told <;> exact before told
    | abandon other =>
      simp only [shape] at told
      split at told <;> exact before told
    | cancel other =>
      simp only [shape] at told
      split at told
      · rename_i here
        exact .inr (here ▸ List.mem_append_right _ List.mem_cons_self)
      · exact before told
    | _ => exact before told

theorem Tended.forward (tended : l.Tended) (e : Entry) : l.perform (.forward e) =
    if l.link.phase = .streaming ∧ l.current.served = true
    then ({ l with current := { l.current with queue := l.current.queue ++ [e] } }, some true)
    else (l, some false) := by
  simp only [Line.perform, Line.forward, forwards, Link.isStreaming]
  by_cases streams : l.link.phase = .streaming
  · have fed : l.current.fed = true :=
      (tended.fed _ _ l.connection_current).mpr ⟨rfl, by rw [streams]; decide⟩
    cases served : l.current.served <;>
      simp [Connection.offer, Connection.takes, fed, served, streams]
  · simp [streams]

theorem ack_moves (l : Line) (offset : Nat) : (l.perform (.recordAck offset)).2 =
    some (decide ((l.perform (.recordAck offset)).1.link.lastAck ≠ l.link.lastAck)) := by
  simp only [perform, onLink, Link.recordAck]
  cases news : l.link.accepts offset with
  | true =>
    have more : l.link.lastAck < offset := (of_decide_eq_true news).2
    simp [Nat.ne_of_gt more]
  | false =>
    simp only [Bool.false_eq_true, if_false]
    split <;> simp [Link.touch]

theorem lives_opened (peer : Peer) (generation resume : Nat)
    (known : (opened peer generation resume).connections[number]? = some c) :
    c = {} ∧ (opened peer generation resume).Lives number := by
  rcases cases_connection known with ⟨before, -⟩ | ⟨here, rfl⟩
  · exact absurd before (Nat.not_lt_zero _)
  · exact ⟨rfl, here, fun gone => by cases gone⟩

/-- What every move keeps. -/
structure Keeps (start : Line) (moves : List Move) (l : Line) : Prop where
  tended : l.Tended
  accounts : ∀ number,
    Accounts (along (given number) moves start) (along (taken number) moves start) l number
  past : l.past.length = moves.countP Move.reconnects
  spared : ∀ number c, l.connections[number]? = some c → c.cancelled = true →
    ¬l.Lives number ∨ .cancel number ∈ moves
  served : ∀ number c, l.connections[number]? = some c → (c.served = true ↔ ¬Left moves number)

theorem keeps_opened (peer : Peer) (generation resume : Nat) :
    Keeps (opened peer generation resume) [] (opened peer generation resume) := by
  refine ⟨⟨fun number c known => ?_, fun number c known gone => ?_⟩, fun number => ?_, rfl,
    fun number c known told => ?_, fun number c known => ?_⟩
  · obtain ⟨rfl, lives⟩ := lives_opened peer generation resume known
    exact iff_of_true rfl lives
  · exact absurd (lives_opened peer generation resume known).2 gone
  · unfold Accounts
    split
    · rename_i c known
      obtain ⟨rfl, -⟩ := lives_opened peer generation resume known
      exact ⟨fun _ => rfl, List.prefix_refl _, fun _ => rfl⟩
    · exact ⟨rfl, rfl⟩
  · obtain ⟨rfl, -⟩ := lives_opened peer generation resume known
    cases told
  · obtain ⟨rfl, -⟩ := lives_opened peer generation resume known
    refine iff_of_true rfl ?_
    rintro ⟨before, none, -⟩
    simp at none

theorem keeps_run (peer : Peer) (generation resume : Nat) (moves : List Move) :
    Keeps (opened peer generation resume) moves (run moves (opened peer generation resume)) := by
  induction moves using List.reverseRecOn with
  | nil => exact keeps_opened peer generation resume
  | append_singleton moves move ih =>
    rw [run_snoc]
    refine ⟨ih.tended.perform move, fun number => ?_, ?_,
      fun number c made told => spared_perform move ih.spared made told,
      fun number c made => served_perform move ih.past ih.served made⟩
    · rw [along_snoc, along_snoc]
      exact (ih.accounts number).perform ih.tended move
    · rw [length_perform, ih.past, List.countP_append, List.countP_singleton]

/-- Through all moves, from the opening of a link on. -/
theorem lived (peer : Peer) (generation resume : Nat) (moves : List Move) :
    Lived (opened peer generation resume) resume moves
      (run moves (opened peer generation resume)) := by
  have keeps := keeps_run peer generation resume moves
  refine ⟨⟨rfl, rfl⟩, standing_run _ _, keeps.past, keeps.tended.fed, keeps.tended.cancelled,
    keeps.spared, keeps.served, fun number c known => ?_, keeps.tended.forward, ack_moves _, fun later kept => ?_⟩
  · have accounted := keeps.accounts number
    rw [Accounts, known] at accounted
    exact accounted
  · have advances := foldl_turn_advances
      (Line.standing (run moves (opened peer generation resume)).link) kept
    rw [← standing_run] at advances
    exact ⟨advances.1, fun gone => congrArg Prod.snd (advances.2 gone)⟩

def visitor : Peer := ⟨"r", default, ""⟩

/-- A replica that comes back once. Of what it got the first time, one entry is taken out. -/
def comeAndGone : List Move :=
  [.forward ⟨1, [97], none⟩, .beginCatchUp, .beginStreaming, .forward ⟨2, [98], none⟩, .receive 0,
    .recordAck 2, .forward ⟨3, [99], none⟩, .disconnect, .forward ⟨4, [100], none⟩, .recordAck 4,
    .reconnect visitor 2 1]

/-- The first connection is left with the entry at offset 3, and the second one starts at 1. -/
theorem lived_twice :
    Lived (opened visitor 1 0) 0 comeAndGone (run comeAndGone (opened visitor 1 0)) ∧
    (run comeAndGone (opened visitor 1 0)).connections =
      [⟨[⟨3, [99], none⟩], false, true, true⟩, {}] ∧
    (run comeAndGone (opened visitor 1 0)).link.lastAck = 1 :=
  ⟨lived visitor 1 0 comeAndGone, by decide, rfl⟩

end Line
end QuorumLog
