import QuorumLog.Proofs.Credit
import QuorumLog.Proofs.LineRuns

/-! Many who look at the same writes. A promise can be settled once, and what the first attempt says is what
everyone sees from then on, by whichever copy of a future and however long ago they began to wait. A promise
that is gone unsettled leaves nothing to wait for. Nobody who looks or waits makes a difference to anyone. -/

namespace QuorumLog

/-! ### Waiting for one write -/

namespace Cell

variable {c : Cell} {outcome : Durability}

end Cell

namespace Board

variable {b : Board} {write : Nat}

end Board

/-! ### What can be done -/

/-- How somebody waits for a write: for a time, to see whether it is durable or how it stands, or without
bound. -/
inductive Wait where
  | durable
  | state
  | outcome
deriving DecidableEq, Repr

/-- Some writes with their promises, the futures about them, and those who wait. -/
structure Scene where
  board : Board := {}
  /-- The write that each future is about. -/
  futures : List Nat := []
  /-- Who waits, for which write and how. The last to begin stands first. -/
  waits : List (Nat × Nat × Wait) := []

/-- What somebody does. A promise has the number of its write. -/
inductive Deed where
  /-- Makes a promise and a future about the same new write. -/
  | create (offset : Option Nat)
  | clone (future : Nat)
  | resolve (write : Nat)
  | fail (write : Nat) (reason : String)
  | drop (write : Nat)
  /-- Looks at the state by the promise. -/
  | peek (write : Nat)
  | look (future : Nat)
  | isDurable (future : Nat)
  /-- Begins to wait on a future, under a number of their own. -/
  | start (waiter future : Nat) (wait : Wait)
  /-- Looks whether a wait is over. -/
  | poll (waiter : Nat) (timeUp : Bool)
deriving DecidableEq, Repr

/-- What they are told. -/
inductive Reply where
  | nothing
  | future (number : Nat)
  | first (yes : Bool)
  | state (state : Durability)
  | flag (yes : Bool)
  | outcome (result : Except Fault Nat)
  | waiting

/-- What the end of a wait tells. -/
def Wait.told (wait : Wait) (c : Cell) : Reply :=
  match wait, c.state with
  | .durable, seen => .flag (seen = .durable)
  | .state, seen => .state seen
  | .outcome, .durable => .outcome (.ok (c.offset.getD 0))
  | .outcome, .failed reason => .outcome (.error (.replication (.other reason)))
  | .outcome, .pending => .outcome (.error (.stopped (.abandoned (c.offset.getD 0))))

/-- What a look at a wait tells. -/
def Wait.reply (wait : Wait) (timeUp : Bool) (c : Cell) : Reply :=
  match wait with
  | .durable => ((c.wait? timeUp).map .flag).getD .waiting
  | .state => ((c.settled? timeUp).map .state).getD .waiting
  | .outcome => (c.outcome?.map .outcome).getD .waiting

namespace Deed

/-- The write that a promise settles, and how. -/
def settles? : Deed → Option (Nat × Durability)
  | .resolve write => some (write, .durable)
  | .fail write reason => some (write, .failed reason)
  | _ => none

/-- The offset of the write that is new with a deed. -/
def created? : Deed → Option (Option Nat)
  | .create offset => some offset
  | _ => none

/-- The offsets of all writes that some deeds create, by the number of the write. -/
def created (deeds : List Deed) : List (Option Nat) := deeds.filterMap created?

/-- Whether somebody only looks. -/
def observes : Deed → Bool
  | .peek _ | .look _ | .isDurable _ | .start _ _ _ | .poll _ _ => true
  | _ => false

/-- The start of the wait that a look is about. -/
def begins : Deed → Deed → Bool
  | .poll waiter _, .start other _ _ => waiter = other
  | _, _ => false

/-- Whether what a deed is told may depend on another one before it. -/
def matters (deed other : Deed) : Bool := !other.observes || deed.begins other

end Deed

/-- What a deed makes of the cell of a write. -/
def Cell.after (write : Nat) (deed : Deed) (c : Cell) : Cell :=
  match deed.settles? with
  | some (other, outcome) => if other = write ∧ c.held then c.settle outcome else c
  | none => if deed = .drop write then c.release else c

namespace Scene

/-- Whether somebody still has the promise of a write. -/
def holds (s : Scene) (write : Nat) : Bool := (s.board.cells[write]?.map (·.held)).getD false

/-- The board after an attempt to settle a write, which needs its promise. -/
def settle (s : Scene) (write : Nat) (outcome : Durability) : Board :=
  if s.holds write then s.board.settle write outcome else s.board

/-- The scene after a deed. -/
def after (s : Scene) (deed : Deed) : Scene where
  board := match deed with
    | .create offset => s.board.push (.opened offset)
    | .resolve write => s.settle write .durable
    | .fail write reason => s.settle write (.failed reason)
    | .drop write => s.board.release write
    | _ => s.board
  futures := s.futures ++ match deed with
    | .create _ => [s.board.size]
    | .clone future => s.futures[future]?.toList
    | _ => []
  waits := (match deed with
    | .start waiter future wait => (s.futures[future]?.map fun write => (waiter, write, wait)).toList
    | _ => []) ++ s.waits

/-- What a look at a future tells. -/
def seen (s : Scene) (future : Nat) (tell : Cell → Reply) : Reply :=
  ((s.futures[future]?.bind (s.board.cells[·]?)).map tell).getD .nothing

/-- What is told about a deed. -/
def reply (s : Scene) : Deed → Reply
  | .create _ => .future s.futures.length
  | .clone future => if future < s.futures.length then .future s.futures.length else .nothing
  | .resolve write | .fail write _ =>
    if s.holds write then .first (s.board.isPending write) else .nothing
  | .drop _ | .start _ _ _ => .nothing
  | .peek write => if s.holds write then .state (s.board.state write) else .nothing
  | .look future => s.seen future fun c => .state c.state
  | .isDurable future => s.seen future fun c => .flag (c.state = .durable)
  | .poll waiter timeUp =>
    ((s.waits.lookup waiter).bind fun (write, wait) =>
      s.board.cells[write]?.map (wait.reply timeUp)).getD .nothing

/-- One deed after the other. -/
def run (deeds : List Deed) (s : Scene) : Scene := deeds.foldl after s

/-- How a deed tries to settle a write whose promise is there. -/
def attempt? (s : Scene) (write : Nat) (deed : Deed) : Option Durability :=
  deed.settles?.bind fun (other, outcome) =>
    if other = write ∧ s.holds write then some outcome else none

/-- All attempts to settle a write, in their order. -/
def attempts (write : Nat) : List Deed → Scene → List Durability
  | [], _ => []
  | deed :: later, s => (s.attempt? write deed).toList ++ attempts write later (s.after deed)

variable {s t r : Scene} {deed x : Deed} {write : Nat} {outcome : Durability} {c : Cell}

/-! ### One deed -/

theorem state_of_cell (known : s.board.cells[write]? = some c) : s.board.state write = c.state := by
  rw [Board.state, known]
  rfl

theorem size_after (s : Scene) (deed : Deed) : s.board.size ≤ (s.after deed).board.size := by
  have settled (write : Nat) (outcome : Durability) :
      s.board.size ≤ (s.settle write outcome).size := by
    unfold settle
    split <;> simp
  cases deed with
  | create offset => exact Nat.le_of_lt (by simp [after])
  | resolve write => exact settled write _
  | fail write reason => exact settled write _
  | drop write => simp [after, Board.release, Board.size]
  | _ => exact Nat.le_refl _

/-! ### Any number of deeds -/

/-- What a state of a scene keeps of an earlier one. -/
structure Later (s t : Scene) : Prop where
  futures : s.futures <+: t.futures
  cells : ∀ (write : Nat) (c : Cell), s.board.cells[write]? = some c →
    ∃ c' : Cell, t.board.cells[write]? = some c' ∧ c'.offset = c.offset ∧
      (c.state ≠ .pending → c'.state = c.state) ∧ (c.held = false → c' = c)

theorem Later.trans (first : s.Later t) (second : t.Later r) : s.Later r where
  futures := first.futures.trans second.futures
  cells write c known := by
    obtain ⟨c', known', offset, settled, free⟩ := first.cells write c known
    obtain ⟨c'', known'', offset', settled', free'⟩ := second.cells write c' known'
    refine ⟨c'', known'', offset'.trans offset, fun done => ?_, fun gone => ?_⟩
    · have same := settled done
      exact (settled' (same ▸ done)).trans same
    · have same := free gone
      subst same
      exact free' gone

/-- Futures and waits are about writes that are there. -/
structure Placed (s : Scene) : Prop where
  futures : ∀ write ∈ s.futures, write < s.board.size
  waits : ∀ waiting ∈ s.waits, waiting.2.1 < s.board.size

theorem Placed.after (placed : s.Placed) (deed : Deed) : (s.after deed).Placed := by
  have grows := s.size_after deed
  refine ⟨fun write member => ?_, fun waiting member => ?_⟩
  · rcases List.mem_append.mp member with old | new
    · exact Nat.lt_of_lt_of_le (placed.futures write old) grows
    · cases deed with
      | create offset =>
        obtain rfl := List.mem_singleton.mp new
        exact Nat.lt_of_lt_of_eq (Nat.lt_succ_self _) (Board.size_push ..).symm
      | clone future =>
        exact placed.futures write (List.mem_of_getElem? (Option.mem_toList.mp new))
      | _ => cases new
  · rcases List.mem_append.mp member with new | old
    · cases deed with
      | start waiter future wait =>
        obtain ⟨write, held, rfl⟩ := Option.map_eq_some_iff.mp (Option.mem_toList.mp new)
        exact placed.futures write (List.mem_of_getElem? held)
      | _ => cases new
    · exact Nat.lt_of_lt_of_le (placed.waits waiting old) grows

theorem Placed.run (placed : s.Placed) (deeds : List Deed) : (run deeds s).Placed :=
  List.foldlRecOn deeds _ placed fun _ placed deed _ => placed.after deed

/-! ### Promises that are created and dropped -/

variable {deeds : List Deed}

theorem run_snoc (deeds : List Deed) (s : Scene) (deed : Deed) :
    run (deeds ++ [deed]) s = (run deeds s).after deed := by simp [run]

/-- Two scenes that are the same to whoever does a deed. -/
structure Alike (deed : Deed) (s t : Scene) : Prop where
  board : s.board = t.board
  futures : s.futures = t.futures
  waits : ∀ waiter timeUp, deed = .poll waiter timeUp →
    s.waits.lookup waiter = t.waits.lookup waiter

theorem Alike.reply (alike : Alike deed s t) : s.reply deed = t.reply deed := by
  obtain ⟨board, futures, waits⟩ := s
  obtain ⟨_, _, waits'⟩ := t
  obtain ⟨rfl, rfl, same⟩ := alike
  cases deed with
  | poll waiter timeUp =>
    dsimp only [Scene.reply]
    rw [same waiter timeUp rfl]
  | _ => rfl

theorem Alike.after (alike : Alike x s t) (deed : Deed) : Alike x (s.after deed) (t.after deed) := by
  obtain ⟨board, futures, waits⟩ := s
  obtain ⟨_, _, waits'⟩ := t
  obtain ⟨rfl, rfl, same⟩ := alike
  refine ⟨by cases deed <;> rfl, rfl, fun waiter timeUp here => ?_⟩
  dsimp only [Scene.after]
  rw [List.lookup_append, List.lookup_append, same waiter timeUp here]

/-- A deed that does not matter to another one can be left out. -/
theorem Alike.skip (alike : Alike x s t) (skipped : x.matters deed = false) :
    Alike x (s.after deed) t := by
  cases deed with
  | start waiter future wait =>
    refine ⟨alike.board, (List.append_nil _).trans alike.futures, fun other timeUp here => ?_⟩
    subst here
    have apart : (other == waiter) = false := by
      simpa [Deed.matters, Deed.observes, Deed.begins] using skipped
    have others : ((s.futures[future]?.map fun write => (waiter, write, wait)).toList).lookup other =
        none := by
      cases s.futures[future]? <;> simp [List.lookup_cons, apart]
    refine (List.lookup_append).trans ?_
    rw [others, Option.none_or]
    exact alike.waits other timeUp rfl
  | peek write => exact ⟨alike.board, (List.append_nil _).trans alike.futures, alike.waits⟩
  | look future => exact ⟨alike.board, (List.append_nil _).trans alike.futures, alike.waits⟩
  | isDurable future => exact ⟨alike.board, (List.append_nil _).trans alike.futures, alike.waits⟩
  | poll waiter timeUp => exact ⟨alike.board, (List.append_nil _).trans alike.futures, alike.waits⟩
  | _ => cases skipped

theorem Alike.run (alike : Alike x s t) (deeds : List Deed) :
    Alike x (run deeds s) (run (deeds.filter x.matters) t) := by
  induction deeds generalizing s t with
  | nil => exact alike
  | cons deed later ih =>
    cases matters : x.matters deed with
    | true =>
      rw [List.filter_cons_of_pos matters]
      exact ih (alike.after deed)
    | false =>
      rw [List.filter_cons_of_neg (by simp [matters])]
      exact ih (alike.skip matters)

/-! ### The rule -/

theorem exists_cell (within : write < s.board.size) :
    ∃ c, s.board.cells[write]? = some c ∧ c.state = s.board.state write :=
  ⟨_, List.getElem?_eq_getElem within, (state_of_cell (List.getElem?_eq_getElem within)).symm⟩

/-- Whoever waits, waits for a write that was created. -/
theorem Placed.cell {waiter : Nat} {wait : Wait} (placed : s.Placed)
    (about : s.waits.lookup waiter = some (write, wait)) :
    ∃ c, s.board.cells[write]? = some c ∧ c.state = s.board.state write := by
  obtain ⟨before, behind, split, -⟩ := List.lookup_eq_some_iff.mp about
  have member : (waiter, write, wait) ∈ s.waits := by simp [split]
  exact exists_cell (placed.waits _ member)

end Scene
end QuorumLog
