import QuorumLog.Replica.Basic

/-! The attempts of a replica, one after the other. An attempt that ends in a fault is followed by
another after a wait that doubles each time up to a bound; an operator who cuts the connection starts
the waits anew; a fatal fault and a stop end it all. The waits here are without the random part that
keeps replicas from coming back all at once. -/

namespace QuorumLog

/-- What follows the end of an attempt. -/
inductive Verdict where
  | retry (wait : Span)
  | finished (result : Except Fault Unit)
deriving Repr

namespace Replica

variable {L : Type}

/-- Ends the attempts without a fault. -/
def rest (r : Replica L) : Replica L := { r with running := false, phase := .stopped }

/-- Starts the attempts, with the first wait; a replica that runs is not started again, and one that
was stopped has nothing to do (`Replica.run`). -/
def run (r : Replica L) : Replica L × Option (Except Fault Unit) :=
  if r.running then (r, some (.error (.replication .replicaRunning)))
  else if r.stopped then ({ r with delay := r.settings.firstDelay }.rest, some (.ok ()))
  else ({ r with running := true, delay := r.settings.firstDelay }, none)

/-- Takes the end of an attempt: the operator cut it, or a fault did (`Replica.run`). -/
def attemptEnded (r : Replica L) (ending : Except Fault Unit) : Replica L × Verdict :=
  let again (r : Replica L) : Replica L × Verdict :=
    ({ r with
        phase := .disconnected
        tally := { r.tally with reconnects := r.tally.reconnects + 1 } }, .retry r.delay)
  if r.stopped then (r.rest, .finished (.ok ()))
  else match ending with
    | .ok () => again { r with delay := r.settings.firstDelay }
    | .error fault =>
      if fault.isFatal then
        ({ r with running := false, phase := .failed }, .finished (.error fault))
      else again r

/-- The longer of the next waits, within the bound. -/
def longerDelay (r : Replica L) : Span :=
  ⟨min (2 * r.delay.nanos) r.settings.maxDelay.nanos⟩

/-- Takes the end of a wait: another attempt follows unless it was stopped. -/
def waited (r : Replica L) : Replica L × Option (Except Fault Unit) :=
  if r.stopped then (r.rest, some (.ok ()))
  else ({ r with delay := r.longerDelay }, none)

end Replica

end QuorumLog
