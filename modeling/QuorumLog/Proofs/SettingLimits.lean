import Mathlib.Tactic.Common
import QuorumLog.Settings.Basic

/-! How far the sums and products of settings go. Counts are added in 32 bits before they are
compared, and the time after which a silent peer is given up is multiplied long after the settings
were accepted. Both are what they would be over all whole numbers exactly as long as the sums stay
below `2 ^ 32` and the time can be held. -/

namespace QuorumLog

/-- One more than a count of 32 bits, as long as that fits. -/
theorem toNat_succ_of_lt {n : UInt32} (fits : n.toNat + 1 < UInt32.size) :
    (n + 1).toNat = n.toNat + 1 := by
  simp only [UInt32.toNat_add, UInt32.toNat_one]
  exact Nat.mod_eq_of_lt fits

/-- The largest count has no successor of 32 bits. -/
theorem succ_eq_zero_of_largest {n : UInt32} (last : ¬n.toNat + 1 < UInt32.size) : n + 1 = 0 := by
  have bound : n.toNat < UInt32.size := n.toNat_lt_size
  apply UInt32.toNat_inj.mp
  have whole : n.toNat + 1 = UInt32.size := by omega
  simp only [UInt32.toNat_add, UInt32.toNat_one, whole]
  rfl

namespace Span

/-- A time so many times over, if that can be held, and nothing else. -/
theorem times?_eq_some_iff {span product : Span} {count : UInt32} :
    span.times? count = some product ↔
      product.nanos = span.nanos * count.toNat ∧ product.nanos < limit := by
  unfold times?
  constructor
  · intro held
    split at held
    · cases held
      exact ⟨rfl, ‹_›⟩
    · cases held
  · rintro ⟨same, held⟩
    simp only [← same, held, if_true]

end Span

namespace Settings

/-- The settings leave nothing to object to, over all whole numbers. -/
structure Sound (s : Settings) : Prop where
  named : s.nodeId ≠ ""
  /-- A write can be durable on the master and at most on all replicas that may connect. -/
  copies : s.role = .master →
    1 ≤ s.copies.toNat ∧ s.copies.toNat ≤ s.maxReplicas.toNat + 1
  master : s.role = .replica → s.masterAddress ≠ none
  missed : 1 ≤ s.missedHeartbeats.toNat
  heartbeat : 0 < s.heartbeat.nanos
  batch : 0 < s.batchSize

variable {s : Settings}

theorem roleObjection?_of_replica (replica : s.role = .replica) :
    s.roleObjection? = none ↔ s.masterAddress ≠ none := by
  cases address : s.masterAddress <;> simp [roleObjection?, replica, address]

/-- A master objects to no copies and to more of them than it can have, and tells the true limit. -/
theorem roleObjection?_of_master (master : s.role = .master)
    (fits : s.maxReplicas.toNat + 1 < UInt32.size) :
    s.roleObjection? =
      if s.copies.toNat = 0 then some .noCopies
      else if s.copies.toNat ≤ s.maxReplicas.toNat + 1 then none
      else some (.tooManyCopies s.copies (s.maxReplicas + 1)) := by
  have few : s.copies < 1 ↔ s.copies.toNat = 0 := by
    rw [UInt32.lt_iff_toNat_lt, UInt32.toNat_one]
    omega
  have many : s.copies > s.maxReplicas + 1 ↔ ¬s.copies.toNat ≤ s.maxReplicas.toNat + 1 := by
    rw [gt_iff_lt, UInt32.lt_iff_toNat_lt, toNat_succ_of_lt fits]
    omega
  simp only [roleObjection?, master, few, many, ite_not]

/-- A master with the largest limit on replicas objects to every number of copies. -/
theorem roleObjection?_of_largest (master : s.role = .master)
    (last : ¬s.maxReplicas.toNat + 1 < UInt32.size) : s.roleObjection? ≠ none := by
  simp only [roleObjection?, master, succ_eq_zero_of_largest last]
  split
  · simp
  · rename_i some_copies
    have above : s.copies > 0 := by
      simp only [UInt32.lt_iff_toNat_lt, UInt32.toNat_one] at some_copies
      simp only [gt_iff_lt, UInt32.lt_iff_toNat_lt, UInt32.toNat_zero]
      omega
    simp [above]

/-- Settings are accepted if their role, the heartbeats and the batches have nothing against them. -/
theorem validate_eq_ok_iff : s.validate = .ok () ↔
    s.nodeId ≠ "" ∧ s.roleObjection? = none ∧ s.missedHeartbeats ≠ 0 ∧ s.heartbeat.nanos ≠ 0 ∧
      s.batchSize ≠ 0 := by
  unfold validate objection?
  cases objection : s.roleObjection? <;> simp <;> grind

/-- The role has nothing against sound settings as long as the limit on replicas leaves room for the
master in 32 bits. -/
theorem roleObjection?_eq_none_iff : s.roleObjection? = none ↔
    (s.role = .master → s.maxReplicas.toNat + 1 < UInt32.size ∧
      1 ≤ s.copies.toNat ∧ s.copies.toNat ≤ s.maxReplicas.toNat + 1) ∧
    (s.role = .replica → s.masterAddress ≠ none) := by
  cases role : s.role with
  | master =>
    by_cases fits : s.maxReplicas.toNat + 1 < UInt32.size
    · simp only [roleObjection?_of_master role fits, fits, true_and, true_implies]
      split
      · simp [*]
      · split <;> simp [*]
        omega
    · simp [roleObjection?_of_largest role fits, fits]
  | replica => simp [roleObjection?_of_replica role]

/-- Settings are accepted exactly if they are sound and the limit on replicas leaves room for the
master in 32 bits. -/
theorem validate_iff_sound : s.validate = .ok () ↔
    (s.role = .master → s.maxReplicas.toNat + 1 < UInt32.size) ∧ s.Sound := by
  have missed : s.missedHeartbeats ≠ 0 ↔ 1 ≤ s.missedHeartbeats.toNat := by
    rw [ne_eq, ← UInt32.toNat_inj, UInt32.toNat_zero]
    omega
  rw [validate_eq_ok_iff, roleObjection?_eq_none_iff, missed]
  constructor
  · rintro ⟨named, ⟨copies, master⟩, missed, heartbeat, batch⟩
    exact ⟨fun role => (copies role).1,
      named, fun role => (copies role).2, master, missed, by omega, by omega⟩
  · rintro ⟨fits, named, copies, master, missed, heartbeat, batch⟩
    exact ⟨named, ⟨fun role => ⟨fits role, copies role⟩, master⟩, missed, by omega, by omega⟩

/-- The time after which a silent peer is given up: one heartbeat more than may be missed. -/
def patience (s : Settings) : Span := ⟨s.heartbeat.nanos * (s.missedHeartbeats.toNat + 1)⟩

/-- With accepted settings a peer may be silent for longer than a heartbeat. -/
theorem heartbeat_lt_patience (accepted : s.validate = .ok ()) :
    s.heartbeat.nanos < s.patience.nanos := by
  obtain ⟨-, -, missed, heartbeat, -⟩ := validate_eq_ok_iff.mp accepted
  have missed : 1 ≤ s.missedHeartbeats.toNat := by
    rw [ne_eq, ← UInt32.toNat_inj, UInt32.toNat_zero] at missed
    omega
  calc s.heartbeat.nanos
      < s.heartbeat.nanos * 2 := by omega
    _ ≤ s.heartbeat.nanos * (s.missedHeartbeats.toNat + 1) := Nat.mul_le_mul_left _ (by omega)

/-- With accepted settings the time is the exact product exactly as long as one more than the missed
heartbeats is a count and the product can be held. -/
theorem liveness?_eq_patience_iff (accepted : s.validate = .ok ()) :
    s.liveness? = some s.patience ↔
      s.missedHeartbeats.toNat + 1 < UInt32.size ∧ s.patience.nanos < Span.limit := by
  obtain ⟨-, -, -, heartbeat, -⟩ := validate_eq_ok_iff.mp accepted
  rw [liveness?, Span.times?_eq_some_iff]
  constructor
  · rintro ⟨product, held⟩
    refine ⟨?_, held⟩
    by_contra last
    rw [succ_eq_zero_of_largest last] at product
    have : s.patience.nanos ≠ 0 := Nat.mul_ne_zero heartbeat (Nat.succ_ne_zero _)
    exact this product
  · rintro ⟨fits, held⟩
    exact ⟨by rw [toNat_succ_of_lt fits, patience], held⟩

/-- Settings are accepted exactly if they are sound over the whole numbers and the limit on replicas
leaves room for the master in 32 bits, and with such room a master objects to a number of copies for
what it is. With accepted settings the time for which a peer may be silent is longer than a heartbeat,
and it is what the settings ask for exactly as long as the heartbeats in it can be counted and the time
can be held. -/
theorem exact_within_limits (s : Settings) :
    (s.validate = .ok () ↔
      (s.role = .master → s.maxReplicas.toNat + 1 < UInt32.size) ∧ s.Sound) ∧
    (s.role = .master → s.maxReplicas.toNat + 1 < UInt32.size →
      s.roleObjection? =
        if s.copies.toNat = 0 then some .noCopies
        else if s.copies.toNat ≤ s.maxReplicas.toNat + 1 then none
        else some (.tooManyCopies s.copies (s.maxReplicas + 1))) ∧
    (s.validate = .ok () →
      s.heartbeat.nanos < s.patience.nanos ∧
      (s.liveness? = some s.patience ↔
        s.missedHeartbeats.toNat + 1 < UInt32.size ∧ s.patience.nanos < Span.limit)) := by
  refine ⟨validate_iff_sound, roleObjection?_of_master, fun accepted => ⟨?_, ?_⟩⟩
  · exact heartbeat_lt_patience accepted
  · exact liveness?_eq_patience_iff accepted

/-- A master whose every write waits for all replicas that may connect. -/
def demanding : Settings := { ofName "m" with copies := 9 }

theorem demanding_is_exact :
    demanding.validate = .ok () ∧ demanding.roleObjection? = none ∧
      demanding.liveness? = some (.ofMillis 20000) := by
  obtain ⟨judged, role, later⟩ := exact_within_limits demanding
  have accepted : demanding.validate = .ok () :=
    judged.mpr ⟨by decide, by decide, by decide, by decide, by decide, by decide, by decide⟩
  refine ⟨accepted, (role rfl (by decide)).trans (by decide), ?_⟩
  exact (later accepted).2.mpr ⟨by decide, by decide⟩

/-- With the largest limit on replicas, no number of copies is accepted, though the settings are sound.
With all heartbeats missed that can be counted, accepted settings give up a peer at once. With the
longest heartbeat of a file, and one missed heartbeat less, they ask for a time that cannot be held. -/
theorem limits_are_reached :
    (let s : Settings := { ofName "m" with maxReplicas := 4294967295 }
     s.Sound ∧ s.validate ≠ .ok ()) ∧
    (let s : Settings := { ofName "m" with missedHeartbeats := 4294967295 }
     s.validate = .ok () ∧ s.liveness? = some ⟨0⟩) ∧
    (let s : Settings :=
      { ofName "m" with
        heartbeat := .ofMillis 18446744073709551615
        missedHeartbeats := 4294967294 }
     s.validate = .ok () ∧ s.liveness? = none) := by
  refine ⟨⟨?_, by decide⟩, ⟨by decide, by decide⟩, ⟨by decide, by decide⟩⟩
  exact ⟨by decide, by decide, by decide, by decide, by decide, by decide⟩

end Settings

end QuorumLog
