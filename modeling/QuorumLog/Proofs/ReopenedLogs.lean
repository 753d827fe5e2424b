import QuorumLog.Proofs.EntryShipment
import QuorumLog.Proofs.StoredRuns
import QuorumLog.Proofs.SystemGrowth

/-! Logs of nodes that come and go. What is in a directory is found again when it is opened, whatever
was appended, so a log that has the beginning of a history has the same beginning after it was closed
and opened. A log in memory lives as long as someone holds it. -/

namespace QuorumLog

/-- An entry that fits into a frame fits into a record. -/
theorem Record.fits_of_portable {e : Entry} (portable : e.Portable) (small : e.offset < UInt64.size) :
    Fits e := by
  refine ⟨small, ?_⟩
  unfold Entry.Portable Frame.maxPayload at portable
  have room : UInt32.size = 2 ^ 32 := rfl
  cases metadata : e.metadata with
  | none =>
    have same : body e = e.payload := by rw [body, metadata]
    rw [metadata, Option.elim_none] at portable
    rw [same]
    omega
  | some bytes =>
    have same : body e = LittleEndian.encode 4 e.payload.length ++ e.payload ++ bytes := by
      rw [body, metadata]
    rw [metadata, Option.elim_some] at portable
    rw [same, List.length_append, List.length_append, LittleEndian.length_encode]
    omega

namespace Store

variable {log after : Store} {history : List Entry} {e : Entry}

/-- A log that is closed and opened again, with segments of another size. -/
def reopen : Store → Nat → Except Fault Store
  | volatile log, segmentSize => (log.reopen segmentSize).map volatile
  | segmented log, segmentSize => (log.reopen segmentSize).map segmented

/-- What a log needs to be found again. -/
def Findable : Store → Prop
  | volatile _ => True
  | segmented log => log.Findable

/-- Whatever is appended to a log, it can be found again. -/
theorem lasting_findable : LawfulLog.Lasting Findable where
  append {log} payload metadata sound findable admitted := by
    cases log with
    | volatile log => trivial
    | segmented log =>
      obtain ⟨parts, filed⟩ : ∃ parts, log.Filed parts := sound
      obtain ⟨after, -, stored, -⟩ := filed.store (e := ⟨log.highest + 1, payload, metadata⟩) rfl
      have ran : LocalLog.append (segmented log) payload metadata =
          (segmented after, .ok (log.highest + 1)) := by
        show ofSegmented (log.append .sound payload metadata) = _
        rw [SegmentLog.append, stored]
        rfl
      rw [ran] at admitted ⊢
      exact SegmentLog.Findable.store findable (admitted _ rfl).1 stored
  appendEntry {log e} sound findable fits := by
    cases log with
    | volatile log => trivial
    | segmented log =>
      obtain ⟨parts, filed⟩ : ∃ parts, log.Filed parts := sound
      by_cases next : e.offset = log.highest + 1
      · obtain ⟨after, -, stored, -⟩ := filed.store next
        have ran : LocalLog.appendEntry (segmented log) e = (segmented after, .ok ()) := by
          show ofSegmented (log.appendEntry .sound e) = _
          rw [SegmentLog.appendEntry, if_neg (not_not_intro next), stored]
          rfl
        rw [ran]
        exact SegmentLog.Findable.store findable fits.1 stored
      · have same : (LocalLog.appendEntry log e).1 = log :=
          congrArg Prod.fst (log.appendEntry_of_apart next)
        show Findable (segmented (LocalLog.appendEntry log e).1)
        rw [same]
        exact findable

/-! ### Copies -/

/-- A log that has the beginning of a history, forgot nothing of it, and can be found again. -/
structure Copies (history : List Entry) (log : Store) : Prop where
  complete : LawfulLog.Complete log
  findable : log.Findable
  begins : LawfulLog.entries log <+: history

/-- A new log has the beginning of any history. -/
theorem copies_fresh (settings : StoreSettings) (history : List Entry) :
    (segmented ⟨settings, {}, [], none, 0⟩).Copies history where
  complete := ⟨(SegmentLog.follows_fresh settings).sound, rfl⟩
  findable := (SegmentLog.follows_fresh settings).findable
  begins := List.nil_prefix

theorem copies_empty (history : List Entry) : (volatile {}).Copies history where
  complete := ⟨⟨⟨rfl, rfl⟩, fun e held => by cases held⟩, rfl⟩
  findable := trivial
  begins := List.nil_prefix

/-- A log can be closed and opened again, and is then what it was. -/
def Reopens (history : List Entry) (log : Store) : Prop :=
  ∀ segmentSize, 1 ≤ segmentSize → ∃ after, log.reopen segmentSize = .ok after ∧
    after.Copies history ∧ LawfulLog.entries after = LawfulLog.entries log

theorem Copies.reopens (copies : log.Copies history) : log.Reopens history := by
  intro segmentSize sized
  cases log with
  | volatile log => exact ⟨volatile log, rfl, copies, rfl⟩
  | segmented log =>
    obtain ⟨⟨sound, oldest⟩, findable, begins⟩ := copies
    have complete : LawfulLog.Complete (L := SegmentLog) log := ⟨sound, oldest⟩
    have follows := SegmentLog.follows_of_complete complete findable
    obtain ⟨follows', same⟩ := follows.resettle { log.settings with segmentSize := segmentSize }
    have complete' := LawfulLog.complete_of_same complete follows'.sound same rfl
    refine ⟨segmented { log with settings := { log.settings with segmentSize := segmentSize } },
      congrArg (Except.map segmented) (follows.reopen sized), ?_, same⟩
    refine ⟨⟨complete'.sound, complete'.oldest⟩, follows'.findable, ?_⟩
    exact Eq.subst (motive := (· <+: history)) same.symm begins

end Store

end QuorumLog
