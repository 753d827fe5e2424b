import Mathlib.Data.List.Sort
import QuorumLog.Proofs.CountedSources

/-! The order in which sources vouch. What one source said and when it said it count for that source
alone: which writes it is counted for depends on its own words and not on what others said in between.
So requests of different sources can change places, and between two registrations all that matters is
what each source says one after the other. -/

namespace QuorumLog

/-- A write as everyone sees it: its offset, its cell, and who is counted for it, in no order. -/
def PendingWrite.view (w : PendingWrite) : Nat × Nat × Finset Source :=
  (w.offset, w.cell, w.sources.toFinset)

namespace Quorum

variable {q p : Quorum} {s : Source} {offset : Nat} {r : Request} {requests : List Request}

/-! ### What one source says -/

/-- A request of another source, or of none, leaves what a source was credited with. -/
theorem watermark_serve_of_other (other : r.source? ≠ some s) :
    (q.serve r).1.watermark s = q.watermark s := by
  cases r with
  | register offset => rfl
  | credit reached source =>
    rw [serve, watermark_credit, if_neg]
    exact fun same => other (congrArg some same.symm)
  | rebase source reached =>
    rw [serve, watermark_rebase, if_neg]
    exact fun same => other (congrArg some same.symm)

/-- What a source is credited with after its request is told by what it was credited with before. -/
theorem watermark_serve_congr (same : q.watermark s = p.watermark s) (r : Request) :
    (q.serve r).1.watermark s = (p.serve r).1.watermark s := by
  cases r with
  | register offset => exact same
  | credit reached source =>
    rw [serve, serve, watermark_credit, watermark_credit]
    by_cases mine : s = source
    · rw [if_pos mine, if_pos mine, ← mine, same]
    · rw [if_neg mine, if_neg mine, same]
  | rebase source reached =>
    rw [serve, serve, watermark_rebase, watermark_rebase, same]

/-- A request counts nobody but the source that makes it. -/
theorem source_of_mem_backing (counted : s ∈ q.backing offset r) : r.source? = some s := by
  rcases serve_cases q r with ⟨_, rfl⟩ | ⟨-, nobody⟩ | ⟨source, low, high, named, -, covered⟩
  · exact absurd counted (Finset.notMem_empty s)
  · rw [nobody] at counted
    exact absurd counted (Finset.notMem_empty s)
  · rw [covered, within] at counted
    split at counted
    · rw [named, Finset.mem_singleton.mp counted]
    · exact absurd counted (Finset.notMem_empty s)

/-- Whether a request counts a source is told by what the source was credited with before. -/
theorem mem_backing_congr (same : q.watermark s = p.watermark s) (r : Request) :
    s ∈ q.backing offset r ↔ s ∈ p.backing offset r := by
  cases r with
  | register offset => rfl
  | rebase source reached => rfl
  | credit reached source =>
    by_cases mine : s = source
    · subst mine
      rw [backing, backing, same]
    · have apart (q : Quorum) : s ∉ q.backing offset (.credit reached source) := fun counted =>
        mine (Option.some.inj (source_of_mem_backing counted)).symm
      exact iff_of_false (apart q) (apart p)

/-- What a source says, one request after the other. -/
abbrev saidBy (s : Source) (requests : List Request) : List Request :=
  requests.filter (·.source? = some s)

/-- What a source is credited with in the end, and the writes for which it is counted on the way, are
told by what it says. -/
theorem told_by_source (same : q.watermark s = p.watermark s) (requests : List Request) :
    (q.serveAll requests).watermark s = (p.serveAll (saidBy s requests)).watermark s ∧
      ∀ offset, s ∈ q.backers offset requests ↔ s ∈ p.backers offset (saidBy s requests) := by
  induction requests generalizing q p with
  | nil => exact ⟨same, fun _ => Iff.rfl⟩
  | cons r later ih =>
    by_cases mine : r.source? = some s
    · obtain ⟨watermark, backers⟩ := ih (watermark_serve_congr same r)
      have said : saidBy s (r :: later) = r :: saidBy s later :=
        List.filter_cons_of_pos (by simpa using mine)
      rw [said]
      refine ⟨watermark, fun offset => ?_⟩
      rw [Quorum.backers, Quorum.backers, Finset.mem_union, Finset.mem_union, backers,
        mem_backing_congr same]
    · obtain ⟨watermark, backers⟩ := ih ((watermark_serve_of_other mine).trans same)
      have said : saidBy s (r :: later) = saidBy s later :=
        List.filter_cons_of_neg (by simpa using mine)
      rw [said]
      refine ⟨watermark, fun offset => ?_⟩
      rw [Quorum.backers, Finset.mem_union, backers]
      exact or_iff_right fun counted => mine (source_of_mem_backing counted)

/-! ### What waits in the end -/

/-- When sources alone speak, a write waits on if those that were counted before and those that vouch
now are too few, and then it has just them. -/
theorem mem_view_serveAll (orderly : q.Orderly) (speak : ∀ r ∈ requests, r.source? ≠ none)
    {x : Nat × Nat × Finset Source} :
    x ∈ (q.serveAll requests).pending.map PendingWrite.view ↔
      ∃ w ∈ q.pending, (w.sources.toFinset ∪ q.backers w.offset requests).card < q.required ∧
        x = (w.offset, w.cell, w.sources.toFinset ∪ q.backers w.offset requests) := by
  have ends := orderly.serveAll requests
  have yields := yields_serveAll orderly speak
  have stands {w : PendingWrite} (held : w ∈ q.pending) :
      (q.serveAll requests).Stands w.offset w.cell
        (w.sources.toFinset ∪ q.backers w.offset requests) :=
    (Stands.waiting held rfl rfl rfl).serveAll orderly fun again => speak _ again rfl
  constructor
  · intro member
    obtain ⟨v, waits, rfl⟩ := List.mem_map.mp member
    obtain ⟨w, held, here, -⟩ := yields.waited v waits
    refine ⟨w, held, ?_⟩
    cases stands held with
    | @waiting u between there told counted =>
      obtain rfl := ends.offset_unique waits between (here.symm.trans there.symm)
      have few := ends.few waits
      rw [counted, yields.required] at few
      refine ⟨few, ?_⟩
      rw [PendingWrite.view, there, told, counted]
    | settled enough gone durable => exact absurd here.symm (gone v waits)
  · rintro ⟨w, held, few, rfl⟩
    cases stands held with
    | @waiting u waits there told counted =>
      refine List.mem_map.mpr ⟨u, waits, ?_⟩
      rw [PendingWrite.view, there, told, counted]
    | settled enough gone durable =>
      rw [yields.required] at enough
      exact absurd enough (Nat.not_le.mpr few)

/-- Two counts in order with the same writes have them in the same order. -/
theorem view_eq_of_mem_iff (left : q.Orderly) (right : p.Orderly)
    (same : ∀ x, x ∈ q.pending.map PendingWrite.view ↔ x ∈ p.pending.map PendingWrite.view) :
    q.pending.map PendingWrite.view = p.pending.map PendingWrite.view := by
  have ascending {q : Quorum} (orderly : q.Orderly) :
      (q.pending.map PendingWrite.view).Pairwise (·.1 < ·.1) :=
    List.pairwise_map.mpr orderly.ascending
  have distinct {l : List (Nat × Nat × Finset Source)} (sorted : l.Pairwise (·.1 < ·.1)) : l.Nodup :=
    sorted.imp fun below same => absurd (congrArg Prod.fst same) (Nat.ne_of_lt below)
  refine List.Perm.eq_of_pairwise (fun x y _ _ below above => ?_) (ascending left) (ascending right)
    ((List.perm_ext_iff_of_nodup (distinct (ascending left)) (distinct (ascending right))).mpr same)
  exact absurd above (Nat.lt_asymm below)

/-! ### The outcome -/

/-- Two counts of copies between which nobody can tell: the same writes wait with the same sources,
each source is credited with as much, as many writes are durable, and these are the same. -/
structure Alike (q p : Quorum) : Prop where
  required : q.required = p.required
  pending : q.pending.map PendingWrite.view = p.pending.map PendingWrite.view
  watermark : ∀ s, q.watermark s = p.watermark s
  resolved : q.resolved = p.resolved
  board : q.board = p.board

theorem alike_of_saidBy (orderly : q.Orderly) {left right : List Request}
    (spoken : ∀ r ∈ left, r.source? ≠ none) (spoken' : ∀ r ∈ right, r.source? ≠ none)
    (same : ∀ s, saidBy s left = saidBy s right) :
    (q.serveAll left).Alike (q.serveAll right) ∧ (q.returned left).Perm (q.returned right) := by
  have one := yields_serveAll orderly spoken
  have other := yields_serveAll orderly spoken'
  have backers : ∀ offset, q.backers offset left = q.backers offset right := fun offset => by
    ext s
    rw [(told_by_source rfl left).2, (told_by_source rfl right).2, same]
  have pending : (q.serveAll left).pending.map PendingWrite.view =
      (q.serveAll right).pending.map PendingWrite.view := by
    refine view_eq_of_mem_iff (orderly.serveAll left) (orderly.serveAll right) fun x => ?_
    rw [mem_view_serveAll orderly spoken, mem_view_serveAll orderly spoken']
    simp only [backers]
  have offsets : (q.serveAll left).pendingOffsets = (q.serveAll right).pendingOffsets := by
    have shown := congrArg (List.map Prod.fst) pending
    rwa [List.map_map, List.map_map] at shown
  have cells : (q.serveAll left).pending.map PendingWrite.cell =
      (q.serveAll right).pending.map PendingWrite.cell := by
    have shown := congrArg (List.map (·.2.1)) pending
    rwa [List.map_map, List.map_map] at shown
  have given : (q.returned left).Perm (q.returned right) := by
    have divided := one.divided.trans other.divided.symm
    rw [offsets] at divided
    exact (List.perm_append_right_iff _).mp divided
  refine ⟨⟨one.required.trans other.required.symm, pending, fun s => ?_, ?_, ?_⟩, given⟩
  · rw [(told_by_source rfl left).1, (told_by_source rfl right).1, same]
  · rw [one.resolved, other.resolved, given.length_eq]
  · have every : (q.serveAll left).board.cells = (q.serveAll right).board.cells :=
      List.ext_getElem? fun i => by rw [one.cells, other.cells, cells]
    exact congrArg Board.mk every

/-- Wherever requests have led, requests of different sources can change places: two of them give the
same in either order, and as long as nothing is registered, sequences in which each source says the
same give the same, however they are interleaved. The offsets given back are the same in all. -/
theorem order_of_sources (factor : UInt32) (requests : List Request) :
    (∀ r r' s s', r.source? = some s → r'.source? = some s' → s ≠ s' →
      (((ofCopies factor).serveAll requests).serveAll [r, r']).Alike
        (((ofCopies factor).serveAll requests).serveAll [r', r]) ∧
      (((ofCopies factor).serveAll requests).returned [r, r']).Perm
        (((ofCopies factor).serveAll requests).returned [r', r])) ∧
    ∀ left right : List Request, (∀ r ∈ left, r.source? ≠ none) → (∀ r ∈ right, r.source? ≠ none) →
      (∀ s, saidBy s left = saidBy s right) →
      (((ofCopies factor).serveAll requests).serveAll left).Alike
        (((ofCopies factor).serveAll requests).serveAll right) ∧
      (((ofCopies factor).serveAll requests).returned left).Perm
        (((ofCopies factor).serveAll requests).returned right) := by
  have orderly := (orderly_ofCopies factor).serveAll requests
  refine ⟨fun r r' s s' mine yours apart => ?_, fun left right => alike_of_saidBy orderly⟩
  refine alike_of_saidBy orderly ?_ ?_ fun t => ?_
  · simp [mine, yours]
  · simp [mine, yours]
  · by_cases here : s = t
    · have there : s' ≠ t := fun same => apart (here.trans same.symm)
      simp [saidBy, mine, yours, here, there]
    · simp [saidBy, mine, yours, here, List.filter_cons]

/-- Of two replicas the first makes one write durable before the second speaks, or the second makes
both durable and leaves the first nothing: the end is the same. -/
theorem order_of_replicas :
    let q := (ofCopies 2).serveAll [.register 1, .register 2, .credit 2 .master]
    let one : Request := .credit 1 (.replica "a")
    let other : Request := .rebase (.replica "b") 2
    (q.serveAll [one, other]).Alike (q.serveAll [other, one]) ∧
      (q.serve one).2 = [1] ∧ ((q.serve one).1.serve other).2 = [2] ∧
      (q.serve other).2 = [1, 2] ∧ ((q.serve other).1.serve one).2 = [] :=
  ⟨((order_of_sources 2 _).1 _ _ (.replica "a") (.replica "b") rfl rfl (by simp)).1,
    rfl, rfl, rfl, rfl⟩

end Quorum

end QuorumLog
