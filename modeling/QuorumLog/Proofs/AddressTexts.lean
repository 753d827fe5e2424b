import QuorumLog.Proofs.WrittenNumbers

/-! An address is read as it was written. The scanner takes at every place as much as it can, so what
has to be shown of each written part is that it is taken whole and that what stands behind it cannot
continue it: no digit behind a number, no dotted address where a group is meant, and no further group
before a double colon or a bracket. -/

namespace QuorumLog

namespace Scan

variable {rest : List Char}

@[simp]
theorem char_cons_self (c : Char) : char c (c :: rest) = some ((), rest) := by simp [char]

theorem char_eq_none {c : Char} (other : rest.head? ≠ some c) : char c rest = none := by
  cases rest with
  | nil => rfl
  | cons d rest =>
    have differs : c ≠ d := fun same => other (congrArg some same.symm)
    simp [char, differs]

end Scan

open Scan

namespace Ipv4

variable {rest : List Char}

theorem octet_digits (o : UInt8) (stops : Stops 10 rest) :
    octet (Decimal.digits o.toNat ++ rest) = some (o, rest) := by
  have short : (Nat.toDigits 10 o.toNat).length ≤ 3 := by
    rw [Nat.length_toDigits_le_iff (by decide) (by decide)]
    exact Nat.lt_trans o.toNat_lt (by decide)
  have found := number_toDigits (some 3) false (by decide : 1 < 10)
    (by decide) o.toNat_lt (by simpa using short) stops
  simp [octet, Decimal.digits_eq_toDigits, found]

theorem scan_render (ip : Ipv4) (stops : Stops 10 rest) :
    scan (ip.render ++ rest) = some (ip, rest) := by
  have dot (rest : List Char) : Stops 10 ('.' :: rest) := stops_cons (by decide)
  simp [scan, render, List.append_assoc, octet_digits _ (dot _), octet_digits _ stops]

/-- An octet takes the digits at the front and nothing else. -/
theorem octet_rest {o : UInt8} {cs : List Char} (found : octet cs = some (o, rest)) :
    rest = (digits 10 cs).2 := by
  simp only [octet, number, Option.map_eq_some_iff, Prod.exists, Prod.mk.injEq] at found
  obtain ⟨m, rest', read, -, rfl⟩ := found
  split at read
  · cases read
  · exact (Prod.mk.inj (Option.some.inj read)).2.symm

theorem digits_snd_append (word : List Char) (stops : Stops 10 rest) :
    ∃ later, (∀ c ∈ later, c ∈ word) ∧ (digits 10 (word ++ rest)).2 = later ++ rest := by
  induction word with
  | nil => exact ⟨[], by simp, by simp [stops.digits]⟩
  | cons c word ih =>
    cases found : digit? 10 c with
    | none => exact ⟨c :: word, by simp, by simp [digits, found]⟩
    | some d =>
      obtain ⟨later, members, left⟩ := ih
      refine ⟨later, fun c member => List.mem_cons_of_mem _ (members c member), ?_⟩
      simpa [digits, found] using left

/-- A text without a dot where the first number ends is no dotted address. -/
theorem scan_eq_none (word : List Char) (plain : '.' ∉ word) (stops : Stops 10 rest)
    (other : rest.head? ≠ some '.') : scan (word ++ rest) = none := by
  cases found : octet (word ++ rest) with
  | none => simp [scan, found]
  | some p =>
    obtain ⟨o, left⟩ := p
    obtain ⟨later, members, same⟩ := digits_snd_append word stops
    have behind : left.head? ≠ some '.' := by
      rw [octet_rest found, same]
      cases later with
      | nil => exact other
      | cons c later =>
        intro dot
        cases dot
        exact plain (members '.' List.mem_cons_self)
    simp [scan, found, char_eq_none behind]

end Ipv4

namespace Ipv6

/-- A group as it is written. -/
def shown (g : UInt16) : List Char := Nat.toDigits 16 g.toNat

variable {g : UInt16} {gs : List UInt16} {rest : List Char}

theorem joined_cons (g : UInt16) (gs : List UInt16) :
    joined (g :: gs) = shown g ++ gs.flatMap fun g => ':' :: shown g := by
  induction gs generalizing g with
  | nil => simp [joined, shown]
  | cons h gs ih =>
    have others := ih h
    simp only [joined, List.map_cons] at others ⊢
    rw [List.intercalate_cons_cons, others]
    simp [shown]

theorem group_shown (g : UInt16) (stops : Stops 16 rest) :
    group (shown g ++ rest) = some (g, rest) := by
  have short : (Nat.toDigits 16 g.toNat).length ≤ 4 := by
    rw [Nat.length_toDigits_le_iff (by decide) (by decide)]
    exact g.toNat_lt
  have found := number_toDigits (some 4) true (by decide : 1 < 16)
    (by decide) g.toNat_lt (by simpa using short) stops
  simp [group, shown, found]

theorem dot_not_mem_shown (g : UInt16) : '.' ∉ shown g := by
  intro member
  exact absurd (isSome_digit?_of_mem (by decide) (by decide) _ '.' member) (by decide)

/-- What may stand behind a group: nothing that goes on with it. -/
structure Apart (rest : List Char) : Prop where
  stops : Stops 16 rest
  other : rest.head? ≠ some '.'

theorem Apart.cons {c : Char} (stops : digit? 16 c = none) (other : c ≠ '.') :
    Apart (c :: rest) :=
  ⟨stops_cons stops, by simpa using other⟩

theorem Apart.decimal (apart : Apart rest) : Stops 10 rest := by
  intro c front
  have none := apart.stops c front
  unfold digit? at none ⊢
  rw [Option.filter_eq_none_iff] at none ⊢
  intro d value
  have large := none d value
  simp only [decide_eq_true_eq] at large ⊢
  omega

theorem scan_shown (apart : Apart rest) : Ipv4.scan (shown g ++ rest) = none :=
  Ipv4.scan_eq_none _ (dot_not_mem_shown g) apart.decimal apart.other

theorem scan_apart (apart : Apart rest) : Ipv4.scan rest = none :=
  Ipv4.scan_eq_none [] (by simp) apart.decimal apart.other

theorem group_apart (apart : Apart rest) : group rest = none := by
  simp [group, number_of_stops apart.stops]

/-- Behind a group stand more groups or what stands behind all of them. -/
theorem apart_flatMap (gs : List UInt16) (apart : Apart rest) :
    Apart ((gs.flatMap fun g => ':' :: shown g) ++ rest) := by
  cases gs with
  | nil => simpa using apart
  | cons g gs => exact .cons (by decide) (by decide)

/-- A run goes on over a group. -/
theorem run_shown (room : Nat) (apart : Apart rest) :
    run (room + 1) true (shown g ++ rest) =
      (g :: (run room false rest).1, (run room false rest).2) := by
  simp [run, scan_shown apart, group_shown g apart.stops]

theorem run_colon (room : Nat) (cs : List Char) (more : (run (room + 1) true cs).1 ≠ []) :
    run (room + 1) false (':' :: cs) = run (room + 1) true cs := by
  simp only [run, char_cons_self, ↓reduceIte, Bool.false_eq_true] at more ⊢
  split <;> rename_i found
  · rfl
  · split <;> rename_i read
    · simp [found, read] at more
    · rfl

/-- A run goes on over all groups that are there. -/
theorem run_flatMap (room : Nat) (apart : Apart rest) (fits : gs.length ≤ room) :
    run room false ((gs.flatMap fun g => ':' :: shown g) ++ rest) =
      (gs ++ (run (room - gs.length) false rest).1, (run (room - gs.length) false rest).2) := by
  induction gs generalizing room with
  | nil => simp
  | cons g gs ih =>
    obtain ⟨room, rfl⟩ := Nat.exists_eq_add_one.mpr (Nat.zero_lt_of_lt fits)
    have later := apart_flatMap gs apart
    have group := run_shown (g := g) room later
    have colon := run_colon room (shown g ++ ((gs.flatMap fun g => ':' :: shown g) ++ rest))
      (by simp [group])
    rw [ih room (by simpa using fits)] at group
    simpa [group] using colon

/-- Where a run of groups ends: a double colon, or what follows an address. -/
inductive Ends : List Char → Prop
  | gap (rest : List Char) : Ends (':' :: ':' :: rest)
  | zone (rest : List Char) : Ends ('%' :: rest)
  | close (rest : List Char) : Ends (']' :: rest)

theorem Ends.apart (ends : Ends rest) : Apart rest := by
  cases ends <;> exact .cons (by decide) (by decide)

theorem run_ends (room : Nat) (first : Bool) (ends : Ends rest) :
    run room first rest = ([], false, rest) := by
  cases room with
  | zero => rfl
  | succ room =>
    have whole := scan_apart ends.apart
    have group := group_apart ends.apart
    cases first with
    | true => simp [run, whole, group]
    | false =>
      cases ends with
      | gap rest =>
        have apart : Apart (':' :: rest) := .cons (by decide) (by decide)
        simp [run, scan_apart apart, group_apart apart]
      | zone rest => simp [run, char]
      | close rest => simp [run, char]

/-- Groups are read as far as they go. -/
theorem run_joined (gs : List UInt16) (room : Nat) (ends : Ends rest) (fits : gs.length ≤ room) :
    run room true (joined gs ++ rest) = (gs, false, rest) := by
  cases gs with
  | nil => simpa [joined] using run_ends room true ends
  | cons g gs =>
    obtain ⟨room, rfl⟩ := Nat.exists_eq_add_one.mpr (Nat.zero_lt_of_lt fits)
    rw [joined_cons, List.append_assoc, run_shown room (apart_flatMap gs ends.apart),
      run_flatMap room ends.apart (by simpa using fits), run_ends _ _ ends]
    simp

theorem ofGroups?_groups (ip : Ipv6) : ofGroups? ip.groups = some ip := by
  simp [ofGroups?, ip.length_groups]

theorem longestZeros_le (gs : List UInt16) :
    (longestZeros gs).2 ≤ zeros (gs.drop (longestZeros gs).1) := by
  refine List.foldlRecOn (motive := fun best : Nat × Nat => best.2 ≤ zeros (gs.drop best.1)) _ _
    (Nat.zero_le _) ?_
  intro best held start _
  split
  · exact Nat.le_refl _
  · exact held

theorem take_of_le_zeros {count : Nat} (few : count ≤ zeros gs) :
    gs.take count = List.replicate count 0 := by
  induction count generalizing gs with
  | zero => rfl
  | succ count ih =>
    cases gs with
    | nil => simp [zeros] at few
    | cons g gs =>
      by_cases zero : g = 0
      · have fewer : count ≤ zeros gs := by simpa [zeros, zero] using few
        rw [List.take_succ_cons, List.replicate_succ, ih fewer, zero]
      · simp [zeros, zero] at few

/-- What stands around the longest run of zeros makes up the groups with it. -/
theorem around_longestZeros (gs : List UInt16) :
    gs = gs.take (longestZeros gs).1 ++ List.replicate (longestZeros gs).2 0 ++
        gs.drop ((longestZeros gs).1 + (longestZeros gs).2) := by
  rw [← take_of_le_zeros (longestZeros_le gs), ← List.drop_drop, List.append_assoc,
    List.take_append_drop, List.take_append_drop]

/-- A double colon stands for the groups that are missing. -/
theorem scan_gap {ip : Ipv6} {head tail : List UInt16} {count : Nat} {cs : List Char}
    {dotted : Bool} (same : ip.groups = head ++ List.replicate count 0 ++ tail) (left : 0 < count)
    (found : run (7 - head.length) true cs = (tail, dotted, rest)) :
    scan (joined head ++ ':' :: ':' :: cs) = some (ip, rest) := by
  have eight : head.length + count + tail.length = 8 := by
    simpa [same, Nat.add_assoc] using ip.length_groups
  have front := run_joined head 8 (.gap cs) (by omega)
  have missing : 8 - head.length - tail.length = count := by omega
  have short : head.length ≠ 8 := by omega
  simp [scan, front, short, found, missing, -List.append_assoc, ← same, ofGroups?_groups]

theorem groups_of_mapped? {ip : Ipv6} {inner : Ipv4} (mapped : ip.mapped? = some inner) :
    ip.groups = [] ++ List.replicate 5 0 ++ 0xFFFF :: inner.groups := by
  unfold mapped? at mapped
  split at mapped
  · rename_i high low groups
    have halves (n : UInt16) :
        (n / 256).toUInt8.toUInt16 * 256 + n.toUInt8.toUInt16 = n := by
      have bound := n.toNat_lt
      apply UInt16.toNat_inj.mp
      simp
      omega
    cases mapped
    simp only [groups, Ipv4.groups, halves]
    rfl
  · cases mapped

theorem run_mapped (inner : Ipv4) (ends : Ends rest) :
    run 7 true ("ffff:".toList ++ inner.render ++ rest) =
      (0xFFFF :: inner.groups, true, rest) := by
  have colon : Apart (':' :: (inner.render ++ rest)) := .cons (by decide) (by decide)
  have front := run_shown (g := 0xFFFF) 6 colon
  have whole := Ipv4.scan_render inner ends.apart.decimal
  have spelled : "ffff:".toList = shown 0xFFFF ++ [':'] := by decide
  rw [spelled, List.append_assoc, List.append_assoc, List.singleton_append, front]
  simp [run, whole]

/-- The groups of an address are read as they were written. -/
theorem scan_render (ip : Ipv6) (ends : Ends rest) : scan (ip.render ++ rest) = some (ip, rest) := by
  unfold render
  split
  case h_1 inner mapped =>
    have found := scan_gap (groups_of_mapped? mapped) (by decide) (run_mapped inner ends)
    have spelled : "::ffff:".toList = ':' :: ':' :: "ffff:".toList := by decide
    simpa [spelled, joined] using found
  case h_2 =>
    dsimp only
    split
    case isTrue =>
      have whole := run_joined ip.groups 8 ends (Nat.le_of_eq ip.length_groups)
      simp [scan, whole, ip.length_groups, ofGroups?_groups]
    case isFalse several =>
      have fits : (ip.groups.drop ((longestZeros ip.groups).1 + (longestZeros ip.groups).2)).length ≤
          7 - (ip.groups.take (longestZeros ip.groups).1).length := by
        simp only [List.length_drop, List.length_take, ip.length_groups]
        omega
      have tail := run_joined _ _ ends fits
      have found := scan_gap (around_longestZeros ip.groups) (by omega) tail
      have spelled : "::".toList = [':', ':'] := by decide
      simpa [spelled] using found

end Ipv6

namespace SocketAddress

variable {rest : List Char}

theorem scanPort_digits (port : UInt16) :
    scanPort (':' :: Decimal.digits port.toNat) = some (port, []) := by
  have found := number_toDigits none true (by decide : 1 < 10) (by decide)
    port.toNat_lt (by simp) stops_nil
  rw [List.append_nil] at found
  simp [scanPort, Decimal.digits_eq_toDigits, found]

theorem scanZone_digits (zone : UInt32) (stops : Stops 10 rest) :
    scanZone ('%' :: (Decimal.digits zone.toNat ++ rest)) = some (zone, rest) := by
  have found := number_toDigits none true (by decide : 1 < 10) (by decide)
    zone.toNat_lt (by simp) stops
  simp [scanZone, Decimal.digits_eq_toDigits, found]

theorem scanZone_close (rest : List Char) : scanZone (']' :: rest) = some (0, ']' :: rest) := by
  simp [scanZone, char]

theorem scanV4_render (ip : Ipv4) (port : UInt16) :
    scanV4 (ip.render ++ ':' :: Decimal.digits port.toNat) = some (v4 ip port, []) := by
  have colon : Stops 10 (':' :: Decimal.digits port.toNat) := stops_cons (by decide)
  simp [scanV4, Ipv4.scan_render ip colon, scanPort_digits]

theorem scanV6_render (ip : Ipv6) (zone : UInt32) (port : UInt16) :
    scanV6 ('[' :: ip.render ++ (if zone = 0 then [] else '%' :: Decimal.digits zone.toNat) ++
      ']' :: ':' :: Decimal.digits port.toNat) = some (v6 ip zone port, []) := by
  have bracket (rest : List Char) : Stops 10 (']' :: rest) := stops_cons (by decide)
  by_cases none : zone = 0
  · simp [scanV6, none, Ipv6.scan_render ip (.close _), scanZone_close, scanPort_digits]
  · simp [scanV6, none, Ipv6.scan_render ip (.zone _), scanZone_digits zone (bracket _),
      scanPort_digits]

/-- An address is read as it was written. -/
theorem read?_render (address : SocketAddress) : read? address.render = some address := by
  unfold read? render
  rw [String.toList_ofList]
  cases address with
  | v4 ip port =>
    dsimp only
    rw [scanV4_render]
    rfl
  | v6 ip zone port =>
    have apart (rest : List Char) : Ipv6.Apart ('[' :: rest) := .cons (by decide) (by decide)
    have other (rest : List Char) : scanV4 ('[' :: rest) = none := by
      simp [scanV4, Ipv6.scan_apart (apart rest)]
    dsimp only
    rw [scanV6_render, List.cons_append, List.cons_append, other]
    rfl

end SocketAddress

end QuorumLog
