import QuorumLog.Proofs.Checksums
import QuorumLog.Proofs.TornRecords

/-! Records of which one byte was changed. The checksum covers everything in a record but the length of
its body, so a changed record is refused as long as its header tells that length. Only a header with
another length can be taken for one of a record, if the checksum happens to hold for so many bytes. -/

namespace QuorumLog.Record

variable {e : Entry} {es : List Entry} {bytes rest : Bytes} {position : Nat} {byte : UInt8}

/-! ### What is looked at before a record is taken -/

/-- How long a header says the body is. -/
def claimed (bytes : Bytes) : Nat := LittleEndian.decode (bytes.take 4)

/-- The bytes behind a header are as many as it claims, and its checksum is that of its offset, its flags
and those bytes. -/
structure Checks (bytes : Bytes) : Prop where
  present : headerSize + claimed bytes ≤ bytes.length
  checksum : digest (LittleEndian.decode ((bytes.drop 4).take 8)) ((bytes.drop 12).headD 0)
      ((bytes.drop headerSize).take (claimed bytes)) =
    UInt32.ofNat (LittleEndian.decode ((bytes.drop 13).take 4))

/-- A header claims another length than that of the body of an entry, and yet its checksum holds. -/
structure Mistaken (e : Entry) (bytes : Bytes) : Prop where
  length : claimed bytes ≠ (body e).length
  checks : Checks bytes

/-- Whatever is taken for a record passes the checks. -/
theorem checks_of_next {available : Nat} {taken : Entry}
    (read : next available bytes = .ok (some (taken, rest))) : Checks bytes := by
  simp only [next] at read
  split at read
  · cases read
  split at read
  · cases read
  rename_i header
  split at read
  · cases read
  split at read
  · cases read
  rename_i whole
  split at read
  · cases read
  rename_i same
  have first : (bytes.take headerSize).take 4 = bytes.take 4 := by
    rw [List.take_take]
    rfl
  have second : ((bytes.take headerSize).drop 4).take 8 = (bytes.drop 4).take 8 := by
    rw [List.drop_take, List.take_take]
    rfl
  have third : ((bytes.take headerSize).drop 12).headD 0 = (bytes.drop 12).headD 0 := by
    rw [List.drop_take]
    cases bytes.drop 12 <;> rfl
  have fourth : (bytes.take headerSize).drop 13 = (bytes.drop 13).take 4 := by
    rw [List.drop_take]
    rfl
  rw [first] at whole
  rw [first, second, third, fourth] at same
  rw [List.length_take] at header
  rw [List.length_take, List.length_drop] at whole
  refine ⟨?_, Decidable.not_not.mp same⟩
  unfold claimed
  omega

/-- Only the empty byte string ends a segment. -/
theorem of_next_none {available : Nat} (read : next available bytes = .ok none) : bytes = [] := by
  simp only [next] at read
  split at read
  · rename_i none
    have empty := List.isEmpty_iff.mp none
    exact (List.take_eq_nil_iff.mp empty).resolve_left (by decide)
  all_goals repeat' (split at read; next => cases read)
  all_goals cases read

/-- Bytes that do not pass the checks are refused. -/
theorem unread_of_unchecked (unchecked : ¬Checks bytes) : Unread bytes := by
  cases read : next bytes.length bytes with
  | error cause => exact .inr ⟨cause, read⟩
  | ok taken =>
    cases taken with
    | none => exact .inl (of_next_none read)
    | some pair => exact absurd (checks_of_next read) unchecked

/-! ### One changed byte -/

/-- A record is the length of the body, the offset and the flags, the checksum, and the body. -/
structure Parts (e : Entry) (length cover sum : Bytes) : Prop where
  split : encode e = length ++ (cover ++ (sum ++ body e))
  four : length.length = 4
  nine : cover.length = 9
  four' : sum.length = 4
  tells : length = LittleEndian.encode 4 (body e).length
  stored : Crc32.checksum (cover ++ body e) = UInt32.ofNat (LittleEndian.decode sum)

theorem exists_parts (e : Entry) : ∃ length cover sum, Parts e length cover sum := by
  refine ⟨_, LittleEndian.encode 8 e.offset ++ [flags e],
    LittleEndian.encode 4 (digest e.offset (flags e) (body e)).toNat, ?_, ?_, ?_, ?_, rfl, ?_⟩
  · simp [encode]
  · simp
  · simp
  · simp
  · rw [LittleEndian.decode_encode_of_lt (UInt32.toNat_lt _), UInt32.ofNat_toNat]
    simp [digest]

/-- If the header tells the right length, the checksum is that of everything between the length and the
end of the body, the checksum itself left out. -/
theorem checksum_of_checks {length cover sum content : Bytes} (four : length.length = 4)
    (nine : cover.length = 9) (four' : sum.length = 4)
    (told : claimed (length ++ (cover ++ (sum ++ (content ++ rest)))) = content.length)
    (checks : Checks (length ++ (cover ++ (sum ++ (content ++ rest))))) :
    Crc32.checksum (cover ++ content) = UInt32.ofNat (LittleEndian.decode sum) := by
  have same := checks.checksum
  have offset : ((length ++ (cover ++ (sum ++ (content ++ rest)))).drop 4).take 8 = cover.take 8 := by
    rw [List.drop_left' four, List.take_append_of_le_length (by omega)]
  have flags : (length ++ (cover ++ (sum ++ (content ++ rest)))).drop 12 =
      cover.drop 8 ++ (sum ++ (content ++ rest)) := by
    rw [List.drop_append, four, List.drop_of_length_le (by omega), List.nil_append,
      List.drop_append_of_le_length (by omega)]
  have stored : ((length ++ (cover ++ (sum ++ (content ++ rest)))).drop 13).take 4 = sum := by
    rw [← List.append_assoc, List.drop_left' (by rw [List.length_append]; omega),
      List.take_left' four']
  have inside : ((length ++ (cover ++ (sum ++ (content ++ rest)))).drop headerSize).take
      content.length = content := by
    rw [← List.append_assoc, ← List.append_assoc,
      List.drop_left' (by simp only [List.length_append, headerSize]; omega), List.take_left]
  obtain ⟨flag, last⟩ := List.length_eq_one_iff.mp (show (cover.drop 8).length = 1 by
    rw [List.length_drop]
    omega)
  have eight : (cover.take 8).length = 8 := by
    rw [List.length_take]
    omega
  have written := LittleEndian.encode_decode (cover.take 8)
  rw [eight] at written
  rw [told, offset, flags, last, stored, inside, digest, written] at same
  rw [← same]
  conv => lhs; rw [← List.take_append_drop 8 cover, last]
  rw [List.append_assoc]
  rfl

section Fields

variable {length cover sum : Bytes}

/-- A header with another length in it claims that length. -/
theorem Parts.length_told (parts : Parts e length cover sum) {later : Bytes}
    (told : claimed (length.set position byte ++ later) = (body e).length) :
    length.set position byte = length := by
  have four := parts.four
  rw [claimed, List.take_left' (by rw [List.length_set, four])] at told
  have written := LittleEndian.encode_decode (length.set position byte)
  rw [List.length_set, four, told, ← parts.tells] at written
  exact written.symm

/-- The offset and the flags are told by the checksum. -/
theorem Parts.cover_told (parts : Parts e length cover sum)
    (told : claimed (length ++ (cover.set position byte ++ (sum ++ (body e ++ rest)))) =
      (body e).length)
    (checks : Checks (length ++ (cover.set position byte ++ (sum ++ (body e ++ rest))))) :
    cover.set position byte = cover := by
  refine Decidable.byContradiction fun changed => ?_
  have nine : (cover.set position byte).length = 9 := by rw [List.length_set, parts.nine]
  have same := checksum_of_checks parts.four nine parts.four' told checks
  have inside : position < cover.length :=
    Nat.lt_of_not_le fun beyond => changed (List.set_eq_of_length_le beyond)
  have shape := List.set_append_left (t := body e) position byte inside
  rw [← parts.stored, ← shape] at same
  refine Crc32.checksum_set (fun unchanged => changed ?_) same
  rw [shape] at unchanged
  exact List.append_cancel_right unchanged

/-- The stored checksum is that of the offset, the flags and the body. -/
theorem Parts.sum_told (parts : Parts e length cover sum)
    (told : claimed (length ++ (cover ++ (sum.set position byte ++ (body e ++ rest)))) =
      (body e).length)
    (checks : Checks (length ++ (cover ++ (sum.set position byte ++ (body e ++ rest))))) :
    sum.set position byte = sum := by
  have long : (sum.set position byte).length = sum.length := List.length_set
  have same := checksum_of_checks parts.four parts.nine (long.trans parts.four') told checks
  have small := LittleEndian.decode_lt (sum.set position byte)
  have small' := LittleEndian.decode_lt sum
  rw [long, parts.four'] at small
  rw [parts.four'] at small'
  have value := congrArg UInt32.toNat (same.symm.trans parts.stored)
  rw [UInt32.toNat_ofNat_of_lt' small, UInt32.toNat_ofNat_of_lt' small'] at value
  exact LittleEndian.eq_of_decode long value

/-- The body is told by the checksum. -/
theorem Parts.body_told (parts : Parts e length cover sum)
    (told : claimed (length ++ (cover ++ (sum ++ ((body e).set position byte ++ rest)))) =
      (body e).length)
    (checks : Checks (length ++ (cover ++ (sum ++ ((body e).set position byte ++ rest))))) :
    (body e).set position byte = body e := by
  refine Decidable.byContradiction fun changed => ?_
  have same := checksum_of_checks parts.four parts.nine parts.four' (told.trans List.length_set.symm)
    checks
  have shape : (cover ++ body e).set (cover.length + position) byte =
      cover ++ (body e).set position byte := by
    rw [List.set_append_right _ _ (Nat.le_add_right ..), Nat.add_sub_cancel_left]
  rw [← parts.stored, ← shape] at same
  refine Crc32.checksum_set (fun unchanged => changed ?_) same
  rw [shape] at unchanged
  exact List.append_cancel_left unchanged

end Fields

/-- A record of which one byte was changed is refused, unless it is mistaken for one of another
length. -/
theorem unread_of_changed (changed : (encode e).set position byte ≠ encode e)
    (clear : ¬Mistaken e ((encode e).set position byte ++ rest)) :
    Unread ((encode e).set position byte ++ rest) := by
  refine unread_of_unchecked fun checks => ?_
  have told : claimed ((encode e).set position byte ++ rest) = (body e).length :=
    Decidable.not_not.mp fun differs => clear ⟨differs, checks⟩
  obtain ⟨length, cover, sum, parts⟩ := exists_parts e
  have four := parts.four
  have nine := parts.nine
  have four' := parts.four'
  rw [parts.split] at changed told checks
  -- The changed byte is in one of the four parts.
  by_cases inLength : position < length.length
  · rw [List.set_append_left _ _ inLength] at changed told
    simp only [List.append_assoc] at told
    exact changed (by rw [parts.length_told told])
  rw [List.set_append_right _ _ (Nat.le_of_not_lt inLength)] at changed told checks
  by_cases inCover : position - length.length < cover.length
  · rw [List.set_append_left _ _ inCover] at changed told checks
    simp only [List.append_assoc] at told checks
    exact changed (by rw [parts.cover_told told checks])
  rw [List.set_append_right _ _ (Nat.le_of_not_lt inCover)] at changed told checks
  by_cases inSum : position - length.length - cover.length < sum.length
  · rw [List.set_append_left _ _ inSum] at changed told checks
    simp only [List.append_assoc] at told checks
    exact changed (by rw [parts.sum_told told checks])
  rw [List.set_append_right _ _ (Nat.le_of_not_lt inSum)] at changed told checks
  simp only [List.append_assoc] at told checks
  exact changed (by rw [parts.body_told told checks])

/-- A record that is as it was written gives its entry, or it is refused. -/
theorem fits_or_unread (bound : e.offset < UInt64.size) (clear : ¬Mistaken e (encode e ++ rest)) :
    Fits e ∨ Unread (encode e ++ rest) := by
  by_cases small : (body e).length < UInt32.size
  · exact .inl ⟨bound, small⟩
  · refine .inr (unread_of_unchecked fun checks => clear ⟨fun told => small ?_, checks⟩)
    have four : ((encode e ++ rest).take 4).length = 4 := by
      rw [List.length_take, List.length_append, length_encode, size, headerSize]
      omega
    have below := LittleEndian.decode_lt ((encode e ++ rest).take 4)
    rw [four] at below
    exact told ▸ below

/-! ### One changed byte among several records -/

/-- Some bytes begin with the records of the first of some entries, and nothing is read behind them. -/
structure Legible (bytes : Bytes) (es : List Entry) (whole : Nat) (rest : Bytes) : Prop where
  within : whole ≤ es.length
  bytes : bytes = encodeAll (es.take whole) ++ rest
  fits : ∀ e ∈ es.take whole, Fits e
  unread : Unread rest
  ends : rest = [] → whole = es.length

theorem Unread.legible (unread : Unread bytes) (some : bytes ≠ []) : Legible bytes es 0 bytes where
  within := Nat.zero_le _
  bytes := rfl
  fits _ held := by cases held
  unread := unread
  ends none := absurd none some

theorem encode_append_ne_nil (e : Entry) (rest : Bytes) : encode e ++ rest ≠ [] := by
  intro none
  have long := congrArg List.length none
  rw [List.length_append, length_encode, size, headerSize, List.length_nil] at long
  omega

/-- One more record in front of others. -/
theorem Legible.cons {whole : Nat} (legible : Legible bytes es whole rest)
    (bound : e.offset < UInt64.size) (clear : ¬Mistaken e (encode e ++ bytes)) :
    ∃ whole rest, Legible (encode e ++ bytes) (e :: es) whole rest := by
  rcases fits_or_unread bound clear with fits | unread
  · refine ⟨whole + 1, rest, Nat.succ_le_succ legible.within, ?_, ?_, legible.unread, fun none => ?_⟩
    · rw [List.take_succ_cons, legible.bytes]
      simp [encodeAll]
    · rw [List.take_succ_cons]
      exact List.forall_mem_cons.mpr ⟨fits, legible.fits⟩
    · rw [legible.ends none, List.length_cons]
  · exact ⟨0, _, unread.legible (encode_append_ne_nil e bytes)⟩

theorem encodeAll_cons (e : Entry) (es : List Entry) :
    encodeAll (e :: es) = encode e ++ encodeAll es := rfl

/-- Records of which at most one byte was changed are read up to the changed one, or up to one of which
the body is too long to tell. -/
theorem exists_legible (bounded : ∀ e ∈ es, e.offset < UInt64.size) (position : Nat) (byte : UInt8)
    (clear : ∀ i e, es[i]? = some e →
      ¬Mistaken e (((encodeAll es).set position byte).drop (encodeAll (es.take i)).length)) :
    ∃ whole rest, Legible ((encodeAll es).set position byte) es whole rest := by
  induction es generalizing position with
  | nil => exact ⟨0, [], Nat.le_refl _, rfl, by simp, .inl rfl, fun _ => rfl⟩
  | cons e later ih =>
    obtain ⟨head, tail⟩ := List.forall_mem_cons.mp bounded
    have first := clear 0 e rfl
    rw [List.take_zero] at first
    rw [encodeAll_cons] at clear first ⊢
    replace first : ¬Mistaken e ((encode e ++ encodeAll later).set position byte) := first
    -- Either this record was changed, or at most one byte behind it.
    have side : ((encode e).set position byte ≠ encode e ∧
          (encode e ++ encodeAll later).set position byte =
            (encode e).set position byte ++ encodeAll later) ∨
        ∃ position', (encode e ++ encodeAll later).set position byte =
          encode e ++ (encodeAll later).set position' byte := by
      by_cases inside : position < (encode e).length
      · by_cases changed : (encode e).set position byte = encode e
        · refine .inr ⟨(encodeAll later).length, ?_⟩
          rw [List.set_append_left _ _ inside, changed, List.set_eq_of_length_le (Nat.le_refl _)]
        · exact .inl ⟨changed, List.set_append_left _ _ inside⟩
      · exact .inr ⟨_, List.set_append_right _ _ (Nat.le_of_not_lt inside)⟩
    rcases side with ⟨changed, shape⟩ | ⟨position', shape⟩
    · rw [shape] at first ⊢
      refine ⟨0, _, (unread_of_changed changed first).legible fun none => ?_⟩
      have long := congrArg List.length none
      rw [List.length_append, List.length_set, ← List.length_append] at long
      exact encode_append_ne_nil e _ (List.length_eq_zero_iff.mp long)
    · rw [shape] at clear first ⊢
      obtain ⟨whole, rest, legible⟩ := ih tail position' fun i x held => by
        have behind := clear (i + 1) x held
        rwa [List.take_succ_cons, encodeAll_cons, List.length_append, List.drop_append,
          List.drop_of_length_le (Nat.le_add_right ..), List.nil_append, Nat.add_sub_cancel_left]
          at behind
      exact legible.cons head first

/-- The records that come back end in front of the changed byte. -/
theorem Legible.ends_before {whole : Nat}
    (legible : Legible ((encodeAll es).set position byte) es whole rest)
    (changed : (encodeAll es).set position byte ≠ encodeAll es) :
    (encodeAll (es.take whole)).length ≤ position := by
  apply Nat.le_of_not_lt
  intro inside
  have split : encodeAll es = encodeAll (es.take whole) ++ encodeAll (es.drop whole) := by
    rw [← encodeAll_append, List.take_append_drop]
  have shape := legible.bytes
  rw [split, List.set_append_left _ _ inside] at shape changed
  have front := (List.append_inj shape List.length_set).1
  exact changed (by rw [front])

/-- Every byte of some records stands in one of them. -/
theorem exists_around (inside : position < (encodeAll es).length) : ∃ i < es.length,
    (encodeAll (es.take i)).length ≤ position ∧
      position < (encodeAll (es.take (i + 1))).length := by
  induction es generalizing position with
  | nil => exact absurd inside (Nat.not_lt_zero _)
  | cons e later ih =>
    rw [length_encodeAll_cons] at inside
    by_cases first : position < size e
    · refine ⟨0, Nat.succ_pos _, Nat.zero_le _, ?_⟩
      rw [List.take_succ_cons, length_encodeAll_cons]
      omega
    · obtain ⟨i, within, starts, ends⟩ := @ih (position - size e) (by omega)
      refine ⟨i + 1, Nat.succ_lt_succ within, ?_, ?_⟩
      all_goals
        rw [List.take_succ_cons, length_encodeAll_cons]
        omega

theorem length_encodeAll_take_le {i j : Nat} (less : i ≤ j) (es : List Entry) :
    (encodeAll (es.take i)).length ≤ (encodeAll (es.take j)).length := by
  have front : es.take i = (es.take j).take i := by rw [List.take_take, Nat.min_eq_left less]
  rw [front]
  conv => rhs; rw [← List.take_append_drop i (es.take j), encodeAll_append, List.length_append]
  exact Nat.le_add_right _ _

end QuorumLog.Record
