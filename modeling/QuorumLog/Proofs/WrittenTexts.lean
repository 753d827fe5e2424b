import QuorumLog.Toml.Text

/-! A text in a document is read as it was written, in whichever of the four forms. On several lines
quotes may stand in the text themselves, up to two behind each other, so a reader has to tell those at
the end of the text from the three that close it; `Written` says what it relies on for that. -/

namespace QuorumLog.Toml.Text

theorem hexDigit?_hexDigit : ∀ n < 16, hexDigit? (hexDigit n) = some n := by decide

/-- What a code stands for. -/
theorem scalar?_code {c : Char} (coded : needsCode c) :
    scalar? ['0', '0', hexDigit (c.toNat / 16), hexDigit (c.toNat % 16)] = some c := by
  have small : c.toNat < 128 := by
    rcases of_decide_eq_true coded with ⟨control, -⟩ | rfl
    · have : c.toNat < 32 := control
      omega
    · decide
  have zero : hexDigit? '0' = some 0 := by decide
  have high := hexDigit?_hexDigit (c.toNat / 16) (by omega)
  have low := hexDigit?_hexDigit (c.toNat % 16) (by omega)
  have number : 16 * (c.toNat / 16) + c.toNat % 16 = c.toNat := by omega
  have scalar : c.toNat < 0xD800 := by omega
  simp [scalar?, zero, high, low, number, scalar, Char.ofNat_toNat]

theorem isPlain_of_not_needsCode {c : Char} (free : needsCode c = false) (line : c ≠ '\n') :
    isPlain c = true := by
  simp only [needsCode, isPlain, decide_eq_false_iff_not, decide_eq_true_eq] at free ⊢
  by_cases tab : c = '\t'
  · exact .inl tab
  · refine .inr ⟨Char.not_lt.mp fun control => free (.inl ⟨control, tab, line⟩), ?_⟩
    exact fun delete => free (.inr delete)

/-- How a character is written: by an escape, or as it is. -/
inductive Escaped (lines : Bool) (c : Char) : List Char → Prop
  | short (letter : Char) (known : escapes.lookup letter = some c)
      (other : letter ≠ 'x' ∧ letter ≠ 'u' ∧ letter ≠ 'U' ∧ letter ≠ '\r' ∧ letter ≠ '\n' ∧
        letter ≠ ' ' ∧ letter ≠ '\t') : Escaped lines c ['\\', letter]
  | code (coded : needsCode c) : Escaped lines c (code c)
  | line (several : lines = true) (same : c = '\n') : Escaped lines c ['\n']
  | plain (whole : isPlain c) (quote : c ≠ '"') (slash : c ≠ '\\') : Escaped lines c [c]

theorem escaped (lines : Bool) {c : Char} (other : c ≠ '"') : Escaped lines c (escape lines c) := by
  unfold escape
  split
  case h_3 =>
    cases lines with
    | true => exact .line rfl rfl
    | false => exact .short 'n' (by decide) (by decide)
  case h_7 _ _ line _ _ slash =>
    split
    case isTrue coded => exact .code coded
    case isFalse free =>
      exact .plain (isPlain_of_not_needsCode (by simpa using free) line) other slash
  case h_1 => exact .short 'b' (by decide) (by decide)
  case h_2 => exact .short 't' (by decide) (by decide)
  case h_4 => exact .short 'f' (by decide) (by decide)
  case h_5 => exact .short 'r' (by decide) (by decide)
  case h_6 => exact .short '\\' (by decide) (by decide)

theorem Escaped.front {lines : Bool} {c : Char} {written : List Char}
    (escaped : Escaped lines c written) :
    ∃ d later, written = d :: later ∧ d ≠ '"' ∧ d ≠ '\r' ∧ (d = '\n' → c = '\n') := by
  cases escaped with
  | short letter => exact ⟨_, _, rfl, by decide, by decide, by simp⟩
  | code => exact ⟨_, _, rfl, by decide, by decide, by simp⟩
  | line several same => exact ⟨_, _, rfl, by decide, by decide, fun _ => same⟩
  | plain whole quote =>
    refine ⟨c, [], rfl, quote, ?_, id⟩
    rintro rfl
    exact absurd whole (by decide)

/-! ### On one line -/

theorem takeBasic_escaped {c : Char} {written : List Char} (escaped : Escaped false c written)
    (rest : List Char) : takeBasic (written ++ rest) = (takeBasic rest).push c := by
  cases escaped with
  | short letter known other =>
    obtain ⟨x, u, U, -⟩ := other
    have found : takeBasic ('\\' :: letter :: rest) =
        (escapes.lookup letter).bind fun c => (takeBasic rest).push c := by
      rw [takeBasic]
      all_goals intros; contradiction
    simpa [known] using found
  | code coded =>
    have found := scalar?_code coded
    simp [Text.code, takeBasic, found]
  | line several => cases several
  | plain whole quote slash =>
    rw [List.singleton_append, takeBasic]
    · simp [whole, slash]
    all_goals intros; contradiction

theorem takeBasic_escapeAll (cs rest : List Char) :
    takeBasic (escapeAll false 0 0 cs ++ '"' :: rest) = some (cs, rest) := by
  induction cs with
  | nil => rfl
  | cons c cs ih =>
    by_cases quote : c = '"'
    · subst quote
      have found : escapes.lookup '"' = some '"' := by decide
      simp [escapeAll, takeBasic, found, ih, Taken.push]
    · have step := takeBasic_escaped (escaped false quote) (escapeAll false 0 0 cs ++ '"' :: rest)
      rw [escapeAll, List.append_assoc, step, ih]
      · rfl
      · exact quote

theorem takeLiteral_append {cs : List Char} (rest : List Char) (plain : ∀ c ∈ cs, isPlain c)
    (free : '\'' ∉ cs) : takeLiteral (cs ++ '\'' :: rest) = some (cs, rest) := by
  induction cs with
  | nil => rfl
  | cons c cs ih =>
    have others := ih (fun c member => plain c (List.mem_cons_of_mem _ member))
      fun member => free (List.mem_cons_of_mem _ member)
    have quote : c ≠ '\'' := fun same => free (same ▸ List.mem_cons_self)
    rw [List.cons_append, takeLiteral, if_pos (plain c List.mem_cons_self), others]
    · rfl
    · exact quote

/-! ### On several lines -/

/-- A text and how it is written between tripled quotes: each quote as it is if fewer than two are
right before it, `run` being how many are, and every other character in a way that a reader takes for
it. -/
inductive Written (take : List Char → Taken) (quote : Char) :
    (run : Nat) → (text written : List Char) → Prop
  | nil (run : Nat) : Written take quote run [] []
  | quote {run : Nat} {text written : List Char} (room : run < 2)
      (later : Written take quote (run + 1) text written) :
      Written take quote run (quote :: text) (quote :: written)
  | other {run : Nat} {c d : Char} {text written : List Char} (front : List Char)
      (differs : d ≠ quote)
      (taken : ∀ rest, take (d :: front ++ rest) = (take rest).push c)
      (later : Written take quote 0 text written) :
      Written take quote run (c :: text) (d :: front ++ written)

/-- What a reader does with quotes: three or more in a row close the text, and fewer belong to it. -/
structure Closes (take : List Char → Taken) (quote : Char) : Prop where
  three : ∀ rest, rest.head? ≠ some quote →
    take (quote :: quote :: quote :: rest) = some ([], rest)
  four : ∀ rest, rest.head? ≠ some quote →
    take (quote :: quote :: quote :: quote :: rest) = some ([quote], rest)
  five : ∀ rest, take (quote :: quote :: quote :: quote :: quote :: rest) =
    some ([quote, quote], rest)
  fewer : ∀ rest, ¬ [quote, quote] <+: rest → take (quote :: rest) = (take rest).push quote

variable {quote : Char}

theorem Written.take {take : List Char → Taken} {run : Nat} {text written rest : List Char}
    (closes : Closes take quote) (shown : Written take quote run text written)
    (ends : rest.head? ≠ some quote) :
    take (written ++ quote :: quote :: quote :: rest) = some (text, rest) := by
  have apart {d : Char} (front more : List Char) (differs : d ≠ quote) :
      ¬ [quote, quote] <+: d :: front ++ more := by
    intro starts
    exact differs (List.cons_prefix_cons.mp starts).1.symm
  induction shown with
  | nil => exact closes.three rest ends
  | other front differs taken later ih => rw [List.append_assoc, taken, ih, Taken.push, Option.map_some]
  | quote room later ih =>
    cases later with
    | nil => exact closes.four rest ends
    | other front differs taken later =>
      rw [List.cons_append, closes.fewer _ (List.append_assoc .. ▸ apart _ _ differs), ih,
        Taken.push, Option.map_some]
    | quote next later =>
      -- A third quote would need more room than there is, so one of the two is the last of a run.
      cases later with
      | nil => exact closes.five rest
      | quote none => omega
      | @other _ _ d _ written front differs =>
        have pair : ¬ [quote, quote] <+: quote :: (d :: front ++ written) ++
            quote :: quote :: quote :: rest := by
          intro starts
          have second := (List.cons_prefix_cons.mp starts).2
          exact differs (List.cons_prefix_cons.mp second).1.symm
        rw [List.cons_append, closes.fewer _ pair, ih, Taken.push, Option.map_some]

theorem closes_takeBasicLines : Closes (takeBasicLines .none) '"' where
  three rest ends := by
    rw [takeBasicLines]
    · rfl
    all_goals rintro _ rfl; exact ends rfl
  four rest ends := by
    rw [takeBasicLines]
    · rfl
    · rintro _ rfl
      exact ends rfl
  five rest := rfl
  fewer rest free := by
    rw [takeBasicLines]
    · rfl
    case x_1 | x_2 | x_3 =>
      rintro _ - rfl
      exact free ⟨_, rfl⟩
    all_goals intros; contradiction

theorem closes_takeLiteralLines : Closes takeLiteralLines '\'' where
  three rest ends := by
    rw [takeLiteralLines]
    all_goals rintro _ rfl; exact ends rfl
  four rest ends := by
    rw [takeLiteralLines]
    rintro _ rfl
    exact ends rfl
  five rest := rfl
  fewer rest free := by
    rw [takeLiteralLines]
    · rfl
    case x_1 | x_2 | x_3 =>
      rintro _ - rfl
      exact free ⟨_, rfl⟩
    all_goals intros; contradiction

theorem takeBasicLines_escaped {c : Char} {written : List Char} (escaped : Escaped true c written)
    (rest : List Char) :
    takeBasicLines .none (written ++ rest) = (takeBasicLines .none rest).push c := by
  cases escaped with
  | short letter known other =>
    obtain ⟨x, u, U, ret, line, blank, tab⟩ := other
    have found : takeBasicLines .none ('\\' :: letter :: rest) =
        (escapes.lookup letter).bind fun c => (takeBasicLines .none rest).push c := by
      rw [takeBasicLines]
      · simp [line, blank, tab]
      all_goals intros; contradiction
    simpa [known] using found
  | code coded =>
    have found := scalar?_code coded
    simp [Text.code, takeBasicLines, found]
  | line several same =>
    rw [same, List.singleton_append, takeBasicLines]
    rfl
  | plain whole quote slash =>
    rw [List.singleton_append, takeBasicLines]
    · simp [whole, slash]
    case x_4 =>
      rintro _ rfl
      exact absurd whole (by decide)
    case x_5 =>
      rintro rfl
      exact absurd whole (by decide)
    all_goals intros; contradiction

theorem written_escapeAll (run : Nat) (cs : List Char) :
    Written (takeBasicLines .none) '"' run cs (escapeAll true 2 run cs) := by
  induction cs generalizing run with
  | nil => exact .nil run
  | cons c cs ih =>
    by_cases quote : c = '"'
    · subst quote
      rw [escapeAll]
      split
      case isTrue room => exact .quote room (ih _)
      case isFalse =>
        refine .other (d := '\\') ['"'] (by decide) (fun rest => ?_) (ih 0)
        exact takeBasicLines_escaped (.short '"' (by decide) (by decide)) rest
    · have shown := escaped true quote
      obtain ⟨d, front, same, other, -⟩ := shown.front
      rw [escapeAll, same]
      · exact .other front other (same ▸ takeBasicLines_escaped shown) (ih 0)
      · exact quote

/-- Whether no more than `limit` quotes follow each other when `run` are right before the text. -/
def fewQuotes (quote : Char) (limit : Nat) : (run : Nat) → List Char → Bool
  | _, [] => true
  | run, c :: cs =>
    if c = quote then run < limit && fewQuotes quote limit (run + 1) cs else fewQuotes quote limit 0 cs

theorem fewQuotes_of_longestRun {cs : List Char} {limit : Nat} (few : longestRun quote cs ≤ limit) :
    fewQuotes quote limit 0 cs := by
  have counted (cs : List Char) : ∀ best run, (cs.foldl (fun (seen : Nat × Nat) c =>
      if c = quote then (max seen.1 (seen.2 + 1), seen.2 + 1) else (seen.1, 0)) (best, run)).1 ≤
        limit → best ≤ limit ∧ fewQuotes quote limit run cs := by
    induction cs with
    | nil => exact fun best run few => ⟨few, rfl⟩
    | cons c cs ih =>
      intro best run few
      dsimp only [List.foldl_cons] at few
      by_cases same : c = quote
      · rw [if_pos same] at few
        obtain ⟨held, later⟩ := ih _ _ few
        simp [fewQuotes, same, later]
        omega
      · rw [if_neg same] at few
        simpa [fewQuotes, same] using ih _ _ few
  exact (counted cs 0 0 few).2

theorem not_mem_of_fewQuotes {cs : List Char} (none : fewQuotes quote 0 0 cs) : quote ∉ cs := by
  induction cs with
  | nil => simp
  | cons c cs ih =>
    by_cases same : c = quote
    · simp [fewQuotes, same] at none
    · have later : quote ∉ cs := ih (by simpa [fewQuotes, same] using none)
      simpa using ⟨fun found => same found.symm, later⟩

theorem written_literal {cs : List Char} {run : Nat} (free : cs.any needsCode = false)
    (few : fewQuotes '\'' 2 run cs) : Written takeLiteralLines '\'' run cs cs := by
  induction cs generalizing run with
  | nil => exact .nil run
  | cons c cs ih =>
    obtain ⟨first, others⟩ : needsCode c = false ∧ cs.any needsCode = false := by simpa using free
    by_cases quote : c = '\''
    · subst quote
      obtain ⟨room, later⟩ : run < 2 ∧ fewQuotes '\'' 2 (run + 1) cs := by
        simpa [fewQuotes] using few
      exact .quote room (ih others later)
    · refine .other [] quote (fun rest => ?_)
        (ih others (by simpa [fewQuotes, quote] using few))
      by_cases line : c = '\n'
      · rw [line, List.singleton_append, takeLiteralLines]
      · rw [List.singleton_append, takeLiteralLines, if_pos (isPlain_of_not_needsCode first line)]
        case x_4 =>
          rintro _ rfl
          exact absurd first (by decide)
        all_goals intros; contradiction

/-! ### Any form -/

/-- What stands behind a text that was written. -/
def Behind (rest : List Char) : Prop := rest.head? ≠ some '"' ∧ rest.head? ≠ some '\''

theorem take_basic (cs : List Char) {rest : List Char} (behind : Behind rest) :
    take ('"' :: (escapeAll false 0 0 cs ++ '"' :: rest)) = some (cs, rest) := by
  have line : take ('"' :: (escapeAll false 0 0 cs ++ '"' :: rest)) =
      takeLine ('"' :: (escapeAll false 0 0 cs ++ '"' :: rest)) := by
    rw [take]
    case x_1 =>
      intro more same
      have same := (List.cons.inj same).2
      cases cs with
      | nil =>
        have next : rest = '"' :: more := (List.cons.inj same).2
        exact behind.1 (by simp [next])
      | cons c cs =>
        by_cases quote : c = '"'
        · subst quote
          simp [escapeAll] at same
        · obtain ⟨d, later, written, other, -⟩ := (escaped false quote).front
          rw [escapeAll, written] at same
          · exact other (List.cons.inj same).1
          · exact quote
    case x_2 =>
      intro _ same
      exact absurd (List.cons.inj same).1 (by decide)
  rw [line]
  exact takeBasic_escapeAll cs rest

theorem take_literal {cs rest : List Char} (plain : ∀ c ∈ cs, isPlain c) (free : '\'' ∉ cs)
    (behind : Behind rest) : take ('\'' :: (cs ++ '\'' :: rest)) = some (cs, rest) := by
  have line : take ('\'' :: (cs ++ '\'' :: rest)) = takeLine ('\'' :: (cs ++ '\'' :: rest)) := by
    rw [take]
    case x_2 =>
      intro more same
      have same := (List.cons.inj same).2
      cases cs with
      | nil =>
        have next : rest = '\'' :: more := (List.cons.inj same).2
        exact behind.2 (by simp [next])
      | cons c cs =>
        have first : c = '\'' := (List.cons.inj same).1
        exact free (first ▸ List.mem_cons_self)
    case x_1 =>
      intro _ same
      exact absurd (List.cons.inj same).1 (by decide)
  rw [line]
  exact takeLiteral_append rest plain free

/-- The line end that a text of several lines starts with is no part of it, and a text of one line
starts with none. -/
theorem dropLineEnd_start {cs written : List Char}
    (first : ∀ c ∈ written.head?, c ≠ '\r' ∧ (c = '\n' → '\n' ∈ cs)) :
    dropLineEnd ((if '\n' ∈ cs then ['\n'] else []) ++ written) = written := by
  by_cases several : '\n' ∈ cs
  · simp [several, dropLineEnd]
  · cases written with
    | nil => simp [several, dropLineEnd]
    | cons c written =>
      obtain ⟨ret, line⟩ := first c rfl
      have other : c ≠ '\n' := fun same => several (line same)
      simp only [several, if_false, List.nil_append]
      rw [dropLineEnd]
      case x_1 => exact fun _ same => ret (List.cons.inj same).1
      case x_2 => exact fun _ same => other (List.cons.inj same).1

theorem head?_escapeAll (cs rest : List Char) :
    ∀ c ∈ (escapeAll true 2 0 cs ++ '"' :: rest).head?, c ≠ '\r' ∧ (c = '\n' → '\n' ∈ cs) := by
  cases cs with
  | nil =>
    rintro _ ⟨rfl⟩
    exact ⟨by decide, by simp⟩
  | cons c cs =>
    by_cases quote : c = '"'
    · subst quote
      rintro _ ⟨rfl⟩
      exact ⟨by decide, by simp⟩
    · obtain ⟨d, later, written, -, ret, line⟩ := (escaped true quote).front
      rw [escapeAll, written]
      · rintro _ ⟨rfl⟩
        exact ⟨ret, fun same => line same ▸ List.mem_cons_self⟩
      · exact quote

theorem head?_literal {cs : List Char} (rest : List Char) (free : cs.any needsCode = false) :
    ∀ c ∈ (cs ++ '\'' :: rest).head?, c ≠ '\r' ∧ (c = '\n' → '\n' ∈ cs) := by
  cases cs with
  | nil =>
    rintro _ ⟨rfl⟩
    exact ⟨by decide, by simp⟩
  | cons c cs =>
    rintro _ ⟨rfl⟩
    have first : needsCode c = false := (by simpa using free : _ ∧ _).1
    refine ⟨?_, fun same => same ▸ List.mem_cons_self⟩
    rintro rfl
    exact absurd first (by decide)

/-- A literal form is chosen only for texts that it can hold. -/
theorem free_of_form {cs : List Char} (chosen : form cs = .literal ∨ form cs = .literalLines) :
    cs.any needsCode = false ∧ longestRun '\'' cs ≤ 2 ∧
      (form cs = .literal → longestRun '\'' cs = 0 ∧ '\n' ∉ cs) := by
  unfold form at chosen ⊢
  dsimp only at chosen ⊢
  grind

theorem front_render (cs : List Char) :
    ∃ quote later, render cs = quote :: later ∧ (quote = '"' ∨ quote = '\'') := by
  unfold render
  dsimp only
  split
  case h_1 | h_3 => exact ⟨'"', _, rfl, .inl rfl⟩
  case h_2 | h_4 => exact ⟨'\'', _, rfl, .inr rfl⟩

/-- A text is read as it was written. -/
theorem take_render (cs : List Char) {rest : List Char} (behind : Behind rest) :
    take (render cs ++ rest) = some (cs, rest) := by
  unfold render
  dsimp only
  split
  case h_1 => simpa using take_basic cs behind
  case h_2 chosen =>
    obtain ⟨free, -, one⟩ := free_of_form (.inl chosen)
    obtain ⟨none, line⟩ := one chosen
    have plain : ∀ c ∈ cs, isPlain c := fun c member =>
      isPlain_of_not_needsCode (by simpa using List.any_eq_false.mp free c member)
        (ne_of_mem_of_not_mem member line)
    have quotes : '\'' ∉ cs := not_mem_of_fewQuotes (fewQuotes_of_longestRun (Nat.le_of_eq none))
    simpa using take_literal plain quotes behind
  case h_3 =>
    have written := written_escapeAll 0 cs
    have found := written.take closes_takeBasicLines behind.1
    simpa [take, dropLineEnd_start (head?_escapeAll cs _)] using found
  case h_4 chosen =>
    obtain ⟨free, few, -⟩ := free_of_form (.inr chosen)
    have written := written_literal free (fewQuotes_of_longestRun few)
    have found := written.take closes_takeLiteralLines behind.2
    simpa [take, dropLineEnd_start (head?_literal _ free)] using found

end QuorumLog.Toml.Text
