import QuorumLog.Proofs.RefusalTexts
import QuorumLog.Proofs.WrittenNumbers
import QuorumLog.Proofs.WrittenTexts
import QuorumLog.Toml.Document

/-! A document of plain tables is read as it was written. Each statement stands on a line of its own,
so the reader is followed from line to line: a header opens a table behind those that are complete, and
each field goes to the end of the table that was opened last. -/

namespace QuorumLog.Toml

/-- What a scalar is read as. -/
def Scalar.value : Scalar → Value
  | text content => .text content
  | natural n => .integer n
  | truth b => .truth b

/-- What a table is read as. -/
def readTable (fields : List (String × Scalar)) : Value :=
  .table .header (fields.map fun (key, v) => (key, v.value))

/-- A name that needs no quotes. -/
def Bare (name : String) : Prop := name.toList.isEmpty = false ∧ name.toList.all isBare = true

instance (name : String) : Decidable (Bare name) := inferInstanceAs (Decidable (_ ∧ _))

theorem Bare.ne_nil {name : String} (bare : Bare name) : name.toList ≠ [] := by
  simpa using bare.1

theorem Bare.all {name : String} (bare : Bare name) : ∀ c ∈ name.toList, isBare c :=
  List.all_eq_true.mp bare.2

variable {fuel depth : Nat} {name key : String} {rest : List Char}

/-! ### Numbers -/

theorem isDecimal_of_mem_digits {n : Nat} : ∀ c ∈ Decimal.digits n, Number.isDecimal c := by
  intro c member
  simpa [Number.isDecimal] using Decimal.digit_of_mem_digits member

theorem front_digits (n : Nat) :
    ∃ c cs, Decimal.digits n = c :: cs ∧ Number.isDecimal c := by
  obtain ⟨c, cs, found⟩ := List.exists_cons_of_ne_nil (Decimal.digits_ne_nil n)
  exact ⟨c, cs, found, isDecimal_of_mem_digits c (found ▸ List.mem_cons_self)⟩

theorem digits?_of_all {cs : List Char} (all : ∀ c ∈ cs, Number.isDecimal c) (after : Bool)
    (filled : after ∨ cs ≠ []) : Number.digits? Number.isDecimal after cs = some cs := by
  induction cs generalizing after with
  | nil =>
    have digit : after = true := by simpa using filled
    simp [Number.digits?, digit]
  | cons c cs ih =>
    have digit := all c List.mem_cons_self
    have later := ih (fun c member => all c (List.mem_cons_of_mem _ member)) true (.inl rfl)
    have parted : c ≠ '_' := by
      rintro rfl
      exact absurd digit (by decide)
    simp [Number.digits?, parted, digit, later]

theorem plain?_digits (n : Nat) : Number.plain? (Decimal.digits n) = some n := by
  have found := digits?_of_all (isDecimal_of_mem_digits (n := n)) false
    (.inr (Decimal.digits_ne_nil n))
  simp only [Number.plain?, found, Option.bind_some]
  split
  · rename_i zero
    exact absurd (Decimal.digits_of_zero zero) (by simp)
  · exact Decimal.value?_digits n

theorem integer?_digits (n : Nat) : Number.integer? (Decimal.digits n) = some (n : Int) := by
  have digit {c : Char} (member : c ∈ Decimal.digits n) := isDecimal_of_mem_digits c member
  unfold Number.integer?
  split
  case h_1 found | h_2 found | h_3 found => exact absurd (Decimal.digits_of_zero found) (by simp)
  case h_4 found | h_5 found =>
    exact absurd (digit (found ▸ List.mem_cons_self)) (by decide)
  case h_6 => simp [plain?_digits]

/-! ### Values -/

/-- A word ends where something else stands. -/
theorem takeWhile_word {p : Char → Bool} {word : List Char} (all : ∀ c ∈ word, p c)
    (ends : ∀ c ∈ rest.head?, p c = false) :
    (word ++ rest).takeWhile p = word ∧ (word ++ rest).dropWhile p = rest := by
  rw [List.takeWhile_append_of_pos all, List.dropWhile_append_of_pos all]
  cases rest with
  | nil => simp
  | cons c rest => simp [ends c rfl]

theorem takeWord_line (rest : List Char) {word : List Char} {v : Value}
    (all : ∀ c ∈ word, isWord c) (known : ofWord? word = some v) :
    takeWord (word ++ '\n' :: rest) = some (v, '\n' :: rest) := by
  have line : ∀ c ∈ ('\n' :: rest).head?, isWord c = false := by
    rintro _ ⟨rfl⟩
    decide
  obtain ⟨front, back⟩ := takeWhile_word all line
  simp [takeWord, front, back, known]

theorem isWord_of_isDecimal {c : Char} (digit : Number.isDecimal c) : isWord c := by
  have bounds : '0' ≤ c ∧ c ≤ '9' := by simpa [Number.isDecimal] using digit
  simp [isWord, isBare, bounds]

theorem ofWord?_digits (n : Nat) : ofWord? (Decimal.digits n) = some (.integer n) := by
  have other {word : List Char} (front : word.head?.any fun c => !Number.isDecimal c) :
      Decimal.digits n ≠ word := by
    rintro rfl
    obtain ⟨c, cs, found, digit⟩ := front_digits n
    simp [found, digit] at front
  have yes : Decimal.digits n ≠ "true".toList := other (by decide)
  have no : Decimal.digits n ≠ "false".toList := other (by decide)
  simp only [ofWord?, if_neg yes, if_neg no, integer?_digits]

theorem takeValue_of_digit {c : Char} (digit : Number.isDecimal c) :
    takeValue (depth + 1) (c :: rest) = takeWord (c :: rest) := by
  have bounds : '0' ≤ c ∧ c ≤ '9' := by simpa [Number.isDecimal] using digit
  unfold takeValue
  dsimp only
  split
  case h_5 => rfl
  all_goals
    rename_i same
    obtain ⟨rfl, -⟩ := List.cons.inj same
    exact absurd bounds (by decide)

/-- A value is read up to the end of its line. -/
theorem takeValue_render (v : Scalar) :
    takeValue (depth + 1) (v.render ++ '\n' :: rest) = some (v.value, '\n' :: rest) := by
  cases v with
  | text content =>
    have behind : Text.Behind ('\n' :: rest) := by simp [Text.Behind]
    have found := Text.take_render content.toList behind
    obtain ⟨quote, later, same, quotes⟩ := Text.front_render content.toList
    rw [same, List.cons_append] at found
    rw [Scalar.render, same, List.cons_append]
    rcases quotes with rfl | rfl <;> simp [takeValue, found, Scalar.value]
  | natural n =>
    have found := takeWord_line rest
      (fun c member => isWord_of_isDecimal (isDecimal_of_mem_digits c member)) (ofWord?_digits n)
    obtain ⟨c, cs, digits, digit⟩ := front_digits n
    rw [digits] at found
    rw [Scalar.render, digits, List.cons_append, takeValue_of_digit digit]
    exact found
  | truth b => cases b <;> rfl

/-- A value starts on the spot, so what parts it from the equals sign ends before it. -/
theorem skipGap_render (v : Scalar) : skipGap (v.render ++ rest) = v.render ++ rest := by
  have solid {c : Char} {cs : List Char} (same : v.render = c :: cs) (other : isGap c = false) :
      skipGap (v.render ++ rest) = v.render ++ rest := by
    simp [same, skipGap, other]
  cases v with
  | text content =>
    obtain ⟨quote, later, same, quotes⟩ := Text.front_render content.toList
    exact solid same (by rcases quotes with rfl | rfl <;> decide)
  | natural n =>
    obtain ⟨c, cs, digits, digit⟩ := front_digits n
    have filled : c ≠ ' ' ∧ c ≠ '\t' := by
      constructor
      all_goals
        rintro rfl
        exact absurd digit (by decide)
    exact solid (show _ = c :: cs from digits) (by simp [isGap, filled])
  | truth b => cases b <;> rfl

/-! ### Keys -/

theorem takePart_bare (bare : Bare name) (other : ∀ c ∈ rest.head?, isBare c = false) :
    takePart (name.toList ++ rest) = some (name, rest) := by
  obtain ⟨front, back⟩ := takeWhile_word bare.all other
  unfold takePart
  rw [front, back]
  split
  case h_1 empty => exact absurd empty bare.ne_nil
  case h_2 => simp

theorem takeKey_bare (fuel : Nat) (rest : List Char) (bare : Bare name)
    (other : ∀ c ∈ rest.head?, isBare c = false) (last : (skipGap rest).head? ≠ some '.') :
    takeKey (fuel + 1) (name.toList ++ rest) = some (([], name), rest) := by
  simp only [takeKey, takePart_bare bare other, Option.bind_eq_bind, Option.bind_some]
  split
  case h_1 found => exact absurd (by simp [found]) last
  case h_2 => rfl

/-! ### Statements -/

/-- The line of a field. -/
def line (field : String × Scalar) : List Char :=
  field.1.toList ++ " = ".toList ++ field.2.render ++ ['\n']

theorem front_bare (bare : Bare name) : ∃ c later, name.toList = c :: later ∧ isBare c := by
  obtain ⟨c, later, found⟩ := List.exists_cons_of_ne_nil bare.ne_nil
  exact ⟨c, later, found, bare.all c (found ▸ List.mem_cons_self)⟩

theorem line_append (v : Scalar) :
    line (key, v) ++ rest = key.toList ++ ' ' :: '=' :: ' ' :: (v.render ++ '\n' :: rest) := by
  have equals : " = ".toList = [' ', '=', ' '] := by decide
  simp [line, equals]

/-- What starts a statement is neither a gap nor a comment nor the end of a line. -/
theorem visible_of_bare {c : Char} (start : isBare c ∨ c = '[') :
    c ≠ '\n' ∧ c ≠ '\r' ∧ c ≠ '#' ∧ c ≠ ' ' ∧ c ≠ '\t' := by
  refine ⟨?_, ?_, ?_, ?_, ?_⟩
  all_goals
    rintro rfl
    exact absurd start (by decide)

theorem takeField_line (rest : List Char) (bare : Bare key) (v : Scalar) :
    takeField (takeValue maxDepth) (line (key, v) ++ rest) =
      some ((([], key), v.value), '\n' :: rest) := by
  have long : ∃ fuel, (line (key, v) ++ rest).length = fuel + 1 :=
    Nat.exists_eq_add_one.mpr (by simp [line_append])
  obtain ⟨fuel, long⟩ := long
  have named := takeKey_bare fuel (' ' :: '=' :: ' ' :: (v.render ++ '\n' :: rest)) bare
    (by rintro _ ⟨rfl⟩; decide) (by simp [skipGap, isGap])
  have gap (rest : List Char) : skipGap (' ' :: rest) = skipGap rest := by simp [skipGap, isGap]
  have equals (rest : List Char) : skipGap ('=' :: rest) = '=' :: rest := by simp [skipGap, isGap]
  unfold takeField
  rw [long, line_append, named]
  simp [gap, equals, expect, skipGap_render, takeValue_render, maxDepth]

theorem takeStatement_line (rest : List Char) (draft : Draft) (bare : Bare key) (v : Scalar) :
    takeStatement draft (line (key, v) ++ rest) =
      (Fields.onPath? (Fields.add? key v.value) draft.opened draft.root).map fun root =>
        ({ draft with root }, '\n' :: rest) := by
  have found := takeField_line rest bare v
  obtain ⟨c, later, same, first⟩ := front_bare bare
  unfold takeStatement
  split
  case h_1 | h_2 =>
    rename_i same'
    rw [line_append, same, List.cons_append] at same'
    rw [(List.cons.inj same').1] at first
    exact absurd first (by decide)
  case h_3 =>
    simp only [found, Option.bind_eq_bind, Option.bind_some, Option.map_eq_bind]
    rfl

/-- The line of a header. -/
def header (name : String) : List Char := '[' :: name.toList ++ [']', '\n']

theorem takeHeader_bare (rest : List Char) (bare : Bare name) :
    takeHeader (expect ']') (name.toList ++ ']' :: rest) = some (([], name), rest) := by
  obtain ⟨c, later, same, first⟩ := front_bare bare
  have visible := visible_of_bare (.inl first)
  have filled : isGap c = false := by simp [isGap, visible]
  have start : skipGap (name.toList ++ ']' :: rest) = name.toList ++ ']' :: rest := by
    simp [skipGap, same, filled]
  have close : skipGap (']' :: rest) = ']' :: rest := by simp [skipGap, isGap]
  have long : ∃ fuel, (name.toList ++ ']' :: rest).length = fuel + 1 :=
    Nat.exists_eq_add_one.mpr (by simp)
  obtain ⟨fuel, long⟩ := long
  have named := takeKey_bare fuel (']' :: rest) bare (by rintro _ ⟨rfl⟩; decide)
    (by simp [close])
  unfold takeHeader
  rw [long, start, named]
  simp [close, expect]

theorem takeStatement_header (rest : List Char) (draft : Draft) (bare : Bare name) :
    takeStatement draft (header name ++ rest) =
      (Fields.openTable? name draft.root).map fun root => (⟨root, [name]⟩, '\n' :: rest) := by
  obtain ⟨c, later, same, first⟩ := front_bare bare
  have written : header name ++ rest = '[' :: (name.toList ++ ']' :: '\n' :: rest) := by
    simp [header]
  have found := takeHeader_bare ('\n' :: rest) bare
  rw [written]
  unfold takeStatement
  split
  case h_1 doubled =>
    rw [same] at doubled
    obtain ⟨rfl, -⟩ := List.cons.inj (List.cons.inj doubled).2
    exact absurd first (by decide)
  case h_2 single =>
    obtain ⟨-, rfl⟩ := List.cons.inj single
    simp only [found, Option.bind_eq_bind, Option.bind_some, Option.map_eq_bind]
    rfl
  case h_3 other => exact absurd rfl (other _)

/-! ### Lines -/

theorem takeStatements_empty (draft : Draft) :
    takeStatements fuel draft ('\n' :: rest) = takeStatements fuel draft rest := by
  cases fuel with
  | zero => rfl
  | succ fuel => simp [takeStatements, skipSpace]

/-- A reader that took a statement goes on with the next line. -/
theorem takeStatements_statement {draft after : Draft} {c : Char} {cs : List Char}
    (start : isBare c ∨ c = '[')
    (taken : takeStatement draft (c :: cs) = some (after, '\n' :: rest)) :
    takeStatements (fuel + 1) draft (c :: cs) = takeStatements fuel after rest := by
  obtain ⟨line, ret, comment, blank, tab⟩ := visible_of_bare start
  have here : skipSpace false (c :: cs) = some (c :: cs) := by
    rw [skipSpace]
    · simp [comment, isGap, blank, tab]
    · exact line
    · exact fun _ same _ => ret same
  simp only [takeStatements, here, Option.bind_eq_bind, Option.bind_some, taken]
  rfl

variable {before sub : Fields} {v w : Value}

theorem lookup_last (new : name ∉ before.map Prod.fst) :
    (before ++ [(name, v)]).lookup name = some v := by
  induction before with
  | nil => simp
  | cons field before ih =>
    obtain ⟨first, others⟩ : name ≠ field.1 ∧ name ∉ before.map Prod.fst := by simpa using new
    have differs : (name == field.1) = false := by simpa using first
    rw [List.cons_append, List.lookup_cons, differs]
    exact ih others

theorem set_last (new : name ∉ before.map Prod.fst) :
    Fields.set name w (before ++ [(name, v)]) = before ++ [(name, w)] := by
  induction before with
  | nil => simp [Fields.set]
  | cons field before ih =>
    obtain ⟨first, others⟩ : name ≠ field.1 ∧ name ∉ before.map Prod.fst := by simpa using new
    simp [Fields.set, Ne.symm first, ih others]

theorem lookup_eq_none_of_new (new : name ∉ before.map Prod.fst) : before.lookup name = none := by
  rw [List.lookup_eq_none_iff]
  intro field member
  simpa using fun same => new (List.mem_map.mpr ⟨field, member, same.symm⟩)

/-- A field goes to the end of the open table. -/
theorem takeStatements_line (fuel : Nat) (rest : List Char) (bare : Bare key) (s : Scalar)
    (table : name ∉ before.map Prod.fst) (new : key ∉ sub.map Prod.fst) :
    takeStatements (fuel + 1) ⟨before ++ [(name, .table .header sub)], [name]⟩
        (line (key, s) ++ rest) =
      takeStatements fuel ⟨before ++ [(name, .table .header (sub ++ [(key, s.value)]))], [name]⟩
        rest := by
  have added : Fields.onPath? (Fields.add? key s.value) [name]
      (before ++ [(name, .table .header sub)]) =
        some (before ++ [(name, .table .header (sub ++ [(key, s.value)]))]) := by
    simp [Fields.onPath?, lookup_last table, Fields.add?, lookup_eq_none_of_new new, set_last table]
  have taken := takeStatement_line rest ⟨before ++ [(name, .table .header sub)], [name]⟩ bare s
  rw [added] at taken
  obtain ⟨c, later, same, first⟩ := front_bare bare
  rw [line_append, same, List.cons_append] at taken ⊢
  exact takeStatements_statement (.inl first) taken

theorem takeStatements_lines (fuel : Nat) (rest : List Char) (sub : Fields)
    (table : name ∉ before.map Prod.fst)
    (fields : List (String × Scalar)) (bare : ∀ field ∈ fields, Bare field.1)
    (apart : (sub.map Prod.fst ++ fields.map Prod.fst).Nodup) :
    takeStatements (fuel + fields.length) ⟨before ++ [(name, .table .header sub)], [name]⟩
        (fields.flatMap line ++ rest) =
      takeStatements fuel
        ⟨before ++ [(name, .table .header (sub ++ fields.map fun (key, s) => (key, s.value)))],
          [name]⟩ rest := by
  induction fields generalizing sub with
  | nil => simp
  | cons field fields ih =>
    obtain ⟨key, s⟩ := field
    have new : key ∉ sub.map Prod.fst := by
      intro member
      exact (List.nodup_append.mp apart).2.2 key member key List.mem_cons_self rfl
    have later := ih (sub ++ [(key, s.value)])
      (fun field member => bare field (List.mem_cons_of_mem _ member)) (by simpa using apart)
    have first := takeStatements_line (fuel + fields.length) (fields.flatMap line ++ rest)
      (bare (key, s) List.mem_cons_self) s table new
    rw [List.flatMap_cons, List.append_assoc, List.length_cons, ← Nat.add_assoc, first, later]
    simp

/-- A table that can be written: its name and its keys need no quotes, and no key is there twice. -/
structure Plain (table : String × List (String × Scalar)) : Prop where
  name : Bare table.1
  keys : ∀ field ∈ table.2, Bare field.1
  apart : (table.2.map Prod.fst).Nodup

theorem renderTable_append (rest : List Char) (table : String × List (String × Scalar)) :
    renderTable table.1 table.2 ++ rest = header table.1 ++ (table.2.flatMap line ++ rest) := by
  rw [← List.append_assoc]
  rfl

/-- A table is read up to its last field. -/
theorem takeStatements_table (fuel : Nat) (rest : List Char) (opened : List String)
    {table : String × List (String × Scalar)} (plain : Plain table)
    (new : table.1 ∉ before.map Prod.fst) :
    takeStatements (fuel + (table.2.length + 1)) ⟨before, opened⟩
        (renderTable table.1 table.2 ++ rest) =
      takeStatements fuel ⟨before ++ [(table.1, readTable table.2)], [table.1]⟩ rest := by
  have opens : Fields.openTable? table.1 before =
      some (before ++ [(table.1, .table .header [])]) := by
    simp [Fields.openTable?, lookup_eq_none_of_new new]
  have taken := takeStatement_header (table.2.flatMap line ++ rest) ⟨before, opened⟩ plain.name
  rw [opens] at taken
  have fields := takeStatements_lines fuel rest [] new table.2 plain.keys
    (by simpa using plain.apart)
  rw [renderTable_append, ← Nat.add_assoc]
  unfold header at taken ⊢
  exact (takeStatements_statement (.inr rfl) taken).trans fields

/-- The statements of some tables. -/
def statements : List (String × List (String × Scalar)) → Nat
  | [] => 0
  | table :: tables => table.2.length + 1 + statements tables

theorem takeStatements_tables (fuel : Nat) (before : Fields) (opened : List String)
    (tables : List (String × List (String × Scalar))) (plain : ∀ table ∈ tables, Plain table)
    (apart : (before.map Prod.fst ++ tables.map Prod.fst).Nodup) :
    takeStatements (fuel + 1 + statements tables) ⟨before, opened⟩
        (tables.flatMap fun table => '\n' :: renderTable table.1 table.2) =
      some (before ++ tables.map fun table => (table.1, readTable table.2)) := by
  induction tables generalizing before opened with
  | nil => simp [statements, takeStatements, skipSpace]
  | cons table tables ih =>
    have new : table.1 ∉ before.map Prod.fst := by
      intro member
      exact (List.nodup_append.mp apart).2.2 table.1 member table.1 List.mem_cons_self rfl
    have first := takeStatements_table (fuel + 1 + statements tables)
      (tables.flatMap fun table => '\n' :: renderTable table.1 table.2) opened
      (plain table List.mem_cons_self) new
    have later := ih (before ++ [(table.1, readTable table.2)]) [table.1]
      (fun table member => plain table (List.mem_cons_of_mem _ member)) (by simpa using apart)
    have count : fuel + 1 + statements (table :: tables) =
        fuel + 1 + statements tables + (table.2.length + 1) := by
      simp only [statements]
      omega
    rw [List.flatMap_cons, List.cons_append, takeStatements_empty, count, first, later]
    simp

/-- Every statement and every empty line has a character of its own, so a reader does not run out of
steps. -/
theorem statements_le (tables : List (String × List (String × Scalar))) :
    statements tables + tables.length ≤
      (tables.flatMap fun table => '\n' :: renderTable table.1 table.2).length := by
  have lines (fields : List (String × Scalar)) : fields.length ≤ (fields.flatMap line).length := by
    induction fields with
    | nil => simp
    | cons field fields ih =>
      simp only [List.flatMap_cons, List.length_append, List.length_cons]
      have : 0 < (line field).length := by simp [line]
      omega
  induction tables with
  | nil => simp [statements]
  | cons table tables ih =>
    have rendered := congrArg List.length (renderTable_append [] table)
    have fields := lines table.2
    have filled : 0 < (header table.1).length := by simp [header]
    simp only [statements, List.flatMap_cons, List.length_append,
      List.length_cons, List.append_nil] at ih rendered ⊢
    omega

theorem intercalate_renderTable (table : String × List (String × Scalar))
    (tables : List (String × List (String × Scalar))) :
    ['\n'].intercalate ((table :: tables).map fun (name, fields) => renderTable name fields) =
      renderTable table.1 table.2 ++
        tables.flatMap fun table => '\n' :: renderTable table.1 table.2 := by
  induction tables generalizing table with
  | nil => simp
  | cons next tables ih =>
    have later := ih next
    rw [List.map_cons] at later ⊢
    rw [List.map_cons, List.intercalate_cons_cons, later]
    simp

/-- A document of plain tables is read as it was written. -/
theorem read?_render {tables : List (String × List (String × Scalar))}
    (plain : ∀ table ∈ tables, Plain table) (apart : (tables.map Prod.fst).Nodup) :
    read? (render tables) = some (tables.map fun table => (table.1, readTable table.2)) := by
  cases tables with
  | nil => rfl
  | cons table tables =>
    -- The first table is read as if an empty line were before it too.
    have found (fuel : Nat) := takeStatements_tables fuel [] [] (table :: tables)
      plain (by simpa using apart)
    have enough := statements_le (table :: tables)
    simp only [List.flatMap_cons, List.cons_append, takeStatements_empty, List.nil_append,
      List.length_cons] at enough found
    have whole : (render (table :: tables)).toList = renderTable table.1 table.2 ++
        tables.flatMap fun table => '\n' :: renderTable table.1 table.2 := by
      rw [render, String.toList_ofList, intercalate_renderTable]
    have first : ∃ later, renderTable table.1 table.2 ++
        (tables.flatMap fun table => '\n' :: renderTable table.1 table.2) = '[' :: later :=
      ⟨_, rfl⟩
    obtain ⟨later, first⟩ := first
    rw [first] at whole found enough
    have steps : ('[' :: later).length + 1 =
        ('[' :: later).length - statements (table :: tables) + 1 + statements (table :: tables) := by
      omega
    simp only [read?, whole]
    show takeStatements (('[' :: later).length + 1) {} ('[' :: later) = _
    rw [steps]
    exact found _

end QuorumLog.Toml
