import QuorumLog.Proofs.AddressTexts
import QuorumLog.Proofs.SegmentNames
import QuorumLog.Proofs.WrittenDocuments
import QuorumLog.Settings.Source

/-! Settings that were loaded, from whatever file and under whatever variables, can be saved and come
back as they were. Loading gives a field that is missing its usual value without a word, so nothing may
be left out or written in a form that is not read: every field is followed through the document, and of
a field with a number it is shown that it never holds one that the document cannot carry. -/

namespace QuorumLog

/-! ### What a file can carry -/

/-- Whether a time is given in whole milliseconds of 64 bits. -/
def Span.Kept (span : Span) : Prop := ∃ millis < UInt64.size, span = .ofMillis millis

namespace Settings

/-- The times among the settings. -/
def spans (s : Settings) : List Span := [s.heartbeat, s.connectTimeout, s.firstDelay, s.maxDelay]

/-- Whether a file can carry the settings. -/
def Kept (s : Settings) : Prop := (∀ span ∈ s.spans, span.Kept) ∧ s.batchSize < UInt64.size

end Settings

def NodeSettings.Kept (s : NodeSettings) : Prop :=
  s.replication.Kept ∧ s.store.segmentSize < UInt64.size

namespace Toml

variable {v : Value} {n : Nat}

theorem Meaning.lt_of_long (found : Meaning.long v = some n) : n < UInt64.size := by
  unfold long natural at found
  split at found
  · split at found
    · cases found
      assumption
    · cases found
  · cases found

theorem Meaning.kept_of_span {span : Span} (found : Meaning.span v = some span) : span.Kept := by
  obtain ⟨millis, read, rfl⟩ := Option.map_eq_some_iff.mp found
  exact ⟨millis, lt_of_long read, rfl⟩

/-- What a field holds was its usual value or is a meaning. -/
theorem Fields.get?_elim {α : Type} {fields : Fields} {name : String} {meaning : Meaning α}
    {usual a : α} (P : α → Prop) (found : fields.get? name meaning usual = some a)
    (standard : P usual) (meant : ∀ {v a}, meaning v = some a → P a) : P a := by
  unfold Fields.get? at found
  split at found
  · cases found
    exact standard
  · exact meant found

end Toml

namespace Settings

theorem kept_of_ofFields? {usual s : Settings} {fields : Toml.Fields}
    (found : ofFields? usual fields = some s) (standard : usual.Kept) : s.Kept := by
  have next {α β : Type} {x : Option α} {f : α → Option β} {b : β} (bound : x >>= f = some b) :
      ∃ a, x = some a ∧ f a = some b := Option.bind_eq_some_iff.mp bound
  obtain ⟨nodeId, -, found⟩ := next found
  obtain ⟨role, -, found⟩ := next found
  obtain ⟨bindAddress, -, found⟩ := next found
  obtain ⟨masterAddress, -, found⟩ := next found
  obtain ⟨token, -, found⟩ := next found
  obtain ⟨copies, -, found⟩ := next found
  obtain ⟨maxReplicas, -, found⟩ := next found
  obtain ⟨heartbeat, beat, found⟩ := next found
  obtain ⟨connectTimeout, timeout, found⟩ := next found
  obtain ⟨missedHeartbeats, -, found⟩ := next found
  obtain ⟨batchSize, batch, found⟩ := next found
  obtain ⟨firstDelay, first, found⟩ := next found
  obtain ⟨maxDelay, longest, found⟩ := next found
  cases found
  obtain ⟨times, size⟩ := standard
  have kept {span : Span} {name : String} {standard : Span} (member : standard ∈ usual.spans)
      (read : fields.get? name .span standard = some span) : span.Kept :=
    Toml.Fields.get?_elim Span.Kept read (times _ member) Toml.Meaning.kept_of_span
  refine ⟨?_, Toml.Fields.get?_elim (· < UInt64.size) batch size Toml.Meaning.lt_of_long⟩
  simp only [spans, List.forall_mem_cons]
  exact ⟨kept (by simp [spans]) beat, kept (by simp [spans]) timeout, kept (by simp [spans]) first,
    kept (by simp [spans]) longest, by simp⟩

end Settings

namespace NodeSettings

theorem kept_of_ofFields? {usual s : NodeSettings} {fields : Toml.Fields}
    (found : ofFields? usual fields = some s) (standard : usual.Kept) : s.Kept := by
  obtain ⟨replication, main, found⟩ := Option.bind_eq_some_iff.mp found
  obtain ⟨store, log, found⟩ := Option.bind_eq_some_iff.mp found
  cases found
  constructor
  · apply Toml.Fields.get?_elim Settings.Kept main standard.1
    intro v a meant
    obtain ⟨fields, -, meant⟩ := Option.bind_eq_some_iff.mp meant
    exact Settings.kept_of_ofFields? meant standard.1
  · apply Toml.Fields.get?_elim (fun store => store.segmentSize < UInt64.size) log standard.2
    intro v a meant
    obtain ⟨fields, -, meant⟩ := Option.bind_eq_some_iff.mp meant
    obtain ⟨path, -, meant⟩ := Option.bind_eq_some_iff.mp meant
    obtain ⟨size, read, meant⟩ := Option.bind_eq_some_iff.mp meant
    obtain ⟨sync, -, meant⟩ := Option.bind_eq_some_iff.mp meant
    cases meant
    exact Toml.Fields.get?_elim (· < UInt64.size) read standard.2 Toml.Meaning.lt_of_long

theorem kept_standard (nodeId : String) : (standard nodeId).Kept := by
  have known (millis : Nat) (small : millis < UInt64.size) : (Span.ofMillis millis).Kept :=
    ⟨millis, small, rfl⟩
  have batch : (standard nodeId).replication.batchSize = 512 := rfl
  have segment : (standard nodeId).store.segmentSize = 204600 := rfl
  refine ⟨⟨?_, batch ▸ by decide⟩, segment ▸ by decide⟩
  simp only [standard, Settings.ofName, Settings.spans, List.forall_mem_cons]
  exact ⟨known _ (by decide), known _ (by decide), known _ (by decide), known _ (by decide), by simp⟩

theorem kept_of_ofFile {nodeId path : String} {file : SettingsFile} {s : NodeSettings}
    (found : ofFile nodeId path file = .ok s) : s.Kept := by
  unfold ofFile at found
  split at found
  · cases found
    exact kept_standard nodeId
  · cases found
  · split at found
    · cases found
    · split at found
      · cases found
      · rename_i read
        cases found
        obtain ⟨fields, -, meant⟩ := Option.bind_eq_some_iff.mp read
        exact kept_of_ofFields? meant (kept_standard nodeId)

end NodeSettings

namespace Variable

/-- What each variable keeps is kept by all of them. -/
theorem applyAll_keeps (P : NodeSettings → Prop) (environment : Environment) {list : List Variable}
    (each : ∀ v ∈ list, ∀ text s s', v.set? text s = some s' → P s → P s') {s : NodeSettings}
    (held : P s) : P (applyAll environment list s).1 := by
  induction list generalizing s with
  | nil => exact held
  | cons v later ih =>
    have others := fun v member => each v (List.mem_cons_of_mem _ member)
    unfold applyAll
    split
    · exact ih others held
    · split
      · exact held
      · rename_i changed
        exact ih others (each v List.mem_cons_self _ _ _ changed held)

theorem kept_of_set? : ∀ v ∈ all, ∀ (text : String) (s s' : NodeSettings),
    v.set? text s = some s' → s.Kept → s'.Kept := by
  intro v member text s s' changed held
  simp only [all, List.mem_cons, List.not_mem_nil, or_false] at member
  rcases member with rfl | rfl | rfl | rfl | rfl | rfl | rfl
  case inr.inr.inr.inr.inr.inr =>
    obtain ⟨n, read, rfl⟩ := Option.map_eq_some_iff.mp changed
    exact ⟨held.1, (Decimal.read?_eq_some_iff.mp read).1⟩
  case inl | inr.inr.inr.inl | inr.inr.inr.inr.inr.inl =>
    cases changed
    exact held
  all_goals
    obtain ⟨a, -, rfl⟩ := Option.map_eq_some_iff.mp changed
    exact held

/-- Without variables nothing changes. -/
theorem applyAll_unset (list : List Variable) (s : NodeSettings) :
    applyAll (fun _ => none) list s = (s, .ok ()) := by
  induction list with
  | nil => rfl
  | cons v later ih => exact ih

end Variable

namespace NodeSettings

/-- A file can carry all settings that were loaded. -/
theorem kept_of_load {nodeId path : String} {file : SettingsFile} {environment : Environment}
    {s : NodeSettings} (loaded : load nodeId path file environment = .ok s) : s.Kept := by
  unfold load at loaded
  cases found : ofFile nodeId path file with
  | error fault => simp [found, bind, Except.bind] at loaded
  | ok start =>
    have kept := Variable.applyAll_keeps Kept environment Variable.kept_of_set? 
      (kept_of_ofFile found)
    simp only [found, bind, Except.bind] at loaded
    split at loaded
    · rename_i applied
      cases loaded
      rw [applied] at kept
      exact kept
    · cases loaded

end NodeSettings

/-! ### Reading the fields -/

namespace Toml.Meaning

@[simp]
theorem text_value (content : String) : text (Scalar.text content).value = some content := rfl

@[simp]
theorem truth_value (b : Bool) : truth (Scalar.truth b).value = some b := rfl

@[simp]
theorem address_value (a : SocketAddress) : address (Scalar.text a.render).value = some a :=
  SocketAddress.read?_render a

@[simp]
theorem role_value (r : Role) : role (Scalar.text r.name).value = some r := by
  cases r <;> decide

theorem natural_value {n bound : Nat} (small : n < bound) :
    natural bound (Scalar.natural n).value = some n :=
  if_pos small

@[simp]
theorem word_value (n : UInt32) : word (Scalar.natural n.toNat).value = some n := by
  simp [word, natural_value n.toNat_lt]

theorem span_value {s : Span} (kept : s.Kept) : span (Scalar.natural s.millis).value = some s := by
  obtain ⟨millis, small, rfl⟩ := kept
  simp [span, long, natural_value small]

end Toml.Meaning

namespace Settings

open Toml

/-- Every field of settings comes back. -/
theorem ofFields?_toFields (usual : Settings) {s : Settings} (kept : s.Kept)
    (absent : usual.masterAddress = none) :
    ofFields? usual (s.toFields.map fun (key, v) => (key, v.value)) = some s := by
  obtain ⟨times, size⟩ := kept
  simp only [spans, List.forall_mem_cons] at times
  obtain ⟨beat, timeout, delay, limit, -⟩ := times
  have batch : Meaning.long (Scalar.natural s.batchSize).value = some s.batchSize :=
    Meaning.natural_value size
  cases master : s.masterAddress with
  | none =>
    simp [ofFields?, toFields, master, Fields.get?, List.lookup_cons, absent, Meaning.span_value, beat,
      timeout, delay, limit, batch]
    rw [← master]
  | some a =>
    simp [ofFields?, toFields, master, Fields.get?, List.lookup_cons, Meaning.span_value, beat, timeout,
      delay, limit, batch]
    rw [← master]

theorem sublist_fieldNames (s : Settings) : (s.toFields.map Prod.fst).Sublist fieldNames := by
  unfold toFields
  cases s.masterAddress with
  | none => exact List.eraseIdx_sublist fieldNames 3
  | some a => exact List.Sublist.refl fieldNames

theorem plain_toFields (s : Settings) : Plain ("replication", s.toFields) where
  name := (by decide : Bare "replication")
  keys field member := by
    have bare : ∀ name ∈ fieldNames, Bare name := by decide
    exact bare _ (s.sublist_fieldNames.subset (List.mem_map_of_mem member))
  apart := s.sublist_fieldNames.nodup (by decide)

end Settings

namespace StoreSettings

open Toml

theorem ofFields?_toFields (usual : StoreSettings) {s : StoreSettings}
    (size : s.segmentSize < UInt64.size) :
    ofFields? usual (s.toFields.map fun (key, v) => (key, v.value)) = some s := by
  have segment : Meaning.long (Scalar.natural s.segmentSize).value = some s.segmentSize :=
    Meaning.natural_value size
  simp [ofFields?, toFields, Fields.get?, List.lookup_cons, segment]

theorem plain_toFields (s : StoreSettings) : Plain ("log", s.toFields) where
  name := (by decide : Bare "log")
  keys field member := by
    have bare : ∀ name ∈ fieldNames, Bare name := by decide
    exact bare _ (List.mem_map_of_mem member : field.1 ∈ s.toFields.map Prod.fst)
  apart := (by decide : fieldNames.Nodup)

end StoreSettings

namespace NodeSettings

theorem read?_render {s : NodeSettings} (kept : s.Kept) (nodeId : String) :
    read? nodeId s.render = some s := by
  have plain : ∀ table ∈ [("replication", s.replication.toFields), ("log", s.store.toFields)],
      Toml.Plain table := by
    simp [s.replication.plain_toFields, s.store.plain_toFields]
  have fields := Toml.read?_render plain (by decide : ["replication", "log"].Nodup)
  have main := Settings.ofFields?_toFields (standard nodeId).replication kept.1 rfl
  have log := StoreSettings.ofFields?_toFields (standard nodeId).store kept.2
  unfold read? render
  rw [fields, Option.bind_some]
  simp [ofFields?, Toml.Fields.get?, List.lookup_cons, Toml.readTable, Toml.fieldsOf?, main, log]

/-- What is loaded from a text: the settings in it, under the variables. -/
theorem load_of_read? {nodeId text : String} {environment : Environment} {start s : NodeSettings}
    (read : read? nodeId text = some start)
    (applied : Variable.applyAll environment Variable.all start = (s, .ok ())) (path : String) :
    load nodeId path (.content (Utf8.encode text)) environment = .ok s := by
  simp only [load, ofFile, Utf8.decode?_encode, read, applied, bind, Except.bind]

/-- Settings that were loaded and saved are loaded again as they were, by a node that would draw any
name and at any place, and are judged as before. -/
theorem saved_settings_return {nodeId path : String} {file : SettingsFile}
    {environment : Environment} {s : NodeSettings}
    (loaded : load nodeId path file environment = .ok s) (nodeId' path' : String) :
    (load nodeId' path' s.saved fun _ => none).map (fun t => (t, t.replication.validate)) =
      .ok (s, s.replication.validate) := by
  have read := read?_render (kept_of_load loaded) nodeId'
  have again := load_of_read? read (Variable.applyAll_unset Variable.all s) path'
  rw [saved, again]
  rfl

/-- A file with texts of two forms and a number in another base. -/
def quotedFile : String :=
  "[replication]\nnode_id = \"a \\\"b\\\" \\\\ 'c'\"\nsecurity_token = '''\ntwo\nlines'''\n" ++
    "heartbeat_interval = 250\n[log]\nsegment_size = 0x1000 # bytes"

/-- The address of a master, and nothing else. -/
def masterVariable : Environment := fun name =>
  if name = "REPLOG_MASTER_ADDR" then some "[fe80:0::1%7]:9000" else none

/-- A node with quotes in its name, a token of two lines and an address from the environment. -/
theorem quoted_settings_return :
    let s : NodeSettings := {
      replication := { Settings.ofName "a \"b\" \\ 'c'" with
        masterAddress := some (.v6 ⟨[0xFE80, 0, 0, 0, 0, 0, 0, 1], rfl⟩ 7 9000)
        token := "two\nlines"
        heartbeat := .ofMillis 250 }
      store := { StoreSettings.standard with segmentSize := 4096 } }
    load "drawn" "node.toml" (.content (Utf8.encode quotedFile)) masterVariable = .ok s ∧
    (load "other" "saved.toml" s.saved fun _ => none).map (fun t => (t, t.replication.validate)) =
      .ok (s, .ok ()) := by
  intro s
  have read : read? "drawn" quotedFile = some { s with replication.masterAddress := none } := by
    decide +kernel
  have loaded : load "drawn" "node.toml" (.content (Utf8.encode quotedFile)) masterVariable = .ok s :=
    load_of_read? read (by decide +kernel) "node.toml"
  exact ⟨loaded, saved_settings_return loaded "other" "saved.toml"⟩

end NodeSettings

end QuorumLog
