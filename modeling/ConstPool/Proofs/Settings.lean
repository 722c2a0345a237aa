import ConstPool.Proofs.Toml.Section
import ConstPool.Settings.Toml

/-!
# Settings and their texts

Settings whose counts are integers of sixty-four bits have a text, and what is read from it are
the same settings, unless a bound is zero. Settings with a bound that is zero are not read from any
text.

How the text looks is of no importance for that. The settings are handed to a writer as one plain
section, in which the number of workers is left out if none is given, and they are looked up in the
document that a reader makes of the text, where what is missing has its default. So all that counts
is that the reader finds the values where the writer has put them, which is what is asked of a
`Toml.Format`. With any of them the settings that come back are the same. The reader and the writer
that are used here are one, and then the settings are read and written as `ofToml` and `toToml` do
it.

* `Settings.entries`: the lines of the section.
* `Settings.writeIn`, `Settings.readIn`: settings in a format.
* `Settings.exists_writeIn_iff`: which settings have a text.
* `Settings.readIn_of_writeIn`: the text is read as the settings, which are then validated.
* `Settings.toToml_eq`: the writer that is used here.
* `Settings.toml_roundTrip`: which settings come back.
-/

namespace ConstPool.Settings

open Toml (Plain Bare Format WellKeyed sectionChars lineChars)

/-- The lines that settings are written as. -/
def entries (s : Settings) : List (String × Plain) :=
  ("step_budget", .count s.stepBudget) :: ("max_call_depth", .count s.maxCallDepth) ::
    ("parallel", .flag s.parallel) :: (s.workers.map fun n => ("workers", .count n)).toList

/-- No count is too large for an integer of sixty-four bits. -/
def Fits (s : Settings) : Prop :=
  s.stepBudget < Integer.limit ∧ s.maxCallDepth < Integer.limit ∧
    ∀ n ∈ s.workers, (n : Int) < Integer.limit

/-- No bound is zero. -/
def Sound (s : Settings) : Prop := s.stepBudget ≠ 0 ∧ s.maxCallDepth ≠ 0 ∧ s.workers ≠ some 0

/-! ### Writing -/

/-- A count that fits is written in decimal digits. -/
theorem numeral_of_lt {n : Nat} (h : n < Integer.limit) : numeral n = .ok (toString n) := if_pos h

/-- A count that does not fit cannot be written. -/
theorem numeral_of_not_lt {n : Nat} (h : ¬n < Integer.limit) : numeral n = .error .write :=
  if_neg h

/-- A count, character by character. -/
theorem toList_count (n : Nat) : (toString n).toList = (Plain.count n).chars := by
  rw [Nat.toString_eq_ofList_toDigits, String.toList_ofList]
  rfl

/-- A flag, character by character. -/
theorem toList_flag (b : Bool) :
    (if b then "true" else "false" : String).toList = (Plain.flag b).chars := by
  cases b <;> rfl

/-- Settings that fit are written as one plain section. -/
theorem exists_toToml {s : Settings} (h : s.Fits) :
    ∃ text, s.toToml = .ok text ∧ text.toList = sectionChars "const_eval" s.entries := by
  obtain ⟨stepBudget, maxCallDepth, parallel, workers⟩ := s
  obtain ⟨hsteps, hdepth, hworkers⟩ := h
  cases workers with
  | none =>
    simp only [toToml, numeral_of_lt hsteps, numeral_of_lt hdepth]
    refine ⟨_, rfl, ?_⟩
    simp only [String.toList_append, toList_count, toList_flag, sectionChars, entries,
      List.flatMap_cons, lineChars, List.append_assoc, List.cons_append, List.nil_append]
    rfl
  | some n =>
    simp only [toToml, numeral_of_lt hsteps, numeral_of_lt hdepth, numeral_of_lt (hworkers n rfl)]
    refine ⟨_, rfl, ?_⟩
    simp only [String.toList_append, toList_count, toList_flag, sectionChars, entries,
      Option.map_some, Option.toList_some, List.flatMap_cons, List.flatMap_nil, lineChars,
      List.append_assoc, List.cons_append, List.nil_append, List.append_nil]
    rfl

/-- Settings that do not fit are not written. -/
theorem toToml_of_not_fits {s : Settings} (h : ¬s.Fits) : s.toToml = .error .write := by
  by_cases hsteps : (s.stepBudget : Int) < Integer.limit
  · by_cases hdepth : (s.maxCallDepth : Int) < Integer.limit
    · obtain ⟨n, hn, hworkers⟩ : ∃ n ∈ s.workers, ¬(n : Int) < Integer.limit := by
        by_contra hall
        push Not at hall
        exact h ⟨hsteps, hdepth, hall⟩
      simp only [toToml, numeral_of_lt hsteps, numeral_of_lt hdepth, Option.mem_def.1 hn,
        numeral_of_not_lt hworkers]
      rfl
    · rw [toToml, numeral_of_lt hsteps, numeral_of_not_lt hdepth]
      rfl
  · rw [toToml, numeral_of_not_lt hsteps]
    rfl

/-- Settings as a text in a format. -/
def writeIn (F : Format) (s : Settings) : Except SettingsError String :=
  match F.write "const_eval" s.entries with
  | some text => .ok text
  | none => .error .write

/-- The fields have names that need no quotes. -/
theorem bare_fieldName : ∀ i, Bare (fieldName i)
  | 0 => .of_all rfl rfl
  | 1 => .of_all rfl rfl
  | 2 => .of_all rfl rfl
  | 3 => .of_all rfl rfl

/-- A line of settings is that of one of the fields. -/
theorem mem_entries_iff {s : Settings} {e : String × Plain} :
    e ∈ s.entries ↔ e = (fieldName 0, .count s.stepBudget) ∨ e = (fieldName 1, .count s.maxCallDepth) ∨
      e = (fieldName 2, .flag s.parallel) ∨ ∃ n ∈ s.workers, e = (fieldName 3, .count n) := by
  rw [entries, List.mem_cons, List.mem_cons, List.mem_cons, Option.mem_toList,
    Option.map_eq_some_iff]
  simp only [Option.mem_def, fieldName, eq_comm]

/-- The lines of settings have different keys, none of which needs quotes. -/
theorem wellKeyed_entries (s : Settings) : WellKeyed "const_eval" s.entries where
  name := .of_all rfl rfl
  keys e he := by
    rcases mem_entries_iff.1 he with rfl | rfl | rfl | ⟨n, -, rfl⟩
    · exact bare_fieldName 0
    · exact bare_fieldName 1
    · exact bare_fieldName 2
    · exact bare_fieldName 3
  nodup := by
    obtain ⟨stepBudget, maxCallDepth, parallel, workers⟩ := s
    cases workers with
    | none =>
      show ["step_budget", "max_call_depth", "parallel"].Nodup
      decide
    | some n =>
      show ["step_budget", "max_call_depth", "parallel", "workers"].Nodup
      decide

/-- The values in the lines fit if the settings do. -/
theorem fits_entries_iff {s : Settings} : (∀ e ∈ s.entries, e.2.Fits) ↔ s.Fits := by
  simp only [mem_entries_iff]
  constructor
  · intro h
    exact ⟨h _ (.inl rfl), h _ (.inr (.inl rfl)),
      fun n hn => h (fieldName 3, .count n) (.inr (.inr (.inr ⟨n, hn, rfl⟩)))⟩
  · rintro ⟨hsteps, hdepth, hworkers⟩ e (rfl | rfl | rfl | ⟨n, hn, rfl⟩)
    · exact hsteps
    · exact hdepth
    · trivial
    · exact hworkers n hn

/-- The text in a format is what the format makes of the entries, if it can. -/
theorem writeIn_eq_ok_iff {F : Format} {s : Settings} {text : String} :
    s.writeIn F = .ok text ↔ F.write "const_eval" s.entries = some text := by
  unfold writeIn
  cases F.write "const_eval" s.entries <;> simp

/-- Settings have a text in a format if they fit, and only then. -/
theorem exists_writeIn_iff {F : Format} {s : Settings} :
    (∃ text, s.writeIn F = .ok text) ↔ s.Fits := by
  simp only [writeIn_eq_ok_iff]
  rw [F.written s.wellKeyed_entries, fits_entries_iff]

/-- The writer that is used here. -/
theorem toToml_eq (s : Settings) : s.toToml = s.writeIn Toml.format := by
  have hwriter : Toml.format.write = Toml.writeSection? := rfl
  rw [writeIn, hwriter, Toml.writeSection?]
  by_cases h : s.Fits
  · obtain ⟨text, hwrite, htext⟩ := exists_toToml h
    rw [hwrite, if_pos (fits_entries_iff.2 h), ← htext, String.ofList_toList]
  · rw [toToml_of_not_fits h, if_neg fun hall => h (fits_entries_iff.1 hall)]

/-! ### Reading -/

/-- A count that was written is read as it was. -/
theorem countOf_count (n : Nat) : countOf (Plain.count n).value = .ok n := by
  show (if (0 : Int) ≤ n then Except.ok (n : Int).toNat else .error .parse) = _
  rw [if_pos (Int.natCast_nonneg n), Int.toNat_natCast]

/-- The last of the lines is there if a number of workers is given. -/
theorem lookup_workers (s : Settings) : s.entries.lookup "workers" = s.workers.map .count := by
  obtain ⟨stepBudget, maxCallDepth, parallel, workers⟩ := s
  cases workers <;> rfl

/-- The settings that are read from a text in a format. -/
def readIn (F : Format) (text : String) : Except SettingsError Settings := ofDocument (F.read text)

/-- The fields are found in a table that has the values of the lines. -/
theorem ofValue_table {s : Settings} {origin : Toml.Origin} {values : List (String × Toml.Value)}
    (h : ∀ key, values.lookup key = (s.entries.lookup key).map Plain.value) :
    ofValue (.table origin values) = .ok s := by
  have hsteps (default : Nat) : readOr countOf default
      ((s.entries.lookup (fieldName 0)).map Plain.value) = .ok s.stepBudget := countOf_count _
  have hdepth (default : Nat) : readOr countOf default
      ((s.entries.lookup (fieldName 1)).map Plain.value) = .ok s.maxCallDepth := countOf_count _
  have hparallel (default : Bool) : readOr flagOf default
      ((s.entries.lookup (fieldName 2)).map Plain.value) = .ok s.parallel := rfl
  have hworkers : readOr (fun v => (countOf v).map some) none
      ((s.entries.lookup (fieldName 3)).map Plain.value) = .ok s.workers := by
    rw [show s.entries.lookup (fieldName 3) = _ from lookup_workers s]
    cases s.workers with
    | none => rfl
    | some n =>
      show (countOf (Plain.count n).value).map some = _
      rw [countOf_count]
      rfl
  show ofFields (fun i => values.lookup (fieldName i)) = _
  simp only [ofFields, h, hsteps, hdepth, hparallel, hworkers]
  rfl

/-- What is read from the text of settings are the settings, which are then validated. -/
theorem readIn_of_writeIn {F : Format} {s : Settings} {text : String}
    (h : s.writeIn F = .ok text) : readIn F text = s.validated := by
  obtain ⟨document, origin, values, hread, hsection, hvalues⟩ :=
    F.readBack s.wellKeyed_entries (writeIn_eq_ok_iff.1 h)
  rw [readIn, hread, ofDocument, hsection]
  show (ofValue (.table origin values)).bind validated = _
  rw [ofValue_table hvalues]
  rfl

/-- Whatever the document, the settings in it are sound. -/
theorem sound_of_ofDocument {s : Settings} {document? : Option Toml.Table}
    (h : ofDocument document? = .ok s) : s.Sound := by
  have hvalidated : ∃ t : Settings, t.validated = .ok s := by
    unfold ofDocument at h
    split at h
    · cases h
    · split at h
      · exact ⟨_, h⟩
      · next v _ =>
        cases hv : ofValue v with
        | error e =>
          rw [hv] at h
          cases h
        | ok t =>
          rw [hv] at h
          exact ⟨t, h⟩
  obtain ⟨t, ht⟩ := hvalidated
  obtain ⟨rfl, hsound⟩ := validated_eq_ok_iff.1 ht
  exact hsound

/-- Which settings come back in a format. -/
theorem roundTrip_iff (F : Format) (s : Settings) :
    (∃ text, s.writeIn F = .ok text ∧ readIn F text = .ok s) ↔ s.Sound ∧ s.Fits := by
  constructor
  · rintro ⟨text, hwrite, hread⟩
    exact ⟨sound_of_ofDocument hread, exists_writeIn_iff.1 ⟨text, hwrite⟩⟩
  · rintro ⟨hsound, hfits⟩
    obtain ⟨text, hwrite⟩ := exists_writeIn_iff.2 hfits
    exact ⟨text, hwrite, (readIn_of_writeIn hwrite).trans (validated_eq_ok_iff.2 ⟨rfl, hsound⟩)⟩

/-- In every format, settings come back from their text if no bound is zero and no count is too
large for an integer of sixty-four bits, and only then, and no text is read as settings with a bound
that is zero. That is so for the reader and the writer that are used here. -/
theorem toml_roundTrip (F : Format) (s : Settings) :
    (((∃ text, s.writeIn F = .ok text ∧ readIn F text = .ok s) ↔ s.Sound ∧ s.Fits) ∧
        ∀ text, readIn F text = .ok s → s.Sound) ∧
      ((∃ text, s.toToml = .ok text ∧ ofToml text = .ok s) ↔ s.Sound ∧ s.Fits) ∧
      ∀ text, ofToml text = .ok s → s.Sound := by
  refine ⟨⟨roundTrip_iff F s, fun _ => sound_of_ofDocument⟩, ?_, fun _ => sound_of_ofDocument⟩
  rw [toToml_eq]
  exact roundTrip_iff Toml.format s

end ConstPool.Settings
