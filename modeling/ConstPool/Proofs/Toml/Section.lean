import ConstPool.Proofs.Toml.Reader
import ConstPool.Toml.Document

/-!
# Reading plain sections

A plain section is a header and lines below it, each of which has a key without quotes and a count
or a truth value. A document that is a plain section is read as the table that the section was
written for.

What a plain section is, is said by its characters and without the reader. So the result relates
two things that are defined apart from each other, and settings, whose text is a plain section,
need to know nothing about readers. A `Format` takes this one step further: it names what settings
ask of any reader and writer, and the reader and the writer here are one instance.

* `Plain`, `sectionChars`: values and sections as they are written.
* `dottedKey_bare`, `valueAround_plain`: keys and values are read back.
* `line_header`, `line_entry`: what a line does to the document.
* `parse?_section`: the document that is read.
* `Format`, `format`: what is asked of a reader and a writer, and that these meet it.
-/

namespace ConstPool.Toml

open Reader

/-! ### Sections as they are written -/

/-- A value that stands on its line as it is. -/
inductive Plain where
  | count (n : Nat)
  | flag (b : Bool)

namespace Plain

/-- A value as it is written. -/
def chars : Plain → List Char
  | .count n => Nat.toDigits 10 n
  | .flag true => ['t', 'r', 'u', 'e']
  | .flag false => ['f', 'a', 'l', 's', 'e']

/-- The value that is meant. -/
def value : Plain → Value
  | .count n => .integer n
  | .flag b => .boolean b

/-- A count has to be an integer of sixty-four bits. -/
def Fits : Plain → Prop
  | .count n => n < Integer.limit
  | .flag _ => True

instance : (v : Plain) → Decidable v.Fits
  | .count n => inferInstanceAs (Decidable ((n : Int) < Integer.limit))
  | .flag _ => inferInstanceAs (Decidable True)

end Plain

/-- A key that needs no quotes. -/
def Bare (key : String) : Prop := key.toList ≠ [] ∧ ∀ c ∈ key.toList, isBareChar c = true

/-- A line with a key and its value. -/
def lineChars (e : String × Plain) : List Char :=
  e.1.toList ++ ' ' :: '=' :: ' ' :: (e.2.chars ++ ['\n'])

/-- A header and the lines below it. -/
def sectionChars (name : String) (entries : List (String × Plain)) : List Char :=
  '[' :: (name.toList ++ ']' :: '\n' :: entries.flatMap lineChars)

/-- The text of a section, unless a count is too large. -/
def writeSection? (name : String) (entries : List (String × Plain)) : Option String :=
  if ∀ e ∈ entries, e.2.Fits then some (String.ofList (sectionChars name entries)) else none

/-- A section that can be written: its keys need no quotes and differ from each other. -/
structure WellKeyed (name : String) (entries : List (String × Plain)) : Prop where
  name : Bare name
  keys : ∀ e ∈ entries, Bare e.1
  nodup : (entries.map Prod.fst).Nodup

/-- A way to write plain sections and to read documents. Integers have sixty-four bits, and what is
read from the text of a section are the values that were written, each at its key. Nothing is said
about how the text looks, nor about what is read from other texts. -/
structure Format where
  read : String → Option Table
  write : String → List (String × Plain) → Option String
  /-- A section is written exactly if its counts are not too large. -/
  written : ∀ {name : String} {entries : List (String × Plain)}, WellKeyed name entries →
    ((∃ text, write name entries = some text) ↔ ∀ e ∈ entries, e.2.Fits)
  /-- The values come back. -/
  readBack : ∀ {name : String} {entries : List (String × Plain)} {text : String},
    WellKeyed name entries → write name entries = some text →
      ∃ document origin values, read text = some document ∧
        document.get? name = some (.table origin values) ∧
          ∀ key, values.lookup key = (entries.lookup key).map Plain.value

/-! ### Keys -/

/-- Blanks are skipped up to the first other character. -/
theorem spaces_append {gap rest : List Char} (hgap : ∀ c ∈ gap, isSpace c = true)
    (hrest : ∀ c ∈ rest.head?, isSpace c = false) : spaces (gap ++ rest) = some ((), rest) :=
  bind_of_some (takeWhile_append hgap hrest)

/-- Nothing is skipped where there is no blank. -/
theorem spaces_cons {c : Char} {cs : List Char} (h : isSpace c = false) :
    spaces (c :: cs) = some ((), c :: cs) :=
  bind_of_some <| takeWhile_append (fun _ h => absurd h List.not_mem_nil) fun d hd => by
    cases hd
    exact h

/-- A character that passes a test is no blank if blanks fail it. -/
theorem isSpace_of_test {test : Char → Bool} {c : Char} (h : test c = true)
    (hblank : test ' ' = false) (htab : test '\t' = false) : isSpace c = false := by
  rw [isSpace, beq_eq_false_iff_ne.2 (ne_of_test h hblank),
    beq_eq_false_iff_ne.2 (ne_of_test h htab)]
  rfl

/-- No character of a bare key is a space. -/
theorem isSpace_of_isBareChar {c : Char} (h : isBareChar c = true) : isSpace c = false :=
  isSpace_of_test h rfl rfl

/-- No space is a character of a bare key. -/
theorem isBareChar_of_isSpace {c : Char} (h : isSpace c = true) : isBareChar c = false := by
  cases hbare : isBareChar c with
  | false => rfl
  | true =>
    rw [isSpace_of_isBareChar hbare] at h
    cases h

namespace Bare

variable {key : String} {rest : List Char}

/-- A key of bare characters, if it has any. -/
theorem of_all (hnil : key.toList.isEmpty = false) (hall : key.toList.all isBareChar = true) :
    Bare key := by
  refine ⟨fun heq => ?_, List.all_eq_true.1 hall⟩
  rw [heq] at hnil
  cases hnil

/-- A bare key has a first character. -/
theorem exists_cons (h : Bare key) : ∃ c cs, key.toList = c :: cs ∧ isBareChar c = true := by
  obtain ⟨c, cs, heq⟩ := List.exists_cons_of_ne_nil h.1
  exact ⟨c, cs, heq, h.2 c (heq ▸ List.mem_cons_self ..)⟩

/-- A key is read up to the first character that may not stand in it. -/
theorem simpleKey (h : Bare key) (hrest : ∀ c ∈ rest.head?, isBareChar c = false) :
    simpleKey (key.toList ++ rest) = some (key, rest) := by
  obtain ⟨c, cs, heq, hc⟩ := h.exists_cons
  have hcs : ∀ d ∈ cs, isBareChar d = true := fun d hd => h.2 d (heq ▸ List.mem_cons_of_mem _ hd)
  have hread : (do
      let first ← satisfy isBareChar
      return String.ofList (first :: (← takeWhile isBareChar)) : Reader String)
        (c :: (cs ++ rest)) = some (key, rest) := by
    rw [bind_of_some (satisfy_of_pos hc), bind_of_some (takeWhile_append hcs hrest), ← heq,
      String.ofList_toList]
    rfl
  rw [Toml.simpleKey, bind_of_some rfl, heq, List.cons_append, List.head?_cons]
  refine (congrFun ?_ _).trans hread
  split
  · next hquote => exact absurd (Option.some.inj hquote) (ne_of_test hc rfl)
  · next hquote => exact absurd (Option.some.inj hquote) (ne_of_test hc rfl)
  · rfl

/-- A key of one part is read with the blanks behind it. -/
theorem dottedKey (h : Bare key) {d : Char} (gap : List Char) (hgap : ∀ c ∈ gap, isSpace c = true)
    (hbare : isBareChar d = false) (hspace : isSpace d = false) (hdot : d ≠ '.') :
    dottedKey (key.toList ++ (gap ++ d :: rest)) = some ([key], d :: rest) := by
  obtain ⟨c, cs, heq, hc⟩ := h.exists_cons
  have hnext : ∀ c ∈ (gap ++ d :: rest).head?, isBareChar c = false := by
    intro c hc
    cases gap with
    | nil =>
      cases hc
      exact hbare
    | cons e gap =>
      cases hc
      exact isBareChar_of_isSpace (hgap c (List.mem_cons_self ..))
  -- the key ends where the blanks begin, as no blank may stand in it
  have hpart : (do
      spaces
      let key ← Toml.simpleKey
      spaces
      return key : Reader String) (key.toList ++ (gap ++ d :: rest)) = some (key, d :: rest) := by
    have hstart : spaces (key.toList ++ (gap ++ d :: rest)) =
        some ((), key.toList ++ (gap ++ d :: rest)) := by
      rw [heq, List.cons_append]
      exact spaces_cons (isSpace_of_isBareChar hc)
    have hgaps : spaces (gap ++ d :: rest) = some ((), d :: rest) :=
      spaces_append hgap fun c hc => by
        cases hc
        exact hspace
    rw [bind_of_some hstart, bind_of_some (h.simpleKey hnext), bind_of_some hgaps]
    rfl
  rw [Toml.dottedKey, bind_of_some (separated_of_none hpart (symbol_of_ne hdot) _)]
  rfl

end Bare

/-! ### Values -/

/-- A count is read as an integer. -/
theorem valueAround_count {n : Nat} (hn : n < Integer.limit) (bound : Nat)
    (inner : Option (Reader Value)) (rest : List Char) :
    valueAround bound inner (Nat.toDigits 10 n ++ '\n' :: rest) =
      some (.integer n, '\n' :: rest) := by
  have hread : ((do
      time
      return .time) <|> (do
      float
      return .float) <|> (do
      return .integer (← integer)) : Reader Value) (Nat.toDigits 10 n ++ '\n' :: rest) =
        some (.integer n, '\n' :: rest) := by
    refine (orElse_of_none (bind_of_none (time_numeral (numeralAhead_toDigits n rest)))).trans ?_
    refine (orElse_of_none (bind_of_none (float_numeral n rest))).trans ?_
    rw [bind_of_some (integer_numeral hn rest)]
    rfl
  obtain ⟨c, cs, heq, hc⟩ := exists_digit n
  rw [heq, List.cons_append] at hread ⊢
  rw [valueAround.eq_def, bind_of_some rfl, List.head?_cons]
  refine (congrFun ?_ _).trans hread
  split
  case h_7 => rfl
  all_goals
    next hother => exact absurd (Option.some.inj hother) (ne_of_test hc rfl)

/-- A value is read back. -/
theorem valueAround_plain {v : Plain} (h : v.Fits) (bound : Nat) (inner : Option (Reader Value))
    (rest : List Char) :
    valueAround bound inner (v.chars ++ '\n' :: rest) = some (v.value, '\n' :: rest) := by
  cases v with
  | count n => exact valueAround_count h bound inner rest
  | flag b => cases b <;> rfl

/-- A value does not begin with a blank. -/
theorem Plain.isSpace_of_head (v : Plain) (rest : List Char) :
    ∀ c ∈ (v.chars ++ '\n' :: rest).head?, isSpace c = false := by
  intro c hc
  cases v with
  | count n =>
    obtain ⟨d, ds, heq, hd⟩ := exists_digit n
    rw [chars, heq] at hc
    cases hc
    exact isSpace_of_test hd rfl rfl
  | flag b => cases b <;> (cases hc; rfl)

/-- The key and the value of a line are read back. -/
theorem keyValue_line {e : String × Plain} (hkey : Bare e.1) (hvalue : e.2.Fits) (bound : Nat)
    (rest : List Char) :
    keyValue (value bound maxNesting) (lineChars e ++ rest) =
      some (([e.1], e.2.value), '\n' :: rest) := by
  have hchars : lineChars e ++ rest =
      e.1.toList ++ ([' '] ++ '=' :: ([' '] ++ (e.2.chars ++ '\n' :: rest))) := by
    rw [lineChars]
    simp only [List.append_assoc, List.cons_append, List.nil_append]
  have hgap : ∀ c ∈ [' '], isSpace c = true := fun c hc => by
    rw [List.mem_singleton.1 hc]
    rfl
  have hread : value bound maxNesting (e.2.chars ++ '\n' :: rest) =
      some (e.2.value, '\n' :: rest) := valueAround_plain hvalue bound _ rest
  rw [hchars, keyValue, bind_of_some (hkey.dottedKey _ hgap rfl rfl (by decide)),
    bind_of_some symbol_cons, bind_of_some (spaces_append hgap (e.2.isSpace_of_head rest)),
    bind_of_some hread]
  rfl

/-! ### Lines -/

/-- A header opens its table. -/
theorem line_header {name : String} (hname : Bare name) {p : Progress} {document : Table}
    (hopen : p.document.openHeader? [] name = some document) (bound : Nat) (rest : List Char) :
    line bound p ('[' :: (name.toList ++ ']' :: '\n' :: rest)) =
      some (⟨document, [name]⟩, rest) := by
  obtain ⟨c, cs, heq, hc⟩ := hname.exists_cons
  have hsingle : attempt (symbol '[') (name.toList ++ ']' :: '\n' :: rest) =
      some (none, name.toList ++ ']' :: '\n' :: rest) := by
    rw [heq]
    exact attempt_of_none (symbol_of_ne (ne_of_test hc rfl))
  have hkey : dottedKey (name.toList ++ ']' :: '\n' :: rest) = some ([name], ']' :: '\n' :: rest) :=
    hname.dottedKey [] (fun _ h => absurd h List.not_mem_nil) rfl rfl (by decide)
  have hstart (cs : List Char) : line bound p ('[' :: cs) = header p ('[' :: cs) := rfl
  have hend : lineRest ('\n' :: rest) = some ((), rest) := rfl
  have hopened : (if (none : Option Unit).isSome = true then
      p.document.openItem? [name].dropLast name else p.document.openHeader? [name].dropLast name) =
        some document := hopen
  rw [hstart, header, bind_of_some symbol_cons, bind_of_some hsingle, bind_of_some hkey,
    bind_of_some symbol_cons]
  refine (bind_of_some hend).trans ?_
  rw [List.getLast?_singleton]
  dsimp only
  rw [hopened]
  rfl

/-- A line puts its value at its key. -/
theorem line_entry {e : String × Plain} (hkey : Bare e.1) (hvalue : e.2.Fits) (p : Progress)
    {document : Table}
    (hassign : p.document.update? false (assignAll? [e.1] e.2.value) p.current = some document)
    (bound : Nat) (rest : List Char) :
    line bound p (lineChars e ++ rest) = some ({ p with document }, rest) := by
  have hread : entry bound p (lineChars e ++ rest) = some ({ p with document }, rest) := by
    have hend : lineRest ('\n' :: rest) = some ((), rest) := rfl
    rw [entry, bind_of_some (keyValue_line hkey hvalue bound rest)]
    refine (bind_of_some hend).trans ?_
    rw [hassign]
    rfl
  obtain ⟨c, cs, heq, hc⟩ := hkey.exists_cons
  have hstart : lineChars e ++ rest =
      c :: (cs ++ ' ' :: '=' :: ' ' :: (e.2.chars ++ ['\n']) ++ rest) := by
    rw [lineChars, heq]
    rfl
  rw [hstart] at hread ⊢
  rw [line, bind_of_some (spaces_cons (isSpace_of_isBareChar hc)), bind_of_some rfl,
    List.head?_cons]
  refine (congrFun ?_ _).trans hread
  split
  case h_1 hnone => cases hnone
  case h_6 => rfl
  all_goals
    next hother => exact absurd (Option.some.inj hother) (ne_of_test hc rfl)

/-! ### Documents -/

/-- The document whose only table has the given entries. -/
def sectionTable (name : String) (entries : List (String × Value)) : Table :=
  ⟨.header, [(name, .table .header entries)]⟩

/-- The entries of a table as they are after the lines of a section: the newest comes first. -/
def entriesAfter (entries : List (String × Plain)) (before : List (String × Value)) :
    List (String × Value) :=
  entries.foldl (fun es e => (e.1, e.2.value) :: es) before

/-- A key that no line has keeps its value, and one that a line has gets the value of the line. -/
theorem lookup_entriesAfter {entries : List (String × Plain)}
    (hdistinct : (entries.map Prod.fst).Nodup) (before : List (String × Value)) (key : String) :
    (entriesAfter entries before).lookup key =
      ((entries.lookup key).map Plain.value).or (before.lookup key) := by
  induction entries generalizing before with
  | nil => rfl
  | cons e entries ih =>
    rw [List.map_cons, List.nodup_cons] at hdistinct
    refine (ih hdistinct.2 _).trans ?_
    by_cases heq : key = e.1
    · have hnone : entries.lookup key = none := List.lookup_eq_none_iff.2 fun e' he' =>
        bne_iff_ne.2 fun h => hdistinct.1 (heq ▸ h ▸ List.mem_map_of_mem he')
      rw [List.lookup_cons, List.lookup_cons, beq_iff_eq.2 heq, hnone]
      rfl
    · rw [List.lookup_cons, List.lookup_cons, beq_eq_false_iff_ne.2 heq]

/-- A line below a header adds to the table of the header. -/
theorem update?_sectionTable (name : String) {key : String} {entries : List (String × Value)}
    (hkey : entries.lookup key = none) (v : Value) :
    (sectionTable name entries).update? false (assignAll? [key] v) [name] =
      some (sectionTable name ((key, v) :: entries)) := by
  have hname : (sectionTable name entries).get? name = some (.table .header entries) :=
    List.lookup_cons_self
  have hassign : assignAll? [key] v ⟨.header, entries⟩ =
      some ⟨.header, (key, v) :: entries⟩ := by
    have hnone : (⟨.header, entries⟩ : Table).get? key = none := hkey
    show Table.define? key v ⟨.header, entries⟩ = _
    rw [Table.define?, hnone]
    rfl
  rw [Table.update?, hname]
  show (assignAll? [key] v ⟨.header, entries⟩).bind (fun sub =>
    some ((sectionTable name entries).replace name (.table sub.origin sub.entries))) = _
  rw [hassign, Option.bind_some]
  show some (Table.mk .header (if name = name then _ else _)) = _
  rw [if_pos rfl]
  rfl

/-- The lines of a text are its first line and then the others. -/
theorem lines_of_line {bound : Nat} {p q : Progress} {cs rest : List Char} (hcs : cs ≠ [])
    (h : line bound p cs = some (q, rest)) (count : Nat) :
    lines bound (count + 1) p cs = lines bound count q rest := by
  cases cs with
  | nil => exact absurd rfl hcs
  | cons c cs =>
    rw [lines, h]
    exact hcs

/-- A line has a character at least. -/
theorem lineChars_ne_nil (e : String × Plain) : lineChars e ≠ [] :=
  List.append_ne_nil_of_right_ne_nil _ (List.cons_ne_nil _ _)

/-- Each line below a header adds to the table of the header. The induction is on the lines. -/
theorem lines_entries (name : String) {entries : List (String × Plain)}
    (hentries : ∀ e ∈ entries, Bare e.1 ∧ e.2.Fits) (hdistinct : (entries.map Prod.fst).Nodup)
    (before : List (String × Value)) (hbefore : ∀ e ∈ entries, before.lookup e.1 = none)
    (bound : Nat) {count : Nat} (hcount : entries.length ≤ count) :
    lines bound count ⟨sectionTable name before, [name]⟩ (entries.flatMap lineChars) =
      some ⟨sectionTable name (entriesAfter entries before), [name]⟩ := by
  induction entries generalizing before count with
  | nil => cases count <;> rfl
  | cons e entries ih =>
    obtain ⟨count, rfl⟩ := Nat.exists_eq_succ_of_ne_zero (Nat.ne_zero_of_lt hcount)
    obtain ⟨hkey, hvalue⟩ := hentries e (List.mem_cons_self ..)
    rw [List.map_cons, List.nodup_cons] at hdistinct
    have hread := line_entry hkey hvalue ⟨sectionTable name before, [name]⟩
      (update?_sectionTable name (hbefore e (List.mem_cons_self ..)) e.2.value) bound
      (entries.flatMap lineChars)
    have hrest : ∀ e' ∈ entries, ((e.1, e.2.value) :: before).lookup e'.1 = none := by
      intro e' he'
      have hne : e'.1 ≠ e.1 := fun heq => hdistinct.1 (heq ▸ List.mem_map_of_mem he')
      rw [List.lookup_cons, beq_eq_false_iff_ne.2 hne]
      exact hbefore e' (List.mem_cons_of_mem _ he')
    rw [List.flatMap_cons,
      lines_of_line (List.append_ne_nil_of_left_ne_nil (lineChars_ne_nil e) _) hread]
    exact ih (fun e' he' => hentries e' (List.mem_cons_of_mem _ he')) hdistinct.2 _ hrest
      (Nat.le_of_succ_le_succ hcount)

/-- There are no more lines than characters. -/
theorem length_le_flatMap_lineChars (entries : List (String × Plain)) :
    entries.length ≤ (entries.flatMap lineChars).length := by
  induction entries with
  | nil => exact Nat.le_refl _
  | cons e entries ih =>
    have hpos := List.length_pos_of_ne_nil (lineChars_ne_nil e)
    rw [List.flatMap_cons, List.length_append, List.length_cons]
    omega

/-- A plain section is read as the table that it was written for. -/
theorem parse?_section {name : String} (hname : Bare name) {entries : List (String × Plain)}
    (hentries : ∀ e ∈ entries, Bare e.1 ∧ e.2.Fits) (hdistinct : (entries.map Prod.fst).Nodup)
    {text : String} (htext : text.toList = sectionChars name entries) :
    parse? text = some (sectionTable name (entriesAfter entries [])) := by
  have hcount : entries.length ≤ (sectionChars name entries).length := by
    have := length_le_flatMap_lineChars entries
    rw [sectionChars, List.length_cons, List.length_append, List.length_cons, List.length_cons]
    omega
  have hopen : Progress.start.document.openHeader? [] name = some (sectionTable name []) := rfl
  have hheader := line_header hname hopen ((sectionChars name entries).length + 1)
    (entries.flatMap lineChars)
  have hlines := lines_entries name hentries hdistinct [] (fun _ _ => List.lookup_nil)
    ((sectionChars name entries).length + 1) hcount
  rw [parse?, htext]
  exact congrArg (Option.map Progress.document)
    ((lines_of_line (List.cons_ne_nil _ _) hheader _).trans hlines)

/-- The way in which documents are read and written here. -/
def format : Format where
  read := parse?
  write := writeSection?
  written {name entries} _ := by
    unfold writeSection?
    split
    · next hfits => exact ⟨fun _ => hfits, fun _ => ⟨_, rfl⟩⟩
    · next hfits => exact ⟨fun ⟨_, h⟩ => (nomatch h), fun h => absurd h hfits⟩
  readBack {name entries text} hkeyed h := by
    obtain ⟨hfits, htext⟩ := Option.ite_none_right_eq_some.1 h
    have hchars : text.toList = sectionChars name entries := by
      rw [← Option.some.inj htext, String.toList_ofList]
    have hentries : ∀ e ∈ entries, Bare e.1 ∧ e.2.Fits := fun e he => ⟨hkeyed.keys e he, hfits e he⟩
    refine ⟨_, .header, entriesAfter entries [],
      parse?_section hkeyed.name hentries hkeyed.nodup hchars, List.lookup_cons_self, fun key => ?_⟩
    rw [lookup_entriesAfter hkeyed.nodup, List.lookup_nil, Option.or_none]

end ConstPool.Toml
