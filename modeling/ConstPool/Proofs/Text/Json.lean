import ConstPool.Proofs.Toml.Reader
import ConstPool.Text.Json

/-!
# Reading JSON texts

A reader for the compact layout. What is written is read back, so a JSON value can be told from its
text. The escapes in a string are among those of a string in a settings file.

The proofs go by what is ahead of the reader. A numeral ends where no digit follows, a string at
the first quote that is not escaped, and an array or an object at its bracket; what was written for
a value never begins with a character that another kind of value begins with. Values are nested, so
the induction is on the value that was written, with lists of items and of members beside it.

* `Json.valueAt`: reads a value from the front of a text.
* `Json.separated`: how items and members are written one after another.
* `Json.valueAt_chars`: a value that was written is read back, whatever follows it.
* `Json.ofText?_compact`: and so is a whole text.
-/

namespace ConstPool.Json

open Toml (consTo charOfHex? escaped?)

/-! ### Reading -/

/-- The number that the digits at the front of a text stand for, if there are any. -/
def digits? (cs : List Char) : Option (Nat × List Char) :=
  match cs.takeWhile Char.isDigit with
  | [] => none
  | ds => some (Nat.ofDigitChars 10 ds 0, cs.dropWhile Char.isDigit)

/-- A number, with a minus sign or without. -/
def numberAt : List Char → Option (Json × List Char)
  | '-' :: rest => (digits? rest).map fun e => (.number (-(e.1 : Int)), e.2)
  | cs => (digits? cs).map fun e => (.number e.1, e.2)

/-- The rest of a string after its opening quote. -/
def stringRest : List Char → Option (List Char × List Char)
  | '"' :: rest => some ([], rest)
  | '\\' :: 'u' :: a :: b :: c :: d :: rest => do
    consTo (← charOfHex? [a, b, c, d]) (stringRest rest)
  | '\\' :: c :: rest => do consTo (← escaped? c) (stringRest rest)
  | c :: rest => consTo c (stringRest rest)
  | [] => none

/-- Things with commas between them up to a closing character: at least one, and at most so
many. -/
def listAt {α : Type} (close : Char) (itemAt : List Char → Option (α × List Char)) :
    Nat → List Char → Option (List α × List Char)
  | 0, _ => none
  | bound + 1, cs =>
    match itemAt cs with
    | some (item, c :: rest) =>
      if c = ',' then (listAt close itemAt bound rest).map fun e => (item :: e.1, e.2)
      else if c = close then some ([item], rest)
      else none
    | _ => none

/-- A member of an object, given a reader for its value. -/
def memberAt (valueAt : List Char → Option (Json × List Char)) :
    List Char → Option ((String × Json) × List Char)
  | '"' :: cs =>
    match stringRest cs with
    | some (name, ':' :: cs) => (valueAt cs).map fun e => ((String.ofList name, e.1), e.2)
    | _ => none
  | _ => none

/-- A value at the front of a text. The number bounds how deep values are nested. -/
def valueAt : Nat → List Char → Option (Json × List Char)
  | 0, _ => none
  | depth + 1, cs =>
    match cs with
    | 'n' :: 'u' :: 'l' :: 'l' :: rest => some (.null, rest)
    | 't' :: 'r' :: 'u' :: 'e' :: rest => some (.bool true, rest)
    | 'f' :: 'a' :: 'l' :: 's' :: 'e' :: rest => some (.bool false, rest)
    | '"' :: rest => (stringRest rest).map fun e => (.string (String.ofList e.1), e.2)
    | '[' :: ']' :: rest => some (.array [], rest)
    | '[' :: rest => (listAt ']' (valueAt depth) rest.length rest).map fun e => (.array e.1, e.2)
    | '\x7b' :: '\x7d' :: rest => some (.object [], rest)
    | '\x7b' :: rest =>
      (listAt '\x7d' (memberAt (valueAt depth)) rest.length rest).map fun e => (.object e.1, e.2)
    | cs => numberAt cs

/-- The value that a text stands for, if the text is the compact layout of one. -/
def ofText? (text : String) : Option Json :=
  match valueAt text.toList.length text.toList with
  | some (json, []) => some json
  | _ => none

/-! ### Numbers -/

/-- No digit comes first. -/
def Ends (rest : List Char) : Prop := ∀ c ∈ rest.head?, c.isDigit = false

/-- A numeral may end with the text. -/
theorem ends_nil : Ends [] := fun _ h => nomatch h

/-- It may end before what is no digit. -/
theorem ends_cons {c : Char} {rest : List Char} (h : c.isDigit = false) : Ends (c :: rest) :=
  fun d hd => by
    cases hd
    exact h

/-- The digits of a number are read back. -/
theorem digits?_toDigits (n : Nat) {rest : List Char} (h : Ends rest) :
    digits? (Nat.toDigits 10 n ++ rest) = some (n, rest) := by
  have hread : Toml.Reader.takeWhile Char.isDigit (Nat.toDigits 10 n ++ rest) =
      some (Nat.toDigits 10 n, rest) :=
    Toml.Reader.takeWhile_append (fun _ hc => Toml.isDigit_of_mem_toDigits hc) h
  obtain ⟨htake, hdrop⟩ := Prod.mk.inj (Option.some.inj hread)
  unfold digits?
  rw [htake, hdrop]
  split
  · next hnil => exact absurd hnil Nat.toDigits_ne_nil
  · rw [Nat.ofDigitChars_ten_toDigits]

/-- A number begins with a minus sign or with a digit. -/
theorem exists_numberChars (n : Int) :
    ∃ c cs, numberChars n = c :: cs ∧ (c = '-' ∨ c.isDigit = true) := by
  unfold numberChars
  split
  · exact ⟨'-', _, rfl, .inl rfl⟩
  · obtain ⟨c, cs, heq, hc⟩ := Toml.exists_digit n.natAbs
    exact ⟨c, cs, heq, .inr hc⟩

/-- A number is read back if no digit follows it. -/
theorem numberAt_numberChars (n : Int) {rest : List Char} (h : Ends rest) :
    numberAt (numberChars n ++ rest) = some (.number n, rest) := by
  obtain ⟨c, cs, heq, hc⟩ := exists_numberChars n
  by_cases hneg : n < 0
  · rw [numberChars, if_pos hneg, List.cons_append, numberAt, digits?_toDigits _ h,
      Option.map_some]
    congr
    omega
  · have hchars : numberChars n = Nat.toDigits 10 n.natAbs := if_neg hneg
    have hdigit : c.isDigit = true := Toml.isDigit_of_mem_toDigits
      (show c ∈ Nat.toDigits 10 n.natAbs from hchars ▸ heq ▸ List.mem_cons_self ..)
    have hminus : ∀ cs', c :: cs ++ rest = '-' :: cs' → False := by
      intro cs' h'
      cases (List.cons.inj h').1
      cases hdigit
    rw [heq, numberAt.eq_2 _ hminus, ← heq, hchars, digits?_toDigits _ h, Option.map_some]
    congr
    omega

/-! ### Strings -/

/-- The long escape of a control character. -/
theorem charOfHex?_control : ∀ n < 0x20,
    charOfHex? ['0', '0', Nat.digitChar (n / 16), Nat.digitChar (n % 16)] =
      some (Char.ofNat n) := by decide

/-- A character is read back from its form in a string. -/
theorem stringRest_escapedChar (c : Char) (rest : List Char) :
    stringRest (escapedChar c ++ rest) = consTo c (stringRest rest) := by
  unfold escapedChar
  split
  case h_8 hquote hbackslash _ _ _ _ _ =>
    split
    · next hcontrol =>
      have hchar := charOfHex?_control c.toNat hcontrol
      rw [Char.ofNat_toNat] at hchar
      simp only [List.cons_append, List.nil_append]
      rw [stringRest, hchar]
      rfl
    · rw [List.singleton_append]
      exact stringRest.eq_4 c rest hquote (fun _ _ _ _ _ h _ => hbackslash h) fun _ _ h _ =>
        hbackslash h
  all_goals rfl

/-- A string is read back. -/
theorem stringRest_escaped (cs rest : List Char) :
    stringRest (cs.flatMap escapedChar ++ '"' :: rest) = some (cs, rest) := by
  induction cs with
  | nil => rfl
  | cons c cs ih =>
    rw [List.flatMap_cons, List.append_assoc, stringRest_escapedChar, ih]
    rfl

/-- A string begins with a quote. -/
theorem stringChars_append (s : String) (rest : List Char) :
    stringChars s ++ rest = '"' :: (s.toList.flatMap escapedChar ++ '"' :: rest) := by
  rw [stringChars, List.cons_append, List.append_assoc, List.singleton_append]

/-! ### Items and members -/

/-- Texts with commas between them. -/
def separated : List (List Char) → List Char
  | [] => []
  | [text] => text
  | text :: rest => text ++ ',' :: separated rest

/-- A member as it is written. -/
def memberChars (m : String × Json) : List Char := stringChars m.1 ++ ':' :: m.2.chars

/-- Two texts and more are separated by a comma. -/
theorem separated_cons_cons (text next : List Char) (texts : List (List Char)) :
    separated (text :: next :: texts) = text ++ ',' :: separated (next :: texts) := by
  rw [separated]
  exact List.cons_ne_nil _ _

/-- Items are written one after another. -/
theorem itemsChars_eq (items : List Json) : itemsChars items = separated (items.map chars) := by
  induction items with
  | nil => rw [itemsChars, List.map_nil, separated]
  | cons item items ih =>
    cases items with
    | nil => rw [itemsChars, List.map_singleton, separated]
    | cons next items =>
      rw [itemsChars, ih]
      simp only [List.map_cons, separated_cons_cons]
      exact List.cons_ne_nil _ _

/-- Members are written one after another. -/
theorem membersChars_eq (members : List (String × Json)) :
    membersChars members = separated (members.map memberChars) := by
  induction members with
  | nil => rw [membersChars, List.map_nil, separated]
  | cons m members ih =>
    obtain ⟨name, value⟩ := m
    cases members with
    | nil => rw [membersChars, List.map_singleton, separated, memberChars]
    | cons next members =>
      rw [membersChars, ih]
      simp only [List.map_cons, separated_cons_cons, memberChars, List.append_assoc,
        List.cons_append]
      exact List.cons_ne_nil _ _

/-- Each of the texts is a part of what is written. -/
theorem length_le_separated {text : List Char} {texts : List (List Char)} (h : text ∈ texts) :
    text.length ≤ (separated texts).length := by
  induction texts with
  | nil => cases h
  | cons first texts ih =>
    cases texts with
    | nil =>
      cases List.mem_singleton.1 h
      exact Nat.le_refl _
    | cons next texts =>
      rw [separated_cons_cons, List.length_append, List.length_cons]
      rcases List.mem_cons.1 h with rfl | h
      · omega
      · have := ih h
        omega

/-- There are commas between the texts. -/
theorem length_le_separated_succ (texts : List (List Char)) :
    texts.length ≤ (separated texts).length + 1 := by
  induction texts with
  | nil => exact Nat.zero_le _
  | cons first texts ih =>
    cases texts with
    | nil => exact Nat.le_add_left 1 _
    | cons next texts =>
      rw [separated_cons_cons]
      simp only [List.length_append, List.length_cons] at ih ⊢
      omega

/-- What is written begins with the first text. -/
theorem exists_separated (c : Char) (cs : List Char) (texts : List (List Char)) :
    ∃ cs', separated ((c :: cs) :: texts) = c :: cs' := by
  cases texts with
  | nil => exact ⟨cs, rfl⟩
  | cons next texts => exact ⟨_, separated_cons_cons _ _ _⟩

/-- There are no more things than characters up to the closing one. -/
theorem lt_length_separated {α : Type} (write : α → List Char) (item : α) (items : List α)
    {close : Char} (rest : List Char) :
    items.length < (separated ((item :: items).map write) ++ close :: rest).length := by
  have hlength := length_le_separated_succ ((item :: items).map write)
  rw [List.length_map, List.length_cons] at hlength
  rw [List.length_append, List.length_cons]
  omega

/-- If each thing is read back, then they are one after another. -/
theorem listAt_separated {α : Type} {close : Char} (hcomma : close ≠ ',')
    (hdigit : close.isDigit = false) {itemAt : List Char → Option (α × List Char)}
    {write : α → List Char} {item : α} {items : List α}
    (h : ∀ x ∈ item :: items, ∀ rest, Ends rest → itemAt (write x ++ rest) = some (x, rest))
    {bound : Nat} (hbound : items.length < bound) (rest : List Char) :
    listAt close itemAt bound (separated ((item :: items).map write) ++ close :: rest) =
      some (item :: items, rest) := by
  induction items generalizing item bound with
  | nil =>
    obtain ⟨bound, rfl⟩ := Nat.exists_eq_succ_of_ne_zero (Nat.ne_zero_of_lt hbound)
    rw [List.map_singleton, separated, listAt,
      h item (List.mem_singleton_self _) _ (ends_cons hdigit)]
    exact (if_neg hcomma).trans (if_pos rfl)
  | cons next items ih =>
    obtain ⟨bound, rfl⟩ := Nat.exists_eq_succ_of_ne_zero (Nat.ne_zero_of_lt hbound)
    have hitems := ih (fun x hx => h x (List.mem_cons_of_mem _ hx)) (Nat.lt_of_succ_lt_succ hbound)
    rw [List.map_cons, List.map_cons, separated_cons_cons, List.append_assoc, List.cons_append,
      listAt, h item (List.mem_cons_self ..) _ (ends_cons rfl)]
    refine (if_pos rfl).trans ?_
    rw [← List.map_cons, hitems, Option.map_some]

/-! ### Values -/

/-- A value does not begin with the closing bracket of an array. -/
theorem exists_chars (j : Json) : ∃ c cs, j.chars = c :: cs ∧ c ≠ ']' := by
  cases j with
  | null => exact ⟨'n', _, by rw [chars], by decide⟩
  | bool b => cases b <;> exact ⟨_, _, by rw [chars], by decide⟩
  | number n =>
    obtain ⟨c, cs, heq, hc⟩ := exists_numberChars n
    refine ⟨c, cs, by rw [chars, heq], ?_⟩
    rintro rfl
    rcases hc with hc | hc <;> cases hc
  | string s => exact ⟨'"', _, by rw [chars, stringChars], by decide⟩
  | array items => exact ⟨'[', _, by rw [chars], by decide⟩
  | object members => exact ⟨'\x7b', _, by rw [chars], by decide⟩

/-- What begins as a number does is read as one. -/
theorem valueAt_number {c : Char} (cs : List Char) (h : c = '-' ∨ c.isDigit = true) (depth : Nat) :
    valueAt (depth + 1) (c :: cs) = numberAt (c :: cs) := by
  have hne : ∀ d : Char, d ≠ '-' → d.isDigit = false → c ≠ d := by
    rintro d hminus hdigit rfl
    rcases h with h | h
    · exact hminus h
    · rw [hdigit] at h
      cases h
  rw [valueAt]
  all_goals
    intro rest heq
    exact hne _ (by decide) (by decide) (List.cons.inj heq).1

/-- What begins an array is read as its items, unless the array is closed at once. -/
theorem valueAt_array {cs : List Char} (h : ∀ rest, cs ≠ ']' :: rest) (depth : Nat) :
    valueAt (depth + 1) ('[' :: cs) =
      (listAt ']' (valueAt depth) cs.length cs).map fun e => (.array e.1, e.2) := by
  rw [valueAt]
  exact h

/-- What begins an object is read as its members, unless the object is closed at once. -/
theorem valueAt_object {cs : List Char} (h : ∀ rest, cs ≠ '\x7d' :: rest) (depth : Nat) :
    valueAt (depth + 1) ('\x7b' :: cs) =
      (listAt '\x7d' (memberAt (valueAt depth)) cs.length cs).map fun e => (.object e.1, e.2) := by
  rw [valueAt]
  exact h

/-- The items of an array do not begin with its closing bracket. -/
theorem separated_chars_ne (item : Json) (items : List Json) (rest rest' : List Char) :
    separated ((item :: items).map chars) ++ rest ≠ ']' :: rest' := by
  obtain ⟨c, cs, heq, hc⟩ := exists_chars item
  obtain ⟨cs', heq'⟩ := exists_separated c cs (items.map chars)
  rw [List.map_cons, heq, heq', List.cons_append]
  exact fun h => hc (List.cons.inj h).1

/-- The members of an object do not begin with its closing brace. -/
theorem separated_memberChars_ne (m : String × Json) (members : List (String × Json))
    (rest rest' : List Char) :
    separated ((m :: members).map memberChars) ++ rest ≠ '\x7d' :: rest' := by
  obtain ⟨cs', heq'⟩ := exists_separated '"'
    (m.1.toList.flatMap escapedChar ++ '"' :: ':' :: m.2.chars) (members.map memberChars)
  rw [List.map_cons, memberChars, stringChars_append, heq', List.cons_append]
  exact fun h => absurd (List.cons.inj h).1 (by decide)

/-- A member is read back if its value is. -/
theorem memberAt_memberChars {valueAt : List Char → Option (Json × List Char)}
    {m : String × Json} {rest : List Char}
    (h : valueAt (m.2.chars ++ rest) = some (m.2, rest)) :
    memberAt valueAt (memberChars m ++ rest) = some (m, rest) := by
  rw [memberChars, List.append_assoc, List.cons_append, stringChars_append, memberAt,
    stringRest_escaped]
  show (valueAt _).map _ = _
  rw [h, Option.map_some, String.ofList_toList]

/-- A value that was written is read back if no digit follows it. The induction is on the depth. -/
theorem valueAt_chars (depth : Nat) : ∀ (j : Json) (rest : List Char), j.chars.length ≤ depth →
    Ends rest → valueAt depth (j.chars ++ rest) = some (j, rest) := by
  induction depth with
  | zero =>
    intro j rest hdepth _
    obtain ⟨c, cs, heq, -⟩ := exists_chars j
    rw [heq] at hdepth
    cases hdepth
  | succ depth ih =>
    intro j rest hdepth hrest
    cases j with
    | null =>
      rw [chars]
      rfl
    | bool b => cases b <;> (rw [chars]; rfl)
    | number n =>
      obtain ⟨c, cs, heq, hc⟩ := exists_numberChars n
      have hread := valueAt_number (cs ++ rest) hc depth
      rw [← List.cons_append, ← heq] at hread
      rw [chars, hread, numberAt_numberChars n hrest]
    | string s =>
      rw [chars, stringChars_append, valueAt, stringRest_escaped, Option.map_some,
        String.ofList_toList]
    | array items =>
      rw [chars, itemsChars_eq] at hdepth ⊢
      cases items with
      | nil => rfl
      | cons item items =>
        -- brackets and separators are characters too, so each item is shorter than the whole
        have hitems : ∀ x ∈ item :: items, ∀ rest, Ends rest →
            valueAt depth (x.chars ++ rest) = some (x, rest) := by
          intro x hx rest hrest
          have hlength := length_le_separated (List.mem_map_of_mem (f := chars) hx)
          rw [List.length_cons, List.length_append, List.length_singleton] at hdepth
          exact ih x rest (by omega) hrest
        rw [List.cons_append, List.append_assoc, List.singleton_append,
          valueAt_array (separated_chars_ne item items _),
          listAt_separated (by decide) rfl hitems (lt_length_separated chars item items _),
          Option.map_some]
    | object members =>
      rw [chars, membersChars_eq] at hdepth ⊢
      cases members with
      | nil => rfl
      | cons m members =>
        -- the depth that is left has to do for the value alone
        have hmembers : ∀ x ∈ m :: members, ∀ rest, Ends rest →
            memberAt (valueAt depth) (memberChars x ++ rest) = some (x, rest) := by
          intro x hx rest hrest
          have hlength := length_le_separated (List.mem_map_of_mem (f := memberChars) hx)
          rw [memberChars, List.length_append, List.length_cons] at hlength
          rw [List.length_cons, List.length_append, List.length_singleton] at hdepth
          exact memberAt_memberChars (ih x.2 rest (by omega) hrest)
        rw [List.cons_append, List.append_assoc, List.singleton_append,
          valueAt_object (separated_memberChars_ne m members _),
          listAt_separated (by decide) rfl hmembers (lt_length_separated memberChars m members _),
          Option.map_some]

/-- A text that was written is read back. -/
theorem ofText?_compact (j : Json) : ofText? j.compact = some j := by
  have hread := valueAt_chars j.chars.length j [] (Nat.le_refl _) ends_nil
  rw [List.append_nil] at hread
  rw [ofText?, compact, String.toList_ofList, hread]

end ConstPool.Json
