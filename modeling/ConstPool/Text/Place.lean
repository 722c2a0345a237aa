/-!
# Characters by place

`Text.charAt?` finds the character at a place of a text, where places are counted in characters.
If every character takes one byte, the place is the place of the byte; else the characters before
it are passed (`pass`).

* `charAt?_eq`: the character is that of the list of characters.
-/

namespace ConstPool.Text

/-- The character at a place of a text whose characters take one byte each. -/
def byteAt? (s : String) (place : Nat) : Option Char :=
  if h : String.Pos.Raw.IsValid s ⟨place⟩ then (s.pos ⟨place⟩ h).get? else none

/-- The position so many characters after another. Most of them are passed in runs of as many
bytes as there are characters left to pass: a run has no more characters than bytes, and counting
them is fast. After so many rounds the rest is passed one by one. -/
def pass (s : String) : (rounds count : Nat) → s.Pos → s.Pos
  | 0, count, p => p.nextn count
  | rounds + 1, count, p =>
    let q := s.posLE ⟨min (p.offset.byteIdx + count) s.utf8ByteSize⟩
    if 32 ≤ count ∧ p ≤ q then
      let passed := (s.extract p q).length
      if passed ≤ count then pass s rounds (count - passed) q else p.nextn count
    else p.nextn count

/-- The character at a place, if the text is long enough. -/
def charAt? (content : String) (place : Nat) : Option Char :=
  if content.utf8ByteSize = content.length then byteAt? content place
  else (pass content 64 place content.startPos).get?

/-! ### Passing characters -/

/-- The text behind a position is the text up to a later one and the text behind that. -/
theorem splits_extract {s t₁ t₂ : String} {p q : s.Pos} (h : p.Splits t₁ t₂) (hpq : p ≤ q) :
    ∃ u₁ u₂, q.Splits u₁ u₂ ∧ t₂.toList = (s.extract p q).toList ++ u₂.toList := by
  refine ⟨_, _, q.splits, ?_⟩
  rw [← String.toList_append]
  congr 1
  rw [← String.toByteArray_inj, h.toByteArray_right_eq, String.toByteArray_append,
    q.splits.toByteArray_right_eq, String.toByteArray_extract]
  exact ByteArray.extract_eq_extract_append_extract _ hpq q.le_endPos

/-- Passing so many characters one by one leads to the character at that place. -/
theorem get?_nextn {s t₁ t₂ : String} {p : s.Pos} (h : p.Splits t₁ t₂) (count : Nat) :
    (p.nextn count).get? = t₂.toList[count]? := by
  have hn := h.nextn count
  by_cases hp : p.nextn count = s.endPos
  · rw [String.Pos.get?_eq_none hp]
    have := hn.eq_endPos_iff.1 hp
    have hn : t₂.toList.drop count = [] := by simpa using congrArg String.toList this
    simp only [List.drop_eq_nil_iff] at hn
    exact (List.getElem?_eq_none hn).symm
  · obtain ⟨t, ht⟩ := hn.exists_eq_singleton_append hp
    rw [String.Pos.get?_eq_some_get hp]
    have hd : t₂.toList.drop count = (p.nextn count).get hp :: t.toList := by
      simpa using congrArg String.toList ht
    have : (t₂.toList.drop count)[0]? = t₂.toList[count]? := List.getElem?_drop
    rw [hd] at this
    exact this

/-- Passing so many characters in runs leads to the same character. -/
theorem get?_pass {s t₁ t₂ : String} {p : s.Pos} (h : p.Splits t₁ t₂) (rounds count : Nat) :
    (pass s rounds count p).get? = t₂.toList[count]? := by
  induction rounds generalizing count p t₁ t₂ with
  | zero => exact get?_nextn h count
  | succ rounds ih =>
    unfold pass
    dsimp only
    split
    · next hc =>
      split
      · next hpassed =>
        obtain ⟨u₁, u₂, hq, ht⟩ := splits_extract h hc.2
        rw [ih hq, ht, List.getElem?_append_right (by rwa [String.length_toList]),
          String.length_toList]
      · exact get?_nextn h count
    · exact get?_nextn h count
/-! ### Texts of one-byte characters -/

/-- The bytes of a text are those of its first character and those of the rest. -/
theorem utf8ByteSize_ofList_cons (c : Char) (cs : List Char) :
    (String.ofList (c :: cs)).utf8ByteSize = c.utf8Size + (String.ofList cs).utf8ByteSize := by
  rw [String.ofList_cons]
  simp

/-- Characters take at least as many bytes as there are. -/
theorem length_le_utf8ByteSize (cs : List Char) :
    cs.length ≤ (String.ofList cs).utf8ByteSize := by
  induction cs with
  | nil => simp
  | cons c cs ih =>
    have := c.utf8Size_pos
    rw [utf8ByteSize_ofList_cons, List.length_cons]
    omega

/-- A text has at least as many bytes as characters. -/
theorem length_le_size (s : String) : s.length ≤ s.utf8ByteSize := by
  have h := length_le_utf8ByteSize s.toList
  rwa [String.ofList_toList, String.length_toList] at h

/-- If the characters of a text take one byte each, so do those of its parts. -/
theorem size_eq_length_of_append {s t₁ t₂ : String} (h : s.utf8ByteSize = s.length)
    (hs : s = t₁ ++ t₂) : t₁.utf8ByteSize = t₁.length := by
  have h₁ := length_le_size t₁
  have h₂ := length_le_size t₂
  rw [hs, String.utf8ByteSize_append, String.length_append] at h
  omega

/-- The character behind a part of a text. -/
theorem get?_of_splits {s t₁ t₂ : String} {p : s.Pos} (h : p.Splits t₁ t₂) :
    p.get? = s.toList[t₁.length]? := by
  have hs : s.toList = t₁.toList ++ t₂.toList :=
    (congrArg String.toList h.eq_append).trans String.toList_append
  have hget := get?_nextn h 0
  rw [String.Pos.nextn_zero] at hget
  rw [hget, hs, ← String.length_toList, List.getElem?_append_right (Nat.le_refl _), Nat.sub_self]

/-- In such a text the place of a character is the place of its byte. -/
theorem byteAt?_eq {s : String} (h : s.utf8ByteSize = s.length) (place : Nat) :
    byteAt? s place = s.toList[place]? := by
  unfold byteAt?
  split
  · next hv =>
    have hp := (s.pos ⟨place⟩ hv).splits
    have hsize := congrArg String.Pos.Raw.byteIdx hp.offset_eq_rawEndPos
    rw [String.byteIdx_rawEndPos, size_eq_length_of_append h hp.eq_append] at hsize
    rw [get?_of_splits hp, ← hsize]
    rfl
  · next hv =>
    refine (List.getElem?_eq_none ?_).symm
    rw [String.length_toList, ← Nat.not_lt]
    intro hlt
    apply hv
    have hq := String.splits_nextn_startPos s place
    have hsize := hq.offset_eq_rawEndPos
    have hlen := size_eq_length_of_append h hq.eq_append
    have : (⟨place⟩ : String.Pos.Raw) = (s.startPos.nextn place).offset := by
      rw [hsize]
      ext
      rw [String.byteIdx_rawEndPos, hlen, String.length_ofList, List.length_take,
        String.length_toList, Nat.min_eq_left (Nat.le_of_lt hlt)]
    rw [this]
    exact String.Pos.isValid _
/-! ### Any text -/

/-- The character at a place is that of the list of characters. -/
theorem charAt?_eq (content : String) (place : Nat) :
    charAt? content place = content.toList[place]? := by
  unfold charAt?
  split
  · next h => exact byteAt?_eq h place
  · exact get?_pass content.splits_startPos 64 place

end ConstPool.Text
