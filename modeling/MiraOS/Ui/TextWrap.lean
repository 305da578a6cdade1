import MiraOS.Ui.TextCells

/-! Text that is wrapped at a width: it is text with line ends put in. -/

namespace MiraOS

open Machine

/-- A text with a line end in front of each character that has no room in its line. -/
def wrapText (columns : Nat) : List UInt8 → Nat → List UInt8
  | [], _ => []
  | c :: rest, col =>
    if c = 10 then 10 :: wrapText columns rest 0
    else if columns < col + 1 then 10 :: c :: wrapText columns rest 1
    else c :: wrapText columns rest (col + 1)

section

variable {text : TextStatics} {x y maxWidth fg bg : UInt32}

/-- The test for the end of a line, without a wrap of its sums. -/
theorem past_width_iff {col : Nat} (some : 0 < text.currentFontWidth.toNat)
    (small : col ≤ max (maxWidth.toNat / text.currentFontWidth.toNat) 1)
    (fits : x.toNat + max maxWidth.toNat text.currentFontWidth.toNat + text.currentFontWidth.toNat < 2 ^ 32) :
    x + maxWidth < x + UInt32.ofNat col * (text.currentFontWidth * 1) + text.currentFontWidth * 1 ↔
      maxWidth.toNat / text.currentFontWidth.toNat < col + 1 := by
  rw [UInt32.mul_one, Nat.div_lt_iff_lt_mul some]
  -- A line is not longer than the width, or than one character.
  have width : col * text.currentFontWidth.toNat ≤ max maxWidth.toNat text.currentFontWidth.toNat := by
    have whole := Nat.div_mul_le_self maxWidth.toNat text.currentFontWidth.toNat
    refine (Nat.mul_le_mul_right _ small).trans ?_
    rcases Nat.le_total (maxWidth.toNat / text.currentFontWidth.toNat) 1 with few | more
    · rw [max_eq_right few, Nat.one_mul]
      exact le_max_right _ _
    · rw [max_eq_left more]
      exact whole.trans (le_max_left _ _)
  have left : (x + maxWidth).toNat = x.toNat + maxWidth.toNat := by
    rw [UInt32.toNat_add, Nat.mod_eq_of_lt (by omega)]
  have right : (x + UInt32.ofNat col * text.currentFontWidth + text.currentFontWidth).toNat =
      x.toNat + (col + 1) * text.currentFontWidth.toNat := by
    have word : x + UInt32.ofNat col * text.currentFontWidth + text.currentFontWidth =
        UInt32.ofNat (x.toNat + (col * text.currentFontWidth.toNat + text.currentFontWidth.toNat)) := by
      simp only [UInt32.ofNat_add, UInt32.ofNat_mul, UInt32.ofNat_toNat, UInt32.add_assoc]
    rw [word, UInt32.toNat_ofNat_of_lt' (by show _ < 2 ^ 32; omega), Nat.add_mul, Nat.one_mul]
  rw [UInt32.lt_iff_toNat_lt, left, right]
  omega

/-- The loop that wraps does what the plain loop does with the wrapped text. -/
theorem textWrapLoop_eq (some : 0 < text.currentFontWidth.toNat)
    (fits : x.toNat + max maxWidth.toNat text.currentFontWidth.toNat + text.currentFontWidth.toNat < 2 ^ 32)
    (str : List UInt8) (cy : UInt32) {col : Nat}
    (small : col ≤ max (maxWidth.toNat / text.currentFontWidth.toNat) 1) :
    textWrapLoop text x maxWidth fg bg str (x + UInt32.ofNat col * (text.currentFontWidth * 1)) cy =
      textDrawLoop text x fg bg 1 (wrapText (maxWidth.toNat / text.currentFontWidth.toNat) str col)
        (x + UInt32.ofNat col * (text.currentFontWidth * 1)) cy := by
  have first : x + UInt32.ofNat 0 * (text.currentFontWidth * 1) = x := by
    rw [show UInt32.ofNat 0 = 0 from rfl, UInt32.zero_mul, UInt32.add_zero]
  have next : ∀ count : Nat, x + UInt32.ofNat count * (text.currentFontWidth * 1) + text.currentFontWidth * 1 =
      x + UInt32.ofNat (count + 1) * (text.currentFontWidth * 1) := by
    intro count
    rw [UInt32.ofNat_add, UInt32.add_mul, UInt32.add_assoc]
    congr 2
    exact (UInt32.one_mul _).symm
  induction str generalizing cy col with
  | nil => rfl
  | cons c rest ih =>
    rw [textWrapLoop, wrapText]
    by_cases ends : c = 10
    · have left := ih (cy + text.currentFontHeight * 1) (Nat.zero_le (max _ 1))
      rw [first] at left
      rw [if_pos ends, if_pos ends, textDrawLoop, if_pos rfl]
      exact left
    · simp only [if_neg ends, past_width_iff some small fits]
      by_cases past : maxWidth.toNat / text.currentFontWidth.toNat < col + 1
      · -- The line end that is put in moves to the place where the loop goes on.
        have second := ih (cy + text.currentFontHeight * 1) (le_max_right _ 1)
        have start := next 0
        rw [first] at start
        rw [if_pos past, if_pos past, textDrawLoop, if_pos rfl, textDrawLoop, if_neg ends, start]
        simp only [second]
      · have later := @ih cy (col + 1) (by omega)
        rw [if_neg past, if_neg past, textDrawLoop, if_neg ends, next]
        simp only [later]

end

section

variable {columns : Nat} {str : List UInt8}

/-- No line of the wrapped text is longer than the width, the first one counted from where it starts. -/
theorem wrapText_lines {col : Nat} (small : col ≤ max columns 1) :
    ∀ line ∈ ((wrapText columns str col).splitOn 10).modifyHead (List.replicate col 0 ++ ·),
      line.length ≤ max columns 1 := by
  induction str generalizing col with
  | nil =>
    intro line among
    obtain rfl := List.mem_singleton.mp among
    simpa using small
  | cons c rest ih =>
    rw [wrapText]
    -- A text behind a line end has its own first line.
    have behind {start : Nat} {tail : List UInt8} (low : start ≤ max columns 1)
        (short : ∀ line ∈ (tail.splitOn 10).modifyHead (List.replicate 0 0 ++ ·), line.length ≤ max columns 1) :
        ∀ line ∈ ((10 :: tail).splitOn 10).modifyHead (List.replicate start 0 ++ ·), line.length ≤ max columns 1 := by
      intro line among
      rw [List.splitOn_cons_eq_if_modifyHead, if_pos (by decide), List.modifyHead_cons] at among
      rcases List.mem_cons.mp among with rfl | later
      · simpa using low
      · refine short line ?_
        obtain ⟨front, lines, split⟩ := List.exists_cons_of_ne_nil (List.splitOn_ne_nil (10 : UInt8) tail)
        rw [split] at later ⊢
        exact later
    -- A character is one more of its line.
    have ahead {start : Nat} {tail : List UInt8} (more : c ≠ 10)
        (short : ∀ line ∈ (tail.splitOn 10).modifyHead (List.replicate (start + 1) 0 ++ ·),
          line.length ≤ max columns 1) :
        ∀ line ∈ ((c :: tail).splitOn 10).modifyHead (List.replicate start 0 ++ ·), line.length ≤ max columns 1 := by
      intro line among
      obtain ⟨front, lines, split⟩ := List.exists_cons_of_ne_nil (List.splitOn_ne_nil (10 : UInt8) tail)
      rw [List.splitOn_cons_eq_if_modifyHead, if_neg (by simpa using more), split, List.modifyHead_cons,
        List.modifyHead_cons] at among
      rw [split, List.modifyHead_cons] at short
      rcases List.mem_cons.mp among with rfl | later
      · have first := short _ List.mem_cons_self
        simp only [List.length_append, List.length_replicate, List.length_cons] at first ⊢
        omega
      · exact short line (List.mem_cons_of_mem _ later)
    split_ifs with ends past
    · exact behind small (ih (Nat.zero_le _))
    · exact behind small (ahead ends (ih (le_max_right _ 1)))
    · exact ahead ends (ih (by omega))

/-- Wrapping changes nothing but line ends. -/
theorem wrapText_characters {col : Nat} :
    (wrapText columns str col).filter (fun c => decide (c ≠ 10)) = str.filter fun c => decide (c ≠ 10) := by
  -- Induction on the text: a break is a newline of either side or one put in, and both are filtered out.
  induction str generalizing col with
  | nil => rfl
  | cons c rest ih =>
    rw [wrapText]
    split_ifs with ends past
    · -- A newline of the text itself.
      rw [ends, List.filter_cons_of_neg (by decide), List.filter_cons_of_neg (by decide), ih]
    · -- The line is full: a newline is put in front of the character.
      rw [List.filter_cons_of_neg (by decide), List.filter_cons_of_pos (by simpa using ends),
        List.filter_cons_of_pos (by simpa using ends), ih]
    · rw [List.filter_cons_of_pos (by simpa using ends), List.filter_cons_of_pos (by simpa using ends), ih]

end

section

variable {text : TextStatics} {x maxWidth : UInt32}

/--
Text that is wrapped at a width is drawn as the text with line ends put in: no character is lost, and no line is wider
than the width, unless it is a single character.
-/
theorem wrapped_text_drawn (some : 0 < text.currentFontWidth.toNat)
    (fits : x.toNat + max maxWidth.toNat text.currentFontWidth.toNat + text.currentFontWidth.toNat < 2 ^ 32)
    (y : UInt32) (str : List UInt8) (fg bg : UInt32) :
    let wrapped := wrapText (maxWidth.toNat / text.currentFontWidth.toNat) str 0
    textDrawWrapped text x y maxWidth str fg bg = textDraw text x y wrapped fg bg ∧
      (wrapped.filter fun c => decide (c ≠ 10)) = (str.filter fun c => decide (c ≠ 10)) ∧
      ∀ line ∈ wrapped.splitOn 10,
        line.length * text.currentFontWidth.toNat ≤ maxWidth.toNat ∨ line.length ≤ 1 := by
  refine ⟨?_, wrapText_characters, fun line among => ?_⟩
  · -- The drawing starts in the first column of the first line.
    have whole := @textWrapLoop_eq text x maxWidth fg bg some fits str y 0 (Nat.zero_le _)
    rwa [show UInt32.ofNat 0 = 0 from rfl, UInt32.zero_mul, UInt32.add_zero] at whole
  · -- The lines of the wrapped text are those the loop counted.
    have short := @wrapText_lines (maxWidth.toNat / text.currentFontWidth.toNat) str 0 (Nat.zero_le _) line (by
      obtain ⟨front, lines, split⟩ := List.exists_cons_of_ne_nil (List.splitOn_ne_nil (10 : UInt8)
        (wrapText (maxWidth.toNat / text.currentFontWidth.toNat) str 0))
      rw [split] at among ⊢
      exact among)
    -- A window narrower than one character still draws one character in each line.
    rcases Nat.le_total (maxWidth.toNat / text.currentFontWidth.toNat) 1 with few | more
    · exact .inr (short.trans (max_le few (Nat.le_refl 1)))
    · rw [max_eq_left more] at short
      exact .inl ((Nat.mul_le_mul_right _ short).trans (Nat.div_mul_le_self _ _))

/-- Three characters in a width of two. -/
theorem three_characters_wrapped :
    textDrawWrapped (textInit textStart) 0 0 16 [72, 105, 33] 0xFFFFFF 0 =
        textDraw (textInit textStart) 0 0 [72, 105, 10, 33] 0xFFFFFF 0 ∧
      (∀ line ∈ [72, 105, 10, 33].splitOn (10 : UInt8), line.length * 8 ≤ 16 ∨ line.length ≤ 1) := by
  -- Two columns of eight pixels fit, so the third character goes to a second line.
  obtain ⟨drawn, -, short⟩ :=
    @wrapped_text_drawn (textInit textStart) 0 16 (by decide) (by decide) 0 [72, 105, 33] 0xFFFFFF 0
  exact ⟨drawn, short⟩

end

end MiraOS
