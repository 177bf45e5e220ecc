import SelfStudy.Fmt.Escape
import SelfStudy.Fmt.WriteInt

/-!
# Texts with specifiers

`write` of a string cuts it at the code point that the precision counts to, and pads it to a width in
columns; in the debug presentation it is escaped, whatever the precision, and padded by its code
units. `write` of a `char`, a `bool` and a pointer.
-/

namespace SelfStudy.Fmt

section Write

variable (P : Printable)

/-- `write` of a string. -/
def writeString (utf8 : Bool) (specs : FormatSpecs) (s : List CodeUnit) : Written :=
  let size := if 0 ≤ specs.precision ∧ specs.precision.toNat < s.length then
      codePointIndex s specs.precision.toNat else s.length
  let is_debug := specs.type = .debug
  let size := if is_debug then (writeEscapedString P utf8 s).length else size
  let width := if specs.width ≠ 0 then
      if is_debug then size else computeWidth (s.take size)
    else 0
  writePadded .left specs size width (if is_debug then writeEscapedString P utf8 s else s.take size)

/-- `write_char`. -/
def writeChar (specs : FormatSpecs) (value : CodeUnit) : Written :=
  writePadded .left specs 1 1 (if specs.type = .debug then writeEscapedChar P value else [value])

end Write

/-! ## What is written of a string -/

/-- The pieces that the precision leaves. -/
def keptPieces (specs : FormatSpecs) (pieces : List (ℕ × List CodeUnit)) :
    List (ℕ × List CodeUnit) :=
  if 0 ≤ specs.precision then pieces.take specs.precision.toNat else pieces

section String

variable {P : Printable} {utf8 : Bool} {specs : FormatSpecs} {s : List CodeUnit}
  {pieces : List (ℕ × List CodeUnit)}

theorem Decodes.take_append_drop (h : Decodes s pieces) (n : ℕ) :
    textOf (pieces.take n) ++ textOf (pieces.drop n) = s := by
  unfold textOf
  rw [← List.flatten_append, ← List.map_append, List.take_append_drop]
  exact h.textOf_eq

/-- What is cut behind a piece has the same pieces up to there. -/
theorem Decodes.take (h : Decodes s pieces) (n : ℕ) :
    Decodes (textOf (pieces.take n)) (pieces.take n) := by
  induction h generalizing n with
  | nil =>
    rw [List.take_nil]
    exact .nil
  | char c _ ih =>
    cases n with
    | zero => exact .nil
    | succ n => exact .char c (ih n)
  | @invalid b rest pieces hb hd ih =>
    cases n with
    | zero => exact .nil
    | succ n =>
      refine Decodes.invalid (fun c hc => hb c (hc.trans ?_)) (ih n)
      rw [← hd.take_append_drop n]
      exact List.prefix_append (b :: textOf (pieces.take n)) _

theorem Decodes.kept (h : Decodes s pieces) :
    Decodes (textOf (keptPieces specs pieces)) (keptPieces specs pieces) := by
  unfold keptPieces
  split_ifs
  · exact h.take _
  · exact h.textOf_eq.symm ▸ h

theorem paddedText_of_width_zero {align : Align} (h : specs.width = 0) (width : ℕ)
    (text : List CodeUnit) :
    paddedText align specs width text = paddedText align specs 0 text := by
  unfold paddedText
  rw [h]
  dsimp only
  rw [Int.toNat_zero, Nat.zero_sub, Nat.zero_sub]

/-- What the precision leaves of a text. -/
theorem kept_spec (h : Decodes s pieces) :
    (if 0 ≤ specs.precision ∧ specs.precision.toNat < s.length then
      codePointIndex s specs.precision.toNat else s.length) =
        (textOf (keptPieces specs pieces)).length ∧ textOf (keptPieces specs pieces) <+: s := by
  have hall : textOf pieces = s := h.textOf_eq
  have hlen := h.length_le
  unfold keptPieces
  by_cases hp : 0 ≤ specs.precision
  · rw [if_pos hp]
    refine ⟨?_, ⟨_, h.take_append_drop _⟩⟩
    split_ifs with hcut
    · exact codePointIndex_eq h _
    · -- fewer code points than the precision
      have hle := not_lt.mp fun hlt => hcut ⟨hp, hlt⟩
      rw [List.take_of_length_le (hlen.trans hle), hall]
  · rw [if_neg hp, if_neg (fun hcut => hp hcut.1), hall]
    exact ⟨rfl, List.prefix_rfl⟩

theorem writeString_text (hw : specs.width ≤ intMax) (htype : specs.type ≠ .debug)
    (h : Decodes s pieces) : writeString P utf8 specs s =
      ⟨(paddedText .left specs (columns (keptPieces specs pieces))
          (textOf (keptPieces specs pieces))).length,
        paddedText .left specs (columns (keptPieces specs pieces))
          (textOf (keptPieces specs pieces))⟩ := by
  obtain ⟨hsize, hprefix⟩ := @kept_spec specs s pieces h
  unfold writeString
  dsimp only
  rw [hsize, if_neg htype, if_neg htype, if_neg htype,
    ← List.prefix_iff_eq_take.mp hprefix, computeWidth_eq h.kept, writePadded_eq (.inl rfl) hw]
  split_ifs with hzero
  · rfl
  · rw [paddedText_of_width_zero (not_not.mp hzero) (columns (keptPieces specs pieces))]

theorem writeString_debug (hw : specs.width ≤ intMax) (htype : specs.type = .debug) :
    writeString P utf8 specs s =
      ⟨(paddedText .left specs (writeEscapedString P utf8 s).length
          (writeEscapedString P utf8 s)).length,
        paddedText .left specs (writeEscapedString P utf8 s).length
          (writeEscapedString P utf8 s)⟩ := by
  unfold writeString
  dsimp only
  rw [if_pos htype, if_pos htype, if_pos htype, writePadded_eq (.inl rfl) hw]
  split_ifs with hzero
  · rfl
  · rw [paddedText_of_width_zero (not_not.mp hzero) (writeEscapedString P utf8 s).length]

/-- **Strings are exact.** What is written of a string is its first code points, as many as the
precision says, between the fills that its width in columns leaves room for, and no character is cut
apart; in the debug presentation it is the whole string, escaped, and the width counts code units. As
much is written as was reserved. -/
theorem write_string_exact (P : Printable) (utf8 : Bool) (specs : FormatSpecs)
    (hw : specs.width ≤ intMax) (s : List CodeUnit) :
    (specs.type ≠ .debug → ∃ pieces, Decodes s pieces ∧ writeString P utf8 specs s =
      ⟨(paddedText .left specs (columns (keptPieces specs pieces))
          (textOf (keptPieces specs pieces))).length,
        paddedText .left specs (columns (keptPieces specs pieces))
          (textOf (keptPieces specs pieces))⟩) ∧
    (specs.type = .debug → writeString P utf8 specs s =
      ⟨(paddedText .left specs (writeEscapedString P utf8 s).length
          (writeEscapedString P utf8 s)).length,
        paddedText .left specs (writeEscapedString P utf8 s).length
          (writeEscapedString P utf8 s)⟩) := by
  refine ⟨fun htype => ?_, writeString_debug hw⟩
  obtain ⟨pieces, h⟩ := exists_decodes s
  exact ⟨pieces, h, writeString_text hw htype h⟩

/-- The visible characters of ASCII. -/
def visibleAscii : Printable := ⟨fun cp => 0x20 ≤ cp ∧ cp < 0x7f, fun cp h => by
  rw [decide_eq_false_iff_not]
  omega⟩

/-- Two of three characters, the second of which has two code units, in five columns. -/
theorem write_string_exact_two :
    (writeString visibleAscii true { width := 5, precision := 2, fill := .ofChar 42 }
      [104, 195, 169, 108]).text = [104, 195, 169, 42, 42, 42] := by
  obtain ⟨pieces, h, heq⟩ := (write_string_exact visibleAscii true
    { width := 5, precision := 2, fill := .ofChar 42 } (by decide) [104, 195, 169, 108]).1 (by decide)
  have hchars : Decodes [104, 195, 169, 108] _ := decodes_chars ['h', Char.ofNat 233, 'l']
  rw [heq, h.unique hchars]
  decide

end String

end SelfStudy.Fmt
