import SelfStudy.Fmt.Specs

/-!
# Padding

What is written has its width in columns, which need not be its length in code units; `write_padded`
puts it between two fills. As many code units are reserved as are written.
-/

namespace SelfStudy.Fmt

/-- What was written, and how many code units were reserved for it. -/
structure Written where
  reserved : ℕ
  text : List CodeUnit
  deriving DecidableEq, Repr

/-- `fill(it, n, fill)`. -/
def fillText (n : ℕ) (fill : Fill) : List CodeUnit := (List.replicate n fill.data).flatten

/-- `shifts[specs_align]` for the default alignment `align`; a numeric alignment reads the end of the
literal. -/
def shift (align specs_align : Align) : ℕ :=
  (if align = .left then [0x1f, 0x1f, 0x00, 0x01, 0] else [0x00, 0x1f, 0x00, 0x01, 0]).getD
    specs_align.ctorIdx 0

/-- `write_padded<Char, align>`, where `f` writes `text`. -/
def writePadded (align : Align) (specs : FormatSpecs) (size width : ℕ) (text : List CodeUnit) :
    Written :=
  let spec_width := specs.width.toNat
  let padding := if spec_width > width then spec_width - width else 0
  let left_padding := padding >>> shift align specs.align
  let right_padding := padding - left_padding
  { reserved := size + padding * specs.fill.data.length
    text := fillText left_padding specs.fill ++ text ++ fillText right_padding specs.fill }

/-! ## What is written -/

/-- How much of the padding goes to the left. -/
def leftPadding (align specs_align : Align) (padding : ℕ) : ℕ :=
  match specs_align with
  | .none => if align = .left then 0 else padding
  | .left => 0
  | .right | .numeric => padding
  | .center => padding / 2

/-- A text of the given width between its fills. -/
def paddedText (align : Align) (specs : FormatSpecs) (width : ℕ) (text : List CodeUnit) :
    List CodeUnit :=
  let padding := specs.width.toNat - width
  let left := leftPadding align specs.align padding
  fillText left specs.fill ++ text ++ fillText (padding - left) specs.fill

theorem length_fillText (n : ℕ) (fill : Fill) :
    (fillText n fill).length = n * fill.data.length := by
  unfold fillText
  rw [List.length_flatten, List.map_replicate, List.sum_replicate_nat]

/-- No padding is so large that something is left of it after the shift by 31. -/
theorem shift_padding {align : Align} (ha : align = .left ∨ align = .right) (specs_align : Align)
    {padding : ℕ} (h : padding ≤ intMax) :
    padding >>> shift align specs_align = leftPadding align specs_align padding := by
  have h31 : padding >>> 31 = 0 := by
    rw [Nat.shiftRight_eq_div_pow]
    exact Nat.div_eq_of_lt (Nat.lt_of_le_pred (by decide) h)
  rcases ha with rfl | rfl
  · cases specs_align
    case none | left => exact h31
    case right | numeric => rfl
    case center => exact Nat.shiftRight_one padding
  · cases specs_align
    case left => exact h31
    case none | right | numeric => rfl
    case center => exact Nat.shiftRight_one padding

theorem leftPadding_le (align specs_align : Align) (padding : ℕ) :
    leftPadding align specs_align padding ≤ padding := by
  unfold leftPadding
  cases specs_align <;> dsimp only
  case none =>
    split_ifs
    · exact Nat.zero_le _
    · exact le_rfl
  all_goals omega

/-- As much is written as was reserved. -/
theorem writePadded_eq {specs : FormatSpecs} {align : Align} (ha : align = .left ∨ align = .right)
    (hw : specs.width ≤ intMax) (width : ℕ) (text : List CodeUnit) :
    writePadded align specs text.length width text =
      ⟨(paddedText align specs width text).length, paddedText align specs width text⟩ := by
  have hpadding : (if specs.width.toNat > width then specs.width.toNat - width else 0) =
      specs.width.toNat - width := by
    split_ifs with h
    · rfl
    · omega
  have hle := leftPadding_le align specs.align (specs.width.toNat - width)
  unfold writePadded paddedText
  dsimp only
  rw [hpadding, shift_padding ha _ (by omega)]
  congr 1
  rw [List.length_append, List.length_append, length_fillText, length_fillText]
  generalize leftPadding align specs.align (specs.width.toNat - width) = left at hle ⊢
  generalize specs.width.toNat - width = padding at hle ⊢
  have hmul := Nat.mul_le_mul_right specs.fill.data.length hle
  have hsub := Nat.sub_mul padding left specs.fill.data.length
  omega

end SelfStudy.Fmt
