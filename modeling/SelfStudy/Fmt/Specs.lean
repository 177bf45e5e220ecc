import SelfStudy.Fmt.ArgId
import SelfStudy.Fmt.ParseContext

/-!
# Format specifiers

`parse_format_specs`: a loop over the specifiers, in which `enter_state` keeps their order. One turn
is a `switch` on the current code unit; it returns, or breaks out of the switch with `begin` moved
on. In the first turn the code unit is taken as zero if an alignment follows it, so that the fill is
parsed whatever it is.
-/

namespace SelfStudy.Fmt

/-- `align::type`. -/
inductive Align
  | none
  | left
  | right
  | center
  | numeric
  deriving DecidableEq, Repr

/-- `sign::type`. -/
inductive Sign
  | none
  | minus
  | plus
  | space
  deriving DecidableEq, Repr

/-- `presentation_type`; the values that the C++ enumeration uses twice have a second name. -/
inductive Pres
  | none
  | debug
  | string
  | dec
  | hex
  | oct
  | bin
  | chr
  deriving DecidableEq, Repr

namespace Pres

abbrev pointer : Pres := dec
abbrev exp : Pres := debug
abbrev fixed : Pres := string
abbrev general : Pres := dec
abbrev hexfloat : Pres := hex

end Pres

/-- `fill_t`: one code point, of at most four code units. -/
structure Fill where
  data : List CodeUnit
  size_pos : 0 < data.length
  size_le : data.length ≤ 4
  deriving DecidableEq, Repr

/-- `specs.fill = c`. -/
def Fill.ofChar (c : CodeUnit) : Fill := ⟨[c], Nat.one_pos, Nat.le_add_left 1 3⟩

/-- `format_specs`. -/
structure FormatSpecs where
  width : ℤ := 0
  precision : ℤ := -1
  type : Pres := .none
  align : Align := .none
  sign : Sign := .none
  upper : Bool := false
  alt : Bool := false
  localized : Bool := false
  fill : Fill := .ofChar ' '
  deriving DecidableEq, Repr

/-- `dynamic_format_specs`. -/
structure DynamicSpecs extends FormatSpecs where
  width_ref : ArgRef := .none
  precision_ref : ArgRef := .none
  deriving DecidableEq, Repr

/-- `parse_align`. -/
def parseAlign (c : CodeUnit) : Align :=
  if c = '<' then .left
  else if c = '>' then .right
  else if c = '^' then .center
  else .none

/-- `code_point_length`; the shifted constant has two bits for each of the 32 ranges. -/
def codePointLength (c : CodeUnit) : ℕ :=
  ((0x3a55000000000000 >>> (2 * (c.toNat >>> 3))) &&& 3) + 1

/-! ## One turn -/

/-- `enum class state`. -/
inductive SpecState
  | start
  | align
  | sign
  | hash
  | zero
  | width
  | precision
  | locale
  deriving DecidableEq, Repr

/-- The local variables of `parse_format_specs`, but for `begin`. -/
structure SpecLoop where
  current_state : SpecState := .start
  specs : DynamicSpecs := {}
  ctx : ParseContext := {}
  deriving DecidableEq, Repr

/-- `enter_state(s, valid)`. -/
def SpecLoop.enterState (l : SpecLoop) (s : SpecState) (valid : Bool) : Except String SpecLoop :=
  if s.ctorIdx ≤ l.current_state.ctorIdx ∨ valid = false then .error "invalid format specifier"
  else .ok { l with current_state := s }

/-- How a turn ends, with the new `begin`. -/
inductive Turn
  | ret (begin : List CodeUnit) (l : SpecLoop)
  | brk (begin : List CodeUnit) (l : SpecLoop)
  deriving DecidableEq, Repr

/-- The sign of a code unit. -/
def parseSign (c : CodeUnit) : Sign :=
  if c = '+' then .plus else if c = '-' then .minus else .space

open ArgType in
/-- The cases of `parse_presentation_type`: the presentation type, the set of types it is for, and
whether it sets `specs.upper`. -/
def presentation (c : CodeUnit) : Option (Pres × ℕ × Bool) :=
  if c = 'd' then some (.dec, integral_set, false)
  else if c = 'X' then some (.hex, integral_set, true)
  else if c = 'x' then some (.hex, integral_set, false)
  else if c = 'o' then some (.oct, integral_set, false)
  else if c = 'B' then some (.bin, integral_set, true)
  else if c = 'b' then some (.bin, integral_set, false)
  else if c = 'E' then some (.exp, float_set, true)
  else if c = 'e' then some (.exp, float_set, false)
  else if c = 'F' then some (.fixed, float_set, true)
  else if c = 'f' then some (.fixed, float_set, false)
  else if c = 'G' then some (.general, float_set, true)
  else if c = 'g' then some (.general, float_set, false)
  else if c = 'A' then some (.hexfloat, float_set, true)
  else if c = 'a' then some (.hexfloat, float_set, false)
  else if c = 'c' then some (.chr, integral_set, false)
  else if c = 's' then some (.string, bool_set ||| string_set ||| cstring_set, false)
  else if c = 'p' then some (.pointer, pointer_set ||| cstring_set, false)
  else if c = '?' then some (.debug, char_set ||| string_set ||| cstring_set, false)
  else none

/-- The cases of the `switch`. -/
inductive SpecCase
  | align
  | sign
  | hash
  | zero
  | width
  | precision
  | locale
  | type (p : Pres × ℕ × Bool)
  | close
  | default
  deriving DecidableEq, Repr

/-- The case of a code unit. -/
def specCase (c : CodeUnit) : SpecCase :=
  if c = '<' ∨ c = '>' ∨ c = '^' then .align
  else if c = '+' ∨ c = '-' ∨ c = ' ' then .sign
  else if c = '#' then .hash
  else if c = '0' then .zero
  else if ('1' ≤ c ∧ c ≤ '9') ∨ c = '{' then .width
  else if c = '.' then .precision
  else if c = 'L' then .locale
  else
    match presentation c with
    | some p => .type p
    | none => if c = '}' then .close else .default

/-- The cases that end in `parse_presentation_type`, for the range `b :: rest`. -/
def parsePresentationType (arg_type : ArgType) (c b : CodeUnit) (rest : List CodeUnit)
    (l : SpecLoop) (p : Pres × ℕ × Bool) : Except String Turn :=
  let specs := if p.2.2 then { l.specs with upper := true } else l.specs
  if c = 'c' ∧ arg_type = .bool_type then .error "invalid format specifier"
  else if arg_type.isIn p.2.1 = false then
    if arg_type = .none_type then .ok (.ret (b :: rest) { l with specs })
    else .error "invalid format specifier"
  else .ok (.ret rest { l with specs := { specs with type := p.1 } })

/-- The first code point of the range `b :: rest`, or less at its end. -/
def firstCodePoint (b : CodeUnit) (rest : List CodeUnit) : Fill where
  data := (b :: rest).take (codePointLength b)
  size_pos := by
    rw [List.length_take]
    exact Nat.lt_min.mpr ⟨Nat.succ_pos _, Nat.succ_pos _⟩
  size_le := by
    rw [List.length_take]
    exact (min_le_left _ _).trans (Nat.succ_le_succ Nat.and_le_right)

/-- The default case for the range `b :: rest`: fill and alignment. -/
def parseFill (b : CodeUnit) (rest : List CodeUnit) (l : SpecLoop) : Except String Turn :=
  if b = '}' then .ok (.ret (b :: rest) l)
  else
    match (b :: rest).drop (codePointLength b) with
    | [] => .error "invalid format specifier"
    | a :: begin =>
      if b = '{' then .error "invalid fill character '\x7b'"
      else do
        let l ← l.enterState .align (parseAlign a ≠ .none)
        let specs := { l.specs with fill := firstCodePoint b rest, align := parseAlign a }
        pure (.brk begin { l with specs })

/-- One turn of the loop at the range `b :: rest`. -/
def specTurn (arg_type : ArgType) (c b : CodeUnit) (rest : List CodeUnit) (l : SpecLoop) :
    Except String Turn :=
  match specCase c with
  | .align => do
    let l ← l.enterState .align true
    pure (.brk rest { l with specs.align := parseAlign c })
  | .sign =>
    if arg_type = .none_type then .ok (.ret (b :: rest) l)
    else do
      let l ← l.enterState .sign (arg_type.isIn (ArgType.sint_set ||| ArgType.float_set))
      pure (.brk rest { l with specs.sign := parseSign c })
  | .hash =>
    if arg_type = .none_type then .ok (.ret (b :: rest) l)
    else do
      let l ← l.enterState .hash arg_type.is_arithmetic_type
      pure (.brk rest { l with specs.alt := true })
  | .zero => do
    let l ← l.enterState .zero true
    if arg_type.is_arithmetic_type = false then
      if arg_type = .none_type then .ok (.ret (b :: rest) l)
      else .error "format specifier requires numeric argument"
    else if l.specs.align = .none then
      -- zero padding is ignored if an alignment is given
      pure (.brk rest { l with specs.align := .numeric, specs.fill := .ofChar '0' })
    else pure (.brk rest l)
  | .width => do
    let l ← l.enterState .width true
    let (begin, width, width_ref, ctx) ←
      parseDynamicSpec b rest l.specs.width l.specs.width_ref l.ctx
    pure (.brk begin { l with specs.width := width, specs.width_ref := width_ref, ctx := ctx })
  | .precision =>
    if arg_type = .none_type then .ok (.ret (b :: rest) l)
    else do
      let l ← l.enterState .precision
        (arg_type.isIn (ArgType.float_set ||| ArgType.string_set ||| ArgType.cstring_set))
      let (begin, precision, precision_ref, ctx) ←
        parsePrecision rest l.specs.precision l.specs.precision_ref l.ctx
      pure (.brk begin { l with
        specs.precision := precision, specs.precision_ref := precision_ref, ctx := ctx })
  | .locale =>
    if arg_type = .none_type then .ok (.ret (b :: rest) l)
    else do
      let l ← l.enterState .locale arg_type.is_arithmetic_type
      pure (.brk rest { l with specs.localized := true })
  | .type p => parsePresentationType arg_type c b rest l p
  | .close => .ok (.ret (b :: rest) l)
  | .default => parseFill b rest l

/-! ## The loop -/

theorem parseNonnegativeInt_length {c : CodeUnit} (hc : isDigit c = true) (rest : List CodeUnit)
    (e : ℤ) : (parseNonnegativeInt (c :: rest) e).2.length ≤ rest.length := by
  obtain ⟨cs, q, rfl, hds, hq⟩ := exists_digits hc rest
  rw [← List.cons_append, parseNonnegativeInt_append e (List.cons_ne_nil c cs) hds hq,
    List.length_append]
  exact Nat.le_add_left ..

theorem parseDynamicSpec_other {c : CodeUnit} {rest : List CodeUnit} {value : ℤ} {ref : ArgRef}
    {ctx : ParseContext} (hd : ¬ isDigit c = true) (hopen : c ≠ '{') :
    parseDynamicSpec c rest value ref ctx = .ok (c :: rest, value, ref, ctx) :=
  (if_neg hd).trans (if_neg hopen)

theorem parseDynamicSpec_length {c : CodeUnit} {rest begin : List CodeUnit} {value : ℤ}
    {ref : ArgRef} {ctx : ParseContext} {r : ℤ × ArgRef × ParseContext}
    (hc : isDigit c = true ∨ c = '{') (h : parseDynamicSpec c rest value ref ctx = .ok (begin, r)) :
    begin.length ≤ rest.length := by
  unfold parseDynamicSpec at h
  split_ifs at h with hd hopen
  · have hlen := parseNonnegativeInt_length hd rest (-1)
    dsimp only at h
    split_ifs at h
    exact (Prod.mk.inj (Except.ok.inj h)).1 ▸ hlen
  · cases rest with
    | nil => exact absurd h (by rintro ⟨⟩)
    | cons d rest =>
      obtain ⟨⟨q, ref', ctx'⟩, hid, h⟩ := bind_eq_ok.mp h
      have hlen := (parseArgId_suffix hid).length_le
      cases q with
      | nil => exact absurd h (by rintro ⟨⟩)
      | cons e q =>
        dsimp only at h
        split_ifs at h
        exact (Prod.mk.inj (Except.ok.inj h)).1 ▸ (Nat.le_succ q.length).trans hlen
  · exact absurd hc (not_or.mpr ⟨hd, hopen⟩)

theorem parsePrecision_length {rest begin : List CodeUnit} {value : ℤ} {ref : ArgRef}
    {ctx : ParseContext} {r : ℤ × ArgRef × ParseContext}
    (h : parsePrecision rest value ref ctx = .ok (begin, r)) : begin.length ≤ rest.length := by
  cases rest with
  | nil => exact absurd h (by rintro ⟨⟩)
  | cons c rest =>
    unfold parsePrecision at h
    dsimp only at h
    split_ifs at h
    by_cases hc : isDigit c = true ∨ c = '{'
    · exact (parseDynamicSpec_length hc h).trans (Nat.le_succ _)
    · obtain ⟨hd, hopen⟩ := not_or.mp hc
      rw [parseDynamicSpec_other hd hopen] at h
      exact (Prod.mk.inj (Except.ok.inj h)).1 ▸ le_rfl

theorem parseFill_length {b : CodeUnit} {rest begin : List CodeUnit} {l l' : SpecLoop}
    (h : parseFill b rest l = .ok (.brk begin l')) : begin.length ≤ rest.length := by
  unfold parseFill at h
  by_cases hb : b = '}'
  · rw [if_pos hb] at h
    exact absurd h (by rintro ⟨⟩)
  rw [if_neg hb] at h
  have hlen := (List.drop_suffix (codePointLength b) (b :: rest)).length_le
  cases hdrop : (b :: rest).drop (codePointLength b) with
  | nil =>
    rw [hdrop] at h
    exact absurd h (by rintro ⟨⟩)
  | cons a q =>
    rw [hdrop] at h hlen
    dsimp only at h
    split_ifs at h
    obtain ⟨l₁, -, h⟩ := bind_eq_ok.mp h
    obtain ⟨rfl, -⟩ := Turn.brk.inj (Except.ok.inj h)
    exact Nat.le_of_succ_le_succ hlen

theorem specCase_width : ∀ c, specCase c = .width → isDigit c = true ∨ c = '{' :=
  forall_codeUnit (by decide +kernel)

/-- A turn that goes on has moved behind the first code unit. -/
theorem specTurn_length {arg_type : ArgType} {b : CodeUnit} {rest begin : List CodeUnit}
    {l l' : SpecLoop} (h : specTurn arg_type b b rest l = .ok (.brk begin l')) :
    begin.length ≤ rest.length := by
  unfold specTurn at h
  cases hk : specCase b <;> rw [hk] at h <;> dsimp only at h
  case align =>
    obtain ⟨l₁, -, h⟩ := bind_eq_ok.mp h
    obtain ⟨rfl, -⟩ := Turn.brk.inj (Except.ok.inj h)
    exact le_rfl
  case sign | hash | locale =>
    split_ifs at h
    · exact absurd h (by rintro ⟨⟩)
    · obtain ⟨l₁, -, h⟩ := bind_eq_ok.mp h
      obtain ⟨rfl, -⟩ := Turn.brk.inj (Except.ok.inj h)
      exact le_rfl
  case zero =>
    obtain ⟨l₁, -, h⟩ := bind_eq_ok.mp h
    split_ifs at h
    · exact absurd h (by rintro ⟨⟩)
    all_goals
      obtain ⟨rfl, -⟩ := Turn.brk.inj (Except.ok.inj h)
      exact le_rfl
  case width =>
    obtain ⟨l₁, -, h⟩ := bind_eq_ok.mp h
    obtain ⟨⟨q, r⟩, hq, h⟩ := bind_eq_ok.mp h
    obtain ⟨rfl, -⟩ := Turn.brk.inj (Except.ok.inj h)
    exact parseDynamicSpec_length (specCase_width b hk) hq
  case precision =>
    split_ifs at h
    · exact absurd h (by rintro ⟨⟩)
    · obtain ⟨l₁, -, h⟩ := bind_eq_ok.mp h
      obtain ⟨⟨q, r⟩, hq, h⟩ := bind_eq_ok.mp h
      obtain ⟨rfl, -⟩ := Turn.brk.inj (Except.ok.inj h)
      exact parsePrecision_length hq
  case type p =>
    unfold parsePresentationType at h
    dsimp only at h
    split_ifs at h <;> exact absurd h (by rintro ⟨⟩)
  case close => exact absurd h (by rintro ⟨⟩)
  case default => exact parseFill_length h

/-- The loop from the second turn on. -/
def parseLoop (arg_type : ArgType) (begin : List CodeUnit) (l : SpecLoop) :
    Except String (List CodeUnit × DynamicSpecs × ParseContext) :=
  match begin with
  | [] => .ok ([], l.specs, l.ctx)
  | b :: rest =>
    match h : specTurn arg_type b b rest l with
    | .error e => .error e
    | .ok (.ret begin l) => .ok (begin, l.specs, l.ctx)
    | .ok (.brk begin l) => parseLoop arg_type begin l
termination_by begin.length
decreasing_by exact Nat.lt_succ_of_le (specTurn_length h)

/-- The code unit of the first turn. -/
def firstChar (b : CodeUnit) (rest : List CodeUnit) : CodeUnit :=
  match rest with
  | [] => b
  | next :: _ => if parseAlign next = .none then b else 0

/-- `parse_format_specs`: what is left of the range, `specs` and the context. -/
def parseFormatSpecs (begin : List CodeUnit) (specs : DynamicSpecs) (ctx : ParseContext)
    (arg_type : ArgType) : Except String (List CodeUnit × DynamicSpecs × ParseContext) :=
  match begin with
  | [] => .ok ([], specs, ctx)
  | b :: rest => do
    match ← specTurn arg_type (firstChar b rest) b rest ⟨.start, specs, ctx⟩ with
    | .ret begin l => pure (begin, l.specs, l.ctx)
    | .brk begin l => parseLoop arg_type begin l

end SelfStudy.Fmt
