import SelfStudy.Fmt.Specs

/-!
# The grammar of format specifiers

`[[fill]align][sign]["#"]["0"][width]["." [precision]]["L"][type]`: what `parse_format_specs` accepts
in front of a closing brace, for each type of argument. A text of specifiers is a list of parts, each
in the order of its state; every turn of the loop takes one part off the range. The number behind the
point may be missing, if only something else follows.
-/

namespace SelfStudy.Fmt

/-- A width or a precision as it is written. -/
inductive CountText
  | digits (ds : List CodeUnit)
  | ref (id : ArgId)
  deriving DecidableEq, Repr

namespace CountText

def render : CountText → List CodeUnit
  | .digits ds => ds
  | .ref id => ('{' : CodeUnit) :: (id.render ++ [('}' : CodeUnit)])

/-- A number fits into an `int`, in at most ten digits. -/
def Valid : CountText → Prop
  | .digits ds => ds ≠ [] ∧ (∀ d ∈ ds, isDigit d = true) ∧ ds.length ≤ 10 ∧ digitsValue ds ≤ intMax
  | .ref id => id.Valid

/-- A number does not go on in `rest`. -/
def Stops : CountText → List CodeUnit → Prop
  | .digits _, rest => Fmt.Stops rest
  | .ref _, _ => True

/-- The value, the reference and the context after the count, from those before it. -/
def count (t : CountText) (value : ℤ) (ref : ArgRef) (ctx : ParseContext) :
    Except String (ℤ × ArgRef × ParseContext) :=
  match t with
  | .digits ds => .ok (digitsValue ds, ref, ctx)
  | .ref id => (dynamicSpecIdHandler.answer id ctx).map fun r => (value, r.1, r.2)

end CountText

section Count

variable {t : CountText} {c : CodeUnit} {rest tail : List CodeUnit} {value : ℤ} {ref : ArgRef}
  {ctx : ParseContext} {r : ℤ × ArgRef × ParseContext}

theorem parseDynamicSpec_render (ht : t.Valid) (hs : t.Stops tail)
    (h : c :: rest = t.render ++ tail) :
    parseDynamicSpec c rest value ref ctx = (t.count value ref ctx).map fun r => (tail, r) := by
  cases t with
  | digits ds =>
    obtain ⟨hne, hds, hlen, hmax⟩ := ht
    have hc : isDigit c = true := by
      cases ds with
      | nil => exact absurd rfl hne
      | cons d ds => exact (List.cons.inj h).1 ▸ hds d List.mem_cons_self
    have hparse := parseNonnegativeInt_append (-1) hne hds hs
    rw [if_pos ⟨hlen, hmax⟩, show ds ++ tail = c :: rest from h.symm] at hparse
    rw [parseDynamicSpec.eq_def, if_pos hc, hparse]
    exact if_pos fun h => absurd h (by omega)
  | ref id =>
    obtain ⟨rfl, hrest⟩ := List.cons.inj h
    have hrest : rest = id.render ++ ('}' : CodeUnit) :: tail :=
      hrest.trans (List.append_assoc ..)
    obtain ⟨d, ds, hd⟩ : ∃ d ds, d :: ds = id.render ++ ('}' : CodeUnit) :: tail := by
      cases id.render with
      | nil => exact ⟨_, _, rfl⟩
      | cons d ds => exact ⟨d, ds ++ ('}' : CodeUnit) :: tail, rfl⟩
    rw [parseDynamicSpec.eq_def, if_neg (by decide), if_pos rfl, hrest, ← hd]
    show (parseArgId dynamicSpecIdHandler d ds ctx >>= _ : Except _ _) = _
    rw [parseArgId_render ht (.inl rfl) hd, CountText.count]
    cases dynamicSpecIdHandler.answer id ctx with
    | error e => rfl
    | ok r =>
      show (if ('}' : CodeUnit) = '}' then .ok (tail, value, r)
        else .error "invalid format string" : Except String _) = _
      rw [if_pos rfl]
      rfl

theorem exists_of_parseDynamicSpec (hc : isDigit c = true ∨ c = '{')
    (h : parseDynamicSpec c rest value ref ctx = .ok (tail, r)) :
    ∃ t : CountText, t.Valid ∧ t.Stops tail ∧ c :: rest = t.render ++ tail ∧
      t.count value ref ctx = .ok r := by
  have key : ∀ t : CountText, ∀ q, t.Valid → t.Stops q → c :: rest = t.render ++ q →
      ∃ t : CountText, t.Valid ∧ t.Stops tail ∧ c :: rest = t.render ++ tail ∧
        t.count value ref ctx = .ok r := by
    intro t q ht hs hrender
    rw [parseDynamicSpec_render ht hs hrender] at h
    obtain ⟨r', hr, heq⟩ := map_eq_ok.mp h
    obtain ⟨rfl, rfl⟩ := Prod.mk.inj heq
    exact ⟨t, ht, hs, hrender, hr⟩
  have hparse := h
  rw [parseDynamicSpec.eq_def] at hparse
  split_ifs at hparse with hd hopen
  · obtain ⟨cs, q, rfl, hds, hstops⟩ := exists_digits hd rest
    have hnum := parseNonnegativeInt_append (-1) (List.cons_ne_nil c cs) hds hstops
    rw [List.cons_append] at hnum
    rw [hnum] at hparse
    dsimp only at hparse
    split_ifs at hparse with hfits hne hne
    · exact key (.digits (c :: cs)) q ⟨List.cons_ne_nil c cs, hds, hfits⟩ hstops rfl
    · exact absurd rfl hne
  · cases rest with
    | nil => exact absurd hparse (by rintro ⟨⟩)
    | cons d rest =>
      obtain ⟨⟨begin, r'⟩, hid, hparse⟩ := bind_eq_ok.mp hparse
      cases begin with
      | nil => exact absurd hparse (by rintro ⟨⟩)
      | cons e begin =>
        dsimp only at hparse
        split_ifs at hparse with he
        obtain ⟨id, hvalid, hrender, -⟩ := exists_of_parseArgId (.inl he) hid
        refine key (.ref id) begin hvalid trivial ?_
        rw [hopen, hrender, he, CountText.render, List.cons_append, List.append_assoc]
        rfl
  · exact absurd hc (not_or.mpr ⟨hd, hopen⟩)

end Count

/-! ## Parts -/

/-- A part of the specifiers as it is written. -/
inductive SpecPart
  | align (fill : Option Fill) (a : CodeUnit)
  | sign (c : CodeUnit)
  | hash
  | zero
  | width (t : CountText)
  | precision (t : Option CountText)
  | locale
  | type (c : CodeUnit)
  deriving DecidableEq, Repr

namespace SpecPart

def render : SpecPart → List CodeUnit
  | .align fill a => (fill.elim [] Fill.data) ++ [a]
  | .sign c => [c]
  | .hash => [('#' : CodeUnit)]
  | .zero => [('0' : CodeUnit)]
  | .width t => t.render
  | .precision t => ('.' : CodeUnit) :: t.elim [] CountText.render
  | .locale => [('L' : CodeUnit)]
  | .type c => [c]

/-- The state that is entered with the part; the presentation type comes last and enters none. -/
def state : SpecPart → Option SpecState
  | .align _ _ => some .align
  | .sign _ => some .sign
  | .hash => some .hash
  | .zero => some .zero
  | .width _ => some .width
  | .precision _ => some .precision
  | .locale => some .locale
  | .type _ => none

def rank (p : SpecPart) : ℕ := p.state.elim 8 SpecState.ctorIdx

open ArgType in
/-- The part is well formed and may be given for a type of argument. -/
def Allowed (arg_type : ArgType) : SpecPart → Prop
  | .align fill a => parseAlign a ≠ .none ∧ ∀ f ∈ fill, ∃ b cs, f.data = b :: cs ∧
      b ≠ '{' ∧ b ≠ '}' ∧ f.data.length = codePointLength b
  | .sign c => specCase c = .sign ∧ arg_type.isIn (sint_set ||| float_set) = true
  | .hash => arg_type.is_arithmetic_type = true
  | .zero => arg_type.is_arithmetic_type = true
  | .width t => t.Valid ∧ ∀ c ∈ t.render.head?, c ≠ '0'
  | .precision t => arg_type.isIn (float_set ||| string_set ||| cstring_set) = true ∧
      ∀ u ∈ t, u.Valid
  | .locale => arg_type.is_arithmetic_type = true
  | .type c => (∃ p, presentation c = some p ∧ arg_type.isIn p.2.1 = true) ∧
      ¬ (c = 'c' ∧ arg_type = .bool_type)

/-- The part ends in front of `rest`. -/
def Stops : SpecPart → List CodeUnit → Prop
  | .width t, rest => t.Stops rest
  | .precision (some t), rest => t.Stops rest
  | .precision none, rest => ∃ c cs, rest = c :: cs ∧ c ≠ '}' ∧ isDigit c = false ∧ c ≠ '{'
  | _, _ => True

/-- What the part sets. -/
def apply (p : SpecPart) (r : DynamicSpecs × ParseContext) :
    Except String (DynamicSpecs × ParseContext) :=
  match p with
  | .align fill a =>
    .ok ({ r.1 with fill := fill.getD r.1.fill, align := parseAlign a }, r.2)
  | .sign c => .ok ({ r.1 with sign := parseSign c }, r.2)
  | .hash => .ok ({ r.1 with alt := true }, r.2)
  | .zero =>
    if r.1.align = .none then .ok ({ r.1 with align := .numeric, fill := .ofChar '0' }, r.2)
    else .ok r
  | .width t => (t.count r.1.width r.1.width_ref r.2).map fun v =>
      ({ r.1 with width := v.1, width_ref := v.2.1 }, v.2.2)
  | .precision none => .ok r
  | .precision (some t) => (t.count r.1.precision r.1.precision_ref r.2).map fun v =>
      ({ r.1 with precision := v.1, precision_ref := v.2.1 }, v.2.2)
  | .locale => .ok ({ r.1 with localized := true }, r.2)
  | .type c =>
    match presentation c with
    | none => .ok r
    | some (pres, _, upper) => .ok ({ r.1 with type := pres, upper := r.1.upper || upper }, r.2)

/-- How the turn ends that takes the part. -/
def turn (p : SpecPart) (tail : List CodeUnit) (l : SpecLoop) (r : DynamicSpecs × ParseContext) :
    Turn :=
  match p.state with
  | some s => .brk tail ⟨s, r.1, r.2⟩
  | none => .ret tail ⟨l.current_state, r.1, r.2⟩

end SpecPart

/-- Parts in their order, each of a rank above `k`; a point without a number is not the last one. -/
def ValidFrom (arg_type : ArgType) : ℕ → List SpecPart → Prop
  | _, [] => True
  | k, p :: ps => k < p.rank ∧ p.Allowed arg_type ∧ (p = .precision none → ps ≠ []) ∧
      ValidFrom arg_type p.rank ps

/-- What the parts set, one after the other. -/
def applyParts (ps : List SpecPart) (r : DynamicSpecs × ParseContext) :
    Except String (DynamicSpecs × ParseContext) :=
  ps.foldlM (fun r p => p.apply r) r

section Turns

variable {arg_type : ArgType} {b c : CodeUnit} {rest tail : List CodeUnit} {l : SpecLoop}
  {p : SpecPart} {r : DynamicSpecs × ParseContext}

theorem enterState_eq {s : SpecState} {valid : Bool} (hs : l.current_state.ctorIdx < s.ctorIdx)
    (hv : valid = true) : l.enterState s valid = .ok { l with current_state := s } :=
  if_neg (not_or.mpr ⟨not_le.mpr hs, by rw [hv]; decide⟩)

theorem enterState_eq_ok {s : SpecState} {valid : Bool} {l' : SpecLoop}
    (h : l.enterState s valid = .ok l') :
    l.current_state.ctorIdx < s.ctorIdx ∧ valid = true ∧ l' = { l with current_state := s } := by
  unfold SpecLoop.enterState at h
  split_ifs at h with hs
  obtain ⟨h1, h2⟩ := not_or.mp hs
  exact ⟨not_le.mp h1, Bool.eq_true_of_not_eq_false h2, (Except.ok.inj h).symm⟩

theorem specCase_spec : ∀ c, (specCase c = .align ↔ parseAlign c ≠ .none) ∧
    (specCase c = .hash ↔ c = '#') ∧ (specCase c = .zero ↔ c = '0') ∧
    (specCase c = .width ↔ (isDigit c = true ∧ c ≠ '0') ∨ c = '{') ∧
    (specCase c = .precision ↔ c = '.') ∧ (specCase c = .locale ↔ c = 'L') ∧
    (specCase c = .close ↔ c = '}') :=
  forall_codeUnit (by decide +kernel)

/-- What the case of a presentation type holds. -/
def SpecCase.type? : SpecCase → Option (Pres × ℕ × Bool)
  | .type p => some p
  | _ => none

theorem specCase_type? : ∀ c, (specCase c).type? = presentation c :=
  forall_codeUnit (by decide +kernel)

theorem specCase_eq_type {p : Pres × ℕ × Bool} : specCase c = .type p ↔ presentation c = some p := by
  rw [← specCase_type? c]
  cases specCase c <;> simp [SpecCase.type?]

theorem presentation_fill : ∀ c, codePointLength c ≠ 1 → specCase c = .default :=
  forall_codeUnit (by decide +kernel)

theorem ne_none_of_arithmetic (h : arg_type.is_arithmetic_type = true) : arg_type ≠ .none_type := by
  rintro rfl
  exact absurd h (by decide)

theorem apply_type {q : Pres × ℕ × Bool} (h : presentation c = some q) :
    (SpecPart.type c).apply r =
      .ok ({ r.1 with type := q.1, upper := r.1.upper || q.2.2 }, r.2) := by
  rw [SpecPart.apply, h]

theorem parsePresentationType_eq {q : Pres × ℕ × Bool} (hc : ¬ (c = 'c' ∧ arg_type = .bool_type))
    (hin : arg_type.isIn q.2.1 = true) : parsePresentationType arg_type c b rest l q =
      .ok (.ret rest { l with
        specs := { l.specs with type := q.1, upper := l.specs.upper || q.2.2 } }) := by
  obtain ⟨pres, set, upper⟩ := q
  unfold parsePresentationType
  dsimp only
  rw [if_neg hc, if_neg (by rw [hin]; decide)]
  cases upper
  · rw [Bool.or_false]
    rfl
  · rw [Bool.or_true]
    rfl

/-- The beginning of a count. -/
theorem head_count {t : CountText} (ht : t.Valid) : ∃ c cs, t.render = c :: cs ∧
    (isDigit c = true ∨ c = '{') := by
  cases t with
  | digits ds =>
    obtain ⟨hne, hds, -⟩ := ht
    obtain ⟨c, cs, rfl⟩ := List.exists_cons_of_ne_nil hne
    exact ⟨c, cs, rfl, .inl (hds c List.mem_cons_self)⟩
  | ref id => exact ⟨_, _, rfl, .inr rfl⟩

theorem parsePrecision_render {t : CountText} {value : ℤ} {ref : ArgRef} {ctx : ParseContext}
    (ht : t.Valid) (hs : t.Stops tail) (h : rest = t.render ++ tail) :
    parsePrecision rest value ref ctx = (t.count value ref ctx).map fun r => (tail, r) := by
  obtain ⟨c, cs, hc, hhead⟩ := head_count ht
  have hclose : c ≠ '}' := by
    rintro rfl
    exact absurd hhead (by decide)
  rw [h, hc, List.cons_append, parsePrecision, if_neg hclose]
  exact parseDynamicSpec_render ht hs (by rw [hc]; rfl)

theorem exists_of_parsePrecision {value : ℤ} {ref : ArgRef} {ctx : ParseContext}
    {v : ℤ × ArgRef × ParseContext} (h : parsePrecision rest value ref ctx = .ok (tail, v)) :
    ((SpecPart.precision none).Stops tail ∧ rest = tail ∧ v = (value, ref, ctx)) ∨
      ∃ t : CountText, t.Valid ∧ t.Stops tail ∧ rest = t.render ++ tail ∧
        t.count value ref ctx = .ok v := by
  cases rest with
  | nil => exact absurd h (by rintro ⟨⟩)
  | cons c rest =>
    rw [parsePrecision] at h
    split_ifs at h with hclose
    by_cases hc : isDigit c = true ∨ c = '{'
    · exact .inr (exists_of_parseDynamicSpec hc h)
    · obtain ⟨hd, hopen⟩ := not_or.mp hc
      rw [parseDynamicSpec_other hd hopen] at h
      obtain ⟨rfl, rfl⟩ := Prod.mk.inj (Except.ok.inj h)
      exact .inl ⟨⟨c, rest, rfl, hclose, Bool.eq_false_iff.mpr hd, hopen⟩, rfl, rfl⟩

theorem head_width {t : CountText} (ht : t.Valid) (hz : ∀ c ∈ t.render.head?, c ≠ '0')
    (h : b :: rest = t.render ++ tail) : isDigit b = true ∧ b ≠ '0' ∨ b = '{' := by
  obtain ⟨c, cs, hc, hhead⟩ := head_count ht
  rw [hc] at h hz
  obtain ⟨rfl, -⟩ := List.cons.inj h
  exact hhead.imp_left fun hd => ⟨hd, hz b rfl⟩

/-- A turn takes a part that may stand there. -/
theorem specTurn_render (hp : p.Allowed arg_type) (hl : l.current_state.ctorIdx < p.rank)
    (hs : p.Stops tail) (hr : p.apply (l.specs, l.ctx) = .ok r)
    (hfill : ∀ f a, p ≠ .align (some f) a) (h : b :: rest = p.render ++ tail) :
    specTurn arg_type b b rest l = .ok (p.turn tail l r) := by
  obtain ⟨halign, hhash, hzero, hwidth, hprecision, hlocale, -⟩ := specCase_spec b
  unfold specTurn
  cases p with
  | align fill a =>
    cases fill with
    | some f => exact absurd rfl (hfill f a)
    | none =>
      obtain ⟨rfl, rfl⟩ := List.cons.inj (show b :: rest = a :: tail from h)
      rw [halign.mpr hp.1]
      dsimp only
      rw [enterState_eq hl rfl]
      exact Except.ok.inj hr ▸ rfl
  | sign c =>
    obtain ⟨rfl, rfl⟩ := List.cons.inj (show b :: rest = c :: tail from h)
    have hne : arg_type ≠ .none_type := by
      rintro rfl
      exact absurd hp.2 (by decide)
    rw [hp.1]
    dsimp only
    rw [if_neg hne, enterState_eq hl hp.2]
    exact Except.ok.inj hr ▸ rfl
  | hash =>
    obtain ⟨hb, rfl⟩ := List.cons.inj (show b :: rest = ('#' : CodeUnit) :: tail from h)
    rw [hhash.mpr hb]
    dsimp only
    rw [if_neg (ne_none_of_arithmetic hp), enterState_eq hl hp]
    exact Except.ok.inj hr ▸ rfl
  | zero =>
    obtain ⟨hb, rfl⟩ := List.cons.inj (show b :: rest = ('0' : CodeUnit) :: tail from h)
    rw [hzero.mpr hb]
    dsimp only
    rw [enterState_eq hl rfl]
    show (if arg_type.is_arithmetic_type = false then _ else if l.specs.align = .none then _ else _ :
      Except String Turn) = _
    rw [if_neg (by rw [hp]; decide)]
    have hr : (if l.specs.align = .none then _ else _ : Except String _) = _ := hr
    by_cases hnone : l.specs.align = .none
    · rw [if_pos hnone] at hr ⊢
      exact Except.ok.inj hr ▸ rfl
    · rw [if_neg hnone] at hr ⊢
      exact Except.ok.inj hr ▸ rfl
  | width t =>
    obtain ⟨ht, hz⟩ := hp
    rw [hwidth.mpr (head_width ht hz h)]
    dsimp only
    obtain ⟨v, hv, rfl⟩ := map_eq_ok.mp hr
    rw [enterState_eq hl rfl]
    show (parseDynamicSpec b rest l.specs.width l.specs.width_ref l.ctx >>= _ : Except String _) = _
    rw [parseDynamicSpec_render ht hs h, hv]
    rfl
  | precision t =>
    obtain ⟨hin, ht⟩ := hp
    obtain ⟨hb, hrest⟩ := List.cons.inj
      (show b :: rest = ('.' : CodeUnit) :: (t.elim [] CountText.render ++ tail) from h)
    have hne : arg_type ≠ .none_type := by
      rintro rfl
      exact absurd hin (by decide)
    rw [hprecision.mpr hb]
    dsimp only
    rw [if_neg hne, enterState_eq hl hin]
    show (parsePrecision rest l.specs.precision l.specs.precision_ref l.ctx >>= _ :
      Except String _) = _
    cases t with
    | none =>
      obtain ⟨c, cs, rfl, hclose, hdigit, hopen⟩ := hs
      obtain rfl : rest = c :: cs := hrest
      rw [parsePrecision, if_neg hclose, parseDynamicSpec_other (by rw [hdigit]; decide) hopen]
      exact Except.ok.inj hr ▸ rfl
    | some t =>
      obtain ⟨v, hv, rfl⟩ := map_eq_ok.mp hr
      rw [parsePrecision_render (ht t rfl) hs hrest, hv]
      rfl
  | locale =>
    obtain ⟨hb, rfl⟩ := List.cons.inj (show b :: rest = ('L' : CodeUnit) :: tail from h)
    rw [hlocale.mpr hb]
    dsimp only
    rw [if_neg (ne_none_of_arithmetic hp), enterState_eq hl hp]
    exact Except.ok.inj hr ▸ rfl
  | type c =>
    obtain ⟨rfl, rfl⟩ := List.cons.inj (show b :: rest = c :: tail from h)
    obtain ⟨⟨p, hpres, hin⟩, hc⟩ := hp
    rw [specCase_eq_type.mpr hpres]
    rw [apply_type hpres] at hr
    obtain rfl := Except.ok.inj hr
    dsimp only
    rw [parsePresentationType_eq hc hin]
    rfl

theorem parseFill_render {f : Fill} {a : CodeUnit} {cs : List CodeUnit} (hf : f.data = b :: cs)
    (hopen : b ≠ '{') (hclose : b ≠ '}') (hlen : f.data.length = codePointLength b)
    (ha : parseAlign a ≠ .none) (hl : l.current_state = .start) (h : rest = cs ++ a :: tail) :
    parseFill b rest l = .ok (.brk tail { l with
      current_state := .align
      specs := { l.specs with fill := f, align := parseAlign a } }) := by
  have heq : b :: rest = f.data ++ a :: tail := by rw [hf, h]; rfl
  have hdrop : (b :: rest).drop (codePointLength b) = a :: tail := by
    rw [heq, ← hlen, List.drop_left]
  have hfill : firstCodePoint b rest = f := by
    obtain ⟨data, h1, h2⟩ := f
    unfold firstCodePoint
    congr 1
    rw [heq, ← hlen, List.take_left]
  unfold parseFill
  rw [if_neg hclose, hdrop]
  dsimp only
  rw [if_neg hopen, enterState_eq (by rw [hl]; decide) (decide_eq_true ha), hfill]
  rfl

theorem exists_of_parseFill {t : Turn} (ht : parseFill b rest l = .ok t) :
    (b = '}' ∧ t = .ret (b :: rest) l) ∨ ∃ p tail r, SpecPart.Allowed arg_type p ∧
      l.current_state.ctorIdx < p.rank ∧ p.Stops tail ∧ b :: rest = p.render ++ tail ∧
        p.apply (l.specs, l.ctx) = .ok r ∧ t = p.turn tail l r := by
  unfold parseFill at ht
  by_cases hclose : b = '}'
  · rw [if_pos hclose] at ht
    exact .inl ⟨hclose, (Except.ok.inj ht).symm⟩
  rw [if_neg hclose] at ht
  have hsplit := List.take_append_drop (codePointLength b) (b :: rest)
  cases hdrop : (b :: rest).drop (codePointLength b) with
  | nil =>
    rw [hdrop] at ht
    exact absurd ht (by rintro ⟨⟩)
  | cons a tail =>
    have hlen : (firstCodePoint b rest).data.length = codePointLength b := by
      have hlt : codePointLength b < (b :: rest).length := by
        by_contra hle
        rw [List.drop_eq_nil_of_le (not_lt.mp hle)] at hdrop
        exact absurd hdrop (by rintro ⟨⟩)
      unfold firstCodePoint
      rw [List.length_take, min_eq_left hlt.le]
    have hdata : ∃ cs, (firstCodePoint b rest).data = b :: cs := ⟨_, List.take_succ_cons⟩
    rw [hdrop] at ht hsplit
    dsimp only at ht
    split_ifs at ht with hopen
    obtain ⟨l₁, hl₁, ht⟩ := bind_eq_ok.mp ht
    obtain ⟨hl, ha, rfl⟩ := enterState_eq_ok hl₁
    obtain ⟨cs, hcs⟩ := hdata
    refine .inr ⟨.align (some (firstCodePoint b rest)) a, tail, _,
      ⟨of_decide_eq_true ha, fun f hf => ?_⟩, hl, trivial, ?_, rfl, (Except.ok.inj ht).symm⟩
    · obtain rfl := Option.some.inj hf
      exact ⟨b, cs, hcs, hopen, hclose, hlen⟩
    · rw [SpecPart.render, List.append_assoc]
      exact hsplit.symm

theorem rank_le_type (l : SpecLoop) : l.current_state.ctorIdx < 8 := by
  cases l.current_state <;> decide

/-- What a turn takes is a part, unless it stops at a closing brace. -/
theorem exists_of_specTurn {t : Turn} (hne : arg_type ≠ .none_type)
    (ht : specTurn arg_type c b rest l = .ok t) (hc : specCase c = .default ∨ c = b) :
    (b = '}' ∧ t = .ret (b :: rest) l) ∨ ∃ p tail r, SpecPart.Allowed arg_type p ∧
      l.current_state.ctorIdx < p.rank ∧ p.Stops tail ∧ b :: rest = p.render ++ tail ∧
        p.apply (l.specs, l.ctx) = .ok r ∧ t = p.turn tail l r := by
  obtain ⟨halign, hhash, hzero, hwidth, hprecision, hlocale, hclose⟩ := specCase_spec c
  have hcb : specCase c ≠ .default → c = b := fun h => hc.resolve_left h
  unfold specTurn at ht
  cases hk : specCase c <;> rw [hk] at ht hcb <;> dsimp only at ht
  case align =>
    obtain rfl := hcb (by rintro ⟨⟩)
    obtain ⟨l₁, hl₁, ht⟩ := bind_eq_ok.mp ht
    obtain ⟨hl, -, rfl⟩ := enterState_eq_ok hl₁
    obtain rfl := Except.ok.inj ht
    exact .inr ⟨.align none c, rest, _, ⟨halign.mp hk, by rintro f ⟨⟩⟩, hl, trivial, rfl, rfl, rfl⟩
  case sign =>
    obtain rfl := hcb (by rintro ⟨⟩)
    rw [if_neg hne] at ht
    obtain ⟨l₁, hl₁, ht⟩ := bind_eq_ok.mp ht
    obtain ⟨hl, hv, rfl⟩ := enterState_eq_ok hl₁
    obtain rfl := Except.ok.inj ht
    exact .inr ⟨.sign c, rest, _, ⟨hk, hv⟩, hl, trivial, rfl, rfl, rfl⟩
  case hash =>
    obtain rfl := hcb (by rintro ⟨⟩)
    rw [if_neg hne] at ht
    obtain ⟨l₁, hl₁, ht⟩ := bind_eq_ok.mp ht
    obtain ⟨hl, hv, rfl⟩ := enterState_eq_ok hl₁
    obtain rfl := Except.ok.inj ht
    exact .inr ⟨.hash, rest, _, hv, hl, trivial, by rw [hhash.mp hk]; rfl, rfl, rfl⟩
  case zero =>
    obtain rfl := hcb (by rintro ⟨⟩)
    obtain ⟨l₁, hl₁, ht⟩ := bind_eq_ok.mp ht
    obtain ⟨hl, -, rfl⟩ := enterState_eq_ok hl₁
    have harith : arg_type.is_arithmetic_type = true := by
      by_contra h
      rw [if_pos (Bool.eq_false_iff.mpr h), if_neg hne] at ht
      exact absurd ht (by rintro ⟨⟩)
    rw [if_neg (by rw [harith]; decide)] at ht
    have key : ∀ r, SpecPart.zero.apply (l.specs, l.ctx) = .ok r →
        t = SpecPart.zero.turn rest l r := by
      intro r hr
      have hr : (if l.specs.align = .none then _ else _ : Except String _) = _ := hr
      by_cases hnone : l.specs.align = .none
      · rw [if_pos hnone] at ht hr
        rw [← Except.ok.inj ht, ← Except.ok.inj hr]
        rfl
      · rw [if_neg hnone] at ht hr
        rw [← Except.ok.inj ht, ← Except.ok.inj hr]
        rfl
    obtain ⟨r, hr⟩ : ∃ r, SpecPart.zero.apply (l.specs, l.ctx) = .ok r := by
      unfold SpecPart.apply
      dsimp only
      split_ifs <;> exact ⟨_, rfl⟩
    exact .inr ⟨.zero, rest, r, harith, hl, trivial, by rw [hzero.mp hk]; rfl, hr, key r hr⟩
  case width =>
    obtain rfl := hcb (by rintro ⟨⟩)
    obtain ⟨l₁, hl₁, ht⟩ := bind_eq_ok.mp ht
    obtain ⟨hl, -, rfl⟩ := enterState_eq_ok hl₁
    obtain ⟨⟨tail, v⟩, hv, ht⟩ := bind_eq_ok.mp ht
    obtain rfl := Except.ok.inj ht
    have hhead := hwidth.mp hk
    obtain ⟨u, hu, hs, heq, hcount⟩ := exists_of_parseDynamicSpec (hhead.imp_left And.left) hv
    have hz : ∀ d ∈ u.render.head?, d ≠ '0' := by
      obtain ⟨d, ds, hd, -⟩ := head_count hu
      rw [hd] at heq ⊢
      obtain rfl := (List.cons.inj heq).1
      rintro e he rfl
      obtain rfl := Option.some.inj he
      exact absurd hhead (by decide)
    refine .inr ⟨.width u, tail, ({ l.specs with width := v.1, width_ref := v.2.1 }, v.2.2),
      ⟨hu, hz⟩, hl, hs, heq, ?_, rfl⟩
    rw [SpecPart.apply, hcount]
    rfl
  case precision =>
    obtain rfl := hcb (by rintro ⟨⟩)
    rw [if_neg hne] at ht
    obtain ⟨l₁, hl₁, ht⟩ := bind_eq_ok.mp ht
    obtain ⟨hl, hin, rfl⟩ := enterState_eq_ok hl₁
    obtain ⟨⟨tail, v⟩, hv, ht⟩ := bind_eq_ok.mp ht
    obtain rfl := Except.ok.inj ht
    have hpoint := hprecision.mp hk
    rcases exists_of_parsePrecision hv with ⟨hs, rfl, rfl⟩ | ⟨u, hu, hs, heq, hcount⟩
    · exact .inr ⟨.precision none, rest, _, ⟨hin, by rintro u ⟨⟩⟩, hl, hs, by rw [hpoint]; rfl,
        rfl, rfl⟩
    · refine .inr ⟨.precision (some u), tail,
        ({ l.specs with precision := v.1, precision_ref := v.2.1 }, v.2.2), ⟨hin, ?_⟩, hl, hs, ?_,
        ?_, rfl⟩
      · rintro u' hu'
        exact Option.some.inj hu' ▸ hu
      · rw [hpoint, heq]
        rfl
      · rw [SpecPart.apply, hcount]
        rfl
  case locale =>
    obtain rfl := hcb (by rintro ⟨⟩)
    rw [if_neg hne] at ht
    obtain ⟨l₁, hl₁, ht⟩ := bind_eq_ok.mp ht
    obtain ⟨hl, hv, rfl⟩ := enterState_eq_ok hl₁
    obtain rfl := Except.ok.inj ht
    exact .inr ⟨.locale, rest, _, hv, hl, trivial, by rw [hlocale.mp hk]; rfl, rfl, rfl⟩
  case type q =>
    obtain rfl := hcb (by rintro ⟨⟩)
    have hpres := specCase_eq_type.mp hk
    obtain ⟨hbool, hin⟩ : ¬ (c = 'c' ∧ arg_type = .bool_type) ∧ arg_type.isIn q.2.1 = true := by
      unfold parsePresentationType at ht
      dsimp only at ht
      by_cases hbool : c = 'c' ∧ arg_type = .bool_type
      · rw [if_pos hbool] at ht
        exact absurd ht (by rintro ⟨⟩)
      by_cases hin : arg_type.isIn q.2.1 = false
      · rw [if_neg hbool, if_pos hin, if_neg hne] at ht
        exact absurd ht (by rintro ⟨⟩)
      · exact ⟨hbool, Bool.eq_true_of_not_eq_false hin⟩
    rw [parsePresentationType_eq hbool hin] at ht
    exact .inr ⟨.type c, rest, _, ⟨⟨q, hpres, hin⟩, hbool⟩, rank_le_type l, trivial, rfl,
      apply_type hpres, (Except.ok.inj ht).symm⟩
  case close =>
    obtain rfl := hcb (by rintro ⟨⟩)
    exact .inl ⟨hclose.mp hk, (Except.ok.inj ht).symm⟩
  case default => exact exists_of_parseFill ht

end Turns

/-! ## The loop -/

section Loop

variable {arg_type : ArgType} {b : CodeUnit} {begin rest tail : List CodeUnit} {l : SpecLoop}
  {p : SpecPart} {ps : List SpecPart} {r r' : DynamicSpecs × ParseContext}

/-- What is done after a turn. -/
def Turn.next (arg_type : ArgType) :
    Turn → Except String (List CodeUnit × DynamicSpecs × ParseContext)
  | .ret begin l => .ok (begin, l.specs, l.ctx)
  | .brk begin l => parseLoop arg_type begin l

theorem parseLoop_cons (b : CodeUnit) (rest : List CodeUnit) (l : SpecLoop) :
    parseLoop arg_type (b :: rest) l = specTurn arg_type b b rest l >>= Turn.next arg_type := by
  rw [parseLoop]
  cases specTurn arg_type b b rest l with
  | error e => rfl
  | ok t => cases t <;> rfl

theorem parseFormatSpecs_cons (b : CodeUnit) (rest : List CodeUnit) (specs : DynamicSpecs)
    (ctx : ParseContext) : parseFormatSpecs (b :: rest) specs ctx arg_type =
      specTurn arg_type (firstChar b rest) b rest ⟨.start, specs, ctx⟩ >>= Turn.next arg_type := by
  rw [parseFormatSpecs]
  refine congrArg _ (funext fun t => ?_)
  cases t <;> rfl

theorem not_align : ∀ c, (isNamePart c = true → parseAlign c = .none) ∧
    (specCase c = .sign → parseAlign c = .none) ∧
    ((presentation c).isSome = true →
      parseAlign c = .none ∧ isDigit c = false ∧ c ≠ '{' ∧ c ≠ '}') :=
  forall_codeUnit (by decide +kernel)

theorem not_align_of_isDigit {c : CodeUnit} (h : isDigit c = true) : parseAlign c = .none :=
  (not_align c).1 (by rw [isNamePart, h, Bool.or_true])

theorem not_align_of_mem_argId {id : ArgId} (hid : id.Valid) {c : CodeUnit} (hc : c ∈ id.render) :
    parseAlign c = .none := by
  cases id with
  | auto => exact absurd hc List.not_mem_nil
  | index ds =>
    obtain ⟨d, cs, rfl, hds, -⟩ := hid
    exact not_align_of_isDigit (hds c hc)
  | name t =>
    obtain ⟨d, cs, rfl, hd, hcs⟩ := hid
    refine (Fmt.not_align c).1 ?_
    rcases List.mem_cons.mp hc with rfl | hc
    · rw [isNamePart, hd, Bool.true_or]
    · exact hcs c hc

theorem not_align_of_mem_count {t : CountText} (ht : t.Valid) {c : CodeUnit} (hc : c ∈ t.render) :
    parseAlign c = .none := by
  cases t with
  | digits ds => exact not_align_of_isDigit (ht.2.1 c hc)
  | ref id =>
    rcases List.mem_cons.mp hc with rfl | hc
    · decide
    rcases List.mem_append.mp hc with hc | hc
    · exact not_align_of_mem_argId ht hc
    · rw [List.mem_singleton.mp hc]
      decide

/-- Behind its first code unit a part has no sign of an alignment; from the sign on it has none at
all. -/
theorem not_align_of_part (hp : p.Allowed arg_type) (hfill : ∀ f a, p ≠ .align (some f) a) :
    ∃ b cs, p.render = b :: cs ∧ (∀ c ∈ cs, parseAlign c = .none) ∧
      (1 < p.rank → parseAlign b = .none) := by
  cases p with
  | align fill a =>
    cases fill with
    | some f => exact absurd rfl (hfill f a)
    | none => exact ⟨a, [], rfl, by rintro c ⟨⟩, fun h => absurd h (lt_irrefl 1)⟩
  | sign c => exact ⟨c, [], rfl, by rintro c ⟨⟩, fun _ => (Fmt.not_align c).2.1 hp.1⟩
  | hash => exact ⟨_, [], rfl, by rintro c ⟨⟩, fun _ => by decide⟩
  | zero => exact ⟨_, [], rfl, by rintro c ⟨⟩, fun _ => by decide⟩
  | width t =>
    obtain ⟨b, cs, hb, -⟩ := head_count hp.1
    exact ⟨b, cs, hb, fun c hc => not_align_of_mem_count hp.1 (hb ▸ List.mem_cons_of_mem b hc),
      fun _ => not_align_of_mem_count hp.1 (hb ▸ List.mem_cons_self)⟩
  | precision t =>
    refine ⟨_, _, rfl, fun c hc => ?_, fun _ => by decide⟩
    cases t with
    | none => exact absurd hc List.not_mem_nil
    | some t => exact not_align_of_mem_count (hp.2 t rfl) hc
  | locale => exact ⟨_, [], rfl, by rintro c ⟨⟩, fun _ => by decide⟩
  | type c =>
    obtain ⟨⟨q, hq, -⟩, -⟩ := hp
    exact ⟨c, [], rfl, by rintro c ⟨⟩, fun _ => ((Fmt.not_align c).2.2 (by rw [hq]; rfl)).1⟩

theorem rank_le (p : SpecPart) : p.rank ≤ 8 := by
  cases p <;> first | exact le_rfl | exact Nat.le_of_ble_eq_true rfl

theorem ne_fill_of_rank (h : 1 < p.rank) (f : Fill) (a : CodeUnit) : p ≠ .align (some f) a := by
  rintro rfl
  exact lt_irrefl 1 h

theorem render_ne_nil (hp : p.Allowed arg_type) : p.render ≠ [] := by
  cases p with
  | align fill a => exact List.append_ne_nil_of_right_ne_nil _ (List.cons_ne_nil a [])
  | width t =>
    obtain ⟨b, cs, hb, -⟩ := head_count hp.1
    exact fun h => List.cons_ne_nil b cs (hb.symm.trans h)
  | _ => exact List.cons_ne_nil _ _

/-- From the sign on no sign of an alignment occurs. -/
theorem not_align_of_valid {k : ℕ} (hk : 0 < k) (h : ValidFrom arg_type k ps) {c : CodeUnit}
    (hc : c ∈ ps.flatMap SpecPart.render) : parseAlign c = .none := by
  induction ps generalizing k with
  | nil => exact absurd hc List.not_mem_nil
  | cons p ps ih =>
    obtain ⟨hrank, hp, -, hps⟩ := h
    have h1 : 1 < p.rank := lt_of_le_of_lt hk hrank
    rw [List.flatMap_cons] at hc
    rcases List.mem_append.mp hc with hc | hc
    · obtain ⟨b, cs, hb, hcs, hbn⟩ := not_align_of_part hp (ne_fill_of_rank h1)
      rw [hb] at hc
      rcases List.mem_cons.mp hc with rfl | hc
      · exact hbn h1
      · exact hcs c hc
    · exact ih (by omega) hps hc

/-- The text behind a width begins with no digit and no brace but the closing one. -/
theorem head_of_valid {k : ℕ} (hk : 5 ≤ k) (h : ValidFrom arg_type k ps) (tail : List CodeUnit) :
    ∃ c cs, ps.flatMap SpecPart.render ++ ('}' : CodeUnit) :: tail = c :: cs ∧
      isDigit c = false ∧ c ≠ '{' ∧ (ps ≠ [] → c ≠ '}') := by
  cases ps with
  | nil => exact ⟨'}', tail, rfl, by decide, by decide, fun h => absurd rfl h⟩
  | cons p ps =>
    obtain ⟨hrank, hp, -, -⟩ := h
    have h5 : 5 < p.rank := lt_of_le_of_lt hk hrank
    cases p with
    | precision t => exact ⟨_, _, rfl, by decide, by decide, fun _ => by decide⟩
    | locale => exact ⟨_, _, rfl, by decide, by decide, fun _ => by decide⟩
    | type c =>
      obtain ⟨⟨q, hq, -⟩, -⟩ := hp
      obtain ⟨-, h1, h2, h3⟩ := (Fmt.not_align c).2.2 (by rw [hq]; rfl)
      exact ⟨c, _, rfl, h1, h2, fun _ => h3⟩
    | align fill a => exact absurd (show 5 < 1 from h5) (by decide)
    | sign c => exact absurd (show 5 < 2 from h5) (by decide)
    | hash => exact absurd h5 (by decide)
    | zero => exact absurd h5 (by decide)
    | width t => exact absurd (show 5 < 5 from h5) (by decide)

/-- In a list of parts each one ends where the next one begins. -/
theorem stops_of_valid (h : ValidFrom arg_type p.rank ps) (hp : p = .precision none → ps ≠ [])
    (tail : List CodeUnit) : p.Stops (ps.flatMap SpecPart.render ++ ('}' : CodeUnit) :: tail) := by
  have count : ∀ t : CountText, 5 ≤ p.rank →
      t.Stops (ps.flatMap SpecPart.render ++ ('}' : CodeUnit) :: tail) := by
    intro t hk
    obtain ⟨c, cs, heq, hd, -⟩ := head_of_valid hk h tail
    cases t with
    | digits ds =>
      rw [heq]
      intro d he
      exact Option.some.inj he ▸ hd
    | ref id => trivial
  cases p with
  | width t => exact count t (le_refl 5)
  | precision t =>
    cases t with
    | some t => exact count t (Nat.le_succ 5)
    | none =>
      obtain ⟨c, cs, heq, hd, hopen, hclose⟩ := head_of_valid (Nat.le_succ 5) h tail
      exact ⟨c, cs, heq, hclose (hp rfl), hd, hopen⟩
  | _ => trivial

theorem applyParts_cons_eq_ok : applyParts (p :: ps) r = .ok r' ↔
    ∃ s, p.apply r = .ok s ∧ applyParts ps s = .ok r' := by
  unfold applyParts
  rw [List.foldlM_cons]
  exact bind_eq_ok

/-- After the turn of a part the loop goes on, or ends behind the presentation type. -/
theorem next_turn_type (hp : p.state = none) :
    (p.turn tail l r).next arg_type = .ok (tail, r) := by
  unfold SpecPart.turn
  rw [hp]
  rfl

theorem next_turn {s : SpecState} (hp : p.state = some s) :
    (p.turn tail l r).next arg_type = parseLoop arg_type tail ⟨s, r.1, r.2⟩ := by
  unfold SpecPart.turn
  rw [hp]
  rfl

/-! ### What is accepted -/

theorem exists_of_next {c : CodeUnit} (hne : arg_type ≠ .none_type)
    (hc : specCase c = .default ∨ c = b)
    (h : specTurn arg_type c b rest l >>= Turn.next arg_type = .ok (('}' : CodeUnit) :: tail, r'))
    (ih : ∀ (begin : List CodeUnit) (l : SpecLoop), begin.length < (b :: rest).length →
      parseLoop arg_type begin l = .ok (('}' : CodeUnit) :: tail, r') →
      ∃ ps, ValidFrom arg_type l.current_state.ctorIdx ps ∧
        begin = ps.flatMap SpecPart.render ++ ('}' : CodeUnit) :: tail ∧
          applyParts ps (l.specs, l.ctx) = .ok r') :
    ∃ ps, ValidFrom arg_type l.current_state.ctorIdx ps ∧
      b :: rest = ps.flatMap SpecPart.render ++ ('}' : CodeUnit) :: tail ∧
        applyParts ps (l.specs, l.ctx) = .ok r' := by
  obtain ⟨t, ht, hnext⟩ := bind_eq_ok.mp h
  rcases exists_of_specTurn hne ht hc with ⟨-, rfl⟩ | ⟨p, q, s, hp, hrank, hstops, heq, happly, rfl⟩
  · obtain ⟨hq, rfl⟩ := Prod.mk.inj (Except.ok.inj hnext)
    exact ⟨[], trivial, hq, rfl⟩
  -- the parts behind `p`
  obtain ⟨ps, hps, hq, hr⟩ : ∃ ps, ValidFrom arg_type p.rank ps ∧
      q = ps.flatMap SpecPart.render ++ ('}' : CodeUnit) :: tail ∧ applyParts ps s = .ok r' := by
    cases hs : p.state with
    | none =>
      rw [next_turn_type hs] at hnext
      obtain ⟨hq, rfl⟩ := Prod.mk.inj (Except.ok.inj hnext)
      exact ⟨[], trivial, hq, rfl⟩
    | some st =>
      rw [next_turn hs] at hnext
      have hlt : q.length < (b :: rest).length := by
        rw [heq, List.length_append]
        have hpos := List.length_pos_iff.mpr (render_ne_nil hp)
        omega
      obtain ⟨ps, hps, hq, hr⟩ := ih q _ hlt hnext
      have hst : p.rank = st.ctorIdx := by rw [SpecPart.rank, hs]; rfl
      exact ⟨ps, hst ▸ hps, hq, hr⟩
  refine ⟨p :: ps, ⟨hrank, hp, ?_, hps⟩, ?_, applyParts_cons_eq_ok.mpr ⟨s, happly, hr⟩⟩
  · rintro rfl rfl
    obtain ⟨c, cs, hc, hclose, -⟩ := hstops
    exact hclose (List.cons.inj (hc.symm.trans hq)).1
  · rw [heq, hq, List.flatMap_cons, List.append_assoc]

theorem exists_of_parseLoop (hne : arg_type ≠ .none_type)
    (h : parseLoop arg_type begin l = .ok (('}' : CodeUnit) :: tail, r')) :
    ∃ ps, ValidFrom arg_type l.current_state.ctorIdx ps ∧
      begin = ps.flatMap SpecPart.render ++ ('}' : CodeUnit) :: tail ∧
        applyParts ps (l.specs, l.ctx) = .ok r' := by
  induction hn : begin.length using Nat.strongRecOn generalizing begin l with
  | _ n ih =>
    subst hn
    cases begin with
    | nil =>
      rw [parseLoop] at h
      exact absurd h (by rintro ⟨⟩)
    | cons b rest =>
      rw [parseLoop_cons] at h
      exact exists_of_next hne (.inr rfl) h fun begin l hlt h => ih _ hlt h rfl

/-! ### What is written -/

theorem specTurn_close {c : CodeUnit} (hc : specCase c = .default ∨ c = '}') :
    specTurn arg_type c '}' tail l = .ok (.ret (('}' : CodeUnit) :: tail) l) := by
  unfold specTurn
  rcases hc with hc | rfl
  · rw [hc]
    exact if_pos rfl
  · rw [(specCase_spec '}').2.2.2.2.2.2.mpr rfl]

theorem next_render (hp : 0 < p.rank) (hps : ValidFrom arg_type p.rank ps)
    (hr : applyParts ps r = .ok r')
    (ih : ∀ l : SpecLoop, 0 < l.current_state.ctorIdx →
      ValidFrom arg_type l.current_state.ctorIdx ps → applyParts ps (l.specs, l.ctx) = .ok r' →
      parseLoop arg_type begin l = .ok (('}' : CodeUnit) :: tail, r'))
    (hbegin : begin = ps.flatMap SpecPart.render ++ ('}' : CodeUnit) :: tail) :
    (p.turn begin l r).next arg_type = .ok (('}' : CodeUnit) :: tail, r') := by
  cases hs : p.state with
  | none =>
    -- nothing has a rank above the presentation type
    have h8 : p.rank = 8 := by rw [SpecPart.rank, hs]; rfl
    cases ps with
    | nil =>
      rw [next_turn_type hs, hbegin]
      exact Except.ok.inj hr ▸ rfl
    | cons q qs => exact absurd hps.1 (not_lt.mpr (h8 ▸ rank_le q))
  | some st =>
    have hst : p.rank = st.ctorIdx := by rw [SpecPart.rank, hs]; rfl
    rw [next_turn hs]
    exact ih ⟨st, r.1, r.2⟩ (hst ▸ hp) (hst ▸ hps) hr

theorem parseLoop_render (hl : 0 < l.current_state.ctorIdx)
    (h : ValidFrom arg_type l.current_state.ctorIdx ps)
    (hr : applyParts ps (l.specs, l.ctx) = .ok r') :
    parseLoop arg_type (ps.flatMap SpecPart.render ++ ('}' : CodeUnit) :: tail) l =
      .ok (('}' : CodeUnit) :: tail, r') := by
  induction ps generalizing l with
  | nil =>
    show parseLoop arg_type (('}' : CodeUnit) :: tail) l = _
    rw [parseLoop_cons, specTurn_close (.inr rfl)]
    exact Except.ok.inj hr ▸ rfl
  | cons p ps ih =>
    obtain ⟨hrank, hp, hpoint, hps⟩ := h
    obtain ⟨s, happly, hr⟩ := applyParts_cons_eq_ok.mp hr
    have hfill := ne_fill_of_rank (lt_of_le_of_lt hl hrank)
    obtain ⟨b, cs, hb, -⟩ := not_align_of_part hp hfill
    rw [List.flatMap_cons, List.append_assoc, hb, List.cons_append, parseLoop_cons,
      specTurn_render hp hrank (stops_of_valid hps hpoint tail) happly hfill (by rw [hb]; rfl)]
    exact next_render (Nat.zero_lt_of_lt hrank) hps hr (fun l hl h hr => ih hl h hr) rfl

theorem firstChar_cases (b : CodeUnit) (rest : List CodeUnit) :
    specCase (firstChar b rest) = .default ∨ firstChar b rest = b := by
  unfold firstChar
  cases rest with
  | nil => exact .inr rfl
  | cons c cs =>
    dsimp only
    split_ifs
    · exact .inr rfl
    · exact .inl (by decide)

/-- The first turn of a text of specifiers that does not begin with a fill. -/
theorem firstChar_render (hp : p.Allowed arg_type) (hfill : ∀ f a, p ≠ .align (some f) a)
    (hrank : 0 < p.rank) (hps : ValidFrom arg_type p.rank ps)
    (h : b :: rest = p.render ++ (ps.flatMap SpecPart.render ++ ('}' : CodeUnit) :: tail)) :
    firstChar b rest = b := by
  obtain ⟨b', cs, hb, hcs, -⟩ := not_align_of_part hp hfill
  rw [hb] at h
  obtain ⟨rfl, hrest⟩ := List.cons.inj h
  have hnext : ∀ c ∈ rest.head?, parseAlign c = .none := by
    intro c hc
    rw [hrest] at hc
    cases cs with
    | cons d ds => exact Option.some.inj hc ▸ hcs d List.mem_cons_self
    | nil =>
      cases hflat : ps.flatMap SpecPart.render with
      | nil =>
        rw [hflat] at hc
        exact Option.some.inj hc ▸ by decide
      | cons d ds =>
        rw [hflat] at hc
        exact Option.some.inj hc ▸ not_align_of_valid hrank hps (hflat ▸ List.mem_cons_self)
  unfold firstChar
  cases rest with
  | nil => rfl
  | cons c cs => exact if_pos (hnext c rfl)

/-- The first turn of a text that begins with a fill. -/
theorem specTurn_fill {f : Fill} {a : CodeUnit} {cs : List CodeUnit} {specs : DynamicSpecs}
    {ctx : ParseContext} (hp : (SpecPart.align (some f) a).Allowed arg_type)
    (hf : f.data = b :: cs) (h : rest = cs ++ a :: tail) :
    specTurn arg_type (firstChar b rest) b rest ⟨.start, specs, ctx⟩ =
      .ok (.brk tail ⟨.align, { specs with fill := f, align := parseAlign a }, ctx⟩) := by
  obtain ⟨ha, hdata⟩ := hp
  obtain ⟨b', cs', hf', hopen, hclose, hlen⟩ := hdata f rfl
  obtain ⟨rfl, rfl⟩ := List.cons.inj (hf.symm.trans hf')
  have hdefault : specCase (firstChar b rest) = .default := by
    unfold firstChar
    cases cs with
    | nil =>
      rw [h]
      show specCase (if parseAlign a = .none then b else 0) = _
      rw [if_neg ha]
      decide
    | cons d ds =>
      have hb : specCase b = .default := presentation_fill b (by rw [← hlen, hf]; simp)
      rw [h]
      show specCase (if parseAlign d = .none then b else 0) = _
      split_ifs
      · exact hb
      · decide
  unfold specTurn
  rw [hdefault]
  exact parseFill_render hf hopen hclose hlen ha rfl h

end Loop

/-- **The grammar of the specifiers.** For each type of argument `parse_format_specs` stops at a
closing brace exactly where the range up to it is a list of parts that are allowed for the type, in
their order, with a code point as the fill; and it then sets what the parts say. -/
theorem parse_specs_iff (arg_type : ArgType) (hne : arg_type ≠ .none_type)
    (begin tail : List CodeUnit) (specs specs' : DynamicSpecs) (ctx ctx' : ParseContext) :
    parseFormatSpecs begin specs ctx arg_type = .ok (('}' : CodeUnit) :: tail, specs', ctx') ↔
      ∃ parts, ValidFrom arg_type 0 parts ∧
        begin = parts.flatMap SpecPart.render ++ ('}' : CodeUnit) :: tail ∧
          applyParts parts (specs, ctx) = .ok (specs', ctx') := by
  constructor
  · intro h
    cases begin with
    | nil => exact absurd h (by rintro ⟨⟩)
    | cons b rest =>
      rw [parseFormatSpecs_cons] at h
      exact exists_of_next hne (firstChar_cases b rest) h fun begin l _ h =>
        exists_of_parseLoop hne h
  · rintro ⟨ps, hps, rfl, hr⟩
    cases ps with
    | nil =>
      show parseFormatSpecs (('}' : CodeUnit) :: tail) specs ctx arg_type = _
      rw [parseFormatSpecs_cons, specTurn_close (firstChar_cases '}' tail)]
      exact Except.ok.inj hr ▸ rfl
    | cons p ps =>
      obtain ⟨hrank, hp, hpoint, hps⟩ := hps
      obtain ⟨s, happly, hr⟩ := applyParts_cons_eq_ok.mp hr
      by_cases hfill : ∃ f a, p = .align (some f) a
      · obtain ⟨f, a, rfl⟩ := hfill
        obtain ⟨b, cs, hf, -⟩ := hp.2 f rfl
        have hflat : (SpecPart.align (some f) a :: ps).flatMap SpecPart.render ++
            ('}' : CodeUnit) :: tail =
              b :: (cs ++ a :: (ps.flatMap SpecPart.render ++ ('}' : CodeUnit) :: tail)) := by
          rw [List.flatMap_cons, SpecPart.render]
          show (f.data ++ [a]) ++ _ ++ _ = _
          rw [hf]
          simp only [List.append_assoc, List.cons_append, List.nil_append]
        obtain rfl := Except.ok.inj happly
        rw [hflat, parseFormatSpecs_cons, specTurn_fill hp hf rfl]
        exact parseLoop_render (l := ⟨.align, _, _⟩) Nat.one_pos hps hr
      · have hfill : ∀ f a, p ≠ .align (some f) a := fun f a h => hfill ⟨f, a, h⟩
        obtain ⟨b, cs, hb, -⟩ := not_align_of_part hp hfill
        have htext : b :: (cs ++ (ps.flatMap SpecPart.render ++ ('}' : CodeUnit) :: tail)) =
            p.render ++ (ps.flatMap SpecPart.render ++ ('}' : CodeUnit) :: tail) := by
          rw [hb]
          rfl
        rw [List.flatMap_cons, List.append_assoc, ← htext, parseFormatSpecs_cons,
          firstChar_render hp hfill hrank hps htext,
          specTurn_render (l := ⟨.start, specs, ctx⟩) hp hrank (stops_of_valid hps hpoint tail)
            happly hfill htext]
        exact next_render hrank hps hr (fun l hl h hr => parseLoop_render hl h hr) rfl

/-- The specifiers `*^+#010` of an integer: the zero is ignored, as there is an alignment. -/
theorem parse_specs_iff_hash :
    parseFormatSpecs [42, 94, 43, 35, 48, 49, 48, 125] {} {} .int_type =
      .ok ([125],
        { fill := .ofChar 42, align := .center, sign := .plus, alt := true, width := 10 }, {}) := by
  refine (parse_specs_iff .int_type (by decide) _ [] {} _ {} _).mpr
    ⟨[.align (some (.ofChar 42)) 94, .sign 43, .hash, .zero, .width (.digits [49, 48])],
      ⟨Nat.one_pos, ⟨by decide, ?_⟩, by rintro ⟨⟩, by decide, ⟨by decide, by decide⟩, by rintro ⟨⟩,
        by decide, rfl, by rintro ⟨⟩, by decide, rfl, by rintro ⟨⟩, by decide, ⟨?_, ?_⟩,
        by rintro ⟨⟩, trivial⟩, rfl, rfl⟩
  · rintro f hf
    obtain rfl := Option.some.inj hf
    exact ⟨42, [], rfl, by decide, by decide, rfl⟩
  · exact ⟨List.cons_ne_nil _ _, List.all_eq_true.mp rfl, by decide, by decide⟩
  · rintro c hc
    exact Option.some.inj hc ▸ by decide

end SelfStudy.Fmt
