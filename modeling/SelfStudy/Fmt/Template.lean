import SelfStudy.Fmt.ArgId

/-!
# Templates

A template says what a format string is for: texts, and fields with an argument id and perhaps
format specifiers. `render` writes it as a format string, with the braces of a text doubled;
`perform` is what is to be done with it, where the handler has to stop behind the specifiers. Parsing
what was rendered does just that, and nothing is accepted but what can be rendered.

A handler's text goes to an output: handing it over never fails, and pieces may be joined
(`LawfulText`).
-/

namespace SelfStudy.Fmt

/-- A text, or a field; `specs` is what stands behind the colon, if there is one. -/
inductive Segment
  | text (t : List CodeUnit)
  | field (id : ArgId) (specs : Option (List CodeUnit))
  deriving DecidableEq, Repr

/-- The text with its braces doubled. -/
def escape (t : List CodeUnit) : List CodeUnit :=
  t.flatMap fun c : CodeUnit => if c = '{' ∨ c = '}' then [c, c] else [c]

/-- What stands between the argument id and the closing brace. -/
def renderSpecs : Option (List CodeUnit) → List CodeUnit
  | none => []
  | some specs => ':' :: specs

def Segment.render : Segment → List CodeUnit
  | .text t => escape t
  | .field id specs => '{' :: (id.render ++ renderSpecs specs ++ [('}' : CodeUnit)])

def render (segments : List Segment) : List CodeUnit := segments.flatMap Segment.render

def Segment.Valid : Segment → Prop
  | .text _ => True
  | .field id _ => id.Valid

section Handlers

variable {σ : Type}

/-- Handing over a text never fails, and is the same in pieces. -/
structure Handler.LawfulText (h : Handler σ) where
  append : List CodeUnit → σ → σ
  on_text : ∀ t s, h.on_text t s = .ok (append t s)
  append_nil : ∀ s, append [] s = s
  append_append : ∀ t u s, append (t ++ u) s = append u (append t s)

theorem Handler.LawfulText.on_text_nil {h : Handler σ} (hl : h.LawfulText) (s : σ) :
    h.on_text [] s = .ok s := by
  rw [hl.on_text, hl.append_nil]

/-- The handler stops behind the specifiers, wherever they stand. -/
def Handler.Stops (h : Handler σ) (specs : List CodeUnit) : Prop :=
  ∀ id rest s n s', h.on_format_specs id (specs ++ ('}' : CodeUnit) :: rest) s = .ok (n, s') →
    n = specs.length

/-- The handler stops behind the specifiers of a field, wherever they stand. -/
def Segment.Stops (h : Handler σ) : Segment → Prop
  | .text _ => True
  | .field _ specs => ∀ t ∈ specs, h.Stops t

/-- What the handler is to do with a field; `on_replacement_field` and `on_format_specs` see the rest
of the format string. -/
def performField (h : Handler σ) (id : ArgId) (specs : Option (List CodeUnit))
    (rest : List CodeUnit) (s : σ) : Except String σ :=
  h.on_arg_id.answer id s >>= fun r =>
    match specs with
    | none => h.on_replacement_field r.1 ('}' :: rest) r.2
    | some specs => h.on_format_specs r.1 (specs ++ ('}' : CodeUnit) :: rest) r.2 >>= fun r =>
        if r.1 = specs.length then .ok r.2 else .error "unknown format specifier"

/-- What the handler is to do with the template. -/
def perform (h : Handler σ) : List Segment → σ → Except String σ
  | [], s => .ok s
  | .text t :: segments, s => h.on_text t s >>= perform h segments
  | .field id specs :: segments, s =>
    performField h id specs (render segments) s >>= perform h segments

variable {h : Handler σ} {s : σ} {rest : List CodeUnit}

theorem finishField_close (n : ℕ) : finishField h ('}' :: rest) n s =
    (h.on_replacement_field n ('}' :: rest) s).map fun s => (rest, s) := by
  rw [finishField, if_pos rfl]
  exact bind_ok _ _

theorem parseReplacementField_close : parseReplacementField h ('}' :: rest) s =
    h.on_arg_id.on_auto s >>= fun r => finishField h ('}' :: rest) r.1 r.2 := by
  rw [parseReplacementField, if_pos rfl]
  exact congrArg _ (funext fun r => (bind_ok _ _).trans (finishField_close r.1).symm)

theorem parseReplacementField_open : parseReplacementField h ('{' :: rest) s =
    h.on_text [('{' : CodeUnit)] s >>= fun s => .ok (rest, s) := by
  rw [parseReplacementField, if_neg (by decide), if_pos rfl]
  rfl

theorem parseReplacementField_id {c : CodeUnit} (hc : c ≠ '}') (ho : c ≠ '{') :
    parseReplacementField h (c :: rest) s =
      parseArgId h.on_arg_id c rest s >>= fun r => finishField h r.1 r.2.1 r.2.2 :=
  (if_neg hc).trans (if_neg ho)

theorem render_field (id : ArgId) (specs : Option (List CodeUnit)) (segments : List Segment) :
    render (.field id specs :: segments) =
      ('{' : CodeUnit) ::
        (id.render ++ renderSpecs specs ++ ('}' : CodeUnit) :: render segments) := by
  show ('{' : CodeUnit) :: (_ ++ [('}' : CodeUnit)]) ++ _ = _
  rw [List.cons_append, List.append_assoc]
  rfl

/-! ## Texts -/

/-- A text that is waiting may be handed over before reading on. -/
theorem parseShort_acc (hl : h.LawfulText) (acc l : List CodeUnit) (s : σ) :
    parseShort h acc l s = parseShort h [] l (hl.append acc s) := by
  induction hn : l.length using Nat.strongRecOn generalizing acc l s with
  | _ n ih =>
    subst hn
    cases l with
    | nil => rw [parseShort_nil, parseShort_nil, hl.on_text, hl.on_text, hl.append_nil]
    | cons c l =>
      by_cases ho : c = '{'
      · subst ho
        rw [parseShort_open, parseShort_open, hl.on_text, hl.on_text, hl.append_nil]
      by_cases hc : c = '}'
      · subst hc
        cases l with
        | nil => rw [parseShort_close_nil, parseShort_close_nil]
        | cons d l =>
          by_cases hd : d = '}'
          · subst hd
            rw [parseShort_close, parseShort_close, hl.on_text, hl.on_text, hl.append_append]
            rfl
          · rw [parseShort_close_other hd, parseShort_close_other hd]
      · rw [parseShort_other ho hc, parseShort_other ho hc, ih l.length (by simp) _ _ _ rfl,
          ih l.length (by simp) ([] ++ [c]) _ _ rfl, hl.append_append, List.nil_append]

/-- A text with its braces doubled is handed over as it was. -/
theorem parseShort_escape (hl : h.LawfulText) (t : List CodeUnit) (s : σ) :
    parseShort h [] (escape t ++ rest) s = parseShort h [] rest (hl.append t s) := by
  induction t generalizing s with
  | nil => rw [hl.append_nil]; rfl
  | cons c t ih =>
    have hcons : hl.append (c :: t) s = hl.append t (hl.append [c] s) := hl.append_append [c] t s
    rw [hcons, ← ih]
    by_cases ho : c = '{'
    · subst ho
      show parseShort h [] ('{' :: '{' :: (escape t ++ rest)) s = _
      rw [parseShort_open, hl.on_text, hl.append_nil]
      show (parseReplacementField h _ s >>= _ : Except String σ) = _
      rw [parseReplacementField_open, hl.on_text]
      rfl
    by_cases hc : c = '}'
    · subst hc
      show parseShort h [] ('}' :: '}' :: (escape t ++ rest)) s = _
      rw [parseShort_close, hl.on_text]
      rfl
    · have hesc : escape (c :: t) = c :: escape t := by
        unfold escape
        rw [List.flatMap_cons, if_neg (not_or.mpr ⟨ho, hc⟩)]
        rfl
      rw [hesc, List.cons_append, parseShort_other ho hc, List.nil_append, parseShort_acc hl]

/-! ## Fields -/

theorem finishField_specs {n id : ℕ} {specs tail : List CodeUnit} {s' : σ}
    (hf : h.on_format_specs id (specs ++ ('}' : CodeUnit) :: tail) s = .ok (n, s'))
    (hn : n = specs.length) :
    finishField h (':' :: (specs ++ ('}' : CodeUnit) :: tail)) id s = .ok (tail, s') := by
  rw [finishField, if_neg (by decide), if_pos rfl, hf, hn]
  simp only [bind, Except.bind, List.drop_left]
  exact if_neg fun hne => hne rfl

/-- A field is its argument id and what is behind it. -/
theorem parseReplacementField_append {id : ArgId} (hid : id.Valid) (specs : Option (List CodeUnit))
    (tail : List CodeUnit) (s : σ) :
    parseReplacementField h (id.render ++ renderSpecs specs ++ ('}' : CodeUnit) :: tail) s =
      h.on_arg_id.answer id s >>= fun r =>
        finishField h (renderSpecs specs ++ ('}' : CodeUnit) :: tail) r.1 r.2 := by
  by_cases hempty : id = .auto ∧ specs = none
  · obtain ⟨rfl, rfl⟩ := hempty
    exact parseReplacementField_close
  obtain ⟨d, tail', hd, hauto, htail⟩ : ∃ (d : CodeUnit) (tail' : List CodeUnit),
      (d = '}' ∨ d = ':') ∧ (id = .auto → d = ':') ∧
        renderSpecs specs ++ ('}' : CodeUnit) :: tail = d :: tail' := by
    cases specs with
    | none => exact ⟨'}', tail, .inl rfl, fun hid => absurd ⟨hid, rfl⟩ hempty, rfl⟩
    | some specs => exact ⟨':', specs ++ ('}' : CodeUnit) :: tail, .inr rfl, fun _ => rfl, rfl⟩
  obtain ⟨c, rest, hc⟩ : ∃ c rest, c :: rest = id.render ++ d :: tail' := by
    cases id.render with
    | nil => exact ⟨d, tail', rfl⟩
    | cons c cs => exact ⟨c, cs ++ d :: tail', rfl⟩
  obtain ⟨h1, h2⟩ := ne_of_render hid hauto hc
  rw [List.append_assoc, htail, ← hc, parseReplacementField_id h1 h2, parseArgId_render hid hd hc,
    bind_map]

/-- What a template asks for a field is done by parsing it. -/
theorem finishField_of_perform {id : ArgId} {specs : Option (List CodeUnit)} {tail : List CodeUnit}
    {s s' : σ} (hp : performField h id specs tail s = .ok s') :
    (h.on_arg_id.answer id s >>= fun r =>
      finishField h (renderSpecs specs ++ ('}' : CodeUnit) :: tail) r.1 r.2) = .ok (tail, s') := by
  obtain ⟨⟨n, s₁⟩, hid, hp⟩ := bind_eq_ok.mp hp
  refine bind_eq_ok.mpr ⟨(n, s₁), hid, ?_⟩
  cases specs with
  | none =>
    show finishField h ('}' :: tail) n s₁ = _
    rw [finishField_close]
    exact map_eq_ok.mpr ⟨s', hp, rfl⟩
  | some specs =>
    obtain ⟨⟨k, s₂⟩, hspecs, hp⟩ := bind_eq_ok.mp hp
    dsimp only at hp
    split_ifs at hp with hk
    exact Except.ok.inj hp ▸ finishField_specs hspecs hk

/-- A field is parsed as what it is, and parsing goes on behind it. -/
theorem parseReplacementField_render {id : ArgId} {specs : Option (List CodeUnit)}
    (hid : id.Valid) (hstops : (Segment.field id specs).Stops h) (tail : List CodeUnit) (s : σ) :
    parseReplacementField h (id.render ++ renderSpecs specs ++ ('}' : CodeUnit) :: tail) s =
      (performField h id specs tail s).map fun s => (tail, s) := by
  rw [parseReplacementField_append hid]
  unfold performField
  rw [map_bind]
  refine congrArg _ (funext fun r => ?_)
  cases specs with
  | none => exact finishField_close r.1
  | some specs =>
    show finishField h (':' :: (specs ++ ('}' : CodeUnit) :: tail)) r.1 r.2 = Except.map _ (_ >>= _)
    cases hf : h.on_format_specs r.1 (specs ++ ('}' : CodeUnit) :: tail) r.2 with
    | error e =>
      rw [finishField, if_neg (by decide), if_pos rfl, hf]
      rfl
    | ok r' =>
      have hn := hstops specs rfl _ _ _ _ _ hf
      rw [finishField_specs hf hn]
      show _ = (if _ then _ else _ : Except String σ).map _
      rw [if_pos hn]
      rfl

/-- A template is parsed as what it is. -/
theorem parseShort_render (hl : h.LawfulText) {segments : List Segment}
    (hv : ∀ g ∈ segments, g.Valid ∧ g.Stops h) (s : σ) :
    parseShort h [] (render segments) s = perform h segments s := by
  induction segments generalizing s with
  | nil =>
    show parseShort h [] [] s = .ok s
    rw [parseShort_nil, hl.on_text, hl.append_nil]
  | cons g segments ih =>
    have ih := ih fun g' hg' => hv g' (List.mem_cons_of_mem g hg')
    cases g with
    | text t =>
      show parseShort h [] (escape t ++ render segments) s = h.on_text t s >>= perform h segments
      rw [parseShort_escape hl, ih, hl.on_text]
      rfl
    | field id specs =>
      obtain ⟨hid, hstops⟩ := hv _ List.mem_cons_self
      have hfield := parseReplacementField_render hid hstops (render segments) s
      rw [render_field, parseShort_open, hl.on_text, hl.append_nil]
      show (parseReplacementField h _ s >>= _ : Except String σ) = _
      rw [hfield, perform]
      cases performField h id specs (render segments) s with
      | error e => rfl
      | ok s' => exact ih s'

/-! ## Nothing else is accepted -/

/-- What is behind the argument id of a field that is accepted. -/
theorem exists_of_finishField {begin tail : List CodeUnit} {id : ℕ} {s' : σ}
    (hf : finishField h begin id s = .ok (tail, s')) :
    begin = ('}' : CodeUnit) :: tail ∧ h.on_replacement_field id ('}' :: tail) s = .ok s' ∨
      ∃ specs, begin = (':' : CodeUnit) :: (specs ++ ('}' : CodeUnit) :: tail) ∧
        h.on_format_specs id (specs ++ ('}' : CodeUnit) :: tail) s = .ok (specs.length, s') := by
  cases begin with
  | nil => exact absurd hf (by rintro ⟨⟩)
  | cons c begin =>
    unfold finishField at hf
    dsimp only at hf
    split_ifs at hf with hclose hcolon
    · obtain ⟨s₁, hs, hf⟩ := bind_eq_ok.mp hf
      obtain ⟨rfl, rfl⟩ := Prod.mk.inj (Except.ok.inj hf)
      exact .inl ⟨by rw [hclose], hclose ▸ hs⟩
    · obtain ⟨⟨n, s₁⟩, hs, hf⟩ := bind_eq_ok.mp hf
      have hsplit := List.take_append_drop n begin
      dsimp only at hf
      cases hdrop : begin.drop n with
      | nil =>
        rw [hdrop] at hf
        exact absurd hf (by rintro ⟨⟩)
      | cons d q =>
        have hn : n < begin.length := by
          by_contra hle
          rw [List.drop_eq_nil_of_le (not_lt.mp hle)] at hdrop
          exact absurd hdrop (by rintro ⟨⟩)
        rw [hdrop] at hf hsplit
        dsimp only at hf
        split_ifs at hf with hd
        obtain ⟨rfl, rfl⟩ := Prod.mk.inj (Except.ok.inj hf)
        rw [not_not.mp hd] at hsplit
        refine .inr ⟨begin.take n, by rw [hcolon, hsplit], ?_⟩
        rw [hsplit, List.length_take, min_eq_left hn.le]
        exact hs

/-- What a field that is accepted looks like; a doubled brace is none. -/
theorem exists_of_parseReplacementField {p tail : List CodeUnit} {s' : σ}
    (hf : parseReplacementField h p s = .ok (tail, s')) :
    p = ('{' : CodeUnit) :: tail ∧ h.on_text [('{' : CodeUnit)] s = .ok s' ∨
      ∃ id specs, ArgId.Valid id ∧ p = id.render ++ renderSpecs specs ++ ('}' : CodeUnit) :: tail ∧
        performField h id specs tail s = .ok s' := by
  -- the field from its id on, when the id's answer is known
  have field : ∀ {id : ArgId} {begin : List CodeUnit} {r : ℕ × σ}, id.Valid →
      p = id.render ++ begin → h.on_arg_id.answer id s = .ok r →
      finishField h begin r.1 r.2 = .ok (tail, s') →
      ∃ id specs, ArgId.Valid id ∧ p = id.render ++ renderSpecs specs ++ ('}' : CodeUnit) :: tail ∧
        performField h id specs tail s = .ok s' := by
    intro id begin r hid hp hanswer hfinish
    rcases exists_of_finishField hfinish with ⟨rfl, hs⟩ | ⟨specs, rfl, hs⟩
    · refine ⟨id, none, hid, by rw [hp, renderSpecs, List.append_nil], ?_⟩
      exact bind_eq_ok.mpr ⟨r, hanswer, hs⟩
    · refine ⟨id, some specs, hid, ?_, bind_eq_ok.mpr ⟨r, hanswer, ?_⟩⟩
      · rw [hp, renderSpecs, List.append_assoc, List.cons_append]
      · exact bind_eq_ok.mpr ⟨_, hs, if_pos rfl⟩
  cases p with
  | nil => exact absurd hf (by rintro ⟨⟩)
  | cons c p =>
    by_cases hc : c = '}'
    · subst hc
      rw [parseReplacementField_close] at hf
      obtain ⟨r, hr, hf⟩ := bind_eq_ok.mp hf
      exact .inr (@field .auto _ _ trivial rfl hr hf)
    by_cases ho : c = '{'
    · subst ho
      rw [parseReplacementField_open] at hf
      obtain ⟨s₁, hs, hf⟩ := bind_eq_ok.mp hf
      obtain ⟨rfl, rfl⟩ := Prod.mk.inj (Except.ok.inj hf)
      exact .inl ⟨rfl, hs⟩
    · rw [parseReplacementField_id hc ho] at hf
      obtain ⟨⟨begin, r⟩, hid, hf⟩ := bind_eq_ok.mp hf
      obtain ⟨d, begin', hd, rfl⟩ : ∃ d begin', (d = ('}' : CodeUnit) ∨ d = (':' : CodeUnit)) ∧
          begin = d :: begin' := by
        rcases exists_of_finishField hf with ⟨hb, -⟩ | ⟨specs, hb, -⟩
        · exact ⟨_, _, .inl rfl, hb⟩
        · exact ⟨_, _, .inr rfl, hb⟩
      obtain ⟨id, hvalid, hp, hanswer⟩ := exists_of_parseArgId hd hid
      exact .inr (field hvalid hp hanswer hf)

/-- What is accepted is a rendered template. -/
theorem exists_of_parseShort (hl : h.LawfulText) {l : List CodeUnit} {s s' : σ}
    (hp : parseShort h [] l s = .ok s') :
    ∃ segments, (∀ g ∈ segments, Segment.Valid g) ∧ render segments = l ∧
      perform h segments s = .ok s' := by
  induction hn : l.length using Nat.strongRecOn generalizing l s with
  | _ n ih =>
    subst hn
    -- one code unit of text in front of a template
    have text : ∀ {c : CodeUnit} {l' : List CodeUnit}, l'.length < l.length →
        l = escape [c] ++ l' → parseShort h [] l' (hl.append [c] s) = .ok s' →
        ∃ segments, (∀ g ∈ segments, Segment.Valid g) ∧ render segments = l ∧
          perform h segments s = .ok s' := by
      intro c l' hlt heq hp
      obtain ⟨segments, hv, hr, hperform⟩ := ih _ hlt hp rfl
      refine ⟨.text [c] :: segments, List.forall_mem_cons.mpr ⟨trivial, hv⟩, ?_, ?_⟩
      · rw [heq, ← hr]
        rfl
      · rw [perform, hl.on_text]
        exact hperform
    cases l with
    | nil =>
      rw [parseShort_nil] at hp
      exact ⟨[], by rintro g ⟨⟩, rfl, (hl.on_text_nil s).symm.trans hp⟩
    | cons c l =>
      by_cases ho : c = '{'
      · subst ho
        rw [parseShort_open, hl.on_text_nil] at hp
        change (parseReplacementField h l s >>= fun r => parseShort h [] r.1 r.2) = .ok s' at hp
        obtain ⟨⟨tail, s₁⟩, hfield, hrest⟩ := bind_eq_ok.mp hp
        have hle := (parseReplacementField_suffix hfield).length_le
        have hlt : tail.length < (('{' : CodeUnit) :: l).length := Nat.lt_succ_of_le hle
        rcases exists_of_parseReplacementField hfield with ⟨rfl, hs⟩ | ⟨id, specs, hid, rfl, hs⟩
        · obtain rfl := Except.ok.inj ((hl.on_text _ s).symm.trans hs)
          exact text hlt rfl hrest
        · obtain ⟨segments, hv, hr, hperform⟩ := ih _ hlt hrest rfl
          refine ⟨.field id specs :: segments, List.forall_mem_cons.mpr ⟨hid, hv⟩, ?_, ?_⟩
          · rw [render_field, hr]
          · rw [perform, hr, hs]
            exact hperform
      by_cases hc : c = '}'
      · subst hc
        cases l with
        | nil =>
          rw [parseShort_close_nil] at hp
          exact absurd hp (by rintro ⟨⟩)
        | cons d l =>
          by_cases hd : d = '}'
          · subst hd
            rw [parseShort_close, hl.on_text] at hp
            exact text (by simp only [List.length_cons]; omega) rfl hp
          · rw [parseShort_close_other hd] at hp
            exact absurd hp (by rintro ⟨⟩)
      · have hesc : escape [c] = [c] := by
          unfold escape
          rw [List.flatMap_cons, if_neg (not_or.mpr ⟨ho, hc⟩)]
          rfl
        rw [parseShort_other ho hc, parseShort_acc hl] at hp
        exact text (Nat.lt_succ_self _) (by rw [hesc]; rfl) hp

/-- What a template asks for is done by parsing it. -/
theorem parseShort_of_perform (hl : h.LawfulText) {segments : List Segment} {s s' : σ}
    (hv : ∀ g ∈ segments, Segment.Valid g) (hp : perform h segments s = .ok s') :
    parseShort h [] (render segments) s = .ok s' := by
  induction segments generalizing s with
  | nil =>
    show parseShort h [] [] s = .ok s'
    rw [parseShort_nil, hl.on_text_nil]
    exact hp
  | cons g segments ih =>
    obtain ⟨hg, hv'⟩ := List.forall_mem_cons.mp hv
    rw [perform.eq_def] at hp
    cases g with
    | text t =>
      obtain ⟨s₁, hs, hp⟩ := bind_eq_ok.mp hp
      obtain rfl := Except.ok.inj ((hl.on_text t s).symm.trans hs)
      show parseShort h [] (escape t ++ render segments) s = _
      rw [parseShort_escape hl]
      exact ih hv' hp
    | field id specs =>
      obtain ⟨s₁, hs, hp⟩ := bind_eq_ok.mp hp
      rw [render_field, parseShort_open, hl.on_text_nil]
      show (parseReplacementField h _ s >>= _ : Except String σ) = _
      rw [parseReplacementField_append hg, finishField_of_perform hs]
      exact ih hv' hp

end Handlers

/-- **Round trip.** A handler whose text goes to an output is led through a template as it was
written, each text with its braces doubled and each field with its argument id and its
specifiers: parsing the rendered template does what the template says. -/
theorem parse_render {σ : Type} (h : Handler σ) (hl : h.LawfulText) (segments : List Segment)
    (hv : ∀ g ∈ segments, g.Valid ∧ g.Stops h) (s : σ) :
    parseFormatString h (render segments) s = perform h segments s := by
  rw [← parseShort_render hl hv s, parseFormatString_eq hl.on_text_nil]

def placeholderLawful : placeholder.LawfulText :=
  ⟨fun t s => s ++ t, fun _ _ => rfl, List.append_nil, fun _ _ _ => (List.append_assoc ..).symm⟩

/-- The template of `{{x}}{12}{:d}`. -/
theorem parse_render_fields : parseFormatString placeholder
    (render [.text [123, 120, 125], .field (.index [49, 50]) none, .field .auto (some [100])]) [] =
      .ok [123, 120, 125, 63, 63] := by
  refine (parse_render placeholder placeholderLawful _ ?_ []).trans rfl
  simp only [List.forall_mem_cons]
  refine ⟨⟨trivial, trivial⟩, ⟨⟨49, [50], rfl, List.all_eq_true.mp rfl, by decide⟩, by rintro t ⟨⟩⟩,
    ⟨trivial, ?_⟩, by rintro g ⟨⟩⟩
  rintro t ht id rest s n s' hok
  obtain rfl := Option.some.inj ht
  have hn := (Prod.mk.inj (Except.ok.inj hok)).1
  rw [← hn]
  rfl

/-- **What is accepted.** For such a handler a format string is accepted exactly if it is a rendered
template that the handler can perform, and then parsing it is performing the template: unmatched
braces, fields without their end and malformed argument ids are all refused. -/
theorem parse_accepts_iff {σ : Type} (h : Handler σ) (hl : h.LawfulText)
    (format_str : List CodeUnit) (s s' : σ) :
    parseFormatString h format_str s = .ok s' ↔
      ∃ segments, (∀ g ∈ segments, Segment.Valid g) ∧ render segments = format_str ∧
        perform h segments s = .ok s' := by
  rw [parseFormatString_eq hl.on_text_nil]
  refine ⟨exists_of_parseShort hl, ?_⟩
  rintro ⟨segments, hv, rfl, hp⟩
  exact parseShort_of_perform hl hv hp

/-- `x{}` is a rendered template, and `x}` is none. -/
theorem parse_accepts_iff_unmatched :
    (∃ segments, (∀ g ∈ segments, Segment.Valid g) ∧ render segments = [120, 123, 125] ∧
      perform placeholder segments [] = .ok [120, 63]) ∧
    ¬ ∃ s' segments, (∀ g ∈ segments, Segment.Valid g) ∧ render segments = [120, 125] ∧
      perform placeholder segments [] = .ok s' := by
  refine ⟨(parse_accepts_iff placeholder placeholderLawful _ _ _).mp (by decide +kernel), ?_⟩
  rintro ⟨s', h⟩
  have hparse := (parse_accepts_iff placeholder placeholderLawful _ _ _).mpr h
  have herror : parseFormatString placeholder [120, 125] [] =
    .error "unmatched '\x7d' in format string" := by decide +kernel
  rw [herror] at hparse
  cases hparse

end SelfStudy.Fmt
