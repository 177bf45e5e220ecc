import SelfStudy.Fmt.Formatter
import SelfStudy.Lib.Refines

/-!
# The compile-time check of a format string

`format_string_checker` and the handler of `vformat_to` parse the same format string, the first one
with the types of the arguments, the second one with their values. Whatever the check lets pass, the
formatting does not reject: not for its syntax, nor for the id of a field, a specifier or the way
arguments are counted. Only what depends on a value can still fail, and the widths and precisions
whose arguments were not looked up.
-/

namespace SelfStudy.Fmt

open Lib

/-! ## Without the types -/

/-- The context at run time. -/
def ParseContext.forget (ctx : ParseContext) : ParseContext := { ctx with types := none }

/-- An index that was looked up in the types. -/
def ArgRef.Known (known : Option (List ArgType)) : ArgRef → Prop
  | .index n => ∀ types ∈ known, n < types.length
  | _ => True

/-- The context of the check, and the one at run time. -/
def ContextRel (known : Option (List ArgType)) (ctx ctx' : ParseContext) : Prop :=
  ctx.types = known ∧ ctx' = ctx.forget

section Forget

variable {known : Option (List ArgType)} {ctx ctx' : ParseContext}

theorem doCheckArgId_refines (h : ContextRel known ctx ctx') (id : ℕ) :
    Strict (fun _ _ => ∀ types ∈ known, id < types.length) (ctx.doCheckArgId id)
      (ctx'.doCheckArgId id) := by
  obtain ⟨ht, rfl⟩ := h
  rw [ParseContext.doCheckArgId, ht]
  cases known with
  | none => exact .ok nofun
  | some types =>
    dsimp only
    split_ifs with hlen
    · exact .of_error _
    · refine .ok fun _ h => ?_
      obtain rfl := Option.some.inj h
      exact not_le.mp hlen

theorem nextArgId_refines (h : ContextRel known ctx ctx') :
    Strict (fun a b => (∀ types ∈ known, a.1 < types.length) ∧ a.2.types = known ∧
      b = (a.1, a.2.forget)) ctx.nextArgId ctx'.nextArgId := by
  obtain ⟨ht, rfl⟩ := h
  unfold ParseContext.nextArgId
  show Strict _ _ (if ctx.next_arg_id < 0 then _ else _)
  split_ifs with hneg
  · exact .of_error _
  · exact (doCheckArgId_refines ⟨ht, rfl⟩ _).andThen fun _ _ hlen => .ok ⟨hlen, ht, rfl⟩

theorem checkArgId_refines (h : ContextRel known ctx ctx') (id : ℕ) :
    Strict (fun a b => (∀ types ∈ known, id < types.length) ∧ ContextRel known a b)
      (ctx.checkArgId id) (ctx'.checkArgId id) := by
  obtain ⟨ht, rfl⟩ := h
  unfold ParseContext.checkArgId
  show Strict _ _ (if ctx.next_arg_id > 0 then _ else _)
  split_ifs with hpos
  · exact .of_error _
  · exact (doCheckArgId_refines ⟨ht, rfl⟩ _).andThen fun _ _ hlen => .ok ⟨hlen, ht, rfl⟩

/-- At run time no type is asked for. -/
theorem checkDynamicSpec_refines (h : ContextRel known ctx ctx') (id : ℕ) :
    Strict (fun _ _ => True) (ctx.checkDynamicSpec id)
      (ctx'.checkDynamicSpec id) := by
  obtain ⟨-, rfl⟩ := h
  exact fun _ _ => .inl ⟨(), rfl, trivial⟩

/-- An answer of `dynamic_spec_id_handler`. -/
def RefRel (known : Option (List ArgType)) (a b : ArgRef × ParseContext) : Prop :=
  a.1.Known known ∧ a.2.types = known ∧ b = (a.1, a.2.forget)

theorem dynamicSpec_auto (h : ContextRel known ctx ctx') : Strict (RefRel known)
    (dynamicSpecIdHandler.on_auto ctx) (dynamicSpecIdHandler.on_auto ctx') := by
  refine (nextArgId_refines h).andThen ?_
  rintro ⟨id, c⟩ _ ⟨hlen, ht, rfl⟩
  exact (checkDynamicSpec_refines ⟨ht, rfl⟩ id).andThen fun _ _ _ => .ok ⟨hlen, ht, rfl⟩

theorem dynamicSpec_index (h : ContextRel known ctx ctx') (id : ℕ) :
    Strict (RefRel known)
      (dynamicSpecIdHandler.on_index id ctx) (dynamicSpecIdHandler.on_index id ctx') := by
  refine (checkArgId_refines h id).andThen ?_
  rintro c _ ⟨hlen, ht, rfl⟩
  exact (checkDynamicSpec_refines ⟨ht, rfl⟩ id).andThen fun _ _ _ => .ok ⟨hlen, ht, rfl⟩

theorem dynamicSpec_name (h : ContextRel known ctx ctx') (s : List CodeUnit) :
    Strict (RefRel known)
      (dynamicSpecIdHandler.on_name s ctx) (dynamicSpecIdHandler.on_name s ctx') := by
  obtain ⟨ht, rfl⟩ := h
  exact .ok ⟨trivial, ht, rfl⟩

end Forget

/-! ## Argument ids and counts -/

/-- Two handlers that answer alike parse alike. -/
theorem parseArgId_refines {σ τ β : Type} {Q : β × σ → β × τ → Prop}
    {g : IdHandler σ β} {g' : IdHandler τ β} {s : σ} {t : τ}
    (hauto : Strict Q (g.on_auto s) (g'.on_auto t))
    (hindex : ∀ n, Strict Q (g.on_index n s) (g'.on_index n t))
    (hname : ∀ x, Strict Q (g.on_name x s) (g'.on_name x t)) (c : CodeUnit)
    (rest : List CodeUnit) :
    Strict (fun a b => ∃ q, b = (a.1, q) ∧ Q a.2 q) (parseArgId g c rest s)
      (parseArgId g' c rest t) := by
  unfold parseArgId
  split_ifs with hc
  · unfold doParseArgId
    split_ifs with hd hn
    · cases (parseIndex c rest).2 with
      | nil => exact .of_error _
      | cons d begin =>
        dsimp only
        split_ifs
        · exact .of_error _
        · exact (hindex _).map (fun _ _ => id) fun a b hq => ⟨b, rfl, hq⟩
    · exact (hname _).map (fun _ _ => id) fun a b hq => ⟨b, rfl, hq⟩
    · exact .of_error _
  · exact hauto.map (fun _ _ => id) fun a b hq => ⟨b, rfl, hq⟩

section Counts

variable {known : Option (List ArgType)} {ctx ctx' : ParseContext} {ref : ArgRef}

/-- A count that was parsed, at the beginning of `input`. -/
def CountRel (known : Option (List ArgType)) (input : List CodeUnit)
    (a b : List CodeUnit × ℤ × ArgRef × ParseContext) : Prop :=
  a.1 <:+ input ∧ a.2.2.1.Known known ∧ a.2.2.2.types = known ∧
    b = (a.1, a.2.1, a.2.2.1, a.2.2.2.forget)

theorem parseDynamicSpec_refines (h : ContextRel known ctx ctx') (href : ref.Known known)
    (c : CodeUnit) (rest : List CodeUnit) (value : ℤ) :
    Strict (CountRel known (c :: rest)) (parseDynamicSpec c rest value ref ctx)
      (parseDynamicSpec c rest value ref ctx') := by
  obtain ⟨ht, rfl⟩ := h
  have h : ContextRel known ctx ctx.forget := ⟨ht, rfl⟩
  unfold parseDynamicSpec
  split_ifs with hd ho
  · dsimp only
    split_ifs
    · exact .ok ⟨parseNonnegativeInt_suffix _ _, href, ht, rfl⟩
    · exact .of_error _
  · cases rest with
    | nil => exact .of_error _
    | cons d rest =>
      refine (parseArgId_refines (dynamicSpec_auto h) (dynamicSpec_index h) (dynamicSpec_name h)
        d rest).given.andThen ?_
      rintro ⟨begin, r, c₁⟩ _ ⟨hid, q, rfl, hr, hc, rfl⟩
      have hsuffix := (parseArgId_suffix hid).trans (List.suffix_cons c _)
      cases begin with
      | nil => exact .of_error _
      | cons e begin =>
        dsimp only
        split_ifs
        · exact .ok ⟨(List.suffix_cons e begin).trans hsuffix, hr, hc, rfl⟩
        · exact .of_error _
  · exact .ok ⟨List.suffix_rfl, href, ht, rfl⟩

theorem parsePrecision_refines (h : ContextRel known ctx ctx') (href : ref.Known known)
    (begin : List CodeUnit) (value : ℤ) :
    Strict (CountRel known begin) (parsePrecision begin value ref ctx)
      (parsePrecision begin value ref ctx') := by
  cases begin with
  | nil => exact .of_error _
  | cons c rest =>
    unfold parsePrecision
    dsimp only
    split_ifs
    · exact .of_error _
    · exact parseDynamicSpec_refines h href c rest value

end Counts

/-! ## Specifiers -/

section Specs

variable {known : Option (List ArgType)} {l l' : SpecLoop}

/-- The loop of the check, and the one at run time. -/
def LoopRel (known : Option (List ArgType)) (l l' : SpecLoop) : Prop :=
  l.ctx.types = known ∧ l.specs.width_ref.Known known ∧ l.specs.precision_ref.Known known ∧
    l' = { l with ctx := l.ctx.forget }

/-- A turn of the check at `input`, and the one at run time. -/
inductive TurnRel (known : Option (List ArgType)) (input : List CodeUnit) : Turn → Turn → Prop
  | ret {begin : List CodeUnit} {l l' : SpecLoop} : begin <:+ input → LoopRel known l l' →
    TurnRel known input (.ret begin l) (.ret begin l')
  | brk {begin : List CodeUnit} {l l' : SpecLoop} : begin <:+ input → LoopRel known l l' →
    TurnRel known input (.brk begin l) (.brk begin l')

theorem enterState_refines (h : LoopRel known l l') (s : SpecState) (valid : Bool) :
    Strict (LoopRel known) (l.enterState s valid) (l'.enterState s valid) := by
  obtain ⟨ht, hw, hp, rfl⟩ := h
  unfold SpecLoop.enterState
  dsimp only
  split_ifs
  · exact .of_error _
  · exact .ok ⟨ht, hw, hp, rfl⟩

theorem parsePresentationType_refines (h : LoopRel known l l') (arg_type : ArgType)
    (c b : CodeUnit) (rest : List CodeUnit) (p : Pres × ℕ × Bool) :
    Strict (TurnRel known (b :: rest))
      (parsePresentationType arg_type c b rest l p)
      (parsePresentationType arg_type c b rest l' p) := by
  obtain ⟨ht, hw, hp, rfl⟩ := h
  unfold parsePresentationType
  dsimp only
  split_ifs
  all_goals first
    | exact .of_error _
    | exact .ok (.ret List.suffix_rfl ⟨ht, hw, hp, rfl⟩)
    | exact .ok (.ret (List.suffix_cons b rest) ⟨ht, hw, hp, rfl⟩)

theorem parseFill_refines (h : LoopRel known l l') (b : CodeUnit) (rest : List CodeUnit) :
    Strict (TurnRel known (b :: rest)) (parseFill b rest l)
      (parseFill b rest l') := by
  unfold parseFill
  by_cases hb : b = '}'
  · rw [if_pos hb, if_pos hb]
    exact .ok (.ret List.suffix_rfl h)
  · rw [if_neg hb, if_neg hb]
    have hsuffix := List.drop_suffix (codePointLength b) (b :: rest)
    cases hdrop : (b :: rest).drop (codePointLength b) with
    | nil => exact .of_error _
    | cons a begin =>
      rw [hdrop] at hsuffix
      dsimp only
      split_ifs
      · exact .of_error _
      · refine (enterState_refines h _ _).andThen ?_
        rintro l l' ⟨ht, hw, hp, rfl⟩
        exact .ok (.brk ((List.suffix_cons a begin).trans hsuffix) ⟨ht, hw, hp, rfl⟩)

/-- One turn, without the types. -/
theorem specTurn_refines (h : LoopRel known l l') (arg_type : ArgType) (c b : CodeUnit)
    (rest : List CodeUnit) :
    Strict (TurnRel known (b :: rest)) (specTurn arg_type c b rest l)
      (specTurn arg_type c b rest l') := by
  unfold specTurn
  cases specCase c with
  | align =>
    refine (enterState_refines h _ _).andThen ?_
    rintro l l' ⟨ht, hw, hp, rfl⟩
    exact .ok (.brk (List.suffix_cons b rest) ⟨ht, hw, hp, rfl⟩)
  | sign =>
    dsimp only
    split_ifs
    · exact .ok (.ret List.suffix_rfl h)
    · refine (enterState_refines h _ _).andThen ?_
      rintro l l' ⟨ht, hw, hp, rfl⟩
      exact .ok (.brk (List.suffix_cons b rest) ⟨ht, hw, hp, rfl⟩)
  | hash =>
    dsimp only
    split_ifs
    · exact .ok (.ret List.suffix_rfl h)
    · refine (enterState_refines h _ _).andThen ?_
      rintro l l' ⟨ht, hw, hp, rfl⟩
      exact .ok (.brk (List.suffix_cons b rest) ⟨ht, hw, hp, rfl⟩)
  | zero =>
    refine (enterState_refines h _ _).andThen ?_
    rintro l l' ⟨ht, hw, hp, rfl⟩
    dsimp only
    split_ifs
    all_goals first
      | exact .of_error _
      | exact .ok (.ret List.suffix_rfl ⟨ht, hw, hp, rfl⟩)
      | exact .ok (.brk (List.suffix_cons b rest) ⟨ht, hw, hp, rfl⟩)
  | width =>
    refine (enterState_refines h _ _).andThen ?_
    rintro l l' ⟨ht, hw, hp, rfl⟩
    refine (parseDynamicSpec_refines ⟨ht, rfl⟩ hw b rest _).andThen ?_
    rintro ⟨begin, value, ref, ctx⟩ _ ⟨hsuffix, hr, hc, rfl⟩
    exact .ok (.brk hsuffix ⟨hc, hr, hp, rfl⟩)
  | precision =>
    dsimp only
    split_ifs
    · exact .ok (.ret List.suffix_rfl h)
    · refine (enterState_refines h _ _).andThen ?_
      rintro l l' ⟨ht, hw, hp, rfl⟩
      refine (parsePrecision_refines ⟨ht, rfl⟩ hp rest _).andThen ?_
      rintro ⟨begin, value, ref, ctx⟩ _ ⟨hsuffix, hr, hc, rfl⟩
      exact .ok (.brk (hsuffix.trans (List.suffix_cons b rest)) ⟨hc, hw, hr, rfl⟩)
  | locale =>
    dsimp only
    split_ifs
    · exact .ok (.ret List.suffix_rfl h)
    · refine (enterState_refines h _ _).andThen ?_
      rintro l l' ⟨ht, hw, hp, rfl⟩
      exact .ok (.brk (List.suffix_cons b rest) ⟨ht, hw, hp, rfl⟩)
  | type p => exact parsePresentationType_refines h arg_type c b rest p
  | close => exact .ok (.ret List.suffix_rfl h)
  | default => exact parseFill_refines h b rest

/-- Specifiers that were parsed, at the beginning of `input`. -/
def SpecsRel (known : Option (List ArgType)) (input : List CodeUnit)
    (a b : List CodeUnit × DynamicSpecs × ParseContext) : Prop :=
  a.1 <:+ input ∧ a.2.1.width_ref.Known known ∧ a.2.1.precision_ref.Known known ∧
    a.2.2.types = known ∧ b = (a.1, a.2.1, a.2.2.forget)

theorem SpecsRel.longer {input input' : List CodeUnit}
    {a b : List CodeUnit × DynamicSpecs × ParseContext} (h : input <:+ input')
    (hr : SpecsRel known input a b) : SpecsRel known input' a b := ⟨hr.1.trans h, hr.2⟩

theorem parseLoop_refines (arg_type : ArgType) (begin : List CodeUnit) (h : LoopRel known l l') :
    Strict (SpecsRel known begin) (parseLoop arg_type begin l)
      (parseLoop arg_type begin l') := by
  induction hlen : begin.length using Nat.strong_induction_on generalizing begin l l' with
  | _ n ih =>
    cases begin with
    | nil =>
      obtain ⟨ht, hw, hp, rfl⟩ := h
      rw [parseLoop, parseLoop]
      exact .ok ⟨List.suffix_rfl, hw, hp, ht, rfl⟩
    | cons b rest =>
      rw [parseLoop_cons, parseLoop_cons]
      refine (specTurn_refines h arg_type b b rest).given.andThen ?_
      rintro t t' ⟨hturn, hrel⟩
      cases hrel with
      | ret hsuffix h =>
        obtain ⟨ht, hw, hp, rfl⟩ := h
        exact .ok ⟨hsuffix, hw, hp, ht, rfl⟩
      | brk hsuffix h =>
        have hle := specTurn_length hturn
        rw [List.length_cons] at hlen
        exact (ih _ (by omega) _ h rfl).imp (fun _ _ => id) fun _ _ => .longer hsuffix

/-- **The specifiers, without the types.** -/
theorem parseFormatSpecs_refines {ctx ctx' : ParseContext} (h : ContextRel known ctx ctx')
    (arg_type : ArgType) (begin : List CodeUnit) :
    Strict (SpecsRel known begin) (parseFormatSpecs begin {} ctx arg_type)
      (parseFormatSpecs begin {} ctx' arg_type) := by
  obtain ⟨ht, rfl⟩ := h
  cases begin with
  | nil => exact .ok ⟨List.suffix_rfl, trivial, trivial, ht, rfl⟩
  | cons b rest =>
    rw [parseFormatSpecs_cons, parseFormatSpecs_cons]
    have h : LoopRel known ⟨.start, {}, ctx⟩ ⟨.start, {}, ctx.forget⟩ :=
      ⟨ht, trivial, trivial, rfl⟩
    refine (specTurn_refines h arg_type _ b rest).andThen ?_
    rintro t t' hrel
    cases hrel with
    | ret hsuffix h =>
      obtain ⟨ht, hw, hp, rfl⟩ := h
      exact .ok ⟨hsuffix, hw, hp, ht, rfl⟩
    | brk hsuffix h =>
      exact (parseLoop_refines arg_type _ h).imp (fun _ _ => id) fun _ _ => .longer hsuffix

end Specs

/-! ## Handlers -/

/-- Every call of the handler `g` refines the call of `h`; `K` is what the ids that `h` hands out
satisfy, and `E` what may go wrong in a field, by the state of `h` behind it. -/
structure HandlerRefines {σ τ : Type} (E : σ → String → Prop) (K : ℕ → Prop) (R : σ → τ → Prop)
    (h : Handler σ) (g : Handler τ) : Prop where
  text : ∀ {s t} (x : List CodeUnit), R s t → Strict R (h.on_text x s) (g.on_text x t)
  auto : ∀ {s t}, R s t → Strict (fun a b => K a.1 ∧ ∃ t, b = (a.1, t) ∧ R a.2 t)
    (h.on_arg_id.on_auto s) (g.on_arg_id.on_auto t)
  index : ∀ {s t} (n : ℕ), R s t → Strict (fun a b => K a.1 ∧ ∃ t, b = (a.1, t) ∧ R a.2 t)
    (h.on_arg_id.on_index n s) (g.on_arg_id.on_index n t)
  name : ∀ {s t} (x : List CodeUnit), R s t →
    Strict (fun a b => K a.1 ∧ ∃ t, b = (a.1, t) ∧ R a.2 t)
      (h.on_arg_id.on_name x s) (g.on_arg_id.on_name x t)
  field : ∀ {s t} {id : ℕ} (rest : List CodeUnit), K id → R s t →
    Refines E R (h.on_replacement_field id (('}' : CodeUnit) :: rest) s)
      (g.on_replacement_field id (('}' : CodeUnit) :: rest) t)
  specs : ∀ {s t} {id : ℕ} (rest : List CodeUnit), K id → R s t →
    Refines (fun a => E a.2) (fun a b => ∃ t, b = (a.1, t) ∧ R a.2 t)
      (finishField h ((':' : CodeUnit) :: rest) id s)
      (finishField g ((':' : CodeUnit) :: rest) id t)

section Handlers

variable {σ τ : Type} {E : σ → String → Prop} {K : ℕ → Prop} {R : σ → τ → Prop} {h : Handler σ}
  {g : Handler τ} {s : σ} {t : τ}

/-- Behind an empty field. -/
theorem HandlerRefines.close (hg : HandlerRefines E K R h g) {id : ℕ} (hk : K id) (hr : R s t)
    (rest : List CodeUnit) :
    Refines (fun a => E a.2) (fun a b => ∃ t, b = (a.1, t) ∧ R a.2 t)
      (h.on_replacement_field id (('}' : CodeUnit) :: rest) s >>= fun s => pure (rest, s))
      (g.on_replacement_field id (('}' : CodeUnit) :: rest) t >>= fun t => pure (rest, t)) := by
  refine (hg.field rest hk hr).bind (fun a c e hc he => ?_) fun s' t' hr' => .ok ⟨t', rfl, hr'⟩
  obtain rfl := Except.ok.inj hc
  exact he

theorem finishField_refines (hg : HandlerRefines E K R h g) {id : ℕ} (hk : K id) (hr : R s t)
    (begin : List CodeUnit) :
    Refines (fun a => E a.2) (fun a b => ∃ t, b = (a.1, t) ∧ R a.2 t) (finishField h begin id s)
      (finishField g begin id t) := by
  cases begin with
  | nil => exact .of_error _
  | cons c rest =>
    by_cases hclose : c = '}'
    · subst hclose
      exact hg.close hk hr rest
    by_cases hcolon : c = ':'
    · subst hcolon
      exact hg.specs rest hk hr
    · rw [finishField]
      dsimp only
      rw [if_neg hclose, if_neg hcolon]
      exact .of_error _

theorem parseReplacementField_refines (hg : HandlerRefines E K R h g) (hr : R s t)
    (begin : List CodeUnit) :
    Refines (fun a => E a.2) (fun a b => ∃ t, b = (a.1, t) ∧ R a.2 t)
      (parseReplacementField h begin s) (parseReplacementField g begin t) := by
  cases begin with
  | nil => exact .of_error _
  | cons c rest =>
    unfold parseReplacementField
    dsimp only
    split_ifs with hclose hopen
    · subst hclose
      refine (hg.auto hr).andThen ?_
      rintro ⟨id, s'⟩ _ ⟨hk, t', rfl, hr'⟩
      exact hg.close hk hr' rest
    · exact (hg.text _ hr).andThen fun s' t' hr' => .ok ⟨t', rfl, hr'⟩
    · refine (parseArgId_refines (hg.auto hr) (fun n => hg.index n hr) (fun x => hg.name x hr)
        c rest).andThen ?_
      rintro ⟨begin, id, s'⟩ _ ⟨_, rfl, hk, t', rfl, hr'⟩
      exact finishField_refines hg hk hr' begin

/-- The loop, by induction on what is left of the format string. What may go wrong in a field has to
stay permitted up to the end. -/
theorem parseShort_refines (hg : HandlerRefines E K R h g)
    (hE : ∀ text p s s' e, parseShort h text p s = .ok s' → E s e → E s' e) (hr : R s t)
    (text p : List CodeUnit) : Refines E R (parseShort h text p s) (parseShort g text p t) := by
  induction hn : p.length using Nat.strong_induction_on generalizing p text s t with
  | _ n ih =>
    subst hn
    cases p with
    | nil =>
      rw [parseShort_nil, parseShort_nil]
      exact (hg.text text hr).imp (fun _ _ => False.elim) fun _ _ => id
    | cons c p =>
      by_cases hopen : c = '{'
      · subst hopen
        rw [parseShort_open, parseShort_open]
        refine (hg.text text hr).andThen fun s t hr => ?_
        refine (parseReplacementField_refines hg hr p).given.bind
          (fun a s' e hs' he => hE [] a.1 a.2 s' e hs' he) ?_
        rintro ⟨p', s'⟩ _ ⟨hfield, t', rfl, hr'⟩
        have hle := (parseReplacementField_suffix hfield).length_le
        exact ih _ (Nat.lt_succ_of_le hle) hr' [] p' rfl
      by_cases hclose : c = '}'
      · subst hclose
        cases p with
        | nil =>
          rw [parseShort_close_nil]
          exact .of_error _
        | cons d p =>
          by_cases hd : d = '}'
          · subst hd
            rw [parseShort_close, parseShort_close]
            refine (hg.text _ hr).andThen fun s t hr => ?_
            exact ih _ (by simp only [List.length_cons]; omega) hr [] p rfl
          · rw [parseShort_close_other hd]
            exact .of_error _
      · rw [parseShort_other hopen hclose, parseShort_other hopen hclose]
        exact ih _ (Nat.lt_succ_self _) hr _ p rfl

/-- Where nothing may go wrong, the one handler lets pass what the other one does. -/
theorem parseShort_strict (hg : HandlerRefines (fun _ _ => False) K R h g) (hr : R s t)
    (text p : List CodeUnit) : Strict R (parseShort h text p s) (parseShort g text p t) :=
  parseShort_refines hg (fun _ _ _ _ _ _ => False.elim) hr text p

end Handlers

/-! ## The check -/

/-- `formatter<T>::parse` for a built-in type, which starts where the specifiers begin. -/
def formatterParse (arg_type : ArgType) (begin : List CodeUnit) (ctx : ParseContext) :
    Except String (ℕ × ParseContext) :=
  if begin.head? = none ∨ begin.head? = some ('}' : CodeUnit) then .ok (0, ctx)
  else do
    let (rest, specs, ctx) ← parseFormatSpecs begin {} ctx arg_type
    let _ ← (if arg_type = .char_type then checkCharSpecs specs.toFormatSpecs else .ok false)
    pure (begin.length - rest.length, ctx)

/-- `on_format_specs` of `format_string_checker`. -/
def checkFormatSpecs (types : List ArgType) (id : ℕ) (begin : List CodeUnit) (ctx : ParseContext) :
    Except String (ℕ × ParseContext) :=
  match types[id]? with
  | none => .ok (0, ctx)
  | some arg_type => formatterParse arg_type begin ctx

/-- `compile_parse_context` looks the id of a field up itself. -/
def checkFieldId (types : List ArgType) (id : ℕ) : Except String Unit :=
  if types.length ≤ id then .error "argument not found" else .ok ()

/-- `format_string_checker` for arguments of these types, in a build without
`FMT_USE_NONTYPE_TEMPLATE_ARGS`: names are refused. -/
def formatStringChecker (types : List ArgType) : Handler ParseContext where
  on_text _ ctx := .ok ctx
  on_arg_id := {
    on_auto := fun ctx => do
      let (id, ctx) ← ctx.nextArgId
      checkFieldId types id
      pure (id, ctx)
    on_index := fun id ctx => do
      let ctx ← ctx.checkArgId id
      checkFieldId types id
      pure (id, ctx)
    on_name := fun _ _ =>
      .error "compile-time checks for named arguments require C++20 support" }
  on_replacement_field id begin ctx := (checkFormatSpecs types id begin ctx).map Prod.snd
  on_format_specs := checkFormatSpecs types

/-- The context that the check begins with. `constEval` says that `is_constant_evaluated` is true in
it, as in C++20 (but with GCC from version 12 on only): then the ids of dynamic widths and precisions
are looked up as well. -/
def checkContext (constEval : Bool) (types : List ArgType) : ParseContext :=
  { types := if constEval then some types else none }

/-- The check of a format string. -/
def checkFormatString (constEval : Bool) (types : List ArgType) (fmt : List CodeUnit) :
    Except String Unit :=
  (parseFormatString (formatStringChecker types) fmt (checkContext constEval types)).map fun _ => ()

/-- The dynamic width and precision that are read behind the colon of a field. -/
def fieldRefs (types : List ArgType) (id : ℕ) (begin : List CodeUnit) (ctx : ParseContext) :
    List ArgRef :=
  match types[id]? with
  | none => []
  | some arg_type =>
    match parseFormatSpecs begin {} ctx arg_type with
    | .ok (_, specs, _) => [specs.width_ref, specs.precision_ref]
    | .error _ => []

/-- The check, which also writes down the dynamic widths and precisions of the fields. -/
def recordingChecker (types : List ArgType) : Handler (ParseContext × List ArgRef) where
  on_text _ s := .ok s
  on_arg_id := {
    on_auto := fun s =>
      ((formatStringChecker types).on_arg_id.on_auto s.1).map fun r => (r.1, r.2, s.2)
    on_index := fun id s =>
      ((formatStringChecker types).on_arg_id.on_index id s.1).map fun r => (r.1, r.2, s.2)
    on_name := fun name s =>
      ((formatStringChecker types).on_arg_id.on_name name s.1).map fun r => (r.1, r.2, s.2) }
  on_replacement_field id begin s :=
    ((formatStringChecker types).on_replacement_field id begin s.1).map fun ctx => (ctx, s.2)
  on_format_specs id begin s :=
    ((formatStringChecker types).on_format_specs id begin s.1).map fun r =>
      (r.1, r.2, s.2 ++ fieldRefs types id begin s.1)

/-- The dynamic widths and precisions in a format string that passes the check. -/
def dynamicRefs (constEval : Bool) (types : List ArgType) (fmt : List CodeUnit) : List ArgRef :=
  match parseFormatString (recordingChecker types) fmt (checkContext constEval types, []) with
  | .ok s => s.2
  | .error _ => []

section Record

variable {types : List ArgType} {ctx ctx' : ParseContext} {id : ℕ}

theorem checkFieldId_eq_ok : checkFieldId types id = .ok () ↔ id < types.length := by
  unfold checkFieldId
  split_ifs with h
  · exact iff_of_false nofun (not_lt.mpr h)
  · exact iff_of_true rfl (not_le.mp h)

theorem checker_auto (h : (formatStringChecker types).on_arg_id.on_auto ctx = .ok (id, ctx')) :
    ctx.nextArgId = .ok (id, ctx') ∧ id < types.length := by
  obtain ⟨⟨id, ctx⟩, hn, h⟩ := bind_eq_ok.mp h
  obtain ⟨_, hid, h⟩ := bind_eq_ok.mp h
  obtain ⟨rfl, rfl⟩ := Prod.mk.inj (Except.ok.inj h)
  exact ⟨hn, checkFieldId_eq_ok.mp hid⟩

theorem checker_index {n : ℕ}
    (h : (formatStringChecker types).on_arg_id.on_index n ctx = .ok (id, ctx')) :
    ctx.checkArgId n = .ok ctx' ∧ id = n ∧ n < types.length := by
  obtain ⟨ctx, hn, h⟩ := bind_eq_ok.mp h
  obtain ⟨_, hid, h⟩ := bind_eq_ok.mp h
  obtain ⟨rfl, rfl⟩ := Prod.mk.inj (Except.ok.inj h)
  exact ⟨hn, rfl, checkFieldId_eq_ok.mp hid⟩

/-- A check of empty specifiers finds nothing, and need not be made. -/
theorem formatterParse_eq (arg_type : ArgType) (begin : List CodeUnit) (ctx : ParseContext) :
    formatterParse arg_type begin ctx =
      parseFormatSpecs begin {} ctx arg_type >>= fun r =>
        (if arg_type = .char_type then checkCharSpecs r.2.1.toFormatSpecs else .ok false) >>=
          fun _ => pure (begin.length - r.1.length, r.2.2) := by
  have hempty : parseFormatSpecs begin {} ctx arg_type = .ok (begin, {}, ctx) →
      parseFormatSpecs begin {} ctx arg_type >>= (fun r =>
        (if arg_type = .char_type then checkCharSpecs r.2.1.toFormatSpecs else .ok false) >>=
          fun _ => pure (begin.length - r.1.length, r.2.2)) = .ok (0, ctx) := by
    intro h
    rw [h]
    show (if arg_type = .char_type then Except.ok true else Except.ok false) >>=
      (fun _ => pure (begin.length - begin.length, ctx)) = _
    rw [Nat.sub_self]
    split_ifs <;> rfl
  cases begin with
  | nil => exact (hempty rfl).symm
  | cons c rest =>
    by_cases hc : c = '}'
    · subst hc
      exact (hempty (parseFormatSpecs_close arg_type rest ctx)).symm
    · refine if_neg ?_
      rintro (⟨⟨⟩⟩ | h)
      exact hc (Option.some.inj h)

/-- `on_format_specs` of the check, for an id that was looked up. -/
theorem recordingChecker_specs {arg_type : ArgType} (htype : types[id]? = some arg_type)
    (begin : List CodeUnit) (s : ParseContext × List ArgRef) :
    (recordingChecker types).on_format_specs id begin s =
      parseFormatSpecs begin {} s.1 arg_type >>= fun r =>
        (if arg_type = .char_type then checkCharSpecs r.2.1.toFormatSpecs else .ok false) >>=
          fun _ => pure (begin.length - r.1.length, r.2.2,
            s.2 ++ [r.2.1.width_ref, r.2.1.precision_ref]) := by
  show (checkFormatSpecs types id begin s.1).map
    (fun r => (r.1, r.2, s.2 ++ fieldRefs types id begin s.1)) = _
  unfold checkFormatSpecs fieldRefs
  rw [htype]
  dsimp only
  rw [formatterParse_eq]
  cases parseFormatSpecs begin {} s.1 arg_type with
  | error e => rfl
  | ok r =>
    show Except.map _ ((if _ then _ else _) >>= _) = (if _ then _ else _) >>= _
    cases if arg_type = .char_type then checkCharSpecs r.2.1.toFormatSpecs else .ok false <;> rfl

end Record

/-! ## The ends of fields -/

section CloseField

variable {σ τ : Type} {E : List CodeUnit × σ → String → Prop} {R : σ → τ → Prop} {s : σ} {t : τ}

/-- What `parse_replacement_field` does behind the specifiers. -/
def closeField (rest : List CodeUnit) (s : σ) : Except String (List CodeUnit × σ) :=
  match rest with
  | [] => .error "unknown format specifier"
  | d :: rest => if d ≠ '}' then .error "unknown format specifier" else pure (rest, s)

theorem finishField_colon (h : Handler σ) (rest : List CodeUnit) (id : ℕ) (s : σ) :
    finishField h ((':' : CodeUnit) :: rest) id s =
      h.on_format_specs id rest s >>= fun r => closeField (rest.drop r.1) r.2 := by
  rw [finishField]
  exact (if_neg (by decide)).trans (if_pos rfl)

theorem closeField_refines (h : R s t) (rest : List CodeUnit) :
    Refines E (fun a b => ∃ t, b = (a.1, t) ∧ R a.2 t) (closeField rest s) (closeField rest t) := by
  cases rest with
  | nil => exact .of_error _
  | cons d rest =>
    unfold closeField
    dsimp only
    split_ifs
    · exact .of_error _
    · exact .ok ⟨t, rfl, h⟩

theorem closeField_open {rest : List CodeUnit} (h : rest.head? ≠ some ('}' : CodeUnit)) :
    closeField rest s = .error "unknown format specifier" := by
  cases rest with
  | nil => rfl
  | cons d rest => exact if_pos fun hd => h (congrArg some hd)

end CloseField

/-! ## What is written down -/

section Recording

variable (types : List ArgType)

/-- The check lets pass what the one that writes down the references does. -/
theorem recordingChecker_refines :
    HandlerRefines (fun _ _ => False) (fun _ => True) (fun ctx s => s.1 = ctx)
      (formatStringChecker types) (recordingChecker types) where
  text x hr := .ok hr
  auto {s t} hr := by
    subst hr
    exact (Refines.refl _).map_right fun a b hab => by subst hab; exact ⟨trivial, _, rfl, rfl⟩
  index {s t} n hr := by
    subst hr
    exact (Refines.refl _).map_right fun a b hab => by subst hab; exact ⟨trivial, _, rfl, rfl⟩
  name x hr := .of_error _
  field {s t id} rest _ hr := by
    subst hr
    exact (Refines.refl _).map_right fun a b hab => hab.symm
  specs {s t id} rest _ hr := by
    subst hr
    rw [finishField_colon, finishField_colon]
    show Refines _ _ _ (Except.map _ _ >>= _)
    rw [bind_map]
    refine Refines.andThen (Refines.refl _) ?_
    rintro a _ rfl
    have hrel : (a.2, t.2 ++ fieldRefs types id rest t.1).1 = a.2 := rfl
    exact closeField_refines (R := fun ctx (s : ParseContext × List ArgRef) => s.1 = ctx) hrel _

/-- Nothing that was written down is lost. -/
theorem recordingChecker_keeps (l : List ArgRef) :
    HandlerRefines (fun _ _ => False) (fun _ => True) (fun s t => t = s ∧ l ⊆ s.2)
      (recordingChecker types) (recordingChecker types) where
  text x hr := .ok hr
  auto {s t} hr := by
    obtain ⟨rfl, hl⟩ := hr
    refine (Refines.refl _).map (fun _ _ => id) ?_
    rintro a _ rfl
    exact ⟨trivial, _, rfl, rfl, hl⟩
  index {s t} n hr := by
    obtain ⟨rfl, hl⟩ := hr
    refine (Refines.refl _).map (fun _ _ => id) ?_
    rintro a _ rfl
    exact ⟨trivial, _, rfl, rfl, hl⟩
  name x hr := .of_error _
  field {s t id} rest _ hr := by
    obtain ⟨rfl, hl⟩ := hr
    refine Refines.map (Refines.refl _) (fun _ _ => False.elim) ?_
    rintro a _ rfl
    exact ⟨rfl, hl⟩
  specs {s t id} rest _ hr := by
    obtain ⟨rfl, hl⟩ := hr
    rw [finishField_colon]
    show Refines _ _ (Except.map _ _ >>= _) (Except.map _ _ >>= _)
    rw [bind_map]
    refine Refines.andThen (Refines.refl _) ?_
    rintro a _ rfl
    have hl : l ⊆ t.2 ++ fieldRefs types id rest t.1 :=
      List.Subset.trans hl (List.subset_append_left _ _)
    exact closeField_refines (R := fun s (t : ParseContext × List ArgRef) => t = s ∧ l ⊆ s.2)
      ⟨rfl, hl⟩ _

theorem recorded_subset {text p : List CodeUnit} {s s' : ParseContext × List ArgRef}
    (h : parseShort (recordingChecker types) text p s = .ok s') : s.2 ⊆ s'.2 := by
  have hkeeps := parseShort_strict (recordingChecker_keeps types s.2) ⟨rfl, List.Subset.refl _⟩
  obtain ⟨_, -, -, hsubset⟩ := (hkeeps text p).exists_ok h
  exact hsubset

/-- A format string that passes the check also passes the one that writes down the references. -/
theorem exists_recorded {constEval : Bool} {types : List ArgType} {fmt : List CodeUnit}
    (h : checkFormatString constEval types fmt = .ok ()) :
    ∃ ctx, parseShort (recordingChecker types) [] fmt (checkContext constEval types, []) =
      .ok (ctx, dynamicRefs constEval types fmt) := by
  obtain ⟨ctx, hctx, -⟩ := map_eq_ok.mp h
  rw [parseFormatString_eq fun _ => rfl] at hctx
  have hrefines := parseShort_strict (recordingChecker_refines types)
    (rfl : (checkContext constEval types, ([] : List ArgRef)).1 = _) [] fmt
  obtain ⟨s, hs, -⟩ := hrefines.exists_ok hctx
  refine ⟨s.1, ?_⟩
  rw [dynamicRefs, parseFormatString_eq fun _ => rfl, hs]

end Recording

/-! ## What is left open -/

/-- The errors that depend on the value of an argument. -/
def valueErrors : List String :=
  ["negative width", "negative precision", "width is not integer", "precision is not integer",
    "number is too big", "string pointer is null"]

/-- The errors that the check leaves open: those of a value, that of a dynamic width or precision
whose name there is no argument of, and, where the check is no constant evaluation, that of one whose
index there is no argument of. -/
def LeftOpen (constEval : Bool) (args : FormatArgs) (refs : List ArgRef) (e : String) : Prop :=
  e ∈ valueErrors ∨ (∃ name, .name name ∈ refs ∧ args.getNamed name = .error e) ∨
    constEval = false ∧ ∃ id, .index id ∈ refs ∧ args.getArg id = .error e

theorem LeftOpen.mono {constEval : Bool} {args : FormatArgs} {refs refs' : List ArgRef}
    (h : refs ⊆ refs') {e : String} : LeftOpen constEval args refs e →
      LeftOpen constEval args refs' e :=
  Or.imp_right (Or.imp (fun ⟨name, hmem, he⟩ => ⟨name, h hmem, he⟩)
    fun ⟨hfalse, id, hmem, he⟩ => ⟨hfalse, id, h hmem, he⟩)

section Check

variable {env : Platform} {constEval : Bool} {args : FormatArgs}

/-- An id that was checked has an argument of the type that was checked. -/
theorem exists_arg {id : ℕ} (h : id < (args.args.map Arg.type).length) :
    ∃ arg, args.getArg id = .ok arg ∧ (args.args.map Arg.type)[id]? = some arg.type := by
  rw [List.length_map] at h
  refine ⟨args.args[id], ?_, ?_⟩
  · rw [FormatArgs.getArg, List.getElem?_eq_getElem h]
  · rw [List.getElem?_map, List.getElem?_eq_getElem h, Option.map_some]

theorem getDynamicSpec_fails {what : String} (hnegative : "negative " ++ what ∈ valueErrors)
    (hinteger : what ++ " is not integer" ∈ valueErrors) (arg : Arg) :
    FailsOnly (· ∈ valueErrors) (getDynamicSpec what arg) := by
  unfold getDynamicSpec
  refine .bind ?_ fun value _ => ?_
  · cases arg with
    | int t value =>
      unfold checkCount
      dsimp only
      split_ifs
      · exact .error hnegative
      · exact .ok _
    | _ => exact .error hinteger
  · split_ifs
    · exact .error (by decide)
    · exact .ok _

/-- An index that was looked up where the check is one. -/
theorem getArg_fails {refs : List ArgRef} {id : ℕ} (hmem : .index id ∈ refs)
    (href : (ArgRef.index id).Known (checkContext constEval (args.args.map Arg.type)).types) :
    FailsOnly (LeftOpen constEval args refs) (args.getArg id) := by
  intro e he
  cases constEval with
  | false => exact .inr (.inr ⟨rfl, id, hmem, he⟩)
  | true =>
    obtain ⟨arg, harg, -⟩ := exists_arg (href _ rfl)
    rw [harg] at he
    cases he

/-- A dynamic width or precision. -/
theorem handleDynamicSpec_fails {what : String} (hnegative : "negative " ++ what ∈ valueErrors)
    (hinteger : what ++ " is not integer" ∈ valueErrors) (value : ℤ) {refs : List ArgRef}
    {ref : ArgRef} (hmem : ref ∈ refs)
    (href : ref.Known (checkContext constEval (args.args.map Arg.type)).types) :
    FailsOnly (LeftOpen constEval args refs) (handleDynamicSpec what args value ref) := by
  have hspec (arg : Arg) : FailsOnly (LeftOpen constEval args refs) (getDynamicSpec what arg) :=
    fun e he => .inl (getDynamicSpec_fails hnegative hinteger arg e he)
  cases ref with
  | none => exact .ok _
  | index id => exact (getArg_fails hmem href).bind fun arg _ => hspec arg
  | name name =>
    exact .bind (fun e he => .inr (.inl ⟨name, hmem, he⟩)) fun arg _ => hspec arg

theorem writeDefault_fails (arg : Arg) : FailsOnly (· ∈ valueErrors) (writeDefault arg) := by
  cases arg with
  | cstring address s =>
    cases s with
    | none => exact .error (by decide)
    | some s => exact .ok _
  | _ => exact .ok _

/-- Once the specifiers of a `char` were checked, only a null pointer is an error. -/
theorem writeArg_fails {specs : FormatSpecs} {arg : Arg}
    (hchar : arg.type = .char_type → ∃ b, checkCharSpecs specs = .ok b) :
    FailsOnly (· ∈ valueErrors) (writeArg env specs arg) := by
  cases arg with
  | char value =>
    obtain ⟨b, hb⟩ := hchar rfl
    rw [writeArg, hb]
    exact .ok _
  | cstring address s =>
    unfold writeArg
    dsimp only
    split_ifs
    · exact .ok _
    · cases s with
      | none => exact .error (by decide)
      | some s => exact .ok _
  | _ => exact .ok _

/-- What the formatting does behind parsed specifiers, up to the end of the field. -/
theorem afterSpecs_refines {arg : Arg} {begin rest : List CodeUnit} {specs : DynamicSpecs}
    {ctx : ParseContext} {refs : List ArgRef} {out : List CodeUnit} (hsuffix : rest <:+ begin)
    (hw : specs.width_ref.Known (checkContext constEval (args.args.map Arg.type)).types)
    (hp : specs.precision_ref.Known (checkContext constEval (args.args.map Arg.type)).types)
    (hctx : ctx.types = (checkContext constEval (args.args.map Arg.type)).types)
    (hmem : [specs.width_ref, specs.precision_ref] ⊆ refs)
    (hchar : arg.type = .char_type → ∃ b, checkCharSpecs specs.toFormatSpecs = .ok b) :
    Refines (fun a => LeftOpen constEval args a.2.2)
      (fun a b => ∃ t, b = (a.1, t) ∧
        ContextRel (checkContext constEval (args.args.map Arg.type)).types a.2.1 t.1)
      (closeField rest (ctx, refs))
      ((handleDynamicSpec "width" args specs.width specs.width_ref >>= fun width =>
        handleDynamicSpec "precision" args specs.precision specs.precision_ref >>= fun precision =>
          if rest.head? ≠ some ('}' : CodeUnit) then .error "missing '\x7d' in format string"
          else writeArg env { specs.toFormatSpecs with width, precision } arg >>= fun text =>
            pure (begin.length - rest.length, ctx.forget, out ++ text)) >>= fun r =>
              closeField (begin.drop r.1) r.2) := by
  by_cases hclose : rest.head? = some ('}' : CodeUnit)
  · obtain ⟨rest, rfl⟩ : ∃ rest', rest = ('}' : CodeUnit) :: rest' := by
      cases rest with
      | nil => cases hclose
      | cons d rest => exact ⟨rest, by rw [Option.some.inj hclose]⟩
    have hdrop := (List.suffix_iff_eq_drop.mp hsuffix).symm
    have hE : ∀ a e, closeField (('}' : CodeUnit) :: rest) (ctx, refs) = .ok a →
        LeftOpen constEval args refs e → LeftOpen constEval args a.2.2 e := by
      rintro _ e ⟨⟩ he
      exact he
    rw [bind_assoc]
    refine .after (handleDynamicSpec_fails (by decide) (by decide) _ (hmem (by simp)) hw) hE
      fun width _ => ?_
    rw [bind_assoc]
    refine .after (handleDynamicSpec_fails (by decide) (by decide) _ (hmem (by simp)) hp) hE
      fun precision _ => ?_
    rw [if_neg (not_not.mpr hclose), bind_assoc]
    refine .after (writeArg_fails hchar) (fun a e ha he => hE a e ha (.inl he)) fun text _ => ?_
    show Refines _ _ _ (closeField (begin.drop (begin.length - _)) _)
    rw [hdrop]
    exact .ok ⟨_, rfl, hctx, rfl⟩
  · -- the check has found the field open, too
    rw [closeField_open hclose]
    exact .of_error _

/-- The handler of the formatting beside the one that writes down the references. -/
theorem formatHandler_refines (env : Platform) (constEval : Bool) (args : FormatArgs) :
    HandlerRefines (fun s => LeftOpen constEval args s.2) (· < (args.args.map Arg.type).length)
      (fun s t => ContextRel (checkContext constEval (args.args.map Arg.type)).types s.1 t.1)
      (recordingChecker (args.args.map Arg.type)) (formatHandler env args) where
  text x hr := .ok hr
  auto {s t} hr := by
    intro a ha
    obtain ⟨⟨id, ctx⟩, hauto, rfl⟩ := map_eq_ok.mp ha
    obtain ⟨hnext, hlen⟩ := checker_auto hauto
    obtain ⟨_, hok, -, ht, rfl⟩ := (nextArgId_refines hr).exists_ok hnext
    exact .inl ⟨_, map_eq_ok.mpr ⟨_, hok, rfl⟩, hlen, _, rfl, ht, rfl⟩
  index {s t} n hr := by
    intro a ha
    obtain ⟨⟨id, ctx⟩, hindex, rfl⟩ := map_eq_ok.mp ha
    obtain ⟨hcheck, rfl, hlen⟩ := checker_index hindex
    obtain ⟨_, hok, -, hc⟩ := (checkArgId_refines hr id).exists_ok hcheck
    exact .inl ⟨_, map_eq_ok.mpr ⟨_, hok, rfl⟩, hlen, _, rfl, hc⟩
  name x hr := .of_error _
  field {s t id} rest hk hr := by
    obtain ⟨arg, harg, htype⟩ := exists_arg hk
    have hcheck : (recordingChecker (args.args.map Arg.type)).on_replacement_field id
        (('}' : CodeUnit) :: rest) s = .ok s := by
      show (Except.map _ (checkFormatSpecs _ _ _ _)).map _ = _
      rw [checkFormatSpecs, htype]
      rfl
    rw [hcheck]
    show Refines _ _ _ (args.getArg id >>= _)
    rw [harg]
    show Refines _ _ _ (writeDefault arg >>= _)
    exact .after (writeDefault_fails arg) (fun _ _ _ => .inl) fun text _ => .ok hr
  specs {s t id} rest hk hr := by
    obtain ⟨arg, harg, htype⟩ := exists_arg hk
    rw [finishField_colon, finishField_colon, formatHandler_specs harg,
      recordingChecker_specs htype, bind_assoc, bind_assoc]
    refine (parseFormatSpecs_refines hr arg.type rest).andThen ?_
    rintro ⟨rest', specs, ctx⟩ _ ⟨hsuffix, hw, hp, hctx, rfl⟩
    rw [bind_assoc]
    dsimp only
    cases hchar : if arg.type = .char_type then checkCharSpecs specs.toFormatSpecs
        else .ok false with
    | error e => exact .of_error _
    | ok b =>
      show Refines _ _ (closeField (rest.drop (rest.length - rest'.length)) _) _
      rw [← List.suffix_iff_eq_drop.mp hsuffix]
      refine afterSpecs_refines hsuffix hw hp hctx (List.subset_append_right _ _) fun htype => ?_
      rw [if_pos htype] at hchar
      exact ⟨b, hchar⟩

end Check

/-- **What was checked is not rejected.** If the compile-time check lets a format string pass for the
types of some arguments, formatting them fails at most for a value: a dynamic width or precision that
is negative, too large or no integer, or a null pointer; or because there is no argument of the name
that the format string takes a width or precision from. Where the check is no constant evaluation,
the same holds of the index of one. -/
theorem checked_not_rejected (env : Platform) (constEval : Bool) (args : FormatArgs)
    (fmt : List CodeUnit) (h : checkFormatString constEval (args.args.map Arg.type) fmt = .ok ()) :
    ∀ e, vformatTo env fmt args = .error e →
      LeftOpen constEval args (dynamicRefs constEval (args.args.map Arg.type) fmt) e := by
  intro e he
  obtain ⟨ctx, hctx⟩ := exists_recorded h
  have hE : ∀ text p s s' e, parseShort (recordingChecker (args.args.map Arg.type)) text p s =
      .ok s' → LeftOpen constEval args s.2 e → LeftOpen constEval args s'.2 e :=
    fun _ _ _ _ _ hs => .mono (recorded_subset _ hs)
  have hparse := parseShort_refines (formatHandler_refines env constEval args) hE
    (t := (({}, []) : ParseContext × List CodeUnit)) ⟨rfl, rfl⟩ [] fmt _ hctx
  rw [vformatTo_eq, parseFormatString_eq (formatHandlerLawful env args).on_text_nil] at he
  obtain ⟨t, ht, -⟩ | ⟨e', he', hleft⟩ := hparse
  · rw [ht] at he
    cases he
  · rw [he'] at he
    cases he
    exact hleft

/-- A width that was checked to be an integer, and is negative. -/
theorem checked_not_rejected_width :
    vformatTo ⟨visibleAscii, true, fun _ _ _ => none⟩ [123, 58, 123, 125, 125]
        ⟨[.int .int 42, .int .int (-1)], fun _ => none⟩ = .error "negative width" ∧
      LeftOpen true ⟨[.int .int 42, .int .int (-1)], fun _ => none⟩
        (dynamicRefs true [.int_type, .int_type] [123, 58, 123, 125, 125]) "negative width" := by
  have herror : vformatTo ⟨visibleAscii, true, fun _ _ _ => none⟩ [123, 58, 123, 125, 125]
      ⟨[.int .int 42, .int .int (-1)], fun _ => none⟩ = .error "negative width" := by
    decide +kernel
  exact ⟨herror, checked_not_rejected _ true ⟨[.int .int 42, .int .int (-1)], fun _ => none⟩ _
    (by decide +kernel) _ herror⟩

/-- Without constant evaluation, an index that does not exist is only found when formatting. -/
example : checkFormatString false [.int_type] [123, 58, 123, 125, 125] = .ok () ∧
    checkFormatString true [.int_type] [123, 58, 123, 125, 125] = .error "argument not found" ∧
    vformatTo ⟨visibleAscii, true, fun _ _ _ => none⟩ [123, 58, 123, 125, 125]
      ⟨[.int .int 42], fun _ => none⟩ = .error "argument not found" := by
  decide +kernel

end SelfStudy.Fmt
