import SelfStudy.Fmt.Integers

/-!
# Format strings

`parse_format_string` and what it calls, for an arbitrary handler. A range `[begin, end)` is the list
of its code units, so that a pointer into a format string is what is left of it. The handler's object
is a state; `report_error` and `on_error` throw, and an error is its message.

Short strings are parsed by a loop over the code units, long ones by two searches for a brace.
-/

namespace SelfStudy.Fmt

/-! ## Argument ids -/

/-- What `parse_arg_id` calls; `β` is what the handler keeps of the id. -/
structure IdHandler (σ β : Type) where
  on_auto : σ → Except String (β × σ)
  on_index : ℕ → σ → Except String (β × σ)
  on_name : List CodeUnit → σ → Except String (β × σ)

def isNameStart (c : CodeUnit) : Bool :=
  ('a' ≤ c && c ≤ 'z') || ('A' ≤ c && c ≤ 'Z') || c == '_'

/-- `is_name_start(*it) || ('0' <= *it && *it <= '9')`. -/
def isNamePart (c : CodeUnit) : Bool := isNameStart c || isDigit c

section ArgId

variable {σ β : Type} (h : IdHandler σ β)

/-- The index that begins with the digit `c`, and what is behind it. -/
def parseIndex (c : CodeUnit) (rest : List CodeUnit) : ℤ × List CodeUnit :=
  if c ≠ '0' then parseNonnegativeInt (c :: rest) intMax else (0, rest)

/-- `do_parse_arg_id` of the range `c :: rest`. -/
def doParseArgId (c : CodeUnit) (rest : List CodeUnit) (s : σ) :
    Except String (List CodeUnit × β × σ) :=
  if isDigit c then
    match (parseIndex c rest).2 with
    | [] => .error "invalid format string"
    | d :: begin =>
      if d ≠ '}' ∧ d ≠ ':' then .error "invalid format string"
      else (h.on_index (parseIndex c rest).1.toNat s).map fun r => (d :: begin, r)
  else if isNameStart c then
    (h.on_name (c :: rest.takeWhile isNamePart) s).map fun r => (rest.dropWhile isNamePart, r)
  else .error "invalid format string"

/-- `parse_arg_id` of the range `c :: rest`. -/
def parseArgId (c : CodeUnit) (rest : List CodeUnit) (s : σ) :
    Except String (List CodeUnit × β × σ) :=
  if c ≠ '}' ∧ c ≠ ':' then doParseArgId h c rest s
  else (h.on_auto s).map fun r => (c :: rest, r)

end ArgId

/-! ## Replacement fields -/

/-- What `parse_format_string` calls. `on_format_specs` returns how far it has moved `begin`. -/
structure Handler (σ : Type) where
  on_text : List CodeUnit → σ → Except String σ
  on_arg_id : IdHandler σ ℕ
  on_replacement_field : ℕ → List CodeUnit → σ → Except String σ
  on_format_specs : ℕ → List CodeUnit → σ → Except String (ℕ × σ)

section Parse

variable {σ : Type} (h : Handler σ)

/-- `parse_replacement_field` behind the argument id. -/
def finishField (begin : List CodeUnit) (id : ℕ) (s : σ) : Except String (List CodeUnit × σ) :=
  match begin with
  | [] => .error "missing '\x7d' in format string"
  | c :: rest =>
    if c = '}' then do
      let s ← h.on_replacement_field id begin s
      pure (rest, s)
    else if c = ':' then do
      let (n, s) ← h.on_format_specs id rest s
      match rest.drop n with
      | [] => .error "unknown format specifier"
      | d :: rest => if d ≠ '}' then .error "unknown format specifier" else pure (rest, s)
    else .error "missing '\x7d' in format string"

/-- `parse_replacement_field`; the range begins behind the brace. -/
def parseReplacementField (begin : List CodeUnit) (s : σ) : Except String (List CodeUnit × σ) :=
  match begin with
  | [] => .error "invalid format string"
  | c :: rest =>
    if c = '}' then do
      let (id, s) ← h.on_arg_id.on_auto s
      let s ← h.on_replacement_field id begin s
      pure (rest, s)
    else if c = '{' then do
      let s ← h.on_text ['{'] s
      pure (rest, s)
    else do
      let (begin, id, s) ← parseArgId h.on_arg_id c rest s
      finishField h begin id s

variable {h} {s s' : σ} {c : CodeUnit} {begin rest : List CodeUnit}

theorem bind_eq_ok {α γ : Type} {x : Except String α} {f : α → Except String γ} {b : γ} :
    (x >>= f) = .ok b ↔ ∃ a, x = .ok a ∧ f a = .ok b := by
  cases x with
  | error e => exact iff_of_false (by rintro ⟨⟩) (by rintro ⟨a, ⟨⟩, -⟩)
  | ok a =>
    refine ⟨fun hb => ⟨a, rfl, hb⟩, ?_⟩
    rintro ⟨a', ha, hb⟩
    exact Except.ok.inj ha ▸ hb

theorem map_eq_ok {α γ : Type} {x : Except String α} {f : α → γ} {b : γ} :
    x.map f = .ok b ↔ ∃ a, x = .ok a ∧ f a = b := by
  cases x with
  | error e => exact iff_of_false (by rintro ⟨⟩) (by rintro ⟨a, ⟨⟩, -⟩)
  | ok a =>
    refine ⟨fun hb => ⟨a, rfl, Except.ok.inj hb⟩, ?_⟩
    rintro ⟨a', ha, hb⟩
    exact congrArg Except.ok (Except.ok.inj ha ▸ hb)

theorem map_bind {α γ δ : Type} (x : Except String α) (f : α → Except String γ) (g : γ → δ) :
    (x >>= f).map g = x >>= fun a => (f a).map g := by
  cases x <;> rfl

theorem bind_map {α γ δ : Type} (x : Except String α) (g : α → γ) (f : γ → Except String δ) :
    x.map g >>= f = x >>= fun a => f (g a) := by
  cases x <;> rfl

theorem bind_ok {α γ : Type} (x : Except String α) (g : α → γ) :
    (x >>= fun a => .ok (g a)) = x.map g := by
  cases x <;> rfl

theorem scanDigits_suffix (value prev last num_digits : ℕ) (begin : List CodeUnit) :
    (scanDigits value prev last num_digits begin).p <:+ begin := by
  induction begin generalizing value prev last num_digits with
  | nil => exact List.suffix_rfl
  | cons c begin ih =>
    rw [scanDigits]
    split_ifs
    · exact (ih ..).trans (List.suffix_cons c begin)
    · exact List.suffix_rfl

theorem parseNonnegativeInt_suffix (begin : List CodeUnit) (error_value : ℤ) :
    (parseNonnegativeInt begin error_value).2 <:+ begin := by
  have h := scanDigits_suffix 0 0 0 0 begin
  unfold parseNonnegativeInt
  show (if _ then _ else if _ then _ else _ : ℤ × List CodeUnit).2 <:+ begin
  split_ifs <;> exact h

theorem parseIndex_suffix (c : CodeUnit) (rest : List CodeUnit) :
    (parseIndex c rest).2 <:+ c :: rest := by
  unfold parseIndex
  split_ifs
  · exact parseNonnegativeInt_suffix ..
  · exact List.suffix_cons c rest

/-- An id is parsed within the range. -/
theorem doParseArgId_suffix {β : Type} {g : IdHandler σ β} {r : β × σ}
    (hr : doParseArgId g c rest s = .ok (begin, r)) : begin <:+ c :: rest := by
  unfold doParseArgId at hr
  split_ifs at hr with hd hn
  · have hsuffix := parseIndex_suffix c rest
    cases hq : (parseIndex c rest).2 with
    | nil =>
      rw [hq] at hr
      cases hr
    | cons d q =>
      rw [hq] at hr hsuffix
      simp only at hr
      split_ifs at hr
      obtain ⟨r', -, hr⟩ := map_eq_ok.mp hr
      exact (Prod.mk.inj hr).1 ▸ hsuffix
  · obtain ⟨r', -, hr⟩ := map_eq_ok.mp hr
    rw [← (Prod.mk.inj hr).1]
    exact (List.dropWhile_suffix _).trans (List.suffix_cons c rest)

theorem parseArgId_suffix {β : Type} {g : IdHandler σ β} {r : β × σ}
    (hr : parseArgId g c rest s = .ok (begin, r)) : begin <:+ c :: rest := by
  unfold parseArgId at hr
  split_ifs at hr
  · exact doParseArgId_suffix hr
  · obtain ⟨r', -, hr⟩ := map_eq_ok.mp hr
    exact (Prod.mk.inj hr).1 ▸ List.suffix_rfl

theorem finishField_suffix {id : ℕ} (hr : finishField h begin id s = .ok (rest, s')) :
    rest <:+ begin := by
  cases begin with
  | nil => cases hr
  | cons c begin =>
    unfold finishField at hr
    simp only at hr
    split_ifs at hr
    · obtain ⟨s₁, -, hr⟩ := bind_eq_ok.mp hr
      exact (Prod.mk.inj (Except.ok.inj hr)).1 ▸ List.suffix_cons c begin
    · obtain ⟨⟨n, s₁⟩, -, hr⟩ := bind_eq_ok.mp hr
      have hdrop := (List.drop_suffix n begin).trans (List.suffix_cons c begin)
      simp only at hr
      cases hn : begin.drop n with
      | nil =>
        rw [hn] at hr
        cases hr
      | cons d q =>
        rw [hn] at hr hdrop
        simp only at hr
        split_ifs at hr
        exact (Prod.mk.inj (Except.ok.inj hr)).1 ▸ (List.suffix_cons d q).trans hdrop

/-- A field is parsed within the range. -/
theorem parseReplacementField_suffix (hr : parseReplacementField h begin s = .ok (rest, s')) :
    rest <:+ begin := by
  cases begin with
  | nil => cases hr
  | cons c begin =>
    unfold parseReplacementField at hr
    simp only at hr
    split_ifs at hr
    · obtain ⟨⟨id, s₁⟩, -, hr⟩ := bind_eq_ok.mp hr
      obtain ⟨s₂, -, hr⟩ := bind_eq_ok.mp hr
      exact (Prod.mk.inj (Except.ok.inj hr)).1 ▸ List.suffix_cons c begin
    · obtain ⟨s₁, -, hr⟩ := bind_eq_ok.mp hr
      exact (Prod.mk.inj (Except.ok.inj hr)).1 ▸ List.suffix_cons c begin
    · obtain ⟨⟨q, id, s₁⟩, hid, hr⟩ := bind_eq_ok.mp hr
      exact (finishField_suffix hr).trans (parseArgId_suffix hid)

/-! ## The two loops -/

variable (h)

/-- The loop for small strings; `text` is the range from `begin` to `p`. -/
def parseShort (text p : List CodeUnit) (s : σ) : Except String σ :=
  match p with
  | [] => h.on_text text s
  | c :: p =>
    if c = '{' then do
      let s ← h.on_text text s
      match hf : parseReplacementField h p s with
      | .error e => .error e
      | .ok (p', s) => parseShort [] p' s
    else if c = '}' then
      match p with
      | [] => .error "unmatched '\x7d' in format string"
      | d :: p =>
        if d ≠ '}' then .error "unmatched '\x7d' in format string"
        else do
          let s ← h.on_text (text ++ [c]) s
          parseShort [] p s
    else parseShort (text ++ [c]) p s
termination_by p.length
decreasing_by
  · exact Nat.lt_succ_of_le (parseReplacementField_suffix hf).length_le
  · simp only [List.length_cons]; omega
  · simp only [List.length_cons]; omega

/-- `find`: what is before the first occurrence, and what is behind it. -/
def find (value : CodeUnit) : List CodeUnit → Option (List CodeUnit × List CodeUnit)
  | [] => none
  | c :: cs =>
    if c = value then some ([], cs) else (find value cs).map fun r => (c :: r.1, r.2)

theorem find_eq_some {value : CodeUnit} {l before after : List CodeUnit}
    (hf : find value l = some (before, after)) : l = before ++ value :: after ∧ value ∉ before := by
  induction l generalizing before with
  | nil => cases hf
  | cons c cs ih =>
    rw [find] at hf
    split_ifs at hf with hc
    · obtain ⟨rfl, rfl⟩ := Prod.mk.inj (Option.some.inj hf)
      exact ⟨by rw [hc]; rfl, List.not_mem_nil⟩
    · obtain ⟨⟨b, a⟩, hba, hr⟩ := Option.map_eq_some_iff.mp hf
      obtain ⟨rfl, rfl⟩ := Prod.mk.inj hr
      obtain ⟨rfl, hmem⟩ := ih hba
      exact ⟨rfl, fun hm => (List.mem_cons.mp hm).elim (fun e => hc e.symm) hmem⟩

theorem not_mem_of_find {value : CodeUnit} {l : List CodeUnit} (hf : find value l = none) :
    value ∉ l := by
  induction l with
  | nil => exact List.not_mem_nil
  | cons c cs ih =>
    rw [find] at hf
    split_ifs at hf with hc
    exact fun hm => (List.mem_cons.mp hm).elim (fun e => hc e.symm)
      (ih (Option.map_eq_none_iff.mp hf))

/-- The loop of `writer::operator()`. -/
def writeLoop (begin : List CodeUnit) (s : σ) : Except String σ :=
  match hf : find '}' begin with
  | none => h.on_text begin s
  | some (_, []) => .error "unmatched '\x7d' in format string"
  | some (before, d :: after) =>
    if d ≠ '}' then .error "unmatched '\x7d' in format string"
    else do
      let s ← h.on_text (before ++ [('}' : CodeUnit)]) s
      writeLoop after s
termination_by begin.length
decreasing_by
  rw [(find_eq_some hf).1]
  simp only [List.length_append, List.length_cons]
  omega

/-- `writer::operator()`. -/
def write (text : List CodeUnit) (s : σ) : Except String σ :=
  if text = [] then .ok s else writeLoop h text s

/-- The loop for long strings. -/
def parseLong (begin : List CodeUnit) (s : σ) : Except String σ :=
  match begin with
  | [] => .ok s
  | c :: cs =>
    if c = '{' then
      match hf : parseReplacementField h cs s with
      | .error e => .error e
      | .ok (begin, s) => parseLong begin s
    else
      match hp : find '{' cs with
      | none => write h (c :: cs) s
      | some (before, p) => do
        let s ← write h (c :: before) s
        match hf : parseReplacementField h p s with
        | .error e => .error e
        | .ok (begin, s) => parseLong begin s
termination_by begin.length
decreasing_by
  · exact Nat.lt_succ_of_le (parseReplacementField_suffix hf).length_le
  · have hle := (parseReplacementField_suffix hf).length_le
    rw [(find_eq_some hp).1]
    simp only [List.length_append, List.length_cons]
    omega

/-- `parse_format_string`. -/
def parseFormatString (format_str : List CodeUnit) (s : σ) : Except String σ :=
  if format_str.length < 32 then parseShort h [] format_str s else parseLong h format_str s

/-! ## The loops step by step -/

variable {h} {text p before after : List CodeUnit} {d : CodeUnit}

theorem parseShort_nil : parseShort h text [] s = h.on_text text s := by rw [parseShort]

theorem parseShort_open : parseShort h text ('{' :: p) s =
    h.on_text text s >>= fun s => parseReplacementField h p s >>= fun r =>
      parseShort h [] r.1 r.2 := by
  rw [parseShort.eq_def]
  show (if _ then _ else _ : Except String σ) = _
  rw [if_pos rfl]
  refine congrArg _ (funext fun s => ?_)
  cases hf : parseReplacementField h p s with
  | error e => rfl
  | ok r => rfl

theorem parseShort_close_nil :
    parseShort h text ['}'] s = .error "unmatched '\x7d' in format string" := by
  rw [parseShort, if_neg (by decide), if_pos rfl]

theorem parseShort_close_other (hd : d ≠ '}') : parseShort h text ('}' :: d :: p) s =
    .error "unmatched '\x7d' in format string" := by
  rw [parseShort, if_neg (by decide), if_pos rfl]
  exact if_pos hd

theorem parseShort_close : parseShort h text ('}' :: '}' :: p) s =
    h.on_text (text ++ [('}' : CodeUnit)]) s >>= fun s => parseShort h [] p s := by
  rw [parseShort, if_neg (by decide), if_pos rfl]
  exact if_neg fun hne => hne rfl

theorem parseShort_other (ho : c ≠ '{') (hc : c ≠ '}') :
    parseShort h text (c :: p) s = parseShort h (text ++ [c]) p s := by
  rw [parseShort.eq_def]
  show (if _ then _ else _ : Except String σ) = _
  rw [if_neg ho, if_neg hc]

theorem find_eq_none {value : CodeUnit} {l : List CodeUnit} (hl : value ∉ l) :
    find value l = none := by
  induction l with
  | nil => rfl
  | cons c cs ih =>
    have hne : c ≠ value := fun e => hl (e ▸ List.mem_cons_self)
    rw [find, if_neg hne, ih fun hm => hl (List.mem_cons_of_mem c hm)]
    rfl

theorem find_append {value : CodeUnit} (hl : value ∉ before) :
    find value (before ++ value :: after) = some (before, after) := by
  induction before with
  | nil => exact if_pos rfl
  | cons c cs ih =>
    have hne : c ≠ value := fun e => hl (e ▸ List.mem_cons_self)
    rw [List.cons_append, find, if_neg hne, ih fun hm => hl (List.mem_cons_of_mem c hm)]
    rfl

theorem writeLoop_text (ht : ('}' : CodeUnit) ∉ text) : writeLoop h text s = h.on_text text s := by
  have hf := find_eq_none ht
  rw [writeLoop.eq_def]
  split <;> simp_all

theorem writeLoop_close (ht : ('}' : CodeUnit) ∉ text) :
    writeLoop h (text ++ ('}' : CodeUnit) :: p) s =
    match p with
    | [] => .error "unmatched '\x7d' in format string"
    | d :: p =>
      if d ≠ '}' then .error "unmatched '\x7d' in format string"
      else h.on_text (text ++ [('}' : CodeUnit)]) s >>= fun s => writeLoop h p s := by
  have hf : find '}' (text ++ ('}' : CodeUnit) :: p) = some (text, p) := find_append ht
  rw [writeLoop.eq_def]
  split
  · rename_i hf'
    rw [hf] at hf'
    cases hf'
  · rename_i before hf'
    obtain ⟨rfl, rfl⟩ := Prod.mk.inj (Option.some.inj (hf.symm.trans hf'))
    rfl
  · rename_i before d after hf'
    obtain ⟨rfl, rfl⟩ := Prod.mk.inj (Option.some.inj (hf.symm.trans hf'))
    rfl

/-- The loop for long strings, up to the first opening brace and from there on. -/
theorem parseLong_append (hempty : ∀ s, h.on_text [] s = .ok s) (ht : ('{' : CodeUnit) ∉ text) :
    parseLong h text s = writeLoop h text s ∧
    parseLong h (text ++ ('{' : CodeUnit) :: p) s =
      writeLoop h text s >>= fun s => parseReplacementField h p s >>= fun r =>
        parseLong h r.1 r.2 := by
  have hnil : ∀ s, writeLoop h [] s = .ok s := fun s =>
    (writeLoop_text List.not_mem_nil).trans (hempty s)
  cases text with
  | nil =>
    rw [parseLong.eq_def, parseLong.eq_def, hnil]
    refine ⟨rfl, ?_⟩
    show (if _ then _ else _ : Except String σ) = parseReplacementField h p s >>= _
    rw [if_pos rfl]
    cases hf : parseReplacementField h p s with
    | error e => rfl
    | ok r => rfl
  | cons c text =>
    have hc : c ≠ '{' := fun e => ht (e ▸ List.mem_cons_self)
    have ht' : ('{' : CodeUnit) ∉ text := fun hm => ht (List.mem_cons_of_mem c hm)
    have hw : ∀ s, write h (c :: text) s = writeLoop h (c :: text) s := fun s => if_neg (by simp)
    have hnone := find_eq_none ht'
    have hsome : find '{' (text ++ ('{' : CodeUnit) :: p) = some (text, p) := find_append ht'
    rw [parseLong.eq_def, parseLong.eq_def]
    constructor
    · show (if _ then _ else _ : Except String σ) = _
      rw [if_neg hc, ← hw]
      split
      · rfl
      · rename_i hf
        rw [hnone] at hf
        cases hf
    · show (if _ then _ else _ : Except String σ) = _
      rw [if_neg hc]
      split
      · rename_i hf
        cases hsome.symm.trans hf
      · rename_i before q hf
        obtain ⟨rfl, rfl⟩ := Prod.mk.inj (Option.some.inj (hsome.symm.trans hf))
        rw [hw]
        refine congrArg _ (funext fun s => ?_)
        cases hf : parseReplacementField h p s with
        | error e => rfl
        | ok r => rfl

/-- The loop for small strings over a range without opening braces; `acc` is the text that has not
been handed over yet, and `k` is what the loop does behind the range. -/
theorem parseShort_append {tail acc : List CodeUnit} {k : σ → Except String σ}
    (htail : ∀ t s, parseShort h t tail s = h.on_text t s >>= k)
    (hhead : ∀ d ∈ tail.head?, d ≠ '}') (ha : ('}' : CodeUnit) ∉ acc)
    (ht : ('{' : CodeUnit) ∉ text) :
    parseShort h acc (text ++ tail) s = writeLoop h (acc ++ text) s >>= k := by
  induction hn : text.length using Nat.strongRecOn generalizing acc text s with
  | _ n ih =>
    subst hn
    cases text with
    | nil => rw [List.nil_append, htail, List.append_nil, writeLoop_text ha]
    | cons c text =>
      have ho : c ≠ '{' := fun e => ht (e ▸ List.mem_cons_self)
      have ht' : ('{' : CodeUnit) ∉ text := fun hm => ht (List.mem_cons_of_mem c hm)
      rw [List.cons_append]
      by_cases hc : c = '}'
      · subst hc
        rw [writeLoop_close ha]
        cases text with
        | nil =>
          -- a closing brace at the end, or right before an opening one
          cases tail with
          | nil => exact parseShort_close_nil
          | cons d tail => exact parseShort_close_other (hhead d rfl)
        | cons d text =>
          by_cases hd : d = '}'
          · subst hd
            have ht'' : ('{' : CodeUnit) ∉ text := fun hm => ht' (List.mem_cons_of_mem _ hm)
            rw [List.cons_append, parseShort_close]
            simp only [ne_eq, not_true_eq_false, if_false]
            rw [bind_assoc]
            refine congrArg _ (funext fun s => ?_)
            exact ih text.length (by simp only [List.length_cons]; omega) List.not_mem_nil ht'' rfl
          · rw [List.cons_append, parseShort_close_other hd]
            simp only [ne_eq, hd, not_false_eq_true, if_true]
            rfl
      · have ha' : ('}' : CodeUnit) ∉ acc ++ [c] := by
          rw [List.mem_append, List.mem_singleton]
          rintro (hm | hm)
          · exact ha hm
          · exact hc hm.symm
        rw [parseShort_other ho hc, ih text.length (by simp) ha' ht' rfl, List.append_assoc]
        rfl

/-- Every range is a text without opening braces, and an opening brace with what follows it. -/
theorem exists_text (l : List CodeUnit) : ∃ text, ('{' : CodeUnit) ∉ text ∧
    (l = text ∨ ∃ p, l = text ++ ('{' : CodeUnit) :: p) := by
  cases hf : find '{' l with
  | none =>
    exact ⟨l, not_mem_of_find hf, .inl rfl⟩
  | some r =>
    obtain ⟨before, after⟩ := r
    obtain ⟨rfl, hnot⟩ := find_eq_some hf
    exact ⟨before, hnot, .inr ⟨after, rfl⟩⟩

theorem parse_loops_agree (hempty : ∀ s, h.on_text [] s = .ok s) (l : List CodeUnit) (s : σ) :
    parseShort h [] l s = parseLong h l s := by
  induction hn : l.length using Nat.strongRecOn generalizing l s with
  | _ n ih =>
    subst hn
    obtain ⟨text, ht, rfl | ⟨p, rfl⟩⟩ := exists_text l
    · have hshort := @parseShort_append σ h s l [] [] .ok (fun t s => ?_) (by simp)
        List.not_mem_nil ht
      · rw [List.append_nil, List.nil_append] at hshort
        rw [hshort, (@parseLong_append σ h s l [] hempty ht).1]
        exact bind_pure _
      · rw [parseShort_nil]
        exact (bind_pure _).symm
    · have hshort := @parseShort_append σ h s text (('{' : CodeUnit) :: p) [] _
        (fun t s => parseShort_open) ?_ List.not_mem_nil ht
      · rw [hshort, (parseLong_append hempty ht).2, List.nil_append]
        refine congrArg _ (funext fun s => ?_)
        cases hf : parseReplacementField h p s with
        | error e => rfl
        | ok r =>
          obtain ⟨rest, s'⟩ := r
          have hle := (parseReplacementField_suffix hf).length_le
          exact ih rest.length (by simp; omega) rest s' rfl
      · rintro d hd
        obtain rfl := Option.some.inj hd
        decide

/-- Whichever loop the length asks for. -/
theorem parseFormatString_eq (hempty : ∀ s, h.on_text [] s = .ok s) (l : List CodeUnit) (s : σ) :
    parseFormatString h l s = parseShort h [] l s := by
  unfold parseFormatString
  split_ifs
  · rfl
  · exact (parse_loops_agree hempty l s).symm

end Parse

/-- **The two loops agree.** Where handing over an empty text does nothing, the loop for small
strings and the searches for long ones call the handler alike: from every state they end in the same
state or with the same error, whatever the string and its length. -/
theorem parse_paths_agree {σ : Type} (h : Handler σ) (hempty : ∀ s, h.on_text [] s = .ok s) :
    ∀ format_str s, parseShort h [] format_str s = parseLong h format_str s ∧
      parseFormatString h format_str s = parseLong h format_str s := by
  intro format_str s
  have hagree := parse_loops_agree hempty format_str s
  exact ⟨hagree, (parseFormatString_eq hempty format_str s).trans hagree⟩

/-- A handler that writes the texts to an output, and a question mark for a field. -/
def placeholder : Handler (List CodeUnit) where
  on_text t s := .ok (s ++ t)
  on_arg_id := ⟨fun s => .ok (0, s), fun n s => .ok (n, s), fun _ s => .ok (0, s)⟩
  on_replacement_field _ _ s := .ok (s ++ [('?' : CodeUnit)])
  on_format_specs _ l s :=
    .ok ((l.takeWhile (· != ('}' : CodeUnit))).length, s ++ [('?' : CodeUnit)])

/-- The string `a{{b}}{}`. -/
theorem parse_paths_agree_escaped :
    parseShort placeholder [] [97, 123, 123, 98, 125, 125, 123, 125] [] =
      parseLong placeholder [97, 123, 123, 98, 125, 125, 123, 125] [] :=
  (parse_paths_agree placeholder (fun s => congrArg Except.ok (List.append_nil s)) _ _).1

end SelfStudy.Fmt
