import SelfStudy.Fmt.SpecGrammar
import SelfStudy.Fmt.Template
import SelfStudy.Fmt.WriteText

/-!
# Formatting

`vformat_to` with the handler that it parses a format string with: arguments of the built-in types
other than floating point, the two visitors that write them, and the widths and precisions that are
taken from arguments. What depends on a locale is a parameter.
-/

namespace SelfStudy.Fmt

/-! ## Arguments -/

/-- `basic_format_arg` of a built-in type; a string of type `const char*` has an address besides its
text. -/
inductive Arg
  | int (t : IntType) (value : BitVec t.bits)
  | bool (value : Bool)
  | char (value : CodeUnit)
  | cstring (address : ℕ) (s : Option (List CodeUnit))
  | string (s : List CodeUnit)
  | pointer (address : ℕ)

def IntType.argType : IntType → ArgType
  | .int => .int_type
  | .uint => .uint_type
  | .long_long => .long_long_type
  | .ulong_long => .ulong_long_type
  | .int128 => .int128_type
  | .uint128 => .uint128_type

def Arg.type : Arg → ArgType
  | .int t _ => t.argType
  | .bool _ => .bool_type
  | .char _ => .char_type
  | .cstring .. => .cstring_type
  | .string _ => .string_type
  | .pointer _ => .pointer_type

/-- `basic_format_args`: the arguments, and `get_id` of a name. -/
structure FormatArgs where
  args : List Arg
  get_id : List CodeUnit → Option ℕ

def FormatArgs.getArg (args : FormatArgs) (id : ℕ) : Except String Arg :=
  match args.args[id]? with
  | none => .error "argument not found"
  | some arg => .ok arg

def FormatArgs.getNamed (args : FormatArgs) (name : List CodeUnit) : Except String Arg :=
  match args.get_id name with
  | none => .error "argument not found"
  | some id => args.getArg id

/-! ## Writing an argument -/

/-- What is outside the formatting: `is_printable`, `is_utf8` of the build, and `write_loc` of an
integer for the locale handed over or for the default one. -/
structure Platform where
  printable : Printable
  utf8 : Bool
  writeLoc : Bool → ℤ → FormatSpecs → Option (List CodeUnit)

def checkCharSpecs (specs : FormatSpecs) : Except String Bool :=
  if specs.type ≠ .none ∧ specs.type ≠ .chr ∧ specs.type ≠ .debug then .ok false
  else if specs.align = .numeric ∨ specs.sign ≠ .none ∨ specs.alt then
    .error "invalid format specifier for char"
  else .ok true

section Write

variable (env : Platform)

def writeInteger (given : Bool) (t : IntType) (value : BitVec t.bits) (specs : FormatSpecs) :
    List CodeUnit :=
  match if specs.localized then env.writeLoc given (t.toInt value) specs else none with
  | some text => text
  | none => (writeInt t value specs).text

def writeBytes (bytes : List CodeUnit) (specs : FormatSpecs) : List CodeUnit :=
  (writePadded .left specs bytes.length bytes.length bytes).text

def writePtr (address : ℕ) (specs : FormatSpecs) : List CodeUnit :=
  let num_digits := countDigitsRadix 4 64 address
  (writePadded .right specs (num_digits + 2) (num_digits + 2)
    ([('0' : CodeUnit), 'x'] ++ radixDigits 4 address num_digits false)).text

def boolText (value : Bool) : List CodeUnit :=
  if value then ['t', 'r', 'u', 'e'] else ['f', 'a', 'l', 's', 'e']

/-- `arg_formatter`. -/
def writeArg (specs : FormatSpecs) : Arg → Except String (List CodeUnit)
  | .int t value => .ok (writeInteger env true t value specs)
  | .bool value =>
    .ok (if specs.type ≠ .none ∧ specs.type ≠ .string then
      writeInteger env false .int (if value then 1#32 else 0#32) specs
    else writeBytes (boolText value) specs)
  | .char value => do
    let is_char ← checkCharSpecs specs
    pure (if is_char then (writeChar env.printable specs value).text
      else writeInteger env true .uint (BitVec.ofNat 32 value.toNat) specs)
  | .cstring address s =>
    if specs.type = .pointer then .ok (writePtr address specs)
    else
      match s with
      | none => .error "string pointer is null"
      | some s => .ok (writeString env.printable env.utf8 specs s).text
  | .string s => .ok (writeString env.printable env.utf8 specs s).text
  | .pointer address => .ok (writePtr address specs)

/-- `default_arg_formatter`. -/
def writeDefault : Arg → Except String (List CodeUnit)
  | .int t value => .ok (writeIntDefault t value).text
  | .bool value => .ok (writeBytes (boolText value) {})
  | .char value => .ok [value]
  | .cstring _ none => .error "string pointer is null"
  | .cstring _ (some s) => .ok s
  | .string s => .ok s
  | .pointer address => .ok (writePtr address {})

end Write

/-! ## Dynamic specifiers -/

/-- `width_checker` and `precision_checker`; `static_cast<unsigned long long>` keeps 64 bits. -/
def checkCount (what : String) : Arg → Except String ℕ
  | .int t value =>
    if isNegative t value then .error ("negative " ++ what) else .ok (value.toNat % 2 ^ 64)
  | _ => .error (what ++ " is not integer")

def getDynamicSpec (what : String) (arg : Arg) : Except String ℤ := do
  let value ← checkCount what arg
  if value > intMax then .error "number is too big" else pure value

/-- `handle_dynamic_spec`: the value afterwards. -/
def handleDynamicSpec (what : String) (args : FormatArgs) (value : ℤ) :
    ArgRef → Except String ℤ
  | .none => .ok value
  | .index id => args.getArg id >>= getDynamicSpec what
  | .name name => args.getNamed name >>= getDynamicSpec what

/-! ## The format string -/

/-- `format_handler`: its state is the parse context and the output. -/
def formatHandler (env : Platform) (args : FormatArgs) :
    Handler (ParseContext × List CodeUnit) where
  on_text text s := .ok (s.1, s.2 ++ text)
  on_arg_id := {
    on_auto := fun s => s.1.nextArgId.map fun r => (r.1, r.2, s.2)
    on_index := fun id s => (s.1.checkArgId id).map fun ctx => (id, ctx, s.2)
    on_name := fun name s =>
      match args.get_id name with
      | none => .error "argument not found"
      | some id => .ok (id, s.1.checkArgName, s.2) }
  on_replacement_field id _ s := do
    let arg ← args.getArg id
    let text ← writeDefault arg
    pure (s.1, s.2 ++ text)
  on_format_specs id begin s := do
    let arg ← args.getArg id
    let (rest, specs, ctx) ← parseFormatSpecs begin {} s.1 arg.type
    let width ← handleDynamicSpec "width" args specs.width specs.width_ref
    let precision ← handleDynamicSpec "precision" args specs.precision specs.precision_ref
    if rest.head? ≠ some ('}' : CodeUnit) then .error "missing '\x7d' in format string"
    else do
      let text ← writeArg env { specs.toFormatSpecs with width, precision } arg
      pure (begin.length - rest.length, ctx, s.2 ++ text)

/-- `vformat_to` into an empty buffer. -/
def vformatTo (env : Platform) (fmt : List CodeUnit) (args : FormatArgs) :
    Except String (List CodeUnit) :=
  if fmt = [('{' : CodeUnit), '}'] then args.getArg 0 >>= writeDefault
  else (parseFormatString (formatHandler env args) fmt ({}, [])).map Prod.snd

/-! ## The handler -/

theorem parseFormatSpecs_close (arg_type : ArgType) (rest : List CodeUnit) (ctx : ParseContext) :
    parseFormatSpecs (('}' : CodeUnit) :: rest) {} ctx arg_type =
      .ok (('}' : CodeUnit) :: rest, {}, ctx) := by
  rw [parseFormatSpecs_cons, specTurn_close (firstChar_cases '}' rest)]
  rfl

/-- `on_format_specs` of the formatting, for an argument that is there. -/
theorem formatHandler_specs {env : Platform} {args : FormatArgs} {id : ℕ} {arg : Arg}
    (harg : args.getArg id = .ok arg) (begin : List CodeUnit) (s : ParseContext × List CodeUnit) :
    (formatHandler env args).on_format_specs id begin s =
      parseFormatSpecs begin {} s.1 arg.type >>= fun r =>
        handleDynamicSpec "width" args r.2.1.width r.2.1.width_ref >>= fun width =>
          handleDynamicSpec "precision" args r.2.1.precision r.2.1.precision_ref >>=
            fun precision =>
              if r.1.head? ≠ some ('}' : CodeUnit) then .error "missing '\x7d' in format string"
              else writeArg env { r.2.1.toFormatSpecs with width, precision } arg >>= fun text =>
                pure (begin.length - r.1.length, r.2.2, s.2 ++ text) := by
  show (args.getArg id >>= _) = _
  rw [harg]
  rfl

/-- Texts may be handed over in parts. -/
def formatHandlerLawful (env : Platform) (args : FormatArgs) :
    (formatHandler env args).LawfulText :=
  ⟨fun t s => (s.1, s.2 ++ t), fun _ _ => rfl, fun s => by rw [List.append_nil],
    fun _ _ s => by rw [List.append_assoc]⟩

/-- The shortcut for the format string of one empty field agrees with parsing it. -/
theorem vformatTo_eq (env : Platform) (args : FormatArgs) (fmt : List CodeUnit) :
    vformatTo env fmt args =
      (parseFormatString (formatHandler env args) fmt ({}, [])).map Prod.snd := by
  have hl := formatHandlerLawful env args
  unfold vformatTo
  split_ifs with hfmt
  · have hfield : parseReplacementField (formatHandler env args) [('}' : CodeUnit)] ({}, []) =
        (args.getArg 0 >>= writeDefault).map fun text => ([], { next_arg_id := 1 }, text) := by
      show (args.getArg 0 >>= fun arg => writeDefault arg >>= fun text => pure _) >>= _ = _
      cases args.getArg 0 with
      | error e => rfl
      | ok arg =>
        show (writeDefault arg >>= fun text => pure _) >>= _ = (writeDefault arg).map _
        cases writeDefault arg <;> rfl
    rw [hfmt, parseFormatString_eq hl.on_text_nil, parseShort_open, hl.on_text_nil]
    show _ = Except.map _ (parseReplacementField _ _ _ >>= _)
    rw [hfield]
    cases args.getArg 0 >>= writeDefault with
    | error e => rfl
    | ok text =>
      show _ = Except.map _ (parseShort _ [] [] _)
      rw [parseShort_nil, hl.on_text_nil]
      rfl
  · rfl

/-! ## Empty specifiers -/

theorem writeString_default (P : Printable) (utf8 : Bool) (s : List CodeUnit) :
    (writeString P utf8 {} s).text = s := by
  have htake : s.take s.length = s := List.take_length
  unfold writeString
  dsimp only
  have hprecision : ¬((0 : ℤ) ≤ -1 ∧ (-1 : ℤ).toNat < s.length) := fun h => absurd h.1 (by decide)
  rw [if_neg (by decide), if_neg hprecision, if_neg (by decide), if_neg (by decide), htake]
  exact List.append_nil s

/-- The visitor for fields without specifiers agrees with the other one for default specifiers. -/
theorem writeArg_default (env : Platform) (arg : Arg) : writeArg env {} arg = writeDefault arg := by
  cases arg with
  | int t value =>
    show Except.ok (writeInt t value {}).text = .ok (writeIntDefault t value).text
    rw [writeIntDefault_eq]
  | bool value => rfl
  | char value => rfl
  | cstring address s =>
    cases s with
    | none => rfl
    | some s => exact congrArg Except.ok (writeString_default env.printable env.utf8 s)
  | string s => exact congrArg Except.ok (writeString_default env.printable env.utf8 s)
  | pointer address => rfl

/-- A text, or a field without specifiers. -/
def Segment.Plain : Segment → Prop
  | .text _ => True
  | .field id specs => id.Valid ∧ specs = none

/-- The field with a colon and nothing behind it. -/
def Segment.colon : Segment → Segment
  | .text t => .text t
  | .field id _ => .field id (some [])

section Colon

variable (env : Platform) (args : FormatArgs)

/-- A field with empty specifiers is a field without. -/
theorem formatHandler_colon (id : ℕ) (rest rest' : List CodeUnit)
    (s : ParseContext × List CodeUnit) :
    (formatHandler env args).on_format_specs id (('}' : CodeUnit) :: rest) s =
      ((formatHandler env args).on_replacement_field id (('}' : CodeUnit) :: rest') s).map
        fun s => (0, s) := by
  show _ = (args.getArg id >>= fun arg => writeDefault arg >>= fun text => pure _).map _
  cases harg : args.getArg id with
  | error e =>
    show (args.getArg id >>= _) = _
    rw [harg]
    rfl
  | ok arg =>
    rw [formatHandler_specs harg, parseFormatSpecs_close]
    show (writeArg env {} arg >>= fun text => pure (_ - _, _)) =
      (writeDefault arg >>= fun text => pure _).map _
    rw [writeArg_default, Nat.sub_self]
    cases writeDefault arg <;> rfl

theorem perform_colon {segments : List Segment} (h : ∀ g ∈ segments, g.Plain)
    (s : ParseContext × List CodeUnit) :
    perform (formatHandler env args) (segments.map Segment.colon) s =
      perform (formatHandler env args) segments s := by
  induction segments generalizing s with
  | nil => rfl
  | cons g segments ih =>
    obtain ⟨hg, h⟩ := List.forall_mem_cons.mp h
    have ih : perform (formatHandler env args) (segments.map Segment.colon) =
        perform (formatHandler env args) segments := funext fun s => ih h s
    cases g with
    | text t =>
      show (formatHandler env args).on_text t s >>= _ = _
      rw [ih]
      rfl
    | field id specs =>
      obtain ⟨-, rfl⟩ := hg
      show performField _ id (some []) _ s >>= _ = performField _ id none _ s >>= _
      rw [ih]
      congr 1
      unfold performField
      refine congrArg _ (funext fun r => ?_)
      show (formatHandler env args).on_format_specs r.1 (('}' : CodeUnit) :: _) r.2 >>= _ = _
      rw [formatHandler_colon env args r.1 _ (render segments), bind_map]
      show _ >>= _ = (formatHandler env args).on_replacement_field r.1 _ r.2
      cases (formatHandler env args).on_replacement_field r.1
        (('}' : CodeUnit) :: render segments) r.2 <;> rfl

theorem Segment.Plain.stops {g : Segment} (h : g.Plain) :
    g.Valid ∧ g.Stops (formatHandler env args) := by
  cases g with
  | text t => exact ⟨trivial, trivial⟩
  | field id specs =>
    obtain ⟨hid, rfl⟩ := h
    exact ⟨hid, by rintro t ⟨⟩⟩

/-- Behind the colon nothing is read. -/
theorem Segment.Plain.colon_stops {g : Segment} (h : g.Plain) :
    g.colon.Valid ∧ g.colon.Stops (formatHandler env args) := by
  cases g with
  | text t => exact ⟨trivial, trivial⟩
  | field id specs =>
    refine ⟨h.1, ?_⟩
    rintro t ht id rest s n s' hok
    obtain rfl := Option.some.inj ht
    rw [List.nil_append, formatHandler_colon env args id rest []] at hok
    obtain ⟨_, -, hn⟩ := map_eq_ok.mp hok
    exact (Prod.mk.inj hn).1.symm

/-- What is formatted is what the handler performs. -/
theorem vformatTo_render {segments : List Segment}
    (h : ∀ g ∈ segments, g.Valid ∧ g.Stops (formatHandler env args)) :
    vformatTo env (render segments) args =
      (perform (formatHandler env args) segments ({}, [])).map Prod.snd := by
  have hl := formatHandlerLawful env args
  rw [vformatTo_eq, parseFormatString_eq hl.on_text_nil, parseShort_render hl h]

end Colon

/-- **The shortcuts agree.** In a format string of texts and fields without specifiers it makes no
difference whether the fields have a colon: the visitor for fields without specifiers, the shortcut
for the format string of one field and the shorter ways of writing an argument all give what the
general way gives for default specifiers, or the same error. -/
theorem default_field_agrees (env : Platform) (args : FormatArgs) (segments : List Segment)
    (h : ∀ g ∈ segments, g.Plain) :
    vformatTo env (render (segments.map Segment.colon)) args =
      vformatTo env (render segments) args := by
  have hplain : ∀ g ∈ segments, g.Valid ∧ g.Stops (formatHandler env args) :=
    fun g hg => (h g hg).stops env args
  have hcolon : ∀ g ∈ segments.map Segment.colon, g.Valid ∧ g.Stops (formatHandler env args) :=
    List.forall_mem_map.mpr fun g hg => (h g hg).colon_stops env args
  rw [vformatTo_render env args hcolon, vformatTo_render env args hplain, perform_colon env args h]

/-- The format string `x{}{}` for a `bool` and a `char`. -/
theorem default_field_agrees_mixed :
    vformatTo ⟨visibleAscii, true, fun _ _ _ => none⟩
        (render ([.text [120], .field .auto none, .field .auto none].map Segment.colon))
        ⟨[.bool true, .char 97], fun _ => none⟩ = .ok [120, 't', 'r', 'u', 'e', 97] := by
  have hplain : ∀ g ∈ [Segment.text [120], .field .auto none, .field .auto none], g.Plain := by
    simp only [List.forall_mem_cons]
    exact ⟨trivial, ⟨trivial, rfl⟩, ⟨trivial, rfl⟩, List.forall_mem_nil _⟩
  rw [default_field_agrees _ _ _ hplain, vformatTo_render _ _ fun g hg => (hplain g hg).stops _ _]
  rfl

end SelfStudy.Fmt
