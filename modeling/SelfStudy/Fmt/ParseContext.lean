import SelfStudy.Fmt.FormatString

/-!
# Types of arguments and the parse context

The core types of arguments with the bit sets of them, and `basic_format_parse_context`: the counter
of automatic indexing, which is negative once indexing is manual. In a constant evaluation it also
knows the types of the arguments and looks every id up in them; elsewhere the formatting has its own
validation.
-/

namespace SelfStudy.Fmt

/-- `enum class type`. -/
inductive ArgType
  | none_type
  | int_type
  | uint_type
  | long_long_type
  | ulong_long_type
  | int128_type
  | uint128_type
  | bool_type
  | char_type
  | float_type
  | double_type
  | long_double_type
  | cstring_type
  | string_type
  | pointer_type
  | custom_type
  deriving DecidableEq, Repr

namespace ArgType

def is_integral_type (t : ArgType) : Bool :=
  none_type.ctorIdx < t.ctorIdx && t.ctorIdx ≤ char_type.ctorIdx

def is_arithmetic_type (t : ArgType) : Bool :=
  none_type.ctorIdx < t.ctorIdx && t.ctorIdx ≤ long_double_type.ctorIdx

/-- The bit set with the one type `rhs`. -/
def set (rhs : ArgType) : ℕ := 1 <<< rhs.ctorIdx

/-- `in(t, set)`. -/
def isIn (t : ArgType) (set : ℕ) : Bool := (set >>> t.ctorIdx) &&& 1 ≠ 0

def sint_set : ℕ := set int_type ||| set long_long_type ||| set int128_type

def uint_set : ℕ := set uint_type ||| set ulong_long_type ||| set uint128_type

def bool_set : ℕ := set bool_type

def char_set : ℕ := set char_type

def float_set : ℕ := set float_type ||| set double_type ||| set long_double_type

def string_set : ℕ := set string_type

def cstring_set : ℕ := set cstring_type

def pointer_set : ℕ := set pointer_type

def integral_set : ℕ := sint_set ||| uint_set ||| bool_set ||| char_set

end ArgType

/-- `types` are those of `compile_parse_context`; `none` if not `is_constant_evaluated`. -/
structure ParseContext where
  next_arg_id : ℤ := 0
  types : Option (List ArgType) := none
  deriving DecidableEq, Repr

namespace ParseContext

variable (ctx : ParseContext)

/-- `do_check_arg_id`. -/
def doCheckArgId (id : ℕ) : Except String Unit :=
  match ctx.types with
  | none => .ok ()
  | some types => if types.length ≤ id then .error "argument not found" else .ok ()

/-- `next_arg_id`. -/
def nextArgId : Except String (ℕ × ParseContext) :=
  if ctx.next_arg_id < 0 then
    .error "cannot switch from manual to automatic argument indexing"
  else do
    ctx.doCheckArgId ctx.next_arg_id.toNat
    pure (ctx.next_arg_id.toNat, { ctx with next_arg_id := ctx.next_arg_id + 1 })

/-- `check_arg_id` of an index. -/
def checkArgId (id : ℕ) : Except String ParseContext :=
  if ctx.next_arg_id > 0 then
    .error "cannot switch from automatic to manual argument indexing"
  else do
    ctx.doCheckArgId id
    pure { ctx with next_arg_id := -1 }

/-- `check_arg_id` of a name. -/
def checkArgName : ParseContext := { ctx with next_arg_id := -1 }

/-- `check_dynamic_spec`. -/
def checkDynamicSpec (arg_id : ℕ) : Except String Unit :=
  match ctx.types.bind (·[arg_id]?) with
  | none => .ok ()
  | some t => if t.is_integral_type then .ok () else .error "width/precision is not integer"

end ParseContext

/-- `arg_ref`: where a dynamic width or precision is taken from. -/
inductive ArgRef
  | none
  | index (n : ℕ)
  | name (s : List CodeUnit)
  deriving DecidableEq, Repr

/-- `dynamic_spec_id_handler`. -/
def dynamicSpecIdHandler : IdHandler ParseContext ArgRef where
  on_auto ctx := do
    let (id, ctx) ← ctx.nextArgId
    ctx.checkDynamicSpec id
    pure (.index id, ctx)
  on_index id ctx := do
    let ctx ← ctx.checkArgId id
    ctx.checkDynamicSpec id
    pure (.index id, ctx)
  on_name s ctx := .ok (.name s, ctx.checkArgName)

/-! ## Counts -/

/-- `parse_dynamic_spec` of the range `c :: rest`: what is left of it, `value`, `ref` and the
context. -/
def parseDynamicSpec (c : CodeUnit) (rest : List CodeUnit) (value : ℤ) (ref : ArgRef)
    (ctx : ParseContext) : Except String (List CodeUnit × ℤ × ArgRef × ParseContext) :=
  if isDigit c then
    let (val, begin) := parseNonnegativeInt (c :: rest) (-1)
    if val ≠ -1 then .ok (begin, val, ref, ctx) else .error "number is too big"
  else if c = '{' then
    match rest with
    | [] => .error "invalid format string"
    | d :: rest => do
      let (begin, ref, ctx) ← parseArgId dynamicSpecIdHandler d rest ctx
      match begin with
      | [] => .error "invalid format string"
      | e :: begin =>
        if e = '}' then pure (begin, value, ref, ctx) else .error "invalid format string"
  else .ok (c :: rest, value, ref, ctx)

/-- `parse_precision`; the range begins behind the point. -/
def parsePrecision (begin : List CodeUnit) (value : ℤ) (ref : ArgRef) (ctx : ParseContext) :
    Except String (List CodeUnit × ℤ × ArgRef × ParseContext) :=
  match begin with
  | [] => .error "invalid precision"
  | c :: rest =>
    if c = '}' then .error "invalid precision" else parseDynamicSpec c rest value ref ctx

end SelfStudy.Fmt
