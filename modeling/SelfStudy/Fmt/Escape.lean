import SelfStudy.Fmt.CodePoints

/-!
# Escaped text

The debug presentation `?`: `find_escape` looks for the next code point that is not written as it
is, `write_escaped_cp` writes it with a backslash, in the shortest of three hexadecimal forms, and a
code unit that begins no character as if it were the code point of its value. A build for which
`is_utf8` is false looks at code units instead, and copies those from `0x80` on.
-/

namespace SelfStudy.Fmt

open Lib

/-- `is_printable`, of which the tables do not matter here: nothing is printable beyond the last code
point. -/
structure Printable where
  isPrintable : ℕ → Bool
  beyond : ∀ cp, 0x110000 ≤ cp → isPrintable cp = false

section Write

variable (P : Printable)

/-- `needs_escape`. -/
def needsEscape (cp : ℕ) : Bool :=
  cp < 0x20 || cp == 0x7f || cp == 34 || cp == 92 || !P.isPrintable cp

/-- `find_escape_result`; the end is missing where nothing is found. -/
structure FindEscapeResult where
  begin : ℕ
  stop : Option ℕ
  cp : ℕ
  deriving DecidableEq, Repr

/-- `find_escape<char>`, of the code units behind the first `begin`. -/
def findEscapeUnits (begin : ℕ) : List CodeUnit → FindEscapeResult
  | [] => ⟨begin, none, 0⟩
  | c :: str =>
    if 0x80 ≤ c.toNat then findEscapeUnits (begin + 1) str
    else if needsEscape P c.toNat then ⟨begin, some (begin + 1), c.toNat⟩
    else findEscapeUnits (begin + 1) str

/-- `find_escape`. -/
def findEscape (utf8 : Bool) (str : List CodeUnit) : FindEscapeResult :=
  if utf8 then
    forEachCodepoint str (fun cp begin sv result =>
      if needsEscape P cp then (false, ⟨begin, some (begin + sv.length), cp⟩) else (true, result))
      ⟨str.length, none, 0⟩
  else findEscapeUnits P 0 str

/-- `write_codepoint<width>`. -/
def writeCodepoint (width : ℕ) (kind : CodeUnit) (cp : ℕ) : List CodeUnit :=
  ('\\' : CodeUnit) :: kind ::
    (formatUint 4 (List.replicate width ('0' : CodeUnit)) cp width false).1

/-- `write_escaped_cp` of a code point and its view. -/
def writeEscapedCp (cp : ℕ) (sv : List CodeUnit) : List CodeUnit :=
  if cp = 10 then ['\\', 'n']
  else if cp = 13 then ['\\', 'r']
  else if cp = 9 then ['\\', 't']
  else if cp = 34 ∨ cp = 39 ∨ cp = 92 then ['\\', UInt8.ofNat cp]
  else if cp < 0x100 then writeCodepoint 2 'x' cp
  else if cp < 0x10000 then writeCodepoint 4 'u' cp
  else if cp < 0x110000 then writeCodepoint 8 'U' cp
  else sv.flatMap fun c => writeCodepoint 2 'x' (c.toNat &&& 0xff)

variable {P}

/-! ### What is found -/

/-- What `find_escape` divides a text into: code points, or code units. -/
def Divides (utf8 : Bool) (t : List CodeUnit) (pieces : List (ℕ × List CodeUnit)) : Prop :=
  if utf8 = true then Decodes t pieces else pieces = t.map fun c => (c.toNat, [c])

variable (P) in
/-- `find_escape` stops at the code point or code unit. -/
def escapes (utf8 : Bool) (cp : ℕ) : Bool := needsEscape P cp && (utf8 || decide (cp < 0x80))

variable (P) in
/-- The visitor of `find_escape`. -/
def escapeVisitor (utf8 : Bool) (cp begin : ℕ) (sv : List CodeUnit) (result : FindEscapeResult) :
    Bool × FindEscapeResult :=
  if escapes P utf8 cp then (false, ⟨begin, some (begin + sv.length), cp⟩) else (true, result)

/-- Behind a text that is as long as `k`, everything is found `k` later. -/
def FindEscapeResult.shift (k : ℕ) (r : FindEscapeResult) : FindEscapeResult :=
  ⟨r.begin + k, r.stop.map (· + k), r.cp⟩

section Find

variable {utf8 : Bool} {t sv : List CodeUnit} {cp : ℕ} {pieces : List (ℕ × List CodeUnit)}

theorem Divides.uncons (h : Divides utf8 t ((cp, sv) :: pieces)) :
    t.take sv.length = sv ∧ sv ≠ [] ∧ Divides utf8 (t.drop sv.length) pieces := by
  cases utf8 with
  | true =>
    have hd : Decodes t ((cp, sv) :: pieces) := h
    exact hd.uncons.2
  | false =>
    have hd : (cp, sv) :: pieces = t.map fun c => (c.toNat, [c]) := h
    cases t with
    | nil => cases hd
    | cons c t =>
      obtain ⟨hc, hrest⟩ := List.cons.inj hd
      obtain ⟨rfl, rfl⟩ := Prod.mk.inj hc
      exact ⟨rfl, List.cons_ne_nil _ _, hrest⟩

theorem Divides.eq_nil_of_pieces (h : Divides utf8 t []) : t = [] := by
  cases utf8 with
  | true =>
    have hd : Decodes t [] := h
    exact hd.eq_nil_of_pieces
  | false => exact List.map_eq_nil_iff.mp (Eq.symm h)

theorem exists_divides (utf8 : Bool) (t : List CodeUnit) : ∃ pieces, Divides utf8 t pieces := by
  cases utf8 with
  | true => exact exists_decodes t
  | false => exact ⟨_, rfl⟩

theorem findEscapeUnits_eq (begin : ℕ) (t : List CodeUnit) :
    findEscapeUnits P begin t = visit (escapeVisitor P false) (t.map fun c => (c.toNat, [c])) begin
      ⟨begin + t.length, none, 0⟩ := by
  induction t generalizing begin with
  | nil => rfl
  | cons c t ih =>
    have hend : begin + (c :: t).length = begin + 1 + t.length := by
      rw [List.length_cons]
      omega
    rw [findEscapeUnits, ih, List.map_cons, visit, hend, escapeVisitor, escapes, Bool.false_or]
    by_cases hc : 0x80 ≤ c.toNat
    · rw [if_pos hc, decide_eq_false (Nat.not_lt.mpr hc), Bool.and_false, if_neg Bool.false_ne_true]
      rfl
    · rw [if_neg hc, decide_eq_true (Nat.not_le.mp hc), Bool.and_true]
      by_cases hcp : needsEscape P c.toNat = true
      · rw [if_pos hcp, if_pos hcp]
        rfl
      · rw [if_neg hcp, if_neg hcp]
        rfl

theorem findEscape_eq (h : Divides utf8 t pieces) :
    findEscape P utf8 t = visit (escapeVisitor P utf8) pieces 0 ⟨t.length, none, 0⟩ := by
  cases utf8 with
  | true =>
    have hvisitor : escapeVisitor P true = fun cp begin sv result =>
        if needsEscape P cp then (false, ⟨begin, some (begin + sv.length), cp⟩)
        else (true, result) := by
      unfold escapeVisitor escapes
      simp only [Bool.true_or, Bool.and_true]
    rw [findEscape, if_pos rfl, forEachCodepoint_eq h, hvisitor]
  | false =>
    obtain rfl : pieces = t.map fun c => (c.toNat, [c]) := h
    rw [findEscape, if_neg Bool.false_ne_true, findEscapeUnits_eq, Nat.zero_add]

theorem visit_shift (pieces : List (ℕ × List CodeUnit)) (k begin : ℕ) (r : FindEscapeResult) :
    visit (escapeVisitor P utf8) pieces (begin + k) (r.shift k) =
      (visit (escapeVisitor P utf8) pieces begin r).shift k := by
  induction pieces generalizing begin with
  | nil => rfl
  | cons piece pieces ih =>
    rw [visit, visit, escapeVisitor, escapeVisitor]
    by_cases hcp : escapes P utf8 piece.1 = true
    · rw [if_pos hcp, if_pos hcp]
      show (⟨begin + k, some (begin + k + piece.2.length), piece.1⟩ : FindEscapeResult) =
        ⟨begin + k, some (begin + piece.2.length + k), piece.1⟩
      rw [Nat.add_right_comm]
    · rw [if_neg hcp, if_neg hcp]
      dsimp only
      rw [if_pos rfl, if_pos rfl, Nat.add_right_comm, ih]

theorem findEscape_nil : findEscape P utf8 [] = ⟨0, none, 0⟩ := by
  obtain ⟨pieces, h⟩ := exists_divides utf8 []
  cases pieces with
  | nil => exact findEscape_eq h
  | cons piece pieces =>
    obtain ⟨htake, hne, -⟩ := h.uncons
    rw [List.take_nil] at htake
    exact absurd htake.symm hne

theorem findEscape_found (h : Divides utf8 t ((cp, sv) :: pieces)) (hcp : escapes P utf8 cp = true) :
    findEscape P utf8 t = ⟨0, some sv.length, cp⟩ := by
  rw [findEscape_eq h, visit, escapeVisitor, if_pos hcp, Nat.zero_add]
  rfl

theorem findEscape_skip (h : Divides utf8 t ((cp, sv) :: pieces))
    (hcp : ¬ escapes P utf8 cp = true) :
    findEscape P utf8 t = (findEscape P utf8 (t.drop sv.length)).shift sv.length := by
  obtain ⟨htake, -, hr⟩ := h.uncons
  have hlen : t.length = (t.drop sv.length).length + sv.length := by
    have := congrArg List.length htake
    rw [List.length_take] at this
    rw [List.length_drop]
    omega
  rw [findEscape_eq h, findEscape_eq hr, visit, escapeVisitor, if_neg hcp]
  dsimp only
  rw [if_pos rfl, ← visit_shift, hlen]
  rfl

/-- What is found has a code unit at least. -/
theorem findEscape_pos {e : ℕ} (he : (findEscape P utf8 t).stop = some e) : 0 < e := by
  obtain ⟨pieces, h⟩ := exists_divides utf8 t
  induction pieces generalizing t e with
  | nil =>
    rw [h.eq_nil_of_pieces, findEscape_nil] at he
    cases he
  | cons piece pieces ih =>
    obtain ⟨cp, sv⟩ := piece
    obtain ⟨-, hne, hr⟩ := h.uncons
    have hpos := List.length_pos_iff.mpr hne
    by_cases hcp : escapes P utf8 cp = true
    · rw [findEscape_found h hcp] at he
      exact Option.some.inj he ▸ hpos
    · rw [findEscape_skip h hcp] at he
      obtain ⟨e', -, rfl⟩ := Option.map_eq_some_iff.mp he
      omega

end Find

variable (P) in
/-- The loop of `write_escaped_string`. -/
def writeEscapedLoop (utf8 : Bool) (t : List CodeUnit) : List CodeUnit :=
  t.take (findEscape P utf8 t).begin ++
    match h : (findEscape P utf8 t).stop with
    | none => []
    | some e =>
      writeEscapedCp (findEscape P utf8 t).cp
        ((t.drop (findEscape P utf8 t).begin).take (e - (findEscape P utf8 t).begin)) ++
        if t.drop e ≠ [] then writeEscapedLoop utf8 (t.drop e) else []
termination_by t.length
decreasing_by
  rename_i hne
  have hpos := findEscape_pos h
  have := List.length_pos_iff.mpr hne
  rw [List.length_drop] at this ⊢
  omega

variable (P) in
/-- `write_escaped_string`. -/
def writeEscapedString (utf8 : Bool) (str : List CodeUnit) : List CodeUnit :=
  ('"' : CodeUnit) :: (writeEscapedLoop P utf8 str ++ [('"' : CodeUnit)])

variable (P) in
/-- `write_escaped_char`; as a `char` is signed, a code unit from `0x80` on is a large code point. -/
def writeEscapedChar (v : CodeUnit) : List CodeUnit :=
  let cp := if v.toNat < 0x80 then v.toNat else 0xffffff00 + v.toNat
  ('\'' : CodeUnit) ::
    ((if (needsEscape P cp ∧ v ≠ '"') ∨ v = '\'' then writeEscapedCp cp [v] else [v]) ++
      [('\'' : CodeUnit)])

/-! ### What is written -/

section Loop

variable {utf8 : Bool} {t sv : List CodeUnit} {cp : ℕ} {pieces : List (ℕ × List CodeUnit)}

theorem writeEscapedLoop_none (h : (findEscape P utf8 t).stop = none) :
    writeEscapedLoop P utf8 t = t.take (findEscape P utf8 t).begin := by
  rw [writeEscapedLoop]
  split
  · exact List.append_nil _
  · rename_i he
    rw [h] at he
    cases he

theorem writeEscapedLoop_some {e : ℕ} (h : (findEscape P utf8 t).stop = some e) :
    writeEscapedLoop P utf8 t = t.take (findEscape P utf8 t).begin ++
      (writeEscapedCp (findEscape P utf8 t).cp
        ((t.drop (findEscape P utf8 t).begin).take (e - (findEscape P utf8 t).begin)) ++
          if t.drop e ≠ [] then writeEscapedLoop P utf8 (t.drop e) else []) := by
  rw [writeEscapedLoop]
  split
  · rename_i he
    rw [h] at he
    cases he
  · rename_i e' he
    rw [h] at he
    cases he
    rfl

theorem writeEscapedLoop_nil : writeEscapedLoop P utf8 [] = [] := by
  rw [writeEscapedLoop_none (by rw [findEscape_nil]), List.take_nil]

/-- A code point that needs no escape is copied. -/
theorem writeEscapedLoop_skip (h : Divides utf8 t ((cp, sv) :: pieces))
    (hcp : ¬ escapes P utf8 cp = true) :
    writeEscapedLoop P utf8 t = sv ++ writeEscapedLoop P utf8 (t.drop sv.length) := by
  obtain ⟨htake, -, -⟩ := h.uncons
  have ht := List.take_append_drop sv.length t
  rw [htake] at ht
  generalize t.drop sv.length = rest at ht
  have hskip := findEscape_skip h hcp
  rw [← ht, List.drop_left] at hskip
  rw [← ht]
  have hbegin : (findEscape P utf8 (sv ++ rest)).begin =
      sv.length + (findEscape P utf8 rest).begin := by
    rw [hskip]
    exact Nat.add_comm ..
  have hstop : (findEscape P utf8 (sv ++ rest)).stop =
      (findEscape P utf8 rest).stop.map (· + sv.length) := by
    rw [hskip]
    rfl
  have hpoint : (findEscape P utf8 (sv ++ rest)).cp = (findEscape P utf8 rest).cp := by
    rw [hskip]
    rfl
  cases hr : (findEscape P utf8 rest).stop with
  | none =>
    rw [hr] at hstop
    rw [writeEscapedLoop_none hstop, writeEscapedLoop_none hr, hbegin,
      List.take_length_add_append]
  | some e =>
    rw [hr] at hstop
    have hstop : (findEscape P utf8 (sv ++ rest)).stop = some (sv.length + e) :=
      hstop.trans (congrArg some (Nat.add_comm ..))
    rw [writeEscapedLoop_some hstop, writeEscapedLoop_some hr, hbegin, hpoint,
      List.take_length_add_append, List.drop_length_add_append, List.drop_length_add_append,
      Nat.add_sub_add_left, List.append_assoc]

/-- The text of a piece. -/
def escapedPiece (P : Printable) (utf8 : Bool) (piece : ℕ × List CodeUnit) : List CodeUnit :=
  if escapes P utf8 piece.1 then writeEscapedCp piece.1 piece.2 else piece.2

/-- The loop writes one piece after the other. -/
theorem writeEscapedLoop_eq (h : Divides utf8 t pieces) :
    writeEscapedLoop P utf8 t = pieces.flatMap (escapedPiece P utf8) := by
  induction pieces generalizing t with
  | nil => rw [h.eq_nil_of_pieces, writeEscapedLoop_nil, List.flatMap_nil]
  | cons piece pieces ih =>
    obtain ⟨cp, sv⟩ := piece
    obtain ⟨htake, -, hr⟩ := h.uncons
    rw [List.flatMap_cons, escapedPiece]
    by_cases hcp : escapes P utf8 cp = true
    · have hf := findEscape_found h hcp
      rw [if_pos hcp, writeEscapedLoop_some (e := sv.length) (by rw [hf]), hf]
      dsimp only
      rw [List.take_zero, List.nil_append, List.drop_zero, Nat.sub_zero, htake, ← ih hr]
      split_ifs with hnil
      · rfl
      · rw [not_not.mp hnil, writeEscapedLoop_nil]
    · rw [if_neg hcp, writeEscapedLoop_skip h hcp, ih hr]

end Loop

end Write

/-! ## Reading -/

/-- The value of a hexadecimal digit. -/
def hexValue (c : CodeUnit) : Option ℕ :=
  if isDigit c then some (c.toNat - 48)
  else if 97 ≤ c.toNat ∧ c.toNat ≤ 102 then some (c.toNat - 87)
  else none

/-- The encoding of a code point. -/
def codePointText (v : ℕ) : Option (List CodeUnit) :=
  if v.isValidChar then some (String.utf8EncodeChar (Char.ofNat v)) else none

/-- A code point of `width` hexadecimal digits. -/
def readHex (width : ℕ) (t : List CodeUnit) : Option (List CodeUnit × List CodeUnit) :=
  if width ≤ t.length then
    (((t.take width).mapM hexValue).bind fun ds => codePointText (ofNumeral 16 ds)).map
      fun text => (text, t.drop width)
  else none

/-- What stands behind a backslash, beginning with `kind`. -/
def readEscape (kind : CodeUnit) (t : List CodeUnit) : Option (List CodeUnit × List CodeUnit) :=
  if kind = 'n' then some (['\n'], t)
  else if kind = 'r' then some (['\r'], t)
  else if kind = 't' then some (['\t'], t)
  else if kind = '"' ∨ kind = '\'' ∨ kind = '\\' then some ([kind], t)
  else if kind = 'x' then readHex 2 t
  else if kind = 'u' then readHex 4 t
  else if kind = 'U' then readHex 8 t
  else none

theorem readHex_length {width : ℕ} {t text rest : List CodeUnit}
    (h : readHex width t = some (text, rest)) : rest.length ≤ t.length := by
  unfold readHex at h
  split_ifs at h
  obtain ⟨_, -, h⟩ := Option.map_eq_some_iff.mp h
  rw [← (Prod.mk.inj h).2, List.length_drop]
  exact Nat.sub_le ..

theorem readEscape_length {kind : CodeUnit} {t text rest : List CodeUnit}
    (h : readEscape kind t = some (text, rest)) : rest.length ≤ t.length := by
  unfold readEscape at h
  split_ifs at h
  case pos | pos | pos | pos => exact (Prod.mk.inj (Option.some.inj h)).2 ▸ le_rfl
  all_goals exact readHex_length h

/-- The text up to the next `quote`, and what follows that. -/
def readText (quote : CodeUnit) : List CodeUnit → Option (List CodeUnit × List CodeUnit)
  | [] => none
  | c :: t =>
    if c = quote then some ([], t)
    else if c = '\\' then
      match t with
      | [] => none
      | kind :: t =>
        match h : readEscape kind t with
        | none => none
        | some (text, rest) => (readText quote rest).map fun r => (text ++ r.1, r.2)
    else (readText quote t).map fun r => (c :: r.1, r.2)
termination_by t => t.length
decreasing_by
  · have := readEscape_length h
    simp only [List.length_cons]
    omega
  · exact Nat.lt_succ_self _

section Read

variable {quote c kind : CodeUnit} {t text rest : List CodeUnit}

theorem readText_quote : readText quote (quote :: t) = some ([], t) := by
  rw [readText.eq_def]
  exact if_pos rfl

theorem readText_plain (hq : c ≠ quote) (hb : c ≠ '\\') :
    readText quote (c :: t) = (readText quote t).map fun r => (c :: r.1, r.2) := by
  rw [readText.eq_def]
  exact (if_neg hq).trans (if_neg hb)

theorem readText_escape (hq : quote ≠ '\\') (h : readEscape kind t = some (text, rest)) :
    readText quote (('\\' : CodeUnit) :: kind :: t) =
      (readText quote rest).map fun r => (text ++ r.1, r.2) := by
  rw [readText, if_neg hq.symm, if_pos rfl]
  split
  · rename_i hnone
    rw [h] at hnone
    cases hnone
  · rename_i text' rest' hsome
    rw [h] at hsome
    cases hsome
    rfl

theorem readText_append (ht : ∀ c ∈ text, c ≠ quote ∧ c ≠ '\\') :
    readText quote (text ++ t) = (readText quote t).map fun r => (text ++ r.1, r.2) := by
  induction text with
  | nil =>
    rw [List.nil_append]
    cases readText quote t with
    | none => rfl
    | some r => rfl
  | cons c text ih =>
    obtain ⟨⟨hq, hb⟩, ht⟩ := List.forall_mem_cons.mp ht
    rw [List.cons_append, readText_plain hq hb, ih ht, Option.map_map]
    rfl

/-! ### Hexadecimal digits -/

theorem hexValue_radixDigit : ∀ d < 16, hexValue (radixDigit 4 false d) = some d := by
  decide +kernel

theorem mapM_hexValue {ds : List ℕ} (h : ∀ d ∈ ds, d < 16) :
    (ds.map (radixDigit 4 false)).mapM hexValue = some ds := by
  induction ds with
  | nil => rfl
  | cons d ds ih =>
    obtain ⟨hd, h⟩ := List.forall_mem_cons.mp h
    rw [List.map_cons, List.mapM_cons, hexValue_radixDigit d hd, ih h]
    rfl

/-- The digits of `write_codepoint`. -/
theorem writeCodepoint_eq {width n : ℕ} (hn : n < 16 ^ width) (hw : 0 < width) :
    writeCodepoint width kind n = ('\\' : CodeUnit) :: kind ::
      (List.replicate (width - (numeral 16 n).length) 0 ++ numeral 16 n).map
        (radixDigit 4 false) := by
  have hlen : (radixText 4 false n).length ≤ width := by
    rw [length_radixText (by decide)]
    exact Nat.log_lt_of_lt_pow' hw.ne' hn
  have h := @formatUintLoop_eq 4 (by decide) false n
    (List.replicate width ('0' : CodeUnit)) [] (by rw [List.length_replicate]; exact hlen)
  rw [List.append_nil, List.append_nil, List.length_replicate, List.take_replicate,
    Nat.min_eq_left (Nat.sub_le ..)] at h
  unfold writeCodepoint formatUint
  rw [h, List.map_append, List.map_replicate, radixText, List.length_map]
  rfl

theorem codePointText_toNat (c : Char) : codePointText c.toNat = some (String.utf8EncodeChar c) := by
  unfold codePointText
  rw [if_pos (show c.toNat.isValidChar from c.valid), Char.ofNat_toNat]

/-- What `write_codepoint` writes is read back. -/
theorem readHex_codepoint {width : ℕ} {c : Char} (hn : c.toNat < 16 ^ width) (hw : 0 < width) :
    readHex width ((List.replicate (width - (numeral 16 c.toNat).length) 0 ++
      numeral 16 c.toNat).map (radixDigit 4 false) ++ t) =
        some (String.utf8EncodeChar c, t) := by
  have hle : (numeral 16 c.toNat).length ≤ width := by
    rw [length_numeral (by decide)]
    exact Nat.log_lt_of_lt_pow' hw.ne' hn
  generalize hds : List.replicate (width - (numeral 16 c.toNat).length) 0 ++
    numeral 16 c.toNat = ds
  have hlen : (ds.map (radixDigit 4 false)).length = width := by
    rw [List.length_map, ← hds, List.length_append, List.length_replicate]
    omega
  have hdigits : ∀ d ∈ ds, d < 16 := by
    intro d hd
    rw [← hds] at hd
    rcases List.mem_append.mp hd with hd | hd
    · rw [List.eq_of_mem_replicate hd]
      decide
    · exact lt_of_mem_numeral (by decide) hd
  unfold readHex
  rw [if_pos (by rw [List.length_append]; omega), ← hlen, List.take_left, List.drop_left,
    mapM_hexValue hdigits, Option.bind_some, ← hds, ofNumeral_replicate_zero,
    ofNumeral_numeral (by decide), codePointText_toNat]
  rfl

/-- A code point in hexadecimal digits is read back. -/
theorem readText_codepoint (hq : quote ≠ '\\') {width : ℕ} {c : Char}
    (hk : ∀ t, readEscape kind t = readHex width t) (hn : c.toNat < 16 ^ width) (hw : 0 < width) :
    readText quote (writeCodepoint width kind c.toNat ++ t) =
      (readText quote t).map fun r => (String.utf8EncodeChar c ++ r.1, r.2) := by
  rw [writeCodepoint_eq hn hw, List.cons_append, List.cons_append]
  exact readText_escape hq ((hk _).trans (readHex_codepoint hn hw))

/-- What `write_escaped_cp` writes of a character is read back. -/
theorem readText_escapedCp (hq : quote ≠ '\\') (c : Char) (sv : List CodeUnit) :
    readText quote (writeEscapedCp c.toNat sv ++ t) =
      (readText quote t).map fun r => (String.utf8EncodeChar c ++ r.1, r.2) := by
  have hlt := (char_spec c).2
  unfold writeEscapedCp
  split_ifs with hn hr ht hquote hx hu hU
  · rw [encode_one (by omega), hn]
    exact readText_escape hq rfl
  · rw [encode_one (by omega), hr]
    exact readText_escape hq rfl
  · rw [encode_one (by omega), ht]
    exact readText_escape hq rfl
  · rw [encode_one (by omega)]
    obtain h | h | h := hquote <;> rw [h] <;> exact readText_escape hq rfl
  · exact readText_codepoint hq (fun _ => rfl) hx (by decide)
  · exact readText_codepoint hq (fun _ => rfl) hu (by decide)
  · exact readText_codepoint hq (fun _ => rfl) (by omega) (by decide)
  · omega

theorem toNat_ofNat_unit (b : CodeUnit) : (Char.ofNat b.toNat).toNat = b.toNat := by
  have hb := b.toNat_lt
  unfold Char.ofNat
  rw [dif_pos (.inl (by omega))]
  rfl

/-- A code unit that begins no character is read as the character of its value. -/
theorem readText_escapedUnit (hq : quote ≠ '\\') (b : CodeUnit) {cp : ℕ} (hcp : 0x110000 ≤ cp) :
    readText quote (writeEscapedCp cp [b] ++ t) =
      (readText quote t).map fun r =>
        (String.utf8EncodeChar (Char.ofNat b.toNat) ++ r.1, r.2) := by
  have hb := b.toNat_lt
  have hvalue : (Char.ofNat b.toNat).toNat = b.toNat := toNat_ofNat_unit b
  have hmask : b.toNat &&& 0xff = b.toNat := Nat.and_two_pow_sub_one_of_lt_two_pow (n := 8) hb
  unfold writeEscapedCp
  rw [if_neg (by omega), if_neg (by omega), if_neg (by omega), if_neg (by omega),
    if_neg (by omega), if_neg (by omega), if_neg (by omega), List.flatMap_cons, List.flatMap_nil,
    List.append_nil, hmask]
  have h : readText quote (writeCodepoint 2 'x' (Char.ofNat b.toNat).toNat ++ t) = _ :=
    readText_codepoint hq (fun _ => rfl) (by omega) (by decide)
  rw [hvalue] at h
  exact h

end Read

/-! ## Round trip -/

/-- The text that is read back for a piece: a code unit that begins no character becomes the
character of its value. -/
def repairedPiece (piece : ℕ × List CodeUnit) : List CodeUnit :=
  if piece.1 = invalidCodePoint then
    piece.2.flatMap fun b => String.utf8EncodeChar (Char.ofNat b.toNat)
  else piece.2

theorem repairedPiece_char (c : Char) :
    repairedPiece (c.toNat, String.utf8EncodeChar c) = String.utf8EncodeChar c := by
  have hlt := (char_spec c).2
  refine if_neg ?_
  unfold invalidCodePoint
  dsimp only
  omega

theorem le_of_mem_encode {c : Char} (h1 : ¬ c.toNat ≤ 0x7f) :
    ∀ b ∈ String.utf8EncodeChar c, 0x80 ≤ b.toNat := by
  by_cases h2 : c.toNat ≤ 0x7ff
  · rw [encode_two h1 h2]
    simp only [List.forall_mem_cons, UInt8.toNat_ofNat']
    refine ⟨by omega, by omega, List.forall_mem_nil _⟩
  by_cases h3 : c.toNat ≤ 0xffff
  · rw [encode_three h1 h2 h3]
    simp only [List.forall_mem_cons, UInt8.toNat_ofNat']
    refine ⟨by omega, by omega, by omega, List.forall_mem_nil _⟩
  · rw [encode_four h1 h2 h3]
    simp only [List.forall_mem_cons, UInt8.toNat_ofNat']
    refine ⟨by omega, by omega, by omega, by omega, List.forall_mem_nil _⟩

/-- What is not escaped is no quote and no backslash. -/
theorem ne_of_not_escapes {P : Printable} {utf8 : Bool} {cp : ℕ}
    (h : ¬ escapes P utf8 cp = true) : cp ≠ 34 ∧ cp ≠ 92 := by
  constructor <;> rintro rfl <;> exact h (by cases utf8 <;> simp [escapes, needsEscape])

/-- The code units of a character that is not escaped are no quote and no backslash. -/
theorem plain_of_not_escapes {P : Printable} {utf8 : Bool} {c : Char}
    (hc : ¬ escapes P utf8 c.toNat = true) :
    ∀ b ∈ String.utf8EncodeChar c, b ≠ '"' ∧ b ≠ '\\' := by
  have hq : ('"' : CodeUnit).toNat = 34 := rfl
  have hb : ('\\' : CodeUnit).toNat = 92 := rfl
  by_cases h1 : c.toNat ≤ 0x7f
  · obtain ⟨hc34, hc92⟩ := ne_of_not_escapes hc
    rw [encode_one h1, List.forall_mem_singleton]
    refine ⟨fun h => hc34 ?_, fun h => hc92 ?_⟩
    · rw [← hq, toNat_of_ofNat_eq h (by omega)]
    · rw [← hb, toNat_of_ofNat_eq h (by omega)]
  · intro b hmem
    have hle := le_of_mem_encode h1 b hmem
    refine ⟨fun h => ?_, fun h => ?_⟩
    · rw [h, hq] at hle
      omega
    · rw [h, hb] at hle
      omega

/-- The pieces of a text are read back. -/
theorem readText_pieces {P : Printable} {s : List CodeUnit} {pieces : List (ℕ × List CodeUnit)}
    (h : Decodes s pieces) (t : List CodeUnit) :
    readText '"' (pieces.flatMap (escapedPiece P true) ++ t) =
      (readText '"' t).map fun r => (pieces.flatMap repairedPiece ++ r.1, r.2) := by
  induction h with
  | nil =>
    rw [List.flatMap_nil, List.nil_append]
    cases readText '"' t with
    | none => rfl
    | some r => rfl
  | char c _ ih =>
    rw [List.flatMap_cons, List.flatMap_cons, List.append_assoc, repairedPiece_char, escapedPiece]
    split_ifs with hc
    · rw [readText_escapedCp (by decide), ih, Option.map_map]
      simp only [Function.comp_def, List.append_assoc]
    · rw [readText_append (plain_of_not_escapes hc), ih, Option.map_map]
      simp only [Function.comp_def, List.append_assoc]
  | @invalid b _ _ _ _ ih =>
    have hesc : escapes P true invalidCodePoint = true := by
      unfold escapes needsEscape
      rw [P.beyond _ (by decide), Bool.not_false, Bool.or_true, Bool.true_or, Bool.and_true]
    rw [List.flatMap_cons, List.flatMap_cons, List.append_assoc, escapedPiece, if_pos hesc,
      readText_escapedUnit (by decide) b (show 0x110000 ≤ invalidCodePoint by decide), ih,
      Option.map_map, repairedPiece, if_pos rfl, List.flatMap_cons, List.flatMap_nil,
      List.append_nil]
    simp only [Function.comp_def, List.append_assoc]

/-- Its code units are read back as they are. -/
theorem readText_units (P : Printable) (s t : List CodeUnit) :
    readText '"' ((s.map fun c => (c.toNat, [c])).flatMap (escapedPiece P false) ++ t) =
      (readText '"' t).map fun r => (s ++ r.1, r.2) := by
  induction s with
  | nil =>
    rw [List.map_nil, List.flatMap_nil, List.nil_append]
    cases readText '"' t with
    | none => rfl
    | some r => rfl
  | cons c s ih =>
    have hvalue := toNat_ofNat_unit c
    rw [List.map_cons, List.flatMap_cons, List.append_assoc, escapedPiece]
    split_ifs with hc
    · have hlt : c.toNat ≤ 0x7f := by
        have := of_decide_eq_true ((Bool.and_eq_true _ _).mp hc).2
        omega
      have h := @readText_escapedCp '"' ((s.map fun c => (c.toNat, [c])).flatMap
        (escapedPiece P false) ++ t) (by decide) (Char.ofNat c.toNat) [c]
      rw [hvalue, encode_one (by omega), hvalue, UInt8.ofNat_toNat] at h
      rw [h, ih, Option.map_map]
      rfl
    · have hq : c ≠ '"' := by
        rintro rfl
        exact (ne_of_not_escapes hc).1 rfl
      have hb : c ≠ '\\' := by
        rintro rfl
        exact (ne_of_not_escapes hc).2 rfl
      rw [List.singleton_append, readText_plain hq hb, ih, Option.map_map]
      rfl

/-- A text in quotes, and what follows it. -/
def readQuoted (quote : CodeUnit) : List CodeUnit → Option (List CodeUnit × List CodeUnit)
  | [] => none
  | c :: t => if c = quote then readText quote t else none

theorem readQuoted_writeEscapedString (P : Printable) {s : List CodeUnit}
    {pieces : List (ℕ × List CodeUnit)} (h : Decodes s pieces) (rest : List CodeUnit) :
    readQuoted '"' (writeEscapedString P true s ++ rest) =
      some (pieces.flatMap repairedPiece, rest) := by
  unfold writeEscapedString
  rw [List.cons_append, List.append_assoc, readQuoted, if_pos rfl,
    writeEscapedLoop_eq (show Divides true s pieces from h), readText_pieces h,
    List.singleton_append, readText_quote, Option.map_some, List.append_nil]

theorem readQuoted_writeEscapedUnits (P : Printable) (s rest : List CodeUnit) :
    readQuoted '"' (writeEscapedString P false s ++ rest) = some (s, rest) := by
  unfold writeEscapedString
  rw [List.cons_append, List.append_assoc, readQuoted, if_pos rfl,
    writeEscapedLoop_eq (show Divides false s _ from rfl), readText_units,
    List.singleton_append, readText_quote, Option.map_some, List.append_nil]

/-- A code unit that begins no character is replaced by two. -/
theorem length_repaired {s : List CodeUnit} {pieces : List (ℕ × List CodeUnit)}
    (h : Decodes s pieces) : s.length ≤ (pieces.flatMap repairedPiece).length ∧
      ((pieces.flatMap repairedPiece).length = s.length →
        ∃ cs : List Char, s = cs.flatMap String.utf8EncodeChar) := by
  induction h with
  | nil => exact ⟨le_rfl, fun _ => ⟨[], rfl⟩⟩
  | char c _ ih =>
    obtain ⟨hle, hcs⟩ := ih
    rw [List.flatMap_cons, repairedPiece_char, List.length_append, List.length_append]
    refine ⟨by omega, fun heq => ?_⟩
    obtain ⟨cs, rfl⟩ := hcs (by omega)
    exact ⟨c :: cs, rfl⟩
  | @invalid b rest _ hb _ ih =>
    have hlt := b.toNat_lt
    have hvalue := toNat_ofNat_unit b
    have h1 : ¬ (Char.ofNat b.toNat).toNat ≤ 0x7f := by
      intro h
      refine hb (Char.ofNat b.toNat) ⟨rest, ?_⟩
      rw [encode_one h, hvalue, UInt8.ofNat_toNat]
      rfl
    rw [List.flatMap_cons, repairedPiece, if_pos rfl, List.flatMap_cons, List.flatMap_nil,
      List.append_nil, encode_two h1 (by omega)]
    simp only [List.length_append, List.length_cons, List.length_nil]
    refine ⟨by omega, fun heq => ?_⟩
    omega

theorem decodes_chars (cs : List Char) : Decodes (cs.flatMap String.utf8EncodeChar)
    (cs.map fun c => (c.toNat, String.utf8EncodeChar c)) := by
  induction cs with
  | nil => exact .nil
  | cons c cs ih => exact .char c ih

theorem repaired_chars (cs : List Char) :
    (cs.map fun c => (c.toNat, String.utf8EncodeChar c)).flatMap repairedPiece =
      cs.flatMap String.utf8EncodeChar := by
  induction cs with
  | nil => rfl
  | cons c cs ih =>
    rw [List.map_cons, List.flatMap_cons, List.flatMap_cons, repairedPiece_char, ih]

/-- **The escaped text is read back** up to its own quote, whatever follows it and whatever is
printable. Where the build takes it for UTF-8, each code unit that begins no character comes back as
the character of its value, so that the text is read as it was exactly if it was in UTF-8; where it
does not, the text is read as it was. -/
theorem escaped_string_read_back (P : Printable) (s rest : List CodeUnit) :
    (∃ pieces, Decodes s pieces ∧ readQuoted '"' (writeEscapedString P true s ++ rest) =
      some (pieces.flatMap repairedPiece, rest)) ∧
    (readQuoted '"' (writeEscapedString P true s ++ rest) = some (s, rest) ↔
      ∃ cs : List Char, s = cs.flatMap String.utf8EncodeChar) ∧
    readQuoted '"' (writeEscapedString P false s ++ rest) = some (s, rest) := by
  obtain ⟨pieces, h⟩ := exists_decodes s
  have hread := readQuoted_writeEscapedString P h rest
  refine ⟨⟨pieces, h, hread⟩, ?_, readQuoted_writeEscapedUnits P s rest⟩
  rw [hread]
  constructor
  · intro heq
    have htext := (Prod.mk.inj (Option.some.inj heq)).1
    exact (length_repaired h).2 (congrArg List.length htext)
  · rintro ⟨cs, rfl⟩
    rw [h.unique (decodes_chars cs), repaired_chars]

end SelfStudy.Fmt
