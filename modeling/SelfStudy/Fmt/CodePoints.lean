import SelfStudy.Fmt.Padding
import SelfStudy.Fmt.Utf8

/-!
# Code points of a text

`for_each_codepoint` decodes blocks of four code units where they stand, and the last three out of a
buffer of zeros. What it hands over does not show this: a text has one division into the encodings of
characters and single code units that begin none, and these are visited in their order. So are the
columns of a text counted, and so is a text cut.
-/

namespace SelfStudy.Fmt

/-! ## The code points of a text -/

/-- `invalid_code_point`. -/
def invalidCodePoint : ℕ := 2 ^ 32 - 1

/-- A text as its code points, each with its code units. -/
inductive Decodes : List CodeUnit → List (ℕ × List CodeUnit) → Prop
  | nil : Decodes [] []
  | char (c : Char) {rest : List CodeUnit} {pieces : List (ℕ × List CodeUnit)} :
    Decodes rest pieces →
      Decodes (String.utf8EncodeChar c ++ rest) ((c.toNat, String.utf8EncodeChar c) :: pieces)
  | invalid {b : CodeUnit} {rest : List CodeUnit} {pieces : List (ℕ × List CodeUnit)} :
    (∀ c : Char, ¬ String.utf8EncodeChar c <+: b :: rest) → Decodes rest pieces →
      Decodes (b :: rest) ((invalidCodePoint, [b]) :: pieces)

/-- What `decode` of `for_each_codepoint` hands over for the code units at `buf_ptr`: the code point
and its length. -/
def decodeAt (buf : List CodeUnit) : ℕ × ℕ :=
  let d := utf8Decode (buf.getD 0 0) (buf.getD 1 0) (buf.getD 2 0) (buf.getD 3 0)
  if d.e ≠ 0 then (invalidCodePoint, 1) else (d.c, d.next)

theorem decodeAt_pos (buf : List CodeUnit) : 0 < (decodeAt buf).2 := by
  unfold decodeAt utf8Decode
  dsimp only
  split_ifs <;> dsimp only <;> omega

section ForEach

variable (str : List CodeUnit) {σ : Type} (f : ℕ → ℕ → List CodeUnit → σ → Bool × σ)

/-- The loop over blocks of four code units, which stops at the last three or where `f` says so. The
function `f` is told the code point, where its view begins, and the view. -/
def blockLoop (p : ℕ) (s : σ) : Option ℕ × σ :=
  if p + 4 ≤ str.length then
    let d := decodeAt (str.drop p)
    let r := f d.1 p ((str.drop p).take d.2) s
    if r.1 then blockLoop (p + d.2) r.2 else (none, r.2)
  else (some p, s)
termination_by str.length - p
decreasing_by
  have := decodeAt_pos (str.drop p)
  omega

/-- The loop over the last code units, which are read out of `buf`. -/
def tailLoop (buf : List CodeUnit) (num_chars_left buf_ptr p : ℕ) (s : σ) : σ :=
  let d := decodeAt (buf.drop buf_ptr)
  let r := f d.1 p ((str.drop p).take d.2) s
  if r.1 = true ∧ buf_ptr + d.2 < num_chars_left then
    tailLoop buf num_chars_left (buf_ptr + d.2) (p + d.2) r.2
  else r.2
termination_by num_chars_left - buf_ptr
decreasing_by
  have := decodeAt_pos (buf.drop buf_ptr)
  omega

/-- What follows the loop over the blocks. -/
def visitTail : Option ℕ × σ → σ
  | (none, s) => s
  | (some p, s) =>
    let num_chars_left := str.length - p
    if num_chars_left ≠ 0 then
      tailLoop str f (str.drop p ++ List.replicate (7 - num_chars_left) 0) num_chars_left 0 p s
    else s

/-- `for_each_codepoint`. -/
def forEachCodepoint (s : σ) : σ := visitTail str f (blockLoop str f 0 s)

end ForEach

/-- Handing over pieces, the first of which begins at `begin`, until `f` says to stop. -/
def visit {σ : Type} (f : ℕ → ℕ → List CodeUnit → σ → Bool × σ) :
    List (ℕ × List CodeUnit) → ℕ → σ → σ
  | [], _, s => s
  | (cp, sv) :: pieces, begin, s =>
    let r := f cp begin sv s
    if r.1 then visit f pieces (begin + sv.length) r.2 else r.2

/-! ### One piece -/

theorem encode_ne_nil (c : Char) : String.utf8EncodeChar c ≠ [] := by
  rw [← List.length_pos_iff, String.length_utf8EncodeChar]
  exact c.utf8Size_pos

theorem length_encode_le (c : Char) : (String.utf8EncodeChar c).length ≤ 4 := by
  rw [String.length_utf8EncodeChar]
  exact c.utf8Size_le_four

/-- Only the character zero has a zero, and it is nothing else. -/
theorem not_mem_tail_encode (c : Char) : (0 : CodeUnit) ∉ (String.utf8EncodeChar c).tail := by
  have hne : ∀ x < 64, UInt8.ofNat (x + 0x80) ≠ 0 := by decide
  have h0 (n : ℕ) : UInt8.ofNat (n % 0x40 + 0x80) ≠ 0 := hne _ (Nat.mod_lt _ (by decide))
  by_cases h1 : c.toNat ≤ 0x7f
  · rw [encode_one h1]
    exact List.not_mem_nil
  by_cases h2 : c.toNat ≤ 0x7ff
  · rw [encode_two h1 h2]
    simp only [List.tail_cons, List.mem_singleton]
    exact (h0 _).symm
  by_cases h3 : c.toNat ≤ 0xffff
  · rw [encode_three h1 h2 h3]
    simp only [List.tail_cons, List.mem_cons, List.not_mem_nil, or_false, not_or]
    exact ⟨(h0 _).symm, (h0 _).symm⟩
  · rw [encode_four h1 h2 h3]
    simp only [List.tail_cons, List.mem_cons, List.not_mem_nil, or_false, not_or]
    exact ⟨(h0 _).symm, (h0 _).symm, (h0 _).symm⟩

/-- The encoding of a character does not reach into the zeros behind a text. -/
theorem encode_prefix_zeros {c : Char} {t : List CodeUnit} (ht : t ≠ []) {n : ℕ}
    (h : String.utf8EncodeChar c <+: t ++ List.replicate n 0) : String.utf8EncodeChar c <+: t := by
  obtain h | ⟨u, hu⟩ := List.prefix_or_prefix_of_prefix h (List.prefix_append t _)
  · exact h
  rw [← hu, List.prefix_append_right_inj] at h
  obtain ⟨b, t, rfl⟩ := List.exists_cons_of_ne_nil ht
  cases u with
  | nil => exact ⟨[], by rw [← hu, List.append_nil, List.append_nil]⟩
  | cons x u =>
    have hx : x = 0 := List.eq_of_mem_replicate (h.subset List.mem_cons_self)
    have hmem : x ∈ (String.utf8EncodeChar c).tail := by
      rw [← hu]
      exact List.mem_append_right t List.mem_cons_self
    exact absurd (hx ▸ hmem) (not_mem_tail_encode c)

theorem getD_zeros (t : List CodeUnit) (n i : ℕ) :
    (t ++ List.replicate n 0).getD i 0 = t.getD i 0 := by
  rw [List.getD_eq_getElem?_getD, List.getD_eq_getElem?_getD, List.getElem?_append]
  by_cases hi : i < t.length
  · rw [if_pos hi]
  · rw [if_neg hi, List.getElem?_replicate, List.getElem?_eq_none (by omega)]
    split_ifs <;> rfl

/-- The four code units that are decoded. -/
theorem quad_eq (t : List CodeUnit) :
    [t.getD 0 0, t.getD 1 0, t.getD 2 0, t.getD 3 0] = (t ++ List.replicate 4 0).take 4 := by
  rcases t with _ | ⟨a, _ | ⟨b, _ | ⟨c, _ | ⟨d, t⟩⟩⟩⟩ <;> rfl

theorem prefix_quad_iff {c : Char} {t : List CodeUnit} (ht : t ≠ []) :
    String.utf8EncodeChar c <+: [t.getD 0 0, t.getD 1 0, t.getD 2 0, t.getD 3 0] ↔
      String.utf8EncodeChar c <+: t := by
  rw [quad_eq, List.prefix_take_iff]
  exact ⟨fun h => encode_prefix_zeros ht h.1,
    fun h => ⟨h.trans (List.prefix_append t _), length_encode_le c⟩⟩

theorem decodeAt_zeros (t : List CodeUnit) (n : ℕ) :
    decodeAt (t ++ List.replicate n 0) = decodeAt t := by
  unfold decodeAt
  rw [getD_zeros, getD_zeros, getD_zeros, getD_zeros]

/-- `decode` at the encoding of a character. -/
theorem decodeAt_char (c : Char) (rest : List CodeUnit) :
    decodeAt (String.utf8EncodeChar c ++ rest) = (c.toNat, (String.utf8EncodeChar c).length) := by
  have hne : String.utf8EncodeChar c ++ rest ≠ [] := by
    intro h
    exact encode_ne_nil c (List.append_eq_nil_iff.mp h).1
  unfold decodeAt
  rw [utf8Decode_of_encode ((prefix_quad_iff hne).mpr (List.prefix_append _ _))]
  rfl

/-- `decode` where no character is encoded. -/
theorem decodeAt_invalid {t : List CodeUnit} (ht : t ≠ [])
    (h : ∀ c : Char, ¬ String.utf8EncodeChar c <+: t) : decodeAt t = (invalidCodePoint, 1) := by
  refine if_pos fun he => ?_
  obtain ⟨c, -, hc⟩ := exists_of_utf8Decode he
  exact h c ((prefix_quad_iff ht).mp (hc ▸ List.take_prefix _ _))

/-! ### All pieces -/

/-- The first piece is what is decoded. -/
theorem Decodes.uncons {t sv : List CodeUnit} {cp : ℕ} {pieces : List (ℕ × List CodeUnit)}
    (h : Decodes t ((cp, sv) :: pieces)) :
    decodeAt t = (cp, sv.length) ∧ t.take sv.length = sv ∧ sv ≠ [] ∧
      Decodes (t.drop sv.length) pieces := by
  cases h with
  | char c hd =>
    refine ⟨decodeAt_char c _, List.take_left, encode_ne_nil c, ?_⟩
    rw [List.drop_left]
    exact hd
  | invalid hb hd =>
    exact ⟨decodeAt_invalid (List.cons_ne_nil _ _) hb, rfl, List.cons_ne_nil _ _, hd⟩

theorem Decodes.eq_nil {pieces : List (ℕ × List CodeUnit)} (h : Decodes [] pieces) :
    pieces = [] := by
  cases pieces with
  | nil => rfl
  | cons piece pieces =>
    obtain ⟨-, htake, hne, -⟩ := h.uncons
    rw [List.take_nil] at htake
    exact absurd htake.symm hne

theorem Decodes.eq_nil_of_pieces {t : List CodeUnit} (h : Decodes t []) : t = [] := by
  cases h
  rfl

theorem exists_decodes (t : List CodeUnit) : ∃ pieces, Decodes t pieces := by
  induction ht : t.length using Nat.strong_induction_on generalizing t with
  | _ n ih =>
    cases t with
    | nil => exact ⟨[], .nil⟩
    | cons b rest =>
      by_cases h : ∃ c : Char, String.utf8EncodeChar c <+: b :: rest
      · obtain ⟨c, t, hc⟩ := h
        have hpos := List.length_pos_iff.mpr (encode_ne_nil c)
        have hlen := congrArg List.length hc
        rw [List.length_append] at hlen
        obtain ⟨pieces, hp⟩ := ih t.length (by omega) t rfl
        exact ⟨_, hc ▸ Decodes.char c hp⟩
      · rw [List.length_cons] at ht
        obtain ⟨pieces, hp⟩ := ih rest.length (by omega) rest rfl
        exact ⟨_, .invalid (not_exists.mp h) hp⟩

theorem Decodes.unique {t : List CodeUnit} {pieces other : List (ℕ × List CodeUnit)}
    (h : Decodes t pieces) (h' : Decodes t other) : pieces = other := by
  induction pieces generalizing t other with
  | nil =>
    cases h
    exact h'.eq_nil.symm
  | cons piece pieces ih =>
    cases other with
    | nil =>
      cases h'
      exact h.eq_nil
    | cons piece' other =>
      obtain ⟨cp, sv⟩ := piece
      obtain ⟨cp', sv'⟩ := piece'
      obtain ⟨hd, ht, -, hr⟩ := h.uncons
      obtain ⟨hd', ht', -, hr'⟩ := h'.uncons
      obtain ⟨hcp, hlen⟩ := Prod.mk.inj (hd.symm.trans hd')
      rw [hlen, ht'] at ht
      rw [hlen] at hr
      rw [hcp, ht, ih hr hr']

section Visit

variable {str : List CodeUnit} {σ : Type} {f : ℕ → ℕ → List CodeUnit → σ → Bool × σ}
  {pieces : List (ℕ × List CodeUnit)}

/-- The last code units, of which `buf` is a copy that ends with zeros. -/
theorem tailLoop_eq {p0 n i : ℕ} (hi : p0 + i < str.length)
    (h : Decodes (str.drop (p0 + i)) pieces) (s : σ) :
    tailLoop str f (str.drop p0 ++ List.replicate n 0) (str.length - p0) i (p0 + i) s =
      visit f pieces (p0 + i) s := by
  induction pieces generalizing i s with
  | nil =>
    have hnil := List.drop_eq_nil_iff.mp h.eq_nil_of_pieces
    omega
  | cons piece pieces ih =>
    obtain ⟨cp, sv⟩ := piece
    obtain ⟨hd, ht, hne, hr⟩ := h.uncons
    have hbuf : (str.drop p0 ++ List.replicate n 0).drop i =
        str.drop (p0 + i) ++ List.replicate n 0 := by
      rw [List.drop_append_of_le_length (by rw [List.length_drop]; omega), List.drop_drop]
    rw [List.drop_drop, Nat.add_assoc] at hr
    rw [tailLoop, visit, hbuf, decodeAt_zeros, hd, ht]
    dsimp only
    by_cases hgo : (f cp (p0 + i) sv s).1 = true
    · rw [if_pos hgo]
      by_cases hmore : i + sv.length < str.length - p0
      · rw [if_pos ⟨hgo, hmore⟩, Nat.add_assoc]
        exact ih (by omega) hr _
      · -- the last piece
        rw [List.drop_eq_nil_of_le (by omega)] at hr
        rw [if_neg (fun h => hmore h.2), hr.eq_nil]
        rfl
    · rw [if_neg hgo, if_neg (fun h => hgo h.1)]

theorem visitTail_tail {p : ℕ} (h : Decodes (str.drop p) pieces) (s : σ) :
    visitTail str f (some p, s) = visit f pieces p s := by
  unfold visitTail
  dsimp only
  by_cases hp : str.length - p = 0
  · rw [if_neg (not_not.mpr hp)]
    rw [List.drop_eq_nil_of_le (by omega)] at h
    rw [h.eq_nil]
    rfl
  · rw [if_pos hp]
    exact tailLoop_eq (i := 0) (by omega) h s

/-- The loop over the blocks, and what follows it. -/
theorem visitTail_eq {p : ℕ} (h : Decodes (str.drop p) pieces) (s : σ) :
    visitTail str f (blockLoop str f p s) = visit f pieces p s := by
  induction pieces generalizing p s with
  | nil =>
    have hnil := List.drop_eq_nil_iff.mp h.eq_nil_of_pieces
    rw [blockLoop, if_neg (by omega)]
    exact visitTail_tail h s
  | cons piece pieces ih =>
    rw [blockLoop]
    by_cases hp : p + 4 ≤ str.length
    · obtain ⟨cp, sv⟩ := piece
      obtain ⟨hd, ht, -, hr⟩ := h.uncons
      rw [List.drop_drop] at hr
      rw [if_pos hp, visit, hd]
      dsimp only
      rw [ht]
      by_cases hgo : (f cp p sv s).1 = true
      · rw [if_pos hgo, if_pos hgo]
        exact ih hr _
      · rw [if_neg hgo, if_neg hgo]
        rfl
    · rw [if_neg hp]
      exact visitTail_tail h s

end Visit

theorem forEachCodepoint_eq {str : List CodeUnit} {pieces : List (ℕ × List CodeUnit)}
    (h : Decodes str pieces) {σ : Type} (f : ℕ → ℕ → List CodeUnit → σ → Bool × σ) (s : σ) :
    forEachCodepoint str f s = visit f pieces 0 s := visitTail_eq (p := 0) h s

/-- **What is visited.** A text has one division into the encodings of characters and code units that
begin none, and `for_each_codepoint` hands over its pieces in their order, with their places, until
it is told to stop; the blocks and the buffer of zeros do not show. -/
theorem for_each_codepoint_exact (str : List CodeUnit) : ∃ pieces, Decodes str pieces ∧
    (∀ other, Decodes str other → other = pieces) ∧
      ∀ {σ : Type} (f : ℕ → ℕ → List CodeUnit → σ → Bool × σ) (s : σ),
        forEachCodepoint str f s = visit f pieces 0 s := by
  obtain ⟨pieces, h⟩ := exists_decodes str
  exact ⟨pieces, h, fun other ho => ho.unique h, forEachCodepoint_eq h⟩

/-! ## Columns and cuts -/

/-- What `count_code_points` adds for a code point. -/
def codePointWidth (cp : ℕ) : ℕ :=
  1 + if cp ≥ 0x1100 ∧ (cp ≤ 0x115f ∨ cp = 0x2329 ∨ cp = 0x232a ∨
    (cp ≥ 0x2e80 ∧ cp ≤ 0xa4cf ∧ cp ≠ 0x303f) ∨ (cp ≥ 0xac00 ∧ cp ≤ 0xd7a3) ∨
    (cp ≥ 0xf900 ∧ cp ≤ 0xfaff) ∨ (cp ≥ 0xfe10 ∧ cp ≤ 0xfe19) ∨ (cp ≥ 0xfe30 ∧ cp ≤ 0xfe6f) ∨
    (cp ≥ 0xff00 ∧ cp ≤ 0xff60) ∨ (cp ≥ 0xffe0 ∧ cp ≤ 0xffe6) ∨ (cp ≥ 0x20000 ∧ cp ≤ 0x2fffd) ∨
    (cp ≥ 0x30000 ∧ cp ≤ 0x3fffd) ∨ (cp ≥ 0x1f300 ∧ cp ≤ 0x1f64f) ∨
    (cp ≥ 0x1f900 ∧ cp ≤ 0x1f9ff)) then 1 else 0

/-- `compute_width`. -/
def computeWidth (s : List CodeUnit) : ℕ :=
  forEachCodepoint s (fun cp _ _ count => (true, count + codePointWidth cp)) 0

/-- `code_point_index`; the state is what is left of `n`, and the result. -/
def codePointIndex (s : List CodeUnit) (n : ℕ) : ℕ :=
  (forEachCodepoint s (fun _ begin _ (st : ℕ × ℕ) =>
    if st.1 ≠ 0 then (true, (st.1 - 1, st.2)) else (false, (st.1, begin))) (n, s.length)).2

/-- The columns that pieces take. -/
def columns (pieces : List (ℕ × List CodeUnit)) : ℕ :=
  (pieces.map fun piece => codePointWidth piece.1).sum

/-- The text of pieces. -/
def textOf (pieces : List (ℕ × List CodeUnit)) : List CodeUnit :=
  (pieces.map Prod.snd).flatten

theorem textOf_cons (piece : ℕ × List CodeUnit) (pieces : List (ℕ × List CodeUnit)) :
    textOf (piece :: pieces) = piece.2 ++ textOf pieces := rfl

section Pieces

variable {s : List CodeUnit} {pieces : List (ℕ × List CodeUnit)}

theorem Decodes.textOf_eq (h : Decodes s pieces) : textOf pieces = s := by
  induction h with
  | nil => rfl
  | char c _ ih => exact congrArg (String.utf8EncodeChar c ++ ·) ih
  | @invalid b _ _ _ _ ih => exact congrArg (b :: ·) ih

theorem Decodes.length_le (h : Decodes s pieces) : pieces.length ≤ s.length := by
  induction h with
  | nil => exact le_rfl
  | char c _ ih =>
    have hpos := List.length_pos_iff.mpr (encode_ne_nil c)
    rw [List.length_cons, List.length_append]
    omega
  | invalid _ _ ih => exact Nat.succ_le_succ ih

theorem visit_width (begin count : ℕ) :
    visit (fun cp _ _ count => (true, count + codePointWidth cp)) pieces begin count =
      count + columns pieces := by
  induction pieces generalizing begin count with
  | nil => rfl
  | cons piece pieces ih =>
    rw [visit, if_pos rfl, ih]
    exact Nat.add_assoc ..

/-- The width of a text. -/
theorem computeWidth_eq (h : Decodes s pieces) : computeWidth s = columns pieces := by
  unfold computeWidth
  rw [forEachCodepoint_eq h, visit_width, Nat.zero_add]

theorem visit_index (begin size n : ℕ) :
    (visit (fun _ begin _ (st : ℕ × ℕ) =>
      if st.1 ≠ 0 then (true, (st.1 - 1, st.2)) else (false, (st.1, begin))) pieces begin
        (n, size)).2 =
      if n < pieces.length then begin + (textOf (pieces.take n)).length else size := by
  induction pieces generalizing begin n with
  | nil => exact (if_neg (Nat.not_lt_zero n)).symm
  | cons piece pieces ih =>
    cases n with
    | zero => rfl
    | succ n =>
      rw [visit]
      dsimp only
      rw [if_pos n.succ_ne_zero, if_pos rfl, Nat.add_sub_cancel, ih]
      simp only [List.length_cons, Nat.add_lt_add_iff_right, List.take_succ_cons, textOf_cons,
        List.length_append, Nat.add_assoc]

/-- The place behind the first `n` code points. -/
theorem codePointIndex_eq (h : Decodes s pieces) (n : ℕ) :
    codePointIndex s n = (textOf (pieces.take n)).length := by
  unfold codePointIndex
  rw [forEachCodepoint_eq h, visit_index, Nat.zero_add]
  split_ifs with hn
  · rfl
  · rw [List.take_of_length_le (by omega), h.textOf_eq]

end Pieces

end SelfStudy.Fmt
