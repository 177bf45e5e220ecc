import Mathlib.Data.List.TakeWhile
import SelfStudy.Fmt.FormatString

/-!
# Argument ids

The grammar of an argument id, and that `parse_arg_id` reads in front of a closing brace or a colon
just what the grammar says. An index has no leading zeros; one that does not fit into an `int` is
read as `INT_MAX`.
-/

namespace SelfStudy.Fmt

open Lib

/-- An argument id as it is written. -/
inductive ArgId
  | auto
  | index (ds : List CodeUnit)
  | name (s : List CodeUnit)
  deriving DecidableEq, Repr

def ArgId.render : ArgId → List CodeUnit
  | .auto => []
  | .index ds => ds
  | .name s => s

/-- An index is a number without leading zeros, and a name is an identifier. -/
def ArgId.Valid : ArgId → Prop
  | .auto => True
  | .index ds => ∃ c cs, ds = c :: cs ∧ (∀ d ∈ c :: cs, isDigit d = true) ∧ (c = '0' → cs = [])
  | .name s => ∃ c cs, s = c :: cs ∧ isNameStart c = true ∧ ∀ d ∈ cs, isNamePart d = true

/-- The handler's answer to an argument id. -/
def IdHandler.answer {σ β : Type} (g : IdHandler σ β) : ArgId → σ → Except String (β × σ)
  | .auto => g.on_auto
  | .index ds => g.on_index (min (digitsValue ds) intMax)
  | .name s => g.on_name s

/-! ## Code units -/

theorem isDigit_of_ne : isDigit '}' = false ∧ isDigit ':' = false := by decide

theorem isNamePart_of_ne : isNamePart '}' = false ∧ isNamePart ':' = false := by decide

theorem isDigit_spec {c : CodeUnit} (hc : isDigit c = true) : 48 ≤ c.toNat ∧ c.toNat ≤ 57 := by
  obtain ⟨h1, h2⟩ := Bool.and_eq_true_iff.mp hc
  exact ⟨UInt8.le_iff_toNat_le.mp (decide_eq_true_eq.mp h1),
    UInt8.le_iff_toNat_le.mp (decide_eq_true_eq.mp h2)⟩

theorem ne_of_isDigit {c : CodeUnit} (hc : isDigit c = true) : c ≠ '}' ∧ c ≠ '{' ∧ c ≠ ':' := by
  refine ⟨?_, ?_, ?_⟩ <;> rintro rfl <;> revert hc <;> decide

theorem isNameStart_spec {c : CodeUnit} (hc : isNameStart c = true) :
    isDigit c = false ∧ c ≠ '}' ∧ c ≠ '{' ∧ c ≠ ':' := by
  refine ⟨?_, ?_, ?_, ?_⟩
  · rw [Bool.eq_false_iff]
    intro hd
    have hle := (isDigit_spec hd).2
    -- the letters and the underscore come behind the digits
    have hge : 65 ≤ c.toNat := by
      simp only [isNameStart, Bool.or_eq_true, Bool.and_eq_true, decide_eq_true_eq, beq_iff_eq,
        UInt8.le_iff_toNat_le] at hc
      rcases hc with (⟨h, -⟩ | ⟨h, -⟩) | rfl
      · exact le_trans (by decide) h
      · exact h
      · decide
    omega
  all_goals
    rintro rfl
    revert hc
    decide

theorem digitValue_pos {c : CodeUnit} (hc : isDigit c = true) (hz : c ≠ '0') : 0 < digitValue c := by
  have h := (isDigit_spec hc).1
  have hne : c.toNat ≠ 48 := fun he => hz (UInt8.toNat_inj.mp he)
  unfold digitValue
  omega

/-- The digits at the beginning of a range. -/
theorem exists_digits {c : CodeUnit} (hc : isDigit c = true) (rest : List CodeUnit) :
    ∃ cs q, rest = cs ++ q ∧ (∀ d ∈ c :: cs, isDigit d = true) ∧ Stops q := by
  refine ⟨rest.takeWhile isDigit, rest.dropWhile isDigit,
    (List.takeWhile_append_dropWhile).symm, fun d hd => ?_, fun d hd => Bool.eq_false_iff.mpr ?_⟩
  · rcases List.mem_cons.mp hd with rfl | hd
    · exact hc
    · exact List.mem_takeWhile_imp hd
  · intro h
    have hhead := List.head?_dropWhile_not isDigit rest
    rw [hd] at hhead
    exact absurd h (by simpa using hhead)

/-! ## Indexes -/

/-- The number of a text of digits without leading zeros has as many digits. -/
theorem le_digitsValue {c : CodeUnit} (hc : isDigit c = true) (hz : c ≠ '0') (cs : List CodeUnit) :
    10 ^ cs.length ≤ digitsValue (c :: cs) := by
  unfold digitsValue
  have hle := le_ofNumeral (b := 10) (digitValue_pos hc hz) (cs.map digitValue)
  rwa [List.length_map] at hle

theorem parseIndex_append {c : CodeUnit} {cs rest : List CodeUnit}
    (hds : ∀ d ∈ c :: cs, isDigit d = true) (hz : c = '0' → cs = []) (hrest : Stops rest) :
    parseIndex c (cs ++ rest) = (((min (digitsValue (c :: cs)) intMax : ℕ) : ℤ), rest) := by
  unfold parseIndex
  split_ifs with hne
  · rw [← List.cons_append, parseNonnegativeInt_append _ (List.cons_ne_nil c cs) hds hrest]
    have hle := le_digitsValue (hds c List.mem_cons_self) hne cs
    by_cases hmax : digitsValue (c :: cs) ≤ intMax
    · -- eleven digits denote a number that does not fit
      have hlen : cs.length < 10 := by
        by_contra hlen
        have hpow : 10 ^ 10 ≤ 10 ^ cs.length := Nat.pow_le_pow_right (by decide) (not_lt.mp hlen)
        exact absurd (hpow.trans (hle.trans hmax)) (by decide)
      rw [if_pos ⟨hlen, hmax⟩, min_eq_left hmax]
    · rw [if_neg fun h => hmax h.2, min_eq_right (not_le.mp hmax).le]
  · obtain rfl := hz (not_not.mp hne)
    obtain rfl := not_not.mp hne
    rfl

/-! ## Parsing -/

section Parse

variable {σ β : Type} {g : IdHandler σ β} {s : σ} {c d : CodeUnit} {rest tail : List CodeUnit}
  {id : ArgId} {r : β × σ}

theorem stops_of_end (hd : d = '}' ∨ d = ':') : Stops (d :: tail) := by
  intro c hc
  obtain rfl := Option.some.inj hc
  rcases hd with rfl | rfl
  · exact isDigit_of_ne.1
  · exact isDigit_of_ne.2

theorem isNamePart_of_end (hd : d = '}' ∨ d = ':') : isNamePart d = false := by
  rcases hd with rfl | rfl
  · exact isNamePart_of_ne.1
  · exact isNamePart_of_ne.2

/-- An id that is not empty, or a colon, is told from the braces. -/
theorem ne_of_render (hid : id.Valid) (hauto : id = .auto → d = ':')
    (h : c :: rest = id.render ++ d :: tail) : c ≠ '}' ∧ c ≠ '{' := by
  cases id with
  | auto =>
    obtain ⟨rfl, -⟩ := List.cons.inj h
    rw [hauto rfl]
    decide
  | index ds =>
    obtain ⟨c', cs, rfl, hds, -⟩ := hid
    obtain ⟨rfl, -⟩ := List.cons.inj h
    have hne := ne_of_isDigit (hds c List.mem_cons_self)
    exact ⟨hne.1, hne.2.1⟩
  | name t =>
    obtain ⟨c', cs, rfl, hc, -⟩ := hid
    obtain ⟨rfl, -⟩ := List.cons.inj h
    obtain ⟨-, h1, h2, -⟩ := isNameStart_spec hc
    exact ⟨h1, h2⟩

/-- Parsing what was rendered, in front of a closing brace or a colon. -/
theorem parseArgId_render (hid : id.Valid) (hd : d = '}' ∨ d = ':')
    (h : c :: rest = id.render ++ d :: tail) :
    parseArgId g c rest s = (g.answer id s).map fun r => (d :: tail, r) := by
  have hnot : ¬ (d ≠ '}' ∧ d ≠ ':') := fun h => hd.elim h.1 h.2
  cases id with
  | auto =>
    obtain ⟨rfl, rfl⟩ := List.cons.inj h
    exact if_neg hnot
  | index ds =>
    obtain ⟨c', cs, rfl, hds, hz⟩ := hid
    obtain ⟨rfl, hrest⟩ := List.cons.inj h
    obtain rfl : rest = cs ++ d :: tail := hrest
    have hc : isDigit c = true := hds c List.mem_cons_self
    rw [parseArgId, if_pos ⟨(ne_of_isDigit hc).1, (ne_of_isDigit hc).2.2⟩, doParseArgId, if_pos hc,
      parseIndex_append hds hz (stops_of_end hd)]
    show (if _ then _ else _ : Except String (List CodeUnit × β × σ)) = _
    rw [if_neg hnot]
    rfl
  | name t =>
    obtain ⟨c', cs, rfl, hc, hcs⟩ := hid
    obtain ⟨rfl, hrest⟩ := List.cons.inj h
    obtain rfl : rest = cs ++ d :: tail := hrest
    obtain ⟨hdigit, h1, -, h3⟩ := isNameStart_spec hc
    have htake : (cs ++ d :: tail).takeWhile isNamePart = cs := by
      rw [List.takeWhile_append_of_pos hcs, List.takeWhile_cons, isNamePart_of_end hd]
      exact List.append_nil cs
    have hdrop : (cs ++ d :: tail).dropWhile isNamePart = d :: tail := by
      rw [List.dropWhile_append_of_pos hcs, List.dropWhile_cons, isNamePart_of_end hd]
      rfl
    rw [parseArgId, if_pos ⟨h1, h3⟩, doParseArgId, hdigit, if_neg (by decide), if_pos hc,
      htake, hdrop]
    rfl

/-- A range that begins with a digit is a number without leading zeros and what is behind it. -/
theorem exists_index (hc : isDigit c = true) (rest : List CodeUnit) :
    ∃ cs q, rest = cs ++ q ∧ (∀ d ∈ c :: cs, isDigit d = true) ∧ (c = '0' → cs = []) ∧
      (parseIndex c rest).2 = q := by
  by_cases hz : c = '0'
  · refine ⟨[], rest, rfl, fun d hd => ?_, fun _ => rfl, ?_⟩
    · rw [List.mem_singleton.mp hd]
      exact hc
    · rw [parseIndex, if_neg (not_not.mpr hz)]
  · obtain ⟨cs, q, rfl, hds, hstops⟩ := exists_digits hc rest
    refine ⟨cs, q, rfl, hds, fun h => absurd h hz, ?_⟩
    rw [parseIndex_append hds (fun h => absurd h hz) hstops]

/-- What is read in front of a closing brace or a colon is an argument id. -/
theorem exists_of_parseArgId (hd : d = '}' ∨ d = ':')
    (h : parseArgId g c rest s = .ok (d :: tail, r)) :
    ∃ id : ArgId, id.Valid ∧ c :: rest = id.render ++ d :: tail ∧ g.answer id s = .ok r := by
  have key : ∀ id : ArgId, id.Valid → c :: rest = id.render ++ d :: tail →
      ∃ id : ArgId, id.Valid ∧ c :: rest = id.render ++ d :: tail ∧ g.answer id s = .ok r := by
    intro id hid hrender
    rw [parseArgId_render hid hd hrender] at h
    obtain ⟨r', hr, heq⟩ := map_eq_ok.mp h
    obtain rfl := (Prod.mk.inj heq).2
    exact ⟨id, hid, hrender, hr⟩
  have hbegin := h
  unfold parseArgId at hbegin
  split_ifs at hbegin with hc
  · unfold doParseArgId at hbegin
    split_ifs at hbegin with hdigit hname
    · obtain ⟨cs, q, rfl, hds, hz, hq⟩ := exists_index hdigit rest
      rw [hq] at hbegin
      cases q with
      | nil => exact absurd hbegin (by rintro ⟨⟩)
      | cons e q =>
        dsimp only at hbegin
        split_ifs at hbegin
        obtain ⟨r', -, heq⟩ := map_eq_ok.mp hbegin
        obtain ⟨rfl, rfl⟩ := List.cons.inj (Prod.mk.inj heq).1
        exact key (.index (c :: cs)) ⟨c, cs, rfl, hds, hz⟩ rfl
    · obtain ⟨r', -, heq⟩ := map_eq_ok.mp hbegin
      have hdrop : rest.dropWhile isNamePart = d :: tail := (Prod.mk.inj heq).1
      refine key (.name (c :: rest.takeWhile isNamePart))
        ⟨c, _, rfl, hname, fun e he => List.mem_takeWhile_imp he⟩ ?_
      show c :: rest = c :: (rest.takeWhile isNamePart ++ d :: tail)
      rw [← hdrop, List.takeWhile_append_dropWhile]
  · obtain ⟨r', -, heq⟩ := map_eq_ok.mp hbegin
    exact key .auto trivial (Prod.mk.inj heq).1

end Parse

end SelfStudy.Fmt
