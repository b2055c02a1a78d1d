-- SUMMARY: The numerals of either base, which are the texts that are read as numbers in one piece.
import LuaSource.Proofs.Lexeme.CutLexeme
import LuaSource.Proofs.Numeral.Decimal

/-!
# Grammar of numerals

A numeral has digits with a point at most and an exponent at most, in base sixteen behind `0x`. Name
characters that stick to it belong to it as well, although it has no value then. These are the texts
that are read as numbers in one piece.
-/

namespace LuaSource

namespace Numeral

variable {hex : Bool} {part last : Part} {c : Char} {cs ds r : List Char}

/-! ## Numerals -/

/-- Digits, and among them or at one of their ends a point at most. -/
inductive IsMantissa (hex : Bool) : List Char → Prop
  | integer {ds : List Char} (h : ∀ c ∈ ds, isMantissaDigit hex c = true) : IsMantissa hex ds
  | point {ds es : List Char} (hds : ∀ c ∈ ds, isMantissaDigit hex c = true)
      (hes : ∀ c ∈ es, isMantissaDigit hex c = true) : IsMantissa hex (ds ++ '.' :: es)

/-- An exponent, which may be missing: its mark, a sign at most and decimal digits. -/
inductive IsScale (hex : Bool) : List Char → Prop
  | missing : IsScale hex []
  | exponent {mark : Char} {sign ds : List Char} (hmark : isExponentMark hex mark = true)
      (hsign : sign = [] ∨ sign = ['+'] ∨ sign = ['-']) (hds : ∀ c ∈ ds, c.isDigit = true) :
      IsScale hex (mark :: (sign ++ ds))

/-- A numeral begins with a digit, or with a point that a digit follows. -/
structure IsNumeral (cs : List Char) : Prop where
  begins : ∃ d ds, cs = d :: ds ∧ (d.isDigit = true ∨ d = '.' ∧ ∃ e ∈ ds.head?, e.isDigit = true)
  parts : ∃ lead mantissa scale tail, cs = lead ++ (mantissa ++ (scale ++ tail)) ∧
    lead.length = (if isHex cs then 2 else 0) ∧ IsMantissa (isHex cs) mantissa ∧
    IsScale (isHex cs) scale ∧ ∀ c ∈ tail, isNameContinue c = true

/-! ## Reading parts -/

theorem ne_of_isMantissaDigit {d : Char} (hc : isMantissaDigit hex c = true)
    (hd : isMantissaDigit hex d = false) : c ≠ d := by
  rintro rfl
  rw [hc] at hd
  cases hd

theorem isExponentMark_of_isMantissaDigit (hc : isMantissaDigit hex c = true) :
    isExponentMark hex c = false := by
  cases hex with
  | false =>
    exact Bool.or_eq_false_iff.2 ⟨beq_false_of_ne (ne_of_isMantissaDigit hc rfl),
      beq_false_of_ne (ne_of_isMantissaDigit hc rfl)⟩
  | true =>
    exact Bool.or_eq_false_iff.2 ⟨beq_false_of_ne (ne_of_isMantissaDigit hc (by decide)),
      beq_false_of_ne (ne_of_isMantissaDigit hc (by decide))⟩

/-- Digits are neither exponent marks nor points. -/
theorem next?_of_isMantissaDigit (hpart : part = .integer ∨ part = .fraction)
    (hc : isMantissaDigit hex c = true) : part.next? hex c = some part := by
  have hdot : c ≠ '.' := ne_of_isMantissaDigit hc (by cases hex <;> rfl)
  have hmark := isExponentMark_of_isMantissaDigit hc
  rcases hpart with rfl | rfl
  · simp [Part.next?, hmark, hdot, hc]
  · simp [Part.next?, hmark, hc]

theorem run?_mantissaDigits (hpart : part = .integer ∨ part = .fraction)
    (hds : ∀ c ∈ ds, isMantissaDigit hex c = true) : part.run? hex ds = some part := by
  induction ds with
  | nil => rfl
  | cons c ds ih =>
    rw [Part.run?, next?_of_isMantissaDigit hpart (hds c List.mem_cons_self)]
    exact ih fun d hd => hds d (List.mem_cons_of_mem c hd)

theorem run?_exponentDigits (hex : Bool) (hds : ∀ c ∈ ds, c.isDigit = true) :
    Part.exponent.run? hex ds = some .exponent := by
  induction ds with
  | nil => rfl
  | cons c ds ih =>
    rw [Part.run?, Part.next?, if_pos (hds c List.mem_cons_self)]
    exact ih fun d hd => hds d (List.mem_cons_of_mem c hd)

theorem IsMantissa.run? (h : IsMantissa hex cs) :
    ∃ part, Part.integer.run? hex cs = some part ∧ (part = .integer ∨ part = .fraction) := by
  cases h with
  | integer hds => exact ⟨.integer, run?_mantissaDigits (.inl rfl) hds, .inl rfl⟩
  | point hds hes =>
    refine ⟨.fraction, ?_, .inr rfl⟩
    have hpoint : Part.integer.next? hex '.' = some .fraction := by cases hex <;> rfl
    rw [Part.run?_append, run?_mantissaDigits (.inl rfl) hds, Option.bind_some, Part.run?, hpoint]
    exact run?_mantissaDigits (.inr rfl) hes

theorem run?_mark (hex : Bool) {sign : List Char} (hsign : sign = [] ∨ sign = ['+'] ∨ sign = ['-'])
    (hds : ∀ c ∈ ds, c.isDigit = true) : ∃ last, Part.mark.run? hex (sign ++ ds) = some last := by
  rcases hsign with rfl | rfl | rfl
  · cases ds with
    | nil => exact ⟨.mark, rfl⟩
    | cons c ds =>
      refine ⟨.exponent, ?_⟩
      rw [List.nil_append, Part.run?, Part.next?, if_pos (.inr (.inr (hds c List.mem_cons_self)))]
      exact run?_exponentDigits hex fun d hd => hds d (List.mem_cons_of_mem c hd)
  · exact ⟨.exponent, run?_exponentDigits hex hds⟩
  · exact ⟨.exponent, run?_exponentDigits hex hds⟩

theorem IsScale.run? (h : IsScale hex cs) (hpart : part = .integer ∨ part = .fraction) :
    ∃ last, part.run? hex cs = some last := by
  cases h with
  | missing => exact ⟨part, rfl⟩
  | exponent hmark hsign hds =>
    obtain ⟨last, hlast⟩ := run?_mark hex hsign hds
    refine ⟨last, ?_⟩
    rw [Part.run?]
    rcases hpart with rfl | rfl
    · rw [Part.next?, if_pos hmark]
      exact hlast
    · rw [Part.next?, if_pos hmark]
      exact hlast

/-! ## Parts that are read -/

theorem isDigit_of_run?_exponent (h : Part.exponent.run? hex cs = some last) :
    ∀ c ∈ cs, c.isDigit = true := by
  induction cs with
  | nil => exact nofun
  | cons c cs ih =>
    rw [Part.run?, Part.next?] at h
    split at h
    · next hc => exact List.forall_mem_cons.2 ⟨hc, ih h⟩
    · cases h

theorem scale_of_run?_mark (h : Part.mark.run? hex cs = some last) :
    ∃ sign ds, cs = sign ++ ds ∧ (sign = [] ∨ sign = ['+'] ∨ sign = ['-']) ∧
      ∀ c ∈ ds, c.isDigit = true := by
  cases cs with
  | nil => exact ⟨[], [], rfl, .inl rfl, nofun⟩
  | cons c cs =>
    rw [Part.run?, Part.next?] at h
    split at h
    · next hc =>
      have hcs := isDigit_of_run?_exponent h
      rcases hc with rfl | rfl | hc
      · exact ⟨['+'], cs, rfl, .inr (.inl rfl), hcs⟩
      · exact ⟨['-'], cs, rfl, .inr (.inr rfl), hcs⟩
      · exact ⟨[], c :: cs, rfl, .inl rfl, List.forall_mem_cons.2 ⟨hc, hcs⟩⟩
    · cases h

theorem scale_of_mark (hmark : isExponentMark hex c = true)
    (h : Part.mark.run? hex cs = some last) : IsScale hex (c :: cs) := by
  obtain ⟨sign, ds, rfl, hsign, hds⟩ := scale_of_run?_mark h
  exact .exponent hmark hsign hds

theorem split_of_run?_fraction (h : Part.fraction.run? hex cs = some last) :
    ∃ ds scale, cs = ds ++ scale ∧ (∀ c ∈ ds, isMantissaDigit hex c = true) ∧
      IsScale hex scale := by
  induction cs with
  | nil => exact ⟨[], [], rfl, nofun, .missing⟩
  | cons c cs ih =>
    rw [Part.run?, Part.next?] at h
    split at h
    · next hmark => exact ⟨[], c :: cs, rfl, nofun, scale_of_mark hmark h⟩
    · split at h
      · next hc =>
        obtain ⟨ds, scale, rfl, hds, hscale⟩ := ih h
        exact ⟨c :: ds, scale, rfl, List.forall_mem_cons.2 ⟨hc, hds⟩, hscale⟩
      · cases h

theorem split_of_run? (h : Part.integer.run? hex cs = some last) :
    ∃ mantissa scale, cs = mantissa ++ scale ∧ IsMantissa hex mantissa ∧ IsScale hex scale := by
  induction cs with
  | nil => exact ⟨[], [], rfl, .integer nofun, .missing⟩
  | cons c cs ih =>
    rw [Part.run?, Part.next?] at h
    split at h
    · next hmark => exact ⟨[], c :: cs, rfl, .integer nofun, scale_of_mark hmark h⟩
    · split at h
      · next hdot =>
        subst hdot
        obtain ⟨es, scale, rfl, hes, hscale⟩ := split_of_run?_fraction h
        exact ⟨'.' :: es, scale, rfl, @IsMantissa.point hex [] es nofun hes, hscale⟩
      · split at h
        · next hc =>
          obtain ⟨mantissa, scale, rfl, hmantissa, hscale⟩ := ih h
          refine ⟨c :: mantissa, scale, rfl, ?_, hscale⟩
          cases hmantissa with
          | integer hds => exact .integer (List.forall_mem_cons.2 ⟨hc, hds⟩)
          | point hds hes =>
            exact @IsMantissa.point hex (c :: _) _ (List.forall_mem_cons.2 ⟨hc, hds⟩) hes
        · cases h

/-! ## Numerals in a text -/

theorem stops_of_isBlank (hr : ∀ c ∈ r.head?, isBlank c = true) : part.Stops hex r := by
  intro c hc
  have hblank := hr c hc
  simp only [isBlank, Bool.or_eq_true, beq_iff_eq] at hblank
  rcases hblank with ((((rfl | rfl) | rfl) | rfl) | rfl) | rfl <;> cases hex <;> cases part <;> rfl

theorem isNameContinue_of_isBlank (h : isBlank c = true) : isNameContinue c = false := by
  simp only [isBlank, Bool.or_eq_true, beq_iff_eq] at h
  rcases h with ((((rfl | rfl) | rfl) | rfl) | rfl) | rfl <;> decide

theorem isHex_append (hr : ∀ c ∈ r.head?, isBlank c = true) (hcs : cs ≠ []) :
    isHex (cs ++ r) = isHex cs := by
  rcases cs with _ | ⟨c, _ | ⟨d, ds⟩⟩
  · exact absurd rfl hcs
  · cases r with
    | nil => rfl
    | cons d ds =>
      have hne : ∀ x, isBlank x = false → d ≠ x := by
        rintro x hx rfl
        rw [hr d rfl] at hx
        cases hx
      have hx : d ≠ 'x' := hne 'x' (by decide)
      have hX : d ≠ 'X' := hne 'X' (by decide)
      simp [isHex, hx, hX]
  · rfl

theorem IsNumeral.size_eq (h : IsNumeral cs) (hr : ∀ c ∈ r.head?, isBlank c = true) :
    size (cs ++ r) = cs.length := by
  have hne : cs ≠ [] := by
    obtain ⟨d, ds, rfl, -⟩ := h.begins
    exact List.cons_ne_nil d ds
  obtain ⟨lead, mantissa, scale, tail, hcs, hlead, hmantissa, hscale, htail⟩ := h.parts
  have hhex := isHex_append hr hne
  generalize isHex cs = hex at *
  obtain ⟨part, hpart, hparts⟩ := hmantissa.run?
  obtain ⟨part', hpart'⟩ := hscale.run? hparts
  -- What sticks to the numeral may go on with it for a while.
  obtain ⟨word, rest, last, rfl, hword, hstops⟩ := exists_run hex part' tail
  have hrun : Part.integer.run? hex (mantissa ++ (scale ++ word)) = some last := by
    rw [Part.run?_append, hpart, Option.bind_some, Part.run?_append, hpart']
    exact hword
  have hbehind : last.Stops hex (rest ++ r) := by
    cases rest with
    | nil => exact stops_of_isBlank hr
    | cons c cs => exact hstops
  have hname : r.head?.any isNameContinue = false := by
    cases r with
    | nil => rfl
    | cons c cs => exact isNameContinue_of_isBlank (hr c rfl)
  have htext : cs ++ r = lead ++ (mantissa ++ (scale ++ word) ++ (rest ++ r)) := by
    simp only [hcs, List.append_assoc]
  rw [htext] at hhex ⊢
  rw [size_append hhex hlead hrun hbehind (fun c hc => htail c (List.mem_append_right _ hc)) hname,
    hcs]
  simp only [List.append_assoc]

theorem beginsNumeral_iff : Lexeme.beginsNumeral c cs = true ↔
    c.isDigit = true ∨ c = '.' ∧ ∃ e ∈ cs.head?, e.isDigit = true := by
  rw [Lexeme.beginsNumeral, Bool.or_eq_true, Bool.and_eq_true, beq_iff_eq, Option.any_eq_true]
  rfl

theorem IsNumeral.beginsNumeral (h : IsNumeral (c :: cs)) (r : List Char) :
    Lexeme.beginsNumeral c (cs ++ r) = true := by
  obtain ⟨_, _, heq, hc⟩ := h.begins
  cases heq
  refine beginsNumeral_iff.2 (hc.imp_right fun ⟨hdot, e, he, hdigit⟩ => ⟨hdot, e, ?_, hdigit⟩)
  rw [List.head?_append, Option.mem_def.1 he]
  rfl

/-- Numerals are what is read as a number in one piece. -/
theorem isNumeral_iff :
    IsNumeral (c :: cs) ↔ Lexeme.beginsNumeral c cs = true ∧ size (c :: cs) = (c :: cs).length := by
  constructor
  · intro h
    have hbegins := h.beginsNumeral []
    have hsize := h.size_eq (r := []) nofun
    rw [List.append_nil] at hbegins hsize
    exact ⟨hbegins, hsize⟩
  · rintro ⟨hnumeral, hsize⟩
    refine ⟨⟨c, cs, rfl, beginsNumeral_iff.1 hnumeral⟩, ?_⟩
    obtain ⟨lead, behind, hcs, hlead⟩ : ∃ lead behind, c :: cs = lead ++ behind ∧
        lead.length = if isHex (c :: cs) then 2 else 0 := by
      cases hhex : isHex (c :: cs) with
      | false => exact ⟨[], c :: cs, rfl, rfl⟩
      | true =>
        obtain ⟨d, ds, heq, -⟩ := isHex_eq_true hhex
        exact ⟨['0', d], ds, heq, rfl⟩
    obtain ⟨word, rest, last, rfl, hrun, hstops⟩ := exists_run (isHex (c :: cs)) .integer behind
    obtain ⟨tail, rest, rfl, -, htail, hrest⟩ := exists_takeWhile isNameContinue rest
    have hread := size_append (by rw [← hcs]) hlead hrun hstops htail hrest
    rw [← hcs, hsize, hcs] at hread
    obtain rfl : rest = [] := by
      rw [← List.length_eq_zero_iff]
      simp only [List.length_append] at hread
      omega
    obtain ⟨mantissa, scale, rfl, hmantissa, hscale⟩ := split_of_run? hrun
    refine ⟨lead, mantissa, scale, tail, ?_, hlead, hmantissa, hscale, htail⟩
    rw [hcs, List.append_nil, List.append_assoc]

example : IsNumeral ".5e-3".toList := isNumeral_iff.2 (by decide)

example : IsNumeral "0xA.8p1".toList := isNumeral_iff.2 (by decide)

end Numeral

/-- A numeral that reaches as far as a text does is read there. -/
theorem Lexeme.read_numeral_append {c : Char} {cs r : List Char}
    (hbegins : beginsNumeral c (cs ++ r) = true)
    (hsize : Numeral.size (c :: cs ++ r) = (c :: cs).length) :
    read (c :: cs ++ r) =
      ⟨(c :: cs).length, .ok { symbol := .number, value := String.ofList (c :: cs) }⟩ := by
  rw [List.cons_append] at hsize ⊢
  rw [read_numeral hbegins, readNumeral, hsize, ← List.cons_append, List.take_left]
  rfl

end LuaSource
