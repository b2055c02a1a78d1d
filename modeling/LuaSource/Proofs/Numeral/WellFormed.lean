-- SUMMARY: The numerals that have a value, and that the lexer reads each of them in one piece.
import LuaSource.Proofs.Lexer.Calls
import LuaSource.Proofs.Lexer.Joined

/-!
# Well-formed numerals

How far a numeral reaches and whether it has a value are decided apart: the lexer takes in whatever
could go on with a numeral, and the text is split again when its value is asked for. Both agree on one
grammar, in which there has to be a digit, and one behind an exponent mark.
-/

namespace LuaSource

namespace Numeral

variable {hex : Bool} {c : Char} {cs ds : List Char}

/-- Digits with a point at most among or beside them, and one digit at least. -/
inductive IsDigits (hex : Bool) : List Char → Prop
  | integer {ds : List Char} (hne : ds ≠ []) (hds : ∀ c ∈ ds, isMantissaDigit hex c = true) :
      IsDigits hex ds
  | point {ds es : List Char} (hne : ds ≠ [] ∨ es ≠ [])
      (hds : ∀ c ∈ ds, isMantissaDigit hex c = true)
      (hes : ∀ c ∈ es, isMantissaDigit hex c = true) : IsDigits hex (ds ++ '.' :: es)

/-- Decimal digits, and one at least, which one sign may precede. -/
inductive IsSigned : List Char → Prop
  | intro {sign ds : List Char} (hsign : sign = [] ∨ sign = ['+'] ∨ sign = ['-']) (hne : ds ≠ [])
      (hds : ∀ c ∈ ds, c.isDigit = true) : IsSigned (sign ++ ds)

/-- An exponent behind its mark, which may be missing with it. -/
inductive IsPower (hex : Bool) : List Char → Prop
  | missing : IsPower hex []
  | exponent {mark : Char} {cs : List Char} (hmark : isExponentMark hex mark = true)
      (h : IsSigned cs) : IsPower hex (mark :: cs)

/-- Digits and a power in base ten, or behind `0x` in base sixteen. -/
inductive WellFormed : List Char → Prop
  | decimal {digits power : List Char} (hdigits : IsDigits false digits)
      (hpower : IsPower false power) : WellFormed (digits ++ power)
  | hexadecimal {x : Char} {digits power : List Char} (hx : x = 'x' ∨ x = 'X')
      (hdigits : IsDigits true digits) (hpower : IsPower true power) :
      WellFormed ('0' :: x :: (digits ++ power))

/-! ## Splitting -/

theorem exists_splitAtFirst (p : Char → Bool) (cs : List Char) :
    (∀ c ∈ cs, p c = false) ∧ splitAtFirst p cs = (cs, none) ∨
      ∃ before c behind, cs = before ++ c :: behind ∧ p c = true ∧ (∀ d ∈ before, p d = false) ∧
        splitAtFirst p cs = (before, some behind) := by
  obtain ⟨before, rest, hcs, -, hbefore, hrest⟩ := exists_takeWhile (!p ·) cs
  have hnot : ∀ d ∈ before, p d = false := fun d hd => by simpa using hbefore d hd
  cases rest with
  | nil =>
    rw [List.append_nil] at hcs
    rw [hcs]
    exact .inl ⟨hnot, splitAtFirst_none hnot⟩
  | cons c behind =>
    have hc : p c = true := by simpa using hrest
    rw [hcs]
    exact .inr ⟨before, c, behind, rfl, hc, hnot, splitAtFirst_some hnot hc⟩

theorem exists_splitSign (cs : List Char) :
    ∃ sign, cs = sign ++ (splitSign cs).2 ∧ (sign = [] ∨ sign = ['+'] ∨ sign = ['-']) := by
  cases cs with
  | nil => exact ⟨[], rfl, .inl rfl⟩
  | cons c cs =>
    rw [splitSign]
    split
    · next hc => exact ⟨['-'], by rw [hc]; rfl, .inr (.inr rfl)⟩
    · split
      · next hc => exact ⟨['+'], by rw [hc]; rfl, .inr (.inl rfl)⟩
      · exact ⟨[], rfl, .inl rfl⟩

theorem splitSign_digits {sign : List Char} (hsign : sign = [] ∨ sign = ['+'] ∨ sign = ['-'])
    (hds : ∀ c ∈ ds, c.isDigit = true) : (splitSign (sign ++ ds)).2 = ds := by
  rcases hsign with rfl | rfl | rfl
  · cases ds with
    | nil => rfl
    | cons c ds =>
      have hc := hds c List.mem_cons_self
      rw [List.nil_append, splitSign, if_neg (ne_of_isDigit hc rfl), if_neg (ne_of_isDigit hc rfl)]
  · rfl
  · rfl

/-! ## Parts that have a value -/

theorem exponent?_isSome_iff : (exponent? cs).isSome = true ↔ IsSigned cs := by
  have hsome : (exponent? cs).isSome = true ↔
      (splitSign cs).2 ≠ [] ∧ ∀ c ∈ (splitSign cs).2, c.isDigit = true := by
    rw [exponent?]
    obtain ⟨negative, digits⟩ := splitSign cs
    dsimp only
    rw [Option.isSome_ite', Bool.not_eq_true, Bool.or_eq_false_iff, List.isEmpty_eq_false_iff,
      Bool.not_eq_false', List.all_eq_true]
  rw [hsome]
  constructor
  · rintro ⟨hne, hall⟩
    obtain ⟨sign, hcs, hsign⟩ := exists_splitSign cs
    rw [hcs]
    exact .intro hsign hne hall
  · rintro ⟨hsign, hne, hds⟩
    rw [splitSign_digits hsign hds]
    exact ⟨hne, hds⟩

/-- A text is split at its point into digits before and behind it. -/
theorem mantissa?_isSome : (mantissa? (isMantissaDigit hex) cs).isSome = true ↔
    ((splitAtFirst (· == '.') cs).1 ≠ [] ∨ (splitAtFirst (· == '.') cs).2.getD [] ≠ []) ∧
      (∀ c ∈ (splitAtFirst (· == '.') cs).1, isMantissaDigit hex c = true) ∧
      ∀ c ∈ (splitAtFirst (· == '.') cs).2.getD [], isMantissaDigit hex c = true := by
  rw [mantissa?]
  obtain ⟨integer, behind⟩ := splitAtFirst (· == '.') cs
  dsimp only
  split
  · next hempty =>
    rw [Bool.and_eq_true, List.isEmpty_iff, List.isEmpty_iff] at hempty
    simp [hempty.1, hempty.2]
  · next hempty =>
    rw [Bool.and_eq_true, List.isEmpty_iff, List.isEmpty_iff, not_and_or] at hempty
    rw [Option.isSome_ite, Bool.and_eq_true, List.all_eq_true, List.all_eq_true]
    exact (and_iff_right hempty).symm

theorem mantissa?_isSome_iff : (mantissa? (isMantissaDigit hex) cs).isSome = true ↔
    IsDigits hex cs := by
  have hpoint : ∀ {ds : List Char}, (∀ c ∈ ds, isMantissaDigit hex c = true) →
      ∀ c ∈ ds, (c == '.') = false := fun hds c hc =>
    beq_false_of_ne (ne_of_isMantissaDigit (hds c hc) (by cases hex <;> rfl))
  rw [mantissa?_isSome]
  constructor
  · obtain ⟨-, hsplit⟩ | ⟨before, c, behind, rfl, hc, -, hsplit⟩ := exists_splitAtFirst (· == '.') cs
    · rw [hsplit]
      rintro ⟨hne, hds, -⟩
      exact .integer (hne.resolve_right fun h => h rfl) hds
    · rw [hsplit, eq_of_beq hc]
      rintro ⟨hne, hds, hes⟩
      exact .point hne hds hes
  · rintro (⟨hne, hds⟩ | ⟨hne, hds, hes⟩)
    · rw [splitAtFirst_none (hpoint hds)]
      exact ⟨.inl hne, hds, nofun⟩
    · rw [splitAtFirst_some (hpoint hds) rfl]
      exact ⟨hne, hds, hes⟩

/-- A mantissa and a power are told apart by the exponent mark. -/
theorem scaled_iff :
    ((mantissa? (isMantissaDigit hex) (splitAtFirst (isExponentMark hex) cs).1).isSome = true ∧
        ∀ behind ∈ (splitAtFirst (isExponentMark hex) cs).2, (exponent? behind).isSome = true) ↔
      ∃ digits power, cs = digits ++ power ∧ IsDigits hex digits ∧ IsPower hex power := by
  have hmark : ∀ {digits : List Char}, IsDigits hex digits →
      ∀ c ∈ digits, isExponentMark hex c = false := by
    rintro digits (⟨-, hds⟩ | ⟨-, hds, hes⟩)
    · exact fun c hc => isExponentMark_of_isMantissaDigit (hds c hc)
    · exact List.forall_mem_append.2 ⟨fun c hc => isExponentMark_of_isMantissaDigit (hds c hc),
        List.forall_mem_cons.2
          ⟨by cases hex <;> rfl, fun c hc => isExponentMark_of_isMantissaDigit (hes c hc)⟩⟩
  rw [mantissa?_isSome_iff]
  constructor
  · obtain ⟨-, hsplit⟩ | ⟨before, c, behind, rfl, hc, -, hsplit⟩ :=
      exists_splitAtFirst (isExponentMark hex) cs
    · rw [hsplit]
      rintro ⟨hdigits, -⟩
      exact ⟨cs, [], (List.append_nil cs).symm, hdigits, .missing⟩
    · rw [hsplit]
      rintro ⟨hdigits, hpower⟩
      exact ⟨before, c :: behind, rfl, hdigits,
        .exponent hc (exponent?_isSome_iff.1 (hpower behind rfl))⟩
  · rintro ⟨digits, power, rfl, hdigits, _ | ⟨hc, hsigned⟩⟩
    · rw [List.append_nil, splitAtFirst_none (hmark hdigits)]
      exact ⟨hdigits, nofun⟩
    · rw [splitAtFirst_some (hmark hdigits) hc]
      refine ⟨hdigits, ?_⟩
      rintro _ ⟨⟩
      exact exponent?_isSome_iff.2 hsigned

theorem forall_mem_some {p : List Char → Prop} : (∀ ds ∈ some cs, p ds) ↔ p cs :=
  ⟨fun h => h cs rfl, fun h _ hds => Option.some.inj hds ▸ h⟩

theorem decimal?_isSome_iff : (decimal? cs).isSome = true ↔
    ∃ digits power, cs = digits ++ power ∧ IsDigits false digits ∧ IsPower false power := by
  rw [← scaled_iff]
  show _ ↔ (mantissa? Char.isDigit (splitAtFirst (fun c => c == 'e' || c == 'E') cs).1).isSome = true ∧
    ∀ behind ∈ (splitAtFirst (fun c => c == 'e' || c == 'E') cs).2, (exponent? behind).isSome = true
  rw [decimal?]
  obtain ⟨mantissa, behind⟩ := splitAtFirst (fun c => c == 'e' || c == 'E') cs
  dsimp only
  cases mantissa? Char.isDigit mantissa with
  | none => simp
  | some parts =>
    cases behind with
    | none => simp
    | some behind =>
      rw [forall_mem_some]
      dsimp only [Option.bind_eq_bind, Option.bind_some]
      cases exponent? behind <;> simp

theorem hexValue?_isSome_iff : (hexValue? cs).isSome = true ↔
    ∃ digits power, cs = digits ++ power ∧ IsDigits true digits ∧ IsPower true power := by
  rw [← scaled_iff]
  show _ ↔ (mantissa? isHexDigit (splitAtFirst (fun c => c == 'p' || c == 'P') cs).1).isSome = true ∧
    ∀ behind ∈ (splitAtFirst (fun c => c == 'p' || c == 'P') cs).2, (exponent? behind).isSome = true
  rw [hexValue?]
  obtain ⟨mantissa, behind⟩ := splitAtFirst (fun c => c == 'p' || c == 'P') cs
  dsimp only
  cases mantissa? isHexDigit mantissa with
  | none => simp
  | some parts =>
    cases behind with
    | none => simp
    | some behind =>
      rw [forall_mem_some]
      dsimp only [Option.bind_eq_bind, Option.bind_some]
      cases exponent? behind <;> simp

/-! ## Values -/

theorem word?_of_isDigit_or_point (hc : c.isDigit = true ∨ c = '.') (cs : List Char) :
    word? (c :: cs) = none := by
  rcases hc with hc | rfl
  · exact word?_of_isDigit hc cs
  · exact word?_of_ne (by decide) (by decide) cs

theorem decimalValue?_isSome_iff (hc : c.isDigit = true ∨ c = '.') :
    (decimalValue? (c :: cs)).isSome = true ↔ (decimal? (c :: cs)).isSome = true := by
  have hsign : splitSign (c :: cs) = (false, c :: cs) := by
    rcases hc with hc | rfl
    · rw [splitSign, if_neg (ne_of_isDigit hc rfl), if_neg (ne_of_isDigit hc rfl)]
    · rfl
  rw [decimalValue?, hsign]
  dsimp only
  rw [word?_of_isDigit_or_point hc, Option.none_or, if_neg Bool.false_ne_true, Option.isSome_map]

/-- Nothing that is written in base ten has an `x` in it. -/
theorem WellFormed.ne_x {digits power : List Char} (hdigits : IsDigits false digits)
    (hpower : IsPower false power) : ∀ c ∈ digits ++ power, c ≠ 'x' ∧ c ≠ 'X' := by
  have hdigit : ∀ {ds : List Char}, (∀ c ∈ ds, c.isDigit = true) → ∀ c ∈ ds, c ≠ 'x' ∧ c ≠ 'X' :=
    fun hds c hc => ⟨ne_of_isDigit (hds c hc) rfl, ne_of_isDigit (hds c hc) rfl⟩
  refine List.forall_mem_append.2 ⟨?_, ?_⟩
  · rcases hdigits with ⟨-, hds⟩ | ⟨-, hds, hes⟩
    · exact hdigit hds
    · exact List.forall_mem_append.2
        ⟨hdigit hds, List.forall_mem_cons.2 ⟨by decide, hdigit hes⟩⟩
  · rcases hpower with _ | ⟨hmark, hsign, -, hds⟩
    · exact nofun
    · refine List.forall_mem_cons.2 ⟨?_, List.forall_mem_append.2 ⟨?_, hdigit hds⟩⟩
      · rcases Bool.or_eq_true_iff.1 hmark with hmark | hmark <;> rw [eq_of_beq hmark] <;> decide
      · rcases hsign with rfl | rfl | rfl
        · exact nofun
        · exact List.forall_mem_singleton.2 (by decide)
        · exact List.forall_mem_singleton.2 (by decide)

theorem WellFormed.of_x {x : Char} (hx : x = 'x' ∨ x = 'X') (h : WellFormed ('0' :: x :: cs)) :
    ∃ digits power, cs = digits ++ power ∧ IsDigits true digits ∧ IsPower true power := by
  generalize htext : '0' :: x :: cs = text at h
  cases h with
  | @decimal digits power hdigits hpower =>
    have hne := WellFormed.ne_x hdigits hpower x
    rw [← htext] at hne
    obtain ⟨hlower, hupper⟩ := hne (List.mem_cons_of_mem _ List.mem_cons_self)
    exact absurd hx (not_or.2 ⟨hlower, hupper⟩)
  | @hexadecimal y digits power _ hdigits hpower =>
    cases htext
    exact ⟨digits, power, rfl, hdigits, hpower⟩

/-- A numeral has a value if it is well formed and not else. -/
theorem value?_isSome_iff (hhead : ∃ c ∈ cs.head?, c.isDigit = true ∨ c = '.') :
    (value? (String.ofList cs)).isSome = true ↔ WellFormed cs := by
  rw [value?, String.toList_ofList]
  split
  · rw [hexValue?_isSome_iff]
    refine ⟨?_, WellFormed.of_x (.inl rfl)⟩
    rintro ⟨digits, power, rfl, hdigits, hpower⟩
    exact .hexadecimal (.inl rfl) hdigits hpower
  · rw [hexValue?_isSome_iff]
    refine ⟨?_, WellFormed.of_x (.inr rfl)⟩
    rintro ⟨digits, power, rfl, hdigits, hpower⟩
    exact .hexadecimal (.inr rfl) hdigits hpower
  · next hx hX =>
    obtain ⟨c, hc, hbegins⟩ := hhead
    obtain ⟨ds, rfl⟩ := List.head?_eq_some_iff.1 hc
    rw [decimalValue?_isSome_iff hbegins, decimal?_isSome_iff]
    constructor
    · rintro ⟨digits, power, htext, hdigits, hpower⟩
      rw [htext]
      exact .decimal hdigits hpower
    · intro h
      generalize c :: ds = text at *
      cases h with
      | decimal hdigits hpower => exact ⟨_, _, rfl, hdigits, hpower⟩
      | hexadecimal hletter _ _ =>
        rcases hletter with rfl | rfl
        · exact absurd rfl (hx _)
        · exact absurd rfl (hX _)

/-! ## Reading -/

theorem IsDigits.isMantissa (h : IsDigits hex cs) : IsMantissa hex cs := by
  cases h with
  | integer _ hds => exact .integer hds
  | point _ hds hes => exact .point hds hes

theorem IsPower.isScale (h : IsPower hex cs) : IsScale hex cs := by
  cases h with
  | missing => exact .missing
  | exponent hmark h =>
    obtain ⟨hsign, -, hds⟩ := h
    exact .exponent hmark hsign hds

theorem IsDigits.begins (h : IsDigits false cs) (power : List Char) :
    ∃ d ds, cs ++ power = d :: ds ∧
      (d.isDigit = true ∨ d = '.' ∧ ∃ e ∈ ds.head?, e.isDigit = true) := by
  rcases h with @⟨ds, hne, hds⟩ | @⟨ds, es, hne, hds, hes⟩
  · obtain ⟨d, ds, rfl⟩ := List.exists_cons_of_ne_nil hne
    exact ⟨d, _, rfl, .inl (hds d List.mem_cons_self)⟩
  · cases ds with
    | nil =>
      obtain ⟨e, es, rfl⟩ := List.exists_cons_of_ne_nil (hne.resolve_left fun h => h rfl)
      exact ⟨'.', _, rfl, .inr ⟨rfl, e, rfl, hes e List.mem_cons_self⟩⟩
    | cons d ds => exact ⟨d, _, rfl, .inl (hds d List.mem_cons_self)⟩

/-- What is well formed is read in one piece, with nothing that sticks to it. -/
theorem WellFormed.isNumeral (h : WellFormed cs) : IsNumeral cs := by
  cases h with
  | @decimal digits power hdigits hpower =>
    have hhex : isHex (digits ++ power) = false := by
      cases hhex : isHex (digits ++ power) with
      | false => rfl
      | true =>
        obtain ⟨-, hx⟩ := Bool.and_eq_true_iff.1 hhex
        rcases Bool.or_eq_true_iff.1 hx with hx | hx
        · exact absurd rfl (ne_x hdigits hpower _ (List.mem_of_getElem? (eq_of_beq hx))).1
        · exact absurd rfl (ne_x hdigits hpower _ (List.mem_of_getElem? (eq_of_beq hx))).2
    refine ⟨hdigits.begins power, [], digits, power, [], ?_⟩
    rw [hhex, List.append_nil]
    exact ⟨rfl, rfl, hdigits.isMantissa, hpower.isScale, nofun⟩
  | @hexadecimal x digits power hx hdigits hpower =>
    have hhex : isHex ('0' :: x :: (digits ++ power)) = true := by
      rcases hx with rfl | rfl <;> rfl
    refine ⟨⟨'0', _, rfl, .inl rfl⟩, ['0', x], digits, power, [], ?_⟩
    rw [hhex, List.append_nil]
    exact ⟨rfl, rfl, hdigits.isMantissa, hpower.isScale, nofun⟩

end Numeral

open Numeral

namespace Lexeme

variable {c : Char} {cs : List Char} {n : Nat} {l : Lexeme}

theorem symbol_ofWord_ne (word : String) : (ofWord word).symbol ≠ .number := by
  rw [ofWord]
  split
  · next keyword hkeyword =>
    rintro rfl
    have hmem := Symbol.isKeyword_of_keyword? hkeyword
    revert hmem
    decide
  · exact (by decide : Symbol.name ≠ .number)

/-- Only what begins as a numeral is read as a number. -/
theorem beginsNumeral_of_number (h : read (c :: cs) = ⟨n, .ok l⟩) (hs : l.symbol = .number) :
    beginsNumeral c cs = true := by
  by_contra hnumeral
  rw [Bool.not_eq_true] at hnumeral
  have hstring : Symbol.string ≠ .number := by decide
  by_cases hbracket : c = '['
  · subst hbracket
    rw [read_bracket, readBracket] at h
    split at h <;> split at h <;> cases h
    · exact hstring hs
    · exact absurd hs (by decide)
  by_cases hquote : c = '"' ∨ c = '\''
  · rw [read_quoted hquote, readQuoted, Scan.map] at h
    injection h with _ hresult
    cases hread : (Quoted.read c cs).result with
    | error e =>
      rw [hread] at hresult
      cases hresult
    | ok v =>
      rw [hread] at hresult
      injection hresult with hresult
      exact hstring ((congrArg Lexeme.symbol hresult).trans hs)
  cases hname : isNameStart c with
  | true =>
    rw [read_word hname] at h
    injection h with _ hresult
    injection hresult with hresult
    exact symbol_ofWord_ne _ ((congrArg Lexeme.symbol hresult).trans hs)
  | false =>
    rw [read_punctuation hbracket hquote hnumeral hname, readPunctuation] at h
    split at h
    · next s hpunctuation =>
      injection h with _ hresult
      injection hresult with hresult
      obtain rfl : s = .number := (congrArg Lexeme.symbol hresult).trans hs
      obtain ⟨hmem, -⟩ := Symbol.punctuation?_eq_some hpunctuation
      revert hmem
      decide
    · cases h

/-- The text of a number begins with a digit or a point. -/
theorem begins_of_number (h : read cs = ⟨n, .ok l⟩) (hs : l.symbol = .number) :
    ∃ c ∈ (l.value.getD "").toList.head?, c.isDigit = true ∨ c = '.' := by
  cases cs with
  | nil =>
    injection h with _ hresult
    injection hresult with hresult
    exact absurd ((congrArg Lexeme.symbol hresult).trans hs) (by decide)
  | cons c cs =>
    have hnumeral := beginsNumeral_of_number h hs
    obtain ⟨word, rest, rfl, hsize, -⟩ := readNumeral_cut hnumeral
    have hsize : Numeral.size (c :: (word ++ rest)) = word.length + 1 := hsize
    rw [read_numeral hnumeral] at h
    injection h with _ hresult
    injection hresult with hresult
    rw [← hresult, readNumeral, hsize, Option.getD_some, String.toList_ofList, List.take_succ_cons]
    exact ⟨c, rfl, (beginsNumeral_iff.1 hnumeral).imp_right And.left⟩

end Lexeme

/-- Every well-formed numeral is the one token of its text and has a value, and a number that the
lexer answers with has a value only if it is well formed. -/
theorem tokenize_numeral :
    (∀ cs, WellFormed cs →
      tokenize (String.ofList cs) =
        .ok [{ symbol := .number, value := String.ofList cs,
               span := ⟨Position.start, Position.start.after cs⟩ },
          Token.eof (Position.start.after cs)] ∧
      (value? (String.ofList cs)).isSome = true) ∧
    ∀ (source : String) (skipShebang : Bool) (n : Nat) (t : Token),
      (Lexer.ofSource source skipShebang).answer n = .ok t → t.symbol = .number →
      ((value? t.content).isSome = true ↔ WellFormed t.content.toList) := by
  refine ⟨fun cs h => ⟨?_, ?_⟩, fun source skipShebang n t hanswer hs => ?_⟩
  · let w : Spelt := ⟨_, cs, .number h.isNumeral, .space⟩
    have hjoined : Spelt.joined [w] = cs := List.append_nil cs
    obtain ⟨ts, eof, htokens, hyields⟩ := @Spelt.yields_joined [w] [] nofun Position.start
    have hhead := Spelt.joined_head?_ne [w]
    rw [hjoined] at hhead
    rw [List.nil_append, hjoined] at hyields
    rw [tokenize, String.toList_ofList, Place.ofText_eq hhead, hyields.ofPlace_eq]
    exact congrArg Except.ok htokens.symm
  · obtain ⟨d, ds, rfl, hbegins⟩ := h.isNumeral.begins
    exact (value?_isSome_iff ⟨d, rfl, hbegins.imp_right And.left⟩).2 h
  · obtain ⟨p, -, hp⟩ := (Lexer.at_ofSource source skipShebang).answer
      (Place.exists_before source.toList skipShebang) n
    obtain ⟨_, _, _, -, -, hread, -⟩ :=
      Place.readToken_eq_ok
        (Prod.ext (hp.symm.trans hanswer) rfl : p.readToken = (.ok t, p.readToken.2))
    have hiff := value?_isSome_iff (Lexeme.begins_of_number hread hs)
    rw [String.ofList_toList] at hiff
    exact hiff

/-- `0x.8p-1` is one token, and `3in` is a number that has no value. -/
theorem tokenize_numeral_hexadecimal :
    tokenize "0x.8p-1" =
        .ok [{ symbol := .number, value := "0x.8p-1",
               span := ⟨Position.start, Position.start.after "0x.8p-1".toList⟩ },
          Token.eof (Position.start.after "0x.8p-1".toList)] ∧
      (value? "0x.8p-1").isSome = true ∧
      ¬WellFormed "3in".toList := by
  have hformed : WellFormed "0x.8p-1".toList :=
    @WellFormed.hexadecimal 'x' ['.', '8'] ['p', '-', '1'] (.inl rfl)
      (@IsDigits.point true [] ['8'] (.inr (List.cons_ne_nil _ _)) nofun
        (List.forall_mem_singleton.2 rfl))
      (.exponent rfl
        (@IsSigned.intro ['-'] ['1'] (.inr (.inr rfl)) (List.cons_ne_nil _ _)
          (List.forall_mem_singleton.2 rfl)))
  obtain ⟨htoken, hvalue⟩ := tokenize_numeral.1 _ hformed
  refine ⟨htoken, hvalue, fun h => ?_⟩
  have hnone : (value? "3in").isSome = false := by decide
  have hanswer : (Lexer.ofSource "3in" false).answer 0 =
      .ok { symbol := .number, value := "3in",
            span := ⟨Position.start, Position.start.after "3in".toList⟩ } := by rfl
  have hsome : (value? "3in").isSome = true := (tokenize_numeral.2 "3in" false 0 _ hanswer rfl).2 h
  exact Bool.false_ne_true (hnone.symm.trans hsome)

end LuaSource
