-- SUMMARY: The grammar of short strings, and where a text leaves it.
import LuaSource.Proofs.Lexeme.Written
import LuaSource.Proofs.Text.Newlines

/-!
# Items of short strings

Between its quotes a short string is a sequence of items, each of which stands for one character. How
far an item reaches can depend on what follows it. A text is read item by item up to the closing
quote, or up to the first place where no item begins, where the error is.
-/

namespace LuaSource.Quoted

/-- As many digits before the text `rest` as there are, up to a number of them. -/
structure DigitRun (isDigit : Char → Bool) (most : Nat) (rest digits : List Char) : Prop where
  all : ∀ c ∈ digits, isDigit c = true
  le : digits.length ≤ most
  greedy : digits.length < most → ∀ c ∈ rest.head?, isDigit c = false

/-- An item before the text `rest`, and the character that it stands for. -/
inductive Item (quote : Char) (rest : List Char) : List Char → Char → Prop
  | raw {c : Char} (hquote : c ≠ quote) (hbackslash : c ≠ '\\') (hline : isNewline c = false) :
      Item quote rest [c] c
  | letter {c d : Char} (h : (c, d) ∈ letters) : Item quote rest ['\\', c] d
  | newline {form : List Char} (h : NewlineForm rest form) : Item quote rest ('\\' :: form) '\n'
  | decimal {digits : List Char} (hrun : DigitRun Char.isDigit 3 rest digits) (hne : digits ≠ [])
      (hle : digitsValue 10 digits ≤ 255) :
      Item quote rest ('\\' :: digits) (Char.ofNat (digitsValue 10 digits))
  | hexadecimal {c d : Char} (hc : isHexDigit c = true) (hd : isHexDigit d = true) :
      Item quote rest ['\\', 'x', c, d] (Char.ofNat (digitsValue 16 [c, d]))
  | other {c : Char} (hletter : c ∉ letters.map Prod.fst) (hline : isNewline c = false)
      (hx : c ≠ 'x') (hdigit : c.isDigit = false) : Item quote rest ['\\', c] c

/-- Items before the text `rest`, and the text that they stand for. -/
inductive Items (quote : Char) (rest : List Char) : List Char → List Char → Prop
  | nil : Items quote rest [] []
  | cons {item text value : List Char} {c : Char} (h : Item quote (text ++ rest) item c)
      (hs : Items quote rest text value) : Items quote rest (item ++ text) (c :: value)

/-- What begins no item before the text `rest` and is not the closing quote, and the error there.
`raw` is the string up to here, from its opening quote. -/
inductive Fault (raw rest : List Char) : List Char → LexError → Prop
  | ended (hrest : rest = []) : Fault raw rest [] (.unfinishedString Symbol.eof.spelling)
  | line {c : Char} (hc : isNewline c = true) (hrest : rest.head? = some c) :
      Fault raw rest [] (.unfinishedString (String.ofList raw))
  | backslash (hrest : rest = []) : Fault raw rest ['\\'] (.unfinishedString Symbol.eof.spelling)
  | tooLarge {digits : List Char} (hrun : DigitRun Char.isDigit 3 rest digits)
      (hlarge : 255 < digitsValue 10 digits) :
      Fault raw rest ('\\' :: digits) (.escapeTooLarge (String.ofList ('\\' :: digits)))
  | hexDigit {digits : List Char} (hrun : DigitRun isHexDigit 2 rest digits)
      (hlt : digits.length < 2) :
      Fault raw rest ('\\' :: 'x' :: digits) (.hexDigitExpected (String.ofList
        ('\\' :: 'x' :: (digits ++ (rest.take 1).filter (!isNewline ·)))))

/-! ## Digits -/

variable {quote c d : Char} {isDigit : Char → Bool} {most : Nat}
  {raw rest digits form item text value cs : List Char} {e : LexError}

theorem DigitRun.takeWhile (h : DigitRun isDigit most rest digits) :
    ((digits ++ rest).take most).takeWhile isDigit = digits := by
  have hall : ∀ cs, (∀ c ∈ cs.head?, isDigit c = false) →
      (digits ++ cs).takeWhile isDigit = digits := by
    intro cs hcs
    rw [List.takeWhile_append_of_pos h.all]
    cases cs with
    | nil => rw [List.takeWhile_nil, List.append_nil]
    | cons c cs =>
      rw [List.takeWhile_cons_of_neg (by simp [hcs c rfl]), List.append_nil]
  rw [List.take_append, List.take_of_length_le h.le]
  refine hall _ fun c hc => ?_
  by_cases hlt : digits.length < most
  · refine h.greedy hlt c ?_
    cases rest with
    | nil =>
      rw [List.take_nil] at hc
      cases hc
    | cons d rest =>
      rw [← Nat.sub_add_cancel (Nat.sub_pos_of_lt hlt), List.take_succ_cons] at hc
      exact hc
  · rw [Nat.sub_eq_zero_of_le (Nat.not_lt.1 hlt), List.take_zero] at hc
    cases hc

theorem exists_digitRun (isDigit : Char → Bool) (most : Nat) (cs : List Char) :
    ∃ digits rest, cs = digits ++ rest ∧ DigitRun isDigit most rest digits := by
  induction most generalizing cs with
  | zero => exact ⟨[], cs, rfl, nofun, Nat.le_refl 0, fun h => absurd h (Nat.not_lt_zero _)⟩
  | succ most ih =>
    cases cs with
    | nil => exact ⟨[], [], rfl, nofun, Nat.zero_le _, fun _ => nofun⟩
    | cons c cs =>
      cases hc : isDigit c with
      | false =>
        refine ⟨[], c :: cs, rfl, nofun, Nat.zero_le _, fun _ d hd => ?_⟩
        cases hd
        exact hc
      | true =>
        obtain ⟨digits, rest, rfl, hrun⟩ := ih cs
        exact ⟨c :: digits, rest, rfl, List.forall_mem_cons.2 ⟨hc, hrun.all⟩,
          Nat.succ_le_succ hrun.le, fun h => hrun.greedy (Nat.lt_of_succ_lt_succ h)⟩

/-! ## Escapes -/

theorem readEscape_newline (h : NewlineForm rest form) :
    readEscape (form ++ rest) = ⟨form.length, .ok '\n'⟩ := by
  have hlength := h.length_eq
  cases h with
  | feed => rfl
  | both => rfl
  | alone hrest =>
    have hnone : letters.lookup '\r' = none := by decide
    rw [List.singleton_append] at hlength ⊢
    have hline : isNewline '\r' = true := rfl
    rw [readEscape, hnone]
    dsimp only
    rw [if_pos hline, ← hlength]

theorem lookup_letters (hletter : c ∉ letters.map Prod.fst) : letters.lookup c = none := by
  refine List.lookup_eq_none_iff.2 fun p hp => bne_iff_ne.2 ?_
  rintro rfl
  exact hletter (List.mem_map_of_mem hp)

theorem readEscape_digit (hc : c.isDigit = true) (cs : List Char) :
    readEscape (c :: cs) = readDecimal (c :: cs) := by
  have hne : ∀ d : Char, d.isDigit = false → c ≠ d := by
    rintro d hd rfl
    rw [hc] at hd
    cases hd
  have hletter : c ∉ letters.map Prod.fst := by
    intro hmem
    have hall : (letters.map Prod.fst).all (! ·.isDigit) = true := by decide
    have hnot := List.all_eq_true.1 hall c hmem
    rw [hc] at hnot
    cases hnot
  have hline : isNewline c = false := by
    simp [isNewline, beq_false_of_ne (hne '\n' rfl), beq_false_of_ne (hne '\r' rfl)]
  rw [readEscape, lookup_letters hletter]
  dsimp only
  rw [hline, if_neg Bool.false_ne_true, if_neg (hne 'x' rfl), if_pos hc]

theorem readEscape_decimal (hrun : DigitRun Char.isDigit 3 rest digits) (hne : digits ≠ []) :
    readEscape (digits ++ rest) = ⟨digits.length,
      if digitsValue 10 digits ≤ 255 then .ok (Char.ofNat (digitsValue 10 digits))
      else .error (.escapeTooLarge (String.ofList ('\\' :: digits)))⟩ := by
  have htake := hrun.takeWhile
  cases digits with
  | nil => exact absurd rfl hne
  | cons c digits =>
    rw [List.cons_append, readEscape_digit (hrun.all c List.mem_cons_self), readDecimal,
      ← List.cons_append, htake]

theorem readEscape_hexadecimal (hrun : DigitRun isHexDigit 2 rest digits) :
    readEscape ('x' :: (digits ++ rest)) = ⟨1 + digits.length,
      if digits.length = 2 then .ok (Char.ofNat (digitsValue 16 digits))
      else .error (.hexDigitExpected (String.ofList
        ('\\' :: 'x' :: (digits ++ (rest.take 1).filter (!isNewline ·)))))⟩ := by
  have hnone : letters.lookup 'x' = none := by decide
  rw [readEscape, hnone]
  dsimp only
  rw [if_neg (by decide), if_pos rfl, readHex, hrun.takeWhile, List.drop_left]
  rfl

theorem readEscape_other (hletter : c ∉ letters.map Prod.fst) (hline : isNewline c = false)
    (hx : c ≠ 'x') (hdigit : c.isDigit = false) (cs : List Char) :
    readEscape (c :: cs) = ⟨1, .ok c⟩ := by
  rw [readEscape, lookup_letters hletter]
  dsimp only
  rw [hline, if_neg Bool.false_ne_true, if_neg hx, hdigit, if_neg Bool.false_ne_true]

/-! ## Reading -/

/-- An item is read as the character that it stands for. -/
theorem Item.readBody (hquote : '\\' ≠ quote) (h : Item quote rest item c) (raw value : List Char) :
    readBody quote 0 raw value (item ++ rest) =
      readBody quote 0 (item.reverse ++ raw) (c :: value) rest := by
  have hescape : ∀ {word : List Char} {d : Char}, readEscape (word ++ rest) = ⟨word.length, .ok d⟩ →
      Quoted.readBody quote 0 raw value ('\\' :: word ++ rest) =
        Quoted.readBody quote 0 (('\\' :: word).reverse ++ raw) (d :: value) rest := by
    intro word d hread
    rw [List.reverse_cons, List.append_assoc]
    exact readBody_escape hquote word hread
  cases h with
  | raw hc hbackslash hline =>
    rw [List.singleton_append, Quoted.readBody, if_neg hc, hline, if_neg Bool.false_ne_true,
      if_neg hbackslash]
    rfl
  | letter h => exact hescape (readEscape_letter h rest)
  | newline h => exact hescape (readEscape_newline h)
  | @decimal digits hrun hne hle =>
    refine hescape ?_
    rw [readEscape_decimal hrun hne, if_pos hle]
  | @hexadecimal c d hc hd =>
    have hrun : DigitRun isHexDigit 2 rest [c, d] :=
      ⟨List.forall_mem_cons.2 ⟨hc, List.forall_mem_singleton.2 hd⟩, Nat.le_refl 2,
        fun h => absurd h (Nat.lt_irrefl 2)⟩
    exact @hescape ['x', c, d] _ (readEscape_hexadecimal hrun)
  | other hletter hline hx hdigit => exact hescape (readEscape_other hletter hline hx hdigit rest)

theorem Items.readBody (hquote : '\\' ≠ quote) (h : Items quote rest text value)
    (raw before : List Char) :
    readBody quote 0 raw before (text ++ rest) =
      readBody quote 0 (text.reverse ++ raw) (value.reverse ++ before) rest := by
  induction h generalizing raw before with
  | nil => rfl
  | cons hitem _ ih =>
    rw [List.append_assoc, hitem.readBody hquote, ih, List.reverse_append, List.reverse_cons,
      List.append_assoc, List.append_assoc]
    rfl

theorem readBody_escape_error (hquote : '\\' ≠ quote) {n : Nat}
    (h : readEscape cs = ⟨n, .error e⟩) (raw value : List Char) :
    readBody quote 0 raw value ('\\' :: cs) = ⟨raw.length + 1 + n, .error e⟩ := by
  rw [readBody, if_neg hquote, if_neg (by decide), if_pos rfl, h]

/-- What begins no item is read as an error. -/
theorem Fault.readBody (hquote : '\\' ≠ quote) (hline : isNewline quote = false)
    (h : Fault raw.reverse rest text e) (value : List Char) :
    readBody quote 0 raw value (text ++ rest) = ⟨raw.length + text.length, .error e⟩ := by
  cases h with
  | ended hrest =>
    rw [hrest]
    rfl
  | @line c hc hrest =>
    obtain ⟨rest, rfl⟩ := List.head?_eq_some_iff.1 hrest
    have hne : c ≠ quote := by
      rintro rfl
      rw [hc] at hline
      cases hline
    rw [List.nil_append, Quoted.readBody, if_neg hne, if_pos hc]
    rfl
  | backslash hrest =>
    have hread : readEscape [] = ⟨0, .error (.unfinishedString Symbol.eof.spelling)⟩ := rfl
    rw [hrest]
    exact readBody_escape_error hquote hread raw value
  | @tooLarge digits hrun hlarge =>
    have hne : digits ≠ [] := by
      rintro rfl
      cases hlarge
    have hread := readEscape_decimal hrun hne
    rw [if_neg (Nat.not_le.2 hlarge)] at hread
    rw [List.cons_append, readBody_escape_error hquote hread, List.length_cons]
    congr 1
    omega
  | @hexDigit digits hrun hlt =>
    have hread := readEscape_hexadecimal hrun
    rw [if_neg (Nat.ne_of_lt hlt)] at hread
    rw [List.cons_append, List.cons_append, readBody_escape_error hquote hread, List.length_cons,
      List.length_cons]
    congr 1
    omega

/-! ## Every text -/

/-- A backslash begins an item or an error. -/
theorem exists_escape (quote : Char) (cs : List Char) :
    (∃ item rest c, '\\' :: cs = item ++ rest ∧ item ≠ [] ∧ Item quote rest item c) ∨
      ∀ raw, ∃ text rest e, '\\' :: cs = text ++ rest ∧ Fault raw rest text e := by
  cases cs with
  | nil => exact .inr fun raw => ⟨['\\'], [], _, rfl, .backslash rfl⟩
  | cons c cs =>
    by_cases hletter : c ∈ letters.map Prod.fst
    · obtain ⟨⟨c, d⟩, hd, rfl⟩ := List.mem_map.1 hletter
      exact .inl ⟨['\\', c], cs, d, rfl, List.cons_ne_nil _ _, .letter hd⟩
    cases hline : isNewline c with
    | true =>
      obtain ⟨form, rest, hcs, hform⟩ := exists_newlineForm hline cs
      exact .inl ⟨'\\' :: form, rest, _, by rw [hcs]; rfl, List.cons_ne_nil _ _, .newline hform⟩
    | false =>
      by_cases hx : c = 'x'
      · subst hx
        obtain ⟨digits, rest, rfl, hrun⟩ := exists_digitRun isHexDigit 2 cs
        by_cases htwo : digits.length = 2
        · obtain ⟨c, d, rfl⟩ := List.length_eq_two.1 htwo
          obtain ⟨hc, hd⟩ := List.forall_mem_cons.1 hrun.all
          exact .inl ⟨['\\', 'x', c, d], rest, _, rfl, List.cons_ne_nil _ _,
            .hexadecimal hc (hd d List.mem_cons_self)⟩
        · exact .inr fun raw => ⟨'\\' :: 'x' :: digits, rest, _, rfl,
            .hexDigit hrun (Nat.lt_of_le_of_ne hrun.le htwo)⟩
      · cases hdigit : c.isDigit with
        | false =>
          exact .inl ⟨['\\', c], cs, c, rfl, List.cons_ne_nil _ _,
            .other hletter hline hx hdigit⟩
        | true =>
          obtain ⟨digits, rest, hcs, hrun⟩ := exists_digitRun Char.isDigit 3 (c :: cs)
          have hne : digits ≠ [] := by
            rintro rfl
            have hhead := hrun.greedy (by decide) c
            rw [← List.nil_append rest, ← hcs, hdigit] at hhead
            cases hhead rfl
          rw [hcs]
          by_cases hle : digitsValue 10 digits ≤ 255
          · exact .inl ⟨'\\' :: digits, rest, _, rfl, List.cons_ne_nil _ _,
              .decimal hrun hne hle⟩
          · exact .inr fun raw => ⟨'\\' :: digits, rest, _, rfl,
              .tooLarge hrun (Nat.not_le.1 hle)⟩

/-- Every text is a sequence of items up to the closing quote or up to an error. -/
theorem exists_items (quote : Char) (cs : List Char) :
    ∃ text value rest, cs = text ++ rest ∧ Items quote rest text value ∧
      (rest.head? = some quote ∨
        ∀ raw, ∃ stop behind e, rest = stop ++ behind ∧ Fault raw behind stop e) := by
  induction hlength : cs.length using Nat.strongRecOn generalizing cs with
  | _ length ih =>
  subst hlength
  -- Behind one item, the rest is a sequence of items.
  have hstep : ∀ {item rest : List Char} {c : Char}, cs = item ++ rest → item ≠ [] →
      Item quote rest item c →
      ∃ text value rest, cs = text ++ rest ∧ Items quote rest text value ∧
        (rest.head? = some quote ∨
          ∀ raw, ∃ stop behind e, rest = stop ++ behind ∧ Fault raw behind stop e) := by
    intro item rest c hcs hne hitem
    have hpos := List.length_pos_iff.2 hne
    obtain ⟨text, value, rest, rfl, hitems, hstop⟩ := ih rest.length
      (by rw [hcs, List.length_append]; omega) rest rfl
    exact ⟨item ++ text, c :: value, rest, by rw [hcs, List.append_assoc], .cons hitem hitems,
      hstop⟩
  cases cs with
  | nil => exact ⟨[], [], [], rfl, .nil, .inr fun raw => ⟨[], [], _, rfl, .ended rfl⟩⟩
  | cons c cs =>
    by_cases hquote : c = quote
    · exact ⟨[], [], c :: cs, rfl, .nil, .inl (congrArg some hquote)⟩
    by_cases hbackslash : c = '\\'
    · subst hbackslash
      obtain ⟨item, rest, d, hcs, hne, hitem⟩ | hfault := exists_escape quote cs
      · exact hstep hcs hne hitem
      · exact ⟨[], [], _, rfl, .nil, .inr hfault⟩
    cases hline : isNewline c with
    | true =>
      exact ⟨[], [], c :: cs, rfl, .nil,
        .inr fun raw => ⟨[], c :: cs, _, rfl, .line hline rfl⟩⟩
    | false =>
      exact @hstep [c] cs c rfl (List.cons_ne_nil _ _) (.raw hquote hbackslash hline)

end LuaSource.Quoted
