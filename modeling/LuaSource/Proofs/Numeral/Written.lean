-- SUMMARY: A number that is written and read again is the same number.
import LuaSource.Numeral
import LuaSource.Proofs.Lexeme.Sound
import LuaSource.Proofs.Numeral.Grammar
import LuaSource.Proofs.Numeral.Shortest

/-!
# Written numbers

The text of a number is one numeral, whatever follows it on which a numeral cannot go on, and its
value is the number bit for bit.
-/

namespace LuaSource

/-! ## The two ways of writing -/

namespace Decimal

open Numeral

theorem denotes_point {integer fraction : List Char} {d : Decimal} (hne : integer ≠ [])
    (hinteger : ∀ c ∈ integer, c.isDigit = true) (hfraction : ∀ c ∈ fraction, c.isDigit = true)
    (hdigits : digitsValue 10 (integer ++ fraction) = d.digits)
    (hplaces : (fraction.length : Int) = -d.exponent) :
    Denotes (integer ++ point fraction) d := by
  have h := Denotes.intro hne hinteger hfraction .none
  rw [List.append_nil, hdigits, hplaces, Int.zero_sub, Int.neg_neg] at h
  exact h

theorem denotes_positional_of_nonneg {d : Decimal} (hd : 0 ≤ d.exponent) :
    Denotes d.positional ⟨d.digits * 10 ^ d.exponent.toNat, 0⟩ := by
  have htext : d.positional =
      Nat.toDigits 10 d.digits ++ List.replicate d.exponent.toNat '0' := by
    rw [positional, if_pos hd]
  have hdigits : ∀ c ∈ d.positional, c.isDigit = true := by
    intro c hc
    rw [htext] at hc
    rcases List.mem_append.1 hc with hc | hc
    · exact isDigit_of_mem_toDigits hc
    · exact isDigit_of_mem_zeros hc
  have hne : d.positional ≠ [] := by
    rw [htext]
    simp
  have hvalue : digitsValue 10 (d.positional ++ []) = d.digits * 10 ^ d.exponent.toNat := by
    rw [List.append_nil, htext, digitsValue_append_zeros, digitsValue_toDigits]
  have h : Denotes (d.positional ++ point []) ⟨d.digits * 10 ^ d.exponent.toNat, 0⟩ :=
    denotes_point hne hdigits nofun hvalue rfl
  rwa [point, List.isEmpty_nil, if_pos rfl, List.append_nil] at h

theorem denotes_positional_of_neg {d : Decimal} (hd : d.exponent < 0) :
    Denotes d.positional d := by
  have hdigits : ∀ c ∈ Nat.toDigits 10 d.digits, c.isDigit = true := fun c =>
    isDigit_of_mem_toDigits
  have hplaces : ((-d.exponent).toNat : Int) = -d.exponent := by omega
  have hplaces_pos : 0 < (-d.exponent).toNat := by omega
  have hpoint : ∀ {fraction : List Char}, fraction ≠ [] → point fraction = '.' :: fraction := by
    intro fraction hne
    rw [point, List.isEmpty_eq_false_iff.2 hne, if_neg Bool.false_ne_true]
  rw [positional, if_neg (Int.not_le.2 hd)]
  dsimp only
  generalize (-d.exponent).toNat = places at hplaces hplaces_pos
  split
  · next hlt =>
    generalize hk : (Nat.toDigits 10 d.digits).length - places = k
    have hlength : ((Nat.toDigits 10 d.digits).drop k).length = places := by
      rw [List.length_drop]
      omega
    have hne : (Nat.toDigits 10 d.digits).drop k ≠ [] := by
      rw [← List.length_pos_iff]
      omega
    rw [← hpoint hne]
    refine denotes_point ?_ (fun c hc => hdigits c (List.mem_of_mem_take hc))
      (fun c hc => hdigits c (List.mem_of_mem_drop hc)) ?_ ?_
    · rw [← List.length_pos_iff, List.length_take]
      omega
    · rw [List.take_append_drop, digitsValue_toDigits]
    · rw [hlength, hplaces]
  · next hge =>
    generalize hzeros : List.replicate (places - (Nat.toDigits 10 d.digits).length) '0' = zeros
    have hne : zeros ++ Nat.toDigits 10 d.digits ≠ [] := by simp
    rw [← hpoint hne]
    refine denotes_point (List.cons_ne_nil '0' []) ?_ ?_ ?_ ?_
    · intro c hc
      rw [List.mem_singleton.1 hc]
      rfl
    · intro c hc
      rcases List.mem_append.1 hc with hc | hc
      · rw [← hzeros] at hc
        exact isDigit_of_mem_zeros hc
      · exact hdigits c hc
    · show digitsValue 10 (zeros ++ Nat.toDigits 10 d.digits) = d.digits
      rw [← hzeros, digitsValue_zeros_append, digitsValue_toDigits]
    · rw [← hplaces, List.length_append, ← hzeros, List.length_replicate]
      omega

theorem denotes_scientific (d : Decimal) : Denotes d.scientific d := by
  have hdigits : ∀ c ∈ Nat.toDigits 10 d.digits, c.isDigit = true := fun c =>
    isDigit_of_mem_toDigits
  have hvalue := digitsValue_toDigits d.digits
  rw [scientific]
  split
  · next hnil => exact absurd hnil Nat.toDigits_ne_nil
  · next c cs hcons =>
    rw [hcons] at hdigits hvalue
    have h := Denotes.intro (List.cons_ne_nil c []) (fun d hd => by
        rw [List.mem_singleton.1 hd]
        exact hdigits c List.mem_cons_self)
      (fun d hd => hdigits d (List.mem_cons_of_mem c hd)) (.some (d.exponent + cs.length))
    rw [List.singleton_append, List.singleton_append, hvalue, Int.add_sub_cancel] at h
    exact h

end Decimal

/-! ## Numbers -/

theorem Double.eq_of_magnitude {x y : Double} (hx : x.Unsigned) (hy : y.Unsigned)
    (h : x.magnitude = y.magnitude) : x = y := by
  obtain ⟨negative, magnitude, hlt⟩ := x
  obtain ⟨negative', magnitude', hlt'⟩ := y
  cases hx
  cases hy
  cases h
  rfl

namespace Numeral

/-- A decimal without a power of ten stands for the number that it stands for with it. -/
theorem ofDecimal_mul_pow {d : Decimal} (hd : 0 ≤ d.exponent)
    (hfinite : (Double.ofDecimal d).magnitude < Double.infiniteMagnitude) :
    Double.ofDecimal ⟨d.digits * 10 ^ d.exponent.toNat, 0⟩ = Double.ofDecimal d := by
  have hpow : 10 ^ d.exponent.toNat ≠ 0 := Nat.ne_of_gt (Nat.pow_pos (by decide))
  rw [Double.ofDecimal, if_pos (Int.le_refl 0), if_neg (by simp)]
  rw [Double.ofDecimal, if_pos hd] at hfinite ⊢
  split at hfinite
  · exact absurd hfinite (Nat.lt_irrefl _)
  · next hsmall =>
    rw [if_neg hsmall]
    by_cases hzero : d.digits = 0
    · rw [if_pos hzero, if_pos]
      rw [hzero, Nat.zero_mul]
    · rw [if_neg hzero, if_neg (Nat.mul_ne_zero hzero hpow), Int.toNat_zero, Nat.pow_eq,
        Nat.pow_zero, Nat.mul_one]
      rfl

/-- What is written for a number is a decimal that is read as the number. -/
theorem exists_denotes_write {x : Double} (hx : x.Unsigned) (hnan : x.isNaN = false) :
    ∃ d, Denotes (write x) d ∧ Double.ofDecimal d = x := by
  have hwrite : write x = writeMagnitude x := by
    rw [write, hnan, if_neg Bool.false_ne_true, if_neg]
    rw [show x.negative = false from hx]
    exact Bool.false_ne_true
  have heq : ∀ d : Decimal, (Double.ofDecimal d).magnitude = x.magnitude →
      Double.ofDecimal d = x := fun d => Double.eq_of_magnitude (Double.unsigned_ofDecimal d) hx
  rw [hwrite, writeMagnitude]
  split
  · next hinfinite =>
    refine ⟨⟨1, 999⟩, ?_, heq _ (eq_of_beq hinfinite).symm⟩
    exact @Denotes.intro ['1'] [] _ _ (List.cons_ne_nil '1' [])
      (List.forall_mem_singleton.2 rfl) nofun (.some 999)
  · next hinfinite =>
    have hfinite : x.magnitude < Double.infiniteMagnitude := by
      have hle : x.magnitude ≤ Double.infiniteMagnitude := by
        simpa [Double.isNaN] using hnan
      have hne : x.magnitude ≠ Double.infiniteMagnitude := by
        simpa [Double.isInfinite] using hinfinite
      omega
    have hshortest : (Double.ofDecimal x.shortest).magnitude = x.magnitude :=
      eq_of_beq (Double.readsBack_shortest hfinite)
    split
    · by_cases hexponent : 0 ≤ x.shortest.exponent
      · refine ⟨_, Decimal.denotes_positional_of_nonneg hexponent, ?_⟩
        rw [ofDecimal_mul_pow hexponent (hshortest ▸ hfinite)]
        exact heq _ hshortest
      · exact ⟨_, Decimal.denotes_positional_of_neg (Int.not_le.1 hexponent), heq _ hshortest⟩
    · exact ⟨_, Decimal.denotes_scientific _, heq _ hshortest⟩

/-- The numeral that is written for a number has the number for its value. -/
theorem value?_write {x : Double} (hx : x.Unsigned) (hnan : x.isNaN = false) :
    value? (String.ofList (write x)) = some x := by
  obtain ⟨d, hd, rfl⟩ := exists_denotes_write hx hnan
  exact value?_of_denotes hd

/-! ## How far they reach -/

/-- Whether a numeral cannot go on behind a text: neither a name character nor a point follows. -/
def Ends (r : List Char) : Prop := ∀ c ∈ r.head?, isNameContinue c = false ∧ c ≠ '.'

theorem isNameContinue_of_isDigit {c : Char} (h : c.isDigit = true) : isNameContinue c = true := by
  have hrange : 48 ≤ c.toNat ∧ c.toNat ≤ 57 := Char.isDigit_iff_toNat.1 h
  rw [isNameContinue, isNumeric_of_isDigit h (by omega), Bool.or_true]

theorem Ends.stops {r : List Char} (h : Ends r) {last : Part} (hlast : last ≠ .mark) :
    last.Stops false r := by
  intro c hc
  obtain ⟨hname, hdot⟩ := h c hc
  have hdigit : c.isDigit = false := by
    refine eq_false_of_ne_true fun hdigit => ?_
    rw [isNameContinue_of_isDigit hdigit] at hname
    cases hname
  have hmark : isExponentMark false c = false := by
    refine eq_false_of_ne_true fun hmark => ?_
    rcases Bool.or_eq_true_iff.1 hmark with he | he
    · rw [eq_of_beq he] at hname
      revert hname
      decide
    · rw [eq_of_beq he] at hname
      revert hname
      decide
  cases last with
  | mark => exact absurd rfl hlast
  | integer => simp [Part.next?, hmark, hdot, isMantissaDigit, hdigit]
  | fraction => simp [Part.next?, hmark, isMantissaDigit, hdigit]
  | exponent => simp [Part.next?, hdigit]

theorem run?_exponent (e : Int) : Part.mark.run? false (toString e).toList = some .exponent := by
  obtain ⟨n, htext, -⟩ := toList_toString e
  have hdigits : ∀ c ∈ Nat.toDigits 10 n, c.isDigit = true := fun c => isDigit_of_mem_toDigits
  rw [htext]
  split
  · exact run?_exponentDigits false hdigits
  · cases hds : Nat.toDigits 10 n with
    | nil => exact absurd hds Nat.toDigits_ne_nil
    | cons c cs =>
      rw [hds] at hdigits
      have hc : c.isDigit = true := hdigits c List.mem_cons_self
      rw [List.nil_append, Part.run?, Part.next?, if_pos (.inr (.inr hc))]
      exact run?_exponentDigits false fun d hd => hdigits d (List.mem_cons_of_mem c hd)

/-- All of a decimal goes on with the numeral that it begins. -/
theorem run?_of_denotes {cs : List Char} {d : Decimal} (h : Denotes cs d) :
    ∃ last, Part.integer.run? false cs = some last ∧ last ≠ .mark := by
  cases h with
  | @intro integer fraction exponent e hne hinteger hfraction he =>
    have hmantissa : ∃ part, Part.integer.run? false (integer ++ point fraction) = some part ∧
        (part = .integer ∨ part = .fraction) := by
      rw [Part.run?_append, run?_mantissaDigits (.inl rfl) hinteger, point]
      split
      · exact ⟨.integer, rfl, .inl rfl⟩
      · exact ⟨.fraction, run?_mantissaDigits (.inr rfl) hfraction, .inr rfl⟩
    obtain ⟨part, hrun, hpart⟩ := hmantissa
    rw [← List.append_assoc, Part.run?_append, hrun]
    cases he with
    | none =>
      refine ⟨part, rfl, ?_⟩
      rintro rfl
      rcases hpart with h | h <;> cases h
    | some e =>
      refine ⟨.exponent, ?_, by decide⟩
      have hmark : part.next? false 'e' = some .mark := by
        rcases hpart with rfl | rfl <;> rfl
      rw [Option.bind_some, Part.run?, hmark]
      exact run?_exponent e

theorem isHex_of_denotes {cs r : List Char} {d : Decimal} (h : Denotes cs d) (hr : Ends r) :
    isHex (cs ++ r) = false := by
  obtain ⟨c, ds, rfl, -⟩ := head_of_denotes h
  have hsecond : ∀ x, isNameContinue x = true → x.isDigit = false → x ≠ 'e' →
      (c :: ds ++ r)[1]? ≠ some x := by
    intro x hx hdigit he hsome
    cases ds with
    | nil =>
      have hname := (hr x (by simpa [List.head?_eq_getElem?] using hsome)).1
      rw [hx] at hname
      cases hname
    | cons d ds =>
      obtain rfl : d = x := by simpa using hsome
      rcases of_mem_of_denotes h (List.mem_cons_of_mem c List.mem_cons_self) with hd | hd | hd | hd
      · rw [hdigit] at hd
        cases hd
      · subst hd
        revert hx
        decide
      · exact he hd
      · subst hd
        revert hx
        decide
  have hx : ((c :: ds ++ r)[1]? == some 'x') = false :=
    beq_false_of_ne (hsecond 'x' (by decide) (by decide) (by decide))
  have hX : ((c :: ds ++ r)[1]? == some 'X') = false :=
    beq_false_of_ne (hsecond 'X' (by decide) (by decide) (by decide))
  rw [isHex, hx, hX, Bool.or_self, Bool.and_false]

theorem size_of_denotes {cs r : List Char} {d : Decimal} (h : Denotes cs d) (hr : Ends r) :
    size (cs ++ r) = cs.length := by
  obtain ⟨last, hrun, hlast⟩ := run?_of_denotes h
  have hname : r.head?.any isNameContinue = false := by
    cases r with
    | nil => rfl
    | cons c r => exact (hr c rfl).1
  have hhex : isHex (cs ++ r) = false := isHex_of_denotes h hr
  have hsize := @size_append [] cs [] r last false hhex rfl hrun (hr.stops hlast) nofun hname
  rwa [List.nil_append, List.nil_append, List.nil_append, List.append_nil] at hsize

end Numeral

/-- A number is read again where it is written. -/
theorem Lexeme.read_write {x : Double} (hx : x.Unsigned) (hnan : x.isNaN = false) {r : List Char}
    (hr : Numeral.Ends r) :
    Lexeme.read (Numeral.write x ++ r) =
      ⟨(Numeral.write x).length,
        .ok { symbol := .number, value := String.ofList (Numeral.write x) }⟩ := by
  obtain ⟨d, hd, -⟩ := Numeral.exists_denotes_write hx hnan
  obtain ⟨c, cs, hcs, hc⟩ := Numeral.head_of_denotes hd
  have hbegins : beginsNumeral c (cs ++ r) = true := by rw [beginsNumeral, hc, Bool.true_or]
  have hsize := Numeral.size_of_denotes hd hr
  rw [hcs] at hsize ⊢
  exact read_numeral_append hbegins hsize

end LuaSource
