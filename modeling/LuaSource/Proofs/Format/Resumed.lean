-- SUMMARY: A source whose first tokens are those of another one, and whose last ones are plain.
import LuaSource.Proofs.Format.Legible

/-!
# Resumed sources

A source can be cut off behind any of its tokens and go on with any plain word there: the tokens
before stay as they are, with their spans.
-/

namespace LuaSource

/-! ## Tokens in order -/

/-- The tokens of a source up to its end, or up to what cannot be read. -/
def Tokens.stream (ts : Tokens) : List (Except (Located LexError) Token) :=
  ts.tokens.map .ok ++ [ts.ending]

theorem lettersFrom_take (p : Position) (ts : List Token) (n : Nat) :
    lettersFrom p (ts.take n) = (lettersFrom p ts).take n := by
  induction ts generalizing p n with
  | nil => rw [List.take_nil, lettersFrom, List.take_nil]
  | cons t ts ih =>
    cases n with
    | zero => rfl
    | succ n => rw [List.take_succ_cons, lettersFrom, lettersFrom, List.take_succ_cons, ih]

/-! ## Plain words as text -/

namespace Piece

/-- A plain letter with a space before it. -/
def ofPlain (c : Letter) : List Piece :=
  [space, if c.symbol = .name then name c.content else symbol c.symbol]

theorem legible_plain {v : List Letter} (hv : IsPlain v) : Legible (v.flatMap ofPlain) := by
  induction v with
  | nil => trivial
  | cons c v ih =>
    have hbehind : ∀ d ∈ (render (v.flatMap ofPlain)).head?, d = ' ' := by
      intro d hd
      cases v with
      | nil => cases hd
      | cons c v =>
        cases hd
        rfl
    rw [List.flatMap_cons]
    refine ⟨trivial, fun _ _ => rfl, ?_⟩
    rcases hv c List.mem_cons_self with rfl | ⟨s, hs, rfl⟩
    · refine ⟨isName_x, fun d hd => ?_, ih fun d hd => hv d (List.mem_cons_of_mem _ hd)⟩
      rw [hbehind d hd]
      decide
    · have hname : s ≠ .name := by
        rintro rfl
        cases hs
      have hrest := ih fun d hd => hv d (List.mem_cons_of_mem _ hd)
      show Legible ((if s = .name then _ else _) :: _)
      rw [if_neg hname]
      refine ⟨hs, fun d hd => ?_, hrest⟩
      rw [hbehind d hd]
      exact Symbol.goesOn_space s

theorem letters_plain {v : List Letter} (hv : IsPlain v) : letters true (v.flatMap ofPlain) = v := by
  induction v with
  | nil => rfl
  | cons c v ih =>
    have hrest := ih fun d hd => hv d (List.mem_cons_of_mem _ hd)
    rw [List.flatMap_cons]
    rcases hv c List.mem_cons_self with rfl | ⟨s, hs, rfl⟩
    · exact congrArg (Letter.x :: ·) hrest
    · have hname : s ≠ .name := by
        rintro rfl
        cases hs
      show letters true (space :: (if s = .name then _ else _) :: _) = _
      rw [if_neg hname]
      exact congrArg (Letter.ofSymbol s :: ·) hrest

end Piece

/-! ## Cutting a source -/

namespace Place

/-- Where the tokens of a text start. -/
def ofSource (cs : List Char) (skipShebang : Bool) : Place :=
  if skipShebang then (ofText cs).skipShebang else ofText cs

theorem ofText_cut {cs text rest : List Char} {p : Position}
    (h : ofText cs = ⟨text ++ rest, p⟩) (htext : text ≠ []) :
    ∃ before, ∀ r, ofText (before ++ (text ++ r)) = ⟨text ++ r, p⟩ := by
  obtain ⟨d, text, rfl⟩ := List.exists_cons_of_ne_nil htext
  cases cs with
  | nil => cases h
  | cons c cs =>
    rw [ofText] at h
    split at h
    · next hmark =>
      cases h
      refine ⟨['\uFEFF'], fun r => ?_⟩
      rw [hmark, List.singleton_append, ofText, if_pos rfl]
    · next hmark =>
      cases h
      refine ⟨[], fun r => ?_⟩
      rw [List.nil_append, List.cons_append, ofText, if_neg hmark]

theorem skipShebang_cut {p q : Place} {text rest : List Char} (h : p.skipShebang = q)
    (hrest : q.rest = text ++ rest) (htext : text ≠ []) :
    ∃ line, p.rest = line ++ (text ++ rest) ∧
      ∀ r, skipShebang ⟨line ++ (text ++ r), p.position⟩ = ⟨text ++ r, q.position⟩ := by
  obtain ⟨d, text, rfl⟩ := List.exists_cons_of_ne_nil htext
  rw [skipShebang] at h
  split at h
  · next hscript =>
    subst h
    obtain ⟨line, behind, hp, hline, hall, hbehind⟩ := exists_takeWhile (!isNewline ·) p.rest
    rw [hline, skip_rest, hp, List.drop_left] at hrest
    subst hrest
    refine ⟨line, hp, fun r => ?_⟩
    have hne : line ≠ [] := by
      rintro rfl
      have hhead := eq_of_beq (Bool.and_eq_true_iff.1 hscript).2
      rw [hp] at hhead
      cases hhead
      cases hbehind
    have hscript' : isScriptStart ⟨line ++ (d :: text ++ r), p.position⟩ = true := by
      obtain ⟨c, cs, rfl⟩ := List.exists_cons_of_ne_nil hne
      rw [isScriptStart, hp] at hscript
      exact hscript
    have hline' : (line ++ (d :: text ++ r)).takeWhile (!isNewline ·) = line :=
      takeWhile_append hall hbehind
    rw [skipShebang, if_pos hscript', hline', hline, skip, skip, hp, List.drop_left,
      List.take_left, List.take_left]
  · next hscript =>
    subst h
    refine ⟨[], hrest, fun r => ?_⟩
    rw [isScriptStart, hrest] at hscript
    rw [skipShebang, if_neg]
    · rfl
    · exact hscript

theorem ofSource_cut {cs text rest : List Char} {skipShebang : Bool} {q : Place}
    (h : ofSource cs skipShebang = q) (hrest : q.rest = text ++ rest) (htext : text ≠ []) :
    ∃ before, ∀ r, ofSource (before ++ (text ++ r)) skipShebang = ⟨text ++ r, q.position⟩ := by
  obtain ⟨line, hline, hskip⟩ : ∃ line, (ofText cs).rest = line ++ (text ++ rest) ∧
      ∀ r, (if skipShebang then
        Place.skipShebang ⟨line ++ (text ++ r), (ofText cs).position⟩
        else ⟨line ++ (text ++ r), (ofText cs).position⟩) = ⟨text ++ r, q.position⟩ := by
    rw [ofSource] at h
    cases skipShebang with
    | true => exact skipShebang_cut h hrest htext
    | false =>
      subst h
      exact ⟨[], hrest, fun r => rfl⟩
  have htext' : ofText cs = ⟨(line ++ text) ++ rest, (ofText cs).position⟩ := by
    rw [List.append_assoc, ← hline]
  obtain ⟨before, hbefore⟩ := ofText_cut htext' fun hnil =>
    htext (List.append_eq_nil_iff.1 hnil).2
  refine ⟨before ++ line, fun r => ?_⟩
  have hr := hbefore r
  rw [List.append_assoc] at hr
  rw [ofSource, List.append_assoc, hr]
  exact hskip r

end Place

/-- A source can go on with any plain word behind its first `n` tokens. -/
theorem exists_resumed {source : String} {skipShebang : Bool} {n : Nat} {v : List Letter}
    (hn : n ≤ (Tokens.ofSource source skipShebang).tokens.length) (hv : IsPlain v)
    (hhash : headSymbol ((Tokens.ofSource source skipShebang).letters.take n ++ v) ≠ .hash) :
    ∃ source' eof, (Tokens.ofSource source' skipShebang).ending = .ok eof ∧
      (Tokens.ofSource source' skipShebang).stream.take n =
        (Tokens.ofSource source skipShebang).stream.take n ∧
      (Tokens.ofSource source' skipShebang).letters =
        (Tokens.ofSource source skipShebang).letters.take n ++ v := by
  generalize hts : Tokens.ofSource source skipShebang = ts at hn hhash ⊢
  obtain ⟨tokens, ending⟩ := ts
  have hyields : (Place.ofSource source.toList skipShebang).Yields tokens ending := by
    have hplace : Tokens.ofPlace (Place.ofSource source.toList skipShebang) = ⟨tokens, ending⟩ := hts
    have h := Place.yields_ofPlace (Place.ofSource source.toList skipShebang)
    rwa [hplace] at h
  have hlegible := Piece.legible_plain hv
  have hletters := Piece.letters_plain hv
  by_cases hzero : n = 0
  · subst hzero
    rw [List.take_zero, List.nil_append, ← hletters] at hhash
    obtain ⟨eof, hending, hword⟩ := Piece.ofSource_render hlegible hhash skipShebang
    refine ⟨_, eof, hending, by rw [List.take_zero, List.take_zero], ?_⟩
    rw [hword, hletters, List.take_zero, List.nil_append]
  · have hlength : (tokens.take n).length = n := List.length_take_of_le hn
    have hus : tokens.take n ≠ [] := by
      rw [← List.length_pos_iff]
      omega
    rw [← List.take_append_drop n tokens] at hyields
    obtain ⟨text, q, hrest, -, hposition, -, htext, hcut⟩ := hyields.cut
    obtain ⟨before, hbefore⟩ := Place.ofSource_cut rfl hrest (htext hus)
    obtain ⟨vs, eof, hvs, hvletters⟩ :=
      Piece.yields_render hlegible (Nat.le_refl q.position.line)
    have hresumes : Resumes q.rest (Piece.render (v.flatMap Piece.ofPlain)) := by
      cases v with
      | nil => nofun
      | cons c v => exact .space _ _
    have hall := hcut _ vs _ hresumes hvs
    have hsource : Tokens.ofSource
        (String.ofList (before ++ (text ++ Piece.render (v.flatMap Piece.ofPlain)))) skipShebang =
        ⟨tokens.take n ++ vs, .ok eof⟩ := by
      show Tokens.ofPlace (Place.ofSource _ _) = _
      rw [String.toList_ofList, hbefore, hall.ofPlace_eq]
    refine ⟨_, eof, by rw [hsource], ?_, ?_⟩
    · rw [hsource]
      simp [Tokens.stream, List.take_append_of_le_length, hn]
    · rw [beq_self_eq_true, hletters] at hvletters
      obtain ⟨t, ht⟩ : ∃ t, (tokens.take n).getLast? = some t :=
        ⟨_, List.getLast?_eq_some_getLast hus⟩
      rw [ht] at hposition
      rw [hsource]
      show lettersFrom Position.start (tokens.take n ++ vs) =
        (lettersFrom Position.start tokens).take n ++ v
      rw [lettersFrom_append, lettersFrom_take, ht, ← hvletters, hposition]
      rfl

end LuaSource
