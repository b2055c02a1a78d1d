-- SUMMARY: The text of a node, as its span tells it, is a source that is parsed to the node.
import LuaSource.Proofs.Accept
import LuaSource.Proofs.Format.Resumed
import LuaSource.Proofs.Grammar.PlacedNodes
import LuaSource.Proofs.Grammar.PlaceStatement
import LuaSource.Proofs.Grammar.Relaxed
import LuaSource.Proofs.Tree.Alone

/-!
# Texts of nodes

The span of a node tells which bytes of its source the node was read from. Statements, blocks and,
if they are returned, expressions can be cut out there: what is cut out is parsed on its own, to
the node that it was cut out for.
-/

namespace LuaSource

/-- The text from the start of a span to its end. -/
def Span.text (source : String) (span : Span) : String :=
  String.Pos.Raw.extract source ⟨span.start.offset⟩ ⟨span.stop.offset⟩

/-! ## Cutting out -/

theorem Span.text_eq {source : String} {before text behind : List Char} {span : Span}
    (h : source.toList = before ++ (text ++ behind))
    (hstart : span.start.offset = String.utf8Len before)
    (hstop : span.stop.offset = String.utf8Len before + String.utf8Len text) :
    span.text source = String.ofList text := by
  rw [Span.text, hstart, hstop, ← String.ofList_toList (s := source), h, ← List.append_assoc]
  exact String.extract_of_valid before text behind

/-- The text before the first token counts for offsets. -/
theorem Place.exists_before (cs : List Char) (skipShebang : Bool) :
    ∃ before, cs = before ++ (ofSource cs skipShebang).rest ∧
      (ofSource cs skipShebang).position.offset = String.utf8Len before := by
  obtain ⟨mark, hmark, hoffset⟩ : ∃ mark, cs = mark ++ (ofText cs).rest ∧
      (ofText cs).position.offset = String.utf8Len mark := by
    cases cs with
    | nil => exact ⟨[], rfl, rfl⟩
    | cons c cs =>
      rw [ofText]
      split
      · exact ⟨[c], rfl, (Nat.zero_add _).symm⟩
      · exact ⟨[], rfl, rfl⟩
  have hskip : ∀ n, ∃ before, cs = before ++ ((ofText cs).skip n).rest ∧
      ((ofText cs).skip n).position.offset = String.utf8Len before := by
    intro n
    refine ⟨mark ++ (ofText cs).rest.take n, ?_, ?_⟩
    · rw [skip_rest, List.append_assoc, List.take_append_drop, ← hmark]
    · rw [skip, Position.offset_after, hoffset, String.utf8Len_append]
  rw [ofSource]
  split
  · rw [Place.skipShebang]
    split
    · exact hskip _
    · exact ⟨mark, hmark, hoffset⟩
  · exact ⟨mark, hmark, hoffset⟩

/-- Behind a `return` and a space, a text has the same letters. -/
theorem HasLetters.returned {text : List Char} {u : List Letter} (h : HasLetters text u) :
    HasLetters ("return ".toList ++ text) (Letter.ofSymbol .kwReturn :: u) := by
  intro p
  let start := p.after "return".toList
  obtain ⟨ts, eof, hyields, hletters⟩ := h (start.next ' ' text)
  have hread : Place.readToken ⟨"return".toList ++ (' ' :: text), p⟩ =
      (.ok { symbol := .kwReturn, span := ⟨p, start⟩ }, ⟨' ' :: text, start⟩) := by
    refine @Place.readToken_ok [] "return".toList (' ' :: text) p _ (Trivia.read_of_ends ?_) ?_
    · intro c hc
      cases hc
      exact ⟨rfl, nofun⟩
    · refine @Lexeme.read_symbol .kwReturn rfl _ fun c hc => ?_
      cases hc
      rfl
  refine ⟨_, eof, .token hread nofun (hyields.blank (.inl rfl)), ?_⟩
  rw [lettersFrom, Token.letter, beq_self_eq_true, ← hletters]
  exact congrArg _ (lettersFrom_congr (p := start) (q := start.next ' ' text) rfl ts)

/-! ## Words of nodes -/

/-- Some tokens in a row have the letters of their marks. -/
theorem exists_lettersFrom {p last : Position} {ts : List Token} {x v y : List Mark}
    (h : marksFrom p last ts = x ++ (v ++ y)) :
    ts = x.map Mark.toToken ++ (v.map Mark.toToken ++ y.map Mark.toToken) ∧
      ∃ q, v.map Mark.toLetter = lettersFrom q (v.map Mark.toToken) := by
  have hts : ts = x.map Mark.toToken ++ (v.map Mark.toToken ++ y.map Mark.toToken) := by
    rw [← map_toToken_marksFrom p last ts, h, List.map_append, List.map_append]
  have hletters := map_toLetter_marksFrom p last ts
  rw [h, List.map_append, List.map_append, hts, lettersFrom_append, lettersFrom_append] at hletters
  obtain ⟨-, hrest⟩ := List.append_inj hletters (by simp)
  exact ⟨hts, _, (List.append_inj hrest (by simp)).1⟩

/-- The first of some tokens comes to stand on the line on which their text starts. -/
theorem loosens_lettersFrom (q : Position) (t : Token) (ts : List Token) :
    List.Forall₂ Letter.Loosens (lettersFrom q (t :: ts)) (lettersFrom t.span.start (t :: ts)) :=
  .cons ⟨rfl, fun _ => beq_self_eq_true _⟩ (List.forall₂_same.2 fun c _ => .refl c)

namespace Placing

theorem row_le_statements (ss : List Statement) : row ss ≤ statements none ss := by
  rcases List.eq_nil_or_concat ss with rfl | ⟨ss, s, rfl⟩
  · exact le_rfl
  · rw [List.concat_eq_append, row_concat, statements_concat, Option.or_none]
    exact le_mul_of_one_le_right' (one_le_marked (Spelling.one_le_trail s))

theorem relaxes_row (ss : List Statement) (span : Span) :
    Relaxes (row ss) (Spelling.block ⟨ss, span⟩) := by
  have hss : Relaxes (row ss) (Spelling.statements none ss) :=
    fun u hu => relaxes_statements none ss u (row_le_statements ss hu)
  rw [Spelling.block]
  exact hss.mono (le_mul_of_one_le_left' Spelling.one_le_semicolons)

end Placing

/-- A statement makes up a block. -/
theorem Spelling.statement_le_block (s : Statement) (span : Span) :
    statement s ≤ block ⟨[s], span⟩ := by
  have hseparation : separation none s = 1 := rfl
  rw [block, statements, statements, hseparation, one_mul, mul_one]
  exact (le_mul_of_one_le_right' (one_le_trail s)).trans
    (le_mul_of_one_le_left' one_le_semicolons)

theorem Spelling.return_mul_expression_le (e : Expression) (span : Span) :
    symbol .kwReturn * expression e ≤ statement (.returnValues [e] span) := by
  rw [statement, values, moreExpressions, mul_one]

section

variable {source : String} {options options' : ParseOptions} {t : Block}

/-- The tokens of a source stand where the spans of its tree say. -/
theorem placed_of_parse (h : parse source options = .ok t) :
    let w := (Tokens.ofSource source options.skipShebang).window
    w.marks ∈ Placing.block w.current.span.start t := by
  have hw := Tokens.proper_ofSource source options.skipShebang
  obtain ⟨w, hchunk⟩ := Tokens.exists_chunk (parse_eq_ok_iff.1 h)
  obtain ⟨-, -, -, hend⟩ := (chunk_meets hw).ok hchunk
  obtain ⟨u, hu, htakes⟩ := Placing.chunk_places hw t w hchunk
  have hnil : w.marks = [] := by
    rw [Window.marks, htakes.proper.ahead_eq_nil hend, marksFrom]
  have hmarks : (Tokens.ofSource source options.skipShebang).window.marks = u := by
    rw [htakes.marks, hnil, List.append_nil]
  rw [← hmarks] at hu
  exact hu

/-- The text of a node has the letters of its word. -/
theorem exists_excerpt {n : Node} {span : Span} (h : parse source options = .ok t)
    (hn : n ∈ Nodes.block t) (hfills : ∀ v ∈ Placing.node n, Fills v span) :
    ∃ v ∈ Placing.node n, ∃ text u, span.text source = String.ofList text ∧ HasLetters text u ∧
      List.Forall₂ Letter.Loosens (v.map Mark.toLetter) u ∧
      (headSymbol u ≠ .hash → text.head? ≠ some '\uFEFF' ∧ text.head? ≠ some '#') := by
  obtain ⟨x, v, y, hv, hmarks⟩ := Placing.contains_block _ t n hn _ (placed_of_parse h)
  obtain ⟨htokens, q, hletters⟩ := exists_lettersFrom hmarks
  obtain ⟨⟨c, hc, hstart⟩, d, hd, hstop⟩ := hfills v hv
  obtain ⟨w, rfl⟩ := List.head?_eq_some_iff.1 hc
  have hyields := Place.yields_ofPlace (Place.ofSource source.toList options.skipShebang)
  rw [show (Tokens.ofPlace (Place.ofSource _ _)).tokens = _ from htokens, List.map_cons] at hyields
  obtain ⟨before, text, behind, hrest, hbefore, hlast, hread, hhead⟩ := hyields.excerpt
  obtain ⟨first, hfirst, hoffset⟩ := Place.exists_before source.toList options.skipShebang
  rw [hoffset, ← String.utf8Len_append] at hbefore
  have hend := hlast d.toToken (by
    rw [← List.map_cons, List.getLast?_map, Option.mem_def.1 hd]
    rfl)
  have hsource : source.toList = first ++ before ++ (text ++ behind) := by
    rw [List.append_assoc, ← hrest]
    exact hfirst
  refine ⟨c :: w, hv, text, _, Span.text_eq hsource ?_ ?_, hread, ?_, hhead⟩
  · rw [← hstart]
    exact hbefore
  · rw [← hstop, ← hbefore]
    exact hend
  · rw [hletters]
    exact loosens_lettersFrom q c.toToken (w.map Mark.toToken)

/-! ## Parsing what is cut out -/

theorem alone_of_parse (h : parse source options = .ok t) {n : Node} (hn : n ∈ Nodes.block t) :
    n.Alone options.maxDepth := by
  obtain ⟨-, hsound, hneed⟩ := parse_sound h
  have ht := Everywhere.mono_block sound_implies_grammatical t hsound
  exact Nodes.alone_block t ht hneed n hn

theorem parse_of_hasLetters {text : List Char} {u : List Letter} {b : Block}
    (htext : HasLetters text u)
    (hhead : headSymbol u ≠ .hash → text.head? ≠ some '\uFEFF' ∧ text.head? ≠ some '#')
    (hu : u ∈ Spelling.block b) (hb : Node.Alone options.maxDepth (.block b)) :
    ∃ t', parse (String.ofList text) options = .ok t' ∧ Shape.block t' = Shape.block b := by
  have hhash : headSymbol u ≠ .hash := by
    intro hhash
    have hbegins := begins_block b u hu
    rw [hhash] at hbegins
    cases hbegins
  obtain ⟨hmark, hscript⟩ := hhead hhash
  obtain ⟨eof, hending, hletters⟩ := htext.ofSource hmark hscript options.skipShebang
  exact parse_complete hending (hletters ▸ hu) hb.1 hb.2

/-- Spans are faithful. The text of a statement or of a block that is not empty is parsed to it,
and so is the text of an expression if it is returned, no matter what stands around it in the source
that it is cut out of. The levels that there are for the source are enough. -/
theorem parse_text (h : parse source options = .ok t)
    (hdepth : options'.maxDepth = options.maxDepth) :
    (∀ s, .statement s ∈ Nodes.block t →
      ∃ t', parse (s.span.text source) options' = .ok t' ∧
        Shape.block t' = Shape.block ⟨[s], s.span⟩) ∧
    (∀ e, .expression e ∈ Nodes.block t →
      ∃ t', parse ("return " ++ e.span.text source) options' = .ok t' ∧
        Shape.block t' = Shape.block ⟨[.returnValues [e] e.span], e.span⟩) ∧
    ∀ b, .block b ∈ Nodes.block t → b.statements ≠ [] →
      ∃ t', parse (b.span.text source) options' = .ok t' ∧ Shape.block t' = Shape.block b := by
  have halone : ∀ n ∈ Nodes.block t, n.Alone options'.maxDepth :=
    fun n hn => hdepth ▸ alone_of_parse h hn
  refine ⟨fun s hs => ?_, fun e he => ?_, fun b hb hne => ?_⟩
  · obtain ⟨v, hv, text, u, htext, hletters, hu, hhead⟩ :=
      exists_excerpt h hs (Placing.fills_statement s)
    rw [htext]
    have hspells := Spelling.statement_le_block s s.span (Placing.relaxes_statement s v hv u hu)
    exact parse_of_hasLetters hletters hhead hspells ((halone _ hs).singleton s.span)
  · obtain ⟨v, hv, text, u, htext, hletters, hu, -⟩ :=
      exists_excerpt h he (Placing.fills_expression e)
    have hreturn : "return " ++ String.ofList text = String.ofList ("return ".toList ++ text) := by
      rw [String.ofList_append, String.ofList_toList]
    have hkeyword : [Letter.ofSymbol .kwReturn] ∈ Spelling.symbol .kwReturn := ⟨_, rfl, rfl⟩
    have hspells : Letter.ofSymbol .kwReturn :: u ∈
        Spelling.symbol .kwReturn * Spelling.expression e :=
      Language.append_mem_mul hkeyword (Placing.relaxes_expression e v hv u hu)
    rw [htext, hreturn]
    exact parse_of_hasLetters hletters.returned (fun _ => ⟨nofun, nofun⟩)
      (Spelling.statement_le_block _ _ (Spelling.return_mul_expression_le e _ hspells))
      (((halone _ he).returned e.span).singleton e.span)
  · obtain ⟨ss, span⟩ := b
    have hnode : Placing.node (.block ⟨ss, span⟩) = Placing.spanned span (Placing.row ss) := by
      rw [Placing.node, List.isEmpty_eq_false_iff.2 hne, if_neg Bool.false_ne_true]
    obtain ⟨v, hv, text, u, htext, hletters, hu, hhead⟩ :=
      exists_excerpt h hb fun v hv => (hnode ▸ hv : v ∈ Placing.spanned _ _).2
    rw [hnode] at hv
    rw [htext]
    exact parse_of_hasLetters hletters hhead (Placing.relaxes_row ss span v hv.1 u hu)
      (halone _ hb)

end

/-- The tree of the source `; return -y;`. -/
def treeOfReturn : Block :=
  ⟨[.returnValues [.unary .negate (.primary (.var (.name ⟨"y", ⟨⟨1, 11, 10⟩, ⟨1, 12, 11⟩⟩⟩)))
    ⟨⟨1, 10, 9⟩, ⟨1, 12, 11⟩⟩] ⟨⟨1, 3, 2⟩, ⟨1, 12, 11⟩⟩], ⟨⟨1, 3, 2⟩, ⟨1, 12, 11⟩⟩⟩

theorem parse_text_return :
    parse "; return -y;" { maxDepth := 3 } = .ok treeOfReturn ∧
      ∃ e, .expression e ∈ Nodes.block treeOfReturn ∧ e.span.text "; return -y;" = "-y" ∧
        ∃ t', parse ("return " ++ e.span.text "; return -y;") { maxDepth := 3 } = .ok t' ∧
          Shape.block t' = Shape.block ⟨[.returnValues [e] e.span], e.span⟩ := by
  have hparse : parse "; return -y;" { maxDepth := 3 } = .ok treeOfReturn := by rfl
  have hmem : .expression (.unary .negate
      (.primary (.var (.name ⟨"y", ⟨⟨1, 11, 10⟩, ⟨1, 12, 11⟩⟩⟩))) ⟨⟨1, 10, 9⟩, ⟨1, 12, 11⟩⟩) ∈
      Nodes.block treeOfReturn := .tail _ (.tail _ (.head _))
  have htext : Span.text "; return -y;" ⟨⟨1, 10, 9⟩, ⟨1, 12, 11⟩⟩ = "-y" := by decide +kernel
  exact ⟨hparse, _, hmem, htext, (@parse_text _ _ { maxDepth := 3 } _ hparse rfl).2.1 _ hmem⟩

end LuaSource
