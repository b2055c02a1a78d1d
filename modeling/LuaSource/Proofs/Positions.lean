-- SUMMARY: All positions that are handed out for a source are the ones at their offsets.
import LuaSource.Proofs.Consumed
import LuaSource.Proofs.Nesting

/-!
# Positions of a source

Whatever is done with a cursor, it is at a true position. So are both ends of what a lexer answers
with, of the nodes of a tree and of the error that a parse fails with.
-/

namespace LuaSource

/-- The span of a node and those of its parts that no visitor comes to. -/
def Node.spans : Node → List Span
  | .statement s@(.conditional cs _ _) => s.span :: cs.map (·.span)
  | .statement s@(.function f _ _) => [s.span, f.span]
  | n => [n.span]

namespace Placing

/-! ## Spans along a word -/

/-- Wherever the words stand in the source, the spans have true ends. -/
def Shows (source : List Char) (L : Language Mark) (spans : List Span) : Prop :=
  ∀ u ∈ L, ∀ p q, Marches source p u q → ∀ span ∈ spans, span.TrueIn source

variable {source : List Char} {K L : Language Mark} {span : Span} {spans spans' : List Span}

namespace Shows

theorem of_le (hKL : K ≤ L) (h : Shows source L spans) : Shows source K spans :=
  fun u hu => h u (hKL hu)

theorem nothing (L : Language Mark) : Shows source L [] := fun _ _ _ _ _ => nofun

theorem zero : Shows source 0 spans := fun u hu => absurd hu (Language.notMem_zero u)

theorem of_fills (h : ∀ u ∈ L, Fills u span) : Shows source L [span] := by
  intro u hu p q hq
  obtain ⟨hstart, hspan⟩ := hq.leads_span (h u hu)
  exact List.forall_mem_singleton.2 ⟨hspan.before, hspan.behind⟩

theorem mul (hK : Shows source K spans) (hL : Shows source L spans') :
    Shows source (K * L) (spans ++ spans') := by
  intro u hu p q hq
  obtain ⟨x, hx, y, hy, rfl⟩ := Language.mem_mul.1 hu
  obtain ⟨r, hxr, hyq⟩ := marches_append.1 hq
  exact List.forall_mem_append.2 ⟨hK x hx p r hxr, hL y hy r q hyq⟩

theorem left (h : Shows source K spans) : Shows source (K * L) spans := by
  rw [← List.append_nil spans]
  exact h.mul (nothing L)

theorem right (h : Shows source L spans) : Shows source (K * L) spans := (nothing K).mul h

end Shows

/-- A clause starts with its keyword. -/
theorem shows_clause (s : Symbol) (c : Clause) :
    Shows source (behind s fun keyword => clause keyword.span c) [c.span] := by
  obtain ⟨e, b, span⟩ := c
  rintro _ ⟨keyword, v, -, hv, rfl⟩ p q ⟨-, hkeyword, -, -, hq⟩
  replace hv : v ∈ clause keyword.span ⟨e, b, span⟩ := hv
  rw [clause] at hv
  obtain ⟨x, -, y, ⟨c, w, -, ⟨rfl, hw⟩, rfl⟩, rfl⟩ := Language.mem_mul.1 hv
  obtain ⟨r, -, -, hc, -, -, hr⟩ := marches_append.1 hq
  obtain ⟨-, -, hb, -⟩ := lays_block c.next b w hw q hr
  refine List.forall_mem_singleton.2 ⟨hkeyword.before, ?_⟩
  rw [Span.stop_between]
  split
  · exact hc.behind
  · exact hb.behind

theorem shows_moreClauses (cs : List Clause) :
    Shows source (moreClauses cs) (cs.map (·.span)) := by
  induction cs with
  | nil => exact .nothing _
  | cons c cs ih =>
    rw [moreClauses]
    exact .mul (shows_clause .kwElseif c) ih

theorem shows_clauses (cs : List Clause) : Shows source (clauses cs) (cs.map (·.span)) := by
  cases cs with
  | nil =>
    rw [clauses]
    exact .zero
  | cons c cs =>
    rw [clauses]
    exact .mul (shows_clause .kwIf c) (shows_moreClauses cs)

theorem shows_functionName (f : FunctionName) : Shows source (functionName f) [f.span] :=
  .of_fills fun _ hu => hu.2

theorem Placed.trueIn {n : Node} (h : Placed source n) : ∀ span ∈ n.spans, span.TrueIn source := by
  have hspan : n.span.TrueIn source := ⟨h.row.leads.before, h.row.leads.behind⟩
  obtain ⟨p, u, q, hu, hq⟩ := h
  unfold Node.spans
  split
  case h_1 cs b span =>
    replace hu : u ∈ statement (.conditional cs b span) := hu
    rw [statement] at hu
    have hclauses := Shows.of_le (spanned_le _ _) (.left (.left (shows_clauses cs))) u hu p q hq
    exact List.forall_mem_cons.2 ⟨hspan, hclauses⟩
  case h_2 f body span =>
    replace hu : u ∈ statement (.function f body span) := hu
    rw [statement] at hu
    have hname := Shows.of_le (spanned_le _ _) (.left (.right (shows_functionName f))) u hu p q hq
    exact List.forall_mem_cons.2 ⟨hspan, hname⟩
  case h_3 => exact List.forall_mem_singleton.2 hspan

end Placing

/-! ## Positions that are handed out -/

section

variable {source : String} {options : ParseOptions} {b : Block} {e : ParseError}

theorem trueIn_of_parse (h : parse source options = .ok b) :
    ∀ n ∈ Nodes.block b, ∀ span ∈ n.spans, span.TrueIn source.toList :=
  fun n hn => (nodes_placed h n hn).trueIn

theorem trueIn_answer (source : String) (skipShebang : Bool) (n : Nat) :
    (spanOf ((Lexer.ofSource source skipShebang).answer n)).TrueIn source.toList :=
  (Lexer.at_ofSource source skipShebang).trueIn_answer (Place.reaches_ofSource _ skipShebang) n

theorem trueIn_tokenize (source : String) :
    match tokenize source with
    | .ok ts => ∀ t ∈ ts, t.span.TrueIn source.toList
    | .error e => e.span.TrueIn source.toList := by
  have hyields := Place.yields_ofPlace (Place.ofText source.toList)
  obtain ⟨hts, hending⟩ := hyields.trueIn (.refl _)
  rw [tokenize, Tokens.toList]
  cases heof : (Tokens.ofPlace (Place.ofText source.toList)).ending with
  | error e =>
    rw [heof] at hending
    exact hending
  | ok eof =>
    rw [heof] at hending
    exact List.forall_mem_append.2 ⟨hts, List.forall_mem_singleton.2 hending⟩

theorem trueIn_of_parse_error (h : parse source options = .error e) :
    e.span.TrueIn source.toList := by
  obtain ⟨n, -, ⟨cause, -, hanswer⟩ | ⟨t, hanswer, hspan, -⟩⟩ := answered_of_parse h
  · have htrue := trueIn_answer source options.skipShebang n
    rw [hanswer] at htrue
    exact htrue
  · have htrue := trueIn_answer source options.skipShebang n
    rw [hanswer] at htrue
    exact hspan ▸ htrue

/-- A cursor is at a true position of its source after any operations. What a lexer answers with
there, however often it is called, has true positions, and so have all tokens, the nodes of a tree
and the error of a parse. -/
theorem positions_true (source : String) :
    (∀ ops : List Cursor.Op,
      let s := ({ cursor := Cursor.ofText source.toList } : Cursor.Session).run ops
      s.cursor.place.In source.toList ∧ s.cursor.position.TrueIn source.toList) ∧
    (∀ skipShebang n,
      (spanOf ((Lexer.ofSource source skipShebang).answer n)).TrueIn source.toList) ∧
    (match tokenize source with
      | .ok ts => ∀ t ∈ ts, t.span.TrueIn source.toList
      | .error e => e.span.TrueIn source.toList) ∧
    ∀ options, match parse source options with
      | .ok b => ∀ n ∈ Nodes.block b, ∀ span ∈ n.spans, span.TrueIn source.toList
      | .error e => e.span.TrueIn source.toList := by
  refine ⟨fun ops => ?_, trueIn_answer source, trueIn_tokenize source, fun options => ?_⟩
  · exact ((Cursor.Session.of_ofText source.toList).run ops).place.trueIn
  · cases hparse : parse source options with
    | ok b => exact trueIn_of_parse hparse
    | error e => exact trueIn_of_parse_error hparse

end

end LuaSource
