-- SUMMARY: Formatted trees are parsed again.
import LuaSource.Proofs.Accept
import LuaSource.Proofs.Format.Spans
import LuaSource.Proofs.Format.Spelled
import LuaSource.Proofs.Tree.Wraps

/-!
# Formatting and parsing

The text of a tree that has a source is the source of a tree of the same shape. If the tree is
only well formed, then so is the text of the tree in which operands have the parentheses that
they need. To format what was parsed gives the text once more.
-/

namespace LuaSource

/-- The layout of a tree spells the tree, and does not begin as a script does. -/
theorem spells_layout {t : Block} (h : Everywhere.block wellFormed t) :
    Piece.Spells true (Spelling.block t) (Layout.block 0 t []) ∧
      headSymbol (Piece.letters true (Layout.block 0 t [])) ≠ .hash := by
  have hnil : ∀ joined, Piece.Spells joined 1 [] := fun joined =>
    ⟨trivial, Language.nil_mem_one⟩
  have hspells : Piece.Spells true (Spelling.block t * 1) (Layout.block 0 t []) :=
    Layout.spells_block t h hnil
  rw [mul_one] at hspells
  refine ⟨hspells, fun hhash => ?_⟩
  have hbegins := begins_block t _ hspells.letters
  rw [hhash] at hbegins
  cases hbegins

/-- The tokens of a formatted tree are those of its layout. -/
theorem tokens_format {t : Block} (h : Everywhere.block (wellFormed.and grammatical) t)
    (skipShebang : Bool) :
    ∃ eof, Tokens.ofSource (format t) skipShebang =
      ⟨Piece.tokens Position.start (Layout.block 0 t []), .ok eof⟩ := by
  obtain ⟨hformed, hgrammatical⟩ := Everywhere.and_block.1 h
  obtain ⟨hspells, hhash⟩ := spells_layout hformed
  rw [format, Parens.block_eq_self t hgrammatical]
  exact Piece.ofSource_tokens hspells.legible hhash skipShebang

/-- What a formatted tree is read as: its letters spell the tree. -/
theorem letters_format {t : Block} (h : Everywhere.block (wellFormed.and grammatical) t)
    (skipShebang : Bool) :
    ∃ eof, (Tokens.ofSource (format t) skipShebang).ending = .ok eof ∧
      (Tokens.ofSource (format t) skipShebang).letters ∈ Spelling.block t := by
  obtain ⟨hspells, -⟩ := spells_layout (Everywhere.and_block.1 h).1
  obtain ⟨eof, heq⟩ := tokens_format h skipShebang
  rw [heq]
  refine ⟨eof, rfl, ?_⟩
  have hletters := Piece.lettersFrom_tokens (Layout.block 0 t []) (Nat.le_refl Position.start.line)
  rw [beq_self_eq_true] at hletters
  rw [Tokens.letters, hletters]
  exact hspells.letters

/-- A tree that is well formed and grammatical comes back from its text. -/
theorem parse_format {t : Block} (h : Everywhere.block (wellFormed.and grammatical) t)
    {options : ParseOptions} (hneed : Need.block t ≤ options.maxDepth) :
    ∃ t', parse (format t) options = .ok t' ∧ Shape.block t' = Shape.block t := by
  obtain ⟨eof, hending, hletters⟩ := letters_format h options.skipShebang
  exact parse_complete hending hletters (Everywhere.and_block.1 h).2 hneed

theorem wellFormed_of_sound {t : Block} (h : Everywhere.block sound t)
    (hnumbers : Everywhere.block numbersOnly t) :
    Everywhere.block (wellFormed.and grammatical) t := by
  have himplies : (sound.and numbersOnly).Implies (wellFormed.and grammatical) :=
    { statements _ h := ⟨h.1, h.1⟩
      statement _ h := ⟨h.1, trivial⟩
      expression _ h := ⟨⟨h.1.2, h.2⟩, h.1.1⟩
      name _ h := ⟨h.1, trivial⟩ }
  exact Everywhere.mono_block himplies t (Everywhere.and_block.2 ⟨h, hnumbers⟩)

/-- The text of a tree without NaN that was parsed is parsed to the same tree again, up to
spans. -/
theorem parse_format_of_parse {source : String} {options options' : ParseOptions} {t : Block}
    (h : parse source options = .ok t) (hnumbers : Everywhere.block numbersOnly t)
    (hdepth : options'.maxDepth = options.maxDepth) :
    ∃ t', parse (format t) options' = .ok t' ∧ Shape.block t' = Shape.block t ∧
      format t' = format t := by
  obtain ⟨-, hsound, hneed⟩ := parse_sound h
  have hformed := wellFormed_of_sound hsound hnumbers
  rw [← hdepth] at hneed
  obtain ⟨t', hparse, hshape⟩ := parse_format hformed hneed
  exact ⟨t', hparse, hshape, format_eq_of_shape_eq hshape⟩

/-- The tree of the source `x=-y^'a';;`. -/
def negatedPower : Block :=
  ⟨[.assign [.name ⟨"x", ⟨⟨1, 1, 0⟩, ⟨1, 2, 1⟩⟩⟩]
    [.unary .negate
      (.binary .power (.primary (.var (.name ⟨"y", ⟨⟨1, 4, 3⟩, ⟨1, 5, 4⟩⟩⟩)))
        (.string "a" ⟨⟨1, 6, 5⟩, ⟨1, 9, 8⟩⟩) ⟨⟨1, 4, 3⟩, ⟨1, 9, 8⟩⟩)
      ⟨⟨1, 3, 2⟩, ⟨1, 9, 8⟩⟩] ⟨⟨1, 1, 0⟩, ⟨1, 9, 8⟩⟩], ⟨⟨1, 1, 0⟩, ⟨1, 9, 8⟩⟩⟩

theorem parse_format_of_parse_power :
    parse "x=-y^'a';;" = .ok negatedPower ∧ Everywhere.block numbersOnly negatedPower ∧
      ∃ t', parse (format negatedPower) = .ok t' ∧
        Shape.block t' = Shape.block negatedPower ∧ format t' = format negatedPower := by
  have hparse : parse "x=-y^'a';;" = .ok negatedPower := by rfl
  have hnumbers : Everywhere.block numbersOnly negatedPower :=
    ⟨trivial, ⟨trivial, ⟨trivial, trivial⟩, ⟨trivial, ⟨trivial, ⟨trivial, trivial⟩,
      trivial, trivial⟩⟩, trivial⟩, trivial⟩
  exact ⟨hparse, hnumbers, parse_format_of_parse hparse hnumbers rfl⟩

/-- The text of a well-formed tree is parsed to that tree with some operands of operators in
parentheses, up to spans. -/
theorem parse_format_wraps {t : Block} (h : Everywhere.block wellFormed t) :
    ∃ depth, ∀ options : ParseOptions, depth ≤ options.maxDepth →
      ∃ t', parse (format t) options = .ok t' ∧
        Wraps.block (Shape.block t) (Shape.block t') ∧ format t' = format t := by
  refine ⟨Need.block (Parens.block t), fun options hdepth => ?_⟩
  have hformed := Parens.everywhere_block t h
  have hparens : Parens.block (Parens.block t) = Parens.block t :=
    Parens.block_eq_self _ (Everywhere.and_block.1 hformed).2
  have hformat : format (Parens.block t) = format t := by
    rw [format, hparens, format]
  obtain ⟨t', hparse, hshape⟩ := parse_format hformed hdepth
  rw [hformat] at hparse
  refine ⟨t', hparse, ?_, (format_eq_of_shape_eq hshape).trans hformat⟩
  rw [hshape, Parens.shape_block]
  exact Wraps.block_parens _

/-- A sum to the left of a power, where it needs parentheses. -/
def powerOfSum (e : Expression) : Block :=
  ⟨[.returnValues [.binary .power (.binary .add e e default) e default] default], default⟩

theorem parse_format_wraps_power :
    Everywhere.block wellFormed (powerOfSum (.primary (.var (.name ⟨"x", default⟩)))) ∧
      ∃ depth, ∀ options : ParseOptions, depth ≤ options.maxDepth →
        ∃ t', parse (format (powerOfSum (.primary (.var (.name ⟨"x", default⟩))))) options = .ok t' ∧
          Wraps.block (Shape.block (powerOfSum (.primary (.var (.name ⟨"x", default⟩)))))
            (Shape.block t') ∧
          format t' = format (powerOfSum (.primary (.var (.name ⟨"x", default⟩)))) := by
  have hx : Everywhere.expression wellFormed (.primary (.var (.name ⟨"x", default⟩))) :=
    ⟨⟨trivial, trivial⟩, isName_x⟩
  have hformed : Everywhere.block wellFormed (powerOfSum (.primary (.var (.name ⟨"x", default⟩)))) :=
    ⟨fun _ hs => absurd hs List.not_mem_nil, ⟨trivial, ⟨⟨trivial, trivial⟩,
      ⟨⟨trivial, trivial⟩, hx, hx⟩, hx⟩, trivial⟩, trivial⟩
  exact ⟨hformed, parse_format_wraps hformed⟩

end LuaSource
