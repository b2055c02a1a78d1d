-- SUMMARY: No pair of parentheses that formatting adds can be left out.
import LuaSource.Proofs.Format.RoundTrip
import LuaSource.Proofs.Tree.Bared

/-!
# Needed parentheses

A tree that lacks one of the pairs that its operands need has no source at all, since operators
of the trees of sources need none. So its own text is read in another way, or not at all.
-/

namespace LuaSource

/-- The text of a tree with the parentheses that it has. -/
def Layout.text (b : Block) : String := String.ofList (Piece.render (Layout.block 0 b []))

theorem format_eq_text (b : Block) : format b = Layout.text (Parens.block b) := rfl

/-- A bared tree is not that of any source, up to spans. -/
theorem Bared.shape_ne_of_parse {t t' u : Block} (h : Bared.block t t') {source : String}
    {options : ParseOptions} (hparse : parse source options = .ok u) :
    Shape.block u ≠ Shape.block t' := by
  intro hshape
  have hgrammatical : Everywhere.block grammatical u :=
    Everywhere.mono_block sound_implies_grammatical u (parse_sound hparse).2.1
  refine Bared.block_ne t h ?_
  calc Shape.block (Parens.block t')
    _ = Parens.block (Shape.block u) := by rw [Parens.shape_block, hshape]
    _ = Shape.block u := by rw [← Parens.shape_block, Parens.block_eq_self u hgrammatical]
    _ = Shape.block t' := hshape

/-- The text of a tree whose operands have the parentheses that they need, but for one pair, is
not parsed to that tree. -/
theorem parse_text_of_bared {t t' u : Block} (h : Bared.block t t') {options : ParseOptions}
    (hparse : parse (Layout.text t') options = .ok u) : Shape.block u ≠ Shape.block t' :=
  Bared.shape_ne_of_parse h hparse

/-- The tree of `return x + x ^ x`, which is not the power of a sum. -/
def sumOfPower : Block :=
  ⟨[.returnValues
    [.binary .add (.primary (.var (.name ⟨"x", ⟨⟨1, 8, 7⟩, ⟨1, 9, 8⟩⟩⟩)))
      (.binary .power (.primary (.var (.name ⟨"x", ⟨⟨1, 12, 11⟩, ⟨1, 13, 12⟩⟩⟩)))
        (.primary (.var (.name ⟨"x", ⟨⟨1, 16, 15⟩, ⟨1, 17, 16⟩⟩⟩)))
        ⟨⟨1, 12, 11⟩, ⟨1, 17, 16⟩⟩)
      ⟨⟨1, 8, 7⟩, ⟨1, 17, 16⟩⟩] ⟨⟨1, 1, 0⟩, ⟨1, 17, 16⟩⟩], ⟨⟨1, 1, 0⟩, ⟨1, 17, 16⟩⟩⟩

theorem parse_text_of_bared_power :
    Layout.text (powerOfSum (.primary (.var (.name ⟨"x", default⟩)))) = "return x + x ^ x\n" ∧
      parse (Layout.text (powerOfSum (.primary (.var (.name ⟨"x", default⟩))))) = .ok sumOfPower ∧
      Bared.block (powerOfSum (.primary (.var (.name ⟨"x", default⟩))))
        (powerOfSum (.primary (.var (.name ⟨"x", default⟩)))) ∧
      Shape.block sumOfPower ≠
        Shape.block (powerOfSum (.primary (.var (.name ⟨"x", default⟩)))) := by
  have htext : Layout.text (powerOfSum (.primary (.var (.name ⟨"x", default⟩)))) =
      "return x + x ^ x\n" := by rfl
  have hparse : parse (Layout.text (powerOfSum (.primary (.var (.name ⟨"x", default⟩))))) =
      .ok sumOfPower := by
    rw [htext]
    rfl
  have hbared : Bared.block (powerOfSum (.primary (.var (.name ⟨"x", default⟩))))
      (powerOfSum (.primary (.var (.name ⟨"x", default⟩)))) :=
    ⟨_, .inl ⟨_, ⟨_, .inl ⟨_, .inl ⟨_, .inl ⟨rfl, rfl⟩, rfl⟩, rfl⟩, rfl⟩, rfl⟩, rfl⟩
  exact ⟨htext, hparse, hbared, parse_text_of_bared hbared hparse⟩

end LuaSource
