-- SUMMARY: Trees as source texts.
import LuaSource.Format.Parentheses
import LuaSource.Lexeme.Quoted
import LuaSource.Numeral
import LuaSource.Token

/-!
# Formatting

A tree is given the parentheses that its operands need and laid out. The text is that of
a source with this tree.

One statement stands on a line, and a block is indented by two spaces more than the
statement that it belongs to. A text is made of pieces: the symbols, names and literals of
the tree, and the blanks between them. Each function lays its node out before the pieces `k` that
come behind it, so that no list is ever copied; `depth` counts the blocks around the line.
Parentheses are written where the tree has them and nowhere else.
-/

namespace LuaSource

-- ---------------------------------------------------------------------------
-- Pieces of text
-- ---------------------------------------------------------------------------

inductive Piece
  | symbol (s : Symbol)
  | name (text : String)
  | number (value : Double)
  | quoted (value : String)
  | space
  | newline
  /-- The start of a line inside a number of blocks. -/
  | indent (depth : Nat)

namespace Piece

def text : Piece → List Char
  | symbol s => s.spelling.toList
  | name text => text.toList
  | number value => Numeral.write value
  | quoted value => Quoted.encode value.toList
  | space => [' ']
  | newline => ['\n']
  | indent depth => List.replicate (2 * depth) ' '

def render (ps : List Piece) : List Char := ps.flatMap text

@[simp] theorem render_nil : render [] = [] := rfl

@[simp] theorem render_cons (p : Piece) (ps : List Piece) :
    render (p :: ps) = p.text ++ render ps := rfl

@[simp] theorem render_append (ps qs : List Piece) :
    render (ps ++ qs) = render ps ++ render qs :=
  List.flatMap_append

/-- Whether the text of pieces starts with a minus sign. -/
def startsWithMinus : List Piece → Bool
  | [] => false
  | p :: ps =>
    match p.text with
    | [] => startsWithMinus ps
    | c :: _ => c == '-'

theorem startsWithMinus_iff (ps : List Piece) :
    startsWithMinus ps = true ↔ (render ps).head? = some '-' := by
  induction ps with
  | nil => simp [startsWithMinus]
  | cons p ps ih =>
    cases h : p.text with
    | nil => simp [startsWithMinus, h, ih]
    | cons c cs => simp [startsWithMinus, h]

end Piece


-- ---------------------------------------------------------------------------
-- Layout of lists and names
-- ---------------------------------------------------------------------------

namespace Layout

def comma (k : List Piece) : List Piece := .symbol .comma :: .space :: k

/-- A symbol with a space on either side. -/
def spaced (s : Symbol) (k : List Piece) : List Piece := .space :: .symbol s :: .space :: k

def word (s : Symbol) (k : List Piece) : List Piece := .symbol s :: .space :: k

/-- Names behind a first one. -/
def moreNames : List Name → List Piece → List Piece
  | [], k => k
  | n :: ns, k => comma (.name n.text :: moreNames ns k)

def names : List Name → List Piece → List Piece
  | [], k => k
  | n :: ns, k => .name n.text :: moreNames ns k

def parameters (ns : List Name) (hasVarargs : Bool) (k : List Piece) : List Piece :=
  names ns
    (if hasVarargs then
      if ns.isEmpty then .symbol .ellipsis :: k else comma (.symbol .ellipsis :: k)
    else k)

/-- The names of a path behind the first. A method has a colon before the last one. -/
def morePath (isMethod : Bool) : List Name → List Piece → List Piece
  | [], k => k
  | n :: ns, k =>
    .symbol (if isMethod && ns.isEmpty then .colon else .dot) ::
      .name n.text :: morePath isMethod ns k

def functionName (f : FunctionName) (k : List Piece) : List Piece :=
  match f.path with
  | [] => k
  | n :: ns => .name n.text :: morePath f.isMethod ns k

/-- A unary operator before an operand that is laid out already. `not` is a word, and a second
minus sign right behind the first would begin a comment. -/
def unaryOperator (op : UnaryOperator) (operand : List Piece) : List Piece :=
  match op with
  | .not => word .kwNot operand
  | .length => .symbol .hash :: operand
  | .negate =>
    .symbol .minus :: (if Piece.startsWithMinus operand then .space :: operand else operand)

/-- The end of a construct whose block is closed by `end`. -/
def closing (depth : Nat) (k : List Piece) : List Piece := .indent depth :: .symbol .kwEnd :: k


-- ---------------------------------------------------------------------------
-- Layout of nodes
-- ---------------------------------------------------------------------------

mutual

def block (depth : Nat) : Block → List Piece → List Piece
  | ⟨ss, _⟩, k => statements depth true ss k

/-- Statements on lines of their own. A line behind another one must not start with a
parenthesis, and gets a semicolon before it. -/
def statements (depth : Nat) (first : Bool) : List Statement → List Piece → List Piece
  | [], k => k
  | s :: ss, k =>
    let line := statement depth s (.newline :: statements depth false ss k)
    .indent depth ::
      (if !first && s.startsWithParen then .symbol .semicolon :: line else line)

def statement (depth : Nat) : Statement → List Piece → List Piece
  | .assign vs values _, k =>
    targets depth vs (spaced .assign (expressions depth values k))
  | .localAssign ns values _, k =>
    word .kwLocal
      (names ns
        (match values with
        | [] => k
        | e :: es => spaced .assign (expression depth e (moreExpressions depth es k))))
  | .call c, k => call depth c k
  | .doBlock b _, k =>
    .symbol .kwDo :: .newline :: block (depth + 1) b (closing depth k)
  | .whileLoop condition b _, k =>
    word .kwWhile
      (expression depth condition
        (.space :: .symbol .kwDo :: .newline :: block (depth + 1) b (closing depth k)))
  | .repeatLoop b condition _, k =>
    .symbol .kwRepeat :: .newline ::
      block (depth + 1) b (.indent depth :: word .kwUntil (expression depth condition k))
  | .conditional clauses otherwise _, k =>
    conditional depth .kwIf clauses
      (match otherwise with
      | none => .symbol .kwEnd :: k
      | some b => .symbol .kwElse :: .newline :: block (depth + 1) b (closing depth k))
  | .numericFor counter start limit step b _, k =>
    let body := .space :: .symbol .kwDo :: .newline :: block (depth + 1) b (closing depth k)
    word .kwFor
      (.name counter.text ::
        spaced .assign
          (expression depth start
            (comma
              (expression depth limit
                (match step with
                | none => body
                | some e => comma (expression depth e body))))))
  | .genericFor ns values b _, k =>
    word .kwFor
      (names ns
        (spaced .kwIn
          (expressions depth values
            (.space :: .symbol .kwDo :: .newline :: block (depth + 1) b (closing depth k)))))
  | .function name body _, k =>
    word .kwFunction (functionName name (functionBody depth body k))
  | .localFunction name body _, k =>
    word .kwLocal (word .kwFunction (.name name.text :: functionBody depth body k))
  | .label name _, k =>
    .symbol .doubleColon :: .name name.text :: .symbol .doubleColon :: k
  | .jump label _, k => word .kwGoto (.name label.text :: k)
  | .returnValues values _, k =>
    .symbol .kwReturn ::
      (match values with
      | [] => k
      | e :: es => .space :: expression depth e (moreExpressions depth es k))
  | .breakLoop _, k => .symbol .kwBreak :: k

/-- Clauses from one that begins with a given keyword on, up to what comes at the depth of the
keywords. -/
def conditional (depth : Nat) (keyword : Symbol) : List Clause → List Piece → List Piece
  | [], k => k
  | ⟨condition, b, _⟩ :: clauses, k =>
    word keyword
      (expression depth condition
        (.space :: .symbol .kwThen :: .newline ::
          block (depth + 1) b (.indent depth :: conditional depth .kwElseif clauses k)))

/-- A function from its parameters on. -/
def functionBody (depth : Nat) : FunctionBody → List Piece → List Piece
  | ⟨ns, hasVarargs, b, _⟩, k =>
    .symbol .leftParen ::
      parameters ns hasVarargs
        (.symbol .rightParen :: .newline :: block (depth + 1) b (closing depth k))

def expression (depth : Nat) : Expression → List Piece → List Piece
  | .nil _, k => .symbol .kwNil :: k
  | .boolean value _, k => .symbol (if value then .kwTrue else .kwFalse) :: k
  | .number value _, k => .number value :: k
  | .string value _, k => .quoted value :: k
  | .varargs _, k => .symbol .ellipsis :: k
  | .function body _, k => .symbol .kwFunction :: functionBody depth body k
  | .primary p, k => primary depth p k
  | .table t, k => table depth t k
  | .binary op left right _, k =>
    expression depth left (spaced op.symbol (expression depth right k))
  | .unary op operand _, k => unaryOperator op (expression depth operand k)

/-- Expressions behind a first one. -/
def moreExpressions (depth : Nat) : List Expression → List Piece → List Piece
  | [], k => k
  | e :: es, k => comma (expression depth e (moreExpressions depth es k))

def expressions (depth : Nat) : List Expression → List Piece → List Piece
  | [], k => k
  | e :: es, k => expression depth e (moreExpressions depth es k)

def primary (depth : Nat) : Primary → List Piece → List Piece
  | .var v, k => target depth v k
  | .call c, k => call depth c k
  | .parenthesized e _, k =>
    .symbol .leftParen :: expression depth e (.symbol .rightParen :: k)

def target (depth : Nat) : Variable → List Piece → List Piece
  | .name n, k => .name n.text :: k
  | .index base key _, k =>
    primary depth base
      (.symbol .leftBracket :: expression depth key (.symbol .rightBracket :: k))
  | .member base name _, k => primary depth base (.symbol .dot :: .name name.text :: k)

/-- Targets behind a first one. -/
def moreTargets (depth : Nat) : List Variable → List Piece → List Piece
  | [], k => k
  | v :: vs, k => comma (target depth v (moreTargets depth vs k))

def targets (depth : Nat) : List Variable → List Piece → List Piece
  | [], k => k
  | v :: vs, k => target depth v (moreTargets depth vs k)

def call (depth : Nat) : Call → List Piece → List Piece
  | .function callee args _, k => primary depth callee (arguments depth args k)
  | .method receiver name args _, k =>
    primary depth receiver (.symbol .colon :: .name name.text :: arguments depth args k)

def arguments (depth : Nat) : Arguments → List Piece → List Piece
  | .list values _, k =>
    .symbol .leftParen :: expressions depth values (.symbol .rightParen :: k)
  | .table t, k => table depth t k
  | .string value _, k => .quoted value :: k

def table (depth : Nat) : Table → List Piece → List Piece
  | ⟨fields, _⟩, k =>
    .symbol .leftBrace ::
      (match fields with
      | [] => .symbol .rightBrace :: k
      | f :: fs =>
        .space :: field depth f (moreFields depth fs (.space :: .symbol .rightBrace :: k)))

def field (depth : Nat) : Field → List Piece → List Piece
  | .keyed key value _, k =>
    .symbol .leftBracket ::
      expression depth key
        (.symbol .rightBracket :: spaced .assign (expression depth value k))
  | .named name value _, k => .name name.text :: spaced .assign (expression depth value k)
  | .positional value, k => expression depth value k

/-- Fields behind a first one. -/
def moreFields (depth : Nat) : List Field → List Piece → List Piece
  | [], k => k
  | f :: fs, k => comma (field depth f (moreFields depth fs k))

end

end Layout


-- ---------------------------------------------------------------------------
-- Texts
-- ---------------------------------------------------------------------------

/-- The text of a tree, which ends with a newline unless it is empty. -/
def format (b : Block) : String :=
  String.ofList (Piece.render (Layout.block 0 (Parens.block b) []))

end LuaSource
