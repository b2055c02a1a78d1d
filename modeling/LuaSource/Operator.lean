-- SUMMARY: Unary and binary operators and how tightly they bind.
import LuaSource.Token

/-!
# Operators

A binary operator takes an operand to its left if its left power is above the limit
there, and offers its right power as the limit to its right. With equal powers an operator
groups to the left; `..` and `^`, whose left power is higher, group to the right.
-/

namespace LuaSource

inductive BinaryOperator
  | or | and
  | less | greater | lessEqual | greaterEqual | notEqual | equal
  | concat
  | add | subtract
  | multiply | divide | modulo
  | power
deriving DecidableEq

namespace BinaryOperator

/-- Every binary operator, the loosest first. -/
def all : List BinaryOperator := [
  or, and, less, greater, lessEqual, greaterEqual, notEqual, equal, concat, add, subtract,
  multiply, divide, modulo, power]

theorem mem_all (op : BinaryOperator) : op ∈ all := by
  cases op <;> decide

/-- The symbol that writes the operator. -/
def symbol : BinaryOperator → Symbol
  | or => .kwOr
  | and => .kwAnd
  | less => .less
  | greater => .greater
  | lessEqual => .lessEqual
  | greaterEqual => .greaterEqual
  | notEqual => .notEqual
  | equal => .equal
  | concat => .concat
  | add => .plus
  | subtract => .minus
  | multiply => .star
  | divide => .slash
  | modulo => .percent
  | power => .caret

def spelling (op : BinaryOperator) : String := op.symbol.spelling

def leftPower : BinaryOperator → Nat
  | or => 1
  | and => 2
  | less | greater | lessEqual | greaterEqual | notEqual | equal => 3
  | concat => 5
  | add | subtract => 6
  | multiply | divide | modulo => 7
  | power => 10

def rightPower : BinaryOperator → Nat
  | or => 1
  | and => 2
  | less | greater | lessEqual | greaterEqual | notEqual | equal => 3
  | concat => 4
  | add | subtract => 6
  | multiply | divide | modulo => 7
  | power => 9

/-- The operator that a symbol writes between two operands. -/
def ofSymbol? (s : Symbol) : Option BinaryOperator := all.find? (·.symbol == s)

theorem ofSymbol?_symbol (op : BinaryOperator) : ofSymbol? op.symbol = some op := by
  cases op <;> rfl

theorem symbol_of_ofSymbol? {s : Symbol} {op : BinaryOperator} (h : ofSymbol? s = some op) :
    op.symbol = s := by
  simpa using List.find?_some h

theorem rightPower_le_leftPower (op : BinaryOperator) : op.rightPower ≤ op.leftPower := by
  cases op <;> decide

theorem leftPower_pos (op : BinaryOperator) : 0 < op.leftPower := by
  cases op <;> decide

theorem symbol_ne_eof (op : BinaryOperator) : op.symbol ≠ .eof := by
  cases op <;> decide

theorem ne_eof_of_ofSymbol? {s : Symbol} {op : BinaryOperator} (h : ofSymbol? s = some op) :
    s ≠ .eof :=
  symbol_of_ofSymbol? h ▸ op.symbol_ne_eof

end BinaryOperator


-- ---------------------------------------------------------------------------
-- Unary operators
-- ---------------------------------------------------------------------------

inductive UnaryOperator
  | not | negate | length
deriving DecidableEq

namespace UnaryOperator

def all : List UnaryOperator := [not, negate, length]

theorem mem_all (op : UnaryOperator) : op ∈ all := by
  cases op <;> decide

/-- The symbol that writes the operator. -/
def symbol : UnaryOperator → Symbol
  | not => .kwNot
  | negate => .minus
  | length => .hash

def spelling (op : UnaryOperator) : String := op.symbol.spelling

/-- The limit that every unary operator offers to its operand: only `^` binds tighter. -/
def power : Nat := 8

/-- The operator that a symbol writes before an operand. -/
def ofSymbol? (s : Symbol) : Option UnaryOperator := all.find? (·.symbol == s)

theorem ofSymbol?_symbol (op : UnaryOperator) : ofSymbol? op.symbol = some op := by
  cases op <;> rfl

theorem symbol_of_ofSymbol? {s : Symbol} {op : UnaryOperator} (h : ofSymbol? s = some op) :
    op.symbol = s := by
  simpa using List.find?_some h

theorem symbol_ne_eof (op : UnaryOperator) : op.symbol ≠ .eof := by
  cases op <;> decide

theorem ne_eof_of_ofSymbol? {s : Symbol} {op : UnaryOperator} (h : ofSymbol? s = some op) :
    s ≠ .eof :=
  symbol_of_ofSymbol? h ▸ op.symbol_ne_eof

end UnaryOperator

end LuaSource
