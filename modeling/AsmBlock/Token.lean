import AsmBlock.Source

/-!
# Tokens

The kinds of token a scan can find, the numeric symbols a parser host knows
them by, and tokens as byte ranges of a source.  The main statement is that a
kind is read back from its own symbol and from no other.
-/

namespace AsmBlock

/-- The kinds of token, in the order in which the grammar declares them. -/
inductive Token.Kind where
  /-- The text between the braces of an `asm` block. -/
  | llvmIr
  deriving DecidableEq, Repr

namespace Token.Kind

/-- Every kind; a kind stands at the index that is its symbol. -/
def all : List Kind := [.llvmIr]

def count : Nat := all.length

/-- The number by which the parser host knows a kind. -/
def symbol : Kind → UInt16
  | .llvmIr => 0

/-- The name of the grammar rule. -/
def name : Kind → String
  | .llvmIr => "llvm_ir"

instance : ToString Kind := ⟨name⟩

end Token.Kind

inductive SymbolError where
  | unknown (symbol : UInt16)
  deriving DecidableEq, Repr

def SymbolError.message : SymbolError → String
  | .unknown symbol =>
    "unknown external symbol " ++ toString symbol.toNat ++ " (the grammar declares " ++
      toString Token.Kind.count ++ " external tokens)"

def Token.Kind.ofSymbol (symbol : UInt16) : Except SymbolError Kind :=
  match all.find? fun kind => kind.symbol == symbol with
  | some kind => .ok kind
  | none => .error (.unknown symbol)

theorem Token.Kind.ofSymbol_eq_ok_iff {symbol : UInt16} {kind : Kind} :
    ofSymbol symbol = .ok kind ↔ symbol = kind.symbol := by
  cases kind
  by_cases h : symbol = 0
  · simp [ofSymbol, all, Kind.symbol, h]
  · simp [ofSymbol, all, Kind.symbol, h, Ne.symm h]

@[simp] theorem Token.Kind.ofSymbol_symbol (kind : Kind) : ofSymbol kind.symbol = .ok kind :=
  ofSymbol_eq_ok_iff.mpr rfl

/-- A kind of token at a range of byte offsets.  The range is not tied to a
source: it may lie behind a text, and its ends may be out of order. -/
structure Token where
  kind : Token.Kind
  start : Nat
  /-- The offset behind the last byte. -/
  stop : Nat
  deriving DecidableEq, Repr

namespace Token

/-- The number of bytes; a range whose ends are out of order has none. -/
def length (token : Token) : Nat := token.stop - token.start

def isEmpty (token : Token) : Bool := token.length == 0

def text (token : Token) (source : Source) : String := source.slice token.start token.stop

/-- The offset behind the closing brace that ends the token.  The brace is one
byte wide and is not part of the token. -/
def closeEnd (token : Token) : Except Fault Nat := checkedAdd token.stop 1

end Token

end AsmBlock
