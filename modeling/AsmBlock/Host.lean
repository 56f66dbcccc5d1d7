import AsmBlock.Input

/-!
# Parser hosts

A parser host owns its input as an array of code units, and hands one unit at a
time to the scan.  A unit is normally a Unicode scalar, but the host may hold
anything: negative units, surrogates, units beyond Unicode.  The host also says
where its input ends, which may be before its units do.  The main statement is
the instance of `Input`: a step before the end of the input leaves less of it.
-/

namespace AsmBlock

/-- The calls by which a scan changes a host. -/
inductive Host.Call where
  | advance (skip : Bool)
  /-- The end was marked while `symbol` was in the result slot. -/
  | markEnd (symbol : UInt16)
  deriving DecidableEq, Repr

structure Host where
  units : Array Int32
  /-- Where the host says the input ends. -/
  endAt : Nat
  endAt_le : endAt ≤ units.size
  pos : Nat
  tokenStart : Nat
  lookahead : Int32
  /-- The slot for the symbol of the recognized token. -/
  symbol : UInt16
  /-- The index of the end mark, if one was set. -/
  endMark : Option Nat
  calls : Array Host.Call

namespace Host

/-- The symbol in the result slot before any scan; it names no token. -/
def noSymbol : UInt16 := 65535

def unitAt (units : Array Int32) (pos : Nat) : Int32 := units.getD pos 0

def unitsOfText (text : String) : Array Int32 :=
  (text.toList.map fun char => Int32.ofNat char.toNat).toArray

/-- A host at the unit with index `pos`, or at the end of fewer units.  The
input ends at `endAt?` if that is given and within the units. -/
def start (units : Array Int32) (pos : Nat) (endAt? : Option Nat) : Host where
  units
  endAt := min (endAt?.getD units.size) units.size
  endAt_le := Nat.min_le_right _ _
  pos := min pos units.size
  tokenStart := min pos units.size
  lookahead := unitAt units (min pos units.size)
  symbol := noSymbol
  endMark := none
  calls := #[]

/-- The character of a unit, NUL if the unit is no Unicode scalar. -/
def charOfUnit (unit : Int32) : Char := Char.ofNat unit.toNatClampNeg

def atEnd (host : Host) : Bool := host.endAt ≤ host.pos

/-- The index behind the current unit; behind the last unit there is none. -/
def nextPos (host : Host) : Nat := if host.pos < host.units.size then host.pos + 1 else host.pos

/-- Consumes a unit, if there is one left, and loads the next. -/
def advance (skip : Bool) (host : Host) : Host :=
  { host with
    pos := host.nextPos
    tokenStart := if skip then host.nextPos else host.tokenStart
    lookahead := unitAt host.units host.nextPos
    calls := host.calls.push (.advance skip) }

/-- Makes the current position the end of the token. -/
def markEnd (host : Host) : Host :=
  { host with
    endMark := some host.pos
    calls := host.calls.push (.markEnd host.symbol) }

/-- Moves to the unit with index `pos`, or to the end of fewer units. -/
def seek (host : Host) (pos : Nat) : Host :=
  { host with
    pos := min pos host.units.size
    lookahead := unitAt host.units (min pos host.units.size) }

/-- The token whose symbol is in the result slot. -/
def recognized (host : Host) : Except SymbolError Token.Kind :=
  Token.Kind.ofSymbol host.symbol

def remaining (host : Host) : Nat := host.endAt - host.pos

theorem remaining_advance {host : Host} (skip : Bool) (h : host.atEnd = false) :
    (host.advance skip).remaining + 1 = host.remaining := by
  have hend := host.endAt_le
  have hpos : host.pos < host.endAt := by simpa [atEnd] using h
  have hnext : host.nextPos = host.pos + 1 := if_pos (by omega)
  simp only [remaining, advance, hnext]
  omega

instance : Input Host where
  lookahead host := .ok (charOfUnit host.lookahead)
  atEnd host := .ok host.atEnd
  advance skip host := .ok (host.advance skip)
  markEnd := markEnd
  recognize kind host := { host with symbol := kind.symbol }
  remaining := remaining
  remaining_advance {host _ skip} hend hstep := by
    cases hstep
    have h := remaining_advance skip (Except.ok.inj hend)
    omega

end Host

end AsmBlock
