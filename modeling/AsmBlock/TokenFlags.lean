import AsmBlock.Token

/-!
# Token flags

Before a scan the parser host says, with one flag for each kind, which tokens
it can accept.  A kind without a flag is not accepted, so a short list of flags
never asks for a token by accident.
-/

namespace AsmBlock

/-- One flag for each kind of token, at the index that is the kind's symbol. -/
structure TokenFlags where
  flags : List Bool
  deriving DecidableEq, Repr

namespace TokenFlags

/-- Whether the host accepts a kind of token. -/
def contains (valid : TokenFlags) (kind : Token.Kind) : Bool :=
  valid.flags.getD kind.symbol.toNat false

def toList (valid : TokenFlags) : List Token.Kind := Token.Kind.all.filter valid.contains

/-- The flags up to the number of kinds: all that a host can pass by address. -/
def declared (valid : TokenFlags) : TokenFlags := ⟨valid.flags.take Token.Kind.count⟩

/-- The text of a block is accepted by the first flag, or not at all. -/
theorem contains_eq_false_or (valid : TokenFlags) :
    valid.contains .llvmIr = false ∨ ∃ flags, valid = ⟨true :: flags⟩ := by
  rcases valid with ⟨_ | ⟨_ | _, flags⟩⟩
  · exact .inl rfl
  · exact .inl rfl
  · exact .inr ⟨flags, rfl⟩

/-- Flags beyond those declared are never looked at. -/
@[simp] theorem contains_declared (valid : TokenFlags) (kind : Token.Kind) :
    valid.declared.contains kind = valid.contains kind := by
  cases kind
  rcases valid with ⟨_ | ⟨flag, flags⟩⟩ <;> rfl

end TokenFlags

end AsmBlock
