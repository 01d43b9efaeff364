import ClassAtlas.Number.Text

/-! # Signature errors

Positions count bytes of the encoded text, and an unexpected byte is shown as the character of that
value.
-/

namespace ClassAtlas

inductive SignatureError where
  | unexpectedEnd (input expected : String)
  | unexpected (input : String) (position : Nat) (found : Char) (expected : String)
  | trailingInput (input : String) (position : Nat)
  | unboundTypeVariable (name : String)
  /-- A method's type variable has no type outside a call. -/
  | callSiteResolution (name owner : String)
  deriving Repr, DecidableEq, Inhabited

namespace SignatureError

def message : SignatureError → String
  | .unexpectedEnd input expected =>
    "unexpected end of signature `" ++ input ++ "`, expected " ++ expected
  | .unexpected input position found expected =>
    "unexpected `" ++ String.ofList [found] ++ "` at " ++ naturalText position ++
      " in signature `" ++ input ++ "`, expected " ++ expected
  | .trailingInput input position =>
    "trailing input at " ++ naturalText position ++ " in signature `" ++ input ++ "`"
  | .unboundTypeVariable name => "type variable `" ++ name ++ "` is not declared in scope"
  | .callSiteResolution name owner =>
    "type variable `" ++ name ++ "` of " ++ owner ++ " can only be resolved at a call site"

end SignatureError

end ClassAtlas
