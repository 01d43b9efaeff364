import ClassAtlas.Signature.Basic

/-! # Texts of signatures

The encoded form is the one that class files keep and the parser reads. The readable form is for
people: simple names, type arguments in angle brackets, array brackets at the end.
-/

namespace ClassAtlas

namespace Variance

def mark : Variance → List Char
  | .invariant => []
  | .covariant => ['+']
  | .contravariant => ['-']
  | .any => ['*']

def words : Variance → List Char
  | .invariant => []
  | .covariant => "? extends ".toList
  | .contravariant => "? super ".toList
  | .any => ['?']

end Variance

namespace TypeSignature

mutual
/-- The encoded form. A primitive type is written as its descriptor character, without arguments;
the mark of an argument that stands for any type is all there is to it. -/
def encodeChars : TypeSignature → List Char
  | ⟨_, .any, _, _⟩ => ['*']
  | ⟨.var v, variance, depth, _⟩ =>
    variance.mark ++ List.replicate depth.toNat '[' ++ 'T' :: v.name.toList ++ [';']
  | ⟨.named t, variance, depth, args⟩ =>
    variance.mark ++ List.replicate depth.toNat '[' ++
      match t.descriptorChar? with
      | some c => [c]
      | none => 'L' :: t.toInternal.toList ++ encodeArgs args ++ [';']
termination_by structural s => s
def encodeArgs : List TypeSignature → List Char
  | [] => []
  | s :: ss => '<' :: s.encodeChars ++ encodeRest ss
termination_by structural ss => ss
def encodeRest : List TypeSignature → List Char
  | [] => ['>']
  | s :: ss => s.encodeChars ++ encodeRest ss
termination_by structural ss => ss
end

def encode (s : TypeSignature) : String := String.ofList s.encodeChars

def headText (h : TypeHead) : List Char :=
  match h with
  | .named t => t.simpleName.toList
  | .var v => v.name.toList

mutual
def textChars : TypeSignature → List Char
  | ⟨_, .any, _, _⟩ => ['?']
  | ⟨h, variance, depth, args⟩ =>
    variance.words ++ headText h ++ textArgs args ++ TypeName.brackets depth.toNat
termination_by structural s => s
def textArgs : List TypeSignature → List Char
  | [] => []
  | s :: ss => '<' :: s.textChars ++ textRest ss
termination_by structural ss => ss
def textRest : List TypeSignature → List Char
  | [] => ['>']
  | s :: ss => ',' :: ' ' :: s.textChars ++ textRest ss
termination_by structural ss => ss
end

def text (s : TypeSignature) : String := String.ofList s.textChars

end TypeSignature

namespace FormalParameter

def encodeChars (p : FormalParameter) : List Char :=
  p.name.toList ++ ':' :: (p.bound.map TypeSignature.encodeChars).getD [] ++
    p.interfaceBounds.flatMap fun b => ':' :: b.encodeChars

def encodeList (ps : List FormalParameter) : List Char :=
  if ps.isEmpty then [] else '<' :: ps.flatMap encodeChars ++ ['>']

end FormalParameter

namespace ClassSignature

def encodeChars (s : ClassSignature) : List Char :=
  FormalParameter.encodeList s.parameters ++ s.supertypes.flatMap TypeSignature.encodeChars

def encode (s : ClassSignature) : String := String.ofList s.encodeChars

end ClassSignature

namespace MethodSignature

def encodeChars (s : MethodSignature) : List Char :=
  FormalParameter.encodeList s.typeParameters ++
    '(' :: s.parameters.flatMap TypeSignature.encodeChars ++
    ')' :: s.returnType.encodeChars ++
    s.exceptions.flatMap fun e => '^' :: e.encodeChars

def encode (s : MethodSignature) : String := String.ofList s.encodeChars

end MethodSignature

end ClassAtlas
