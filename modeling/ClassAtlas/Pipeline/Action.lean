import ClassAtlas.CallGraph
import ClassAtlas.Pipeline.Predicate
import ClassAtlas.Pipeline.PropertySpec
import ClassAtlas.Pipeline.ScopeKind

/-! # Actions

A pipeline is a tree of actions. Steps do the work and have no parts; combinators run other actions.
-/

namespace ClassAtlas

structure SynthesisTarget where
  type : TypeName
  methods : List String := []
  deriving Repr, DecidableEq, Inhabited

inductive Step where
  | identity
  | classes
  | elementsOf (type : EntityType)
  | methods (inherited : Bool)
  | fields (inherited : Bool)
  | parameters
  | annotations (type : Option TypeName)
  | signature
  | typeArguments
  /-- The classes of the declared types, made up if need be. -/
  | explodeType (create : Bool)
  /-- The nearest elements of a kind that the elements come from. -/
  | ascend (kind : ScopeKind)
  | filter (predicate : Predicate)
  | registerEntity (type : EntityType) (label : Option String) (properties : List PropertySpec)
  | updateEntity (type : EntityType) (label : Option String) (properties : List PropertySpec)
  | associate (parent : EntityType) (key : String) (child : EntityType)
  | synthesize (targets : List SynthesisTarget)
  | relate (kind : RelationKind) (source target : EntityType) (key : Option String) (backtrack : Bool)
  deriving Repr, BEq, Inhabited

inductive Action where
  | step (s : Step)
  /-- One after the other, each on what the one before gives. -/
  | chain (actions : List Action)
  /-- Both on the same scope; the results are united. -/
  | compose (first second : Action)
  /-- One action on the elements that pass a test, another on the rest; without another the rest
  stays. -/
  | fork (predicate : Predicate) (onMatch : Action) (otherwise : Option Action)
  /-- Run an action and keep the scope. -/
  | nested (body : Action)
  /-- Run an action on the nearest elements of a kind and keep the scope. -/
  | outerScope (kind : ScopeKind) (body : Action)
  deriving Repr, BEq, Inhabited

structure Pipeline where
  name : String
  action : Action
  deriving Repr, BEq, Inhabited

namespace Step

def describe : Step → String
  | .identity => "identity"
  | .classes => "classes"
  | .elementsOf type => "elements_of(" ++ type ++ ")"
  | .methods inherited => "methods(inherited=" ++ boolText inherited ++ ")"
  | .fields inherited => "fields(inherited=" ++ boolText inherited ++ ")"
  | .parameters => "parameters"
  | .annotations none => "annotations"
  | .annotations (some type) => "annotations(" ++ type.text ++ ")"
  | .signature => "signature"
  | .typeArguments => "type_arguments"
  | .explodeType _ => "explode_type"
  | .ascend kind => "ascend(" ++ kind.name ++ ")"
  | .filter _ => "filter"
  | .registerEntity type _ _ => "register_entity(" ++ type ++ ")"
  | .updateEntity type _ _ => "update_entity(" ++ type ++ ")"
  | .associate parent key child => "associate(" ++ parent ++ "[" ++ key ++ "] = " ++ child ++ ")"
  | .synthesize targets => "synthesize[" ++ naturalText targets.length ++ "]"
  | .relate kind source target _ _ => kind.name ++ "(" ++ source ++ " -> " ++ target ++ ")"

end Step

namespace Action

def describe : Action → String
  | .step s => s.describe
  | .chain actions => "chain[" ++ naturalText actions.length ++ "]"
  | .compose _ _ => "compose"
  | .fork _ _ _ => "fork"
  | .nested _ => "nested"
  | .outerScope kind _ => "outer_scope(" ++ kind.name ++ ")"

mutual
/-- The descriptions of the whole tree in order, each with its depth. -/
def outline : Action → (depth : Nat) → List (Nat × String)
  | .step s, depth => [(depth, s.describe)]
  | .chain actions, depth =>
    (depth, (Action.chain actions).describe) :: outlineAll actions (depth + 1)
  | .compose first second, depth =>
    (depth, (Action.compose first second).describe) :: first.outline (depth + 1) ++
      second.outline (depth + 1)
  | .fork predicate onMatch otherwise, depth =>
    (depth, (Action.fork predicate onMatch otherwise).describe) :: onMatch.outline (depth + 1) ++
      outlineOption otherwise (depth + 1)
  | .nested body, depth => (depth, (Action.nested body).describe) :: body.outline (depth + 1)
  | .outerScope kind body, depth =>
    (depth, (Action.outerScope kind body).describe) :: body.outline (depth + 1)
termination_by structural a => a
def outlineAll : List Action → (depth : Nat) → List (Nat × String)
  | [], _ => []
  | a :: rest, depth => a.outline depth ++ outlineAll rest depth
termination_by structural actions => actions
def outlineOption : Option Action → (depth : Nat) → List (Nat × String)
  | none, _ => []
  | some a, depth => a.outline depth
termination_by structural a => a
end

end Action

end ClassAtlas
