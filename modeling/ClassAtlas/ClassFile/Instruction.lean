import ClassAtlas.Literal

/-! # Instructions

The part of a method body that says what the method uses: calls, instantiations, field accesses,
loaded constants and handles captured by dynamic calls. Owners are internal names.
-/

namespace ClassAtlas

inductive InvokeKind where
  | virtual
  | static
  | special
  | interface
  deriving Repr, DecidableEq, Inhabited

inductive FieldAccess where
  | get
  | put
  | getStatic
  | putStatic
  deriving Repr, DecidableEq, Inhabited

/-- A method that a dynamic call captured. -/
structure MethodHandle where
  owner : String
  name : String
  desc : String
  deriving Repr, DecidableEq, Inhabited

inductive Instruction where
  | invoke (kind : InvokeKind) (owner name desc : String)
  /-- Instantiate the class with this internal name. -/
  | instantiate (typeName : String)
  | fieldAccess (access : FieldAccess) (owner name desc : String)
  | loadConstant (value : Literal)
  | invokeDynamic (name desc : String) (handles : List MethodHandle)
  deriving Repr, DecidableEq, Inhabited

namespace InvokeKind

def names : List (String × InvokeKind) :=
  [("virtual", .virtual), ("static", .static), ("special", .special), ("interface", .interface)]

def name : InvokeKind → String
  | .virtual => "virtual"
  | .static => "static"
  | .special => "special"
  | .interface => "interface"

end InvokeKind

namespace FieldAccess

def names : List (String × FieldAccess) :=
  [("get", .get), ("put", .put), ("get_static", .getStatic), ("put_static", .putStatic)]

def name : FieldAccess → String
  | .get => "get"
  | .put => "put"
  | .getStatic => "get_static"
  | .putStatic => "put_static"

end FieldAccess

namespace MethodHandle

def toJson (h : MethodHandle) : Json :=
  .object [("owner", .string h.owner), ("name", .string h.name), ("desc", .string h.desc)]

def ofJson? (v : Json) : Option MethodHandle := do
  let ms ← v.members? ["owner", "name", "desc"] 3
  let owner ← ms.required "owner" Json.string?
  let name ← ms.required "name" Json.string?
  let desc ← ms.required "desc" Json.string?
  return { owner, name, desc }

end MethodHandle

namespace Instruction

def toJson : Instruction → Json
  | .invoke kind owner name desc =>
    .object [("op", .string "invoke"), ("kind", .string kind.name), ("owner", .string owner),
      ("name", .string name), ("desc", .string desc)]
  | .instantiate typeName => .object [("op", .string "new"), ("type_name", .string typeName)]
  | .fieldAccess access owner name desc =>
    .object [("op", .string "field_access"), ("access", .string access.name),
      ("owner", .string owner), ("name", .string name), ("desc", .string desc)]
  | .loadConstant value => .object [("op", .string "ldc"), ("value", value.toJson)]
  | .invokeDynamic name desc handles =>
    .object [("op", .string "invoke_dynamic"), ("name", .string name), ("desc", .string desc),
      ("handles", .list MethodHandle.toJson handles)]

def operations : List String := ["invoke", "new", "field_access", "ldc", "invoke_dynamic"]

def ofJson? (v : Json) : Option Instruction := do
  let (op, rest) ← v.tagged? .plain "op" operations
  match op with
  | "invoke" => do
      let ms ← rest.members? ["kind", "owner", "name", "desc"] 4
      let kind ← ms.required "kind" (Json.choice? .setAside InvokeKind.names)
      let owner ← ms.required "owner" Json.string?
      let name ← ms.required "name" Json.string?
      let desc ← ms.required "desc" Json.string?
      return .invoke kind owner name desc
  | "new" => do
      let ms ← rest.members? ["type_name"] 1
      let typeName ← ms.required "type_name" Json.string?
      return .instantiate typeName
  | "field_access" => do
      let ms ← rest.members? ["access", "owner", "name", "desc"] 4
      let access ← ms.required "access" (Json.choice? .setAside FieldAccess.names)
      let owner ← ms.required "owner" Json.string?
      let name ← ms.required "name" Json.string?
      let desc ← ms.required "desc" Json.string?
      return .fieldAccess access owner name desc
  | "ldc" => do
      let ms ← rest.members? ["value"] 1
      let value ← ms.required "value" (Literal.decode .setAside)
      return .loadConstant value
  | "invoke_dynamic" => do
      let ms ← rest.members? ["name", "desc", "handles"] 2
      let name ← ms.required "name" Json.string?
      let desc ← ms.required "desc" Json.string?
      let handles ← ms.defaulted "handles" (Json.list? MethodHandle.ofJson?) []
      return .invokeDynamic name desc handles
  | _ => none

end Instruction

end ClassAtlas
