import Ndr.Unmarshal.Context
import Ndr.Unmarshal.Pipe
import Ndr.Unmarshal.Pointer
import Ndr.Unmarshal.Struct
import Ndr.Unmarshal.Union

/-!
Reading a value under any descriptor, and the parameters of an operation.
-/

namespace Ndr

/-- The range of a scalar with these modifiers. The range from 0 to -1 stands for none. -/
def Scalar.range? (kind : Scalar) (m : Modifiers) : Option (Int × Int) :=
  match m.range with
  | none => none
  | some (lower, upper) =>
    let range := (kind.normalize lower, kind.normalize upper)
    if range = (0, -1) then none else some range

namespace Unmarshal

variable (env : Env)

/-! ### Values -/

/-- Compare a scalar with its range. -/
def checkRange (kind : Scalar) (m : Modifiers) (v : Value) : Except Fault Unit :=
  match v.toInt?, kind.range? m with
  | some n, some (lower, upper) =>
    if n < lower ∨ upper < n then .error (.outOfRange n lower upper) else .ok ()
  | _, _ => .ok ()

def getScalar (kind : Scalar) (m : Modifiers) : Unmarshalling Value := do
  let v ← fetch (Reader.getScalar env.representation kind)
  checkRange kind m v
  return v

/-- Read a value that travelled in place of a host's value, and release it. -/
def getConverted (walk : Walk) (index wire : Nat) (site : Site ScopeId) : Unmarshalling Value := do
  let routine ← env.interface.routine index
  let d ← env.vector.stream wire
  let limit := env.config.maxConversions
  if limit ≤ site.conversions then throw (.conversionsTooDeep limit)
  let w ← walk d { site with conversions := site.conversions + 1 }
  let result := routine.fromWire (← get).calls w
  recordCall (.fromWire index w (Routine.succeeded result))
  recordCall (.freeWire index w)
  result

/-- Read the id of a node that the peer deleted. -/
def getDeletedNode : Unmarshalling Value := do
  let id ← getCount env
  if (env.previous.cellOf? id).isNone then throw (.unknownNode id)
  modify fun s => { s with deleted := id :: s.deleted }
  return .ulong (UInt32.ofNat id)

/-- Read the ids of the nodes that the peer deleted. -/
def getDeleted : Unmarshalling Value := do
  let n ← getCount env
  checkCount env n
  return .array (← repeatM n (getDeletedNode env))

/-- Read a value under a form; `walk` reads what is embedded in it. -/
def getForm (walk : Walk) (d : Descriptor) (site : Site ScopeId) : Unmarshalling Value :=
  match d.form with
  | .scalar kind => getScalar env kind d.modifiers
  | .struct kind _ definition => getStruct env walk kind definition site
  | .nested align layout fields => getNested env walk align layout fields site
  | .array kind _ dims definition => getArray env walk d.modifiers kind dims definition site none
  | .encapsulatedUnion _ definition => getUnion env walk definition none site
  | .switchedUnion _ field definition => getUnion env walk definition (some field) site
  | .pointer kind _ pointee => getPointer env walk kind pointee site
  | .ignore => do
    let _ ← getCount env
    return .pointer none
  | .converted _ _ routine wire => getConverted env walk routine wire site
  | .pipe .. => throw (.pipeMisuse .outsideParameters)
  | .context direction => getContext env direction (.context none)
  | .align boundary => do
    fetch (Reader.align boundary.toNat)
    return .void
  | .deletedNodes => getDeleted env
  | .void => return .void
  | .unhosted opcode => throw (.unsupportedOpcode (Opcode.unhosted opcode).toByte)

/-- Read a value under a descriptor; descriptors open one within another at most `room` deep. -/
def walk : Nat → Walk
  | 0, d, _ => throw (.nestingTooDeep env.config.maxNesting d.offset)
  | room + 1, d, site => getForm env (walk room) d site

/-! ### Parameters -/

/-- Read a parameter in place of its current value. -/
def getParameter (d : Descriptor) (current : Value) (site : Site ScopeId) : Unmarshalling Value :=
  let walk := walk env env.config.maxNesting
  match d.form with
  | .pipe _ element => getPipe env walk element current site
  | .context direction => getContext env direction current
  | _ => walk d site

/-- The scope of the parameters: those that are read are not known yet. -/
def parameterScope (heap : Heap) (list : List Parameter) (params : List Value) : Scope :=
  list.foldl (fun scope p => scope.setIfInBounds p.index none)
    (params.map (correlationOf heap)).toArray

/-- Read the parameters of an operation, each with its pointees. -/
def getParameters (offset : Nat) (params : List Value) : Unmarshalling (List (Nat × Value)) := do
  let list ← env.vector.parameters offset
  let scope ← openScope (parameterScope (← get).heap list params)
  let site : Site ScopeId := { scope, embedded := false }
  let values ← list.mapM fun p => do
    match params[p.index]? with
    | none => throw (.parameterIndex p.index params.length)
    | some current =>
      let v ← getParameter env p.descriptor current site
      flush env (walk env env.config.maxNesting)
      setField scope p.index (correlationOf (← get).heap v)
      return (p.index, v)
  verifyLate scope
  return values

end Unmarshal

end Ndr
