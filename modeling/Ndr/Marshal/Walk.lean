import Ndr.Marshal.Context
import Ndr.Marshal.Pipe
import Ndr.Marshal.Pointer
import Ndr.Marshal.Struct
import Ndr.Marshal.Union

/-!
Writing a value under any descriptor.
-/

namespace Ndr.Marshal

variable (env : Env)

/-- Write what a routine makes of a value, and release that. -/
def putConverted (walk : Walk) (index wire : Nat) (v : Value) (site : Site Scope) :
    Marshalling Unit := do
  let routine ← env.interface.routine index
  let d ← env.vector.stream wire
  let limit := env.config.maxConversions
  if limit ≤ site.conversions then throw (.conversionsTooDeep limit)
  match routine.toWire (← get).calls v with
  | .error e =>
    recordCall (.toWire index v false)
    throw e
  | .ok w =>
    recordCall (.toWire index v true)
    try walk d w { site with conversions := site.conversions + 1 }
    finally recordCall (.freeWire index w)

/-- Write the ids of the nodes that are reported as deleted. -/
def putDeleted : Marshalling Unit := do
  if 2 ^ 32 ≤ env.deleted.length then throw .integerOverflow
  putCount env env.deleted.length
  env.deleted.forM (putCount env)

/-- Write a value under a form; `walk` writes what is embedded in it. -/
def putForm (walk : Walk) (d : Descriptor) (v : Value) (site : Site Scope) : Marshalling Unit :=
  match d.form with
  | .scalar kind => put (Writer.putScalar env.representation kind v)
  | .struct kind _ definition => putStruct env walk kind definition v site
  | .nested align layout fields => putNested env walk align layout fields v site
  | .array kind _ dims definition =>
    putArray env walk d.modifiers kind dims definition v site none
  | .encapsulatedUnion _ definition => putUnion env walk definition none v site
  | .switchedUnion _ field definition => putUnion env walk definition (some field) v site
  | .pointer kind _ pointee => putPointer env walk kind pointee v site
  | .ignore => putCount env 0
  | .converted _ _ routine wire => putConverted env walk routine wire v site
  | .pipe _ element => putPipe env walk element v site
  | .context direction => putContext env direction v
  | .align boundary => put (Writer.align boundary.toNat)
  | .deletedNodes => putDeleted env
  | .void => return
  | .unhosted opcode => throw (.unsupportedOpcode (Opcode.unhosted opcode).toByte)

/-- Write a value under a descriptor; descriptors open one within another at most `room` deep. -/
def walk : Nat → Walk
  | 0, d, _, _ => throw (.nestingTooDeep env.config.maxNesting d.offset)
  | room + 1, d, v, site => do
    putForm env (walk room) d v site
    match d.modifiers.freeRep with
    | some routine => freeInstance env routine v
    | none => return

/-- Write the parameters of an operation, each with its pointees. -/
def putParameters (offset : Nat) (params : List Value) : Marshalling Unit := do
  let list ← env.vector.parameters offset
  let scope := (params.map (correlationOf env.heap)).toArray
  let walk := walk env env.config.maxNesting
  list.forM fun p => do
    match params[p.index]? with
    | none => throw (.parameterIndex p.index params.length)
    | some v =>
      walk p.descriptor v { scope, embedded := false }
      flush env walk

end Ndr.Marshal
