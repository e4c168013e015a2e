import Luxir.Util.Encoding

/-!
The bytes of filter keys. A builder appends kinds, numbers, strings and terms; the finished key has
the schema generation, the scope, the core generation where the scope needs it and the time zone in
front. All that a builder appends tells where it ends.
-/

namespace Luxir.Search.FilterKeys
open Lib.PrefixCodes Util.Encoding List

/-- The kinds of queries that are modelled. -/
inductive QueryKind where
  | term | phrase | boolean | numericPredicate | prefixed | termRange | termInSet | exist | all
  | none
  deriving DecidableEq

def QueryKind.byte : QueryKind → UInt8
  | .term => 1
  | .phrase => 2
  | .boolean => 3
  | .numericPredicate => 8
  | .prefixed => 11
  | .termRange => 12
  | .termInSet => 13
  | .exist => 14
  | .all => 18
  | .none => 19

inductive FilterKeyScope where
  | segmentStable | coreStable | readerStable | requestStable | uncacheable
  deriving DecidableEq

def FilterKeyScope.byte : FilterKeyScope → UInt8
  | .segmentStable => 0
  | .coreStable => 1
  | .readerStable => 2
  | .requestStable => 3
  | .uncacheable => 4

def strongestFilterKeyScope (first second : FilterKeyScope) : FilterKeyScope :=
  if second.byte ≤ first.byte then first else second

inductive FilterKeyTag where
  | booleanMandatory | booleanOptional | booleanProhibited | booleanFilter
  deriving DecidableEq

def FilterKeyTag.byte : FilterKeyTag → UInt8
  | .booleanMandatory => 40
  | .booleanOptional => 41
  | .booleanProhibited => 42
  | .booleanFilter => 43

structure FilterKeyContext where
  schemaGen : UInt64
  coreGen : UInt64
  timeZone : Bytes

structure FilterKey where
  bytes : Bytes
  deriving DecidableEq

/-- The terms of an index are at most 255 bytes long. -/
abbrev Term := { bytes : Bytes // bytes.length ≤ 255 }

structure FilterKeyBuilder where
  bytes : Bytes

namespace FilterKeyBuilder
variable (out : FilterKeyBuilder)

def appendBytes (value : Bytes) : FilterKeyBuilder := ⟨out.bytes ++ value⟩

def appendByte (value : UInt8) : FilterKeyBuilder := out.appendBytes [value]

def appendKind (kind : QueryKind) : FilterKeyBuilder := out.appendByte kind.byte

def appendTag (tag : FilterKeyTag) : FilterKeyBuilder := out.appendByte tag.byte

def appendBool (value : Bool) : FilterKeyBuilder := out.appendByte (if value then 1 else 0)

def appendInt64 (value : Int64) : FilterKeyBuilder := out.appendBytes (writeZLong value)

def appendInt32 (value : Int32) : FilterKeyBuilder := out.appendInt64 value.toInt64

def appendUInt64 (value : UInt64) : FilterKeyBuilder := out.appendBytes (writeVLong value.toNat)

def appendSize (value : Nat) : FilterKeyBuilder := out.appendBytes (writeVLong value)

def appendString (value : Bytes) : FilterKeyBuilder :=
  (out.appendSize value.length).appendBytes value

def appendTerm (value : Term) : FilterKeyBuilder :=
  (out.appendByte (UInt8.ofNat value.val.length)).appendBytes value.val

def appendOptionalTerm (value : Option Term) : FilterKeyBuilder :=
  match value with
  | .none => out.appendBool false
  | .some term => (out.appendBool true).appendTerm term

def finishStructural (scope : FilterKeyScope) (ctx : FilterKeyContext) : FilterKey :=
  let envelope := (FilterKeyBuilder.mk []).appendUInt64 ctx.schemaGen
  let envelope := envelope.appendByte scope.byte
  let envelope := if scope = .coreStable then envelope.appendUInt64 ctx.coreGen else envelope
  let envelope := envelope.appendString ctx.timeZone
  ⟨(envelope.appendBytes out.bytes).bytes⟩

def finish (scope : FilterKeyScope) (ctx : FilterKeyContext) : Option FilterKey :=
  if scope = .uncacheable then .none else .some (out.finishStructural scope ctx)

end FilterKeyBuilder

theorem kind_delimited : Delimited fun kind : QueryKind => [kind.byte] := by
  apply delimited_single
  intro first second
  cases first <;> cases second <;> decide

def boolCode (value : Bool) : Bytes := [if value then 1 else 0]

theorem boolCode_delimited : Delimited boolCode := by
  apply delimited_single
  intro first second
  cases first <;> cases second <;> decide

def int32Code (value : Int32) : Bytes := writeZLong value.toInt64

theorem int32Code_delimited : Delimited int32Code :=
  writeZLong_delimited.comp fun first second same => by
    rw [← Int32.toInt32_toInt64 first, same, Int32.toInt32_toInt64]

def stringCode (value : Bytes) : Bytes := writeVLong value.length ++ value

theorem stringCode_delimited : Delimited stringCode := writeVLong_delimited.framed

def termCode (value : Term) : Bytes := UInt8.ofNat value.val.length :: value.val

theorem termCode_delimited : Delimited termCode := by
  intro first second rest other same
  have parts := cons.inj same
  have bytes := congrArg UInt8.toNat parts.1
  rw [UInt8.toNat_ofNat', UInt8.toNat_ofNat', Nat.mod_eq_of_lt (Nat.lt_succ_of_le first.property),
    Nat.mod_eq_of_lt (Nat.lt_succ_of_le second.property)] at bytes
  have halves := append_inj parts.2 bytes
  exact ⟨Subtype.ext halves.1, halves.2⟩

def optionalTermCode : Option Term → Bytes
  | .none => boolCode false
  | .some term => boolCode true ++ termCode term

theorem optionalTermCode_delimited : Delimited optionalTermCode := by
  intro first second rest other same
  cases first <;> cases second
  case none.none => exact ⟨rfl, (boolCode_delimited same).2⟩
  case none.some | some.none =>
    rw [optionalTermCode, optionalTermCode, append_assoc] at same
    cases (boolCode_delimited same).1
  · rw [optionalTermCode, optionalTermCode, append_assoc, append_assoc] at same
    have parts := termCode_delimited (boolCode_delimited same).2
    exact ⟨congrArg some parts.1, parts.2⟩

def listCode {α : Type} (code : α → Bytes) (values : List α) : Bytes :=
  writeVLong values.length ++ values.flatMap code

theorem listCode_delimited {α : Type} {code : α → Bytes} (delimited : Delimited code) :
    Delimited (listCode code) :=
  writeVLong_delimited.counted delimited

variable (out : FilterKeyBuilder)

@[simp] theorem bytes_appendBytes (value : Bytes) :
    (out.appendBytes value).bytes = out.bytes ++ value := rfl

@[simp] theorem bytes_appendByte (value : UInt8) :
    (out.appendByte value).bytes = out.bytes ++ [value] := rfl

@[simp] theorem bytes_appendKind (kind : QueryKind) :
    (out.appendKind kind).bytes = out.bytes ++ [kind.byte] := rfl

@[simp] theorem bytes_appendTag (tag : FilterKeyTag) :
    (out.appendTag tag).bytes = out.bytes ++ [tag.byte] := rfl

@[simp] theorem bytes_appendBool (value : Bool) :
    (out.appendBool value).bytes = out.bytes ++ boolCode value := rfl

@[simp] theorem bytes_appendInt64 (value : Int64) :
    (out.appendInt64 value).bytes = out.bytes ++ writeZLong value := rfl

@[simp] theorem bytes_appendInt32 (value : Int32) :
    (out.appendInt32 value).bytes = out.bytes ++ int32Code value := rfl

@[simp] theorem bytes_appendUInt64 (value : UInt64) :
    (out.appendUInt64 value).bytes = out.bytes ++ writeVLong value.toNat := rfl

@[simp] theorem bytes_appendSize (value : Nat) :
    (out.appendSize value).bytes = out.bytes ++ writeVLong value := rfl

@[simp] theorem bytes_appendString (value : Bytes) :
    (out.appendString value).bytes = out.bytes ++ stringCode value :=
  append_assoc _ _ _

@[simp] theorem bytes_appendTerm (value : Term) :
    (out.appendTerm value).bytes = out.bytes ++ termCode value :=
  append_assoc _ _ _

@[simp] theorem bytes_appendOptionalTerm (value : Option Term) :
    (out.appendOptionalTerm value).bytes = out.bytes ++ optionalTermCode value := by
  cases value with
  | none => rfl
  | some =>
    rw [FilterKeyBuilder.appendOptionalTerm, bytes_appendTerm, bytes_appendBool, optionalTermCode,
      append_assoc]

theorem bytes_foldl {α : Type} {append : FilterKeyBuilder → α → FilterKeyBuilder}
    {code : α → Bytes}
    (appends : ∀ out value, (append out value).bytes = out.bytes ++ code value) (values : List α) :
    (values.foldl append out).bytes = out.bytes ++ values.flatMap code := by
  induction values generalizing out with
  | nil => exact (append_nil _).symm
  | cons value rest ih =>
    rw [foldl_cons, ih, appends, flatMap_cons, append_assoc]

end Luxir.Search.FilterKeys
