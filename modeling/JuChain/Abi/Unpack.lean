import JuChain.Core.Types
import JuChain.Lib.BigEndian
import JuChain.Lib.Slices

/-!
# Decoding

`vm/solc/abi/unpack.go` and `Arguments.UnpackValues`.  Integers wrap around (`wrap`), and a slice
expression may reach past the length of its operand, up to the capacity (`Decode.strayed`).
-/

namespace JuChain.Abi

open BigEndian

/-! ## Types and values -/

/-- The types of `type.go`. -/
inductive Ty where
  | int (size : ℕ)
  | uint (size : ℕ)
  | bool
  | address
  | string
  | bytes
  | fixedBytes (size : ℕ)
  | function
  | slice (elem : Ty)
  | array (size : ℕ) (elem : Ty)
  deriving DecidableEq

namespace Ty

/-- The size of a Go value in bytes; other sizes of numbers are pointers to big integers. -/
def width : Ty → ℕ
  | int size | uint size => if size = 8 then 1 else if size = 16 then 2 else if size = 32 then 4 else 8
  | bool => 1
  | address => 20
  | string => 16
  | bytes => 24
  | fixedBytes size => size
  | function => 24
  | slice _ => 24
  | array size elem => size * elem.width

end Ty

/-- `reflect.Kind`. -/
inductive Kind where
  | bool | int8 | int16 | int32 | int64 | uint8 | uint16 | uint32 | uint64 | ptr | string | slice
  | array
  deriving DecidableEq

/-- `reflectIntKindAndType`. -/
def reflectIntKind (unsigned : Bool) (size : ℕ) : Kind :=
  if size = 8 then if unsigned then .uint8 else .int8
  else if size = 16 then if unsigned then .uint16 else .int16
  else if size = 32 then if unsigned then .uint32 else .int32
  else if size = 64 then if unsigned then .uint64 else .int64
  else .ptr

/-- The kind of the Go type. -/
def Ty.kind : Ty → Kind
  | int size => reflectIntKind false size
  | uint size => reflectIntKind true size
  | bool => .bool
  | address | fixedBytes _ | function | array _ _ => .array
  | string => .string
  | bytes | slice _ => .slice

/-- Values as `interface{}` holds them.  A slice or an array knows the kind of its elements. -/
inductive Value where
  | num (kind : Kind) (n : ℤ)
  | bool (b : Bool)
  | string (s : Bytes)
  | bytes (b : Bytes)
  | byteArray (b : Bytes)
  | slice (elem : Kind) (vs : List Value)
  | array (elem : Kind) (vs : List Value)

/-! ## Calls that read memory -/

/-- The errors of `UnpackValues`. -/
inductive UnpackError where
  | badBool
  | functionType
  | lengthInsufficient (actual want : ℤ)
  | negativeSize (size : ℤ)
  | arrayBoundary (actual want : ℤ)
  | offsetBoundary (offset len : ℤ)
  | offsetTooLarge (offset : ℤ)
  | lengthTooLarge (total : ℤ)
  deriving DecidableEq

/-- What a call returns, and whether it sliced past the length of an operand. -/
structure Decode (α : Type) where
  result : Except (Fault UnpackError) α
  strayed : Bool

namespace Decode

variable {α β : Type}

instance monadDecode : Monad Decode where
  pure a := ⟨.ok a, false⟩
  bind m f := match m.result with
    | .ok a => ⟨(f a).result, m.strayed || (f a).strayed⟩
    | .error e => ⟨.error e, m.strayed⟩

/-- An error is returned. -/
def fail (e : UnpackError) : Decode α := ⟨.error (.err e), false⟩

/-- The call crashes. -/
def panic : Decode α := ⟨.error .panic, false⟩

end Decode

/-- A byte slice: its bytes, and the memory behind them up to its capacity. -/
structure View where
  bytes : Bytes
  spare : Bytes

namespace View

def len (v : View) : ℤ := v.bytes.length

/-- `v[lo:hi]`, where `hi` may be as large as the capacity. -/
def slice (v : View) (lo hi : ℤ) : Decode View :=
  if 0 ≤ lo ∧ lo ≤ hi ∧ hi ≤ v.bytes.length + v.spare.length then
    ⟨.ok ⟨((v.bytes ++ v.spare).take hi.toNat).drop lo.toNat, (v.bytes ++ v.spare).drop hi.toNat⟩,
      v.bytes.length < hi⟩
  else .panic

end View

/-- The value of an expression of type `int`. -/
def wrap (x : ℤ) : ℤ := x.bmod (2 ^ 64)

/-! ## Reading a word -/

/-- The value of the last `k` bytes of a word. -/
def lastBytes (word : View) (k : ℕ) : Decode ℕ := do
  let tail ← word.slice (word.len - k) word.len
  pure (value tail.bytes)

/-- A conversion from an unsigned to a signed integer of `k` bytes. -/
def signed (k : ℕ) (n : ℕ) : ℤ := (n : ℤ).bmod (2 ^ (8 * k))

def readInteger (kind : Kind) (word : View) : Decode Value :=
  match kind with
  | .uint8 => do pure (.num kind (← lastBytes word 1))
  | .uint16 => do pure (.num kind (← lastBytes word 2))
  | .uint32 => do pure (.num kind (← lastBytes word 4))
  | .uint64 => do pure (.num kind (← lastBytes word 8))
  | .int8 => do pure (.num kind (signed 1 (← lastBytes word 1)))
  | .int16 => do pure (.num kind (signed 2 (← lastBytes word 2)))
  | .int32 => do pure (.num kind (signed 4 (← lastBytes word 4)))
  | .int64 => do pure (.num kind (signed 8 (← lastBytes word 8)))
  | _ => pure (.num .ptr (value word.bytes))

def readBool (word : View) : Decode Value := do
  let high ← word.slice 0 31
  if high.bytes.any (· ≠ 0) then .fail .badBool
  else do
    let low ← word.slice 31 32
    if low.bytes = [0] then pure (.bool false)
    else if low.bytes = [1] then pure (.bool true)
    else .fail .badBool

def readFunctionType (word : View) : Decode Value := do
  let garbage ← word.slice 24 32
  if value garbage.bytes ≠ 0 then .fail .functionType
  else do
    let funcTy ← word.slice 0 24
    pure (.byteArray funcTy.bytes)

/-- `readFixedBytes`: the size is not compared with that of a word. -/
def readFixedBytes (size : ℕ) (word : View) : Decode Value := do
  let front ← word.slice 0 size
  pure (.byteArray front.bytes)

/-- `common.BytesToAddress`. -/
def bytesToAddress (word : View) : Value := .byteArray (word.bytes.drop (word.bytes.length - 20))

/-! ## Following offsets -/

/-- `lengthPrefixPointsTo`: where the contents start, and their length. -/
def lengthPrefixPointsTo (index : ℤ) (output : View) : Decode (ℤ × ℤ) := do
  let word ← output.slice index (wrap (index + 32))
  let bigOffsetEnd : ℤ := value word.bytes + 32
  if output.len < bigOffsetEnd then .fail (.offsetBoundary bigOffsetEnd output.len)
  else if 2 ^ 63 ≤ bigOffsetEnd then .fail (.offsetTooLarge bigOffsetEnd)
  else do
    let lengthWord ← output.slice (bigOffsetEnd - 32) bigOffsetEnd
    let lengthBig : ℤ := value lengthWord.bytes
    if 2 ^ 63 ≤ bigOffsetEnd + lengthBig then .fail (.lengthTooLarge (bigOffsetEnd + lengthBig))
    else if output.len < bigOffsetEnd + lengthBig then
      .fail (.lengthInsufficient output.len (bigOffsetEnd + lengthBig))
    else pure (bigOffsetEnd, lengthBig)

/-- The recursion of `getFullElemSize`. -/
def fullElemSizeFrom : ℤ → Ty → ℤ
  | size, .array n elem => fullElemSizeFrom (wrap (size * n)) elem
  | size, _ => size

def getFullElemSize (elem : Ty) : ℤ := fullElemSizeFrom 32 elem

/-- The loop over the elements, which are `elemSize` bytes apart. -/
def eachFrom (decode : ℤ → Decode Value) (elemSize : ℤ) : ℕ → ℤ → Decode (List Value)
  | 0, _ => pure []
  | n + 1, i => do
    let v ← decode i
    let vs ← eachFrom decode elemSize n (wrap (i + elemSize))
    pure (v :: vs)

/-- `forEachUnpack` allocates `width` bytes an element before it reads the first one; `memory` is
the largest block that can be had. -/
def forEachUnpack (decode : ℤ → Decode Value) (output : View) (start size elemSize : ℤ) (width : ℕ)
    (memory : Option ℕ) : Decode (List Value) :=
  if size < 0 then .fail (.negativeSize size)
  else if output.len < wrap (start + wrap (32 * size)) then
    .fail (.arrayBoundary output.len (wrap (start + wrap (32 * size))))
  else if memory.all (size.toNat * width ≤ ·) then eachFrom decode elemSize size.toNat start
  else .panic

/-- `toGoType`: the value of the type at a position of the output. -/
def toGoType (t : Ty) (index : ℤ) (output : View) (memory : Option ℕ := none) : Decode Value :=
  if output.len < wrap (index + 32) then .fail (.lengthInsufficient output.len (wrap (index + 32)))
  else match t with
    | .slice elem => do
      let (begin, length) ← lengthPrefixPointsTo index output
      let vs ← forEachUnpack (fun i => toGoType elem i output memory) output begin length 32 elem.width
        memory
      pure (.slice elem.kind vs)
    | .array size elem => do
      let _ ← output.slice index (wrap (index + 32))
      let vs ← forEachUnpack (fun i => toGoType elem i output memory) output index size
        (getFullElemSize elem) elem.width memory
      pure (.array elem.kind vs)
    | .string => do
      let (begin, length) ← lengthPrefixPointsTo index output
      let contents ← output.slice begin (wrap (begin + length))
      pure (.string contents.bytes)
    | .bytes => do
      let (begin, length) ← lengthPrefixPointsTo index output
      let contents ← output.slice begin (wrap (begin + length))
      pure (.bytes contents.bytes)
    | .int size => do readInteger (reflectIntKind false size) (← output.slice index (wrap (index + 32)))
    | .uint size => do readInteger (reflectIntKind true size) (← output.slice index (wrap (index + 32)))
    | .bool => do readBool (← output.slice index (wrap (index + 32)))
    | .address => do
      let word ← output.slice index (wrap (index + 32))
      pure (bytesToAddress word)
    | .fixedBytes size => do readFixedBytes size (← output.slice index (wrap (index + 32)))
    | .function => do readFunctionType (← output.slice index (wrap (index + 32)))

theorem toGoType_short {t : Ty} {index : ℤ} {output : View} {memory : Option ℕ}
    (short : output.len < wrap (index + 32)) :
    toGoType t index output memory = .fail (.lengthInsufficient output.len (wrap (index + 32))) := by
  cases t <;> rw [toGoType, if_pos short]

structure Argument where
  type : Ty
  indexed : Bool

/-- The recursion of `getArraySize`. -/
def arraySizeFrom : ℤ → Ty → ℤ
  | size, .array n elem => arraySizeFrom (wrap (size * n)) elem
  | size, _ => size

/-- The words of an array beyond the first. -/
def virtualArgs : Ty → ℤ
  | .array n elem => arraySizeFrom n elem - 1
  | _ => 0

/-- The loop of `UnpackValues`; `index` counts the arguments and the virtual ones. -/
def unpackFrom (data : View) (index : ℤ) (ts : List Ty) (memory : Option ℕ := none) :
    Decode (List Value) :=
  match ts with
  | [] => pure []
  | t :: rest => do
    let v ← toGoType t (wrap (index * 32)) data memory
    let vs ← unpackFrom data (wrap (index + virtualArgs t + 1)) rest memory
    pure (v :: vs)

/-- The types of the arguments in the data: indexed ones are topics. -/
def nonIndexed (arguments : List Argument) : List Ty :=
  (arguments.filter fun arg => !arg.indexed).map (·.type)

/-- `Arguments.UnpackValues`. -/
def unpackValues (arguments : List Argument) (data : View) (memory : Option ℕ := none) :
    Decode (List Value) :=
  unpackFrom data 0 (nonIndexed arguments) memory

end JuChain.Abi
