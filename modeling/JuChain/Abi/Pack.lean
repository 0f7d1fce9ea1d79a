import JuChain.Abi.Unpack

/-!
# Encoding

`Type.pack`, `vm/solc/abi/pack.go`, the checks of `vm/solc/abi/error.go` and `Arguments.Pack`.  An
array is laid out inline, and so are the elements of one; strings and slices that are arguments go
to the end.
-/

namespace JuChain.Abi

open BigEndian

namespace Value

/-- The kind that `reflect` gives for the value. -/
def kind : Value → Kind
  | num k _ => k
  | bool _ => .bool
  | string _ => .string
  | bytes _ | slice _ _ => .slice
  | byteArray _ | array _ _ => .array

/-- The elements of a slice or an array, with the kind that its type gives them. -/
def elements : Value → Option (Kind × List Value)
  | bytes b | byteArray b => some (.uint8, b.map fun x => num .uint8 x.toNat)
  | slice k vs | array k vs => some (k, vs)
  | _ => none

/-- The value as a byte. -/
def byte : Value → Option UInt8
  | num .uint8 n => some (UInt8.ofNat n.toNat)
  | _ => none

/-- `reflect.Value.Bytes`, with `mustArrayToByteSlice` for arrays. -/
def rawBytes : Value → Option Bytes
  | bytes b | byteArray b => some b
  | slice .uint8 vs | array .uint8 vs => vs.mapM byte
  | _ => none

/-- `Value.Len` of a slice or an array. -/
def len (v : Value) : ℕ := match v.elements with
  | some (_, vs) => vs.length
  | none => 0

end Value

/-- The errors of `Pack`. -/
inductive PackError where
  | argumentCount (got want : ℕ)
  | notSequence (want got : Kind)
  | arrayLength (elem : Kind) (want : ℕ) (gotElem : Kind) (got : ℕ)
  | elemKind (want got : Kind)
  | kind (want got : Kind)
  | byteCount (want got : ℕ)
  deriving DecidableEq

/-- `sliceTypeCheck` looks at the first element only, and not at all at arrays. -/
def checkElements (elem : Ty) (check : Value → Except (Fault PackError) Unit) (kind : Kind)
    (vs : List Value) : Except (Fault PackError) Unit :=
  match elem, vs with
  | .slice _, v :: _ => check v
  | .array _ _, v :: _ => check v
  | .array _ _, [] => .error .panic
  | _, _ => if kind = elem.kind then .ok () else .error (.err (.elemKind elem.kind kind))

def sliceTypeCheck : Ty → Value → Except (Fault PackError) Unit
  | .slice elem, v => match v.elements with
    | none => .error (.err (.notSequence .slice v.kind))
    | some (kind, vs) => checkElements elem (sliceTypeCheck elem) kind vs
  | .array n elem, v => match v.elements with
    | none => .error (.err (.notSequence .array v.kind))
    | some (kind, vs) =>
      if vs.length ≠ n then .error (.err (.arrayLength elem.kind n kind vs.length))
      else checkElements elem (sliceTypeCheck elem) kind vs
  | _, _ => .error .panic

/-- `typeCheck` of a type that is not a slice or an array. -/
def typeCheck (t : Ty) (v : Value) : Except (Fault PackError) Unit :=
  if t.kind ≠ v.kind then .error (.err (.kind t.kind v.kind))
  else match t with
    | .fixedBytes size => if size ≠ v.len then .error (.err (.byteCount size v.len)) else .ok ()
    | _ => .ok ()

/-- `U256`: the two's complement of 256 bits. -/
def packNum (n : ℤ) : Bytes := fixed 32 (n % 2 ^ 256).toNat

/-- `common.RightPadBytes`. -/
def rightPadBytes (b : Bytes) (l : ℕ) : Bytes := b ++ List.replicate (l - b.length) 0

/-- `common.LeftPadBytes`. -/
def leftPadBytes (b : Bytes) (l : ℕ) : Bytes := List.replicate (l - b.length) 0 ++ b

/-- `packBytesSlice`: the length, and the bytes padded to whole words. -/
def packBytesSlice (b : Bytes) (l : ℕ) : Bytes := packNum l ++ rightPadBytes b ((l + 31) / 32 * 32)

/-- `Value.Bytes`, which panics for other kinds. -/
def bytesOf (v : Value) : Except (Fault PackError) Bytes := match v.rawBytes with
  | some b => .ok b
  | none => .error .panic

def packElement (t : Ty) (v : Value) : Except (Fault PackError) Bytes :=
  match t, v with
  | .int _, .num _ n | .uint _, .num _ n => .ok (packNum n)
  | .string, .string s => .ok (packBytesSlice s s.length)
  | .address, v => do .ok (leftPadBytes (← bytesOf v) 32)
  | .bool, .bool b => .ok (packNum b.toNat)
  | .bytes, v => do
    let b ← bytesOf v
    .ok (packBytesSlice b b.length)
  | .fixedBytes _, v | .function, v => do .ok (rightPadBytes (← bytesOf v) 32)
  | _, _ => .error .panic

/-! ## Values and arguments -/

/-- The loop over the elements in `pack`. -/
def packEach (pack : Value → Except (Fault PackError) Bytes) :
    List Value → Except (Fault PackError) Bytes
  | [] => .ok []
  | v :: vs => do
    let val ← pack v
    let packed ← packEach pack vs
    .ok (val ++ packed)

/-- The elements that `pack` goes through. -/
def elementsOf (v : Value) : List Value := match v.elements with
  | some (_, vs) => vs
  | none => []

/-- `Type.pack`. -/
def pack : Ty → Value → Except (Fault PackError) Bytes
  | .slice elem, v => do
    sliceTypeCheck (.slice elem) v
    let packed ← packEach (pack elem) (elementsOf v)
    .ok (packBytesSlice packed (elementsOf v).length)
  | .array n elem, v => do
    sliceTypeCheck (.array n elem) v
    packEach (pack elem) (elementsOf v)
  | t, v => do
    typeCheck t v
    packElement t v

/-- `Type.requiresLengthPrefix`. -/
def Ty.requiresLengthPrefix : Ty → Bool
  | .string | .bytes | .slice _ => true
  | _ => false

/-- What an argument adds to `inputOffset`: for an array, the number of its elements counts. -/
def offsetStep : Ty → ℤ
  | .array n _ => 32 * n
  | _ => 32

/-- The length of the first part as `Arguments.Pack` counts it. -/
def inputOffset (ts : List Ty) : ℤ := ts.foldl (fun offset t => wrap (offset + offsetStep t)) 0

/-- The loop of `Arguments.Pack`. -/
def packFrom (inputOffset : ℤ) : List (Ty × Value) → Bytes → Bytes → Except (Fault PackError) Bytes
  | [], ret, variableInput => .ok (ret ++ variableInput)
  | (t, v) :: rest, ret, variableInput => do
    let packed ← pack t v
    if t.requiresLengthPrefix then
      packFrom inputOffset rest (ret ++ packNum (wrap (inputOffset + variableInput.length)))
        (variableInput ++ packed)
    else packFrom inputOffset rest (ret ++ packed) variableInput

/-- `Arguments.Pack`. -/
def packArguments (ts : List Ty) (args : List Value) : Except (Fault PackError) Bytes :=
  if args.length ≠ ts.length then .error (.err (.argumentCount args.length ts.length))
  else packFrom (inputOffset ts) (ts.zip args) [] []

end JuChain.Abi
