import Solang.Codegen.Expression

/-!
# Types on an encoded buffer

`AbiType` is what `sema::ast::Type` offers to the encoder and the decoder, with
structs and user types resolved in the namespace (`sema` admits neither
recursive types nor user types over anything but elementary ones here). An
array keeps its outermost dimension apart and a struct its first field, so
there is no array without dimensions and no struct without fields.
-/

namespace Solang.Codegen.Encoding

/-- The targets other than Soroban, which has its own encoder. -/
inductive Target where
  | solana
  | polkadot
  | evm
  deriving DecidableEq, Repr

namespace Target

def selectorLength : Target → Nat
  | solana => 8
  | _ => 4

def ptrSize : Target → Nat
  | solana => 64
  | _ => 32

end Target

structure Namespace where
  target : Target
  addressLength : Nat
  valueLength : Nat

inductive Elementary where
  | bool
  | address
  | contract
  | enum
  | value
  | bytes (n : Nat)
  | uint (bits : Nat)
  | int (bits : Nat)
  deriving DecidableEq, Repr

inductive AbiLength where
  | fixed (n : Nat)
  | dynamic
  deriving DecidableEq, Repr

/-- The dimensions of `array` are `inner ++ [outer]`, innermost first. -/
inductive AbiType where
  | elementary (ty : Elementary)
  | userType (ty : Elementary)
  | dynamicBytes
  | string
  | externalFunction
  | array (elem : AbiType) (inner : List AbiLength) (outer : AbiLength)
  | slice (elem : AbiType)
  | struct (first : AbiType) (rest : List AbiType)

/-- `next_power_of_two` of the Rust integers. -/
def nextPowerOfTwo (n : Nat) : Nat := 2 ^ Nat.clog 2 n

theorem le_nextPowerOfTwo (n : Nat) : n ≤ nextPowerOfTwo n :=
  Nat.le_pow_clog (by decide) n

namespace Elementary

def memorySize (ns : Namespace) : Elementary → Nat
  | bool => 1
  | address => ns.addressLength
  | contract => ns.addressLength
  | enum => 1
  | value => ns.valueLength
  | bytes n => n
  | uint bits => bits / 8
  | int bits => bits / 8

/-- The bytes a value takes on the wire. -/
def wireSize (ns : Namespace) : Elementary → Nat
  | uint bits => nextPowerOfTwo bits / 8
  | int bits => nextPowerOfTwo bits / 8
  | ty => ty.memorySize ns

def isPrimitive : Elementary → Bool
  | contract => false
  | enum => false
  | _ => true

def alignment (ns : Namespace) : Elementary → Nat
  | bytes n => nextPowerOfTwo n
  | value => nextPowerOfTwo ns.valueLength
  | uint bits => bits / 8
  | int bits => bits / 8
  | _ => 1

def allowMemcpy : Elementary → Bool
  | bytes n => n < 2
  | ty => ty.isPrimitive

theorem memorySize_le_wireSize (ns : Namespace) (ty : Elementary) :
    ty.memorySize ns ≤ ty.wireSize ns := by
  cases ty with
  | uint bits | int bits => exact Nat.div_le_div_right (le_nextPowerOfTwo bits)
  | _ => exact le_refl _

end Elementary

def AbiLength.size (ns : Namespace) : AbiLength → Nat
  | fixed n => n
  | dynamic => ns.target.ptrSize / 8

namespace AbiType

mutual

def isDynamic : AbiType → Bool
  | elementary _ => false
  | userType _ => false
  | dynamicBytes => true
  | string => true
  | externalFunction => false
  | array elem inner outer => (inner ++ [outer]).contains .dynamic || elem.isDynamic
  | slice _ => true
  | struct first rest => first.isDynamic || anyDynamic rest

def anyDynamic : List AbiType → Bool
  | [] => false
  | ty :: tys => ty.isDynamic || anyDynamic tys

end

mutual

/-- `memory_size_of` -/
def memorySize (ns : Namespace) : AbiType → Nat
  | elementary ty => ty.memorySize ns
  | userType ty => ty.memorySize ns
  | dynamicBytes => ns.target.ptrSize / 8
  | string => ns.target.ptrSize / 8
  | externalFunction => ns.addressLength + 4
  | array elem inner outer =>
    if (inner ++ [outer]).head? = some .dynamic then ns.target.ptrSize / 8
    else elem.memorySize ns * ((inner ++ [outer]).map (AbiLength.size ns)).prod
  | slice _ => ns.target.ptrSize / 8
  | struct first rest => first.memorySize ns + memorySizes ns rest

def memorySizes (ns : Namespace) : List AbiType → Nat
  | [] => 0
  | ty :: tys => ty.memorySize ns + memorySizes ns tys

end

mutual

/-- `calculate_struct_non_padded_size` of a field: `none` unless it is primitive
or a struct of such fields. -/
def nonPaddedSize (ns : Namespace) : AbiType → Option Nat
  | elementary ty => if ty.isPrimitive then some (ty.memorySize ns) else none
  | userType ty => if ty.isPrimitive then some (ty.memorySize ns) else none
  | struct first rest =>
    match first.nonPaddedSize ns, nonPaddedSizes ns rest with
    | some n, some m => some (n + m)
    | _, _ => none
  | _ => none

def nonPaddedSizes (ns : Namespace) : List AbiType → Option Nat
  | [] => some 0
  | ty :: tys =>
    match ty.nonPaddedSize ns, nonPaddedSizes ns tys with
    | some n, some m => some (n + m)
    | _, _ => none

end

mutual

/-- `struct_elem_alignment` -/
def alignment (ns : Namespace) : AbiType → Nat
  | elementary ty => ty.alignment ns
  | userType ty => ty.alignment ns
  | array elem inner outer =>
    if (inner ++ [outer]).contains .dynamic then ns.target.ptrSize / 8 else elem.alignment ns
  | struct first rest => max (first.alignment ns) (alignments ns rest)
  | externalFunction => 1
  | _ => ns.target.ptrSize / 8

def alignments (ns : Namespace) : List AbiType → Nat
  | [] => 0
  | ty :: tys => max (ty.alignment ns) (alignments ns tys)

end

/-- `total` plus the padding before a field of alignment `align`. -/
def padTo (align total : Nat) : Nat :=
  if total % align = 0 then total else total + (align - total % align)

/-- `struct_padded_size` -/
def paddedSize (ns : Namespace) (fields : List AbiType) : Nat :=
  fields.foldl (fun total ty => padTo (ty.alignment ns) total + ty.memorySize ns) 0

mutual

/-- `allow_memcpy` -/
def allowMemcpy (ns : Namespace) : AbiType → Bool
  | elementary ty => ty.allowMemcpy
  | userType ty => ty.allowMemcpy
  | array elem inner outer =>
    if isDynamic (.array elem inner outer) then inner.isEmpty && elem.allowMemcpy ns
    else elem.allowMemcpy ns
  | struct first rest =>
    match nonPaddedSize ns (.struct first rest) with
    | some size =>
      size == paddedSize ns (first :: rest)
        && paddedSize ns (first :: rest) % alignment ns (.struct first rest) == 0
        && (first.allowMemcpy ns && allAllowMemcpy ns rest)
    | none => false
  | _ => false

def allAllowMemcpy (ns : Namespace) : List AbiType → Bool
  | [] => true
  | ty :: tys => ty.allowMemcpy ns && allAllowMemcpy ns tys

end

end AbiType

end Solang.Codegen.Encoding
