import Solang.Sema.Inheritance

/-!
# The resolved syntax tree

Expressions, statements and inline assembly as the checks after resolving see
them. Constructors of the source that no check tells apart are one constructor
here: `unary` stands for `Load`, `GetRef`, `ZeroExt`, `SignExt`, `Trunc`,
`CheckingTrunc`, `Cast`, `BytesCast`, `Not`, `BitwiseNot`, `Negate` and
`AllocDynamicBytes`, `binary` for the operators with `left` and `right`, `many`
for `StructLiteral`, `ArrayLiteral`, `ConstArrayLiteral`, `FormatString`,
`UserDefinedOperator` and `List`, `incDec` for the four increments, and
`literal` for what has no operands.
-/

namespace Solang.Sema

inductive Builtin where
  | contractCode | getAddress | balance | payableSend | payableTransfer | arrayPush | arrayPop
  | arrayLength | assert | print | require | selfDestruct | keccak256 | ripemd160 | sha256
  | blake2_128 | blake2_256 | baseFee | prevRandao | gasleft | blockCoinbase | blockDifficulty
  | gasLimit | blockNumber | slot | timestamp | calldata | sender | signature | value | gasprice
  | origin | blockHash | minimumBalance | abiDecode | abiEncode | abiEncodePacked
  | abiEncodeWithSelector | abiEncodeWithSignature | abiEncodeCall | mulMod | addMod | chainId
  | externalFunctionAddress | functionSelector | signatureVerify | readInt8 | readInt16LE
  | readInt32LE | readInt64LE | readInt128LE | readInt256LE | readUint8 | readUint16LE
  | readUint32LE | readUint64LE | readUint128LE | readUint256LE | readAddress | writeInt8
  | writeInt16LE | writeInt32LE | writeInt64LE | writeInt128LE | writeInt256LE | writeUint8
  | writeUint16LE | writeUint32LE | writeUint64LE | writeUint128LE | writeUint256LE
  | writeAddress | writeString | writeBytes | accounts | userTypeWrap | userTypeUnwrap
  | ecRecover | stringConcat | bytesConcat | typeMin | typeMax | typeName | typeInterfaceId
  | typeRuntimeCode | typeCreatorCode | requireAuth | authAsCurrContract | extendTtl
  | extendInstanceTtl
  deriving DecidableEq, Repr

inductive YulBuiltInFunction where
  | stop | add | sub | mul | div | sDiv | mod | sMod | exp | not | lt | gt | slt | sgt | eq
  | isZero | and | or | xor | byte | shl | shr | sar | addMod | mulMod | signExtend | keccak256
  | pc | pop | mLoad | mStore | mStore8 | sLoad | sStore | mSize | gas | address | balance
  | selfBalance | caller | callValue | callDataLoad | callDataSize | callDataCopy | codeSize
  | codeCopy | extCodeSize | extCodeCopy | returnDataSize | returnDataCopy | extCodeHash | create
  | create2 | call | callCode | delegateCall | staticCall | ret | revert | selfDestruct | invalid
  | log0 | log1 | log2 | log3 | log4 | chainId | baseFee | origin | gasPrice | blockHash
  | coinBase | timestamp | number | difficulty | gasLimit | prevRandao
  deriving DecidableEq, Repr

namespace YulBuiltInFunction

def modifyState : YulBuiltInFunction → Bool
  | sStore | log0 | log1 | log2 | log3 | log4 | create | call | callCode | delegateCall | create2
  | selfDestruct => true
  | _ => false

def readState : YulBuiltInFunction → Bool
  | address | selfBalance | balance | origin | caller | callValue | chainId | baseFee | prevRandao
  | gas | gasPrice | extCodeSize | extCodeCopy | extCodeHash | blockHash | coinBase | timestamp
  | number | difficulty | gasLimit | staticCall | sLoad => true
  | _ => false

end YulBuiltInFunction

inductive CallTy where
  | regular
  | delegate
  | static
  deriving DecidableEq, Repr

/-- What the checks read of a type: a reference to contract storage, there maybe to an array
of dynamic length, or the struct `AccountInfo`. -/
inductive Ty where
  | storageRef (dynamicArray : Bool)
  | accountInfo
  | other
  deriving DecidableEq, Repr

def Ty.isContractStorage : Ty → Bool
  | storageRef _ => true
  | _ => false

/-- A call has the mutability of the type of its function. `stringCompare` has the sides known
only at run time. Of the options of a call, `callArgs` are `gas`, `salt`, `value`, `accounts`
and `flags`, and `seeds` are `seeds` and `program_id`, those that are present. -/
inductive Expression where
  | literal (ty : Ty)
  | internalFunction (functionNo : Nat) (signature : Option String)
  | variable (ty : Ty) (varNo : Nat)
  | storageVariable (ty : Ty) (varNo : Nat)
  | storageLoad (ty : Ty) (expr : Expression)
  | incDec (ty : Ty) (expr : Expression)
  | unary (ty : Ty) (expr : Expression)
  | namedMember (ty : Ty) (array : Expression) (name : String)
  | structMember (ty : Ty) (expr : Expression)
  | subscript (ty arrayTy : Ty) (array index : Expression)
  | assign (ty : Ty) (left right : Expression)
  | binary (ty : Ty) (left right : Expression)
  | conditionalOperator (ty : Ty) (cond trueOption falseOption : Expression)
  | storageArrayLength (ty : Ty) (array : Expression)
  | stringCompare (sides : List Expression)
  | externalFunction (address : Expression)
  | internalFunctionCall (ty : Ty) (mutability : Mutability) (function : Expression)
    (args : List Expression)
  | externalFunctionCall (ty : Ty) (mutability : Mutability) (function : Expression)
    (args callArgs seeds : List Expression)
  | externalFunctionCallRaw (callTy : CallTy) (address args : Expression)
    (callArgs seeds : List Expression)
  | constructor (args callArgs seeds : List Expression)
  | builtin (ty : Ty) (kind : Builtin) (args : List Expression)
  | many (ty : Ty) (exprs : List Expression)

def Expression.ty : Expression → Ty
  | .literal ty | .variable ty _ | .storageVariable ty _ | .storageLoad ty _ | .incDec ty _
  | .unary ty _ | .namedMember ty _ _ | .structMember ty _ | .subscript ty _ _ _
  | .assign ty _ _ | .binary ty _ _ | .conditionalOperator ty _ _ _ | .storageArrayLength ty _
  | .internalFunctionCall ty _ _ _ | .externalFunctionCall ty _ _ _ _ _ | .builtin ty _ _
  | .many ty _ => ty
  | _ => .other

inductive YulExpression where
  | leaf
  | builtInCall (ty : YulBuiltInFunction) (args : List YulExpression)
  | functionCall (functionNo : Nat) (args : List YulExpression)
  | suffixAccess (expr : YulExpression)

mutual

inductive YulStatement where
  | functionCall (functionNo : Nat) (args : List YulExpression)
  | builtInCall (ty : YulBuiltInFunction) (args : List YulExpression)
  | block (statements : List YulStatement)
  | variableDeclaration (value : Option YulExpression)
  | assignment (targets : List YulExpression) (value : YulExpression)
  | ifBlock (condition : YulExpression) (block : List YulStatement)
  | switch (condition : YulExpression) (cases : List CaseBlock)
    (default : Option (List YulStatement))
  | for (initBlock : List YulStatement) (condition : YulExpression)
    (postBlock executionBlock : List YulStatement)
  | leave
  | break
  | continue

inductive CaseBlock where
  | mk (condition : YulExpression) (block : List YulStatement)

end

/-- The fields of `destructure` are those that are expressions, the clauses of `tryCatch` the
`errors` and then `catch_all`. An assembly block has the bodies of the functions it defines. -/
inductive Statement where
  | block (statements : List Statement)
  | variableDecl (init : Option Expression)
  | if (cond : Expression) (then_ else_ : List Statement)
  | while (cond : Expression) (body : List Statement)
  | doWhile (body : List Statement) (cond : Expression)
  | for (init : List Statement) (cond next : Option Expression) (body : List Statement)
  | expression (expr : Expression)
  | delete (expr : Expression)
  | destructure (fields : List Expression) (expr : Expression)
  | return (expr : Option Expression)
  | tryCatch (expr : Expression) (okStmt : List Statement) (clauses : List (List Statement))
  | emit (args : List Expression)
  | revert (args : List Expression)
  | break
  | continue
  | underscore
  | assembly (functions : List (List YulStatement)) (body : List YulStatement)

/-- A function with its body. The annotations are `@payer` and `@seed`. -/
structure FunctionBody extends Declaration where
  modifiers : List Expression
  body : List Statement
  hasPayerAnnotation : Bool
  hasSeedAnnotation : Bool

/-- The functions of a namespace, and the last function that a contract has in
`virtual_functions` for a signature. -/
structure Bodies where
  functions : Nat → FunctionBody
  virtualFunction : Nat → String → Nat

end Solang.Sema
