import Pebil.Isa.Register

/-!
# Instructions and their registers (src/X86Instruction.C:400–537, 736–874, 1021–1040)

The part of a decoded instruction that the use and definition sets are computed from.
`itype` and `format` are what the classification table has for the mnemonic.
-/

namespace Pebil

/-- The operand types of `ud_type`, and an operand that has none. -/
inductive OperandType where
  | none
  | reg
  | mem
  | ptr
  | imm
  | jimm
  | const
  deriving DecidableEq, Repr

/-- `OperandX86`: `base` and `index` are register numbers, 0 where there is none, and
`value` is what `getValue` returns. -/
structure OperandX86 where
  type : OperandType
  base : Nat
  index : Nat
  value : BitVec 64
  deriving DecidableEq, Repr

/-- `X86InstructionType`. -/
inductive X86InstructionType where
  | unknown
  | invalid
  | condbr
  | uncondbr
  | call
  | ret
  | int
  | move
  | float
  | string
  | simd
  | avx
  | aes
  | io
  | prefetch
  | syscall
  | halt
  | hwcount
  | nop
  | trap
  | vmx
  | special
  deriving DecidableEq, Repr

/-- `X86OperandFormat`. -/
inductive X86OperandFormat where
  | unknown
  | di
  | si
  | dsi
  deriving DecidableEq, Repr

/-- The mnemonics that the code below, or what is said about it, names. -/
inductive Mnemonic where
  | bt
  | btc
  | btr
  | bts
  | cmppd
  | cmpps
  | cmpsb
  | cmpsd
  | cmpsq
  | cmpss
  | cmpsw
  | cmpxchg8b
  | cmpxchg
  | cmp
  | ftst
  | pcmpeqb
  | pcmpeqd
  | pcmpeqq
  | pcmpeqw
  | pcmpestri
  | pcmpestrm
  | pcmpgtb
  | pcmpgtd
  | pcmpgtq
  | pcmpgtw
  | pcmpistri
  | pcmpistrm
  | pfcmpeq
  | pfcmpge
  | pfcmpgt
  | ptest
  | test
  | vcmppd
  | vcmpps
  | vcmpsd
  | vcmpss
  | vpcmpeqb
  | vpcmpeqd
  | vpcmpeqq
  | vpcmpeqw
  | vpcmpestri
  | vpcmpestrm
  | vpcmpgtb
  | vpcmpgtd
  | vpcmpgtq
  | vpcmpgtw
  | vpcmpistri
  | vpcmpistrm
  | vtestpd
  | vtestps
  | cmovo
  | cmovno
  | cmovb
  | cmovae
  | cmovz
  | cmovnz
  | cmovbe
  | cmova
  | cmovs
  | cmovns
  | cmovp
  | cmovnp
  | cmovl
  | cmovge
  | cmovle
  | cmovg
  | xchg
  | xadd
  | other (code : Nat)
  deriving DecidableEq, Repr

/-- `TextObject`: what `inRange` reads. -/
structure TextObject where
  baseAddress : BitVec 64
  sizeInBytes : BitVec 64
  deriving DecidableEq, Repr

/-- `TextObject::inRange`. -/
def TextObject.inRange (t : TextObject) (addr : BitVec 64) : Bool :=
  t.baseAddress ≤ addr && addr < t.baseAddress + t.sizeInBytes

/-- `X86Instruction`: `operands` are its up to `MAX_OPERANDS` operands, and
`addressAnchor` is the anchor's link value, if it has an anchor. -/
structure X86Instruction where
  mnemonic : Mnemonic
  itype : X86InstructionType
  format : X86OperandFormat
  operands : Fin 4 → Option OperandX86
  flagsUse : BitVec 32
  flagsDef : BitVec 32
  impregUse : BitVec 64
  impregDef : BitVec 64
  container : TextObject
  baseAddress : BitVec 64
  sizeInBytes : BitVec 64
  addressAnchor : Option (BitVec 64)

namespace X86Instruction

variable (x : X86Instruction)

/-! ## Classification -/

def isUnconditionalBranch : Bool := x.itype == .uncondbr

def isConditionalBranch : Bool := x.itype == .condbr

def isBranch : Bool := x.isUnconditionalBranch || x.isConditionalBranch

def isMoveOperation : Bool := x.itype == .move

/-- `CHECK_IMPLICIT_STORE`. -/
def checkImplicitStore : Bool := x.format == .di || x.format == .dsi

def isConditionCompare : Bool :=
  x.mnemonic ∈ [.bt, .btc, .btr, .bts, .cmppd, .cmpps, .cmpsb, .cmpsd, .cmpsq, .cmpss, .cmpsw,
    .cmpxchg8b, .cmpxchg, .cmp, .ftst, .pcmpeqb, .pcmpeqd, .pcmpeqq, .pcmpeqw, .pcmpestri,
    .pcmpestrm, .pcmpgtb, .pcmpgtd, .pcmpgtq, .pcmpgtw, .pcmpistri, .pcmpistrm, .pfcmpeq,
    .pfcmpge, .pfcmpgt, .ptest, .test, .vcmppd, .vcmpps, .vcmpsd, .vcmpss, .vpcmpeqb, .vpcmpeqd,
    .vpcmpeqq, .vpcmpeqw, .vpcmpestri, .vpcmpestrm, .vpcmpgtb, .vpcmpgtd, .vpcmpgtq, .vpcmpgtw,
    .vpcmpistri, .vpcmpistrm, .vtestpd, .vtestps]

def isConditionalMove : Bool :=
  x.mnemonic ∈ [.cmovo, .cmovno, .cmovb, .cmovae, .cmovz, .cmovnz, .cmovbe, .cmova, .cmovs,
    .cmovns, .cmovp, .cmovnp, .cmovl, .cmovge, .cmovle, .cmovg]

/-! ## Operands -/

def countValidNonimm : Nat :=
  (List.finRange 4).countP fun i => (x.operands i).any (·.type != .imm)

/-- `getDestOperand`: "compares and branches dont define anything". -/
def getDestOperand : Option OperandX86 :=
  if x.isConditionCompare || x.isBranch || x.checkImplicitStore then none else x.operands 0

/-- `getSourceOperands`: with fewer than three operands, the first one is a source too. -/
def getSourceOperands : List OperandX86 :=
  if x.countValidNonimm < 3 && !x.isMoveOperation then
    [x.operands 0, x.operands 1, x.operands 2].filterMap id
  else [x.operands 1, x.operands 2, x.operands 3].filterMap id

/-- `getTargetAddress` of a branch: 0 when it is not known. -/
def getTargetAddress : BitVec 64 :=
  match x.addressAnchor with
  | some linkValue => x.baseAddress + linkValue + x.sizeInBytes
  | none =>
    match x.operands 0 with
    | some op => if op.type = .jimm then x.baseAddress + op.value + x.sizeInBytes else 0
    | none => 0

/-! ## Control -/

def isReturn : Bool := x.itype == .ret

def isFunctionCall : Bool := x.itype == .call

def isSystemCall : Bool := x.itype == .syscall

def isCall : Bool := x.isSystemCall || x.isFunctionCall

def isHalt : Bool := x.itype == .halt

def isControl : Bool :=
  x.isConditionalBranch || x.isUnconditionalBranch || x.isSystemCall || x.isFunctionCall ||
    x.isReturn

def usesControlTarget : Bool :=
  x.isConditionalBranch || x.isUnconditionalBranch || x.isFunctionCall || x.isSystemCall

def usesIndirectAddress : Bool :=
  (List.finRange 4).any fun i => (x.operands i).any fun op => op.type = .mem ∨ op.type = .reg

def isJumpTableBase : Bool := x.isUnconditionalBranch && x.usesIndirectAddress

def controlFallsThrough : Bool :=
  !(x.isHalt || x.isReturn || x.isUnconditionalBranch || x.isJumpTableBase)

/-- The address behind the instruction. -/
def endAddress : BitVec 64 := x.baseAddress + x.sizeInBytes

/-- `getTargetAddress` of any instruction: one that is no control transfer is said to
go on behind itself, and so is a return or a halt. -/
def targetAddress : BitVec 64 :=
  match x.itype with
  | .uncondbr | .condbr | .call => x.getTargetAddress
  | .syscall => 0
  | _ => x.endAddress

/-! ## Use and definition sets -/

def usesFlag (flg : Nat) : Bool := (x.flagsUse &&& 1#32 <<< flg) != 0

def defsFlag (flg : Nat) : Bool := (x.flagsDef &&& 1#32 <<< flg) != 0

/-- `mask & (1 << alu)` on a 64-bit mask: the shift is one of a 32-bit `int`, with the
count taken modulo 32 as the processor does, and its result is sign-extended. -/
def testImplicit (mask : BitVec 64) (alu : Nat) : Bool :=
  (mask &&& (1#32 <<< (alu % 32)).signExtend 64) != 0

def implicitlyUsesReg (alu : Nat) : Bool := testImplicit x.impregUse alu

def implicitlyDefinesReg (alu : Nat) : Bool := testImplicit x.impregDef alu

end X86Instruction

namespace RegisterSet

/-- The loop over all flags that adds those a test admits. -/
def addFlagsWhere (s : RegisterSet) (test : Nat → Bool) : RegisterSet :=
  (List.range x86FlagBits).foldl (fun s i => if test i then s.addFlag i else s) s

/-- The loop over all ALU registers that adds those a test admits. -/
def addRegistersWhere (s : RegisterSet) (test : Nat → Bool) : RegisterSet :=
  (List.range x86AluRegs).foldl (fun s i => if test i then s.addRegister i else s) s

/-- Add the ALU register of an operand field, if it has one. -/
def addField (s : RegisterSet) (reg : Nat) : RegisterSet :=
  if reg != 0 && isAluReg reg then s.addRegister (aluRegister reg) else s

/-- Add the base and the index register of an operand. -/
def addBaseIndex (s : RegisterSet) (op : OperandX86) : RegisterSet :=
  (s.addField op.base).addField op.index

/-- What a destination operand uses: the registers its address is computed from, and a
register that is written incompletely. -/
def addDestination (s : RegisterSet) (dest : OperandX86) : RegisterSet :=
  let s := if dest.type = .mem ∨ dest.type = .ptr then s.addBaseIndex dest else s
  if dest.type = .reg ∧ !is64BitGpr dest.base && !isX87Reg dest.base && !isXmmReg dest.base &&
      !isYmmReg dest.base then
    s.addField dest.base
  else s

end RegisterSet

namespace X86Instruction

variable (x : X86Instruction)

/-- `getRegistersDefined`. -/
def getRegistersDefined : RegisterSet :=
  let retval := (RegisterSet.empty.addFlagsWhere x.defsFlag).addRegistersWhere
    x.implicitlyDefinesReg
  if !x.isConditionalMove then
    match x.getDestOperand with
    | some op => if op.type = .reg then retval.addField op.base else retval
    | none => retval
  else retval

/-- `getRegistersUsed`. -/
def getRegistersUsed : RegisterSet :=
  if x.isBranch && !x.container.inRange x.getTargetAddress then
    (RegisterSet.empty.addFlagsWhere fun _ => true).addRegistersWhere fun _ => true
  else
    let retval := (RegisterSet.empty.addFlagsWhere x.usesFlag).addRegistersWhere
      x.implicitlyUsesReg
    let retval := x.getSourceOperands.foldl RegisterSet.addBaseIndex retval
    match x.getDestOperand with
    | some dest => retval.addDestination dest
    | none => retval

end X86Instruction

end Pebil
