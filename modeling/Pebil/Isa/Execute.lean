import Pebil.Isa.EncoderDecode
import Pebil.Isa.MemoryWord

/-!
# Execution

What the processor does in 64-bit user mode with an instruction as `decodeInsn` gives it: moves,
`lea`, arithmetic and shifts, on registers and memory of 32 and 64 bits. No other instruction is
executed here. What an instruction leaves in the flags is up to the processor.

`Code.run` executes encoded instructions one behind the other; each has to be decoded whole.
-/

namespace Pebil

/-- What the processor has beside its state: the bases of FS and GS, and what an operation leaves
in the flags. -/
structure Processor where
  segmentBase : Nat → BitVec 64
  flags : MachineOp → Nat → BitVec 64 → BitVec 64 → BitVec 64 → BitVec 64

/-- The low `bits` of a value. -/
def lowBits (bits : Nat) (v : BitVec 64) : BitVec 64 := (v.setWidth bits).setWidth 64

@[simp] theorem lowBits_64 (v : BitVec 64) : lowBits 64 v = v := by
  rw [lowBits, BitVec.setWidth_eq, BitVec.setWidth_eq]

theorem toNat_lowBits_32 (v : BitVec 64) : (lowBits 32 v).toNat = v.toNat % 2 ^ 32 := by
  rw [lowBits, BitVec.toNat_setWidth, BitVec.toNat_setWidth]
  omega

/-! ## Operands -/

/-- The offset that an operand stands for; `next` is the address behind the instruction. -/
def MemoryOperand.offset (op : MemoryOperand) (next : BitVec 64) (s : Machine) : BitVec 64 :=
  if op.base = Register.rip.ud then next + op.value else op.effectiveAddress s.gpr

/-- The sizes of operands that are executed. -/
def isWord (bits : Nat) : Prop := bits = 32 ∨ bits = 64

instance (bits : Nat) : Decidable (isWord bits) := inferInstanceAs (Decidable (_ ∨ _))

namespace MachineOperand

section Operand

variable (p : Processor) (next : BitVec 64) (s : Machine)

/-- The linear address of memory. -/
def linearAddress (seg : Option Nat) (addressBits : Nat) (op : MemoryOperand) : BitVec 64 :=
  seg.elim 0 p.segmentBase + lowBits addressBits (op.offset next s)

def read : MachineOperand → Option (BitVec 64)
  | .gpr bits number =>
    if h : number < 16 ∧ isWord bits then some (lowBits bits (s.gpr ⟨number, h.1⟩)) else none
  | .memory seg addressBits bits op =>
    if isWord bits then
      some (lowBits bits (s.mem.read (linearAddress p next s seg addressBits op)))
    else none
  | .immediate value => some value
  | _ => none

/-- A register of 32 bits is cleared above them; in memory only the bytes of the operand are
written. -/
def write (v : BitVec 64) : MachineOperand → Option Machine
  | .gpr bits number =>
    if h : number < 16 ∧ isWord bits then some (s.setGpr ⟨number, h.1⟩ (lowBits bits v)) else none
  | .memory seg addressBits bits op =>
    if isWord bits then
      let a := linearAddress p next s seg addressBits op
      some { s with mem := s.mem.writeLow (bits / 8) a v }
    else none
  | _ => none

end Operand

def bits : MachineOperand → Nat
  | .gpr bits _ => bits
  | .memory _ _ bits _ => bits
  | _ => 64

end MachineOperand

/-! ## Instructions -/

/-- The result of an operation, of which the destination takes what it has room for. A shift uses
the low bits of its count. -/
def MachineOp.alu (bits : Nat) : MachineOp → Option (BitVec 64 → BitVec 64 → BitVec 64)
  | .add => some fun a b => a + b
  | .or => some fun a b => a ||| b
  | .and => some fun a b => a &&& b
  | .sub => some fun a b => a - b
  | .xor => some fun a b => a ^^^ b
  | .shl => some fun a b => a <<< (b.toNat % bits)
  | .shr => some fun a b => a >>> (b.toNat % bits)
  | _ => none

/-- One instruction, with a destination and a source. -/
def MachineInsn.exec (p : Processor) (next : BitVec 64) (s : Machine) (i : MachineInsn) :
    Option Machine :=
  match i.operands with
  | [dest, source] =>
    match i.op with
    | .mov => (source.read p next s).bind fun v => dest.write p next s v
    | .lea =>
      match source with
      | .memory _ addressBits _ op => dest.write p next s (lowBits addressBits (op.offset next s))
      | _ => none
    | op => do
      let f ← op.alu dest.bits
      let a ← dest.read p next s
      let b ← source.read p next s
      let t ← dest.write p next s (f a b)
      some { t with flags := p.flags op dest.bits a b s.flags }
  | _ => none

/-- The instructions that `bytes` are made of, from `address` on. -/
def runCode (p : Processor) : List (List Nat) → BitVec 64 → Machine → Option Machine
  | [], _, s => some s
  | bytes :: code, address, s => do
    let (i, rest) ← decodeInsn bytes
    if rest = [] then
      let next := address + BitVec.ofNat 64 bytes.length
      let t ← i.exec p next s
      runCode p code next t
    else none

/-! ## What the instructions of a snippet do -/

section Exec

variable (p : Processor) (next : BitVec 64) (s : Machine)

open MachineOperand

/-- A state whose flags an operation has set. -/
def Machine.withFlags (s : Machine) (flags : BitVec 64) : Machine := { s with flags := flags }

namespace Machine

variable (flags : BitVec 64)

@[simp] theorem withFlags_gpr : (s.withFlags flags).gpr = s.gpr := rfl

@[simp] theorem withFlags_vec : (s.withFlags flags).vec = s.vec := rfl

@[simp] theorem withFlags_mem : (s.withFlags flags).mem = s.mem := rfl

end Machine

theorem runCode_cons {bytes : List Nat} {i : MachineInsn} {address : BitVec 64}
    (code : List (List Nat)) (h : decodeInsn bytes = some (i, [])) :
    runCode p (bytes :: code) address s =
      (i.exec p (address + BitVec.ofNat 64 bytes.length) s).bind
        (runCode p code (address + BitVec.ofNat 64 bytes.length)) := by
  rw [runCode, h]
  rfl

@[simp] theorem runCode_nil (address : BitVec 64) : runCode p [] address s = some s := rfl

@[simp] theorem read_reg64 (r : Fin 16) : (reg64 r).read p next s = some (s.gpr r) := by
  simp [reg64, MachineOperand.read, isWord]

@[simp] theorem read_immediate (v : BitVec 64) : (immediate v).read p next s = some v := rfl

@[simp] theorem write_reg64 (r : Fin 16) (v : BitVec 64) :
    (reg64 r).write p next s v = some (s.setGpr r v) := by
  simp [reg64, MachineOperand.write, isWord]

theorem reg_ne_rip (r : Fin 16) : udRRax + r.val ≠ Register.rip.ud := by
  have hr := r.isLt
  simp only [udRRax, Register.ud]
  omega

@[simp] theorem offset_based (r : Fin 16) (v : BitVec 64) :
    (MemoryOperand.based r v).offset next s = s.gpr r + v := by
  rw [MemoryOperand.offset, MemoryOperand.based, if_neg (reg_ne_rip r)]
  simp [MemoryOperand.effectiveAddress]

/-- A base, an index without a scale, and a displacement. -/
theorem offset_indexed (base index : Fin 16) (v : BitVec 64) :
    (⟨udRRax + base, udRRax + index, 0, v⟩ : MemoryOperand).offset next s =
      s.gpr base + s.gpr index + v := by
  rw [MemoryOperand.offset, if_neg (reg_ne_rip base)]
  simp [MemoryOperand.effectiveAddress]

@[simp] theorem offset_absolute (v : BitVec 64) : (MemoryOperand.absolute v).offset next s = v := by
  have hne : 0 ≠ Register.rip.ud := by decide
  rw [MemoryOperand.offset, MemoryOperand.absolute, if_neg hne]
  simp [MemoryOperand.effectiveAddress]

@[simp] theorem offset_ripRelative (v : BitVec 64) :
    (MemoryOperand.ripRelative v).offset next s = next + v :=
  if_pos rfl

variable {s} {d : Fin 16} {seg : Option Nat} {op : MemoryOperand} {v : BitVec 64}

/-- Without a segment register the address is the offset. -/
@[simp] theorem linearAddress_none : linearAddress p next s none 64 op = op.offset next s := by
  simp [linearAddress]

@[simp] theorem linearAddress_some (number : Nat) :
    linearAddress p next s (some number) 64 op = p.segmentBase number + op.offset next s := by
  simp [linearAddress]

/-- A load. -/
theorem exec_mov_memory :
    (⟨.mov, false, [reg64 d, .memory seg 64 64 op]⟩ : MachineInsn).exec p next s =
      some (s.setGpr d (s.mem.read (linearAddress p next s seg 64 op))) := by
  simp [MachineInsn.exec, MachineOperand.read, isWord]

theorem exec_lea :
    (⟨.lea, false, [reg64 d, .memory seg 64 64 op]⟩ : MachineInsn).exec p next s =
      some (s.setGpr d (op.offset next s)) := by
  simp [MachineInsn.exec]

/-- An operation on a register and an immediate. -/
theorem exec_reg_immediate {m : MachineOp} {f : BitVec 64 → BitVec 64 → BitVec 64}
    (h : m.alu 64 = some f) :
    (⟨m, false, [reg64 d, .immediate v]⟩ : MachineInsn).exec p next s =
      some ((s.setGpr d (f (s.gpr d) v)).withFlags (p.flags m 64 (s.gpr d) v s.flags)) := by
  have hbits : (reg64 d).bits = 64 := rfl
  cases m <;> first
    | cases h
      done
    | simp [MachineInsn.exec, hbits, h, Machine.withFlags]

/-- An addition to memory changes as many bytes as the operand has. -/
theorem exec_add_memory {bits : Nat} (hbits : isWord bits) :
    (⟨.add, false, [.memory seg 64 bits op, .immediate v]⟩ : MachineInsn).exec p next s =
      some (({ s with mem := s.mem.addAt (bits / 8) (linearAddress p next s seg 64 op) v } :
        Machine).withFlags
          (p.flags .add bits (lowBits bits (s.mem.read (linearAddress p next s seg 64 op))) v
            s.flags)) := by
  obtain rfl | rfl := hbits
  · have hlow : ∀ x : BitVec 64, (lowBits 32 x + v).toNat % 2 ^ 32 = (x + v).toNat % 2 ^ 32 := by
      intro x
      rw [BitVec.toNat_add, BitVec.toNat_add, toNat_lowBits_32]
      omega
    simp [MachineInsn.exec, MachineOperand.read, MachineOperand.write, isWord, MachineOp.alu,
      MachineOperand.bits, Memory.writeLow_four (hlow _), Memory.addAt, Machine.withFlags]
  · simp [MachineInsn.exec, MachineOperand.read, MachineOperand.write, isWord, MachineOp.alu,
      MachineOperand.bits, Memory.addAt, Machine.withFlags]

end Exec

end Pebil
