import Pebil.Isa.Instruction
import Mathlib.Tactic.ByContra

/-!
# Reaching definitions (src/X86Instruction.C:616–701, 890–937)

`getDefs` describes what an instruction defines by the fields of its destination operand, with
`X86_ALU_REGS` where a register field holds none of the ALU registers, and for each register that
it defines implicitly by a location that is zero but for the base. `invalidatedBy` compares the
fields of two such locations.

The number for "no ALU register" is the same for all that are none, and the index that an implied
register leaves zero is the number of RAX. `judged_iff` says which pairs of locations are told
apart all the same.
-/

namespace Pebil

/-- `DefLocation`. -/
structure DefLocation where
  type : OperandType
  value : BitVec 64
  base : Nat
  index : Nat
  offset : BitVec 8
  scale : BitVec 8
  deriving DecidableEq, Repr

/-- `OperandX86` with the size of its displacement and its scale. -/
structure LocatedOperand extends OperandX86 where
  offset : BitVec 8
  scale : BitVec 8
  deriving DecidableEq, Repr

/-- `op_has`, with `getBaseRegister` or `getIndexRegister`. -/
def locationRegister (reg : Nat) : Nat :=
  if reg ≠ 0 ∧ isAluReg reg = true then aluRegister reg else x86AluRegs

/-- The location of an operand in `getDefs`. -/
def LocatedOperand.defLocation (op : LocatedOperand) : DefLocation where
  type := op.type
  value := op.value
  base := locationRegister op.base
  index := locationRegister op.index
  offset := op.offset
  scale := op.scale

/-- The location of an implicitly defined register. -/
def impliedLocation (i : Nat) : DefLocation := ⟨.reg, 0, i, 0, 0, 0⟩

/-- `X86Instruction::getDefs`, from the destination operand and `implicitlyDefinesReg`. -/
def getDefs (dest : Option LocatedOperand) (implicitlyDefinesReg : Nat → Bool) :
    List DefLocation :=
  dest.toList.map LocatedOperand.defLocation ++
    ((List.range x86AluRegs).filter implicitlyDefinesReg).map impliedLocation

/-- `ReachingDefinition::invalidatedBy`. -/
def DefLocation.invalidatedBy (this other : DefLocation) : Bool :=
  (this.type == other.type && this.base == other.base && this.index == other.index &&
      this.offset == other.offset && this.scale == other.scale && this.value == other.value) ||
    (other.type == .reg && (other.base == this.base || other.base == this.index))

/-! ## What is defined -/

/-- A memory operand. The disassembler leaves a scale only where there is an index, and a
displacement only where it has a size. -/
structure MemoryReference where
  base : Option Register
  index : Option Register
  scale : BitVec 8
  offset : BitVec 8
  displacement : BitVec 64
  scale_zero : index = none → scale = 0
  displacement_zero : offset = 0 → displacement = 0

/-- What a definition is of. -/
inductive DefinedPlace where
  | register (r : Register)
  | implied (i : Fin 40)
  | memory (m : MemoryReference)

/-- A register field of an operand. -/
def registerField : Option Register → Nat
  | none => 0
  | some r => r.ud

/-- The destination operand, as it is decoded. -/
def DefinedPlace.operand : DefinedPlace → Option LocatedOperand
  | .register r => some ⟨⟨.reg, r.ud, 0, 0⟩, 0, 0⟩
  | .implied _ => none
  | .memory m =>
    some ⟨⟨.mem, registerField m.base, registerField m.index, m.displacement⟩, m.offset, m.scale⟩

/-- Its location in `getDefs`. -/
def DefinedPlace.defLocation : DefinedPlace → DefLocation
  | .implied i => impliedLocation i
  | .register r => LocatedOperand.defLocation ⟨⟨.reg, r.ud, 0, 0⟩, 0, 0⟩
  | .memory m => LocatedOperand.defLocation
    ⟨⟨.mem, registerField m.base, registerField m.index, m.displacement⟩, m.offset, m.scale⟩

/-- `getDefs` has the location of what is written explicitly, and those of the implied
registers. -/
theorem mem_getDefs {d : DefinedPlace} {op : LocatedOperand} (h : d.operand = some op)
    {implicitlyDefinesReg : Nat → Bool} {l : DefLocation} :
    l ∈ getDefs (some op) implicitlyDefinesReg ↔
      l = d.defLocation ∨
        ∃ i : Fin 40, implicitlyDefinesReg i = true ∧ l = (DefinedPlace.implied i).defLocation := by
  have hop : op.defLocation = d.defLocation := by
    cases d with
    | implied i => cases h
    | register r | memory m => rw [← Option.some.inj h]; rfl
  rw [getDefs, Option.toList_some, List.map_singleton, List.mem_append, List.mem_singleton, hop,
    List.mem_map]
  refine or_congr_right ⟨?_, ?_⟩
  · rintro ⟨i, hi, rfl⟩
    obtain ⟨hlt, himplied⟩ := List.mem_filter.mp hi
    exact ⟨⟨i, List.mem_range.mp hlt⟩, himplied, rfl⟩
  · rintro ⟨i, himplied, rfl⟩
    exact ⟨i, List.mem_filter.mpr ⟨List.mem_range.mpr i.isLt, himplied⟩, rfl⟩

/-- Registers as they are told apart: by the ALU register they are part of, or by themselves. -/
def Register.alias (r : Register) : Nat ⊕ Register :=
  match r.aluIndex with
  | some i => .inl i
  | none => .inr r

namespace DefinedPlace

/-- The register that is defined. -/
def alias? : DefinedPlace → Option (Nat ⊕ Register)
  | register r => some r.alias
  | implied i => some (.inl i)
  | memory _ => none

end DefinedPlace

namespace MemoryReference

/-- The operand's address is computed with the register. -/
def Uses (m : MemoryReference) (r : Register) : Prop := m.base = some r ∨ m.index = some r

/-- The operands are the same. -/
structure Same (m m' : MemoryReference) : Prop where
  base : m.base.map Register.alias = m'.base.map Register.alias
  index : m.index.map Register.alias = m'.index.map Register.alias
  scale : m.scale = m'.scale
  displacement : m.displacement = m'.displacement

end MemoryReference

/-- A definition of `e` ends that of `d`. -/
def Invalidates (e d : DefinedPlace) : Prop :=
  match e, d with
  | .memory m', .memory m => m.Same m'
  | .memory _, _ => False
  | e, .memory m => ∃ r, m.Uses r ∧ e.alias? = some r.alias
  | e, d => e.alias? = d.alias?

/-- `invalidatedBy` is right about `d` and a later `e`. -/
def Judged (d e : DefinedPlace) : Prop :=
  d.defLocation.invalidatedBy e.defLocation = true ↔ Invalidates e d

/-! ## When locations are told apart -/

/-- The register has a number of its own in a location. -/
def Register.Admitted (r : Register) : Prop := isAluReg r.ud = true

instance (r : Register) : Decidable r.Admitted := inferInstanceAs (Decidable (_ = true))

/-- There is no register in the field, or one without a number of its own. -/
def Unnumbered (o : Option Register) : Prop := ∀ r, o = some r → ¬r.Admitted

/-- What the fields of two locations tell apart.
* An implied register is not told apart from RAX, whose number is that of its index.
* Registers without a number of their own are not told apart from each other, from a register that
  is written explicitly, or from a memory operand that lacks a base or an index, and they are taken
  for others than the registers they are part of.
* Memory operands whose displacements have different sizes are taken for different ones. -/
def ToldApart : DefinedPlace → DefinedPlace → Prop
  | .register r, .register e =>
    if e.Admitted then r.alias = e.alias → r.Admitted else r.alias = e.alias
  | .register r, .implied j => r.alias = .inl j.val → r.Admitted
  | .implied i, .register e =>
    if e.Admitted then e.alias = .inl 0 → i.val = 0 else e.alias ≠ .inl i.val
  | .implied i, .implied j => j.val = 0 → i.val = 0
  | .memory m, .register e =>
    if e.Admitted then
      ∀ r, m.Uses r → r.alias = e.alias → ∃ r', m.Uses r' ∧ r'.Admitted ∧ r'.alias = e.alias
    else (Unnumbered m.base ∨ Unnumbered m.index) ↔ ∃ r, m.Uses r ∧ r.alias = e.alias
  | .memory m, .implied j =>
    ∀ r, m.Uses r → r.alias = .inl j.val → ∃ r', m.Uses r' ∧ r'.Admitted ∧ r'.alias = .inl j.val
  | .memory m, .memory m' =>
    m.scale = m'.scale → m.displacement = m'.displacement →
      ((locationRegister (registerField m.base) = locationRegister (registerField m'.base) ∧
          locationRegister (registerField m.index) = locationRegister (registerField m'.index) ∧
          m.offset = m'.offset) ↔
        m.base.map Register.alias = m'.base.map Register.alias ∧
          m.index.map Register.alias = m'.index.map Register.alias)
  | .register _, .memory _ | .implied _, .memory _ => True

/-! ## Numbers of registers -/

theorem Register.Admitted.alias {r : Register} (h : r.Admitted) :
    ∃ j < 40, r.alias = .inl j ∧ locationRegister r.ud = j := by
  have hun : ¬r.Unadmitted := by
    intro hun
    cases r with
    | st n | ymm n =>
      simp only [Admitted, isAluReg_iff, Register.ud] at h
      omega
    | _ => exact hun
  have halu := aluIndex_eq hun
  rw [if_pos (show isAluReg r.ud = true from h)] at halu
  refine ⟨aluRegister r.ud, r.aluIndex_lt halu, ?_, ?_⟩
  · rw [Register.alias, halu]
  · rw [locationRegister, if_pos ⟨r.ud_pos, h⟩]

theorem locationRegister_of_not_admitted {r : Register} (h : ¬r.Admitted) :
    locationRegister r.ud = 40 :=
  if_neg fun hr => h hr.2

theorem locationRegister_none : locationRegister (registerField none) = 40 := by
  simp [locationRegister, registerField, x86AluRegs]

/-- The number of a field is one below 40 exactly if an admitted register is in it. -/
theorem locationRegister_eq_iff {o : Option Register} {j : Nat} (hj : j < 40) :
    locationRegister (registerField o) = j ↔ ∃ r, o = some r ∧ r.Admitted ∧ r.alias = .inl j := by
  cases o with
  | none =>
    rw [locationRegister_none]
    simp
    omega
  | some r =>
    by_cases hr : r.Admitted
    · obtain ⟨i, hi, halias, hnumber⟩ := hr.alias
      simp [registerField, hnumber, hr, halias]
    · simp [registerField, locationRegister_of_not_admitted hr, hr]
      omega

theorem locationRegister_eq_40 {o : Option Register} :
    locationRegister (registerField o) = 40 ↔ Unnumbered o := by
  cases o with
  | none => simp [locationRegister_none, Unnumbered]
  | some r =>
    by_cases hr : r.Admitted
    · obtain ⟨i, hi, -, hnumber⟩ := hr.alias
      simp [registerField, hnumber, Unnumbered, hr]
      omega
    · simp [registerField, locationRegister_of_not_admitted hr, Unnumbered, hr]

/-! ## The comparison -/

namespace DefLocation

variable {this other : DefLocation}

/-- A register is compared with the base and the index. -/
theorem invalidatedBy_of_reg (h : other.type = .reg) :
    this.invalidatedBy other = true ↔ other.base = this.base ∨ other.base = this.index := by
  simp only [invalidatedBy, h, Bool.or_eq_true, Bool.and_eq_true, beq_iff_eq]
  constructor
  · rintro (⟨⟨⟨⟨⟨-, hbase⟩, -⟩, -⟩, -⟩, -⟩ | ⟨-, hregister⟩)
    · exact .inl hbase.symm
    · exact hregister
  · exact fun hregister => .inr ⟨trivial, hregister⟩

/-- Anything else is compared as a whole. -/
theorem invalidatedBy_of_ne_reg (h : other.type ≠ .reg) :
    this.invalidatedBy other = true ↔ this = other := by
  obtain ⟨type, value, base, index, offset, scale⟩ := this
  obtain ⟨type', value', base', index', offset', scale'⟩ := other
  simp only [invalidatedBy, Bool.or_eq_true, Bool.and_eq_true, beq_iff_eq,
    DefLocation.mk.injEq] at h ⊢
  constructor
  · rintro (⟨⟨⟨⟨⟨htype, hbase⟩, hindex⟩, hoffset⟩, hscale⟩, hvalue⟩ | ⟨hreg, -⟩)
    · exact ⟨htype, hvalue, hbase, hindex, hoffset, hscale⟩
    · exact absurd hreg h
  · rintro ⟨htype, hvalue, hbase, hindex, hoffset, hscale⟩
    exact .inl ⟨⟨⟨⟨⟨htype, hbase⟩, hindex⟩, hoffset⟩, hscale⟩, hvalue⟩

end DefLocation

/-! ## Pairs of places -/

section Pairs

variable {r e : Register} {i j : Fin 40} {m m' : MemoryReference}

/-- What the fields of a memory operand tell of an admitted register. -/
theorem uses_admitted_iff {j : Nat} (hj : j < 40) :
    (j = locationRegister (registerField m.base) ∨ j = locationRegister (registerField m.index)) ↔
      ∃ r, m.Uses r ∧ r.Admitted ∧ r.alias = .inl j := by
  rw [eq_comm, locationRegister_eq_iff hj, eq_comm, locationRegister_eq_iff hj]
  constructor
  · rintro (⟨r, hr, hadmitted, halias⟩ | ⟨r, hr, hadmitted, halias⟩)
    · exact ⟨r, .inl hr, hadmitted, halias⟩
    · exact ⟨r, .inr hr, hadmitted, halias⟩
  · rintro ⟨r, hr | hr, hadmitted, halias⟩
    · exact .inl ⟨r, hr, hadmitted, halias⟩
    · exact .inr ⟨r, hr, hadmitted, halias⟩

theorem judged_register_register : Judged (.register r) (.register e) ↔
    ToldApart (.register r) (.register e) := by
  unfold Judged
  rw [DefLocation.invalidatedBy_of_reg rfl]
  show ((locationRegister e.ud = locationRegister r.ud ∨
    locationRegister e.ud = locationRegister (registerField none)) ↔
      some e.alias = some r.alias) ↔ _
  rw [locationRegister_none, Option.some.injEq]
  by_cases he : e.Admitted
  · rw [show ToldApart (.register r) (.register e) = (r.alias = e.alias → r.Admitted) from if_pos he]
    obtain ⟨j, hj, halias, hnumber⟩ := he.alias
    have hsame : locationRegister r.ud = j ↔ r.Admitted ∧ r.alias = .inl j := by
      simpa [registerField] using locationRegister_eq_iff (o := some r) hj
    rw [hnumber, halias, eq_comm (a := j), hsame]
    constructor
    · intro h heq
      exact ((h.mpr heq.symm).resolve_right (by omega)).1
    · intro h
      constructor
      · rintro (⟨-, heq⟩ | heq)
        · exact heq.symm
        · omega
      · exact fun heq => .inl ⟨h heq.symm, heq.symm⟩
  · rw [show ToldApart (.register r) (.register e) = (r.alias = e.alias) from if_neg he]
    rw [locationRegister_of_not_admitted he]
    simp [eq_comm]

theorem judged_register_implied : Judged (.register r) (.implied j) ↔
    ToldApart (.register r) (.implied j) := by
  unfold Judged
  rw [DefLocation.invalidatedBy_of_reg rfl]
  show ((j.val = locationRegister r.ud ∨ j.val = locationRegister (registerField none)) ↔
      some (.inl j.val) = some r.alias) ↔ (r.alias = .inl j.val → r.Admitted)
  have hsame : locationRegister r.ud = j.val ↔ r.Admitted ∧ r.alias = .inl j.val := by
    simpa [registerField] using locationRegister_eq_iff (o := some r) j.isLt
  have hnone : j.val ≠ 40 := j.isLt.ne
  rw [locationRegister_none, Option.some.injEq, eq_comm (a := j.val), hsame,
    eq_comm (b := r.alias)]
  tauto

theorem judged_implied_register : Judged (.implied i) (.register e) ↔
    ToldApart (.implied i) (.register e) := by
  unfold Judged
  rw [DefLocation.invalidatedBy_of_reg rfl]
  -- the index of an implied register is left zero
  show ((locationRegister e.ud = i.val ∨ locationRegister e.ud = 0) ↔
      some e.alias = some (.inl i.val)) ↔ _
  rw [Option.some.injEq]
  by_cases he : e.Admitted
  · rw [show ToldApart (.implied i) (.register e) = (e.alias = .inl 0 → i.val = 0) from if_pos he]
    obtain ⟨j, -, halias, hnumber⟩ := he.alias
    rw [hnumber, halias, Sum.inl.injEq, Sum.inl.injEq]
    omega
  · rw [show ToldApart (.implied i) (.register e) = (e.alias ≠ .inl i.val) from if_neg he]
    rw [locationRegister_of_not_admitted he]
    have hnone : 40 ≠ i.val := i.isLt.ne'
    tauto

theorem judged_implied_implied : Judged (.implied i) (.implied j) ↔
    ToldApart (.implied i) (.implied j) := by
  unfold Judged
  rw [DefLocation.invalidatedBy_of_reg rfl]
  show ((j.val = i.val ∨ j.val = 0) ↔
    (some (.inl j.val) : Option (Nat ⊕ Register)) = some (.inl i.val)) ↔ (j.val = 0 → i.val = 0)
  rw [Option.some.injEq, Sum.inl.injEq]
  omega

theorem judged_memory_register : Judged (.memory m) (.register e) ↔
    ToldApart (.memory m) (.register e) := by
  unfold Judged
  rw [DefLocation.invalidatedBy_of_reg rfl]
  show ((locationRegister e.ud = locationRegister (registerField m.base) ∨
    locationRegister e.ud = locationRegister (registerField m.index)) ↔
      ∃ r, m.Uses r ∧ some e.alias = some r.alias) ↔ _
  simp only [Option.some.injEq, eq_comm (a := e.alias)]
  by_cases he : e.Admitted
  · rw [show ToldApart (.memory m) (.register e) = (∀ r, m.Uses r → r.alias = e.alias →
      ∃ r', m.Uses r' ∧ r'.Admitted ∧ r'.alias = e.alias) from if_pos he]
    obtain ⟨j, hj, halias, hnumber⟩ := he.alias
    rw [hnumber, uses_admitted_iff hj, halias]
    constructor
    · exact fun h r hr heq => h.mpr ⟨r, hr, heq⟩
    · intro h
      constructor
      · exact fun ⟨r, hr, _, heq⟩ => ⟨r, hr, heq⟩
      · exact fun ⟨r, hr, heq⟩ => h r hr heq
  · rw [show ToldApart (.memory m) (.register e) = ((Unnumbered m.base ∨ Unnumbered m.index) ↔
      ∃ r, m.Uses r ∧ r.alias = e.alias) from if_neg he]
    -- a field without a number holds the number that `e` has
    rw [locationRegister_of_not_admitted he, eq_comm, locationRegister_eq_40, eq_comm,
      locationRegister_eq_40]

theorem judged_memory_implied : Judged (.memory m) (.implied j) ↔
    ToldApart (.memory m) (.implied j) := by
  unfold Judged
  rw [DefLocation.invalidatedBy_of_reg rfl]
  show ((j.val = locationRegister (registerField m.base) ∨
    j.val = locationRegister (registerField m.index)) ↔
      ∃ r, m.Uses r ∧ some (.inl j.val) = some r.alias) ↔
    ∀ r, m.Uses r → r.alias = .inl j.val → ∃ r', m.Uses r' ∧ r'.Admitted ∧ r'.alias = .inl j.val
  rw [uses_admitted_iff j.isLt]
  simp only [Option.some.injEq, eq_comm (b := Register.alias _)]
  constructor
  · exact fun h r hr heq => h.mpr ⟨r, hr, heq⟩
  · intro h
    constructor
    · exact fun ⟨r, hr, _, heq⟩ => ⟨r, hr, heq⟩
    · exact fun ⟨r, hr, heq⟩ => h r hr heq

theorem judged_memory_memory : Judged (.memory m) (.memory m') ↔
    ToldApart (.memory m) (.memory m') := by
  unfold Judged
  rw [DefLocation.invalidatedBy_of_ne_reg (show OperandType.mem ≠ .reg from nofun)]
  have hlocation : (DefinedPlace.memory m).defLocation = (DefinedPlace.memory m').defLocation ↔
      m.displacement = m'.displacement ∧
        locationRegister (registerField m.base) = locationRegister (registerField m'.base) ∧
        locationRegister (registerField m.index) = locationRegister (registerField m'.index) ∧
        m.offset = m'.offset ∧ m.scale = m'.scale := by
    simp [DefinedPlace.defLocation, LocatedOperand.defLocation]
  have hsame : Invalidates (.memory m') (.memory m) ↔
      m.base.map Register.alias = m'.base.map Register.alias ∧
        m.index.map Register.alias = m'.index.map Register.alias ∧
        m.scale = m'.scale ∧ m.displacement = m'.displacement :=
    ⟨fun h => ⟨h.base, h.index, h.scale, h.displacement⟩, fun ⟨hb, hi, hs, hd⟩ => ⟨hb, hi, hs, hd⟩⟩
  rw [hlocation, hsame]
  -- the scale and the displacement are compared as they are
  constructor
  · intro h hscale hdisplacement
    constructor
    · rintro ⟨hbase, hindex, hoffset⟩
      obtain ⟨hbase', hindex', -⟩ := h.mp ⟨hdisplacement, hbase, hindex, hoffset, hscale⟩
      exact ⟨hbase', hindex'⟩
    · rintro ⟨hbase, hindex⟩
      obtain ⟨-, hbase', hindex', hoffset, -⟩ := h.mpr ⟨hbase, hindex, hscale, hdisplacement⟩
      exact ⟨hbase', hindex', hoffset⟩
  · intro h
    constructor
    · rintro ⟨hdisplacement, hbase, hindex, hoffset, hscale⟩
      obtain ⟨hbase', hindex'⟩ := (h hscale hdisplacement).mp ⟨hbase, hindex, hoffset⟩
      exact ⟨hbase', hindex', hscale, hdisplacement⟩
    · rintro ⟨hbase, hindex, hscale, hdisplacement⟩
      obtain ⟨hbase', hindex', hoffset⟩ := (h hscale hdisplacement).mpr ⟨hbase, hindex⟩
      exact ⟨hdisplacement, hbase', hindex', hoffset, hscale⟩

end Pairs

/-- A register is never taken for a memory operand that is written later. -/
theorem judged_of_memory {d : DefinedPlace} {m : MemoryReference} (h : d.alias?.isSome) :
    Judged d (.memory m) := by
  unfold Judged
  rw [DefLocation.invalidatedBy_of_ne_reg (show OperandType.mem ≠ .reg from nofun)]
  cases d with
  | memory m => cases h
  | register r | implied i =>
    refine iff_of_false (fun heq => ?_) id
    exact absurd (show OperandType.reg = .mem from congrArg DefLocation.type heq) nofun

/-- `invalidatedBy` tells exactly when the later definition ends the earlier one, for the pairs that
the fields of a location tell apart. -/
theorem judged_iff (d e : DefinedPlace) : Judged d e ↔ ToldApart d e := by
  cases e with
  | register e =>
    cases d with
    | register r => exact judged_register_register
    | implied i => exact judged_implied_register
    | memory m => exact judged_memory_register
  | implied j =>
    cases d with
    | register r => exact judged_register_implied
    | implied i => exact judged_implied_implied
    | memory m => exact judged_memory_implied
  | memory m' =>
    cases d with
    | register r => exact iff_of_true (judged_of_memory rfl) trivial
    | implied i => exact iff_of_true (judged_of_memory rfl) trivial
    | memory m => exact judged_memory_memory

/-- What `loop` defines, RCX, is taken for ended when RAX is written. -/
theorem not_judged_implied_rcx_rax : ¬∀ d e : DefinedPlace, Judged d e := by
  intro h
  have hended : (DefinedPlace.implied 1).defLocation.invalidatedBy
      (DefinedPlace.register (.gpr64 0)).defLocation = true := by decide
  have halias : some (Register.gpr64 0).alias = some (.inl 1) :=
    (h (.implied 1) (.register (.gpr64 0))).mp hended
  exact absurd halias (by decide)

end Pebil
