import Pebil.Dwarf.LineSpec

/-!
# When the line program is decoded correctly

One operation of a well-formed program is decoded and executed as DWARF says when
it `Meets` the conditions below (`executeInstruction_eq`), and a program all of
whose operations do yields exactly the rows of the state machine and takes exactly
its bytes (`runProgram_rows`).

The conditions are the ways in which the code goes wrong:
* it compares opcodes with `li_opcode_base - 1`, and so takes the last standard
  opcode for a special one;
* a special opcode's address advance goes through an `int16_t`;
* operands are read with 32-bit shifts;
* the length of an extended opcode is a single byte;
* opcodes it does not know end it, where the tables say how to skip them.
-/

namespace Pebil

open Leb128 (Byte)

open LineSpec in
/-- The conditions under which the code decodes one operation correctly. -/
def LineHeader.Meets (h : LineHeader) (i : LineInstruction) : Prop :=
  i.opcode + 1 ≠ h.opcodeBase.toNat ∧
  match i.op with
  | .special adjusted => addressAdvance h adjusted < 2 ^ 15
  | .advancePc v => v < 2 ^ 31
  | .setFile v => v < 2 ^ 31
  | .setColumn v => v < 2 ^ 31
  | .setIsa v => v < 2 ^ 31
  | .advanceLine v len => -2 ^ 31 ≤ v ∧ v < 2 ^ 31 ∧ (v < 0 → len ≤ 5)
  | .unknownStandard => False
  | .extended lengthLen op => lengthLen = 1 ∧ op ≠ .unknown
  | _ => True

/-- The row that the registers make. -/
def LineRegisters.row (r : LineRegisters) : LineRow where
  address := r.address
  file := r.file
  line := r.line
  column := r.column
  isStmt := decide (r.isStmt ≠ 0)
  basicBlock := decide (r.basicBlock ≠ 0)
  endSequence := decide (r.endSequence ≠ 0)

namespace LineInfoTable

open LineSpec

/-- `t'` is what the state machine makes of `t` by `op`. -/
structure Simulates (h : LineHeader) (t : LineInfoTable) (op : LineOp) (t' : LineInfoTable) :
    Prop where
  registers : t'.registers.row = (exec h t.registers.row op).1
  rows : t'.lineInformations.map LineRegisters.row =
    t.lineInformations.map LineRegisters.row ++ (exec h t.registers.row op).2

variable {h : LineHeader} {t : LineInfoTable} {op : LineOp} {operands : List Byte} {size : Nat}

/-! ## Machine arithmetic -/

theorem signExtend_ofNat_16 {x : Nat} (hx : x < 2 ^ 15) :
    (BitVec.ofNat 16 x).signExtend 64 = BitVec.ofNat 64 x := by
  apply BitVec.eq_of_toNat_eq
  rw [BitVec.toNat_signExtend, BitVec.msb_eq_decide]
  simp only [BitVec.toNat_setWidth, BitVec.toNat_ofNat, decide_eq_true_eq]
  split <;> omega

theorem signExtend_ofInt_16 {y : Int} (hlo : -2 ^ 15 ≤ y) (hhi : y < 2 ^ 15) :
    (BitVec.ofInt 16 y).signExtend 32 = BitVec.ofInt 32 y := by
  apply BitVec.eq_of_toInt_eq
  rw [BitVec.toInt_signExtend_of_le (by decide), BitVec.toInt_ofInt, BitVec.toInt_ofInt]
  rw [Int.bmod_eq_of_le (by omega) (by omega), Int.bmod_eq_of_le (by omega) (by omega)]

theorem setWidth_ofNat_32 {v : Nat} (hv : v < 2 ^ 31) :
    BitVec.ofNat 64 v = ((BitVec.ofNat 64 v).setWidth 32).setWidth 64 := by
  apply BitVec.eq_of_toNat_eq
  simp only [BitVec.toNat_setWidth, BitVec.toNat_ofNat]
  omega

theorem setWidth_ofInt_32 (v : Int) : (BitVec.ofInt 64 v).setWidth 32 = BitVec.ofInt 32 v := by
  apply BitVec.eq_of_toNat_eq
  rw [BitVec.toNat_setWidth, BitVec.toNat_ofInt, BitVec.toNat_ofInt]
  omega

theorem ofInt_fits_32 {v : Int} (hlo : -2 ^ 31 ≤ v) (hhi : v < 2 ^ 31) :
    BitVec.ofInt 64 v = ((BitVec.ofInt 64 v).setWidth 32).signExtend 64 := by
  rw [setWidth_ofInt_32]
  apply BitVec.eq_of_toInt_eq
  rw [BitVec.toInt_signExtend_of_le (by decide), BitVec.toInt_ofInt, BitVec.toInt_ofInt]
  rw [Int.bmod_eq_of_le (by omega) (by omega), Int.bmod_eq_of_le (by omega) (by omega)]

/-! ## Special and standard opcodes -/

theorem executeSpecialOpcode_eq {opcode : Byte} (hbase : h.opcodeBase.toNat ≤ opcode.toNat)
    (hadv : addressAdvance h (opcode.toNat - h.opcodeBase.toNat) < 2 ^ 15) :
    Simulates h t (.special (opcode.toNat - h.opcodeBase.toNat))
      (t.executeSpecialOpcode h opcode).1 := by
  have hadj : (opcode - h.opcodeBase).toNat = opcode.toNat - h.opcodeBase.toNat :=
    BitVec.toNat_sub_of_le (BitVec.le_def.mpr hbase)
  have hlo := BitVec.le_toInt h.lineBase
  have hhi := BitVec.toInt_lt (x := h.lineBase)
  have hmod : (opcode.toNat - h.opcodeBase.toNat) % h.lineRange.toNat < 256 := by
    have := Nat.mod_le (opcode.toNat - h.opcodeBase.toNat) h.lineRange.toNat
    have := opcode.isLt
    omega
  have hline := signExtend_ofInt_16
    (y := h.lineBase.toInt + ((opcode.toNat - h.opcodeBase.toNat) % h.lineRange.toNat : Nat))
    (by omega) (by omega)
  have haddr := signExtend_ofNat_16 hadv
  unfold addressAdvance at haddr
  constructor
  · simp only [executeSpecialOpcode, appendRowToMatrix, clearRowFlags, hadj, hline, haddr,
      LineRegisters.row, exec, addressAdvance]
    rfl
  · simp only [executeSpecialOpcode, appendRowToMatrix, clearRowFlags, hadj, hline, haddr,
      LineRegisters.row, exec, addressAdvance, List.map_append, List.map_cons, List.map_nil]

/-- A 32-bit register set from an unsigned operand below `2 ^ 31`. -/
theorem setUnsigned32_eq {v len : Nat} (hdec : Leb128.unsigned operands = some (v, len))
    (hv : v < 2 ^ 31) (set : LineRegisters → BitVec 32 → LineRegisters) :
    t.setUnsigned32 operands set =
      some ({ t with registers := set t.registers (BitVec.ofNat 32 v) }, 1 + len) := by
  have hnarrow : (BitVec.ofNat 64 v).setWidth 32 = BitVec.ofNat 32 v := by
    apply BitVec.eq_of_toNat_eq
    simp only [BitVec.toNat_setWidth, BitVec.toNat_ofNat]
    omega
  unfold setUnsigned32
  rw [getLeb128Unsigned_eq hdec hv]
  simp only [Option.bind_eq_bind, Option.bind_some]
  rw [if_pos (setWidth_ofNat_32 hv), hnarrow]
  rfl

theorem unsignedOp_eq {mk : Nat → LineOp} (hdec : unsignedOp mk operands = some (op, size)) :
    ∃ v len, Leb128.unsigned operands = some (v, len) ∧ op = mk v ∧ size = 1 + len := by
  obtain ⟨⟨v, len⟩, hu, heq⟩ := Option.map_eq_some_iff.mp hdec
  simp only [Prod.mk.injEq] at heq
  exact ⟨v, len, hu, heq.1.symm, heq.2.symm⟩

theorem getUInt_lt {n v : Nat} {bytes : List Byte} (h : getUInt n bytes = some v) :
    v < 256 ^ n := by
  induction n generalizing bytes v with
  | zero =>
    obtain rfl : 0 = v := by simpa [getUInt] using h
    exact Nat.one_pos
  | succ n ih =>
    cases bytes with
    | nil => simp [getUInt] at h
    | cons b bytes =>
      obtain ⟨w, hw, rfl⟩ := Option.map_eq_some_iff.mp h
      have hlt := ih hw
      have hb := b.isLt
      rw [Nat.pow_succ]
      omega

/-- Known standard opcodes, with the operand count the standard gives them. -/
theorem standardCase_eq {opcode : Nat} (hpos : 0 < opcode) (hlt : opcode ≤ 12)
    (hdec : decodeStandard h opcode operands = some (op, size))
    (hmeet : h.Meets ⟨opcode, op, size⟩) {n : Nat}
    (hn : standardOperands[opcode - 1]? = some n) :
    ∃ t', t.standardCase h opcode n operands = some (t', size) ∧ Simulates h t op t' := by
  obtain ⟨-, hop⟩ := hmeet
  unfold standardCase
  rw [if_neg (not_not.mpr hn)]
  have hcases : opcode = 1 ∨ opcode = 2 ∨ opcode = 3 ∨ opcode = 4 ∨ opcode = 5 ∨ opcode = 6 ∨
      opcode = 7 ∨ opcode = 8 ∨ opcode = 9 ∨ opcode = 10 ∨ opcode = 11 ∨ opcode = 12 := by omega
  rcases hcases with rfl | rfl | rfl | rfl | rfl | rfl | rfl | rfl | rfl | rfl | rfl | rfl
  · -- copy
    obtain ⟨rfl, rfl⟩ : LineOp.copy = op ∧ 1 = size := by simpa [decodeStandard] using hdec
    exact ⟨_, rfl, rfl, by simp [appendRowToMatrix, clearRowFlags, exec]⟩
  · -- advance_pc
    obtain ⟨v, len, hu, rfl, rfl⟩ := unsignedOp_eq hdec
    refine ⟨_, by simp [getLeb128Unsigned_eq hu hop]; rfl, ?_, by simp [exec]⟩
    simp only [LineRegisters.row, exec, LineRow.mk.injEq, and_true]
    apply BitVec.eq_of_toNat_eq
    simp only [BitVec.toNat_add, BitVec.toNat_mul, BitVec.toNat_setWidth, BitVec.toNat_ofNat,
      Nat.add_mod_mod, Nat.mul_mod_mod, Nat.mod_mul_mod]
  · -- advance_line
    obtain ⟨⟨v, len⟩, hs, heq⟩ := Option.map_eq_some_iff.mp hdec
    obtain ⟨rfl, rfl⟩ : LineOp.advanceLine v len = op ∧ 1 + len = size := by simpa using heq
    obtain ⟨hlo, hhi, hlen⟩ := hop
    refine ⟨{ t with registers :=
      { t.registers with line := t.registers.line + BitVec.ofInt 32 v } }, ?_, rfl, by simp [exec]⟩
    simp only [getLeb128Signed_eq hs hlo hhi hlen, Option.bind_eq_bind, Option.bind_some]
    rw [if_pos (ofInt_fits_32 hlo hhi), setWidth_ofInt_32]
    rfl
  · -- set_file
    obtain ⟨v, len, hu, rfl, rfl⟩ := unsignedOp_eq hdec
    exact ⟨_, setUnsigned32_eq hu hop _, rfl, by simp [exec]⟩
  · -- set_column
    obtain ⟨v, len, hu, rfl, rfl⟩ := unsignedOp_eq hdec
    exact ⟨_, setUnsigned32_eq hu hop _, rfl, by simp [exec]⟩
  · -- negate_stmt
    obtain ⟨rfl, rfl⟩ : LineOp.negateStmt = op ∧ 1 = size := by
      simpa [decodeStandard] using hdec
    refine ⟨_, rfl, ?_, by simp [exec]⟩
    by_cases hs : t.registers.isStmt = 0 <;> simp [LineRegisters.row, exec, hs]
  · -- set_basic_block
    obtain ⟨rfl, rfl⟩ : LineOp.setBasicBlock = op ∧ 1 = size := by
      simpa [decodeStandard] using hdec
    exact ⟨_, rfl, by simp [LineRegisters.row, exec], by simp [exec]⟩
  · -- const_add_pc: the advance of opcode 255 fits sixteen bits
    obtain ⟨rfl, rfl⟩ : LineOp.constAddPc = op ∧ 1 = size := by
      simpa [decodeStandard] using hdec
    refine ⟨_, rfl, ?_, by simp [exec]⟩
    have hle : addressAdvance h (255 - h.opcodeBase.toNat) ≤ 255 * 255 := by
      have hdiv := Nat.div_le_self (255 - h.opcodeBase.toNat) h.lineRange.toNat
      have hmin := h.minInsnLength.isLt
      exact Nat.mul_le_mul (by omega) (by omega)
    simp only [LineRegisters.row, exec, LineRow.mk.injEq, and_true]
    show _ + (BitVec.ofNat 16 (addressAdvance h (255 - h.opcodeBase.toNat))).setWidth 64 = _
    generalize addressAdvance h (255 - h.opcodeBase.toNat) = x at hle
    congr 1
    apply BitVec.eq_of_toNat_eq
    simp only [BitVec.toNat_setWidth, BitVec.toNat_ofNat]
    omega
  · -- fixed_advance_pc
    obtain ⟨v, hv, heq⟩ := Option.map_eq_some_iff.mp hdec
    obtain ⟨rfl, rfl⟩ : LineOp.fixedAdvancePc v = op ∧ 3 = size := by simpa using heq
    have hlt16 : v < 256 ^ 2 := getUInt_lt hv
    refine ⟨_, by rw [hv]; rfl, ?_, by simp [exec]⟩
    simp only [LineRegisters.row, exec, LineRow.mk.injEq, and_true]
    congr 1
    apply BitVec.eq_of_toNat_eq
    simp only [BitVec.toNat_setWidth, BitVec.toNat_ofNat]
    omega
  · -- set_prologue_end
    obtain ⟨rfl, rfl⟩ : LineOp.setPrologueEnd = op ∧ 1 = size := by
      simpa [decodeStandard] using hdec
    exact ⟨_, rfl, rfl, by simp [exec]⟩
  · -- set_epilogue_begin
    obtain ⟨rfl, rfl⟩ : LineOp.setEpilogueBegin = op ∧ 1 = size := by
      simpa [decodeStandard] using hdec
    exact ⟨_, rfl, rfl, by simp [exec]⟩
  · -- set_isa
    obtain ⟨v, len, hu, rfl, rfl⟩ := unsignedOp_eq hdec
    exact ⟨_, setUnsigned32_eq hu hop _, rfl, by simp [exec]⟩

/-! ## Extended opcodes -/

/-- Reading LEB128 numbers never fails where they are there. -/
theorem getLeb128Unsigned_len {bytes : List Byte} {v len : Nat}
    (h : Leb128.unsigned bytes = some (v, len)) :
    ∃ r, getLeb128Unsigned bytes = some (r, len) := by
  obtain ⟨r, hr⟩ := leb128UnsignedFrom_len 0 0 0 h
  exact ⟨r, by rw [getLeb128Unsigned, hr, Nat.zero_add]⟩

theorem skipOperands_succ {count len : Nat} {bytes : List Byte}
    (h : skipOperands (count + 1) bytes = some len) :
    ∃ v n rest, Leb128.unsigned bytes = some (v, n) ∧
      skipOperands count (bytes.drop n) = some rest ∧ len = n + rest := by
  unfold skipOperands at h
  obtain ⟨⟨v, n⟩, hv, h⟩ := Option.bind_eq_some_iff.mp h
  obtain ⟨rest, hrest, h⟩ := Option.bind_eq_some_iff.mp h
  exact ⟨v, n, rest, hv, hrest, (Option.some.inj h).symm⟩

theorem defineFile_eq {len : Nat} (h : fileLength operands = some len) :
    ∃ t', t.defineFile operands = some t' ∧ t'.registers = t.registers ∧
      t'.lineInformations = t.lineInformations := by
  unfold fileLength at h
  obtain ⟨⟨name, rest⟩, hname, h⟩ := Option.bind_eq_some_iff.mp h
  obtain ⟨skipped, hskip, -⟩ := Option.bind_eq_some_iff.mp h
  obtain ⟨_, n₁, _, h₁, hskip, -⟩ := skipOperands_succ hskip
  obtain ⟨_, n₂, _, h₂, hskip, -⟩ := skipOperands_succ hskip
  obtain ⟨_, n₃, _, h₃, -, -⟩ := skipOperands_succ hskip
  obtain ⟨r₁, h₁⟩ := getLeb128Unsigned_len h₁
  obtain ⟨r₂, h₂⟩ := getLeb128Unsigned_len h₂
  rw [List.drop_drop] at h₃
  obtain ⟨r₃, h₃⟩ := getLeb128Unsigned_len h₃
  refine ⟨{ t with fileNames := t.fileNames ++ [⟨name, r₁, r₂, r₃⟩] }, ?_, rfl, rfl⟩
  simp [defineFile, hname, h₁, h₂, h₃]

/-- A length in one byte. -/
theorem unsigned_one_byte {bytes : List Byte} {length : Nat}
    (h : Leb128.unsigned bytes = some (length, 1)) :
    ∃ b rest, bytes = b :: rest ∧ b.toNat = length ∧ length < 128 := by
  cases bytes with
  | nil => simp [Leb128.unsigned] at h
  | cons b rest =>
    unfold Leb128.unsigned at h
    split at h
    · rename_i hlt
      simp only [Option.some.injEq, Prod.mk.injEq, and_true] at h
      exact ⟨b, rest, rfl, h, h ▸ hlt⟩
    · obtain ⟨⟨v, n⟩, hrec, heq⟩ := Option.map_eq_some_iff.mp h
      have := Leb128.unsigned_len_pos hrec
      simp only [Prod.mk.injEq] at heq
      omega

theorem decodeExtended_eq {bytes : List Byte} (h : decodeExtended h₀ bytes = some (op, size)) :
    ∃ length lengthLen opcode operands ext, Leb128.unsigned bytes = some (length, lengthLen) ∧
      bytes.drop lengthLen = opcode :: operands ∧
      decodeExtendedOp h₀ length opcode.toNat operands = some ext ∧
      op = .extended lengthLen ext ∧ size = 1 + lengthLen + length := by
  unfold decodeExtended at h
  obtain ⟨⟨length, lengthLen⟩, hlen, h⟩ := Option.bind_eq_some_iff.mp h
  cases hdrop : bytes.drop lengthLen with
  | nil => simp [hdrop] at h
  | cons opcode operands =>
    simp only [hdrop] at h
    split at h
    · cases h
    · obtain ⟨ext, hext, h⟩ := Option.bind_eq_some_iff.mp h
      have h := Option.some.inj h
      simp only [Prod.mk.injEq] at h
      exact ⟨length, lengthLen, opcode, operands, ext, hlen, hdrop, hext, h.1.symm, h.2.symm⟩

theorem executeExtendedOpcode_eq {bytes : List Byte}
    (hdec : decodeExtended h bytes = some (op, size)) (hmeet : h.Meets ⟨0, op, size⟩) :
    ∃ t', t.executeExtendedOpcode h bytes = some (t', size) ∧ Simulates h t op t' := by
  obtain ⟨length, lengthLen, opcode, operands, ext, hlen, hdrop, hext, rfl, rfl⟩ :=
    decodeExtended_eq hdec
  obtain ⟨-, rfl, hknown⟩ := hmeet
  obtain ⟨b, rest, rfl, rfl, hlt⟩ := unsigned_one_byte hlen
  rw [List.drop_one, List.tail_cons] at hdrop
  subst hdrop
  have hsize : 2 + b.toNat = 1 + 1 + b.toNat := rfl
  unfold executeExtendedOpcode
  simp only [if_neg (show ¬ b &&& 0x80#8 ≠ 0 by rw [byte_continues]; omega)]
  generalize opcode.toNat = o at hext ⊢
  match o, hext with
  | 0, hext => exact absurd (Option.some.inj hext).symm hknown
  | 1, hext =>
    obtain rfl := Option.some.inj hext
    exact ⟨_, rfl, rfl, by simp [appendRowToMatrix, exec, LineRegisters.row]⟩
  | 2, hext =>
    simp only [decodeExtendedOp] at hext
    split at hext
    · obtain ⟨a, ha, rfl⟩ := Option.map_eq_some_iff.mp hext
      exact ⟨_, by rw [ha]; rfl, rfl, by simp [exec]⟩
    · cases hext
  | 3, hext =>
    simp only [decodeExtendedOp] at hext
    obtain ⟨len, hfile, hext⟩ := Option.bind_eq_some_iff.mp hext
    split at hext
    · obtain rfl := Option.some.inj hext
      obtain ⟨t', ht', hregs, hrows⟩ := defineFile_eq (t := t) hfile
      exact ⟨t', by rw [ht']; rfl, by rw [hregs]; rfl, by simp [hrows, exec]⟩
    · cases hext
  | 4, hext =>
    simp only [decodeExtendedOp] at hext
    obtain ⟨⟨v, len⟩, hv, hext⟩ := Option.bind_eq_some_iff.mp hext
    split at hext
    · obtain rfl := Option.some.inj hext
      obtain ⟨r, hr⟩ := getLeb128Unsigned_len hv
      refine ⟨{ t with registers := { t.registers with discriminator := r.setWidth 32 } },
        ?_, rfl, by simp [exec]⟩
      rw [hr]
      rfl
    · cases hext
  | _ + 5, hext => exact absurd (Option.some.inj hext).symm hknown

/-! ## One instruction and a whole program -/

theorem decode_cons {opcode : Byte} {i : LineInstruction}
    (hdec : decode h (opcode :: operands) = some i) :
    ∃ op size, i = ⟨opcode.toNat, op, size⟩ ∧ size ≤ operands.length + 1 ∧
      decodeOp h opcode operands = some (op, size) := by
  unfold decode at hdec
  obtain ⟨⟨op, size⟩, hop, hdec⟩ := Option.bind_eq_some_iff.mp hdec
  simp only at hdec
  split at hdec
  · rename_i hle
    exact ⟨op, size, (Option.some.inj hdec).symm, hle, hop⟩
  · cases hdec

theorem decodeStandard_unknown {opcode : Nat} (hge : 13 ≤ opcode)
    (hdec : decodeStandard h opcode operands = some (op, size)) : op = .unknownStandard := by
  obtain ⟨k, rfl⟩ : ∃ k, opcode = k + 13 := ⟨opcode - 13, by omega⟩
  simp only [decodeStandard] at hdec
  obtain ⟨count, -, hdec⟩ := Option.bind_eq_some_iff.mp hdec
  obtain ⟨len, -, hdec⟩ := Option.bind_eq_some_iff.mp hdec
  exact (congrArg Prod.fst (Option.some.inj hdec)).symm

/-- **One operation**, whatever the table: the code takes the bytes the operation
has and does what the state machine does. -/
theorem executeInstruction_eq {bytes : List Byte} {i : LineInstruction}
    (hdec : decode h bytes = some i) (hmeet : h.Meets i) :
    ∃ t', t.executeInstruction h bytes = some (t', i.size) ∧ Simulates h t i.op t' ∧
      i.size ≤ bytes.length := by
  cases bytes with
  | nil => simp [decode] at hdec
  | cons opcode operands =>
    obtain ⟨op, size, rfl, hle, hop⟩ := decode_cons hdec
    have hne := hmeet.1
    simp only at hne
    unfold decodeOp at hop
    rw [executeInstruction]
    by_cases hbase : h.opcodeBase.toNat ≤ opcode.toNat
    · rw [if_pos hbase] at hop
      obtain ⟨rfl, rfl⟩ : LineOp.special (opcode.toNat - h.opcodeBase.toNat) = op ∧ 1 = size := by
        simpa using hop
      rw [if_neg (by omega)]
      exact ⟨_, rfl, executeSpecialOpcode_eq hbase hmeet.2, hle⟩
    · rw [if_neg hbase] at hop
      rw [if_pos (by omega)]
      by_cases hzero : opcode.toNat = 0
      · rw [if_pos hzero] at hop ⊢
        rw [hzero] at hmeet
        obtain ⟨t', ht', hsim⟩ := executeExtendedOpcode_eq (t := t) hop hmeet
        exact ⟨t', ht', hsim, hle⟩
      · rw [if_neg hzero] at hop ⊢
        have hget := h.opcodes_length
        obtain ⟨n, hn⟩ : ∃ n, h.opcodes[opcode.toNat - 1]? = some n :=
          ⟨_, List.getElem?_eq_getElem (by omega)⟩
        by_cases hknown : opcode.toNat ≤ 12
        · obtain ⟨t', ht', hsim⟩ := standardCase_eq (t := t) (by omega) hknown hop hmeet
            (h.standardOperands_get hn (by omega))
          refine ⟨t', ?_, hsim, hle⟩
          rw [executeStandardOpcode, hn]
          exact ht'
        · obtain rfl := decodeStandard_unknown (by omega) hop
          exact absurd hmeet.2 id

theorem decodeStandard_pos {opcode : Nat}
    (hdec : decodeStandard h opcode operands = some (op, size)) : 0 < size := by
  have hunsigned : ∀ mk, unsignedOp mk operands = some (op, size) → 0 < size := by
    intro mk hmk
    obtain ⟨v, len, -, -, rfl⟩ := unsignedOp_eq hmk
    omega
  have hone : ∀ o, some (o, 1) = some (op, size) → 0 < size := by
    intro o ho
    have := congrArg Prod.snd (Option.some.inj ho)
    simp only at this
    omega
  unfold decodeStandard at hdec
  split at hdec
  any_goals exact hone _ hdec
  any_goals exact hunsigned _ hdec
  · obtain ⟨⟨v, len⟩, -, heq⟩ := Option.map_eq_some_iff.mp hdec
    simp only [Prod.mk.injEq] at heq
    omega
  · obtain ⟨v, -, heq⟩ := Option.map_eq_some_iff.mp hdec
    simp only [Prod.mk.injEq] at heq
    omega
  · obtain ⟨count, -, hdec⟩ := Option.bind_eq_some_iff.mp hdec
    obtain ⟨len, -, hdec⟩ := Option.bind_eq_some_iff.mp hdec
    have := congrArg Prod.snd (Option.some.inj hdec)
    simp only at this
    omega

/-- Every operation takes at least its opcode. -/
theorem size_pos {bytes : List Byte} {i : LineInstruction} (hdec : decode h bytes = some i) :
    0 < i.size := by
  cases bytes with
  | nil => simp [decode] at hdec
  | cons opcode operands =>
    obtain ⟨op, size, rfl, -, hop⟩ := decode_cons hdec
    unfold decodeOp at hop
    split at hop
    · have := congrArg Prod.snd (Option.some.inj hop)
      simp only at this ⊢
      omega
    · split at hop
      · obtain ⟨_, _, _, _, _, -, -, -, -, rfl⟩ := decodeExtended_eq hop
        simp only
        omega
      · exact decodeStandard_pos hop

/-- The loop over a program whose operations meet the conditions. -/
theorem loop_rows {program : List Byte} {is : List LineInstruction}
    (hdec : Decodes h program is) (hmeet : ∀ i ∈ is, h.Meets i) :
    ∀ t : LineInfoTable, ∃ t', loop (programStep h) (is.length + 1) (program, t) =
        some (some t') ∧
      t'.lineInformations.map LineRegisters.row =
        t.lineInformations.map LineRegisters.row ++ rows h t.registers.row is := by
  induction hdec with
  | nil => exact fun t => ⟨t, loop_inr rfl 0, by simp [rows]⟩
  | @cons bytes i is hi _ ih =>
    intro t
    obtain ⟨t₁, hexec, hsim, hle⟩ :=
      executeInstruction_eq (t := t) hi (hmeet i List.mem_cons_self)
    obtain ⟨t', hloop, hrows⟩ := ih (fun j hj => hmeet j (List.mem_cons_of_mem i hj)) t₁
    have hstep : programStep h (bytes, t) = .inl (bytes.drop i.size, t₁) := by
      cases bytes with
      | nil => simp [decode] at hi
      | cons b bytes =>
        simp only [programStep, hexec]
        rw [if_pos hle]
    refine ⟨t', ?_, ?_⟩
    · rw [List.length_cons, loop_inl hstep]
      exact hloop
    · rw [hrows, hsim.registers, hsim.rows, List.append_assoc]
      rfl

/-- **Line programs.** A program that decodes into operations which all meet the
conditions is run to its end, takes exactly its bytes, and yields exactly the rows
of the state machine. -/
theorem runProgram_rows (h : LineHeader) (fileNames : List FileName) {program : List Byte}
    {is : List LineInstruction} (hdec : Decodes h program is) (hmeet : ∀ i ∈ is, h.Meets i) :
    ∃ t, (∃ N, ∀ fuel ≥ N, runProgram h fileNames program fuel = some (some t)) ∧
      t.lineInformations.map LineRegisters.row = rows h (LineSpec.initial h) is := by
  obtain ⟨t, hloop, hrows⟩ := loop_rows hdec hmeet (LineInfoTable.initial h fileNames)
  exact ⟨t, returns_of_loop hloop, hrows⟩

/-! ## The conditions on concrete programs -/

/-- A version 2 header without `DW_LNS_set_prologue_end` and the opcodes after it. -/
def headerBase10 : LineHeader where
  minInsnLength := 1
  defaultIsStmt := 1
  lineBase := -5
  lineRange := 14
  opcodeBase := 10
  opcodes := [0, 1, 1, 1, 1, 0, 0, 0, 1]
  is64Bit := true
  lineRange_pos := by decide
  opcodes_length := by decide
  opcodes_standard := by decide

/-- Set the address, a special opcode, one more instruction by `DW_LNS_advance_pc`, and
the end of the sequence. -/
theorem runProgram_rows_sequence :
    ∃ t, (∃ N, ∀ fuel ≥ N, runProgram headerBase10 []
        [0, 9, 2, 0, 16, 64, 0, 0, 0, 0, 0, 20, 2, 1, 0, 1, 1] fuel = some (some t)) ∧
      t.lineInformations.map LineRegisters.row =
        [⟨0x401000, 1, 6, 0, true, false, false⟩, ⟨0x401001, 1, 6, 0, true, false, true⟩] :=
  runProgram_rows headerBase10 []
    (show Decodes headerBase10 _ [⟨0, .extended 1 (.setAddress 0x401000), 11⟩, ⟨20, .special 10, 1⟩,
        ⟨2, .advancePc 1, 2⟩, ⟨0, .extended 1 .endSequence, 3⟩] from
      .cons (by decide) (.cons (by decide) (.cons (by decide) (.cons (by decide) .nil))))
    (by
      intro i hi
      simp only [List.mem_cons, List.not_mem_nil, or_false] at hi
      rcases hi with rfl | rfl | rfl | rfl <;> exact ⟨by decide, by decide⟩)

/-- Opcode 9 is `DW_LNS_fixed_advance_pc` under this header, but the code takes it for
a special opcode: it emits a row for it, and reads its operand as two more opcodes. -/
theorem fixedAdvancePc_misread :
    ∃ is, Decodes headerBase10 [9, 6, 6, 1] is ∧
      rows headerBase10 (LineSpec.initial headerBase10) is =
        [⟨0x606, 1, 1, 0, true, false, false⟩] ∧
      ∃ t, runProgram headerBase10 [] [9, 6, 6, 1] 5 = some (some t) ∧
        t.lineInformations.map LineRegisters.row =
          [⟨18, 1, 0xffffffff, 0, true, false, false⟩,
            ⟨18, 1, 0xffffffff, 0, true, false, false⟩] :=
  ⟨[⟨9, .fixedAdvancePc 0x606, 3⟩, ⟨1, .copy, 1⟩],
    .cons (by decide) (.cons (by decide) .nil), by decide, _, rfl, by decide⟩

end LineInfoTable

end Pebil
