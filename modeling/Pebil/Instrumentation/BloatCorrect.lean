import Pebil.Instrumentation.BloatNops
import Mathlib.Data.List.Forall2
import Mathlib.Tactic.FinCases

/-!
# When `bloat` keeps the program (src/BasicBlock.C:244–307, src/X86Instruction.C:1240–1341)

`ProgramInstruction.Encoded` has what the decoder promises of an instruction: how a relative
branch is encoded, with any prefixes. Of the branches with a displacement of one byte the
code has two forms in mind, `jmp` and the conditional jumps without prefix; on the others,
and on some branches whose displacement has one or two bytes for another reason, an assertion
fails or other instructions come out (`convertBranch_iff`).
-/

namespace Pebil

/-- The legacy and the REX prefixes. -/
def prefixBytes : List (BitVec 8) :=
  [0x26, 0x2E, 0x36, 0x3E, 0x64, 0x65, 0x66, 0x67, 0xF0, 0xF2, 0xF3, 0x40, 0x41, 0x42, 0x43,
    0x44, 0x45, 0x46, 0x47, 0x48, 0x49, 0x4A, 0x4B, 0x4C, 0x4D, 0x4E, 0x4F]

/-- The opcodes of the branches relative to the instruction pointer, their types and the
bytes of their displacements. -/
inductive RelativeOpcode : List (BitVec 8) → X86InstructionType → Nat → Prop
  | shortJump : RelativeOpcode [0xEB] .uncondbr 1
  | shortCond (cc : Fin 16) : RelativeOpcode [0x70 + BitVec.ofNat 8 cc] .condbr 1
  | jrcxz : RelativeOpcode [0xE3] .condbr 1
  | loop (k : Fin 3) : RelativeOpcode [0xE0 + BitVec.ofNat 8 k] .special 1
  | nearJump {n : Nat} : n = 2 ∨ n = 4 → RelativeOpcode [0xE9] .uncondbr n
  | nearCond (cc : Fin 16) {n : Nat} : n = 2 ∨ n = 4 →
      RelativeOpcode [0x0F, 0x80 + BitVec.ofNat 8 cc] .condbr n
  | call {n : Nat} : n = 2 ∨ n = 4 → RelativeOpcode [0xE8] .call n

namespace ProgramInstruction

variable {ℓ : Type*}

/-- The bytes of an instruction with a target operand fit what was decoded: a relative branch
has prefixes, an opcode and the displacement, and an indirect jump, which is unconditional,
has an opcode, an operand byte and the displacement in memory if there is one. -/
structure Encoded (x : ProgramInstruction ℓ) : Prop where
  relative : ∀ op, x.target = some op → op.relative = true → ∃ pre opcode disp,
    x.insnBytes = pre ++ (opcode ++ disp) ∧ (∀ b ∈ pre, b ∈ prefixBytes) ∧
      disp.length = op.bytesUsed ∧ RelativeOpcode opcode x.itype op.bytesUsed
  indirect : ∀ op, x.target = some op → op.relative = false → x.isConditionalBranch = false ∧
    (x.isUnconditionalBranch = true → 0 < op.bytesUsed → 2 < x.insnBytes.length)
  sized : 0 < x.insnBytes.length

/-- A branch with a displacement of eight bits. -/
def IsShort (x : ProgramInstruction ℓ) : Prop :=
  ∃ op, x.target = some op ∧ op.relative = true ∧ op.bytesUsed = 1

/-- `x'` encodes the branch of `x` with a displacement of 32 bits: the same condition, and
linked to the same target. Prefixes may be left out. -/
inductive LongForm (x x' : ProgramInstruction ℓ) : Prop
  | jump {pre keep : List (BitVec 8)} {d : BitVec 8} {v : BitVec 32} :
      x.insnBytes = pre ++ [0xEB, d] → (∀ b ∈ pre, b ∈ prefixBytes) → keep = pre ∨ keep = [] →
      x'.insnBytes = keep ++ 0xE9 :: dwordBytes v → x'.addressAnchor = x.addressAnchor →
      x.addressAnchor.isSome = true → LongForm x x'
  | cond {pre keep : List (BitVec 8)} {cc : Fin 16} {d : BitVec 8} {v : BitVec 32} :
      x.insnBytes = pre ++ [0x70 + BitVec.ofNat 8 cc, d] → (∀ b ∈ pre, b ∈ prefixBytes) →
      keep = pre ∨ keep = [] →
      x'.insnBytes = keep ++ 0x0F :: (0x80 + BitVec.ofNat 8 cc) :: dwordBytes v →
      x'.addressAnchor = x.addressAnchor → x.addressAnchor.isSome = true → LongForm x x'

/-- What becomes of an instruction: a short branch gets its long form, and every other one
stays as it is. -/
def Converted (x x' : ProgramInstruction ℓ) : Prop :=
  (x.IsShort → LongForm x x') ∧ (¬ x.IsShort → x' = x)

/-- If the instruction is a short branch, or a jump whose target operand has less than four
bytes, then it is a `jmp` or a conditional jump of two bytes, with an anchor. -/
def Convertible (x : ProgramInstruction ℓ) : Prop :=
  ∀ op, x.target = some op → (op.relative = true ∧ op.bytesUsed = 1) ∨
      ((x.isUnconditionalBranch = true ∨ x.isConditionalBranch = true) ∧ 0 < op.bytesUsed ∧
        op.bytesUsed < 4) →
    ((∃ d, x.insnBytes = [0xEB, d]) ∨
      ∃ (cc : Fin 16) (d : BitVec 8), x.insnBytes = [0x70 + BitVec.ofNat 8 cc, d]) ∧
      x.addressAnchor.isSome = true

end ProgramInstruction

/-! ## Bytes -/

theorem shortCond_ne (cc : Fin 16) : (0x70 + BitVec.ofNat 8 cc : BitVec 8) ≠ 0xEB ∧
    (0x70 + BitVec.ofNat 8 cc : BitVec 8) ≠ 0xE3 ∧
      ∀ k : Fin 3, (0x70 + BitVec.ofNat 8 cc : BitVec 8) ≠ 0xE0 + BitVec.ofNat 8 k := by
  revert cc
  decide

theorem loop_ne (k : Fin 3) : (0xE0 + BitVec.ofNat 8 k : BitVec 8) ≠ 0xEB := by
  revert k
  decide

/-- The opcode of a long conditional jump is computed from that of the short one. -/
theorem shortCond_add (cc : Fin 16) :
    (0x70 + BitVec.ofNat 8 cc : BitVec 8) + 0x10 = 0x80 + BitVec.ofNat 8 cc := by
  revert cc
  decide

/-- A prefix is no opcode of two bytes, and neither is what a prefix becomes. -/
theorem prefix_ne {b : BitVec 8} (hb : b ∈ prefixBytes) : b ≠ 0x0F ∧ b ≠ 0xE9 ∧
    ∀ cc : Fin 16, b + 0x10 ≠ 0x80 + BitVec.ofNat 8 cc := by
  have hall : ∀ b ∈ prefixBytes, b ≠ 0x0F ∧ b ≠ 0xE9 ∧
      ∀ cc : Fin 16, b + 0x10 ≠ 0x80 + BitVec.ofNat 8 cc := by
    decide
  exact hall b hb

theorem nearCond_ne (cc : Fin 16) : (0x80 + BitVec.ofNat 8 cc : BitVec 8) ≠ 0x0F + 0x10 := by
  revert cc
  decide

namespace ProgramInstruction

variable {ℓ : Type*} {u : Disassembler} {x x' : ProgramInstruction ℓ} {op : TargetOperand}
  {opcode : BitVec 8} {rest : List (BitVec 8)}

/-! ## What the conversion does -/

theorem bytesUsedForTarget_eq (hop : x.target = some op)
    (hjump : x.isUnconditionalBranch = true ∨ x.isConditionalBranch = true) :
    x.bytesUsedForTarget = op.bytesUsed := by
  unfold bytesUsedForTarget
  rw [if_pos (by rcases hjump with h | h <;> simp [h]), hop]

theorem isControl_of_jump
    (hjump : x.isUnconditionalBranch = true ∨ x.isConditionalBranch = true) :
    (x.isControl && !x.isReturn) = true := by
  have htype : x.itype = .uncondbr ∨ x.itype = .condbr := by
    simpa [isUnconditionalBranch, isConditionalBranch] using hjump
  unfold isControl isReturn isConditionalBranch isUnconditionalBranch
  rcases htype with h | h <;> simp [h]

/-- Only a jump with a target operand of less than four bytes changes. -/
theorem convertBranch_eq_self (h : ∀ op, x.target = some op →
    x.isUnconditionalBranch = true ∨ x.isConditionalBranch = true →
      op.bytesUsed = 0 ∨ 4 ≤ op.bytesUsed) : x.convertBranch u = some x := by
  unfold convertBranch
  split
  · unfold convertTo4ByteTargetOperand
    split
    · rename_i op _ _ hop hbytes
      by_cases hjump : x.isUnconditionalBranch = true ∨ x.isConditionalBranch = true
      · rw [if_pos]
        rw [bytesUsedForTarget_eq hop hjump]
        exact h op hop hjump
      · rw [not_or, Bool.not_eq_true, Bool.not_eq_true] at hjump
        simp [hjump.1, hjump.2]
    · rfl
  · rfl

theorem convertBranch_jump (hop : x.target = some op)
    (hjump : x.isUnconditionalBranch = true ∨ x.isConditionalBranch = true)
    (hpos : 0 < op.bytesUsed) (hlt : op.bytesUsed < 4) (hbytes : x.insnBytes = opcode :: rest) :
    x.convertBranch u = if x.isUnconditionalBranch = true then
        if x.sizeInBytes = 2 ∧ x.addressAnchor.isSome = true then
          x.redisassemble u ((opcode - 0x02) :: dwordBytes op.value)
        else none
      else if x.addressAnchor.isSome = true then
        x.redisassemble u
          (0x0F :: (opcode + 0x10) :: (dwordBytes op.value ++ x.insnBytes.drop 6))
      else none := by
  have hused := bytesUsedForTarget_eq hop hjump
  unfold convertBranch
  rw [if_pos (by rw [isControl_of_jump hjump, hused, decide_eq_true hlt]; rfl)]
  unfold convertTo4ByteTargetOperand
  rw [hop, hbytes]
  simp only
  rw [if_neg (by rw [hused]; omega)]
  cases huncond : x.isUnconditionalBranch with
  | true => rfl
  | false =>
    have hcond := hjump.resolve_left (by simp [huncond])
    rw [hcond, if_neg Bool.false_ne_true, if_pos rfl, if_neg Bool.false_ne_true]

/-- A converted instruction has six bytes at most, or as many as before. -/
theorem sizeInBytes_convertBranch (hx' : x.convertBranch u = some x') :
    x'.sizeInBytes ≤ max 6 x.sizeInBytes ∧ (0 < x.sizeInBytes → 0 < x'.sizeInBytes) := by
  have hself : some x = some x' → x'.sizeInBytes ≤ max 6 x.sizeInBytes ∧
      (0 < x.sizeInBytes → 0 < x'.sizeInBytes) := by
    rintro ⟨⟩
    exact ⟨Nat.le_max_right _ _, id⟩
  have hnew : ∀ raw : List (BitVec 8), 0 < raw.length → raw.length ≤ max 6 x.sizeInBytes →
      x.redisassemble u raw = some x' → x'.sizeInBytes ≤ max 6 x.sizeInBytes ∧
        (0 < x.sizeInBytes → 0 < x'.sizeInBytes) := by
    intro raw hpos hle h
    obtain ⟨d, hd, rfl⟩ := Option.map_eq_some_iff.mp h
    have hsized := u.sized raw d hd
    unfold sizeInBytes at *
    simp only [List.length_take]
    omega
  unfold convertBranch at hx'
  split at hx'
  · unfold convertTo4ByteTargetOperand at hx'
    split at hx'
    · rename_i hbytes
      split_ifs at hx'
      · exact hself hx'
      · exact hnew _ (by simp) (by simp [dwordBytes]) hx'
      · refine hnew _ (by simp) ?_ hx'
        -- the bytes behind the sixth stay
        unfold sizeInBytes
        simp only [dwordBytes, List.length_cons, List.length_append, List.length_drop,
          List.length_nil]
        omega
      · exact hself hx'
    · exact hself hx'
  · exact hself hx'

/-! ## Short branches of two bytes -/

/-- A `jmp` of two bytes becomes a near one. -/
theorem convertBranch_shortJump {d : BitVec 8} (hop : x.target = some op)
    (htype : x.itype = .uncondbr) (hused : op.bytesUsed = 1) (hbytes : x.insnBytes = [0xEB, d])
    (hanchor : x.addressAnchor.isSome = true) :
    ∃ x', x.convertBranch u = some x' ∧ LongForm x x' := by
  have huncond : x.isUnconditionalBranch = true := by simp [isUnconditionalBranch, htype]
  rw [convertBranch_jump hop (.inl huncond) (by omega) (by omega) hbytes, if_pos huncond,
    if_pos ⟨by rw [sizeInBytes, hbytes]; rfl, hanchor⟩]
  have hdecode := u.nearJump op.value []
  rw [List.append_nil] at hdecode
  have hopcode : (0xEB - 0x02 : BitVec 8) = 0xE9 := by decide
  rw [redisassemble, hopcode, hdecode]
  have hshort : x.insnBytes = [] ++ [0xEB, d] := hbytes
  exact ⟨_, rfl, .jump hshort (by simp) (.inl rfl) rfl rfl hanchor⟩

/-- A conditional jump of two bytes gets the long opcode of its condition. -/
theorem convertBranch_shortCond {cc : Fin 16} {d : BitVec 8} (hop : x.target = some op)
    (htype : x.itype = .condbr) (hused : op.bytesUsed = 1)
    (hbytes : x.insnBytes = [0x70 + BitVec.ofNat 8 cc, d])
    (hanchor : x.addressAnchor.isSome = true) :
    ∃ x', x.convertBranch u = some x' ∧ LongForm x x' := by
  have hcond : x.isConditionalBranch = true := by simp [isConditionalBranch, htype]
  have huncond : ¬ x.isUnconditionalBranch = true := by simp [isUnconditionalBranch, htype]
  rw [convertBranch_jump hop (.inr hcond) (by omega) (by omega) hbytes, if_neg huncond,
    if_pos hanchor, shortCond_add, hbytes]
  have hdecode := u.nearCond cc op.value []
  rw [redisassemble, List.drop_of_length_le (by simp), hdecode, List.append_nil]
  have hshort : x.insnBytes = [] ++ [0x70 + BitVec.ofNat 8 cc, d] := hbytes
  exact ⟨_, rfl, .cond hshort (by simp) (.inl rfl) rfl rfl hanchor⟩

/-! ## The other jumps with a small operand -/

/-- What comes out of a conditional jump begins with the byte `0F`, and goes on with the
opcode or prefix of the jump, moved by 16. -/
theorem convertBranch_condbr (hop : x.target = some op) (htype : x.itype = .condbr)
    (hpos : 0 < op.bytesUsed) (hlt : op.bytesUsed < 4) (hbytes : x.insnBytes = opcode :: rest)
    (hx' : x.convertBranch u = some x') :
    x.addressAnchor.isSome = true ∧ ∃ tail, x'.insnBytes = [0x0F] ∨
      x'.insnBytes = 0x0F :: (opcode + 0x10) :: tail := by
  have hcond : x.isConditionalBranch = true := by simp [isConditionalBranch, htype]
  have huncond : ¬ x.isUnconditionalBranch = true := by simp [isUnconditionalBranch, htype]
  rw [convertBranch_jump hop (.inr hcond) hpos hlt hbytes, if_neg huncond] at hx'
  split at hx'
  · rename_i hanchor
    refine ⟨hanchor, ?_⟩
    obtain ⟨d, hd, rfl⟩ := Option.map_eq_some_iff.mp hx'
    have hsized := u.sized _ d hd
    obtain ⟨n, hn⟩ : ∃ n, d.sizeInBytes = n + 1 := ⟨d.sizeInBytes - 1, by omega⟩
    simp only [hn, List.take_succ_cons]
    cases n with
    | zero => exact ⟨[], .inl rfl⟩
    | succ n => exact ⟨_, .inr rfl⟩
  · cases hx'

/-- That is a long conditional jump only for a short one without prefix. -/
theorem eq_nil_of_longForm {pre : List (BitVec 8)} {cc : Fin 16} {d : BitVec 8}
    (hbytes : x.insnBytes = pre ++ [0x70 + BitVec.ofNat 8 cc, d])
    (hpre : ∀ b ∈ pre, b ∈ prefixBytes) (hout : ∃ tail, x'.insnBytes = [0x0F] ∨
      x'.insnBytes = 0x0F :: ((x.insnBytes.headD 0) + 0x10) :: tail) (h : LongForm x x') :
    pre = [] := by
  cases pre with
  | nil => rfl
  | cons b pre =>
    exfalso
    have hb := prefix_ne (hpre b List.mem_cons_self)
    cases h with
    | jump hjump _ _ _ _ _ =>
      have := (List.cons.inj (List.append_inj' (hbytes.symm.trans hjump) rfl).2).1
      exact (shortCond_ne cc).1 this
    | @cond pre' keep cc' d' v hcond _ hkeep hx' _ _ =>
      obtain ⟨hpre', -⟩ := List.append_inj' (hbytes.symm.trans hcond) rfl
      obtain ⟨tail, hout⟩ := hout
      rw [hbytes, List.cons_append, List.headD_cons, hx'] at hout
      rcases hkeep with rfl | rfl
      · rw [← hpre'] at hout
        rcases hout with hout | hout <;>
          exact hb.1 (List.cons.inj hout).1
      · rcases hout with hout | hout
        · exact absurd (congrArg List.length hout) (by simp)
        · exact hb.2.2 cc' (List.cons.inj (List.cons.inj hout).2).1.symm

/-- The bytes of a `jmp` or a conditional jump of two bytes. -/
def TwoBytes (x : ProgramInstruction ℓ) : Prop :=
  (∃ d, x.insnBytes = [0xEB, d]) ∨
    ∃ (cc : Fin 16) (d : BitVec 8), x.insnBytes = [0x70 + BitVec.ofNat 8 cc, d]

theorem TwoBytes.length_eq (h : x.TwoBytes) : x.insnBytes.length = 2 := by
  rcases h with ⟨d, h⟩ | ⟨cc, d, h⟩ <;> rw [h] <;> rfl

/-- Two last bytes of which the first is no opcode of a short `jmp` or conditional jump. -/
structure Foreign (b : BitVec 8) : Prop where
  jump : b ≠ 0xEB
  cond : ∀ cc : Fin 16, b ≠ 0x70 + BitVec.ofNat 8 cc

theorem Foreign.not_longForm {pre : List (BitVec 8)} {b d : BitVec 8} (h : Foreign b)
    (hbytes : x.insnBytes = pre ++ [b, d]) : ¬ LongForm x x' := by
  rintro (⟨hjump, -, -, -, -, -⟩ | @⟨_, _, cc, _, _, hcond, -, -, -, -, -⟩)
  · exact h.jump (List.cons.inj (List.append_inj' (hbytes.symm.trans hjump) rfl).2).1
  · exact h.cond cc (List.cons.inj (List.append_inj' (hbytes.symm.trans hcond) rfl).2).1

theorem Foreign.not_twoBytes {pre : List (BitVec 8)} {b d : BitVec 8} (h : Foreign b)
    (hbytes : x.insnBytes = pre ++ [b, d]) : ¬ x.TwoBytes := by
  rintro (⟨d', hshort⟩ | ⟨cc, d', hshort⟩)
  · have hshort : x.insnBytes = [] ++ [0xEB, d'] := hshort
    exact h.jump (List.cons.inj (List.append_inj' (hbytes.symm.trans hshort) rfl).2).1
  · have hshort : x.insnBytes = [] ++ [0x70 + BitVec.ofNat 8 cc, d'] := hshort
    exact h.cond cc (List.cons.inj (List.append_inj' (hbytes.symm.trans hshort) rfl).2).1

/-- A branch of another encoding is converted right on no input. -/
theorem Foreign.iff {pre : List (BitVec 8)} {b d : BitVec 8} (h : Foreign b)
    (hbytes : x.insnBytes = pre ++ [b, d]) (hop : x.target = some op)
    (hrel : op.relative = true) (hused : op.bytesUsed = 1) :
    (∃ x', x.convertBranch u = some x' ∧ Converted x x') ↔ x.Convertible := by
  constructor
  · rintro ⟨x', -, hconverted, -⟩
    exact absurd (hconverted ⟨op, hop, hrel, hused⟩) (h.not_longForm hbytes)
  · intro hconv
    exact absurd (hconv op hop (.inl ⟨hrel, hused⟩)).1 (h.not_twoBytes hbytes)

/-- An instruction whose conversion leaves it alone. -/
theorem converted_self (h : ∀ op, x.target = some op →
    x.isUnconditionalBranch = true ∨ x.isConditionalBranch = true →
      op.bytesUsed = 0 ∨ 4 ≤ op.bytesUsed) (hshort : ¬ x.IsShort) :
    (∃ x', x.convertBranch u = some x' ∧ Converted x x') ↔ x.Convertible := by
  constructor
  · rintro - op hop (⟨hrel, hused⟩ | ⟨hjump, hpos, hlt⟩)
    · exact absurd ⟨op, hop, hrel, hused⟩ hshort
    · rcases h op hop hjump with hzero | hfour <;> omega
  · exact fun _ => ⟨x, convertBranch_eq_self h, fun h => absurd h hshort, fun _ => rfl⟩

/-- A jump with a small operand that is not short ought to stay as it is. -/
theorem not_converted (hop : x.target = some op)
    (hjump : x.isUnconditionalBranch = true ∨ x.isConditionalBranch = true)
    (hpos : 0 < op.bytesUsed) (hlt : op.bytesUsed < 4) (hnot : ¬ x.TwoBytes)
    (h : ∀ x', x.convertBranch u = some x' → ¬ Converted x x') :
    (∃ x', x.convertBranch u = some x' ∧ Converted x x') ↔ x.Convertible := by
  constructor
  · rintro ⟨x', hx', hconverted⟩
    exact absurd hconverted (h x' hx')
  · exact fun hconv => absurd (hconv op hop (.inr ⟨hjump, hpos, hlt⟩)).1 hnot

/-- An unconditional jump with a small operand that is longer than two bytes fails an
assertion. -/
theorem convertBranch_long (hop : x.target = some op) (huncond : x.isUnconditionalBranch = true)
    (hpos : 0 < op.bytesUsed) (hlt : op.bytesUsed < 4) (hlength : 2 < x.insnBytes.length) :
    x.convertBranch u = none := by
  obtain ⟨opcode, rest, hbytes⟩ := List.exists_cons_of_length_pos (by omega : 0 < x.insnBytes.length)
  rw [convertBranch_jump hop (.inl huncond) hpos hlt hbytes, if_pos huncond, if_neg]
  rintro ⟨htwo, -⟩
  unfold sizeInBytes at htwo
  omega

/-- The conversion is right for exactly the convertible instructions. -/
theorem convertBranch_iff (h : x.Encoded) :
    (∃ x', x.convertBranch u = some x' ∧ Converted x x') ↔ x.Convertible := by
  cases hop : x.target with
  | none =>
    refine converted_self (fun op hsome => ?_) ?_
    · rw [hop] at hsome
      cases hsome
    · rintro ⟨op, hsome, -⟩
      rw [hop] at hsome
      cases hsome
  | some op =>
    have honly : ∀ op', x.target = some op' → op' = op := fun op' hop' =>
      (Option.some.inj (hop.symm.trans hop')).symm
    cases hrel : op.relative with
    | false =>
      have hshort : ¬ x.IsShort := by
        rintro ⟨op', hop', hrel', -⟩
        rw [honly op' hop', hrel] at hrel'
        cases hrel'
      obtain ⟨hcond, hlong⟩ := h.indirect op hop hrel
      by_cases hsmall : x.isUnconditionalBranch = true ∧ 0 < op.bytesUsed ∧ op.bytesUsed < 4
      · obtain ⟨huncond, hpos, hlt⟩ := hsmall
        have hlength := hlong huncond hpos
        refine not_converted hop (.inl huncond) hpos hlt (fun htwo => ?_) ?_
        · have := htwo.length_eq
          omega
        · intro x' hx'
          rw [convertBranch_long hop huncond hpos hlt hlength] at hx'
          cases hx'
      · refine converted_self (fun op' hop' hjump => ?_) hshort
        rw [honly op' hop']
        have huncond := hjump.resolve_right (by simp [hcond])
        by_contra hnot
        exact hsmall ⟨huncond, by omega, by omega⟩
    | true =>
      obtain ⟨pre, opcode, disp, hbytes, hpre, hdisp, hopcode⟩ := h.relative op hop hrel
      generalize htype : x.itype = itype at hopcode
      generalize hused : op.bytesUsed = n at hopcode hdisp
      -- a displacement of one byte
      have hone : n = 1 → ∃ d, disp = [d] := fun hn => List.length_eq_one_iff.mp (hdisp.trans hn)
      have hshort : n ≠ 1 → ¬ x.IsShort := by
        rintro hn ⟨op', hop', -, hused'⟩
        rw [honly op' hop'] at hused'
        exact hn (hused.symm.trans hused')
      cases hopcode with
      | shortJump =>
        obtain ⟨d, rfl⟩ := hone rfl
        have huncond : x.isUnconditionalBranch = true := by simp [isUnconditionalBranch, htype]
        by_cases hnil : pre = []
        · subst hnil
          constructor
          · rintro ⟨x', -, hconverted, -⟩ op' hop' -
            refine ⟨.inl ⟨d, hbytes⟩, ?_⟩
            cases hconverted ⟨op, hop, hrel, hused⟩ with
            | jump _ _ _ _ _ hanchor => exact hanchor
            | cond _ _ _ _ _ hanchor => exact hanchor
          · intro hconv
            have hanchor := (hconv op hop (.inl ⟨hrel, hused⟩)).2
            obtain ⟨x', hx', hlong⟩ := convertBranch_shortJump (u := u) hop htype hused hbytes
              hanchor
            exact ⟨x', hx', fun _ => hlong, fun hnot => absurd ⟨op, hop, hrel, hused⟩ hnot⟩
        · -- with a prefix the jump is longer than two bytes
          have hlength : 2 < x.insnBytes.length := by
            have := List.length_pos_of_ne_nil hnil
            rw [hbytes]
            simp
            omega
          refine not_converted hop (.inl huncond) (by omega) (by omega) (fun htwo => ?_) ?_
          · have := htwo.length_eq
            omega
          · intro x' hx'
            rw [convertBranch_long hop huncond (by omega) (by omega) hlength] at hx'
            cases hx'
      | shortCond cc =>
        obtain ⟨d, rfl⟩ := hone rfl
        constructor
        · rintro ⟨x', hx', hconverted, -⟩ op' hop' -
          have hlong := hconverted ⟨op, hop, hrel, hused⟩
          obtain ⟨b, rest, hcons⟩ := List.exists_cons_of_length_pos h.sized
          obtain ⟨hanchor, hout⟩ := convertBranch_condbr hop htype (by omega) (by omega) hcons hx'
          have hhead : b = x.insnBytes.headD 0 := by rw [hcons, List.headD_cons]
          rw [hhead] at hout
          obtain rfl := eq_nil_of_longForm hbytes hpre hout hlong
          exact ⟨.inr ⟨cc, d, hbytes⟩, hanchor⟩
        · intro hconv
          obtain ⟨htwo, hanchor⟩ := hconv op hop (.inl ⟨hrel, hused⟩)
          have hnil : pre = [] := by
            have hlength := TwoBytes.length_eq htwo
            rw [hbytes] at hlength
            simp at hlength
            exact hlength
          subst hnil
          obtain ⟨x', hx', hlong⟩ := convertBranch_shortCond (u := u) hop htype hused hbytes hanchor
          exact ⟨x', hx', fun _ => hlong, fun hnot => absurd ⟨op, hop, hrel, hused⟩ hnot⟩
      | jrcxz =>
        obtain ⟨d, rfl⟩ := hone rfl
        exact Foreign.iff ⟨by decide, fun cc heq => (shortCond_ne cc).2.1 heq.symm⟩ hbytes hop hrel
          hused
      | loop k =>
        obtain ⟨d, rfl⟩ := hone rfl
        exact Foreign.iff ⟨loop_ne k, fun cc heq => (shortCond_ne cc).2.2 k heq.symm⟩ hbytes hop
          hrel hused
      | nearJump hn =>
        have huncond : x.isUnconditionalBranch = true := by simp [isUnconditionalBranch, htype]
        rcases hn with rfl | rfl
        · have hlength : 2 < x.insnBytes.length := by
            rw [hbytes]
            simp [hdisp]
          refine not_converted hop (.inl huncond) (by omega) (by omega) (fun htwo => ?_) ?_
          · have := htwo.length_eq
            omega
          · intro x' hx'
            rw [convertBranch_long hop huncond (by omega) (by omega) hlength] at hx'
            cases hx'
        · refine converted_self (fun op' hop' _ => ?_) (hshort (by decide))
          rw [honly op' hop']
          omega
      | nearCond cc hn =>
        have hcond : x.isConditionalBranch = true := by simp [isConditionalBranch, htype]
        rcases hn with rfl | rfl
        · have hlength : 3 < x.insnBytes.length := by
            rw [hbytes]
            simp [hdisp]
          refine not_converted hop (.inr hcond) (by omega) (by omega) (fun htwo => ?_) ?_
          · have := htwo.length_eq
            omega
          · intro x' hx' hconverted
            have hsame := hconverted.2 (hshort (by decide))
            obtain ⟨b, rest, hcons⟩ := List.exists_cons_of_length_pos h.sized
            obtain ⟨-, tail, hout⟩ := convertBranch_condbr hop htype (by omega) (by omega) hcons hx'
            rw [hsame] at hout
            rcases hout with hout | hout
            · rw [hout] at hlength
              simp at hlength
            · -- a jump with the opcode `0F 1F`, or with `0F` in front of its opcode
              rw [hbytes] at hout hcons
              cases pre with
              | nil =>
                obtain ⟨hb, -⟩ := List.cons.inj hcons
                obtain ⟨-, hout⟩ := List.cons.inj hout
                obtain ⟨hsecond, -⟩ := List.cons.inj hout
                exact nearCond_ne cc (hb ▸ hsecond)
              | cons p pre =>
                exact (prefix_ne (hpre p List.mem_cons_self)).1 (List.cons.inj hout).1
        · refine converted_self (fun op' hop' _ => ?_) (hshort (by decide))
          rw [honly op' hop']
          omega
      | call hn =>
        refine converted_self (fun op' hop' hjump => ?_) (hshort (by omega))
        simp [isUnconditionalBranch, isConditionalBranch, htype] at hjump

end ProgramInstruction

end Pebil
