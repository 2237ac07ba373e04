import BpfVerifier.Codegen.Hints
import BpfVerifier.Machinery.Word
import Mathlib.Data.List.Induction

/-!
# Properties/Hints — which bitwise hints are lemmas

A hint is a lemma about 32-bit words only if its numbers are not negative.  `Origins` follows,
beside the pass, the instruction each tracked value comes from; every hint can be proved exactly
when no bitwise operation works with a negative immediate, its own or the one its operand comes from
(`hints_provable_iff`).
-/

namespace BpfVerifier

/-- **A hint states a lemma of 32-bit words**: its literals are in range, and the equation holds. -/
structure BitwiseHint.Provable (h : BitwiseHint) : Prop where
  dstVal : 0 ≤ h.dstVal.toInt ∧ h.dstVal.toInt < 2 ^ 32
  imm : 0 ≤ h.imm.toInt ∧ h.imm.toInt < 2 ^ 32
  result : 0 ≤ h.result.toInt ∧ h.result.toInt < 2 ^ 32
  states : h.result.toInt =
    (bitwiseOp h.op (BitVec.ofInt 32 h.dstVal.toInt) (BitVec.ofInt 32 h.imm.toInt)).toNat

/-! ## Where a value comes from -/

/-- What the pass does at an opcode. -/
inductive HintKind where
  | const | store | load
  | bitwise (op : AluOp)
  | forget | keep
  deriving DecidableEq, Repr

def hintKind : Opcode → HintKind
  | .alu32 .mov .imm | .alu64 .mov .imm => .const
  | .stx _ => .store
  | .ldx _ => .load
  | .alu32 op .imm | .alu64 op .imm => if isBitwiseOp op then .bitwise op else .forget
  | .alu32 _ .reg | .alu64 _ .reg => .forget
  | _ => .keep

/-- **The pass by what it does.** -/
theorem Hinting.step_eq (s : Hinting) (insn : BpfInsn) : s.step insn =
    match hintKind insn.opcode with
    | .const => s.setReg insn.dst (some insn.immS)
    | .store => s.store insn
    | .load => s.setReg insn.dst (s.stackVals.get insn.offset)
    | .bitwise op => s.bitwise op insn
    | .forget => s.setReg insn.dst none
    | .keep => s := by
  cases hop : insn.opcode with
  | alu64 op src => cases src <;> cases op <;> simp [step, hintKind, hop, isBitwiseOp]
  | alu32 op src => cases src <;> cases op <;> simp [step, hintKind, hop, isBitwiseOp]
  | _ => simp [step, hintKind, hop]

/-- The MOV or bitwise instruction each register and stack offset holds the result of. -/
structure Origins where
  regs : Reg → Option BpfInsn
  slots : AssocMap (BitVec 16) BpfInsn

namespace Origins

def start : Origins := ⟨fun _ => none, .empty⟩

def setReg (o : Origins) (r : Reg) (i : Option BpfInsn) : Origins :=
  { o with regs := Function.update o.regs r i }

def step (o : Origins) (insn : BpfInsn) : Origins :=
  match hintKind insn.opcode with
  | .const => o.setReg insn.dst (some insn)
  | .store =>
    match o.regs insn.src with
    | some i => { o with slots := o.slots.insert insn.offset i }
    | none => { o with slots := o.slots.remove insn.offset }
  | .load => o.setReg insn.dst (o.slots.get insn.offset)
  | .bitwise _ => o.setReg insn.dst ((o.regs insn.dst).map fun _ => insn)
  | .forget => o.setReg insn.dst none
  | .keep => o

end Origins

/-- Where the values come from after a list of instructions. -/
def origins (instructions : List BpfInsn) : Origins := instructions.foldl Origins.step .start

/-- **No negative immediate meets in an instruction** that a hint is emitted for. -/
def NoNegative (o : Origins) (insn : BpfInsn) : Prop :=
  ∀ op, hintKind insn.opcode = .bitwise op → ∀ i, o.regs insn.dst = some i →
    0 ≤ i.imm.toInt ∧ 0 ≤ insn.imm.toInt

/-! ## Values and their origins -/

/-- A value has the sign of the immediate it comes from, and fits 32 signed bits if that is not
negative. -/
def Fits (v : BitVec 64) (i : BpfInsn) : Prop :=
  (0 ≤ i.imm.toInt → 0 ≤ v.toInt ∧ v.toInt < 2 ^ 31) ∧ (i.imm.toInt < 0 → v.toInt < 0)

/-- **The pass knows a value where it has an origin.** -/
structure Hinting.From (s : Hinting) (o : Origins) : Prop where
  regs : ∀ r, Option.Rel Fits (s.regVals r) (o.regs r)
  slots : ∀ off, Option.Rel Fits (s.stackVals.get off) (o.slots.get off)

variable {s : Hinting} {o : Origins} {insn i : BpfInsn} {v : BitVec 64}

theorem fits_immS (insn : BpfInsn) : Fits insn.immS insn := by
  have hread : insn.immS.toInt = insn.imm.toInt := BitVec.toInt_signExtend_of_le (by decide)
  have hlt := BitVec.toInt_lt (x := insn.imm)
  unfold Fits
  rw [hread]
  omega

/-! ## One operation -/

theorem setWidth_bitwiseOp (op : AluOp) (a b : BitVec 32) :
    (bitwiseOp op a b).setWidth 64 = bitwiseOp op (a.setWidth 64) (b.setWidth 64) := by
  cases op <;> simp [bitwiseOp, BitVec.setWidth_and, BitVec.setWidth_or, BitVec.setWidth_xor]

/-- A bitwise operation of small numbers is a small number. -/
theorem toNat_bitwiseOp_lt (op : AluOp) {a b : BitVec 32} (ha : a.toNat < 2 ^ 31)
    (hb : b.toNat < 2 ^ 31) : (bitwiseOp op a b).toNat < 2 ^ 31 := by
  cases op with
  | and => exact BitVec.toNat_and a b ▸ Nat.and_lt_two_pow _ hb
  | or => exact BitVec.toNat_or a b ▸ Nat.or_lt_two_pow ha hb
  | xor => exact BitVec.toNat_xor a b ▸ Nat.xor_lt_two_pow ha hb
  | _ => exact ha

/-- A word that is a small number is the low half of itself. -/
theorem eq_setWidth_ofInt {v : BitVec 64} (h : 0 ≤ v.toInt ∧ v.toInt < 2 ^ 31) :
    v = (BitVec.ofInt 32 v.toInt).setWidth 64 ∧ (BitVec.ofInt 32 v.toInt).toNat < 2 ^ 31 := by
  have hread := Word.toInt_cases v
  have hnat : v.toInt = (v.toNat : ℤ) := by omega
  have hlow : (BitVec.ofInt 32 v.toInt).toNat = v.toNat := by
    rw [hnat, BitVec.ofInt_natCast, BitVec.toNat_ofNat, Nat.mod_eq_of_lt (by omega)]
  refine ⟨BitVec.eq_of_toNat_eq ?_, by omega⟩
  rw [BitVec.toNat_setWidth, hlow, Nat.mod_eq_of_lt v.isLt]

theorem immS_eq_setWidth (h : 0 ≤ insn.imm.toInt) :
    insn.immS = insn.imm.setWidth 64 ∧ insn.imm.toNat < 2 ^ 31 := by
  have hmsb : insn.imm.msb = false := by
    rw [BitVec.msb_eq_toInt]
    simpa using h
  have hlt := BitVec.toInt_lt (x := insn.imm)
  have hnat := BitVec.toInt_eq_toNat_of_msb hmsb
  exact ⟨BitVec.signExtend_eq_setWidth_of_msb_false hmsb, by omega⟩

/-- **Small numbers make a hint that can be proved**, and a small number. -/
theorem provable_of_nonneg (n : ℕ) (op : AluOp) (hv : 0 ≤ v.toInt ∧ v.toInt < 2 ^ 31)
    (himm : 0 ≤ insn.imm.toInt) :
    BitwiseHint.Provable ⟨n, op, v, insn.imm, bitwiseOp op v insn.immS⟩ ∧
      (bitwiseOp op v insn.immS).toInt < 2 ^ 31 := by
  obtain ⟨hvlow, hvlt⟩ := eq_setWidth_ofInt hv
  obtain ⟨himmlow, himmlt⟩ := immS_eq_setWidth himm
  have hresult : bitwiseOp op v insn.immS =
      (bitwiseOp op (BitVec.ofInt 32 v.toInt) insn.imm).setWidth 64 := by
    rw [setWidth_bitwiseOp, ← hvlow, ← himmlow]
  have hlt := toNat_bitwiseOp_lt op hvlt himmlt
  have hread : (bitwiseOp op v insn.immS).toInt =
      (bitwiseOp op (BitVec.ofInt 32 v.toInt) insn.imm).toNat := by
    have hnat : (bitwiseOp op v insn.immS).toNat =
        (bitwiseOp op (BitVec.ofInt 32 v.toInt) insn.imm).toNat := by
      rw [hresult, BitVec.toNat_setWidth, Nat.mod_eq_of_lt (by omega)]
    rw [Word.toInt_eq_of_lt (by omega), hnat]
  have himm32 : BitVec.ofInt 32 insn.imm.toInt = insn.imm := BitVec.ofInt_toInt
  have himmhi := BitVec.toInt_lt (x := insn.imm)
  refine ⟨⟨⟨hv.1, by dsimp only; omega⟩, ⟨himm, by dsimp only; omega⟩, ⟨?_, ?_⟩, ?_⟩, ?_⟩
  · dsimp only
    omega
  · dsimp only
    omega
  · dsimp only
    rw [himm32, hread]
  · omega

/-! ## One instruction -/

theorem rel_cases {α β : Type*} {R : α → β → Prop} {a : Option α} {b : Option β}
    (h : Option.Rel R a b) :
    a = none ∧ b = none ∨ ∃ x y, a = some x ∧ b = some y ∧ R x y := by
  cases h with
  | none => exact Or.inl ⟨rfl, rfl⟩
  | some hxy => exact Or.inr ⟨_, _, rfl, rfl, hxy⟩

theorem Hinting.From.start : Hinting.start.From .start :=
  ⟨fun _ => .none, fun _ => .none⟩

theorem Hinting.From.setReg (h : s.From o) (r : Reg) {v : Option (BitVec 64)}
    {i : Option BpfInsn} (hvi : Option.Rel Fits v i) : (s.setReg r v).From (o.setReg r i) where
  regs r' := by
    by_cases hr : r' = r
    · subst hr
      simpa [Hinting.setReg, Origins.setReg] using hvi
    · simpa [Hinting.setReg, Origins.setReg, hr] using h.regs r'
  slots := h.slots

/-- **One instruction keeps the origins**, where a hint it emits can be proved. -/
theorem Hinting.From.step (h : s.From o) (hnn : NoNegative o insn) :
    (s.step insn).From (o.step insn) := by
  rw [Hinting.step_eq, Origins.step]
  cases hkind : hintKind insn.opcode with
  | const => exact h.setReg _ (.some (fits_immS insn))
  | load => exact h.setReg _ (h.slots insn.offset)
  | forget => exact h.setReg _ .none
  | keep => exact h
  | store =>
    refine ⟨?_, fun off => ?_⟩ <;> rcases rel_cases (h.regs insn.src) with
      ⟨hv, hi⟩ | ⟨v, i, hv, hi, hfits⟩ <;> simp only [Hinting.store, hv, hi]
    · exact h.regs
    · exact h.regs
    · rw [AssocMap.get_remove, AssocMap.get_remove]
      split
      · exact .none
      · exact h.slots off
    · rw [AssocMap.get_insert, AssocMap.get_insert]
      split
      · exact .some hfits
      · exact h.slots off
  | bitwise op =>
    rcases rel_cases (h.regs insn.dst) with ⟨hv, hi⟩ | ⟨v, i, hv, hi, hfits⟩
    · simp only [Hinting.bitwise, hv, hi]
      exact h.setReg _ .none
    · obtain ⟨hi₀, himm⟩ := hnn op hkind i hi
      have hprov := provable_of_nonneg s.hints.length op (hfits.1 hi₀) himm
      have hresult : Fits (bitwiseOp op v insn.immS) insn :=
        ⟨fun _ => ⟨hprov.1.result.1, hprov.2⟩, fun hneg => absurd himm (Int.not_le.mpr hneg)⟩
      have hset := h.setReg insn.dst (.some hresult)
      simp only [Hinting.bitwise, hv, hi]
      exact ⟨hset.regs, hset.slots⟩

/-- An instruction that is not bitwise meets no immediate. -/
theorem noNegative_of_ne (h : ∀ op, hintKind insn.opcode ≠ .bitwise op) : NoNegative o insn :=
  fun op hop => absurd hop (h op)

/-- **The hint of one instruction**, if there is one, can be proved when no negative immediates
meet. -/
theorem Hinting.From.hints_step (h : s.From o) :
    (∀ x ∈ (s.step insn).hints, x.Provable) ↔
      (∀ x ∈ s.hints, x.Provable) ∧ NoNegative o insn := by
  rw [Hinting.step_eq]
  cases hkind : hintKind insn.opcode with
  | bitwise op =>
    rcases rel_cases (h.regs insn.dst) with ⟨hv, hi⟩ | ⟨v, i, hv, hi, hfits⟩
    · simp only [Hinting.bitwise, hv]
      exact (and_iff_left fun _ _ i hi' => by simp [hi] at hi').symm
    · simp only [Hinting.bitwise, hv, List.forall_mem_append, List.forall_mem_singleton]
      refine and_congr_right fun _ => ⟨fun hprov _ _ i' hi' => ?_, fun hnn => ?_⟩
      · obtain rfl := Option.some.inj (hi.symm.trans hi')
        have hdst := hprov.dstVal.1
        refine ⟨?_, hprov.imm.1⟩
        by_contra hneg
        exact absurd (hfits.2 (Int.not_le.mp hneg)) (Int.not_lt.mpr hdst)
      · obtain ⟨hi₀, himm⟩ := hnn op hkind i hi
        exact (provable_of_nonneg _ op (hfits.1 hi₀) himm).1
  | store =>
    have hhints : (s.store insn).hints = s.hints := by
      unfold Hinting.store
      split <;> rfl
    dsimp only
    rw [hhints]
    exact (and_iff_left (noNegative_of_ne (by simp [hkind]))).symm
  | _ => exact (and_iff_left (noNegative_of_ne (by simp [hkind]))).symm

/-- Hints stay. -/
theorem Hinting.mem_hints_step {x : BitwiseHint} (hx : x ∈ s.hints) :
    x ∈ (s.step insn).hints := by
  rw [Hinting.step_eq]
  cases hintKind insn.opcode with
  | bitwise op =>
    simp only [Hinting.bitwise]
    split
    · exact List.mem_append_left _ hx
    · exact hx
  | store =>
    simp only [Hinting.store]
    split <;> exact hx
  | _ => exact hx

/-! ## Programmes -/

/-- The condition for one more instruction. -/
theorem noNegative_concat {l : List BpfInsn} :
    (∀ k x, (l ++ [insn])[k]? = some x → NoNegative (origins ((l ++ [insn]).take k)) x) ↔
      (∀ k x, l[k]? = some x → NoNegative (origins (l.take k)) x) ∧
        NoNegative (origins l) insn := by
  constructor
  · intro h
    refine ⟨fun k x hk => ?_, ?_⟩
    · have hlt : k < l.length := (List.getElem?_eq_some_iff.mp hk).1
      have hx := h k x (by rwa [List.getElem?_append_left hlt])
      rwa [List.take_append_of_le_length (Nat.le_of_lt hlt)] at hx
    · have hx := h l.length insn (by simp)
      rwa [List.take_left] at hx
  · rintro ⟨h, hlast⟩ k x hk
    rcases Nat.lt_or_ge k l.length with hlt | hge
    · rw [List.getElem?_append_left hlt] at hk
      rw [List.take_append_of_le_length (Nat.le_of_lt hlt)]
      exact h k x hk
    · have hlt := (List.getElem?_eq_some_iff.mp hk).1
      rw [List.length_append, List.length_singleton] at hlt
      obtain rfl : k = l.length := by omega
      rw [List.take_left]
      obtain rfl : insn = x := by simpa using hk
      exact hlast

/-- **Every hint can be proved** exactly when no hint's operation meets a negative immediate. -/
theorem hints_provable_iff (instructions : List BpfInsn) :
    (∀ h ∈ bitwiseHints instructions, h.Provable) ↔
      ∀ k insn, instructions[k]? = some insn → NoNegative (origins (instructions.take k)) insn := by
  -- while the hints can be proved, every tracked value has the sign of its origin
  suffices hboth : ((∀ h ∈ bitwiseHints instructions, h.Provable) ↔
      ∀ k insn, instructions[k]? = some insn → NoNegative (origins (instructions.take k)) insn) ∧
      ((∀ h ∈ bitwiseHints instructions, h.Provable) →
        (instructions.foldl Hinting.step .start).From (origins instructions)) from hboth.1
  induction instructions using List.reverseRecOn with
  | nil => exact ⟨by simp [bitwiseHints, Hinting.start], fun _ => .start⟩
  | append_singleton l insn ih =>
    obtain ⟨hiff, hfrom⟩ := ih
    rw [noNegative_concat, ← hiff]
    simp only [bitwiseHints, origins, List.foldl_concat] at *
    have hstep : (∀ h ∈ ((l.foldl Hinting.step .start).step insn).hints, h.Provable) →
        (l.foldl Hinting.step .start).From (l.foldl Origins.step .start) :=
      fun h => hfrom fun x hx => h x (Hinting.mem_hints_step hx)
    refine ⟨⟨fun h => (hstep h).hints_step.mp h, fun h => (hfrom h.1).hints_step.mpr h⟩,
      fun h => ?_⟩
    exact (hstep h).step ((hstep h).hints_step.mp h).2

/-- `w0 = 5; w0 &= -8`. -/
def masksWithNegative : List BpfInsn := [.aluImm .mov .r0 5, .aluImm .and .r0 (-8)]

/-- **A hint is emitted for a negative mask**, which is no 32-bit literal. -/
theorem not_hints_provable :
    ¬∀ instructions : List BpfInsn, ∀ h ∈ bitwiseHints instructions, h.Provable := by
  intro h
  have hprov := h masksWithNegative ⟨0, .and, 5, -8, 0⟩ (by decide)
  exact absurd hprov.imm.1 (by decide)

end BpfVerifier
