import BpfVerifier.Fstar.Environment
import BpfVerifier.Fstar.Steps
import BpfVerifier.Machinery.Agree

/-!
# Fstar/Taint — what of a state the environment has answered

`Taint` says which parts of a state come from the environment, and `taintStep` carries it along a
run. As long as the programme neither tests nor addresses by such a part (`blindTo`), the plain
executor keeps step: `agree_step` is the simulation, up to the tainted parts.
-/

namespace BpfVerifier.Fstar

/-- How a register comes from the environment: not at all, as a number, or with its kind. -/
inductive Level where
  | clean | number | any
  deriving DecidableEq, Repr

/-- The parts of a state that come from the environment; the flags are for the latest entries. -/
structure Taint where
  regs : Reg → Level
  stack : List Bool
  maps : List Bool
  ringbuf : List Bool

namespace Taint

/-- At the entry nothing does. -/
def start : Taint := ⟨fun _ => .clean, [], [], []⟩

variable (τ : Taint)

def setReg (r : Reg) (level : Level) : Taint :=
  { τ with regs := fun i => if i = r then level else τ.regs i }

/-- A register is at most a number of the environment's. -/
def usable (r : Reg) : Bool := τ.regs r ≠ .any

def isClean (r : Reg) : Bool := τ.regs r = .clean

/-- The level of what an operation makes of two numbers. -/
def mixed (dst src : Reg) : Level := if τ.isClean dst && τ.isClean src then .clean else .number

/-- The level of what a load reads. -/
def loaded (st : BpfState) (src : Reg) (off : BitVec 32) (width : MemWidth) : Level :=
  let flag : Bool :=
    match st.regs src with
    | .framePtr ptrOff => AgreeBut.flagAt
        (fun slot => slot.offset = ptrOff + signExtendToInt off ∧ slot.width = width) τ.stack
        st.stack
    | .mapValuePtr id => AgreeBut.flagAt (fun entry => entry.1 = id) τ.maps st.mapValues
    | .ringBufPtr id => AgreeBut.flagAt
        (fun slot => slot.rbId = id ∧ slot.rbOffset = signExtendToInt off ∧ slot.rbWidth = width)
        τ.ringbuf st.ringbuf
    | .ctxPtr _ => true
    | _ => false
  if flag then .number else .clean

/-- A store, of what is or is not the environment's. -/
def store (base : RegVal) (flag : Bool) : Taint :=
  match base with
  | .framePtr _ => { τ with stack := flag :: τ.stack }
  | .ringBufPtr _ => { τ with ringbuf := flag :: τ.ringbuf }
  | _ => τ

/-- The side effect of a helper leaves a zero of the model's. -/
def effect (st : BpfState) (eff : HelperEffect) : Taint :=
  match eff, st.regs .r1 with
  | .ReadIntoPtr, .framePtr _ => { τ with stack := false :: τ.stack }
  | _, _ => τ

/-- A call: r0 is a number of the environment's unless it is a pointer, and r1–r5 are the
environment's. -/
def call (st : BpfState) (spec : HelperSpec) : Taint :=
  let τ := τ.effect st spec.sideEffect
  { τ with
    regs := fun r =>
      if argRegs.contains r then .any
      else if r = .r0 then (if spec.nullable then .clean else .number)
      else τ.regs r
    maps := if spec.retType = .RetMapPtr then true :: τ.maps else τ.maps }

end Taint

/-- What an instruction makes of the taint. -/
def taintStep (τ : Taint) (st : BpfState) : Insn → Taint
  | .alu64Reg op dst src => τ.setReg dst (if op = .mov then τ.regs src else τ.mixed dst src)
  | .alu64Imm op dst _ => τ.setReg dst (if op = .mov then .clean else τ.regs dst)
  | .alu32Reg op dst src => τ.setReg dst (if op = .mov then τ.regs src else τ.mixed dst src)
  | .alu32Imm op dst _ => τ.setReg dst (if op = .mov then .clean else τ.regs dst)
  | .ldImm64 dst _ => τ.setReg dst .clean
  | .ldx width dst src off => τ.setReg dst (τ.loaded st src off width)
  | .stx _ dst src _ => τ.store (st.regs dst) (!τ.isClean src)
  | .st _ dst _ _ => τ.store (st.regs dst) false
  | .call hid =>
    match getHelperSpec hid with
    | some spec => τ.call st spec
    | none => τ
  | _ => τ

/-- **An instruction that does not depend on what the environment answered**: it tests no tainted
register, addresses by none, and uses one of unknown kind only to copy it. -/
def blindTo (τ : Taint) : Insn → Bool
  | .alu64Reg op dst src => op = .mov || τ.usable dst && τ.usable src
  | .alu64Imm op dst _ => op = .mov || τ.usable dst
  | .alu32Reg op dst src => (op = .mov || τ.usable dst) && τ.usable src
  | .alu32Imm op dst _ => op = .mov || τ.usable dst
  | .ldImm64 _ _ => true
  | .ldx _ _ src _ => τ.usable src
  | .stx _ dst src _ => τ.usable dst && τ.usable src
  | .st _ dst _ _ => τ.usable dst
  | .jmp64Reg _ dst src _ | .jmp32Reg _ dst src _ => τ.isClean dst && τ.isClean src
  | .jmp64Imm _ dst _ _ | .jmp32Imm _ dst _ _ => τ.isClean dst
  | .jmpJa _ => true
  | .call hid => (getHelperSpec hid).all fun spec => spec.sideEffect ≠ .ReadIntoPtr || τ.usable .r1
  | .exit => true

/-! ## States that agree but for the taint -/

/-- Two values agree at a level. -/
def Level.Agree : Level → RegVal → RegVal → Prop
  | .clean, v, v' => v = v'
  | .number, v, v' => ∃ n n', v = .scalar n ∧ v' = .scalar n'
  | .any, _, _ => True

/-- Slots of one offset and width. -/
def SameSlot (a b : StackSlot) : Prop := a.offset = b.offset ∧ a.width = b.width

/-- Map values of one lookup. -/
def SameLookup (a b : ℕ × BitVec 64) : Prop := a.1 = b.1

/-- Slots of one place in a ring-buffer record. -/
def SameRecord (a b : RingbufSlot) : Prop :=
  a.rbId = b.rbId ∧ a.rbOffset = b.rbOffset ∧ a.rbWidth = b.rbWidth

/-- **Two states agree but for the taint.** -/
structure Agrees (τ : Taint) (st st' : BpfState) : Prop where
  regs : ∀ r, (τ.regs r).Agree (st.regs r) (st'.regs r)
  pc : st.pc = st'.pc
  stack : AgreeBut SameSlot τ.stack st.stack st'.stack
  maps : AgreeBut SameLookup τ.maps st.mapValues st'.mapValues
  ringbuf : AgreeBut SameRecord τ.ringbuf st.ringbuf st'.ringbuf
  nextMapId : st.nextMapId = st'.nextMapId
  origins : st.regOrigins = st'.regOrigins

theorem Agrees.start (st : BpfState) : Agrees Taint.start st st where
  regs _ := rfl
  pc := rfl
  stack := .same _
  maps := .same _
  ringbuf := .same _
  nextMapId := rfl
  origins := rfl

section

variable {τ : Taint} {s t s' : BpfState} {r : Reg}

/-- A clean register holds the same in both states. -/
theorem Agrees.clean (h : Agrees τ s t) (hr : τ.isClean r = true) : t.regs r = s.regs r := by
  have hagree := h.regs r
  rw [show τ.regs r = .clean by simpa [Taint.isClean] using hr] at hagree
  exact hagree.symm

/-- A number in a usable register is one in both states, and the same if the register is clean. -/
theorem Agrees.scalar (h : Agrees τ s t) (hr : τ.usable r = true) {n : BitVec 64}
    (hn : s.regs r = .scalar n) :
    ∃ n', t.regs r = .scalar n' ∧ (τ.isClean r = true → n' = n) := by
  have hagree := h.regs r
  cases hlevel : τ.regs r with
  | clean =>
    rw [hlevel, hn] at hagree
    exact ⟨n, hagree.symm, fun _ => rfl⟩
  | number =>
    rw [hlevel] at hagree
    obtain ⟨-, n', -, hn'⟩ := hagree
    exact ⟨n', hn', fun hc => by simp [Taint.isClean, hlevel] at hc⟩
  | any => simp [Taint.usable, hlevel] at hr

/-- A pointer in a usable register is clean, so in the other state too. -/
theorem Agrees.pointer (h : Agrees τ s t) (hr : τ.usable r = true)
    (hptr : ∀ n, s.regs r ≠ .scalar n) : τ.regs r = .clean ∧ t.regs r = s.regs r := by
  have hagree := h.regs r
  cases hlevel : τ.regs r with
  | clean =>
    rw [hlevel] at hagree
    exact ⟨rfl, hagree.symm⟩
  | number =>
    rw [hlevel] at hagree
    obtain ⟨n, -, hn, -⟩ := hagree
    exact absurd hn (hptr n)
  | any => simp [Taint.usable, hlevel] at hr

/-- Both states write a register, at a level where the values agree. -/
theorem Agrees.setReg (h : Agrees τ s t) (dst : Reg) {level : Level} {v v' : RegVal}
    (hv : level.Agree v v') : Agrees (τ.setReg dst level) (s.setReg dst v) (t.setReg dst v') where
  regs r := by
    simp only [Taint.setReg, BpfState.setReg_regs, Fstar.setReg]
    split
    · exact hv
    · exact h.regs r
  pc := by rw [BpfState.setReg_pc, BpfState.setReg_pc, h.pc]
  stack := h.stack
  maps := h.maps
  ringbuf := h.ringbuf
  nextMapId := h.nextMapId
  origins := by
    funext r
    simp only [BpfState.setReg, BpfState.originsAt, BpfState.origin, h.pc, h.origins]

/-- Both states jump alike. -/
theorem Agrees.jump (h : Agrees τ s t) (pc : Int) : Agrees τ (s.jump pc) (t.jump pc) :=
  { h with pc := rfl }

/-- **An operation on numbers**: both states get a number, the same one when all was clean. -/
theorem Agrees.setNumber (h : Agrees τ s t) (dst : Reg) {level : Level} {o o' : Option (BitVec 64)}
    (hs : s.setNumber dst o = some s') (ho : o'.isSome = true) (hnot : level ≠ .any)
    (hclean : level = .clean → o' = o) :
    ∃ t', t.setNumber dst o' = some t' ∧ Agrees (τ.setReg dst level) s' t' := by
  obtain ⟨n, rfl, rfl⟩ := setNumber_eq_some.mp hs
  obtain ⟨n', rfl⟩ := Option.isSome_iff_exists.mp ho
  refine ⟨_, rfl, h.setReg dst ?_⟩
  cases level with
  | clean =>
    obtain rfl := Option.some.inj (hclean rfl)
    rfl
  | number => exact ⟨n, n', rfl, rfl⟩
  | any => exact absurd rfl hnot

/-! ## Arithmetic -/

theorem mixed_ne_any (τ : Taint) (dst src : Reg) : τ.mixed dst src ≠ .any := by
  unfold Taint.mixed
  split <;> simp

theorem isClean_of_mixed {dst src : Reg} (h : τ.mixed dst src = .clean) :
    τ.isClean dst = true ∧ τ.isClean src = true := by
  unfold Taint.mixed at h
  split at h
  · next hclean => simpa using hclean
  · cases h

theorem ne_any_of_usable (h : τ.usable r = true) : τ.regs r ≠ .any := by
  simpa [Taint.usable] using h

theorem isClean_iff : τ.isClean r = true ↔ τ.regs r = .clean := by
  simp [Taint.isClean]

theorem agree_alu64Reg {op : AluOp} {dst src : Reg} (h : Agrees τ s t)
    (hblind : blindTo τ (.alu64Reg op dst src) = true)
    (hs : execAlu64Reg s op dst src = some s') :
    ∃ t', execAlu64Reg t op dst src = some t' ∧
      Agrees (taintStep τ s (.alu64Reg op dst src)) s' t' := by
  by_cases hop : op = .mov
  · subst hop
    obtain rfl := Option.some.inj hs
    exact ⟨_, rfl, h.setReg dst (h.regs src)⟩
  · simp only [blindTo, hop, decide_false, Bool.false_or, Bool.and_eq_true] at hblind
    obtain ⟨d, n, hd, hn⟩ := operands_of_execAlu64Reg hop hs
    obtain ⟨d', hd', heqd⟩ := h.scalar hblind.1 hd
    obtain ⟨n', hn', heqn⟩ := h.scalar hblind.2 hn
    rw [execAlu64Reg_eq hop hd hn] at hs
    rw [execAlu64Reg_eq hop hd' hn']
    simp only [taintStep, hop, if_false]
    refine h.setNumber dst hs (alu64_isSome op d' n') (mixed_ne_any τ dst src) fun hc => ?_
    rw [heqd (isClean_of_mixed hc).1, heqn (isClean_of_mixed hc).2]

theorem agree_alu64Imm {op : AluOp} {dst : Reg} {imm : BitVec 32} (h : Agrees τ s t)
    (hblind : blindTo τ (.alu64Imm op dst imm) = true)
    (hs : execAlu64Imm s op dst imm = some s') :
    ∃ t', execAlu64Imm t op dst imm = some t' ∧
      Agrees (taintStep τ s (.alu64Imm op dst imm)) s' t' := by
  by_cases hop : op = .mov
  · subst hop
    obtain rfl := Option.some.inj hs
    exact ⟨_, rfl, h.setReg dst rfl⟩
  have husable : τ.usable dst = true := by simpa [blindTo, hop] using hblind
  simp only [taintStep, hop, if_false]
  by_cases hnum : ∃ d, s.regs dst = .scalar d
  · obtain ⟨d, hd⟩ := hnum
    obtain ⟨d', hd', heqd⟩ := h.scalar husable hd
    rw [execAlu64Imm_eq hop hd] at hs
    rw [execAlu64Imm_eq hop hd']
    refine h.setNumber dst hs (alu64_isSome op d' _) (ne_any_of_usable husable) fun hc => ?_
    rw [heqd (isClean_iff.mpr hc)]
  · have hptr (d : BitVec 64) : s.regs dst ≠ .scalar d := fun hd => hnum ⟨d, hd⟩
    obtain ⟨v, rfl, hexec⟩ := execAlu64Imm_pointer hop hptr hs
    obtain ⟨hclean, heq⟩ := h.pointer husable hptr
    refine ⟨_, hexec t heq, h.setReg dst ?_⟩
    rw [hclean]
    rfl

theorem agree_alu32Reg {op : AluOp} {dst src : Reg} (h : Agrees τ s t)
    (hblind : blindTo τ (.alu32Reg op dst src) = true)
    (hs : execAlu32Reg s op dst src = some s') :
    ∃ t', execAlu32Reg t op dst src = some t' ∧
      Agrees (taintStep τ s (.alu32Reg op dst src)) s' t' := by
  simp only [blindTo, Bool.and_eq_true] at hblind
  obtain ⟨hdst, hsrc⟩ := hblind
  obtain ⟨⟨n, hn⟩, hd⟩ := operands_of_execAlu32Reg hs
  obtain ⟨n', hn', heqn⟩ := h.scalar hsrc hn
  by_cases hop : op = .mov
  · subst hop
    rw [execAlu32Reg_mov hn] at hs
    rw [execAlu32Reg_mov hn']
    refine h.setNumber dst hs (alu32_isSome .mov n' n') (ne_any_of_usable hsrc) fun hc => ?_
    rw [heqn (isClean_iff.mpr hc)]
  · obtain ⟨d, hd⟩ := hd.resolve_left hop
    obtain ⟨d', hd', heqd⟩ := h.scalar (by simpa [hop] using hdst) hd
    rw [execAlu32Reg_eq hop hd hn] at hs
    rw [execAlu32Reg_eq hop hd' hn']
    simp only [taintStep, hop, if_false]
    refine h.setNumber dst hs (alu32_isSome op d' n') (mixed_ne_any τ dst src) fun hc => ?_
    rw [heqd (isClean_of_mixed hc).1, heqn (isClean_of_mixed hc).2]

theorem agree_alu32Imm {op : AluOp} {dst : Reg} {imm : BitVec 32} (h : Agrees τ s t)
    (hblind : blindTo τ (.alu32Imm op dst imm) = true)
    (hs : execAlu32Imm s op dst imm = some s') :
    ∃ t', execAlu32Imm t op dst imm = some t' ∧
      Agrees (taintStep τ s (.alu32Imm op dst imm)) s' t' := by
  by_cases hop : op = .mov
  · subst hop
    obtain rfl := Option.some.inj hs
    exact ⟨_, rfl, h.setReg dst rfl⟩
  have husable : τ.usable dst = true := by simpa [blindTo, hop] using hblind
  obtain ⟨d, hd⟩ := operand_of_execAlu32Imm hop hs
  obtain ⟨d', hd', heqd⟩ := h.scalar husable hd
  rw [execAlu32Imm_eq hop hd] at hs
  rw [execAlu32Imm_eq hop hd']
  simp only [taintStep, hop, if_false]
  refine h.setNumber dst hs (alu32_isSome op d' _) (ne_any_of_usable husable) fun hc => ?_
  rw [heqd (isClean_iff.mpr hc)]

/-! ## Memory -/

/-- Two numbers agree at the level of a flag. -/
theorem agree_flag {flag : Bool} {n n' : BitVec 64} (h : flag = false → n' = n) :
    (if flag then Level.number else Level.clean).Agree (.scalar n) (.scalar n') := by
  cases flag with
  | false =>
    obtain rfl := h rfl
    rfl
  | true => exact ⟨n, n', rfl, rfl⟩

theorem Agrees.stackRead (h : Agrees τ s t) (off : Int) (width : MemWidth) {n : BitVec 64}
    (hn : Fstar.stackRead s.stack off width = some n) :
    ∃ n', Fstar.stackRead t.stack off width = some n' ∧
      (AgreeBut.flagAt (fun slot => slot.offset = off ∧ slot.width = width) τ.stack s.stack =
        false → n' = n) := by
  have hfind := h.stack.find? (p := fun slot => slot.offset = off ∧ slot.width = width)
    (fun _ => ⟨rfl, rfl⟩) fun heqv => by rw [heqv.1, heqv.2]
  rw [stackRead_eq] at hn ⊢
  obtain ⟨slot, hslot, rfl⟩ := Option.map_eq_some_iff.mp hn
  rcases hfind with ⟨hnone, -⟩ | ⟨slot', slot'', hs, ht, -, heq⟩
  · rw [hnone] at hslot
    cases hslot
  · obtain rfl := Option.some.inj (hs.symm.trans hslot)
    rw [ht]
    exact ⟨slot''.value, rfl, fun hflag => by rw [heq hflag]⟩

theorem Agrees.mapValueRead (h : Agrees τ s t) (id : ℕ) {n : BitVec 64}
    (hn : Fstar.mapValueRead s.mapValues id = some n) :
    ∃ n', Fstar.mapValueRead t.mapValues id = some n' ∧
      (AgreeBut.flagAt (fun entry => entry.1 = id) τ.maps s.mapValues = false → n' = n) := by
  have hrefl (entry : ℕ × BitVec 64) : SameLookup entry entry := rfl
  have hid {entry entry' : ℕ × BitVec 64} (heqv : SameLookup entry entry') :
      decide (entry.1 = id) = decide (entry'.1 = id) := by
    rw [show entry.1 = entry'.1 from heqv]
  have hfind := h.maps.find? hrefl hid
  rw [mapValueRead_eq] at hn ⊢
  obtain ⟨entry, hentry, rfl⟩ := Option.map_eq_some_iff.mp hn
  rcases hfind with ⟨hnone, -⟩ | ⟨entry', entry'', hs, ht, -, heq⟩
  · rw [hnone] at hentry
    cases hentry
  · obtain rfl := Option.some.inj (hs.symm.trans hentry)
    rw [ht]
    exact ⟨entry''.2, rfl, fun hflag => by rw [heq hflag]⟩

theorem Agrees.ringbufRead (h : Agrees τ s t) (id : ℕ) (off : Int) (width : MemWidth) :
    (Fstar.ringbufRead s.ringbuf id off width = none ∧
      Fstar.ringbufRead t.ringbuf id off width = none) ∨
    ∃ n n', Fstar.ringbufRead s.ringbuf id off width = some n ∧
      Fstar.ringbufRead t.ringbuf id off width = some n' ∧
      (AgreeBut.flagAt (fun slot => slot.rbId = id ∧ slot.rbOffset = off ∧ slot.rbWidth = width)
        τ.ringbuf s.ringbuf = false → n' = n) := by
  have hfind := h.ringbuf.find?
    (p := fun slot => slot.rbId = id ∧ slot.rbOffset = off ∧ slot.rbWidth = width)
    (fun _ => ⟨rfl, rfl, rfl⟩) fun heqv => by rw [heqv.1, heqv.2.1, heqv.2.2]
  rw [ringbufRead_eq, ringbufRead_eq]
  rcases hfind with ⟨hs, ht⟩ | ⟨slot, slot', hs, ht, -, heq⟩
  · exact Or.inl ⟨by rw [hs]; rfl, by rw [ht]; rfl⟩
  · exact Or.inr ⟨slot.rbValue, slot'.rbValue, by rw [hs]; rfl, by rw [ht]; rfl,
      fun hflag => by rw [heq hflag]⟩

/-- **A load through a usable register** reads alike in both states, but for what is flagged. -/
theorem agree_ldx {a : Answer} {width : MemWidth} {dst src : Reg} {off : BitVec 32}
    (h : Agrees τ s t) (husable : τ.usable src = true)
    (hs : execInsnEnv a s (.ldx width dst src off) = some s') :
    ∃ t', execInsn t (.ldx width dst src off) = some t' ∧
      Agrees (taintStep τ s (.ldx width dst src off)) s' t' := by
  have hptr (hne : ∀ n, s.regs src ≠ .scalar n) : t.regs src = s.regs src :=
    (h.pointer husable hne).2
  simp only [execInsnEnv, execInsn, execLdxWith] at hs
  simp only [execInsn, execLdxWith, taintStep, Taint.loaded]
  cases hsrc : s.regs src with
  | scalar n => simp [hsrc] at hs
  | null => simp [hsrc] at hs
  | ctxPtr ptrOff =>
    rw [hptr (by simp [hsrc]), hsrc]
    simp only [hsrc, Option.some.injEq] at hs
    subst hs
    exact ⟨_, rfl, h.setReg dst ⟨a.number, 0, rfl, rfl⟩⟩
  | framePtr ptrOff =>
    rw [hptr (by simp [hsrc]), hsrc]
    simp only [hsrc] at hs
    obtain ⟨n, hn, rfl⟩ := setNumber_eq_some.mp hs
    obtain ⟨hvalid, hread⟩ := BpfState.stackLoad_eq_some.mp hn
    obtain ⟨n', hn', heq⟩ := h.stackRead _ _ hread
    exact ⟨_, setNumber_eq_some.mpr ⟨n', BpfState.stackLoad_eq_some.mpr ⟨hvalid, hn'⟩, rfl⟩,
      h.setReg dst (agree_flag heq)⟩
  | mapValuePtr id =>
    rw [hptr (by simp [hsrc]), hsrc]
    simp only [hsrc] at hs
    obtain ⟨n, hn, rfl⟩ := setNumber_eq_some.mp hs
    obtain ⟨n', hn', heq⟩ := h.mapValueRead id hn
    exact ⟨_, setNumber_eq_some.mpr ⟨n', hn', rfl⟩, h.setReg dst (agree_flag heq)⟩
  | ringBufPtr id =>
    rw [hptr (by simp [hsrc]), hsrc]
    simp only [hsrc] at hs
    rcases h.ringbufRead id (signExtendToInt off) width with ⟨hnone, hnone'⟩ | ⟨n, n', hn, hn', heq⟩
    · simp only [hnone, Option.some.injEq] at hs
      subst hs
      dsimp only
      rw [hnone']
      refine ⟨_, rfl, h.setReg dst (agree_flag fun _ => rfl)⟩
    · simp only [hn, Option.some.injEq] at hs
      subst hs
      dsimp only
      rw [hn']
      exact ⟨_, rfl, h.setReg dst (agree_flag heq)⟩

/-- **A store through a usable register** writes the same place in both states. -/
theorem agree_store {width : MemWidth} {dst : Reg} {off : BitVec 32} {v v' : Option (BitVec 64)}
    {flag : Bool} (h : Agrees τ s t) (husable : τ.usable dst = true)
    (hv : ∀ n, v = some n → ∃ n', v' = some n' ∧ (flag = false → n' = n))
    (hs : execStoreWith s s.stackStore width dst off v = some s') :
    ∃ t', execStoreWith t t.stackStore width dst off v' = some t' ∧
      Agrees (τ.store (s.regs dst) flag) s' t' := by
  have hptr (hne : ∀ n, s.regs dst ≠ .scalar n) : t.regs dst = s.regs dst :=
    (h.pointer husable hne).2
  unfold execStoreWith at hs ⊢
  cases hdst : s.regs dst with
  | framePtr ptrOff =>
    rw [hptr (by simp [hdst]), hdst]
    simp only [hdst] at hs
    cases v with
    | none => cases hs
    | some n =>
      obtain ⟨n', rfl, heq⟩ := hv n rfl
      obtain ⟨hvalid, rfl⟩ := BpfState.stackStore_eq_some.mp hs
      refine ⟨_, BpfState.stackStore_eq_some.mpr ⟨hvalid, rfl⟩, ?_⟩
      exact { h with
        pc := by rw [h.pc]
        stack := .cons ⟨rfl, rfl⟩ (fun hflag => by rw [heq hflag]) h.stack }
  | ringBufPtr id =>
    rw [hptr (by simp [hdst]), hdst]
    simp only [hdst] at hs
    cases v with
    | none => cases hs
    | some n =>
      obtain ⟨n', rfl, heq⟩ := hv n rfl
      obtain rfl := Option.some.inj hs
      refine ⟨_, rfl, ?_⟩
      exact { h with
        pc := by simp only [ringbufStore, h.pc]
        ringbuf := .cons ⟨rfl, rfl, rfl⟩ (fun hflag => by rw [heq hflag]) h.ringbuf }
  | _ => simp [hdst] at hs

/-! ## Jumps -/

/-- **A jump that tests clean registers** goes the same way in both states. -/
theorem agree_branch {insn : Insn} {offset : Int} (h : Agrees τ s t)
    (hblind : blindTo τ insn = true) (hoff : insn.branchOffset = some offset)
    (hs : execInsn s insn = some s') :
    ∃ t', execInsn t insn = some t' ∧ Agrees (taintStep τ s insn) s' t' := by
  cases hja : insn.isJa with
  | true =>
    cases insn with
    | jmpJa off =>
      obtain rfl := Option.some.inj hs
      refine ⟨_, rfl, ?_⟩
      rw [BpfState.takenPc, BpfState.takenPc, h.pc]
      exact h.jump _
    | _ => cases hja
  | false =>
    have hcond : insn.condition t = insn.condition s := by
      cases insn with
      | jmp64Reg op dst src off =>
        simp only [blindTo, Bool.and_eq_true] at hblind
        simp only [Insn.condition, h.clean hblind.1, h.clean hblind.2]
      | jmp64Imm op dst imm off => simp only [Insn.condition, h.clean hblind]
      | jmp32Reg op dst src off =>
        simp only [blindTo, Bool.and_eq_true] at hblind
        simp only [Insn.condition, h.clean hblind.1, h.clean hblind.2]
      | jmp32Imm op dst imm off => simp only [Insn.condition, h.clean hblind]
      | _ => rfl
    have htaint : taintStep τ s insn = τ := by
      cases insn <;> first | rfl | cases hoff
    rw [execInsn_branch hoff hja] at hs ⊢
    obtain ⟨c, hc, rfl⟩ := Option.map_eq_some_iff.mp hs
    rw [hcond, hc, htaint]
    refine ⟨_, rfl, ?_⟩
    simp only [BpfState.branch, BpfState.takenPc, h.pc]
    exact h.jump _

/-! ## Calls -/

/-- The side effect of a helper writes the same place in both states. -/
theorem agree_effect {eff : HelperEffect} (h : Agrees τ s t)
    (husable : eff = .ReadIntoPtr → τ.usable .r1 = true) :
    Agrees (τ.effect s eff) (applyHelperEffect s eff) (applyHelperEffect t eff) := by
  cases eff with
  | ReadIntoPtr =>
    cases hr1 : s.regs .r1 with
    | scalar n =>
      obtain ⟨n', hn', -⟩ := h.scalar (husable rfl) hr1
      simpa only [Taint.effect, applyHelperEffect, hr1, hn'] using h
    | framePtr off =>
      have ht : t.regs .r1 = .framePtr off :=
        (h.pointer (husable rfl) (by simp [hr1])).2.trans hr1
      simp only [Taint.effect, applyHelperEffect, hr1, ht]
      exact { h with stack := h.stack.push ⟨rfl, rfl⟩ false }
    | _ =>
      have ht := (h.pointer (husable rfl) (by simp [hr1])).2.trans hr1
      simpa only [Taint.effect, applyHelperEffect, hr1, ht] using h
  | _ => exact h

/-- **A call** agrees in r0 up to a number of the environment's, and in r1–r5 in nothing. -/
theorem agree_call {a : Answer} {spec : HelperSpec} (h : Agrees τ s t)
    (husable : spec.sideEffect = .ReadIntoPtr → τ.usable .r1 = true) :
    ∃ t', execHelper t spec = some t' ∧ Agrees (τ.call s spec) (execHelperEnv a s spec) t' := by
  have heff := agree_effect h husable
  obtain ⟨args, ret, eff⟩ := spec
  -- r0 aside, the two states agree after the call as after the side effect
  have hregs {level : Level} {v v' : RegVal} (hv : level.Agree v v') (r : Reg) :
      (if argRegs.contains r then Level.any else if r = .r0 then level
        else (τ.effect s eff).regs r).Agree
        (if argRegs.contains r then a.args r
          else Fstar.setReg (applyHelperEffect s eff).regs .r0 v r)
        (Fstar.setReg (applyHelperEffect t eff).regs .r0 v' r) := by
    split
    · trivial
    · unfold Fstar.setReg
      split
      · exact hv
      · exact heff.regs r
  have horigins :
      (applyHelperEffect s eff).originsAt .r0 = (applyHelperEffect t eff).originsAt .r0 := by
    funext r
    simp only [BpfState.originsAt, BpfState.origin, heff.pc, heff.origins]
  cases ret with
  | RetMapPtr =>
    have hptr : Level.clean.Agree (.mapValuePtr (applyHelperEffect s eff).nextMapId)
        (.mapValuePtr (applyHelperEffect t eff).nextMapId) :=
      congrArg RegVal.mapValuePtr heff.nextMapId
    refine ⟨_, rfl, ?_⟩
    exact {
      regs := hregs hptr
      pc := by
        simp [execHelperEnv, BpfState.scramble, BpfState.returnsMapPtrTo,
          BpfState.returnsMapPtr, h.pc]
      stack := heff.stack
      maps := .cons heff.nextMapId (fun hb => by cases hb) heff.maps
      ringbuf := heff.ringbuf
      nextMapId := congrArg (· + 1) heff.nextMapId
      origins := horigins }
  | RetRingBufPtr =>
    have hptr : Level.clean.Agree (.ringBufPtr (applyHelperEffect s eff).nextMapId)
        (.ringBufPtr (applyHelperEffect t eff).nextMapId) :=
      congrArg RegVal.ringBufPtr heff.nextMapId
    refine ⟨_, rfl, ?_⟩
    exact {
      regs := hregs hptr
      pc := by simp [execHelperEnv, BpfState.scramble, BpfState.returnsRingBufPtr, h.pc]
      stack := heff.stack
      maps := heff.maps
      ringbuf := heff.ringbuf
      nextMapId := congrArg (· + 1) heff.nextMapId
      origins := horigins }
  | _ =>
    have hnumber : Level.number.Agree (.scalar a.number) (.scalar 0) := ⟨a.number, 0, rfl, rfl⟩
    refine ⟨_, rfl, ?_⟩
    exact {
      regs := hregs hnumber
      pc := by simp [execHelperEnv, BpfState.scramble, BpfState.returns, h.pc]
      stack := heff.stack
      maps := heff.maps
      ringbuf := heff.ringbuf
      nextMapId := heff.nextMapId
      origins := horigins }

/-! ## Steps -/

/-- **The simulation**: a step with an environment that does not depend on its answers is a step of
the plain executor, and the states go on agreeing. -/
theorem agree_step {a : Answer} {insn : Insn} (h : Agrees τ s t) (hblind : blindTo τ insn = true)
    (hs : execInsnEnv a s insn = some s') :
    ∃ t', execInsn t insn = some t' ∧ Agrees (taintStep τ s insn) s' t' := by
  cases insn with
  | alu64Reg op dst src => exact agree_alu64Reg h hblind hs
  | alu64Imm op dst imm => exact agree_alu64Imm h hblind hs
  | alu32Reg op dst src => exact agree_alu32Reg h hblind hs
  | alu32Imm op dst imm => exact agree_alu32Imm h hblind hs
  | ldImm64 dst imm =>
    obtain rfl := Option.some.inj hs
    exact ⟨_, rfl, h.setReg dst rfl⟩
  | ldx width dst src off => exact agree_ldx h hblind hs
  | stx width dst src off =>
    simp only [blindTo, Bool.and_eq_true] at hblind
    refine agree_store h hblind.1 (fun n hn => ?_) hs
    obtain ⟨n', hn', heq⟩ := h.scalar hblind.2 (scalarVal_eq_some.mp hn)
    exact ⟨n', scalarVal_eq_some.mpr hn', fun hflag => heq (by simpa using hflag)⟩
  | st width dst off imm =>
    have hvalue (n : BitVec 64) (hn : some (signExtendImm imm) = some n) :
        ∃ n', some (signExtendImm imm) = some n' ∧ (false = false → n' = n) :=
      ⟨n, hn, fun _ => rfl⟩
    exact agree_store h hblind hvalue hs
  | jmp64Reg op dst src off => exact agree_branch h hblind rfl hs
  | jmp64Imm op dst imm off => exact agree_branch h hblind rfl hs
  | jmp32Reg op dst src off => exact agree_branch h hblind rfl hs
  | jmp32Imm op dst imm off => exact agree_branch h hblind rfl hs
  | jmpJa off => exact agree_branch h hblind rfl hs
  | call hid =>
    simp only [execInsnEnv] at hs
    cases hspec : getHelperSpec hid with
    | none => simp [hspec] at hs
    | some spec =>
      simp only [hspec, Option.some.injEq] at hs
      subst hs
      simp only [execInsn, taintStep, hspec]
      refine agree_call h fun heff => ?_
      simpa [blindTo, hspec, heff] using hblind
  | exit =>
    obtain rfl := Option.some.inj hs
    exact ⟨t, rfl, h⟩

end

end BpfVerifier.Fstar
