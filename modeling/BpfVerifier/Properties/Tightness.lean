import BpfVerifier.Properties.Transfers

/-!
# Properties/Tightness — results as tight as tnums allow

A bit a tnum leaves open is open in the set it stands for once two words of the set differ there, so
no other tnum covering the set says more (`Tnum.Sharp.covers_iff`).  Addition, the bit operations,
and the operations of known operands leave open only such bits: what `check_alu` records of their
results is the best tnum there is (`checkAlu_tightest`).
-/

namespace BpfVerifier

namespace Tnum

variable {a b r t : Tnum} {S S' : BitVec 64 → Prop} {g : BitVec 64 → BitVec 64 → BitVec 64}
  {s x z : BitVec 64} {i : ℕ}

/-- **A tnum is sharp for a set of words**: it covers the set, and two words of the set differ at
every bit it leaves open. -/
structure Sharp (r : Tnum) (S : BitVec 64 → Prop) : Prop where
  covers : ∀ z, S z → r.Has z
  opened : ∀ i < 64, r.mask.getLsbD i = true →
    ∃ z z', S z ∧ S z' ∧ z.getLsbD i ≠ z'.getLsbD i

/-- **No tnum says more than a sharp one**: what covers the set covers all the sharp one
describes. -/
theorem Sharp.covers_iff (h : r.Sharp S) (hz : S z) (t : Tnum) :
    (∀ z, S z → t.Has z) ↔ ∀ z, r.Has z → t.Has z := by
  refine ⟨fun ht w hw => ?_, fun ht w hw => ht w (h.covers w hw)⟩
  rw [has_iff] at hw ⊢
  intro i hi
  have hmember (u : BitVec 64) (hu : S u) :
      t.value.getLsbD i = (u.getLsbD i && !t.mask.getLsbD i) := has_iff.mp (ht u hu) i hi
  cases hm : t.mask.getLsbD i with
  | true => simpa [hm] using hmember z hz
  | false =>
    have hall (u : BitVec 64) (hu : S u) : t.value.getLsbD i = u.getLsbD i := by
      simpa [hm] using hmember u hu
    -- the members agree at `i`, so the sharp tnum knows the bit too
    have hknown : r.mask.getLsbD i = false := by
      by_contra hne
      obtain ⟨u, u', hu, hu', hdiff⟩ := h.opened i hi (by simpa using hne)
      exact hdiff ((hall u hu).symm.trans (hall u' hu'))
    have hfirst := has_iff.mp (h.covers z hz) i hi
    have hw := hw i hi
    simp only [hknown, Bool.not_false, Bool.and_true] at hfirst hw ⊢
    rw [hall z hz, ← hfirst, hw]

theorem Sharp.congr (h : r.Sharp S) (hiff : ∀ z, S' z ↔ S z) : r.Sharp S' := by
  refine ⟨fun z hz => h.covers z ((hiff z).mp hz), fun i hi hm => ?_⟩
  obtain ⟨z, z', hz, hz', hne⟩ := h.opened i hi hm
  exact ⟨z, z', (hiff z).mpr hz, (hiff z').mpr hz', hne⟩

/-- An open bit is clear in the least described word and set in the greatest. -/
theorem Wf.extremes_of_open (h : a.Wf) (hi : i < 64) (hm : a.mask.getLsbD i = true) :
    a.value.getLsbD i = false ∧ a.maxValue.getLsbD i = true :=
  ⟨wf_iff.mp h i hi hm, by simp [maxValue, hm]⟩

/-- A tnum is sharp for its words. -/
theorem Wf.sharp (h : t.Wf) : t.Sharp t.Has := by
  refine ⟨fun _ hz => hz, fun i hi hm => ⟨_, _, h.has_value, h.has_maxValue, ?_⟩⟩
  rw [(h.extremes_of_open hi hm).1, (h.extremes_of_open hi hm).2]
  decide

/-- A constant leaves nothing open. -/
theorem sharp_constant (h : ∀ z, S z → z = x) : (constant x).Sharp S :=
  ⟨fun z hz => has_constant.mpr (h z hz), fun i _ hm => by simp [constant] at hm⟩

/-- Truncation keeps a tnum sharp. -/
theorem Sharp.trunc32 (h : r.Sharp S) :
    r.trunc32.Sharp fun w => ∃ z, S z ∧ z &&& 0xFFFFFFFF = w := by
  constructor
  · rintro _ ⟨z, hz, rfl⟩
    exact (h.covers z hz).trunc32
  · intro i hi hm
    simp only [Tnum.trunc32, BitVec.getLsbD_and, Bool.and_eq_true] at hm
    obtain ⟨hopen, hlow⟩ := hm
    obtain ⟨z, z', hz, hz', hne⟩ := h.opened i hi hopen
    refine ⟨_, _, ⟨z, hz, rfl⟩, ⟨z', hz', rfl⟩, ?_⟩
    simpa only [BitVec.getLsbD_and, hlow, Bool.and_true] using hne

/-! ## The operations -/

/-- The results of an operation on described operands. -/
def Results (g : BitVec 64 → BitVec 64 → BitVec 64) (a b : Tnum) (z : BitVec 64) : Prop :=
  ∃ x y, a.Has x ∧ b.Has y ∧ g x y = z

/-- A tnum that covers the results is sharp when two of them differ at every bit it leaves open. -/
theorem sharp_of (hcov : ∀ x y, a.Has x → b.Has y → r.Has (g x y))
    (hopen : ∀ i < 64, r.mask.getLsbD i = true → ∃ x y x' y', (a.Has x ∧ b.Has y) ∧
      (a.Has x' ∧ b.Has y') ∧ (g x y).getLsbD i ≠ (g x' y').getLsbD i) :
    r.Sharp (Results g a b) := by
  constructor
  · rintro _ ⟨x, y, hx, hy, rfl⟩
    exact hcov x y hx hy
  · intro i hi hm
    obtain ⟨x, y, x', y', ⟨hx, hy⟩, ⟨hx', hy'⟩, hne⟩ := hopen i hi hm
    exact ⟨_, _, ⟨x, y, hx, hy, rfl⟩, ⟨x', y', hx', hy', rfl⟩, hne⟩

theorem sharp_and (ha : a.Wf) (hb : b.Wf) : (a.and b).Sharp (Results (· &&& ·) a b) := by
  refine sharp_of (fun _ _ hx hy => hx.and hy) fun i hi hm => ?_
  refine ⟨_, _, _, _, ⟨ha.has_maxValue, hb.has_maxValue⟩, ⟨ha.has_value, hb.has_value⟩, ?_⟩
  simp only [Tnum.and, BitVec.getLsbD_and, BitVec.getLsbD_or, BitVec.getLsbD_not, hi, decide_true,
    Bool.true_and, Bool.and_eq_true, Bool.not_eq_true'] at hm
  obtain ⟨⟨hmax, hmax'⟩, hv⟩ := hm
  simp only [maxValue, BitVec.getLsbD_and, BitVec.getLsbD_or, hmax, hmax', hv]
  decide

theorem sharp_or (ha : a.Wf) (hb : b.Wf) : (a.or b).Sharp (Results (· ||| ·) a b) := by
  refine sharp_of (fun _ _ hx hy => hx.or hy) fun i hi hm => ?_
  refine ⟨_, _, _, _, ⟨ha.has_maxValue, hb.has_maxValue⟩, ⟨ha.has_value, hb.has_value⟩, ?_⟩
  simp only [Tnum.or, BitVec.getLsbD_and, BitVec.getLsbD_or, BitVec.getLsbD_not, hi, decide_true,
    Bool.true_and, Bool.and_eq_true, Bool.not_eq_true'] at hm
  obtain ⟨hopen, hv⟩ := hm
  simp only [maxValue, BitVec.getLsbD_or, hv]
  cases hma : a.mask.getLsbD i with
  | true => simp
  | false => simp [show b.mask.getLsbD i = true by simpa [hma] using hopen]

theorem sharp_xor (ha : a.Wf) (hb : b.Wf) : (a.xor b).Sharp (Results (· ^^^ ·) a b) := by
  refine sharp_of (fun _ _ hx hy => hx.xor hy) fun i hi hm => ?_
  simp only [Tnum.xor, BitVec.getLsbD_or, Bool.or_eq_true] at hm
  -- the operand that is open there takes both its extremes, the other one keeps still
  rcases hm with hma | hmb
  · refine ⟨_, _, _, _, ⟨ha.has_maxValue, hb.has_value⟩, ⟨ha.has_value, hb.has_value⟩, ?_⟩
    simp [ha.extremes_of_open hi hma]
  · refine ⟨_, _, _, _, ⟨ha.has_value, hb.has_maxValue⟩, ⟨ha.has_value, hb.has_value⟩, ?_⟩
    simp [hb.extremes_of_open hi hmb]

/-- Setting an open bit keeps a word described. -/
theorem Wf.has_setBit (h : a.Wf) (hm : a.mask.getLsbD i = true) :
    a.Has (a.value + BitVec.twoPow 64 i) := by
  have hi : i < 64 := BitVec.lt_of_getLsbD hm
  have hclear : a.value.getLsbD i = false := wf_iff.mp h i hi hm
  have hdisjoint : a.value &&& BitVec.twoPow 64 i = 0 := by
    apply BitVec.eq_of_getLsbD_eq
    intro j _
    by_cases hij : i = j
    · subst hij
      simp [hclear]
    · simp [hij]
  rw [BitVec.add_eq_or_of_and_eq_zero _ _ hdisjoint, has_iff]
  intro j hj
  have hvalue := has_iff.mp h.has_value j hj
  by_cases hij : i = j
  · subst hij
    simp [hm, hclear]
  · simpa [hij] using hvalue

/-- Adding a power of two changes its bit. -/
theorem getLsbD_add_twoPow_ne (w : BitVec 64) (hi : i < 64) :
    (w + BitVec.twoPow 64 i).getLsbD i ≠ w.getLsbD i := by
  have hpow : 2 ^ i < 2 ^ 64 := Nat.pow_lt_pow_right (by decide) hi
  have hbit : (w + BitVec.twoPow 64 i).getLsbD i = !w.getLsbD i := by
    rw [← BitVec.testBit_toNat, ← BitVec.testBit_toNat, BitVec.toNat_add, BitVec.toNat_twoPow,
      Nat.mod_eq_of_lt hpow, Nat.testBit_mod_two_pow, Nat.add_comm, Nat.testBit_two_pow_add_eq]
    simp [hi]
  rw [hbit]
  cases w.getLsbD i <;> decide

theorem sharp_add (ha : a.Wf) (hb : b.Wf) : (a.add b).Sharp (Results (· + ·) a b) := by
  refine sharp_of (fun _ _ hx hy => hx.add hy) fun i hi hm => ?_
  have hsigma : a.value + b.value + (a.mask + b.mask) = a.maxValue + b.maxValue := by
    rw [← ha.add_eq_max, ← hb.add_eq_max]
    ac_rfl
  simp only [Tnum.add, hsigma, BitVec.getLsbD_or, Bool.or_eq_true] at hm
  rcases hm with (hchi | hma) | hmb
  · -- a carry that only the greatest sum has
    refine ⟨_, _, _, _, ⟨ha.has_maxValue, hb.has_maxValue⟩, ⟨ha.has_value, hb.has_value⟩, ?_⟩
    rw [BitVec.getLsbD_xor] at hchi
    exact fun heq => by simp [heq] at hchi
  · refine ⟨_, _, _, _, ⟨ha.has_setBit hma, hb.has_value⟩, ⟨ha.has_value, hb.has_value⟩, ?_⟩
    rw [show a.value + BitVec.twoPow 64 i + b.value = a.value + b.value + BitVec.twoPow 64 i by
      ac_rfl]
    exact getLsbD_add_twoPow_ne _ hi
  · refine ⟨_, _, _, _, ⟨ha.has_value, hb.has_setBit hmb⟩, ⟨ha.has_value, hb.has_value⟩, ?_⟩
    rw [← BitVec.add_assoc]
    exact getLsbD_add_twoPow_ne _ hi

/-! A known operand is a constant. -/

theorem Has.eq_constant (h : b.Has s) (hk : b.isKnown = true) : b = constant s := by
  have hmask : b.mask = 0 := by simpa [isKnown] using hk
  rw [h.eq_of_isKnown hk]
  exact congrArg (Tnum.mk b.value) hmask

/-- Subtracting a known number adds its negation. -/
theorem sharp_sub (ha : a.Wf) :
    (a.sub (constant s)).Sharp (Results (· - ·) a (constant s)) := by
  refine (sharp_add ha (wf_constant (-s))).congr fun z => ?_
  constructor
  · rintro ⟨x, y, hx, hy, rfl⟩
    rw [has_constant.mp hy]
    exact ⟨x, -s, hx, has_constant.mpr rfl, (BitVec.sub_eq_add_neg x s).symm⟩
  · rintro ⟨x, y, hx, hy, rfl⟩
    rw [has_constant.mp hy]
    exact ⟨x, s, hx, has_constant.mpr rfl, BitVec.sub_eq_add_neg x s⟩

/-- The least and the greatest operand differ at every bit a shift of them leaves open. -/
theorem sharp_lsh (ha : a.Wf) (hs : s.toNat < 64) :
    (a.lsh (s.setWidth 32)).Sharp (Results (fun x y => x <<< (y.toNat % 64)) a (constant s)) := by
  have hk : (s.setWidth 32).toNat = s.toNat := toNat_setWidth_of_lt hs
  refine sharp_of (fun x y hx hy => ?_) fun i hi hm => ?_
  · rw [has_constant.mp hy, Nat.mod_eq_of_lt hs, ← hk]
    exact hx.lsh (by rwa [hk])
  · refine ⟨a.value, s, a.maxValue, s, ⟨ha.has_value, has_constant.mpr rfl⟩,
      ⟨ha.has_maxValue, has_constant.mpr rfl⟩, ?_⟩
    rw [Tnum.lsh, hk, if_neg (Nat.not_le.mpr hs)] at hm
    simp only [BitVec.getLsbD_shiftLeft, Bool.and_eq_true, Bool.not_eq_true',
      decide_eq_false_iff_not] at hm
    obtain ⟨⟨-, hki⟩, hbit⟩ := hm
    obtain ⟨hv, hmax⟩ := ha.extremes_of_open (by omega) hbit
    simp only [Nat.mod_eq_of_lt hs, BitVec.getLsbD_shiftLeft, hi, hki, hv, hmax]
    decide

theorem sharp_rsh (ha : a.Wf) (hs : s.toNat < 64) :
    (a.rsh (s.setWidth 32)).Sharp (Results (fun x y => x >>> (y.toNat % 64)) a (constant s)) := by
  have hk : (s.setWidth 32).toNat = s.toNat := toNat_setWidth_of_lt hs
  refine sharp_of (fun x y hx hy => ?_) fun i _ hm => ?_
  · rw [has_constant.mp hy, Nat.mod_eq_of_lt hs, ← hk]
    exact hx.rsh (by rwa [hk])
  · refine ⟨a.value, s, a.maxValue, s, ⟨ha.has_value, has_constant.mpr rfl⟩,
      ⟨ha.has_maxValue, has_constant.mpr rfl⟩, ?_⟩
    rw [Tnum.rsh, hk, if_neg (Nat.not_le.mpr hs)] at hm
    rw [BitVec.getLsbD_ushiftRight] at hm
    obtain ⟨hv, hmax⟩ := ha.extremes_of_open (BitVec.lt_of_getLsbD hm) hm
    simp only [Nat.mod_eq_of_lt hs, BitVec.getLsbD_ushiftRight, hv, hmax]
    decide

end Tnum

/-! ## The ALU -/

section

open Tnum

variable {a b t : Tnum} {op : AluOp} {is64 : Bool} {x y s w : BitVec 64}

/-- **The operations whose results are recorded sharply**: a shift or a difference asks for a known
second operand, and what is computed on constants only for two known ones.  The 32-bit operations
that read more than the low halves are left out. -/
def sharpOp (is64 : Bool) (op : AluOp) (dst src : Tnum) : Bool :=
  match op with
  | .mov | .add | .and | .or | .xor => true
  | .sub | .lsh => src.isKnown
  | .rsh => is64 && src.isKnown
  | .mul => dst.isKnown && src.isKnown
  | .div | .mod | .arsh => is64 && (dst.isKnown && src.isKnown)
  | .neg => false

/-- What is sharp on 32 bits is on 64. -/
theorem sharpOp_wide (h : sharpOp is64 op a b = true) : sharpOp true op a b = true := by
  cases op <;> cases is64 <;> first | exact h | cases h

/-- **The 64-bit tnum of a result is sharp.** -/
theorem sharp_aluTnum (ha : a.Has x) (hb : b.Has s) (hop : sharpOp true op a b = true)
    (hmov : op ≠ .mov) (hshift : op = .lsh ∨ op = .rsh ∨ op = .arsh → s.toNat < 64)
    (hdiv : op = .div ∨ op = .mod → s ≠ 0) :
    (aluTnum op a b).Sharp (Results (aluWord op) a b) := by
  -- two known operands have one result
  have hboth (hop' : op = .mul ∨ op = .div ∨ op = .mod ∨ op = .arsh)
      (hk : (a.isKnown && b.isKnown) = true) :
      (aluTnum op a b).Sharp (Results (aluWord op) a b) := by
    obtain ⟨hka, hkb⟩ := Bool.and_eq_true_iff.mp hk
    rw [aluTnum_of_isKnown hop' (fun h => hb.eq_of_isKnown hkb ▸ hdiv h) hka hkb]
    refine sharp_constant ?_
    rintro _ ⟨u, v, hu, hv, rfl⟩
    rw [hu.eq_of_isKnown hka, hv.eq_of_isKnown hkb]
  cases op with
  | mov => exact absurd rfl hmov
  | neg => cases hop
  | add => exact sharp_add ha.wf hb.wf
  | and => exact sharp_and ha.wf hb.wf
  | or => exact sharp_or ha.wf hb.wf
  | xor => exact sharp_xor ha.wf hb.wf
  | sub =>
    obtain rfl := hb.eq_constant hop
    exact sharp_sub ha.wf
  | lsh =>
    obtain rfl := hb.eq_constant hop
    simp only [aluTnum, knownValue_of_isKnown (t := constant s) rfl]
    exact sharp_lsh ha.wf (hshift (by decide))
  | rsh =>
    obtain rfl := hb.eq_constant hop
    simp only [aluTnum, knownValue_of_isKnown (t := constant s) rfl]
    exact sharp_rsh ha.wf (hshift (by decide))
  | mul => exact hboth (by decide) hop
  | div => exact hboth (by decide) hop
  | mod => exact hboth (by decide) hop
  | arsh => exact hboth (by decide) hop

/-- The 32-bit operations among them read the low halves only. -/
theorem truncates_of_sharpOp (hop : sharpOp false op a b = true)
    (hshift : op = .lsh → y.toNat < 32) :
    (aluWord op x y).setWidth 32 = aluWord op (x.setWidth 32) (y.setWidth 32) := by
  cases op with
  | mov => rfl
  | add => exact BitVec.setWidth_add _ _ (by decide)
  | and => exact BitVec.setWidth_and
  | or => exact BitVec.setWidth_or
  | xor => exact BitVec.setWidth_xor
  | mul => exact BitVec.setWidth_mul _ _ (by decide)
  | sub => exact setWidth_sub_32 x y
  | lsh =>
    have hlt := hshift rfl
    have hk : (y.setWidth 32).toNat = y.toNat := toNat_setWidth_of_lt (by omega)
    simp only [aluWord, hk, Nat.mod_eq_of_lt hlt, Nat.mod_eq_of_lt (show y.toNat < 64 by omega)]
    exact setWidth_shiftLeft_32 x _
  | rsh => cases hop
  | div => cases hop
  | mod => cases hop
  | arsh => cases hop
  | neg => cases hop

/-- The tnum kept of a sharp one is sharp for the results of either width. -/
theorem Tnum.Sharp.aluBits (h : t.Sharp (Results (aluWord op) a b)) (hb : b.Has s)
    (hop : sharpOp is64 op a b = true) (hshift : op = .lsh → is64 = false → s.toNat < 32) :
    (if is64 then t else t.trunc32).Sharp (Results (BpfVerifier.aluBits is64 op) a b) := by
  cases is64 with
  | true => exact h
  | false =>
    have hlow (u v : BitVec 64) (hv : b.Has v) :
        aluWord op u v &&& 0xFFFFFFFF = BpfVerifier.aluBits false op u v := by
      rw [← setWidth_setWidth_32, truncates_of_sharpOp hop fun hlsh => ?_]
      · rfl
      · subst hlsh
        rw [hv.eq_of_isKnown hop, ← hb.eq_of_isKnown hop]
        exact hshift rfl rfl
    refine h.trunc32.congr fun w => ?_
    constructor
    · rintro ⟨u, v, hu, hv, rfl⟩
      exact ⟨_, ⟨u, v, hu, hv, rfl⟩, hlow u v hv⟩
    · rintro ⟨_, ⟨u, v, hu, hv, rfl⟩, rfl⟩
      exact ⟨u, v, hu, hv, (hlow u v hv).symm⟩

end

variable {state state' : VerifierState} {insn : BpfInsn} {op : AluOp} {src : Source}
  {is64 : Bool} {pc : ℕ} {loc : Option SourceLoc} {d s : BitVec 64}

/-- The tnum a move leaves. -/
theorem tnum_movState (state : VerifierState) (insn : BpfInsn) (src : Source) (is64 : Bool) :
    (movState (aluSrcState state insn src is64) src is64).tnum =
      if is64 then (aluSrcState state insn src is64).tnum
      else (aluSrcState state insn src is64).tnum.trunc32 := by
  cases is64 with
  | true => cases src <;> rfl
  | false =>
    cases src with
    | reg => rfl
    | imm =>
      -- the immediate has no upper half
      have hlow : insn.immU &&& 0xFFFFFFFF = insn.immU := by
        rw [← setWidth_setWidth_32]
        exact congrArg (BitVec.setWidth 64) (BitVec.setWidth_setWidth_of_le _ (by decide))
      have hmask : (0 : BitVec 64) = 0 &&& 0xFFFFFFFF := by decide
      change Tnum.constant insn.immU = (Tnum.constant insn.immU).trunc32
      exact congrArg₂ Tnum.mk hlow.symm hmask

/-- A move is sharp. -/
theorem sharp_mov {a b : Tnum} {x s : BitVec 64} (ha : a.Has x) (hb : b.Has s) :
    b.Sharp (Tnum.Results (aluWord .mov) a b) := by
  refine hb.wf.sharp.congr fun z => ?_
  constructor
  · rintro ⟨_, y, _, hy, rfl⟩
    exact hy
  · exact fun hz => ⟨x, z, ha, hz, rfl⟩

/-- **The tnum an ALU instruction leaves is sharp** for the machine's results. -/
theorem sharp_checkAlu (hd : (state.get insn.dst).IsWord d)
    (hs : (aluSrcState state insn src is64).IsWord s)
    (h : checkAlu state insn op src is64 pc loc = .ok state')
    (hop : sharpOp is64 op (state.get insn.dst).tnum
      (aluSrcState state insn src is64).tnum = true) :
    (state'.get insn.dst).tnum.Sharp (Tnum.Results (aluBits is64 op) (state.get insn.dst).tnum
      (aluSrcState state insn src is64).tnum) := by
  obtain ⟨r, hr, rfl⟩ := checkAlu_eq_ok h
  rw [get_setAt_self]
  change r.tnum.Sharp _
  have hd' := hd.admits.tnum
  have hs' := hs.admits.tnum
  cases hr with
  | mov hmov =>
    subst hmov
    rw [tnum_movState]
    exact (sharp_mov hd' hs').aluBits hs' hop fun hlsh => by cases hlsh
  | neg hneg _ =>
    subst hneg
    cases hop
  | binary hmov hneg hdiv hshift hb =>
    cases hb with
    | distance hptr _ _ => simp [hd.type, RegType.isPtr] at hptr
    | shift hptr _ _ => simp [hd.type, RegType.isPtr] at hptr
    | swap _ hptr _ => simp [hs.type, RegType.isPtr] at hptr
    | scalar _ _ =>
      have hamount (hsh : op = .lsh ∨ op = .rsh ∨ op = .arsh) : s.toNat ≤ (maxShift is64).toNat :=
        hs.admits.toNat_le (hshift hsh)
      have hmax (is64 : Bool) : (maxShift is64).toNat < 64 := by cases is64 <;> decide
      have hsharp := sharp_aluTnum hd' hs' (sharpOp_wide hop) hmov
        (fun hsh => Nat.lt_of_le_of_lt (hamount hsh) (hmax is64))
        fun hdm => hs.admits.ne_zero (hdiv hdm)
      have hwf : (if is64 then aluTnum op (state.get insn.dst).tnum
          (aluSrcState state insn src is64).tnum
          else (aluTnum op (state.get insn.dst).tnum
            (aluSrcState state insn src is64).tnum).trunc32).Wf := by
        cases is64 with
        | true => exact wf_aluTnum op hd'.wf
        | false => exact (wf_aluTnum op hd'.wf).trunc32
      change ((ofTnum _).refineBounds.tnum).Sharp _
      rw [refineBounds_ofTnum hwf]
      refine hsharp.aluBits hs' hop fun hlsh hnarrow => ?_
      subst hnarrow
      exact Nat.lt_succ_of_le (hamount (Or.inl hlsh))

/-- **What `check_alu` records of a result is the best tnum**: another covers the machine's results
exactly when it covers all the recorded one describes. -/
theorem checkAlu_tightest (hd : (state.get insn.dst).IsWord d)
    (hs : (aluSrcState state insn src is64).IsWord s)
    (h : checkAlu state insn op src is64 pc loc = .ok state')
    (hop : sharpOp is64 op (state.get insn.dst).tnum
      (aluSrcState state insn src is64).tnum = true) (t : Tnum) :
    (∀ x y, (state.get insn.dst).tnum.Has x → (aluSrcState state insn src is64).tnum.Has y →
        t.Has (aluBits is64 op x y)) ↔
      ∀ z, (state'.get insn.dst).tnum.Has z → t.Has z := by
  rw [← (sharp_checkAlu hd hs h hop).covers_iff ⟨d, s, hd.admits.tnum, hs.admits.tnum, rfl⟩ t]
  constructor
  · rintro hall _ ⟨x, y, hx, hy, rfl⟩
    exact hall x y hx hy
  · exact fun hall x y hx hy => hall _ ⟨x, y, hx, hy, rfl⟩

/-- A byte plus one need not be a byte. -/
theorem checkAlu_tightest_byte :
    ¬∀ x y, (byteState.get .r0).tnum.Has x →
      (aluSrcState byteState (.aluImm .add .r0 1) .imm true).tnum.Has y →
      (⟨0, 0xFF⟩ : Tnum).Has (aluBits true .add x y) := by
  intro hall
  have hd : (byteState.get (BpfInsn.aluImm .add .r0 1).dst).IsWord 41 := by decide
  have hs : (aluSrcState byteState (.aluImm .add .r0 1) .imm true).IsWord 1 := by decide
  have h : checkAlu byteState (.aluImm .add .r0 1) .add .imm true 0 none = .ok _ := rfl
  have hcover := (checkAlu_tightest hd hs h rfl ⟨0, 0xFF⟩).mp hall
  exact absurd (hcover 256 (by decide)) (by decide)

end BpfVerifier
