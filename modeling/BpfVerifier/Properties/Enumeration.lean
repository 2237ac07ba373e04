import Mathlib.Data.List.Nodup
import BpfVerifier.Properties.NullPaths

/-!
# Properties/Enumeration — the schedules, and the one the template replaces

Bit `i` of a number below `2 ^ count` is choice `i` of its schedule, so the numbers and the
schedules of `count` choices correspond (`enumerates_enumerateSchedules`).  The template proves the
all-NonNull schedule in place of the first schedule it is given; that is the all-NonNull one exactly
when its abstract path gets to an EXIT, or none does (`replacesNonNull_iff`).
-/

namespace BpfVerifier.Dataflow

/-! ## The enumeration -/

/-- A list of the sequences of `count` choices, each listed once, the all-NonNull one first. -/
structure Enumerates (count : ℕ) (schedules : List (List PathChoice)) : Prop where
  once : ∀ schedule, schedules.count schedule = if schedule.length = count then 1 else 0
  first : schedules[0]? = some (List.replicate count .nonNull)

/-- The schedule of a number. -/
def scheduleOf (count bits : ℕ) : List PathChoice :=
  (List.range count).map fun i => if bits &&& 2 ^ (i % 64) = 0 then .nonNull else .asNull

theorem enumerateSchedules_eq_map (count : ℕ) :
    enumerateSchedules count = (List.range (2 ^ (count % 64))).map (scheduleOf count) := rfl

@[simp] theorem length_scheduleOf (count bits : ℕ) : (scheduleOf count bits).length = count := by
  rw [scheduleOf, List.length_map, List.length_range]

/-- Choice `i` is bit `i`. -/
theorem getElem?_scheduleOf {count bits i : ℕ} (hcount : count < 64) (hi : i < count) :
    (scheduleOf count bits)[i]? = some (if bits.testBit i then .asNull else .nonNull) := by
  have hmod : i % 64 = i := Nat.mod_eq_of_lt (by omega)
  rw [scheduleOf, List.getElem?_map, List.getElem?_range hi, Option.map_some, hmod, Nat.and_two_pow]
  cases bits.testBit i <;> simp

/-- **Two numbers of one schedule are equal**: they have the same bits below `count`, and none
from it on. -/
theorem scheduleOf_inj {count bits bits' : ℕ} (hcount : count < 64) (hbits : bits < 2 ^ count)
    (hbits' : bits' < 2 ^ count) (h : scheduleOf count bits = scheduleOf count bits') :
    bits = bits' := by
  refine Nat.eq_of_testBit_eq fun i => ?_
  rcases Nat.lt_or_ge i count with hi | hi
  · have hchoice : (scheduleOf count bits)[i]? = (scheduleOf count bits')[i]? := by rw [h]
    rw [getElem?_scheduleOf hcount hi, getElem?_scheduleOf hcount hi] at hchoice
    cases hbit : bits.testBit i <;> cases hbit' : bits'.testBit i <;> simp_all
  · have hle : 2 ^ count ≤ 2 ^ i := Nat.pow_le_pow_right (by decide) hi
    rw [Nat.testBit_lt_two_pow (hbits.trans_le hle), Nat.testBit_lt_two_pow (hbits'.trans_le hle)]

theorem nodup_enumerateSchedules {count : ℕ} (hcount : count < 64) :
    (enumerateSchedules count).Nodup := by
  rw [enumerateSchedules_eq_map, Nat.mod_eq_of_lt hcount]
  refine List.Nodup.map_on ?_ List.nodup_range
  intro bits hbits bits' hbits' h
  exact scheduleOf_inj hcount (List.mem_range.mp hbits) (List.mem_range.mp hbits') h

/-- **The schedules listed are the sequences of `count` choices.** -/
theorem mem_enumerateSchedules_iff {count : ℕ} (hcount : count < 64) {schedule : List PathChoice} :
    schedule ∈ enumerateSchedules count ↔ schedule.length = count := by
  refine ⟨fun h => ?_, mem_enumerateSchedules hcount⟩
  rw [enumerateSchedules_eq_map] at h
  obtain ⟨bits, -, rfl⟩ := List.mem_map.mp h
  exact length_scheduleOf count bits

theorem enumerates_enumerateSchedules {count : ℕ} (hcount : count < 64) :
    Enumerates count (enumerateSchedules count) where
  once schedule := by
    rw [(nodup_enumerateSchedules hcount).count]
    simp only [mem_enumerateSchedules_iff hcount]
  first := by
    obtain ⟨rest, hcons⟩ := enumerateSchedules_eq_cons count
    rw [hcons, List.getElem?_cons_zero]

/-! ## The schedule the template replaces -/

/-- The schedule at `loop.index0 = 0`, which the template has no obligation for. -/
def replacedSchedule (dataflow : DataflowResult) : Option Fstar.PathSchedule :=
  (pathSchedules dataflow)[0]?

/-- **The all-NonNull obligation stands in place of the schedule replaced.** -/
theorem pathSchedules_eq (prog : Fstar.BpfProgram) (dataflow : DataflowResult) :
    pathSchedules dataflow =
      (replacedSchedule dataflow).toList ++ (pathObligations prog dataflow).tail := by
  rw [replacedSchedule, pathObligations]
  cases pathSchedules dataflow <;> simp

/-- The schedule replaced is the all-NonNull one of `count` choices. -/
def ReplacesNonNull (count : ℕ) (instructions : List BpfInsn) : Prop :=
  ∀ schedule, replacedSchedule (analyse instructions) = some schedule →
    schedule = (List.replicate count .nonNull).map PathChoice.toFstar

theorem toFstar_injective : Function.Injective PathChoice.toFstar := by
  intro a b h
  cases a <;> cases b <;> first | rfl | cases h

/-- Nothing is replaced where no call is nullable; otherwise the first of the kept schedules is. -/
theorem replacedSchedule_analyse (instructions : List BpfInsn) :
    replacedSchedule (analyse instructions) =
      if countNullableHelpers instructions = 0 then none
      else (keptSchedules instructions)[0]?.map (List.map PathChoice.toFstar) := by
  rw [replacedSchedule]
  split
  · next hzero => simp [analyse, hzero, pathSchedules]
  · next hne => rw [pathSchedules_analyse (Nat.pos_of_ne_zero hne), List.getElem?_map]

theorem replacesNonNull_iff_kept {instructions : List BpfInsn}
    (hcount : 0 < countNullableHelpers instructions) :
    ReplacesNonNull (countNullableHelpers instructions) instructions ↔
      ∀ schedule, (keptSchedules instructions)[0]? = some schedule →
        schedule = List.replicate (countNullableHelpers instructions) .nonNull := by
  rw [ReplacesNonNull, replacedSchedule_analyse, if_neg (by omega)]
  constructor
  · intro h schedule hfirst
    exact List.map_injective_iff.mpr toFstar_injective (h _ (by rw [hfirst, Option.map_some]))
  · intro h schedule hfirst
    obtain ⟨kept, hkept, rfl⟩ := Option.map_eq_some_iff.mp hfirst
    rw [h kept hkept]

/-- The first of the elements kept is the head, unless the head is dropped and another is kept. -/
theorem head_filter_eq_iff {α : Type*} {p : α → Bool} {x : α} {rest : List α} :
    (∀ y, ((x :: rest).filter p)[0]? = some y → y = x) ↔
      p x = true ∨ ∀ y ∈ x :: rest, p y ≠ true := by
  constructor
  · intro h
    by_cases hx : p x = true
    · exact Or.inl hx
    · refine Or.inr fun y hy hpy => hx ?_
      obtain ⟨z, l, hcons⟩ := List.exists_cons_of_ne_nil
        (List.ne_nil_of_mem (List.mem_filter.mpr ⟨hy, hpy⟩))
      have hz : z ∈ (x :: rest).filter p := hcons ▸ List.mem_cons_self
      have hzx : z = x := h z (by rw [hcons, List.getElem?_cons_zero])
      exact hzx ▸ (List.mem_filter.mp hz).2
  · rintro (hx | hnone) y hy
    · rw [List.filter_cons_of_pos hx, List.getElem?_cons_zero] at hy
      exact (Option.some.inj hy).symm
    · obtain ⟨hmem, hpy⟩ := List.mem_filter.mp (List.mem_of_getElem? hy)
      exact absurd hpy (hnone y hmem)

/-- **The schedule replaced is the all-NonNull one** exactly when the all-NonNull path gets to an
EXIT, or none does. -/
theorem replacesNonNull_iff {instructions : List BpfInsn}
    (hfew : countNullableHelpers instructions < 64) :
    ReplacesNonNull (countNullableHelpers instructions) instructions ↔
      ReachesExit instructions (List.replicate (countNullableHelpers instructions) .nonNull) ∨
        ∀ schedule, schedule.length = countNullableHelpers instructions →
          ¬ReachesExit instructions schedule := by
  rcases Nat.eq_zero_or_pos (countNullableHelpers instructions) with hzero | hpos
  · -- the empty schedule is the only one, and nothing is replaced
    refine ⟨fun _ => ?_, fun _ schedule h => ?_⟩
    · rw [hzero, List.replicate_zero]
      refine (em (ReachesExit instructions [])).imp_right fun hnot schedule hlen => ?_
      rwa [List.length_eq_zero_iff.mp hlen]
    · rw [replacedSchedule_analyse, if_pos hzero] at h
      cases h
  · obtain ⟨rest, hcons⟩ := enumerateSchedules_eq_cons (countNullableHelpers instructions)
    rw [replacesNonNull_iff_kept hpos, keptSchedules, hcons, head_filter_eq_iff, ← hcons]
    simp only [ne_eq, reachesExit_eq_true_iff, mem_enumerateSchedules_iff hfew]

/-- **The schedules are enumerated**, as long as `2 ^ count` is a `usize`; the one the template
replaces is the all-NonNull one exactly when its path gets to an EXIT, or no path does. -/
theorem enumerates_and_replacesNonNull_iff {count : ℕ} (hcount : 2 ^ count < 2 ^ 64) :
    Enumerates count (enumerateSchedules count) ∧
      ∀ instructions, countNullableHelpers instructions = count →
        (ReplacesNonNull count instructions ↔
          ReachesExit instructions (List.replicate count .nonNull) ∨
            ∀ schedule, schedule.length = count → ¬ReachesExit instructions schedule) := by
  have hfew : count < 64 := (Nat.pow_lt_pow_iff_right (by decide)).mp hcount
  refine ⟨enumerates_enumerateSchedules hfew, ?_⟩
  rintro instructions rfl
  exact replacesNonNull_iff hfew

theorem enumerates_and_replacesNonNull_iff_one :
    Enumerates 1 (enumerateSchedules 1) ∧ ReplacesNonNull 1 checksResult :=
  have h := @enumerates_and_replacesNonNull_iff 1 (by decide)
  ⟨h.1, (h.2 checksResult (by decide)).mpr
    (Or.inl (reachesExit_eq_true_iff.mp (by decide +kernel)))⟩

/-- `call MAP_LOOKUP_ELEM; if r0 = 0 goto +3; r6 = 20; r6 -= 1; if r6 ≠ 0 goto -2; exit`: the loop
takes more steps than the abstract path has. -/
def countsDown : List BpfInsn :=
  [.callHelper 1, .jmpImm .jeq .r0 0 3, .aluImm .mov .r6 20, .aluImm .sub .r6 1,
    .jmpImm .jne .r6 0 (-2), .ret]

/-- **The schedule replaced may be one with an AsNull choice.** -/
theorem not_replacesNonNull : ¬∀ (count : ℕ) (instructions : List BpfInsn), 2 ^ count < 2 ^ 64 →
    countNullableHelpers instructions = count →
      Enumerates count (enumerateSchedules count) ∧ ReplacesNonNull count instructions := by
  intro h
  have hreplaced := (h 1 countsDown (by decide) (by decide)).2 [.AsNull] (by decide +kernel)
  exact absurd hreplaced (by decide)

end BpfVerifier.Dataflow
