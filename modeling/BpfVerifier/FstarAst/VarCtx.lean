import BpfVerifier.FstarAst.ValClass

/-!
# FstarAst/VarCtx — `BPF.VarCtx`, the context of classes a statement is typed in

A list of named classes with lookup by first binding, its update, its refinements by a null check
and its join at a merge of branches.  References live in the classes of a context (`collectRefs`).
-/

namespace BpfVerifier.FstarAst

/-- `var_ctx`. -/
abbrev VarCtx := List (String × ValClass)

namespace VarCtx

def lookup : VarCtx → String → Option ValClass
  | [], _ => none
  | (n, vc) :: rest, name => if n = name then some vc else lookup rest name

def isDeclared (ctx : VarCtx) (name : String) : Bool := (ctx.lookup name).isSome

def isReadable (ctx : VarCtx) (name : String) : Bool :=
  match ctx.lookup name with
  | some vc => vc.isReadable
  | none => false

/-- `get_class`. -/
def getClass (ctx : VarCtx) (name : String) (h : ctx.isDeclared name = true) : ValClass :=
  (ctx.lookup name).get h

/-- `var_type_compatible`. -/
def varTypeCompatible (ctx : VarCtx) (name : String) (t : CType) : Bool :=
  match ctx.lookup name with
  | some vc => valClassCompatible vc t
  | none => false

/-- Replace the class of a variable, or add the variable at the end. -/
def update : VarCtx → String → ValClass → VarCtx
  | [], name, vc => [(name, vc)]
  | (n, old) :: rest, name, vc =>
    if n = name then (n, vc) :: rest else (n, old) :: update rest name vc

def declare (ctx : VarCtx) (name : String) : VarCtx := ctx.update name .Uninit

def assign (ctx : VarCtx) (name : String) (vc : ValClass) : VarCtx := ctx.update name vc

/-- `join_ctx`: the variables of both, with their classes joined where they can be. -/
def joinCtx : VarCtx → VarCtx → VarCtx
  | [], _ => []
  | (name, vc₁) :: rest, ctx₂ =>
    match ctx₂.lookup name with
    | none => joinCtx rest ctx₂
    | some vc₂ =>
      match joinValClass vc₁ vc₂ with
      | some vc => (name, vc) :: joinCtx rest ctx₂
      | none => (name, .Uninit) :: joinCtx rest ctx₂

/-! ## References -/

/-- `collect_refs`. -/
def collectRefs : VarCtx → List RefId
  | [] => []
  | (_, vc) :: rest =>
    if h : isRefcounted vc = true then getRefId vc h :: collectRefs rest else collectRefs rest

/-- `all_refs_released`. -/
def allRefsReleased (ctx : VarCtx) : Bool :=
  match ctx.collectRefs with
  | [] => true
  | _ => false

/-! ## Null checks -/

/-- `refine_not_null`. -/
def refineNotNull (ctx : VarCtx) (name : String) : Option VarCtx :=
  match ctx.lookup name with
  | some vc =>
    if h : needsNullCheck vc = true then some (ctx.update name (promoteAfterNullCheck vc h))
    else none
  | none => none

/-- `refine_is_null`. -/
def refineIsNull (ctx : VarCtx) (name : String) : Option VarCtx :=
  match ctx.lookup name with
  | some vc =>
    if h : needsNullCheck vc = true then some (ctx.update name (demoteAfterNullCheck vc h))
    else none
  | none => none

/-! ## Lookups -/

theorem mem_of_lookup {ctx : VarCtx} {name : String} {vc : ValClass}
    (h : ctx.lookup name = some vc) : (name, vc) ∈ ctx := by
  induction ctx with
  | nil => cases h
  | cons entry rest ih =>
    obtain ⟨n, old⟩ := entry
    rw [lookup] at h
    split at h
    · next heq =>
      obtain rfl := heq
      obtain rfl := Option.some.inj h
      exact List.mem_cons_self
    · exact List.mem_cons_of_mem _ (ih h)

@[simp] theorem lookup_update (ctx : VarCtx) (name : String) (vc : ValClass) :
    (ctx.update name vc).lookup name = some vc := by
  induction ctx with
  | nil => simp [update, lookup]
  | cons entry rest ih =>
    obtain ⟨n, old⟩ := entry
    by_cases h : n = name <;> simp [update, lookup, h, ih]

theorem lookup_update_of_ne (ctx : VarCtx) {name other : String} (vc : ValClass)
    (h : other ≠ name) : (ctx.update name vc).lookup other = ctx.lookup other := by
  induction ctx with
  | nil => simp [update, lookup, Ne.symm h]
  | cons entry rest ih =>
    obtain ⟨n, old⟩ := entry
    by_cases hn : n = name
    · obtain rfl := hn
      simp [update, lookup, Ne.symm h]
    · simp [update, lookup, hn, ih]

theorem lookup_update_eq (ctx : VarCtx) (name other : String) (vc : ValClass) :
    (ctx.update name vc).lookup other = if other = name then some vc else ctx.lookup other := by
  split
  · next h => rw [h, lookup_update]
  · next h => exact lookup_update_of_ne ctx vc h

/-- `keys`: the variables of a context. -/
def names (ctx : VarCtx) : List String := ctx.map Prod.fst

theorem mem_names_update {ctx : VarCtx} {name other : String} {vc : ValClass} :
    other ∈ (ctx.update name vc).names ↔ other = name ∨ other ∈ ctx.names := by
  induction ctx with
  | nil => simp [update, names]
  | cons entry rest ih =>
    obtain ⟨n, old⟩ := entry
    simp only [names] at ih
    by_cases hn : n = name
    · simp [update, names, hn]
    · simp only [update, hn, if_false, names, List.map_cons, List.mem_cons, ih]
      tauto

/-- An update keeps the names distinct. -/
theorem nodup_update {ctx : VarCtx} (h : ctx.names.Nodup) (name : String) (vc : ValClass) :
    (ctx.update name vc).names.Nodup := by
  induction ctx with
  | nil => simp [update, names]
  | cons entry rest ih =>
    obtain ⟨n, old⟩ := entry
    obtain ⟨hnotin, hrest⟩ := List.nodup_cons.mp h
    by_cases hn : n = name
    · rw [update, if_pos hn]
      exact h
    · rw [update, if_neg hn]
      refine List.nodup_cons.mpr ⟨fun hmem => ?_, ih hrest⟩
      rcases mem_names_update.mp hmem with heq | hmem
      · exact hn heq
      · exact hnotin hmem

/-- In a context of distinct names the entries are what lookup finds. -/
theorem lookup_of_mem {ctx : VarCtx} (h : ctx.names.Nodup) {name : String} {vc : ValClass}
    (hmem : (name, vc) ∈ ctx) : ctx.lookup name = some vc := by
  induction ctx with
  | nil => cases hmem
  | cons entry rest ih =>
    obtain ⟨n, old⟩ := entry
    obtain ⟨hnotin, hrest⟩ := List.nodup_cons.mp h
    rcases List.mem_cons.mp hmem with heq | hmem
    · obtain ⟨rfl, rfl⟩ := Prod.mk.inj heq
      simp [lookup]
    · have hne : n ≠ name := by
        rintro rfl
        exact hnotin (List.mem_map.mpr ⟨(n, vc), hmem, rfl⟩)
      rw [lookup, if_neg hne]
      exact ih hrest hmem

/-! ## Null checks of a variable -/

/-- Either refinement, with the class it gives the variable. -/
theorem refine_eq_some {ctx ctx' : VarCtx} {name : String}
    (f : (vc : ValClass) → needsNullCheck vc = true → ValClass) :
    (match ctx.lookup name with
      | some vc => if h : needsNullCheck vc = true then some (ctx.update name (f vc h)) else none
      | none => none) = some ctx' ↔
      ∃ vc, ctx.lookup name = some vc ∧
        ∃ h : needsNullCheck vc = true, ctx' = ctx.update name (f vc h) := by
  split
  · next vc hlookup =>
    split
    · next h =>
      rw [Option.some.injEq]
      constructor
      · rintro rfl
        exact ⟨vc, hlookup, h, rfl⟩
      · rintro ⟨vc', hlookup', -, rfl⟩
        obtain rfl := Option.some.inj (hlookup.symm.trans hlookup')
        rfl
    · next h =>
      refine iff_of_false (by simp) ?_
      rintro ⟨vc', hlookup', h', -⟩
      obtain rfl := Option.some.inj (hlookup.symm.trans hlookup')
      exact h h'
  · next hlookup => simp [hlookup]

theorem refineNotNull_eq_some {ctx ctx' : VarCtx} {name : String} :
    ctx.refineNotNull name = some ctx' ↔ ∃ vc, ctx.lookup name = some vc ∧
      ∃ h : needsNullCheck vc = true, ctx' = ctx.update name (promoteAfterNullCheck vc h) :=
  refine_eq_some promoteAfterNullCheck

theorem refineIsNull_eq_some {ctx ctx' : VarCtx} {name : String} :
    ctx.refineIsNull name = some ctx' ↔ ∃ vc, ctx.lookup name = some vc ∧
      ∃ h : needsNullCheck vc = true, ctx' = ctx.update name (demoteAfterNullCheck vc h) :=
  refine_eq_some demoteAfterNullCheck

/-! ## Joins -/

/-- What a join of contexts holds of a variable. -/
theorem lookup_joinCtx (ctx₁ ctx₂ : VarCtx) (name : String) :
    (joinCtx ctx₁ ctx₂).lookup name =
      (ctx₁.lookup name).bind fun a => (ctx₂.lookup name).map fun b =>
        (joinValClass a b).getD .Uninit := by
  induction ctx₁ with
  | nil => rfl
  | cons entry rest ih =>
    obtain ⟨n, vc⟩ := entry
    rw [joinCtx]
    by_cases hn : n = name
    · subst hn
      cases hlookup : ctx₂.lookup n with
      | none =>
        -- the variable is dropped, and so are later bindings of it
        rw [hlookup] at ih
        simp [ih]
      | some vc₂ =>
        cases hjoin : joinValClass vc vc₂ <;> simp [lookup, hjoin]
    · have hskip (c : ValClass) (l : VarCtx) : lookup ((n, c) :: l) name = lookup l name :=
        if_neg hn
      rw [hskip, ← ih]
      split
      · rfl
      · split <;> exact hskip _ _

/-! ## References of joins -/

theorem collectRefs_eq_nil {ctx : VarCtx} :
    ctx.collectRefs = [] ↔ ∀ name vc, (name, vc) ∈ ctx → isRefcounted vc = false := by
  induction ctx with
  | nil => simp [collectRefs]
  | cons entry rest ih =>
    obtain ⟨n, vc⟩ := entry
    rw [collectRefs]
    split
    · next h =>
      refine iff_of_false (List.cons_ne_nil _ _) fun hall => ?_
      simp [hall n vc (by simp)] at h
    · next h =>
      rw [ih]
      constructor
      · rintro hall name vc' hmem
        rcases List.mem_cons.mp hmem with heq | hmem
        · obtain ⟨-, rfl⟩ := Prod.mk.inj heq
          simpa using h
        · exact hall name vc' hmem
      · exact fun hall name vc' hmem => hall name vc' (List.mem_cons_of_mem _ hmem)

theorem allRefsReleased_iff {ctx : VarCtx} :
    ctx.allRefsReleased = true ↔ ctx.collectRefs = [] := by
  unfold allRefsReleased
  cases ctx.collectRefs <;> simp

/-- Every class of a join is one a join can give. -/
theorem isMerged_of_mem_joinCtx {a b : VarCtx} {name : String} {vc : ValClass}
    (h : (name, vc) ∈ joinCtx a b) : isMerged vc = true := by
  induction a with
  | nil => cases h
  | cons entry rest ih =>
    obtain ⟨n, vc₁⟩ := entry
    rw [joinCtx] at h
    split at h
    · exact ih h
    · split at h
      · next hjoin =>
        rcases List.mem_cons.mp h with heq | hmem
        · obtain ⟨-, rfl⟩ := Prod.mk.inj heq
          exact isMerged_of_join hjoin
        · exact ih hmem
      · rcases List.mem_cons.mp h with heq | hmem
        · obtain ⟨-, rfl⟩ := Prod.mk.inj heq
          rfl
        · exact ih hmem

/-- **A join holds no references.** -/
theorem collectRefs_joinCtx (a b : VarCtx) : (joinCtx a b).collectRefs = [] :=
  collectRefs_eq_nil.mpr fun _ _ hmem =>
    not_isRefcounted_of_isMerged (isMerged_of_mem_joinCtx hmem)

end VarCtx

end BpfVerifier.FstarAst
