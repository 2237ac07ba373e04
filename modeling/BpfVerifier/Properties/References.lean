import BpfVerifier.FstarAst.Stmt

/-!
# Properties/References — which references survive a merge of branches

`joinCtx` gives no class that holds a reference, so a merge keeps the references of its arms only
when they hold none (`keepsRefs_iff`).  Where that is so at every merge, no path of a programme
returns with a reference (`released_of_returnsWith`).
-/

namespace BpfVerifier.FstarAst

open VarCtx

/-! ## One merge -/

/-- A Return stands right after a conditional whose arms end in two contexts. -/
def ReturnsAfterMerge (a b : VarCtx) : Prop :=
  ∃ (pt : BpfProgType) (ctx : VarCtx) (s : Stmt pt ctx []),
    (∃ cond, ∃ t : Stmt pt ctx a, ∃ e : Stmt pt ctx b, ∃ value hrefs,
      s = .Seq (.If cond t e) (.Return value hrefs)) ∨
    ∃ checkedVar ctxNotNull ctxIsNull hnot hnull, ∃ t : Stmt pt ctxNotNull a,
      ∃ e : Stmt pt ctxIsNull b, ∃ value hrefs,
        s = .Seq (.IfNull checkedVar hnot hnull t e) (.Return value hrefs)

/-- **A merge keeps the references of both contexts.** -/
structure KeepsRefs (a b : VarCtx) : Prop where
  kept : ∀ rid, rid ∈ a.collectRefs ∨ rid ∈ b.collectRefs → rid ∈ (joinCtx a b).collectRefs
  released : (joinCtx a b).allRefsReleased = true →
    a.allRefsReleased = true ∧ b.allRefsReleased = true
  returned : ReturnsAfterMerge a b → a.allRefsReleased = true ∧ b.allRefsReleased = true

/-- Only references that are not there are kept. -/
theorem keepsRefs_iff_nil {a b : VarCtx} :
    KeepsRefs a b ↔ a.collectRefs = [] ∧ b.collectRefs = [] := by
  constructor
  · intro h
    have hreleased := h.released (allRefsReleased_iff.mpr (collectRefs_joinCtx a b))
    exact hreleased.imp allRefsReleased_iff.mp allRefsReleased_iff.mp
  · rintro ⟨ha, hb⟩
    have hboth : a.allRefsReleased = true ∧ b.allRefsReleased = true :=
      ⟨allRefsReleased_iff.mpr ha, allRefsReleased_iff.mpr hb⟩
    exact ⟨fun rid hrid => by simp [ha, hb] at hrid, fun _ => hboth, fun _ => hboth⟩

/-! ## Paths -/

/-- The arms of every conditional end without references. -/
def Stmt.MergesReleased {pt : BpfProgType} : ∀ {ctx ctx' : VarCtx}, Stmt pt ctx ctx' → Prop
  | _, _, .Seq first second => first.MergesReleased ∧ second.MergesReleased
  | _, _, @Stmt.If _ _ ctxThen ctxElse _ thenBranch elseBranch =>
    ctxThen.collectRefs = [] ∧ ctxElse.collectRefs = [] ∧ thenBranch.MergesReleased ∧
      elseBranch.MergesReleased
  | _, _, @Stmt.IfNull _ _ _ _ ctxThen ctxElse _ _ _ thenBranch elseBranch =>
    ctxThen.collectRefs = [] ∧ ctxElse.collectRefs = [] ∧ thenBranch.MergesReleased ∧
      elseBranch.MergesReleased
  | _, _, .BoundedLoop _ _ _ body => body.MergesReleased
  | _, _, _ => True

/-- **The context a statement is typed in follows the context of a path**: the classes that no merge
gives are the path's, and every reference of the path is in it. -/
structure Follows (ctx p : VarCtx) : Prop where
  unmerged : ∀ name vc, ctx.lookup name = some vc → isMerged vc = false →
    p.lookup name = some vc
  refs : ∀ name vc, (name, vc) ∈ p → isRefcounted vc = true → ctx.lookup name = some vc
  distinct : p.names.Nodup

namespace Follows

variable {ctx p : VarCtx}

theorem refl (h : ctx.names.Nodup) : Follows ctx ctx where
  unmerged _ _ hlookup _ := hlookup
  refs _ _ hmem _ := lookup_of_mem h hmem
  distinct := h

/-- A path holds no reference where its typing holds none. -/
theorem released (h : Follows ctx p) (hctx : ctx.collectRefs = []) : p.collectRefs = [] := by
  refine collectRefs_eq_nil.mpr fun name vc hmem => ?_
  by_contra href
  have href' : isRefcounted vc = true := by simpa using href
  have hlookup := h.refs name vc hmem href'
  exact href (collectRefs_eq_nil.mp hctx name vc (mem_of_lookup hlookup))

theorem update (h : Follows ctx p) (name : String) (vc : ValClass) :
    Follows (ctx.update name vc) (p.update name vc) where
  unmerged other vc' hlookup hmerged := by
    rw [lookup_update_eq] at hlookup ⊢
    split
    · next heq => rwa [if_pos heq] at hlookup
    · next hne =>
      rw [if_neg hne] at hlookup
      exact h.unmerged other vc' hlookup hmerged
  refs other vc' hmem href := by
    have hlookup := lookup_of_mem (nodup_update h.distinct name vc) hmem
    rw [lookup_update_eq] at hlookup ⊢
    split
    · next heq => rwa [if_pos heq] at hlookup
    · next hne =>
      rw [if_neg hne] at hlookup
      exact h.refs other vc' (mem_of_lookup hlookup) href
  distinct := nodup_update h.distinct name vc

/-- After a merge only a path without references is followed. -/
theorem join (h : Follows ctx p) (hctx : ctx.collectRefs = []) (a b : VarCtx) :
    Follows (joinCtx a b) p where
  unmerged name vc hlookup hmerged := by
    rw [isMerged_of_mem_joinCtx (mem_of_lookup hlookup)] at hmerged
    cases hmerged
  refs name vc hmem href := by
    rw [collectRefs_eq_nil.mp (h.released hctx) name vc hmem] at href
    cases href
  distinct := h.distinct

/-- A null check refines both alike. -/
theorem refine {name : String} {f : (vc : ValClass) → needsNullCheck vc = true → ValClass}
    {vc vcp : ValClass} (h : Follows ctx p) (hctx : ctx.lookup name = some vc)
    (hneeds : needsNullCheck vc = true) (hp : p.lookup name = some vcp)
    (hneedsp : needsNullCheck vcp = true) :
    Follows (ctx.update name (f vc hneeds)) (p.update name (f vcp hneedsp)) := by
  have heq := h.unmerged name vc hctx (not_isMerged_of_needsNullCheck hneeds)
  rw [hp] at heq
  obtain rfl := Option.some.inj heq
  exact h.update name _

theorem refineNotNull {name : String} {ctx' p' : VarCtx} (h : Follows ctx p)
    (hctx : ctx.refineNotNull name = some ctx') (hp : p.refineNotNull name = some p') :
    Follows ctx' p' := by
  obtain ⟨vc, hlookup, hneeds, rfl⟩ := refineNotNull_eq_some.mp hctx
  obtain ⟨vcp, hlookupp, hneedsp, rfl⟩ := refineNotNull_eq_some.mp hp
  exact h.refine hlookup hneeds hlookupp hneedsp

theorem refineIsNull {name : String} {ctx' p' : VarCtx} (h : Follows ctx p)
    (hctx : ctx.refineIsNull name = some ctx') (hp : p.refineIsNull name = some p') :
    Follows ctx' p' := by
  obtain ⟨vc, hlookup, hneeds, rfl⟩ := refineIsNull_eq_some.mp hctx
  obtain ⟨vcp, hlookupp, hneedsp, rfl⟩ := refineIsNull_eq_some.mp hp
  exact h.refine hlookup hneeds hlookupp hneedsp

end Follows

/-- **The typing follows every path to the end of a statement.** -/
theorem follows_of_passes {pt : BpfProgType} {ctx ctx' p q : VarCtx} {s : Stmt pt ctx ctx'}
    (h : Passes s p q) (hmerges : s.MergesReleased) (hfollows : Follows ctx p) :
    Follows ctx' q := by
  induction h with
  | declare => exact hfollows.update _ _
  | assign => exact hfollows.update _ _
  | seq _ _ ihFirst ihSecond => exact ihSecond hmerges.2 (ihFirst hmerges.1 hfollows)
  | ifThen _ ih =>
    obtain ⟨hthen, helse, hthenMerges, -⟩ := hmerges
    exact (ih hthenMerges hfollows).join hthen _ _
  | ifElse _ ih =>
    obtain ⟨hthen, helse, -, helseMerges⟩ := hmerges
    exact (ih helseMerges hfollows).join helse _ _
  | ifNotNull hp _ ih =>
    obtain ⟨hthen, helse, hthenMerges, -⟩ := hmerges
    exact (ih hthenMerges (hfollows.refineNotNull ‹_› hp)).join hthen _ _
  | ifIsNull hp _ ih =>
    obtain ⟨hthen, helse, -, helseMerges⟩ := hmerges
    exact (ih helseMerges (hfollows.refineIsNull ‹_› hp)).join helse _ _
  | loopDone => exact hfollows
  | loopMore _ _ ihBody ihLoop => exact ihLoop hmerges (ihBody hmerges hfollows)
  | nop => exact hfollows
  | callAssign => exact hfollows.update _ _

/-- **…and no path returns with a reference.** -/
theorem released_of_returnsWith {pt : BpfProgType} {ctx ctx' p q : VarCtx} {s : Stmt pt ctx ctx'}
    (h : ReturnsWith s p q) (hmerges : s.MergesReleased) (hfollows : Follows ctx p) :
    q.collectRefs = [] := by
  induction h with
  | «return» hrefs => exact hfollows.released (allRefsReleased_iff.mp hrefs)
  | seqFirst _ ih => exact ih hmerges.1 hfollows
  | seqSecond hpasses _ ih => exact ih hmerges.2 (follows_of_passes hpasses hmerges.1 hfollows)
  | ifThen _ ih => exact ih hmerges.2.2.1 hfollows
  | ifElse _ ih => exact ih hmerges.2.2.2 hfollows
  | ifNotNull hp _ ih => exact ih hmerges.2.2.1 (hfollows.refineNotNull ‹_› hp)
  | ifIsNull hp _ ih => exact ih hmerges.2.2.2 (hfollows.refineIsNull ‹_› hp)
  | loop hpasses _ ih => exact ih hmerges (follows_of_passes hpasses hmerges hfollows)

/-! ## Programmes -/

/-- **A merge keeps the references of its arms just when they hold none**, and a programme whose
merges are all of such arms returns on no path with a reference. -/
theorem keepsRefs_iff (a b : VarCtx) :
    (KeepsRefs a b ↔ a.collectRefs = [] ∧ b.collectRefs = []) ∧
    ∀ (prog : BpfProg) (p : VarCtx), prog.progBody.MergesReleased →
      ReturnsWith prog.progBody initialCtx p → p.collectRefs = [] :=
  ⟨keepsRefs_iff_nil, fun prog _ hmerges h =>
    released_of_returnsWith h hmerges (.refl (by simp [initialCtx, names]))⟩

/-- The context after a socket lookup. -/
def heldSocket : VarCtx := initialCtx.assign "sk" (.PtrToSocketOrNull 1)

theorem refineNotNull_heldSocket :
    heldSocket.refineNotNull "sk" = some (heldSocket.update "sk" (.PtrToSocket 1)) :=
  refineNotNull_eq_some.mpr ⟨_, lookup_update _ _ _, rfl, rfl⟩

theorem refineIsNull_heldSocket : heldSocket.refineIsNull "sk" =
    some (heldSocket.update "sk" (demoteAfterNullCheck (.PtrToSocketOrNull 1) rfl)) :=
  refineIsNull_eq_some.mpr ⟨_, lookup_update _ _ _, rfl, rfl⟩

/-- `sk = bpf_sk_lookup_tcp(…)`. -/
def looksUpSocket : Stmt .ProgXDP initialCtx heldSocket :=
  .CallAssign "sk" hSkLookupTcp [.CPtr .CVoid, .CPtr .CVoid, cU32, cU64, cU64] rfl rfl
    (.PtrToSocketOrNull 1) rfl

/-- `return 0`. -/
def returnsZero {ctx : VarCtx} (h : ctx.allRefsReleased = true) : Stmt .ProgXDP ctx [] :=
  .Return (.IntLit 0 .W32) h

/-- Look a socket up, release it when there is one and return. -/
def releasesSocket : BpfProg where
  progType := .ProgXDP
  progBody := .Seq looksUpSocket
    (.IfNull "sk" refineNotNull_heldSocket refineIsNull_heldSocket
      (.Seq (.CallAssign "sk" hSkRelease [.CPtr .CVoid] rfl rfl scalarUnknown rfl)
        (returnsZero (by decide)))
      (returnsZero (by decide)))

/-- Look a socket up, test it for null and return. -/
def keepsSocket : BpfProg where
  progType := .ProgXDP
  progBody := .Seq looksUpSocket
    (.Seq (.IfNull "sk" refineNotNull_heldSocket refineIsNull_heldSocket .Nop .Nop)
      (returnsZero (allRefsReleased_iff.mpr (collectRefs_joinCtx _ _))))

theorem keepsRefs_iff_releasesSocket : KeepsRefs [] initialCtx ∧
    ∃ p, ReturnsWith releasesSocket.progBody initialCtx p ∧ p.collectRefs = [] := by
  have hpath : ReturnsWith releasesSocket.progBody initialCtx
      ((heldSocket.update "sk" (.PtrToSocket 1)).assign "sk" scalarUnknown) :=
    .seqSecond (.callAssign rfl rfl rfl)
      (.ifNotNull refineNotNull_heldSocket (.seqSecond (.callAssign rfl rfl rfl) (.return _)))
  exact ⟨(keepsRefs_iff [] initialCtx).1.mpr ⟨rfl, rfl⟩, _, hpath,
    (keepsRefs_iff [] initialCtx).2 releasesSocket _
      ⟨trivial, rfl, rfl, ⟨trivial, trivial⟩, trivial⟩ hpath⟩

/-- **A merge can forget a reference**, and a programme then returns with it. -/
theorem not_keepsRefs : (¬∀ a b : VarCtx, KeepsRefs a b) ∧
    ∃ p, ReturnsWith keepsSocket.progBody initialCtx p ∧ p.collectRefs = [1] := by
  refine ⟨fun h => ?_, heldSocket.update "sk" (.PtrToSocket 1),
    .seqSecond (.callAssign rfl rfl rfl)
      (.seqSecond (.ifNotNull refineNotNull_heldSocket .nop) (.return _)), by decide⟩
  have hkept := (h [("sk", .PtrToSocket 1)] []).kept 1 (by decide)
  revert hkept
  decide

end BpfVerifier.FstarAst
