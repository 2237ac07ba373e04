import Mathlib.Tactic.Common

/-!
# Ast/ClangAst — `clang_ast.rs`, the nodes of Clang's JSON tree

Every node has the same optional fields, whatever its kind.  The fields here are those the
conversion of a function body reads.
-/

namespace BpfVerifier.Ast

/-- `QualType`. -/
structure QualType where
  qualType : String

/-- `ReferencedDecl`. -/
structure ReferencedDecl where
  name : Option String

/-- **`Node`.** -/
structure Node where
  kind : String
  name : Option String := none
  ty : Option QualType := none
  opcode : Option String := none
  value : Option String := none
  /-- The declaration a DeclRefExpr names. -/
  referencedDecl : Option ReferencedDecl := none
  castKind : Option String := none
  inner : List Node := []

namespace Node

/-- `qual_type`. -/
def qualType (n : Node) : Option String := n.ty.map QualType.qualType

/-- `ref_name`. -/
def refName (n : Node) : Option String := n.referencedDecl.bind ReferencedDecl.name

/-- `first_child_of_kind`. -/
def firstChildOfKind (n : Node) (kind : String) : Option Node :=
  n.inner.find? fun c => c.kind = kind

/-- `children_of_kind`. -/
def childrenOfKind (n : Node) (kind : String) : List Node :=
  n.inner.filter fun c => c.kind = kind

theorem firstChildOfKind_eq_head? (n : Node) (kind : String) :
    n.firstChildOfKind kind = (n.childrenOfKind kind).head? :=
  List.head?_filter.symm

end Node

end BpfVerifier.Ast
