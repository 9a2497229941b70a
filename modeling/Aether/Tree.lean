/-
Aether.Tree — the nodes of a syntax tree.

`nodes` lists a node and all nodes below it, in the order of the fields.
`fields` are the children of a node field by field, and `child` is the one
at a step: a field and a position in it.
-/
import Aether.Ast

namespace Aether

mutual

/-- All nodes below a node. -/
def AstNode.nodesBelow : AstNode → List AstNode
  | .program decls => nodesOfList decls
  | .funcDecl _ typeParams params returnType pre post body _ =>
    nodesOfList typeParams ++ nodesOfList params ++ nodesOfOpt returnType ++ nodesOfList pre ++
      nodesOfList post ++ nodesOfOpt body
  | .param _ type _ _ defaultValue => nodesOfOpt type ++ nodesOfOpt defaultValue
  | .structDecl _ fields methods contracts _ =>
    nodesOfList fields ++ nodesOfList methods ++ nodesOfList contracts
  | .field _ type => nodesOfOpt type
  | .enumDecl _ variants _ => nodesOfList variants
  | .enumVariant _ payloadTypes => nodesOfList payloadTypes
  | .constDecl _ value => nodesOfOpt value
  | .importNode _ => []
  | .moduleDecl _ _ => []
  | .typeAlias _ underlying => nodesOfOpt underlying
  | .traitDecl _ methods _ => nodesOfList methods
  | .implBlock _ _ methods => nodesOfList methods
  | .classDecl _ fields methods contracts _ =>
    nodesOfList fields ++ nodesOfList methods ++ nodesOfList contracts
  | .poolDecl _ _ _ _ => []
  | .protocolDecl _ methods => nodesOfList methods
  | .block stmts => nodesOfList stmts
  | .letNode _ type value _ _ => nodesOfOpt type ++ nodesOfOpt value
  | .ifNode condition thenBlock elifChain elseBlock =>
    nodesOfOpt condition ++ nodesOfOpt thenBlock ++ nodesOfOpt elifChain ++ nodesOfOpt elseBlock
  | .ifLet pattern condition thenBlock =>
    nodesOfOpt pattern ++ nodesOfOpt condition ++ nodesOfOpt thenBlock
  | .whileNode condition body => nodesOfOpt condition ++ nodesOfOpt body
  | .forNode _ _ iterable body => nodesOfOpt iterable ++ nodesOfOpt body
  | .returnNode value => nodesOfOpt value
  | .breakNode _ => []
  | .continueNode _ => []
  | .deferNode body => nodesOfOpt body
  | .exprStmt expr => nodesOfOpt expr
  | .matchNode value arms => nodesOfOpt value ++ nodesOfList arms
  | .matchArm pattern patterns body =>
    nodesOfOpt pattern ++ nodesOfList patterns ++ nodesOfOpt body
  | .tryNode body catchArms finallyBody =>
    nodesOfOpt body ++ nodesOfList catchArms ++ nodesOfOpt finallyBody
  | .throwNode value => nodesOfOpt value
  | .catchArm type _ body _ => nodesOfOpt type ++ nodesOfOpt body
  | .literalInt _ _ => []
  | .literalFloat _ => []
  | .literalString _ => []
  | .literalChar _ => []
  | .literalBool _ => []
  | .literalNone => []
  | .ident _ => []
  | .binaryOp _ left right _ => nodesOfOpt left ++ nodesOfOpt right
  | .unaryOp _ operand => nodesOfOpt operand
  | .call callee args => nodesOfOpt callee ++ nodesOfList args
  | .index target index => nodesOfOpt target ++ nodesOfOpt index
  | .slice target start stop => nodesOfOpt target ++ nodesOfOpt start ++ nodesOfOpt stop
  | .fieldAccess target _ => nodesOfOpt target
  | .cast left right => nodesOfOpt left ++ nodesOfOpt right
  | .ternary items => nodesOfList items
  | .lambda params body => nodesOfList params ++ nodesOfOpt body
  | .arrayLit elements => nodesOfList elements
  | .typePrimitive _ => []
  | .typeNamed _ => []
  | .typeArray elemType _ => nodesOfOpt elemType
  | .typeSlice elemType => nodesOfOpt elemType
  | .typeTuple tupleTypes => nodesOfList tupleTypes
  | .typeOptional elemType => nodesOfOpt elemType
  | .typeRef elemType _ => nodesOfOpt elemType
  | .typePtr elemType => nodesOfOpt elemType
  | .typeFn paramTypes returnType => nodesOfList paramTypes ++ nodesOfOpt returnType
  | .typeInfer => []
  | .asmBlock _ _ => []
  | .unsafeNode body => nodesOfList body
  | .attr _ => []
  | .region _ body => nodesOfOpt body
  | .runBlock body => nodesOfList body
  | .typeParam _ constraint => nodesOfOpt constraint
  | .spawn call => nodesOfOpt call
  | .yieldNode => []

def nodesOfOpt : Option AstNode → List AstNode
  | none => []
  | some node => node :: node.nodesBelow

def nodesOfList : List AstNode → List AstNode
  | [] => []
  | node :: nodes => node :: (node.nodesBelow ++ nodesOfList nodes)

end

-- the equations, before the proofs that share them
section
attribute [local simp] AstNode.nodesBelow
end

/-- A node and all nodes below it. -/
def AstNode.nodes (node : AstNode) : List AstNode := node :: node.nodesBelow

/-- The children of a node, field by field. -/
def AstNode.fields : AstNode → List (List AstNode)
  | .program decls => [decls]
  | .funcDecl _ typeParams params returnType pre post body _ =>
    [typeParams, params, returnType.toList, pre, post, body.toList]
  | .param _ type _ _ defaultValue => [type.toList, defaultValue.toList]
  | .structDecl _ fields methods contracts _ => [fields, methods, contracts]
  | .field _ type => [type.toList]
  | .enumDecl _ variants _ => [variants]
  | .enumVariant _ payloadTypes => [payloadTypes]
  | .constDecl _ value => [value.toList]
  | .typeAlias _ underlying => [underlying.toList]
  | .traitDecl _ methods _ => [methods]
  | .implBlock _ _ methods => [methods]
  | .classDecl _ fields methods contracts _ => [fields, methods, contracts]
  | .protocolDecl _ methods => [methods]
  | .block stmts => [stmts]
  | .letNode _ type value _ _ => [type.toList, value.toList]
  | .ifNode condition thenBlock elifChain elseBlock =>
    [condition.toList, thenBlock.toList, elifChain.toList, elseBlock.toList]
  | .ifLet pattern condition thenBlock => [pattern.toList, condition.toList, thenBlock.toList]
  | .whileNode condition body => [condition.toList, body.toList]
  | .forNode _ _ iterable body => [iterable.toList, body.toList]
  | .returnNode value => [value.toList]
  | .deferNode body => [body.toList]
  | .exprStmt expr => [expr.toList]
  | .matchNode value arms => [value.toList, arms]
  | .matchArm pattern patterns body => [pattern.toList, patterns, body.toList]
  | .tryNode body catchArms finallyBody => [body.toList, catchArms, finallyBody.toList]
  | .throwNode value => [value.toList]
  | .catchArm type _ body _ => [type.toList, body.toList]
  | .binaryOp _ left right _ => [left.toList, right.toList]
  | .unaryOp _ operand => [operand.toList]
  | .call callee args => [callee.toList, args]
  | .index target position => [target.toList, position.toList]
  | .slice target start stop => [target.toList, start.toList, stop.toList]
  | .fieldAccess target _ => [target.toList]
  | .cast left right => [left.toList, right.toList]
  | .ternary items => [items]
  | .lambda params body => [params, body.toList]
  | .arrayLit elements => [elements]
  | .typeArray elemType _ => [elemType.toList]
  | .typeSlice elemType => [elemType.toList]
  | .typeTuple tupleTypes => [tupleTypes]
  | .typeOptional elemType => [elemType.toList]
  | .typeRef elemType _ => [elemType.toList]
  | .typePtr elemType => [elemType.toList]
  | .typeFn paramTypes returnType => [paramTypes, returnType.toList]
  | .unsafeNode body => [body]
  | .region _ body => [body.toList]
  | .runBlock body => [body]
  | .typeParam _ constraint => [constraint.toList]
  | .spawn operand => [operand.toList]
  | _ => []

/-- A field of a node and a position in it. -/
abbrev Step := Nat × Nat

/-- The node below a node at a step. -/
def AstNode.child (node : AstNode) (step : Step) : Option AstNode :=
  (node.fields.getD step.1 [])[step.2]?

/-- The nodes in the fields are smaller than the node. -/
theorem AstNode.sizeOf_field_lt (node : AstNode) :
    ∀ items ∈ node.fields, ∀ child ∈ items, sizeOf child < sizeOf node := by
  have hlist : ∀ (items : List AstNode), ∀ child ∈ items, sizeOf child < sizeOf items :=
    fun _ _ h => List.sizeOf_lt_of_mem h
  have hopt : ∀ (item : Option AstNode), ∀ child ∈ item.toList, sizeOf child < sizeOf item := by
    rintro (_ | node) child h
    · simp at h
    · obtain rfl : child = node := by simpa using h
      simp
  cases node
  all_goals
    simp only [AstNode.fields, List.forall_mem_cons]
    repeat' apply And.intro
  all_goals intro child h
  all_goals first
    | exact absurd h List.not_mem_nil
    | have := hlist _ _ h; simp; omega
    | have := hopt _ _ h; simp; omega

end Aether
