/-
Aether.CTranspiler.LambdaTheorems — when every lambda of a program denotes
its own body.

`collect_lambdas` descends into some fields of some nodes (`passFields`);
a lambda anywhere else keeps `captures == NULL`, which reads back as the
number of the first lambda. `Stamps` says which lambdas a part of the pass
numbers: `stamps_node` is the step over a node and its children, and
`numbered` reads the numbers off the order in which they were met.

`lambdas_denote_iff`: every lambda is emitted under the name of a function
with its own parameters and body, and no two under one name, if and only
if the pass reaches every lambda, no first parameter is named `self` (which
would add a suffix to the definition's name), and the 32-bit counter does
not come round.
-/
import Mathlib.Data.List.Induction
import Mathlib.Data.List.Perm.Subperm
import Aether.CTranspiler.Lambda
import Aether.Lib.TreeWalk

namespace Aether.CTranspiler

open Lib.Numerals Lib.TreeWalk

-- the equations, before the proofs that share them
section
attribute [local simp] registerLambda lambdaName emittedLambdaName
end

/-! ## §1 Lambdas of a program -/

/-- Every step down the tree. -/
def everyStep (_ : AstNode) (_ : Step) : Prop := True

/-- The fields that `collect_lambdas` descends into. -/
def passFields : AstNode → List Nat
  | .lambda .. => [1]
  | .block .. => [0]
  | .funcDecl .. => [5]
  | .letNode .. => [1]
  | .returnNode .. => [0]
  | .ifNode .. => [0, 1, 2, 3]
  | .ifLet .. => [1, 2]
  | .whileNode .. => [0, 1]
  | .forNode .. => [0, 1]
  | .binaryOp .. => [0, 1]
  | .unaryOp .. => [0]
  | .call .. => [0, 1]
  | .exprStmt .. => [0]
  | _ => []

-- the equations, before the proofs that share them
section
attribute [local simp] passFields
end

/-- The steps that `collect_lambdas` takes. -/
def passStep (node : AstNode) (step : Step) : Prop := step.1 ∈ passFields node

/-- The lambda at a place below a declaration of the program, reached by
allowed steps. -/
def LambdaAt (follow : AstNode → Step → Prop) (decls : List AstNode) (place : Place)
    (params : List AstNode) (body : Option AstNode) : Prop :=
  ∃ i decl path, place = (0, i) :: path ∧ decls[i]? = some decl ∧
    Walk AstNode.child follow decl path (.lambda params body)

/-- The node is a function with these parameters and this body. -/
def FuncOf : AstNode → List AstNode → Option AstNode → Prop
  | .funcDecl _ _ params' _ _ _ body' _, params, body => params' = params ∧ body' = body
  | _, _, _ => False

/-- Every lambda is emitted under the name of an emitted function with its
own parameters and body, and different lambdas under different names. -/
structure LambdasDenote (decls : List AstNode) : Prop where
  named : ∀ place params body, LambdaAt everyStep decls place params body →
    ∃ func ∈ (collectProgram decls).lambdaDecls,
      cFuncDeclName func = some (emittedLambdaName (collectProgram decls) place) ∧
        FuncOf func params body
  distinct : ∀ place place' params params' body body',
    LambdaAt everyStep decls place params body → LambdaAt everyStep decls place' params' body' →
      place ≠ place' →
        emittedLambdaName (collectProgram decls) place
          ≠ emittedLambdaName (collectProgram decls) place'

/-- The pass reaches every lambda, none has a first parameter `self`, and
there are at most `2^32` of them. -/
structure LambdasReached (decls : List AstNode) : Prop where
  reached : ∀ place params body, LambdaAt everyStep decls place params body →
    LambdaAt passStep decls place params body
  noSelf : ∀ place params body, LambdaAt everyStep decls place params body → isMethod params = false
  few : ∀ places : List Place, places.Nodup →
    (∀ place ∈ places, ∃ params body, LambdaAt everyStep decls place params body) →
      places.length ≤ 2 ^ 32

theorem LambdaAt.every {follow : AstNode → Step → Prop} {decls : List AstNode} {place : Place}
    {params : List AstNode} {body : Option AstNode} (h : LambdaAt follow decls place params body) :
    LambdaAt everyStep decls place params body := by
  obtain ⟨i, decl, path, hplace, hdecl, hwalk⟩ := h
  exact ⟨i, decl, path, hplace, hdecl, hwalk.mono fun _ _ _ => trivial⟩

/-- A place holds one lambda. -/
theorem LambdaAt.unique {follow follow' : AstNode → Step → Prop} {decls : List AstNode}
    {place : Place} {params params' : List AstNode} {body body' : Option AstNode}
    (h : LambdaAt follow decls place params body)
    (h' : LambdaAt follow' decls place params' body') : params = params' ∧ body = body' := by
  obtain ⟨i, decl, path, rfl, hdecl, hwalk⟩ := h
  obtain ⟨i', decl', path', hplace, hdecl', hwalk'⟩ := h'
  obtain ⟨hi, rfl⟩ := List.cons.inj hplace
  obtain rfl : i = i' := congrArg Prod.snd hi
  obtain rfl : decl = decl' := Option.some.inj (hdecl.symm.trans hdecl')
  have htarget := hwalk.target_eq hwalk'
  injection htarget with hparams hbody
  exact ⟨hparams, hbody⟩

/-! ## §2 What the pass numbers -/

/-- A lambda and its place. -/
abbrev Found := Place × List AstNode × Option AstNode

def stamp (cg : LambdaPass) (x : Found) : LambdaPass := registerLambda cg x.1 x.2.1 x.2.2

-- the equations, before the proofs that share them
section
attribute [local simp] stamp
end

/-- A part of the pass registers exactly the lambdas that `P` describes,
each once. -/
def Stamps (run : LambdaPass → LambdaPass) (P : Found → Prop) : Prop :=
  ∃ found : List Found, (∀ cg, run cg = found.foldl stamp cg) ∧ (∀ x, x ∈ found ↔ P x) ∧
    (found.map Prod.fst).Nodup

theorem Stamps.none : Stamps (fun cg => cg) fun _ => False :=
  ⟨[], fun _ => rfl, by simp, by simp⟩

theorem Stamps.one (x : Found) : Stamps (stamp · x) fun y => y = x :=
  ⟨[x], fun _ => rfl, by simp, by simp⟩

theorem Stamps.congr {run run' : LambdaPass → LambdaPass} {P P' : Found → Prop}
    (h : Stamps run P) (hrun : ∀ cg, run' cg = run cg) (hP : ∀ x, P' x ↔ P x) : Stamps run' P' := by
  obtain ⟨found, hfold, hmem, hnodup⟩ := h
  exact ⟨found, fun cg => (hrun cg).trans (hfold cg), fun x => (hmem x).trans (hP x).symm, hnodup⟩

/-- One part after the other, over different places. -/
theorem Stamps.append {run run' : LambdaPass → LambdaPass} {P P' : Found → Prop}
    (h : Stamps run P) (h' : Stamps run' P') (hdiff : ∀ x x', P x → P' x' → x.1 ≠ x'.1) :
    Stamps (fun cg => run' (run cg)) fun x => P x ∨ P' x := by
  obtain ⟨found, hfold, hmem, hnodup⟩ := h
  obtain ⟨found', hfold', hmem', hnodup'⟩ := h'
  refine ⟨found ++ found', fun cg => ?_, fun x => ?_, ?_⟩
  · show run' (run cg) = _
    rw [hfold, hfold', List.foldl_append]
  · rw [List.mem_append, hmem, hmem']
  · rw [List.map_append, List.nodup_append]
    refine ⟨hnodup, hnodup', fun place hplace place' hplace' => ?_⟩
    obtain ⟨x, hx, rfl⟩ := List.mem_map.mp hplace
    obtain ⟨x', hx', rfl⟩ := List.mem_map.mp hplace'
    exact hdiff x x' ((hmem x).mp hx) ((hmem' x').mp hx')

/-- The lambdas below a node at `place` that the pass reaches. -/
def Below (place : Place) (node : AstNode) (x : Found) : Prop :=
  ∃ path, x.1 = place ++ path ∧ Walk AstNode.child passStep node path (.lambda x.2.1 x.2.2)

/-- The lambdas below the items of a field, from position `i` on. -/
def BelowItems (place : Place) (field i : Nat) (items : List AstNode) (x : Found) : Prop :=
  ∃ j node, items[j]? = some node ∧ Below (place ++ [(field, i + j)]) node x

theorem Below.place_eq {place : Place} {node : AstNode} {x : Found} (h : Below place node x) :
    ∃ path, x.1 = place ++ path := by
  obtain ⟨path, hplace, -⟩ := h
  exact ⟨path, hplace⟩

theorem stamps_items {place : Place} {field i : Nat} {items : List AstNode}
    (hnode : ∀ node ∈ items, ∀ place, Stamps (collectLambdas · place node) (Below place node)) :
    Stamps (collectItems · place field i items) (BelowItems place field i items) := by
  induction items generalizing i with
  | nil => exact Stamps.none.congr (fun _ => rfl) fun x => by simp [BelowItems]
  | cons node items ih =>
    have hhead := hnode node List.mem_cons_self (place ++ [(field, i)])
    have htail : Stamps (collectItems · place field (i + 1) items)
        (BelowItems place field (i + 1) items) :=
      ih fun node' h => hnode node' (List.mem_cons_of_mem node h)
    refine (hhead.append htail ?_).congr (fun _ => rfl) fun x => ?_
    · -- the positions differ
      rintro x x' hx ⟨j, node', -, hx'⟩ heq
      obtain ⟨path, hpath⟩ := hx.place_eq
      obtain ⟨path', hpath'⟩ := hx'.place_eq
      rw [hpath, hpath', List.append_assoc, List.append_assoc, List.append_cancel_left_eq] at heq
      simp at heq
      omega
    · constructor
      · rintro ⟨_ | j, node', hj, hx⟩
        · obtain rfl : node = node' := by simpa using hj
          exact .inl hx
        · refine .inr ⟨j, node', by simpa using hj, ?_⟩
          rwa [Nat.add_right_comm, Nat.add_assoc]
      · rintro (hx | ⟨j, node', hj, hx⟩)
        · exact ⟨0, node, rfl, hx⟩
        · refine ⟨j + 1, node', by simpa using hj, ?_⟩
          rwa [Nat.add_right_comm, Nat.add_assoc] at hx

/-- What the pass does at the node itself. -/
def visitLambda (cg : LambdaPass) (place : Place) : AstNode → LambdaPass
  | .lambda params body => registerLambda cg place params body
  | _ => cg

/-- The descent into some fields of a node. -/
def collectFields (cg : LambdaPass) (place : Place) (node : AstNode) (fields : List Nat) :
    LambdaPass :=
  fields.foldl (fun cg f => collectItems cg place f 0 (node.fields.getD f [])) cg

theorem collectOpt_eq (cg : LambdaPass) (place : Place) (field : Nat) (item : Option AstNode) :
    collectOpt cg place field item = collectItems cg place field 0 item.toList := by
  cases item with
  | none => rfl
  | some node => rfl

/-- The pass visits a node and then descends into its `passFields`. -/
theorem collectLambdas_eq (cg : LambdaPass) (place : Place) (node : AstNode) :
    collectLambdas cg place node
      = collectFields (visitLambda cg place node) place node (passFields node) := by
  cases node <;>
    simp [collectLambdas, collectFields, collectOpt_eq, visitLambda, passFields, AstNode.fields]

/-- The lambda that a node is. -/
def IsLambda (place : Place) (node : AstNode) (x : Found) : Prop :=
  x.1 = place ∧ node = .lambda x.2.1 x.2.2

-- the equations, before the proofs that share them
section
attribute [local simp] IsLambda
end

theorem stamps_visit (place : Place) (node : AstNode) :
    Stamps (visitLambda · place node) (IsLambda place node) := by
  cases node with
  | lambda params body =>
    refine (Stamps.one (place, params, body)).congr (fun _ => rfl) fun x => ?_
    obtain ⟨place', params', body'⟩ := x
    simp [IsLambda, eq_comm]
  | _ => exact Stamps.none.congr (fun _ => rfl) fun x => by simp [IsLambda]

/-- The lambdas below some fields of a node. -/
def BelowFields (place : Place) (node : AstNode) (fields : List Nat) (x : Found) : Prop :=
  ∃ f ∈ fields, BelowItems place f 0 (node.fields.getD f []) x

-- the equations, before the proofs that share them
section
attribute [local simp] BelowFields
end

theorem stamps_fields {place : Place} {node : AstNode} {fields : List Nat} (hfields : fields.Nodup)
    (hbelow : ∀ items ∈ node.fields, ∀ child ∈ items, ∀ place,
      Stamps (collectLambdas · place child) (Below place child)) :
    Stamps (collectFields · place node fields) (BelowFields place node fields) := by
  induction fields with
  | nil => exact Stamps.none.congr (fun _ => rfl) fun x => by simp [BelowFields]
  | cons f fields ih =>
    obtain ⟨hf, hrest⟩ := List.nodup_cons.mp hfields
    have hitems : ∀ child ∈ node.fields.getD f [], ∀ place,
        Stamps (collectLambdas · place child) (Below place child) := by
      rw [List.getD_eq_getElem?_getD]
      cases hget : node.fields[f]? with
      | none => simp
      | some items => exact hbelow items (List.mem_of_getElem? hget)
    refine ((stamps_items hitems).append (ih hrest) ?_).congr (fun _ => rfl) fun x => ?_
    · -- the fields differ
      rintro x x' ⟨j, child, -, hx⟩ ⟨f', hf', j', child', -, hx'⟩ heq
      obtain ⟨path, hpath⟩ := hx.place_eq
      obtain ⟨path', hpath'⟩ := hx'.place_eq
      rw [hpath, hpath', List.append_assoc, List.append_assoc, List.append_cancel_left_eq] at heq
      have hff : f = f' := by simp at heq; exact heq.1.1
      exact hf (hff ▸ hf')
    · simp [BelowFields]

theorem passFields_nodup (node : AstNode) : (passFields node).Nodup := by
  cases node <;> simp [passFields]

/-- A walk of the pass goes through one of the node's `passFields`. -/
theorem below_iff (place : Place) (node : AstNode) (x : Found) :
    Below place node x ↔ IsLambda place node x ∨ BelowFields place node (passFields node) x := by
  constructor
  · rintro ⟨path, hplace, hwalk⟩
    cases hwalk with
    | here => exact .inl ⟨by simpa using hplace, rfl⟩
    | @step _ next _ s path hfollow hchild tail =>
      refine .inr ⟨s.1, hfollow, s.2, next, hchild, path, ?_, tail⟩
      rw [hplace, Nat.zero_add, List.append_assoc]
      rfl
  · rintro (⟨hplace, rfl⟩ | ⟨f, hf, j, child, hchild, path, hplace, tail⟩)
    · exact ⟨[], by simpa using hplace, .here _⟩
    · refine ⟨(f, j) :: path, ?_, .step hf hchild tail⟩
      rw [hplace, Nat.zero_add, List.append_assoc]
      rfl

/-- The pass over a node numbers exactly the lambdas it walks to. -/
theorem stamps_node (node : AstNode) (place : Place) :
    Stamps (collectLambdas · place node) (Below place node) := by
  have hbelow : ∀ items ∈ node.fields, ∀ child ∈ items, ∀ place,
      Stamps (collectLambdas · place child) (Below place child) := by
    intro items hitems child hchild place'
    have := node.sizeOf_field_lt items hitems child hchild
    exact stamps_node child place'
  refine ((stamps_visit place node).append
    (stamps_fields (passFields_nodup node) hbelow) ?_).congr (collectLambdas_eq · place node)
    (below_iff place node)
  rintro x x' ⟨hx, -⟩ ⟨f, -, j, child, -, hx'⟩ heq
  obtain ⟨path, hpath⟩ := hx'.place_eq
  rw [hx, hpath, List.append_assoc] at heq
  simp at heq
  termination_by sizeOf node

/-- The pass over a program numbers exactly the lambdas it walks to. -/
theorem stamps_program (decls : List AstNode) :
    Stamps (collectItems · [] 0 0 decls) fun x => LambdaAt passStep decls x.1 x.2.1 x.2.2 := by
  refine (stamps_items fun node _ => stamps_node node).congr (fun _ => rfl) fun x => ?_
  constructor
  · rintro ⟨i, decl, path, hplace, hdecl, hwalk⟩
    exact ⟨i, decl, hdecl, path, by simpa using hplace, hwalk⟩
  · rintro ⟨i, decl, hdecl, path, hplace, hwalk⟩
    exact ⟨i, decl, path, by simpa using hplace, hdecl, hwalk⟩

/-! ## §3 The numbers -/

/-- The pass before it meets a lambda. -/
def freshPass : LambdaPass := { lambdaCounter := 0, lambdaDecls := [], captures := fun _ => 0 }

theorem stamp_captures (cg : LambdaPass) (x : Found) :
    (stamp cg x).captures = Function.update cg.captures x.1 cg.lambdaCounter := rfl

theorem stamp_fold (found : List Found) :
    (found.foldl stamp freshPass).lambdaCounter = UInt32.ofNat found.length ∧
      (found.foldl stamp freshPass).lambdaDecls
        = found.mapIdx fun k x => lambdaFunc (UInt32.ofNat k) x.2.1 x.2.2 := by
  induction found using List.reverseRecOn with
  | nil => exact ⟨rfl, rfl⟩
  | append_singleton found x ih =>
    obtain ⟨hcounter, hdecls⟩ := ih
    rw [List.foldl_append, List.mapIdx_append]
    refine ⟨?_, ?_⟩
    · simp [stamp, registerLambda, hcounter]
    · simp [stamp, registerLambda, hcounter, hdecls]

/-- The `k`-th lambda met gets the number `k`. -/
theorem captures_met {found : List Found} (hnodup : (found.map Prod.fst).Nodup) {k : Nat}
    {x : Found} (hk : found[k]? = some x) :
    (found.foldl stamp freshPass).captures x.1 = UInt32.ofNat k := by
  induction found using List.reverseRecOn with
  | nil => simp at hk
  | append_singleton found y ih =>
    rw [List.map_append, List.nodup_append] at hnodup
    obtain ⟨hfound, -, hne⟩ := hnodup
    rw [List.foldl_append, List.foldl_cons, List.foldl_nil, stamp_captures]
    by_cases hlast : k < found.length
    · have hx : found[k]? = some x := by rwa [List.getElem?_append_left hlast] at hk
      have hplace : x.1 ≠ y.1 :=
        hne x.1 (List.mem_map.mpr ⟨x, List.mem_of_getElem? hx, rfl⟩) y.1 (by simp)
      rw [Function.update_of_ne hplace]
      exact ih hfound hx
    · rw [List.getElem?_append_right (by omega)] at hk
      obtain ⟨hzero, rfl⟩ : k - found.length = 0 ∧ y = x := by
        cases hsub : k - found.length with
        | zero => simpa [hsub] using hk
        | succ n => simp [hsub] at hk
      rw [Function.update_self, (stamp_fold found).1, show k = found.length by omega]

/-- A lambda that was not met keeps NULL. -/
theorem captures_unmet {found : List Found} {place : Place} (h : place ∉ found.map Prod.fst) :
    (found.foldl stamp freshPass).captures place = 0 := by
  induction found using List.reverseRecOn with
  | nil => rfl
  | append_singleton found y ih =>
    simp only [List.map_append, List.map_cons, List.map_nil, List.mem_append, List.mem_singleton,
      not_or] at h
    rw [List.foldl_append, List.foldl_cons, List.foldl_nil, stamp_captures,
      Function.update_of_ne h.2]
    exact ih h.1

/-- What `c_generate` has after the pass: the lambdas it walked to, in the
order of their numbers. -/
theorem numbered (decls : List AstNode) :
    ∃ found : List Found,
      (∀ x, x ∈ found ↔ LambdaAt passStep decls x.1 x.2.1 x.2.2) ∧ (found.map Prod.fst).Nodup ∧
        (collectProgram decls).lambdaDecls
          = (found.mapIdx fun k x => lambdaFunc (UInt32.ofNat k) x.2.1 x.2.2) ∧
        (∀ k x, found[k]? = some x → (collectProgram decls).captures x.1 = UInt32.ofNat k) ∧
        ∀ place, place ∉ found.map Prod.fst → (collectProgram decls).captures place = 0 := by
  obtain ⟨found, hfold, hmem, hnodup⟩ := stamps_program decls
  have hpass : collectProgram decls = found.foldl stamp freshPass := hfold freshPass
  refine ⟨found, hmem, hnodup, ?_, fun k x hk => ?_, fun place hplace => ?_⟩
  · rw [hpass]; exact (stamp_fold found).2
  · rw [hpass]; exact captures_met hnodup hk
  · rw [hpass]; exact captures_unmet hplace

/-! ## §4 The names -/

theorem lambdaName_injective {v w : UInt32} (h : lambdaName v = lambdaName w) : v = w :=
  signedDecimal_injective (List.append_cancel_left h)

theorem length_lambdaName_le (w : UInt32) : (lambdaName w).length ≤ 20 := by
  have hdigits := length_signedDecimal_le w
  rw [lambdaName, List.length_append, show (bytes "__lambda_").length = 9 from rfl]
  omega

/-- A numeral holds no letter. -/
theorem letter_notMem_signedDecimal (w : UInt32) : (114 : UInt8) ∉ signedDecimal w := by
  have hdecimal : ∀ n, (114 : UInt8) ∉ decimal n := by
    intro n hmem
    obtain ⟨m, hm, hdigit⟩ := digit_of_mem_decimal hmem
    have hnat := congrArg UInt8.toNat hdigit
    simp [digit] at hnat
    omega
  unfold signedDecimal
  split <;> simp [hdecimal]

/-- The name at the definition of a lambda's function. -/
theorem cFuncDeclName_lambdaFunc (w : UInt32) (params : List AstNode) (body : Option AstNode) :
    cFuncDeclName (lambdaFunc w params body)
      = some (lambdaName w ++
          if isMethod params then methodSuffix (lambdaReturnType body) else []) := by
  have hmain : lambdaName w ≠ bytes "main" := by
    intro h
    have hhead : some (95 : UInt8) = some 109 := congrArg List.head? h
    exact absurd hhead (by decide)
  have hplain : isOperatorName (lambdaName w) = false := rfl
  have hshort := length_lambdaName_le w
  have hcut : (lambdaName w).take 127 = lambdaName w := List.take_of_length_le (by omega)
  simp [lambdaFunc, cFuncDeclName, hmain, mangleFuncName, hplain, hcut]

/-- A suffix is not part of any lambda's name. -/
theorem lambdaName_ne_suffixed (v w : UInt32) (returnType : Option AstNode) :
    lambdaName v ++ methodSuffix returnType ≠ lambdaName w := by
  intro h
  have hletter : (114 : UInt8) ∈ methodSuffix returnType := by
    unfold methodSuffix
    split <;> decide
  rw [lambdaName, lambdaName, List.append_assoc, List.append_cancel_left_eq] at h
  exact letter_notMem_signedDecimal w (h ▸ List.mem_append_right _ hletter)

/-! ## §5 Every lambda denotes its own body -/

theorem ofNat_inj_of_le {j k n : Nat} (hn : n ≤ 2 ^ 32) (hj : j < n) (hk : k < n)
    (h : UInt32.ofNat j = UInt32.ofNat k) : j = k := by
  have hnat := congrArg UInt32.toNat h
  rwa [UInt32.toNat_ofNat_of_lt' (by show j < 2 ^ 32; omega),
    UInt32.toNat_ofNat_of_lt' (by show k < 2 ^ 32; omega)] at hnat

theorem LambdasReached.denote {decls : List AstNode} (h : LambdasReached decls) :
    LambdasDenote decls := by
  obtain ⟨found, hmem, hnodup, hdecls, hmet, -⟩ := numbered decls
  have hindex : ∀ {place params body}, LambdaAt everyStep decls place params body →
      ∃ k, found[k]? = some (place, params, body) := fun hat =>
    List.mem_iff_getElem?.mp ((hmem _).mpr (h.reached _ _ _ hat))
  have hfew : found.length ≤ 2 ^ 32 := by
    rw [← List.length_map (f := Prod.fst)]
    refine h.few _ hnodup fun place hplace => ?_
    obtain ⟨x, hx, rfl⟩ := List.mem_map.mp hplace
    exact ⟨x.2.1, x.2.2, ((hmem x).mp hx).every⟩
  constructor
  · intro place params body hat
    obtain ⟨k, hk⟩ := hindex hat
    have hfunc : lambdaFunc (UInt32.ofNat k) params body ∈ (collectProgram decls).lambdaDecls := by
      rw [hdecls, List.mem_iff_getElem?]
      exact ⟨k, by simp [hk]⟩
    refine ⟨_, hfunc, ?_, rfl, rfl⟩
    rw [cFuncDeclName_lambdaFunc, h.noSelf _ _ _ hat, emittedLambdaName, hmet k _ hk]
    simp
  · intro place place' params params' body body' hat hat' hne heq
    obtain ⟨k, hk⟩ := hindex hat
    obtain ⟨k', hk'⟩ := hindex hat'
    rw [emittedLambdaName, emittedLambdaName, hmet k _ hk, hmet k' _ hk'] at heq
    obtain rfl : k = k' := ofNat_inj_of_le hfew (List.getElem?_eq_some_iff.mp hk).1
      (List.getElem?_eq_some_iff.mp hk').1 (lambdaName_injective heq)
    have hsame := Option.some.inj (hk.symm.trans hk')
    exact hne (congrArg Prod.fst hsame)

theorem LambdasDenote.reached {decls : List AstNode} (h : LambdasDenote decls) :
    LambdasReached decls := by
  obtain ⟨found, hmem, hnodup, hdecls, hmet, hunmet⟩ := numbered decls
  have hfunc : ∀ func ∈ (collectProgram decls).lambdaDecls, ∃ k x, found[k]? = some x ∧
      func = lambdaFunc (UInt32.ofNat k) x.2.1 x.2.2 := by
    intro func hfunc
    rw [hdecls, List.mem_iff_getElem?] at hfunc
    obtain ⟨k, hk⟩ := hfunc
    rw [List.getElem?_mapIdx, Option.map_eq_some_iff] at hk
    obtain ⟨x, hx, rfl⟩ := hk
    exact ⟨k, x, hx, rfl⟩
  have hfoundAt : ∀ {k} {x : Found}, found[k]? = some x → LambdaAt passStep decls x.1 x.2.1 x.2.2 :=
    fun hk => (hmem _).mp (List.mem_of_getElem? hk)
  have hreached : ∀ place params body, LambdaAt everyStep decls place params body →
      LambdaAt passStep decls place params body := by
    intro place params body hat
    by_contra hno
    have hplace : place ∉ found.map Prod.fst := by
      intro hin
      obtain ⟨x, hx, rfl⟩ := List.mem_map.mp hin
      have hx' := (hmem x).mp hx
      obtain ⟨hparams, hbody⟩ := hat.unique hx'
      exact hno (hparams ▸ hbody ▸ hx')
    -- it is emitted as `__lambda_0`, the name of the first lambda met
    obtain ⟨func, hin, -, -⟩ := h.named place params body hat
    obtain ⟨k, x, hk, -⟩ := hfunc func hin
    obtain ⟨y, hy⟩ : ∃ y, found[0]? = some y := by
      have := (List.getElem?_eq_some_iff.mp hk).1
      exact ⟨found[0], List.getElem?_eq_getElem (by omega)⟩
    have hother : place ≠ y.1 := fun heq =>
      hplace (heq ▸ List.mem_map.mpr ⟨y, List.mem_of_getElem? hy, rfl⟩)
    refine h.distinct _ _ _ _ _ _ hat (hfoundAt hy).every hother ?_
    rw [emittedLambdaName, emittedLambdaName, hunmet place hplace, hmet 0 y hy]
    rfl
  refine ⟨hreached, fun place params body hat => ?_, fun places hplaces hall => ?_⟩
  · obtain ⟨func, hin, hname, hof⟩ := h.named place params body hat
    obtain ⟨k, x, -, rfl⟩ := hfunc func hin
    obtain ⟨hparams, -⟩ : x.2.1 = params ∧ x.2.2 = body := hof
    rw [cFuncDeclName_lambdaFunc, hparams, emittedLambdaName, Option.some_inj] at hname
    by_contra hself
    rw [Bool.not_eq_false] at hself
    rw [if_pos hself] at hname
    exact lambdaName_ne_suffixed _ _ _ hname
  · by_contra hmany
    have hsub : places ⊆ found.map Prod.fst := by
      intro place hplace
      obtain ⟨params, body, hat⟩ := hall place hplace
      exact List.mem_map.mpr ⟨_, (hmem (place, params, body)).mpr (hreached _ _ _ hat), rfl⟩
    have hlen := (List.subperm_of_subset hplaces hsub).length_le
    rw [List.length_map] at hlen
    -- the counter comes round at the lambda number 2^32
    obtain ⟨x, hx⟩ : ∃ x, found[0]? = some x := ⟨_, List.getElem?_eq_getElem (by omega)⟩
    obtain ⟨y, hy⟩ : ∃ y, found[2 ^ 32]? = some y := ⟨_, List.getElem?_eq_getElem (by omega)⟩
    have hother : x.1 ≠ y.1 := by
      intro heq
      have hx' : (found.map Prod.fst)[0]? = some x.1 := by
        rw [List.getElem?_map, hx]; rfl
      have hy' : (found.map Prod.fst)[2 ^ 32]? = some x.1 := by
        rw [List.getElem?_map, hy, heq]; rfl
      have hlt : 0 < (found.map Prod.fst).length := by rw [List.length_map]; omega
      have hsame := (List.getElem?_inj hlt hnodup).mp (hx'.trans hy'.symm)
      omega
    refine h.distinct _ _ _ _ _ _ (hfoundAt hx).every (hfoundAt hy).every hother ?_
    rw [emittedLambdaName, emittedLambdaName, hmet 0 x hx, hmet (2 ^ 32) y hy]
    rfl

/-- Every lambda is emitted under the name of a function with its own
parameters and body, and different lambdas under different names, if and
only if the pre-pass reaches every lambda, no lambda's first parameter is
named `self`, and there are at most `2^32` lambdas. -/
theorem lambdas_denote_iff (decls : List AstNode) : LambdasDenote decls ↔ LambdasReached decls :=
  ⟨LambdasDenote.reached, LambdasReached.denote⟩

/-- `func main() { let f = |x| { return x }; let g = [|y| { return y }] }`:
the second lambda is an array element. -/
def aliasedDecls : List AstNode :=
  [.funcDecl (bytes "main") [] [] none [] []
    (some (.block
      [.letNode (bytes "f") none (some (echo (bytes "x"))) false false,
        .letNode (bytes "g") none (some (.arrayLit [echo (bytes "y")])) false false])) {}]
where
  echo (name : Bytes) : AstNode :=
    .lambda [.param name none false false none] (some (.block [.returnNode (some (.ident name))]))

theorem element_lambda_aliased : ¬ ∀ decls, LambdasDenote decls := by
  intro hclaim
  have hfirst : LambdaAt everyStep aliasedDecls [(0, 0), (5, 0), (0, 0), (1, 0)] _ _ :=
    ⟨0, _, _, rfl, rfl, .step trivial rfl (.step trivial rfl (.step trivial rfl (.here _)))⟩
  have hsecond : LambdaAt everyStep aliasedDecls [(0, 0), (5, 0), (0, 1), (1, 0), (0, 0)] _ _ :=
    ⟨0, _, _, rfl, rfl,
      .step trivial rfl (.step trivial rfl (.step trivial rfl (.step trivial rfl (.here _))))⟩
  exact (hclaim aliasedDecls).distinct _ _ _ _ _ _ hfirst hsecond (by decide) rfl

end Aether.CTranspiler
